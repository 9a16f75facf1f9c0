import Mathlib.Order.Monotone.Basic
import Squint.Lib.Graph
import Squint.IR.Program

/-! Paths through a function, and what one instruction more does to them. A path leads through
instructions and through the edges between blocks: an invoke defines its result on one of its
edges, and a phi uses its operands on the edges into its block. -/
namespace Squint.IR

/-- The `k`-th instruction of a block, blocks counted as well, or an edge out of the block. -/
inductive Point where
  | inst (block k : ℕ)
  | edge (block : ℕ) (target : Label)
  deriving DecidableEq, Repr

namespace Function

def inst? (F : Function) (j k : ℕ) : Option Inst := F.blocks[j]?.bind (·.insts[k]?)

def label? (F : Function) (j : ℕ) : Option Label := F.blocks[j]?.map (·.label)

/-- One step of control, exceptions included. -/
def Flow (F : Function) : Point → Point → Prop
  | .inst j k, .inst j' k' => j' = j ∧ k' = k + 1 ∧ (F.inst? j k').isSome = true
  | .inst j k, .edge j' l => j' = j ∧ ∃ i ∈ F.inst? j k, l ∈ i.successors
  | .edge _ l, .inst j' k' => k' = 0 ∧ F.label? j' = some l
  | .edge _ _, .edge _ _ => False

def entry : Point := .inst 0 0

def Reachable (F : Function) (p : Point) : Prop := Relation.ReflTransGen F.Flow entry p

def Dominates (F : Function) (p q : Point) : Prop := Lib.Dominates F.Flow entry p q

theorem inst?_mem {F : Function} {j k : ℕ} {i : Inst} (h : F.inst? j k = some i) :
    ∃ b, F.blocks[j]? = some b ∧ b ∈ F.blocks ∧ i ∈ b.insts := by
  obtain ⟨b, hb, hi⟩ := Option.bind_eq_some_iff.mp h
  exact ⟨b, hb, List.mem_of_getElem? hb, List.mem_of_getElem? hi⟩

/-- Inside a block there is one way to get to an instruction. -/
theorem reachesWithout_pred {F : Function} {a : Point} {j k : ℕ}
    (h : Lib.ReachesWithout F.Flow entry a (.inst j (k + 1))) :
    Lib.ReachesWithout F.Flow entry a (.inst j k) := by
  obtain ⟨hstart, hpath⟩ := h
  rcases hpath.cases_tail with heq | ⟨p, hp, hflow, -⟩
  · simp [entry] at heq
  · cases p with
    | inst j' k' =>
      obtain ⟨rfl, hk, -⟩ := hflow
      obtain rfl : k = k' := by omega
      exact ⟨hstart, hp⟩
    | edge j' l => simp [Flow] at hflow

theorem dominates_of_lt (F : Function) (j : ℕ) {k k' : ℕ} (h : k < k') :
    F.Dominates (.inst j k) (.inst j k') := by
  induction h with
  | refl => exact fun hreach => (reachesWithout_pred hreach).ne rfl
  | step _ ih => exact fun hreach => ih (reachesWithout_pred hreach)

end Function

/-- Points go along with their instructions; `pos j` says where those of block `j` have gone. -/
def Point.move (pos : ℕ → ℕ → ℕ) : Point → Point
  | .inst j k => .inst j (pos j k)
  | .edge j l => .edge j l

structure Site where
  before : List Block
  label : Label
  left : List Inst
  right : List Inst
  after : List Block

namespace Site

/-- `F` with the body around the site, and `new` at it. -/
def fill (s : Site) (F : Function) (new : List Inst) : Function :=
  { F with blocks := s.before ++ ⟨s.label, s.left ++ new ++ s.right⟩ :: s.after }

def block (s : Site) : ℕ := s.before.length

def index (s : Site) : ℕ := s.left.length

def point (s : Site) : Point := .inst s.block s.index

/-- Where an instruction has gone when there is one more at the site. -/
def pos (s : Site) (j k : ℕ) : ℕ := if j = s.block ∧ s.index ≤ k then k + 1 else k

variable (s : Site) (F : Function) (new : List Inst) (x : Inst)

theorem inst?_fill_self (k : ℕ) :
    (s.fill F new).inst? s.block k = (s.left ++ new ++ s.right)[k]? := by
  simp [Function.inst?, fill, block]

theorem inst?_fill_of_ne {j : ℕ} (h : j ≠ s.block) (k : ℕ) :
    (s.fill F new).inst? j k = (s.fill F []).inst? j k := by
  unfold Function.inst? fill
  rcases Nat.lt_or_gt_of_ne h with h | h
  · simp only [List.getElem?_append_left h]
  · obtain ⟨n, rfl⟩ : ∃ n, j = s.before.length + (n + 1) :=
      ⟨j - s.block - 1, by unfold block at *; omega⟩
    simp [List.getElem?_append_right]

theorem label?_fill (j : ℕ) : (s.fill F new).label? j = (s.fill F []).label? j := by
  simp only [Function.label?, ← List.getElem?_map]
  simp [fill]

theorem inst?_fill_pos (j k : ℕ) :
    (s.fill F [x]).inst? j (s.pos j k) = (s.fill F []).inst? j k := by
  by_cases hj : j = s.block
  · subst hj
    rw [inst?_fill_self, inst?_fill_self]
    by_cases hk : s.index ≤ k
    · obtain ⟨n, rfl⟩ := Nat.exists_eq_add_of_le hk
      have hpos : s.pos s.block (s.index + n) = s.left.length + (n + 1) := by
        simp [pos, index, Nat.add_assoc]
      rw [hpos]
      simp [index, List.getElem?_append_right]
    · have hlt : k < s.left.length := Nat.lt_of_not_le hk
      simp [pos, hk, List.getElem?_append_left hlt]
  · rw [inst?_fill_of_ne s F [x] hj]
    simp [pos, hj]

theorem inst?_fill_new : (s.fill F [x]).inst? s.block s.index = some x := by
  simp [inst?_fill_self, index]

theorem strictMono_pos (j : ℕ) : StrictMono (s.pos j) := by
  intro a b hab
  unfold pos
  split_ifs <;> omega

theorem eq_or_exists_pos (j k : ℕ) : (j = s.block ∧ k = s.index) ∨ ∃ k₀, s.pos j k₀ = k := by
  by_cases hj : j = s.block
  · rcases Nat.lt_trichotomy k s.index with hk | hk | hk
    · exact .inr ⟨k, by unfold pos; split_ifs <;> omega⟩
    · exact .inl ⟨hj, hk⟩
    · exact .inr ⟨k - 1, by unfold pos; split_ifs <;> omega⟩
  · exact .inr ⟨k, by simp [pos, hj]⟩

theorem move_pos_ne_point (p : Point) : p.move s.pos ≠ s.point := by
  cases p with
  | edge j l => simp [Point.move, point]
  | inst j k =>
    simp only [Point.move, point, pos, ne_eq, Point.inst.injEq, not_and]
    split_ifs <;> omega

theorem point_move : s.point.move s.pos = .inst s.block (s.index + 1) := by
  simp [point, Point.move, pos]

theorem move_pos_injective : Function.Injective (Point.move s.pos) := by
  intro p q h
  cases p <;> cases q <;>
    simp only [Point.move, Point.inst.injEq, Point.edge.injEq, reduceCtorEq] at h
  · obtain ⟨rfl, h⟩ := h
    exact congrArg _ ((s.strictMono_pos _).injective h)
  · obtain ⟨rfl, rfl⟩ := h
    rfl

theorem eq_point_or_exists_move (p : Point) : p = s.point ∨ ∃ q : Point, q.move s.pos = p := by
  cases p with
  | edge j l => exact .inr ⟨.edge j l, rfl⟩
  | inst j k =>
    rcases s.eq_or_exists_pos j k with ⟨rfl, rfl⟩ | ⟨k₀, rfl⟩
    · exact .inl rfl
    · exact .inr ⟨.inst j k₀, rfl⟩

theorem entry_move : (Function.entry = s.point ∧ Function.entry = s.point) ∨
    (Function.entry ≠ s.point ∧ Function.entry = Function.entry.move s.pos) := by
  by_cases h : Function.entry = s.point
  · exact .inl ⟨h, h⟩
  · refine .inr ⟨h, ?_⟩
    simp only [Function.entry, point, Point.inst.injEq] at h
    simp only [Function.entry, Point.move, pos, Point.inst.injEq, true_and]
    split_ifs <;> omega

/-- Control flows between old points as it did, but no longer to the one after the new. -/
theorem flow_move_iff (u : Point) {v : Point} (hv : v ≠ s.point) :
    (s.fill F [x]).Flow (u.move s.pos) (v.move s.pos) ↔ (s.fill F []).Flow u v := by
  cases u <;> cases v
  · simp only [Point.move, Function.Flow]
    refine and_congr_right ?_
    rintro rfl
    rw [inst?_fill_pos]
    refine and_congr_left fun _ => ?_
    simp only [ne_eq, point, Point.inst.injEq, not_and] at hv
    unfold pos
    split_ifs <;> omega
  · simp [Point.move, Function.Flow, inst?_fill_pos]
  · simp only [Point.move, Function.Flow, s.label?_fill F [x]]
    refine and_congr_left fun _ => ?_
    simp only [ne_eq, point, Point.inst.injEq, not_and] at hv
    unfold pos
    split_ifs
    · exact iff_of_false id (by omega)
    · rfl
  · simp [Point.move, Function.Flow]

theorem not_flow_move_point (u : Point) :
    ¬ (s.fill F [x]).Flow (u.move s.pos) (s.point.move s.pos) := by
  rw [point_move]
  cases u
  · simp only [Point.move, Function.Flow]
    rintro ⟨rfl, h, -⟩
    unfold pos at h
    split_ifs at h <;> omega
  · simp [Point.move, Function.Flow]

section
variable {s} (hright : s.right ≠ [])
include hright

theorem isSome_inst?_fill : ((s.fill F []).inst? s.block s.index).isSome = true := by
  rw [inst?_fill_self]
  simpa [index, List.length_pos_iff] using hright

/-- It flows to the new point from where it flowed to the one that was there. -/
theorem flow_move_point_iff (u : Point) :
    (s.fill F [x]).Flow (u.move s.pos) s.point ↔ (s.fill F []).Flow u s.point := by
  cases u
  · simp only [Point.move, Function.Flow, point]
    refine and_congr_right ?_
    rintro rfl
    rw [inst?_fill_new, isSome_inst?_fill F hright]
    simp only [Option.isSome_some, and_true]
    unfold pos
    split_ifs <;> omega
  · simp [Point.move, Function.Flow, point, s.label?_fill F [x]]

theorem flow_point_iff {x : Inst} (hx : x.successors = []) (v : Point) :
    (s.fill F [x]).Flow s.point v ↔ v = s.point.move s.pos := by
  have hnext : ((s.fill F [x]).inst? s.block (s.index + 1)).isSome = true := by
    have hpos := s.inst?_fill_pos F x s.block s.index
    rw [show s.pos s.block s.index = s.index + 1 by simp [pos]] at hpos
    rw [hpos, isSome_inst?_fill F hright]
  rw [point_move]
  cases v
  · simp only [point, Function.Flow, Point.inst.injEq]
    constructor
    · rintro ⟨rfl, rfl, -⟩
      exact ⟨rfl, rfl⟩
    · rintro ⟨rfl, rfl⟩
      exact ⟨rfl, rfl, hnext⟩
  · simp [point, Function.Flow, inst?_fill_new, hx]

end

/-- A new instruction that does not end the block is one more vertex, in front of the one that was
at its place. -/
theorem insertedBefore (hx : x.successors = []) (hright : s.right ≠ []) :
    Lib.InsertedBefore (s.fill F []).Flow Function.entry (s.fill F [x]).Flow Function.entry
      (Point.move s.pos) s.point s.point where
  inj := s.move_pos_injective
  fresh := s.move_pos_ne_point
  surj := s.eq_point_or_exists_move
  start := s.entry_move
  old u _ hv := s.flow_move_iff F x u hv
  into u := flow_move_point_iff F x hright u
  skip u := s.not_flow_move_point F x u
  next v := flow_point_iff F hright hx v

end Site

end Squint.IR
