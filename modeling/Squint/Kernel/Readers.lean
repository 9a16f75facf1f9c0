import Mathlib.Data.Fintype.Basic
import Squint.Kernel.Device
import Squint.Lib.Ring

/-! Several readers of `/proc/squint` at a time. Writers hold `lock` while they put bytes into the
FIFO. Readers hold nothing: `kfifo_to_user` copies what it finds, and moves `out` after that. -/
namespace Squint.Kernel.Readers

open Lib (run Along)

/-- The FIFO, how much each reader of `ρ` has copied without having moved `out`, what writers have
put in, and what readers have got. -/
structure State (ρ : Type) where
  fifo : Lib.Ring Byte 32
  copied : ρ → Option ℕ
  accepted : List Byte
  delivered : List (ρ × List Byte)

inductive Action (ρ : Type) where
  | write (bytes : List Byte)
  | copy (r : ρ) (count : ℕ)
  | advance (r : ρ)
  deriving DecidableEq, Repr

variable {ρ : Type}

/-- The FIFO as `kfifo_alloc` leaves it, with anything in its cells. -/
def init (cells : ℕ → Byte) : State ρ := ⟨⟨cells, 0, 0⟩, fun _ => none, [], []⟩

def step [DecidableEq ρ] (s : State ρ) : Action ρ → Option (State ρ)
  | .write bytes =>
    some { s with
      fifo := s.fifo.push kfifoLen bytes
      accepted := s.accepted ++ bytes.take (s.fifo.unused kfifoLen) }
  | .copy r count =>
    if s.copied r = none then
      let bytes := s.fifo.peek kfifoLen count
      some { s with
        copied := Function.update s.copied r (some bytes.length)
        delivered := s.delivered ++ [(r, bytes)] }
    else none
  | .advance r =>
    match s.copied r with
    | none => none
    | some k =>
      some { s with fifo := s.fifo.advance k, copied := Function.update s.copied r none }

def State.output (s : State ρ) : List Byte := s.delivered.flatMap (·.2)

def State.contents (s : State ρ) : List Byte := s.fifo.peek kfifoLen s.fifo.used

/-- No reader copies while another has still to move `out`. -/
def Exclusive (s : State ρ) : Action ρ → Prop
  | .copy _ _ => ∀ q, s.copied q = none
  | _ => True

instance [Fintype ρ] (s : State ρ) (a : Action ρ) : Decidable (Exclusive s a) := by
  unfold Exclusive
  split <;> infer_instance

/-- At most one reader has copied what is still in the FIFO. -/
inductive InTurn (s : State ρ) (xs : List Byte) : Prop
  | idle (hidle : ∀ q, s.copied q = none) (h : s.accepted = s.output ++ xs)
  | reading {r k} (hr : s.copied r = some k) (hothers : ∀ q ≠ r, s.copied q = none)
      (hk : k ≤ xs.length) (h : s.accepted = s.output ++ xs.drop k)

/-- The FIFO holds what was accepted and not yet taken off. -/
def Orderly (s : State ρ) : Prop :=
  ∃ base xs, s.fifo.Holds kfifoLen base xs ∧ InTurn s xs

theorem orderly_init (cells : ℕ → Byte) : Orderly (init cells : State ρ) := by
  refine ⟨0, [], ⟨rfl, rfl, Nat.zero_le _, by simp⟩, ?_⟩
  exact .idle (fun _ => rfl) rfl

section
variable [DecidableEq ρ] {s t : State ρ}

theorem Orderly.write (hs : Orderly s) {bytes : List Byte} (h : step s (.write bytes) = some t) :
    Orderly t := by
  obtain rfl := Option.some.inj h
  obtain ⟨base, xs, hfifo, hturn⟩ := hs
  have hpush := hfifo.push (by decide) (by decide) bytes
  rw [← hfifo.unused_eq (by decide)] at hpush
  generalize s.fifo.push kfifoLen bytes = fifo at *
  generalize bytes.take (s.fifo.unused kfifoLen) = ys at *
  refine ⟨base, xs ++ ys, hpush, ?_⟩
  cases hturn with
  | idle hidle hacc =>
    refine .idle hidle ?_
    show s.accepted ++ ys = s.output ++ (xs ++ ys)
    rw [hacc, List.append_assoc]
  | @reading r k hr hothers hk hacc =>
    refine .reading hr hothers (by rw [List.length_append]; omega) ?_
    show s.accepted ++ ys = s.output ++ (xs ++ ys).drop k
    rw [hacc, List.append_assoc, List.drop_append_of_le_length hk]

theorem Orderly.copy (hs : Orderly s) {r : ρ} {count : ℕ} (hidle : ∀ q, s.copied q = none)
    (h : step s (.copy r count) = some t) : Orderly t := by
  obtain ⟨base, xs, hfifo, hturn⟩ := hs
  have hpeek := hfifo.peek (by decide) (by decide) count
  rw [step, if_pos (hidle r), hpeek] at h
  obtain rfl := Option.some.inj h
  have hacc : s.accepted = s.output ++ xs := by
    cases hturn with
    | idle _ hacc => exact hacc
    | reading hr => simp [hidle] at hr
  refine ⟨base, xs, hfifo, .reading (r := r) (k := (xs.take count).length) ?_ ?_ (by simp) ?_⟩
  · exact Function.update_self ..
  · intro q hq
    exact (Function.update_of_ne hq _ _).trans (hidle q)
  · show s.accepted = (s.delivered ++ [(r, xs.take count)]).flatMap (·.2) ++ _
    rw [hacc, List.flatMap_append, List.append_assoc, State.output]
    congr 1
    by_cases hcount : count ≤ xs.length
    · simp [List.length_take, hcount]
    · simp [List.take_of_length_le (by omega : xs.length ≤ count)]

theorem Orderly.advance (hs : Orderly s) {r : ρ} (h : step s (.advance r) = some t) :
    Orderly t := by
  obtain ⟨base, xs, hfifo, hturn⟩ := hs
  cases hturn with
  | idle hidle => simp [step, hidle] at h
  | @reading r' k hr hothers hk hacc =>
    by_cases hrr : r = r'
    · subst hrr
      simp only [step, hr, Option.some.injEq] at h
      subst h
      refine ⟨base + k, xs.drop k, hfifo.advance hk, .idle (fun q => ?_) hacc⟩
      by_cases hq : q = r
      · simp [hq]
      · exact (Function.update_of_ne hq _ _).trans (hothers q hq)
    · simp [step, hothers r hrr] at h

theorem step_orderly {a : Action ρ} (hs : Orderly s) (ha : Exclusive s a)
    (h : step s a = some t) : Orderly t := by
  cases a with
  | write bytes => exact hs.write h
  | copy r count => exact hs.copy ha h
  | advance r => exact hs.advance h

/-- As long as readers take turns, `out` does not pass `in`, and what readers get is what writers
put in, each byte once and in order. -/
theorem output_exact {cells : ℕ → Byte} {as : List (Action ρ)} {s : State ρ}
    (halong : Along Exclusive step (init cells) as)
    (h : run step (init cells) as = some s) :
    s.fifo.used ≤ kfifoLen ∧ s.output <+: s.accepted ∧
      ((∀ r, s.copied r = none) → s.accepted = s.output ++ s.contents) := by
  obtain ⟨base, xs, hfifo, hturn⟩ :=
    halong.invariant (fun _ _ _ hs ha hu => step_orderly hs ha hu) (orderly_init cells) h
  have hused := hfifo.used_eq (by decide)
  have hcontents : s.contents = xs := by
    rw [State.contents, hused, hfifo.peek (by decide) (by decide), List.take_length]
  rw [hcontents, hused]
  refine ⟨hfifo.bounded, ?_, fun hidle => ?_⟩
  · cases hturn with
    | idle _ hacc => exact hacc ▸ List.prefix_append _ _
    | reading _ _ _ hacc => exact hacc ▸ List.prefix_append _ _
  · cases hturn with
    | idle _ hacc => exact hacc
    | reading hr => simp [hidle] at hr

end

/-- Two readers, one after the other, and a write while the first is under way. -/
theorem inTurn_output : ∃ s : State Bool, s.output = [0x61, 0x62, 0x63] ∧
    s.output <+: s.accepted := by
  let as : List (Action Bool) := [.write [0x61, 0x62], .copy false 1, .write [0x63],
    .advance false, .copy true 10, .advance true]
  have hpair : (run step (init fun _ => 0) as).map (·.output) = some [0x61, 0x62, 0x63] := by
    decide +kernel
  obtain ⟨s, h, houtput⟩ := Option.map_eq_some_iff.mp hpair
  exact ⟨s, houtput, (output_exact (by decide +kernel) h).2.1⟩

/-- Both readers copy the only byte before either moves `out`: they get it twice, and `out` is one
ahead of `in`. -/
theorem overlapping_readers : ∃ s : State Bool,
    run step (init fun _ => 0)
      [.write [0x61], .copy false 1, .copy true 1, .advance false, .advance true] = some s ∧
    s.accepted = [0x61] ∧ s.delivered = [(false, [0x61]), (true, [0x61])] ∧
    s.fifo.used = 2 ^ 32 - 1 ∧ ¬ s.fifo.used ≤ kfifoLen := by
  exact ⟨_, rfl, by decide +kernel, by decide +kernel, by decide +kernel, by decide +kernel⟩

end Squint.Kernel.Readers
