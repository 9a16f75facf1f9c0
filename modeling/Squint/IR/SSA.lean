import Squint.IR.Dominance
import Squint.IR.Schedule

/-! What LLVM's verifier asks of a function: definitions before uses on every path, one type for
each register, arguments as the callee takes them. The passes keep all of it. -/
namespace Squint.IR

def Callee.operands : Callee → List Operand
  | value v _ => [v]
  | _ => []

def Terminator.operands : Terminator → List Operand
  | ret v => v.toList
  | condBr c _ _ => [c]
  | switch v _ _ => [v]
  | invoke _ callee args _ _ => callee.operands ++ args
  | resume v => [v]
  | _ => []

namespace Inst

def operands : Inst → List Operand
  | phi _ _ incoming => incoming.map (·.2)
  | store value pointer => [value, pointer]
  | ptrToInt _ v _ => [v]
  | op _ _ args => args
  | call _ callee args => callee.operands ++ args
  | term t => t.operands

def dst : Inst → List ℕ
  | phi d _ _ => [d]
  | ptrToInt d _ _ => [d]
  | op d _ _ => d.toList
  | call d _ _ => d.toList
  | term (.invoke d _ _ _ _) => d.toList
  | _ => []

/-- The function a call or an invoke names, with the types of the arguments. -/
def directCall : Inst → Option (Name × List Ty)
  | call _ (.fn n) args => some (n, args.map (·.ty))
  | term (.invoke _ (.fn n) args _ _) => some (n, args.map (·.ty))
  | _ => none

end Inst

def Operand.HasTy (ty : ℕ → Ty) : Operand → Prop
  | reg r t => ty r = t
  | const _ => True

def Inst.HasTy (ty : ℕ → Ty) : Inst → Prop
  | phi d t _ => ty d = t
  | ptrToInt d _ t => ty d = t
  | _ => True

namespace Function

def dsts (F : Function) : List ℕ :=
  F.params.map (·.1) ++ F.blocks.flatMap fun b => b.insts.flatMap Inst.dst

/-- The result of an invoke is there once control has left it the normal way. -/
def Defines (F : Function) (r : ℕ) : Point → Prop
  | .inst j k => ∃ i ∈ F.inst? j k, i.isTerm = false ∧ r ∈ i.dst
  | .edge j l => ∃ k callee args target,
      F.inst? j k = some (.term (.invoke (some r) callee args l target))

/-- The definition of `r` is on every path to `p`, and before `p` if there are any. -/
def Available (F : Function) (r : ℕ) (p : Point) : Prop :=
  r ∈ F.params.map (·.1) ∨ ∃ d, F.Defines r d ∧ F.Dominates d p ∧ (d = p → ¬ F.Reachable p)

/-- The same for a use on an edge, which may be the edge of the definition. -/
def AvailableOn (F : Function) (r : ℕ) (p : Point) : Prop :=
  r ∈ F.params.map (·.1) ∨ ∃ d, F.Defines r d ∧ F.Dominates d p

structure Typed (F : Function) (ty : ℕ → Ty) : Prop where
  params : ∀ p ∈ F.params, ty p.1 = p.2
  insts : ∀ j k i, F.inst? j k = some i → i.HasTy ty ∧ ∀ v ∈ i.operands, v.HasTy ty

/-- The verifier's rules, where `accepts` says which argument types a function may be called with.
The first non-phi instruction of a block, and no other, may be a landing pad. -/
structure SSA (accepts : Name → List Ty → Prop) (F : Function) : Prop where
  wellFormed : F.WellFormed
  dsts_nodup : F.dsts.Nodup
  types : ∃ ty, F.Typed ty
  pads : ∀ j k i, F.inst? j k = some i → i.isEHPad = true →
    ∀ k' < k, ∀ i', F.inst? j k' = some i' → i'.isPhi = true
  uses : ∀ j k i, F.inst? j k = some i → i.isPhi = false →
    ∀ v ∈ i.operands, ∀ r ∈ v.regs, F.Available r (.inst j k)
  phis : ∀ j k d ty incoming, F.inst? j k = some (.phi d ty incoming) → ∀ p ∈ incoming,
    ∀ r ∈ p.2.regs, ∀ j₀ l, F.label? j₀ = some p.1 → F.label? j = some l →
      F.AvailableOn r (.edge j₀ l)
  calls : ∀ j k i, F.inst? j k = some i → ∀ n tys, i.directCall = some (n, tys) → accepts n tys

theorem SSA.mono {accepts accepts' : Name → List Ty → Prop} {F : Function} (h : F.SSA accepts)
    (hacc : ∀ n tys, accepts n tys → accepts' n tys) : F.SSA accepts' :=
  { h with calls := fun j k i hi n tys hc => hacc n tys (h.calls j k i hi n tys hc) }

end Function

/-! ## Registers -/

theorem Inst.mem_regs_of_dst {i : Inst} {r : ℕ} (h : r ∈ i.dst) : r ∈ i.regs := by
  unfold dst at h
  split at h <;> simp_all [regs, Terminator.regs]

theorem Callee.mem_regs {c : Callee} {v : Operand} {r : ℕ} (hv : v ∈ c.operands)
    (hr : r ∈ v.regs) : r ∈ c.regs := by
  cases c <;> simp_all [operands, regs]

theorem Terminator.mem_regs {t : Terminator} {v : Operand} {r : ℕ} (hv : v ∈ t.operands)
    (hr : r ∈ v.regs) : r ∈ t.regs := by
  cases t with
  | ret o => cases o <;> simp_all [operands, regs]
  | invoke d callee args l₁ l₂ =>
    simp only [operands, List.mem_append] at hv
    simp only [regs, List.mem_append, List.mem_flatMap]
    rcases hv with hv | hv
    · exact .inl (.inr (Callee.mem_regs hv hr))
    · exact .inr ⟨v, hv, hr⟩
  | _ => simp_all [operands, regs]

theorem Inst.mem_regs_of_operand {i : Inst} {v : Operand} {r : ℕ} (hv : v ∈ i.operands)
    (hr : r ∈ v.regs) : r ∈ i.regs := by
  cases i with
  | phi d ty incoming =>
    obtain ⟨p, hp, rfl⟩ := List.mem_map.mp hv
    exact List.mem_cons_of_mem _ (List.mem_flatMap.mpr ⟨p, hp, hr⟩)
  | store a b =>
    simp only [operands, List.mem_cons, List.not_mem_nil, or_false] at hv
    rcases hv with rfl | rfl <;> simp [regs, hr]
  | ptrToInt d a ty =>
    obtain rfl := List.mem_singleton.mp hv
    exact List.mem_cons_of_mem _ hr
  | op d code args => exact List.mem_append_right _ (List.mem_flatMap.mpr ⟨v, hv, hr⟩)
  | call d callee args =>
    simp only [operands, List.mem_append] at hv
    simp only [regs, List.mem_append, List.mem_flatMap]
    rcases hv with hv | hv
    · exact .inl (.inr (Callee.mem_regs hv hr))
    · exact .inr ⟨v, hv, hr⟩
  | term t => exact Terminator.mem_regs hv hr

namespace Function

variable {F : Function} {r : ℕ}

theorem mem_regs_of_inst? {j k : ℕ} {i : Inst} (hi : F.inst? j k = some i) (hr : r ∈ i.regs) :
    r ∈ F.regs := by
  obtain ⟨b, -, hb, hi⟩ := inst?_mem hi
  exact mem_regs_of_inst hb hi hr

theorem Defines.mem_regs {d : Point} (h : F.Defines r d) : r ∈ F.regs := by
  cases d with
  | inst j k =>
    obtain ⟨i, hi, -, hr⟩ := h
    exact mem_regs_of_inst? hi (Inst.mem_regs_of_dst hr)
  | edge j l =>
    obtain ⟨k, callee, args, target, hi⟩ := h
    exact mem_regs_of_inst? hi (Inst.mem_regs_of_dst (by simp [Inst.dst]))

theorem Available.mem_regs {p : Point} (h : F.Available r p) : r ∈ F.regs := by
  rcases h with h | ⟨d, hd, -⟩
  · exact List.mem_append_left _ h
  · exact hd.mem_regs

theorem dsts_subset_regs : F.dsts ⊆ F.regs := by
  refine List.append_subset.mpr ⟨List.subset_append_left _ _, fun r hr => ?_⟩
  obtain ⟨b, hb, hr⟩ := List.mem_flatMap.mp hr
  obtain ⟨i, hi, hr⟩ := List.mem_flatMap.mp hr
  exact mem_regs_of_inst hb hi (Inst.mem_regs_of_dst hr)

end Function

/-! ## One instruction more -/

def callbackTypes (dl : DataLayout) (n : Name) : Option (List Ty) :=
  if n = writeFenceTraceWrapper then some []
  else if n = writeFlushTraceWrapper then some [.int (dl.pointerSizeInBits 0)]
  else if n = writeStoreTraceWrapper then some [.int (dl.pointerSizeInBits 0), .int 32]
  else none

theorem callbackTypes_fence (dl : DataLayout) :
    callbackTypes dl writeFenceTraceWrapper = some [] := by
  simp [callbackTypes]

theorem callbackTypes_flush (dl : DataLayout) :
    callbackTypes dl writeFlushTraceWrapper = some [.int (dl.pointerSizeInBits 0)] := by
  simp [callbackTypes, writeFenceTraceWrapper, writeFlushTraceWrapper]

theorem callbackTypes_store (dl : DataLayout) :
    callbackTypes dl writeStoreTraceWrapper =
      some [.int (dl.pointerSizeInBits 0), .int 32] := by
  simp [callbackTypes, writeFenceTraceWrapper, writeFlushTraceWrapper, writeStoreTraceWrapper]

/-- A cast of a pointer to an address, or a call of a callback with arguments of its types. -/
def IsCallback (dl : DataLayout) : Inst → Prop
  | .ptrToInt _ v ty => v.ty.isPointer = true ∧ ty = .int (dl.pointerSizeInBits 0)
  | .call none (.fn n) args => callbackTypes dl n = some (args.map (·.ty))
  | _ => False

theorem IsCallback.plain {dl : DataLayout} {x : Inst} (h : IsCallback dl x) :
    x.isPhi = false ∧ x.isTerm = false ∧ x.isStore = false ∧ x.isEHPad = false ∧
      x.successors = [] := by
  unfold IsCallback at h
  split at h <;> simp_all [Inst.isPhi, Inst.isTerm, Inst.isStore, Inst.isEHPad, Inst.successors]

theorem IsCallback.dst_nodup {dl : DataLayout} {x : Inst} (h : IsCallback dl x) : x.dst.Nodup := by
  unfold IsCallback at h
  split at h <;> simp_all [Inst.dst]

namespace Site

variable {s : Site} {F : Function} {x : Inst} {dl : DataLayout} {r : ℕ}

/-- The place is in front of an instruction that is neither a phi nor a landing pad. -/
def Open (s : Site) : Prop := ∃ i rest, s.right = i :: rest ∧ i.isPhi = false ∧ i.isEHPad = false

theorem Open.right_ne_nil (h : s.Open) : s.right ≠ [] := by
  obtain ⟨i, rest, hr, -⟩ := h
  simp [hr]

theorem Open.inst? (h : s.Open) :
    ∃ i, (s.fill F []).inst? s.block s.index = some i ∧ i.isPhi = false ∧ i.isEHPad = false := by
  obtain ⟨i, rest, hr, hi⟩ := h
  exact ⟨i, by simp [inst?_fill_self, index, hr], hi⟩

theorem mem_fill {b' : Block} (h : b' ∈ (s.fill F [x]).blocks) :
    ∃ b ∈ (s.fill F []).blocks, b'.label = b.label ∧ ∀ i ∈ b'.insts, i = x ∨ i ∈ b.insts := by
  simp only [fill, List.mem_append, List.mem_cons] at h
  rcases h with h | rfl | h
  · exact ⟨b', by simp [fill, h], rfl, fun i hi => .inr hi⟩
  · refine ⟨⟨s.label, s.left ++ [] ++ s.right⟩, by simp [fill], rfl, fun i hi => ?_⟩
    simp only [List.mem_append, List.mem_cons, List.not_mem_nil, or_false] at hi ⊢
    tauto
  · exact ⟨b', by simp [fill, h], rfl, fun i hi => .inr hi⟩

theorem head?_fill {b' : Block} (h : b' ∈ (s.fill F [x]).blocks.head?) :
    ∃ b ∈ (s.fill F []).blocks.head?, b'.label = b.label ∧ ∀ i ∈ b'.insts, i = x ∨ i ∈ b.insts := by
  unfold fill at h ⊢
  cases hb : s.before with
  | nil =>
    simp only [hb, List.nil_append, List.head?_cons, Option.mem_some_iff] at h ⊢
    refine ⟨_, rfl, h ▸ rfl, fun i hi => ?_⟩
    simp only [← h, List.mem_append, List.mem_cons, List.not_mem_nil, or_false] at hi ⊢
    tauto
  | cons b bs =>
    simp only [hb, List.cons_append, List.head?_cons, Option.mem_some_iff] at h ⊢
    exact ⟨b, rfl, h ▸ rfl, fun i hi => .inr (h ▸ hi)⟩

/-- An instruction in front of one that is not a phi goes between the phis and the terminator. -/
theorem shaped_insert {l : Label} {left rest : List Inst} {i : Inst} (hi : i.isPhi = false)
    (hx : x.isPhi = false ∧ x.isTerm = false) (h : Block.Shaped ⟨l, left ++ i :: rest⟩) :
    Block.Shaped ⟨l, left ++ x :: i :: rest⟩ := by
  obtain ⟨phis, body, t, heq, hphis, hbody⟩ := h
  simp only [List.append_assoc] at heq
  rcases List.append_eq_append_iff.mp heq with ⟨a, rfl, ha⟩ | ⟨c, rfl, hc⟩
  · cases a with
    | nil =>
      refine ⟨left, x :: body, t, ?_, fun j hj => hphis j (by simp [hj]), ?_⟩
      · simp_all
      · simpa using ⟨hx, hbody⟩
    | cons y a =>
      obtain ⟨rfl, -⟩ := List.cons.inj ha
      simp [hphis i (by simp)] at hi
  · -- behind the phis, the site is in the body or right in front of the terminator
    obtain ⟨c', rfl, hc'⟩ : ∃ c', body = c ++ c' ∧ i :: rest = c' ++ [.term t] := by
      rcases List.append_eq_append_iff.mp hc with ⟨c', rfl, hc'⟩ | ⟨a, rfl, ha⟩
      · exact ⟨[], by cases c' <;> simp_all, by cases c' <;> simp_all⟩
      · exact ⟨a, rfl, ha⟩
    refine ⟨phis, c ++ x :: c', t, by simp [hc'], hphis, fun j hj => ?_⟩
    simp only [List.mem_append, List.mem_cons] at hj
    rcases hj with hj | rfl | hj
    · exact hbody j (by simp [hj])
    · exact hx
    · exact hbody j (by simp [hj])

theorem defines_move {d : Point} (h : (s.fill F []).Defines r d) :
    (s.fill F [x]).Defines r (d.move s.pos) := by
  cases d with
  | inst j k =>
    obtain ⟨i, hi, hr⟩ := h
    exact ⟨i, (s.inst?_fill_pos F x j k).trans hi, hr⟩
  | edge j l =>
    obtain ⟨k, callee, args, target, hi⟩ := h
    exact ⟨s.pos j k, callee, args, target, (s.inst?_fill_pos F x j k).trans hi⟩

section
variable (hx : IsCallback dl x) (hopen : s.Open)
include hx hopen

theorem flow_insert : Lib.InsertedBefore (s.fill F []).Flow Function.entry (s.fill F [x]).Flow
    Function.entry (Point.move s.pos) s.point s.point :=
  s.insertedBefore F x hx.plain.2.2.2.2 hopen.right_ne_nil

theorem available_move {p : Point} (h : (s.fill F []).Available r p) :
    (s.fill F [x]).Available r (p.move s.pos) := by
  refine h.imp_right ?_
  rintro ⟨d, hd, hdom, hself⟩
  refine ⟨d.move s.pos, defines_move hd, (flow_insert hx hopen).dominates_iff.mpr hdom, ?_⟩
  intro heq hreach
  exact hself (s.move_pos_injective heq) (((flow_insert hx hopen).reaches_old hreach).2 p rfl)

theorem availableOn_move {p : Point} (h : (s.fill F []).AvailableOn r p) :
    (s.fill F [x]).AvailableOn r (p.move s.pos) := by
  refine h.imp_right ?_
  rintro ⟨d, hd, hdom⟩
  exact ⟨d.move s.pos, defines_move hd, (flow_insert hx hopen).dominates_iff.mpr hdom⟩

/-- What the next instruction may use, the new one may use. -/
theorem available_new (h : (s.fill F []).Available r s.point) :
    (s.fill F [x]).Available r s.point := by
  refine h.imp_right ?_
  rintro ⟨d, hd, hdom, hself⟩
  refine ⟨d.move s.pos, defines_move hd, ?_, fun heq => absurd heq (s.move_pos_ne_point d)⟩
  by_cases heq : d = s.point
  · exact .of_not_reaches fun hreach =>
      hself heq (((flow_insert hx hopen).reaches_old hreach).1 rfl)
  · exact (flow_insert hx hopen).dominates_new heq hdom

theorem wellFormed_insert (h : (s.fill F []).WellFormed) : (s.fill F [x]).WellFormed := by
  obtain ⟨hphi, hterm, hstore, hpad, hsucc⟩ := hx.plain
  refine ⟨h.params_nodup, by simp [fill], ?_, ?_, ?_, ?_, ?_⟩
  · have := h.labels_nodup
    simp only [fill, List.map_append, List.map_cons] at this ⊢
    exact this
  · have hshaped := h.shaped
    simp only [fill, List.mem_append, List.mem_cons] at hshaped ⊢
    rintro b (hb | rfl | hb)
    · exact hshaped b (.inl hb)
    · obtain ⟨i, rest, hr, hi, -⟩ := hopen
      have hb := hshaped _ (.inr (.inl rfl))
      simp only [hr, List.append_assoc, List.nil_append, List.cons_append] at hb ⊢
      exact shaped_insert hi ⟨hphi, hterm⟩ hb
    · exact hshaped b (.inr (.inr hb))
  · intro b hb i hi
    obtain ⟨b₀, hb₀, -, hsub⟩ := head?_fill hb
    rcases hsub i hi with rfl | hi
    · exact ⟨hphi, hpad⟩
    · exact h.entry_head b₀ hb₀ i hi
  · intro e he b hb i hi
    obtain ⟨e₀, he₀, hlabel, -⟩ := head?_fill he
    obtain ⟨b₀, hb₀, -, hsub⟩ := mem_fill hb
    rcases hsub i hi with rfl | hi
    · simp [hsucc]
    · exact hlabel ▸ h.entry_not_target e₀ he₀ b₀ hb₀ i hi
  · intro b hb v p hs
    obtain ⟨b₀, hb₀, -, hsub⟩ := mem_fill hb
    rcases hsub _ hs with rfl | hs
    · simp [Inst.isStore] at hstore
    · exact h.store_typed b₀ hb₀ v p hs

omit hopen in
theorem dsts_nodup_insert (hfresh : ∀ r ∈ x.dst, r ∉ (s.fill F []).regs)
    (h : (s.fill F []).dsts.Nodup) : (s.fill F [x]).dsts.Nodup := by
  obtain ⟨P, Q, hold, hnew⟩ : ∃ P Q, (s.fill F []).dsts = P ++ Q ∧
      (s.fill F [x]).dsts = P ++ x.dst ++ Q := by
    refine ⟨F.params.map (·.1) ++ s.before.flatMap (fun b => b.insts.flatMap Inst.dst) ++
      s.left.flatMap Inst.dst, s.right.flatMap Inst.dst ++
      s.after.flatMap (fun b => b.insts.flatMap Inst.dst), ?_, ?_⟩
    all_goals simp [Function.dsts, fill]
  have hperm : (P ++ x.dst ++ Q).Perm (x.dst ++ (P ++ Q)) := by
    rw [← List.append_assoc]
    exact List.perm_append_comm.append_right Q
  rw [hnew, hperm.nodup_iff, ← hold]
  refine List.nodup_append.mpr ⟨hx.dst_nodup, h, ?_⟩
  rintro a ha b hb rfl
  exact hfresh a ha (Function.dsts_subset_regs hb)

end

end Site

/-- The operand may stand at `p`. -/
def Function.Supplies (F : Function) (p : Point) (v : Operand) : Prop :=
  (∀ r ∈ v.regs, F.Available r p) ∧ ∀ ty, F.Typed ty → v.HasTy ty

namespace Site

variable {s : Site} {F : Function} {x : Inst} {dl : DataLayout}

theorem typed_insert (hx : IsCallback dl x) (hfresh : ∀ r ∈ x.dst, r ∉ (s.fill F []).regs)
    (hsup : ∀ v ∈ x.operands, (s.fill F []).Supplies s.point v)
    (h : ∃ ty, (s.fill F []).Typed ty) : ∃ ty, (s.fill F [x]).Typed ty := by
  obtain ⟨ty, hty⟩ := h
  obtain ⟨ty', hdst, hagree⟩ : ∃ ty' : ℕ → Ty, x.HasTy ty' ∧ ∀ r, r ∉ x.dst → ty' r = ty r := by
    unfold IsCallback at hx
    split at hx
    · rename_i d v t
      exact ⟨Function.update ty d t, by simp [Inst.HasTy], fun r hr =>
        Function.update_of_ne (by simpa [Inst.dst] using hr) _ _⟩
    · exact ⟨ty, trivial, fun _ _ => rfl⟩
    · exact hx.elim
  have hold : ∀ r ∈ (s.fill F []).regs, ty' r = ty r := fun r hr =>
    hagree r fun hd => hfresh r hd hr
  have hoperand : ∀ v : Operand, (∀ r ∈ v.regs, r ∈ (s.fill F []).regs) → v.HasTy ty →
      v.HasTy ty' := by
    intro v hv h
    cases v with
    | const c => trivial
    | reg r t => exact (hold r (hv r (by simp [Operand.regs]))).trans h
  refine ⟨ty', fun p hp => ?_, fun j k i hi => ?_⟩
  · rw [hold p.1 (List.mem_append_left _ (List.mem_map_of_mem hp))]
    exact hty.params p hp
  · rcases s.eq_or_exists_pos j k with ⟨rfl, rfl⟩ | ⟨k₀, rfl⟩
    · obtain rfl := Option.some.inj ((s.inst?_fill_new F x).symm.trans hi)
      exact ⟨hdst, fun v hv => hoperand v (fun r hr => ((hsup v hv).1 r hr).mem_regs)
        ((hsup v hv).2 ty hty)⟩
    · rw [inst?_fill_pos] at hi
      obtain ⟨hi', hops⟩ := hty.insts j k₀ i hi
      constructor
      · cases i with
        | phi d t incoming =>
          exact (hold d (Function.mem_regs_of_inst? hi (by simp [Inst.regs]))).trans hi'
        | ptrToInt d v t =>
          exact (hold d (Function.mem_regs_of_inst? hi (by simp [Inst.regs]))).trans hi'
        | _ => trivial
      · exact fun v hv => hoperand v (fun r hr =>
          Function.mem_regs_of_inst? hi (Inst.mem_regs_of_operand hv hr)) (hops v hv)

/-- Whatever may stand in front of an instruction can be put there. -/
theorem ssa_insert {accepts : Name → List Ty → Prop} (hx : IsCallback dl x) (hopen : s.Open)
    (hacc : ∀ n tys, x.directCall = some (n, tys) → accepts n tys)
    (hfresh : ∀ r ∈ x.dst, r ∉ (s.fill F []).regs)
    (hsup : ∀ v ∈ x.operands, (s.fill F []).Supplies s.point v) (h : (s.fill F []).SSA accepts) :
    (s.fill F [x]).SSA accepts := by
  obtain ⟨hphi, -, -, hpad, -⟩ := hx.plain
  refine ⟨wellFormed_insert hx hopen h.wellFormed, dsts_nodup_insert hx hfresh h.dsts_nodup,
    typed_insert hx hfresh hsup h.types, ?_, ?_, ?_, ?_⟩
  · intro j k i hi hip k' hk' i' hi'
    rcases s.eq_or_exists_pos j k with ⟨rfl, rfl⟩ | ⟨k₀, rfl⟩
    · obtain rfl := Option.some.inj ((s.inst?_fill_new F x).symm.trans hi)
      simp [hpad] at hip
    rw [inst?_fill_pos] at hi
    rcases s.eq_or_exists_pos j k' with ⟨rfl, rfl⟩ | ⟨k₁, rfl⟩
    · -- a landing pad behind the new instruction would be the next one or behind that
      obtain ⟨i₀, hi₀, hphi₀, hpad₀⟩ := hopen.inst? (F := F)
      have hle : s.index ≤ k₀ := by
        unfold pos at hk'
        split_ifs at hk' <;> omega
      rcases hle.eq_or_lt with rfl | hlt
      · obtain rfl := Option.some.inj (hi₀.symm.trans hi)
        simp [hpad₀] at hip
      · simp [h.pads _ _ i hi hip s.index hlt i₀ hi₀] at hphi₀
    · rw [inst?_fill_pos] at hi'
      exact h.pads j k₀ i hi hip k₁ ((s.strictMono_pos j).lt_iff_lt.mp hk') i' hi'
  · intro j k i hi hnphi v hv r hr
    rcases s.eq_or_exists_pos j k with ⟨rfl, rfl⟩ | ⟨k₀, rfl⟩
    · obtain rfl := Option.some.inj ((s.inst?_fill_new F x).symm.trans hi)
      exact available_new hx hopen ((hsup v hv).1 r hr)
    · rw [inst?_fill_pos] at hi
      exact available_move hx hopen (h.uses j k₀ i hi hnphi v hv r hr)
  · intro j k d ty incoming hi p hp r hr j₀ l hj₀ hj
    rw [label?_fill] at hj₀ hj
    rcases s.eq_or_exists_pos j k with ⟨rfl, rfl⟩ | ⟨k₀, rfl⟩
    · obtain rfl := Option.some.inj ((s.inst?_fill_new F x).symm.trans hi)
      simp [Inst.isPhi] at hphi
    · rw [inst?_fill_pos] at hi
      exact availableOn_move (p := .edge j₀ l) hx hopen
        (h.phis j k₀ d ty incoming hi p hp r hr j₀ l hj₀ hj)
  · intro j k i hi n tys hc
    rcases s.eq_or_exists_pos j k with ⟨rfl, rfl⟩ | ⟨k₀, rfl⟩
    · obtain rfl := Option.some.inj ((s.inst?_fill_new F x).symm.trans hi)
      exact hacc n tys hc
    · rw [inst?_fill_pos] at hi
      exact h.calls j k₀ i hi n tys hc

end Site

end Squint.IR
