import Squint.IR.Schedule
import Squint.IR.Simulation

/-! Where the store callbacks stand: directly before the store they announce, with the cast of
its pointer in between and nothing else. -/
namespace Squint.IR

/-- Every store of the list comes right after its callback; `P` holds of all other instructions. -/
inductive Guarded (dl : DataLayout) (P : Inst → Prop) : List Inst → Prop
  | nil : Guarded dl P []
  | other {i : Inst} {l : List Inst} (hi : i.isStore = false) (hP : P i) (hl : Guarded dl P l) :
      Guarded dl P (i :: l)
  | store {fresh : ℕ} {v p : Operand} {l : List Inst} (hp : p.ty.pointee? = some v.ty)
      (hfresh : ∀ r ∈ v.regs ++ p.regs, r < fresh) (hl : Guarded dl P l) :
      Guarded dl P (storeGroup dl fresh p v.ty ++ .store v p :: l)

variable {dl : DataLayout} {P : Inst → Prop}

theorem Guarded.splitPhis {l : List Inst} (h : Guarded dl P l) : Guarded dl P (splitPhis l).2 := by
  induction h with
  | nil => exact .nil
  | @other i l hi hP hl ih =>
    cases i with
    | phi => exact ih
    | _ => exact .other hi hP hl
  | @store fresh v p l hp hfresh hl ih =>
    have hhead : IR.splitPhis (storeGroup dl fresh p v.ty ++ .store v p :: l) =
        ([], storeGroup dl fresh p v.ty ++ .store v p :: l) := by
      cases p <;> rfl
    rw [hhead]
    exact .store hp hfresh hl

theorem Guarded.append {l l' : List Inst} (hl : ∀ i ∈ l, i.isStore = false ∧ P i)
    (h : Guarded dl P l') : Guarded dl P (l ++ l') := by
  induction l with
  | nil => exact h
  | cons i l ih =>
    obtain ⟨hi, hP⟩ := hl i (by simp)
    exact .other hi hP (ih fun j hj => hl j (by simp [hj]))

/-! ## What the pass makes of a body -/

theorem instrumentInsts_guarded {l l' : List Inst} {c c' : Cursor} (hl : StoresTyped l)
    (hP : ∀ i ∈ l, i.isStore = false → P i) (hregs : ∀ i ∈ l, ∀ r ∈ i.regs, r < c.fresh)
    (h : instrumentInsts dl c l = .ok (l', c')) : Guarded dl P l' := by
  rw [instrumentInsts_eq_ok_iff] at h
  induction h with
  | nil => exact .nil
  | store hnew _ ih =>
    have hp := hl _ _ List.mem_cons_self
    obtain rfl := storeCallback_eq hnew hp
    refine .store hp (hregs _ List.mem_cons_self)
      (ih hl.tail (fun i hi => hP i (List.mem_cons_of_mem _ hi)) fun i hi r hr => ?_)
    exact (hregs i (List.mem_cons_of_mem _ hi) r hr).trans_le (Nat.le_add_right _ _)
  | other hi _ ih =>
    exact .other hi (hP _ List.mem_cons_self hi)
      (ih hl.tail (fun i hi => hP i (List.mem_cons_of_mem _ hi)) fun i hi =>
        hregs i (List.mem_cons_of_mem _ hi))

theorem instrumentInsts_append {new l : List Inst} (hnew : ∀ i ∈ new, i.isStore = false)
    (c : Cursor) : instrumentInsts dl c (new ++ l) =
      (instrumentInsts dl c l).map fun q => (new ++ q.1, q.2) := by
  induction new with
  | nil =>
    rw [List.nil_append]
    cases instrumentInsts dl c l <;> rfl
  | cons i new ih =>
    rw [List.cons_append, instrumentInsts_other (hnew i (by simp)),
      ih fun j hj => hnew j (by simp [hj])]
    cases instrumentInsts dl c l <;> rfl

/-- `b'` is what the pass makes of the block `b`, with registers from `n` on. -/
def InstrumentedBlock (dl : DataLayout) (n : ℕ) (b b' : Block) : Prop :=
  b'.label = b.label ∧ ∃ c c', n ≤ c.fresh ∧ instrumentInsts dl c b.insts = .ok (b'.insts, c')

theorem instrumentBlocks_blocks {bs bs' : List Block} {c c' : Cursor}
    (h : instrumentBlocks dl c bs = .ok (bs', c')) :
    List.Forall₂ (InstrumentedBlock dl c.fresh) bs bs' := by
  rw [instrumentBlocks_eq_ok_iff] at h
  induction h with
  | nil => exact .nil
  | cons hb _ ih =>
    refine .cons ⟨rfl, _, _, le_rfl, instrumentInsts_eq_ok_iff.mpr hb⟩ ?_
    refine ih.imp fun _ _ hbs => ?_
    obtain ⟨hlabel, c, c', hc, h⟩ := hbs
    exact ⟨hlabel, c, c', hb.fresh_le.trans hc, h⟩

theorem instrumentBody_blocks {F F' : Function} {changed : Bool}
    (h : instrumentBody dl F = .ok (F', changed)) :
    F' = { F with blocks := F'.blocks } ∧
      List.Forall₂ (InstrumentedBlock dl F.freshReg) F.blocks F'.blocks := by
  obtain ⟨⟨bs, c⟩, he, h⟩ := bind_eq_ok h
  obtain ⟨rfl, -⟩ := Prod.mk.inj (Except.ok.inj h)
  exact ⟨rfl, instrumentBlocks_blocks he⟩

theorem InstrumentedBlock.guarded {F : Function} {b b' : Block} (hb : b ∈ F.blocks)
    (htyped : StoresTyped b.insts) (hP : ∀ i ∈ b.insts, i.isStore = false → P i)
    (h : InstrumentedBlock dl F.freshReg b b') : Guarded dl P b'.insts := by
  obtain ⟨-, c, c', hle, h⟩ := h
  refine instrumentInsts_guarded htyped hP (fun i hi r hr => ?_) h
  exact Nat.lt_of_lt_of_le (Function.lt_freshReg (Function.mem_regs_of_inst hb hi hr)) hle

/-! ## Running a guarded list -/

variable {W : Type} {E : Env W}

def storeArguments (dl : DataLayout) (a size : ℕ) : List ℕ :=
  [a % 2 ^ dl.pointerSizeInBits 0, (toInt32 size % 2 ^ 32).toNat]

/-- Next comes a store, of the bytes that `x` announces. -/
def Pending (E : Env W) (dl : DataLayout) (P : Inst → Prop) (f : Frame) (x : List ℕ) : Prop :=
  ∃ v p l, f.rest = .store v p :: l ∧ Guarded dl P l ∧
    x = storeArguments dl (p.addr E dl f.regs) (dl.typeStoreSize v.ty)

/-- Next comes the call that passes `x` to the store wrapper, and then the store. -/
def Ready (E : Env W) (dl : DataLayout) (P : Inst → Prop) (f : Frame) (x : List ℕ) : Prop :=
  ∃ args rest, f.rest = .call none (.fn writeStoreTraceWrapper) args :: rest ∧
    args.map (·.eval E dl f.regs) = x ∧ Pending E dl P { f with rest := rest } x

/-- A guarded list starts with an instruction other than a store, with a callback that is ready,
or with a cast after which it is ready. -/
theorem Guarded.cases_run {f : Frame} (h : Guarded dl P f.rest) :
    f.rest = [] ∨ (∃ i l, f.rest = i :: l ∧ i.isStore = false ∧ P i ∧ Guarded dl P l) ∨
    (∃ x, Ready E dl P f x) ∨
    ∃ d v ty l x, f.rest = .ptrToInt d v ty :: l ∧
      Ready E dl P { f with
        rest := l, regs := Function.update f.regs d (v.addr E dl f.regs % 2 ^ ty.intBits) } x := by
  generalize hr : f.rest = l at h
  cases h with
  | nil => exact .inl rfl
  | @other i l hi hP hl => exact .inr (.inl ⟨i, l, rfl, hi, hP, hl⟩)
  | @store fresh v p l hp hfresh hl =>
    cases p with
    | const c =>
      exact .inr (.inr (.inl ⟨_, _, _, hr, rfl, v, .const c, l, rfl, hl, rfl⟩))
    | reg r ty =>
      refine .inr (.inr (.inr
        ⟨fresh, .reg r ty, _, _, _, rfl, _, _, rfl, rfl, v, _, l, rfl, hl, ?_⟩))
      have hne : r ≠ fresh := (hfresh r (by simp [Operand.regs])).ne
      simp [storeArgs, pointerCast, Operand.eval, Operand.addr, Const.eval, storeArguments,
        Ty.intBits, Function.update_of_ne hne]

end Squint.IR
