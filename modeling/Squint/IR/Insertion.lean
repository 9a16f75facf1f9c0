import Mathlib.Data.List.Forall2
import Squint.IR.Passes

/-! What the passes do to a body, without saying where: they put casts into new registers and
calls of trace wrappers between the instructions, never in front of a phi. -/
namespace Squint.IR

section
variable {α β : Type} {R : α → β → Prop} {l : List α} {l' : List β} (h : List.Forall₂ R l l')
include h

/-- Of two lists that are related element by element, each element has a partner. -/
theorem exists_left_of_forall₂ {b : β} (hb : b ∈ l') : ∃ a ∈ l, R a b := by
  induction h with
  | nil => simp at hb
  | cons hab _ ih =>
    rcases List.mem_cons.mp hb with rfl | hb
    · exact ⟨_, List.mem_cons_self, hab⟩
    · obtain ⟨a, ha, hR⟩ := ih hb
      exact ⟨a, List.mem_cons_of_mem _ ha, hR⟩

theorem exists_right_of_forall₂ {a : α} (ha : a ∈ l) : ∃ b ∈ l', R a b :=
  exists_left_of_forall₂ h.flip ha

end

/-- An instruction the passes may insert into a function whose registers are below `n`. -/
def Silent (n : ℕ) : Inst → Prop
  | .ptrToInt r _ _ => n ≤ r
  | .call none (.fn w) _ => isWrapper w = true
  | _ => False

/-- `l'` is `l` with silent instructions put in, none of them in front of a phi. -/
inductive Inserted (n : ℕ) : List Inst → List Inst → Prop
  | nil : Inserted n [] []
  | keep {i : Inst} {l l' : List Inst} : Inserted n l l' → Inserted n (i :: l) (i :: l')
  | insert {i : Inst} {l l' : List Inst} : Silent n i → (∀ j ∈ l.head?, j.isPhi = false) →
      Inserted n l l' → Inserted n l (i :: l')

theorem Silent.mono {m n : ℕ} (hmn : m ≤ n) {i : Inst} (h : Silent n i) : Silent m i := by
  unfold Silent at h ⊢
  split at h
  · exact hmn.trans h
  · exact h
  · exact h.elim

theorem Silent.not_phi {n : ℕ} {i : Inst} (h : Silent n i) : i.isPhi = false := by
  cases i <;> simp_all [Silent, Inst.isPhi]

theorem Silent.not_store {n : ℕ} {i : Inst} (h : Silent n i) : i.isStore = false := by
  cases i <;> simp_all [Silent, Inst.isStore]

namespace Inserted

variable {m n : ℕ} {l l₁ l₂ l' new : List Inst}

theorem refl (l : List Inst) : Inserted n l l := by
  induction l with
  | nil => exact .nil
  | cons i l ih => exact .keep ih

theorem mono (hmn : m ≤ n) (h : Inserted n l l') : Inserted m l l' := by
  induction h with
  | nil => exact .nil
  | keep _ ih => exact .keep ih
  | insert hi hl _ ih => exact .insert (hi.mono hmn) hl ih

/-- Where the longer list does not start with a phi, the shorter one does not either. -/
theorem head_not_phi (h : Inserted n l l') (hl : ∀ j ∈ l'.head?, j.isPhi = false) :
    ∀ j ∈ l.head?, j.isPhi = false := by
  cases h with
  | nil => simp
  | keep _ => simpa using hl
  | insert _ hl' _ => exact hl'

theorem trans (h : Inserted n l l₁) (h' : Inserted n l₁ l₂) : Inserted n l l₂ := by
  induction h' generalizing l with
  | nil => exact h
  | keep _ ih =>
    cases h with
    | keep h => exact .keep (ih h)
    | insert hi hl h => exact .insert hi hl (ih h)
  | insert hi hl _ ih => exact .insert hi (h.head_not_phi hl) (ih h)

theorem insert_all (hnew : ∀ i ∈ new, Silent n i) (hl : ∀ j ∈ l.head?, j.isPhi = false)
    (h : Inserted n l l') : Inserted n l (new ++ l') := by
  induction new with
  | nil => exact h
  | cons i new ih =>
    exact .insert (hnew i (by simp)) hl (ih fun j hj => hnew j (by simp [hj]))

end Inserted

/-! ## Callbacks -/

/-- `createPointerCast` of a pointer, which cannot fail. -/
def pointerCast (fresh : ℕ) (v : Operand) (destTy : Ty) : List Inst × Operand :=
  match v with
  | .const c => ([], .const (.ptrToInt c destTy))
  | .reg _ _ => ([.ptrToInt fresh v destTy], .reg fresh destTy)

theorem createPointerCast_of_isPointer {v : Operand} (hv : v.ty.isPointer = true) (fresh w : ℕ) :
    createPointerCast fresh v (.int w) = .ok (pointerCast fresh v (.int w)) := by
  have hne : v.ty ≠ .int w := by
    intro h
    simp [h, Ty.isPointer] at hv
  unfold createPointerCast pointerCast
  rw [if_neg hne, if_pos hv]
  cases v <;> rfl

theorem pointerCast_silent (fresh : ℕ) (v : Operand) (ty : Ty) :
    ∀ i ∈ (pointerCast fresh v ty).1, Silent fresh i := by
  cases v <;> simp [pointerCast, Silent]

def storeArgs (dl : DataLayout) (fresh : ℕ) (pointer : Operand) (elementTy : Ty) : List Operand :=
  [(pointerCast fresh pointer (.int (dl.pointerSizeInBits 0))).2,
    .const (.int 32 (toInt32 (dl.typeStoreSize elementTy)))]

def storeGroup (dl : DataLayout) (fresh : ℕ) (pointer : Operand) (elementTy : Ty) : List Inst :=
  (pointerCast fresh pointer (.int (dl.pointerSizeInBits 0))).1 ++
    [.call none (.fn writeStoreTraceWrapper) (storeArgs dl fresh pointer elementTy)]

theorem Ty.isPointer_of_pointee {t u : Ty} (h : t.pointee? = some u) : t.isPointer = true := by
  cases t <;> simp_all [Ty.pointee?, Ty.isPointer]

theorem storeCallback_of_pointee {pointer : Operand} {elementTy : Ty}
    (hp : pointer.ty.pointee? = some elementTy) (dl : DataLayout) (fresh : ℕ) :
    storeCallback dl fresh pointer = .ok (storeGroup dl fresh pointer elementTy) := by
  unfold storeCallback
  rw [createPointerCast_of_isPointer (Ty.isPointer_of_pointee hp)]
  simp only [bind, Except.bind, hp]
  rfl

theorem storeCallback_eq {pointer : Operand} {elementTy : Ty} {dl : DataLayout} {fresh : ℕ}
    {new : List Inst} (h : storeCallback dl fresh pointer = .ok new)
    (hp : pointer.ty.pointee? = some elementTy) : new = storeGroup dl fresh pointer elementTy :=
  Except.ok.inj (h.symm.trans (storeCallback_of_pointee hp dl fresh))

theorem isWrapper_store : isWrapper writeStoreTraceWrapper = true := by decide
theorem isWrapper_fence : isWrapper writeFenceTraceWrapper = true := by decide
theorem isWrapper_flush : isWrapper writeFlushTraceWrapper = true := by decide

theorem storeGroup_silent (dl : DataLayout) (fresh : ℕ) (pointer : Operand) (elementTy : Ty) :
    ∀ i ∈ storeGroup dl fresh pointer elementTy, Silent fresh i := by
  intro i hi
  rcases List.mem_append.mp hi with hi | hi
  · exact pointerCast_silent _ _ _ i hi
  · obtain rfl := List.mem_singleton.mp hi
    exact isWrapper_store

theorem storeGroup_regs {dl : DataLayout} {fresh r : ℕ} {p : Operand} {t : Ty}
    (h : r ∈ (storeGroup dl fresh p t).flatMap Inst.regs) : r = fresh ∨ r ∈ p.regs := by
  cases p <;> simp_all [storeGroup, storeArgs, pointerCast, Inst.regs, Operand.regs, Callee.regs]
  tauto

/-- The flush callback of a function whose first parameter is `r`. -/
def flushGroup (dl : DataLayout) (fresh r : ℕ) (ty : Ty) : List Inst :=
  if ty = .int (dl.pointerSizeInBits 0) then
    [.call none (.fn writeFlushTraceWrapper) [.reg r ty]]
  else
    [.ptrToInt fresh (.reg r ty) (.int (dl.pointerSizeInBits 0)),
      .call none (.fn writeFlushTraceWrapper) [.reg fresh (.int (dl.pointerSizeInBits 0))]]

theorem flushCallback_of_address {dl : DataLayout} {F : Function} {r : ℕ} {ty : Ty}
    {ps : List (ℕ × Ty)} (hF : F.params = (r, ty) :: ps)
    (hty : ty.isPointer = true ∨ ty = .int (dl.pointerSizeInBits 0)) :
    flushCallback dl F = .ok (flushGroup dl F.freshReg r ty) := by
  unfold flushCallback flushGroup
  simp only [hF]
  by_cases hint : ty = .int (dl.pointerSizeInBits 0)
  · rw [if_pos hint, createPointerCast, if_pos (show (Operand.reg r ty).ty = _ from hint)]
    rfl
  · rw [if_neg hint, createPointerCast_of_isPointer (v := .reg r ty) (hty.resolve_right hint)]
    rfl

theorem flushGroup_silent (dl : DataLayout) (fresh r : ℕ) (ty : Ty) :
    ∀ i ∈ flushGroup dl fresh r ty, Silent fresh i := by
  unfold flushGroup
  split <;> simp [Silent, isWrapper_flush]

theorem fenceCallback_silent (n : ℕ) : ∀ i ∈ fenceCallback, Silent n i := by
  intro i hi
  obtain rfl := List.mem_singleton.mp hi
  exact isWrapper_fence

/-! ## Bodies -/

theorem map_eq_ok {ε α β : Type} {f : α → β} {x : Except ε α} {b : β}
    (h : x.map f = .ok b) : ∃ a, x = .ok a ∧ f a = b := by
  cases x with
  | error e => simp [Except.map] at h
  | ok a => exact ⟨a, rfl, by simpa [Except.map] using h⟩

theorem bind_eq_ok {ε α β : Type} {f : α → Except ε β} {x : Except ε α} {b : β}
    (h : x >>= f = .ok b) : ∃ a, x = .ok a ∧ f a = .ok b := by
  cases x with
  | error e => cases h
  | ok a => exact ⟨a, rfl, h⟩

@[simp] theorem isOk_ok {ε α : Type} (a : α) : (Except.ok a : Except ε α).isOk = true := rfl

@[simp] theorem isOk_error {ε α : Type} (e : ε) : (Except.error e : Except ε α).isOk = false := rfl

def StoresTyped (l : List Inst) : Prop :=
  ∀ v p, Inst.store v p ∈ l → p.ty.pointee? = some v.ty

theorem StoresTyped.tail {i : Inst} {l : List Inst} (h : StoresTyped (i :: l)) : StoresTyped l :=
  fun v p hs => h v p (List.mem_cons_of_mem i hs)

theorem instrumentInsts_store {dl : DataLayout} {c : Cursor} {v p : Operand} {rest : List Inst}
    (hp : p.ty.pointee? = some v.ty) :
    instrumentInsts dl c (.store v p :: rest) =
      (instrumentInsts dl ⟨c.fresh + (storeGroup dl c.fresh p v.ty).length, true⟩ rest).map
        fun q => (storeGroup dl c.fresh p v.ty ++ .store v p :: q.1, q.2) := by
  rw [instrumentInsts, storeCallback_of_pointee hp]
  simp only [bind, Except.bind, Except.map]

theorem instrumentInsts_other {dl : DataLayout} {c : Cursor} {i : Inst} {rest : List Inst}
    (hi : i.isStore = false) :
    instrumentInsts dl c (i :: rest) =
      (instrumentInsts dl c rest).map fun q => (i :: q.1, q.2) := by
  cases i <;> simp_all [instrumentInsts, Inst.isStore, bind, Except.bind, Except.map]

/-- The walk of the store pass over `l`, step by step. -/
inductive Walked (dl : DataLayout) : Cursor → List Inst → List Inst → Cursor → Prop
  | nil {c : Cursor} : Walked dl c [] [] c
  | store {c c' : Cursor} {v p : Operand} {new l l' : List Inst}
      (hnew : storeCallback dl c.fresh p = .ok new)
      (h : Walked dl ⟨c.fresh + new.length, true⟩ l l' c') :
      Walked dl c (.store v p :: l) (new ++ .store v p :: l') c'
  | other {c c' : Cursor} {i : Inst} {l l' : List Inst} (hi : i.isStore = false)
      (h : Walked dl c l l' c') : Walked dl c (i :: l) (i :: l') c'

inductive WalkedBlocks (dl : DataLayout) : Cursor → List Block → List Block → Cursor → Prop
  | nil {c : Cursor} : WalkedBlocks dl c [] [] c
  | cons {c c₁ c' : Cursor} {b : Block} {l : List Inst} {bs bs' : List Block}
      (hb : Walked dl c b.insts l c₁) (hbs : WalkedBlocks dl c₁ bs bs' c') :
      WalkedBlocks dl c (b :: bs) ({ b with insts := l } :: bs') c'

theorem instrumentInsts_eq_ok_iff {dl : DataLayout} {c c' : Cursor} {l l' : List Inst} :
    instrumentInsts dl c l = .ok (l', c') ↔ Walked dl c l l' c' := by
  constructor
  · intro h
    induction l generalizing c l' with
    | nil =>
      obtain ⟨rfl, rfl⟩ := Prod.mk.inj (Except.ok.inj h)
      exact .nil
    | cons i l ih =>
      cases hi : i.isStore with
      | true =>
        obtain ⟨v, p, rfl⟩ := Inst.exists_of_isStore hi
        obtain ⟨new, hnew, h⟩ := bind_eq_ok h
        obtain ⟨q, hq, h⟩ := bind_eq_ok h
        obtain ⟨rfl, rfl⟩ := Prod.mk.inj (Except.ok.inj h)
        exact .store hnew (ih hq)
      | false =>
        rw [instrumentInsts_other hi] at h
        obtain ⟨q, hq, h⟩ := map_eq_ok h
        obtain ⟨rfl, rfl⟩ := Prod.mk.inj h
        exact .other hi (ih hq)
  · intro h
    induction h with
    | nil => rfl
    | store hnew _ ih => simp [instrumentInsts, hnew, ih, bind, Except.bind]
    | other hi _ ih => simp [instrumentInsts_other hi, ih, Except.map]

theorem instrumentBlocks_eq_ok_iff {dl : DataLayout} {c c' : Cursor} {bs bs' : List Block} :
    instrumentBlocks dl c bs = .ok (bs', c') ↔ WalkedBlocks dl c bs bs' c' := by
  constructor
  · intro h
    induction bs generalizing c bs' with
    | nil =>
      obtain ⟨rfl, rfl⟩ := Prod.mk.inj (Except.ok.inj h)
      exact .nil
    | cons b bs ih =>
      obtain ⟨q, hq, h⟩ := bind_eq_ok h
      obtain ⟨q', hq', h⟩ := bind_eq_ok h
      obtain ⟨rfl, rfl⟩ := Prod.mk.inj (Except.ok.inj h)
      exact .cons (instrumentInsts_eq_ok_iff.mp hq) (ih hq')
  · intro h
    induction h with
    | nil => rfl
    | cons hb _ ih =>
      simp [instrumentBlocks, instrumentInsts_eq_ok_iff.mpr hb, ih, bind, Except.bind]

theorem Walked.fresh_le {dl : DataLayout} {c c' : Cursor} {l l' : List Inst}
    (h : Walked dl c l l' c') : c.fresh ≤ c'.fresh := by
  induction h with
  | nil => exact le_rfl
  | store _ _ ih => exact (Nat.le_add_right _ _).trans ih
  | other _ _ ih => exact ih

theorem instrumentInsts_inserted (dl : DataLayout) {l : List Inst} (hl : StoresTyped l)
    (c : Cursor) : ∃ l' c', instrumentInsts dl c l = .ok (l', c') ∧ c.fresh ≤ c'.fresh ∧
      Inserted c.fresh l l' := by
  induction l generalizing c with
  | nil => exact ⟨[], c, rfl, le_rfl, .nil⟩
  | cons i l ih =>
    by_cases hi : i.isStore = true
    · obtain ⟨v, p, rfl⟩ := Inst.exists_of_isStore hi
      have hp := hl v p (by simp)
      obtain ⟨l', c', he, hle, hins⟩ :=
        ih hl.tail ⟨c.fresh + (storeGroup dl c.fresh p v.ty).length, true⟩
      refine ⟨_, c', by rw [instrumentInsts_store hp, he]; rfl, by simp at hle; omega, ?_⟩
      exact .insert_all (storeGroup_silent dl c.fresh p v.ty) (by simp [Inst.isPhi])
        (.keep (hins.mono (by simp)))
    · obtain ⟨l', c', he, hle, hins⟩ := ih hl.tail c
      exact ⟨i :: l', c', by rw [instrumentInsts_other (by simpa using hi), he]; rfl, hle,
        .keep hins⟩

theorem instrumentBlocks_inserted (dl : DataLayout) {bs : List Block}
    (hbs : ∀ b ∈ bs, StoresTyped b.insts) (c : Cursor) :
    ∃ bs' c', instrumentBlocks dl c bs = .ok (bs', c') ∧
      List.Forall₂ (fun b b' => b'.label = b.label ∧ Inserted c.fresh b.insts b'.insts) bs bs' := by
  induction bs generalizing c with
  | nil => exact ⟨[], c, rfl, .nil⟩
  | cons b bs ih =>
    obtain ⟨l', c₁, he, hle, hins⟩ := instrumentInsts_inserted dl (hbs b (by simp)) c
    obtain ⟨bs', c₂, he', hbs'⟩ := ih (fun b hb => hbs b (by simp [hb])) c₁
    refine ⟨{ b with insts := l' } :: bs', c₂, ?_, .cons ⟨rfl, hins⟩ ?_⟩
    · simp [instrumentBlocks, he, he', bind, Except.bind]
    · exact hbs'.imp fun _ _ h => ⟨h.1, h.2.mono hle⟩

end Squint.IR
