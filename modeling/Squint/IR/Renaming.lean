import Mathlib.Logic.Equiv.Fintype
import Squint.IR.Passes

/-! Registers of a function under other names. Two bodies are the same but for the values that were
inserted if a permutation of the registers that fixes the others takes one to the other. -/
namespace Squint.IR

def Operand.rename (σ : ℕ → ℕ) : Operand → Operand
  | .reg r ty => .reg (σ r) ty
  | .const c => .const c

def Callee.rename (σ : ℕ → ℕ) : Callee → Callee
  | .value v stripped => .value (v.rename σ) stripped
  | .fn n => .fn n
  | .asm id => .asm id
  | .mem kind => .mem kind

def Terminator.rename (σ : ℕ → ℕ) : Terminator → Terminator
  | .ret v => .ret (v.map (Operand.rename σ))
  | .br l => .br l
  | .condBr c l₁ l₂ => .condBr (c.rename σ) l₁ l₂
  | .switch v cases l => .switch (v.rename σ) cases l
  | .invoke dst callee args l₁ l₂ =>
    .invoke (dst.map σ) (callee.rename σ) (args.map (Operand.rename σ)) l₁ l₂
  | .resume v => .resume (v.rename σ)
  | .unreachable => .unreachable

def Inst.rename (σ : ℕ → ℕ) : Inst → Inst
  | .phi dst ty incoming => .phi (σ dst) ty (incoming.map fun q => (q.1, q.2.rename σ))
  | .store value pointer => .store (value.rename σ) (pointer.rename σ)
  | .ptrToInt dst v ty => .ptrToInt (σ dst) (v.rename σ) ty
  | .op dst code args => .op (dst.map σ) code (args.map (Operand.rename σ))
  | .call dst callee args => .call (dst.map σ) (callee.rename σ) (args.map (Operand.rename σ))
  | .term t => .term (t.rename σ)

def Block.rename (σ : ℕ → ℕ) (b : Block) : Block := ⟨b.label, b.insts.map (Inst.rename σ)⟩

def Function.rename (σ : ℕ → ℕ) (F : Function) : Function :=
  { F with
    params := F.params.map fun p => (σ p.1, p.2)
    blocks := F.blocks.map (Block.rename σ) }

theorem Operand.rename_congr {σ τ : ℕ → ℕ} {v : Operand} (h : ∀ r ∈ v.regs, σ r = τ r) :
    v.rename σ = v.rename τ := by
  cases v with
  | reg r ty => simp [Operand.rename, h r (by simp [Operand.regs])]
  | const c => rfl

theorem Operand.map_rename_congr {σ τ : ℕ → ℕ} {vs : List Operand}
    (h : ∀ r ∈ vs.flatMap Operand.regs, σ r = τ r) :
    vs.map (Operand.rename σ) = vs.map (Operand.rename τ) := by
  refine List.map_congr_left fun v hv => Operand.rename_congr fun r hr => ?_
  exact h r (List.mem_flatMap.mpr ⟨v, hv, hr⟩)

theorem Callee.rename_congr {σ τ : ℕ → ℕ} {c : Callee} (h : ∀ r ∈ c.regs, σ r = τ r) :
    c.rename σ = c.rename τ := by
  cases c with
  | value v stripped => exact congrArg (Callee.value · stripped) (Operand.rename_congr h)
  | _ => rfl

theorem map_dst_congr {σ τ : ℕ → ℕ} {dst : Option ℕ} (h : ∀ r ∈ dst.toList, σ r = τ r) :
    dst.map σ = dst.map τ := by
  cases dst with
  | none => rfl
  | some r => simp [h r (by simp)]

theorem Terminator.rename_congr {σ τ : ℕ → ℕ} {t : Terminator} (h : ∀ r ∈ t.regs, σ r = τ r) :
    t.rename σ = t.rename τ := by
  cases t with
  | ret v =>
    cases v with
    | none => rfl
    | some v => simp [Terminator.rename, Operand.rename_congr h]
  | condBr c l₁ l₂ => simp [Terminator.rename, Operand.rename_congr h]
  | switch v cases l => simp [Terminator.rename, Operand.rename_congr h]
  | invoke dst callee args l₁ l₂ =>
    simp only [Terminator.regs, List.mem_append] at h
    simp only [Terminator.rename, map_dst_congr fun r hr => h r (.inl (.inl hr)),
      Callee.rename_congr fun r hr => h r (.inl (.inr hr)),
      Operand.map_rename_congr fun r hr => h r (.inr hr)]
  | resume v => simp [Terminator.rename, Operand.rename_congr h]
  | br l => rfl
  | unreachable => rfl

theorem Inst.rename_congr {σ τ : ℕ → ℕ} {i : Inst} (h : ∀ r ∈ i.regs, σ r = τ r) :
    i.rename σ = i.rename τ := by
  cases i with
  | phi dst ty incoming =>
    simp only [Inst.regs, List.mem_cons, forall_eq_or_imp] at h
    have hin : (incoming.map fun q => (q.1, q.2.rename σ)) =
        incoming.map fun q => (q.1, q.2.rename τ) := by
      refine List.map_congr_left fun q hq => ?_
      rw [Operand.rename_congr fun r hr => h.2 r (List.mem_flatMap.mpr ⟨q, hq, hr⟩)]
    simp only [Inst.rename, h.1, hin]
  | store value pointer =>
    simp only [Inst.regs, List.mem_append] at h
    simp only [Inst.rename, Operand.rename_congr fun r hr => h r (.inl hr),
      Operand.rename_congr fun r hr => h r (.inr hr)]
  | ptrToInt dst v ty =>
    simp only [Inst.regs, List.mem_cons, forall_eq_or_imp] at h
    simp only [Inst.rename, h.1, Operand.rename_congr h.2]
  | op dst code args =>
    simp only [Inst.regs, List.mem_append] at h
    simp only [Inst.rename, map_dst_congr fun r hr => h r (.inl hr),
      Operand.map_rename_congr fun r hr => h r (.inr hr)]
  | call dst callee args =>
    simp only [Inst.regs, List.mem_append] at h
    simp only [Inst.rename, map_dst_congr fun r hr => h r (.inl (.inl hr)),
      Callee.rename_congr fun r hr => h r (.inl (.inr hr)),
      Operand.map_rename_congr fun r hr => h r (.inr hr)]
  | term t => simp only [Inst.rename, Terminator.rename_congr h]

def blockRegs (bs : List Block) : List ℕ := bs.flatMap fun b => b.insts.flatMap Inst.regs

theorem map_rename_congr {σ τ : ℕ → ℕ} {bs : List Block} (h : ∀ r ∈ blockRegs bs, σ r = τ r) :
    bs.map (Block.rename σ) = bs.map (Block.rename τ) := by
  refine List.map_congr_left fun b hb => ?_
  have hinsts : b.insts.map (Inst.rename σ) = b.insts.map (Inst.rename τ) :=
    List.map_congr_left fun i hi => Inst.rename_congr fun r hr =>
      h r (List.mem_flatMap.mpr ⟨b, hb, List.mem_flatMap.mpr ⟨i, hi, hr⟩⟩)
  rw [Block.rename, hinsts]
  rfl

/-! ## Registers that keep their names -/

theorem Operand.rename_id : Operand.rename id = id := by
  funext v
  cases v <;> rfl

theorem Callee.rename_id (c : Callee) : c.rename id = c := by
  cases c <;> simp [Callee.rename, Operand.rename_id]

theorem Terminator.rename_id (t : Terminator) : t.rename id = t := by
  cases t <;> simp [Terminator.rename, Operand.rename_id, Callee.rename_id]

theorem Inst.rename_id (i : Inst) : i.rename id = i := by
  cases i <;> simp [Inst.rename, Operand.rename_id, Callee.rename_id, Terminator.rename_id]

theorem Inst.rename_of_fixed {σ : ℕ → ℕ} {i : Inst} (h : ∀ r ∈ i.regs, σ r = r) :
    i.rename σ = i := by
  have hid : ∀ r ∈ i.regs, σ r = id r := h
  rw [Inst.rename_congr hid, Inst.rename_id]

/-! ## Registers after renaming -/

theorem Operand.regs_rename (σ : ℕ → ℕ) (v : Operand) : (v.rename σ).regs = v.regs.map σ := by
  cases v <;> rfl

theorem Operand.flatMap_regs_rename (σ : ℕ → ℕ) (vs : List Operand) :
    (vs.map (Operand.rename σ)).flatMap Operand.regs = (vs.flatMap Operand.regs).map σ := by
  simp [List.flatMap_map, List.map_flatMap, Operand.regs_rename]

theorem Callee.regs_rename (σ : ℕ → ℕ) (c : Callee) : (c.rename σ).regs = c.regs.map σ := by
  cases c with
  | value v stripped => exact Operand.regs_rename σ v
  | _ => rfl

theorem Terminator.regs_rename (σ : ℕ → ℕ) (t : Terminator) :
    (t.rename σ).regs = t.regs.map σ := by
  cases t with
  | ret v =>
    cases v with
    | none => rfl
    | some v => exact Operand.regs_rename σ v
  | condBr c l₁ l₂ => exact Operand.regs_rename σ c
  | switch v cases l => exact Operand.regs_rename σ v
  | invoke dst callee args l₁ l₂ =>
    simp only [Terminator.rename, Terminator.regs, Callee.regs_rename,
      Operand.flatMap_regs_rename, List.map_append]
    cases dst <;> rfl
  | resume v => exact Operand.regs_rename σ v
  | br l => rfl
  | unreachable => rfl

theorem Inst.regs_rename (σ : ℕ → ℕ) (i : Inst) : (i.rename σ).regs = i.regs.map σ := by
  cases i with
  | phi dst ty incoming =>
    simp [Inst.rename, Inst.regs, List.flatMap_map, List.map_flatMap, Operand.regs_rename]
  | store value pointer => simp [Inst.rename, Inst.regs, Operand.regs_rename]
  | ptrToInt dst v ty => simp [Inst.rename, Inst.regs, Operand.regs_rename]
  | op dst code args =>
    simp only [Inst.rename, Inst.regs, Operand.flatMap_regs_rename, List.map_append]
    cases dst <;> rfl
  | call dst callee args =>
    simp only [Inst.rename, Inst.regs, Callee.regs_rename, Operand.flatMap_regs_rename,
      List.map_append]
    cases dst <;> rfl
  | term t => exact Terminator.regs_rename σ t

theorem flatMap_regs_rename (σ : ℕ → ℕ) (l : List Inst) :
    (l.map (Inst.rename σ)).flatMap Inst.regs = (l.flatMap Inst.regs).map σ := by
  simp [List.flatMap_map, List.map_flatMap, Inst.regs_rename]

theorem blockRegs_rename (σ : ℕ → ℕ) (bs : List Block) :
    blockRegs (bs.map (Block.rename σ)) = (blockRegs bs).map σ := by
  simp only [blockRegs, List.flatMap_map, List.map_flatMap, Block.rename, Inst.regs_rename]

/-! ## Functions that differ in new registers only -/

/-- `F₂` is `F₁` with other names for the registers that `F` does not have. -/
def Function.SameButNew (F F₁ F₂ : Function) : Prop :=
  ∃ σ : Equiv.Perm ℕ, (∀ r ∈ F.regs, σ r = r) ∧ F₂ = F₁.rename σ

theorem Function.rename_congr {σ τ : ℕ → ℕ} {F : Function} (h : ∀ r ∈ F.regs, σ r = τ r) :
    F.rename σ = F.rename τ := by
  have hparams : (F.params.map fun p => (σ p.1, p.2)) = F.params.map fun p => (τ p.1, p.2) := by
    refine List.map_congr_left fun p hp => ?_
    rw [h p.1 (List.mem_append_left _ (List.mem_map_of_mem hp))]
  have hblocks : F.blocks.map (Block.rename σ) = F.blocks.map (Block.rename τ) :=
    map_rename_congr fun r hr => h r (List.mem_append_right _ hr)
  rw [Function.rename, hparams, hblocks]
  rfl

/-- A map that is injective on the registers of `F₁` will do. -/
theorem Function.SameButNew.of_injOn {F F₁ F₂ : Function} {φ : ℕ → ℕ}
    (hinj : Set.InjOn φ {r | r ∈ F₁.regs}) (hfix : ∀ r ∈ F.regs, φ r = r) (hsub : F.regs ⊆ F₁.regs)
    (h : F₂ = F₁.rename φ) : F.SameButNew F₁ F₂ := by
  have hinj' : Function.Injective fun r : {r // r ∈ F₁.regs} => φ r := fun r s heq =>
    Subtype.ext (hinj r.2 s.2 heq)
  obtain ⟨σ, hσ⟩ := Equiv.Perm.exists_extending_pair (fun r : {r // r ∈ F₁.regs} => (r : ℕ))
    (fun r => φ r) Subtype.val_injective hinj'
  have hagree : ∀ r ∈ F₁.regs, φ r = σ r := fun r hr => (hσ ⟨r, hr⟩).symm
  refine ⟨σ, fun r hr => ?_, ?_⟩
  · rw [← hagree r (hsub hr), hfix r hr]
  · rw [h, Function.rename_congr hagree]

theorem Block.rename_id (b : Block) : b.rename id = b := by
  have hinsts : b.insts.map (Inst.rename id) = b.insts := by
    rw [funext Inst.rename_id]
    exact List.map_id _
  rw [Block.rename, hinsts]

theorem Function.rename_id (F : Function) : F.rename id = F := by
  have hblocks : F.blocks.map (Block.rename id) = F.blocks := by
    rw [funext Block.rename_id]
    exact List.map_id _
  simp [Function.rename, hblocks]

theorem Function.SameButNew.refl (F F₁ : Function) : F.SameButNew F₁ F₁ :=
  ⟨Equiv.refl ℕ, fun _ _ => rfl, F₁.rename_id.symm⟩

end Squint.IR
