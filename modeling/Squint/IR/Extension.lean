import Squint.IR.Insertion

/-! What the passes leave in place: a function keeps its instructions and gains silent ones. -/
namespace Squint.IR

/-- `F'` is `F` with silent instructions put in; a wrapper stays as it is. -/
structure Function.Extends (F F' : Function) : Prop where
  name : F'.name = F.name
  params : F'.params = F.params
  nounwind : F'.nounwind = F.nounwind
  blocks : List.Forall₂ (fun b b' => b'.label = b.label ∧ Inserted F.freshReg b.insts b'.insts)
    F.blocks F'.blocks
  wrapper : isWrapper F.name = true → F' = F

structure Module.Extends (M M' : Module) : Prop where
  dataLayout : M'.dataLayout = M.dataLayout
  defs : List.Forall₂ Function.Extends M.defs M'.defs

theorem Inserted.subset {n : ℕ} {l l' : List Inst} (h : Inserted n l l') : l ⊆ l' := by
  induction h with
  | nil => simp
  | keep _ ih => exact List.cons_subset_cons _ ih
  | insert _ _ _ ih => exact List.subset_cons_of_subset _ ih

theorem Inserted.mem_or_silent {n : ℕ} {l l' : List Inst} (h : Inserted n l l') {i : Inst}
    (hi : i ∈ l') : i ∈ l ∨ Silent n i := by
  induction h with
  | nil => simp at hi
  | keep _ ih =>
    rcases List.mem_cons.mp hi with rfl | hi
    · simp
    · exact (ih hi).imp_left (by simp +contextual)
  | insert hj _ _ ih =>
    rcases List.mem_cons.mp hi with rfl | hi
    · exact .inr hj
    · exact ih hi

namespace Function

theorem freshReg_le {F G : Function} (h : ∀ r ∈ F.regs, r < G.freshReg) :
    F.freshReg ≤ G.freshReg := by
  unfold freshReg at h ⊢
  generalize F.regs = l at h
  induction l with
  | nil => simp
  | cons a l ih =>
    have ha := h a (by simp)
    have hl := ih fun r hr => h r (by simp [hr])
    simp only [List.foldr_cons] at hl ⊢
    omega

theorem Extends.refl (F : Function) : F.Extends F where
  name := rfl
  params := rfl
  nounwind := rfl
  blocks := List.forall₂_same.mpr fun _ _ => ⟨rfl, .refl _⟩
  wrapper _ := rfl

theorem Extends.exists_block {F F' : Function} (h : F.Extends F') {b : Block}
    (hb : b ∈ F.blocks) : ∃ b' ∈ F'.blocks, b.insts ⊆ b'.insts := by
  obtain ⟨b', hb', hins⟩ := exists_right_of_forall₂ h.blocks hb
  exact ⟨b', hb', hins.2.subset⟩

theorem Extends.mem_or_silent {F F' : Function} (h : F.Extends F') {b' : Block}
    (hb' : b' ∈ F'.blocks) {i : Inst} (hi : i ∈ b'.insts) :
    (∃ b ∈ F.blocks, i ∈ b.insts) ∨ Silent F.freshReg i := by
  obtain ⟨b, hb, hins⟩ := exists_left_of_forall₂ h.blocks hb'
  exact (hins.2.mem_or_silent hi).imp_left fun hi => ⟨b, hb, hi⟩

theorem Extends.regs_subset {F F' : Function} (h : F.Extends F') : F.regs ⊆ F'.regs := by
  intro r hr
  rcases List.mem_append.mp hr with hr | hr
  · exact List.mem_append_left _ (by rwa [h.params])
  · obtain ⟨b, hb, hr⟩ := List.mem_flatMap.mp hr
    obtain ⟨i, hi, hri⟩ := List.mem_flatMap.mp hr
    obtain ⟨b', hb', hsub⟩ := h.exists_block hb
    exact mem_regs_of_inst hb' (hsub hi) hri

theorem Extends.freshReg_le {F F' : Function} (h : F.Extends F') : F.freshReg ≤ F'.freshReg :=
  Function.freshReg_le fun _ hr => lt_freshReg (h.regs_subset hr)

theorem Extends.trans {F G H : Function} (h : F.Extends G) (h' : G.Extends H) : F.Extends H where
  name := h'.name.trans h.name
  params := h'.params.trans h.params
  nounwind := h'.nounwind.trans h.nounwind
  blocks := by
    have hrel := h.blocks
    have hrel' := h'.blocks.imp fun _ _ hb => And.intro hb.1 (hb.2.mono h.freshReg_le)
    generalize F.blocks = bs at hrel
    generalize G.blocks = bs₁ at hrel hrel'
    generalize H.blocks = bs₂ at hrel'
    induction hrel generalizing bs₂ with
    | nil => cases hrel'; exact .nil
    | cons hb _ ih =>
      cases hrel' with
      | cons hb' hbs' => exact .cons ⟨hb'.1.trans hb.1, hb.2.trans hb'.2⟩ (ih _ hbs')
  wrapper hw := by
    have hG := h.wrapper hw
    rw [← hG] at hw
    exact (h'.wrapper hw).trans hG

end Function

/-! ## What a well-formed function keeps -/

section
variable {F F' : Function} (hF : F.WellFormed) (h : F.Extends F')
include hF h

theorem Function.Extends.storesTyped : ∀ b ∈ F'.blocks, StoresTyped b.insts := by
  intro b' hb' v p hs
  rcases h.mem_or_silent hb' hs with ⟨b, hb, hs⟩ | hs
  · exact hF.store_typed b hb v p hs
  · exact absurd hs.not_store (by simp [Inst.isStore])

theorem Function.Extends.entry_cons : ∃ e bs e' bs', F.blocks = e :: bs ∧ F'.blocks = e' :: bs' ∧
    e'.label = e.label ∧ Inserted F.freshReg e.insts e'.insts ∧
    List.Forall₂ (fun b b' => b'.label = b.label ∧ Inserted F.freshReg b.insts b'.insts) bs bs' ∧
    e'.insts ≠ [] ∧ ∀ i ∈ e'.insts, i.isPhi = false ∧ i.isEHPad = false := by
  have hrel := h.blocks
  cases hb : F.blocks with
  | nil => exact absurd hb hF.blocks_ne_nil
  | cons e bs =>
    rw [hb] at hrel
    cases hb' : F'.blocks with
    | nil => rw [hb'] at hrel; cases hrel
    | cons e' bs' =>
      rw [hb'] at hrel
      cases hrel with
      | cons he hbs =>
        refine ⟨e, bs, e', bs', rfl, rfl, he.1, he.2, hbs, ?_, fun i hi => ?_⟩
        · obtain ⟨phis, body, t, hsh, -, -⟩ := hF.shaped e (by simp [hb])
          have ht : Inst.term t ∈ e'.insts := he.2.subset (by simp [hsh])
          exact List.ne_nil_of_mem ht
        · rcases he.2.mem_or_silent hi with hi | hi
          · exact hF.entry_head e (by simp [hb]) i hi
          · refine ⟨hi.not_phi, ?_⟩
            cases i <;> simp_all [Silent, Inst.isEHPad]

omit hF h in
theorem getFirstInsertionPt_cons {i : Inst} {l : List Inst} (hi : i.isPhi = false)
    (hp : i.isEHPad = false) : getFirstInsertionPt (i :: l) = some ([], i :: l) := by
  simp [getFirstInsertionPt, hi, hp]

/-- The entry block of an extension has neither phis nor a landing pad, so that its first
insertion point is its first instruction. -/
theorem Function.Extends.insertAtEntry {new : List Inst} (hnew : ∀ i ∈ new, Silent F'.freshReg i)
    (hw : isWrapper F.name = false) :
    ∃ e' bs', F'.blocks = e' :: bs' ∧
      IR.insertAtEntry F' new =
        .ok { F' with blocks := { e' with insts := new ++ e'.insts } :: bs' } ∧
      F'.Extends { F' with blocks := { e' with insts := new ++ e'.insts } :: bs' } := by
  obtain ⟨e, bs, e', bs', -, hb', -, -, -, hne, hphi⟩ := h.entry_cons hF
  refine ⟨e', bs', hb', ?_, ?_⟩
  · cases hi : e'.insts with
    | nil => exact absurd hi hne
    | cons i l =>
      obtain ⟨hp, he⟩ := hphi i (by simp [hi])
      simp [IR.insertAtEntry, hb', hi, getFirstInsertionPt_cons hp he]
  · refine ⟨rfl, rfl, rfl, ?_, fun hw' => ?_⟩
    · simp only [hb']
      refine .cons ⟨rfl, ?_⟩ (List.forall₂_same.mpr fun _ _ => ⟨rfl, .refl _⟩)
      refine .insert_all hnew (fun j hj => (hphi j (List.mem_of_mem_head? hj)).1) (.refl _)
    · rw [h.name, hw] at hw'
      exact absurd hw' (by simp)

end

/-! ## Modules -/

namespace Module

theorem getOrInsertFunction_defs (M : Module) (n : Name) (ty : FnTy) :
    (M.getOrInsertFunction n ty).defs = M.defs ∧
      (M.getOrInsertFunction n ty).dataLayout = M.dataLayout := by
  unfold getOrInsertFunction
  split <;> exact ⟨rfl, rfl⟩

theorem lookup_mem {M : Module} {n : Name} {F : Function} (h : M.lookup n = some F) :
    F ∈ M.defs ∧ F.name = n := by
  refine ⟨List.mem_of_find?_eq_some h, ?_⟩
  simpa using List.find?_some h

theorem Extends.refl (M : Module) : M.Extends M :=
  ⟨rfl, List.forall₂_same.mpr fun F _ => .refl F⟩

theorem Extends.of_defs {M M₁ M₂ : Module} (h : M.Extends M₁) (hd : M₂.defs = M₁.defs)
    (hl : M₂.dataLayout = M₁.dataLayout) : M.Extends M₂ :=
  ⟨hl.trans h.dataLayout, hd ▸ h.defs⟩

theorem Extends.names {M M' : Module} (h : M.Extends M') :
    M'.defs.map (·.name) = M.defs.map (·.name) := by
  have hrel := h.defs
  generalize M.defs = fs at hrel
  generalize M'.defs = fs' at hrel
  induction hrel with
  | nil => rfl
  | cons hF _ ih => simp [hF.name, ih]

theorem Extends.exists_base {M M' : Module} (h : M.Extends M') {F' : Function}
    (hF : F' ∈ M'.defs) : ∃ F ∈ M.defs, F.Extends F' :=
  exists_left_of_forall₂ h.defs hF

theorem forall₂_update {M : Module} {R R' : Function → Function → Prop} {fs : List Function}
    (h : List.Forall₂ R fs M.defs) (hn : (M.defs.map (·.name)).Nodup) {F F' : Function}
    (hF : F ∈ M.defs) (hname : F'.name = F.name) (hR : ∀ G, R G F → R' G F')
    (hother : ∀ G G', G'.name ≠ F.name → R G G' → R' G G') :
    List.Forall₂ R' fs (M.update F').defs := by
  have hinj : ∀ G ∈ M.defs, G.name = F.name → G = F := fun G hG he =>
    List.inj_on_of_nodup_map hn hG hF he
  simp only [Module.update, hname]
  clear hF hn
  generalize M.defs = fs' at h hinj
  induction h with
  | nil => exact .nil
  | cons hG _ ih =>
    refine .cons ?_ (ih fun G hG' => hinj G (by simp [hG']))
    dsimp only
    split_ifs with he
    · rw [hinj _ (by simp) he] at hG
      exact hR _ hG
    · exact hother _ _ he hG

theorem Extends.update {M M' : Module} (h : M.Extends M') (hn : (M.defs.map (·.name)).Nodup)
    {F F' : Function} (hF : F ∈ M'.defs) (hext : F.Extends F') : M.Extends (M'.update F') :=
  ⟨h.dataLayout, forall₂_update h.defs (by rwa [h.names]) hF hext.name (fun _ hG => hG.trans hext)
    fun _ _ _ hG => hG⟩

theorem mem_update {M : Module} {F G : Function} (h : G ∈ (M.update F).defs) :
    G = F ∨ (G ∈ M.defs ∧ G.name ≠ F.name) := by
  obtain ⟨H, hH, rfl⟩ := List.mem_map.mp h
  split_ifs with hn
  · exact .inl rfl
  · exact .inr ⟨hH, hn⟩

theorem lookup_eq_none {M : Module} {n : Name} (h : M.lookup n = none) {F : Function}
    (hF : F ∈ M.defs) : F.name ≠ n := by
  have := List.find?_eq_none.mp h F hF
  simpa using this

theorem lookup_of_mem {M : Module} (hn : (M.defs.map (·.name)).Nodup) {F : Function}
    (hF : F ∈ M.defs) : M.lookup F.name = some F := by
  cases hl : M.lookup F.name with
  | none => exact absurd rfl (lookup_eq_none hl hF)
  | some G =>
    obtain ⟨hG, hname⟩ := lookup_mem hl
    rw [List.inj_on_of_nodup_map hn hG hF hname]

theorem lookup_update {M : Module} {F' : Function} (n : Name) : (M.update F').lookup n =
    (M.lookup n).map fun G => if G.name = F'.name then F' else G := by
  have hname : ((fun G : Function => G.name == n) ∘ fun G => if G.name = F'.name then F' else G) =
      fun G => G.name == n := by
    funext G
    simp only [Function.comp_apply]
    split_ifs with h
    · rw [h]
    · rfl
  simp only [lookup, update, List.find?_map, hname]

theorem lookup_update_ne {M : Module} {F' : Function} {n : Name} (h : F'.name ≠ n) :
    (M.update F').lookup n = M.lookup n := by
  rw [lookup_update]
  cases hl : M.lookup n with
  | none => rfl
  | some G =>
    have hne : G.name ≠ F'.name := fun heq => h (heq ▸ (lookup_mem hl).2)
    simp [hne]

end Module

theorem Module.eq_of_decls_eq {M N : Module}
    (h : N.defs = M.defs ∧ N.dataLayout = M.dataLayout) (hdecls : N.decls = M.decls) : N = M := by
  obtain ⟨hdefs, hdl⟩ := h
  cases N
  cases hdefs
  cases hdl
  cases hdecls
  rfl

theorem isSome_lookup_iff {M : Module} {n : Name} :
    (M.lookup n).isSome = true ↔ n ∈ M.defs.map (·.name) := by
  simp [Module.lookup, List.find?_isSome]

section
variable {M M₁ : Module} (h : M.Extends M₁)
include h

theorem Module.Extends.isSome_lookup (n : Name) :
    (M₁.lookup n).isSome = (M.lookup n).isSome := by
  rw [Bool.eq_iff_iff, isSome_lookup_iff, isSome_lookup_iff, h.names]

theorem Module.Extends.isSome_lookup_of_mem {F : Function} (hF : F ∈ M₁.defs) :
    (M.lookup F.name).isSome = true := by
  rw [← h.isSome_lookup, isSome_lookup_iff]
  exact List.mem_map_of_mem hF

theorem Module.Extends.lookup_eq_none {n : Name} (hl : M₁.lookup n = none) :
    M.lookup n = none := by
  rw [← Option.isNone_iff_eq_none, ← Option.not_isSome, ← h.isSome_lookup, hl]
  rfl

end

end Squint.IR
