import Squint.IR.Guard
import Squint.IR.Legacy

/-! The two ways to announce flushes, for flush functions of any name: the older plugin's callback
before every call, and the newer one's callback at the entry. This is the second, with the store
callbacks that go with it. -/
namespace Squint.IR

/-- What `FenceInstru::run` does for flushes, where flush functions are those named like `s`. -/
def flushInstru (s : Name) (once : Bool) (M : Module) (F : Function) : Checked (Bool × Module) :=
  let M₁ := initializeFlushCallbacks M (getIntPtrTy M)
  if Contains F.name s ∧ once = false then do
    let new ← flushCallback M.dataLayout F
    let F' ← insertAtEntry F new
    .ok (true, M₁.update F')
  else .ok (once, M₁)

def runEntryPass (s : Name) (st : Bool × Module) : PassRun → Checked (Bool × Module)
  | .storeFlush f =>
    match st.2.lookup f with
    | none => .ok st
    | some F => do
      let (M', _) ← storeFlushInstru st.2 F
      .ok (st.1, M')
  | .fence f =>
    match st.2.lookup f with
    | none => .ok st
    | some F => flushInstru s st.1 st.2 F

def runEntryPasses (s : Name) : Bool × Module → List PassRun → Checked (Bool × Module)
  | st, [] => .ok st
  | st, p :: ps => do
    let st' ← runEntryPass s st p
    runEntryPasses s st' ps

/-- `F` is the one function whose name contains `s`, and takes a pointer first. Nothing else with
such a name is called, and `F` is called with a pointer of that type. -/
structure SoleFlush (s : Name) (M : Module) (F : Function) : Prop where
  mem : F ∈ M.defs
  contains : Contains F.name s
  unique : ∀ G ∈ M.defs, Contains G.name s → G = F
  not_wrapper : isWrapper F.name = false
  address : ∃ r ty, F.params.head? = some (r, ty) ∧ ty.isPointer = true
  named : ∀ G ∈ M.defs, isWrapper G.name = false → ∀ b ∈ G.blocks, ∀ d c args,
    .call d c args ∈ b.insts → Contains (Legacy.calledName c) s → c = .fn F.name
  typed : ∀ G ∈ M.defs, isWrapper G.name = false → ∀ b ∈ G.blocks, ∀ d args,
    .call d (.fn F.name) args ∈ b.insts →
      ∃ v more, args = v :: more ∧ F.params.head?.map (·.2) = some v.ty

/-! ## What becomes of a function -/

/-- What stands at the entry once the runs `done` are over. -/
def AtEntry (dl : DataLayout) (s : Name) (done : List PassRun) (G : Function) (new : List Inst) :
    Prop :=
  if Contains G.name s ∧ .fence G.name ∈ done then
    ∃ fresh r ty, G.freshReg ≤ fresh ∧ G.params.head? = some (r, ty) ∧
      new = flushGroup dl fresh r ty
  else new = []

def BlockBy (dl : DataLayout) (done : List PassRun) (G : Function) (b b' : Block) : Prop :=
  if .storeFlush G.name ∈ done then InstrumentedBlock dl G.freshReg b b' else b' = b

/-- `G'` is what the runs `done` have made of `G`. -/
def DressedBy (dl : DataLayout) (s : Name) (done : List PassRun) (G G' : Function) : Prop :=
  if isWrapper G.name then G' = G
  else ∃ e bs e' bs' new, G.blocks = e :: bs ∧ G' = G.prepend e' bs' new ∧
    AtEntry dl s done G new ∧ List.Forall₂ (BlockBy dl done G) (e :: bs) (e' :: bs')

section
variable {dl : DataLayout} {s : Name} {done done' : List PassRun}
  {G G' G'' : Function}

theorem DressedBy.congr (h : DressedBy dl s done G G')
    (hs : isWrapper G.name = false → (.storeFlush G.name ∈ done' ↔ .storeFlush G.name ∈ done))
    (hv : Contains G.name s → (.fence G.name ∈ done' ↔ .fence G.name ∈ done)) :
    DressedBy dl s done' G G' := by
  unfold DressedBy at h ⊢
  split_ifs at h ⊢ with hw
  · exact h
  · obtain ⟨e, bs, e', bs', new, hb, hG', hnew, hbs⟩ := h
    refine ⟨e, bs, e', bs', new, hb, hG', ?_, hbs.imp fun b b' hb' => ?_⟩
    · have hiff := and_congr_right hv
      simpa only [AtEntry, hiff] using hnew
    · simpa only [BlockBy, hs (Bool.eq_false_iff.mpr hw)] using hb'

theorem DressedBy.other {p : PassRun} (h : DressedBy dl s done G G')
    (hp : p.function ≠ G.name) : DressedBy dl s (done ++ [p]) G G' := by
  have hne : ∀ q : PassRun, q.function = G.name → q ≠ p := fun q hq he => hp (he ▸ hq)
  refine h.congr (fun _ => ?_) fun _ => ?_
  · simp [hne (.storeFlush G.name) rfl]
  · simp [hne (.fence G.name) rfl]

theorem DressedBy.start (hG : G.blocks ≠ []) : DressedBy dl s [] G G := by
  unfold DressedBy
  split_ifs
  · rfl
  · obtain ⟨e, bs, hb⟩ := List.exists_cons_of_ne_nil hG
    refine ⟨e, bs, e, bs, [], hb, ?_, by simp [AtEntry], ?_⟩
    · cases G
      cases hb
      rfl
    · exact List.forall₂_same.mpr fun b _ => by simp [BlockBy]

theorem DressedBy.stores {changed : Bool} (h : DressedBy dl s done G G')
    (hw : isWrapper G.name = false) (hext : G.Extends G') (hnot : .storeFlush G.name ∉ done)
    (he : instrumentBody dl G' = .ok (G'', changed)) :
    DressedBy dl s (done ++ [.storeFlush G.name]) G G'' := by
  simp only [DressedBy, hw, Bool.false_eq_true, if_false] at h ⊢
  obtain ⟨e, bs, e', bs', new, hb, hG', hnew, hbs⟩ := h
  have hsame : e' :: bs' = e :: bs := by
    have hrel := hbs.imp fun b b' (hb' : BlockBy dl done G b b') => by
      simpa only [BlockBy, hnot, if_false] using hb'
    exact List.forall₂_eq_eq_eq ▸ hrel.flip
  obtain ⟨rfl, rfl⟩ := List.cons.inj hsame
  obtain ⟨hG'', hblocks⟩ := instrumentBody_blocks he
  have hle := hext.freshReg_le
  have hsilent : ∀ i ∈ new, i.isStore = false := by
    unfold AtEntry at hnew
    split_ifs at hnew
    · obtain ⟨fresh, r, ty, -, -, rfl⟩ := hnew
      exact fun i hi => (flushGroup_silent _ _ _ _ i hi).not_store
    · simp [hnew]
  rw [show G'.blocks = { e' with insts := new ++ e'.insts } :: bs' by rw [hG']; rfl] at hblocks
  generalize hbs'' : G''.blocks = blocks at hblocks hG''
  cases hblocks with
  | @cons _ e₁ _ bs₁ he₁ hrest =>
    obtain ⟨hlabel, c, c', hc, hins⟩ := he₁
    rw [instrumentInsts_append hsilent] at hins
    obtain ⟨q, hq, hins⟩ := map_eq_ok hins
    simp only [Prod.mk.injEq] at hins
    refine ⟨e', bs', ⟨e₁.label, q.1⟩, bs₁, new, hb, ?_, ?_, .cons ?_ ?_⟩
    · rw [hG'', hG', Function.prepend, Function.prepend, hins.1]
    · simpa [AtEntry] using hnew
    · simp only [BlockBy, List.mem_append, List.mem_singleton, or_true, if_true]
      exact ⟨hlabel, c, c', hle.trans hc, by rw [hq, ← hins.2]⟩
    · refine hrest.imp fun b b' hb' => ?_
      simp only [BlockBy, List.mem_append, List.mem_singleton, or_true, if_true]
      obtain ⟨hl, c, c', hc, hb'⟩ := hb'
      exact ⟨hl, c, c', hle.trans hc, hb'⟩

theorem DressedBy.flush {e' : Block} {bs' : List Block} (h : DressedBy dl s done G G')
    (hw : isWrapper G.name = false) (hext : G.Extends G') (hc : Contains G.name s)
    (hnot : .fence G.name ∉ done) {r : ℕ} {ty : Ty} (hps : G.params.head? = some (r, ty))
    (hb' : G'.blocks = e' :: bs') :
    DressedBy dl s (done ++ [.fence G.name]) G
      (G'.prepend e' bs' (flushGroup dl G'.freshReg r ty)) := by
  simp only [DressedBy, hw, Bool.false_eq_true, if_false] at h ⊢
  obtain ⟨e, bs, e₁, bs₁, new, hb, hG', hnew, hbs⟩ := h
  obtain rfl : new = [] := by simpa [AtEntry, hnot] using hnew
  rw [hG'] at hb'
  obtain ⟨rfl, rfl⟩ := List.cons.inj hb'
  refine ⟨e, bs, e₁, bs₁, flushGroup dl G'.freshReg r ty, hb, ?_, ?_, hbs.imp fun b b' hbb => ?_⟩
  · rw [hG']
    rfl
  · simp only [AtEntry, hc, List.mem_append, List.mem_singleton, or_true, and_self, if_true]
    exact ⟨_, r, ty, hext.freshReg_le, hps, rfl⟩
  · simpa [BlockBy] using hbb

end

/-! ## All functions -/

theorem initializeFlushCallbacks_defs (M : Module) (ty : Ty) :
    (initializeFlushCallbacks M ty).defs = M.defs ∧
      (initializeFlushCallbacks M ty).dataLayout = M.dataLayout :=
  Module.getOrInsertFunction_defs _ _ _

structure Reached (M : Module) (s : Name) (F : Function) (done : List PassRun)
    (once : Bool) (M₁ : Module) : Prop where
  ext : M.Extends M₁
  dressed : List.Forall₂ (DressedBy M.dataLayout s done) M.defs M₁.defs
  once_iff : once = true ↔ .fence F.name ∈ done

section
variable {M M₁ : Module} {s : Name} {F : Function} {done : List PassRun}
  {once : Bool}

theorem Reached.lookup (h : Reached M s F done once M₁) {f : Name} {G' : Function}
    (hl : M₁.lookup f = some G') :
    ∃ G ∈ M.defs, G.name = f ∧ G.Extends G' ∧ DressedBy M.dataLayout s done G G' := by
  obtain ⟨hmem, rfl⟩ := Module.lookup_mem hl
  obtain ⟨k, hk', rfl⟩ := List.mem_iff_getElem.mp hmem
  have hk : k < M.defs.length := h.dressed.length_eq ▸ hk'
  have hext := h.ext.defs.get hk hk'
  exact ⟨_, List.getElem_mem hk, hext.name.symm, hext, h.dressed.get hk hk'⟩

theorem Reached.ne_of_lookup_none (h : Reached M s F done once M₁) {f : Name}
    (hl : M₁.lookup f = none) {G : Function} (hG : G ∈ M.defs) : G.name ≠ f := by
  have hmem : G.name ∈ M₁.defs.map (·.name) := h.ext.names ▸ List.mem_map_of_mem hG
  obtain ⟨G', hG', hn⟩ := List.mem_map.mp hmem
  exact hn ▸ Module.lookup_eq_none hl hG'

theorem Reached.update {M₂ : Module} {once' : Bool} {p : PassRun} {G G' G'' : Function}
    (h : Reached M s F done once M₁) (hM : M.WellFormed) (hd : M₂.defs = M₁.defs)
    (hl : M₂.dataLayout = M₁.dataLayout) (hlook : M₁.lookup p.function = some G')
    (hname : G.name = p.function) (hG : G ∈ M.defs) (hext : G'.Extends G'')
    (hdress : DressedBy M.dataLayout s (done ++ [p]) G G'')
    (honce : once' = true ↔ .fence F.name ∈ done ++ [p]) :
    Reached M s F (done ++ [p]) once' (M₂.update G'') := by
  obtain ⟨hmem, hname'⟩ := Module.lookup_mem hlook
  have hn : (M₂.defs.map (·.name)).Nodup := by
    rw [hd, h.ext.names]
    exact hM.names_nodup
  refine ⟨(h.ext.of_defs hd hl).update hM.names_nodup (hd ▸ hmem) hext, ?_, honce⟩
  have hboth : List.Forall₂ (fun H H' => H ∈ M.defs ∧ H.Extends H' ∧
      DressedBy M.dataLayout s done H H') M.defs M₂.defs := by
    rw [hd]
    exact List.forall₂_iff_get.mpr ⟨h.dressed.length_eq, fun k hk hk' =>
      ⟨List.getElem_mem hk, h.ext.defs.get hk hk', h.dressed.get hk hk'⟩⟩
  refine Module.forall₂_update hboth hn (hd ▸ hmem) hext.name (fun H hH => ?_) fun H H' hne hH => ?_
  · obtain ⟨hHM, hHext, -⟩ := hH
    have heq : H = G := List.inj_on_of_nodup_map hM.names_nodup hHM hG
      (hHext.name.symm.trans (hname'.trans hname.symm))
    exact heq ▸ hdress
  · obtain ⟨-, hHext, hH⟩ := hH
    exact hH.other fun he => hne (hHext.name.trans (he.symm.trans hname'.symm))

theorem Reached.unchanged {M₂ : Module} {p : PassRun} (h : Reached M s F done once M₁)
    (hd : M₂.defs = M₁.defs) (hl : M₂.dataLayout = M₁.dataLayout)
    (hs : ∀ G ∈ M.defs, isWrapper G.name = false → .storeFlush G.name ≠ p)
    (hv : ∀ G ∈ M.defs, Contains G.name s → .fence G.name = p → .fence G.name ∈ done)
    (honce : .fence F.name = p → .fence F.name ∈ done) :
    Reached M s F (done ++ [p]) once M₂ := by
  refine ⟨h.ext.of_defs hd hl, ?_, ?_⟩
  · rw [hd]
    refine List.forall₂_iff_get.mpr ⟨h.dressed.length_eq, fun k hk hk' => ?_⟩
    have hG := List.getElem_mem hk
    refine (h.dressed.get hk hk').congr (fun hw => ?_) fun hc => ?_
    · simp [hs _ hG hw]
    · simpa using hv _ hG hc
  · rw [h.once_iff]
    simpa using honce

variable (hM : M.WellFormed) (hF : SoleFlush s M F) (h : Reached M s F done once M₁)
include hM hF h

omit hF in
theorem storeRun_reached (f : Name)
    (hcount : ∀ G ∈ M.defs, (done ++ [PassRun.storeFlush f]).count (.storeFlush G.name) ≤ 1) :
    ∃ once' M₂, runEntryPass s (once, M₁) (.storeFlush f) = .ok (once', M₂) ∧
      Reached M s F (done ++ [.storeFlush f]) once' M₂ := by
  have honce : once = true ↔ .fence F.name ∈ done ++ [.storeFlush f] := by simp [h.once_iff]
  cases hl : M₁.lookup f with
  | none =>
    refine ⟨once, M₁, by simp [runEntryPass, hl], h.unchanged rfl rfl (fun G hG _ he => ?_)
      (by simp) (by simp)⟩
    exact h.ne_of_lookup_none hl hG (PassRun.storeFlush.inj he)
  | some G' =>
    obtain ⟨G, hG, rfl, hext, hdress⟩ := h.lookup hl
    cases hw : isWrapper G.name with
    | true =>
      have hw' : isWrapper G'.name = true := by rwa [hext.name]
      refine ⟨once, M₁, ?_, h.unchanged rfl rfl (fun H _ hHw he => ?_) (by simp) (by simp)⟩
      · simp [runEntryPass, hl, storeFlushInstru_wrapper hw', bind, Except.bind]
      · rw [PassRun.storeFlush.inj he, hw] at hHw
        cases hHw
    | false =>
      obtain ⟨G'', changed, he, hext'⟩ := instrumentBody_extends (hM.functions G hG) hext hw
        M₁.dataLayout
      have hw' : isWrapper G'.name = false := by rwa [hext.name]
      have hnot : .storeFlush G.name ∉ done := notMem_of_count_le_one (hcount G hG)
      obtain ⟨hd, hdl⟩ := storeFlushCallbacks_defs M₁
      refine ⟨once, _, ?_, h.update hM hd hdl hl rfl hG hext' ?_ honce⟩
      · simp only [runEntryPass, hl, storeFlushInstru_of_body hw' he, bind, Except.bind]
      · rw [h.ext.dataLayout] at he
        exact hdress.stores hw hext hnot he

theorem firstVisit_reached {F' : Function} (hl : M₁.lookup F.name = some F')
    (honce : once = false) :
    ∃ M₂, runEntryPass s (once, M₁) (.fence F.name) = .ok (true, M₂) ∧
      Reached M s F (done ++ [.fence F.name]) true M₂ := by
  obtain ⟨G, hG, hname, hext, hdress⟩ := h.lookup hl
  obtain rfl : G = F := List.inj_on_of_nodup_map hM.names_nodup hG hF.mem hname
  obtain ⟨r, ty, hps, hpointer⟩ := hF.address
  obtain ⟨ps, hparams⟩ := List.head?_eq_some_iff.mp hps
  obtain ⟨e', bs', hb', hins, hext'⟩ := hext.insertAtEntry (hM.functions G hG)
    (flushGroup_silent M₁.dataLayout F'.freshReg r ty) hF.not_wrapper
  have hnew : flushCallback M₁.dataLayout F' = .ok (flushGroup M₁.dataLayout F'.freshReg r ty) :=
    flushCallback_of_address (hext.params.trans hparams) (.inl hpointer)
  have hnot : .fence G.name ∉ done := fun hd => by
    rw [← h.once_iff, honce] at hd
    cases hd
  have hc : Contains F'.name s ∧ once = false := ⟨hext.name ▸ hF.contains, honce⟩
  obtain ⟨hd, hdl⟩ := initializeFlushCallbacks_defs M₁ (getIntPtrTy M₁)
  refine ⟨_, ?_, h.update hM hd hdl hl rfl hG hext' ?_ (by simp)⟩
  · simp only [runEntryPass, hl, flushInstru, if_pos hc, hnew, hins, bind, Except.bind]
  · rw [h.ext.dataLayout]
    exact hdress.flush hF.not_wrapper hext hF.contains hnot hps hb'

theorem visit_reached (f : Name) :
    ∃ once' M₂, runEntryPass s (once, M₁) (.fence f) = .ok (once', M₂) ∧
      Reached M s F (done ++ [.fence f]) once' M₂ := by
  cases hl : M₁.lookup f with
  | none =>
    have hne : F.name ≠ f := h.ne_of_lookup_none hl hF.mem
    refine ⟨once, M₁, by simp [runEntryPass, hl], h.unchanged rfl rfl (by simp) ?_ ?_⟩
    · intro G hG hc he
      rw [hF.unique G hG hc] at he
      exact absurd (PassRun.fence.inj he) hne
    · exact fun he => absurd (PassRun.fence.inj he) hne
  | some G' =>
    obtain ⟨G, hG, rfl, hext, -⟩ := h.lookup hl
    by_cases hc : Contains G'.name s ∧ once = false
    · obtain rfl := hF.unique G hG (hext.name ▸ hc.1)
      obtain ⟨M₂, hrun, h'⟩ := firstVisit_reached hM hF h hl hc.2
      exact ⟨true, M₂, hrun, h'⟩
    · obtain ⟨hd, hdl⟩ := initializeFlushCallbacks_defs M₁ (getIntPtrTy M₁)
      refine ⟨once, _, ?_, h.unchanged hd hdl (by simp) ?_ ?_⟩
      · simp only [runEntryPass, hl, flushInstru, if_neg hc]
      · intro H hH hcH he
        rw [PassRun.fence.inj he] at hcH ⊢
        rw [hF.unique G hG hcH, ← h.once_iff]
        simpa [hext.name, hcH] using hc
      · intro he
        rw [← h.once_iff]
        have hcG : Contains G'.name s := by
          rw [hext.name, ← PassRun.fence.inj he]
          exact hF.contains
        simpa [hcG] using hc

omit h in
/-- Both passes succeed, where the store pass is not run twice on a function. -/
theorem runEntryPasses_reached (ps : List PassRun)
    (hstore : ∀ G ∈ M.defs, ps.count (.storeFlush G.name) ≤ 1) :
    ∃ once' M', runEntryPasses s (false, M) ps = .ok (once', M') ∧
      Reached M s F ps once' M' := by
  suffices H : ∀ ps done once M₁, Reached M s F done once M₁ →
      (∀ G ∈ M.defs, (done ++ ps).count (.storeFlush G.name) ≤ 1) →
      ∃ once' M', runEntryPasses s (once, M₁) ps = .ok (once', M') ∧
        Reached M s F (done ++ ps) once' M' by
    refine H ps [] false M ⟨.refl M, ?_, by simp⟩ hstore
    exact List.forall₂_same.mpr fun G hG => .start (hM.functions G hG).blocks_ne_nil
  intro ps
  induction ps with
  | nil => exact fun done once M₁ h _ => ⟨once, M₁, rfl, by simpa using h⟩
  | cons p ps ih =>
    intro done once M₁ h hcount
    rw [List.append_cons] at hcount ⊢
    have hle : ∀ G ∈ M.defs, (done ++ [p]).count (.storeFlush G.name) ≤ 1 := fun G hG =>
      (List.Sublist.count_le _ (List.sublist_append_left _ ps)).trans (hcount G hG)
    obtain ⟨once', M₂, hrun, h'⟩ : ∃ once' M₂, runEntryPass s (once, M₁) p = .ok (once', M₂) ∧
        Reached M s F (done ++ [p]) once' M₂ := by
      cases p with
      | storeFlush f => exact storeRun_reached hM h f hle
      | fence f => exact visit_reached hM hF h f
    obtain ⟨once'', M', hrest, h''⟩ := ih (done ++ [p]) once' M₂ h' hcount
    exact ⟨once'', M', by simp only [runEntryPasses, hrun, bind, Except.bind, hrest], h''⟩

end

end Squint.IR
