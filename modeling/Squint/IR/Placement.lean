import Squint.IR.Guard

/-! Where the callbacks stand after both passes have visited every function: one at the entry of
the fence function, one at the entry of the flush function, and one before every store. -/
namespace Squint.IR

/-- The instruction does not name a trace wrapper as the function it calls. -/
def NoWrapperCall (i : Inst) : Prop := ∀ n ∈ i.directCallee, isWrapper n = false

/-- At most one function matches each pattern, and none matches both. -/
structure DistinctMatches (M : Module) : Prop where
  fence : ∀ F ∈ M.defs, ∀ G ∈ M.defs, Contains F.name fenceFunctionName →
    Contains G.name fenceFunctionName → F.name = G.name
  flush : ∀ F ∈ M.defs, ∀ G ∈ M.defs, Contains F.name flushFunctionName →
    Contains G.name flushFunctionName → F.name = G.name
  apart : ∀ F ∈ M.defs, Contains F.name fenceFunctionName → ¬ Contains F.name flushFunctionName

inductive EntryGroup (dl : DataLayout) (F : Function) : List Inst → Prop
  | fence (h : Contains F.name fenceFunctionName) : EntryGroup dl F fenceCallback
  | flush {fresh r : ℕ} {ty : Ty} {ps : List (ℕ × Ty)} (h : Contains F.name flushFunctionName)
      (hn : ¬ Contains F.name fenceFunctionName) (hps : F.params = (r, ty) :: ps)
      (hr : r < fresh) : EntryGroup dl F (flushGroup dl fresh r ty)
  | none (hn : ¬ Contains F.name fenceFunctionName) (hm : ¬ Contains F.name flushFunctionName) :
      EntryGroup dl F []

/-- The function's callbacks are all in place; `new` is the one at its entry. -/
structure Placed (dl : DataLayout) (F : Function) (e : Block) (bs : List Block)
    (new l : List Inst) : Prop where
  blocks : F.blocks = e :: bs
  entry : e.insts = new ++ l
  group : EntryGroup dl F new
  guarded : ∀ k ∈ l :: bs.map (·.insts), Guarded dl NoWrapperCall k
  not_target : ∀ b ∈ F.blocks, ∀ i ∈ b.insts, e.label ∉ i.successors
  params_nodup : (F.params.map (·.1)).Nodup

/-! ## Stages on the way there -/

/-- The entry has its callback and will get no other one, or it is still waiting for it. -/
def EntryStage (dl : DataLayout) (done : List PassRun) (once : Once) (F : Function)
    (new : List Inst) : Prop :=
  (EntryGroup dl F new ∧ (Contains F.name fenceFunctionName → once.fence = true) ∧
    (Contains F.name flushFunctionName → once.flush = true)) ∨
  (new = [] ∧ .fence F.name ∉ done ∧ (Contains F.name fenceFunctionName → once.fence = false) ∧
    (Contains F.name flushFunctionName → once.flush = false))

def BodyStage (dl : DataLayout) (done : List PassRun) (F : Function) (ls : List (List Inst)) :
    Prop :=
  (.storeFlush F.name ∈ done ∧ ∀ k ∈ ls, Guarded dl NoWrapperCall k) ∨
  (.storeFlush F.name ∉ done ∧ ∀ k ∈ ls, ∀ i ∈ k, NoWrapperCall i)

def Staged (dl : DataLayout) (done : List PassRun) (once : Once) (F : Function) : Prop :=
  ∃ e bs new l, F.blocks = e :: bs ∧ e.insts = new ++ l ∧ (∀ i ∈ new, i.isStore = false) ∧
    EntryStage dl done once F new ∧ BodyStage dl done F (l :: bs.map (·.insts))

section
variable {dl : DataLayout} {done : List PassRun} {once once' : Once} {F F' : Function} {p : PassRun}

theorem Staged.untouched (h : Staged dl done once F) (hs : p ≠ .storeFlush F.name)
    (hv : p ≠ .fence F.name)
    (hfence : Contains F.name fenceFunctionName → once'.fence = once.fence)
    (hflush : Contains F.name flushFunctionName → once'.flush = once.flush) :
    Staged dl (done ++ [p]) once' F := by
  obtain ⟨e, bs, new, l, hb, he, hnew, hentry, hbody⟩ := h
  refine ⟨e, bs, new, l, hb, he, hnew, ?_, ?_⟩
  · rcases hentry with ⟨hg, h₁, h₂⟩ | ⟨hn, hd, h₁, h₂⟩
    · exact .inl ⟨hg, fun h => (hfence h).trans (h₁ h), fun h => (hflush h).trans (h₂ h)⟩
    · exact .inr ⟨hn, by simp [hd, hv.symm], fun h => (hfence h).trans (h₁ h),
        fun h => (hflush h).trans (h₂ h)⟩
  · simpa [BodyStage, hs.symm] using hbody

theorem Staged.stores {changed : Bool} (h : Staged dl done once F)
    (htyped : ∀ b ∈ F.blocks, StoresTyped b.insts) (hnot : .storeFlush F.name ∉ done)
    (he : instrumentBody dl F = .ok (F', changed)) :
    Staged dl (done ++ [.storeFlush F.name]) once F' := by
  obtain ⟨hF', hblocks⟩ := instrumentBody_blocks he
  obtain ⟨e, bs, new, l, hb, hnew, hstore, hentry, hbody⟩ := h
  obtain ⟨-, hplain⟩ := hbody.resolve_left fun h => hnot h.1
  have hname : F'.name = F.name := by rw [hF']
  have hparams : F'.params = F.params := by rw [hF']
  rw [hb] at htyped hblocks
  generalize hbs' : F'.blocks = blocks' at hblocks
  cases hblocks with
  | @cons _ e' _ bs' he' hrest =>
    obtain ⟨-, c, c', hle, hins⟩ := he'
    rw [hnew, instrumentInsts_append hstore] at hins
    obtain ⟨q, hq, hins⟩ := map_eq_ok hins
    simp only [Prod.mk.injEq] at hins
    refine ⟨e', bs', new, q.1, hbs', hins.1.symm, hstore, ?_, .inl ⟨by simp [hname], ?_⟩⟩
    · rcases hentry with ⟨hg, h₁, h₂⟩ | ⟨hn, hd, h₁, h₂⟩
      · refine .inl ⟨?_, by rwa [hname], by rwa [hname]⟩
        cases hg with
        | fence h => exact .fence (by rwa [hname])
        | flush h hn hps hr =>
          exact .flush (by rwa [hname]) (by rwa [hname]) (hparams.trans hps) hr
        | none hn hm => exact .none (by rwa [hname]) (by rwa [hname])
      · exact .inr ⟨hn, by simp [hname, hd], by rwa [hname], by rwa [hname]⟩
    · have hmem : ∀ i ∈ l, i ∈ e.insts := fun i hi => by simp [hnew, hi]
      have hfresh : ∀ i ∈ l, ∀ r ∈ i.regs, r < c.fresh := fun i hi r hr =>
        Nat.lt_of_lt_of_le
          (Function.lt_freshReg (Function.mem_regs_of_inst (by simp [hb]) (hmem i hi) hr)) hle
      simp only [List.mem_cons, forall_eq_or_imp]
      refine ⟨instrumentInsts_guarded (fun v p h => htyped e (by simp) v p (hmem _ h))
        (fun i hi _ => hplain l (by simp) i hi) hfresh hq, fun k hk => ?_⟩
      obtain ⟨b', hb', rfl⟩ := List.mem_map.mp hk
      obtain ⟨b, hb₀, hins⟩ := exists_left_of_forall₂ hrest hb'
      refine hins.guarded (F := F) (by simp [hb, hb₀]) (htyped b (by simp [hb₀])) fun i hi _ => ?_
      exact hplain _ (List.mem_cons_of_mem _ (List.mem_map_of_mem hb₀)) i hi

theorem Staged.visited {e : Block} {bs : List Block} {new : List Inst} (h : Staged dl done once F)
    (hb : F.blocks = e :: bs) (hstore : ∀ i ∈ new, i.isStore = false)
    (hwait : ¬ ((Contains F.name fenceFunctionName → once.fence = true) ∧
      (Contains F.name flushFunctionName → once.flush = true)))
    (hg : EntryGroup dl F new) (h₁ : Contains F.name fenceFunctionName → once'.fence = true)
    (h₂ : Contains F.name flushFunctionName → once'.flush = true) :
    Staged dl (done ++ [.fence F.name]) once' (F.prepend e bs new) := by
  obtain ⟨e₀, bs₀, new₀, l, hb₀, he, -, hentry, hbody⟩ := h
  rw [hb] at hb₀
  obtain ⟨rfl, rfl⟩ := List.cons.inj hb₀
  obtain ⟨rfl, -⟩ := hentry.resolve_left fun h => hwait h.2
  refine ⟨_, bs, new, l, rfl, by simp [he], hstore, .inl ⟨?_, h₁, h₂⟩, ?_⟩
  · cases hg with
    | fence h => exact .fence h
    | flush h hn hps hr => exact .flush h hn hps hr
    | none hn hm => exact .none hn hm
  · simpa [BodyStage, Function.prepend] using hbody

theorem Staged.passed (h : Staged dl done once F)
    (hn : ¬ (Contains F.name fenceFunctionName ∧ once.fence = false))
    (hm : ¬ (Contains F.name flushFunctionName ∧ once.flush = false)) :
    Staged dl (done ++ [.fence F.name]) once F := by
  obtain ⟨e, bs, new, l, hb, he, hstore, hentry, hbody⟩ := h
  refine ⟨e, bs, new, l, hb, he, hstore, .inl ?_, by simpa [BodyStage] using hbody⟩
  rcases hentry with h | ⟨rfl, -, h₁, h₂⟩
  · exact h
  · have hn' : ¬ Contains F.name fenceFunctionName := fun h => hn ⟨h, h₁ h⟩
    have hm' : ¬ Contains F.name flushFunctionName := fun h => hm ⟨h, h₂ h⟩
    exact ⟨.none hn' hm', fun h => absurd h hn', fun h => absurd h hm'⟩

end

/-! ## All functions -/

theorem DistinctMatches.of_extends {M M' : Module} (h : DistinctMatches M) (hext : M.Extends M') :
    DistinctMatches M' := by
  have hbase : ∀ F' ∈ M'.defs, ∃ F ∈ M.defs, F'.name = F.name := fun F' hF' => by
    obtain ⟨F, hF, hFF'⟩ := hext.exists_base hF'
    exact ⟨F, hF, hFF'.name⟩
  refine ⟨fun F' hF' G' hG' => ?_, fun F' hF' G' hG' => ?_, fun F' hF' => ?_⟩
  · obtain ⟨F, hF, hn⟩ := hbase F' hF'
    obtain ⟨G, hG, hm⟩ := hbase G' hG'
    rw [hn, hm]
    exact h.fence F hF G hG
  · obtain ⟨F, hF, hn⟩ := hbase F' hF'
    obtain ⟨G, hG, hm⟩ := hbase G' hG'
    rw [hn, hm]
    exact h.flush F hF G hG
  · obtain ⟨F, hF, hn⟩ := hbase F' hF'
    rw [hn]
    exact h.apart F hF

def StagedAll (dl : DataLayout) (done : List PassRun) (once : Once) (M : Module) : Prop :=
  ∀ F ∈ M.defs, isWrapper F.name = false → Staged dl done once F

theorem fenceCallback_not_store : ∀ i ∈ fenceCallback, i.isStore = false :=
  fun i hi => (fenceCallback_silent 0 i hi).not_store

theorem PassEffect.staged {M M₁ M₂ : Module} (hM : M.WellFormed) (hm : DistinctMatches M)
    (hext : M.Extends M₁) {done : List PassRun} {once once' : Once} {p : PassRun}
    (hcount : ∀ F ∈ M.defs, (done ++ [p]).count (.storeFlush F.name) ≤ 1)
    (h : StagedAll M.dataLayout done once M₁) (heff : PassEffect once M₁ p once' M₂) :
    StagedAll M.dataLayout (done ++ [p]) once' M₂ := by
  intro G hG hw
  have hdl := hext.dataLayout
  have hm₁ := hm.of_extends hext
  have hfd := (fenceFlushCallbacks_defs M₁).1
  cases heff with
  | unknown hl =>
    have hne := Module.lookup_eq_none hl hG
    refine (h G hG hw).untouched ?_ ?_ (fun _ => rfl) (fun _ => rfl)
    all_goals rintro rfl; exact hne rfl
  | wrapper hf =>
    refine (h G hG hw).untouched (fun he => ?_) (by simp) (fun _ => rfl) (fun _ => rfl)
    simp only [PassRun.storeFlush.injEq] at he
    rw [he, hw] at hf
    exact absurd hf (by simp)
  | @stores F F' changed hF hFw he hFF' =>
    obtain ⟨F₀, hF₀, hF₀F⟩ := hext.exists_base hF
    rcases Module.mem_update hG with rfl | ⟨hG, hne⟩
    · have hnot : .storeFlush F.name ∉ done := by
        have hc := hcount F₀ hF₀
        rw [← hF₀F.name] at hc
        exact notMem_of_count_le_one hc
      rw [hdl] at he
      exact (h F hF hFw).stores (hF₀F.storesTyped (hM.functions F₀ hF₀)) hnot he
    · rw [(storeFlushCallbacks_defs M₁).1] at hG
      refine (h G hG hw).untouched ?_ (by simp) (fun _ => rfl) (fun _ => rfl)
      simpa [hFF'.name] using hne.symm
  | @fence F e bs hF hc ho hb hFF' =>
    rcases Module.mem_update hG with rfl | ⟨hG, hne⟩
    · exact (h F hF hw).visited hb fenceCallback_not_store (by simp [hc, ho]) (.fence hc)
        (fun _ => rfl) fun h => absurd h (hm₁.apart F hF hc)
    · rw [hfd] at hG
      refine (h G hG hw).untouched (by simp) ?_ (fun hcG => ?_) (fun _ => rfl)
      · simpa [Function.prepend] using hne.symm
      · exact absurd (hm₁.fence G hG F hF hcG hc) hne
  | @flush F e bs r ty ps hF hn hc ho hps hb hFF' =>
    have hnf : ¬ Contains F.name fenceFunctionName := fun h => hm₁.apart F hF h hc
    rcases Module.mem_update hG with rfl | ⟨hG, hne⟩
    · rw [hdl]
      have hr : r < F.freshReg :=
        Function.lt_freshReg (List.mem_append_left _ (by simp [hps]))
      exact (h F hF hw).visited hb
        (fun i hi => (flushGroup_silent M.dataLayout F.freshReg r ty i hi).not_store)
        (by simp [hc, ho]) (.flush hc hnf hps hr) (fun h => absurd h hnf) fun _ => rfl
    · rw [hfd] at hG
      refine (h G hG hw).untouched (by simp) ?_ (fun _ => rfl) (fun hcG => ?_)
      · simpa [Function.prepend] using hne.symm
      · exact absurd (hm₁.flush G hG F hF hcG hc) hne
  | @neither F hF hn hm' =>
    rw [hfd] at hG
    by_cases hname : F.name = G.name
    · rw [hname] at hn hm' ⊢
      exact (h G hG hw).passed hn hm'
    · exact (h G hG hw).untouched (by simp) (by simpa using hname) (fun _ => rfl) (fun _ => rfl)

theorem Function.Extends.entry_not_target {F F' : Function} (hF : F.WellFormed)
    (h : F.Extends F') : ∀ e' ∈ F'.blocks.head?, ∀ b' ∈ F'.blocks, ∀ i ∈ b'.insts,
      e'.label ∉ i.successors := by
  intro e' he' b' hb' i hi hmem
  obtain ⟨e, bs, e₁, bs₁, hb, hb₁, hlabel, -⟩ := h.entry_cons hF
  obtain rfl : e₁ = e' := by simpa [hb₁] using he'
  rcases h.mem_or_silent hb' hi with ⟨b, hb₀, hi⟩ | hi
  · rw [hlabel] at hmem
    exact hF.entry_not_target e (by simp [hb]) b hb₀ i hi hmem
  · cases i <;> simp_all [Silent, Inst.successors]

/-- The store pass once and the fence pass at least once on every function put every callback in
its place. -/
theorem runPasses_placed {M : Module} (hM : M.WellFormed) (hfl : FlushTakesAddress M)
    (hm : DistinctMatches M)
    (hcalls : ∀ F ∈ M.defs, isWrapper F.name = false → ∀ b ∈ F.blocks, ∀ i ∈ b.insts,
      NoWrapperCall i)
    (ps : List PassRun) (hstore : ∀ F ∈ M.defs, ps.count (.storeFlush F.name) = 1)
    (hvisit : ∀ F ∈ M.defs, .fence F.name ∈ ps) :
    ∃ once' M', runPasses (⟨false, false⟩, M) ps = .ok (once', M') ∧ M.Extends M' ∧
      ∀ F ∈ M'.defs, isWrapper F.name = false →
        ∃ e bs new l, Placed M'.dataLayout F e bs new l := by
  have hstart : StagedAll M.dataLayout [] ⟨false, false⟩ M := by
    intro F hF hw
    obtain ⟨e, bs, hb⟩ := List.exists_cons_of_ne_nil (hM.functions F hF).blocks_ne_nil
    refine ⟨e, bs, [], e.insts, hb, rfl, by simp, .inr ⟨rfl, by simp, by simp, by simp⟩,
      .inr ⟨by simp, fun k hk i hi => ?_⟩⟩
    obtain ⟨b, hb', rfl⟩ : ∃ b ∈ F.blocks, k = b.insts := by
      rw [hb]
      rcases List.mem_cons.mp hk with rfl | hk
      · exact ⟨e, by simp, rfl⟩
      · obtain ⟨b, hb', rfl⟩ := List.mem_map.mp hk
        exact ⟨b, by simp [hb'], rfl⟩
    exact hcalls F hF hw b hb' i hi
  obtain ⟨once', M', hrun, hext, hI⟩ := runPasses_induction hM ps (fun _ _ => hfl)
    (I := fun done once M₁ => (∀ F ∈ M.defs, done.count (.storeFlush F.name) ≤ 1) →
      StagedAll M.dataLayout done once M₁) ⟨false, false⟩ (fun _ => hstart)
      fun done _ _ p _ _ hext hI heff hcount => heff.staged hM hm hext hcount (hI fun F hF =>
        (List.Sublist.count_le _ (List.sublist_append_left done [p])).trans (hcount F hF))
  refine ⟨once', M', hrun, hext, fun F' hF' hw => ?_⟩
  obtain ⟨F, hF, hFF'⟩ := hext.exists_base hF'
  obtain ⟨e, bs, new, l, hb, he, -, hentry, hbody⟩ := hI (fun F hF => (hstore F hF).le) F' hF' hw
  have hdone : .fence F'.name ∈ ps := hFF'.name ▸ hvisit F hF
  have hstored : .storeFlush F'.name ∈ ps := by
    rw [hFF'.name]
    exact List.count_pos_iff.mp (by rw [hstore F hF]; omega)
  rw [hext.dataLayout]
  refine ⟨e, bs, new, l, hb, he, (hentry.resolve_right fun h => h.2.1 hdone).1,
    (hbody.resolve_right fun h => h.1 hstored).2, ?_, ?_⟩
  · exact hFF'.entry_not_target (hM.functions F hF) e (by simp [hb])
  · rw [hFF'.params]
    exact (hM.functions F hF).params_nodup

end Squint.IR
