import Squint.IR.Extension

/-! Runs of the two passes over a module, in any order and however often: they always succeed,
they extend the module they started from, and what each of them does is one of a few things. -/
namespace Squint.IR

theorem isWrapper_iff {n : Name} : isWrapper n = true ↔
    n = writeFenceTraceWrapper ∨ n = writeFlushTraceWrapper ∨ n = writeStoreTraceWrapper := by
  simp [isWrapper, instrumenationFunctions]

theorem not_isWrapper_of_contains {n : Name}
    (h : Contains n fenceFunctionName ∨ Contains n flushFunctionName) : isWrapper n = false := by
  rw [Bool.eq_false_iff]
  intro hw
  rcases isWrapper_iff.mp hw with rfl | rfl | rfl <;> revert h <;> decide

/-- Every function that matches the flush pattern takes a pointer first, or an integer as wide. -/
def FlushTakesAddress (M : Module) : Prop :=
  ∀ F ∈ M.defs, Contains F.name flushFunctionName →
    ∃ r ty ps, F.params = (r, ty) :: ps ∧ (ty.isPointer = true ∨ ty = getIntPtrTy M)

theorem instrumentBody_extends {F F₁ : Function} (hF : F.WellFormed) (h : F.Extends F₁)
    (hw : isWrapper F.name = false) (dl : DataLayout) :
    ∃ F₂ changed, instrumentBody dl F₁ = .ok (F₂, changed) ∧ F₁.Extends F₂ := by
  obtain ⟨bs, c, he, hbs⟩ :=
    instrumentBlocks_inserted dl (h.storesTyped hF) ⟨F₁.freshReg, false⟩
  refine ⟨{ F₁ with blocks := bs }, c.changed, ?_, rfl, rfl, rfl, hbs, fun hw' => ?_⟩
  · simp [instrumentBody, he, bind, Except.bind]
  · rw [h.name, hw] at hw'
    exact absurd hw' (by simp)

theorem storeFlushCallbacks_defs (M : Module) : (storeFlushCallbacks M).defs = M.defs ∧
    (storeFlushCallbacks M).dataLayout = M.dataLayout := by
  simp [storeFlushCallbacks, initializeFlushCallbacks, initializeStoreCallbacks,
    Module.getOrInsertFunction_defs]

theorem fenceFlushCallbacks_defs (M : Module) : (fenceFlushCallbacks M).defs = M.defs ∧
    (fenceFlushCallbacks M).dataLayout = M.dataLayout := by
  simp [fenceFlushCallbacks, initializeFlushCallbacks, initializeFenceCallbacks,
    Module.getOrInsertFunction_defs]

theorem storeFlushInstru_wrapper {M : Module} {F : Function} (hw : isWrapper F.name = true) :
    storeFlushInstru M F = .ok (M, .all) := by
  simp [storeFlushInstru, instrumentFunction, instrumentedFunction, hw, bind, Except.bind]

theorem storeFlushInstru_of_body {M : Module} {F F' : Function} {changed : Bool}
    (hw : isWrapper F.name = false) (he : instrumentBody M.dataLayout F = .ok (F', changed)) :
    storeFlushInstru M F = .ok ((storeFlushCallbacks M).update F', .all) := by
  simp only [storeFlushInstru, instrumentFunction, instrumentedFunction, hw, he, bind,
    Except.bind, Bool.false_eq_true, if_false]
  cases changed <;> rfl

theorem fenceInstru_fence {once : Once} {M : Module} {F F' : Function}
    (hc : Contains F.name fenceFunctionName ∧ once.fence = false)
    (he : insertAtEntry F fenceCallback = .ok F') :
    fenceInstru once M F =
      .ok ({ once with fence := true }, (fenceFlushCallbacks M).update F', .all) := by
  simp only [fenceInstru, if_pos hc, he, bind, Except.bind]

theorem fenceInstru_flush {once : Once} {M : Module} {F F' : Function} {new : List Inst}
    (hf : ¬ (Contains F.name fenceFunctionName ∧ once.fence = false))
    (hc : Contains F.name flushFunctionName ∧ once.flush = false)
    (hnew : flushCallback M.dataLayout F = .ok new) (he : insertAtEntry F new = .ok F') :
    fenceInstru once M F =
      .ok ({ once with flush := true }, (fenceFlushCallbacks M).update F', .all) := by
  simp only [fenceInstru, if_neg hf, if_pos hc, hnew, he, bind, Except.bind]

theorem fenceInstru_neither {once : Once} {M : Module} {F : Function}
    (hf : ¬ (Contains F.name fenceFunctionName ∧ once.fence = false))
    (hc : ¬ (Contains F.name flushFunctionName ∧ once.flush = false)) :
    fenceInstru once M F = .ok (once, fenceFlushCallbacks M, .all) := by
  simp only [fenceInstru, if_neg hf, if_neg hc]

/-- The first parameter can be cast to an address. -/
def TakesAddress (dl : DataLayout) (F : Function) : Prop :=
  ∃ r ty ps, F.params = (r, ty) :: ps ∧ (ty.isPointer = true ∨ ty = .int (dl.pointerSizeInBits 0))

theorem takesAddress_of_flushCallback {dl : DataLayout} {F : Function} {new : List Inst}
    (h : flushCallback dl F = .ok new) : TakesAddress dl F := by
  unfold flushCallback at h
  cases hps : F.params with
  | nil => simp [hps] at h
  | cons p ps =>
    refine ⟨p.1, p.2, ps, hps, ?_⟩
    by_contra hty
    rw [not_or] at hty
    simp [hps, createPointerCast, Operand.ty, hty.1, hty.2, bind, Except.bind] at h

/-- Where the flush callback goes in, there was an address to report. -/
theorem takesAddress_of_isOk {once : Once} {M : Module} {F : Function}
    (hf : ¬ (Contains F.name fenceFunctionName ∧ once.fence = false))
    (hc : Contains F.name flushFunctionName ∧ once.flush = false)
    (h : (fenceInstru once M F).isOk = true) : TakesAddress M.dataLayout F := by
  cases hnew : flushCallback M.dataLayout F with
  | ok new => exact takesAddress_of_flushCallback hnew
  | error e => simp [fenceInstru, hf, hc, hnew, bind, Except.bind] at h

/-- `F` with `new` in front of its entry block `e`. -/
def Function.prepend (F : Function) (e : Block) (bs : List Block) (new : List Inst) : Function :=
  { F with blocks := { e with insts := new ++ e.insts } :: bs }

def PassRun.function : PassRun → Name
  | .storeFlush f => f
  | .fence f => f

def fenceVisits (ps : List PassRun) : List Name :=
  ps.filterMap fun
    | .fence f => some f
    | .storeFlush _ => none

theorem notMem_of_count_le_one {done : List PassRun} {p : PassRun}
    (h : (done ++ [p]).count p ≤ 1) : p ∉ done := by
  rw [List.count_append, List.count_singleton_self] at h
  exact List.count_eq_zero.mp (by omega)

/-- What one run of a pass does to the flags and the module. -/
inductive PassEffect (once : Once) (M : Module) : PassRun → Once → Module → Prop
  | unknown {p : PassRun} (h : M.lookup p.function = none) : PassEffect once M p once M
  | wrapper {f : Name} (h : isWrapper f = true) : PassEffect once M (.storeFlush f) once M
  | stores {F F' : Function} {changed : Bool} (hF : F ∈ M.defs) (hw : isWrapper F.name = false)
      (he : instrumentBody M.dataLayout F = .ok (F', changed)) (hext : F.Extends F') :
      PassEffect once M (.storeFlush F.name) once ((storeFlushCallbacks M).update F')
  | fence {F : Function} {e : Block} {bs : List Block} (hF : F ∈ M.defs)
      (hc : Contains F.name fenceFunctionName) (ho : once.fence = false) (hb : F.blocks = e :: bs)
      (hext : F.Extends (F.prepend e bs fenceCallback)) :
      PassEffect once M (.fence F.name) { once with fence := true }
        ((fenceFlushCallbacks M).update (F.prepend e bs fenceCallback))
  | flush {F : Function} {e : Block} {bs : List Block} {r : ℕ} {ty : Ty} {ps : List (ℕ × Ty)}
      (hF : F ∈ M.defs) (hn : ¬ (Contains F.name fenceFunctionName ∧ once.fence = false))
      (hc : Contains F.name flushFunctionName) (ho : once.flush = false)
      (hps : F.params = (r, ty) :: ps) (hb : F.blocks = e :: bs)
      (hext : F.Extends (F.prepend e bs (flushGroup M.dataLayout F.freshReg r ty))) :
      PassEffect once M (.fence F.name) { once with flush := true }
        ((fenceFlushCallbacks M).update (F.prepend e bs (flushGroup M.dataLayout F.freshReg r ty)))
  | neither {F : Function} (hF : F ∈ M.defs)
      (hn : ¬ (Contains F.name fenceFunctionName ∧ once.fence = false))
      (hm : ¬ (Contains F.name flushFunctionName ∧ once.flush = false)) :
      PassEffect once M (.fence F.name) once (fenceFlushCallbacks M)

section
variable {M M₁ : Module} (hM : M.WellFormed) (h : M.Extends M₁)
include hM h

theorem storeFlushInstru_effect {F : Function} (hF : F ∈ M₁.defs) (once : Once) :
    ∃ M₂, storeFlushInstru M₁ F = .ok (M₂, .all) ∧
      PassEffect once M₁ (.storeFlush F.name) once M₂ := by
  obtain ⟨F₀, hF₀, hext⟩ := h.exists_base hF
  cases hw : isWrapper F.name with
  | true => exact ⟨M₁, storeFlushInstru_wrapper hw, .wrapper hw⟩
  | false =>
    obtain ⟨F₂, changed, he, hext'⟩ := instrumentBody_extends (hM.functions _ hF₀) hext
      (by rwa [hext.name] at hw) M₁.dataLayout
    exact ⟨_, storeFlushInstru_of_body hw he, .stores hF hw he hext'⟩

/-- The only request that can fail is for the address a flush function takes. -/
theorem fenceInstru_effect {F : Function} (hF : F ∈ M₁.defs) (once : Once)
    (hfl : ¬ (Contains F.name fenceFunctionName ∧ once.fence = false) →
      Contains F.name flushFunctionName ∧ once.flush = false → TakesAddress M₁.dataLayout F) :
    ∃ once' M₂, fenceInstru once M₁ F = .ok (once', M₂, .all) ∧
      PassEffect once M₁ (.fence F.name) once' M₂ := by
  obtain ⟨F₀, hF₀, hext⟩ := h.exists_base hF
  by_cases hfence : Contains F.name fenceFunctionName ∧ once.fence = false
  · have hw := not_isWrapper_of_contains (.inl hfence.1)
    obtain ⟨e', bs', hb, he, hext'⟩ := hext.insertAtEntry (hM.functions _ hF₀)
      (fenceCallback_silent F.freshReg) (by rwa [hext.name] at hw)
    exact ⟨_, _, fenceInstru_fence hfence he, .fence hF hfence.1 hfence.2 hb hext'⟩
  by_cases hflush : Contains F.name flushFunctionName ∧ once.flush = false
  · have hw := not_isWrapper_of_contains (.inr hflush.1)
    obtain ⟨r, ty, ps, hps, hty⟩ := hfl hfence hflush
    obtain ⟨e', bs', hb, he, hext'⟩ := hext.insertAtEntry (hM.functions _ hF₀)
      (flushGroup_silent M₁.dataLayout F.freshReg r ty) (by rwa [hext.name] at hw)
    exact ⟨_, _, fenceInstru_flush hfence hflush (flushCallback_of_address hps hty) he,
      .flush hF hfence hflush.1 hflush.2 hps hb hext'⟩
  · exact ⟨once, _, fenceInstru_neither hfence hflush, .neither hF hfence hflush⟩

omit hM in
theorem FlushTakesAddress.takesAddress (hfl : FlushTakesAddress M) {F : Function}
    (hF : F ∈ M₁.defs) (hc : Contains F.name flushFunctionName) :
    TakesAddress M₁.dataLayout F := by
  obtain ⟨F₀, hF₀, hext⟩ := h.exists_base hF
  obtain ⟨r, ty, ps, hps, hty⟩ := hfl _ hF₀ (by rwa [← hext.name])
  rw [getIntPtrTy, ← h.dataLayout] at hty
  exact ⟨r, ty, ps, hext.params.trans hps, hty⟩

theorem runPass_effect (once : Once) (p : PassRun) (hfl : ∀ f, p = .fence f → FlushTakesAddress M) :
    ∃ once' M₂, runPass (once, M₁) p = .ok (once', M₂) ∧ PassEffect once M₁ p once' M₂ := by
  cases hl : M₁.lookup p.function with
  | none => exact ⟨once, M₁, by cases p <;> simp_all [runPass, PassRun.function], .unknown hl⟩
  | some F =>
    obtain ⟨hF, hname⟩ := Module.lookup_mem hl
    cases p with
    | storeFlush f =>
      obtain rfl : F.name = f := hname
      obtain ⟨M₂, he, heff⟩ := storeFlushInstru_effect hM h hF once
      exact ⟨once, M₂, by simp_all [runPass, PassRun.function, bind, Except.bind], heff⟩
    | fence f =>
      obtain rfl : F.name = f := hname
      obtain ⟨once', M₂, he, heff⟩ := fenceInstru_effect hM h hF once
        fun _ hc => (hfl _ rfl).takesAddress h hF hc.1
      exact ⟨once', M₂, by simp_all [runPass, PassRun.function, bind, Except.bind], heff⟩

/-- A run that does not fail does one of these things, whatever flush functions take. -/
theorem runPass_effect_of_ok {once once' : Once} {p : PassRun} {M₂ : Module}
    (hrun : runPass (once, M₁) p = .ok (once', M₂)) : PassEffect once M₁ p once' M₂ := by
  cases p with
  | storeFlush f =>
    obtain ⟨once₂, M₂', he, heff⟩ := runPass_effect hM h once (.storeFlush f) (by simp)
    obtain ⟨rfl, rfl⟩ := Prod.mk.inj (Except.ok.inj (he.symm.trans hrun))
    exact heff
  | fence f =>
    cases hl : M₁.lookup f with
    | none =>
      simp only [runPass, hl, Except.ok.injEq, Prod.mk.injEq] at hrun
      obtain ⟨rfl, rfl⟩ := hrun
      exact .unknown hl
    | some F =>
      obtain ⟨hF, rfl⟩ := Module.lookup_mem hl
      have hok : (fenceInstru once M₁ F).isOk = true := by
        simp only [runPass, hl, bind, Except.bind] at hrun
        split at hrun
        · cases hrun
        · rename_i heq
          simp [heq]
      obtain ⟨once₂, M₂', he, heff⟩ := fenceInstru_effect hM h hF once
        fun hn hc => takesAddress_of_isOk hn hc hok
      simp only [runPass, hl, he, bind, Except.bind, Except.ok.injEq, Prod.mk.injEq] at hrun
      obtain ⟨rfl, rfl⟩ := hrun
      exact heff

end

theorem PassEffect.module_extends {M M₁ M₂ : Module} (hn : (M.defs.map (·.name)).Nodup)
    (h : M.Extends M₁) {once once' : Once} {p : PassRun} (he : PassEffect once M₁ p once' M₂) :
    M.Extends M₂ := by
  have hstore := storeFlushCallbacks_defs M₁
  have hfence := fenceFlushCallbacks_defs M₁
  have hupdate : ∀ {M' : Module} {F F' : Function}, M'.defs = M₁.defs ∧
      M'.dataLayout = M₁.dataLayout → F ∈ M₁.defs → F.Extends F' → M.Extends (M'.update F') :=
    fun hd hF hext => (h.of_defs hd.1 hd.2).update hn (hd.1 ▸ hF) hext
  cases he with
  | unknown => exact h
  | wrapper => exact h
  | stores hF _ _ hext => exact hupdate hstore hF hext
  | fence hF _ _ _ hext => exact hupdate hfence hF hext
  | flush hF _ _ _ _ _ hext => exact hupdate hfence hF hext
  | neither => exact h.of_defs hfence.1 hfence.2

/-- What each pass keeps true of the runs done, the flags and the module holds in the end, and the
module is an extension of the first. -/
theorem runPasses_invariant {M : Module} (hM : M.WellFormed) {ps : List PassRun}
    {I : List PassRun → Once → Module → Prop} {once once' : Once} {M' : Module}
    (hstart : I [] once M)
    (hstep : ∀ done once₁ M₁ p once₂ M₂, M.Extends M₁ → I done once₁ M₁ →
      PassEffect once₁ M₁ p once₂ M₂ → I (done ++ [p]) once₂ M₂)
    (hrun : runPasses (once, M) ps = .ok (once', M')) : M.Extends M' ∧ I ps once' M' := by
  suffices H : ∀ done once₁ M₁, M.Extends M₁ → I done once₁ M₁ →
      runPasses (once₁, M₁) ps = .ok (once', M') → M.Extends M' ∧ I (done ++ ps) once' M' from
    H [] once M (.refl M) hstart hrun
  clear hrun
  induction ps with
  | nil =>
    intro done once₁ M₁ hext hI hrun
    simp only [runPasses, Except.ok.injEq, Prod.mk.injEq] at hrun
    obtain ⟨rfl, rfl⟩ := hrun
    exact ⟨hext, by simpa using hI⟩
  | cons p ps ih =>
    intro done once₁ M₁ hext hI hrun
    obtain ⟨s, hs, hrun⟩ := bind_eq_ok hrun
    have heff := runPass_effect_of_ok hM hext hs
    have hrest := ih (done ++ [p]) s.1 s.2 (heff.module_extends hM.names_nodup hext)
      (hstep _ _ _ _ _ _ hext hI heff) hrun
    simpa using hrest

theorem runPasses_ok {M M₁ : Module} (hM : M.WellFormed) (hext : M.Extends M₁)
    (ps : List PassRun) (hfl : ∀ f, .fence f ∈ ps → FlushTakesAddress M) (once : Once) :
    ∃ once' M', runPasses (once, M₁) ps = .ok (once', M') := by
  induction ps generalizing once M₁ with
  | nil => exact ⟨once, M₁, rfl⟩
  | cons p ps ih =>
    obtain ⟨once₂, M₂, he, heff⟩ := runPass_effect hM hext once p fun f hp => hfl f (by simp [hp])
    obtain ⟨once', M', he'⟩ := ih (heff.module_extends hM.names_nodup hext)
      (fun f hf => hfl f (by simp [hf])) once₂
    exact ⟨once', M', by simp [runPasses, he, he', bind, Except.bind]⟩

theorem runPasses_induction {M : Module} (hM : M.WellFormed) (ps : List PassRun)
    (hfl : ∀ f, .fence f ∈ ps → FlushTakesAddress M) {I : List PassRun → Once → Module → Prop}
    (once : Once) (hstart : I [] once M)
    (hstep : ∀ done once₁ M₁ p once₂ M₂, M.Extends M₁ → I done once₁ M₁ →
      PassEffect once₁ M₁ p once₂ M₂ → I (done ++ [p]) once₂ M₂) :
    ∃ once' M', runPasses (once, M) ps = .ok (once', M') ∧ M.Extends M' ∧ I ps once' M' := by
  obtain ⟨once', M', hrun⟩ := runPasses_ok hM (.refl M) ps hfl once
  exact ⟨once', M', hrun, runPasses_invariant hM hstart hstep hrun⟩

/-- No run of the passes fails on a well-formed module, and every one extends it. -/
theorem runPasses_extends {M : Module} (hM : M.WellFormed) (hfl : FlushTakesAddress M)
    (once : Once) (ps : List PassRun) :
    ∃ once' M', runPasses (once, M) ps = .ok (once', M') ∧ M.Extends M' := by
  obtain ⟨once', M', he, hext, -⟩ := runPasses_induction hM ps (fun _ _ => hfl)
    (I := fun _ _ _ => True) once trivial fun _ _ _ _ _ _ _ _ _ => trivial
  exact ⟨once', M', he, hext⟩

namespace Driver

theorem flushTakesAddress : FlushTakesAddress program := by
  simp only [FlushTakesAddress, program, List.mem_cons, List.not_mem_nil, or_false]
  rintro F (rfl | rfl | rfl) h
  · exact absurd h (by decide)
  · exact ⟨_, _, _, rfl, .inl rfl⟩
  · exact absurd h (by decide)

def schedule : List PassRun :=
  program.defs.flatMap fun F => [.storeFlush F.name, .fence F.name]

end Driver

end Squint.IR
