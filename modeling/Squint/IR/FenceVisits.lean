import Squint.IR.Visits

/-! How many callbacks a sequence of visits of the fence pass inserts, and that nothing more happens
once both are in. -/
namespace Squint.IR

/-! ## Visits to functions there are -/

theorem find?_matches {M : Module} {vs : List Name} (hvs : ∀ v ∈ vs, v ∈ M.defs.map (·.name))
    (pattern : Name) :
    vs.find? (M.Matches pattern) = vs.find? fun v => decide (Contains v pattern) := by
  induction vs with
  | nil => rfl
  | cons v vs ih =>
    have hv : (M.lookup v).isSome = true := isSome_lookup_iff.mpr (hvs v (by simp))
    simp only [List.find?_cons, Module.Matches, hv, Bool.true_and,
      ih fun u hu => hvs u (by simp [hu])]

/-- The visits but the one that put in the fence callback. -/
def otherVisits (vs : List Name) : List Name :=
  vs.eraseP fun v => decide (Contains v fenceFunctionName)

def firstFence (vs : List Name) : Option Name :=
  vs.find? fun v => decide (Contains v fenceFunctionName)

/-- The visit that put in the fence callback does not count. -/
def firstFlush (vs : List Name) : Option Name :=
  (otherVisits vs).find? fun v => decide (Contains v flushFunctionName)

theorem otherVisits_eq (vs : List Name) : (firstFence vs).elim vs vs.erase = otherVisits vs := by
  induction vs with
  | nil => rfl
  | cons v vs ih =>
    by_cases hv : Contains v fenceFunctionName
    · simp [otherVisits, firstFence, hv]
    · simp only [otherVisits, firstFence] at ih ⊢
      rw [List.find?_cons_of_neg (by simpa using hv), List.eraseP_cons_of_neg (by simpa using hv),
        ← ih]
      cases hfind : vs.find? fun v => decide (Contains v fenceFunctionName) with
      | none => rfl
      | some u =>
        have hu : Contains u fenceFunctionName := by simpa using List.find?_some hfind
        have hne : v ≠ u := fun h => hv (h ▸ hu)
        simp [List.erase_cons_tail, hne]

section
variable {M : Module} {vs : List Name} (hvs : ∀ v ∈ vs, v ∈ M.defs.map (·.name))
include hvs

theorem fenceVisit_eq : fenceVisit M vs = firstFence vs := find?_matches hvs _

theorem flushVisit_eq : flushVisit M vs = firstFlush vs := by
  have hsub : ∀ v ∈ otherVisits vs, v ∈ M.defs.map (·.name) := fun v hv =>
    hvs v (List.mem_of_mem_eraseP hv)
  rw [flushVisit, fenceVisit_eq hvs, otherVisits_eq, find?_matches hsub]
  rfl

end

/-! ## After both -/

/-- A visit leaves a module alone that has all declarations, when both flags are set. -/
theorem Visited.settled {M M' : Module} {vs : List Name} {once : Once} (h : Visited M vs once M')
    (hfence : once.fence = true) (hflush : once.flush = true) (ws : List Name) :
    runPasses (once, M') (ws.map .fence) = .ok (once, M') := by
  have hany : (vs.any fun v => (M.lookup v).isSome) = true := by
    obtain ⟨v, hv⟩ := Option.isSome_iff_exists.mp (h.fence.symm.trans hfence)
    obtain ⟨hmem, hmatch⟩ := fenceVisit_eq_some hv
    simp only [Module.Matches, Bool.and_eq_true] at hmatch
    exact List.any_eq_true.mpr ⟨v, hmem, hmatch.1⟩
  have hsame : fenceFlushCallbacks M' = M' := by
    refine Module.eq_of_decls_eq (fenceFlushCallbacks_defs M') ?_
    rw [h.callbacks_decls, h.decls, if_pos hany]
  induction ws with
  | nil => rfl
  | cons w ws ih =>
    have hone : runPass (once, M') (.fence w) = .ok (once, M') := by
      cases hl : M'.lookup w with
      | none => simp [runPass, hl]
      | some F =>
        simp [runPass, hl, fenceInstru_neither, hfence, hflush, hsame, bind, Except.bind]
    simp [runPasses, hone, ih, bind, Except.bind]

/-! ## The exact effect -/

theorem toNat_isSome_find? (p : Name → Prop) [DecidablePred p] (vs : List Name) :
    (vs.find? fun v => decide (p v)).isSome.toNat = if ∃ v ∈ vs, p v then 1 else 0 := by
  split_ifs with h
  · obtain ⟨v, hv, hp⟩ := h
    have : (vs.find? fun v => decide (p v)).isSome = true :=
      List.find?_isSome.mpr ⟨v, hv, by simpa using hp⟩
    rw [this]
    rfl
  · have : vs.find? (fun v => decide (p v)) = none :=
      List.find?_eq_none.mpr fun v hv hp => h ⟨v, hv, by simpa using hp⟩
    rw [this]
    rfl

/-- Over any sequence of visits to functions of the module, with the flags not set at first: one
fence callback goes to the entry of the first function visited that matches the fence pattern, and
one flush callback to that of the first one that matches the flush pattern at another visit than the
one before; nothing else changes, and nothing at all any more once both are in. -/
theorem fence_visits_exact {M : Module} (hM : M.WellFormed) (hfl : FlushTakesAddress M)
    {vs : List Name} (hvs : ∀ v ∈ vs, v ∈ M.defs.map (·.name)) :
    ∃ once' M', runPasses (⟨false, false⟩, M) (vs.map .fence) = .ok (once', M') ∧
      (M'.defs = M.defs.map fun F => F.withCallbacks M.dataLayout
        (decide (firstFence vs = some F.name)) (decide (firstFlush vs = some F.name))) ∧
      (∀ F ∈ M.defs, firstFence vs ≠ some F.name → firstFlush vs ≠ some F.name → F ∈ M'.defs) ∧
      M'.callCount writeFenceTraceWrapper = M.callCount writeFenceTraceWrapper +
        (if ∃ v ∈ vs, Contains v fenceFunctionName then 1 else 0) ∧
      M'.callCount writeFlushTraceWrapper = M.callCount writeFlushTraceWrapper +
        (if ∃ v ∈ otherVisits vs, Contains v flushFunctionName then 1 else 0) ∧
      ((∃ v ∈ vs, Contains v fenceFunctionName) →
        (∃ v ∈ otherVisits vs, Contains v flushFunctionName) →
        ∀ ws : List Name, runPasses (once', M') (ws.map .fence) = .ok (once', M')) := by
  obtain ⟨once', M', hrun, h⟩ := runPasses_visited hM hfl vs
  have hfence := fenceVisit_eq hvs
  have hflush := flushVisit_eq hvs
  have hdefs := h.defs
  rw [Module.visited, hfence, hflush] at hdefs
  obtain ⟨hcount₁, hcount₂⟩ := h.callCount hM hfl
  rw [hfence, firstFence, toNat_isSome_find?] at hcount₁
  rw [hflush, firstFlush, toNat_isSome_find?] at hcount₂
  refine ⟨once', M', hrun, hdefs, fun F hF hne₁ hne₂ => ?_, hcount₁, hcount₂,
    fun hfence' hflush' ws => ?_⟩
  · rw [hdefs]
    refine List.mem_map.mpr ⟨F, hF, ?_⟩
    simp only [hne₁, hne₂, decide_false, withCallbacks_none]
  · refine h.settled ?_ ?_ ws
    · rw [h.fence, hfence, firstFence, List.find?_isSome]
      simpa using hfence'
    · rw [h.flush, hflush, firstFlush, List.find?_isSome]
      simpa using hflush'

namespace Driver

def both : Name := "nova_flush_buffer_PERSISTENT_BARRIER"

def overlapping : Module := callingModule both [(0, .ptr (.int 8) 0)] (.asm 0) []

/-- Its first visit puts the fence callback in, its second one the flush callback, and the third
does nothing. -/
theorem overlapping_visits_exact : ∃ once' M',
    runPasses (⟨false, false⟩, overlapping) [.fence both, .fence both] = .ok (once', M') ∧
    M'.callCount writeFenceTraceWrapper = 1 ∧ M'.callCount writeFlushTraceWrapper = 1 ∧
    runPasses (once', M') [.fence both] = .ok (once', M') := by
  have hM : overlapping.WellFormed := callingModule_wellFormed (by decide)
  have hfl : FlushTakesAddress overlapping := by
    simp only [FlushTakesAddress, overlapping, callingModule, List.mem_singleton, forall_eq]
    exact fun _ => ⟨_, _, _, rfl, .inl rfl⟩
  have hvs : ∀ v ∈ [both, both], v ∈ overlapping.defs.map (·.name) := by decide
  obtain ⟨once', M', hrun, -, -, hfence, hflush, hsettled⟩ := fence_visits_exact hM hfl hvs
  refine ⟨once', M', hrun, ?_, ?_, hsettled ?_ ?_ [both]⟩
  · rw [hfence]
    decide +kernel
  · rw [hflush]
    decide +kernel
  · decide +kernel
  · decide +kernel

end Driver

end Squint.IR
