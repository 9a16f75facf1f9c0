import Squint.IR.Schedule

/-! Which functions the visits of the fence pass mark, whatever flags they start from and whatever
the store pass does in between; and that this decides whether a schedule of the passes fails. -/
namespace Squint.IR

/-- The flags, and the functions that have got the fence and the flush callback. -/
structure Marks where
  once : Once
  fence : Option Name
  flush : Option Name
  deriving DecidableEq, Repr

def Marks.next (M : Module) (k : Marks) : PassRun → Marks
  | .storeFlush _ => k
  | .fence v =>
    if (M.lookup v).isSome then
      if Contains v fenceFunctionName ∧ k.once.fence = false then
        { k with once := { k.once with fence := true }, fence := some v }
      else if Contains v flushFunctionName ∧ k.once.flush = false then
        { k with once := { k.once with flush := true }, flush := some v }
      else k
    else k

/-- The marks after the runs `ps`, from flags `once`. -/
def marks (once : Once) (M : Module) (ps : List PassRun) : Marks :=
  ps.foldl (Marks.next M) ⟨once, none, none⟩

theorem mem_fenceVisits {ps : List PassRun} {f : Name} : f ∈ fenceVisits ps ↔ .fence f ∈ ps := by
  rw [fenceVisits, List.mem_filterMap]
  constructor
  · rintro ⟨p, hp, heq⟩
    cases p with
    | storeFlush g => simp at heq
    | fence g =>
      obtain rfl : g = f := by simpa using heq
      exact hp
  · exact fun h => ⟨_, h, rfl⟩

section
variable {M : Module} {once : Once}

theorem Marks.next_fence {k : Marks} {v : Name} (hdef : (M.lookup v).isSome = true)
    (hc : Contains v fenceFunctionName) (ho : k.once.fence = false) : k.next M (.fence v) =
      { k with once := { k.once with fence := true }, fence := some v } := by
  simp [Marks.next, hdef, hc, ho]

theorem Marks.next_flush {k : Marks} {v : Name} (hdef : (M.lookup v).isSome = true)
    (hn : ¬ (Contains v fenceFunctionName ∧ k.once.fence = false))
    (hc : Contains v flushFunctionName) (ho : k.once.flush = false) : k.next M (.fence v) =
      { k with once := { k.once with flush := true }, flush := some v } := by
  rw [Marks.next, if_pos hdef, if_neg hn, if_pos ⟨hc, ho⟩]

theorem Marks.next_neither {k : Marks} {v : Name}
    (hn : ¬ (Contains v fenceFunctionName ∧ k.once.fence = false))
    (hm : ¬ (Contains v flushFunctionName ∧ k.once.flush = false)) : k.next M (.fence v) = k := by
  rw [Marks.next, if_neg hn, if_neg hm, ite_self]

theorem Marks.next_unknown {k : Marks} {p : PassRun} (h : M.lookup p.function = none) :
    k.next M p = k := by
  cases p with
  | storeFlush f => rfl
  | fence f => simp [Marks.next, show M.lookup f = none from h]

theorem marks_snoc (ps : List PassRun) (p : PassRun) :
    marks once M (ps ++ [p]) = (marks once M ps).next M p := by
  simp [marks]

theorem marks_congr {ps qs : List PassRun} (h : fenceVisits ps = fenceVisits qs) :
    marks once M ps = marks once M qs := by
  have hproj : ∀ (ps : List PassRun) (k : Marks),
      ps.foldl (Marks.next M) k = ((fenceVisits ps).map .fence).foldl (Marks.next M) k := by
    intro ps
    induction ps with
    | nil => exact fun _ => rfl
    | cons p ps ih =>
      intro k
      cases p with
      | storeFlush f => exact ih k
      | fence f => exact ih _
  rw [marks, marks, hproj ps, hproj qs, h]

/-- A mark is made under its flag, and only where the name matches. -/
structure Marks.Sound (k : Marks) : Prop where
  fence : k.fence.isSome = true → k.once.fence = true
  flush : k.flush.isSome = true → k.once.flush = true
  fence_contains : ∀ v ∈ k.fence, Contains v fenceFunctionName
  flush_contains : ∀ v ∈ k.flush, Contains v flushFunctionName
  -- a function that matches both patterns gets its fence callback first
  order : ∀ v ∈ k.flush, Contains v fenceFunctionName → k.once.fence = true

theorem Marks.Sound.next {k : Marks} (h : k.Sound) (p : PassRun) : (k.next M p).Sound := by
  cases p with
  | storeFlush f => exact h
  | fence v =>
    simp only [Marks.next]
    split_ifs with hdef hfence hflush
    · exact ⟨fun _ => rfl, h.flush, by simpa using hfence.1, h.flush_contains, fun _ _ _ => rfl⟩
    · refine ⟨h.fence, fun _ => rfl, h.fence_contains, by simpa using hflush.1, fun u hu hc => ?_⟩
      obtain rfl : v = u := by simpa using hu
      by_contra hfalse
      exact hfence ⟨hc, by simpa using hfalse⟩
    · exact h
    · exact h

/-- A run on another function does not touch the marks of this one. -/
theorem Marks.Sound.next_fence_iff {k : Marks} (h : k.Sound) {p : PassRun} {n : Name}
    (hne : n ≠ p.function) : (k.next M p).fence = some n ↔ k.fence = some n := by
  cases p with
  | storeFlush f => rfl
  | fence v =>
    simp only [Marks.next]
    split_ifs with hdef hfence hflush
    · refine iff_of_false (fun heq => hne (Option.some.inj heq).symm) fun heq => ?_
      simpa [hfence.2] using h.fence (by simp [heq])
    all_goals rfl

theorem Marks.Sound.next_flush_iff {k : Marks} (h : k.Sound) {p : PassRun} {n : Name}
    (hne : n ≠ p.function) : (k.next M p).flush = some n ↔ k.flush = some n := by
  cases p with
  | storeFlush f => rfl
  | fence v =>
    simp only [Marks.next]
    split_ifs with hdef hfence hflush
    · rfl
    · refine iff_of_false (fun heq => hne (Option.some.inj heq).symm) fun heq => ?_
      simpa [hflush.2] using h.flush (by simp [heq])
    all_goals rfl

theorem marks_sound (ps : List PassRun) : (marks once M ps).Sound := by
  induction ps using List.reverseRecOn with
  | nil => exact ⟨by simp [marks], by simp [marks], by simp [marks], by simp [marks],
      by simp [marks]⟩
  | append_singleton ps p ih =>
    rw [marks_snoc]
    exact ih.next p

theorem marks_flush_snoc {ps : List PassRun} {v : Name} (h : (marks once M ps).flush = some v)
    (p : PassRun) : (marks once M (ps ++ [p])).flush = some v := by
  have hflag : (marks once M ps).once.flush = true := (marks_sound ps).flush (by simp [h])
  rw [marks_snoc]
  cases p with
  | storeFlush f => exact h
  | fence u =>
    simp only [Marks.next, hflag]
    split_ifs with _ _ hflush
    · exact h
    · simp at hflush
    · exact h
    · exact h

end

/-- The flags of the passes are those of the marks. -/
theorem PassEffect.once_eq {M M₁ M₂ : Module} (hext : M.Extends M₁) {k : Marks} {once' : Once}
    {p : PassRun} (heff : PassEffect k.once M₁ p once' M₂) : once' = (k.next M p).once := by
  cases heff with
  | unknown hl => rw [Marks.next_unknown (hext.lookup_eq_none hl)]
  | wrapper => rfl
  | stores => rfl
  | fence hF hc ho => rw [Marks.next_fence (hext.isSome_lookup_of_mem hF) hc ho]
  | flush hF hn hc ho => rw [Marks.next_flush (hext.isSome_lookup_of_mem hF) hn hc ho]
  | neither hF hn hm => rw [Marks.next_neither hn hm]

theorem runPasses_once {M M' : Module} (hM : M.WellFormed) {once once' : Once} {ps : List PassRun}
    (hrun : runPasses (once, M) ps = .ok (once', M')) :
    M.Extends M' ∧ once' = (marks once M ps).once := by
  have hstep : ∀ done once₁ M₁ p once₂ M₂, M.Extends M₁ → once₁ = (marks once M done).once →
      PassEffect once₁ M₁ p once₂ M₂ → once₂ = (marks once M (done ++ [p])).once := by
    intro done once₁ M₁ p once₂ M₂ hext honce heff
    subst honce
    rw [marks_snoc]
    exact heff.once_eq hext
  exact runPasses_invariant hM (I := fun done once₁ _ => once₁ = (marks once M done).once) rfl
    hstep hrun

/-! ## Failure -/

theorem runPasses_snoc (s : Once × Module) (ps : List PassRun) (p : PassRun) :
    runPasses s (ps ++ [p]) = runPasses s ps >>= fun t => runPass t p := by
  induction ps generalizing s with
  | nil =>
    simp only [List.nil_append, runPasses, bind, Except.bind]
    cases runPass s p <;> rfl
  | cons q ps ih =>
    simp only [List.cons_append, runPasses, ih, bind, Except.bind]
    cases runPass s q <;> rfl

section
variable {M M₁ : Module} (hM : M.WellFormed) (hext : M.Extends M₁)
include hM hext

/-- The only thing that can go wrong in a visit is that a flush function takes no address. -/
theorem fenceInstru_isOk_iff {F : Function} (hF : F ∈ M₁.defs) (once : Once) :
    (fenceInstru once M₁ F).isOk = true ↔
      (¬ (Contains F.name fenceFunctionName ∧ once.fence = false) →
        Contains F.name flushFunctionName ∧ once.flush = false → TakesAddress M₁.dataLayout F) := by
  constructor
  · intro h hn hc
    exact takesAddress_of_isOk hn hc h
  · intro h
    obtain ⟨once', M₂, he, -⟩ := fenceInstru_effect hM hext hF once h
    simp [he]

omit hM in
theorem Module.Extends.takesAddress_iff (hn : (M.defs.map (·.name)).Nodup) {F : Function}
    (hF : F ∈ M₁.defs) : TakesAddress M₁.dataLayout F ↔
      ∀ G ∈ M.defs, F.name = G.name → TakesAddress M.dataLayout G := by
  obtain ⟨F₀, hF₀, hF₀F⟩ := hext.exists_base hF
  have hiff : TakesAddress M₁.dataLayout F ↔ TakesAddress M.dataLayout F₀ := by
    simp only [TakesAddress, hext.dataLayout, hF₀F.params]
  rw [hiff]
  constructor
  · intro h G hG hname
    obtain rfl := List.inj_on_of_nodup_map hn hF₀ hG (hF₀F.name.symm.trans hname)
    exact h
  · exact fun h => h F₀ hF₀ hF₀F.name

theorem runPass_isOk_iff {k : Marks} (p : PassRun)
    (hk : ∀ F ∈ M.defs, k.flush = some F.name → TakesAddress M.dataLayout F) :
    (runPass (k.once, M₁) p).isOk = true ↔
      ∀ F ∈ M.defs, (k.next M p).flush = some F.name → TakesAddress M.dataLayout F := by
  cases p with
  | storeFlush f =>
    obtain ⟨once', M₂, he, -⟩ := runPass_effect hM hext k.once (.storeFlush f) (by simp)
    exact iff_of_true (by simp [he]) hk
  | fence v =>
    have hdef := hext.isSome_lookup v
    cases hl : M₁.lookup v with
    | none =>
      refine iff_of_true (by simp [runPass, hl]) ?_
      simpa [Marks.next, ← hdef, hl] using hk
    | some F =>
      obtain ⟨hF, rfl⟩ := Module.lookup_mem hl
      have hrun : (runPass (k.once, M₁) (.fence F.name)).isOk =
          (fenceInstru k.once M₁ F).isOk := by
        simp only [runPass, hl, bind, Except.bind]
        cases fenceInstru k.once M₁ F <;> rfl
      rw [hrun, fenceInstru_isOk_iff hM hext hF]
      simp only [Marks.next, ← hdef, hl, Option.isSome_some, if_true]
      split_ifs with hfence hflush
      · exact iff_of_true (fun h => absurd hfence h) hk
      · simp only [hfence, hflush, not_false_eq_true, true_and, forall_const, Option.some.injEq]
        exact hext.takesAddress_iff hM.names_nodup hF
      · exact iff_of_true (fun _ h => absurd h hflush) hk

end

/-- A schedule of the passes fails exactly if it makes a flush mark at a function that takes no
address. -/
theorem runPasses_isOk_iff {M : Module} (hM : M.WellFormed) (once : Once) (ps : List PassRun) :
    (runPasses (once, M) ps).isOk = true ↔
      ∀ F ∈ M.defs, (marks once M ps).flush = some F.name → TakesAddress M.dataLayout F := by
  induction ps using List.reverseRecOn with
  | nil => exact iff_of_true rfl (by simp [marks])
  | append_singleton ps p ih =>
    rw [runPasses_snoc]
    cases hr : runPasses (once, M) ps with
    | error e =>
      rw [hr] at ih
      have hfail := mt ih.mpr (by simp)
      refine iff_of_false (by simp [bind, Except.bind]) fun h => ?_
      exact hfail fun F hF hmark => h F hF (marks_flush_snoc hmark p)
    | ok s =>
      obtain ⟨once₁, M₁⟩ := s
      obtain ⟨hext, rfl⟩ := runPasses_once hM hr
      rw [marks_snoc]
      exact runPass_isOk_iff hM hext p (ih.mp (by rw [hr]; rfl))

end Squint.IR
