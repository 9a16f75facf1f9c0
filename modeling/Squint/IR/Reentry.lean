import Squint.Lib.Graph
import Squint.IR.Visits

/-! When tracing calls itself. The passes skip the three wrappers and add calls of them to other
functions, so a wrapper that calls such a function is called again from within. -/
namespace Squint.IR

open Relation (TransGen)

/-- The direct call graph. -/
def Module.Calls (M : Module) (a n : Name) : Prop :=
  ∃ F ∈ M.defs, F.name = a ∧ F.Has fun i => i.directCallee = some n

/-- `n` is a function that is instrumented because it stores. -/
def Module.Stores (M : Module) (n : Name) : Prop :=
  isWrapper n = false ∧ ∃ F ∈ M.defs, F.name = n ∧ F.HasStore

/-- `n` is a function that receives a fence or a flush callback. -/
def Module.Receives (M : Module) (ps : List PassRun) (n : Name) : Prop :=
  fenceVisit M (fenceVisits ps) = some n ∨ flushVisit M (fenceVisits ps) = some n

/-- What has been instrumented by the runs done. -/
def Module.Traced (M : Module) (done : List PassRun) (n : Name) : Prop :=
  M.Stores n ∧ .storeFlush n ∈ done ∨ M.Receives done n

/-! ## Instructions of an extension -/

section
variable {F F' : Function} {P : Inst → Prop}

theorem Function.Extends.has (h : F.Extends F') (hF : F.Has P) : F'.Has P := by
  obtain ⟨b, hb, i, hi, hP⟩ := hF
  obtain ⟨b', hb', hsub⟩ := h.exists_block hb
  exact ⟨b', hb', i, hsub hi, hP⟩

theorem Function.Extends.has_or_silent (h : F.Extends F') (hF' : F'.Has P) :
    F.Has P ∨ F'.Has fun i => P i ∧ Silent F.freshReg i := by
  obtain ⟨b', hb', i, hi, hP⟩ := hF'
  rcases h.mem_or_silent hb' hi with ⟨b, hb, hi₀⟩ | hs
  · exact .inl ⟨b, hb, i, hi₀, hP⟩
  · exact .inr ⟨b', hb', i, hi, hP, hs⟩

theorem Function.Extends.hasStore_iff (h : F.Extends F') : F'.HasStore ↔ F.HasStore := by
  refine ⟨fun hF' => (h.has_or_silent hF').resolve_right ?_, h.has⟩
  rintro ⟨b, -, i, -, hstore, hs⟩
  rw [hs.not_store] at hstore
  cases hstore

/-- A new direct call is a call of a wrapper. -/
theorem Function.Extends.directCallee {n : Name} (h : F.Extends F')
    (hF' : F'.Has fun i => i.directCallee = some n) :
    (F.Has fun i => i.directCallee = some n) ∨ isWrapper n = true := by
  refine (h.has_or_silent hF').imp_right ?_
  rintro ⟨b, -, i, -, hcall, hs⟩
  unfold Silent at hs
  split at hs
  · cases hcall
  · rw [Inst.directCallee, Option.some.injEq] at hcall
    rwa [← hcall]
  · exact hs.elim

end

/-! ## What one run adds to the call graph -/

section
variable {dl : DataLayout} {F F' : Function} {changed : Bool}

theorem Guarded.exists_call {P : Inst → Prop} {l : List Inst} (h : Guarded dl P l)
    (hs : ∃ i ∈ l, i.isStore = true) :
    ∃ i ∈ l, i.directCallee = some writeStoreTraceWrapper := by
  induction h with
  | nil => simp at hs
  | other hi _ _ ih =>
    obtain ⟨i, hmem, hstore⟩ := hs
    have hne : i ∈ _ := (List.mem_cons.mp hmem).resolve_left (by rintro rfl; simp [hi] at hstore)
    obtain ⟨j, hj, hcall⟩ := ih ⟨i, hne, hstore⟩
    exact ⟨j, List.mem_cons_of_mem _ hj, hcall⟩
  | store =>
    refine ⟨_, List.mem_append_left _ (List.mem_append_right _ (List.mem_singleton_self _)), rfl⟩

theorem instrumentBody_calls (hF : ∀ b ∈ F.blocks, StoresTyped b.insts)
    (he : instrumentBody dl F = .ok (F', changed)) (hext : F.Extends F') (hs : F.HasStore) :
    F'.Has fun i => i.directCallee = some writeStoreTraceWrapper := by
  obtain ⟨-, hbs⟩ := instrumentBody_blocks he
  obtain ⟨b', hb', hstore⟩ := hext.hasStore_iff.mpr hs
  obtain ⟨b, hb, hins⟩ := exists_left_of_forall₂ hbs hb'
  have hguarded : Guarded dl (fun _ => True) b'.insts :=
    hins.guarded hb (hF b hb) fun _ _ _ => trivial
  exact ⟨_, hb', hguarded.exists_call hstore⟩

theorem InstrumentedBlock.eq_of_no_store {n : ℕ} {b b' : Block} (h : InstrumentedBlock dl n b b')
    (hs : ∀ i ∈ b.insts, i.isStore = false) : b' = b := by
  obtain ⟨hlabel, c, c', -, he⟩ := h
  have hsame : instrumentInsts dl c (b.insts ++ []) =
      (instrumentInsts dl c []).map fun q => (b.insts ++ q.1, q.2) :=
    instrumentInsts_append hs c
  rw [List.append_nil, he] at hsame
  simp only [instrumentInsts, Except.map, List.append_nil, Except.ok.injEq, Prod.mk.injEq] at hsame
  obtain ⟨l, insts⟩ := b
  obtain ⟨l', insts'⟩ := b'
  exact congrArg₂ Block.mk hlabel hsame.1

theorem instrumentBody_of_no_store (he : instrumentBody dl F = .ok (F', changed))
    (hs : ¬ F.HasStore) : F' = F := by
  obtain ⟨hF', hbs⟩ := instrumentBody_blocks he
  have hsame : F'.blocks = F.blocks := by
    apply List.ext_getElem hbs.length_eq.symm
    intro k hk hk₀
    refine (hbs.get hk₀ hk).eq_of_no_store fun i hi => ?_
    by_contra hstore
    exact hs ⟨_, List.getElem_mem hk₀, i, hi, by simpa using hstore⟩
  rw [hF', hsame]

end

section
variable {M M₁ : Module} {F F' : Function} {a n : Name}

theorem Module.Extends.calls (h : M.Extends M₁) (hc : M.Calls a n) : M₁.Calls a n := by
  obtain ⟨F, hF, hname, hcall⟩ := hc
  obtain ⟨F', hF', hext⟩ := exists_right_of_forall₂ h.defs hF
  exact ⟨F', hF', hext.name.trans hname, hext.has hcall⟩

/-- What calls there are once `F'` has taken the place of `F`. -/
theorem Module.calls_update (hF : F ∈ M.defs) (hext : F.Extends F')
    (h : (M.update F').Calls a n) :
    M.Calls a n ∨ a = F.name ∧ isWrapper n = true ∧ F' ≠ F := by
  obtain ⟨G, hG, rfl, hcall⟩ := h
  rcases mem_update hG with rfl | ⟨hG, -⟩
  · rcases hext.directCallee hcall with hold | hw
    · exact .inl ⟨F, hF, hext.name.symm, hold⟩
    · by_cases hne : G = F
      · exact .inl ⟨F, hF, hext.name.symm, hne ▸ hcall⟩
      · exact .inr ⟨hext.name, hw, hne⟩
  · exact .inl ⟨G, hG, rfl, hcall⟩

theorem Module.calls_updated (hF : F ∈ M.defs) (hname : F'.name = F.name)
    (hcall : F'.Has fun i => i.directCallee = some n) : (M.update F').Calls F.name n := by
  refine ⟨F', ?_, hname, hcall⟩
  exact List.mem_map.mpr ⟨F, hF, if_pos hname.symm⟩

theorem Module.calls_of_defs {M' : Module} (hd : M'.defs = M.defs) :
    M'.Calls a n ↔ M.Calls a n := by
  unfold Calls
  rw [hd]

theorem Function.prepend_has {e : Block} {bs : List Block} {new : List Inst} {P : Inst → Prop}
    (h : ∃ i ∈ new, P i) : (F.prepend e bs new).Has P := by
  obtain ⟨i, hi, hP⟩ := h
  exact ⟨_, List.mem_cons_self, i, List.mem_append_left _ hi, hP⟩

end

/-! ## Whole runs -/

/-- The flags and the call graph after the runs done: new calls start where something has been
instrumented, and there is one wherever something has been. -/
structure Instrumented (M : Module) (done : List PassRun) (once : Once) (M₁ : Module) : Prop where
  fence : once.fence = (fenceVisit M (fenceVisits done)).isSome
  flush : once.flush = (flushVisit M (fenceVisits done)).isSome
  calls : ∀ a n, M₁.Calls a n → M.Calls a n ∨ isWrapper n = true ∧ M.Traced done a
  called : ∀ a, M.Traced done a → ∃ n, isWrapper n = true ∧ M₁.Calls a n

section
variable {M M₁ M₂ : Module} {done : List PassRun} {once once' : Once} {F F' : Function} {f a : Name}

@[simp] theorem fenceVisits_storeFlush :
    fenceVisits (done ++ [.storeFlush f]) = fenceVisits done := by
  simp [fenceVisits]

@[simp] theorem fenceVisits_fence :
    fenceVisits (done ++ [.fence f]) = fenceVisits done ++ [f] := by
  simp [fenceVisits]

theorem traced_storeFlush :
    M.Traced (done ++ [.storeFlush f]) a ↔ M.Traced done a ∨ M.Stores a ∧ a = f := by
  simp only [Module.Traced, Module.Receives, fenceVisits_storeFlush, List.mem_append,
    List.mem_singleton, PassRun.storeFlush.injEq, and_or_left, or_right_comm]

/-- A visit that changes neither of the two functions that receive callbacks. -/
theorem traced_fence_of_eq
    (h : fenceVisit M (fenceVisits done ++ [f]) = fenceVisit M (fenceVisits done) ∧
      flushVisit M (fenceVisits done ++ [f]) = flushVisit M (fenceVisits done)) :
    M.Traced (done ++ [.fence f]) a ↔ M.Traced done a := by
  simp [Module.Traced, Module.Receives, h]

/-- A visit before which no function had received the callback it puts in. -/
theorem traced_fence_of_new
    (h : fenceVisit M (fenceVisits done) = none ∧
        fenceVisit M (fenceVisits done ++ [f]) = some f ∧
        flushVisit M (fenceVisits done ++ [f]) = flushVisit M (fenceVisits done) ∨
      flushVisit M (fenceVisits done) = none ∧
        fenceVisit M (fenceVisits done ++ [f]) = fenceVisit M (fenceVisits done) ∧
        flushVisit M (fenceVisits done ++ [f]) = some f) :
    M.Traced (done ++ [.fence f]) a ↔ M.Traced done a ∨ a = f := by
  rcases h with ⟨h₁, h₂, h₃⟩ | ⟨h₁, h₂, h₃⟩
  · simp [Module.Traced, Module.Receives, h₁, h₂, h₃, eq_comm (a := f), or_assoc,
      or_comm (a := a = f)]
  · simp [Module.Traced, Module.Receives, h₁, h₂, h₃, eq_comm (a := f), or_assoc]

theorem Instrumented.same {done' : List PassRun} (h : Instrumented M done once M₁)
    (hd : M₂.defs = M₁.defs) (htraced : ∀ a, M.Traced done' a ↔ M.Traced done a)
    (hfence : once'.fence = (fenceVisit M (fenceVisits done')).isSome)
    (hflush : once'.flush = (flushVisit M (fenceVisits done')).isSome) :
    Instrumented M done' once' M₂ where
  fence := hfence
  flush := hflush
  calls a n hc := by
    rw [htraced]
    exact h.calls a n ((Module.calls_of_defs hd).mp hc)
  called a ha := by
    obtain ⟨n, hn, hc⟩ := h.called a ((htraced a).mp ha)
    exact ⟨n, hn, (Module.calls_of_defs hd).mpr hc⟩

theorem Instrumented.update {done' : List PassRun} (h : Instrumented M done once M₁)
    (hn : (M₁.defs.map (·.name)).Nodup)
    (hd : M₂.defs = M₁.defs ∧ M₂.dataLayout = M₁.dataLayout) (hF : F ∈ M₁.defs)
    (hext : F.Extends F') (hmono : ∀ a, M.Traced done a → M.Traced done' a)
    (hnew : F' ≠ F → M.Traced done' F.name)
    (hcall : ∀ a, M.Traced done' a → M.Traced done a ∨ a = F.name ∧
      ∃ n, isWrapper n = true ∧ F'.Has fun i => i.directCallee = some n)
    (hfence : once'.fence = (fenceVisit M (fenceVisits done')).isSome)
    (hflush : once'.flush = (flushVisit M (fenceVisits done')).isSome) :
    Instrumented M done' once' (M₂.update F') where
  fence := hfence
  flush := hflush
  calls a n hc := by
    rcases Module.calls_update (hd.1 ▸ hF) hext hc with hc | ⟨rfl, hw, hne⟩
    · exact (h.calls a n ((Module.calls_of_defs hd.1).mp hc)).imp_right (And.imp_right (hmono a))
    · exact .inr ⟨hw, hnew hne⟩
  called a ha := by
    rcases hcall a ha with ha | ⟨rfl, n, hw, hc⟩
    · obtain ⟨n, hw, hc⟩ := h.called a ha
      have hext₂ : M₁.Extends (M₂.update F') :=
        ((Module.Extends.refl M₁).of_defs hd.1 hd.2).update hn (hd.1 ▸ hF) hext
      exact ⟨n, hw, hext₂.calls hc⟩
    · exact ⟨n, hw, Module.calls_updated (hd.1 ▸ hF) hext.name hc⟩

theorem Module.Extends.stores_iff (hM : M.WellFormed) (h : M.Extends M₁) (hF : F ∈ M₁.defs) :
    M.Stores F.name ↔ isWrapper F.name = false ∧ F.HasStore := by
  obtain ⟨F₀, hF₀, hext⟩ := h.exists_base hF
  rw [hext.hasStore_iff]
  constructor
  · rintro ⟨hw, G, hG, hname, hs⟩
    obtain rfl := List.inj_on_of_nodup_map hM.names_nodup hG hF₀ (hname.trans hext.name)
    exact ⟨hw, hs⟩
  · rintro ⟨hw, hs⟩
    exact ⟨hw, F₀, hF₀, hext.name.symm, hs⟩

theorem Module.Extends.matches_eq (h : M.Extends M₁) (hF : F ∈ M₁.defs) (p : Name) :
    M.Matches p F.name = decide (Contains F.name p) := by
  simp [Module.Matches, h.isSome_lookup_of_mem hF]

theorem Instrumented.unknown (h : Instrumented M done once M₁) (hext : M.Extends M₁)
    {p : PassRun} (hl : M₁.lookup p.function = none) : Instrumented M (done ++ [p]) once M₁ := by
  have hnone : (M.lookup p.function).isSome = false := by
    rw [← hext.isSome_lookup, hl]
    rfl
  cases p with
  | storeFlush f =>
    have hnot : ∀ a, ¬ (M.Stores a ∧ a = f) := by
      rintro a ⟨⟨-, F, hF, rfl, -⟩, rfl⟩
      have hdef := isSome_lookup_iff.mpr (List.mem_map_of_mem (f := (·.name)) hF)
      simp_all [PassRun.function]
    refine h.same rfl (fun a => ?_) (by simpa using h.fence) (by simpa using h.flush)
    rw [traced_storeFlush, or_iff_left (hnot a)]
  | fence f =>
    have hvisit := visit_unknown (v := f) hnone (fenceVisits done)
    refine h.same rfl (fun a => traced_fence_of_eq hvisit) ?_ ?_
    · rw [fenceVisits_fence, hvisit.1, h.fence]
    · rw [fenceVisits_fence, hvisit.2, h.flush]

theorem Instrumented.stores (h : Instrumented M done once M₁) (hM : M.WellFormed)
    (hext : M.Extends M₁) (hF : F ∈ M₁.defs) (hw : isWrapper F.name = false) {changed : Bool}
    (he : instrumentBody M₁.dataLayout F = .ok (F', changed)) (hext' : F.Extends F') :
    Instrumented M (done ++ [.storeFlush F.name]) once ((storeFlushCallbacks M₁).update F') := by
  obtain ⟨F₀, hF₀, hF₀F⟩ := hext.exists_base hF
  have htyped := hF₀F.storesTyped (hM.functions _ hF₀)
  have hstores := hext.stores_iff hM hF
  refine h.update (hext.names ▸ hM.names_nodup) (storeFlushCallbacks_defs M₁) hF hext'
    (fun a ha => traced_storeFlush.mpr (.inl ha)) (fun hne => ?_) (fun a ha => ?_)
    (by simpa using h.fence) (by simpa using h.flush)
  · have hs : F.HasStore := by
      by_contra hs
      exact hne (instrumentBody_of_no_store he hs)
    exact traced_storeFlush.mpr (.inr ⟨hstores.mpr ⟨hw, hs⟩, rfl⟩)
  · refine (traced_storeFlush.mp ha).imp_right ?_
    rintro ⟨ha, rfl⟩
    exact ⟨rfl, _, isWrapper_store, instrumentBody_calls htyped he hext' (hstores.mp ha).2⟩

theorem Instrumented.visited (h : Instrumented M done once M₁) (hM : M.WellFormed)
    (hext : M.Extends M₁) (hF : F ∈ M₁.defs) {e : Block} {bs : List Block} {new : List Inst}
    (hext' : F.Extends (F.prepend e bs new))
    (hnew : ∃ n, isWrapper n = true ∧ ∃ i ∈ new, i.directCallee = some n)
    (htraced : ∀ a, M.Traced (done ++ [.fence F.name]) a ↔ M.Traced done a ∨ a = F.name)
    (hfence : once'.fence = (fenceVisit M (fenceVisits (done ++ [.fence F.name]))).isSome)
    (hflush : once'.flush = (flushVisit M (fenceVisits (done ++ [.fence F.name]))).isSome) :
    Instrumented M (done ++ [.fence F.name]) once'
      ((fenceFlushCallbacks M₁).update (F.prepend e bs new)) := by
  obtain ⟨n, hw, hcall⟩ := hnew
  refine h.update (hext.names ▸ hM.names_nodup) (fenceFlushCallbacks_defs M₁) hF hext'
    (fun a ha => (htraced a).mpr (.inl ha)) (fun _ => (htraced _).mpr (.inr rfl)) (fun a ha => ?_)
    hfence hflush
  exact ((htraced a).mp ha).imp_right fun ha => ⟨ha, n, hw, Function.prepend_has hcall⟩

theorem flushGroup_calls (dl : DataLayout) (fresh r : ℕ) (ty : Ty) :
    ∃ i ∈ flushGroup dl fresh r ty, i.directCallee = some writeFlushTraceWrapper := by
  unfold flushGroup
  split <;> simp [Inst.directCallee]

theorem PassEffect.instrumented (hM : M.WellFormed) (hext : M.Extends M₁) {p : PassRun}
    (h : Instrumented M done once M₁) (heff : PassEffect once M₁ p once' M₂) :
    Instrumented M (done ++ [p]) once' M₂ := by
  cases heff with
  | unknown hl => exact h.unknown hext hl
  | wrapper hw =>
    refine h.same rfl (fun a => ?_) (by simpa using h.fence) (by simpa using h.flush)
    rw [traced_storeFlush, or_iff_left]
    rintro ⟨⟨hnw, -⟩, rfl⟩
    simp [hw] at hnw
  | stores hF hw he hext' => exact h.stores hM hext hF hw he hext'
  | fence hF hc ho hb hext' =>
    have hnone : fenceVisit M (fenceVisits done) = none := by simpa [h.fence] using ho
    have hvisit := visit_fenced hnone ((hext.matches_eq hF _).trans (decide_eq_true hc))
    refine h.visited hM hext hF hext'
      ⟨_, isWrapper_fence, by simp [fenceCallback, Inst.directCallee]⟩
      (fun a => traced_fence_of_new (.inl ⟨hnone, hvisit⟩)) ?_ ?_
    · simp [hvisit.1]
    · simp [hvisit.2, h.flush]
  | flush hF hn hc ho hps hb hext' =>
    have hnone : flushVisit M (fenceVisits done) = none := by simpa [h.flush] using ho
    have hvisit := visit_flushed hnone (not_matches_of_flag h.fence hn)
      ((hext.matches_eq hF _).trans (decide_eq_true hc))
    refine h.visited hM hext hF hext' ⟨_, isWrapper_flush, flushGroup_calls _ _ _ _⟩
      (fun a => traced_fence_of_new (.inr ⟨hnone, hvisit⟩)) ?_ ?_
    · simp [hvisit.1, h.fence]
    · simp [hvisit.2]
  | neither hF hn hm =>
    have hvisit := visit_passedBy (not_matches_of_flag h.fence hn) (not_matches_of_flag h.flush hm)
    refine h.same (fenceFlushCallbacks_defs M₁).1 (fun a => traced_fence_of_eq hvisit) ?_ ?_
    · rw [fenceVisits_fence, hvisit.1, h.fence]
    · rw [fenceVisits_fence, hvisit.2, h.flush]

end

/-- Some wrapper reaches some function of `T` by one or more calls. -/
def Module.WrapperReaches (M : Module) (T : Name → Prop) : Prop :=
  ∃ w n, isWrapper w = true ∧ T n ∧ TransGen M.Calls w n

variable {M M' : Module} {ps : List PassRun} {once' : Once}

theorem Module.Receives.matches {n : Name} (h : M.Receives ps n) :
    M.Matches fenceFunctionName n = true ∨ M.Matches flushFunctionName n = true := by
  rcases h with h | h
  · exact .inl (List.find?_some h)
  · exact .inr (List.find?_some h)

theorem not_traced_of_isWrapper {w : Name} (hw : isWrapper w = true) : ¬ M.Traced ps w := by
  rintro (⟨⟨hnw, -⟩, -⟩ | h)
  · simp [hw] at hnw
  · have hnw : isWrapper w = false := not_isWrapper_of_contains
      (h.matches.imp (fun hm => (Matches.exists_function hm).1)
        fun hm => (Matches.exists_function hm).1)
    simp [hw] at hnw

theorem Module.Calls.isSome_lookup {a n : Name} (h : M.Calls a n) : (M.lookup a).isSome = true := by
  obtain ⟨F, hF, rfl, -⟩ := h
  exact isSome_lookup_iff.mpr (List.mem_map_of_mem hF)

theorem Module.Traced.isSome_lookup {n : Name} (h : M.Traced ps n) :
    (M.lookup n).isSome = true := by
  rcases h with ⟨⟨-, F, hF, rfl, -⟩, -⟩ | h
  · exact isSome_lookup_iff.mpr (List.mem_map_of_mem hF)
  · rcases h.matches with h | h
    · exact (Bool.and_eq_true_iff.mp h).1
    · exact (Bool.and_eq_true_iff.mp h).1

/-- A wrapper that calls only functions without a body does not get any further. -/
theorem not_wrapperReaches {T : Name → Prop}
    (h : ∀ w n, isWrapper w = true → M.Calls w n → M.lookup n = none ∧ ¬ T n) :
    ¬ M.WrapperReaches T := by
  rintro ⟨w, n, hw, hT, hpath⟩
  obtain ⟨m, hm, hrest⟩ := Relation.TransGen.head'_iff.mp hpath
  obtain ⟨hnone, hnot⟩ := h w m hw hm
  rcases Relation.ReflTransGen.cases_head hrest with rfl | ⟨m', hm', -⟩
  · exact hnot hT
  · have hdef := hm'.isSome_lookup
    simp [hnone] at hdef

/-- After both passes a wrapper reaches a wrapper exactly if before them it reaches a wrapper, or a
function that is instrumented. That is not so if wrappers call only functions that are neither
defined here nor wrappers themselves. -/
theorem wrapperReaches_iff (hM : M.WellFormed)
    (hrun : runPasses (⟨false, false⟩, M) ps = .ok (once', M'))
    (hall : ∀ F ∈ M.defs, .storeFlush F.name ∈ ps) :
    (M'.WrapperReaches (isWrapper · = true) ↔
      M.WrapperReaches fun n => isWrapper n = true ∨ M.Stores n ∨ M.Receives ps n) ∧
    ((∀ w n, isWrapper w = true → M.Calls w n → M.lookup n = none ∧ isWrapper n = false) →
      ¬ M'.WrapperReaches (isWrapper · = true)) := by
  have hstart : Instrumented M [] ⟨false, false⟩ M := by
    refine ⟨rfl, rfl, fun _ _ h => .inl h, fun a ha => ?_⟩
    simp [Module.Traced, Module.Receives, fenceVisits, fenceVisit, flushVisit] at ha
  obtain ⟨hext, hinv⟩ := runPasses_invariant (I := Instrumented M) hM hstart
    (fun _ _ _ _ _ _ hext h heff => heff.instrumented hM hext h) hrun
  have htraced : ∀ n, M.Traced ps n ↔ M.Stores n ∨ M.Receives ps n := by
    intro n
    refine or_congr_left (and_iff_left_of_imp ?_)
    rintro ⟨-, F, hF, rfl, -⟩
    exact hall F hF
  have hiff : M'.WrapperReaches (isWrapper · = true) ↔
      M.WrapperReaches fun n => isWrapper n = true ∨ M.Stores n ∨ M.Receives ps n := by
    constructor
    · rintro ⟨w, n, hw, hn, hpath⟩
      have hadded : ∀ a b, M'.Calls a b → M.Calls a b ∨ M.Traced ps a :=
        fun a b h => (hinv.calls a b h).imp_right And.right
      rcases Lib.transGen_of_added hadded (not_traced_of_isWrapper hw) hpath with hold | ⟨c, hc, hT⟩
      · exact ⟨w, n, hw, .inl hn, hold⟩
      · exact ⟨w, c, hw, .inr ((htraced c).mp hT), hc⟩
    · rintro ⟨w, n, hw, hn, hpath⟩
      have hpath' : TransGen M'.Calls w n :=
        TransGen.mono (fun _ _ => hext.calls) w n hpath
      rcases hn with hn | hn
      · exact ⟨w, n, hw, hn, hpath'⟩
      · obtain ⟨w', hw', hcall⟩ := hinv.called n ((htraced n).mpr hn)
        exact ⟨w, w', hw, hw', hpath'.tail hcall⟩
  refine ⟨hiff, fun hcalls => ?_⟩
  rw [hiff]
  refine not_wrapperReaches fun w n hw hc => ?_
  obtain ⟨hnone, hnw⟩ := hcalls w n hw hc
  refine ⟨hnone, ?_⟩
  rintro (hn | hn)
  · simp [hnw] at hn
  · have hdef := ((htraced n).mpr hn).isSome_lookup
    simp [hnone] at hdef

namespace Driver

/-- A function that hands its first arguments on to `callee`. -/
def forward (n callee : Name) (params : List (ℕ × Ty)) (k : ℕ) : Function where
  name := n
  params := params
  nounwind := true
  blocks := [⟨0, [
    .call none (.fn callee) ((params.take k).map fun p => .reg p.1 p.2),
    .term (.ret none)]⟩]

def printWrappers : List Function :=
  [forward writeFenceTraceWrapper "write_fence_trace" [] 0,
    forward writeFlushTraceWrapper "write_flush_trace" [(0, .int 64)] 0,
    forward writeStoreTraceWrapper "write_store_trace" [(0, .int 64), (1, .int 32)] 1]

def linked : Module := { program with defs := program.defs ++ printWrappers }

theorem forward_wellFormed {n callee : Name} {params : List (ℕ × Ty)} {k : ℕ}
    (hp : (params.map (·.1)).Nodup) : (forward n callee params k).WellFormed := by
  refine ⟨hp, by simp [forward], by simp [forward], ?_, ?_, ?_, ?_⟩
  · simp only [forward, List.mem_singleton, forall_eq]
    exact shaped_of_body [_] (by simp [Inst.isPhi, Inst.isTerm])
  · simp [forward, Inst.isPhi, Inst.isEHPad]
  · simp [forward, Inst.successors, Terminator.successors]
  · simp [forward]

theorem linked_wellFormed : linked.WellFormed := by
  refine ⟨by decide, fun F hF => ?_⟩
  rcases List.mem_append.mp hF with hF | hF
  · exact wellFormed.functions F hF
  · simp only [printWrappers, List.mem_cons, List.not_mem_nil, or_false] at hF
    rcases hF with rfl | rfl | rfl <;> exact forward_wellFormed (by decide)

/-- The wrappers of `print.c` call into the kernel module only, so that nothing comes back. -/
theorem linked_not_reentrant : ∃ once' M',
    runPasses (⟨false, false⟩, linked)
      (linked.defs.flatMap fun F => [.storeFlush F.name, .fence F.name]) = .ok (once', M') ∧
    ¬ M'.WrapperReaches (isWrapper · = true) := by
  obtain ⟨⟨once', M'⟩, hrun⟩ : ∃ s, runPasses (⟨false, false⟩, linked)
      (linked.defs.flatMap fun F => [.storeFlush F.name, .fence F.name]) = .ok s :=
    ⟨_, rfl⟩
  have hcalls : ∀ F ∈ linked.defs, isWrapper F.name = true → ∀ b ∈ F.blocks, ∀ i ∈ b.insts,
      ∀ n ∈ i.directCallee, linked.lookup n = none ∧ isWrapper n = false := by decide +kernel
  refine ⟨once', M', hrun, (wrapperReaches_iff linked_wellFormed hrun ?_).2 ?_⟩
  · intro F hF
    exact List.mem_flatMap.mpr ⟨F, hF, by simp⟩
  · rintro w n hw ⟨F, hF, rfl, b, hb, i, hi, hcall⟩
    exact hcalls F hF hw b hb i hi n hcall

/-- A module that defines one wrapper, which calls another that is defined elsewhere. -/
def chained : Module where
  dataLayout := program.dataLayout
  decls := [(writeFenceTraceWrapper, ⟨.void, []⟩)]
  defs := [forward writeFlushTraceWrapper writeFenceTraceWrapper [(0, .int 64)] 0]

theorem chained_wellFormed : chained.WellFormed := by
  refine ⟨by decide, ?_⟩
  simp only [chained, List.mem_singleton, forall_eq]
  exact forward_wellFormed (by decide)

/-- The wrapper calls only what is not defined there, and still reaches a wrapper. -/
theorem chained_reentrant : chained.WellFormed ∧
    (∀ w n, isWrapper w = true → chained.Calls w n → chained.lookup n = none) ∧
    ∃ once' M', runPasses (⟨false, false⟩, chained)
      (chained.defs.flatMap fun F => [.storeFlush F.name, .fence F.name]) = .ok (once', M') ∧
      M'.WrapperReaches (isWrapper · = true) := by
  have hcalls : ∀ F ∈ chained.defs, ∀ b ∈ F.blocks, ∀ i ∈ b.insts, ∀ n ∈ i.directCallee,
      chained.lookup n = none := by decide +kernel
  have hcall : chained.Calls writeFlushTraceWrapper writeFenceTraceWrapper :=
    ⟨_, List.mem_singleton_self _, rfl, _, List.mem_singleton_self _, _, List.mem_cons_self, rfl⟩
  obtain ⟨⟨once', M'⟩, hrun⟩ : ∃ s, runPasses (⟨false, false⟩, chained)
      (chained.defs.flatMap fun F => [.storeFlush F.name, .fence F.name]) = .ok s :=
    ⟨_, rfl⟩
  refine ⟨chained_wellFormed, ?_, once', M', hrun, ?_⟩
  · rintro w n - ⟨F, hF, rfl, b, hb, i, hi, hc⟩
    exact hcalls F hF b hb i hi n hc
  · have hext := (runPasses_invariant (I := fun _ _ _ => True) chained_wellFormed trivial
      (fun _ _ _ _ _ _ _ _ _ => trivial) hrun).1
    exact ⟨_, _, isWrapper_flush, isWrapper_fence, .single (hext.calls hcall)⟩

end Driver

end Squint.IR
