import Squint.IR.Declarations
import Squint.IR.Legacy

/-! What the passes say they did against what they did. `instrumentFunction` tells exactly whether
it changed the body; the passes around it say too little, since they leave out declarations, and
those of the new pass manager leave out everything. -/
namespace Squint.IR

/-- A loop that starts with the flag `c` and ends with `c'` leaves everything as it was, or it adds
to it and raises the flag. -/
inductive Told {α : Type} (size : α → ℕ) (c : Bool) (x x' : α) (c' : Bool) : Prop
  | same (hx : x' = x) (hc : c' = c)
  | grown (hx : size x < size x') (hc : c' = true)

section
variable {c c₁ c' : Bool}

theorem Told.flag {α : Type} {size : α → ℕ} {x x' : α} (h : Told size true x x' c') :
    c' = true := by
  cases h with
  | same _ hc => exact hc
  | grown _ hc => exact hc

theorem Told.le {α : Type} {size : α → ℕ} {x x' : α} (h : Told size c x x' c') :
    size x ≤ size x' := by
  cases h with
  | same hx => rw [hx]
  | grown hx => exact hx.le

theorem Told.changed_iff {α : Type} {size : α → ℕ} {x x' : α} (h : Told size false x x' c') :
    c' = true ↔ x' ≠ x := by
  cases h with
  | same hx hc => simp [hx, hc]
  | grown hx hc => exact iff_of_true hc fun heq => by simp [heq] at hx

theorem Told.cons {l l' : List Inst} (h : Told List.length c l l' c') (i : Inst) :
    Told List.length c (i :: l) (i :: l') c' := by
  cases h with
  | same hx hc => exact .same (by rw [hx]) hc
  | grown hx hc => exact .grown (by simpa using hx) hc

theorem Told.insert {l l' new : List Inst} (h : Told List.length true l l' c') (i : Inst)
    (hnew : new ≠ []) : Told List.length c (i :: l) (new ++ i :: l') c' := by
  have hpos : 0 < new.length := List.length_pos_iff.mpr hnew
  have hle := h.le
  refine .grown ?_ h.flag
  simp only [List.length_append, List.length_cons]
  omega

def bodySize (bs : List Block) : ℕ := (bs.map fun b => b.insts.length).sum

theorem Told.block {b : Block} {l : List Inst} {bs bs' : List Block}
    (h : Told List.length c b.insts l c₁) (h' : Told bodySize c₁ bs bs' c') :
    Told bodySize c (b :: bs) ({ b with insts := l } :: bs') c' := by
  cases h with
  | same hx hc =>
    subst hx hc
    cases h' with
    | same hx hc => exact .same (by rw [hx]) hc
    | grown hx hc => exact .grown (by simpa [bodySize] using hx) hc
  | grown hx hc =>
    subst hc
    have hle := h'.le
    refine .grown ?_ h'.flag
    simp only [bodySize, List.map_cons, List.sum_cons] at hle ⊢
    omega

end

theorem storeCallback_ne_nil {dl : DataLayout} {fresh : ℕ} {p : Operand} {new : List Inst}
    (h : storeCallback dl fresh p = .ok new) : new ≠ [] := by
  obtain ⟨⟨cast, addr⟩, -, h⟩ := bind_eq_ok h
  dsimp only at h
  split at h
  · cases h
  · obtain rfl := Except.ok.inj h
    simp

theorem instrumentInsts_told {dl : DataLayout} {l l' : List Inst} {c c' : Cursor}
    (h : instrumentInsts dl c l = .ok (l', c')) :
    Told List.length c.changed l l' c'.changed ∧
      (c'.changed = true ↔ c.changed = true ∨ ∃ i ∈ l, i.isStore = true) := by
  rw [instrumentInsts_eq_ok_iff] at h
  induction h with
  | nil => exact ⟨.same rfl rfl, by simp⟩
  | @store c c' v p new l l' hnew _ ih =>
    have hgrown := ih.1.insert (c := c.changed) (.store v p) (storeCallback_ne_nil hnew)
    exact ⟨hgrown, iff_of_true ih.1.flag (.inr ⟨_, List.mem_cons_self, rfl⟩)⟩
  | other hi _ ih => exact ⟨ih.1.cons _, by simpa [hi] using ih.2⟩

theorem instrumentBlocks_told {dl : DataLayout} {bs bs' : List Block} {c c' : Cursor}
    (h : instrumentBlocks dl c bs = .ok (bs', c')) :
    Told bodySize c.changed bs bs' c'.changed ∧
      (c'.changed = true ↔ c.changed = true ∨ ∃ b ∈ bs, ∃ i ∈ b.insts, i.isStore = true) := by
  rw [instrumentBlocks_eq_ok_iff] at h
  induction h with
  | nil => exact ⟨.same rfl rfl, by simp⟩
  | cons hb _ ih =>
    obtain ⟨htold, hiff⟩ := instrumentInsts_told (instrumentInsts_eq_ok_iff.mpr hb)
    refine ⟨htold.block ih.1, ?_⟩
    rw [ih.2, hiff]
    simp [or_assoc]

/-- Only blocks are changed, and only if there is a store. -/
theorem instrumentBody_told {dl : DataLayout} {F F' : Function} {changed : Bool}
    (h : instrumentBody dl F = .ok (F', changed)) :
    (changed = true ↔ F' ≠ F) ∧ (changed = true ↔ F.HasStore) := by
  obtain ⟨q, hq, h⟩ := bind_eq_ok h
  obtain ⟨rfl, rfl⟩ := Prod.mk.inj (Except.ok.inj h)
  obtain ⟨htold, hiff⟩ := instrumentBlocks_told hq
  refine ⟨?_, by simpa [Function.HasStore, Function.Has] using hiff⟩
  rw [htold.changed_iff]
  exact ⟨fun hne heq => hne (congrArg Function.blocks heq), fun hne heq => hne (by rw [heq])⟩

namespace Legacy

variable {dl : DataLayout} {t : Sites}

theorem instrumentInsts_told {l l' : List Inst} {c c' : Cursor}
    (h : instrumentInsts dl t c l = .ok (l', c')) :
    Told List.length c.changed l l' c'.changed := by
  induction l generalizing c l' with
  | nil =>
    simp only [instrumentInsts, Except.ok.injEq, Prod.mk.injEq] at h
    obtain ⟨rfl, rfl⟩ := h
    exact .same rfl rfl
  | cons i l ih =>
    obtain ⟨new, -, h⟩ := bind_eq_ok h
    obtain ⟨q, hq, h⟩ := bind_eq_ok h
    obtain ⟨rfl, rfl⟩ := Prod.mk.inj (Except.ok.inj h)
    have htold := ih hq
    cases new with
    | nil => exact Told.cons (by simpa using htold) i
    | cons j new => exact Told.insert (by simpa using htold) i (by simp)

theorem instrumentBlocks_told {bs bs' : List Block} {c c' : Cursor}
    (h : instrumentBlocks dl t c bs = .ok (bs', c')) :
    Told bodySize c.changed bs bs' c'.changed := by
  induction bs generalizing c bs' with
  | nil =>
    simp only [instrumentBlocks, Except.ok.injEq, Prod.mk.injEq] at h
    obtain ⟨rfl, rfl⟩ := h
    exact .same rfl rfl
  | cons b bs ih =>
    obtain ⟨q, hq, h⟩ := bind_eq_ok h
    obtain ⟨q', hq', h⟩ := bind_eq_ok h
    obtain ⟨rfl, rfl⟩ := Prod.mk.inj (Except.ok.inj h)
    exact (instrumentInsts_told hq).block (ih hq')

theorem instrumentBody_told {F F' : Function} {changed : Bool}
    (h : instrumentBody dl t F = .ok (F', changed)) :
    F'.name = F.name ∧ (changed = true ↔ F' ≠ F) := by
  obtain ⟨q, hq, h⟩ := bind_eq_ok h
  obtain ⟨rfl, rfl⟩ := Prod.mk.inj (Except.ok.inj h)
  refine ⟨rfl, ?_⟩
  rw [(instrumentBlocks_told hq).changed_iff]
  exact ⟨fun hne heq => hne (congrArg Function.blocks heq), fun hne heq => hne (by rw [heq])⟩

end Legacy

/-! ## Modules -/

section
variable {M N : Module} {F F' : Function}

/-- A pass that asks for declarations and replaces one function leaves the module as it was if
neither makes a difference. -/
theorem Module.update_eq_iff (hN : N.defs = M.defs ∧ N.dataLayout = M.dataLayout)
    (hn : (M.defs.map (·.name)).Nodup) (hF : F ∈ M.defs) (hname : F'.name = F.name) :
    N.update F' = M ↔ N.decls = M.decls ∧ F' = F := by
  constructor
  · intro h
    have hdefs : M.defs.map (fun G => if G.name = F'.name then F' else G) = M.defs.map id := by
      rw [List.map_id, ← hN.1]
      exact (congrArg Module.defs h).trans hN.1.symm
    have hself := List.map_inj_left.mp hdefs F hF
    rw [if_pos hname.symm] at hself
    have hdecls : (N.update F').decls = M.decls := congrArg Module.decls h
    exact ⟨hdecls, hself⟩
  · rintro ⟨hdecls, rfl⟩
    have hdefs : N.defs.map (fun G => if G.name = F'.name then F' else G) = M.defs := by
      rw [hN.1]
      conv_rhs => rw [← List.map_id M.defs]
      refine List.map_congr_left fun G hG => ?_
      split_ifs with he
      · exact (List.inj_on_of_nodup_map hn hG hF he).symm
      · rfl
    exact Module.eq_of_decls_eq ⟨hdefs, hN.2⟩ hdecls

theorem Module.lookup_update_self (hN : N.defs = M.defs) (hn : (M.defs.map (·.name)).Nodup)
    (hF : F ∈ M.defs) (hname : F'.name = F.name) : (N.update F').lookup F.name = some F' := by
  have hl : N.lookup F.name = some F := by
    rw [Module.lookup, hN]
    exact Module.lookup_of_mem hn hF
  rw [Module.lookup_update, hl, Option.map_some, if_pos hname.symm]

end

def Legacy.requests (M : Module) : List (Name × FnTy) :=
  [(writeStoreTraceWrapper, ⟨.void, [getIntPtrTy M, .int 32]⟩),
    (writeFenceTraceWrapper, ⟨.void, []⟩), (writeFlushTraceWrapper, ⟨.void, [getIntPtrTy M]⟩)]

theorem Legacy.callbacks_eq (M : Module) :
    Legacy.callbacks M = M.declareAll (Legacy.requests M) := rfl

section
variable {M M' : Module} {F : Function} {changed : Bool}

theorem Legacy.runOnFunction_cases {t : Sites} (h : runOnFunction t M F = .ok (M', changed)) :
    (isWrapper F.name = true ∧ M' = M ∧ changed = false) ∨
      (isWrapper F.name = false ∧ ∃ F', instrumentBody M.dataLayout t F = .ok (F', changed) ∧
        M' = (callbacks M).update F') := by
  unfold runOnFunction at h
  split_ifs at h with hw
  · obtain ⟨rfl, rfl⟩ := Prod.mk.inj (Except.ok.inj h)
    exact .inl ⟨hw, rfl, rfl⟩
  · obtain ⟨q, hq, h⟩ := bind_eq_ok h
    obtain ⟨rfl, rfl⟩ := Prod.mk.inj (Except.ok.inj h)
    exact .inr ⟨Bool.eq_false_iff.mpr hw, q.1, hq, rfl⟩

end

section
variable {M : Module} (hn : (M.defs.map (·.name)).Nodup) {F : Function} (hF : F ∈ M.defs)
include hn hF

theorem storeFlushInstru_unchanged_iff {M' : Module} {r : PreservedAnalyses}
    (h : storeFlushInstru M F = .ok (M', r)) : r = .all ∧
      (M' = M ↔ isWrapper F.name = true ∨
        ¬ F.HasStore ∧ ∀ q ∈ storeFlushRequests M, M.Present q.1) := by
  obtain ⟨rfl, changed, h⟩ := storeFlushInstru_cases h
  refine ⟨rfl, ?_⟩
  rcases instrumentFunction_cases h with ⟨hw, rfl, -⟩ | ⟨hw, F', he, rfl⟩
  · simp [hw]
  · have hname := instrumentBody_name he
    obtain ⟨hne, hstore⟩ := instrumentBody_told he
    rw [Module.update_eq_iff (storeFlushCallbacks_defs M) hn hF hname, storeFlushCallbacks_eq,
      Module.declareAll_decls_eq_iff, ← hstore, hne, not_not, hw]
    simp [and_comm]

theorem fenceInstru_unchanged_iff {M' : Module} {once once' : Once} {r : PreservedAnalyses}
    (h : fenceInstru once M F = .ok (once', M', r)) : r = .all ∧
      (M' = M ↔ ¬ (Contains F.name fenceFunctionName ∧ once.fence = false) ∧
        ¬ (Contains F.name flushFunctionName ∧ once.flush = false) ∧
        ∀ q ∈ fenceFlushRequests M, M.Present q.1) := by
  obtain ⟨rfl, hcases⟩ := fenceInstru_cases h
  refine ⟨rfl, ?_⟩
  rw [← and_assoc, ← not_or]
  rcases hcases with ⟨hmatch, F', hname, hne, rfl⟩ | ⟨hmatch, rfl⟩
  · rw [Module.update_eq_iff (fenceFlushCallbacks_defs M) hn hF hname]
    simp [hmatch, hne]
  · rw [and_iff_right hmatch, ← Module.declareAll_decls_eq_iff, ← fenceFlushCallbacks_eq]
    exact ⟨congrArg Module.decls, Module.eq_of_decls_eq (fenceFlushCallbacks_defs M)⟩

theorem instrumentFunction_changed_iff {M' : Module} {changed : Bool}
    (h : instrumentFunction M F = .ok (M', changed)) :
    changed = true ↔ M'.lookup F.name ≠ some F := by
  rcases instrumentFunction_cases h with ⟨-, rfl, rfl⟩ | ⟨-, F', he, rfl⟩
  · simp [Module.lookup_of_mem hn hF]
  · rw [Module.lookup_update_self (storeFlushCallbacks_defs M).1 hn hF (instrumentBody_name he),
      (instrumentBody_told he).1]
    simp

theorem Legacy.runOnFunction_changed_iff {M' : Module} {t : Sites} {changed : Bool}
    (h : runOnFunction t M F = .ok (M', changed)) :
    (changed = true ↔ M'.lookup F.name ≠ some F) ∧
      (changed = false → (M' = M ↔ isWrapper F.name = true ∨ ∀ q ∈ requests M, M.Present q.1)) := by
  rcases runOnFunction_cases h with ⟨hw, rfl, rfl⟩ | ⟨hw, F', he, rfl⟩
  · simp [Module.lookup_of_mem hn hF, hw]
  · obtain ⟨hname, hne⟩ := instrumentBody_told he
    have hdefs := callbacks_defs M
    refine ⟨?_, fun hfalse => ?_⟩
    · rw [Module.lookup_update_self hdefs.1 hn hF hname, hne]
      simp
    · have heq : F' = F := by simpa [hfalse] using hne
      rw [Module.update_eq_iff hdefs hn hF hname, callbacks_eq, Module.declareAll_decls_eq_iff]
      simp [heq, hw]

end

/-- What the reports are worth. `instrumentFunction` returns true exactly if the body has changed,
in both plugins. The two passes of the new plugin report that everything is preserved whatever they
do, which is so exactly where there was nothing to insert and the callbacks were there before; and
where the legacy pass reports no change, it has made none exactly if it had nothing to declare. -/
theorem reports_exact {M : Module} (hM : M.WellFormed) {F : Function} (hF : F ∈ M.defs) :
    (∀ M' r, storeFlushInstru M F = .ok (M', r) → r = .all ∧
      (M' = M ↔ isWrapper F.name = true ∨
        ¬ F.HasStore ∧ ∀ q ∈ storeFlushRequests M, M.Present q.1)) ∧
    (∀ once once' M' r, fenceInstru once M F = .ok (once', M', r) → r = .all ∧
      (M' = M ↔ ¬ (Contains F.name fenceFunctionName ∧ once.fence = false) ∧
        ¬ (Contains F.name flushFunctionName ∧ once.flush = false) ∧
        ∀ q ∈ fenceFlushRequests M, M.Present q.1)) ∧
    (∀ M' changed, Legacy.runOnFunction Legacy.sites M F = .ok (M', changed) → changed = false →
      (M' = M ↔ isWrapper F.name = true ∨ ∀ q ∈ Legacy.requests M, M.Present q.1)) ∧
    (∀ M' changed, instrumentFunction M F = .ok (M', changed) →
      (changed = true ↔ M'.lookup F.name ≠ some F)) ∧
    ∀ M' changed, Legacy.runOnFunction Legacy.sites M F = .ok (M', changed) →
      (changed = true ↔ M'.lookup F.name ≠ some F) := by
  have hn := hM.names_nodup
  exact ⟨fun _ _ h => storeFlushInstru_unchanged_iff hn hF h,
    fun _ _ _ _ h => fenceInstru_unchanged_iff hn hF h,
    fun _ _ h => (Legacy.runOnFunction_changed_iff hn hF h).2,
    fun _ _ h => instrumentFunction_changed_iff hn hF h,
    fun _ _ h => (Legacy.runOnFunction_changed_iff hn hF h).1⟩

namespace Driver

/-- The driver with the wrappers declared, as where it was instrumented before. -/
def declared : Module := { program with decls := Legacy.requests program }

theorem declared_wellFormed : declared.WellFormed :=
  ⟨wellFormed.names_nodup, wellFormed.functions⟩

/-- The flush function has no store, and here every report is right. -/
theorem declared_reports_exact :
    (storeFlushInstru declared flushBuffer).isOk = true ∧
    (∀ M' r, storeFlushInstru declared flushBuffer = .ok (M', r) → M' = declared) ∧
    (fenceInstru ⟨false, true⟩ declared flushBuffer).isOk = true ∧
    (∀ once' M' r, fenceInstru ⟨false, true⟩ declared flushBuffer = .ok (once', M', r) →
      M' = declared) ∧
    (Legacy.runOnFunction Legacy.sites declared flushBuffer).toOption.map (·.2) = some false ∧
    ∀ M', Legacy.runOnFunction Legacy.sites declared flushBuffer = .ok (M', false) →
      M' = declared := by
  have hF : flushBuffer ∈ declared.defs := by simp [declared, program]
  obtain ⟨hstore, hfence, hlegacy, -⟩ := reports_exact declared_wellFormed hF
  have hnone : ¬ flushBuffer.HasStore := by
    simp [Function.HasStore, Function.Has, flushBuffer, Inst.isStore]
  refine ⟨by decide +kernel, fun M' r h => ?_, by decide +kernel, fun once' M' r h => ?_,
    by decide +kernel, fun M' h => ?_⟩
  · exact (hstore M' r h).2.mpr (.inr ⟨hnone, by decide +kernel⟩)
  · exact (hfence _ _ M' r h).2.mpr (by decide +kernel)
  · exact (hlegacy M' false h rfl).mpr (.inr (by decide +kernel))

/-- The store pass and the fence pass change a body and say that nothing has changed; so does the
legacy pass where it only declares the wrappers. -/
theorem changes_not_reported :
    (storeFlushInstru program writeBlock).toOption.map
      (fun q => (q.2, decide (q.1.defs = program.defs))) = some (.all, false) ∧
    (fenceInstru ⟨false, false⟩ program barrier).toOption.map
      (fun q => (q.2.2, decide (q.2.1.defs = program.defs))) = some (.all, false) ∧
    (Legacy.runOnFunction Legacy.sites program flushBuffer).toOption.map
      (fun q => (q.2, q.1.decls.map (·.1))) =
        some (false, [writeStoreTraceWrapper, writeFenceTraceWrapper, writeFlushTraceWrapper]) ∧
    program.decls = [] :=
  ⟨by decide +kernel, by decide +kernel, by decide +kernel, rfl⟩

end Driver

end Squint.IR
