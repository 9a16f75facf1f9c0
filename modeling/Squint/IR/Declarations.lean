import Squint.IR.Extension

/-! The declarations a pass asks for with `getOrInsertFunction`, one after the other, and what one
run of it makes of a module: the declarations, and at most one function replaced. -/
namespace Squint.IR

namespace Module

def Present (M : Module) (n : Name) : Prop := (M.lookup n).isSome = true ∨ n ∈ M.decls.map (·.1)

instance (M : Module) (n : Name) : Decidable (M.Present n) := by
  unfold Present
  infer_instance

def declareAll (M : Module) (qs : List (Name × FnTy)) : Module :=
  qs.foldl (fun M q => M.getOrInsertFunction q.1 q.2) M

variable {M : Module}

theorem getOrInsertFunction_of_present {n : Name} (h : M.Present n) (ty : FnTy) :
    M.getOrInsertFunction n ty = M := if_pos h

theorem getOrInsertFunction_of_not {n : Name} (h : ¬ M.Present n) (ty : FnTy) :
    M.getOrInsertFunction n ty = { M with decls := M.decls ++ [(n, ty)] } := if_neg h

theorem declareAll_cons (q : Name × FnTy) (qs : List (Name × FnTy)) :
    M.declareAll (q :: qs) = (M.getOrInsertFunction q.1 q.2).declareAll qs := rfl

theorem decls_length_le (qs : List (Name × FnTy)) :
    M.decls.length ≤ (M.declareAll qs).decls.length := by
  induction qs generalizing M with
  | nil => exact le_rfl
  | cons q qs ih =>
    rw [declareAll_cons]
    refine le_trans ?_ (ih (M := M.getOrInsertFunction q.1 q.2))
    by_cases h : M.Present q.1
    · rw [getOrInsertFunction_of_present h]
    · simp [getOrInsertFunction_of_not h]

theorem declareAll_decls_eq_iff {qs : List (Name × FnTy)} :
    (M.declareAll qs).decls = M.decls ↔ ∀ q ∈ qs, M.Present q.1 := by
  induction qs generalizing M with
  | nil => exact iff_of_true rfl (by simp)
  | cons q qs ih =>
    rw [declareAll_cons]
    by_cases h : M.Present q.1
    · rw [getOrInsertFunction_of_present h, ih]
      simp [h]
    · refine iff_of_false (fun heq => ?_) fun hall => h (hall q (by simp))
      have hle := decls_length_le (M := M.getOrInsertFunction q.1 q.2) qs
      rw [heq, getOrInsertFunction_of_not h] at hle
      simp only [List.length_append, List.length_singleton] at hle
      omega

theorem mem_declareAll_decls {qs : List (Name × FnTy)} (hqs : (qs.map (·.1)).Nodup)
    {x : Name × FnTy} :
    x ∈ (M.declareAll qs).decls ↔ x ∈ M.decls ∨ x ∈ qs ∧ ¬ M.Present x.1 := by
  induction qs generalizing M with
  | nil => simp [declareAll]
  | cons q qs ih =>
    rw [List.map_cons, List.nodup_cons] at hqs
    rw [declareAll_cons, ih hqs.2]
    -- what is asked for after `q` has another name
    have hne : x ∈ qs → x.1 ≠ q.1 := fun hx heq => hqs.1 (heq ▸ List.mem_map_of_mem hx)
    by_cases h : M.Present q.1
    · rw [getOrInsertFunction_of_present h]
      constructor
      · rintro (hx | ⟨hx, hnot⟩)
        · exact .inl hx
        · exact .inr ⟨List.mem_cons_of_mem _ hx, hnot⟩
      · rintro (hx | ⟨hx, hnot⟩)
        · exact .inl hx
        · rcases List.mem_cons.mp hx with rfl | hx
          · exact absurd h hnot
          · exact .inr ⟨hx, hnot⟩
    · have hpresent : ∀ n, (M.getOrInsertFunction q.1 q.2).Present n ↔ M.Present n ∨ n = q.1 := by
        intro n
        rw [getOrInsertFunction_of_not h]
        simp [Present, lookup, or_assoc]
      rw [hpresent, getOrInsertFunction_of_not h]
      simp only [List.mem_append, List.mem_cons, List.not_mem_nil, or_false]
      constructor
      · rintro ((hx | rfl) | ⟨hx, hnot⟩)
        · exact .inl hx
        · exact .inr ⟨.inl rfl, h⟩
        · exact .inr ⟨.inr hx, fun hp => hnot (.inl hp)⟩
      · rintro (hx | ⟨rfl | hx, hnot⟩)
        · exact .inl (.inl hx)
        · exact .inl (.inr rfl)
        · exact .inr ⟨hx, fun hp => hp.elim hnot (hne hx)⟩

end Module

def storeFlushRequests (M : Module) : List (Name × FnTy) :=
  [(writeStoreTraceWrapper, ⟨.void, [getIntPtrTy M, .int 32]⟩),
    (writeFlushTraceWrapper, ⟨.void, [getIntPtrTy M]⟩)]

def fenceFlushRequests (M : Module) : List (Name × FnTy) :=
  [(writeFenceTraceWrapper, ⟨.void, []⟩), (writeFlushTraceWrapper, ⟨.void, [getIntPtrTy M]⟩)]

theorem storeFlushCallbacks_eq (M : Module) :
    storeFlushCallbacks M = M.declareAll (storeFlushRequests M) := rfl

theorem fenceFlushCallbacks_eq (M : Module) :
    fenceFlushCallbacks M = M.declareAll (fenceFlushRequests M) := rfl

/-! ## What a pass does to a module -/

section
variable {M M' : Module} {F : Function} {changed : Bool}

theorem instrumentBody_name {dl : DataLayout} {F' : Function}
    (h : instrumentBody dl F = .ok (F', changed)) : F'.name = F.name := by
  obtain ⟨q, -, h⟩ := bind_eq_ok h
  obtain ⟨rfl, -⟩ := Prod.mk.inj (Except.ok.inj h)
  rfl

theorem instrumentFunction_cases (h : instrumentFunction M F = .ok (M', changed)) :
    (isWrapper F.name = true ∧ M' = M ∧ changed = false) ∨
      (isWrapper F.name = false ∧ ∃ F', instrumentBody M.dataLayout F = .ok (F', changed) ∧
        M' = (storeFlushCallbacks M).update F') := by
  unfold instrumentFunction at h
  split_ifs at h with hw
  · obtain ⟨rfl, rfl⟩ := Prod.mk.inj (Except.ok.inj h)
    exact .inl ⟨hw, rfl, rfl⟩
  · obtain ⟨q, hq, h⟩ := bind_eq_ok h
    obtain ⟨rfl, rfl⟩ := Prod.mk.inj (Except.ok.inj h)
    exact .inr ⟨Bool.eq_false_iff.mpr hw, q.1, hq, rfl⟩

theorem getFirstInsertionPt_append {l before after : List Inst}
    (h : getFirstInsertionPt l = some (before, after)) : before ++ after = l := by
  have hl := List.takeWhile_append_dropWhile (p := Inst.isPhi) (l := l)
  unfold getFirstInsertionPt at h
  dsimp only at h
  split at h
  · cases h
  · rename_i i rest hdrop
    rw [hdrop] at hl
    split_ifs at h with hpad hrest
    · obtain ⟨rfl, rfl⟩ := Prod.mk.inj (Option.some.inj h)
      simpa using hl
    · obtain ⟨rfl, rfl⟩ := Prod.mk.inj (Option.some.inj h)
      exact hl

theorem insertAtEntry_ne {F F' : Function} {new : List Inst} (hnew : new ≠ [])
    (h : insertAtEntry F new = .ok F') : F'.name = F.name ∧ F' ≠ F := by
  unfold insertAtEntry at h
  split at h
  · cases h
  · rename_i e bs hb
    split at h
    · cases h
    · rename_i before after hpt
      obtain rfl := Except.ok.inj h
      refine ⟨rfl, fun heq => ?_⟩
      have hblocks : (⟨e.label, before ++ new ++ after⟩ : Block) :: bs = e :: bs :=
        (congrArg Function.blocks heq).trans hb
      have hlen := congrArg (fun b : Block => b.insts.length) (List.cons.inj hblocks).1
      have hpos : 0 < new.length := List.length_pos_iff.mpr hnew
      simp only [← getFirstInsertionPt_append hpt, List.length_append] at hlen
      omega

theorem flushCallback_ne_nil {dl : DataLayout} {new : List Inst}
    (h : flushCallback dl F = .ok new) : new ≠ [] := by
  unfold flushCallback at h
  split at h
  · cases h
  · obtain ⟨q, -, h⟩ := bind_eq_ok h
    obtain rfl := Except.ok.inj h
    simp

/-- A visit inserts something, or it only asks for declarations. Both ways it reports nothing. -/
theorem fenceInstru_cases {once once' : Once} {r : PreservedAnalyses}
    (h : fenceInstru once M F = .ok (once', M', r)) : r = .all ∧
      (((Contains F.name fenceFunctionName ∧ once.fence = false ∨
          Contains F.name flushFunctionName ∧ once.flush = false) ∧
        ∃ F', F'.name = F.name ∧ F' ≠ F ∧ M' = (fenceFlushCallbacks M).update F') ∨
      (¬ (Contains F.name fenceFunctionName ∧ once.fence = false ∨
          Contains F.name flushFunctionName ∧ once.flush = false) ∧
        M' = fenceFlushCallbacks M)) := by
  unfold fenceInstru at h
  dsimp only at h
  split_ifs at h with hfence hflush
  · obtain ⟨F', hF', h⟩ := bind_eq_ok h
    obtain ⟨-, rfl, rfl⟩ := Except.ok.inj h
    obtain ⟨hname, hne⟩ := insertAtEntry_ne (by simp [fenceCallback]) hF'
    exact ⟨rfl, .inl ⟨.inl hfence, F', hname, hne, rfl⟩⟩
  · obtain ⟨new, hnew, h⟩ := bind_eq_ok h
    obtain ⟨F', hF', h⟩ := bind_eq_ok h
    obtain ⟨-, rfl, rfl⟩ := Except.ok.inj h
    obtain ⟨hname, hne⟩ := insertAtEntry_ne (flushCallback_ne_nil hnew) hF'
    exact ⟨rfl, .inl ⟨.inr hflush, F', hname, hne, rfl⟩⟩
  · obtain ⟨-, rfl, rfl⟩ := Except.ok.inj h
    exact ⟨rfl, .inr ⟨by simp [hfence, hflush], rfl⟩⟩

theorem storeFlushInstru_cases {r : PreservedAnalyses} (h : storeFlushInstru M F = .ok (M', r)) :
    r = .all ∧ ∃ changed, instrumentFunction M F = .ok (M', changed) := by
  obtain ⟨⟨N, changed⟩, hq, h⟩ := bind_eq_ok h
  dsimp only at h
  split_ifs at h
  · obtain ⟨rfl, rfl⟩ := Prod.mk.inj (Except.ok.inj h)
    exact ⟨rfl, changed, hq⟩
  · obtain ⟨rfl, rfl⟩ := Prod.mk.inj (Except.ok.inj h)
    exact ⟨rfl, changed, hq⟩

end

end Squint.IR
