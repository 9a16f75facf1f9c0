import Mathlib.Algebra.BigOperators.Group.List.Basic
import Squint.IR.Placement

/-! What the fence pass does to a module, depending on the order of its visits: the first function
that matches a pattern gets the callback, and the flags keep it from all others. -/
namespace Squint.IR

/-- `F` with the callbacks that visits have put in front of its entry block. -/
def Function.withCallbacks (dl : DataLayout) (fence flush : Bool) (F : Function) : Function :=
  match F.blocks with
  | [] => F
  | e :: bs => F.prepend e bs
    ((if flush then (F.params.head?.map fun p => flushGroup dl F.freshReg p.1 p.2).getD []
      else []) ++
      if fence then fenceCallback else [])

section
variable (M : Module)

def Module.Matches (pattern n : Name) : Bool := (M.lookup n).isSome && decide (Contains n pattern)

/-- The function whose visit puts in the fence callback. -/
def fenceVisit (vs : List Name) : Option Name := vs.find? (M.Matches fenceFunctionName)

/-- The function whose visit puts in the flush callback: the first match, the visit that put in
the fence callback apart. -/
def flushVisit (vs : List Name) : Option Name :=
  ((fenceVisit M vs).elim vs vs.erase).find? (M.Matches flushFunctionName)

end

variable {M : Module}

theorem fenceVisit_snoc (vs : List Name) (v : Name) : fenceVisit M (vs ++ [v]) =
    (fenceVisit M vs).or (if M.Matches fenceFunctionName v then some v else none) := by
  simp only [fenceVisit, List.find?_append, List.find?_singleton]

theorem fenceVisit_snoc_of_not {vs : List Name} {v : Name}
    (h : fenceVisit M vs = none → M.Matches fenceFunctionName v = false) :
    fenceVisit M (vs ++ [v]) = fenceVisit M vs := by
  cases hf : fenceVisit M vs with
  | some u => simp [fenceVisit_snoc, hf]
  | none => simp [fenceVisit_snoc, hf, h hf]

theorem fenceVisit_eq_some {vs : List Name} {u : Name} (h : fenceVisit M vs = some u) :
    u ∈ vs ∧ M.Matches fenceFunctionName u = true :=
  ⟨List.mem_of_find?_eq_some h, List.find?_some h⟩

theorem flushVisit_snoc (vs : List Name) (v : Name) : flushVisit M (vs ++ [v]) =
    (flushVisit M vs).or (if M.Matches flushFunctionName v ∧
      ¬ (fenceVisit M vs = none ∧ M.Matches fenceFunctionName v = true) then some v else none) := by
  unfold flushVisit
  rw [fenceVisit_snoc]
  cases hf : fenceVisit M vs with
  | some u =>
    have hu := (fenceVisit_eq_some hf).1
    simp [List.erase_append_left _ hu, List.find?_append, List.find?_singleton]
  | none =>
    by_cases hv : M.Matches fenceFunctionName v = true
    · have hnot : v ∉ vs := fun h => by
        have := List.find?_eq_none.mp hf v h
        exact this hv
      simp [hv, List.erase_append_right _ hnot]
    · simp [hv, List.find?_append, List.find?_singleton]

/-- A function that matches is passed by only if the flag is set. -/
theorem not_matches_of_flag {p v : Name} {visit : Option Name} {flag : Bool}
    (hflag : flag = visit.isSome) (h : ¬ (Contains v p ∧ flag = false)) (hnone : visit = none) :
    M.Matches p v = false := by
  have hc : ¬ Contains v p := fun hc => h ⟨hc, by simp [hflag, hnone]⟩
  simp [Module.Matches, hc]

theorem visit_unknown {v : Name} (h : (M.lookup v).isSome = false) (vs : List Name) :
    fenceVisit M (vs ++ [v]) = fenceVisit M vs ∧ flushVisit M (vs ++ [v]) = flushVisit M vs := by
  have hm : ∀ p, M.Matches p v = false := fun p => by simp [Module.Matches, h]
  exact ⟨by simp [fenceVisit_snoc, hm], by simp [flushVisit_snoc, hm]⟩

theorem visit_fenced {vs : List Name} {v : Name} (h : fenceVisit M vs = none)
    (hm : M.Matches fenceFunctionName v = true) :
    fenceVisit M (vs ++ [v]) = some v ∧ flushVisit M (vs ++ [v]) = flushVisit M vs :=
  ⟨by simp [fenceVisit_snoc, h, hm], by simp [flushVisit_snoc, h, hm]⟩

theorem visit_flushed {vs : List Name} {v : Name} (h : flushVisit M vs = none)
    (hn : fenceVisit M vs = none → M.Matches fenceFunctionName v = false)
    (hm : M.Matches flushFunctionName v = true) :
    fenceVisit M (vs ++ [v]) = fenceVisit M vs ∧ flushVisit M (vs ++ [v]) = some v :=
  ⟨fenceVisit_snoc_of_not hn, by simpa [flushVisit_snoc, h, hm] using hn⟩

theorem visit_passedBy {vs : List Name} {v : Name}
    (hn : fenceVisit M vs = none → M.Matches fenceFunctionName v = false)
    (hm : flushVisit M vs = none → M.Matches flushFunctionName v = false) :
    fenceVisit M (vs ++ [v]) = fenceVisit M vs ∧ flushVisit M (vs ++ [v]) = flushVisit M vs := by
  refine ⟨fenceVisit_snoc_of_not hn, ?_⟩
  cases hf : flushVisit M vs with
  | some u => simp [flushVisit_snoc, hf]
  | none => simp [flushVisit_snoc, hf, hm hf]

/-! ## One visit -/

theorem withCallbacks_name (dl : DataLayout) (a b : Bool) (F : Function) :
    (F.withCallbacks dl a b).name = F.name := by
  unfold Function.withCallbacks
  split <;> rfl

theorem withCallbacks_none (dl : DataLayout) (F : Function) :
    F.withCallbacks dl false false = F := by
  unfold Function.withCallbacks
  split
  · rfl
  · rename_i e bs hb
    simp [Function.prepend, ← hb]

theorem freshReg_prepend_fence {F : Function} {e : Block} {bs : List Block}
    (hb : F.blocks = e :: bs) : (F.prepend e bs fenceCallback).freshReg = F.freshReg := by
  simp [Function.freshReg, Function.regs, Function.prepend, hb, fenceCallback, Inst.regs,
    Callee.regs]

theorem withCallbacks_fence (dl : DataLayout) {F : Function} {e : Block} {bs : List Block}
    (hb : F.blocks = e :: bs) : F.prepend e bs fenceCallback = F.withCallbacks dl true false := by
  simp [Function.withCallbacks, hb]

/-- A flush callback goes in, possibly in front of a fence callback. -/
theorem withCallbacks_flush {dl : DataLayout} {F F₁ : Function} {a : Bool} {e : Block}
    {bs : List Block} {r : ℕ} {ty : Ty} {ps : List (ℕ × Ty)} (hF₁ : F₁ = F.withCallbacks dl a false)
    (hb : F₁.blocks = e :: bs) (hps : F₁.params = (r, ty) :: ps) :
    F₁.prepend e bs (flushGroup dl F₁.freshReg r ty) = F.withCallbacks dl a true := by
  subst hF₁
  cases hb₀ : F.blocks with
  | nil => simp [Function.withCallbacks, hb₀] at hb
  | cons e₀ bs₀ =>
    cases a with
    | false =>
      rw [withCallbacks_none] at hb hps ⊢
      rw [hb] at hb₀
      obtain ⟨rfl, rfl⟩ := List.cons.inj hb₀
      simp [Function.withCallbacks, hb, hps]
    | true =>
      rw [← withCallbacks_fence dl hb₀] at hb hps ⊢
      rw [freshReg_prepend_fence hb₀]
      simp only [Function.prepend, List.cons.injEq] at hb hps
      obtain ⟨rfl, rfl⟩ := hb
      simp [Function.withCallbacks, Function.prepend, hb₀, hps]

/-! ## Declarations -/

def declare (defined : Name → Bool) (decls : List (Name × FnTy)) (n : Name) (ty : FnTy) :
    List (Name × FnTy) :=
  if defined n ∨ n ∈ decls.map (·.1) then decls else decls ++ [(n, ty)]

def fenceFlushDecls (defined : Name → Bool) (intptrTy : Ty) (decls : List (Name × FnTy)) :
    List (Name × FnTy) :=
  declare defined (declare defined decls writeFenceTraceWrapper ⟨.void, []⟩) writeFlushTraceWrapper
    ⟨.void, [intptrTy]⟩

theorem getOrInsertFunction_decls (M : Module) (n : Name) (ty : FnTy) :
    (M.getOrInsertFunction n ty).decls = declare (fun n => (M.lookup n).isSome) M.decls n ty := by
  unfold Module.getOrInsertFunction declare
  split <;> rfl

theorem fenceFlushCallbacks_decls (M : Module) : (fenceFlushCallbacks M).decls =
    fenceFlushDecls (fun n => (M.lookup n).isSome) (getIntPtrTy M) M.decls := by
  have hd := Module.getOrInsertFunction_defs M writeFenceTraceWrapper ⟨.void, []⟩
  simp only [fenceFlushCallbacks, initializeFlushCallbacks, initializeFenceCallbacks,
    getOrInsertFunction_decls, fenceFlushDecls, Module.lookup, hd.1]

theorem fenceFlushDecls_idem (defined : Name → Bool) (ty : Ty) (decls : List (Name × FnTy)) :
    fenceFlushDecls defined ty (fenceFlushDecls defined ty decls) =
      fenceFlushDecls defined ty decls := by
  have hself : ∀ n ty decls, defined n = true ∨ n ∈ (declare defined decls n ty).map (·.1) := by
    intro n ty decls
    unfold declare
    split_ifs with h
    · exact h
    · simp
  have hmono : ∀ {m n ty decls}, (defined m = true ∨ m ∈ decls.map (·.1)) →
      defined m = true ∨ m ∈ (declare defined decls n ty).map (·.1) := by
    intro m n ty decls h
    unfold declare
    split_ifs
    · exact h
    · exact h.imp_right fun h => by simp only [List.map_append, List.mem_append]; exact .inl h
  set d := fenceFlushDecls defined ty decls with hd
  have hfence : defined writeFenceTraceWrapper = true ∨ writeFenceTraceWrapper ∈ d.map (·.1) :=
    hmono (hself _ _ _)
  have hflush : defined writeFlushTraceWrapper = true ∨ writeFlushTraceWrapper ∈ d.map (·.1) :=
    hself _ _ _
  have h₁ : declare defined d writeFenceTraceWrapper ⟨.void, []⟩ = d := if_pos hfence
  rw [fenceFlushDecls, h₁]
  exact if_pos hflush

/-! ## Visits -/

def Module.visited (M : Module) (vs : List Name) : List Function :=
  M.defs.map fun F => F.withCallbacks M.dataLayout (decide (fenceVisit M vs = some F.name))
    (decide (flushVisit M vs = some F.name))

/-- What the visits `vs` have done to the flags and the module. -/
structure Visited (M : Module) (vs : List Name) (once : Once) (M₁ : Module) : Prop where
  fence : once.fence = (fenceVisit M vs).isSome
  flush : once.flush = (flushVisit M vs).isSome
  dataLayout : M₁.dataLayout = M.dataLayout
  defs : M₁.defs = M.visited vs
  decls : M₁.decls = if vs.any fun v => (M.lookup v).isSome then (fenceFlushCallbacks M).decls
    else M.decls

theorem visited_names (M : Module) (vs : List Name) :
    (M.visited vs).map (·.name) = M.defs.map (·.name) := by
  simp [Module.visited, Function.comp_def, withCallbacks_name]

theorem Visited.isSome_lookup {vs : List Name} {once : Once} {M₁ : Module}
    (h : Visited M vs once M₁) (n : Name) : (M₁.lookup n).isSome = (M.lookup n).isSome := by
  rw [Bool.eq_iff_iff, isSome_lookup_iff, isSome_lookup_iff, h.defs, visited_names]

/-- A visited function of the module asks for the declarations once. -/
theorem Visited.callbacks_decls {vs : List Name} {once : Once} {M₁ : Module}
    (h : Visited M vs once M₁) :
    (fenceFlushCallbacks M₁).decls = (fenceFlushCallbacks M).decls := by
  have hdef : (fun n => (M₁.lookup n).isSome) = fun n => (M.lookup n).isSome :=
    funext h.isSome_lookup
  rw [fenceFlushCallbacks_decls, hdef, getIntPtrTy, h.dataLayout, h.decls]
  split_ifs
  · rw [fenceFlushCallbacks_decls]
    exact fenceFlushDecls_idem _ _ _
  · rw [fenceFlushCallbacks_decls]
    rfl

theorem visited_update {M : Module} (hn : (M.defs.map (·.name)).Nodup) {F₀ F' : Function}
    {vs vs' : List Name} (hF₀ : F₀ ∈ M.defs) (hname : F'.name = F₀.name)
    (hF' : F' = F₀.withCallbacks M.dataLayout (decide (fenceVisit M vs' = some F₀.name))
      (decide (flushVisit M vs' = some F₀.name)))
    (hfence : ∀ n ≠ F₀.name, fenceVisit M vs' = some n ↔ fenceVisit M vs = some n)
    (hflush : ∀ n ≠ F₀.name, flushVisit M vs' = some n ↔ flushVisit M vs = some n) :
    ((M.visited vs).map fun G => if G.name = F'.name then F' else G) = M.visited vs' := by
  unfold Module.visited
  rw [List.map_map]
  refine List.map_congr_left fun G hG => ?_
  simp only [Function.comp_apply, withCallbacks_name, hname]
  split_ifs with he
  · obtain rfl := List.inj_on_of_nodup_map hn hG hF₀ he
    exact hF'
  · simp only [hfence G.name he, hflush G.name he]

theorem Visited.exists_base {vs : List Name} {once : Once} {M₁ : Module}
    (h : Visited M vs once M₁) {F : Function} (hF : F ∈ M₁.defs) :
    ∃ F₀ ∈ M.defs, F.name = F₀.name ∧ F = F₀.withCallbacks M.dataLayout
      (decide (fenceVisit M vs = some F₀.name)) (decide (flushVisit M vs = some F₀.name)) := by
  rw [h.defs] at hF
  obtain ⟨F₀, hF₀, rfl⟩ := List.mem_map.mp hF
  exact ⟨F₀, hF₀, withCallbacks_name .., rfl⟩

/-- Before any fence callback is in, no flush callback is in a function that matches both. -/
theorem not_flushVisit_of_fence {vs : List Name} {n : Name} (h : fenceVisit M vs = none)
    (hc : Contains n fenceFunctionName) : flushVisit M vs ≠ some n := by
  intro hfl
  rw [flushVisit, h] at hfl
  have hdef : (M.lookup n).isSome = true := by
    have := List.find?_some hfl
    simp only [Module.Matches, Bool.and_eq_true] at this
    exact this.1
  have := List.find?_eq_none.mp h n (List.mem_of_find?_eq_some hfl)
  simp [Module.Matches, hdef, hc] at this

section
variable {vs : List Name} {once : Once} {M₁ : Module} {F : Function}

theorem Visited.defined (h : Visited M vs once M₁) (hF : F ∈ M₁.defs) :
    (M.lookup F.name).isSome = true := by
  rw [← h.isSome_lookup, isSome_lookup_iff]
  exact List.mem_map_of_mem hF

theorem Visited.matches_eq (h : Visited M vs once M₁) (hF : F ∈ M₁.defs) (p : Name) :
    M.Matches p F.name = decide (Contains F.name p) := by
  simp [Module.Matches, h.defined hF]

/-- A visit to a function asks for the declarations, whatever else it does. -/
theorem Visited.decls_eq (h : Visited M vs once M₁) (hF : F ∈ M₁.defs) :
    (fenceFlushCallbacks M₁).decls =
      if (vs ++ [F.name]).any fun v => (M.lookup v).isSome then (fenceFlushCallbacks M).decls
      else M.decls := by
  rw [h.callbacks_decls, if_pos (by simp [h.defined hF])]

theorem Visited.unknown (h : Visited M vs once M₁) {v : Name} (hl : M₁.lookup v = none) :
    Visited M (vs ++ [v]) once M₁ := by
  have hnone : (M.lookup v).isSome = false := by
    rw [← h.isSome_lookup, hl]
    rfl
  obtain ⟨h₁, h₂⟩ := visit_unknown hnone vs
  refine ⟨h₁ ▸ h.fence, h₂ ▸ h.flush, h.dataLayout, ?_, ?_⟩
  · simpa [Module.visited, h₁, h₂] using h.defs
  · simpa [hnone] using h.decls

theorem Visited.fenced (hM : M.WellFormed) (h : Visited M vs once M₁) (hF : F ∈ M₁.defs)
    (hc : Contains F.name fenceFunctionName) (ho : once.fence = false) {e : Block}
    {bs : List Block} (hb : F.blocks = e :: bs) :
    Visited M (vs ++ [F.name]) { once with fence := true }
      ((fenceFlushCallbacks M₁).update (F.prepend e bs fenceCallback)) := by
  have hfd := fenceFlushCallbacks_defs M₁
  have hmatch := h.matches_eq hF
  have hdecl := h.decls_eq hF
  obtain ⟨F₀, hF₀, hname, hF₀F⟩ := h.exists_base hF
  have hnone : fenceVisit M vs = none := by simpa [h.fence] using ho
  have hnot := not_flushVisit_of_fence (n := F₀.name) hnone (hname ▸ hc)
  obtain ⟨h₁, h₂⟩ := visit_fenced hnone (v := F.name) (by simp [hmatch, hc])
  simp only [hnone, hnot, decide_false, reduceCtorEq, withCallbacks_none] at hF₀F
  subst hF₀F
  refine ⟨by simp [h₁], h₂ ▸ h.flush, hfd.2.trans h.dataLayout, ?_, hdecl⟩
  simp only [Module.update, hfd.1, h.defs]
  refine visited_update hM.names_nodup hF₀ rfl ?_ (fun n hn => ?_) (fun n hn => by rw [h₂])
  · simp only [h₁, h₂, hnot, decide_true, decide_false]
    exact withCallbacks_fence _ hb
  · simp [h₁, hnone, hn.symm]

theorem Visited.flushed (hM : M.WellFormed) (h : Visited M vs once M₁) (hF : F ∈ M₁.defs)
    (hn : ¬ (Contains F.name fenceFunctionName ∧ once.fence = false))
    (hc : Contains F.name flushFunctionName) (ho : once.flush = false) {e : Block}
    {bs : List Block} {r : ℕ} {ty : Ty} {ps : List (ℕ × Ty)} (hps : F.params = (r, ty) :: ps)
    (hb : F.blocks = e :: bs) :
    Visited M (vs ++ [F.name]) { once with flush := true } ((fenceFlushCallbacks M₁).update
      (F.prepend e bs (flushGroup M₁.dataLayout F.freshReg r ty))) := by
  have hfd := fenceFlushCallbacks_defs M₁
  have hmatch := h.matches_eq hF
  have hdecl := h.decls_eq hF
  obtain ⟨F₀, hF₀, hname, hF₀F⟩ := h.exists_base hF
  have hnone : flushVisit M vs = none := by simpa [h.flush] using ho
  obtain ⟨h₁, h₂⟩ := visit_flushed hnone (not_matches_of_flag h.fence hn) (v := F.name)
    (by simp [hmatch, hc])
  simp only [hnone, decide_false, reduceCtorEq] at hF₀F
  refine ⟨h₁ ▸ h.fence, by simp [h₂], hfd.2.trans h.dataLayout, ?_, hdecl⟩
  simp only [Module.update, hfd.1, h.defs]
  refine visited_update hM.names_nodup hF₀ hname ?_ (fun n hn => by rw [h₁]) (fun n hn => ?_)
  · rw [h.dataLayout, withCallbacks_flush hF₀F hb hps, h₁, h₂, hname]
    simp
  · simp [h₂, hnone, hname ▸ hn.symm]

theorem Visited.passedBy (h : Visited M vs once M₁) (hF : F ∈ M₁.defs)
    (hn : ¬ (Contains F.name fenceFunctionName ∧ once.fence = false))
    (hm : ¬ (Contains F.name flushFunctionName ∧ once.flush = false)) :
    Visited M (vs ++ [F.name]) once (fenceFlushCallbacks M₁) := by
  have hfd := fenceFlushCallbacks_defs M₁
  obtain ⟨h₁, h₂⟩ :=
    visit_passedBy (not_matches_of_flag h.fence hn) (not_matches_of_flag h.flush hm)
  refine ⟨h₁ ▸ h.fence, h₂ ▸ h.flush, hfd.2.trans h.dataLayout, ?_, h.decls_eq hF⟩
  rw [hfd.1, h.defs]
  simp [Module.visited, h₁, h₂]

end

theorem Visited.step (hM : M.WellFormed) {vs : List Name} {v : Name} {once once' : Once}
    {M₁ M₂ : Module} (h : Visited M vs once M₁) (heff : PassEffect once M₁ (.fence v) once' M₂) :
    Visited M (vs ++ [v]) once' M₂ := by
  generalize hp : PassRun.fence v = p at heff
  cases heff with
  | unknown hl =>
    subst hp
    exact h.unknown hl
  | wrapper => simp at hp
  | stores => simp at hp
  | fence hF hc ho hb _ =>
    obtain rfl := PassRun.fence.inj hp
    exact h.fenced hM hF hc ho hb
  | flush hF hn hc ho hps hb _ =>
    obtain rfl := PassRun.fence.inj hp
    exact h.flushed hM hF hn hc ho hps hb
  | neither hF hn hm =>
    obtain rfl := PassRun.fence.inj hp
    exact h.passedBy hF hn hm

theorem runPasses_visited (hM : M.WellFormed) (hfl : FlushTakesAddress M) (vs : List Name) :
    ∃ once' M', runPasses (⟨false, false⟩, M) (vs.map .fence) = .ok (once', M') ∧
      Visited M vs once' M' := by
  have hstart : Visited M [] ⟨false, false⟩ M :=
    ⟨rfl, rfl, rfl, by simp [Module.visited, fenceVisit, flushVisit, withCallbacks_none], rfl⟩
  have hstep : ∀ done once₁ M₁ p once₂ M₂, M.Extends M₁ →
      (∀ us : List Name, done = us.map .fence → Visited M us once₁ M₁) →
      PassEffect once₁ M₁ p once₂ M₂ →
      ∀ us : List Name, done ++ [p] = us.map .fence → Visited M us once₂ M₂ := by
    intro done once₁ M₁ p once₂ M₂ _ hI heff us hus
    obtain ⟨us', us₁, rfl, rfl, hlast⟩ := List.map_eq_append_iff.mp hus.symm
    obtain ⟨v, rfl, rfl⟩ := List.map_eq_singleton_iff.mp hlast
    exact (hI us' rfl).step hM heff
  obtain ⟨once', M', hrun, -, hI⟩ := runPasses_induction hM (vs.map .fence) (fun _ _ => hfl)
    (I := fun done once M₁ => ∀ us : List Name, done = us.map .fence → Visited M us once M₁)
    ⟨false, false⟩ (fun us hus => by simp_all) hstep
  exact ⟨once', M', hrun, hI vs rfl⟩

/-! ## New calls -/

def callsIn (n : Name) (l : List Inst) : ℕ := l.countP fun i => i.directCallee == some n

def Function.callCount (n : Name) (F : Function) : ℕ :=
  (F.blocks.map fun b => callsIn n b.insts).sum

def Module.callCount (n : Name) (M : Module) : ℕ := (M.defs.map (Function.callCount n)).sum

@[simp] theorem callsIn_nil (n : Name) : callsIn n [] = 0 := rfl

theorem callsIn_append (n : Name) (l l' : List Inst) :
    callsIn n (l ++ l') = callsIn n l + callsIn n l' := List.countP_append

theorem prepend_callCount (n : Name) {F : Function} {e : Block} {bs : List Block}
    (hb : F.blocks = e :: bs) (new : List Inst) :
    (F.prepend e bs new).callCount n = F.callCount n + callsIn n new := by
  simp only [Function.callCount, Function.prepend, hb, List.map_cons, List.sum_cons,
    callsIn_append]
  omega

theorem fenceCallback_callsIn : callsIn writeFenceTraceWrapper fenceCallback = 1 ∧
    callsIn writeFlushTraceWrapper fenceCallback = 0 := by decide

theorem flushGroup_callsIn (dl : DataLayout) (fresh r : ℕ) (ty : Ty) :
    callsIn writeFenceTraceWrapper (flushGroup dl fresh r ty) = 0 ∧
      callsIn writeFlushTraceWrapper (flushGroup dl fresh r ty) = 1 := by
  have hne : (writeFlushTraceWrapper == writeFenceTraceWrapper) = false := by decide
  unfold flushGroup
  split_ifs
  · simp [callsIn, Inst.directCallee, hne]
  · simp [callsIn, Inst.directCallee, hne]

/-- A function has one call more for each callback that it has got. -/
theorem withCallbacks_callCount (dl : DataLayout) {F : Function} (hb : F.blocks ≠ [])
    (fence flush : Bool) (hflush : flush = true → F.params ≠ []) :
    (F.withCallbacks dl fence flush).callCount writeFenceTraceWrapper =
      F.callCount writeFenceTraceWrapper + fence.toNat ∧
    (F.withCallbacks dl fence flush).callCount writeFlushTraceWrapper =
      F.callCount writeFlushTraceWrapper + flush.toNat := by
  obtain ⟨hfence₁, hfence₂⟩ := fenceCallback_callsIn
  obtain ⟨e, bs, hb⟩ := List.exists_cons_of_ne_nil hb
  simp only [Function.withCallbacks, hb, prepend_callCount _ hb, callsIn_append]
  cases flush with
  | false => cases fence <;> simp [hfence₁, hfence₂]
  | true =>
    obtain ⟨p, ps, hps⟩ := List.exists_cons_of_ne_nil (hflush rfl)
    obtain ⟨hflush₁, hflush₂⟩ := flushGroup_callsIn dl F.freshReg p.1 p.2
    cases fence <;> simp [hps, hflush₁, hflush₂, hfence₁, hfence₂]

/-- Names are unique, so that at most one function is that of the visit. -/
theorem sum_visited {M : Module} (hn : (M.defs.map (·.name)).Nodup) (f : Function → ℕ)
    {visit : Option Name} (hvisit : ∀ v ∈ visit, v ∈ M.defs.map (·.name)) :
    (M.defs.map fun F => f F + (decide (visit = some F.name)).toNat).sum =
      (M.defs.map f).sum + visit.isSome.toNat := by
  rw [List.sum_map_add]
  congr 1
  cases visit with
  | none => simp
  | some v =>
    have hcount : ∀ fs : List Function,
        (fs.map fun F => (decide (some v = some F.name)).toNat).sum =
          (fs.map (·.name)).count v := by
      intro fs
      induction fs with
      | nil => rfl
      | cons F fs ih =>
        rw [List.map_cons, List.sum_cons, ih, List.map_cons, List.count_cons, Nat.add_comm]
        congr 1
        by_cases h : v = F.name
        · simp [h]
        · simp [h, Ne.symm h]
    rw [hcount, List.count_eq_one_of_mem hn (hvisit v rfl)]
    rfl

theorem Matches.exists_function {p n : Name} (h : M.Matches p n = true) :
    Contains n p ∧ ∃ F ∈ M.defs, F.name = n := by
  simp only [Module.Matches, Bool.and_eq_true, decide_eq_true_eq] at h
  obtain ⟨F, hF⟩ := Option.isSome_iff_exists.mp h.1
  exact ⟨h.2, F, Module.lookup_mem hF⟩

theorem Visited.callCount {M M' : Module} (hM : M.WellFormed) (hfl : FlushTakesAddress M)
    {vs : List Name} {once : Once} (h : Visited M vs once M') :
    M'.callCount writeFenceTraceWrapper =
      M.callCount writeFenceTraceWrapper + (fenceVisit M vs).isSome.toNat ∧
    M'.callCount writeFlushTraceWrapper =
      M.callCount writeFlushTraceWrapper + (flushVisit M vs).isSome.toNat := by
  have hnames : ∀ {p : Name} {us : List Name}, ∀ v ∈ us.find? (M.Matches p),
      v ∈ M.defs.map (·.name) := by
    intro p us v hv
    obtain ⟨-, F, hF, rfl⟩ := Matches.exists_function (List.find?_some hv)
    exact List.mem_map_of_mem hF
  have hcount := fun (F : Function) (hF : F ∈ M.defs) =>
    withCallbacks_callCount M.dataLayout (hM.functions F hF).blocks_ne_nil
      (decide (fenceVisit M vs = some F.name)) (decide (flushVisit M vs = some F.name))
      fun hsome => by
        -- a function that gets the flush callback takes an address
        have hmatch := List.find?_some (of_decide_eq_true hsome)
        obtain ⟨r, ty, ps, hps, -⟩ := hfl F hF (Matches.exists_function hmatch).1
        simp [hps]
  simp only [Module.callCount, h.defs, Module.visited, List.map_map]
  constructor
  · calc (M.defs.map _).sum
        = (M.defs.map fun F => F.callCount writeFenceTraceWrapper +
            (decide (fenceVisit M vs = some F.name)).toNat).sum :=
          congrArg List.sum (List.map_congr_left fun F hF => (hcount F hF).1)
      _ = _ := sum_visited hM.names_nodup _ hnames
  · calc (M.defs.map _).sum
        = (M.defs.map fun F => F.callCount writeFlushTraceWrapper +
            (decide (flushVisit M vs = some F.name)).toNat).sum :=
          congrArg List.sum (List.map_congr_left fun F hF => (hcount F hF).2)
      _ = _ := sum_visited hM.names_nodup _ hnames

/-! ## Order of the visits -/

/-- Every fence and every flush function has its callback. -/
def Module.withCallbacks (M : Module) : Module where
  dataLayout := M.dataLayout
  decls := (fenceFlushCallbacks M).decls
  defs := M.defs.map fun F => F.withCallbacks M.dataLayout
    (decide (Contains F.name fenceFunctionName)) (decide (Contains F.name flushFunctionName))

theorem Module.matches_of_mem {F : Function} (hF : F ∈ M.defs) {p : Name} (h : Contains F.name p) :
    M.Matches p F.name = true := by
  have : (M.lookup F.name).isSome = true := isSome_lookup_iff.mpr (List.mem_map_of_mem hF)
  simp [Module.Matches, this, h]

theorem fenceVisit_iff (hm : DistinctMatches M) {vs : List Name} {F : Function} (hF : F ∈ M.defs)
    (hv : F.name ∈ vs) : fenceVisit M vs = some F.name ↔ Contains F.name fenceFunctionName := by
  constructor
  · exact fun h => (Matches.exists_function (fenceVisit_eq_some h).2).1
  · intro hc
    obtain ⟨u, hu⟩ := Option.isSome_iff_exists.mp
      (List.find?_isSome.mpr ⟨F.name, hv, Module.matches_of_mem hF hc⟩)
    obtain ⟨hcu, G, hG, rfl⟩ := Matches.exists_function (List.find?_some hu)
    rw [fenceVisit, hu, hm.fence G hG F hF hcu hc]

theorem flushVisit_iff (hm : DistinctMatches M) {vs : List Name} {F : Function} (hF : F ∈ M.defs)
    (hv : F.name ∈ vs) : flushVisit M vs = some F.name ↔ Contains F.name flushFunctionName := by
  constructor
  · exact fun h => (Matches.exists_function (List.find?_some h)).1
  · intro hc
    have hv' : F.name ∈ (fenceVisit M vs).elim vs vs.erase := by
      cases hf : fenceVisit M vs with
      | none => exact hv
      | some u =>
        -- the fence function is another one, so that its visit does not count here
        have hcu := (Matches.exists_function (fenceVisit_eq_some hf).2).1
        have hne : F.name ≠ u := fun h => hm.apart F hF (h ▸ hcu) hc
        exact (List.mem_erase_of_ne hne).mpr hv
    obtain ⟨u, hu⟩ := Option.isSome_iff_exists.mp
      (List.find?_isSome.mpr ⟨F.name, hv', Module.matches_of_mem hF hc⟩)
    obtain ⟨hcu, G, hG, rfl⟩ := Matches.exists_function (List.find?_some hu)
    rw [flushVisit, hu, hm.flush G hG F hF hcu hc]

/-- The visits of the fence pass put one callback into the fence function visited first and one
into the flush function visited first, and leave all others alone. Where at most one function
matches each pattern and none matches both, every match gets its callback, and the order and the
number of the visits make no difference. -/
theorem runPasses_fence_visits (hM : M.WellFormed) (hfl : FlushTakesAddress M) (vs : List Name) :
    ∃ once' M', runPasses (⟨false, false⟩, M) (vs.map .fence) = .ok (once', M') ∧
      (M'.defs = M.defs.map fun F => F.withCallbacks M.dataLayout
        (decide (fenceVisit M vs = some F.name)) (decide (flushVisit M vs = some F.name))) ∧
      M'.callCount writeFenceTraceWrapper =
        M.callCount writeFenceTraceWrapper + (fenceVisit M vs).isSome.toNat ∧
      M'.callCount writeFlushTraceWrapper =
        M.callCount writeFlushTraceWrapper + (flushVisit M vs).isSome.toNat ∧
      (DistinctMatches M → M.defs ≠ [] → (∀ F ∈ M.defs, F.name ∈ vs) → M' = M.withCallbacks) := by
  obtain ⟨once', M', hrun, h⟩ := runPasses_visited hM hfl vs
  obtain ⟨hfence, hflush⟩ := h.callCount hM hfl
  refine ⟨once', M', hrun, h.defs, hfence, hflush, fun hm hne hall => ?_⟩
  obtain ⟨F, hF⟩ := List.exists_mem_of_ne_nil _ hne
  have hany : (vs.any fun v => (M.lookup v).isSome) = true :=
    List.any_eq_true.mpr ⟨F.name, hall F hF, isSome_lookup_iff.mpr (List.mem_map_of_mem hF)⟩
  have hdefs : M'.defs = M.withCallbacks.defs := by
    rw [h.defs]
    refine List.map_congr_left fun G hG => ?_
    simp only [fenceVisit_iff hm hG (hall G hG), flushVisit_iff hm hG (hall G hG)]
  have hdecls : M'.decls = M.withCallbacks.decls := by rw [h.decls, if_pos hany]; rfl
  obtain ⟨dl, decls, defs⟩ := M'
  obtain rfl : dl = M.dataLayout := h.dataLayout
  obtain rfl : decls = M.withCallbacks.decls := hdecls
  obtain rfl : defs = M.withCallbacks.defs := hdefs
  rfl

namespace Driver

theorem program_fence_visits : ∃ once' M',
    runPasses (⟨false, false⟩, program)
      (["nova_write_block", "nova_flush_buffer", "PERSISTENT_BARRIER"].map .fence) =
        .ok (once', M') ∧ M' = program.withCallbacks ∧
    M'.callCount writeFenceTraceWrapper = program.callCount writeFenceTraceWrapper + 1 ∧
    M'.callCount writeFlushTraceWrapper = program.callCount writeFlushTraceWrapper + 1 := by
  obtain ⟨once', M', hrun, -, hfence, hflush, h⟩ :=
    runPasses_fence_visits wellFormed flushTakesAddress
    ["nova_write_block", "nova_flush_buffer", "PERSISTENT_BARRIER"]
  exact ⟨once', M', hrun, h ⟨by decide, by decide, by decide⟩ (by decide) (by decide), hfence,
    hflush⟩

/-- A copy of the fence function, as inlining and cloning make them. -/
def barrierClone : Function := { barrier with name := "PERSISTENT_BARRIER.1" }

def cloned : Module := ⟨program.dataLayout, [], [barrier, barrierClone]⟩

def flushAll : Function := { barrier with name := "nova_flush_buffer_all" }

def argumentless : Module := ⟨program.dataLayout, [], [flushAll]⟩

theorem renamed_wellFormed (n : Name) : Function.WellFormed { barrier with name := n } := by
  have hb := wellFormed.functions barrier (by simp [program])
  exact ⟨hb.1, hb.2, hb.3, hb.4, hb.5, hb.6, hb.7⟩

theorem cloned_wellFormed : cloned.WellFormed := by
  refine ⟨by decide, ?_⟩
  simp only [cloned, List.mem_cons, List.not_mem_nil, or_false]
  rintro F (rfl | rfl)
  · exact renamed_wellFormed barrier.name
  · exact renamed_wellFormed barrierClone.name

theorem argumentless_wellFormed : argumentless.WellFormed := by
  refine ⟨by decide, ?_⟩
  simp only [argumentless, List.mem_singleton, forall_eq]
  exact renamed_wellFormed flushAll.name

/-- The clone visited last stays as it was, and which one that is depends on the order. A flush
function without an argument cannot be instrumented. -/
theorem matches_not_instrumented : cloned.WellFormed ∧
    (runPasses (⟨false, false⟩, cloned)
        [.fence barrier.name, .fence barrierClone.name]).toOption.map (·.2.defs) =
      some [barrier.withCallbacks program.dataLayout true false, barrierClone] ∧
    (runPasses (⟨false, false⟩, cloned)
        [.fence barrierClone.name, .fence barrier.name]).toOption.map (·.2.defs) =
      some [barrier, barrierClone.withCallbacks program.dataLayout true false] ∧
    barrier.withCallbacks program.dataLayout true false ≠ barrier ∧
    argumentless.WellFormed ∧
    (runPasses (⟨false, false⟩, argumentless) [.fence flushAll.name]).isOk = false :=
  ⟨cloned_wellFormed, by decide +kernel, by decide +kernel, by decide, argumentless_wellFormed,
    by decide +kernel⟩

end Driver

end Squint.IR
