import Squint.IR.LegacyExactness

/-! Announced flushes against entries of flush functions. The older pass goes by the name of the
called operand and looks at call instructions only, so that the two agree as long as an execution
enters flush functions by calls of that name, and nothing else by them. -/
namespace Squint.IR.Legacy

variable {W : Type} (E : Env W) (dl : DataLayout)

def entersFlush (ρ : ℕ → ℕ) (i : Inst) : Bool :=
  (i.transfer? E dl ρ).any fun x => Contains x.1 flushFunctionName

def flushCall : Inst → Bool
  | .call _ c (_ :: _) => Contains (calledName c) flushFunctionName
  | _ => false

/-- The pass takes for a flush what is one. -/
def Faithful (e : Executed) : Prop :=
  isWrapper e.fn = true ∨ flushCall e.inst = entersFlush E dl e.regs e.inst

instance : DecidablePred (Faithful E dl) := fun _ => inferInstanceAs (Decidable (_ ∨ _))

/-- What the entry of a flush function from a function that is not a wrapper calls for. -/
def flushTransfer? (e : Executed) : Option Announcement :=
  if !isWrapper e.fn && entersFlush E dl e.regs e.inst then
    some (writeFlushTraceWrapper, ((e.inst.call?.bind (·.2.head?)).map
      (·.asInteger E dl e.regs)).toList)
  else none

/-- The transfers of control into flush functions, on one level of tracing. -/
def flushTransfers (n : ℕ) (L : List Executed) : List Announcement :=
  (L.filter fun e => e.tracing = n).filterMap (flushTransfer? E dl)

def isFlush (x : Announcement) : Bool := x.1 == writeFlushTraceWrapper

/-- The calls of the flush wrapper from functions that are not wrappers, on one level of tracing. -/
def flushCalls (n : ℕ) (L : List Executed) : List Announcement :=
  ((rolesAt E dl sites n L).filterMap (·.bind Role.called?)).filter isFlush

variable {E dl}

theorem due_filter_isFlush (ρ : ℕ → ℕ) (i : Inst) : (due E dl sites ρ i).filter isFlush =
    if flushCall i then some (writeFlushTraceWrapper, ((i.call?.bind (·.2.head?)).map
      (·.asInteger E dl ρ)).toList) else none := by
  unfold due
  split
  · simp [sites, isFlush, flushCall, Option.filter, writeFenceTraceWrapper, writeFlushTraceWrapper]
  · simp [isFlush, flushCall, Option.filter, writeStoreTraceWrapper, writeFlushTraceWrapper]
  · rename_i d c a rest
    by_cases hc : Contains (calledName c) flushFunctionName
    · simp [hc, sites, isFlush, flushCall, Option.filter, Inst.call?]
    · simp [hc, sites, flushCall]
  · rename_i h
    have hnot : flushCall i = false := by
      cases i with
      | call d c args =>
        cases args with
        | nil => rfl
        | cons a rest => exact absurd rfl (h d c a rest)
      | _ => rfl
    simp [hnot]

theorem entersFlush_of_wrapper {ρ : ℕ → ℕ} {i : Inst} {x : Name × List ℕ}
    (h : (i.transfer? E dl ρ).filter (isWrapper ·.1) = some x) : entersFlush E dl ρ i = false := by
  obtain ⟨hx, hw⟩ := Option.filter_eq_some_iff.mp h
  simp [entersFlush, hx, not_contains_of_isWrapper hw]

theorem role_due_eq {e : Executed} (h : Faithful E dl e) :
    ((role E dl sites e).bind Role.due?).filter isFlush = flushTransfer? E dl e := by
  unfold role flushTransfer?
  cases hw : isWrapper e.fn with
  | true => rfl
  | false =>
    have hf : flushCall e.inst = entersFlush E dl e.regs e.inst := h.resolve_left (by simp [hw])
    simp only [Bool.false_eq_true, if_false, Bool.not_false, Bool.true_and]
    cases hx : (e.inst.transfer? E dl e.regs).filter (isWrapper ·.1) with
    | some x => simp [entersFlush_of_wrapper hx, Role.due?]
    | none =>
      have hbind : ((due E dl sites e.regs e.inst).map Role.target).bind Role.due? =
          due E dl sites e.regs e.inst := by
        cases due E dl sites e.regs e.inst <;> rfl
      simp only [hbind, due_filter_isFlush, hf]

/-- After the pass has run once on every function, and in every execution that enters flush
functions by just those instructions that the pass takes for flushes: on each level of tracing the
calls of the flush wrapper are, one for one and in order, the transfers of control into flush
functions, with their first arguments. One transfer may be still to come where the execution is
looked at; none is on a level that is left, or once the execution has ended. -/
theorem flushCalls_eq_transfers {M M' : Module} (hM : M.WellFormed)
    (hcalls : ∀ F ∈ M.defs, isWrapper F.name = false → ∀ b ∈ F.blocks, ∀ i ∈ b.insts,
      NoWrapperCall i)
    {vs : List Name} (hvs : ∀ F ∈ M.defs, vs.count F.name = 1)
    (hrun : runOn sites M vs = .ok M') (hE : WrappersReturn E M) {f : Name} {F : Function}
    (hF : M'.lookup f = some F) {args : List ℕ} {w : W} {k : ℕ} {s : State W} {L : List Executed}
    (hL : Lib.runFor (watch E M') k (start F args w) = some (s, L))
    (hfaith : ∀ e ∈ L, Faithful E M'.dataLayout e) :
    ∃ last : ℕ → List Announcement, ∀ n, (last n).length ≤ 1 ∧
      (s.stack = [] ∨ tracing s.stack < n → last n = []) ∧
      flushCalls E M'.dataLayout n L = flushTransfers E M'.dataLayout n L ++ last n := by
  obtain ⟨owed, hann, hn⟩ := runOn_announces hM hcalls hvs hrun hE hF hL
  refine ⟨fun n => ((owed n).filterMap (·.bind Role.due?)).filter isFlush, fun n => ?_⟩
  obtain ⟨hcases, hended⟩ := hn n
  refine ⟨?_, fun hs => by simp [hended hs], ?_⟩
  · rcases hcases with h | ⟨x, h⟩
    · simp [h]
    · simpa [h, Role.due?] using List.length_filter_le isFlush [x]
  · obtain ⟨acts, hacts⟩ := hann n
    have heq := flatMap_roles_called_eq acts
    rw [← hacts, List.filterMap_append, List.filterMap_append] at heq
    have howed : (owed n).filterMap (·.bind Role.called?) = [] := by
      rcases hcases with h | ⟨x, h⟩ <;> simp [h, Role.called?]
    rw [howed, List.append_nil] at heq
    have htransfers : flushTransfers E M'.dataLayout n L =
        ((rolesAt E M'.dataLayout sites n L).filterMap (·.bind Role.due?)).filter isFlush := by
      rw [rolesAt, List.filterMap_map, List.filter_filterMap]
      exact List.filterMap_congr fun e he =>
        (role_due_eq (hfaith e (List.mem_of_mem_filter he))).symm
    rw [flushCalls, rolesAt, heq, List.filter_append, htransfers]
    rfl

end Squint.IR.Legacy

namespace Squint.IR.Driver

open Legacy (sites)

/-- The test program enters its flush function by a call of that name. -/
theorem use_flushes : ∃ M' F s L, ∃ last : ℕ → List Announcement,
    Legacy.runOn sites testFence (testFence.defs.map (·.name)) = .ok M' ∧
    M'.lookup "_Z3usev" = some F ∧
    Lib.runFor (watch machine M') 14 (start F [] []) = some (s, L) ∧
    ∀ n, Legacy.flushCalls machine M'.dataLayout n L =
      Legacy.flushTransfers machine M'.dataLayout n L ++ last n := by
  have hfaith : (Legacy.trace machine testFence (testFence.defs.map (·.name)) "_Z3usev" [] []
      14).any (fun L => decide (∀ e ∈ L, Legacy.Faithful machine testFence.dataLayout e)) =
      true := by
    decide +kernel
  obtain ⟨L, hL, hfaith⟩ := (Option.any_eq_true _ _).mp hfaith
  obtain ⟨M', hrun⟩ : ∃ M', Legacy.runOn sites testFence (testFence.defs.map (·.name)) = .ok M' :=
    ⟨_, rfl⟩
  obtain ⟨F, s, hF, hexec⟩ := Legacy.run_of_trace hL hrun
  have hvs : ∀ F ∈ testFence.defs, (testFence.defs.map (·.name)).count F.name = 1 := by decide
  have hd := (Legacy.runOn_woven testFence_wellFormed.names_nodup hvs hrun).1
  obtain ⟨last, hlast⟩ := Legacy.flushCalls_eq_transfers testFence_wellFormed
    testFence_noWrapperCall hvs hrun ⟨by simp [machine], by simp [machine], by decide⟩ hF hexec
    (by rw [hd]; exact of_decide_eq_true hfaith)
  exact ⟨M', F, s, L, last, hrun, hF, hexec, fun n => (hlast n).2.2⟩

/-- Calls a flush function through a pointer without a name, another function through a pointer
that has a flush function's name, and a flush function where exceptions may come back. -/
def misled : Function where
  name := "misled"
  params := [(0, .ptr (.named "void (i32*)") 0), (1, .ptr (.named "void (i32*)") 0)]
  nounwind := false
  blocks := [
    ⟨0, [
      .call none (.value (.reg 0 (.ptr (.named "void (i32*)") 0)) "")
        [.const (.literal 10 (.ptr (.int 32) 0))],
      .call none (.value (.reg 1 (.ptr (.named "void (i32*)") 0)) "nvdimm_flush_fn")
        [.const (.literal 20 (.ptr (.int 32) 0))],
      .term (.invoke none (.fn "_Z12nvdimm_flushRi")
        [.const (.literal 30 (.ptr (.int 32) 0))] 1 2)]⟩,
    ⟨1, [.term (.ret none)]⟩,
    ⟨2, [.op none .landingPad [], .term (.ret none)]⟩]

def misleading : Module :=
  { testFence with
    defs := [printing "_Z12nvdimm_flushRi", printing "_Z14volatile_flushRi", misled] }

def linkedMachine : Env (List (ℕ × ℕ)) :=
  { machine with functionAt := fun a =>
      if a = 1 then some "_Z12nvdimm_flushRi"
      else if a = 2 then some "_Z14volatile_flushRi" else none }

theorem misleading_wellFormed : misleading.WellFormed := by
  refine ⟨by decide, ?_⟩
  simp only [misleading, List.mem_cons, List.not_mem_nil, or_false]
  rintro F (rfl | rfl | rfl)
  · exact printing_wellFormed _
  · exact printing_wellFormed _
  · refine ⟨by decide, by decide, by decide, ?_, by decide, by decide, by simp [misled]⟩
    simp only [misled, List.mem_cons, List.not_mem_nil, or_false, forall_eq_or_imp, forall_eq]
    exact ⟨shaped_of_body [_, _] (by decide), shaped_of_body [] (by decide),
      shaped_of_body [_] (by decide)⟩

/-- Calls its flush function and, if `announce` says so, announces that itself. -/
def flushing (announce : Bool) : Function where
  name := "flushing"
  params := [(0, .ptr (.int 32) 0)]
  nounwind := false
  blocks := [⟨0,
    (if announce then [.call none (.fn writeFlushTraceWrapper) [.const (.int 64 7)]] else []) ++
      [.call none (.fn "_Z12nvdimm_flushRi") [.reg 0 (.ptr (.int 32) 0)], .term (.ret none)]⟩]

/-- A flush wrapper that may call a flush function itself. -/
def flushingWrapper : Function where
  name := writeFlushTraceWrapper
  params := [(0, .int 64)]
  nounwind := true
  blocks := [⟨0, [.call none (.fn "squint_sync") [], .term (.ret none)]⟩]

def sync : Function where
  name := "squint_sync"
  params := []
  nounwind := true
  blocks := [
    ⟨0, [.op (some 0) (.load (.int 1)) [], .term (.condBr (.reg 0 (.int 1)) 1 2)]⟩,
    ⟨1, [.call none (.fn "_Z12nvdimm_flushRi") [.const (.literal 128 (.ptr (.int 32) 0))],
      .term (.br 2)]⟩,
    ⟨2, [.term (.ret none)]⟩]

/-- Calls `flushing` and catches what comes out of it. -/
def tryFlush : Function where
  name := "try_flush"
  params := [(0, .ptr (.int 32) 0)]
  nounwind := true
  blocks := [
    ⟨0, [.term (.invoke none (.fn "flushing") [.reg 0 (.ptr (.int 32) 0)] 1 2)]⟩,
    ⟨1, [.term (.ret none)]⟩,
    ⟨2, [.op none .landingPad [], .term (.ret none)]⟩]

def flushModule (announce : Bool) (more : List Function) : Module :=
  { testFence with defs := printing "_Z12nvdimm_flushRi" :: flushing announce :: more }

theorem flushModule_wellFormed {announce : Bool} {more : List Function}
    (hn : ((flushModule announce more).defs.map (·.name)).Nodup)
    (hmore : ∀ F ∈ more, F.WellFormed) : (flushModule announce more).WellFormed := by
  refine ⟨hn, ?_⟩
  simp only [flushModule, List.mem_cons]
  rintro F (rfl | rfl | hF)
  · exact printing_wellFormed _
  · cases announce with
    | false =>
      refine ⟨by decide, by decide, by decide, ?_, by decide, by decide, by simp [flushing]⟩
      simp only [flushing, List.mem_singleton, forall_eq]
      exact shaped_of_body [_] (by decide)
    | true =>
      refine ⟨by decide, by decide, by decide, ?_, by decide, by decide, by simp [flushing]⟩
      simp only [flushing, List.mem_singleton, forall_eq]
      exact shaped_of_body [_, _] (by decide)
  · exact hmore F hF

theorem sync_wellFormed : sync.WellFormed := by
  refine ⟨by decide, by decide, by decide, ?_, by decide, by decide, by simp [sync]⟩
  simp only [sync, List.mem_cons, List.not_mem_nil, or_false, forall_eq_or_imp, forall_eq]
  exact ⟨shaped_of_body [_] (by decide), shaped_of_body [_] (by decide),
    shaped_of_body [] (by decide)⟩

theorem flushingWrapper_wellFormed : flushingWrapper.WellFormed := by
  refine ⟨by decide, by decide, by decide, ?_, by decide, by decide, by simp [flushingWrapper]⟩
  simp only [flushingWrapper, List.mem_singleton, forall_eq]
  exact shaped_of_body [_] (by decide)

theorem tryFlush_wellFormed : tryFlush.WellFormed := by
  refine ⟨by decide, by decide, by decide, ?_, by decide, by decide, by simp [tryFlush]⟩
  simp only [tryFlush, List.mem_cons, List.not_mem_nil, or_false, forall_eq_or_imp, forall_eq]
  exact ⟨shaped_of_body [] (by decide), shaped_of_body [] (by decide),
    shaped_of_body [_] (by decide)⟩

/-- The flushes announced and the transfers into flush functions in a run, over all levels. -/
def legacyFlushes {W : Type} (E : Env W) (M : Module) (f : Name) (args : List ℕ) (w : W) (n : ℕ) :
    Option (List Announcement × List Announcement) :=
  (Legacy.trace E M (M.defs.map (·.name)) f args w n).map fun L =>
    ((L.filterMap fun e => (Legacy.role E M.dataLayout sites e).bind Legacy.Role.called?).filter
      Legacy.isFlush, L.filterMap (Legacy.flushTransfer? E M.dataLayout))

/-- Two entries of the flush function go unannounced, and one flush is announced where another
function is entered. The module may announce flushes of its own, a wrapper that flushes is called in
between, and a wrapper that throws keeps the flush from coming. -/
theorem misled_flushes :
    (misleading.WellFormed ∧ legacyFlushes linkedMachine misleading "misled" [1, 2] [] 11 =
      some ([(writeFlushTraceWrapper, [20])],
        [(writeFlushTraceWrapper, [10]), (writeFlushTraceWrapper, [30])])) ∧
    ((flushModule true []).WellFormed ∧
      legacyFlushes machine (flushModule true []) "flushing" [64] [] 6 =
        some ([(writeFlushTraceWrapper, [7]), (writeFlushTraceWrapper, [64])],
          [(writeFlushTraceWrapper, [64])])) ∧
    ((flushModule false [flushingWrapper, sync]).WellFormed ∧
      legacyFlushes countdown (flushModule false [flushingWrapper, sync]) "flushing" [64] 1 21 =
        some ([(writeFlushTraceWrapper, [64]), (writeFlushTraceWrapper, [128])],
          [(writeFlushTraceWrapper, [128]), (writeFlushTraceWrapper, [64])])) ∧
    (flushModule false [tryFlush]).WellFormed ∧
      legacyFlushes throwing (flushModule false [tryFlush]) "try_flush" [64] 0 5 =
        some ([(writeFlushTraceWrapper, [64])], []) := by
  refine ⟨⟨misleading_wellFormed, by decide +kernel⟩,
    ⟨flushModule_wellFormed (by decide) (by simp), by decide +kernel⟩,
    ⟨flushModule_wellFormed (by decide) ?_, by decide +kernel⟩,
    flushModule_wellFormed (by decide) ?_, by decide +kernel⟩
  · simp only [List.mem_cons, List.not_mem_nil, or_false]
    rintro F (rfl | rfl)
    · exact flushingWrapper_wellFormed
    · exact sync_wellFormed
  · simpa using tryFlush_wellFormed

end Squint.IR.Driver
