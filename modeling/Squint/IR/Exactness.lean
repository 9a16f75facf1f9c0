import Squint.IR.Acts

/-! The sequence of wrapper calls is the sequence of stores, fences and flushes: but for what the
wrappers themselves do, every store is directly preceded by its call, every entry of the fence or
flush function directly followed by its call, and there are no other calls. -/
namespace Squint.IR

section
variable {W : Type} {E : Env W} {M : Module}

theorem Onward.tail {f : Frame} {i : Inst} {rest : List Inst} (h : Onward f)
    (hr : f.rest = i :: rest) (ρ : ℕ → ℕ) : Onward { f with rest := rest, regs := ρ } :=
  fun e he => ⟨fun j hj => (h e he).1 j (by simp [hr, hj]), (h e he).2⟩

theorem Inside.tail {dl : DataLayout} {f : Frame} {i : Inst} {rest : List Inst} (h : Inside dl f)
    (hr : f.rest = i :: rest) (ρ : ℕ → ℕ) : Inside dl { f with rest := rest, regs := ρ } :=
  ⟨h.ordered, h.not_wrapper, h.onward.tail hr ρ⟩

theorem Inside.stopped {dl : DataLayout} {f : Frame} (h : Inside dl f) :
    Inside dl { f with wait := .running } :=
  ⟨h.ordered, h.not_wrapper, fun e he => ⟨(h.onward e he).1, by simp [Wait.targets]⟩⟩

theorem Inside.calm {dl : DataLayout} {f : Frame} (h : Inside dl f)
    (hg : Guarded dl NoWrapperCall f.rest) : Calm dl f :=
  ⟨h.ordered, .inr ⟨hg, h.onward⟩⟩

theorem assign_of_not_mem {ρ : ℕ → ℕ} {vals : List (ℕ × ℕ)} {r : ℕ} (h : r ∉ vals.map (·.1)) :
    assign ρ vals r = ρ r := by
  induction vals generalizing ρ with
  | nil => rfl
  | cons p vals ih =>
    simp only [List.map_cons, List.mem_cons, not_or] at h
    refine (ih h.2).trans ?_
    exact Function.update_of_ne h.1 _ _

theorem enter_regs {F : Function} {r : ℕ} {ty : Ty} {ps : List (ℕ × Ty)}
    (hps : F.params = (r, ty) :: ps) (hn : (F.params.map (·.1)).Nodup) (args : List ℕ) :
    (F.enter args).regs r = args.headD 0 := by
  simp only [Function.enter, hps]
  rw [hps, List.map_cons, List.nodup_cons] at hn
  cases args with
  | nil => rfl
  | cons a args =>
    have hrest : r ∉ ((ps.map (·.1)).zip args).map (·.1) := fun h => by
      obtain ⟨p, hp, rfl⟩ := List.mem_map.mp h
      exact hn.1 (List.of_mem_zip hp).1
    exact (assign_of_not_mem hrest).trans (by simp)

theorem entryAnnouncement_wrapper {n : Name} (h : isWrapper n = true) (args : List ℕ) :
    entryAnnouncement M n args = none := by
  have hnot : ∀ {p : Name}, p = fenceFunctionName ∨ p = flushFunctionName → ¬ Contains n p := by
    rintro p (rfl | rfl) hc
    · simp [not_isWrapper_of_contains (.inl hc)] at h
    · simp [not_isWrapper_of_contains (.inr hc)] at h
  simp [entryAnnouncement, hnot (.inl rfl), hnot (.inr rfl)]

theorem enter_top {n : Name} {G : Function} (hG : M.lookup n = some G)
    (ho : Ordered M.dataLayout G) (args : List ℕ) (K : List Frame) :
    ∃ o act, Top E M (G.enter args) o ∧
      (logAt (G.enter args :: K) (.enter args)).mark M :: o = Act.marks act := by
  obtain ⟨-, rfl⟩ := Module.lookup_mem hG
  have hmark : (logAt (G.enter args :: K) (.enter args)).mark M =
      (entryAnnouncement M G.name args).map .entry := rfl
  rw [hmark]
  cases hw : isWrapper G.name with
  | true =>
    refine ⟨[], .other, .calm (.of_wrapper hw), ?_⟩
    simp [entryAnnouncement_wrapper hw, Act.marks]
  | false =>
    obtain ⟨e, bs, new, l, hp⟩ := ho.resolve_left (by simp [hw])
    have hrest : (G.enter args).rest = new ++ l := by simp [Function.enter, hp.blocks, hp.entry]
    have hin : Inside M.dataLayout (G.enter args) := by
      refine ⟨ho, hw, fun e' he' => ⟨fun i hi => ?_, by simp [Function.enter, Wait.targets]⟩⟩
      obtain rfl : e = e' := by simpa [Function.enter, hp.blocks] using he'
      rw [hrest, ← hp.entry] at hi
      exact hp.not_target e (by simp [hp.blocks]) i hi
    have hg := hp.guarded l (by simp)
    cases hp.group with
    | none hn hm =>
      refine ⟨[], .other, .calm (hin.calm (by rw [hrest]; exact hg)), ?_⟩
      simp [entryAnnouncement, hn, hm, Act.marks]
    | fence hc =>
      refine ⟨_, _, .calling hin isWrapper_fence hrest hg, Act.marks_entry ?_⟩
      simp [entryAnnouncement, hc]
    | @flush fresh r ty ps hc hn hps hr =>
      have hreg := enter_regs hps hp.params_nodup args
      simp only [entryAnnouncement, if_neg hn, if_pos hc, hG, Option.bind_some, hps, getIntPtrTy]
      by_cases hint : ty = .int (M.dataLayout.pointerSizeInBits 0)
      · rw [flushGroup, if_pos hint] at hrest
        refine ⟨_, _, .calling hin isWrapper_flush hrest hg, Act.marks_entry ?_⟩
        simp [hint, Operand.eval, hreg]
      · rw [flushGroup, if_neg hint] at hrest
        refine ⟨_, _, .casting hin isWrapper_flush hrest hg, Act.marks_entry ?_⟩
        simp [hint, Operand.eval, Operand.addr, Operand.ty, hreg, Ty.intBits]

/-- What the results below assume of the wrappers: they are not called through pointers, and no
exception leaves them. -/
structure WrappersReturn (E : Env W) (M : Module) : Prop where
  indirect : ∀ a n, E.functionAt a = some n → isWrapper n = false
  external : ∀ n args w, isWrapper n = true → (E.external n args w).1 ≠ .unwound
  nounwind : ∀ F ∈ M.defs, isWrapper F.name = true → F.nounwind = true

theorem WrappersReturn.of_extends {M' : Module} (hE : WrappersReturn E M) (hext : M.Extends M') :
    WrappersReturn E M' := by
  refine ⟨hE.indirect, hE.external, fun G' hG' hw => ?_⟩
  obtain ⟨G, hG, hGG'⟩ := hext.exists_base hG'
  rw [hGG'.nounwind]
  exact hE.nounwind G hG (hGG'.name ▸ hw)

section
variable (hE : WrappersReturn E M) (hM : ∀ F ∈ M.defs, Ordered M.dataLayout F)
variable {f : Frame} {fs : List Frame} {w : W} {r : Option ℕ} {t : State W} {L L' : List Entry}
  {owed : ℕ → List (Option Mark)}
include hE

theorem WrappersReturn.call_cases {n : Name} {args : List Operand} {rest : List Inst}
    (hn : isWrapper n = true) (hrest : f.rest = .call none (.fn n) args :: rest)
    (h : step E M ⟨f :: fs, w, r⟩ = some (t, L)) :
    (∃ G : Function, isWrapper G.name = true ∧ G.nounwind = true ∧
      t.stack = G.enter (args.map (·.eval E M.dataLayout f.regs)) ::
        { f with rest := rest, wait := .call none } :: fs ∧
      L = [logAt ({ f with rest := rest, wait := .call none } :: fs)
          (.call n (args.map (·.eval E M.dataLayout f.regs))),
        logAt t.stack (.enter (args.map (·.eval E M.dataLayout f.regs)))]) ∨
    (t.stack = { f with rest := rest, wait := .running } :: fs ∧
      L = [logAt ({ f with rest := rest, wait := .call none } :: fs)
          (.call n (args.map (·.eval E M.dataLayout f.regs)))]) := by
  rw [step_call hrest] at h
  rcases callFunction_cases h with ⟨G, hG, hstack, rfl⟩ | ⟨v, L₁, hres, rfl⟩ | ⟨L₁, hext, -⟩
  · obtain ⟨hmem, rfl⟩ := Module.lookup_mem hG
    exact .inl ⟨G, hn, hE.nounwind G hmem hn, hstack, rfl⟩
  · simp only [resumeWith, Option.some.injEq, Prod.mk.injEq] at hres
    obtain ⟨hstack, rfl⟩ := hres
    exact .inr ⟨hstack.symm, rfl⟩
  · exact absurd hext (hE.external n _ w hn)

theorem wrapperCall_mode {n : Name} {args : List Operand} {rest : List Inst}
    {o : List (Option Mark)} (hfs : Settled E M fs owed) (hf : Inside M.dataLayout f)
    (hn : isWrapper n = true) (hrest : f.rest = .call none (.fn n) args :: rest)
    (htop : Top E M { f with rest := rest, wait := .running } o)
    (h : step E M ⟨f :: fs, w, r⟩ = some (t, L')) :
    Mode E M t.stack (Function.update owed (tracing (f :: fs)) o) ∧
      ∃ c L₁, L' = [c] ++ L₁ ∧ c.tracing = tracing (f :: fs) ∧
        c.mark M = some (.call (n, args.map (·.eval E M.dataLayout f.regs))) ∧
        ∀ e ∈ L₁, e.Quiet M (Function.update owed (tracing (f :: fs)) o) := by
  set K := { f with rest := rest, wait := .call none } :: fs with hK
  set vals := args.map (·.eval E M.dataLayout f.regs)
  have htK : tracing K = tracing (f :: fs) := tracing_replace fs rfl
  have hmark : (logAt K (.call n vals)).mark M = some (.call (n, vals)) := by
    simp [Entry.mark, logAt, hn, hK, hf.not_wrapper]
  rcases hE.call_cases hn hrest h with ⟨G, hG, hnounwind, hstack, rfl⟩ | ⟨hstack, rfl⟩
  · have hset : Settled E M (G.enter vals :: K) (Function.update owed (tracing (f :: fs)) o) :=
      htK ▸ .wrapper hG hnounwind hf.not_wrapper rfl htop hfs
    rw [hstack]
    refine ⟨.settled hset, _, [_], rfl, htK, hmark, ?_⟩
    simp only [List.mem_singleton, forall_eq]
    refine ⟨?_, hset.owed_eq_nil le_rfl⟩
    exact congrArg (Option.map Mark.entry) (entryAnnouncement_wrapper hG vals)
  · rw [hstack]
    exact ⟨.acting (tracing_replace fs rfl) hfs htop, _, [], rfl, htK, hmark, by simp⟩

theorem ready_mode {x : List ℕ} (hfs : Settled E M fs owed) (hf : Inside M.dataLayout f)
    (hx : Ready E M.dataLayout NoWrapperCall f x) (hL : Exact M L owed)
    (h : step E M ⟨f :: fs, w, r⟩ = some (t, L')) :
    ∃ owed', Mode E M t.stack owed' ∧ Exact M (L ++ L') owed' := by
  obtain ⟨args, rest, hrest, rfl, hpend⟩ := hx
  have hin := (hf.tail hrest f.regs).stopped
  obtain ⟨hmode, c, L₁, rfl, hct, hcm, hL₁⟩ := wrapperCall_mode hE hfs hf isWrapper_store hrest
    (.pending hin hpend) h
  refine ⟨_, hmode, ?_⟩
  rw [← List.append_assoc]
  have hnil := hfs.owed_eq_nil (tracing_le_cons f fs)
  exact (hL.begins hct hnil (Act.marks_store hcm)).quiet hL₁

include hM

omit hE in
theorem entered_mode {n : Name} {G : Function} {args : List ℕ} {K : List Frame}
    (hG : M.lookup n = some G) (hK : Settled E M K owed) (hL : Exact M L owed) :
    ∃ owed', Mode E M (G.enter args :: K) owed' ∧
      Exact M (L ++ [logAt (G.enter args :: K) (.enter args)]) owed' := by
  obtain ⟨o, act, htop, hmark⟩ :=
    enter_top (E := E) hG (hM G (List.mem_of_find?_eq_some hG)) args K
  exact ⟨_, .acting rfl hK htop, hL.begins rfl (hK.owed_eq_nil (tracing_le_cons _ K)) hmark⟩

/-- A calm frame starts an act, or does something that is no part of one. -/
theorem calm_mode (hK : Settled E M (f :: fs) owed) (hL : Exact M L owed)
    (h : step E M ⟨f :: fs, w, r⟩ = some (t, L')) :
    ∃ owed', Mode E M t.stack owed' ∧ Exact M (L ++ L') owed' := by
  have hf := hK.calm_head
  obtain ⟨f', fs', i, rest, hstack, hrest, hmove⟩ := step_move h
  obtain ⟨rfl, rfl⟩ := List.cons.inj hstack
  have hother : Outside { f with rest := rest } i → Calm M.dataLayout { f with rest := rest } →
      ∃ owed', Mode E M t.stack owed' ∧ Exact M (L ++ L') owed' := by
    intro hout hcalm
    have hK' : Settled E M ({ f with rest := rest } :: fs) owed := hK.replace rfl hcalm
    rcases hmove.settled hE.indirect hK' hout with ⟨hmode, hq⟩ |
      ⟨n, G, args, K, c, hG, hstack, hset, rfl, hc⟩
    · exact ⟨owed, hmode, hL.quiet hq⟩
    · rw [hstack, List.append_cons]
      exact entered_mode hM hG hset (hL.quiet fun e he => List.mem_singleton.mp he ▸ hc)
  cases hw : isWrapper f.fn.name with
  | true => exact hother (.inl hw) (.of_wrapper hw)
  | false =>
    obtain ⟨hg, hon⟩ := hf.2.resolve_left (by simp [hw])
    have hin : Inside M.dataLayout f := ⟨hf.1, hw, hon⟩
    rcases hg.cases_run (E := E) with hnil | ⟨j, l, hr, hj, hP, hl⟩ | ⟨x, hx⟩ |
      ⟨d, v, ty, l, x, hr, hx⟩
    · rw [hrest] at hnil
      exact absurd hnil (by simp)
    · rw [hrest] at hr
      obtain ⟨rfl, rfl⟩ := List.cons.inj hr
      exact hother (.inr ⟨hj, hP, fun e he => (hon e he).1 i (by simp [hrest])⟩)
        ((hin.tail hrest f.regs).calm hl)
    · exact ready_mode hE (hK.tail hw) hin hx hL h
    · simp only [step, hr, stepInst, Option.some.injEq, Prod.mk.injEq] at h
      obtain ⟨rfl, rfl⟩ := h
      have hmode := Mode.acting rfl (hK.tail hw) (.ready (hin.tail hr _) hx)
      rw [(hK.tail hw).update_nil] at hmode
      rw [List.append_nil]
      exact ⟨owed, hmode, hL⟩

theorem step_mode {s : State W} (hs : Mode E M s.stack owed) (hL : Exact M L owed)
    (h : step E M s = some (t, L')) :
    ∃ owed', Mode E M t.stack owed' ∧ Exact M (L ++ L') owed' := by
  obtain ⟨stack, w, r⟩ := s
  cases hs with
  | settled hs =>
    cases stack with
    | nil => simp [step] at h
    | cons f fs => exact calm_mode hE hM hs hL h
  | @acting f fs owed o n hn hfs hf =>
    subst hn
    cases hf with
    | calm hf =>
      rw [hfs.update_nil] at hL
      exact calm_mode hE hM (.calm hf hfs) hL h
    | ready hf hx =>
      rw [hfs.update_nil] at hL
      exact ready_mode hE hfs hf hx hL h
    | pending hf hx =>
      obtain ⟨v, p, l, hrest, hg, rfl⟩ := hx
      simp only [step, hrest, stepInst, Option.some.injEq, Prod.mk.injEq] at h
      obtain ⟨rfl, rfl⟩ := h
      have ht : tracing ({ f with rest := l } :: fs) = tracing (f :: fs) := tracing_replace fs rfl
      refine ⟨_, .acting ht hfs (.calm ((hf.tail hrest f.regs).calm hg)), hL.pays ht ?_⟩
      simp [Entry.mark, logAt, hf.not_wrapper]
    | casting hf hn hrest hl =>
      simp only [step, hrest, stepInst, Option.some.injEq, Prod.mk.injEq] at h
      obtain ⟨rfl, rfl⟩ := h
      rw [List.append_nil]
      exact ⟨_, .acting (tracing_replace (f := f) fs rfl) hfs
        (.calling (hf.tail hrest _) hn rfl hl), hL⟩
    | calling hf hn hrest hl =>
      obtain ⟨hmode, c, L₁, rfl, hct, hcm, hL₁⟩ := wrapperCall_mode hE hfs hf hn hrest
        (.calm ((hf.tail hrest f.regs).stopped.calm hl)) h
      refine ⟨_, hmode, ?_⟩
      rw [← List.append_assoc]
      exact (hL.pays hct hcm).quiet hL₁

/-- In every execution the log is made of acts, of which the last one may be unfinished. -/
theorem execute_exact {n : Name} {F : Function} (hF : M.lookup n = some F) {args : List ℕ} {k : ℕ}
    {s : State W} (h : execute E M F args w k = some (s, L)) :
    ∃ owed, Mode E M s.stack owed ∧ Exact M L owed := by
  obtain ⟨⟨t, L'⟩, hrun, h⟩ := Option.map_eq_some_iff.mp h
  simp only [Prod.mk.injEq] at h
  obtain ⟨rfl, rfl⟩ := h
  have hstart : ∃ owed, Mode E M [F.enter args] owed ∧
      Exact M ([] ++ [logAt [F.enter args] (.enter args)]) owed :=
    entered_mode hM hF .nil fun _ => ⟨[], rfl⟩
  exact Lib.runFor_invariant (I := fun s L => ∃ owed, Mode E M s.stack owed ∧ Exact M L owed)
    (fun s L₀ t L' hI hst => hI.elim fun owed hI => step_mode hE hM hI.1 hI.2 hst) hstart hrun

end

end

/-! ## One for one, in order -/

def Mark.called? : Mark → Option Announcement
  | .call x => some x
  | _ => none

def Mark.due? : Mark → Option Announcement
  | .call _ => none
  | .store x => some x
  | .entry x => some x

/-- The announcements made, and those that stores and entries call for, are the same sequence. -/
theorem flatMap_marks_called_eq (acts : List Act) :
    (acts.flatMap Act.marks).filterMap (·.bind Mark.called?) =
      (acts.flatMap Act.marks).filterMap (·.bind Mark.due?) := by
  induction acts with
  | nil => rfl
  | cons a acts ih =>
    rw [List.flatMap_cons, List.filterMap_append, List.filterMap_append, ih]
    cases a <;> rfl

section
variable {W : Type} {E : Env W} {M : Module} {K : List Frame} {owed : ℕ → List (Option Mark)}

theorem Mode.owed_eq_nil (h : Mode E M K owed) {n : ℕ} (hn : K = [] ∨ tracing K < n) :
    owed n = [] := by
  cases h with
  | settled h => exact h.owed_eq_nil (hn.elim (fun hK => hK ▸ Nat.zero_le n) le_of_lt)
  | @acting f fs owed o m hm hfs hf =>
    have hlt : m < n := hm ▸ hn.resolve_left (by simp)
    rw [Function.update_of_ne hlt.ne']
    exact hfs.owed_eq_nil ((tracing_le_cons f fs).trans (hm.trans_le hlt.le))

theorem length_update_le {m : ℕ} {o : List (Option Mark)} (h : ∀ n, (owed n).length ≤ 1)
    (ho : o.length ≤ 1) (n : ℕ) : (Function.update owed m o n).length ≤ 1 := by
  by_cases hn : n = m
  · rwa [hn, Function.update_self]
  · rw [Function.update_of_ne hn]
    exact h n

theorem Settled.length_le (h : Settled E M K owed) (n : ℕ) : (owed n).length ≤ 1 := by
  induction h generalizing n with
  | nil => simp
  | calm _ _ ih => exact ih n
  | wrapper _ _ _ _ htop _ ih => exact length_update_le ih htop.length_le n

theorem Mode.length_le (h : Mode E M K owed) (n : ℕ) : (owed n).length ≤ 1 := by
  cases h with
  | settled h => exact h.length_le n
  | acting _ hfs hf => exact length_update_le hfs.length_le hf.length_le n

end

/-- After the store pass has run once and the fence pass at least once on every function: on each
level of tracing, that is, while a given number of wrappers called from other functions run, the log
of every execution is a sequence of acts, so that the wrapper calls are, one for one and in order,
the stores and the entries of the fence and flush functions. A call or store may be due where the
execution is looked at; none is on a level that is left, or once the execution has ended. -/
theorem runPasses_trace_exact {W : Type} {M : Module} (hM : M.WellFormed)
    (hfl : FlushTakesAddress M) (hm : DistinctMatches M)
    (hcalls : ∀ F ∈ M.defs, isWrapper F.name = false → ∀ b ∈ F.blocks, ∀ i ∈ b.insts,
      NoWrapperCall i)
    (ps : List PassRun) (hstore : ∀ F ∈ M.defs, ps.count (.storeFlush F.name) = 1)
    (hvisit : ∀ F ∈ M.defs, .fence F.name ∈ ps) :
    ∃ once' M', runPasses (⟨false, false⟩, M) ps = .ok (once', M') ∧
      ∀ E : Env W, WrappersReturn E M → ∀ f F, M'.lookup f = some F →
        ∀ args w k s L, execute E M' F args w k = some (s, L) →
          ∃ owed, Exact M' L owed ∧ ∀ n, (owed n).length ≤ 1 ∧
            (s.stack = [] ∨ tracing s.stack < n → owed n = []) ∧
            ((atLevel n L).map (Entry.mark M') ++ owed n).filterMap (·.bind Mark.called?) =
              ((atLevel n L).map (Entry.mark M') ++ owed n).filterMap (·.bind Mark.due?) := by
  obtain ⟨once', M', hrun, hext, hplaced⟩ := runPasses_placed hM hfl hm hcalls ps hstore hvisit
  refine ⟨once', M', hrun, fun E hE f F hF args w k s L hexec => ?_⟩
  have hE' : WrappersReturn E M' := hE.of_extends hext
  have hord : ∀ G ∈ M'.defs, Ordered M'.dataLayout G := fun G hG => by
    cases hw : isWrapper G.name with
    | true => exact .inl hw
    | false => exact .inr (hplaced G hG hw)
  obtain ⟨owed, hmode, hacts⟩ := execute_exact hE' hord hF hexec
  refine ⟨owed, hacts, fun n => ⟨hmode.length_le n, hmode.owed_eq_nil, ?_⟩⟩
  obtain ⟨acts, hn⟩ := hacts n
  rw [hn]
  exact flatMap_marks_called_eq acts

namespace Driver

theorem distinctMatches : DistinctMatches program := ⟨by decide, by decide, by decide⟩

theorem noWrapperCall : ∀ F ∈ program.defs, isWrapper F.name = false → ∀ b ∈ F.blocks,
    ∀ i ∈ b.insts, NoWrapperCall i := by
  unfold NoWrapperCall
  decide

theorem machine_wrappersReturn : WrappersReturn machine program :=
  ⟨by simp [machine], by simp [machine], by decide⟩

/-- The whole run of the driver: a store, a flush and a fence. -/
theorem writeBlock_trace_exact : ∃ once' M' F s L owed,
    runPasses (⟨false, false⟩, program) schedule = .ok (once', M') ∧
    M'.lookup "nova_write_block" = some F ∧ execute machine M' F [64] [] 13 = some (s, L) ∧
    Exact M' L owed ∧ ∀ n, (owed n).length ≤ 1 ∧
      ((atLevel n L).map (Entry.mark M') ++ owed n).filterMap (·.bind Mark.called?) =
        ((atLevel n L).map (Entry.mark M') ++ owed n).filterMap (·.bind Mark.due?) := by
  obtain ⟨L, hL⟩ : ∃ L, instrumentedTrace machine program schedule "nova_write_block" [64] [] 13 =
      some L := Option.isSome_iff_exists.mp (by decide +kernel)
  obtain ⟨once', M', hrun, h⟩ := runPasses_trace_exact wellFormed flushTakesAddress distinctMatches
    noWrapperCall schedule (by decide) (by decide)
  obtain ⟨F, s, hF, hexec⟩ := execute_of_instrumentedTrace hL hrun
  obtain ⟨owed, hex, hn⟩ := h machine machine_wrappersReturn _ F hF [64] [] 13 s L hexec
  exact ⟨once', M', F, s, L, owed, hrun, hF, hexec, hex, fun n => ⟨(hn n).1, (hn n).2.2⟩⟩

/-! ## Wrappers that store or throw -/

/-- A store wrapper of the module's own, which calls a function that may store. -/
def ownWrapper : Function where
  name := "write_store_trace_wrapper"
  params := [(0, .int 64), (1, .int 32)]
  nounwind := true
  blocks := [⟨0, [.call none (.fn "squint_note") [], .term (.ret none)]⟩]

/-- Stores 2 at the address 128 if what it loads is odd. -/
def note : Function where
  name := "squint_note"
  params := []
  nounwind := true
  blocks := [
    ⟨0, [.op (some 0) (.load (.int 1)) [], .term (.condBr (.reg 0 (.int 1)) 1 2)]⟩,
    ⟨1, [.store (.const (.int 64 2)) (.const (.literal 128 (.ptr (.int 64) 0))), .term (.br 2)]⟩,
    ⟨2, [.term (.ret none)]⟩]

def reentrant : Module where
  dataLayout := program.dataLayout
  decls := []
  defs := [ownWrapper, note, writeBlock]

/-- A load returns the world and counts it down. -/
def countdown : Env ℕ where
  globalAddr _ := 0
  literal id := id
  functionAt _ := none
  storeMem _ _ _ w := w
  exec _ _ w := ⟨w, [], w - 1⟩
  asm _ _ w := ⟨0, [], w⟩
  mem _ _ w := w
  external _ _ w := (.returned none, w)

theorem reentrant_wellFormed : reentrant.WellFormed := by
  refine ⟨by decide, ?_⟩
  simp only [reentrant, List.mem_cons, List.not_mem_nil, or_false]
  rintro F (rfl | rfl | rfl)
  · refine ⟨by decide, by decide, by decide, ?_, by decide, by decide, by simp [ownWrapper]⟩
    simp only [ownWrapper, List.mem_singleton, forall_eq]
    exact shaped_of_body [_] (by decide)
  · refine ⟨by decide, by decide, by decide, ?_, by decide, by decide, ?_⟩
    · simp only [note, List.mem_cons, List.not_mem_nil, or_false, forall_eq_or_imp, forall_eq]
      exact ⟨shaped_of_body [_] (by decide), shaped_of_body [_] (by decide),
        shaped_of_body [] (by decide)⟩
    · simp [note, Operand.ty, Const.ty, Ty.pointee?]
  · exact wellFormed.functions writeBlock (by simp [program])

/-- Writes a block and catches what the wrappers may throw. -/
def tryWrite : Function where
  name := "nova_try_write"
  params := [(0, .ptr (.int 64) 0)]
  nounwind := true
  blocks := [
    ⟨0, [.term (.invoke none (.fn "nova_write_block") [.reg 0 (.ptr (.int 64) 0)] 1 2)]⟩,
    ⟨1, [.term (.ret none)]⟩,
    ⟨2, [.op none .landingPad [], .term (.ret none)]⟩]

def catching : Module where
  dataLayout := program.dataLayout
  decls := []
  defs := [writeBlock, tryWrite]

def throwing : Env ℕ := { countdown with external := fun _ _ w => (.unwound, w) }

theorem catching_wellFormed : catching.WellFormed := by
  refine ⟨by decide, ?_⟩
  simp only [catching, List.mem_cons, List.not_mem_nil, or_false]
  rintro F (rfl | rfl)
  · exact wellFormed.functions writeBlock (by simp [program])
  · refine ⟨by decide, by decide, by decide, ?_, by decide, by decide, by simp [tryWrite]⟩
    simp only [tryWrite, List.mem_cons, List.not_mem_nil, or_false, forall_eq_or_imp, forall_eq]
    exact ⟨shaped_of_body [] (by decide), shaped_of_body [] (by decide),
      shaped_of_body [_] (by decide)⟩

/-- What is announced, and what there is to announce, over all levels of a whole run. -/
def announcements (M : Module) (L : List Entry) : List Announcement × List Announcement :=
  (L.filterMap fun e => (e.mark M).bind Mark.called?,
    L.filterMap fun e => (e.mark M).bind Mark.due?)

/-- A wrapper that stores is called for the store at 64 and, before that store, for its own at 128;
the stores come the other way round. Where a wrapper throws, its store does not come at all. -/
theorem announcements_not_in_step :
    (reentrant.WellFormed ∧ DistinctMatches reentrant ∧ WrappersReturn countdown reentrant ∧
      (∀ F ∈ reentrant.defs, ∀ b ∈ F.blocks, ∀ i ∈ b.insts, NoWrapperCall i) ∧
      (instrumentedTrace countdown reentrant
        [.storeFlush "write_store_trace_wrapper", .storeFlush "squint_note",
          .storeFlush "nova_write_block", .fence "write_store_trace_wrapper", .fence "squint_note",
          .fence "nova_write_block"] "nova_write_block" [64] 1 19).map (announcements reentrant) =
        some ([(writeStoreTraceWrapper, [64, 8]), (writeStoreTraceWrapper, [128, 8])],
          [(writeStoreTraceWrapper, [128, 8]), (writeStoreTraceWrapper, [64, 8])])) ∧
    catching.WellFormed ∧ DistinctMatches catching ∧
      (∀ F ∈ catching.defs, ∀ b ∈ F.blocks, ∀ i ∈ b.insts, NoWrapperCall i) ∧
      (instrumentedTrace throwing catching
        [.storeFlush "nova_write_block", .storeFlush "nova_try_write", .fence "nova_write_block",
          .fence "nova_try_write"] "nova_try_write" [64] 0 5).map (announcements catching) =
        some ([(writeStoreTraceWrapper, [64, 8])], []) := by
  refine ⟨⟨reentrant_wellFormed, ⟨by decide, by decide, by decide⟩,
    ⟨by simp [countdown], by simp [countdown], by decide⟩, ?_, by decide +kernel⟩,
    catching_wellFormed, ⟨by decide, by decide, by decide⟩, ?_, by decide +kernel⟩
  · unfold NoWrapperCall
    decide
  · unfold NoWrapperCall
    decide

end Driver

end Squint.IR
