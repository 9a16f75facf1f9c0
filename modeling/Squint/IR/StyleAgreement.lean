import Squint.IR.Twins

/-! Announcing flushes at the calls of the flush function and announcing them at its entry come to
the same sequence of wrapper calls, whatever the program does otherwise. -/
namespace Squint.IR

variable {W : Type}

/-- A step that reports the wrapper calls it makes. -/
def stepCalls (E : Env W) (M : Module) (s : State W) : Option (State W × List Announcement) :=
  (step E M s).map fun p => (p.1, wrapperCalls p.2)

/-- If the next instruction passes control to the function named `f`, it is a direct call, and not
in a wrapper. -/
def DirectEntry (E : Env W) (M : Module) (f : Name) (s : State W) : Prop :=
  ∀ g ∈ s.stack.head?, ∀ i ∈ g.rest.head?, ∀ args,
    i.transfer? E M.dataLayout g.regs = some (f, args) →
      isWrapper g.fn.name = false ∧ ∃ d vs, i = .call d (.fn f) vs

/-- The two modules make the same wrapper calls when `H` or `H'` is called, and stop together. -/
structure SameCalls (E : Env W) (A B : Module) (H H' : Function) (args : List ℕ) (w : W) :
    Prop where
  observes : ∀ V, Lib.Observes (stepCalls E A) (fun _ => true) (start H args w) V ↔
    Lib.Observes (stepCalls E B) (fun _ => true) (start H' args w) V
  halts : ∀ V, (∃ t, Lib.Halts (stepCalls E A) (fun _ => true) (start H args w) t V) ↔
    ∃ t, Lib.Halts (stepCalls E B) (fun _ => true) (start H' args w) t V

/-! ## Callbacks -/

section
variable {E : Env W} {A : Module} {g : Frame} {K : List Frame} {w : W} {o : Option ℕ}

theorem silentStep_leap {s t : State W} {L : List Entry} (h : step E A s = some (t, L))
    (hL : wrapperCalls L = []) : Lib.Leap (stepCalls E A) (fun _ => true) 1 s t [] := by
  have hone : Lib.Leap (stepCalls E A) (fun _ => true) 1 s t _ := .one (by rw [stepCalls, h]; rfl)
  simpa [hL] using hone

/-- A callback comes to the call of its wrapper, with registers that the program does not use
changed at most. -/
theorem castCall_leap {dl : DataLayout} (hdl : A.dataLayout = dl) {fresh : ℕ} {n : Name}
    {v : Operand} {rest : List Inst} (more : List Const)
    (hrest : g.rest = castCall dl fresh n v (more.map .const) ++ rest) :
    ∃ m s ρ, Lib.Leap (stepCalls E A) (fun _ => true) m ⟨g :: K, w, o⟩ s [] ∧
      (∀ q < fresh, ρ q = g.regs q) ∧
      step E A s =
        callFunction E A ({ g with rest := rest, regs := ρ, wait := .call none } :: K) w n
          (v.addr E dl g.regs % 2 ^ dl.pointerSizeInBits 0 :: more.map (·.eval E dl)) := by
  subst hdl
  have hmore : ∀ ρ, (more.map Operand.const).map (·.eval E A.dataLayout ρ) =
      more.map (·.eval E A.dataLayout) := fun ρ => by simp [Operand.eval, Function.comp_def]
  cases v with
  | const c =>
    refine ⟨0, _, g.regs, .refl _, fun _ _ => rfl, ?_⟩
    simp only [step, hrest, castCall, pointerCast, List.nil_append, List.cons_append, stepInst,
      performCall, List.map_cons, hmore]
    rfl
  | reg r ty =>
    set a := (Operand.reg r ty).addr E A.dataLayout g.regs % 2 ^ A.dataLayout.pointerSizeInBits 0
    set call := Inst.call none (.fn n)
      (.reg fresh (.int (A.dataLayout.pointerSizeInBits 0)) :: more.map .const) with hcall
    have hcast : step E A ⟨g :: K, w, o⟩ = some (⟨{ g with
        rest := call :: rest, regs := Function.update g.regs fresh a } :: K, w, none⟩, []) := by
      simp only [step, hrest, castCall, pointerCast, List.cons_append, List.nil_append]
      rfl
    refine ⟨1, _, Function.update g.regs fresh a, silentStep_leap hcast rfl, fun q hq => ?_, ?_⟩
    · exact Function.update_of_ne hq.ne _ _
    · simp only [step, hcall, stepInst, performCall, List.map_cons, hmore]
      simp only [Operand.eval, Function.update_self]

end

/-! ## The bisimulation -/

def calling (f : Name) (s : State W) : ℕ :=
  match s.stack.head?.bind (·.rest.head?) with
  | some (.call _ (.fn n) _) => if n = f then 1 else 0
  | _ => 0

theorem Action.Agrees.eq {a a' : Action W} (h : a.Agrees Eq a') : a = a' := by
  cases h <;> simp_all

theorem Inst.action_congr {E : Env W} {dl : DataLayout} {ρ ρ' : ℕ → ℕ} {i : Inst} {w : W}
    (hρ : ∀ r ∈ i.regs, ρ' r = ρ r) : i.action E dl ρ w = i.action E dl ρ' w :=
  (i.action_agrees (Respects.eq E) rfl hρ).eq

theorem Callee.transfer_of_action {E : Env W} {dl : DataLayout} {ρ : ℕ → ℕ} {c : Callee} {w : W}
    {wait wait' : Wait} {args vals : List ℕ} {n : Name}
    (h : c.action E dl ρ w wait' vals = .call wait n args) :
    c.target E dl ρ = some n ∧ vals = args := by
  cases c with
  | fn m =>
    simp only [action, Action.call.injEq] at h
    exact ⟨by simp [target, h.2.1], h.2.2⟩
  | value v stripped =>
    simp only [action] at h
    split at h
    · rename_i m hm
      simp only [Action.call.injEq] at h
      exact ⟨by simp [target, hm, h.2.1], h.2.2⟩
    · cases h
  | _ => cases h

theorem Inst.transfer_of_action {E : Env W} {dl : DataLayout} {ρ : ℕ → ℕ} {i : Inst} {w : W}
    {wait : Wait} {args : List ℕ} {n : Name} (h : i.action E dl ρ w = .call wait n args) :
    i.transfer? E dl ρ = some (n, args) := by
  cases i with
  | call dst c vs =>
    obtain ⟨hn, rfl⟩ := Callee.transfer_of_action h
    simp [transfer?, call?, hn]
  | term t =>
    cases t with
    | invoke dst c vs normal target =>
      obtain ⟨hn, rfl⟩ := Callee.transfer_of_action h
      simp [transfer?, call?, hn]
    | _ => cases h
  | _ => cases h

section
variable {E : Env W} {M A B : Module} {F G : Function} {g g' : Frame} {K K' : List Frame} {w : W}
  {o o' : Option ℕ}
variable (hAB : TwinModules M F A B) (hE : MayPass E M F)
include hAB hE

theorem kept_step {i : Inst} {l l' : List Inst} (hg : TwinFrame M F G g g')
    (hK : Suspended M F E A g.fn.name K K') (hrest : g.rest = i :: l) (hrest' : g'.rest = i :: l')
    (hi : Kept F G i) (hl : TwinBody M F G l l') (hP : DirectEntry E A F.name ⟨g :: K, w, o⟩) :
    Option.Rel (StepTwin M F E A) (step E A ⟨g :: K, w, o⟩) (step E B ⟨g' :: K', w, o'⟩) := by
  simp only [step, hrest, hrest', stepInst_eq, hAB.left, hAB.right]
  rw [← Inst.action_congr fun r hr => hg.regs r (hi.regs r hr)]
  have hnext : TwinFrame M F G { g with rest := l } { g' with rest := l' } :=
    ⟨hg.fn, hg.label, hg.wait, hl, hg.regs, hg.targets⟩
  refine perform_twin hAB hE hnext hK (fun h => hi.entry (Inst.action_targets h)) ?_
  rintro wait n args hcall rfl
  obtain ⟨hw, d, vs, rfl⟩ := hP g rfl i (by simp [hrest]) args
    (by rw [hAB.left]; exact Inst.transfer_of_action hcall)
  rw [hg.name] at hw
  exact hi.not_flush.resolve_left (by simp [hw]) d vs rfl

omit hE hAB in
theorem stepCalls_rel {s t : State W}
    (h : Option.Rel (StepTwin M F E A) (step E A t) (step E B s)) :
    Option.Rel (fun p p' : State W × List Announcement => StateTwin M F E A p'.1 p.1 ∧
      p'.2.filter (fun _ => true) = p.2.filter fun _ => true)
      (stepCalls E B s) (stepCalls E A t) := by
  unfold stepCalls
  generalize step E A t = a at h
  generalize step E B s = b at h
  cases h with
  | none => exact .none
  | some h => exact .some ⟨h.1, by simp [h.2]⟩

/-- What states of the second and of the first copy do next. -/
abbrev Keeps (E : Env W) (M A B : Module) (F : Function) (s s' : State W) : Prop :=
  Lib.Matched (stepCalls E B) (stepCalls E A) (fun _ => true)
    (fun s s' => StateTwin M F E A s' s) (calling F.name) (fun _ _ => True) s s'

theorem store_keeps (hF : isWrapper F.name = false) {a b : ℕ} {v p : Operand} {l l' : List Inst}
    (hg : TwinFrame M F G g g') (hK : Suspended M F E A g.fn.name K K')
    (hrest : g.rest = storeGroup M.dataLayout a p v.ty ++ .store v p :: l)
    (hrest' : g'.rest = storeGroup M.dataLayout b p v.ty ++ .store v p :: l')
    (ha : G.freshReg ≤ a) (hb : G.freshReg ≤ b) (hi : Kept F G (.store v p))
    (hl : TwinBody M F G l l') : Keeps E M A B F ⟨g' :: K', w, o'⟩ ⟨g :: K, w, o⟩ := by
  set size := toInt32 (M.dataLayout.typeStoreSize v.ty)
  obtain ⟨m, s, ρ, hleap, hρ, hstep⟩ :=
    castCall_leap (E := E) (K := K) (w := w) (o := o) hAB.left [.int 32 size] hrest
  obtain ⟨m', s', ρ', hleap', hρ', hstep'⟩ :=
    castCall_leap (E := E) (K := K') (w := w) (o := o') hAB.right [.int 32 size] hrest'
  have haddr : p.addr E M.dataLayout g'.regs = p.addr E M.dataLayout g.regs := by
    unfold Operand.addr
    rw [Operand.eval_congr fun r hr => hg.regs r (hi.regs r (by simp [Inst.regs, hr]))]
  have hnext : TwinFrame M F G { g with rest := .store v p :: l, regs := ρ, wait := .call none }
      { g' with rest := .store v p :: l', regs := ρ', wait := .call none } := by
    refine ⟨hg.fn, hg.label, rfl, .same hi hl, fun q hq => ?_, by simp [Wait.targets]⟩
    exact (hρ' q (by omega)).trans ((hg.regs q hq).trans (hρ q (by omega)).symm)
  refine .of_steps hleap' hleap trivial (stepCalls_rel ?_)
  rw [hstep, hstep', haddr]
  refine callFunction_twin hAB hE (fun he => ?_) (.cons hnext hK) _
  rw [← he, isWrapper_store] at hF
  cases hF

omit hAB hE in
/-- The second copy of the flush function starts with its callback, and is then where the first one
starts. -/
theorem TwinFunction.enter_flush {H H' : Function} (h : TwinFunction M F F H H')
    (hps : (F.params.map (·.1)).Nodup) {ty : Ty} (hty : F.params.head?.map (·.2) = some ty)
    (args : List ℕ) :
    ∃ fresh r l, (H'.enter args).rest =
        castCall M.dataLayout fresh writeFlushTraceWrapper (.reg r ty) [] ++ l ∧
      (H'.enter args).regs r = args.headD 0 ∧
      ∀ ρ : ℕ → ℕ, (∀ q < fresh, ρ q = (H'.enter args).regs q) →
        TwinFrame M F F (H.enter args) { H'.enter args with rest := l, regs := ρ } := by
  obtain ⟨l, bs, new, l', bs', hb, hb', hnew, hl, -⟩ := h.bodies
  simp only [EntryNew, if_true] at hnew
  obtain ⟨fresh, r, ty', hfresh, hparam, rfl⟩ := hnew
  obtain ⟨ps, hparams⟩ := List.head?_eq_some_iff.mp hparam
  obtain rfl : ty' = ty := by simpa [hparam] using hty
  refine ⟨fresh, r, l', by simp [Function.enter, hb'], ?_, fun ρ hρ => ?_⟩
  · exact enter_regs (h.right.params.trans hparams) (by rwa [h.right.params]) args
  · refine ⟨h, by simp [Function.enter, hb, hb'], rfl, ?_, fun q hq => ?_,
      by simp [Function.enter, Wait.targets]⟩
    · simpa [Function.enter, hb] using hl
    · refine (hρ q (by omega)).trans ?_
      simp [Function.enter, h.left.params, h.right.params]

/-- A flush is announced in the caller by the one, and in the flush function by the other. -/
theorem flush_keeps (hF : isWrapper F.name = false) (hps : (F.params.map (·.1)).Nodup) {a : ℕ}
    {d : Option ℕ} {v : Operand} {more : List Operand} {l l' : List Inst}
    (hg : TwinFrame M F G g g') (hK : Suspended M F E A g.fn.name K K')
    (hrest : g.rest = castCall M.dataLayout a writeFlushTraceWrapper v [] ++
      .call d (.fn F.name) (v :: more) :: l)
    (hrest' : g'.rest = .call d (.fn F.name) (v :: more) :: l') (ha : G.freshReg ≤ a)
    (hv : F.params.head?.map (·.2) = some v.ty)
    (hregs : ∀ q ∈ (Inst.call d (.fn F.name) (v :: more)).regs, q < G.freshReg)
    (hl : TwinBody M F G l l') : Keeps E M A B F ⟨g' :: K', w, o'⟩ ⟨g :: K, w, o⟩ := by
  obtain ⟨H, H', hH, hH', htwin⟩ := hAB.flush
  set vals := (v :: more).map (·.eval E M.dataLayout g.regs)
  have hargs : ∀ ρ : ℕ → ℕ, (∀ q < G.freshReg, ρ q = g.regs q) →
      (v :: more).map (·.eval E M.dataLayout ρ) = vals := fun ρ hρ =>
    Operand.evals_congr fun q hq => hρ q (hregs q (List.mem_append_right _ hq))
  obtain ⟨fresh, r, lF, hrestF, hreg, hstart⟩ := htwin.enter_flush hps hv vals
  -- the first copy comes to the wrapper in the caller
  obtain ⟨m, s, ρ, hleap, hρ, hstep⟩ :=
    castCall_leap (E := E) (K := K) (w := w) (o := o) hAB.left [] hrest
  -- the second one calls the flush function first
  set c' : Frame := { g' with rest := l', wait := .call d }
  have hcall : step E B ⟨g' :: K', w, o'⟩ = _ := step_enter hrest' hH'
  rw [hAB.right, hargs _ hg.regs] at hcall
  obtain ⟨m', s', ρ', hleap', hρ', hstep'⟩ :=
    castCall_leap (E := E) (K := c' :: K') (w := w) (o := none) hAB.right [] hrestF
  have haddr : (Operand.reg r v.ty).addr E M.dataLayout (H'.enter vals).regs =
      v.addr E M.dataLayout g.regs := by
    simp only [Operand.addr, Operand.eval, hreg]
    rfl
  have hahead : Ahead M F E A
      { g with rest := .call d (.fn F.name) (v :: more) :: l, regs := ρ, wait := .call none }
      { H'.enter vals with rest := lF, regs := ρ', wait := .call none } c' := by
    refine ⟨G, H, d, v :: more, l, rfl, hH, ?_, ?_⟩
    · rw [hAB.left, hargs ρ fun q hq => hρ q (by omega)]
      exact hstart ρ' hρ'
    · refine ⟨hg.fn, hg.label, rfl, hl, fun q hq => ?_, by simp [Wait.targets]⟩
      exact (hg.regs q hq).trans (hρ q (by omega)).symm
  refine .of_steps ((silentStep_leap hcall ?_).trans hleap') hleap trivial (stepCalls_rel ?_)
  · simp [wrapperCalls, logAt, Event.wrapperCall?, hF]
  · rw [hstep, hstep', haddr]
    refine callFunction_twin hAB hE (fun he => ?_) (.ahead hahead rfl rfl hK) _
    rw [← he, isWrapper_flush] at hF
    cases hF

omit hAB hE in
/-- The call that has been announced is made. -/
theorem ahead_keeps (hF : isWrapper F.name = false) {c h c' : Frame} (hc : Ahead M F E A c h c')
    (hwait : h.wait = .running) (hK : Suspended M F E A c.fn.name K K') :
    Keeps E M A B F ⟨h :: c' :: K', w, o'⟩ ⟨c :: K, w, o⟩ := by
  obtain ⟨G, F', d, args, l, hrest, hF', hh, hc'⟩ := hc
  have hrun : { h with wait := .running } = h := by
    cases h
    cases hwait
    rfl
  have hhead := hh.rest.head_not_flush hF hF
  refine .alone (silentStep_leap (step_enter hrest hF') ?_) ?_
    ⟨.twins (hrun ▸ hh) (.cons hc' hK), rfl⟩
  · simp [wrapperCalls, logAt, Event.wrapperCall?, hF]
  · have hone : calling F.name (⟨c :: K, w, o⟩ : State W) = 1 := by simp [calling, hrest]
    rw [hone, Nat.lt_one_iff]
    simp only [calling, List.head?_cons, Option.bind_some]
    split
    · rename_i d' n args' hi
      exact if_neg fun he => hhead _ hi d' args' (by rw [he])
    · rfl

theorem twins_keep (hF : isWrapper F.name = false) (hps : (F.params.map (·.1)).Nodup)
    {s s' : State W} (h : StateTwin M F E A s' s) (hP : DirectEntry E A F.name s') :
    Keeps E M A B F s s' := by
  obtain ⟨stack', w', o'⟩ := s
  obtain ⟨stack, w, o⟩ := s'
  obtain ⟨hstack, hworld⟩ := h
  obtain rfl : w' = w := hworld
  cases hstack with
  | nil => exact .of_steps (.refl _) (.refl _) trivial .none
  | ahead hc hwait hK => exact ahead_keeps hF hc hwait hK
  | @twins G g g' K K' hg hK =>
    have hbody := hg.rest
    generalize hr : g.rest = l at hbody
    generalize hr' : g'.rest = l' at hbody
    cases hbody with
    | nil =>
      refine .of_steps (.refl _) (.refl _) trivial (stepCalls_rel ?_)
      simp only [step, hr, hr']
      exact .none
    | same hi hl =>
      exact .of_steps (.refl _) (.refl _) trivial
        (stepCalls_rel (kept_step hAB hE hg hK hr hr' hi hl hP))
    | store ha hb hi hl => exact store_keeps hAB hE hF hg hK hr hr' ha hb hi hl
    | flush ha hv hregs hl => exact flush_keeps hAB hE hF hps hg hK hr hr' ha hv hregs hl

theorem twins_bisimulation (hF : isWrapper F.name = false) (hps : (F.params.map (·.1)).Nodup) :
    Lib.Bisimulation (stepCalls E B) (stepCalls E A) (fun _ => true)
      (fun s s' => StateTwin M F E A s' s ∧
        Lib.Always (stepCalls E A) (DirectEntry E A F.name) s')
      (calling F.name) (fun _ _ => True) :=
  .of_always fun _ _ h hP => twins_keep hAB hE hF hps h hP

/-- Entered from outside in a function other than the flush function, the two copies make the same
wrapper calls. -/
theorem TwinFunction.sameCalls (hF : isWrapper F.name = false)
    (hps : (F.params.map (·.1)).Nodup) {H H' : Function} (h : TwinFunction M F G H H')
    (hn : G.name ≠ F.name) {args : List ℕ}
    (hP : Lib.Always (stepCalls E A) (DirectEntry E A F.name) (start H args w)) :
    SameCalls E A B H H' args w := by
  have hb := twins_bisimulation hAB hE hF hps
  have hstart : StateTwin M F E A (start H args w) (start H' args w) :=
    ⟨.twins (h.enter hn args) .nil, rfl⟩
  refine ⟨fun V => (hb.observes_iff ⟨hstart, hP⟩ V).symm, fun V => ⟨?_, ?_⟩⟩
  · rintro ⟨t, ht⟩
    obtain ⟨t', ht', -⟩ := hb.halts_left ⟨hstart, hP⟩ ht
    exact ⟨t', ht'⟩
  · rintro ⟨t, ht⟩
    obtain ⟨t', ht', -⟩ := hb.halts_right ⟨hstart, hP⟩ ht
    exact ⟨t', ht'⟩

end

/-! ## What the two styles make of a module -/

theorem flushGroup_eq_castCall {dl : DataLayout} {fresh r : ℕ} {ty : Ty}
    (hty : ty.isPointer = true) :
    flushGroup dl fresh r ty = castCall dl fresh writeFlushTraceWrapper (.reg r ty) [] := by
  have hne : ty ≠ .int (dl.pointerSizeInBits 0) := by
    rintro rfl
    cases hty
  simp [flushGroup, hne, castCall, pointerCast]

section
variable {M A B : Module} {s : Name} {F G : Function} (hM : M.WellFormed) (hF : SoleFlush s M F)
  (hG : G ∈ M.defs)
include hM hG

theorem kept_of_mem {b : Block} {i : Inst} (hb : b ∈ G.blocks) (hi : i ∈ b.insts)
    (hnot : isWrapper G.name = true ∨ ∀ d args, i ≠ .call d (.fn F.name) args) : Kept F G i := by
  refine ⟨fun q hq => Function.lt_freshReg (Function.mem_regs_of_inst hb hi hq), ?_, hnot⟩
  obtain ⟨e, bs, he⟩ := List.exists_cons_of_ne_nil (hM.functions G hG).blocks_ne_nil
  have hlabel : G.entryLabel = e.label := by simp [Function.entryLabel, he]
  rw [hlabel]
  exact (hM.functions G hG).entry_not_target e (by simp [he]) b hb i hi

theorem twinBody_wrapper (hw : isWrapper G.name = true) {b : Block} (hb : b ∈ G.blocks) :
    TwinBody M F G b.insts b.insts := by
  have hsub : ∀ i ∈ b.insts, Kept F G i := fun i hi => kept_of_mem hM hG hb hi (.inl hw)
  generalize b.insts = l at hsub
  induction l with
  | nil => exact .nil
  | cons i l ih => exact .same (hsub i (by simp)) (ih fun j hj => hsub j (by simp [hj]))

omit hM in
include hF in
/-- The call of the flush function has its callback in the first style. -/
theorem callback_flush (hw : isWrapper G.name = false) {b : Block} (hb : b ∈ G.blocks)
    {d : Option ℕ} {args : List Operand} (hi : .call d (.fn F.name) args ∈ b.insts) (fresh : ℕ) :
    ∃ v more, args = v :: more ∧ F.params.head?.map (·.2) = some v.ty ∧
      Legacy.callback M.dataLayout ⟨s, false⟩ fresh (.call d (.fn F.name) args) =
        .ok (castCall M.dataLayout fresh writeFlushTraceWrapper v []) := by
  obtain ⟨v, more, rfl, hv⟩ := hF.typed G hG hw b hb d args hi
  obtain ⟨r, ty, hps, hty⟩ := hF.address
  obtain rfl : ty = v.ty := by simpa [hps] using hv
  refine ⟨v, more, rfl, hv, ?_⟩
  simp only [Legacy.callback, Legacy.calledName, if_pos hF.contains, Legacy.flushSite,
    createPointerCast_of_isPointer hty, bind, Except.bind]
  rfl

omit hM in
include hF in
theorem callback_other (hw : isWrapper G.name = false) {b : Block} (hb : b ∈ G.blocks) {i : Inst}
    (hi : i ∈ b.insts) (hstore : i.isStore = false)
    (hcall : ∀ d args, i ≠ .call d (.fn F.name) args) (fresh : ℕ) :
    Legacy.callback M.dataLayout ⟨s, false⟩ fresh i = .ok [] := by
  unfold Legacy.callback
  split
  · rfl
  · cases hstore
  · rename_i d c args
    refine if_neg fun hs => hcall d args ?_
    rw [hF.named G hG hw b hb d c args hi hs]
  · rfl

include hF in
/-- The first style looks for the calls that the second one leaves alone. -/
theorem twinBody_of_woven (hw : isWrapper G.name = false) {b : Block} (hb : b ∈ G.blocks)
    {l lA lB : List Inst} (hl : ∀ i ∈ l, i ∈ b.insts)
    (hA : Legacy.Woven M.dataLayout ⟨s, false⟩ G.freshReg l lA) {c c' : Cursor}
    (hc : G.freshReg ≤ c.fresh) (hB : instrumentInsts M.dataLayout c l = .ok (lB, c')) :
    TwinBody M F G lA lB := by
  rw [instrumentInsts_eq_ok_iff] at hB
  induction hA generalizing c c' lB with
  | nil =>
    cases hB
    exact .nil
  | @cons i new l lA fresh hn hnew _ ih =>
    have hi := hl i (by simp)
    have htail : ∀ j ∈ l, j ∈ b.insts := fun j hj => hl j (by simp [hj])
    cases hB with
    | @store _ _ v p newB _ l' hnewB hB =>
      have hp := (hM.functions G hG).store_typed b hb v p hi
      obtain rfl := storeCallback_eq hnew hp
      obtain rfl := storeCallback_eq hnewB hp
      exact .store hn hc (kept_of_mem hM hG hb hi (.inr (by simp)))
        (ih htail (Nat.le_add_right_of_le hc) hB)
    | other hstore hB =>
      have hrest := ih htail hc hB
      by_cases hcall : ∃ d args, i = .call d (.fn F.name) args
      · obtain ⟨d, args, rfl⟩ := hcall
        obtain ⟨v, more, rfl, hv, hcb⟩ := callback_flush hF hG hw hb hi fresh
        obtain rfl := Except.ok.inj (hcb.symm.trans hnew)
        refine .flush hn hv (fun q hq => ?_) hrest
        exact Function.lt_freshReg (Function.mem_regs_of_inst hb hi hq)
      · simp only [not_exists] at hcall
        have hcb := callback_other hF hG hw hb hi hstore hcall fresh
        obtain rfl := Except.ok.inj (hcb.symm.trans hnew)
        exact .same (kept_of_mem hM hG hb hi (.inr hcall)) hrest

omit hM in
include hF in
theorem entryNew_of_atEntry {ps : List PassRun} (hv : .fence G.name ∈ ps) {new : List Inst}
    (h : AtEntry M.dataLayout s ps G new) : EntryNew M F G new := by
  by_cases hn : G.name = F.name
  · obtain rfl := hF.unique G hG (hn ▸ hF.contains)
    simp only [AtEntry, hF.contains, hv, and_self, if_true] at h
    obtain ⟨fresh, r, ty, hfresh, hps, rfl⟩ := h
    obtain ⟨r', ty', hps', hty⟩ := hF.address
    obtain ⟨rfl, rfl⟩ := Prod.mk.inj (Option.some.inj (hps'.symm.trans hps))
    simp only [EntryNew, if_true]
    exact ⟨fresh, r', ty', hfresh, hps, flushGroup_eq_castCall hty⟩
  · have hc : ¬ Contains G.name s := fun hc => hn (congrArg _ (hF.unique G hG hc))
    simpa [EntryNew, AtEntry, hn, hc] using h

include hF in
theorem twinFunction_wrapper (hw : isWrapper G.name = true) : TwinFunction M F G G G := by
  obtain ⟨e, bs, he⟩ := List.exists_cons_of_ne_nil (hM.functions G hG).blocks_ne_nil
  have hne : G.name ≠ F.name := fun hn => by
    rw [hn, hF.not_wrapper] at hw
    cases hw
  have hlabel : G.entryLabel = e.label := by simp [Function.entryLabel, he]
  refine ⟨hG, .refl G, .refl G, e.insts, bs, [], e.insts, bs, by rw [he, hlabel],
    by rw [he, hlabel]; rfl, by simp [EntryNew, hne], twinBody_wrapper hM hG hw (by simp [he]), ?_⟩
  exact List.forall₂_same.mpr fun b hb => ⟨rfl, twinBody_wrapper hM hG hw (by simp [he, hb])⟩

include hF in
/-- What the two styles make of a function. -/
theorem twinFunction_of_woven {ps : List PassRun} (hs : .storeFlush G.name ∈ ps)
    (hv : .fence G.name ∈ ps) {H H' : Function}
    (hA : Legacy.WovenFunction M.dataLayout ⟨s, false⟩ G H)
    (hB : DressedBy M.dataLayout s ps G H') (hext : G.Extends H') : TwinFunction M F G H H' := by
  cases hw : isWrapper G.name with
  | true =>
    obtain rfl : H = G := by simpa [Legacy.WovenFunction, hw] using hA
    obtain rfl : H' = H := by simpa [DressedBy, hw] using hB
    exact twinFunction_wrapper hM hF hG hw
  | false =>
    refine ⟨hG, hA.extends, hext, ?_⟩
    simp only [Legacy.WovenFunction, hw, Bool.false_eq_true, if_false] at hA
    simp only [DressedBy, hw, Bool.false_eq_true, if_false] at hB
    obtain ⟨-, hbsA⟩ := hA
    obtain ⟨e, bs, e', bs', new, he, hH', hnew, hbsB⟩ := hB
    have hlabel : G.entryLabel = e.label := by simp [Function.entryLabel, he]
    have htwin : ∀ b ∈ G.blocks, ∀ bA bB,
        Legacy.WovenBlock M.dataLayout ⟨s, false⟩ G.freshReg b bA →
        BlockBy M.dataLayout ps G b bB →
        bB.label = bA.label ∧ TwinBody M F G bA.insts bB.insts := by
      intro b hb bA bB hbA hbB
      simp only [BlockBy, hs, if_true] at hbB
      obtain ⟨hl, c, c', hc, hins⟩ := hbB
      exact ⟨hl.trans hbA.1.symm,
        twinBody_of_woven hM hF hG hw hb (fun _ hi => hi) hbA.2 hc hins⟩
    rw [he] at hbsA
    generalize hblocks : H.blocks = blocks at hbsA
    cases hbsA with
    | @cons _ eA _ bsA heA hrestA =>
    cases hbsB with
    | cons heB hrestB =>
    have hentry := htwin e (by simp [he]) eA e' heA heB
    refine ⟨eA.insts, bsA, new, e'.insts, bs', ?_, ?_, entryNew_of_atEntry hF hG hv hnew,
      hentry.2, ?_⟩
    · rw [hlabel, ← heA.1]
    · rw [hH', hlabel, ← heA.1, ← hentry.1]
      rfl
    · have hlen := hrestA.length_eq.symm.trans hrestB.length_eq
      refine List.forall₂_iff_get.mpr ⟨hlen, fun k hk hk' => ?_⟩
      have hk₀ : k < bs.length := hrestA.length_eq ▸ hk
      exact htwin bs[k] (by simp [he]) _ _ (hrestA.get hk₀ hk) (hrestB.get hk₀ hk')

end

/-- The two styles make twins of a module. -/
theorem twinModules_of_woven {M A B : Module} {s : Name} {F : Function} (hM : M.WellFormed)
    (hF : SoleFlush s M F) {ps : List PassRun} {once : Bool}
    (hstore : ∀ G ∈ M.defs, .storeFlush G.name ∈ ps) (hvisit : ∀ G ∈ M.defs, .fence G.name ∈ ps)
    (hdl : A.dataLayout = M.dataLayout)
    (hA : List.Forall₂ (Legacy.WovenFunction M.dataLayout ⟨s, false⟩) M.defs A.defs)
    (hB : Reached M s F ps once B) : TwinModules M F A B := by
  have hdefs : List.Forall₂ (fun H H' => ∃ G, TwinFunction M F G H H') A.defs B.defs := by
    have hlen := hA.length_eq.symm.trans hB.dressed.length_eq
    refine List.forall₂_iff_get.mpr ⟨hlen, fun k hk hk' => ?_⟩
    have hk₀ : k < M.defs.length := hA.length_eq ▸ hk
    have hG : M.defs[k] ∈ M.defs := List.getElem_mem hk₀
    exact ⟨_, twinFunction_of_woven hM hF hG (hstore _ hG) (hvisit _ hG) (hA.get hk₀ hk)
      (hB.dressed.get hk₀ hk') (hB.ext.defs.get hk₀ hk')⟩
  refine ⟨hdl, hB.ext.dataLayout, hdefs, ?_⟩
  have hlook := lookup_twin hdefs F.name
  generalize hFA : A.lookup F.name = a at hlook
  generalize hFB : B.lookup F.name = b at hlook
  cases hlook with
  | none =>
    have hmem : F.name ∈ B.defs.map (·.name) := hB.ext.names ▸ List.mem_map_of_mem hF.mem
    obtain ⟨H', hH', hn⟩ := List.mem_map.mp hmem
    exact absurd hn (Module.lookup_eq_none hFB hH')
  | @some H H' h =>
    obtain ⟨G, hG, hn⟩ := h
    obtain rfl : G = F := List.inj_on_of_nodup_map hM.names_nodup hG.mem hF.mem hn
    exact ⟨H, H', rfl, rfl, hG⟩

theorem SoleFlush.sitesTyped {M : Module} {s : Name} {F G : Function} (hM : M.WellFormed)
    (hF : SoleFlush s M F) (hG : G ∈ M.defs) (hw : isWrapper G.name = false) {b : Block}
    (hb : b ∈ G.blocks) : Legacy.SitesTyped M.dataLayout ⟨s, false⟩ b.insts := by
  refine ⟨(hM.functions G hG).store_typed b hb, ?_⟩
  rintro i hi d c args rfl hc
  obtain rfl := hF.named G hG hw b hb d c args hi hc
  obtain ⟨v, more, rfl, hv⟩ := hF.typed G hG hw b hb d args hi
  obtain ⟨r, ty, hps, hty⟩ := hF.address
  obtain rfl : ty = v.ty := by simpa [hps] using hv
  exact ⟨v, more, rfl, .inl hty⟩

/-- Flush callbacks before the calls of the one flush function, or one at its entry: together with
the store callbacks, both succeed, in whatever order functions are visited. Then an execution of the
one makes the same wrapper calls, in the same order, as that of the other, provided that the flush
function is only entered by direct calls from functions that are not wrappers, and that exceptions
which leave the flush wrapper, if any, may leave the flush function. -/
theorem callSites_entry_sameCalls {W : Type} {M : Module} (hM : M.WellFormed) {s : Name}
    {F : Function} (hF : SoleFlush s M F) (vs : List Name)
    (hvs : ∀ G ∈ M.defs, vs.count G.name = 1) (ps : List PassRun)
    (hstore : ∀ G ∈ M.defs, ps.count (.storeFlush G.name) = 1)
    (hvisit : ∀ G ∈ M.defs, .fence G.name ∈ ps) :
    ∃ A once B, Legacy.runOn ⟨s, false⟩ M vs = .ok A ∧
      runEntryPasses s (false, M) ps = .ok (once, B) ∧
      ∀ E : Env W, MayPass E M F → ∀ f H, A.lookup f = some H → f ≠ F.name →
        ∃ H', B.lookup f = some H' ∧ ∀ args w,
          Lib.Always (stepCalls E A) (DirectEntry E A F.name) (start H args w) →
          SameCalls E A B H H' args w := by
  obtain ⟨A, hA⟩ := Legacy.runOn_ok (t := ⟨s, false⟩) hM.names_nodup
    (fun G hG hw b hb => hF.sitesTyped hM hG hw hb)
    (List.forall₂_same.mpr fun G hG => .inl ⟨hvs G hG, rfl⟩)
  obtain ⟨hdl, hwoven⟩ := Legacy.runOn_woven hM.names_nodup hvs hA
  obtain ⟨once, B, hB, hreached⟩ := runEntryPasses_reached hM hF ps fun G hG => (hstore G hG).le
  have hAB : TwinModules M F A B := by
    refine twinModules_of_woven hM hF (fun G hG => ?_) hvisit hdl hwoven hreached
    exact List.count_pos_iff.mp (by rw [hstore G hG]; exact Nat.one_pos)
  refine ⟨A, once, B, hA, hB, fun E hE f H hH hne => ?_⟩
  have hlook := lookup_twin hAB.defs f
  rw [hH] at hlook
  generalize hH' : B.lookup f = b at hlook
  cases hlook with
  | some h =>
    obtain ⟨G, hG, rfl⟩ := h
    exact ⟨_, rfl, fun args w hP => hG.sameCalls hAB hE hF.not_wrapper
      (hM.functions F hF.mem).params_nodup hne hP⟩

/-! ## Direct entry -/

/-- No wrapper and no invoke names the function `f` as what it calls. -/
def CalledDirectly (M : Module) (f : Name) : Prop :=
  ∀ G ∈ M.defs, ∀ b ∈ G.blocks, ∀ i ∈ b.insts, i.directCallee = some f →
    isWrapper G.name = false ∧ i.isTerm = false

theorem directCallee_of_transfer {W : Type} {E : Env W} {dl : DataLayout} {ρ : ℕ → ℕ} {i : Inst}
    {f : Name} {vals : List ℕ} (hE : ∀ a, E.functionAt a ≠ some f)
    (h : i.transfer? E dl ρ = some (f, vals)) : i.directCallee = some f := by
  have htarget : ∀ {c : Callee}, c.target E dl ρ = some f → c = .fn f := by
    intro c hc
    cases c with
    | fn n => exact congrArg _ (Option.some.inj hc)
    | value v stripped => exact absurd hc (hE _)
    | _ => cases hc
  obtain ⟨⟨c, args⟩, hcall, h⟩ := Option.bind_eq_some_iff.mp h
  obtain ⟨n, hn, h⟩ := Option.map_eq_some_iff.mp h
  obtain ⟨rfl, -⟩ := Prod.mk.inj h
  obtain rfl := htarget hn
  unfold Inst.call? at hcall
  split at hcall
  · obtain ⟨rfl, rfl⟩ := Prod.mk.inj (Option.some.inj hcall)
    rfl
  · obtain ⟨rfl, rfl⟩ := Prod.mk.inj (Option.some.inj hcall)
    rfl
  · cases hcall

/-- A function that has no address and is called directly is entered directly, in every execution
of an instrumented module. -/
theorem CalledDirectly.always {W : Type} {E : Env W} {M A : Module} {f : Name} {H : Function}
    (h : CalledDirectly M f) (hf : isWrapper f = false) (hE : ∀ a, E.functionAt a ≠ some f)
    (hext : M.Extends A) (hH : H ∈ A.defs) (args : List ℕ) (w : W) :
    Lib.Always (stepCalls E A) (DirectEntry E A f) (start H args w) := by
  have hruns : Lib.Always (stepCalls E A) (fun t => ∀ g ∈ t.stack, g.Runs A) (start H args w) := by
    refine .of_step (fun s t L hs hstep => ?_) (by simpa [start] using Function.enter_runs hH args)
    obtain ⟨p, hp, hpt⟩ := Option.map_eq_some_iff.mp hstep
    obtain ⟨rfl, -⟩ := Prod.mk.inj hpt
    exact step_runs hs hp
  refine hruns.imp fun t ht g hg i hi vals htransfer => ?_
  obtain ⟨hfn, hrest⟩ := ht g (List.mem_of_mem_head? hg)
  obtain ⟨b', hb', hib'⟩ := hrest i (List.mem_of_mem_head? hi)
  obtain ⟨G, hG, hGg⟩ := hext.exists_base hfn
  have hdirect := directCallee_of_transfer hE htransfer
  rcases hGg.mem_or_silent hb' hib' with ⟨b, hb, hold⟩ | hnew
  · obtain ⟨hw, hterm⟩ := h G hG b hb i hold hdirect
    refine ⟨hGg.name ▸ hw, ?_⟩
    unfold Inst.directCallee at hdirect
    split at hdirect
    · obtain rfl := Option.some.inj hdirect
      exact ⟨_, _, rfl⟩
    · cases hterm
    · cases hdirect
  · -- what was put in calls wrappers
    unfold Silent at hnew
    split at hnew
    · cases hdirect
    · obtain rfl := Option.some.inj hdirect
      rw [hf] at hnew
      cases hnew
    · exact hnew.elim

/-! ## A flush function that stores and calls itself -/

/-- The wrapper calls of the first `n` steps of `f` in the module that `M'` stands for. -/
def callsOf {W : Type} (E : Env W) (M' : Checked Module) (f : Name) (args : List ℕ) (w : W)
    (n : ℕ) : Option (List Announcement) :=
  match M' with
  | .error _ => none
  | .ok A => (A.lookup f).bind fun H => (Lib.runFor (stepCalls E A) n (start H args w)).map (·.2)

theorem observes_of_callsOf {W : Type} {E : Env W} {M' : Checked Module} {A : Module} {f : Name}
    {H : Function} {args : List ℕ} {w : W} {n : ℕ} {V : List Announcement} (hA : M' = .ok A)
    (hH : A.lookup f = some H) (h : callsOf E M' f args w n = some V) :
    Lib.Observes (stepCalls E A) (fun _ => true) (start H args w) V := by
  subst hA
  simp only [callsOf, hH, Option.bind_some] at h
  obtain ⟨⟨t, V'⟩, ht, rfl⟩ := Option.map_eq_some_iff.mp h
  exact ⟨n, t, V', ⟨V', ht, by simp⟩, List.prefix_refl _⟩

namespace Driver

def line : Operand := .reg 0 (.ptr (.int 32) 0)

/-- Writes to a line and, if its second argument is odd, does so once more. -/
def flushLine : Function where
  name := "nvdimm_flush_line"
  params := [(0, .ptr (.int 32) 0), (1, .int 32)]
  nounwind := true
  blocks := [
    ⟨0, [.store (.const (.int 32 1)) line, .term (.condBr (.reg 1 (.int 32)) 1 2)]⟩,
    ⟨1, [.call none (.fn "nvdimm_flush_line") [line, .const (.int 32 0)], .term (.br 2)]⟩,
    ⟨2, [.term (.ret none)]⟩]

def persistLine : Function where
  name := "persist_line"
  params := [(0, .ptr (.int 32) 0)]
  nounwind := false
  blocks := [⟨0, [
    .call none (.fn "nvdimm_flush_line") [line, .const (.int 32 1)], .term (.ret none)]⟩]

/-- Calls `persistLine`, and clears the line where an exception comes back. -/
def tryPersist : Function where
  name := "try_persist"
  params := [(0, .ptr (.int 32) 0)]
  nounwind := true
  blocks := [
    ⟨0, [.term (.invoke none (.fn "persist_line") [line] 1 2)]⟩,
    ⟨1, [.term (.ret none)]⟩,
    ⟨2, [.op none .landingPad [], .store (.const (.int 32 0)) line, .term (.ret none)]⟩]

def throwingWrapper : Function where
  name := writeFlushTraceWrapper
  params := [(0, .int 64)]
  nounwind := false
  blocks := [⟨0, [.call none (.fn "__cxa_throw") [], .term .unreachable]⟩]

/-- The runtime of C++ is linked in. -/
def cxxMachine : Env (List (ℕ × ℕ)) :=
  { machine with external := fun n _ w =>
      if n = "__cxa_throw" then (.unwound, w) else (.returned none, w) }

def lineModule (more : List Function) : Module :=
  { program with defs := [flushLine, persistLine, tryPersist] ++ more }

theorem lineModule_wellFormed {more : List Function}
    (hn : ((lineModule more).defs.map (·.name)).Nodup) (hmore : ∀ F ∈ more, F.WellFormed) :
    (lineModule more).WellFormed := by
  refine ⟨hn, ?_⟩
  simp only [lineModule, List.mem_append, List.mem_cons, List.not_mem_nil, or_false]
  rintro F ((rfl | rfl | rfl) | hF)
  · refine ⟨by decide, by decide, by decide, ?_, by decide, by decide, ?_⟩
    · simp only [flushLine, List.mem_cons, List.not_mem_nil, or_false, forall_eq_or_imp, forall_eq]
      exact ⟨shaped_of_body [_] (by decide), shaped_of_body [_] (by decide),
        shaped_of_body [] (by decide)⟩
    · simp [flushLine, line, Operand.ty, Const.ty, Ty.pointee?]
  · refine ⟨by decide, by decide, by decide, ?_, by decide, by decide, by simp [persistLine]⟩
    simp only [persistLine, List.mem_singleton, forall_eq]
    exact shaped_of_body [_] (by decide)
  · refine ⟨by decide, by decide, by decide, ?_, by decide, by decide, ?_⟩
    · simp only [tryPersist, List.mem_cons, List.not_mem_nil, or_false, forall_eq_or_imp, forall_eq]
      exact ⟨shaped_of_body [] (by decide), shaped_of_body [] (by decide),
        shaped_of_body [_, _] (by decide)⟩
    · simp [tryPersist, line, Operand.ty, Const.ty, Ty.pointee?]
  · exact hmore F hF

theorem throwingWrapper_wellFormed : throwingWrapper.WellFormed := by
  refine ⟨by decide, by decide, by decide, ?_, by decide, by decide, by simp [throwingWrapper]⟩
  simp only [throwingWrapper, List.mem_singleton, forall_eq]
  exact shaped_of_body [_] (by decide)

/-- `flushLine` is the only flush function, whatever wrappers there are. -/
theorem lineModule_soleFlush {more : List Function} (hmore : ∀ G ∈ more, isWrapper G.name = true) :
    SoleFlush "nvdimm_flush" (lineModule more) flushLine := by
  have hcases : ∀ G ∈ (lineModule more).defs,
      G = flushLine ∨ G = persistLine ∨ G = tryPersist ∨ isWrapper G.name = true := by
    simp only [lineModule, List.mem_append, List.mem_cons, List.not_mem_nil, or_false]
    rintro G ((rfl | rfl | rfl) | hG)
    · exact .inl rfl
    · exact .inr (.inl rfl)
    · exact .inr (.inr (.inl rfl))
    · exact .inr (.inr (.inr (hmore G hG)))
  refine ⟨by simp [lineModule], by decide, fun G hG hc => ?_, by decide, ⟨_, _, rfl, rfl⟩,
    fun G hG hw => ?_, fun G hG hw => ?_⟩
  · rcases hcases G hG with rfl | rfl | rfl | hw
    · rfl
    · exact absurd hc (by decide)
    · exact absurd hc (by decide)
    · exact absurd hc (Legacy.not_contains_of_isWrapper hw)
  all_goals
    rcases hcases G hG with rfl | rfl | rfl | hw'
    · simp +contextual [flushLine, line, Operand.ty]
    · simp +contextual [flushLine, persistLine, line, Operand.ty]
    · simp [tryPersist]
    · rw [hw] at hw'
      cases hw'

def lineNames (more : List Function) : List Name := (lineModule more).defs.map (·.name)

def lineSchedule (more : List Function) : List PassRun :=
  (lineNames more).flatMap fun f => [.storeFlush f, .fence f]

/-- The flush function stores and calls itself once. -/
theorem lines_sameCalls : ∃ A once B H H',
    Legacy.runOn ⟨"nvdimm_flush", false⟩ (lineModule []) (lineNames []) = .ok A ∧
    runEntryPasses "nvdimm_flush" (false, lineModule []) (lineSchedule []) = .ok (once, B) ∧
    A.lookup "try_persist" = some H ∧ B.lookup "try_persist" = some H' ∧
    SameCalls machine A B H H' [64] [] ∧
    Lib.Observes (stepCalls machine B) (fun _ => true) (start H' [64] [])
      [(writeFlushTraceWrapper, [64]), (writeStoreTraceWrapper, [64, 4]),
        (writeFlushTraceWrapper, [64]), (writeStoreTraceWrapper, [64, 4])] := by
  have hM : (lineModule []).WellFormed := lineModule_wellFormed (by decide) (by simp)
  have hF : SoleFlush "nvdimm_flush" (lineModule []) flushLine := lineModule_soleFlush (by simp)
  obtain ⟨A, once, B, hA, hB, h⟩ := callSites_entry_sameCalls (W := List (ℕ × ℕ)) hM hF
    (lineNames []) (by decide) (lineSchedule []) (by decide) (by decide)
  have hcalls : callsOf machine
      (Legacy.runOn ⟨"nvdimm_flush", false⟩ (lineModule []) (lineNames []))
      "try_persist" [64] [] 20 = some
        [(writeFlushTraceWrapper, [64]), (writeStoreTraceWrapper, [64, 4]),
          (writeFlushTraceWrapper, [64]), (writeStoreTraceWrapper, [64, 4])] := by decide +kernel
  obtain ⟨hdl, hwoven⟩ := Legacy.runOn_woven hM.names_nodup (by decide) hA
  have hext := Legacy.extends_of_woven hdl hwoven
  have hlook := hext.lookup_sim "try_persist"
  generalize hH : A.lookup "try_persist" = o at hlook
  cases hlook with
  | @some _ H _ =>
    have hpass : MayPass machine (lineModule []) flushLine :=
      ⟨by simp [machine], by decide⟩
    obtain ⟨H', hH', hsame⟩ := h machine hpass "try_persist" H hH (by decide)
    have hdirect : CalledDirectly (lineModule []) flushLine.name := by
      unfold CalledDirectly
      decide
    have hcallsEq := hsame [64] [] (hdirect.always (by decide) (by simp [machine]) hext
      (Module.lookup_mem hH).1 [64] [])
    exact ⟨A, once, B, H, H', hA, hB, hH, hH', hcallsEq,
      (hcallsEq.observes _).mp (observes_of_callsOf hA hH hcalls)⟩

/-- The flush wrapper throws. Called in `persistLine`, it is left for the handler, which stores;
called in `flushLine`, which no exception may leave, it is the end of the execution. -/
theorem lines_differ : (lineModule [throwingWrapper]).WellFormed ∧
    SoleFlush "nvdimm_flush" (lineModule [throwingWrapper]) flushLine ∧
    CalledDirectly (lineModule [throwingWrapper]) flushLine.name ∧
    callsOf cxxMachine (Legacy.runOn ⟨"nvdimm_flush", false⟩ (lineModule [throwingWrapper])
        (lineNames [throwingWrapper])) "try_persist" [64] [] 9 =
      some [(writeFlushTraceWrapper, [64]), (writeStoreTraceWrapper, [64, 4])] ∧
    callsOf cxxMachine ((runEntryPasses "nvdimm_flush" (false, lineModule [throwingWrapper])
        (lineSchedule [throwingWrapper])).map (·.2)) "try_persist" [64] [] 4 =
      some [(writeFlushTraceWrapper, [64])] ∧
    callsOf cxxMachine ((runEntryPasses "nvdimm_flush" (false, lineModule [throwingWrapper])
        (lineSchedule [throwingWrapper])).map (·.2)) "try_persist" [64] [] 5 = none := by
  refine ⟨lineModule_wellFormed (by decide) (by simpa using throwingWrapper_wellFormed),
    lineModule_soleFlush (by simp [throwingWrapper, isWrapper_flush]), ?_, by decide +kernel,
    by decide +kernel, by decide +kernel⟩
  unfold CalledDirectly
  decide

end Driver

end Squint.IR
