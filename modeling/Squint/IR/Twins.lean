import Squint.IR.EntryStyle
import Squint.IR.Executed

/-! Two instrumented copies of one module, side by side: one announces flushes before the calls of
the flush function, the other at its entry. Frames of the two are twins where they run what became
of the same instructions. Stacks differ only while a flush is announced, by one activation. -/
namespace Squint.IR

variable {W : Type}

/-- A callback on the address that `v` holds. -/
def castCall (dl : DataLayout) (fresh : ℕ) (n : Name) (v : Operand) (more : List Operand) :
    List Inst :=
  (pointerCast fresh v (.int (dl.pointerSizeInBits 0))).1 ++
    [.call none (.fn n) ((pointerCast fresh v (.int (dl.pointerSizeInBits 0))).2 :: more)]

def Function.entryLabel (F : Function) : Label := (F.blocks.head?.map (·.label)).getD 0

section
variable (M : Module) (F : Function)

/-- An instruction of `G` that is in both copies: not a call of the flush function `F`, unless in a
wrapper. -/
structure Kept (G : Function) (i : Inst) : Prop where
  regs : ∀ q ∈ i.regs, q < G.freshReg
  entry : G.entryLabel ∉ i.successors
  not_flush : isWrapper G.name = true ∨ ∀ d args, i ≠ .call d (.fn F.name) args

/-- What the two styles make of a list of instructions of `G`. -/
inductive TwinBody (G : Function) : List Inst → List Inst → Prop
  | nil : TwinBody G [] []
  | same {i : Inst} {l l' : List Inst} (hi : Kept F G i) (hl : TwinBody G l l') :
      TwinBody G (i :: l) (i :: l')
  | store {a b : ℕ} {v p : Operand} {l l' : List Inst} (ha : G.freshReg ≤ a)
      (hb : G.freshReg ≤ b) (hi : Kept F G (.store v p)) (hl : TwinBody G l l') :
      TwinBody G (storeGroup M.dataLayout a p v.ty ++ .store v p :: l)
        (storeGroup M.dataLayout b p v.ty ++ .store v p :: l')
  | flush {a : ℕ} {d : Option ℕ} {v : Operand} {more : List Operand} {l l' : List Inst}
      (ha : G.freshReg ≤ a) (hv : F.params.head?.map (·.2) = some v.ty)
      (hregs : ∀ q ∈ (Inst.call d (.fn F.name) (v :: more)).regs, q < G.freshReg)
      (hl : TwinBody G l l') :
      TwinBody G (castCall M.dataLayout a writeFlushTraceWrapper v [] ++
          .call d (.fn F.name) (v :: more) :: l)
        (.call d (.fn F.name) (v :: more) :: l')

/-- What stands at the entry of `G` in the second copy only. -/
def EntryNew (G : Function) (new : List Inst) : Prop :=
  if G.name = F.name then
    ∃ fresh r ty, G.freshReg ≤ fresh ∧ F.params.head? = some (r, ty) ∧
      new = castCall M.dataLayout fresh writeFlushTraceWrapper (.reg r ty) []
  else new = []

/-- `H` and `H'` are what the two styles make of `G`. -/
structure TwinFunction (G H H' : Function) : Prop where
  mem : G ∈ M.defs
  left : G.Extends H
  right : G.Extends H'
  bodies : ∃ l bs new l' bs', H.blocks = ⟨G.entryLabel, l⟩ :: bs ∧
    H'.blocks = ⟨G.entryLabel, new ++ l'⟩ :: bs' ∧ EntryNew M F G new ∧ TwinBody M F G l l' ∧
    List.Forall₂ (fun b b' => b'.label = b.label ∧ TwinBody M F G b.insts b'.insts) bs bs'

/-- `g` and `g'` are at the same place of `G`. -/
structure TwinFrame (G : Function) (g g' : Frame) : Prop where
  fn : TwinFunction M F G g.fn g'.fn
  label : g'.label = g.label
  wait : g'.wait = g.wait
  rest : TwinBody M F G g.rest g'.rest
  regs : ∀ q < G.freshReg, g'.regs q = g.regs q
  targets : G.entryLabel ∉ g.wait.targets

variable (E : Env W) (A : Module)

/-- `c` is about to call the flush function. Its twin `c'` has called it, and `h` is where that
activation would find its twin. -/
def Ahead (c h c' : Frame) : Prop :=
  ∃ G F' d args l, c.rest = .call d (.fn F.name) args :: l ∧ A.lookup F.name = some F' ∧
    TwinFrame M F F (F'.enter (args.map (·.eval E A.dataLayout c.regs)))
      { h with wait := .running } ∧
    TwinFrame M F G { c with rest := l, wait := .call d } c'

/-- Suspended frames under an activation of the function named `n`. -/
inductive Suspended : Name → List Frame → List Frame → Prop
  | nil {n : Name} : Suspended n [] []
  | cons {n : Name} {G : Function} {g g' : Frame} {K K' : List Frame} (hg : TwinFrame M F G g g')
      (hK : Suspended g.fn.name K K') : Suspended n (g :: K) (g' :: K')
  | ahead {c h c' : Frame} {K K' : List Frame} (hc : Ahead M F E A c h c')
      (hwait : c.wait = .call none) (hwait' : h.wait = .call none)
      (hK : Suspended c.fn.name K K') :
      Suspended writeFlushTraceWrapper (c :: K) (h :: c' :: K')

/-- Stacks whose top frame runs. -/
inductive Running : List Frame → List Frame → Prop
  | nil : Running [] []
  | twins {G : Function} {g g' : Frame} {K K' : List Frame} (hg : TwinFrame M F G g g')
      (hK : Suspended M F E A g.fn.name K K') : Running (g :: K) (g' :: K')
  | ahead {c h c' : Frame} {K K' : List Frame} (hc : Ahead M F E A c h c')
      (hwait : h.wait = .running) (hK : Suspended M F E A c.fn.name K K') :
      Running (c :: K) (h :: c' :: K')

end

/-! ## Bodies -/

section
variable {M : Module} {F G : Function}

theorem splitPhis_castCall (dl : DataLayout) (fresh : ℕ) (n : Name) (v : Operand)
    (more : List Operand) (l : List Inst) :
    splitPhis (castCall dl fresh n v more ++ l) = ([], castCall dl fresh n v more ++ l) := by
  cases v <;> rfl

theorem TwinBody.splitPhis {l l' : List Inst} (h : TwinBody M F G l l') :
    (splitPhis l').1 = (splitPhis l).1 ∧
      TwinBody M F G (IR.splitPhis l).2 (IR.splitPhis l').2 := by
  induction h with
  | nil => exact ⟨rfl, .nil⟩
  | @same i l l' hi hl ih =>
    cases hphi : i.isPhi with
    | true =>
      cases i with
      | phi d ty incoming =>
        exact ⟨by simp [IR.splitPhis, ih.1], by simpa [IR.splitPhis] using ih.2⟩
      | _ => cases hphi
    | false =>
      rw [splitPhis_of_head hphi, splitPhis_of_head hphi]
      exact ⟨rfl, .same hi hl⟩
  | @store a b v p l l' ha hb hi hl _ =>
    have hsplit : ∀ fresh l, IR.splitPhis (storeGroup M.dataLayout fresh p v.ty ++ l) =
        ([], storeGroup M.dataLayout fresh p v.ty ++ l) := fun fresh l =>
      splitPhis_castCall M.dataLayout fresh writeStoreTraceWrapper p _ l
    rw [hsplit, hsplit]
    exact ⟨rfl, .store ha hb hi hl⟩
  | @flush a d v more l l' ha hv hregs hl _ =>
    rw [splitPhis_castCall, splitPhis_of_head rfl]
    exact ⟨rfl, .flush ha hv hregs hl⟩

theorem TwinBody.phis_kept {l l' : List Inst} (h : TwinBody M F G l l') :
    ∀ p ∈ (IR.splitPhis l).1, ∃ ty, Kept F G (.phi p.1 ty p.2) := by
  induction h with
  | nil => simp [IR.splitPhis]
  | @same i l l' hi _ ih =>
    cases i with
    | phi d ty incoming =>
      simp only [IR.splitPhis, List.mem_cons, forall_eq_or_imp]
      exact ⟨⟨ty, hi⟩, ih⟩
    | _ => simp [IR.splitPhis]
  | @store a b v p l l' _ _ _ _ _ =>
    rw [show IR.splitPhis (storeGroup M.dataLayout a p v.ty ++ .store v p :: l) = _ from
      splitPhis_castCall M.dataLayout a writeStoreTraceWrapper p _ _]
    simp
  | flush _ _ _ _ _ =>
    rw [splitPhis_castCall]
    simp

/-- In the first copy a call of the flush function has its callback in front of it. -/
theorem TwinBody.head_not_flush {l l' : List Inst} (h : TwinBody M F G l l')
    (hF : isWrapper F.name = false) (hG : isWrapper G.name = false) :
    ∀ i ∈ l.head?, ∀ d args, i ≠ .call d (.fn F.name) args := by
  have hcast : ∀ fresh n v more rest, isWrapper n = true →
      ∀ i ∈ (castCall M.dataLayout fresh n v more ++ rest).head?, ∀ d args,
        i ≠ .call d (.fn F.name) args := by
    rintro fresh n v more rest hn i hi d args rfl
    cases v with
    | reg => simp [castCall, pointerCast] at hi
    | const =>
      simp only [castCall, pointerCast, List.nil_append, List.cons_append, List.head?_cons,
        Option.mem_def, Option.some.injEq, Inst.call.injEq, Callee.fn.injEq] at hi
      rw [hi.2.1, hF] at hn
      cases hn
  cases h with
  | nil => simp
  | same hi _ => simpa using hi.not_flush.resolve_left (by simp [hG])
  | store => exact hcast _ _ _ _ _ isWrapper_store
  | flush => exact hcast _ _ _ _ _ isWrapper_flush

end

/-! ## Frames -/

section
variable {M A B : Module} {F G : Function} {E : Env W} {g g' : Frame}

theorem TwinFrame.name (h : TwinFrame M F G g g') : g.fn.name = G.name := h.fn.left.name

theorem TwinFrame.nounwind (h : TwinFrame M F G g g') : g'.fn.nounwind = g.fn.nounwind :=
  h.fn.right.nounwind.trans h.fn.left.nounwind.symm

theorem TwinFrame.withRegs (h : TwinFrame M F G g g') {ρ ρ' : ℕ → ℕ}
    (hρ : ∀ q < G.freshReg, ρ' q = ρ q) :
    TwinFrame M F G { g with regs := ρ } { g' with regs := ρ' } :=
  ⟨h.fn, h.label, h.wait, h.rest, hρ, h.targets⟩

theorem TwinFrame.waiting (h : TwinFrame M F G g g') {wait : Wait}
    (hwait : G.entryLabel ∉ wait.targets) :
    TwinFrame M F G { g with wait := wait } { g' with wait := wait } :=
  ⟨h.fn, h.label, rfl, h.rest, h.regs, hwait⟩

theorem TwinFunction.block? {H H' : Function} (h : TwinFunction M F G H H') {l : Label}
    (hl : l ≠ G.entryLabel) :
    Option.Rel (fun b b' => TwinBody M F G b.insts b'.insts) (H.block? l) (H'.block? l) := by
  obtain ⟨l₁, bs, new, l₁', bs', hb, hb', -, -, hbs⟩ := h.bodies
  simp only [Function.block?, hb, hb', List.find?_cons, beq_eq_false_iff_ne.mpr hl.symm]
  clear hb hb'
  induction hbs with
  | nil => exact .none
  | cons hbb _ ih =>
    simp only [List.find?_cons, hbb.1]
    split
    · exact .some hbb.2
    · exact ih

theorem goto_twin (hA : A.dataLayout = M.dataLayout) (hB : B.dataLayout = M.dataLayout)
    (h : TwinFrame M F G g g') {l : Label} (hl : l ≠ G.entryLabel) :
    Option.Rel (TwinFrame M F G) (g.goto E A l) (g'.goto E B l) := by
  unfold Frame.goto
  have hblock := h.fn.block? hl
  generalize g.fn.block? l = o at hblock
  generalize g'.fn.block? l = o' at hblock
  cases hblock with
  | none => exact .none
  | @some b b' hbody =>
    obtain ⟨hphis, hrest⟩ := hbody.splitPhis
    have hvals : phiValues E B g'.regs g'.label (splitPhis b'.insts).1 =
        phiValues E A g.regs g.label (splitPhis b.insts).1 := by
      rw [hphis, h.label]
      refine phiValues_congr (hB.trans hA.symm) fun p hp q hq r hr => h.regs r ?_
      obtain ⟨ty, hk⟩ := hbody.phis_kept p hp
      exact hk.regs r (List.mem_cons_of_mem _ (List.mem_flatMap.mpr ⟨q, hq, hr⟩))
    simp only [hvals]
    cases phiValues E A g.regs g.label (splitPhis b.insts).1 with
    | none => exact .none
    | some vals =>
      exact .some ⟨h.fn, rfl, rfl, hrest, assign_congr h.regs vals, by simp [Wait.targets]⟩

/-- Entered at the same time, a function other than the flush function starts the same. -/
theorem TwinFunction.enter {H H' : Function} (h : TwinFunction M F G H H') (hn : G.name ≠ F.name)
    (args : List ℕ) : TwinFrame M F G (H.enter args) (H'.enter args) := by
  obtain ⟨l, bs, new, l', bs', hb, hb', hnew, hl, -⟩ := h.bodies
  obtain rfl : new = [] := by simpa [EntryNew, hn] using hnew
  refine ⟨h, ?_, rfl, ?_, fun q _ => ?_, by simp [Function.enter, Wait.targets]⟩
  · simp [Function.enter, hb, hb']
  · simpa [Function.enter, hb, hb'] using hl
  · simp [Function.enter, h.left.params, h.right.params]

structure TwinModules (M : Module) (F : Function) (A B : Module) : Prop where
  left : A.dataLayout = M.dataLayout
  right : B.dataLayout = M.dataLayout
  defs : List.Forall₂ (fun H H' => ∃ G, TwinFunction M F G H H') A.defs B.defs
  flush : ∃ H H', A.lookup F.name = some H ∧ B.lookup F.name = some H' ∧ TwinFunction M F F H H'

theorem lookup_twin
    (h : List.Forall₂ (fun H H' => ∃ G, TwinFunction M F G H H') A.defs B.defs) (n : Name) :
    Option.Rel (fun H H' => ∃ G, TwinFunction M F G H H' ∧ G.name = n)
      (A.lookup n) (B.lookup n) := by
  unfold Module.lookup
  generalize A.defs = fs at h
  generalize B.defs = fs' at h
  induction h with
  | nil => exact .none
  | @cons H H' fs fs' hH _ ih =>
    obtain ⟨G, hG⟩ := hH
    simp only [List.find?_cons, hG.left.name, hG.right.name]
    cases hn : G.name == n with
    | true => exact .some ⟨G, hG, by simpa using hn⟩
    | false => exact ih

end

/-! ## Stacks -/

def Event.wrapperCall? : Event → Option Announcement
  | .call n args => if isWrapper n then some (n, args) else none
  | _ => none

def wrapperCalls (L : List Entry) : List Announcement := L.filterMap (·.event.wrapperCall?)

theorem wrapperCalls_logAt (K : List Frame) (events : List Event) :
    wrapperCalls (events.map (logAt K)) = events.filterMap Event.wrapperCall? := by
  simp [wrapperCalls, List.filterMap_map, Function.comp_def, logAt]

@[simp] theorem wrapperCalls_append (L L' : List Entry) :
    wrapperCalls (L ++ L') = wrapperCalls L ++ wrapperCalls L' := List.filterMap_append

/-- An exception that leaves the flush wrapper may leave the flush function, too. -/
structure MayPass (E : Env W) (M : Module) (F : Function) : Prop where
  external : ∀ args w, (E.external writeFlushTraceWrapper args w).1 = .unwound →
    F.nounwind = false
  defined : ∀ G ∈ M.defs, G.name = writeFlushTraceWrapper → G.nounwind = false →
    F.nounwind = false

section
variable {M A B : Module} {F G : Function} {E : Env W} {n : Name} {g g' : Frame}
  {K K' : List Frame} {w : W}

theorem TwinFrame.mayPass (hg : TwinFrame M F G g g') (hE : MayPass E M F)
    (hu : g.fn.nounwind = false) (hname : g.fn.name = writeFlushTraceWrapper) :
    F.nounwind = false :=
  hE.defined G hg.fn.mem (hg.name ▸ hname) (hg.fn.left.nounwind ▸ hu)

/-- Frames that go on after a return or an exception, and the wrapper calls reported. -/
def ResumeTwin (M : Module) (F : Function) (E : Env W) (A : Module)
    (p p' : List Frame × List Entry) : Prop :=
  Running M F E A p.1 p'.1 ∧ wrapperCalls p'.2 = wrapperCalls p.2

variable (hAB : TwinModules M F A B)
include hAB

theorem goto_resume_twin (hg : TwinFrame M F G g g')
    (hK : Suspended M F E A g.fn.name K K') {l : Label} (hl : l ≠ G.entryLabel) :
    Option.Rel (ResumeTwin M F E A)
      ((g.goto E A l).map fun f => (f :: K, [logAt (f :: K) (.block l)]))
      ((g'.goto E B l).map fun f => (f :: K', [logAt (f :: K') (.block l)])) := by
  have hgoto := goto_twin (E := E) hAB.left hAB.right hg hl
  have hfn : ∀ f ∈ g.goto E A l, f.fn = g.fn := fun f hf => Frame.goto_fn hf
  generalize g.goto E A l = o at hgoto hfn
  generalize g'.goto E B l = o' at hgoto
  cases hgoto with
  | none => exact .none
  | some hf => exact .some ⟨.twins hf (by rwa [hfn _ rfl]), rfl⟩

theorem resumeWith_twin (hK : Suspended M F E A n K K') (v : Option ℕ) :
    Option.Rel (ResumeTwin M F E A) (resumeWith E A v K) (resumeWith E B v K') := by
  cases hK with
  | nil => exact .some ⟨.nil, rfl⟩
  | @cons _ G g g' K K' hg hK =>
    simp only [resumeWith, hg.wait]
    cases hwait : g.wait with
    | running => exact .none
    | call dst =>
      have hres := hg.withRegs (assign_congr hg.regs (dst.toList.map (·, v.getD 0)))
      have hrun : G.entryLabel ∉ Wait.running.targets := by simp [Wait.targets]
      exact .some ⟨.twins (hres.waiting hrun) hK, rfl⟩
    | invoke dst normal target =>
      have hres := hg.withRegs (assign_congr hg.regs (dst.toList.map (·, v.getD 0)))
      have hne : normal ≠ G.entryLabel := fun he => hg.targets (by simp [hwait, Wait.targets, he])
      exact goto_resume_twin hAB hres hK hne
  | @ahead c h c' K K' hc hwait hwait' hK =>
    simp only [resumeWith, hwait, hwait']
    exact .some ⟨.ahead hc rfl hK, rfl⟩

theorem unwind_twin (hE : MayPass E M F)
    (hn : n = writeFlushTraceWrapper → F.nounwind = false) (hK : Suspended M F E A n K K') :
    Option.Rel (ResumeTwin M F E A) (unwind E A K) (unwind E B K') := by
  induction hK with
  | nil => exact .none
  | @cons n G g g' K K' hg hK ih =>
    unfold unwind
    rw [hg.wait, hg.nounwind]
    cases hwait : g.wait with
    | running => exact .none
    | call dst =>
      dsimp only
      split_ifs with hu
      · exact .none
      · exact ih (hg.mayPass hE (by simpa using hu))
    | invoke dst normal target =>
      have hne : target ≠ G.entryLabel := fun he => hg.targets (by simp [hwait, Wait.targets, he])
      exact goto_resume_twin hAB hg hK hne
  | @ahead c h c' K K' hc hwait hwait' hK ih =>
    -- the activation of the flush function is left on the one side only
    obtain ⟨G, F', d, args, l, -, -, hh, hc'⟩ := hc
    have hpass : h.fn.nounwind = false := hh.fn.right.nounwind.trans (hn rfl)
    have hw' : c'.wait = .call d := hc'.wait
    have hnu : c'.fn.nounwind = c.fn.nounwind := hc'.nounwind
    unfold unwind
    simp only [hwait, hwait', hpass, Bool.false_eq_true, if_false]
    rw [unwind, hw', hnu]
    dsimp only
    split_ifs with hu
    · exact .none
    · exact ih (hc'.mayPass hE (by simpa using hu))

/-! ## One instruction on both sides -/

omit hAB in
structure StateTwin (M : Module) (F : Function) (E : Env W) (A : Module) (s s' : State W) :
    Prop where
  stack : Running M F E A s.stack s'.stack
  world : s'.world = s.world

def StepTwin (M : Module) (F : Function) (E : Env W) (A : Module)
    (p p' : State W × List Entry) : Prop :=
  StateTwin M F E A p.1 p'.1 ∧ wrapperCalls p'.2 = wrapperCalls p.2

omit hAB in
theorem proceed_twin {L L' : List Entry} (hL : wrapperCalls L' = wrapperCalls L)
    {o o' : Option (List Frame × List Entry)} (h : Option.Rel (ResumeTwin M F E A) o o') :
    Option.Rel (StepTwin M F E A) (proceed w L o) (proceed w L' o') := by
  cases h with
  | none => exact .none
  | some h => exact .some ⟨⟨h.1, rfl⟩, by simp only [wrapperCalls_append, hL, h.2]⟩

theorem callFunction_twin (hE : MayPass E M F) (hn : n ≠ F.name)
    (hK : Suspended M F E A n K K') (args : List ℕ) :
    Option.Rel (StepTwin M F E A) (callFunction E A K w n args) (callFunction E B K' w n args) := by
  unfold callFunction
  have hlookup := lookup_twin hAB.defs n
  generalize A.lookup n = o at hlookup
  generalize B.lookup n = o' at hlookup
  cases hlookup with
  | @some H H' hH =>
    obtain ⟨G, hG, rfl⟩ := hH
    have hname : (H.enter args).fn.name = G.name := hG.left.name
    exact .some ⟨⟨.twins (hG.enter hn args) (hname ▸ hK), rfl⟩, rfl⟩
  | none =>
    dsimp only
    have hthrow := hE.external args w
    have hlog : wrapperCalls [logAt K' (.call n args)] = wrapperCalls [logAt K (.call n args)] :=
      rfl
    cases hext : E.external n args w with
    | mk o u =>
      cases o with
      | returned v => exact proceed_twin hlog (resumeWith_twin hAB hK v)
      | unwound =>
        refine proceed_twin hlog (unwind_twin hAB hE (fun he => ?_) hK)
        exact hthrow (by rw [← he, hext])

/-- What is asked for on both sides, unless it is a call of the flush function. -/
theorem perform_twin (hE : MayPass E M F) (hg : TwinFrame M F G g g')
    (hK : Suspended M F E A g.fn.name K K') {a : Action W} (ha : G.entryLabel ∉ a.targets)
    (hcall : ∀ wait n args, a = .call wait n args → n ≠ F.name) :
    Option.Rel (StepTwin M F E A) (a.perform E A g K w) (a.perform E B g' K' w) := by
  have hsusp : ∀ n wait, G.entryLabel ∉ wait.targets →
      Suspended M F E A n ({ g with wait := wait } :: K) ({ g' with wait := wait } :: K') :=
    fun n wait hwait => .cons (hg.waiting hwait) hK
  cases a with
  | stay vals u events =>
    refine .some ⟨⟨.twins (hg.withRegs (assign_congr hg.regs vals)) hK, rfl⟩, ?_⟩
    simp only [wrapperCalls_logAt]
  | call wait n args =>
    exact callFunction_twin hAB hE (hcall wait n args rfl) (hsusp n wait ha) args
  | back wait v u events =>
    refine proceed_twin ?_ (resumeWith_twin hAB (hsusp "" wait ha) v)
    simp only [wrapperCalls_logAt]
  | jump l =>
    refine proceed_twin rfl (goto_resume_twin hAB hg hK fun hl => ha ?_)
    simp [Action.targets, hl]
  | ret v =>
    have hres := resumeWith_twin hAB hK v
    simp only [Action.perform]
    generalize resumeWith E A v K = o at hres
    generalize resumeWith E B v K' = o' at hres
    cases hres with
    | none => exact .none
    | some h => exact .some ⟨⟨h.1, rfl⟩, h.2⟩
  | raise =>
    simp only [Action.perform, hg.nounwind]
    split_ifs with hu
    · exact .none
    · exact proceed_twin rfl (unwind_twin hAB hE (hg.mayPass hE (by simpa using hu)) hK)
  | stuck => exact .none

end

end Squint.IR
