import Squint.IR.Action
import Squint.IR.Extension

/-! An instruction does the same in a module and in an extension of it: related frames run a body
and an extension of that body, and agree on the registers the body uses. -/
namespace Squint.IR

variable {W : Type}

/-- A call of a trace wrapper from another function. -/
def Entry.isWrapperCall (e : Entry) : Bool :=
  match e.event with
  | .call n _ => isWrapper n && !isWrapper e.fn
  | _ => false

/-- What is left of the log when wrapper calls, and all that happens in them, are deleted. -/
def visible (e : Entry) : Bool := e.tracing == 0 && !e.isWrapperCall

/-- `Agree` relates worlds that differ only where neither the program nor the code outside the
module looks. -/
structure Respects (E : Env W) (Agree : W → W → Prop) : Prop where
  equivalence : Equivalence Agree
  storeMem : ∀ a ty v w w', Agree w w' → Agree (E.storeMem a ty v w) (E.storeMem a ty v w')
  exec : ∀ c vs w w', Agree w w' → (E.exec c vs w).value = (E.exec c vs w').value ∧
    (E.exec c vs w).writes = (E.exec c vs w').writes ∧
    Agree (E.exec c vs w).world (E.exec c vs w').world
  asm : ∀ i vs w w', Agree w w' → (E.asm i vs w).value = (E.asm i vs w').value ∧
    (E.asm i vs w).writes = (E.asm i vs w').writes ∧
    Agree (E.asm i vs w).world (E.asm i vs w').world
  mem : ∀ k vs w w', Agree w w' → Agree (E.mem k vs w) (E.mem k vs w')
  external : ∀ n vs w w', isWrapper n = false → Agree w w' →
    (E.external n vs w).1 = (E.external n vs w').1 ∧
    Agree (E.external n vs w).2 (E.external n vs w').2

theorem Respects.eq (E : Env W) : Respects E Eq :=
  ⟨eq_equivalence, by rintro _ _ _ _ _ rfl; rfl, by rintro _ _ _ _ rfl; exact ⟨rfl, rfl, rfl⟩,
    by rintro _ _ _ _ rfl; exact ⟨rfl, rfl, rfl⟩, by rintro _ _ _ _ rfl; rfl,
    by rintro _ _ _ _ - rfl; exact ⟨rfl, rfl⟩⟩

/-- Every trace wrapper returns and changes nothing that `Agree` looks at, whether it is an
external function or one of the module, and whatever frames `K` called it. -/
structure Unobserved (E : Env W) (M : Module) (Agree : W → W → Prop) : Prop where
  external : ∀ n vs w, isWrapper n = true →
    (E.external n vs w).1 = .returned none ∧ Agree w (E.external n vs w).2
  defined : ∀ F ∈ M.defs, isWrapper F.name = true → ∀ args w K,
    ∃ k t L g rest, Lib.runFor (step E M) k ⟨F.enter args :: K, w, none⟩ = some (t, L) ∧
      t.stack = g :: K ∧ g.rest = .term (.ret none) :: rest ∧ Agree w t.world ∧
      ∀ j ≤ k, ∀ u L', Lib.runFor (step E M) j ⟨F.enter args :: K, w, none⟩ = some (u, L') →
        K.length < u.stack.length

def Wait.dst : Wait → Option ℕ
  | .running => none
  | .call dst => dst
  | .invoke dst _ _ => dst

theorem Operand.eval_congr {E : Env W} {dl : DataLayout} {ρ ρ' : ℕ → ℕ} {v : Operand}
    (h : ∀ r ∈ v.regs, ρ' r = ρ r) : v.eval E dl ρ' = v.eval E dl ρ := by
  cases v with
  | reg r ty => exact h r (by simp [Operand.regs])
  | const c => rfl

theorem Operand.evals_congr {E : Env W} {dl : DataLayout} {ρ ρ' : ℕ → ℕ} {args : List Operand}
    (h : ∀ r ∈ args.flatMap Operand.regs, ρ' r = ρ r) :
    args.map (·.eval E dl ρ') = args.map (·.eval E dl ρ) :=
  List.map_congr_left fun v hv => eval_congr fun r hr => h r (List.mem_flatMap.mpr ⟨v, hv, hr⟩)

/-! ## What is read -/

/-- The same is asked for, in worlds that agree. -/
inductive Action.Agrees (Agree : W → W → Prop) : Action W → Action W → Prop
  | stay {vals : List (ℕ × ℕ)} {events : List Event} {u u' : W} (hu : Agree u u') :
      Agrees Agree (.stay vals u events) (.stay vals u' events)
  | call {wait : Wait} {n : Name} {args : List ℕ} :
      Agrees Agree (.call wait n args) (.call wait n args)
  | back {wait : Wait} {v : Option ℕ} {events : List Event} {u u' : W} (hu : Agree u u') :
      Agrees Agree (.back wait v u events) (.back wait v u' events)
  | jump {l : Label} : Agrees Agree (.jump l) (.jump l)
  | ret {v : Option ℕ} : Agrees Agree (.ret v) (.ret v)
  | raise : Agrees Agree .raise .raise
  | stuck : Agrees Agree .stuck .stuck

section
variable {E : Env W} {Agree : W → W → Prop} {w w' : W} {dl : DataLayout} {ρ ρ' : ℕ → ℕ}

theorem Callee.action_agrees (hE : Respects E Agree) (hw : Agree w w') {c : Callee} (wait : Wait)
    (args : List ℕ) (hρ : ∀ r ∈ c.regs, ρ' r = ρ r) :
    (c.action E dl ρ w wait args).Agrees Agree (c.action E dl ρ' w' wait args) := by
  cases c with
  | fn n => exact .call
  | value v stripped =>
    have hv : v.eval E dl ρ' = v.eval E dl ρ := Operand.eval_congr hρ
    simp only [action, hv]
    split
    · exact .call
    · exact .stuck
  | asm id =>
    obtain ⟨hval, hwr, hu⟩ := hE.asm id args w w' hw
    simp only [action, ← hval, ← hwr]
    exact .back hu
  | mem kind => exact .back (hE.mem kind args w w' hw)

/-- What an instruction asks for depends on the registers it names and on the world. -/
theorem Inst.action_agrees (hE : Respects E Agree) (hw : Agree w w') (i : Inst)
    (hρ : ∀ r ∈ i.regs, ρ' r = ρ r) : (i.action E dl ρ w).Agrees Agree (i.action E dl ρ' w') := by
  have heval : ∀ v : Operand, v.regs ⊆ i.regs → v.eval E dl ρ' = v.eval E dl ρ := fun v hv =>
    Operand.eval_congr fun r hr => hρ r (hv hr)
  have hevals : ∀ vs : List Operand, vs.flatMap Operand.regs ⊆ i.regs →
      vs.map (·.eval E dl ρ') = vs.map (·.eval E dl ρ) := fun vs hvs =>
    Operand.evals_congr fun r hr => hρ r (hvs hr)
  cases i with
  | phi => exact .stuck
  | store v p =>
    simp only [action, Operand.addr, heval v (by simp [regs]), heval p (by simp [regs])]
    exact .stay (hE.storeMem _ _ _ _ _ hw)
  | ptrToInt dst v ty =>
    simp only [action, Operand.addr, heval v (by simp [regs])]
    exact .stay hw
  | op dst code args =>
    simp only [action, hevals args (by simp [regs])]
    obtain ⟨hval, hwr, hu⟩ := hE.exec code (args.map (·.eval E dl ρ)) w w' hw
    rw [← hval, ← hwr]
    exact .stay hu
  | call dst c args =>
    simp only [action, hevals args (by simp [regs])]
    exact c.action_agrees hE hw _ _ fun r hr => hρ r (by simp [regs, hr])
  | term t =>
    cases t with
    | ret v =>
      cases v with
      | none => exact .ret
      | some v =>
        simp only [action, Terminator.action, Option.map_some,
          heval v (by simp [regs, Terminator.regs])]
        exact .ret
    | br l => exact .jump
    | condBr c l₁ l₂ =>
      simp only [action, Terminator.action, heval c (by simp [regs, Terminator.regs])]
      exact .jump
    | switch v cases otherwise =>
      simp only [action, Terminator.action, heval v (by simp [regs, Terminator.regs])]
      exact .jump
    | invoke dst c args normal target =>
      simp only [action, Terminator.action, hevals args (by simp [regs, Terminator.regs])]
      exact c.action_agrees hE hw _ _ fun r hr => hρ r (by simp [regs, Terminator.regs, hr])
    | resume v => exact .raise
    | unreachable => exact .stuck

theorem Inst.action_dst {i : Inst} {wait : Wait} (h : wait ∈ (i.action E dl ρ w).wait?) {r : ℕ}
    (hr : r ∈ wait.dst) : r ∈ i.regs := by
  cases i with
  | call dst c args =>
    rw [Callee.action_wait h] at hr
    simp only [Wait.dst, Option.mem_def] at hr
    simp [regs, hr]
  | term t =>
    cases t with
    | invoke dst c args normal target =>
      rw [Callee.action_wait h] at hr
      simp only [Wait.dst, Option.mem_def] at hr
      simp [regs, Terminator.regs, hr]
    | _ => simp [action, Terminator.action, Action.wait?] at h
  | _ => simp [action, Action.wait?] at h

end

/-! ## Related frames -/

/-- `f'` runs an extension of the function `f` runs, at the same place. -/
structure Frame.Sim (f f' : Frame) : Prop where
  fn : f.fn.Extends f'.fn
  label : f'.label = f.label
  wait : f'.wait = f.wait
  rest : Inserted f.fn.freshReg f.rest f'.rest
  wrapper : isWrapper f.fn.name = true → f'.rest = f.rest
  regs : ∀ r < f.fn.freshReg, f'.regs r = f.regs r
  below : ∀ i ∈ f.rest, ∀ r ∈ i.regs, r < f.fn.freshReg
  dst_below : ∀ r ∈ f.wait.dst, r < f.fn.freshReg

abbrev StackSim : List Frame → List Frame → Prop := List.Forall₂ Frame.Sim

theorem assign_congr {n : ℕ} {ρ ρ' : ℕ → ℕ} (h : ∀ r < n, ρ' r = ρ r) (vals : List (ℕ × ℕ)) :
    ∀ r < n, assign ρ' vals r = assign ρ vals r := by
  induction vals generalizing ρ ρ' with
  | nil => exact h
  | cons p vals ih =>
    refine ih fun r hr => ?_
    by_cases he : r = p.1
    · simp [he]
    · simp [Function.update_of_ne he, h r hr]

theorem tracing_sim {K K' : List Frame} (h : StackSim K K') : tracing K' = tracing K := by
  induction h with
  | nil => rfl
  | cons hf hfs ih =>
    cases hfs with
    | nil => rfl
    | cons hg hgs =>
      simp only [tracing] at ih ⊢
      rw [hf.fn.name, hg.fn.name, ih]

theorem logAt_sim {K K' : List Frame} (h : StackSim K K') (ev : Event) :
    logAt K' ev = logAt K ev := by
  have hhead : (K'.head?.map (·.fn.name)).getD "" = (K.head?.map (·.fn.name)).getD "" := by
    cases h with
    | nil => rfl
    | cons hf _ => simp [hf.fn.name]
  simp only [logAt, hhead, h.length_eq, tracing_sim h]

theorem splitPhis_inserted {n : ℕ} {l l' : List Inst} (h : Inserted n l l') :
    (splitPhis l').1 = (splitPhis l).1 ∧ Inserted n (splitPhis l).2 (splitPhis l').2 := by
  induction h with
  | nil => exact ⟨rfl, .nil⟩
  | @keep i l l' h ih =>
    cases i with
    | phi d ty inc => exact ⟨by simp [splitPhis, ih.1], by simpa [splitPhis] using ih.2⟩
    | _ => exact ⟨rfl, .keep h⟩
  | @insert i l l' hi hl h ih =>
    have hsplit : splitPhis l = ([], l) := by
      cases l with
      | nil => rfl
      | cons j l => exact splitPhis_of_head (hl j (by simp)) l
    rw [hsplit, splitPhis_of_head hi.not_phi]
    exact ⟨rfl, .insert hi hl h⟩

theorem phi_mem_of_splitPhis {l : List Inst} :
    ∀ p ∈ (splitPhis l).1, ∃ ty, Inst.phi p.1 ty p.2 ∈ l := by
  induction l with
  | nil => simp [splitPhis]
  | cons i l ih =>
    cases i with
    | phi d ty inc =>
      simp only [splitPhis, List.mem_cons, forall_eq_or_imp]
      refine ⟨⟨ty, .inl rfl⟩, fun p hp => ?_⟩
      obtain ⟨ty', h⟩ := ih p hp
      exact ⟨ty', .inr h⟩
    | _ => simp [splitPhis]

theorem phiValues_congr {E : Env W} {M M' : Module} (hdl : M'.dataLayout = M.dataLayout)
    {ρ ρ' : ℕ → ℕ} {pred : Label} {ps : List (ℕ × List (Label × Operand))}
    (h : ∀ p ∈ ps, ∀ q ∈ p.2, ∀ r ∈ q.2.regs, ρ' r = ρ r) :
    phiValues E M' ρ' pred ps = phiValues E M ρ pred ps := by
  induction ps with
  | nil => rfl
  | cons p ps ih =>
    obtain ⟨d, inc⟩ := p
    have hps := ih fun p hp => h p (by simp [hp])
    simp only [phiValues, hps, hdl]
    cases hf : inc.find? (·.1 == pred) with
    | none => rfl
    | some q =>
      have hq : q.2.eval E M.dataLayout ρ' = q.2.eval E M.dataLayout ρ :=
        Operand.eval_congr (h (d, inc) (by simp) q (List.mem_of_find?_eq_some hf))
      cases phiValues E M ρ pred ps with
      | none => rfl
      | some vals => simp [hq]

theorem block?_sim {F F' : Function} (h : F.Extends F') (l : Label) :
    Option.Rel (fun b b' => b ∈ F.blocks ∧ b'.label = b.label ∧
      Inserted F.freshReg b.insts b'.insts ∧ (isWrapper F.name = true → b' = b))
      (F.block? l) (F'.block? l) := by
  by_cases hw : isWrapper F.name = true
  · rw [h.wrapper hw]
    cases hb : F.block? l with
    | none => exact .none
    | some b => exact .some ⟨List.mem_of_find?_eq_some hb, rfl, .refl _, fun _ => rfl⟩
  · unfold Function.block?
    have hrel := h.blocks
    have hsub : ∀ b ∈ F.blocks, b ∈ F.blocks := fun _ hb => hb
    revert hrel hsub
    generalize F'.blocks = bs'
    suffices H : ∀ bs, (∀ b ∈ bs, b ∈ F.blocks) →
        List.Forall₂ (fun b b' => b'.label = b.label ∧ Inserted F.freshReg b.insts b'.insts)
          bs bs' →
        Option.Rel (fun b b' => b ∈ F.blocks ∧ b'.label = b.label ∧
          Inserted F.freshReg b.insts b'.insts ∧ (isWrapper F.name = true → b' = b))
          (bs.find? (·.label == l)) (bs'.find? (·.label == l)) from fun hrel hsub => H _ hsub hrel
    intro bs hsub hrel
    induction hrel with
    | nil => exact .none
    | @cons b b' bs bs' hb _ ih =>
      simp only [List.find?_cons, hb.1]
      split
      · exact .some ⟨hsub b (by simp), hb.1, hb.2, fun hw' => absurd hw' hw⟩
      · exact ih fun b hb => hsub b (by simp [hb])

theorem Function.Extends.enter_sim {F F' : Function} (h : F.Extends F') (args : List ℕ) :
    Frame.Sim (F.enter args) (F'.enter args) := by
  have hrel := h.blocks
  have hbelow : ∀ b ∈ F.blocks, ∀ i ∈ b.insts, ∀ r ∈ i.regs, r < F.freshReg :=
    fun b hb i hi r hr => lt_freshReg (mem_regs_of_inst hb hi hr)
  generalize hn : F.freshReg = n at hrel hbelow
  refine ⟨h, ?_, rfl, ?_, fun hw => by rw [h.wrapper hw], fun r _ => ?_, ?_, ?_⟩
  · simp only [enter]
    generalize F.blocks = bs at hrel
    generalize F'.blocks = bs' at hrel
    cases hrel with
    | nil => rfl
    | cons hb _ => simp [hb.1]
  · simp only [enter, hn]
    generalize F.blocks = bs at hrel
    generalize F'.blocks = bs' at hrel
    cases hrel with
    | nil => exact .nil
    | cons hb _ => simpa using hb.2
  · simp only [enter, h.params]
  · simp only [enter, hn]
    cases hb : F.blocks with
    | nil => simp
    | cons b bs => simpa using hbelow b (by simp [hb])
  · simp [enter, Wait.dst]

theorem Module.Extends.lookup_sim {M M' : Module} (h : M.Extends M') (n : Name) :
    Option.Rel Function.Extends (M.lookup n) (M'.lookup n) := by
  unfold Module.lookup
  have hrel := h.defs
  generalize M.defs = fs at hrel
  generalize M'.defs = fs' at hrel
  induction hrel with
  | nil => exact .none
  | cons hF _ ih =>
    simp only [List.find?_cons, hF.name]
    split
    · exact .some hF
    · exact ih

/-! ## One instruction on both sides -/

section
variable {E : Env W} {M M' : Module} {f f' : Frame} {fs fs' K K' : List Frame} {w w' : W}
variable {Agree : W → W → Prop}

theorem Frame.Sim.resumed (h : Frame.Sim f f') {ρ ρ' : ℕ → ℕ}
    (hρ : ∀ r < f.fn.freshReg, ρ' r = ρ r) (wait : Wait)
    (hwait : ∀ r ∈ wait.dst, r < f.fn.freshReg) :
    Frame.Sim { f with regs := ρ, wait := wait } { f' with regs := ρ', wait := wait } :=
  ⟨h.fn, h.label, rfl, h.rest, h.wrapper, hρ, h.below, hwait⟩

theorem Frame.Sim.withRegs (h : Frame.Sim f f') {ρ ρ' : ℕ → ℕ}
    (hρ : ∀ r < f.fn.freshReg, ρ' r = ρ r) :
    Frame.Sim { f with regs := ρ } { f' with regs := ρ' } :=
  ⟨h.fn, h.label, h.wait, h.rest, h.wrapper, hρ, h.below, h.dst_below⟩

theorem goto_sim (hdl : M'.dataLayout = M.dataLayout) (hfn : f.fn.Extends f'.fn)
    (hlabel : f'.label = f.label) (hregs : ∀ r < f.fn.freshReg, f'.regs r = f.regs r) (l : Label) :
    Option.Rel (fun g g' => Frame.Sim g g' ∧ g.wait = .running)
      (f.goto E M l) (f'.goto E M' l) := by
  unfold Frame.goto
  have hblock := block?_sim hfn l
  generalize f.fn.block? l = o at hblock
  generalize f'.fn.block? l = o' at hblock
  cases hblock with
  | none => exact .none
  | @some b b' h =>
    obtain ⟨hmem, -, hins, hw⟩ := h
    obtain ⟨hphis, hrest⟩ := splitPhis_inserted hins
    have hbelow : ∀ i ∈ b.insts, ∀ r ∈ i.regs, r < f.fn.freshReg :=
      fun i hi r hr => Function.lt_freshReg (Function.mem_regs_of_inst hmem hi hr)
    have hvals : phiValues E M' f'.regs f'.label (splitPhis b'.insts).1 =
        phiValues E M f.regs f.label (splitPhis b.insts).1 := by
      rw [hphis, hlabel]
      refine phiValues_congr hdl fun p hp q hq r hr => hregs r ?_
      obtain ⟨ty, hphi⟩ := phi_mem_of_splitPhis p hp
      exact hbelow _ hphi r (List.mem_cons_of_mem _ (List.mem_flatMap.mpr ⟨q, hq, hr⟩))
    simp only [hvals]
    cases phiValues E M f.regs f.label (splitPhis b.insts).1 with
    | none => exact .none
    | some vals =>
      exact .some ⟨⟨hfn, rfl, rfl, hrest, fun h => by rw [hw h], assign_congr hregs vals,
        fun i hi => hbelow i (splitPhis_subset _ hi), by simp [Wait.dst]⟩, rfl⟩

/-- Frames and report after a return or an exception, on both sides. -/
structure ResumeSim (p p' : List Frame × List Entry) : Prop where
  stack : StackSim p.1 p'.1
  running : ∀ f ∈ p.1.head?, f.wait = .running
  log : p'.2 = p.2

theorem goto_resume_sim (hdl : M'.dataLayout = M.dataLayout) (hfn : f.fn.Extends f'.fn)
    (hlabel : f'.label = f.label) (hregs : ∀ r < f.fn.freshReg, f'.regs r = f.regs r)
    (hfs : StackSim fs fs') (l : Label) :
    Option.Rel ResumeSim
      ((f.goto E M l).map fun g => (g :: fs, [logAt (g :: fs) (.block l)]))
      ((f'.goto E M' l).map fun g => (g :: fs', [logAt (g :: fs') (.block l)])) := by
  have hgoto := goto_sim (E := E) hdl hfn hlabel hregs l
  generalize f.goto E M l = o at hgoto
  generalize f'.goto E M' l = o' at hgoto
  cases hgoto with
  | none => exact .none
  | some hg =>
    have hK : StackSim (_ :: fs) (_ :: fs') := .cons hg.1 hfs
    exact .some ⟨hK, by simpa using hg.2, by simp only [logAt_sim hK]⟩

theorem resumeWith_sim (hdl : M'.dataLayout = M.dataLayout) (h : StackSim K K') (v : Option ℕ) :
    Option.Rel ResumeSim (resumeWith E M v K) (resumeWith E M' v K') := by
  cases h with
  | nil => exact .some ⟨.nil, by simp, rfl⟩
  | @cons f f' fs fs' hf hfs =>
    simp only [resumeWith, hf.wait]
    cases f.wait with
    | running => exact .none
    | call dst =>
      have hg := hf.resumed (assign_congr hf.regs (dst.toList.map (·, v.getD 0))) .running
        (by simp [Wait.dst])
      exact .some ⟨.cons hg hfs, by simp, rfl⟩
    | invoke dst normal target =>
      have hg := hf.withRegs (assign_congr hf.regs (dst.toList.map (·, v.getD 0)))
      exact goto_resume_sim hdl hg.fn hg.label hg.regs hfs normal

theorem unwind_sim (hdl : M'.dataLayout = M.dataLayout) (h : StackSim K K') :
    Option.Rel ResumeSim (unwind E M K) (unwind E M' K') := by
  induction h with
  | nil => exact .none
  | @cons f f' fs fs' hf hfs ih =>
    unfold unwind
    rw [hf.wait, hf.fn.nounwind]
    cases f.wait with
    | running => exact .none
    | call dst =>
      dsimp only
      split_ifs
      · exact .none
      · exact ih
    | invoke dst normal target => exact goto_resume_sim hdl hf.fn hf.label hf.regs hfs target

structure StateSim (Agree : W → W → Prop) (s s' : State W) : Prop where
  stack : StackSim s.stack s'.stack
  world : Agree s.world s'.world
  result : s'.result = s.result
  top : ∀ f ∈ s.stack.head?, f.wait = .running ∧ s.result = none

/-- State and report after a step, on both sides. -/
structure StepSim (Agree : W → W → Prop) (p p' : State W × List Entry) : Prop where
  state : StateSim Agree p.1 p'.1
  log : p'.2 = p.2

theorem proceed_sim (hw : Agree w w') (L : List Entry) {r r' : Option (List Frame × List Entry)}
    (h : Option.Rel ResumeSim r r') :
    Option.Rel (StepSim Agree) (proceed w L r) (proceed w' L r') := by
  cases h with
  | none => exact .none
  | some h =>
    exact .some ⟨⟨h.stack, hw, rfl, fun f hf => ⟨h.running f hf, rfl⟩⟩, by simp only [h.log]⟩

theorem external_agree (hE : Respects E Agree) (hW : Unobserved E M' Agree) (hw : Agree w w')
    (n : Name) (args : List ℕ) : (E.external n args w).1 = (E.external n args w').1 ∧
      Agree (E.external n args w).2 (E.external n args w').2 := by
  cases hn : isWrapper n with
  | false => exact hE.external n args w w' hn hw
  | true =>
    obtain ⟨ho, ha⟩ := hW.external n args w hn
    obtain ⟨ho', ha'⟩ := hW.external n args w' hn
    have heq := hE.equivalence
    exact ⟨ho.trans ho'.symm, heq.trans (heq.symm ha) (heq.trans hw ha')⟩

section
variable (hE : Respects E Agree) (hM : M.Extends M') (hW : Unobserved E M' Agree)
variable (hw : Agree w w')
include hE hM hW hw

theorem callFunction_sim (hK : StackSim K K') (n : Name) (args : List ℕ) :
    Option.Rel (StepSim Agree) (callFunction E M K w n args) (callFunction E M' K' w' n args) := by
  unfold callFunction
  have hlookup := hM.lookup_sim n
  generalize M.lookup n = o at hlookup
  generalize M'.lookup n = o' at hlookup
  cases hlookup with
  | some hF =>
    have hK' := List.Forall₂.cons (hF.enter_sim args) hK
    exact .some ⟨⟨hK', hw, rfl, by simp [Function.enter]⟩, by rw [logAt_sim hK, logAt_sim hK']⟩
  | none =>
    have hext := external_agree hE hW hw n args
    dsimp only
    rw [logAt_sim hK]
    cases h : E.external n args w with
    | mk o u =>
      cases h' : E.external n args w' with
      | mk o' u' =>
        rw [h, h'] at hext
        obtain ⟨rfl, hu⟩ := hext
        cases o with
        | returned v => exact proceed_sim hu _ (resumeWith_sim hM.dataLayout hK v)
        | unwound => exact proceed_sim hu _ (unwind_sim hM.dataLayout hK)

/-- The same is asked for in both, in worlds that agree. -/
theorem perform_sim (hf : Frame.Sim f f') (hrun : f.wait = .running) (hfs : StackSim fs fs')
    {a a' : Action W} (ha : a.Agrees Agree a')
    (hdst : ∀ wait ∈ a.wait?, ∀ r ∈ wait.dst, r < f.fn.freshReg) :
    Option.Rel (StepSim Agree) (a.perform E M f fs w) (a'.perform E M' f' fs' w') := by
  have hK : StackSim (f :: fs) (f' :: fs') := .cons hf hfs
  have hsusp : ∀ wait ∈ a.wait?,
      StackSim ({ f with wait := wait } :: fs) ({ f' with wait := wait } :: fs') :=
    fun wait hwait => .cons (hf.resumed hf.regs wait (hdst wait hwait)) hfs
  cases ha with
  | stay hu =>
    refine .some ⟨⟨.cons ?_ hfs, hu, rfl, by simpa using hrun⟩, ?_⟩
    · exact hf.withRegs (assign_congr hf.regs _)
    · simp only [funext (logAt_sim hK)]
  | call => exact callFunction_sim hE hM hW hw (hsusp _ rfl) _ _
  | back hu =>
    simp only [Action.perform, funext (logAt_sim (hsusp _ rfl))]
    exact proceed_sim hu _ (resumeWith_sim hM.dataLayout (hsusp _ rfl) _)
  | jump => exact proceed_sim hw _ (goto_resume_sim hM.dataLayout hf.fn hf.label hf.regs hfs _)
  | @ret v =>
    have hres := resumeWith_sim (E := E) hM.dataLayout hfs v
    simp only [Action.perform, logAt_sim hK]
    cases hfs with
    | nil => exact .some ⟨⟨.nil, hw, rfl, by simp⟩, rfl⟩
    | cons hg hgs =>
      revert hres
      generalize resumeWith E M _ (_ :: _) = o
      generalize resumeWith E M' _ (_ :: _) = o'
      rintro (h | _)
      · exact .some ⟨⟨h.stack, hw, rfl, fun f hf => ⟨h.running f hf, rfl⟩⟩, by simp only [h.log]⟩
      · exact .none
  | raise =>
    simp only [Action.perform, hf.fn.nounwind]
    split_ifs
    · exact .none
    · exact proceed_sim hw _ (unwind_sim hM.dataLayout hfs)
  | stuck => exact .none

/-- An instruction of the original function does the same in both. -/
theorem stepInst_sim (hf : Frame.Sim f f') (hrun : f.wait = .running) (hfs : StackSim fs fs')
    {i : Inst} (hi : ∀ r ∈ i.regs, r < f.fn.freshReg) :
    Option.Rel (StepSim Agree) (stepInst E M f fs w i) (stepInst E M' f' fs' w' i) := by
  rw [stepInst_eq, stepInst_eq, hM.dataLayout]
  refine perform_sim hE hM hW hw hf hrun hfs ?_ fun wait hwait r hr => hi r ?_
  · exact i.action_agrees hE hw fun r hr => hf.regs r (hi r hr)
  · exact i.action_dst hwait hr

end

end

end Squint.IR
