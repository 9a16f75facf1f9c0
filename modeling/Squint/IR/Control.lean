import Squint.IR.Semantics

/-! What one step can do to the call stack, said once for every instruction. -/
namespace Squint.IR

variable {W : Type} {E : Env W} {M : Module}

def Wait.targets : Wait → List Label
  | .invoke _ normal target => [normal, target]
  | _ => []

def Callee.target (E : Env W) (dl : DataLayout) (regs : ℕ → ℕ) : Callee → Option Name
  | .fn n => some n
  | .value v _ => E.functionAt (v.eval E dl regs)
  | _ => none

def Inst.callee? : Inst → Option Callee
  | .call _ c _ => some c
  | .term (.invoke _ c _ _ _) => some c
  | _ => none

theorem logAt_wait (f : Frame) (wait : Wait) (fs : List Frame) (ev : Event) :
    logAt ({ f with wait := wait } :: fs) ev = logAt (f :: fs) ev := by
  cases fs <;> rfl

theorem Frame.goto_cases {f f' : Frame} {l : Label} (h : f.goto E M l = some f') :
    ∃ b ρ, f.fn.block? l = some b ∧
      f' = { f with label := l, rest := (splitPhis b.insts).2, regs := ρ, wait := .running } := by
  unfold Frame.goto at h
  split at h
  · simp at h
  · rename_i b hb
    obtain ⟨vals, -, rfl⟩ := Option.map_eq_some_iff.mp h
    exact ⟨b, _, hb, rfl⟩

theorem Frame.goto_fn {f f' : Frame} {l : Label} (h : f.goto E M l = some f') :
    f'.fn = f.fn := by
  obtain ⟨b, ρ, -, rfl⟩ := goto_cases h
  rfl

theorem resumeWith_cases {f : Frame} {fs stack : List Frame} {v : Option ℕ} {L : List Entry}
    (h : resumeWith E M v (f :: fs) = some (stack, L)) :
    (∃ dst, f.wait = .call dst ∧ L = [] ∧
      stack = { f with regs := assignDst f.regs dst v, wait := .running } :: fs) ∨
    ∃ ρ l f', l ∈ f.wait.targets ∧ Frame.goto E M { f with regs := ρ } l = some f' ∧
      stack = f' :: fs ∧ L = [logAt (f' :: fs) (.block l)] := by
  simp only [resumeWith] at h
  split at h
  · simp at h
  · rename_i dst hwait
    simp only [Option.some.injEq, Prod.mk.injEq] at h
    exact .inl ⟨dst, hwait, h.2.symm, h.1.symm⟩
  · rename_i dst l target hwait
    obtain ⟨f', hf', h⟩ := Option.map_eq_some_iff.mp h
    simp only [Prod.mk.injEq] at h
    exact .inr ⟨_, l, f', by simp [hwait, Wait.targets], hf', h.1.symm, h.2.symm⟩

/-- An exception ends in the invoke of some frame; those it left could be unwound. -/
theorem unwind_cases {K stack : List Frame} {L : List Entry}
    (h : unwind E M K = some (stack, L)) :
    ∃ us f fs l f', K = us ++ f :: fs ∧ (∀ u ∈ us, u.fn.nounwind = false) ∧ l ∈ f.wait.targets ∧
      f.goto E M l = some f' ∧ stack = f' :: fs ∧ L = [logAt (f' :: fs) (.block l)] := by
  induction K with
  | nil => simp [unwind] at h
  | cons f fs ih =>
    unfold unwind at h
    split at h
    · simp at h
    · split_ifs at h with hn
      obtain ⟨us, g, gs, l, g', rfl, hus, hrest⟩ := ih h
      refine ⟨f :: us, g, gs, l, g', rfl, fun u hu => ?_, hrest⟩
      rcases List.mem_cons.mp hu with rfl | hu
      · simpa using hn
      · exact hus u hu
    · rename_i dst normal l hwait
      obtain ⟨f', hf', h⟩ := Option.map_eq_some_iff.mp h
      simp only [Prod.mk.injEq] at h
      exact ⟨[], f, fs, l, f', rfl, by simp, by simp [hwait, Wait.targets], hf', h.1.symm, h.2.symm⟩

/-- The events of a call that enters no function of the module. -/
def IdleCall (E : Env W) (M : Module) (regs : ℕ → ℕ) (c : Callee) : Event → Prop
  | .call n _ => c.target E M.dataLayout regs = some n
  | .write k _ _ _ => k ≠ .store
  | _ => False

/-- What the instruction `i` can do in the frame `f`, whose remaining instructions are those after
`i`, with the frames `fs` below it. -/
inductive Move (E : Env W) (M : Module) (f : Frame) (fs : List Frame) (i : Inst)
    (stack : List Frame) (L : List Entry) : Prop
  | work {f' : Frame} (hstack : stack = f' :: fs) (hfn : f'.fn = f.fn)
      (hrest : f'.rest = f.rest) (hwait : f'.wait = f.wait) (hlog : ∀ e ∈ L, ∃ k a n d,
        e = logAt (f :: fs) (.write k a n d) ∧ (k = .store → i.isStore = true))
  | jump {l : Label} {f' : Frame} (hl : l ∈ i.successors) (hgoto : f.goto E M l = some f')
      (hstack : stack = f' :: fs) (hlog : L = [logAt (f' :: fs) (.block l)])
  | enter {c : Callee} {n : Name} {G : Function} {args : List ℕ} {wait : Wait}
      (hc : i.callee? = some c) (hn : c.target E M.dataLayout f.regs = some n)
      (hG : M.lookup n = some G) (hwait : wait.targets ⊆ i.successors)
      (hstack : stack = G.enter args :: { f with wait := wait } :: fs)
      (hlog : L = [logAt (f :: fs) (.call n args), logAt stack (.enter args)])
  | back {c : Callee} {wait : Wait} {r : Option ℕ} {L₀ L₁ : List Entry}
      (hc : i.callee? = some c) (hwait : wait.targets ⊆ i.successors)
      (hres : resumeWith E M r ({ f with wait := wait } :: fs) = some (stack, L₁))
      (hL : L = L₀ ++ L₁)
      (hlog : ∀ e ∈ L₀, ∃ ev, e = logAt (f :: fs) ev ∧ IdleCall E M f.regs c ev)
  | caught {c : Callee} {wait : Wait} {L₀ L₁ : List Entry}
      (hc : i.callee? = some c) (hwait : wait.targets ⊆ i.successors)
      (hres : unwind E M ({ f with wait := wait } :: fs) = some (stack, L₁)) (hL : L = L₀ ++ L₁)
      (hlog : ∀ e ∈ L₀, ∃ ev, e = logAt (f :: fs) ev ∧ IdleCall E M f.regs c ev)
  | ret {v : Option Operand} {r : Option ℕ} {L₁ : List Entry} (hi : i = .term (.ret v))
      (hres : resumeWith E M r fs = some (stack, L₁)) (hlog : L = logAt (f :: fs) (.ret r) :: L₁)
  | raise (hn : f.fn.nounwind = false) (hres : unwind E M fs = some (stack, L))

section
variable {f : Frame} {fs : List Frame} {w : W} {i : Inst} {t : State W} {L : List Entry}

theorem proceed_cases {L₀ : List Entry} {q : Option (List Frame × List Entry)}
    (h : proceed w L₀ q = some (t, L)) : ∃ L₁, q = some (t.stack, L₁) ∧ L = L₀ ++ L₁ := by
  obtain ⟨⟨stack, L₁⟩, hq, h⟩ := Option.map_eq_some_iff.mp h
  obtain ⟨rfl, rfl⟩ := Prod.mk.inj h
  exact ⟨L₁, hq, rfl⟩

/-- A function that is called is entered, has returned, or has been left by an exception. -/
theorem callFunction_cases {K : List Frame} {n : Name} {args : List ℕ}
    (h : callFunction E M K w n args = some (t, L)) :
    (∃ G, M.lookup n = some G ∧ t.stack = G.enter args :: K ∧
      L = [logAt K (.call n args), logAt t.stack (.enter args)]) ∨
    (∃ v L₁, resumeWith E M v K = some (t.stack, L₁) ∧ L = [logAt K (.call n args)] ++ L₁) ∨
    ∃ L₁, (E.external n args w).1 = .unwound ∧ unwind E M K = some (t.stack, L₁) ∧
      L = [logAt K (.call n args)] ++ L₁ := by
  unfold callFunction at h
  split at h
  · rename_i G hG
    simp only [Option.some.injEq, Prod.mk.injEq] at h
    obtain ⟨rfl, rfl⟩ := h
    exact .inl ⟨G, hG, rfl, rfl⟩
  · split at h
    · obtain ⟨L₁, hres, hL⟩ := proceed_cases h
      exact .inr (.inl ⟨_, L₁, hres, hL⟩)
    · rename_i hext
      obtain ⟨L₁, hres, hL⟩ := proceed_cases h
      exact .inr (.inr ⟨L₁, congrArg Prod.fst hext, hres, hL⟩)

theorem callFunction_move {c : Callee} {wait : Wait} {n : Name} {args : List ℕ}
    (hc : i.callee? = some c) (hn : c.target E M.dataLayout f.regs = some n)
    (hwait : wait.targets ⊆ i.successors)
    (h : callFunction E M ({ f with wait := wait } :: fs) w n args = some (t, L)) :
    Move E M f fs i t.stack L := by
  have hcall : ∀ e ∈ [logAt ({ f with wait := wait } :: fs) (.call n args)],
      ∃ ev, e = logAt (f :: fs) ev ∧ IdleCall E M f.regs c ev := fun e he =>
    ⟨.call n args, (List.mem_singleton.mp he).trans (logAt_wait f wait fs _), hn⟩
  rcases callFunction_cases h with ⟨G, hG, hstack, hL⟩ | ⟨v, L₁, hres, hL⟩ | ⟨L₁, -, hres, hL⟩
  · rw [logAt_wait f wait fs] at hL
    exact .enter hc hn hG hwait hstack hL
  · exact .back hc hwait hres hL hcall
  · exact .caught hc hwait hres hL hcall

theorem performCall_move {c : Callee} {wait : Wait} {args : List ℕ} (hc : i.callee? = some c)
    (hwait : wait.targets ⊆ i.successors)
    (h : performCall E M ({ f with wait := wait } :: fs) f.regs w c args = some (t, L)) :
    Move E M f fs i t.stack L := by
  have hwrites : ∀ k : WriteKind, k ≠ .store → ∀ data writes,
      ∀ e ∈ logWrites ({ f with wait := wait } :: fs) k data writes,
        ∃ ev, e = logAt (f :: fs) ev ∧ IdleCall E M f.regs c ev := by
    intro k hk data writes e he
    obtain ⟨p, -, rfl⟩ := List.mem_map.mp he
    exact ⟨.write k p.1 p.2 data, logAt_wait f wait fs _, hk⟩
  cases c with
  | fn n => exact callFunction_move hc rfl hwait h
  | value v stripped =>
    simp only [performCall] at h
    split at h
    · exact callFunction_move hc ‹_› hwait h
    · simp at h
  | asm id =>
    obtain ⟨L₁, hres, hL⟩ := proceed_cases h
    exact .back hc hwait hres hL (hwrites _ (by simp) _ _)
  | mem kind =>
    obtain ⟨L₁, hres, hL⟩ := proceed_cases h
    exact .back hc hwait hres hL (hwrites _ (by simp) _ _)

theorem jump_move {l : Label} (hl : l ∈ i.successors) (h : jump E M f fs w l = some (t, L)) :
    Move E M f fs i t.stack L := by
  obtain ⟨L₁, hjump, rfl⟩ := proceed_cases h
  obtain ⟨f', hf', hjump⟩ := Option.map_eq_some_iff.mp hjump
  obtain ⟨hstack, rfl⟩ := Prod.mk.inj hjump
  exact .jump hl hf' hstack.symm rfl

theorem switchTarget_mem (v : ℕ) (cases : List (ℕ × Label)) (otherwise : Label) :
    switchTarget v cases otherwise ∈ otherwise :: cases.map (·.2) := by
  unfold switchTarget
  cases h : cases.find? (·.1 == v) with
  | none => simp
  | some p =>
    have := List.mem_of_find?_eq_some h
    exact List.mem_cons_of_mem _ (List.mem_map_of_mem this)

theorem stepTerm_move {tm : Terminator} (h : stepTerm E M f fs w tm = some (t, L)) :
    Move E M f fs (.term tm) t.stack L := by
  cases tm with
  | ret v =>
    obtain ⟨⟨stack, L₁⟩, hres, h⟩ := Option.map_eq_some_iff.mp h
    obtain ⟨rfl, rfl⟩ := Prod.mk.inj h
    exact .ret rfl hres rfl
  | br l => exact jump_move (by simp [Inst.successors, Terminator.successors]) h
  | condBr c l₁ l₂ =>
    refine jump_move ?_ h
    split_ifs <;> simp [Inst.successors, Terminator.successors]
  | switch v cases otherwise => exact jump_move (switchTarget_mem _ cases otherwise) h
  | invoke dst c args normal target => exact performCall_move rfl (List.Subset.refl _) h
  | resume v =>
    simp only [stepTerm] at h
    split_ifs at h with hn
    obtain ⟨L₁, hres, rfl⟩ := proceed_cases h
    exact .raise (by simpa using hn) hres
  | unreachable => simp [stepTerm] at h

theorem stepInst_move (h : stepInst E M f fs w i = some (t, L)) : Move E M f fs i t.stack L := by
  cases i with
  | phi => simp [stepInst] at h
  | store v p =>
    simp only [stepInst, Option.some.injEq, Prod.mk.injEq] at h
    obtain ⟨rfl, rfl⟩ := h
    refine .work rfl rfl rfl rfl fun e he => ?_
    exact ⟨_, _, _, _, List.mem_singleton.mp he, fun _ => rfl⟩
  | ptrToInt dst v ty =>
    simp only [stepInst, Option.some.injEq, Prod.mk.injEq] at h
    obtain ⟨rfl, rfl⟩ := h
    exact .work rfl rfl rfl rfl (by simp)
  | op dst code args =>
    simp only [stepInst, Option.some.injEq, Prod.mk.injEq] at h
    obtain ⟨rfl, rfl⟩ := h
    refine .work rfl rfl rfl rfl fun e he => ?_
    obtain ⟨p, -, rfl⟩ := List.mem_map.mp he
    exact ⟨_, _, _, _, rfl, by simp⟩
  | call dst c args => exact performCall_move rfl (by simp [Wait.targets]) h
  | term tm => exact stepTerm_move h

end

theorem step_call {r d : Option ℕ} {n : Name} {args : List Operand} {rest : List Inst}
    (h : f.rest = .call d (.fn n) args :: rest) :
    step E M ⟨f :: fs, w, r⟩ = callFunction E M ({ f with rest := rest, wait := .call d } :: fs) w n
      (args.map (·.eval E M.dataLayout f.regs)) := by
  simp only [step, h]
  rfl

theorem step_enter {r d : Option ℕ} {n : Name} {args : List Operand} {rest : List Inst}
    {G : Function} (h : f.rest = .call d (.fn n) args :: rest) (hG : M.lookup n = some G) :
    step E M ⟨f :: fs, w, r⟩ =
      some (⟨G.enter (args.map (·.eval E M.dataLayout f.regs)) ::
          { f with rest := rest, wait := .call d } :: fs, w, none⟩,
        [logAt ({ f with rest := rest, wait := .call d } :: fs)
            (.call n (args.map (·.eval E M.dataLayout f.regs))),
          logAt (G.enter (args.map (·.eval E M.dataLayout f.regs)) ::
            { f with rest := rest, wait := .call d } :: fs)
            (.enter (args.map (·.eval E M.dataLayout f.regs)))]) := by
  rw [step_call h, callFunction, hG]

theorem step_move {s t : State W} {L : List Entry} (h : step E M s = some (t, L)) :
    ∃ f fs i rest, s.stack = f :: fs ∧ f.rest = i :: rest ∧
      Move E M { f with rest := rest } fs i t.stack L := by
  unfold step at h
  split at h
  · simp at h
  · rename_i f fs hs
    split at h
    · simp at h
    · rename_i i rest hr
      exact ⟨f, fs, i, rest, hs, hr, stepInst_move h⟩

/-! ## What frames run -/

/-- The frame runs a function of the module, and what is left of its block comes from there. -/
def Frame.Runs (M : Module) (g : Frame) : Prop :=
  g.fn ∈ M.defs ∧ ∀ i ∈ g.rest, ∃ b ∈ g.fn.blocks, i ∈ b.insts

theorem splitPhis_of_head {i : Inst} (hi : i.isPhi = false) (l : List Inst) :
    splitPhis (i :: l) = ([], i :: l) := by
  cases i <;> simp_all [splitPhis, Inst.isPhi]

theorem splitPhis_subset (l : List Inst) : (splitPhis l).2 ⊆ l := by
  induction l with
  | nil => simp [splitPhis]
  | cons i l ih =>
    cases i with
    | phi d ty incoming => exact List.subset_cons_of_subset _ ih
    | _ => simp [splitPhis]

theorem Frame.Runs.goto {f f' : Frame} {l : Label} (hf : f.Runs M) (h : f.goto E M l = some f') :
    f'.Runs M := by
  obtain ⟨b, ρ, hb, rfl⟩ := Frame.goto_cases h
  exact ⟨hf.1, fun i hi => ⟨b, List.mem_of_find?_eq_some hb, splitPhis_subset _ hi⟩⟩

theorem Function.enter_runs {F : Function} (hF : F ∈ M.defs) (args : List ℕ) :
    (F.enter args).Runs M := by
  refine ⟨hF, fun i hi => ?_⟩
  cases hb : F.blocks with
  | nil => simp [enter, hb] at hi
  | cons b bs => exact ⟨b, by simp [enter, hb], by simpa [enter, hb] using hi⟩

theorem resumeWith_runs {K stack : List Frame} {v : Option ℕ} {L : List Entry}
    (hK : ∀ g ∈ K, g.Runs M) (h : resumeWith E M v K = some (stack, L)) :
    ∀ g ∈ stack, g.Runs M := by
  cases K with
  | nil =>
    simp only [resumeWith, Option.some.injEq, Prod.mk.injEq] at h
    simp [← h.1]
  | cons f fs =>
    have hf : f.Runs M := hK f (by simp)
    rcases resumeWith_cases h with ⟨dst, -, -, rfl⟩ | ⟨ρ, l, f', -, hf', rfl, -⟩
    · simp only [List.mem_cons, forall_eq_or_imp] at hK ⊢
      exact ⟨hf, hK.2⟩
    · simp only [List.mem_cons, forall_eq_or_imp] at hK ⊢
      have hρ : ({ f with regs := ρ } : Frame).Runs M := hf
      exact ⟨hρ.goto hf', hK.2⟩

theorem unwind_runs {K stack : List Frame} {L : List Entry} (hK : ∀ g ∈ K, g.Runs M)
    (h : unwind E M K = some (stack, L)) : ∀ g ∈ stack, g.Runs M := by
  obtain ⟨us, f, fs, l, f', rfl, -, -, hf', rfl, -⟩ := unwind_cases h
  intro g hg
  rcases List.mem_cons.mp hg with rfl | hg
  · exact (hK f (by simp)).goto hf'
  · exact hK g (by simp [hg])

theorem step_runs {s t : State W} {L : List Entry} (hs : ∀ g ∈ s.stack, g.Runs M)
    (h : step E M s = some (t, L)) : ∀ g ∈ t.stack, g.Runs M := by
  obtain ⟨f, fs, i, rest, hstack, hrest, hmove⟩ := step_move h
  simp only [hstack, List.mem_cons, forall_eq_or_imp] at hs
  obtain ⟨⟨hfn, hi⟩, hfs⟩ := hs
  have hf : ({ f with rest := rest } : Frame).Runs M :=
    ⟨hfn, fun j hj => hi j (by simp [hrest, hj])⟩
  have hwait : ∀ wait : Wait,
      ∀ g ∈ { f with rest := rest, wait := wait } :: fs, g.Runs M := fun wait => by
    simp only [List.mem_cons, forall_eq_or_imp]
    exact ⟨hf, hfs⟩
  cases hmove with
  | @work f' hstack' hfn' hrest' _ _ =>
    simp only [hstack', List.mem_cons, forall_eq_or_imp]
    exact ⟨⟨hfn' ▸ hf.1, by rw [hfn', hrest']; exact hf.2⟩, hfs⟩
  | jump _ hgoto hstack' _ =>
    simp only [hstack', List.mem_cons, forall_eq_or_imp]
    exact ⟨hf.goto hgoto, hfs⟩
  | @enter _ _ G args wait _ _ hG _ hstack' _ =>
    rw [hstack', List.forall_mem_cons]
    exact ⟨Function.enter_runs (List.mem_of_find?_eq_some hG) args, hwait wait⟩
  | back _ _ hres _ _ => exact resumeWith_runs (hwait _) hres
  | caught _ _ hres _ _ => exact unwind_runs (hwait _) hres
  | ret _ hres _ => exact resumeWith_runs hfs hres
  | raise _ hres => exact unwind_runs hfs hres

end Squint.IR
