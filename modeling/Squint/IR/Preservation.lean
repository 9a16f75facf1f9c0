import Squint.IR.Nesting
import Squint.IR.Schedule
import Squint.IR.Simulation

/-! A module and what the passes make of it behave alike, apart from the wrapper calls put in. -/
namespace Squint.IR

variable {W : Type} {E : Env W} {M M' : Module} {Agree : W → W → Prop}

/-! ## Calls that were put in -/

theorem LoggedAbove.invisible {f : Frame} {fs : List Frame} {F : Function} {L : List Entry}
    (hf : isWrapper f.fn.name = false) (hF : isWrapper F.name = true)
    (h : LoggedAbove (f :: fs) F L) : L.filter visible = [] := by
  rw [List.filter_eq_nil_iff]
  intro e he
  obtain ⟨X, ev, hX, rfl⟩ := h e he
  simp [visible, logAt, (tracing_above hf hF hX).ne']

/-- A run that never comes down to `K` stays inside the activation of `F`. -/
theorem runFor_above {K : List Frame} {F : Function} {s : State W} {k : ℕ}
    (hs : Above K F s.stack)
    (hstay : ∀ j ≤ k, ∀ u L, Lib.runFor (step E M) j s = some (u, L) → K.length < u.stack.length)
    {j : ℕ} (hj : j ≤ k) {u : State W} {L : List Entry}
    (hu : Lib.runFor (step E M) j s = some (u, L)) : Above K F u.stack ∧ LoggedAbove K F L := by
  induction j generalizing u L with
  | zero =>
    simp only [Lib.runFor, Option.some.injEq, Prod.mk.injEq] at hu
    obtain ⟨rfl, rfl⟩ := hu
    exact ⟨hs, by simp [LoggedAbove]⟩
  | succ j ih =>
    have hlen := hstay (j + 1) hj u L hu
    obtain ⟨t, L₁, L₂, ht, hlast, rfl⟩ := Lib.runFor_add.mp hu
    obtain ⟨hK, hL₁⟩ := ih (by omega) ht
    obtain ⟨u', L', L'', hstep, hz, rfl⟩ := Lib.runFor_succ.mp hlast
    simp only [Lib.runFor, Option.some.injEq, Prod.mk.injEq] at hz
    obtain ⟨rfl, rfl⟩ := hz
    rcases step_above hK hstep with (⟨hK', hL'⟩ | ⟨hle, -⟩) | ⟨hle, -⟩
    · refine ⟨hK', fun e he => ?_⟩
      simp only [List.append_nil, List.mem_append] at he
      exact he.elim (hL₁ e) (hL' e)
    all_goals omega

section
variable {f : Frame} {fs : List Frame} {w : W} {r : Option ℕ} {n : Name} {args : List Operand}
  {rest : List Inst}

theorem externalWrapper_leap (hW : Unobserved E M Agree) (hf : isWrapper f.fn.name = false)
    (hn : isWrapper n = true) (hrest : f.rest = .call none (.fn n) args :: rest)
    (hl : M.lookup n = none) :
    ∃ u, Lib.Leap (step E M) visible 1 ⟨f :: fs, w, r⟩
      ⟨{ f with rest := rest, wait := .running } :: fs, u, none⟩ [] ∧ Agree w u := by
  set vals := args.map (·.eval E M.dataLayout f.regs) with hvals
  set K := { f with rest := rest, wait := .call none } :: fs with hKdef
  obtain ⟨ho, ha⟩ := hW.external n vals w hn
  have hone : step E M ⟨f :: fs, w, r⟩ =
      some (⟨{ f with rest := rest, wait := .running } :: fs, (E.external n vals w).2, none⟩,
        [logAt K (.call n vals)]) := by
    rw [step_call hrest, callFunction, hl]
    revert ho
    cases E.external n vals w with
    | mk o u =>
      rintro rfl
      rfl
  have hcall : visible (logAt K (.call n vals)) = false := by
    simp [visible, Entry.isWrapperCall, logAt, hn, hf, hKdef]
  have hleap : Lib.Leap (step E M) visible 1 _ _ _ := .one hone
  rw [List.filter_cons_of_neg (by simp [hcall]), List.filter_nil] at hleap
  exact ⟨_, hleap, ha⟩

/-- The call of a wrapper that the module defines: its activation is left only by its return. -/
theorem definedWrapper_leap (hW : Unobserved E M Agree) {F : Function}
    (hf : isWrapper f.fn.name = false) (hF : M.lookup F.name = some F)
    (hn : isWrapper F.name = true) (hrest : f.rest = .call none (.fn F.name) args :: rest) :
    ∃ m u, Lib.Leap (step E M) visible (m + 1) ⟨f :: fs, w, r⟩
      ⟨{ f with rest := rest, wait := .running } :: fs, u, none⟩ [] ∧ Agree w u := by
  set vals := args.map (·.eval E M.dataLayout f.regs) with hvals
  set K := { f with rest := rest, wait := .call none } :: fs with hKdef
  obtain ⟨k, t, L, g, rest', hrun, hstack, hret, ha, hstay⟩ :=
    hW.defined F (Module.lookup_mem hF).1 hn vals w K
  have henter : Above K F (F.enter vals :: K) := ⟨[], F.enter vals, rfl, rfl⟩
  have hK : isWrapper ({ f with rest := rest, wait := .call none } : Frame).fn.name = false := hf
  have hone : Lib.Reaches (step E M) visible 1 ⟨f :: fs, w, r⟩ ⟨F.enter vals :: K, w, none⟩ [] := by
    refine ⟨_, Lib.runFor_one (step_enter hrest hF), ?_⟩
    rw [List.filter_cons_of_neg (by simp [visible, Entry.isWrapperCall, logAt, hn, hf])]
    exact LoggedAbove.invisible hK hn (.singleton henter _)
  have hbody : ∀ j ≤ k, ∀ u V, Lib.Reaches (step E M) visible j ⟨F.enter vals :: K, w, none⟩ u V →
      V = [] := by
    rintro j hj u _ ⟨L', hu, rfl⟩
    exact LoggedAbove.invisible hK hn (runFor_above henter hstay hj hu).2
  have htop : Above K F t.stack := (runFor_above henter hstay le_rfl hrun).1
  have hlast : step E M t = some (⟨{ f with rest := rest, wait := .running } :: fs, t.world, none⟩,
      [logAt ({ g with rest := rest' } :: K) (.ret none)]) := by
    simp only [step, hstack, hret]
    rfl
  refine ⟨1 + k, t.world, ⟨?_, ?_⟩, ha⟩
  · have h₁ := hone.trans ⟨L, hrun, hbody k le_rfl t _ ⟨L, hrun, rfl⟩⟩
    refine h₁.trans ⟨_, Lib.runFor_one hlast, ?_⟩
    rw [hstack] at htop
    exact LoggedAbove.invisible hK hn (.singleton (htop.replace_top rfl) _)
  · intro j hj u V hu
    cases j with
    | zero => exact hu.zero.2
    | succ j =>
      rw [Nat.add_comm] at hu
      obtain ⟨V', hV', rfl⟩ := hone.split hu
      exact hbody j (by omega) u _ hV'

/-- The call of a wrapper from another function, up to its return, is invisible. -/
theorem wrapperCall_leap (hW : Unobserved E M Agree) (hf : isWrapper f.fn.name = false)
    (hn : isWrapper n = true) (hrest : f.rest = .call none (.fn n) args :: rest) :
    ∃ m u, Lib.Leap (step E M) visible (m + 1) ⟨f :: fs, w, r⟩
      ⟨{ f with rest := rest, wait := .running } :: fs, u, none⟩ [] ∧ Agree w u := by
  cases hl : M.lookup n with
  | none =>
    obtain ⟨u, hleap, ha⟩ := externalWrapper_leap hW hf hn hrest hl
    exact ⟨0, u, hleap, ha⟩
  | some F =>
    obtain ⟨-, rfl⟩ := Module.lookup_mem hl
    exact definedWrapper_leap hW hf hl hn hrest

end

/-! ## The bisimulation -/

theorem Inserted.length_le {n : ℕ} {l l' : List Inst} (h : Inserted n l l') :
    l.length ≤ l'.length := by
  induction h with
  | nil => simp
  | keep _ ih => simpa using ih
  | insert _ _ _ ih => simp; omega

theorem Frame.Sim.not_wrapper {f f' : Frame} (h : Frame.Sim f f') {i : Inst} {l' : List Inst}
    (hr : f'.rest = i :: l') (hl : Inserted f.fn.freshReg f.rest l') :
    isWrapper f.fn.name = false := by
  rw [Bool.eq_false_iff]
  intro hw
  have hlen := hl.length_le
  rw [← h.wrapper hw, hr, List.length_cons] at hlen
  omega

theorem Frame.Sim.skip {f f' : Frame} (h : Frame.Sim f f') {l' : List Inst}
    (hw : isWrapper f.fn.name = false) (hl : Inserted f.fn.freshReg f.rest l') :
    Frame.Sim f { f' with rest := l' } :=
  ⟨h.fn, h.label, h.wait, hl, fun h' => absurd h' (by simp [hw]), h.regs, h.below, h.dst_below⟩

theorem Frame.Sim.tail {f f' : Frame} (h : Frame.Sim f f') {i : Inst} {l l' : List Inst}
    (hr : f.rest = i :: l) (hr' : f'.rest = i :: l') (hl : Inserted f.fn.freshReg l l') :
    Frame.Sim { f with rest := l } { f' with rest := l' } :=
  ⟨h.fn, h.label, h.wait, hl, fun hw => by simpa [hr, hr'] using h.wrapper hw, h.regs,
    fun j hj => h.below j (by simp [hr, hj]), h.dst_below⟩

def pending (s : State W) : ℕ := (s.stack.head?.map (·.rest.length)).getD 0

/-- Both executions have returned to the outside, with the same value, or neither has. -/
def SameEnd (s s' : State W) : Prop := (s.stack = [] ↔ s'.stack = []) ∧ s'.result = s.result

section
variable (hE : Respects E Agree) (hM : M.Extends M') (hW : Unobserved E M' Agree)
include hE hM hW

omit hM in
theorem inserted_alone {f f' : Frame} {fs fs' : List Frame} {w w' : W} {r : Option ℕ} {i : Inst}
    {l' : List Inst} (hs : StateSim Agree ⟨f :: fs, w, r⟩ ⟨f' :: fs', w', r⟩)
    (hr' : f'.rest = i :: l') (hi : Silent f.fn.freshReg i)
    (hl : Inserted f.fn.freshReg f.rest l') :
    Lib.Matched (step E M) (step E M') visible (StateSim Agree) pending SameEnd
      ⟨f :: fs, w, r⟩ ⟨f' :: fs', w', r⟩ := by
  obtain ⟨hrun, hres⟩ := hs.top f rfl
  obtain rfl : r = none := hres
  have hw : Agree w w' := hs.world
  cases hs.stack with
  | cons hf hfs =>
  have hnw := hf.not_wrapper hr' hl
  have hskip := hf.skip hnw hl
  unfold Silent at hi
  split at hi
  · rename_i d v ty
    set a := v.addr E M'.dataLayout f'.regs % 2 ^ ty.intBits
    have hstep : step E M' ⟨f' :: fs', w', none⟩ =
        some (⟨{ f' with rest := l', regs := Function.update f'.regs d a } :: fs', w', none⟩,
          []) := by
      simp only [step, hr']
      rfl
    have hregs : ∀ q < f.fn.freshReg, Function.update f'.regs d a q = f.regs q := fun q hq => by
      rw [Function.update_of_ne (by omega)]
      exact hf.regs q hq
    exact .alone (.one hstep) (by simp [pending, hr'])
      ⟨.cons (hskip.withRegs hregs) hfs, hw, rfl, hs.top⟩
  · obtain ⟨m, u, hleap, ha⟩ := wrapperCall_leap hW (by rwa [hf.fn.name]) hi hr'
    refine .alone hleap (by simp [pending, hr'])
      ⟨.cons ?_ hfs, hE.equivalence.trans hw ha, rfl, hs.top⟩
    rw [← hrun, ← hf.wait]
    exact hskip
  · exact hi.elim

omit hE hM hW in
theorem lockstep_matched {s s' : State W} (hend : SameEnd s s')
    (h : Option.Rel (StepSim Agree) (step E M s) (step E M' s')) :
    Lib.Matched (step E M) (step E M') visible (StateSim Agree) pending SameEnd s s' := by
  refine .of_steps (.refl s) (.refl s') hend ?_
  generalize step E M s = o at h
  generalize step E M' s' = o' at h
  cases h with
  | none => exact .none
  | some h => exact .some ⟨h.state, by rw [h.log]⟩

theorem extends_bisimulation : Lib.Bisimulation (step E M) (step E M') visible
    (StateSim Agree) pending SameEnd := by
  rintro ⟨stack, w, r⟩ ⟨stack', w', r'⟩ hs
  obtain rfl : r' = r := hs.result
  cases id hs.stack with
  | nil => exact lockstep_matched ⟨Iff.rfl, rfl⟩ .none
  | @cons f f' fs fs' hf hfs =>
    have hend : SameEnd (W := W) ⟨f :: fs, w, r'⟩ ⟨f' :: fs', w', r'⟩ := ⟨by simp, rfl⟩
    have hins := hf.rest
    generalize hl : f.rest = l at hins
    generalize hl' : f'.rest = l' at hins
    cases hins with
    | nil =>
      refine lockstep_matched hend ?_
      simp only [step, hl, hl']
      exact .none
    | @keep i l l' hins =>
      refine lockstep_matched hend ?_
      simp only [step, hl, hl']
      exact stepInst_sim hE hM hW hs.world (hf.tail hl hl' hins) (hs.top f rfl).1 hfs
        (hf.below i (by simp [hl]))
    | insert hi _ hins => exact inserted_alone hE hW hs hl' hi (hl ▸ hins)

end

/-! ## Behaviour -/

/-- The call of `F` shows `V`, and returns `v` to the outside. -/
def Returns (E : Env W) (M : Module) (F : Function) (args : List ℕ) (w : W) (V : List Entry)
    (v : Option ℕ) : Prop :=
  ∃ t, Lib.Halts (step E M) visible (start F args w) t V ∧ t.stack = [] ∧ t.result = v

/-- `F` in `M` and `F'` in `M'` show the same, return the same and stop together. -/
structure SameBehaviour (E : Env W) (M M' : Module) (F F' : Function) (args : List ℕ) (w : W) :
    Prop where
  observes : ∀ V, Lib.Observes (step E M) visible (start F args w) V ↔
    Lib.Observes (step E M') visible (start F' args w) V
  returns : ∀ V v, Returns E M F args w V v ↔ Returns E M' F' args w V v
  halts : ∀ V, (∃ t, Lib.Halts (step E M) visible (start F args w) t V) ↔
    ∃ t, Lib.Halts (step E M') visible (start F' args w) t V

theorem Module.Extends.sameBehaviour (hE : Respects E Agree) (hM : M.Extends M')
    (hW : Unobserved E M' Agree) {F F' : Function} (hF : F.Extends F') (args : List ℕ) (w : W) :
    SameBehaviour E M M' F F' args w := by
  have hb := extends_bisimulation hE hM hW
  have hstart : StateSim Agree (start F args w) (start F' args w) :=
    ⟨.cons (hF.enter_sim args) .nil, hE.equivalence.refl w, rfl, by simp [start, Function.enter]⟩
  refine ⟨hb.observes_iff hstart, fun V v => ⟨?_, ?_⟩, fun V => ⟨?_, ?_⟩⟩
  · rintro ⟨t, ht, hstack, hres⟩
    obtain ⟨t', ht', hend⟩ := hb.halts_right hstart ht
    exact ⟨t', ht', hend.1.mp hstack, hend.2.trans hres⟩
  · rintro ⟨t', ht', hstack, hres⟩
    obtain ⟨t, ht, hend⟩ := hb.halts_left hstart ht'
    exact ⟨t, ht, hend.1.mpr hstack, hend.2.symm.trans hres⟩
  · rintro ⟨t, ht⟩
    obtain ⟨t', ht', -⟩ := hb.halts_right hstart ht
    exact ⟨t', ht'⟩
  · rintro ⟨t', ht'⟩
    obtain ⟨t, ht, -⟩ := hb.halts_left hstart ht'
    exact ⟨t, ht⟩

/-- However the two passes are run over a well-formed module, they succeed, and every function
behaves in the result as it did before, on every machine that does not see the wrappers' work. -/
theorem runPasses_sameBehaviour (hM : M.WellFormed) (hfl : FlushTakesAddress M) (once : Once)
    (ps : List PassRun) : ∃ once' M', runPasses (once, M) ps = .ok (once', M') ∧
      ∀ (E : Env W) (Agree : W → W → Prop), Respects E Agree → Unobserved E M' Agree →
        ∀ f F, M.lookup f = some F → ∃ F', M'.lookup f = some F' ∧
          ∀ args w, SameBehaviour E M M' F F' args w := by
  obtain ⟨once', M', hrun, hext⟩ := runPasses_extends hM hfl once ps
  refine ⟨once', M', hrun, fun E Agree hE hW f F hF => ?_⟩
  have hlookup := hext.lookup_sim f
  rw [hF] at hlookup
  generalize hF' : M'.lookup f = o at hlookup
  cases hlookup with
  | some h => exact ⟨_, rfl, hext.sameBehaviour hE hW h⟩

namespace Driver

theorem machine_unobserved {M : Module} (h : ∀ n ∈ M.defs.map (·.name), isWrapper n = false) :
    Unobserved machine M Eq := by
  refine ⟨fun _ _ _ _ => ⟨rfl, rfl⟩, fun F hF hw => ?_⟩
  rw [h _ (List.mem_map_of_mem hF)] at hw
  exact absurd hw (by simp)

theorem instrumented_sameBehaviour : ∃ once' M' F',
    runPasses (⟨false, false⟩, program) schedule = .ok (once', M') ∧
    M'.lookup writeBlock.name = some F' ∧
    ∀ args w, SameBehaviour machine program M' writeBlock F' args w := by
  obtain ⟨once', M', hrun, h⟩ :=
    runPasses_sameBehaviour wellFormed flushTakesAddress ⟨false, false⟩ schedule
  obtain ⟨_, M₁, hrun₁, hext⟩ :=
    runPasses_extends wellFormed flushTakesAddress ⟨false, false⟩ schedule
  obtain rfl : M' = M₁ := by
    rw [hrun] at hrun₁
    simp only [Except.ok.injEq, Prod.mk.injEq] at hrun₁
    exact hrun₁.2
  have hnames : ∀ n ∈ M'.defs.map (·.name), isWrapper n = false := by
    rw [hext.names]
    decide
  obtain ⟨F', hF', hsame⟩ := h machine Eq (.eq machine) (machine_unobserved hnames)
    writeBlock.name writeBlock (by decide)
  exact ⟨once', M', F', hrun, hF', hsame⟩

end Driver

end Squint.IR
