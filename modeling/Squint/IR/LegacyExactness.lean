import Squint.IR.Executed

/-! Executions of a module that the older pass has instrumented: on each level of tracing every
fence, store and flush call is directly preceded by its announcement, and nothing else is
announced. -/
namespace Squint.IR.Legacy

/-- A rest of a block with its callbacks. -/
def Announced (dl : DataLayout) (t : Sites) (l' : List Inst) : Prop :=
  ∃ n l, Woven dl t n l l' ∧ ∀ i ∈ l, Plain n i

section
variable {W : Type} {E : Env W} {dl : DataLayout} {t : Sites}

theorem Plain.mono {m n : ℕ} (hmn : m ≤ n) {i : Inst} (h : Plain m i) : Plain n i :=
  ⟨fun r hr => (h.regs r hr).trans_le hmn, h.store_typed, h.noWrapperCall⟩

theorem Announced.splitPhis {l' : List Inst} (h : Announced dl t l') :
    Announced dl t (splitPhis l').2 := by
  obtain ⟨n, l, hw, hl⟩ := h
  induction hw with
  | nil => exact ⟨n, [], .nil, by simp⟩
  | @cons i new l l' fresh hn hnew hw ih =>
    have hrest : Announced dl t (new ++ i :: l') := ⟨n, i :: l, .cons hn hnew hw, hl⟩
    rcases callback_cases hnew with rfl | ⟨-, m, args, -, rfl | ⟨v, ty, rfl⟩⟩
    · cases i with
      | phi => exact ih fun j hj => hl j (by simp [hj])
      | _ => exact hrest
    · exact hrest
    · exact hrest

/-- Next comes an instruction that `x` has announced. -/
def Pending (E : Env W) (dl : DataLayout) (t : Sites) (f : Frame) (x : Announcement) : Prop :=
  ∃ i l, f.rest = i :: l ∧ due E dl t f.regs i = some x ∧ NoWrapperCall i ∧ Announced dl t l

/-- Next comes the call that announces `x`, and then what it announces. -/
def Ready (E : Env W) (dl : DataLayout) (t : Sites) (f : Frame) (x : Announcement) : Prop :=
  ∃ args rest, f.rest = .call none (.fn x.1) args :: rest ∧ isWrapper x.1 = true ∧
    args.map (·.eval E dl f.regs) = x.2 ∧ Pending E dl t { f with rest := rest } x

/-- Such a rest starts with an instruction that is not announced, with an announcement, or with
the cast that belongs to one. -/
theorem Announced.cases_run {f : Frame} (h : Announced dl t f.rest) :
    f.rest = [] ∨
    (∃ i l, f.rest = i :: l ∧ (∀ ρ, due E dl t ρ i = none) ∧ NoWrapperCall i ∧ Announced dl t l) ∨
    (∃ x, Ready E dl t f x) ∨
    ∃ d v ty l x, f.rest = .ptrToInt d v ty :: l ∧
      Ready E dl t { f with rest := l, regs := castRegs E dl d v ty f.regs } x := by
  obtain ⟨n, l, hw, hl⟩ := h
  generalize hr : f.rest = l' at hw
  cases hw with
  | nil => exact .inl rfl
  | @cons i new l l' fresh hn hnew hw =>
    have hi := hl i (by simp)
    have htail : Announced dl t l' := ⟨n, l, hw, fun j hj => hl j (by simp [hj])⟩
    rcases callback_due E (hi.mono hn) hnew with ⟨rfl, hdue⟩ | ⟨m, args, hm, rfl, hdue⟩ |
      ⟨v, ty, m, args, hm, rfl, hdue⟩
    · exact .inr (.inl ⟨i, l', rfl, hdue, hi.noWrapperCall, htail⟩)
    · exact .inr (.inr (.inl ⟨(m, _), args, _, hr, hm, rfl, i, l', rfl, hdue _,
        hi.noWrapperCall, htail⟩))
    · exact .inr (.inr (.inr ⟨fresh, v, ty, _, (m, _), rfl, args, _, rfl, hm, rfl, i, l', rfl,
        hdue _, hi.noWrapperCall, htail⟩))

/-! ## Frames -/

def Instrumented (dl : DataLayout) (t : Sites) (F : Function) : Prop :=
  isWrapper F.name = true ∨ ∀ b ∈ F.blocks, Announced dl t b.insts

def Calm (dl : DataLayout) (t : Sites) (f : Frame) : Prop :=
  Instrumented dl t f.fn ∧ (isWrapper f.fn.name = true ∨ Announced dl t f.rest)

/-- Frames of which those that wait for a wrapper have announced what they do next. -/
inductive Settled (E : Env W) (dl : DataLayout) (t : Sites) :
    List Frame → (ℕ → List (Option Role)) → Prop
  | nil : Settled E dl t [] fun _ => []
  | calm {f : Frame} {fs : List Frame} {owed : ℕ → List (Option Role)} (hf : Calm dl t f)
      (hfs : Settled E dl t fs owed) : Settled E dl t (f :: fs) owed
  | wrapper {g f : Frame} {fs : List Frame} {owed : ℕ → List (Option Role)} {x : Announcement}
      (hg : isWrapper g.fn.name = true) (hn : g.fn.nounwind = true)
      (hf : isWrapper f.fn.name = false) (hfn : Instrumented dl t f.fn)
      (hwait : f.wait = .call none) (hx : Pending E dl t f x) (hfs : Settled E dl t fs owed) :
      Settled E dl t (g :: f :: fs) (Function.update owed (tracing (f :: fs)) [some (.target x)])

/-- Frames of which, in addition, the running one may be at an announcement or behind it. -/
inductive Mode (E : Env W) (dl : DataLayout) (t : Sites) :
    List Frame → (ℕ → List (Option Role)) → Prop
  | settled {K : List Frame} {owed : ℕ → List (Option Role)} (h : Settled E dl t K owed) :
      Mode E dl t K owed
  | ready {f : Frame} {fs : List Frame} {owed : ℕ → List (Option Role)} {x : Announcement}
      (hf : isWrapper f.fn.name = false) (hfn : Instrumented dl t f.fn) (hx : Ready E dl t f x)
      (hfs : Settled E dl t fs owed) : Mode E dl t (f :: fs) owed
  | pending {f : Frame} {fs : List Frame} {owed : ℕ → List (Option Role)} {x : Announcement} {n : ℕ}
      (hn : tracing (f :: fs) = n) (hf : isWrapper f.fn.name = false)
      (hfn : Instrumented dl t f.fn) (hx : Pending E dl t f x) (hfs : Settled E dl t fs owed) :
      Mode E dl t (f :: fs) (Function.update owed n [some (.target x)])

theorem Calm.of_wrapper {f : Frame} (h : isWrapper f.fn.name = true) : Calm dl t f :=
  ⟨.inl h, .inl h⟩

namespace Settled

variable {f f' : Frame} {us K fs : List Frame} {owed : ℕ → List (Option Role)}

theorem calm_head (h : Settled E dl t (f :: fs) owed) : Calm dl t f := by
  cases h with
  | calm hf _ => exact hf
  | wrapper hg => exact .of_wrapper hg

theorem replace (h : Settled E dl t (f :: fs) owed) (hfn : f'.fn = f.fn) (hf' : Calm dl t f') :
    Settled E dl t (f' :: fs) owed := by
  cases h with
  | calm _ hfs => exact .calm hf' hfs
  | wrapper hg hn hf hfn' hwait hx hfs =>
    rw [← hfn] at hg hn
    exact .wrapper hg hn hf hfn' hwait hx hfs

theorem tail (h : Settled E dl t (f :: fs) owed) (hf : isWrapper f.fn.name = false) :
    Settled E dl t fs owed := by
  cases h with
  | calm _ hfs => exact hfs
  | wrapper hg => simp [hf] at hg

theorem tail_of_unwinding (h : Settled E dl t (f :: fs) owed) (hf : f.fn.nounwind = false) :
    Settled E dl t fs owed := by
  cases h with
  | calm _ hfs => exact hfs
  | wrapper _ hn => simp [hf] at hn

theorem drop (h : Settled E dl t (us ++ K) owed) (hus : ∀ u ∈ us, u.fn.nounwind = false) :
    Settled E dl t K owed := by
  induction us with
  | nil => exact h
  | cons u us ih =>
    exact ih (h.tail_of_unwinding (hus u (by simp))) fun v hv => hus v (by simp [hv])

/-- What is owed is owed on the levels of the frames that wait. -/
theorem owed_eq_nil (h : Settled E dl t K owed) {n : ℕ} (hn : tracing K ≤ n) : owed n = [] := by
  induction h with
  | nil => rfl
  | @calm f fs _ _ _ ih => exact ih ((tracing_le_cons f fs).trans hn)
  | @wrapper g f fs _ _ hg _ hf _ _ _ _ ih =>
    rw [tracing_wrapper hg hf] at hn
    have hle := tracing_le_cons f fs
    rw [Function.update_of_ne (by omega)]
    exact ih (by omega)

theorem owed_cases (h : Settled E dl t K owed) (n : ℕ) :
    owed n = [] ∨ ∃ x, owed n = [some (.target x)] := by
  induction h generalizing n with
  | nil => exact .inl rfl
  | calm _ _ ih => exact ih n
  | @wrapper g f fs _ x _ _ _ _ _ _ _ ih =>
    by_cases hn : n = tracing (f :: fs)
    · exact .inr ⟨x, by simp [hn]⟩
    · rw [Function.update_of_ne hn]
      exact ih n

end Settled

end

/-! ## Steps -/

section
variable {W : Type} {E : Env W} {M : Module} {t : Sites} {owed : ℕ → List (Option Role)}

theorem goto_settled {f f' : Frame} {fs : List Frame} {l : Label} (ρ : ℕ → ℕ)
    (hK : Settled E M.dataLayout t (f :: fs) owed)
    (h : Frame.goto E M { f with regs := ρ } l = some f') :
    Settled E M.dataLayout t (f' :: fs) owed := by
  have hfn : f'.fn = f.fn := (Frame.goto_fn h : _)
  refine hK.replace hfn ?_
  obtain ⟨b, ρ', hb, rfl⟩ := Frame.goto_cases h
  have hcalm := hK.calm_head
  refine ⟨hcalm.1, hcalm.1.imp_right fun ha => ?_⟩
  exact (ha b (List.mem_of_find?_eq_some hb)).splitPhis

theorem resume_settled {K stack : List Frame} {r : Option ℕ} {L : List Entry}
    (hK : Settled E M.dataLayout t K owed) (h : resumeWith E M r K = some (stack, L)) :
    Settled E M.dataLayout t stack owed := by
  cases K with
  | nil =>
    simp only [resumeWith, Option.some.injEq, Prod.mk.injEq] at h
    obtain ⟨rfl, -⟩ := h
    exact hK
  | cons f fs =>
    rcases resumeWith_cases h with ⟨dst, -, -, rfl⟩ | ⟨ρ, l, f', -, hf', rfl, -⟩
    · exact hK.replace rfl hK.calm_head
    · exact goto_settled ρ hK hf'

theorem return_mode {f : Frame} {fs stack : List Frame} {r : Option ℕ} {L : List Entry}
    (hK : Settled E M.dataLayout t (f :: fs) owed) (h : resumeWith E M r fs = some (stack, L)) :
    Mode E M.dataLayout t stack owed := by
  cases hK with
  | calm _ hfs => exact .settled (resume_settled hfs h)
  | @wrapper _ f fs _ o _ _ hf hfn hwait hx hfs =>
    simp only [resumeWith, hwait, Option.some.injEq, Prod.mk.injEq] at h
    obtain ⟨rfl, -⟩ := h
    exact .pending (tracing_replace fs rfl) hf hfn hx hfs

theorem unwind_settled {K stack : List Frame} {L : List Entry}
    (hK : Settled E M.dataLayout t K owed) (h : unwind E M K = some (stack, L)) :
    Settled E M.dataLayout t stack owed := by
  obtain ⟨us, f, fs, l, f', rfl, hus, -, hf', rfl, -⟩ := unwind_cases h
  exact goto_settled f.regs (hK.drop hus) hf'

variable (hM : ∀ F ∈ M.defs, Instrumented M.dataLayout t F)
include hM

theorem enter_calm {n : Name} {G : Function} (hG : M.lookup n = some G) (args : List ℕ) :
    Calm M.dataLayout t (G.enter args) := by
  have hok := hM G (Module.lookup_mem hG).1
  refine ⟨hok, hok.imp_right fun ha => ?_⟩
  cases hb : G.blocks with
  | nil => exact ⟨0, [], by simpa [Function.enter, hb] using Woven.nil, by simp⟩
  | cons b bs => simpa [Function.enter, hb] using ha b (by simp [hb])

/-- Whatever the next instruction does, the frames below are as they were. -/
theorem move_mode {f : Frame} {fs stack : List Frame} {i : Inst} {L : List Entry}
    (hK : Settled E M.dataLayout t (f :: fs) owed) (h : Move E M f fs i stack L) :
    Mode E M.dataLayout t stack owed := by
  have hcalm := hK.calm_head
  have hwaits : ∀ wait, Settled E M.dataLayout t ({ f with wait := wait } :: fs) owed :=
    fun _ => hK.replace rfl hcalm
  cases h with
  | @work f' hstack hfn hsame hwait =>
    subst hstack
    refine .settled (hK.replace hfn ?_)
    simpa only [Calm, hfn, hsame] using hcalm
  | @jump l f' _ hgoto hstack =>
    subst hstack
    exact .settled (goto_settled f.regs hK hgoto)
  | enter _ _ hG _ hstack =>
    rw [hstack]
    exact .settled (.calm (enter_calm hM hG _) (hwaits _))
  | back _ _ hres => exact .settled (resume_settled (hwaits _) hres)
  | caught _ _ hres => exact .settled (unwind_settled (hwaits _) hres)
  | ret _ hres => exact return_mode hK hres
  | raise hn hres =>
    exact .settled (unwind_settled (hK.tail_of_unwinding hn) hres)

variable (hE : WrappersReturn E M) {f : Frame} {fs : List Frame} {L : List Executed}
include hE

omit hM in
theorem ready_mode {w : W} {r : Option ℕ} {s : State W} {L' : List Entry} {x : Announcement}
    (hf : isWrapper f.fn.name = false) (hfn : Instrumented M.dataLayout t f.fn)
    (hx : Ready E M.dataLayout t f x) (hfs : Settled E M.dataLayout t fs owed)
    (hL : Announces E M.dataLayout t L owed) (h : step E M ⟨f :: fs, w, r⟩ = some (s, L')) :
    ∃ owed', Mode E M.dataLayout t s.stack owed' ∧
      Announces E M.dataLayout t (L ++ executed (f :: fs)) owed' := by
  obtain ⟨args, rest, hrest, hn, hvals, hpend⟩ := hx
  have hlog : Announces E M.dataLayout t (L ++ executed (f :: fs))
      (Function.update owed (tracing (f :: fs)) [some (.target x)]) := by
    have hrole : role E M.dataLayout t ⟨f.fn.name, tracing (f :: fs), .call none (.fn x.1) args,
        f.regs⟩ = some (.call x) := by
      simp [role, hf, Inst.transfer?, Inst.call?, Callee.target, hvals, hn, Option.filter]
    have hact : some (Role.call x) :: [some (.target x)] = Act.roles (.announced x) := rfl
    rw [← hrole] at hact
    rw [executed_cons hrest]
    exact hL.begins rfl (hfs.owed_eq_nil (tracing_le_cons f fs)) hact
  refine ⟨_, ?_, hlog⟩
  rcases hE.call_cases hn hrest h with ⟨G, hG, hnounwind, hstack, -⟩ | ⟨hstack, -⟩
  · have htK : tracing ({ f with rest := rest, wait := .call none } :: fs) = tracing (f :: fs) :=
      tracing_replace fs rfl
    rw [hstack, ← htK]
    exact .settled (.wrapper hG hnounwind hf hfn rfl hpend hfs)
  · rw [hstack]
    exact .pending (tracing_replace fs rfl) hf hfn hpend hfs

theorem calm_mode {w : W} {r : Option ℕ} {s : State W} {L' : List Entry}
    (hK : Settled E M.dataLayout t (f :: fs) owed) (hL : Announces E M.dataLayout t L owed)
    (h : step E M ⟨f :: fs, w, r⟩ = some (s, L')) :
    ∃ owed', Mode E M.dataLayout t s.stack owed' ∧
      Announces E M.dataLayout t (L ++ executed (f :: fs)) owed' := by
  obtain ⟨f', fs', i, rest, hstack, hrest, hmove⟩ := step_move h
  obtain ⟨rfl, rfl⟩ := List.cons.inj hstack
  have hcalm := hK.calm_head
  have hnil : owed (tracing (f :: fs)) = [] := hK.owed_eq_nil le_rfl
  have hquiet : role E M.dataLayout t ⟨f.fn.name, tracing (f :: fs), i, f.regs⟩ = none →
      Announces E M.dataLayout t (L ++ executed (f :: fs)) owed := by
    intro hrole
    have hact : [role E M.dataLayout t ⟨f.fn.name, tracing (f :: fs), i, f.regs⟩] =
        Act.roles .other := by simp [hrole, Act.roles]
    rw [executed_cons hrest]
    exact hL.quiet hact hnil
  cases hw : isWrapper f.fn.name with
  | true =>
    have hset : Settled E M.dataLayout t ({ f with rest := rest } :: fs) owed :=
      hK.replace rfl (.of_wrapper hw)
    exact ⟨owed, move_mode hM hset hmove, hquiet (by simp [role, hw])⟩
  | false =>
    have ha := hcalm.2.resolve_left (by simp [hw])
    rcases ha.cases_run (E := E) with hr | ⟨j, l, hr, hdue, hj, hl⟩ | ⟨x, hx⟩ |
      ⟨d, v, ty, l, x, hr, hx⟩
    · simp [hr] at hrest
    · obtain ⟨rfl, rfl⟩ := List.cons.inj (hrest.symm.trans hr)
      have hset : Settled E M.dataLayout t ({ f with rest := rest } :: fs) owed :=
        hK.replace rfl ⟨hcalm.1, .inr hl⟩
      refine ⟨owed, move_mode hM hset hmove, hquiet ?_⟩
      simp [role, hw, Inst.transfer?_not_wrapper hj hE.indirect, hdue]
    · exact ready_mode hE hw hcalm.1 hx (hK.tail hw) hL h
    · obtain ⟨rfl, rfl⟩ := List.cons.inj (hrest.symm.trans hr)
      simp only [step, hr, stepInst, Option.some.injEq, Prod.mk.injEq] at h
      obtain ⟨rfl, -⟩ := h
      refine ⟨owed, .ready hw hcalm.1 hx (hK.tail hw), hquiet ?_⟩
      simp [role, hw, Inst.transfer?, Inst.call?, due]

theorem step_mode {s s' : State W} {L' : List Entry} (hs : Mode E M.dataLayout t s.stack owed)
    (hL : Announces E M.dataLayout t L owed) (h : step E M s = some (s', L')) :
    ∃ owed', Mode E M.dataLayout t s'.stack owed' ∧
      Announces E M.dataLayout t (L ++ executed s.stack) owed' := by
  obtain ⟨stack, w, r⟩ := s
  cases hs with
  | settled hs =>
    cases stack with
    | nil => simp [step] at h
    | cons f fs => exact calm_mode hM hE hs hL h
  | ready hf hfn hx hfs => exact ready_mode hE hf hfn hx hfs hL h
  | @pending f fs owed x n hn hf hfn hx hfs =>
    subst hn
    obtain ⟨i, l, hrest, hdue, hi, hl⟩ := hx
    obtain ⟨f', fs', i', rest, hstack, hrest', hmove⟩ := step_move h
    obtain ⟨rfl, rfl⟩ := List.cons.inj hstack
    obtain ⟨rfl, rfl⟩ := List.cons.inj (hrest.symm.trans hrest')
    have hset : Settled E M.dataLayout t ({ f with rest := l } :: fs) owed :=
      .calm ⟨hfn, .inr hl⟩ hfs
    have hrole : role E M.dataLayout t ⟨f.fn.name, tracing (f :: fs), i, f.regs⟩ =
        some (.target x) := by
      simp [role, hf, Inst.transfer?_not_wrapper hi hE.indirect, hdue]
    have hpaid := hL.pays rfl hrole
    have hnil := hfs.owed_eq_nil (tracing_le_cons f fs)
    rw [← hnil, Function.update_eq_self] at hpaid
    exact ⟨owed, move_mode hM hset hmove, by rw [executed_cons hrest]; exact hpaid⟩

/-- In every execution each level is made of acts, of which the last one may be unfinished. -/
theorem run_mode {n : Name} {F : Function} (hF : M.lookup n = some F) {args : List ℕ} {w : W}
    {k : ℕ} {s : State W}
    (h : Lib.runFor (watch E M) k (start F args w) = some (s, L)) :
    ∃ owed, Mode E M.dataLayout t s.stack owed ∧ Announces E M.dataLayout t L owed := by
  have hstart : ∃ owed, Mode E M.dataLayout t (start F args w).stack owed ∧
      Announces E M.dataLayout t [] owed :=
    ⟨_, .settled (.calm (enter_calm hM hF args) .nil), .nil⟩
  refine Lib.runFor_invariant
    (I := fun s L => ∃ owed, Mode E M.dataLayout t s.stack owed ∧ Announces E M.dataLayout t L owed)
    (fun s L₀ u L' hI hst => ?_) hstart h
  obtain ⟨owed, hmode, hL⟩ := hI
  obtain ⟨⟨u', L₁⟩, hstep, heq⟩ := Option.map_eq_some_iff.mp hst
  simp only [Prod.mk.injEq] at heq
  obtain ⟨rfl, rfl⟩ := heq
  exact step_mode hM hE hmode hL hstep

end

section
variable {W : Type} {E : Env W} {dl : DataLayout} {t : Sites} {K : List Frame}
  {owed : ℕ → List (Option Role)}

theorem Mode.owed_eq_nil (h : Mode E dl t K owed) {n : ℕ} (hn : K = [] ∨ tracing K < n) :
    owed n = [] := by
  cases h with
  | settled h => exact h.owed_eq_nil (hn.elim (fun hK => hK ▸ Nat.zero_le n) le_of_lt)
  | @ready f fs _ _ _ _ _ hfs =>
    exact hfs.owed_eq_nil ((tracing_le_cons f fs).trans (hn.resolve_left (by simp)).le)
  | @pending f fs owed x m hm _ _ _ hfs =>
    have hlt : m < n := hm ▸ hn.resolve_left (by simp)
    rw [Function.update_of_ne hlt.ne']
    exact hfs.owed_eq_nil ((tracing_le_cons f fs).trans (hm.trans_le hlt.le))

theorem Mode.owed_cases (h : Mode E dl t K owed) (n : ℕ) :
    owed n = [] ∨ ∃ x, owed n = [some (.target x)] := by
  cases h with
  | settled h => exact h.owed_cases n
  | ready _ _ _ hfs => exact hfs.owed_cases n
  | @pending f fs owed x m _ _ _ _ hfs =>
    by_cases hn : n = m
    · exact .inr ⟨x, by simp [hn]⟩
    · rw [Function.update_of_ne hn]
      exact hfs.owed_cases n

end

/-! ## One for one, in order -/

def Role.called? : Role → Option Announcement
  | .call x => some x
  | .target _ => none

def Role.due? : Role → Option Announcement
  | .call _ => none
  | .target x => some x

theorem flatMap_roles_called_eq (acts : List Act) :
    (acts.flatMap Act.roles).filterMap (·.bind Role.called?) =
      (acts.flatMap Act.roles).filterMap (·.bind Role.due?) := by
  induction acts with
  | nil => rfl
  | cons a acts ih =>
    rw [List.flatMap_cons, List.filterMap_append, List.filterMap_append, ih]
    cases a <;> rfl

def rolesAt {W : Type} (E : Env W) (dl : DataLayout) (t : Sites) (n : ℕ) (L : List Executed) :
    List (Option Role) :=
  (L.filter fun e => e.tracing = n).map (role E dl t)

/-- Without the inserted instructions `F'` is `F`, and the loop finds nothing to do at them. -/
structure Restorable (dl : DataLayout) (t : Sites) (F F' : Function) : Prop where
  wrapper : isWrapper F.name = true → F' = F
  erased : isWrapper F.name = false →
    { F' with blocks := F'.blocks.map fun b => { b with insts := erase F.freshReg b.insts } } = F
  alone : ∀ b ∈ F'.blocks, ∀ i ∈ b.insts, isSilent F.freshReg i = true →
    ∀ fresh, callback dl t fresh i = .ok []

theorem WovenFunction.restorable {dl : DataLayout} {F F' : Function}
    (h : WovenFunction dl sites F F')
    (hcalls : isWrapper F.name = false → ∀ b ∈ F.blocks, ∀ i ∈ b.insts, NoWrapperCall i) :
    Restorable dl sites F F' := by
  refine ⟨h.extends.wrapper, fun hw => ?_, fun b _ i _ hi fresh =>
    callback_of_silent (isSilent_iff.mp hi) fun w => not_contains_of_isWrapper⟩
  simp only [WovenFunction, hw, Bool.false_eq_true, if_false] at h
  obtain ⟨hF', hbs⟩ := h
  have hblocks : F'.blocks.map (fun b => { b with insts := erase F.freshReg b.insts }) =
      F.blocks := by
    have hsilent : ∀ b ∈ F.blocks, ∀ i ∈ b.insts, ¬ Silent F.freshReg i :=
      fun b hb i hi => not_silent hb hi (hcalls hw b hb i hi)
    generalize F.blocks = bs at hbs hsilent
    generalize F'.blocks = bs' at hbs
    generalize F.freshReg = n at hbs hsilent
    induction hbs with
    | nil => rfl
    | @cons b b' bs bs' hb _ ih =>
      rw [List.map_cons, ih fun c hc => hsilent c (by simp [hc]),
        hb.2.erase_eq (hsilent b (by simp)), hb.1]
  rw [hblocks, hF']

theorem WovenFunction.instrumented {dl : DataLayout} {t : Sites} {F F' : Function}
    (hF : F.WellFormed) (h : WovenFunction dl t F F')
    (hcalls : isWrapper F.name = false → ∀ b ∈ F.blocks, ∀ i ∈ b.insts, NoWrapperCall i) :
    Instrumented dl t F' := by
  rw [Instrumented, h.extends.name]
  refine (Bool.eq_false_or_eq_true (isWrapper F.name)).imp_right fun hw => ?_
  simp only [WovenFunction, hw, Bool.false_eq_true, if_false] at h
  intro b' hb'
  obtain ⟨b, hb, hwoven⟩ := exists_left_of_forall₂ h.2 hb'
  refine ⟨F.freshReg, b.insts, hwoven.2, fun i hi => ?_⟩
  refine ⟨fun r hr => Function.lt_freshReg (Function.mem_regs_of_inst hb hi hr), ?_,
    hcalls hw _ hb i hi⟩
  rintro v p rfl
  exact hF.store_typed _ hb v p hi

/-- What the executions of a module show after the pass has run on each of its functions. -/
theorem runOn_announces {W : Type} {E : Env W} {M M' : Module} {t : Sites} {vs : List Name}
    (hM : M.WellFormed)
    (hcalls : ∀ F ∈ M.defs, isWrapper F.name = false → ∀ b ∈ F.blocks, ∀ i ∈ b.insts,
      NoWrapperCall i)
    (hvs : ∀ F ∈ M.defs, vs.count F.name = 1) (hrun : runOn t M vs = .ok M')
    (hE : WrappersReturn E M) {f : Name} {F : Function} (hF : M'.lookup f = some F)
    {args : List ℕ} {w : W} {k : ℕ} {s : State W} {L : List Executed}
    (hL : Lib.runFor (watch E M') k (start F args w) = some (s, L)) :
    ∃ owed, Announces E M'.dataLayout t L owed ∧
      ∀ n, (owed n = [] ∨ ∃ x, owed n = [some (.target x)]) ∧
        (s.stack = [] ∨ tracing s.stack < n → owed n = []) := by
  obtain ⟨hd, hwoven⟩ := runOn_woven hM.names_nodup hvs hrun
  have hinst : ∀ G ∈ M'.defs, Instrumented M'.dataLayout t G := by
    intro G hG
    obtain ⟨G₀, hG₀, hG₀G⟩ := exists_left_of_forall₂ hwoven hG
    rw [hd]
    exact WovenFunction.instrumented (hM.functions G₀ hG₀) hG₀G (hcalls G₀ hG₀)
  have hE' : WrappersReturn E M' := hE.of_extends (extends_of_woven hd hwoven)
  obtain ⟨owed, hmode, hann⟩ := run_mode hinst hE' hF hL
  exact ⟨owed, hann, fun n => ⟨hmode.owed_cases n, hmode.owed_eq_nil⟩⟩

/-- After the pass has run once on every function, bodies are the old ones with callbacks put in,
and on each level of tracing, that is, while a given number of wrappers called from other functions
run, every fence, store and flush call that an execution goes through comes directly after its
announcement: the announcements are, one for one and in order, those instructions. An instruction
may be still to come where the execution is looked at; none is on a level that is left, or once the
execution has ended. -/
theorem fencePass_trace_exact {W : Type} {M : Module} (hM : M.WellFormed)
    (hcalls : ∀ F ∈ M.defs, isWrapper F.name = false → ∀ b ∈ F.blocks, ∀ i ∈ b.insts,
      NoWrapperCall i)
    (hflush : ∀ F ∈ M.defs, isWrapper F.name = false → ∀ b ∈ F.blocks, ∀ i ∈ b.insts,
      FlushSiteTyped M.dataLayout sites i)
    (vs : List Name) (hvs : ∀ F ∈ M.defs, vs.count F.name = 1) :
    ∃ M', runOn sites M vs = .ok M' ∧
      List.Forall₂ (fun F F' => WovenFunction M.dataLayout sites F F' ∧
        Restorable M.dataLayout sites F F') M.defs M'.defs ∧
      ∀ E : Env W, WrappersReturn E M → ∀ f F, M'.lookup f = some F →
        ∀ args w k s L, Lib.runFor (watch E M') k (start F args w) = some (s, L) →
          ∃ owed, Announces E M'.dataLayout sites L owed ∧ ∀ n, (owed n).length ≤ 1 ∧
            (s.stack = [] ∨ tracing s.stack < n → owed n = []) ∧
            (rolesAt E M'.dataLayout sites n L ++ owed n).filterMap (·.bind Role.called?) =
              (rolesAt E M'.dataLayout sites n L ++ owed n).filterMap (·.bind Role.due?) := by
  have htyped : ∀ F ∈ M.defs, isWrapper F.name = false → ∀ b ∈ F.blocks,
      SitesTyped M.dataLayout sites b.insts := fun F hF hw b hb =>
    ⟨(hM.functions F hF).store_typed b hb, hflush F hF hw b hb⟩
  obtain ⟨M', hrun⟩ := runOn_ok hM.names_nodup htyped
    (List.forall₂_same.mpr fun F hF => .inl ⟨hvs F hF, rfl⟩)
  obtain ⟨hd, hwoven⟩ := runOn_woven hM.names_nodup hvs hrun
  refine ⟨M', hrun, ?_, fun E hE f F hF args w k s L hL => ?_⟩
  · exact List.forall₂_iff_get.mpr ⟨hwoven.length_eq, fun k hk hk' =>
      ⟨hwoven.get hk hk', (hwoven.get hk hk').restorable (hcalls _ (List.getElem_mem hk))⟩⟩
  · obtain ⟨owed, hann, hn⟩ := runOn_announces hM hcalls hvs hrun hE hF hL
    refine ⟨owed, hann, fun n => ⟨?_, (hn n).2, ?_⟩⟩
    · rcases (hn n).1 with h | ⟨x, h⟩ <;> simp [h]
    obtain ⟨acts, hacts⟩ := hann n
    rw [rolesAt, hacts]
    exact flatMap_roles_called_eq acts

/-- Run the pass over `M` and then the first `n` steps of `f`. -/
def trace {W : Type} (E : Env W) (M : Module) (vs : List Name) (f : Name) (args : List ℕ) (w : W)
    (n : ℕ) : Option (List Executed) :=
  match runOn sites M vs with
  | .error _ => none
  | .ok M' => (M'.lookup f).bind fun F =>
      (Lib.runFor (watch E M') n (start F args w)).map (·.2)

theorem run_of_trace {W : Type} {E : Env W} {M M' : Module} {vs : List Name} {f : Name}
    {args : List ℕ} {w : W} {n : ℕ} {L : List Executed} (h : trace E M vs f args w n = some L)
    (hrun : runOn sites M vs = .ok M') :
    ∃ F s, M'.lookup f = some F ∧ Lib.runFor (watch E M') n (start F args w) = some (s, L) := by
  simp only [trace, hrun] at h
  obtain ⟨F, hF, h⟩ := Option.bind_eq_some_iff.mp h
  obtain ⟨⟨s, L'⟩, hexec, rfl⟩ := Option.map_eq_some_iff.mp h
  exact ⟨F, s, hF, hexec⟩

end Squint.IR.Legacy

namespace Squint.IR.Driver

open Legacy (sites)

/-! ## The test program of the pass -/

def x : Operand := .const (.global "x" (.ptr (.int 32) 0))

/-- A function of `test_fence.cpp` that does nothing to its argument. -/
def printing (n : Name) : Function where
  name := n
  params := [(0, .ptr (.int 32) 0)]
  nounwind := false
  blocks := [⟨0, [.call none (.fn "printf") [], .term (.ret none)]⟩]

/-- Stores 2, calls the one flush function, and then either fences or calls the other one. -/
def use : Function where
  name := "_Z3usev"
  params := []
  nounwind := false
  blocks := [
    ⟨0, [.store (.const (.int 32 2)) x,
      .call none (.fn "_Z14volatile_flushRi") [x],
      .op (some 0) (.load (.int 32)) [x],
      .op (some 1) (.other "icmp eq") [.reg 0 (.int 32), .const (.int 32 1)],
      .term (.condBr (.reg 1 (.int 1)) 1 2)]⟩,
    ⟨1, [.op none .fence [], .term (.br 3)]⟩,
    ⟨2, [.call none (.fn "_Z12nvdimm_flushRi") [x], .term (.br 3)]⟩,
    ⟨3, [.term (.ret none)]⟩]

def testFence : Module where
  dataLayout := program.dataLayout
  decls := [("printf", ⟨.int 32, []⟩)]
  defs := [printing "_Z12nvdimm_flushRi", printing "_Z14volatile_flushRi", use]

theorem printing_wellFormed (n : Name) : (printing n).WellFormed := by
  refine ⟨by simp [printing], by simp [printing], by simp [printing], ?_, ?_, ?_, ?_⟩
  · simp only [printing, List.mem_singleton, forall_eq]
    exact shaped_of_body [_] (by decide)
  · simp [printing, Inst.isPhi, Inst.isEHPad]
  · simp [printing, Inst.successors, Terminator.successors]
  · simp [printing]

theorem testFence_wellFormed : testFence.WellFormed := by
  refine ⟨by decide, ?_⟩
  simp only [testFence, List.mem_cons, List.not_mem_nil, or_false]
  rintro F (rfl | rfl | rfl)
  · exact printing_wellFormed _
  · exact printing_wellFormed _
  · refine ⟨by decide, by decide, by decide, ?_, by decide, by decide, ?_⟩
    · simp only [use, List.mem_cons, List.not_mem_nil, or_false, forall_eq_or_imp, forall_eq]
      exact ⟨shaped_of_body [_, _, _, _] (by decide), shaped_of_body [_] (by decide),
        shaped_of_body [_] (by decide), shaped_of_body [] (by decide)⟩
    · simp [use, x, Operand.ty, Const.ty, Ty.pointee?]

theorem testFence_noWrapperCall : ∀ F ∈ testFence.defs, isWrapper F.name = false →
    ∀ b ∈ F.blocks, ∀ i ∈ b.insts, NoWrapperCall i := by
  unfold NoWrapperCall
  decide

theorem testFence_sitesTyped : ∀ F ∈ testFence.defs, isWrapper F.name = false →
    ∀ b ∈ F.blocks, ∀ i ∈ b.insts, Legacy.FlushSiteTyped testFence.dataLayout sites i := by
  have hargs : ∀ F ∈ testFence.defs, ∀ b ∈ F.blocks, ∀ i ∈ b.insts, ∀ d c args,
      i = .call d c args → c = .fn "printf" ∨ args = [x] := by
    simp +contextual [testFence, printing, use]
  intro F hF _ b hb i hi d c args hcall hc
  rcases hargs F hF b hb i hi d c args hcall with rfl | rfl
  · exact absurd hc (by decide)
  · exact ⟨x, [], rfl, .inl rfl⟩

/-- The test program's run: the store and one of the two calls are announced. -/
theorem use_trace_exact : ∃ M' F s L owed,
    Legacy.runOn sites testFence (testFence.defs.map (·.name)) = .ok M' ∧
    M'.lookup "_Z3usev" = some F ∧
    Lib.runFor (watch machine M') 14 (start F [] []) = some (s, L) ∧
    Legacy.Announces machine M'.dataLayout sites L owed ∧
    ∀ n, (Legacy.rolesAt machine M'.dataLayout sites n L ++ owed n).filterMap
        (·.bind Legacy.Role.called?) =
      (Legacy.rolesAt machine M'.dataLayout sites n L ++ owed n).filterMap
        (·.bind Legacy.Role.due?) := by
  obtain ⟨L, hL⟩ : ∃ L, Legacy.trace machine testFence (testFence.defs.map (·.name)) "_Z3usev" [] []
      14 = some L := Option.isSome_iff_exists.mp (by decide +kernel)
  obtain ⟨M', hrun, -, h⟩ := Legacy.fencePass_trace_exact testFence_wellFormed
    testFence_noWrapperCall testFence_sitesTyped (testFence.defs.map (·.name)) (by decide)
  obtain ⟨F, s, hF, hexec⟩ := Legacy.run_of_trace hL hrun
  obtain ⟨owed, hann, hn⟩ := h machine ⟨by simp [machine], by simp [machine], by decide⟩ _ F hF
    [] [] 14 s L hexec
  exact ⟨M', F, s, L, owed, hrun, hF, hexec, hann, fun n => (hn n).2.2⟩

def legacyAnnouncements {W : Type} (E : Env W) (dl : DataLayout) (L : List Executed) :
    List Announcement × List Announcement :=
  (L.filterMap fun e => (Legacy.role E dl sites e).bind Legacy.Role.called?,
    L.filterMap fun e => (Legacy.role E dl sites e).bind Legacy.Role.due?)

/-- As with the other passes, a wrapper that stores is called for its own store in between, and
where a wrapper throws, the store it announced does not come. -/
theorem legacyAnnouncements_not_in_step :
    (reentrant.WellFormed ∧ WrappersReturn countdown reentrant ∧
      (∀ F ∈ reentrant.defs, ∀ b ∈ F.blocks, ∀ i ∈ b.insts, NoWrapperCall i) ∧
      (Legacy.trace countdown reentrant (reentrant.defs.map (·.name)) "nova_write_block" [64] 1
        19).map (legacyAnnouncements countdown reentrant.dataLayout) =
        some ([(writeStoreTraceWrapper, [64, 8]), (writeStoreTraceWrapper, [128, 8])],
          [(writeStoreTraceWrapper, [128, 8]), (writeStoreTraceWrapper, [64, 8])])) ∧
    catching.WellFormed ∧
      (∀ F ∈ catching.defs, ∀ b ∈ F.blocks, ∀ i ∈ b.insts, NoWrapperCall i) ∧
      (Legacy.trace throwing catching (catching.defs.map (·.name)) "nova_try_write" [64] 0 5).map
        (legacyAnnouncements throwing catching.dataLayout) =
        some ([(writeStoreTraceWrapper, [64, 8])], []) := by
  refine ⟨⟨reentrant_wellFormed, ⟨by simp [countdown], by simp [countdown], by decide⟩, ?_,
    by decide +kernel⟩, catching_wellFormed, ?_, by decide +kernel⟩
  · unfold NoWrapperCall
    decide
  · unfold NoWrapperCall
    decide

end Squint.IR.Driver
