import Squint.IR.Control
import Squint.IR.Guard

/-! Every store that a function other than a wrapper executes was announced: the last thing its
activation did was to call the store wrapper with the bytes it is about to write. -/
namespace Squint.IR

/-! ## The instrumented module -/

def Covers (dl : DataLayout) (F : Function) : Prop :=
  isWrapper F.name = true ∨ ∀ b ∈ F.blocks, Guarded dl (fun _ => True) b.insts

theorem Covers.prepend {dl : DataLayout} {F : Function} {e : Block} {bs : List Block}
    {new : List Inst} {n : ℕ} (h : Covers dl F) (hb : F.blocks = e :: bs)
    (hnew : ∀ i ∈ new, Silent n i) : Covers dl (F.prepend e bs new) := by
  refine h.imp_right fun h b hb' => ?_
  rw [hb] at h
  rcases List.mem_cons.mp hb' with rfl | hb'
  · exact .append (fun i hi => ⟨(hnew i hi).not_store, trivial⟩) (h e (by simp))
  · exact h b (by simp [hb'])

def CoversDone (dl : DataLayout) (done : List PassRun) (M : Module) : Prop :=
  ∀ F ∈ M.defs, .storeFlush F.name ∈ done → Covers dl F

theorem PassEffect.coversDone {M M₁ M₂ : Module} (hM : M.WellFormed) (hext : M.Extends M₁)
    {done : List PassRun} {once once' : Once} {p : PassRun} (h : CoversDone M.dataLayout done M₁)
    (heff : PassEffect once M₁ p once' M₂) : CoversDone M.dataLayout (done ++ [p]) M₂ := by
  intro G hG hp
  simp only [List.mem_append, List.mem_singleton] at hp
  have hfence := (fenceFlushCallbacks_defs M₁).1
  cases heff with
  | unknown hl =>
    rcases hp with hp | rfl
    · exact h G hG hp
    · exact absurd rfl (Module.lookup_eq_none hl hG)
  | wrapper hw =>
    rcases hp with hp | hp
    · exact h G hG hp
    · simp only [PassRun.storeFlush.injEq] at hp
      exact .inl (hp ▸ hw)
  | @stores F F' changed hF hw he hFF' =>
    rcases Module.mem_update hG with rfl | ⟨hG, hne⟩
    · obtain ⟨F₀, hF₀, hF₀F⟩ := hext.exists_base hF
      have htyped := hF₀F.storesTyped (hM.functions F₀ hF₀)
      obtain ⟨-, hblocks⟩ := instrumentBody_blocks he
      refine .inr fun b' hb' => ?_
      obtain ⟨b, hb, hins⟩ := exists_left_of_forall₂ hblocks hb'
      rw [hext.dataLayout] at hins
      exact hins.guarded hb (htyped b hb) fun _ _ _ => trivial
    · rw [(storeFlushCallbacks_defs M₁).1] at hG
      refine h G hG (hp.resolve_right ?_)
      simpa [hFF'.name] using hne
  | fence hF _ _ hb _ =>
    have hdone := hp.resolve_right (by simp)
    rcases Module.mem_update hG with rfl | ⟨hG, -⟩
    · exact (h _ hF hdone).prepend hb (fenceCallback_silent 0)
    · exact h G (hfence ▸ hG) hdone
  | flush hF _ _ _ _ hb _ =>
    have hdone := hp.resolve_right (by simp)
    rcases Module.mem_update hG with rfl | ⟨hG, -⟩
    · exact (h _ hF hdone).prepend hb (flushGroup_silent _ _ _ _)
    · exact h G (hfence ▸ hG) hdone
  | neither => exact h G (hfence ▸ hG) (hp.resolve_right (by simp))

theorem runPasses_covers {M M' : Module} (hM : M.WellFormed) {ps : List PassRun}
    (hps : ∀ F ∈ M.defs, isWrapper F.name = false → .storeFlush F.name ∈ ps) {once once' : Once}
    (hrun : runPasses (once, M) ps = .ok (once', M')) :
    M.Extends M' ∧ ∀ F ∈ M'.defs, Covers M'.dataLayout F := by
  obtain ⟨hext, hI⟩ := runPasses_invariant hM
    (I := fun done _ M₁ => CoversDone M.dataLayout done M₁) (by simp [CoversDone])
    (fun _ _ _ _ _ _ hext hI heff => heff.coversDone hM hext hI) hrun
  refine ⟨hext, fun F' hF' => ?_⟩
  obtain ⟨F, hF, hFF'⟩ := hext.exists_base hF'
  cases hw : isWrapper F'.name with
  | true => exact .inl hw
  | false =>
    rw [hext.dataLayout]
    refine hI F' hF' ?_
    rw [hFF'.name] at hw ⊢
    exact hps F hF hw

/-! ## Announcements in the log -/

/-- The activation of `fn` at depth `d` called the store wrapper with `x`, and only what lies
above it has reported since. -/
def AnnouncedAt (L : List Entry) (d : ℕ) (fn : Name) (x : List ℕ) : Prop :=
  ∃ L₁ c L₂, L = L₁ ++ c :: L₂ ∧ c.fn = fn ∧ c.depth = d ∧
    c.event = .call writeStoreTraceWrapper x ∧ ∀ e ∈ L₂, d < e.depth

def Entry.Exempt (e : Entry) : Prop :=
  ∀ a n data, e.event = .write .store a n data → isWrapper e.fn = true

def Covered (dl : DataLayout) (L : List Entry) : Prop :=
  ∀ L₁ e L₂ a n data, L = L₁ ++ e :: L₂ → e.event = .write .store a n data →
    isWrapper e.fn = false → AnnouncedAt L₁ e.depth e.fn (storeArguments dl a n)

theorem AnnouncedAt.append {L L' : List Entry} {d : ℕ} {fn : Name} {x : List ℕ}
    (h : AnnouncedAt L d fn x) (hL' : ∀ e ∈ L', d < e.depth) : AnnouncedAt (L ++ L') d fn x := by
  obtain ⟨L₁, c, L₂, rfl, hfn, hd, hev, hL₂⟩ := h
  exact ⟨L₁, c, L₂ ++ L', by simp, hfn, hd, hev,
    fun e he => (List.mem_append.mp he).elim (hL₂ e) (hL' e)⟩

theorem Covered.snoc {dl : DataLayout} {L : List Entry} (h : Covered dl L) {e : Entry}
    (he : ∀ a n data, e.event = .write .store a n data → isWrapper e.fn = false →
      AnnouncedAt L e.depth e.fn (storeArguments dl a n)) : Covered dl (L ++ [e]) := by
  intro L₁ e' L₂ a n data heq hev hfn
  rcases List.append_eq_append_iff.mp heq with ⟨as, rfl, has⟩ | ⟨bs, rfl, hbs⟩
  · cases as with
    | nil =>
      simp only [List.nil_append, List.cons.injEq] at has
      obtain ⟨rfl, -⟩ := has
      simpa using he a n data hev hfn
    | cons a as => simp at has
  · cases bs with
    | nil =>
      simp only [List.nil_append, List.cons.injEq] at hbs
      obtain ⟨rfl, -⟩ := hbs
      simpa using he a n data hev hfn
    | cons b bs =>
      simp only [List.cons_append, List.cons.injEq] at hbs
      obtain ⟨rfl, rfl⟩ := hbs
      exact h L₁ e' bs a n data (by simp) hev hfn

theorem Covered.append {dl : DataLayout} {L L' : List Entry} (h : Covered dl L)
    (hL' : ∀ e ∈ L', e.Exempt) : Covered dl (L ++ L') := by
  induction L' generalizing L with
  | nil => simpa using h
  | cons e L' ih =>
    rw [List.append_cons]
    refine ih (h.snoc fun a n data hev hfn => ?_) fun e' he' => hL' e' (by simp [he'])
    rw [hL' e (by simp) a n data hev] at hfn
    exact absurd hfn (by simp)

/-! ## Frames -/

section
variable {W : Type} {E : Env W} {M : Module} {L L' : List Entry} {f f' : Frame} {fs K : List Frame}

/-- Where the activation at depth `d` that is suspended in `f` stands. -/
def SuspendedOk (E : Env W) (dl : DataLayout) (L : List Entry) (f : Frame) (d : ℕ) : Prop :=
  Covers dl f.fn ∧ (isWrapper f.fn.name = true ∨ Guarded dl (fun _ => True) f.rest ∨
    ∃ x, Pending E dl (fun _ => True) f x ∧ f.wait = .call none ∧ AnnouncedAt L d f.fn.name x)

/-- Where the activation at depth `d` that runs in `f` stands. -/
def RunningOk (E : Env W) (dl : DataLayout) (L : List Entry) (f : Frame) (d : ℕ) : Prop :=
  Covers dl f.fn ∧ (isWrapper f.fn.name = true ∨ Guarded dl (fun _ => True) f.rest ∨
    (∃ x, Ready E dl (fun _ => True) f x) ∨
    ∃ x, Pending E dl (fun _ => True) f x ∧ AnnouncedAt L d f.fn.name x)

def SuspendedStack (E : Env W) (dl : DataLayout) (L : List Entry) : List Frame → Prop
  | [] => True
  | f :: fs => SuspendedOk E dl L f (fs.length + 1) ∧ SuspendedStack E dl L fs

def RunningStack (E : Env W) (dl : DataLayout) (L : List Entry) : List Frame → Prop
  | [] => True
  | f :: fs => RunningOk E dl L f (fs.length + 1) ∧ SuspendedStack E dl L fs

theorem SuspendedStack.append {dl : DataLayout} (h : SuspendedStack E dl L K)
    (hL' : ∀ e ∈ L', K.length < e.depth) : SuspendedStack E dl (L ++ L') K := by
  induction K with
  | nil => trivial
  | cons f fs ih =>
    refine ⟨⟨h.1.1, h.1.2.imp_right (Or.imp_right ?_)⟩,
      ih h.2 fun e he => Nat.lt_of_succ_lt (hL' e he)⟩
    rintro ⟨x, hp, hw, ha⟩
    exact ⟨x, hp, hw, ha.append hL'⟩

theorem SuspendedStack.drop {dl : DataLayout} {us : List Frame}
    (h : SuspendedStack E dl L (us ++ K)) : SuspendedStack E dl L K := by
  induction us with
  | nil => exact h
  | cons u us ih => exact ih h.2

theorem goto_running {l : Label} {d : ℕ} (hf : Covers M.dataLayout f.fn)
    (h : f.goto E M l = some f') : RunningOk E M.dataLayout L f' d := by
  obtain ⟨b, ρ, hb, rfl⟩ := Frame.goto_cases h
  refine ⟨hf, hf.imp_right fun hg => .inl ?_⟩
  exact (hg b (List.mem_of_find?_eq_some hb)).splitPhis

theorem enter_running {dl : DataLayout} {F : Function} {args : List ℕ} {d : ℕ} (hF : Covers dl F) :
    RunningOk E dl L (F.enter args) d := by
  refine ⟨hF, hF.imp_right fun hg => .inl ?_⟩
  simp only [Function.enter]
  cases hb : F.blocks with
  | nil => exact .nil
  | cons b bs => exact hg b (by simp [hb])

theorem exempt_of_event {e : Entry} (h : ∀ a n data, e.event ≠ .write .store a n data) :
    e.Exempt := fun a n data he => absurd he (h a n data)

abbrev Good (E : Env W) (dl : DataLayout) (L : List Entry) (stack : List Frame)
    (L' : List Entry) : Prop :=
  RunningStack E dl (L ++ L') stack ∧ ∀ e ∈ L', e.Exempt

theorem goto_good {l : Label} (hf : Covers M.dataLayout f.fn)
    (hfs : SuspendedStack E M.dataLayout L fs) (h : f.goto E M l = some f') :
    Good E M.dataLayout L (f' :: fs) [logAt (f' :: fs) (.block l)] := by
  refine ⟨⟨goto_running hf h, hfs.append fun e he => ?_⟩, fun e he => ?_⟩
  all_goals rw [List.mem_singleton.mp he]
  · exact Nat.lt_succ_self _
  · exact exempt_of_event (by simp [logAt])

theorem resume_good {stack : List Frame} {r : Option ℕ} (hK : SuspendedStack E M.dataLayout L K)
    (h : resumeWith E M r K = some (stack, L')) : Good E M.dataLayout L stack L' := by
  cases K with
  | nil =>
    simp only [resumeWith, Option.some.injEq, Prod.mk.injEq] at h
    obtain ⟨rfl, rfl⟩ := h
    exact ⟨trivial, by simp⟩
  | cons f fs =>
    rcases resumeWith_cases h with ⟨dst, hwait, rfl, rfl⟩ | ⟨ρ, l, f', -, hf', rfl, rfl⟩
    · refine ⟨?_, by simp⟩
      rw [List.append_nil]
      refine ⟨⟨hK.1.1, hK.1.2.imp_right (Or.imp_right fun h => .inr ?_)⟩, hK.2⟩
      obtain ⟨x, hp, hw, ha⟩ := h
      refine ⟨x, ?_, ha⟩
      obtain rfl : dst = none := by rw [hwait] at hw; exact Wait.call.inj hw
      exact hp
    · have hf : Covers M.dataLayout ({ f with regs := ρ } : Frame).fn := hK.1.1
      exact goto_good hf hK.2 hf'

theorem unwind_good {stack : List Frame} (hK : SuspendedStack E M.dataLayout L K)
    (h : unwind E M K = some (stack, L')) : Good E M.dataLayout L stack L' := by
  obtain ⟨us, f, fs, l, f', rfl, -, -, hf', rfl, rfl⟩ := unwind_cases h
  exact goto_good hK.drop.1.1 hK.drop.2 hf'

theorem Good.append {stack : List Frame} {L₀ : List Entry} {dl : DataLayout}
    (h : Good E dl (L ++ L₀) stack L') (h₀ : ∀ e ∈ L₀, e.Exempt) :
    Good E dl L stack (L₀ ++ L') :=
  ⟨by rw [← List.append_assoc]; exact h.1, fun e he => (List.mem_append.mp he).elim (h₀ e) (h.2 e)⟩

/-! ## Steps -/

/-- What a call that is answered at once reports is no store, and comes from above the caller. -/
theorem idleCall_exempt {c : Callee} {L₀ : List Entry}
    (h : ∀ e ∈ L₀, ∃ ev, e = logAt (f :: fs) ev ∧ IdleCall E M f.regs c ev) :
    (∀ e ∈ L₀, fs.length < e.depth) ∧ ∀ e ∈ L₀, e.Exempt := by
  refine ⟨fun e he => ?_, fun e he a n data hev => ?_⟩
  all_goals obtain ⟨ev, rfl, hi⟩ := h e he
  · simp [logAt]
  · obtain rfl : ev = .write .store a n data := hev
    exact absurd rfl hi

variable (hM : ∀ F ∈ M.defs, Covers M.dataLayout F)
include hM

/-- A step of a wrapper, or of an instruction that is not part of a store and its callback. -/
theorem Move.good {stack : List Frame} {i : Inst} (hf : Covers M.dataLayout f.fn)
    (hrest : isWrapper f.fn.name = true ∨
      (i.isStore = false ∧ Guarded M.dataLayout (fun _ => True) f.rest))
    (hfs : SuspendedStack E M.dataLayout L fs) (h : Move E M f fs i stack L') :
    Good E M.dataLayout L stack L' := by
  have hsusp : ∀ {L₀ : List Entry} (wait : Wait), (∀ e ∈ L₀, fs.length < e.depth) →
      SuspendedStack E M.dataLayout (L ++ L₀) ({ f with wait := wait } :: fs) := fun wait hL₀ =>
    ⟨⟨hf, hrest.imp_right fun h => .inl h.2⟩, hfs.append hL₀⟩
  cases h with
  | @work f' hstack hfn hsame hwait hlog =>
    subst hstack
    refine ⟨⟨⟨hfn ▸ hf, ?_⟩, hfs.append fun e he => ?_⟩, fun e he a n data hev => ?_⟩
    · rw [hfn, hsame]
      exact hrest.imp_right fun h => .inl h.2
    · obtain ⟨k, a, n, d, rfl, -⟩ := hlog e he
      simp [logAt]
    · obtain ⟨k, a', n', d, rfl, hk⟩ := hlog e he
      simp only [logAt, Event.write.injEq] at hev
      rcases hrest with hw | ⟨hi, -⟩
      · simpa [logAt] using hw
      · rw [hk hev.1] at hi
        exact absurd hi (by simp)
  | @jump l f' hl hgoto hstack hlog =>
    subst hstack hlog
    exact goto_good hf hfs hgoto
  | @enter c n G args wait hc hn hG hwait hstack hlog =>
    subst hstack hlog
    refine ⟨⟨enter_running (hM G (List.mem_of_find?_eq_some hG)), hsusp wait ?_⟩, ?_⟩
    · simp only [List.mem_cons, List.not_mem_nil, or_false, forall_eq_or_imp, forall_eq, logAt,
        List.length_cons]
      omega
    · simp only [List.mem_cons, List.not_mem_nil, or_false, forall_eq_or_imp, forall_eq]
      exact ⟨exempt_of_event (by simp [logAt]), exempt_of_event (by simp [logAt])⟩
  | back hc hwait hres hL hlog =>
    subst hL
    obtain ⟨hdepth, hexempt⟩ := idleCall_exempt hlog
    exact (resume_good (hsusp _ hdepth) hres).append hexempt
  | caught hc hwait hres hL hlog =>
    subst hL
    obtain ⟨hdepth, hexempt⟩ := idleCall_exempt hlog
    exact (unwind_good (hsusp _ hdepth) hres).append hexempt
  | @ret v r L₁ hi hres hlog =>
    subst hlog
    have hret : ∀ e ∈ [logAt (f :: fs) (.ret r)], fs.length < e.depth ∧ e.Exempt := by
      simp only [List.mem_singleton, forall_eq]
      exact ⟨by simp [logAt], exempt_of_event (by simp [logAt])⟩
    exact (resume_good (hfs.append fun e he => (hret e he).1) hres).append fun e he => (hret e he).2
  | raise hn hres => exact unwind_good hfs hres

theorem ready_good {x : List ℕ} {w : W} {r : Option ℕ} {t : State W} (hf : Covers M.dataLayout f.fn)
    (hx : Ready E M.dataLayout (fun _ => True) f x) (hfs : SuspendedStack E M.dataLayout L fs)
    (h : step E M ⟨f :: fs, w, r⟩ = some (t, L')) : Good E M.dataLayout L t.stack L' := by
  obtain ⟨args, rest, hrest, hargs, hpend⟩ := hx
  set K := { f with rest := rest, wait := .call none } :: fs with hK
  rw [step_call hrest, hargs] at h
  have hsusp : ∀ L₁, (∀ e ∈ L₁, K.length < e.depth) →
      SuspendedStack E M.dataLayout
        (L ++ ([logAt K (.call writeStoreTraceWrapper x)] ++ L₁)) K := by
    intro L₁ hL₁
    refine ⟨⟨hf, .inr (.inr ⟨x, hpend, rfl, L, _, L₁, rfl, rfl, rfl, rfl, hL₁⟩)⟩, hfs.append ?_⟩
    intro e he
    rcases List.mem_append.mp he with he | he
    · rw [List.mem_singleton.mp he]
      simp [logAt, hK]
    · exact Nat.lt_of_succ_lt (hL₁ e he)
  have hsusp₀ := hsusp [] (by simp)
  have hcall : ∀ e ∈ [logAt K (.call writeStoreTraceWrapper x)], e.Exempt := by
    simp only [List.mem_singleton, forall_eq]
    exact exempt_of_event (by simp [logAt])
  rcases callFunction_cases h with ⟨G, hG, hstack, rfl⟩ | ⟨v, L₁, hres, rfl⟩ | ⟨L₁, -, hres, rfl⟩
  · rw [hstack]
    refine ⟨⟨enter_running (hM G (List.mem_of_find?_eq_some hG)), ?_⟩, ?_⟩
    · exact hsusp [_] (by simp [logAt, hK])
    · simp only [List.mem_cons, List.not_mem_nil, or_false, forall_eq_or_imp, forall_eq]
      exact ⟨exempt_of_event (by simp [logAt]), exempt_of_event (by simp [logAt])⟩
  · exact (resume_good hsusp₀ hres).append hcall
  · exact (unwind_good hsusp₀ hres).append hcall

omit hM in
theorem pending_good {x : List ℕ} {w : W} {r : Option ℕ} {t : State W}
    (hf : Covers M.dataLayout f.fn) (hx : Pending E M.dataLayout (fun _ => True) f x)
    (ha : AnnouncedAt L (fs.length + 1) f.fn.name x) (hfs : SuspendedStack E M.dataLayout L fs)
    (hL : Covered M.dataLayout L) (h : step E M ⟨f :: fs, w, r⟩ = some (t, L')) :
    RunningStack E M.dataLayout (L ++ L') t.stack ∧ Covered M.dataLayout (L ++ L') := by
  obtain ⟨v, p, l, hrest, hg, rfl⟩ := hx
  simp only [step, hrest, stepInst, Option.some.injEq, Prod.mk.injEq] at h
  obtain ⟨rfl, rfl⟩ := h
  refine ⟨⟨⟨hf, .inr (.inl hg)⟩, hfs.append (by simp [logAt])⟩, hL.snoc fun a n data hev _ => ?_⟩
  simp only [logAt, Event.write.injEq, true_and] at hev
  obtain ⟨rfl, rfl, -⟩ := hev
  exact ha

theorem step_covered {s t : State W} (hs : RunningStack E M.dataLayout L s.stack)
    (hL : Covered M.dataLayout L) (h : step E M s = some (t, L')) :
    RunningStack E M.dataLayout (L ++ L') t.stack ∧ Covered M.dataLayout (L ++ L') := by
  have hgood : Good E M.dataLayout L t.stack L' →
      RunningStack E M.dataLayout (L ++ L') t.stack ∧ Covered M.dataLayout (L ++ L') :=
    fun h => ⟨h.1, hL.append h.2⟩
  obtain ⟨stack, w, r⟩ := s
  obtain ⟨f, fs, i, rest, hstack, hrest, hmove⟩ := step_move h
  obtain rfl : stack = f :: fs := hstack
  obtain ⟨⟨hf, hstage⟩, hfs⟩ := hs
  rcases hstage with hw | hg | ⟨x, hx⟩ | ⟨x, hx, ha⟩
  · exact hgood (Move.good (f := { f with rest := rest }) hM hf (.inl hw) hfs hmove)
  · rcases hg.cases_run (E := E) with
      hnil | ⟨j, l, hr, hj, -, hl⟩ | ⟨x, hx⟩ | ⟨d, v, ty, l, x, hr, hx⟩
    · rw [hrest] at hnil
      exact absurd hnil (by simp)
    · rw [hrest] at hr
      obtain ⟨rfl, rfl⟩ := List.cons.inj hr
      exact hgood (Move.good (f := { f with rest := rest }) hM hf (.inr ⟨hj, hl⟩) hfs hmove)
    · exact hgood (ready_good hM hf hx hfs h)
    · -- the cast puts the address into a register that the callback reads
      simp only [step, hr, stepInst, Option.some.injEq, Prod.mk.injEq] at h
      obtain ⟨rfl, rfl⟩ := h
      rw [List.append_nil]
      exact ⟨⟨⟨hf, .inr (.inr (.inl ⟨x, hx⟩))⟩, hfs⟩, hL⟩
  · exact hgood (ready_good hM hf hx hfs h)
  · exact pending_good hf hx ha hfs hL h

/-- In every execution of the module, every store is announced by the activation it is part of. -/
theorem execute_covered {F : Function} (hF : F ∈ M.defs) {args : List ℕ} {w : W} {n : ℕ}
    {s : State W} (h : execute E M F args w n = some (s, L)) : Covered M.dataLayout L := by
  obtain ⟨⟨t, L'⟩, hrun, h⟩ := Option.map_eq_some_iff.mp h
  simp only [Prod.mk.injEq] at h
  obtain ⟨rfl, rfl⟩ := h
  have hnil : Covered M.dataLayout [] := by
    intro L₁ e L₂ a n data he
    simp at he
  have hstart : RunningStack E M.dataLayout [logAt [F.enter args] (.enter args)] [F.enter args] ∧
      Covered M.dataLayout [logAt [F.enter args] (.enter args)] :=
    ⟨⟨enter_running (hM F hF), trivial⟩, hnil.snoc (by simp [logAt])⟩
  exact (Lib.runFor_invariant (I := fun s L => RunningStack E M.dataLayout L s.stack ∧
    Covered M.dataLayout L) (fun s L₀ t L' hI hst => step_covered hM hI.1 hI.2 hst) hstart hrun).2

end

/-! ## Ranges -/

theorem toInt32_toNat {n : ℕ} (h : n < 2 ^ 31) : (toInt32 n % 2 ^ 32).toNat = n := by
  have : toInt32 n = n := Int.bmod_eq_of_le (by omega) (by omega)
  rw [this]
  omega

theorem storeArguments_eq {dl : DataLayout} {a n : ℕ} (ha : a < 2 ^ dl.pointerSizeInBits 0)
    (hn : n < 2 ^ 31) : storeArguments dl a n = [a, n] := by
  rw [storeArguments, Nat.mod_eq_of_lt ha, toInt32_toNat hn]

/-- Before every store that a function other than a wrapper executes after the store pass has run
on all functions, its activation has called the store wrapper with a range that contains the bytes
written, and only that call has reported anything in between. The size has to fit an `int32` and
the address a pointer of address space 0. -/
theorem runPasses_store_announced {W : Type} {M : Module} (hM : M.WellFormed) (ps : List PassRun)
    (hps : ∀ F ∈ M.defs, isWrapper F.name = false → .storeFlush F.name ∈ ps) (once : Once) :
    ((∀ f, .fence f ∈ ps → FlushTakesAddress M) →
      ∃ once' M', runPasses (once, M) ps = .ok (once', M')) ∧
    ∀ once' M', runPasses (once, M) ps = .ok (once', M') →
      ∀ (E : Env W), ∀ F ∈ M'.defs, ∀ args w k s L, execute E M' F args w k = some (s, L) →
        ∀ L₁ e L₂ a n data, L = L₁ ++ e :: L₂ → e.event = .write .store a n data →
          isWrapper e.fn = false → a < 2 ^ M.dataLayout.pointerSizeInBits 0 → n < 2 ^ 31 →
          ∃ L₃ c L₄ addr size, L₁ = L₃ ++ c :: L₄ ∧ c.fn = e.fn ∧ c.depth = e.depth ∧
            c.event = .call writeStoreTraceWrapper [addr, size] ∧
            (addr ≤ a ∧ a + n ≤ addr + size) ∧ ∀ e' ∈ L₄, e.depth < e'.depth := by
  refine ⟨fun hfl => runPasses_ok hM (.refl M) ps hfl once, ?_⟩
  intro once' M' hrun E F hF args w k s L hexec L₁ e L₂ a n data hL hev hfn ha hn
  obtain ⟨hext, hcov⟩ := runPasses_covers hM hps hrun
  have hann := execute_covered hcov hF hexec L₁ e L₂ a n data hL hev hfn
  rw [hext.dataLayout, storeArguments_eq ha hn] at hann
  obtain ⟨L₃, c, L₄, rfl, hc, hd, hcall, hL₄⟩ := hann
  exact ⟨L₃, c, L₄, a, n, rfl, hc, hd, hcall, ⟨le_rfl, le_rfl⟩, hL₄⟩

namespace Driver

/-- The one store of the driver is 8 bytes at its argument. -/
theorem writeBlock_store_announced : ∃ L₁ e L₂,
    instrumentedTrace machine program schedule "nova_write_block" [64] [] 3 =
      some (L₁ ++ e :: L₂) ∧ e.event = .write .store 64 8 [7] ∧
    ∃ L₃ c L₄ addr size, L₁ = L₃ ++ c :: L₄ ∧ c.fn = e.fn ∧ c.depth = e.depth ∧
      c.event = .call writeStoreTraceWrapper [addr, size] ∧
      (addr ≤ 64 ∧ 64 + 8 ≤ addr + size) ∧ ∀ e' ∈ L₄, e.depth < e'.depth := by
  have htrace : instrumentedTrace machine program schedule "nova_write_block" [64] [] 3 =
      some ([⟨"nova_write_block", 1, 0, .enter [64]⟩,
        ⟨"nova_write_block", 1, 0, .call writeStoreTraceWrapper [64, 8]⟩] ++
        ⟨"nova_write_block", 1, 0, .write .store 64 8 [7]⟩ :: []) := by decide +kernel
  obtain ⟨hok, h⟩ := runPasses_store_announced wellFormed schedule (by decide) ⟨false, false⟩
  obtain ⟨once', M', hrun⟩ := hok fun _ _ => flushTakesAddress
  obtain ⟨F, s, hF, hexec⟩ := execute_of_instrumentedTrace htrace hrun
  refine ⟨_, _, _, htrace, rfl, ?_⟩
  exact h once' M' hrun machine F (Module.lookup_mem hF).1 [64] [] 3 s _ hexec _ _ _ 64 8 [7]
    rfl rfl (by decide)
    (by decide) (by decide)

/-- Fills memory by non-temporal stores, which are inline assembly. -/
def memsetNt : Function where
  name := "memset_nt"
  params := [(0, .ptr (.int 8) 0)]
  nounwind := true
  blocks := [⟨0, [.call none (.asm 0) [.reg 0 (.ptr (.int 8) 0)], .term (.ret none)]⟩]

/-- Inline assembly writes 8 bytes at its argument. -/
def movnti : Env (List (ℕ × ℕ)) :=
  { machine with asm := fun _ args w => ⟨0, [(args.headD 0, 8)], w⟩ }

theorem memsetNt_wellFormed : Module.WellFormed ⟨program.dataLayout, [], [memsetNt]⟩ := by
  refine ⟨by decide, ?_⟩
  simp only [List.mem_singleton, forall_eq]
  refine ⟨by decide, by decide, by decide, ?_, by decide, by decide, by simp [memsetNt]⟩
  simp only [memsetNt, List.mem_singleton, forall_eq]
  exact shaped_of_body [_] (by decide)

/-- Stores its second argument through its first. -/
def storeThrough (ty : Ty) (space : ℕ) : Function where
  name := "store_through"
  params := [(0, .ptr ty space), (1, ty)]
  nounwind := true
  blocks := [⟨0, [.store (.reg 1 ty) (.reg 0 (.ptr ty space)), .term (.ret none)]⟩]

theorem storeThrough_wellFormed (dl : DataLayout) (ty : Ty) (space : ℕ) :
    Module.WellFormed ⟨dl, [], [storeThrough ty space]⟩ := by
  refine ⟨by simp, ?_⟩
  simp only [List.mem_singleton, forall_eq]
  refine ⟨by simp [storeThrough], by simp [storeThrough], by simp [storeThrough], ?_,
    by simp [storeThrough, Inst.isPhi, Inst.isEHPad],
    by simp [storeThrough, Inst.successors, Terminator.successors],
    by simp [storeThrough, Operand.ty, Ty.pointee?]⟩
  simp only [storeThrough, List.mem_singleton, forall_eq]
  exact shaped_of_body [_] (by simp [Inst.isPhi, Inst.isTerm])

/-- Pointers of address space 0 are shorter than others. -/
def segmented : DataLayout := ⟨fun space => 32 * (space + 1), storeSize⟩

/-- Inline assembly writes eight bytes, and the store wrapper is never called. A store of 2 ^ 32
bytes is announced as one of no bytes, and one beyond the addresses of space 0 as one within. -/
theorem writes_not_announced : Module.WellFormed ⟨program.dataLayout, [], [memsetNt]⟩ ∧
    instrumentedTrace movnti ⟨program.dataLayout, [], [memsetNt]⟩ [.storeFlush "memset_nt"]
        "memset_nt" [64] [] 2 =
      some [⟨"memset_nt", 1, 0, .enter [64]⟩, ⟨"memset_nt", 1, 0, .write (.asm 0) 64 8 [64]⟩,
        ⟨"memset_nt", 1, 0, .ret none⟩] ∧
    Module.WellFormed ⟨program.dataLayout, [], [storeThrough (.array (2 ^ 32) (.int 8)) 0]⟩ ∧
    instrumentedTrace machine ⟨program.dataLayout, [], [storeThrough (.array (2 ^ 32) (.int 8)) 0]⟩
        [.storeFlush "store_through"] "store_through" [64, 7] [] 3 =
      some [⟨"store_through", 1, 0, .enter [64, 7]⟩,
        ⟨"store_through", 1, 0, .call writeStoreTraceWrapper [64, 0]⟩,
        ⟨"store_through", 1, 0, .write .store 64 (2 ^ 32) [7]⟩] ∧
    Module.WellFormed ⟨segmented, [], [storeThrough (.int 64) 1]⟩ ∧
    instrumentedTrace machine ⟨segmented, [], [storeThrough (.int 64) 1]⟩
        [.storeFlush "store_through"] "store_through" [2 ^ 32 + 64, 7] [] 3 =
      some [⟨"store_through", 1, 0, .enter [2 ^ 32 + 64, 7]⟩,
        ⟨"store_through", 1, 0, .call writeStoreTraceWrapper [64, 8]⟩,
        ⟨"store_through", 1, 0, .write .store (2 ^ 32 + 64) 8 [7]⟩] :=
  ⟨memsetNt_wellFormed, by decide +kernel, storeThrough_wellFormed _ _ _, by decide +kernel,
    storeThrough_wellFormed _ _ _, by decide +kernel⟩

end Driver

end Squint.IR
