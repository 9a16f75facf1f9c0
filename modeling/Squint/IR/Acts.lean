import Squint.Lib.Levels
import Squint.IR.Nesting
import Squint.IR.Placement

/-! The log as a sequence of acts: a call and the store it announces, an entry and the call that
announces it, or anything else. Where the wrapper that is called has functions instrumented of its
own, these act on a level above. A step from calm frames is no part of a call and its store, nor,
unless it enters a function, of an entry and its call. -/
namespace Squint.IR

abbrev Announcement := Name × List ℕ

/-- What an entry has to do with announcements. -/
inductive Mark where
  | call (x : Announcement)
  | store (x : Announcement)
  | entry (x : Announcement)
  deriving DecidableEq, Repr

/-- What the entry of the function `n` has to announce. -/
def entryAnnouncement (M : Module) (n : Name) (args : List ℕ) : Option Announcement :=
  if Contains n fenceFunctionName then some (writeFenceTraceWrapper, [])
  else if Contains n flushFunctionName then
    ((M.lookup n).bind (·.params.head?)).map fun p =>
      (writeFlushTraceWrapper, [if p.2 = getIntPtrTy M then args.headD 0 else
        args.headD 0 % 2 ^ M.dataLayout.pointerSizeInBits p.2.addrSpace %
          2 ^ M.dataLayout.pointerSizeInBits 0])
  else none

def Entry.mark (M : Module) (e : Entry) : Option Mark :=
  match e.event with
  | .call n args => if isWrapper n && !isWrapper e.fn then some (.call (n, args)) else none
  | .write .store a size _ =>
    if isWrapper e.fn then none
    else some (.store (writeStoreTraceWrapper, storeArguments M.dataLayout a size))
  | .enter args => (entryAnnouncement M e.fn args).map .entry
  | _ => none

/-- What happens, taken together with its announcement. -/
inductive Act where
  | other
  | store (x : Announcement)
  | entry (x : Announcement)

def Act.marks : Act → List (Option Mark)
  | other => [none]
  | store x => [some (.call x), some (.store x)]
  | entry x => [some (.entry x), some (.call x)]

theorem Act.marks_store {m : Option Mark} {x : Announcement} (h : m = some (.call x)) :
    m :: [some (.store x)] = Act.marks (.store x) := by
  rw [h]
  rfl

theorem Act.marks_entry {m : Option Mark} {x : Announcement} (h : m = some (.entry x)) :
    m :: [some (.call x)] = Act.marks (.entry x) := by
  rw [h]
  rfl

def atLevel (n : ℕ) (L : List Entry) : List Entry := L.filter fun e => e.tracing = n

/-- On each level the log is made of acts; of the last one, the marks `owed` are still to come. -/
def Exact (M : Module) (L : List Entry) (owed : ℕ → List (Option Mark)) : Prop :=
  ∀ n, ∃ acts : List Act, (atLevel n L).map (Entry.mark M) ++ owed n = acts.flatMap Act.marks

section
variable {M : Module} {L L' : List Entry} {e : Entry} {n : ℕ} {owed : ℕ → List (Option Mark)}
  {o : List (Option Mark)}

theorem Exact.begins (h : Exact M L owed) (hn : e.tracing = n) (ho : owed n = []) {act : Act}
    (hact : e.mark M :: o = act.marks) : Exact M (L ++ [e]) (Function.update owed n o) :=
  Lib.ExactOn.begins h hn ho hact

theorem Exact.pays {m : Mark} (h : Exact M L (Function.update owed n [some m]))
    (hn : e.tracing = n) (hm : e.mark M = some m) :
    Exact M (L ++ [e]) (Function.update owed n []) :=
  Lib.ExactOn.pays h hn hm

/-- An entry that neither announces nor has to be announced, where nothing is owed. -/
def Entry.Quiet (M : Module) (owed : ℕ → List (Option Mark)) (e : Entry) : Prop :=
  e.mark M = none ∧ owed e.tracing = []

theorem Exact.quiet (h : Exact M L owed) (hL' : ∀ e ∈ L', e.Quiet M owed) :
    Exact M (L ++ L') owed := by
  induction L' generalizing L with
  | nil => simpa using h
  | cons e L' ih =>
    obtain ⟨hmark, howed⟩ := hL' e (by simp)
    have hother : [e.mark M] = Act.marks .other := by simp [hmark, Act.marks]
    have hone : Exact M (L ++ [e]) owed := Lib.ExactOn.quiet h hother howed
    rw [List.append_cons]
    exact ih hone fun e' he' => hL' e' (by simp [he'])

theorem Quiet.append {L₀ L₁ : List Entry} (h₀ : ∀ e ∈ L₀, e.Quiet M owed)
    (h₁ : ∀ e ∈ L₁, e.Quiet M owed) : ∀ e ∈ L₀ ++ L₁, e.Quiet M owed :=
  fun e he => (List.mem_append.mp he).elim (h₀ e) (h₁ e)

end

/-! ## Frames -/

section
variable {W : Type} {E : Env W} {M : Module}

def Ordered (dl : DataLayout) (F : Function) : Prop :=
  isWrapper F.name = true ∨ ∃ e bs new l, Placed dl F e bs new l

/-- `f` will not branch to the entry block of its function. -/
def Onward (f : Frame) : Prop :=
  ∀ e ∈ f.fn.blocks.head?, (∀ i ∈ f.rest, e.label ∉ i.successors) ∧ e.label ∉ f.wait.targets

/-- `f` is not in the middle of an act. -/
def Calm (dl : DataLayout) (f : Frame) : Prop :=
  Ordered dl f.fn ∧
    (isWrapper f.fn.name = true ∨ (Guarded dl NoWrapperCall f.rest ∧ Onward f))

theorem Calm.of_wrapper {dl : DataLayout} {f : Frame} (h : isWrapper f.fn.name = true) :
    Calm dl f :=
  ⟨.inl h, .inl h⟩

structure Inside (dl : DataLayout) (f : Frame) : Prop where
  ordered : Ordered dl f.fn
  not_wrapper : isWrapper f.fn.name = false
  onward : Onward f

/-- Where in an act the frame is, with the marks that are still owed. -/
inductive Top (E : Env W) (M : Module) (f : Frame) : List (Option Mark) → Prop
  | calm (h : Calm M.dataLayout f) : Top E M f []
  | ready {x : List ℕ} (hf : Inside M.dataLayout f)
      (h : Ready E M.dataLayout NoWrapperCall f x) : Top E M f []
  | pending {x : List ℕ} (hf : Inside M.dataLayout f)
      (h : Pending E M.dataLayout NoWrapperCall f x) :
      Top E M f [some (.store (writeStoreTraceWrapper, x))]
  | casting {d : ℕ} {v : Operand} {ty : Ty} {n : Name} {args : List Operand} {l : List Inst}
      (hf : Inside M.dataLayout f) (hn : isWrapper n = true)
      (hrest : f.rest = .ptrToInt d v ty :: .call none (.fn n) args :: l)
      (hl : Guarded M.dataLayout NoWrapperCall l) :
      Top E M f [some (.call (n, args.map (·.eval E M.dataLayout
        (Function.update f.regs d (v.addr E M.dataLayout f.regs % 2 ^ ty.intBits)))))]
  | calling {n : Name} {args : List Operand} {l : List Inst} (hf : Inside M.dataLayout f)
      (hn : isWrapper n = true) (hrest : f.rest = .call none (.fn n) args :: l)
      (hl : Guarded M.dataLayout NoWrapperCall l) :
      Top E M f [some (.call (n, args.map (·.eval E M.dataLayout f.regs)))]

theorem Top.length_le {f : Frame} {owed : List (Option Mark)} (h : Top E M f owed) :
    owed.length ≤ 1 := by
  cases h <;> simp

/-- Frames of which none is in the middle of an act, other than those that wait for a wrapper. -/
inductive Settled (E : Env W) (M : Module) : List Frame → (ℕ → List (Option Mark)) → Prop
  | nil : Settled E M [] fun _ => []
  | calm {f : Frame} {fs : List Frame} {owed : ℕ → List (Option Mark)}
      (hf : Calm M.dataLayout f) (hfs : Settled E M fs owed) : Settled E M (f :: fs) owed
  | wrapper {g f : Frame} {fs : List Frame} {owed : ℕ → List (Option Mark)}
      {o : List (Option Mark)} (hg : isWrapper g.fn.name = true) (hn : g.fn.nounwind = true)
      (hf : isWrapper f.fn.name = false) (hwait : f.wait = .call none)
      (htop : Top E M { f with wait := .running } o) (hfs : Settled E M fs owed) :
      Settled E M (g :: f :: fs) (Function.update owed (tracing (f :: fs)) o)

/-- Frames of which, in addition, the running one may be in the middle of an act. -/
inductive Mode (E : Env W) (M : Module) : List Frame → (ℕ → List (Option Mark)) → Prop
  | settled {K : List Frame} {owed : ℕ → List (Option Mark)} (h : Settled E M K owed) :
      Mode E M K owed
  | acting {f : Frame} {fs : List Frame} {owed : ℕ → List (Option Mark)} {o : List (Option Mark)}
      {n : ℕ} (hn : tracing (f :: fs) = n) (hfs : Settled E M fs owed) (hf : Top E M f o) :
      Mode E M (f :: fs) (Function.update owed n o)

theorem tracing_replace {f f' : Frame} (fs : List Frame) (h : f'.fn = f.fn) :
    tracing (f' :: fs) = tracing (f :: fs) := by
  cases fs with
  | nil => rfl
  | cons g gs => rw [tracing, tracing, h]

namespace Settled

variable {f f' : Frame} {us K fs : List Frame} {owed : ℕ → List (Option Mark)}

theorem calm_head (h : Settled E M (f :: fs) owed) : Calm M.dataLayout f := by
  cases h with
  | calm hf _ => exact hf
  | wrapper hg => exact .of_wrapper hg

theorem replace (h : Settled E M (f :: fs) owed) (hfn : f'.fn = f.fn)
    (hf' : Calm M.dataLayout f') : Settled E M (f' :: fs) owed := by
  cases h with
  | calm _ hfs => exact .calm hf' hfs
  | wrapper hg hn hf hwait htop hfs =>
    rw [← hfn] at hg hn
    exact .wrapper hg hn hf hwait htop hfs

theorem tail (h : Settled E M (f :: fs) owed) (hf : isWrapper f.fn.name = false) :
    Settled E M fs owed := by
  cases h with
  | calm _ hfs => exact hfs
  | wrapper hg => simp [hf] at hg

theorem tail_of_unwinding (h : Settled E M (f :: fs) owed) (hf : f.fn.nounwind = false) :
    Settled E M fs owed := by
  cases h with
  | calm _ hfs => exact hfs
  | wrapper _ hn => simp [hf] at hn

theorem drop (h : Settled E M (us ++ K) owed) (hus : ∀ u ∈ us, u.fn.nounwind = false) :
    Settled E M K owed := by
  induction us with
  | nil => exact h
  | cons u us ih =>
    exact ih (h.tail_of_unwinding (hus u (by simp))) fun v hv => hus v (by simp [hv])

/-- What is owed is owed on the levels of the frames that wait. -/
theorem owed_eq_nil (h : Settled E M K owed) {n : ℕ} (hn : tracing K ≤ n) : owed n = [] := by
  induction h with
  | nil => rfl
  | @calm f fs _ _ _ ih => exact ih ((tracing_le_cons f fs).trans hn)
  | @wrapper g f fs _ _ hg _ hf _ _ _ ih =>
    rw [tracing_wrapper hg hf] at hn
    have hle := tracing_le_cons f fs
    rw [Function.update_of_ne (by omega)]
    exact ih (by omega)

theorem update_nil (h : Settled E M fs owed) (f : Frame) :
    Function.update owed (tracing (f :: fs)) [] = owed := by
  rw [← h.owed_eq_nil (tracing_le_cons f fs), Function.update_eq_self]

end Settled

theorem goto_calm {f f' : Frame} {l : Label} (hf : Ordered M.dataLayout f.fn)
    (hl : isWrapper f.fn.name = true ∨ ∀ e ∈ f.fn.blocks.head?, e.label ≠ l)
    (h : f.goto E M l = some f') : Calm M.dataLayout f' := by
  obtain ⟨b, ρ, hb, rfl⟩ := Frame.goto_cases h
  refine ⟨hf, ?_⟩
  rcases hl with hw | hl
  · exact .inl hw
  refine hf.imp_right fun ⟨e, bs, new, k, hp⟩ => ?_
  have hmem := List.mem_of_find?_eq_some hb
  have hbs : b ∈ bs := by
    have hlabel : b.label = l := by simpa using List.find?_some hb
    rw [hp.blocks] at hmem
    refine (List.mem_cons.mp hmem).resolve_left fun he => ?_
    exact hl e (by simp [hp.blocks]) (he ▸ hlabel)
  have hg := hp.guarded b.insts (List.mem_cons_of_mem _ (List.mem_map_of_mem hbs))
  refine ⟨hg.splitPhis, fun e' he' => ⟨fun i hi => ?_, ?_⟩⟩
  · obtain rfl : e = e' := by simpa [hp.blocks] using he'
    exact hp.not_target b hmem i (splitPhis_subset _ hi)
  · simp [Wait.targets]

section
variable {owed : ℕ → List (Option Mark)}

theorem goto_settled {f f' : Frame} {fs : List Frame} {l : Label} (ρ : ℕ → ℕ)
    (hK : Settled E M (f :: fs) owed) (hl : l ∈ f.wait.targets)
    (h : Frame.goto E M { f with regs := ρ } l = some f') :
    Settled E M (f' :: fs) owed ∧ (logAt (f' :: fs) (.block l)).Quiet M owed := by
  have hfn : f'.fn = f.fn := (Frame.goto_fn h : _)
  have hcalm : Calm M.dataLayout { f with regs := ρ } := hK.calm_head
  have hne : isWrapper f.fn.name = true ∨ ∀ e ∈ f.fn.blocks.head?, e.label ≠ l :=
    hcalm.2.imp_right fun ho e he heq => (ho.2 e he).2 (heq ▸ hl)
  have hset := hK.replace hfn (goto_calm hcalm.1 hne h)
  exact ⟨hset, rfl, hset.owed_eq_nil le_rfl⟩

theorem resume_settled {K stack : List Frame} {r : Option ℕ} {L : List Entry}
    (hK : Settled E M K owed) (h : resumeWith E M r K = some (stack, L)) :
    Settled E M stack owed ∧ ∀ e ∈ L, e.Quiet M owed := by
  cases K with
  | nil =>
    simp only [resumeWith, Option.some.injEq, Prod.mk.injEq] at h
    obtain ⟨rfl, rfl⟩ := h
    exact ⟨hK, by simp⟩
  | cons f fs =>
    rcases resumeWith_cases h with ⟨dst, hwait, rfl, rfl⟩ | ⟨ρ, l, f', hl, hf', rfl, rfl⟩
    · have hcalm := hK.calm_head
      refine ⟨hK.replace rfl ⟨hcalm.1, hcalm.2.imp_right fun ho => ⟨ho.1, fun e he => ?_⟩⟩, by simp⟩
      exact ⟨(ho.2 e he).1, by simp [Wait.targets]⟩
    · obtain ⟨hset, hq⟩ := goto_settled ρ hK hl hf'
      exact ⟨hset, by simpa using hq⟩

theorem return_mode {f : Frame} {fs stack : List Frame} {r : Option ℕ} {L : List Entry}
    (hK : Settled E M (f :: fs) owed) (h : resumeWith E M r fs = some (stack, L)) :
    Mode E M stack owed ∧ ∀ e ∈ L, e.Quiet M owed := by
  cases hK with
  | calm _ hfs =>
    obtain ⟨hset, hq⟩ := resume_settled hfs h
    exact ⟨.settled hset, hq⟩
  | @wrapper _ f fs _ o _ _ _ hwait htop hfs =>
    simp only [resumeWith, hwait, Option.some.injEq, Prod.mk.injEq] at h
    obtain ⟨rfl, rfl⟩ := h
    exact ⟨.acting (tracing_replace fs rfl) hfs htop, by simp⟩

theorem unwind_settled {K stack : List Frame} {L : List Entry} (hK : Settled E M K owed)
    (h : unwind E M K = some (stack, L)) :
    Settled E M stack owed ∧ ∀ e ∈ L, e.Quiet M owed := by
  obtain ⟨us, f, fs, l, f', rfl, hus, hl, hf', rfl, rfl⟩ := unwind_cases h
  obtain ⟨hset, hq⟩ := goto_settled f.regs (hK.drop hus) hl hf'
  exact ⟨hset, by simpa using hq⟩

end

/-! ## Steps that are not part of a callback -/

theorem target_not_wrapper {dl : DataLayout} {ρ : ℕ → ℕ} {i : Inst} {c : Callee} {n : Name}
    (hi : NoWrapperCall i) (hind : ∀ a n, E.functionAt a = some n → isWrapper n = false)
    (hc : i.callee? = some c) (hn : c.target E dl ρ = some n) : isWrapper n = false := by
  cases c with
  | fn m =>
    obtain rfl : m = n := Option.some.inj hn
    refine hi m ?_
    unfold Inst.callee? at hc
    split at hc <;> simp_all [Inst.directCallee]
  | value v stripped => exact hind _ n hn
  | asm id => simp [Callee.target] at hn
  | mem kind => simp [Callee.target] at hn

def Outside (f : Frame) (i : Inst) : Prop :=
  isWrapper f.fn.name = true ∨ (i.isStore = false ∧ NoWrapperCall i ∧
    ∀ e ∈ f.fn.blocks.head?, e.label ∉ i.successors)

def Entered (E : Env W) (M : Module) (owed : ℕ → List (Option Mark)) (stack : List Frame)
    (L : List Entry) : Prop :=
  ∃ n G args K c, M.lookup n = some G ∧ stack = G.enter args :: K ∧ Settled E M K owed ∧
    L = [c, logAt stack (.enter args)] ∧ c.Quiet M owed

section
variable {f : Frame} {fs : List Frame} {i : Inst} {c : Callee} {owed : ℕ → List (Option Mark)}

theorem Settled.waits (hK : Settled E M (f :: fs) owed) (hi : Outside f i) (wait : Wait)
    (hwait : wait.targets ⊆ i.successors) :
    Settled E M ({ f with wait := wait } :: fs) owed := by
  have hcalm := hK.calm_head
  refine hK.replace rfl ⟨hcalm.1, ?_⟩
  rcases hi with hw | hi
  · exact .inl hw
  · refine hcalm.2.imp_right fun ho => ⟨ho.1, fun e he => ⟨(ho.2 e he).1, fun hm => ?_⟩⟩
    exact hi.2.2 e he (hwait hm)

theorem Settled.call_quiet (hind : ∀ a n, E.functionAt a = some n → isWrapper n = false)
    (hK : Settled E M (f :: fs) owed) (hi : Outside f i) (hc : i.callee? = some c) {n : Name}
    {args : List ℕ} (hn : c.target E M.dataLayout f.regs = some n) :
    (logAt (f :: fs) (.call n args)).Quiet M owed := by
  refine ⟨?_, hK.owed_eq_nil le_rfl⟩
  rcases hi with hw | hi
  · simp [Entry.mark, logAt, hw]
  · simp [Entry.mark, logAt, target_not_wrapper hi.2.1 hind hc hn]

/-- A call that is answered at once reports nothing of interest. -/
theorem Settled.idle_quiet (hind : ∀ a n, E.functionAt a = some n → isWrapper n = false)
    (hK : Settled E M (f :: fs) owed) (hi : Outside f i) (hc : i.callee? = some c)
    {L : List Entry} (hL : ∀ e ∈ L, ∃ ev, e = logAt (f :: fs) ev ∧ IdleCall E M f.regs c ev) :
    ∀ e ∈ L, e.Quiet M owed := by
  intro e he
  obtain ⟨ev, rfl, hev⟩ := hL e he
  unfold IdleCall at hev
  split at hev
  · exact hK.call_quiet hind hi hc hev
  · refine ⟨?_, hK.owed_eq_nil le_rfl⟩
    simp only [Entry.mark, logAt]
    split <;> simp_all
  · exact hev.elim

/-- Only the stores of a function under instrumentation are of interest. -/
theorem Settled.write_quiet (hK : Settled E M (f :: fs) owed) (hi : Outside f i)
    {k : WriteKind} {a n : ℕ} {d : List ℕ} (hk : k = .store → i.isStore = true) :
    (logAt (f :: fs) (.write k a n d)).Quiet M owed := by
  refine ⟨?_, hK.owed_eq_nil le_rfl⟩
  cases k with
  | store =>
    rcases hi with hw | hi
    · simp [Entry.mark, logAt, hw]
    · exact absurd (hk rfl) (by simp [hi.1])
  | _ => rfl

end

theorem Move.settled (hind : ∀ a n, E.functionAt a = some n → isWrapper n = false) {f : Frame}
    {fs stack : List Frame} {i : Inst} {L : List Entry} {owed : ℕ → List (Option Mark)}
    (hK : Settled E M (f :: fs) owed) (hi : Outside f i) (h : Move E M f fs i stack L) :
    (Mode E M stack owed ∧ ∀ e ∈ L, e.Quiet M owed) ∨ Entered E M owed stack L := by
  cases h with
  | @work f' hstack hfn hsame hwait hlog =>
    subst hstack
    refine .inl ⟨.settled (hK.replace hfn ?_), fun e he => ?_⟩
    · simpa only [Calm, Onward, hfn, hsame, hwait] using hK.calm_head
    · obtain ⟨k, a, n, d, rfl, hk⟩ := hlog e he
      exact hK.write_quiet hi hk
  | @jump l f' hl hgoto hstack hlog =>
    subst hstack hlog
    have hset := hK.waits hi (.invoke none l l) (by simpa [Wait.targets] using hl)
    obtain ⟨hset', hq⟩ := goto_settled f.regs hset (by simp [Wait.targets]) hgoto
    exact .inl ⟨.settled hset', by simpa using hq⟩
  | @enter c n G args wait hc hn hG hwait hstack hlog =>
    exact .inr ⟨n, G, args, _, _, hG, hstack, hK.waits hi _ hwait, hlog,
      hK.call_quiet hind hi hc hn⟩
  | back hc hwait hres hL hlog =>
    subst hL
    obtain ⟨hset, hq⟩ := resume_settled (hK.waits hi _ hwait) hres
    exact .inl ⟨.settled hset, Quiet.append (hK.idle_quiet hind hi hc hlog) hq⟩
  | caught hc hwait hres hL hlog =>
    subst hL
    obtain ⟨hset, hq⟩ := unwind_settled (hK.waits hi _ hwait) hres
    exact .inl ⟨.settled hset, Quiet.append (hK.idle_quiet hind hi hc hlog) hq⟩
  | @ret v r L₁ _ hres hlog =>
    subst hlog
    obtain ⟨hmode, hq⟩ := return_mode hK hres
    refine .inl ⟨hmode, fun e he => ?_⟩
    rcases List.mem_cons.mp he with rfl | he
    · exact ⟨rfl, hK.owed_eq_nil le_rfl⟩
    · exact hq e he
  | raise hn hres =>
    obtain ⟨hset, hq⟩ := unwind_settled (hK.tail_of_unwinding hn) hres
    exact .inl ⟨.settled hset, hq⟩

end

end Squint.IR
