import Squint.IR.Exactness
import Squint.IR.Preservation
import Squint.Kernel.RoundTrip
import Squint.Kernel.Wrappers

/-! From the program to the reader of the trace: the passes, the wrappers of `print.c`, the FIFO and
the text. The wrappers are linked to the program, so that none of them is in its module. -/
namespace Squint.Pipeline

open IR
open Kernel.Nova (WrapperCall)

/-! ## Logs of programs without wrappers of their own -/

section Plain

variable {W : Type} {E : Env W} {M : Module} {L : List Entry}

/-- Written down outside all wrappers, by a function of the module. -/
def Plain (M : Module) (e : Entry) : Prop := e.tracing = 0 ∧ ∃ F ∈ M.defs, F.name = e.fn

theorem tracing_eq_zero (hM : ∀ F ∈ M.defs, isWrapper F.name = false) {K : List Frame}
    (hK : ∀ g ∈ K, g.Runs M) : tracing K = 0 := by
  induction K with
  | nil => rfl
  | cons f fs ih =>
    have hfs : tracing fs = 0 := ih fun g hg => hK g (by simp [hg])
    cases fs with
    | nil => rfl
    | cons g gs =>
      have hf : isWrapper f.fn.name = false := hM _ (hK f (by simp)).1
      rw [tracing, hf, hfs]
      rfl

theorem logAt_plain (hM : ∀ F ∈ M.defs, isWrapper F.name = false) {f : Frame} {fs : List Frame}
    (hK : ∀ g ∈ f :: fs, g.Runs M) (ev : Event) : Plain M (logAt (f :: fs) ev) := by
  constructor
  · exact tracing_eq_zero hM hK
  · exact ⟨f.fn, (hK f (by simp)).1, rfl⟩

theorem resumeWith_log {K stack : List Frame} {v : Option ℕ}
    (h : resumeWith E M v K = some (stack, L)) :
    ∀ e ∈ L, ∃ f fs ev, stack = f :: fs ∧ e = logAt (f :: fs) ev := by
  cases K with
  | nil =>
    simp only [resumeWith, Option.some.injEq, Prod.mk.injEq] at h
    simp [← h.2]
  | cons f fs =>
    obtain ⟨-, -, rfl, -⟩ | ⟨ρ, l, f', -, -, rfl, rfl⟩ := resumeWith_cases h
    · simp
    · simp only [List.mem_singleton, forall_eq]
      exact ⟨f', fs, _, rfl, rfl⟩

theorem unwind_log {K stack : List Frame} (h : unwind E M K = some (stack, L)) :
    ∀ e ∈ L, ∃ f fs ev, stack = f :: fs ∧ e = logAt (f :: fs) ev := by
  obtain ⟨us, f, fs, l, f', -, -, -, -, rfl, rfl⟩ := unwind_cases h
  simp only [List.mem_singleton, forall_eq]
  exact ⟨f', fs, _, rfl, rfl⟩

theorem step_plain (hM : ∀ F ∈ M.defs, isWrapper F.name = false) {s t : State W}
    (hs : ∀ g ∈ s.stack, g.Runs M) (h : step E M s = some (t, L)) : ∀ e ∈ L, Plain M e := by
  have ht := step_runs hs h
  obtain ⟨f, fs, i, rest, hstack, hrest, hmove⟩ := step_move h
  rw [hstack] at hs
  have hbefore : ∀ ev, Plain M (logAt ({ f with rest := rest } :: fs) ev) := fun ev => by
    have hlog : logAt ({ f with rest := rest } :: fs) ev = logAt (f :: fs) ev := by
      cases fs <;> rfl
    rw [hlog]
    exact logAt_plain hM hs ev
  have hafter : ∀ {L₁ : List Entry}, (∀ e ∈ L₁, ∃ f fs ev, t.stack = f :: fs ∧
      e = logAt (f :: fs) ev) → ∀ e ∈ L₁, Plain M e := by
    intro L₁ hL₁ e he
    obtain ⟨g, gs, ev, hg, rfl⟩ := hL₁ e he
    exact logAt_plain hM (hg ▸ ht) ev
  have hboth : ∀ {L₀ L₁ : List Entry} {P : Event → Prop},
      (∀ e ∈ L₀, ∃ ev, e = logAt ({ f with rest := rest } :: fs) ev ∧ P ev) →
      (∀ e ∈ L₁, Plain M e) → ∀ e ∈ L₀ ++ L₁, Plain M e := by
    intro L₀ L₁ P h₀ h₁ e he
    obtain he | he := List.mem_append.mp he
    · obtain ⟨ev, rfl, -⟩ := h₀ e he
      exact hbefore ev
    · exact h₁ e he
  cases hmove with
  | work hstack' hfn hrest' hwait hlog =>
    intro e he
    obtain ⟨k, a, n, d, rfl, -⟩ := hlog e he
    exact hbefore _
  | jump hl hgoto hstack' hlog =>
    subst hlog
    exact hafter (by simp only [List.mem_singleton, forall_eq]; exact ⟨_, _, _, hstack', rfl⟩)
  | enter hc hn hG hwait hstack' hlog =>
    subst hlog
    simp only [List.mem_cons, List.not_mem_nil, or_false, forall_eq_or_imp, forall_eq]
    refine ⟨hbefore _, ?_⟩
    rw [hstack'] at ht ⊢
    exact logAt_plain hM ht _
  | back hc hwait hres hL hlog =>
    subst hL
    exact hboth hlog (hafter (resumeWith_log hres))
  | caught hc hwait hres hL hlog =>
    subst hL
    exact hboth hlog (hafter (unwind_log hres))
  | ret hi hres hlog =>
    subst hlog
    simp only [List.mem_cons, forall_eq_or_imp]
    exact ⟨hbefore _, hafter (resumeWith_log hres)⟩
  | raise hn hres => exact hafter (unwind_log hres)

theorem execute_plain (hM : ∀ F ∈ M.defs, isWrapper F.name = false) {F : Function}
    (hF : F ∈ M.defs) {args : List ℕ} {w : W} {k : ℕ} {s : State W}
    (h : execute E M F args w k = some (s, L)) : ∀ e ∈ L, Plain M e := by
  obtain ⟨⟨t, L'⟩, hrun, h⟩ := Option.map_eq_some_iff.mp h
  obtain ⟨rfl, rfl⟩ := Prod.mk.inj h
  have hstart : ∀ g ∈ (start F args w).stack, g.Runs M := by
    simpa [start] using Function.enter_runs hF args
  have hlog : ∀ e ∈ [logAt [F.enter args] (.enter args)], Plain M e := by
    simp only [List.mem_singleton, forall_eq]
    exact logAt_plain hM hstart _
  apply (Lib.runFor_invariant (I := fun s L => (∀ g ∈ s.stack, g.Runs M) ∧ ∀ e ∈ L, Plain M e)
    ?_ ⟨hstart, hlog⟩ hrun).2
  intro s L₀ t L₁ hI hst
  refine ⟨step_runs hI.1 hst, fun e he => ?_⟩
  obtain he | he := List.mem_append.mp he
  · exact hI.2 e he
  · exact step_plain hM hI.1 hst e he

end Plain

/-! ## What is to be told, and what is told -/

/-- What the trace is to tell of an event of the program: stores, and entries of the fence and flush
functions. -/
def traced? (e : Entry) : Option Kernel.Event :=
  match e.event with
  | .write .store a _ _ => some (.store (BitVec.ofNat 64 a))
  | .enter _ =>
    if Contains e.fn fenceFunctionName then some .fence
    else if Contains e.fn flushFunctionName then some .flush
    else none
  | _ => none

/-- The call of a wrapper, with its arguments as `unsigned long` and `int`. -/
def callOf? : Announcement → Option WrapperCall
  | (n, args) =>
    if n = writeFenceTraceWrapper then some .fence
    else if n = writeFlushTraceWrapper then some (.flush (BitVec.ofNat 64 (args.getD 0 0)))
    else if n = writeStoreTraceWrapper then
      some (.store (BitVec.ofNat 64 (args.getD 0 0)) (BitVec.ofNat 32 (args.getD 1 0)))
    else none

def wrapperCall? (e : Entry) : Option WrapperCall :=
  match e.event with
  | .call n args => callOf? (n, args)
  | _ => none

/-- What is told of an announcement in the end. -/
def eventOf? (x : Announcement) : Option Kernel.Event := (callOf? x).map (·.event)

theorem callOf?_eq_none {n : Name} (h : isWrapper n = false) (args : List ℕ) :
    callOf? (n, args) = none := by
  simp only [isWrapper, instrumenationFunctions, List.any_cons, List.any_nil, Bool.or_false,
    Bool.or_eq_false_iff, beq_eq_false_iff_ne] at h
  rw [callOf?, if_neg h.1, if_neg h.2.1, if_neg h.2.2]

/-- What a mark adds to what is told. -/
def said? (m : Mark) : Option Kernel.Event := m.called?.bind eventOf?

/-- What a mark adds to what is to be told. -/
def meant? (m : Mark) : Option Kernel.Event := m.due?.bind eventOf?

section Marks

variable {M : Module} {e : Entry}

theorem wrapperCall?_eq (hM : ∀ F ∈ M.defs, isWrapper F.name = false) (he : Plain M e) :
    (wrapperCall? e).map (·.event) = (e.mark M).bind said? := by
  obtain ⟨-, F, hF, hfn⟩ := he
  have hw : isWrapper e.fn = false := hfn ▸ hM F hF
  obtain ⟨fn, depth, tracing, event⟩ := e
  cases event with
  | call n args =>
    cases hn : isWrapper n with
    | false => simp [wrapperCall?, Entry.mark, hn, callOf?_eq_none hn]
    | true => simp [wrapperCall?, Entry.mark, hw, hn, said?, Mark.called?, eventOf?]
  | enter args =>
    cases h : entryAnnouncement M fn args <;> simp [wrapperCall?, Entry.mark, h, said?,
      Mark.called?]
  | block l => rfl
  | write kind a size data =>
    cases kind <;> simp [wrapperCall?, Entry.mark, hw, said?, Mark.called?]
  | ret v => rfl

theorem eventOf?_store (h64 : M.dataLayout.pointerSizeInBits 0 = 64) (a size : ℕ) :
    eventOf? (writeStoreTraceWrapper, storeArguments M.dataLayout a size) =
      some (.store (BitVec.ofNat 64 a)) := by
  have hmod : BitVec.ofNat 64 (a % 2 ^ 64) = BitVec.ofNat 64 a := by
    apply BitVec.eq_of_toNat_eq
    simp
  have hcall : callOf? (writeStoreTraceWrapper, storeArguments M.dataLayout a size) =
      some (.store (BitVec.ofNat 64 (a % 2 ^ 64))
        (BitVec.ofNat 32 (toInt32 size % 2 ^ 32).toNat)) := by
    rw [storeArguments, h64, callOf?, if_neg (by decide), if_neg (by decide), if_pos rfl,
      List.getD_cons_zero, List.getD_cons_succ, List.getD_cons_zero]
  rw [eventOf?, hcall, hmod]
  rfl

theorem traced?_eq (hM : ∀ F ∈ M.defs, isWrapper F.name = false)
    (hflush : ∀ F ∈ M.defs, Contains F.name flushFunctionName → F.params ≠ [])
    (hnames : (M.defs.map (·.name)).Nodup) (h64 : M.dataLayout.pointerSizeInBits 0 = 64)
    (he : Plain M e) : traced? e = (e.mark M).bind meant? := by
  obtain ⟨-, F, hF, hfn⟩ := he
  have hw : isWrapper e.fn = false := hfn ▸ hM F hF
  have hlookup : M.lookup e.fn = some F := hfn ▸ Module.lookup_of_mem hnames hF
  obtain ⟨fn, depth, tracing, event⟩ := e
  cases event with
  | call n args =>
    unfold traced? Entry.mark
    dsimp only
    split_ifs <;> rfl
  | enter args =>
    unfold traced? Entry.mark entryAnnouncement
    dsimp only
    split_ifs with h₁ h₂
    · rfl
    · have hne : F.params ≠ [] := hflush F hF (by rw [hfn]; exact h₂)
      cases hps : F.params with
      | nil => exact absurd hps hne
      | cons p ps =>
        simp only [hlookup, hps, Option.bind_some, List.head?_cons, Option.map_some]
        rfl
    · rfl
  | block l => rfl
  | write kind a size data =>
    cases kind with
    | store => simp [traced?, Entry.mark, hw, meant?, Mark.due?, eventOf?_store h64]
    | op code => rfl
    | asm id => rfl
    | mem kind => rfl
  | ret v => rfl

end Marks

/-! ## The device -/

section Device

open Kernel (Device Call Line decode)

/-- All that the wrapper calls `cs` of one thread write has gone into the FIFO, and `d` is what it
has become: in NOVA's copy of the module, where nothing may have been dropped, or in the copy that
makes writers wait. -/
inductive Delivered (cs : List WrapperCall) : Device Unit Line → Prop
  | nova {entries : ℕ → Fin 32 → Kernel.Frame} {d : Device Unit Line}
      (hclean : ∀ n i, (entries n i).Clean) (h : Kernel.Nova.Traced entries cs d) : Delivered cs d
  | evaluation {calls : List Call} {as : List (Kernel.Evaluation.Action Unit)}
      {s : Kernel.Evaluation.State Unit Line} (hcalls : calls.map (·.event) = cs.map (·.event))
      (hclean : ∀ c ∈ calls, c.Clean)
      (hrun : Lib.run (Kernel.Evaluation.step Line.text)
        (Kernel.Evaluation.init fun _ => calls.flatMap Call.lines) as = some s)
      (hdone : s.device.todo () = []) : Delivered cs s.device

/-- The calls of NOVA's copy, whose records have 32 frames. -/
def novaCalls (entries : ℕ → Fin 32 → Kernel.Frame) (n : ℕ) : List WrapperCall → List Call
  | [] => []
  | c :: cs => ⟨c.event, List.ofFn (entries n)⟩ :: novaCalls entries (n + 1) cs

variable {entries : ℕ → Fin 32 → Kernel.Frame} {cs : List WrapperCall}

theorem program_eq (n : ℕ) :
    Kernel.Nova.program entries n cs = (novaCalls entries n cs).flatMap Call.lines := by
  induction cs generalizing n with
  | nil => rfl
  | cons c cs ih =>
    have hlines : c.lines (entries n) = Call.lines ⟨c.event, List.ofFn (entries n)⟩ := by
      rw [c.lines_eq, Call.lines_eq, Kernel.Nova.printTrace, Kernel.printTrace,
        List.take_of_length_le (by simp), List.map_ofFn]
      rfl
    rw [Kernel.Nova.program, novaCalls, List.flatMap_cons, ih, hlines]

theorem novaCalls_events (n : ℕ) :
    (novaCalls entries n cs).map (·.event) = cs.map (·.event) := by
  induction cs generalizing n with
  | nil => rfl
  | cons c cs ih => simp [novaCalls, ih]

theorem novaCalls_clean (hclean : ∀ n i, (entries n i).Clean) (n : ℕ) :
    ∀ c ∈ novaCalls entries n cs, c.Clean := by
  induction cs generalizing n with
  | nil => simp [novaCalls]
  | cons c cs ih =>
    simp only [novaCalls, List.mem_cons, forall_eq_or_imp]
    refine ⟨⟨by simp, fun f hf => ?_⟩, ih (n + 1)⟩
    obtain ⟨i, rfl⟩ := List.mem_ofFn.mp hf
    exact hclean n i

/-- The bytes read and the bytes still queued tell the calls. -/
theorem Delivered.decode {d : Device Unit Line} (h : Delivered cs d) :
    ∃ calls, Kernel.decode d.stream = some calls ∧ calls.map (·.event) = cs.map (·.event) := by
  cases h with
  | @nova entries d hclean h =>
    refine ⟨novaCalls entries 0 cs, ?_, novaCalls_events 0⟩
    rw [h.stream_eq, program_eq]
    exact Kernel.decode_text (novaCalls_clean hclean 0)
  | @evaluation calls as s hcalls hclean hrun hdone =>
    have hkept : s.device.dropped = 0 :=
      Kernel.Evaluation.dropped_eq_zero (by decide) (fun _ l _ => l.text_length_le) hrun
    refine ⟨calls, ?_, hcalls⟩
    rw [(Kernel.Evaluation.run_consistent hrun).stream_unit hdone hkept]
    exact Kernel.decode_text hclean

end Device

/-! ## The whole way -/

/-- The same, but that one of the two is ahead by one event. -/
def Abreast (es es' : List Kernel.Event) : Prop :=
  es = es' ∨ (∃ x, es = es' ++ [x]) ∨ ∃ x, es ++ [x] = es'

theorem abreast_of_owed {A owed : List (Option Mark)} (hlen : owed.length ≤ 1)
    (h : (A ++ owed).filterMap (·.bind Mark.called?) = (A ++ owed).filterMap (·.bind Mark.due?)) :
    Abreast (A.filterMap (·.bind said?)) (A.filterMap (·.bind meant?)) ∧
      (owed = [] → A.filterMap (·.bind said?) = A.filterMap (·.bind meant?)) := by
  have hall : A.filterMap (·.bind said?) ++ owed.filterMap (·.bind said?) =
      A.filterMap (·.bind meant?) ++ owed.filterMap (·.bind meant?) := by
    have h' := congrArg (List.filterMap eventOf?) h
    rw [List.filterMap_filterMap, List.filterMap_filterMap] at h'
    simp only [Option.bind_assoc, List.filterMap_append] at h'
    exact h'
  have hone : ∀ o : Option Mark, o.bind said? = none ∨ o.bind meant? = none := by
    rintro (_ | _ | _ | _)
    · exact Or.inl rfl
    · exact Or.inr rfl
    · exact Or.inl rfl
    · exact Or.inl rfl
  constructor
  · obtain he | ⟨o, ho⟩ : owed = [] ∨ ∃ o, owed = [o] := by
      rw [← List.length_eq_zero_iff, ← List.length_eq_one_iff]
      omega
    · subst he
      exact Or.inl (by simpa using hall)
    · subst ho
      cases h₁ : o.bind said? with
      | none =>
        cases h₂ : o.bind meant? with
        | none => exact Or.inl (by simpa [h₁, h₂] using hall)
        | some y => exact Or.inr (Or.inl ⟨y, by simpa [h₁, h₂] using hall⟩)
      | some x =>
        have h₂ : o.bind meant? = none := (hone o).resolve_left (by simp [h₁])
        exact Or.inr (Or.inr ⟨x, by simpa [h₁, h₂] using hall⟩)
  · rintro rfl
    simpa using hall

section Runs

variable {W : Type} {E : Env W} {M M' : Module}

/-- What the program shows when `F` is called and `V` is seen of it. -/
def story (F : Function) (args : List ℕ) (V : List Entry) : List Kernel.Event :=
  (logAt [F.enter args] (.enter args) :: V).filterMap traced?

theorem traced?_visible {L : List Entry} (hL : ∀ e ∈ L, Plain M e) :
    (L.filter visible).filterMap traced? = L.filterMap traced? := by
  induction L with
  | nil => rfl
  | cons e L ih =>
    simp only [List.mem_cons, forall_eq_or_imp] at hL
    have htail := ih hL.2
    cases hv : visible e with
    | true => rw [List.filter_cons_of_pos hv, List.filterMap_cons, List.filterMap_cons, htail]
    | false =>
      have hnone : traced? e = none := by
        have hcall : e.isWrapperCall = true := by simpa [visible, hL.1.1] using hv
        obtain ⟨fn, depth, tracing, event⟩ := e
        cases event <;> simp_all [Entry.isWrapperCall, traced?]
      simp [hv, hnone, htail]

/-- What the passes leave of a program that has no wrappers. -/
structure Prepared (M : Module) : Prop where
  names_nodup : (M.defs.map (·.name)).Nodup
  linked : ∀ F ∈ M.defs, isWrapper F.name = false
  address : ∀ F ∈ M.defs, Contains F.name flushFunctionName → F.params ≠ []
  pointer : M.dataLayout.pointerSizeInBits 0 = 64
  ordered : ∀ F ∈ M.defs, Ordered M.dataLayout F

/-- At every point of an execution the wrapper calls keep abreast of what they are to tell. -/
theorem Prepared.execute_abreast (hM : Prepared M) (hE : WrappersReturn E M) {f : Name}
    {F : Function} (hF : M.lookup f = some F) {args : List ℕ} {w : W} {k : ℕ} {s : State W}
    {L : List Entry} (h : execute E M F args w k = some (s, L)) :
    Abreast ((L.filterMap wrapperCall?).map (·.event)) (L.filterMap traced?) ∧
      (s.stack = [] → (L.filterMap wrapperCall?).map (·.event) = L.filterMap traced?) := by
  have hplain := execute_plain hM.linked (Module.lookup_mem hF).1 h
  obtain ⟨owed, hmode, hexact⟩ := execute_exact hE hM.ordered hF h
  obtain ⟨acts, hacts⟩ := hexact 0
  have hlevel : atLevel 0 L = L := by
    unfold atLevel
    rw [List.filter_eq_self]
    intro e he
    simpa using (hplain e he).1
  have hsaid : (L.filterMap wrapperCall?).map (·.event) =
      (L.map (Entry.mark M)).filterMap (·.bind said?) := by
    rw [List.map_filterMap, List.filterMap_map]
    exact List.filterMap_congr fun e he => wrapperCall?_eq hM.linked (hplain e he)
  have hmeant : L.filterMap traced? = (L.map (Entry.mark M)).filterMap (·.bind meant?) := by
    rw [List.filterMap_map]
    exact List.filterMap_congr fun e he =>
      traced?_eq hM.linked hM.address hM.names_nodup hM.pointer (hplain e he)
  rw [hlevel] at hacts
  have howed := abreast_of_owed (hmode.length_le 0)
    (by rw [hacts]; exact flatMap_marks_called_eq acts)
  rw [hsaid, hmeant]
  exact ⟨howed.1, fun hs => howed.2 (hmode.owed_eq_nil (Or.inl hs))⟩

/-- The wrappers as the program finds them: they return, change nothing that it looks at, and are
not called through pointers. -/
structure Linked (E : Env W) (Agree : W → W → Prop) : Prop where
  respects : Respects E Agree
  external : ∀ n vs w, isWrapper n = true →
    (E.external n vs w).1 = .returned none ∧ Agree w (E.external n vs w).2
  indirect : ∀ a n, E.functionAt a = some n → isWrapper n = false

theorem Linked.unobserved {Agree : W → W → Prop} (hE : Linked E Agree)
    (hM : ∀ F ∈ M.defs, isWrapper F.name = false) : Unobserved E M Agree :=
  ⟨hE.external, fun F hF hw => by simp [hM F hF] at hw⟩

theorem Linked.wrappersReturn {Agree : W → W → Prop} (hE : Linked E Agree)
    (hM : ∀ F ∈ M.defs, isWrapper F.name = false) : WrappersReturn E M :=
  ⟨hE.indirect, fun n args w hn => by simp [(hE.external n args w hn).1],
    fun F hF hw => by simp [hM F hF] at hw⟩

theorem execute_start {F F' : Function} (hname : F'.name = F.name) {args : List ℕ} {w : W} {k : ℕ}
    {s : State W} {L : List Entry} (h : execute E M F' args w k = some (s, L)) :
    ∃ L₁, Lib.runFor (step E M) k (start F' args w) = some (s, L₁) ∧
      L = logAt [F.enter args] (.enter args) :: L₁ := by
  obtain ⟨⟨t, L₁⟩, hrun, h⟩ := Option.map_eq_some_iff.mp h
  obtain ⟨rfl, rfl⟩ := Prod.mk.inj h
  refine ⟨L₁, hrun, ?_⟩
  simp [logAt, Function.enter, hname, tracing]

/-- The trace of an instrumented program, decoded, tells the stores, fences and flushes of the
program before instrumentation: at every point up to one of them, and exactly when the program has
returned, which it does as before. -/
theorem trace_tells_program (hM : M.WellFormed) (hfl : FlushTakesAddress M) (hm : DistinctMatches M)
    (hlinked : ∀ F ∈ M.defs, isWrapper F.name = false)
    (hcalls : ∀ F ∈ M.defs, ∀ b ∈ F.blocks, ∀ i ∈ b.insts, NoWrapperCall i)
    (h64 : M.dataLayout.pointerSizeInBits 0 = 64) (ps : List PassRun)
    (hstore : ∀ F ∈ M.defs, ps.count (.storeFlush F.name) = 1)
    (hvisit : ∀ F ∈ M.defs, .fence F.name ∈ ps) :
    ∃ once' M', runPasses (⟨false, false⟩, M) ps = .ok (once', M') ∧
      ∀ (E : Env W) (Agree : W → W → Prop), Linked E Agree → ∀ f F, M.lookup f = some F →
        ∃ F', M'.lookup f = some F' ∧ ∀ args w,
          (∀ k s L, execute E M' F' args w k = some (s, L) → ∃ V,
            L.filter visible = logAt [F.enter args] (.enter args) :: V ∧
            Lib.Observes (step E M) visible (start F args w) V ∧
            ∀ d, Delivered (L.filterMap wrapperCall?) d → ∃ calls,
              Kernel.decode d.stream = some calls ∧
                Abreast (calls.map (·.event)) (story F args V)) ∧
          ∀ V v, Returns E M F args w V v → ∃ k s L,
            execute E M' F' args w k = some (s, L) ∧ s.stack = [] ∧ s.result = v ∧
            ∀ d, Delivered (L.filterMap wrapperCall?) d → ∃ calls,
              Kernel.decode d.stream = some calls ∧ calls.map (·.event) = story F args V := by
  obtain ⟨once', M', hrun, hext, hplaced⟩ :=
    runPasses_placed hM hfl hm (fun F hF _ => hcalls F hF) ps hstore hvisit
  have hprep : Prepared M' := by
    have hbase : ∀ G ∈ M'.defs, isWrapper G.name = false := fun G hG => by
      obtain ⟨F, hF, hFG⟩ := hext.exists_base hG
      rw [hFG.name]
      exact hlinked F hF
    refine ⟨hext.names ▸ hM.names_nodup, hbase, fun G hG hc => ?_, hext.dataLayout ▸ h64,
      fun G hG => Or.inr (hplaced G hG (hbase G hG))⟩
    obtain ⟨r, ty, ps, hps, -⟩ := hfl.takesAddress hext hG hc
    simp [hps]
  refine ⟨once', M', hrun, fun E Agree hE f F hF => ?_⟩
  have hlookup := hext.lookup_sim f
  rw [hF] at hlookup
  generalize hF' : M'.lookup f = o at hlookup
  cases hlookup with
  | @some _ F' hFF' =>
  have hreturn := hE.wrappersReturn hprep.linked
  refine ⟨F', rfl, fun args w => ?_⟩
  have hsame := hext.sameBehaviour hE.respects (hE.unobserved hprep.linked) hFF' args w
  have hvisible : visible (logAt [F.enter args] (.enter args)) = true := rfl
  constructor
  · intro k s L h
    obtain ⟨L₁, hL₁, rfl⟩ := execute_start (F := F) hFF'.name h
    have hplain := execute_plain hprep.linked (Module.lookup_mem hF').1 h
    refine ⟨L₁.filter visible, List.filter_cons_of_pos hvisible, ?_, fun d hd => ?_⟩
    · exact (hsame.observes _).mpr ⟨k, s, _, ⟨L₁, hL₁, rfl⟩, List.prefix_rfl⟩
    · obtain ⟨calls, hdecode, hevents⟩ := hd.decode
      refine ⟨calls, hdecode, ?_⟩
      rw [hevents, story, ← List.filter_cons_of_pos hvisible, traced?_visible hplain]
      exact (hprep.execute_abreast hreturn hF' h).1
  · intro V v hret
    obtain ⟨t, ⟨⟨k, L₁, hL₁, rfl⟩, -⟩, hstack, hres⟩ := (hsame.returns V v).mp hret
    have h : execute E M' F' args w k =
        some (t, logAt [F'.enter args] (.enter args) :: L₁) := by
      simp [execute, hL₁]
    obtain ⟨L₂, hL₂, hL⟩ := execute_start (F := F) hFF'.name h
    obtain rfl : L₁ = L₂ := (List.cons.inj hL).2
    rw [hL] at h
    have hplain := execute_plain hprep.linked (Module.lookup_mem hF').1 h
    refine ⟨k, t, _, h, hstack, hres, fun d hd => ?_⟩
    obtain ⟨calls, hdecode, hevents⟩ := hd.decode
    refine ⟨calls, hdecode, ?_⟩
    rw [hevents, story, ← List.filter_cons_of_pos hvisible, traced?_visible hplain]
    exact (hprep.execute_abreast hreturn hF' h).2 hstack

end Runs

namespace Driver

open IR.Driver

theorem machine_linked : Linked machine Eq :=
  ⟨.eq machine, fun _ _ _ _ => ⟨rfl, rfl⟩, by simp [machine]⟩

/-- Writing a block is told as a store, a flush and a fence. -/
theorem writeBlock_told : ∃ once' M' F' k s L,
    runPasses (⟨false, false⟩, program) schedule = .ok (once', M') ∧
    M'.lookup "nova_write_block" = some F' ∧ execute machine M' F' [64] [] k = some (s, L) ∧
    s.stack = [] ∧ ∀ d, Delivered (L.filterMap wrapperCall?) d → ∃ calls,
      Kernel.decode d.stream = some calls ∧ calls.map (·.event) = [.store 64, .flush, .fence] := by
  have hcalls : ∀ F ∈ program.defs, ∀ b ∈ F.blocks, ∀ i ∈ b.insts, NoWrapperCall i := by
    unfold NoWrapperCall
    decide
  obtain ⟨once', M', hrun, h⟩ := trace_tells_program (W := List (ℕ × ℕ)) wellFormed
    flushTakesAddress distinctMatches (by decide) hcalls rfl schedule (by decide) (by decide)
  obtain ⟨F', hF', h⟩ := h machine Eq machine_linked "nova_write_block" writeBlock rfl
  have hreturns : (Lib.runFor (step machine program) 8 (start writeBlock [64] [])).map
      (fun p => (p.1.stack.length, p.1.result, story writeBlock [64] (p.2.filter visible))) =
        some (0, none, [.store 64, .flush, .fence]) := by decide +kernel
  obtain ⟨⟨t, L₀⟩, hL₀, ht⟩ := Option.map_eq_some_iff.mp hreturns
  obtain ⟨hstack, ht⟩ := Prod.mk.inj ht
  obtain ⟨hresult, hstory⟩ := Prod.mk.inj ht
  have hnil : t.stack = [] := List.length_eq_zero_iff.mp hstack
  have hhalts : step machine program t = none := by simp [step, hnil]
  obtain ⟨k, s, L, hexec, hend, -, htold⟩ := (h [64] []).2 (L₀.filter visible) none
    ⟨t, ⟨⟨8, L₀, hL₀, rfl⟩, hhalts⟩, hnil, hresult⟩
  rw [hstory] at htold
  exact ⟨once', M', F', k, s, L, hrun, hF', hexec, hend, htold⟩

end Driver

end Squint.Pipeline
