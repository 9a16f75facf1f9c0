import Mathlib.Algebra.BigOperators.Group.Finset.Basic
import Squint.Kernel.Evaluation
import Squint.Kernel.TraceParser

/-! Records under concurrency. The lock of the FIFO is held for a line at a time, so lines stay
whole and in order; the lines of a record stay together only where no other thread writes in
between. -/
namespace Squint.Kernel

open Lib (run Along)

variable {ι : Type}

def program (calls : ι → List Call) (i : ι) : List Line := (calls i).flatMap Call.lines

/-- The next line belongs to a record that has been begun. -/
def midRecord : List Line → Bool
  | .frame _ :: _ => true
  | _ => false

def taggedLines (p : ι × Call) : List (ι × Line) := p.2.lines.map fun l => (p.1, l)

/-- All other threads are between two records. -/
def Device.Undisturbed (d : Device ι Line) (i : ι) : Prop :=
  ∀ j, j ≠ i → midRecord (d.todo j) = false

variable [DecidableEq ι]

/-- The records of `order` have been written one after the other, the last one but for `post`.
`rest` is what has not been begun. -/
structure Tidy (calls : ι → List Call) (d : Device ι Line) (order : List (ι × Call))
    (rest : ι → List Call) (post : List (ι × Frame)) : Prop where
  calls : ∀ j, (order.filter (·.1 = j)).map (·.2) ++ rest j = calls j
  written : d.written ++ post.map (fun p => (p.1, .frame p.2)) = order.flatMap taggedLines
  todo : ∀ j, d.todo j =
    (post.filter (·.1 = j)).map (fun p => .frame p.2) ++ (rest j).flatMap Call.lines

section
variable {calls : ι → List Call} {d d' : Device ι Line} {order : List (ι × Call)}
  {rest : ι → List Call} {post : List (ι × Frame)} {i : ι}

theorem tidy_init (calls : ι → List Call) : Tidy calls (.init (program calls)) [] calls [] where
  calls _ := rfl
  written := rfl
  todo _ := rfl

theorem Tidy.read (h : Tidy calls d order rest post) (n : ℕ) :
    Tidy calls (d.kfifoToUser n) order rest post :=
  ⟨h.calls, h.written, h.todo⟩

/-- Between two records, the next line is a header. -/
theorem Tidy.begin (h : Tidy calls d order rest []) (hw : d.kfifoIn Line.text i = some d') :
    ∃ c cs post, Tidy calls d' (order ++ [(i, c)]) (Function.update rest i cs) post := by
  obtain ⟨l, tail, hl, rfl⟩ := Device.kfifoIn_eq_some hw
  have htodo : ∀ j, d.todo j = (rest j).flatMap Call.lines := h.todo
  cases hrest : rest i with
  | nil => simp [htodo, hrest] at hl
  | cons c cs =>
    obtain ⟨fs, hfs⟩ : ∃ fs, c.stack.take 32 = fs := ⟨_, rfl⟩
    have hlines : c.lines = .header c.event :: fs.map .frame := by
      rw [c.lines_eq, printTrace, hfs]
    rw [htodo, hrest, List.flatMap_cons, hlines, List.cons_append] at hl
    obtain ⟨rfl, rfl⟩ := List.cons.inj hl
    refine ⟨c, cs, fs.map fun f => (i, f), fun j => ?_, ?_, fun j => ?_⟩
    · by_cases hj : j = i
      · subst hj
        simpa [hrest] using h.calls j
      · simpa [hj, Ne.symm hj] using h.calls j
    · have hw := h.written
      simp only [List.map_nil, List.append_nil] at hw
      simp [Device.put, hw, taggedLines, hlines]
    · by_cases hj : j = i
      · subst hj
        simp [Device.put, List.filter_map, Function.comp_def]
      · simp [Device.put, hj, Ne.symm hj, htodo, List.filter_map, Function.comp_def]

/-- Within a record, the next line is the next frame of the thread that began it. -/
theorem Tidy.goOn {k : ι} {f : Frame} (h : Tidy calls d order rest ((k, f) :: post))
    (hi : d.Undisturbed i) (hw : d.kfifoIn Line.text i = some d') :
    Tidy calls d' order rest post := by
  have htodo := h.todo k
  simp only [List.filter_cons, decide_true, if_true, List.map_cons, List.cons_append] at htodo
  obtain rfl : k = i := by
    by_contra hk
    have hmid := hi k hk
    simp [htodo, midRecord] at hmid
  obtain ⟨l, tail, hl, rfl⟩ := Device.kfifoIn_eq_some hw
  rw [htodo] at hl
  obtain ⟨rfl, rfl⟩ := List.cons.inj hl
  refine ⟨h.calls, ?_, fun j => ?_⟩
  · simpa [Device.put] using h.written
  · by_cases hj : j = k
    · subst hj
      simp [Device.put]
    · simpa [Device.put, hj, Ne.symm hj] using h.todo j

theorem Tidy.write (h : Tidy calls d order rest post) (hi : d.Undisturbed i)
    (hw : d.kfifoIn Line.text i = some d') :
    ∃ order rest post, Tidy calls d' order rest post := by
  cases post with
  | nil =>
    obtain ⟨c, cs, post, h'⟩ := h.begin hw
    exact ⟨_, _, post, h'⟩
  | cons p post => exact ⟨order, rest, post, h.goOn hi hw⟩

theorem Tidy.finished (h : Tidy calls d order rest post) (hdone : ∀ i, d.todo i = []) :
    d.written = order.flatMap taggedLines ∧
      ∀ i, (order.filter (·.1 = i)).map (·.2) = calls i := by
  have hpost : post = [] := by
    cases post with
    | nil => rfl
    | cons p post =>
      have htodo := h.todo p.1
      simp [hdone] at htodo
  subst hpost
  refine ⟨by simpa using h.written, fun i => ?_⟩
  have hrest : rest i = [] := by
    have htodo := h.todo i
    cases hr : rest i with
    | nil => rfl
    | cons c cs => simp [hdone, hr, c.lines_eq] at htodo
  simpa [hrest] using h.calls i

end

/-- A string is written only while all other threads are between two records. -/
def KernelModule.Separate (d : Device ι Line) : KernelModule.Action ι → Prop
  | .kfifoIn i => d.Undisturbed i
  | _ => True

def Evaluation.Separate (s : Evaluation.State ι Line) : Evaluation.Action ι → Prop
  | .kfifoIn i => s.device.Undisturbed i
  | _ => True

section
variable [Fintype ι]

instance (d : Device ι Line) (i : ι) : Decidable (d.Undisturbed i) :=
  inferInstanceAs (Decidable (∀ _, _))

instance (d : Device ι Line) : ∀ a, Decidable (KernelModule.Separate d a)
  | .kfifoIn i => inferInstanceAs (Decidable (d.Undisturbed i))
  | .kfifoToUser _ => isTrue trivial

instance (s : Evaluation.State ι Line) : ∀ a, Decidable (Evaluation.Separate s a)
  | .kfifoIn i => inferInstanceAs (Decidable (s.device.Undisturbed i))
  | .testAvail _ | .setAsleep _ | .waitEvent _ | .kfifoToUser _ | .testAsleep | .clearAsleep
  | .wakeUp => isTrue trivial

end

section
variable {calls : ι → List Call}

def Tidied (calls : ι → List Call) (d : Device ι Line) : Prop :=
  ∃ order rest post, Tidy calls d order rest post

theorem KernelModule.step_tidied {d d' : Device ι Line} {a : KernelModule.Action ι}
    (hd : Tidied calls d) (ha : Separate d a) (h : step Line.text d a = some d') :
    Tidied calls d' := by
  obtain ⟨order, rest, post, hd⟩ := hd
  cases a with
  | kfifoIn i => exact hd.write ha h
  | kfifoToUser n =>
    obtain rfl := Option.some.inj h
    exact ⟨order, rest, post, hd.read n⟩

theorem Evaluation.step_tidied {s t : Evaluation.State ι Line} {a : Evaluation.Action ι}
    (hs : Tidied calls s.device) (ha : Separate s a) (h : step Line.text s a = some t) :
    Tidied calls t.device := by
  obtain ⟨order, rest, post, hd⟩ := hs
  cases step_does h with
  | write _ hw => exact hd.write ha hw
  | read => exact ⟨order, rest, post, hd.read _⟩
  | _ => exact ⟨order, rest, post, hd⟩

end

/-- The stream is an interleaving of whole lines, in the order of each thread. -/
def KeepsLines (calls : ι → List Call) (d : Device ι Line) : Prop :=
  d.stream = d.written.flatMap (fun p => p.2.text) ∧ ∀ i, d.writtenBy i = program calls i

/-- The stream consists of whole records, those that were written, and cutting it at the headers
gives them back. -/
def KeepsRecords [Fintype ι] (calls : ι → List Call) (d : Device ι Line) : Prop :=
  ∃ order : List Call, d.stream = (order.flatMap Call.lines).flatMap Line.text ∧
    (order : Multiset Call) = ∑ i, (calls i : Multiset Call) ∧
    ((∀ i, ∀ c ∈ calls i, c.Clean) → decode d.stream = some order)

section
variable {calls : ι → List Call} {d : Device ι Line}

theorem Device.Consistent.keepsLines (h : d.Consistent Line.text (program calls))
    (hdone : ∀ i, d.todo i = []) (hkept : d.dropped = 0) : KeepsLines calls d := by
  refine ⟨h.stream hkept, fun i => ?_⟩
  have horder := h.order i
  rwa [hdone i, List.append_nil] at horder

theorem coe_map_snd [Fintype ι] (order : List (ι × Call)) :
    (order.map (·.2) : Multiset Call) =
      ∑ i, (((order.filter (·.1 = i)).map (·.2) : List Call) : Multiset Call) := by
  induction order with
  | nil => simp
  | cons p order ih =>
    have hcons : ∀ i, ((((p :: order).filter (·.1 = i)).map (·.2) : List Call) : Multiset Call) =
        (if p.1 = i then {p.2} else 0) +
          (((order.filter (·.1 = i)).map (·.2) : List Call) : Multiset Call) := by
      intro i
      by_cases hi : p.1 = i <;> simp [hi]
    simp only [hcons, Finset.sum_add_distrib, ← ih]
    simp

theorem Tidied.keepsRecords [Fintype ι] (h : Tidied calls d) (hlines : KeepsLines calls d)
    (hdone : ∀ i, d.todo i = []) : KeepsRecords calls d := by
  obtain ⟨order, rest, post, h⟩ := h
  obtain ⟨hwritten, hcalls⟩ := h.finished hdone
  have hstream : d.stream = ((order.map (·.2)).flatMap Call.lines).flatMap Line.text := by
    rw [hlines.1, hwritten]
    simp [List.flatMap_assoc, List.flatMap_map, taggedLines]
  have hset : ((order.map (·.2) : List Call) : Multiset Call) = ∑ i, (calls i : Multiset Call) := by
    rw [coe_map_snd]
    simp only [hcalls]
  refine ⟨order.map (·.2), hstream, hset, fun hclean => ?_⟩
  rw [hstream]
  apply decode_text
  intro c hc
  have hmem : c ∈ ∑ i, (calls i : Multiset Call) := hset ▸ Multiset.mem_coe.mpr hc
  obtain ⟨i, -, hi⟩ := Multiset.mem_sum.mp hmem
  exact hclean i c (Multiset.mem_coe.mp hi)

end

/-- In both copies of the module, what goes through the FIFO without loss is an interleaving of
whole lines, and a sequence of whole records if no thread writes within a record of another. -/
theorem stream_of_finished [Fintype ι] (calls : ι → List Call) :
    (∀ as d, run (KernelModule.step Line.text) (.init (program calls)) as = some d →
      (∀ i, d.todo i = []) → d.dropped = 0 → KeepsLines calls d ∧
        (Along KernelModule.Separate (KernelModule.step Line.text) (.init (program calls)) as →
          KeepsRecords calls d)) ∧
    ∀ as s, run (Evaluation.step Line.text) (Evaluation.init (program calls)) as = some s →
      (∀ i, s.device.todo i = []) → s.device.dropped = 0 → KeepsLines calls s.device ∧
        (Along Evaluation.Separate (Evaluation.step Line.text) (Evaluation.init (program calls))
            as →
          KeepsRecords calls s.device) := by
  have hinit : Tidied calls (.init (program calls)) := ⟨[], calls, [], tidy_init calls⟩
  refine ⟨fun as d h hdone hkept => ?_, fun as s h hdone hkept => ?_⟩
  · have hlines := (KernelModule.run_consistent h).keepsLines hdone hkept
    refine ⟨hlines, fun hsep => ?_⟩
    have htidy : Tidied calls d :=
      hsep.invariant (fun _ _ _ => KernelModule.step_tidied) hinit h
    exact htidy.keepsRecords hlines hdone
  · have hlines := (Evaluation.run_consistent h).keepsLines hdone hkept
    refine ⟨hlines, fun hsep => ?_⟩
    have htidy : Tidied calls s.device :=
      hsep.invariant (I := fun s => Tidied calls s.device) (fun _ _ _ => Evaluation.step_tidied)
        hinit h
    exact htidy.keepsRecords hlines hdone

/-! ## A flush and a fence at once -/

def someFrame : Frame := ⟨0xffffffffc03b5110, ascii "print_trace+0x40/0xe0 [squint_module]"⟩

/-- One thread reports a flush with one frame, the other a fence with none. -/
def flushAndFence : Bool → List Call
  | false => [⟨.flush, [someFrame]⟩]
  | true => [⟨.fence, []⟩]

theorem someFrame_clean : someFrame.Clean := by simp [Frame.Clean, someFrame, ascii, newline]

theorem flushAndFence_clean : ∀ i, ∀ c ∈ flushAndFence i, c.Clean := by
  intro i c hc
  cases i with
  | false =>
    obtain rfl := List.mem_singleton.mp hc
    exact ⟨by decide, by simpa using someFrame_clean⟩
  | true =>
    obtain rfl := List.mem_singleton.mp hc
    exact ⟨by decide, by simp⟩

def finished (d : Device Bool Line) : Bool :=
  d.todo false = [] ∧ d.todo true = [] ∧ d.dropped = 0

theorem done_of_finished {d : Device Bool Line} (h : finished d = true) :
    (∀ i, d.todo i = []) ∧ d.dropped = 0 := by
  obtain ⟨hfalse, htrue, hkept⟩ := of_decide_eq_true h
  refine ⟨fun i => ?_, hkept⟩
  cases i
  · exact hfalse
  · exact htrue

/-- The frame of the flush follows the header of the fence. -/
def tornStream : List Byte :=
  [.header .flush, .header .fence, .frame someFrame].flatMap Line.text

theorem not_keepsRecords_of_torn {d : Device Bool Line} (h : d.stream = tornStream) :
    ¬ KeepsRecords flushAndFence d := by
  rintro ⟨order, -, hset, hdecode⟩
  have hread := hdecode flushAndFence_clean
  have hcut : decode tornStream = some [⟨.flush, []⟩, ⟨.fence, [someFrame]⟩] := by
    decide +kernel
  rw [h, hcut] at hread
  obtain rfl := Option.some.inj hread
  revert hset
  decide

/-- In both copies a fence can come between the header and the frame of a flush. -/
theorem record_torn :
    (∃ as d, run (KernelModule.step Line.text) (.init (program flushAndFence)) as = some d ∧
      ((∀ i, d.todo i = []) ∧ d.dropped = 0) ∧ ¬ KeepsRecords flushAndFence d) ∧
    ∃ as s, run (Evaluation.step Line.text) (Evaluation.init (program flushAndFence)) as = some s ∧
      ((∀ i, s.device.todo i = []) ∧ s.device.dropped = 0) ∧
        ¬ KeepsRecords flushAndFence s.device := by
  have hkernel : (run (KernelModule.step Line.text) (.init (program flushAndFence))
      [.kfifoIn false, .kfifoIn true, .kfifoIn false]).map (fun d => (finished d, d.stream)) =
        some (true, tornStream) := by decide +kernel
  have heval : (run (Evaluation.step Line.text) (Evaluation.init (program flushAndFence))
      [.kfifoIn false, .testAvail false, .kfifoIn true, .kfifoIn false]).map
        (fun s => (finished s.device, s.device.stream)) = some (true, tornStream) := by
    decide +kernel
  obtain ⟨d, hd, hpair⟩ := Option.map_eq_some_iff.mp hkernel
  obtain ⟨s, hs, hpair'⟩ := Option.map_eq_some_iff.mp heval
  obtain ⟨hfin, htorn⟩ := Prod.mk.inj hpair
  obtain ⟨hfin', htorn'⟩ := Prod.mk.inj hpair'
  exact ⟨⟨_, d, hd, done_of_finished hfin, not_keepsRecords_of_torn htorn⟩,
    _, s, hs, done_of_finished hfin', not_keepsRecords_of_torn htorn'⟩

/-- Where the flush is finished before the fence begins, both copies keep the records. -/
theorem records_in_turn :
    (∃ as d, run (KernelModule.step Line.text) (.init (program flushAndFence)) as = some d ∧
      KeepsRecords flushAndFence d) ∧
    ∃ as s, run (Evaluation.step Line.text) (Evaluation.init (program flushAndFence)) as = some s ∧
      KeepsRecords flushAndFence s.device := by
  obtain ⟨hkernel, heval⟩ := stream_of_finished flushAndFence
  have hfin : (run (KernelModule.step Line.text) (.init (program flushAndFence))
      [.kfifoIn false, .kfifoIn false, .kfifoIn true]).map finished = some true := by
    decide +kernel
  have hfin' : (run (Evaluation.step Line.text) (Evaluation.init (program flushAndFence))
      [.kfifoIn false, .testAvail false, .kfifoIn false, .kfifoIn true]).map
        (finished ·.device) = some true := by decide +kernel
  obtain ⟨d, hd, hfin⟩ := Option.map_eq_some_iff.mp hfin
  obtain ⟨s, hs, hfin'⟩ := Option.map_eq_some_iff.mp hfin'
  obtain ⟨hdone, hkept⟩ := done_of_finished hfin
  obtain ⟨hdone', hkept'⟩ := done_of_finished hfin'
  exact ⟨⟨_, d, hd, (hkernel _ d hd hdone hkept).2 (by decide +kernel)⟩,
    _, s, hs, (heval _ s hs hdone' hkept').2 (by decide +kernel)⟩

end Squint.Kernel
