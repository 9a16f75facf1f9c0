import Squint.Kernel.Records

/-! The reader of the evaluation, `mock_squint.py`: it opens `/proc/squint`, reads until a read
returns nothing, and counts the flush headers among the lines it got. -/
namespace Squint.Kernel

open Lib (run)

structure MockSquint where
  /-- What the file that is open now has returned. -/
  session : List Byte
  totalReadSoFar : ℕ
  /-- What the files before have returned. -/
  sessions : List (List Byte)

/-- `len([line for line in lines if line == '@ flush\n'])` -/
def numFlushes (lines : List (List Byte)) : ℕ := (lines.filter (· = ascii "@ flush\n")).length

namespace MockSquint

/-- An empty chunk is the end of the file, at which `readlines` returns. -/
def read (m : MockSquint) (chunk : List Byte) : MockSquint :=
  if chunk = [] then
    let lines := Lib.splitLines newline m.session
    { session := []
      totalReadSoFar :=
        if lines ≠ [] then m.totalReadSoFar + numFlushes lines else m.totalReadSoFar
      sessions := m.sessions ++ [m.session] }
  else { m with session := m.session ++ chunk }

def readAll (reads : List (List Byte)) : MockSquint := reads.foldl read ⟨[], 0, []⟩

def lines (m : MockSquint) : List (List Byte) := m.sessions.flatMap (Lib.splitLines newline)

theorem readAll_append (reads : List (List Byte)) (chunk : List Byte) :
    readAll (reads ++ [chunk]) = (readAll reads).read chunk := by
  simp [readAll]

theorem read_nil (m : MockSquint) : m.read [] =
    ⟨[], m.totalReadSoFar + numFlushes (Lib.splitLines newline m.session),
      m.sessions ++ [m.session]⟩ := by
  by_cases h : Lib.splitLines newline m.session = [] <;> simp [read, h, numFlushes]

theorem totalReadSoFar_readAll (reads : List (List Byte)) :
    (readAll reads).totalReadSoFar = numFlushes (readAll reads).lines := by
  induction reads using List.reverseRecOn with
  | nil => rfl
  | append_singleton reads chunk ih =>
    rw [readAll_append]
    by_cases hchunk : chunk = []
    · subst hchunk
      simp only [read_nil, ih, numFlushes, lines, List.flatMap_append, List.filter_append,
        List.length_append, List.flatMap_singleton]
    · simpa only [read, if_neg hchunk, lines] using ih

theorem flatten_readAll (reads : List (List Byte)) :
    (readAll reads).sessions.flatten ++ (readAll reads).session = reads.flatten := by
  induction reads using List.reverseRecOn with
  | nil => rfl
  | append_singleton reads chunk ih =>
    rw [readAll_append]
    by_cases hchunk : chunk = []
    · subst hchunk
      simp [read_nil, ← ih]
    · simp [read, hchunk, ← ih]

end MockSquint

theorem numFlushes_map {ι : Type} {ws : List (ι × Line)} (hclean : ∀ p ∈ ws, p.2.Clean) :
    numFlushes (ws.map (·.2.text)) = (ws.filter (·.2 = .header .flush)).length := by
  rw [numFlushes, List.filter_map, List.length_map]
  congr 1
  apply List.filter_congr
  intro p hp
  simp only [Function.comp_apply, decide_eq_decide]
  constructor
  · intro htext
    exact Line.text_injOn (hclean p hp) trivial (htext.trans Line.text_flush.symm)
  · intro hflush
    rw [hflush, Line.text_flush]

/-- What `%pS` prints, as far as the evaluation goes. -/
def Frame.Printable (f : Frame) : Prop :=
  f.symbol.length ≤ 177 ∧ ∀ c ∈ f.symbol, 0x20 ≤ c ∧ c ≤ 0x7e

theorem Frame.Printable.clean {f : Frame} (h : f.Printable) : f.Clean := by
  refine ⟨h.1, fun c hc => ?_⟩
  have hle := (h.2 c hc).1
  constructor <;> rintro rfl <;> exact absurd hle (by decide)

variable {ι : Type}

/-- The sessions that have ended have returned some of the lines first written, whole. -/
def Followed (d : Device ι Line) : Prop :=
  ∃ ws, ws <+: d.written ∧ (MockSquint.readAll d.reads).sessions.flatten = ws.flatMap (·.2.text) ∧
    (MockSquint.readAll d.reads).lines = ws.map (·.2.text)

section
variable {calls : ι → List Call} {d d' : Device ι Line}

theorem Followed.write [DecidableEq ι] {i : ι} (h : Followed d)
    (hw : d.kfifoIn Line.text i = some d') : Followed d' := by
  obtain ⟨l, rest, -, rfl⟩ := Device.kfifoIn_eq_some hw
  obtain ⟨ws, hpre, hflat, hlines⟩ := h
  exact ⟨ws, hpre.trans (List.prefix_append _ _), hflat, hlines⟩

/-- When a read returns nothing, the lines returned since the last session ended are whole. -/
theorem followed_of_empty (hclean : ∀ p ∈ d.written, p.2.Clean)
    (hstream : d.stream = d.written.flatMap (·.2.text)) (hempty : d.fifo.items = [])
    (h : Followed d) :
    ((MockSquint.readAll d.reads).read []).sessions.flatten = d.written.flatMap (·.2.text) ∧
      ((MockSquint.readAll d.reads).read []).lines = d.written.map (·.2.text) := by
  obtain ⟨ws, ⟨ws', hws⟩, hflat, hlines⟩ := h
  have hsession : (MockSquint.readAll d.reads).session = ws'.flatMap (·.2.text) := by
    have hreads := MockSquint.flatten_readAll d.reads
    rw [Device.stream, hempty, List.append_nil] at hstream
    rw [hstream, ← hws, hflat, List.flatMap_append] at hreads
    exact List.append_cancel_left hreads
  have hsplit : Lib.splitLines newline (ws'.flatMap (·.2.text)) = ws'.map (·.2.text) := by
    rw [List.flatMap_def]
    apply Lib.splitLines_flatten
    intro x hx
    obtain ⟨p, hp, rfl⟩ := List.mem_map.mp hx
    exact Line.isLine_text (hclean p (by simp [← hws, hp]))
  constructor
  · simp [MockSquint.read_nil, hflat, hsession, ← hws]
  · rw [MockSquint.lines] at hlines
    simp [MockSquint.read_nil, MockSquint.lines, hlines, hsession, hsplit, ← hws]

theorem Followed.read (h : Followed d) (hclean : ∀ p ∈ d.written, p.2.Clean)
    (hstream : d.stream = d.written.flatMap (·.2.text)) {n : ℕ} (hn : 0 < n) :
    Followed (d.kfifoToUser n) := by
  by_cases hempty : d.fifo.items = []
  · obtain ⟨hflat, hlines⟩ := followed_of_empty hclean hstream hempty h
    refine ⟨d.written, List.prefix_refl _, ?_, ?_⟩
    · simpa [Device.kfifoToUser, hempty, MockSquint.readAll_append] using hflat
    · simpa [Device.kfifoToUser, hempty, MockSquint.readAll_append] using hlines
  · have hchunk : d.fifo.items.take n ≠ [] := by
      simp only [ne_eq, List.take_eq_nil_iff, not_or]
      exact ⟨by omega, hempty⟩
    obtain ⟨ws, hpre, hflat, hlines⟩ := h
    refine ⟨ws, hpre, ?_, ?_⟩
    · simpa [Device.kfifoToUser, MockSquint.readAll_append, MockSquint.read, hchunk] using hflat
    · simpa [Device.kfifoToUser, MockSquint.readAll_append, MockSquint.read, hchunk,
        MockSquint.lines] using hlines

end

variable [DecidableEq ι] [Fintype ι] {calls : ι → List Call}

namespace Evaluation

/-- A reachable state of the module, with no more than two writers. -/
structure Reachable (calls : ι → List Call) (s : State ι Line) : Prop where
  few : Fintype.card ι ≤ 2
  run : ∃ as, run (step Line.text) (init (program calls)) as = some s

theorem Reachable.consistent {s : State ι Line} (h : Reachable calls s) :
    s.device.Consistent Line.text (program calls) := by
  obtain ⟨as, hrun⟩ := h.run
  exact run_consistent hrun

theorem Reachable.stream_eq {s : State ι Line} (h : Reachable calls s) :
    s.device.stream = s.device.written.flatMap (·.2.text) := by
  obtain ⟨as, hrun⟩ := h.run
  have hfew : Backpressure.lineMax * Fintype.card ι ≤ kfifoThresholdLen := by
    have := h.few
    simp only [Backpressure.lineMax, kfifoThresholdLen]
    omega
  exact h.consistent.stream (dropped_eq_zero hfew (fun _ l _ => l.text_length_le) hrun)

theorem Reachable.clean {s : State ι Line} (h : Reachable calls s)
    (hclean : ∀ i, ∀ c ∈ calls i, ∀ f ∈ c.stack, f.Clean) :
    ∀ p ∈ s.device.written, p.2.Clean := by
  intro p hp
  obtain ⟨c, hc, hl⟩ := List.mem_flatMap.mp (h.consistent.mem_program hp)
  exact Call.clean_lines (hclean p.1 c hc) p.2 hl

theorem Reachable.step {s t : State ι Line} {a : Action ι} (h : Reachable calls s)
    (ht : step Line.text s a = some t) : Reachable calls t := by
  obtain ⟨as, hrun⟩ := h.run
  exact ⟨h.few, as ++ [a], Lib.run_append.mpr ⟨s, hrun, Lib.run_singleton.mpr ht⟩⟩

def PositiveRead : Action ι → Prop
  | .kfifoToUser count => 0 < count
  | _ => True

theorem Reachable.followed_step (hclean : ∀ i, ∀ c ∈ calls i, ∀ f ∈ c.stack, f.Clean)
    {s t : State ι Line} {a : Action ι} (h : Reachable calls s) (hs : Followed s.device)
    (ha : PositiveRead a) (ht : Evaluation.step Line.text s a = some t) : Followed t.device := by
  cases step_does ht with
  | write _ hw => exact hs.write hw
  | read => exact hs.read (h.clean hclean) h.stream_eq ha
  | _ => exact hs

theorem followed_run (hfew : Fintype.card ι ≤ 2)
    (hclean : ∀ i, ∀ c ∈ calls i, ∀ f ∈ c.stack, f.Clean) {as : List (Action ι)}
    {s : State ι Line} (hpos : ∀ a ∈ as, PositiveRead a)
    (h : Lib.run (step Line.text) (init (program calls)) as = some s) :
    Reachable calls s ∧ Followed s.device := by
  have hinit : Reachable calls (init (program calls)) ∧
      Followed (init (program calls) : State ι Line).device :=
    ⟨⟨hfew, [], rfl⟩, [], List.nil_prefix, rfl, rfl⟩
  have hstep : ∀ s a t, Reachable calls s ∧ Followed s.device → PositiveRead a →
      step Line.text s a = some t → Reachable calls t ∧ Followed t.device :=
    fun _ _ _ hs ha ht => ⟨hs.1.step ht, hs.1.followed_step hclean hs.2 ha ht⟩
  have halong : Lib.Along (fun _ => PositiveRead) (step Line.text) (init (program calls)) as :=
    Lib.Along.of_forall (fun _ _ ha => ha) hpos
  exact halong.invariant hstep hinit h

/-- At the end of every session `mock_squint.py` has counted the flushes written before it, and its
sessions have returned exactly the lines written before it, each thread's in their order. -/
theorem flush_count_exact (hfew : Fintype.card ι ≤ 2)
    (hclean : ∀ i, ∀ c ∈ calls i, ∀ f ∈ c.stack, f.Printable) {as : List (Action ι)}
    {s t : State ι Line} {n : ℕ}
    (h : Lib.run (step Line.text) (init (program calls)) as = some s)
    (hpos : ∀ a ∈ as, PositiveRead a) (hn : 0 < n)
    (hread : step Line.text s (.kfifoToUser n) = some t)
    (hend : t.device.reads = s.device.reads ++ [[]]) :
    (MockSquint.readAll t.device.reads).totalReadSoFar =
        (t.device.written.filter (·.2 = .header .flush)).length ∧
      (MockSquint.readAll t.device.reads).sessions.flatten =
        t.device.written.flatMap (·.2.text) ∧
      (MockSquint.readAll t.device.reads).lines = t.device.written.map (·.2.text) ∧
      ∀ i, t.device.writtenBy i ++ t.device.todo i = program calls i := by
  have hclean' : ∀ i, ∀ c ∈ calls i, ∀ f ∈ c.stack, f.Clean :=
    fun i c hc f hf => (hclean i c hc f hf).clean
  obtain ⟨hs, hfollowed⟩ := followed_run hfew hclean' hpos h
  have hwritten := hs.clean hclean'
  have horder := (hs.step hread).consistent.order
  cases step_does hread with
  | read =>
    have hempty : s.device.fifo.items = [] := by
      have hchunk : s.device.fifo.items.take n = [] := by
        simpa [Device.kfifoToUser] using hend
      exact (List.take_eq_nil_iff.mp hchunk).resolve_left hn.ne'
    obtain ⟨hflat, hlines⟩ := followed_of_empty hwritten hs.stream_eq hempty hfollowed
    rw [← MockSquint.readAll_append, ← hend] at hflat hlines
    refine ⟨?_, hflat, hlines, horder⟩
    rw [MockSquint.totalReadSoFar_readAll, hlines]
    exact numFlushes_map hwritten

/-- A session that starts while the flush is being written, and one that finds nothing more. -/
theorem flushAndFence_count_exact : ∃ t : State Bool Line, t.device.written.length = 3 ∧
    (MockSquint.readAll t.device.reads).totalReadSoFar =
      (t.device.written.filter (·.2 = .header .flush)).length := by
  let as : List (Action Bool) := [.kfifoIn false, .testAvail false, .kfifoToUser 5, .testAsleep,
    .kfifoIn true, .kfifoIn false, .kfifoToUser 1000, .testAsleep]
  have hpair : ((Lib.run (step Line.text) (init (program flushAndFence)) as).bind fun s =>
      (step Line.text s (.kfifoToUser 16)).map fun t =>
        (t.device.written.length, decide (t.device.reads = s.device.reads ++ [[]]))) =
      some (3, true) := by decide +kernel
  obtain ⟨s, h, hmap⟩ := Option.bind_eq_some_iff.mp hpair
  obtain ⟨t, hread, hpair⟩ := Option.map_eq_some_iff.mp hmap
  obtain ⟨hlen, hend⟩ := Prod.mk.inj hpair
  have hprintable : ∀ i, ∀ c ∈ flushAndFence i, ∀ f ∈ c.stack, f.Printable := by
    have hframe : someFrame.Printable := by simp [Frame.Printable, someFrame, ascii]
    intro i c hc
    cases i <;> obtain rfl := List.mem_singleton.mp hc
    · simpa using hframe
    · simp
  exact ⟨t, hlen, (flush_count_exact (by decide) hprintable h (by simp [as, PositiveRead])
    (by decide) hread (of_decide_eq_true hend)).1⟩

end Evaluation

end Squint.Kernel
