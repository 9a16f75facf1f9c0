import Squint.Kernel.TraceParser

/-! The wrappers of `print.c`, which the instrumented NOVA calls, in front of NOVA's copy of the
module. Flush addresses and store sizes get as far as the wrappers. -/
namespace Squint.Kernel.Nova

open Lib (run)

/-- NOVA's `print_trace`: all 32 entries of the array are printed, however many were saved. -/
def printTrace (entries : Fin 32 → Frame) : List Line := List.ofFn fun i => .frame (entries i)

/-- A call the instrumentation makes. -/
inductive WrapperCall where
  | fence
  | flush (addr : BitVec 64)
  | store (addr : BitVec 64) (sz : BitVec 32)
  deriving DecidableEq, Repr

def writeFenceTraceWrapper (entries : Fin 32 → Frame) : List Line :=
  writeFenceTrace (printTrace entries)

def writeFlushTraceWrapper (_addr : BitVec 64) (entries : Fin 32 → Frame) : List Line :=
  writeFlushTrace (printTrace entries)

def writeStoreTraceWrapper (addr : BitVec 64) (_sz : BitVec 32) (entries : Fin 32 → Frame) :
    List Line :=
  writeStoreTrace addr (printTrace entries)

namespace WrapperCall

def lines (entries : Fin 32 → Frame) : WrapperCall → List Line
  | .fence => writeFenceTraceWrapper entries
  | .flush addr => writeFlushTraceWrapper addr entries
  | .store addr sz => writeStoreTraceWrapper addr sz entries

/-- What is left of a call in the trace. -/
def event : WrapperCall → Event
  | .fence => .fence
  | .flush _ => .flush
  | .store addr _ => .store addr

theorem lines_eq (entries : Fin 32 → Frame) (c : WrapperCall) :
    c.lines entries = .header c.event :: printTrace entries := by
  cases c <;> rfl

end WrapperCall

/-- All lines of a sequence of calls, where `print_trace` finds `entries n` at the `n`-th. -/
def program (entries : ℕ → Fin 32 → Frame) (n : ℕ) : List WrapperCall → List Line
  | [] => []
  | c :: cs => c.lines (entries n) ++ program entries (n + 1) cs

variable {entries : ℕ → Fin 32 → Frame} {cs ds : List WrapperCall}

theorem program_congr (h : cs.map WrapperCall.event = ds.map WrapperCall.event) (n : ℕ) :
    program entries n cs = program entries n ds := by
  induction cs generalizing ds n with
  | nil =>
    obtain rfl : ds = [] := by simpa using h.symm
    rfl
  | cons c cs ih =>
    cases ds with
    | nil => simp at h
    | cons e ds =>
      obtain ⟨hce, h⟩ := List.cons.inj h
      rw [program, program, c.lines_eq, e.lines_eq, hce, ih h]

theorem text_header_ne_nil (e : Event) : (Line.header e).text ≠ [] := by
  obtain ⟨body, h, -⟩ := Line.isLine_header e
  simp [h]

/-- Headers end with their only newline, so that equal texts have the same headers at the same
places, whatever the frame lines look like. -/
theorem event_eq_of_text_eq (n : ℕ)
    (h : (program entries n cs).flatMap Line.text = (program entries n ds).flatMap Line.text) :
    cs.map WrapperCall.event = ds.map WrapperCall.event := by
  induction cs generalizing ds n with
  | nil =>
    cases ds with
    | nil => rfl
    | cons e ds =>
      rw [program, program, e.lines_eq] at h
      simp [text_header_ne_nil] at h
  | cons c cs ih =>
    cases ds with
    | nil =>
      rw [program, program, c.lines_eq] at h
      simp [text_header_ne_nil] at h
    | cons e ds =>
      rw [program, program, c.lines_eq, e.lines_eq] at h
      simp only [List.cons_append, List.flatMap_cons, List.flatMap_append] at h
      obtain ⟨hhead, hrest⟩ := (Line.isLine_header c.event).append_inj (Line.isLine_header _) h
      have hce : Line.header c.event = Line.header e.event := Line.text_injOn trivial trivial hhead
      have htail := ih (n + 1) (List.append_cancel_left hrest)
      rw [List.map_cons, List.map_cons, Line.header.inj hce, htail]

/-- What one thread has put into the FIFO once all of its calls have returned and found room. -/
structure Traced (entries : ℕ → Fin 32 → Frame) (cs : List WrapperCall) (d : Device Unit Line) :
    Prop where
  run : ∃ as, run (KernelModule.step Line.text) (.init fun _ => program entries 0 cs) as = some d
  done : d.todo () = []
  kept : d.dropped = 0

theorem Traced.stream_eq {d : Device Unit Line} (h : Traced entries cs d) :
    d.stream = (program entries 0 cs).flatMap Line.text := by
  obtain ⟨as, hrun⟩ := h.run
  exact (KernelModule.run_consistent hrun).stream_unit h.done h.kept

theorem program_length (n : ℕ) : (program entries n cs).length = 33 * cs.length := by
  induction cs generalizing n with
  | nil => rfl
  | cons c cs ih =>
    simp only [program, c.lines_eq, printTrace, List.length_append, List.length_cons,
      List.length_ofFn, ih]
    omega

/-- Two calls always find room in an empty FIFO. -/
theorem exists_traced (entries : ℕ → Fin 32 → Frame) (cs : List WrapperCall)
    (hcs : cs.length ≤ 2) : ∃ d, Traced entries cs d := by
  let d₀ : Device Unit Line := .init fun _ => program entries 0 cs
  have hroom : (d₀.todo ()).length * Backpressure.lineMax ≤ d₀.fifo.avail := by
    rw [Device.avail_init]
    simp only [d₀, Device.init, program_length, Backpressure.lineMax, kfifoLen]
    omega
  obtain ⟨as, d, hrun, hdone, hkept⟩ :=
    KernelModule.exists_run_all (fun l _ => l.text_length_le) hroom
  exact ⟨d, ⟨as, hrun⟩, hdone, hkept⟩

/-- Two sequences of calls leave the same bytes exactly if they agree but for flush addresses and
store sizes. -/
theorem stream_eq_iff {d d' : Device Unit Line} (h : Traced entries cs d)
    (h' : Traced entries ds d') :
    d.stream = d'.stream ↔ cs.map WrapperCall.event = ds.map WrapperCall.event := by
  rw [h.stream_eq, h'.stream_eq]
  constructor
  · exact event_eq_of_text_eq 0
  · intro heq
    rw [program_congr heq]

def sameEntries : ℕ → Fin 32 → Frame := fun _ _ => ⟨0xffffffffc03b5110, ascii "f+0x1/0x2"⟩

theorem flush_store_distinguished : ∃ d d', Traced sameEntries [.flush 1] d ∧
    Traced sameEntries [.store 1 8] d' ∧ d.stream ≠ d'.stream := by
  obtain ⟨d, hd⟩ := exists_traced sameEntries [.flush 1] (by decide)
  obtain ⟨d', hd'⟩ := exists_traced sameEntries [.store 1 8] (by decide)
  refine ⟨d, d', hd, hd', fun h => ?_⟩
  simpa [WrapperCall.event] using (stream_eq_iff hd hd').mp h

/-- Neither the address of a flush nor the size of a store can be told from the trace. -/
theorem address_and_size_lost :
    (∃ d d', Traced sameEntries [.flush 1] d ∧ Traced sameEntries [.flush 2] d' ∧
      d.stream = d'.stream) ∧
    ∃ d d', Traced sameEntries [.store 1 4] d ∧ Traced sameEntries [.store 1 8] d' ∧
      d.stream = d'.stream := by
  obtain ⟨d₁, h₁⟩ := exists_traced sameEntries [.flush 1] (by decide)
  obtain ⟨d₂, h₂⟩ := exists_traced sameEntries [.flush 2] (by decide)
  obtain ⟨d₃, h₃⟩ := exists_traced sameEntries [.store 1 4] (by decide)
  obtain ⟨d₄, h₄⟩ := exists_traced sameEntries [.store 1 8] (by decide)
  refine ⟨⟨d₁, d₂, h₁, h₂, ?_⟩, d₃, d₄, h₃, h₄, ?_⟩
  · rw [h₁.stream_eq, h₂.stream_eq]
    rfl
  · rw [h₃.stream_eq, h₄.stream_eq]
    rfl

end Squint.Kernel.Nova
