import Squint.Kernel.Wrappers

/-! `print_trace` down to its array `stack_entries`: what the kernel saves there, what was there
before, and how many of the entries each copy of the module prints. -/
namespace Squint.Kernel.StackTrace

/-- `print_trace` has room for 32 entries in every copy. -/
def maxEntries : ℕ := 32

abbrev Entries := ℕ → BitVec 64

/-- `stack_trace_save`: at most `size` return addresses of `stack` go to the front of the array; the
number of them is returned, and the rest of the array keeps what it held. -/
def stackTraceSave (stack : List (BitVec 64)) (size : ℕ) (entries : Entries) : Entries × ℕ :=
  (fun i => (stack.take size)[i]?.getD (entries i), (stack.take size).length)

/-- `struct stack_trace`, with its `skip` of 0 left out. -/
structure Trace where
  nrEntries : ℕ
  entries : Entries
  maxEntries : ℕ

def saveStackTrace (stack : List (BitVec 64)) (trace : Trace) : Trace :=
  match stackTraceSave stack trace.maxEntries trace.entries with
  | (entries, n) => { trace with entries := entries, nrEntries := n }

section
-- what `%pS` prints for an address
variable (symbol : BitVec 64 → List Byte)

def frame (addr : BitVec 64) : Frame := ⟨addr, symbol addr⟩

/-- The loop of every copy: the entries below `len`, one line each. -/
def printEntries (entries : Entries) (len : ℕ) : List Line :=
  (List.range len).map fun i => .frame (frame symbol (entries i))

/-- `print_trace` of `kfifo_kernel_module`, where the array held `entries`. -/
def printTrace (stack : List (BitVec 64)) (entries : Entries) : List Line :=
  match stackTraceSave stack maxEntries entries with
  | (entries, len) => printEntries symbol entries len

def Evaluation.printTrace (stack : List (BitVec 64)) (entries : Entries) : List Line :=
  match stackTraceSave stack maxEntries entries with
  | (entries, len) => printEntries symbol entries len

/-- NOVA's `print_trace`, where `len` is the size of the array and not what was saved. -/
def Nova.printTrace (stack : List (BitVec 64)) (entries : Entries) : List Line :=
  let len := maxEntries
  let trace := saveStackTrace stack ⟨0, entries, len⟩
  printEntries symbol trace.entries len

variable {symbol} {stack : List (BitVec 64)} {entries : Entries}

@[simp] theorem length_printEntries (len : ℕ) : (printEntries symbol entries len).length = len := by
  simp [printEntries]

theorem printEntries_saved (entries : Entries) {size : ℕ} :
    printEntries symbol (stackTraceSave stack size entries).1 (stack.take size).length =
      (stack.take size).map fun addr => .frame (frame symbol addr) := by
  apply List.ext_getElem
  · simp
  · intro i hi _
    have hlen : i < (stack.take size).length := by simpa using hi
    simp only [printEntries, stackTraceSave, List.getElem_map, List.getElem_range,
      List.getElem?_eq_getElem hlen, Option.getD_some]

theorem printTrace_saved :
    printTrace symbol stack entries =
      (stack.take maxEntries).map fun addr => .frame (frame symbol addr) :=
  printEntries_saved entries

theorem printTrace_eq :
    printTrace symbol stack entries = Kernel.printTrace (stack.map (frame symbol)) := by
  rw [printTrace_saved, Kernel.printTrace, ← List.map_take, List.map_map]
  rfl

theorem Nova.printTrace_eq :
    Nova.printTrace symbol stack entries = Kernel.Nova.printTrace fun i =>
      frame symbol ((stackTraceSave stack maxEntries entries).1 i) := by
  apply List.ext_getElem
  · simp [Nova.printTrace, Kernel.Nova.printTrace, maxEntries]
  · intro i hi _
    simp only [Nova.printTrace, Kernel.Nova.printTrace, printEntries, saveStackTrace,
      List.getElem_map, List.getElem_range, List.getElem_ofFn]

@[simp] theorem Nova.length_printTrace : (Nova.printTrace symbol stack entries).length = 32 := by
  simp [Nova.printTrace, maxEntries]

theorem Nova.printTrace_of_full (h : 32 ≤ stack.length) :
    Nova.printTrace symbol stack entries = StackTrace.printTrace symbol stack entries := by
  have hlen : (stack.take maxEntries).length = maxEntries := by
    rw [List.length_take, maxEntries]
    omega
  rw [printTrace_saved, ← printEntries_saved entries, hlen]
  rfl

/-- With fewer than 32, the first entry that was not saved is printed as it was found. -/
theorem Nova.getElem_printTrace_of_short (h : stack.length < 32) :
    (Nova.printTrace symbol stack entries)[stack.length]? =
      some (.frame (frame symbol (entries stack.length))) := by
  have hnone : (stack.take maxEntries)[stack.length]? = none := by
    rw [List.getElem?_eq_none_iff, List.length_take]
    omega
  have hlt : stack.length < maxEntries := h
  simp only [Nova.printTrace, printEntries, saveStackTrace, stackTraceSave, List.getElem?_map,
    List.getElem?_range hlt, Option.map_some, hnone, Option.getD_none]

/-- The copies of `kfifo_kernel_module` and `kfifo_kernel_evaluation` print one line for each saved
frame and nothing else. NOVA's prints the same lines exactly if all 32 entries were saved; else it
prints what the array held before. -/
theorem Nova.printTrace_agrees_iff (symbol : BitVec 64 → List Byte) (stack : List (BitVec 64))
    (entries : Entries) :
    StackTrace.printTrace symbol stack entries =
      (stack.take 32).map (fun addr => .frame (frame symbol addr)) ∧
    Evaluation.printTrace symbol stack entries = StackTrace.printTrace symbol stack entries ∧
    ((Nova.printTrace symbol stack entries).map Line.text =
      (StackTrace.printTrace symbol stack entries).map Line.text ↔ 32 ≤ stack.length) ∧
    ((∀ entries', Nova.printTrace symbol stack entries' = Nova.printTrace symbol stack entries) ↔
      32 ≤ stack.length) := by
  refine ⟨printTrace_saved, rfl, ⟨fun h => ?_, fun h => ?_⟩, ⟨fun h => ?_, fun h entries' => ?_⟩⟩
  · have hlen := congrArg List.length h
    simp only [List.length_map, Nova.length_printTrace, printTrace_saved, List.length_take,
      maxEntries] at hlen
    omega
  · rw [Nova.printTrace_of_full h]
  · by_contra hshort
    have hlt : stack.length < 32 := by omega
    have hsame := congrArg (·[stack.length]?) (h fun _ => entries stack.length + 1)
    simp only [Nova.getElem_printTrace_of_short hlt, Option.some.injEq, Line.frame.injEq] at hsame
    have haddr : entries stack.length + 1 = entries stack.length := congrArg Frame.addr hsame
    simp at haddr
  · rw [Nova.printTrace_of_full h, Nova.printTrace_of_full h, printTrace_saved, printTrace_saved]

end

/-- A stack of 33 frames is cut off at 32 by every copy, whatever the array held. -/
theorem Nova.printTrace_agrees_deep :
    (Nova.printTrace (fun _ => []) (List.replicate 33 7) fun _ => 1).map Line.text =
      (StackTrace.printTrace (fun _ => []) (List.replicate 33 7) fun _ => 0).map Line.text := by
  have hdeep : 32 ≤ (List.replicate 33 (7 : BitVec 64)).length := by decide
  have h := (Nova.printTrace_agrees_iff (fun _ => []) (List.replicate 33 7) fun _ => 1).2.2.1
  rw [h.mpr hdeep, printTrace_saved, printTrace_saved]

/-- One frame was saved: `kfifo_kernel_module` prints one line, and NOVA's copy another 31, from
whatever the array held. -/
theorem Nova.printTrace_leftover :
    StackTrace.printTrace (fun _ => []) [7] (fun _ => 1) = [.frame ⟨7, []⟩] ∧
    Nova.printTrace (fun _ => []) [7] (fun _ => 1) =
      .frame ⟨7, []⟩ :: List.replicate 31 (.frame ⟨1, []⟩) ∧
    (Nova.printTrace (fun _ => []) [7] fun _ => 1).map Line.text ≠
      (StackTrace.printTrace (fun _ => []) [7] fun _ => 1).map Line.text ∧
    (Nova.printTrace (fun _ => []) [7] fun _ => 1).map Line.text ≠
      (Nova.printTrace (fun _ => []) [7] fun _ => 2).map Line.text := by
  decide +kernel

end Squint.Kernel.StackTrace
