import Mathlib.Data.List.TakeWhile
import Squint.Kernel.Backpressure
import Squint.Lib.Lines
import Squint.Lib.Numerals

/-! The text of the trace: a header line for each event, and a line for each frame of the stack at
that moment. -/
namespace Squint.Kernel

def ascii (s : String) : List Byte := s.toList.map fun c => UInt8.ofNat c.toNat

def newline : Byte := 0x0a

/-- What the trace says happened. -/
inductive Event where
  | flush
  | fence
  | store (addr : BitVec 64)
  deriving DecidableEq, Repr

/-- A saved return address, and what `%pS` prints for it. -/
structure Frame where
  addr : BitVec 64
  symbol : List Byte
  deriving DecidableEq, Repr

/-- What one call of `squint_fifo_write` is about. -/
inductive Line where
  | header (e : Event)
  | frame (f : Frame)
  deriving DecidableEq, Repr

/-! ## Formats -/

def digitByte (d : ℕ) : Byte := if d < 10 then UInt8.ofNat (48 + d) else UInt8.ofNat (87 + d)

/-- `%lu` -/
def decimal (n : ℕ) : List Byte := (Lib.printedDigits 10 n).map digitByte

/-- `%px`, taken to print 16 digits. -/
def pointer (addr : BitVec 64) : List Byte := (Lib.fixedDigits 16 16 addr.toNat).map digitByte

/-- `"@ store: %lu\n"` -/
def storeFormat (addr : BitVec 64) : List Byte :=
  ascii "@ store: " ++ decimal addr.toNat ++ [newline]

/-- `"[<%px>] %pS\n"` -/
def frameFormat (f : Frame) : List Byte :=
  ascii "[<" ++ pointer f.addr ++ ascii ">] " ++ f.symbol ++ [newline]

/-- What `snprintf` leaves in a buffer of `size` bytes, in front of the terminating NUL. -/
def snprintf (size : ℕ) (out : List Byte) : List Byte := out.take (size - 1)

/-- The `strlen` bytes that a string starting like `buf` has. -/
def cString (buf : List Byte) : List Byte := buf.takeWhile (· ≠ 0)

namespace Line

/-- The argument of `squint_fifo_write`. -/
def buffer : Line → List Byte
  | .header .flush => ascii "@ flush\n"
  | .header .fence => ascii "@ fence\n"
  | .header (.store addr) => snprintf 40 (storeFormat addr)
  | .frame f => snprintf 200 (frameFormat f)

/-- What `squint_fifo_write` hands to `kfifo_in`. -/
def text (l : Line) : List Byte := cString l.buffer

end Line

/-- `print_trace`, which saves at most 32 entries of the stack. -/
def printTrace (stack : List Frame) : List Line := (stack.take 32).map .frame

/-- The lines of `write_flush_trace`, where `print_trace` writes `trace`. -/
def writeFlushTrace (trace : List Line) : List Line := .header .flush :: trace

def writeFenceTrace (trace : List Line) : List Line := .header .fence :: trace

def writeStoreTrace (addr : BitVec 64) (trace : List Line) : List Line :=
  .header (.store addr) :: trace

structure Call where
  event : Event
  stack : List Frame
  deriving DecidableEq, Repr

def Call.lines (c : Call) : List Line :=
  match c.event with
  | .flush => writeFlushTrace (printTrace c.stack)
  | .fence => writeFenceTrace (printTrace c.stack)
  | .store addr => writeStoreTrace addr (printTrace c.stack)

theorem Call.lines_eq (c : Call) : c.lines = .header c.event :: printTrace c.stack := by
  unfold Call.lines
  split <;> simp_all [writeFlushTrace, writeFenceTrace, writeStoreTrace]

/-! ## What the lines look like -/

/-- A symbol text that is a C string and does not go over several lines. -/
def Frame.Plain (f : Frame) : Prop := ∀ c ∈ f.symbol, c ≠ 0 ∧ c ≠ newline

/-- A symbol text that `print_trace` has room for, and that cannot be taken for two lines. -/
def Frame.Clean (f : Frame) : Prop :=
  f.symbol.length ≤ 177 ∧ ∀ c ∈ f.symbol, c ≠ 0 ∧ c ≠ newline

def Line.Clean : Line → Prop
  | .header _ => True
  | .frame f => f.Clean

def Call.Clean (c : Call) : Prop := c.stack.length ≤ 32 ∧ ∀ f ∈ c.stack, f.Clean

theorem digitByte_ne : ∀ d < 16, digitByte d ≠ 0 ∧ digitByte d ≠ newline := by decide

theorem decimal_ne (n : ℕ) : ∀ c ∈ decimal n, c ≠ 0 ∧ c ≠ newline := by
  intro c hc
  obtain ⟨d, hd, rfl⟩ := List.mem_map.mp hc
  have hlt := Lib.lt_of_mem_printedDigits (by decide) d hd
  exact digitByte_ne d (by omega)

theorem pointer_ne (addr : BitVec 64) : ∀ c ∈ pointer addr, c ≠ 0 ∧ c ≠ newline := by
  intro c hc
  obtain ⟨d, hd, rfl⟩ := List.mem_map.mp hc
  exact digitByte_ne d (Lib.lt_of_mem_fixedDigits (by decide) d hd)

theorem decimal_length_le (addr : BitVec 64) : (decimal addr.toNat).length ≤ 20 := by
  rw [decimal, List.length_map]
  apply Lib.length_printedDigits_le (by decide) (by decide)
  exact addr.isLt.trans (by decide)

@[simp] theorem pointer_length (addr : BitVec 64) : (pointer addr).length = 16 := by
  rw [pointer, List.length_map, Lib.length_fixedDigits]

theorem storeFormat_length_lt (addr : BitVec 64) : (storeFormat addr).length < 40 := by
  have hdigits := decimal_length_le addr
  have hhead : (ascii "@ store: ").length = 9 := rfl
  simp only [storeFormat, List.length_append, hhead, List.length_singleton]
  omega

theorem frameFormat_length_lt {f : Frame} (h : f.Clean) : (frameFormat f).length < 200 := by
  have hsymbol := h.1
  have hopen : (ascii "[<").length = 2 := rfl
  have hclose : (ascii ">] ").length = 3 := rfl
  simp only [frameFormat, List.length_append, hopen, hclose, pointer_length,
    List.length_singleton]
  omega

/-- Nothing is cut off a text without NUL bytes that fits the buffer. -/
theorem cString_snprintf {size : ℕ} {out : List Byte} (hout : ∀ c ∈ out, c ≠ 0)
    (hlen : out.length < size) : cString (snprintf size out) = out := by
  rw [snprintf, List.take_of_length_le (by omega), cString, List.takeWhile_eq_self_iff]
  simpa using hout

theorem storeBody_ne (addr : BitVec 64) :
    ∀ c ∈ ascii "@ store: " ++ decimal addr.toNat, c ≠ 0 ∧ c ≠ newline := by
  have hhead : ∀ c ∈ ascii "@ store: ", c ≠ 0 ∧ c ≠ newline := by simp [ascii, newline]
  intro c hc
  rcases List.mem_append.mp hc with hc | hc
  · exact hhead c hc
  · exact decimal_ne _ c hc

theorem frameBody_ne {f : Frame} (h : f.Plain) :
    ∀ c ∈ ascii "[<" ++ pointer f.addr ++ ascii ">] " ++ f.symbol, c ≠ 0 ∧ c ≠ newline := by
  have hopen : ∀ c ∈ ascii "[<", c ≠ 0 ∧ c ≠ newline := by simp [ascii, newline]
  have hclose : ∀ c ∈ ascii ">] ", c ≠ 0 ∧ c ≠ newline := by simp [ascii, newline]
  intro c hc
  simp only [List.mem_append] at hc
  rcases hc with ((hc | hc) | hc) | hc
  · exact hopen c hc
  · exact pointer_ne _ c hc
  · exact hclose c hc
  · exact h c hc

theorem ne_zero_of_body {body : List Byte} (h : ∀ c ∈ body, c ≠ 0 ∧ c ≠ newline) :
    ∀ c ∈ body ++ [newline], c ≠ 0 := by
  intro c hc
  rcases List.mem_append.mp hc with hc | hc
  · exact (h c hc).1
  · obtain rfl := List.mem_singleton.mp hc
    decide

namespace Line

theorem text_flush : (header .flush).text = ascii "@ flush\n" := by decide

theorem text_store (addr : BitVec 64) : (header (.store addr)).text = storeFormat addr :=
  cString_snprintf (ne_zero_of_body (storeBody_ne addr)) (storeFormat_length_lt addr)

theorem text_frame {f : Frame} (h : f.Clean) : (frame f).text = frameFormat f :=
  cString_snprintf (ne_zero_of_body (frameBody_ne h.2)) (frameFormat_length_lt h)

theorem isLine_text {l : Line} (h : l.Clean) : Lib.IsLine newline l.text := by
  cases l with
  | header e =>
    cases e with
    | flush => exact ⟨ascii "@ flush", by decide, by decide⟩
    | fence => exact ⟨ascii "@ fence", by decide, by decide⟩
    | store addr =>
      rw [text_store]
      exact ⟨_, rfl, fun hmem => (storeBody_ne addr newline hmem).2 rfl⟩
  | frame f =>
    rw [text_frame h]
    exact ⟨_, rfl, fun hmem => (frameBody_ne h.2 newline hmem).2 rfl⟩

theorem isLine_header (e : Event) : Lib.IsLine newline (header e).text :=
  isLine_text (l := .header e) trivial

/-- Whatever the symbol, `print_trace` writes at most 199 bytes at a time. -/
theorem text_length_le (l : Line) : l.text.length ≤ Backpressure.lineMax := by
  have htext : l.text <+: l.buffer := List.takeWhile_prefix _
  have hbuf : l.text.length ≤ l.buffer.length := htext.length_le
  refine hbuf.trans ?_
  cases l with
  | header e =>
    cases e with
    | flush => decide
    | fence => decide
    | store addr =>
      simp only [buffer, snprintf, List.length_take, Backpressure.lineMax]
      omega
  | frame f =>
    simp only [buffer, snprintf, List.length_take, Backpressure.lineMax]
    omega

end Line

theorem Call.clean_lines {c : Call} (h : ∀ f ∈ c.stack, f.Clean) : ∀ l ∈ c.lines, l.Clean := by
  intro l hl
  rw [c.lines_eq, List.mem_cons] at hl
  rcases hl with rfl | hl
  · trivial
  · obtain ⟨f, hf, rfl⟩ := List.mem_map.mp hl
    exact h f (List.mem_of_mem_take hf)

end Squint.Kernel
