import Squint.Kernel.TraceText

/-! Reading the trace: lines are told apart by how they start, and each header begins a record. -/
namespace Squint.Kernel

/-- What comes after `p`, in a text that starts with it. -/
def after? : List Byte → List Byte → Option (List Byte)
  | [], x => some x
  | _ :: _, [] => none
  | a :: p, b :: x => if a = b then after? p x else none

def beforeNewline? (x : List Byte) : Option (List Byte) :=
  if x.getLast? = some newline then some x.dropLast else none

def hexDigit? (c : Byte) : Option ℕ :=
  if 48 ≤ c ∧ c ≤ 57 then some (c.toNat - 48)
  else if 97 ≤ c ∧ c ≤ 102 then some (c.toNat - 87)
  else none

def decimalDigit? (c : Byte) : Option ℕ :=
  if 48 ≤ c ∧ c ≤ 57 then some (c.toNat - 48) else none

/-- A decimal numeral for a number of 64 bits. -/
def readDecimal? (x : List Byte) : Option (BitVec 64) := do
  if x = [] then none
  let n ← Lib.readDigits decimalDigit? 10 x
  if n < 2 ^ 64 then some (BitVec.ofNat 64 n) else none

/-- 16 hexadecimal digits. -/
def readPointer? (x : List Byte) : Option (BitVec 64) := do
  if x.length ≠ 16 then none
  let n ← Lib.readDigits hexDigit? 16 x
  some (BitVec.ofNat 64 n)

def parseHeader? (x : List Byte) : Option Event :=
  if x = ascii "@ flush\n" then some .flush
  else if x = ascii "@ fence\n" then some .fence
  else do
    let rest ← after? (ascii "@ store: ") x
    let numeral ← beforeNewline? rest
    let addr ← readDecimal? numeral
    some (.store addr)

def parseFrame? (x : List Byte) : Option Frame := do
  let rest ← after? (ascii "[<") x
  let addr ← readPointer? (rest.take 16)
  let rest ← after? (ascii ">] ") (rest.drop 16)
  let symbol ← beforeNewline? rest
  some ⟨addr, symbol⟩

def parseLine? (x : List Byte) : Option Line :=
  match parseHeader? x with
  | some e => some (.header e)
  | none => (parseFrame? x).map .frame

/-- Cut at the header lines: the frames in front of the first header, and the records. -/
def cutRecords : List Line → List Frame × List Call
  | [] => ([], [])
  | .frame f :: ls => (f :: (cutRecords ls).1, (cutRecords ls).2)
  | .header e :: ls => ([], ⟨e, (cutRecords ls).1⟩ :: (cutRecords ls).2)

/-- All records of a trace that starts with a header. -/
def decode (bytes : List Byte) : Option (List Call) := do
  let lines ← (Lib.splitLines newline bytes).mapM parseLine?
  if (cutRecords lines).1 = [] then some (cutRecords lines).2 else none

/-! ## Reading back what was written -/

theorem after?_append (p x : List Byte) : after? p (p ++ x) = some x := by
  induction p with
  | nil => rfl
  | cons a p ih => simp [after?, ih]

theorem beforeNewline?_append (x : List Byte) : beforeNewline? (x ++ [newline]) = some x := by
  simp [beforeNewline?]

theorem hexDigit?_digitByte : ∀ d < 16, hexDigit? (digitByte d) = some d := by decide

theorem decimalDigit?_digitByte : ∀ d < 10, decimalDigit? (digitByte d) = some d := by decide

theorem readDecimal?_decimal (addr : BitVec 64) :
    readDecimal? (decimal addr.toNat) = some addr := by
  have hne : decimal addr.toNat ≠ [] := by simp [decimal, Lib.printedDigits_ne_nil]
  have hread : Lib.readDigits decimalDigit? 10 (decimal addr.toNat) = some addr.toNat := by
    rw [decimal, Lib.readDigits_map, Lib.value_printedDigits]
    exact fun d hd => decimalDigit?_digitByte d (Lib.lt_of_mem_printedDigits (by decide) d hd)
  simp [readDecimal?, hne, hread, addr.isLt]

theorem readPointer?_pointer (addr : BitVec 64) : readPointer? (pointer addr) = some addr := by
  have hlt : addr.toNat < 16 ^ 16 := addr.isLt.trans_le (by decide)
  have hread : Lib.readDigits hexDigit? 16 (pointer addr) = some addr.toNat := by
    rw [pointer, Lib.readDigits_map, Lib.value_fixedDigits hlt]
    exact fun d hd => hexDigit?_digitByte d (Lib.lt_of_mem_fixedDigits (by decide) d hd)
  simp [readPointer?, hread]

theorem parseHeader?_text (e : Event) : parseHeader? (Line.header e).text = some e := by
  cases e with
  | flush => decide
  | fence => decide
  | store addr =>
    rw [Line.text_store]
    have hflush : storeFormat addr ≠ ascii "@ flush\n" := by simp [storeFormat, ascii]
    have hfence : storeFormat addr ≠ ascii "@ fence\n" := by simp [storeFormat, ascii]
    rw [parseHeader?, if_neg hflush, if_neg hfence, storeFormat, List.append_assoc]
    simp [after?_append, beforeNewline?_append, readDecimal?_decimal]

theorem parseFrame?_frameFormat (f : Frame) : parseFrame? (frameFormat f) = some f := by
  have htake : (pointer f.addr ++ (ascii ">] " ++ (f.symbol ++ [newline]))).take 16 =
      pointer f.addr := List.take_left' (pointer_length _)
  have hdrop : (pointer f.addr ++ (ascii ">] " ++ (f.symbol ++ [newline]))).drop 16 =
      ascii ">] " ++ (f.symbol ++ [newline]) := List.drop_left' (pointer_length _)
  simp only [parseFrame?, frameFormat, List.append_assoc, after?_append, Option.bind_eq_bind,
    Option.bind_some, htake, hdrop, readPointer?_pointer, beforeNewline?_append]

theorem parseHeader?_frameFormat (f : Frame) : parseHeader? (frameFormat f) = none := by
  simp [parseHeader?, frameFormat, ascii, after?]

theorem parseLine?_text {l : Line} (h : l.Clean) : parseLine? l.text = some l := by
  cases l with
  | header e => rw [parseLine?, parseHeader?_text]
  | frame f =>
    rw [parseLine?, Line.text_frame h, parseHeader?_frameFormat, parseFrame?_frameFormat]
    rfl

theorem Line.text_injOn {l l' : Line} (h : l.Clean) (h' : l'.Clean) (heq : l.text = l'.text) :
    l = l' := by
  have hparse := parseLine?_text h
  rw [heq, parseLine?_text h'] at hparse
  exact (Option.some.inj hparse).symm

theorem cutRecords_frames (fs : List Frame) (ls : List Line) :
    cutRecords (fs.map .frame ++ ls) = (fs ++ (cutRecords ls).1, (cutRecords ls).2) := by
  induction fs with
  | nil => rfl
  | cons f fs ih => simp [cutRecords, ih]

theorem cutRecords_lines {cs : List Call} (h : ∀ c ∈ cs, c.stack.length ≤ 32) :
    cutRecords (cs.flatMap Call.lines) = ([], cs) := by
  induction cs with
  | nil => rfl
  | cons c cs ih =>
    have hrec := ih fun c' hc' => h c' (by simp [hc'])
    have hall : c.stack.take 32 = c.stack := List.take_of_length_le (h c (by simp))
    rw [List.flatMap_cons, c.lines_eq, List.cons_append, cutRecords, printTrace, hall,
      cutRecords_frames, hrec, List.append_nil]

theorem mapM_parseLine? {ls : List Line} (h : ∀ l ∈ ls, l.Clean) :
    (ls.map Line.text).mapM parseLine? = some ls := by
  induction ls with
  | nil => rfl
  | cons l ls ih =>
    have htail := ih fun l' hl' => h l' (by simp [hl'])
    simp [parseLine?_text (h l (by simp)), htail]

/-- A trace of whole records is read back as what was written. -/
theorem decode_text {cs : List Call} (h : ∀ c ∈ cs, c.Clean) :
    decode ((cs.flatMap Call.lines).flatMap Line.text) = some cs := by
  have hclean : ∀ l ∈ cs.flatMap Call.lines, l.Clean := by
    intro l hl
    obtain ⟨c, hc, hl⟩ := List.mem_flatMap.mp hl
    exact Call.clean_lines (h c hc).2 l hl
  have hlines : ∀ x ∈ (cs.flatMap Call.lines).map Line.text, Lib.IsLine newline x := by
    intro x hx
    obtain ⟨l, hl, rfl⟩ := List.mem_map.mp hx
    exact Line.isLine_text (hclean l hl)
  rw [decode, List.flatMap_def, Lib.splitLines_flatten hlines, mapM_parseLine? hclean]
  simp [cutRecords_lines fun c hc => (h c hc).1]

end Squint.Kernel
