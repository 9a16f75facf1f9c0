import Squint.Kernel.Evaluation
import Squint.Kernel.TraceText

/-! Which headers of the trace begin a line. `print_trace` formats into 200 bytes, so a long symbol
loses the end of its line, and what is written next goes on with it. -/
namespace Squint.Kernel

open Lib (run)

def headerLines (x : List Byte) : List (List Byte) :=
  (Lib.splitLines newline x).filter fun l => (ascii "@ ").isPrefixOf l

/-- The last line that the call writes has its end. -/
def Call.EndsLine (c : Call) : Prop :=
  ∀ f ∈ (c.stack.take 32).getLast?, f.symbol.length ≤ 177

instance (c : Call) : Decidable c.EndsLine := by
  unfold Call.EndsLine
  infer_instance

/-! ## One line after the other -/

theorem headerLines_header (e : Event) (rest : List Byte) :
    headerLines ((Line.header e).text ++ rest) = (Line.header e).text :: headerLines rest := by
  unfold headerLines
  rw [Lib.splitLines_line (Line.isLine_header e), List.filter_cons_of_pos]
  cases e with
  | flush => decide
  | fence => decide
  | store addr =>
    rw [Line.text_store]
    rfl

/-- What a frame may have left of a line. -/
def Unfinished (a : List Byte) : Prop := a.head? = some 0x5b ∧ newline ∉ a

section
variable {a x rest : List Byte} {f : Frame}

theorem not_header_of_head (h : x.head? = some 0x5b) : (ascii "@ ").isPrefixOf x = false := by
  cases x with
  | nil => simp at h
  | cons c x =>
    obtain rfl : c = 0x5b := by simpa using h
    rfl

theorem headerLines_of_head (h : x.head? = some 0x5b) (hx : Lib.IsLine newline x) :
    headerLines (x ++ rest) = headerLines rest := by
  unfold headerLines
  rw [Lib.splitLines_line hx, List.filter_cons_of_neg]
  simp [not_header_of_head h]

theorem headerLines_unfinished (ha : Unfinished a) : headerLines a = [] := by
  have hne : a ≠ [] := List.ne_nil_of_mem (List.mem_of_mem_head? ha.1)
  unfold headerLines
  rw [Lib.splitLines_of_not_mem hne ha.2]
  simp [not_header_of_head ha.1]

theorem head_append (ha : a = [] ∨ Unfinished a) (hx : x.head? = some 0x5b) :
    (a ++ x).head? = some 0x5b := by
  rcases ha with rfl | ha
  · exact hx
  · rw [List.head?_append, ha.1]
    rfl

theorem not_mem_newline (ha : a = [] ∨ Unfinished a) : newline ∉ a := by
  rcases ha with rfl | ha
  · simp
  · exact ha.2

theorem Line.head_frame (f : Frame) : (Line.frame f).text.head? = some 0x5b := rfl

/-- A symbol of more than 177 characters takes the place of the newline. -/
theorem Line.newline_not_mem_frame (h : f.Plain) (hlong : 177 < f.symbol.length) :
    newline ∉ (Line.frame f).text := by
  have hopen : (ascii "[<").length = 2 := rfl
  have hclose : (ascii ">] ").length = 3 := rfl
  have htext : (Line.frame f).text <+: snprintf 200 (frameFormat f) := List.takeWhile_prefix _
  intro hmem
  have hbuf : newline ∈ snprintf 200 (frameFormat f) := htext.subset hmem
  unfold snprintf frameFormat at hbuf
  rw [List.take_append_of_le_length] at hbuf
  · exact (frameBody_ne h newline (List.mem_of_mem_take hbuf)).2 rfl
  · simp only [List.length_append, hopen, hclose, pointer_length]
    omega

/-- A frame ends the line that it goes on with, or leaves it unfinished. -/
theorem headerLines_frame (ha : a = [] ∨ Unfinished a) (hf : f.Plain) :
    ∃ a', (a' = [] ∨ Unfinished a') ∧ (a' = [] ↔ f.symbol.length ≤ 177) ∧
      ∀ rest, headerLines (a ++ ((Line.frame f).text ++ rest)) = headerLines (a' ++ rest) := by
  have hhead := head_append ha (Line.head_frame f)
  by_cases hlen : f.symbol.length ≤ 177
  · refine ⟨[], .inl rfl, by simp [hlen], fun rest => ?_⟩
    have hline : Lib.IsLine newline (Line.frame f).text :=
      Line.isLine_text (l := .frame f) ⟨hlen, hf⟩
    rw [← List.append_assoc]
    exact headerLines_of_head hhead (hline.append_left (not_mem_newline ha))
  · have hopen : Unfinished (a ++ (Line.frame f).text) := by
      refine ⟨hhead, ?_⟩
      have hnl := Line.newline_not_mem_frame hf (by omega)
      simp [hnl, not_mem_newline ha]
    refine ⟨a ++ (Line.frame f).text, .inr hopen, ?_, fun rest => by simp⟩
    simp [hlen, List.ne_nil_of_mem (List.mem_of_mem_head? hopen.1)]

end

/-! ## One call after the other -/

theorem headerLines_frames {fs : List Frame} (hplain : ∀ f ∈ fs, f.Plain) :
    ∃ a, (a = [] ∨ Unfinished a) ∧ (a = [] ↔ ∀ f ∈ fs.getLast?, f.symbol.length ≤ 177) ∧
      ∀ rest, headerLines ((fs.map Line.frame).flatMap Line.text ++ rest) =
        headerLines (a ++ rest) := by
  induction fs using List.reverseRecOn with
  | nil => exact ⟨[], .inl rfl, by simp, fun _ => rfl⟩
  | append_singleton fs f ih =>
    obtain ⟨a, ha, -, hrest⟩ := ih fun f' hf' => hplain f' (by simp [hf'])
    obtain ⟨a', ha', hempty, hframe⟩ := headerLines_frame ha (hplain f (by simp))
    refine ⟨a', ha', by simp [hempty], fun rest => ?_⟩
    rw [← hframe, ← hrest]
    simp

/-- After its header, a call adds no header line, but it may leave a line unfinished. -/
theorem headerLines_call {c : Call} (hplain : ∀ f ∈ c.stack, f.Plain) :
    ∃ a, (a = [] ∨ Unfinished a) ∧ (a = [] ↔ c.EndsLine) ∧
      (∀ rest, headerLines (c.lines.flatMap Line.text ++ rest) =
        (Line.header c.event).text :: headerLines (a ++ rest)) ∧
      ∀ b rest, Unfinished b → headerLines (b ++ (c.lines.flatMap Line.text ++ rest)) =
        headerLines (a ++ rest) := by
  have htaken : ∀ f ∈ c.stack.take 32, f.Plain := fun f hf => hplain f (List.mem_of_mem_take hf)
  obtain ⟨a, ha, hempty, hframes⟩ := headerLines_frames htaken
  refine ⟨a, ha, hempty, fun rest => ?_, fun b rest hb => ?_⟩
  · rw [c.lines_eq, List.flatMap_cons, List.append_assoc, headerLines_header, ← hframes]
    rfl
  · have hline := (Line.isLine_header c.event).append_left hb.2
    have hhead : (b ++ (Line.header c.event).text).head? = some 0x5b := by
      rw [List.head?_append, hb.1]
      rfl
    rw [c.lines_eq, List.flatMap_cons, List.append_assoc, ← List.append_assoc,
      headerLines_of_head hhead hline, ← hframes]
    rfl

/-- After an unfinished line the first header is missing, and so is each that comes after a call
which leaves its line unfinished. -/
theorem headerLines_calls {calls : List Call} (hplain : ∀ c ∈ calls, ∀ f ∈ c.stack, f.Plain)
    {a : List Byte} (ha : a = [] ∨ Unfinished a) :
    (headerLines (a ++ (calls.flatMap Call.lines).flatMap Line.text)).length ≤ calls.length ∧
      (headerLines (a ++ (calls.flatMap Call.lines).flatMap Line.text) =
          calls.map (fun c => (Line.header c.event).text) ↔
        (a = [] ∨ calls = []) ∧ ∀ c ∈ calls.dropLast, c.EndsLine) := by
  induction calls generalizing a with
  | nil =>
    have hnone : headerLines a = [] := by
      rcases ha with rfl | ha
      · rfl
      · exact headerLines_unfinished ha
    simp [hnone]
  | cons c cs ih =>
    obtain ⟨a', ha', hempty, hfirst, hmissing⟩ := headerLines_call (hplain c (by simp))
    obtain ⟨hle, hiff⟩ := ih (fun c' hc' => hplain c' (by simp [hc'])) ha'
    rw [List.flatMap_cons, List.flatMap_append]
    rcases ha with rfl | ha
    · rw [List.nil_append, hfirst]
      refine ⟨by simpa using hle, ?_⟩
      rw [List.map_cons, List.cons.injEq, hiff, hempty]
      cases cs with
      | nil => simp
      | cons c' cs => simp
    · rw [hmissing a _ ha]
      have hne : a ≠ [] := List.ne_nil_of_mem (List.mem_of_mem_head? ha.1)
      refine ⟨by simpa using hle.trans (Nat.le_succ _), ?_⟩
      simp only [hne, reduceCtorEq, or_self, false_and, iff_false]
      intro heq
      rw [heq] at hle
      simp at hle

/-! ## Runs -/

/-- The device after one thread has made `calls`, in a module with back-pressure or without. -/
inductive TracedBy (calls : List Call) : Device Unit Line → Prop
  | kernelModule {as d}
      (h : run (KernelModule.step Line.text) (.init fun _ => calls.flatMap Call.lines) as =
        some d) :
      TracedBy calls d
  | evaluation {as s}
      (h : run (Evaluation.step Line.text) (Evaluation.init fun _ => calls.flatMap Call.lines) as =
        some s) :
      TracedBy calls s.device

theorem TracedBy.stream_eq {calls : List Call} {d : Device Unit Line} (h : TracedBy calls d)
    (hdone : d.todo () = []) (hkept : d.dropped = 0) :
    d.stream = (calls.flatMap Call.lines).flatMap Line.text := by
  cases h with
  | kernelModule h => exact (KernelModule.run_consistent h).stream_unit hdone hkept
  | evaluation h => exact (Evaluation.run_consistent h).stream_unit hdone hkept

/-- The lines that begin with `@ ` are the headers of the calls exactly if each call but the last
ends with a frame whose symbol fits the buffer. -/
theorem headerLines_eq_iff {calls : List Call} (hplain : ∀ c ∈ calls, ∀ f ∈ c.stack, f.Plain)
    {d : Device Unit Line} (h : TracedBy calls d) (hdone : d.todo () = [])
    (hkept : d.dropped = 0) :
    headerLines d.stream = calls.map (fun c => (Line.header c.event).text) ↔
      ∀ c ∈ calls.dropLast, c.EndsLine := by
  rw [h.stream_eq hdone hkept]
  simpa using (headerLines_calls hplain (.inl rfl)).2

theorem shortCalls_headerLines : ∃ d : Device Unit Line,
    headerLines d.stream = [ascii "@ flush\n", ascii "@ fence\n"] := by
  let f : Frame := ⟨0xffffffffc03b5110, ascii "print_trace+0x40/0xe0 [squint_module]"⟩
  let calls : List Call := [⟨.flush, [f]⟩, ⟨.fence, [f]⟩]
  have hplain : ∀ c ∈ calls, ∀ f ∈ c.stack, f.Plain := by
    simp [calls, f, Frame.Plain, ascii, newline]
  obtain ⟨as, d, h, hdone, hkept⟩ := KernelModule.exists_run_all
    (d := .init fun _ => calls.flatMap Call.lines) (fun l _ => l.text_length_le)
    (by rw [Device.avail_init]; decide +kernel)
  exact ⟨d, (headerLines_eq_iff hplain (.kernelModule h) hdone hkept).mpr (by decide +kernel)⟩

/-- `%pS`: a symbol, how far into it, its size, and the module that it is from. -/
def symbolText (name : List Byte) (offset size : ℕ) (modname : Option (List Byte)) : List Byte :=
  let hex (n : ℕ) : List Byte := ascii "0x" ++ (Lib.printedDigits 16 n).map digitByte
  name ++ ascii "+" ++ hex offset ++ ascii "/" ++ hex size ++
    match modname with
    | none => []
    | some m => ascii " [" ++ m ++ ascii "]"

/-- A symbol text within the limits of the kernel. -/
def Frame.Symbolic (f : Frame) : Prop :=
  ∃ name offset size modname, name.length ≤ 127 ∧ (∀ m ∈ modname, m.length ≤ 55) ∧
    f.symbol = symbolText name offset size modname

/-- The longest names there can be: 195 characters in all. -/
def longFrame : Frame :=
  ⟨0xffffffffc0000010,
    symbolText (List.replicate 127 0x61) 0x10 0x20 (some (List.replicate 55 0x6d))⟩

theorem longFrame_symbolic : longFrame.Plain ∧ longFrame.Symbolic := by
  constructor
  · unfold Frame.Plain
    decide +kernel
  · exact ⟨List.replicate 127 0x61, 0x10, 0x20, some (List.replicate 55 0x6d), by simp, by simp,
      rfl⟩

def flushThenFence : List Call := [⟨.flush, [longFrame]⟩, ⟨.fence, []⟩]

/-- The second header goes on with the line of the frame. -/
theorem header_swallowed : ∃ d : Device Unit Line, TracedBy flushThenFence d ∧
    d.todo () = [] ∧ d.dropped = 0 ∧
    (∀ c ∈ flushThenFence, ∀ f ∈ c.stack, f.Plain ∧ f.Symbolic) ∧
    headerLines d.stream = [ascii "@ flush\n"] ∧ flushThenFence.length = 2 := by
  obtain ⟨as, d, h, hdone, hkept⟩ := KernelModule.exists_run_all
    (d := .init fun _ => flushThenFence.flatMap Call.lines) (fun l _ => l.text_length_le)
    (by rw [Device.avail_init]; decide +kernel)
  have htraced : TracedBy flushThenFence d := .kernelModule h
  refine ⟨d, htraced, hdone, hkept, ?_, ?_, rfl⟩
  · simp [flushThenFence, longFrame_symbolic]
  · rw [htraced.stream_eq hdone hkept]
    decide +kernel

end Squint.Kernel
