import Squint.Kernel.TraceText

/-! What an overflow leaves of the trace where there is no back-pressure. `kfifo_in` takes the
bytes for which there is room, and these need not be a whole line. -/
namespace Squint.Kernel

open Lib (run)

variable {ι α : Type} [DecidableEq ι] {text : α → List Byte}

namespace Device

variable {d : Device ι α}

/-- The stream is made of the beginnings of the strings that were written, in order. -/
def Pieced (text : α → List Byte) (d : Device ι α) : Prop :=
  ∃ pieces : List (List Byte), d.stream = pieces.flatten ∧
    List.Forall₂ (fun p piece => piece <+: text p.2) d.written pieces

/-- The stream is made of some of the strings that were written, in order. -/
def Whole (text : α → List Byte) (d : Device ι α) : Prop :=
  ∃ kept : List (ι × α), kept.Sublist d.written ∧ d.stream = kept.flatMap fun p => text p.2

theorem Pieced.put (h : d.Pieced text) (i : ι) (l : α) (rest : List α) :
    (d.put text i l rest).Pieced text := by
  obtain ⟨pieces, hstream, hpieces⟩ := h
  refine ⟨pieces ++ [(text l).take d.fifo.avail], ?_, ?_⟩
  · rw [stream_put, hstream, List.flatten_append, List.flatten_singleton]
  · apply List.rel_append hpieces
    exact .cons (List.take_prefix _ _) .nil

theorem Pieced.moves {d' : Device ι α} (h : d.Pieced text) (hm : Moves text d d') :
    d'.Pieced text := by
  cases hm with
  | stay => exact h
  | write hw =>
    obtain ⟨l, rest, -, rfl⟩ := kfifoIn_eq_some hw
    exact h.put _ l rest
  | read n =>
    unfold Pieced
    rw [stream_kfifoToUser]
    exact h

theorem Whole.put (h : d.Whole text) (i : ι) {l : α} (rest : List α)
    (hroom : (text l).length ≤ d.fifo.avail ∨ d.fifo.avail = 0) :
    (d.put text i l rest).Whole text := by
  obtain ⟨kept, hkept, hstream⟩ := h
  rcases hroom with hroom | hroom
  · refine ⟨kept ++ [(i, l)], hkept.append (List.Sublist.refl _), ?_⟩
    rw [stream_put, hstream, List.take_of_length_le hroom]
    simp
  · refine ⟨kept, hkept.trans (List.sublist_append_left _ _), ?_⟩
    rw [stream_put, hstream, hroom, List.take_zero, List.append_nil]

omit [DecidableEq ι] in
theorem Whole.kfifoToUser (h : d.Whole text) (n : ℕ) : (d.kfifoToUser n).Whole text := by
  unfold Whole
  rw [stream_kfifoToUser]
  exact h

end Device

namespace KernelModule

/-- A write finds room for all of its string, or for nothing. -/
def WholeOrNothing (text : α → List Byte) (d : Device ι α) : Action ι → Prop
  | .kfifoIn i => ∀ l ∈ (d.todo i).head?, (text l).length ≤ d.fifo.avail ∨ d.fifo.avail = 0
  | .kfifoToUser _ => True

theorem step_whole {d d' : Device ι α} {a : Action ι} (hd : d.Whole text)
    (ha : WholeOrNothing text d a) (h : step text d a = some d') : d'.Whole text := by
  cases a with
  | kfifoIn i =>
    obtain ⟨l, rest, hl, rfl⟩ := Device.kfifoIn_eq_some h
    apply hd.put
    exact ha l (by simp [hl])
  | kfifoToUser count =>
    obtain rfl := Option.some.inj h
    exact hd.kfifoToUser count

/-- A single thread writes the same string as often as there is room for it. -/
theorem run_repeat (l : α) (k : ℕ) {rest : List α} {d : Device Unit α}
    (htodo : d.todo () = List.replicate k l ++ rest) (hroom : k * (text l).length ≤ d.fifo.avail) :
    ∃ d', run (step text) d (List.replicate k (.kfifoIn ())) = some d' ∧ d'.todo () = rest ∧
      d'.fifo.avail = d.fifo.avail - k * (text l).length ∧ d'.dropped = d.dropped ∧
      d'.written = d.written ++ List.replicate k ((), l) ∧
      d'.stream = d.stream ++ (List.replicate k (text l)).flatten := by
  induction k generalizing d with
  | zero => exact ⟨d, rfl, by simpa using htodo, by simp, rfl, by simp, by simp⟩
  | succ k ih =>
    rw [List.replicate_succ, List.cons_append] at htodo
    rw [Nat.succ_mul] at hroom
    let d₁ := d.put text () l (List.replicate k l ++ rest)
    have hput : step text d (.kfifoIn ()) = some d₁ := by
      simp [step, Device.kfifoIn, htodo, d₁]
    have havail : d₁.fifo.avail = d.fifo.avail - (text l).length :=
      Lib.BoundedQueue.avail_push _ _
    obtain ⟨d', hrun, htodo', havail', hdropped, hwritten, hstream⟩ :=
      ih (d := d₁) (by simp [d₁, Device.put]) (by omega)
    refine ⟨d', Lib.run_cons.mpr ⟨d₁, hput, hrun⟩, htodo', ?_, ?_, ?_, ?_⟩
    · rw [havail', havail, Nat.succ_mul]
      omega
    · rw [hdropped]
      simp only [d₁, Device.put]
      omega
    · rw [hwritten, List.replicate_succ]
      simp [d₁, Device.put]
    · rw [hstream, Device.stream_put, List.take_of_length_le (by omega), List.replicate_succ]
      simp

theorem repeat_wholeOrNothing (l : α) (k : ℕ) {rest : List α} {d : Device Unit α}
    (htodo : d.todo () = List.replicate k l ++ rest) (hroom : k * (text l).length ≤ d.fifo.avail) :
    Lib.Along (WholeOrNothing text) (step text) d (List.replicate k (.kfifoIn ())) := by
  induction k generalizing d with
  | zero => trivial
  | succ k ih =>
    rw [List.replicate_succ, List.cons_append] at htodo
    rw [Nat.succ_mul] at hroom
    have hput : step text d (.kfifoIn ()) =
        some (d.put text () l (List.replicate k l ++ rest)) := by
      simp [step, Device.kfifoIn, htodo]
    have havail : (d.put text () l (List.replicate k l ++ rest)).fifo.avail =
        d.fifo.avail - (text l).length := Lib.BoundedQueue.avail_push _ _
    refine Lib.Along.cons ?_ hput (ih (by simp [Device.put]) (by omega))
    intro l' hl'
    obtain rfl : l = l' := by simpa [htodo] using hl'
    exact .inl (by omega)

def fencesThenFlushes : List Line :=
  List.replicate 2048 (.header .fence) ++ [.header .flush, .header .flush]

/-- The fences fill the FIFO, so that all of a flush is dropped. A read then makes room for another
one. -/
def droppedFlush : List (Action Unit) :=
  List.replicate 2048 (.kfifoIn ()) ++ [.kfifoIn (), .kfifoToUser 16, .kfifoIn ()]

theorem run_droppedFlush : ∃ d,
    run (step Line.text) (.init fun _ => fencesThenFlushes) droppedFlush = some d ∧
      Lib.Along (WholeOrNothing Line.text) (step Line.text) (.init fun _ => fencesThenFlushes)
        droppedFlush ∧
      d.written.length = 2050 ∧ d.dropped = 8 := by
  have hfence : (Line.header .fence).text.length = 8 := by decide
  have hflush : (Line.header .flush).text.length = 8 := by decide
  have hempty := Device.avail_init fun _ : Unit => fencesThenFlushes
  have hroom : 2048 * (Line.header .fence).text.length ≤
      (Device.init fun _ : Unit => fencesThenFlushes).fifo.avail := by
    rw [hempty, hfence]
    decide
  obtain ⟨d₁, h₁, htodo₁, havail₁, hdropped₁, hwritten₁, -⟩ :=
    run_repeat (Line.header .fence) 2048 rfl hroom
  have hfull : d₁.fifo.avail = 0 := by rw [havail₁, hempty, hfence, kfifoLen]
  let d₂ := d₁.put Line.text () (.header .flush) [.header .flush]
  let d₃ := d₂.kfifoToUser 16
  let d₄ := d₃.put Line.text () (.header .flush) []
  have havail₂ : d₂.fifo.avail = 0 := by
    simp only [d₂, Device.put, Lib.BoundedQueue.avail_push, hfull, Nat.zero_sub]
  have havail₃ : d₃.fifo.avail = 16 := by
    have hlen : 16 ≤ d₂.fifo.items.length := by
      simp only [Lib.BoundedQueue.avail, kfifoLen] at havail₂
      omega
    rw [show d₃.fifo = d₂.fifo.pop 16 from rfl, Lib.BoundedQueue.avail_pop _ hlen, havail₂]
  have h₂ : step Line.text d₁ (.kfifoIn ()) = some d₂ := by
    simp [step, Device.kfifoIn, htodo₁, d₂]
  have h₃ : step Line.text d₂ (.kfifoToUser 16) = some d₃ := rfl
  have h₄ : step Line.text d₃ (.kfifoIn ()) = some d₄ := by
    simp [step, Device.kfifoIn, d₃, d₂, d₄, Device.kfifoToUser, Device.put]
  have hlast : WholeOrNothing Line.text d₃ (.kfifoIn ()) := by
    intro l hl
    obtain rfl : Line.header .flush = l := by
      simpa [d₃, d₂, Device.kfifoToUser, Device.put] using hl
    exact .inl (by rw [hflush, havail₃]; decide)
  refine ⟨d₄, ?_, ?_, ?_, ?_⟩
  · exact Lib.run_append.mpr ⟨d₁, h₁, Lib.run_cons.mpr ⟨d₂, h₂, Lib.run_cons.mpr ⟨d₃, h₃,
      Lib.run_singleton.mpr h₄⟩⟩⟩
  · refine Lib.Along.append h₁ (repeat_wholeOrNothing (Line.header .fence) 2048 rfl hroom) ?_
    refine Lib.Along.cons (fun _ _ => .inr hfull) h₂ ?_
    exact Lib.Along.cons trivial h₃ (Lib.Along.cons hlast h₄ trivial)
  · have hwritten : d₄.written = d₁.written ++ [((), .header .flush)] ++ [((), .header .flush)] :=
      rfl
    rw [hwritten, hwritten₁]
    simp only [Device.init, List.length_append, List.length_replicate, List.length_singleton,
      List.length_nil]
  · have hdropped : d₄.dropped = d₁.dropped + ((Line.header .flush).text.length - d₁.fifo.avail) +
        ((Line.header .flush).text.length - d₃.fifo.avail) := rfl
    rw [hdropped, hdropped₁, hflush, hfull, havail₃]
    rfl

/-- Every line that is written leaves its first bytes in the stream, and if no write finds room for
only a part of its line, then the lines of the stream are some of those that were written. -/
theorem stream_pieces {program : ι → List α}
    (hline : ∀ i, ∀ l ∈ program i, Lib.IsLine newline (text l)) {as : List (Action ι)}
    {d : Device ι α} (h : run (step text) (.init program) as = some d) :
    d.Pieced text ∧
      (Lib.Along (WholeOrNothing text) (step text) (.init program) as →
        ∃ kept : List (ι × α), kept.Sublist d.written ∧
          d.stream = kept.flatMap (fun p => text p.2) ∧
          Lib.splitLines newline d.stream = kept.map fun p => text p.2) := by
  constructor
  · have hinit : (Device.init program).Pieced text := ⟨[], rfl, .nil⟩
    exact Lib.run_invariant (fun _ _ _ hs hu => hs.moves (step_moves hu)) hinit h
  · intro halong
    have hinit : (Device.init program).Whole text := ⟨[], List.Sublist.refl _, rfl⟩
    obtain ⟨kept, hkept, hstream⟩ :=
      halong.invariant (fun _ _ _ hs ha hu => step_whole hs ha hu) hinit h
    refine ⟨kept, hkept, hstream, ?_⟩
    rw [hstream, List.flatMap_def]
    apply Lib.splitLines_flatten
    intro x hx
    obtain ⟨p, hp, rfl⟩ := List.mem_map.mp hx
    exact hline p.1 p.2 ((run_consistent h).mem_program (hkept.subset hp))

theorem droppedFlush_pieces : ∃ d : Device Unit Line, d.written.length = 2050 ∧ d.dropped = 8 ∧
    d.Pieced Line.text ∧ d.Whole Line.text := by
  obtain ⟨d, hrun, halong, hwritten, hdropped⟩ := run_droppedFlush
  have hline : ∀ i : Unit, ∀ l ∈ fencesThenFlushes, Lib.IsLine newline l.text := by
    intro _ l hl
    rcases List.mem_append.mp hl with hl | hl
    · rw [List.eq_of_mem_replicate hl]
      exact Line.isLine_header .fence
    · obtain rfl : l = .header .flush := by simpa using hl
      exact Line.isLine_header .flush
  obtain ⟨hpieced, hwhole⟩ := stream_pieces hline hrun
  obtain ⟨kept, hkept, hstream, -⟩ := hwhole halong
  exact ⟨d, hwritten, hdropped, hpieced, kept, hkept, hstream⟩

/-! ## A line that is torn -/

/-- The `n + 1`-st line finds room for `r` bytes, and what is left of it runs into the next. -/
theorem run_torn (l : α) {n r : ℕ} (hshort : (text l).length ≤ kfifoLen)
    (hfull : n * (text l).length + r = kfifoLen) :
    ∃ as d, run (step text) (.init fun _ : Unit => List.replicate (n + 2) l) as = some d ∧
      d.written = List.replicate (n + 2) ((), l) ∧
      d.stream = (List.replicate n (text l)).flatten ++ ((text l).take r ++ text l) := by
  have hempty := Device.avail_init fun _ : Unit => List.replicate (n + 2) l
  have htodo : (Device.init fun _ : Unit => List.replicate (n + 2) l).todo () =
      List.replicate n l ++ [l, l] := by
    simp [Device.init, List.replicate_add]
  have hroom : n * (text l).length ≤
      (Device.init fun _ : Unit => List.replicate (n + 2) l).fifo.avail := by omega
  obtain ⟨d₁, h₁, htodo₁, havail₁, -, hwritten₁, hstream₁⟩ := run_repeat l n htodo hroom
  have hleft : d₁.fifo.avail = r := by omega
  let d₂ := d₁.put text () l [l]
  let d₃ := d₂.kfifoToUser kfifoLen
  let d₄ := d₃.put text () l []
  have h₂ : step text d₁ (.kfifoIn ()) = some d₂ := by simp [step, Device.kfifoIn, htodo₁, d₂]
  have h₄ : step text d₃ (.kfifoIn ()) = some d₄ := by
    simp [step, Device.kfifoIn, d₃, d₂, d₄, Device.kfifoToUser, Device.put]
  have hdrained : d₃.fifo.avail = kfifoLen := by
    have hbound := d₂.fifo.bounded
    simp only [d₃, Device.kfifoToUser, Lib.BoundedQueue.pop, Lib.BoundedQueue.avail,
      List.drop_of_length_le hbound, List.length_nil, Nat.sub_zero]
  have h₃ : step text d₂ (.kfifoToUser kfifoLen) = some d₃ := rfl
  refine ⟨_, d₄, Lib.run_append.mpr ⟨d₁, h₁, Lib.run_cons.mpr ⟨d₂, h₂,
    Lib.run_cons.mpr ⟨d₃, h₃, Lib.run_singleton.mpr h₄⟩⟩⟩, ?_, ?_⟩
  · simp [d₄, d₃, d₂, Device.put, Device.kfifoToUser, hwritten₁, Device.init,
      List.replicate_add]
  · rw [Device.stream_put, Device.stream_kfifoToUser, Device.stream_put, hstream₁, hleft, hdrained,
      List.take_of_length_le hshort]
    simp [Device.init, Device.stream, Lib.BoundedQueue.empty]

/-- The line that comes out of it is longer than any that was written. -/
theorem exists_torn {l : α} (hl : Lib.IsLine newline (text l)) (hlen : (text l).length ≤ kfifoLen)
    (hrest : kfifoLen % (text l).length ≠ 0) :
    ∃ as, ∃ d : Device Unit α,
      run (step text) (.init fun _ => List.replicate (kfifoLen / (text l).length + 2) l) as =
        some d ∧ ∃ x ∈ Lib.splitLines newline d.stream, ∀ p ∈ d.written, text p.2 ≠ x := by
  obtain ⟨as, d, h, hwritten, hstream⟩ :=
    run_torn l hlen (Nat.div_add_mod' kfifoLen (text l).length)
  generalize kfifoLen / (text l).length = n at *
  generalize hr : kfifoLen % (text l).length = r at *
  have hlt : r < (text l).length := by
    rw [← hr]
    apply Nat.mod_lt
    obtain ⟨body, hbody, -⟩ := hl
    simp [hbody]
  refine ⟨as, d, h, (text l).take r ++ text l, ?_, ?_⟩
  · have htorn : Lib.IsLine newline ((text l).take r ++ text l) :=
      hl.append_left (hl.not_mem_take hlt)
    rw [hstream, Lib.splitLines_lines_append (fun x hx => List.eq_of_mem_replicate hx ▸ hl)]
    apply List.mem_append_right
    have hlast := Lib.splitLines_line htorn []
    rw [List.append_nil] at hlast
    simp [hlast]
  · intro p hp heq
    rw [hwritten] at hp
    obtain rfl := List.eq_of_mem_replicate hp
    have hlength := congrArg List.length heq
    simp only [List.length_append, List.length_take] at hlength
    omega

/-- The 1490-th store of a thread is left as `@ sto`, and the next line is `@ sto@ store: 1`. -/
theorem storeLine_torn : ∃ as, ∃ d : Device Unit Line,
    run (step Line.text) (.init fun _ => List.replicate 1491 (.header (.store 1))) as = some d ∧
      (∀ p ∈ d.written, Lib.IsLine newline p.2.text) ∧ ¬ d.Whole Line.text ∧
      ∃ x ∈ Lib.splitLines newline d.stream, ∀ p ∈ d.written, p.2.text ≠ x := by
  have hlen : (Line.header (.store 1)).text.length = 11 := by decide
  obtain ⟨as, d, h, x, hx, hne⟩ := exists_torn
    (Line.isLine_header (.store 1)) (by rw [hlen]; decide) (by rw [hlen]; decide)
  rw [hlen] at h
  have hlines : ∀ p ∈ d.written, Lib.IsLine newline p.2.text := by
    intro p hp
    have hmem := (run_consistent h).mem_program hp
    rw [List.eq_of_mem_replicate hmem]
    exact Line.isLine_header (.store 1)
  refine ⟨as, d, h, hlines, ?_, x, hx, hne⟩
  rintro ⟨kept, hkept, hstream⟩
  rw [hstream, List.flatMap_def, Lib.splitLines_flatten] at hx
  · obtain ⟨p, hp, rfl⟩ := List.mem_map.mp hx
    exact hne p (hkept.subset hp) rfl
  · intro y hy
    obtain ⟨p, hp, rfl⟩ := List.mem_map.mp hy
    exact hlines p (hkept.subset hp)

end KernelModule

end Squint.Kernel
