import Squint.Kernel.Records

/-! A single thread's trace, however it is read, tells all that the thread reported. -/
namespace Squint.Kernel.Evaluation

open Lib (run)

/-- The bytes delivered and the bytes still queued parse to the calls that were made. Nothing is
cut off by the buffers of `write_store_trace` and `print_trace`, or dropped by the FIFO. -/
theorem decode_stream {calls : List Call} (hclean : ∀ c ∈ calls, c.Clean)
    {as : List (Action Unit)} {s : State Unit Line}
    (h : run (step Line.text) (init fun _ => calls.flatMap Call.lines) as = some s)
    (hdone : s.device.todo () = []) :
    decode s.device.stream = some calls ∧ s.device.dropped = 0 ∧
      (∀ addr, (storeFormat addr).length < 40) ∧
      ∀ c ∈ calls, ∀ f ∈ c.stack, (frameFormat f).length < 200 := by
  have hkept : s.device.dropped = 0 :=
    dropped_eq_zero (by decide) (fun _ l _ => l.text_length_le) h
  refine ⟨?_, hkept, storeFormat_length_lt, fun c hc f hf => ?_⟩
  · rw [(run_consistent h).stream_unit hdone hkept]
    exact decode_text hclean
  · exact frameFormat_length_lt ((hclean c hc).2 f hf)

/-- A store with one frame, read in two pieces. -/
theorem storeTrace_decoded : ∃ s : State Unit Line, s.device.reads.length = 2 ∧
    decode s.device.stream = some [⟨.store 0xffffffffc0000000, [someFrame]⟩] := by
  let calls : List Call := [⟨.store 0xffffffffc0000000, [someFrame]⟩]
  have hclean : ∀ c ∈ calls, c.Clean := by
    intro c hc
    obtain rfl := List.mem_singleton.mp hc
    exact ⟨by decide, by simpa using someFrame_clean⟩
  have hpair : (run (step Line.text) (init fun _ : Unit => calls.flatMap Call.lines)
      [.kfifoIn (), .testAvail (), .kfifoToUser 7, .testAsleep, .kfifoIn (), .kfifoToUser 40]).map
        (fun s => (s.device.todo (), s.device.reads.length)) = some ([], 2) := by decide +kernel
  obtain ⟨s, h, hpair⟩ := Option.map_eq_some_iff.mp hpair
  obtain ⟨hdone, hreads⟩ := Prod.mk.inj hpair
  exact ⟨s, hreads, (decode_stream hclean h hdone).1⟩

end Squint.Kernel.Evaluation
