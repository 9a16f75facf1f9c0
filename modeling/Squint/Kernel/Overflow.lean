import Mathlib.Data.Fintype.Fin
import Squint.Kernel.Evaluation

/-! When the trace FIFO overflows in spite of the back-pressure. A writer that leaves 500 bytes
free is let through, as are all writers that come before the next test, so three of them can
write more than there is room for. -/
namespace Squint.Kernel

open Lib (run)

namespace Evaluation

variable {ι : Type} [DecidableEq ι] {α : Type} {text : α → List Byte}

def State.put (text : α → List Byte) (s : State ι α) (i : ι) (l : α) (rest : List α) : State ι α :=
  { s with device := s.device.put text i l rest, stage := Function.update s.stage i .wrote }

theorem step_kfifoIn {s : State ι α} {i : ι} {l : α} {rest : List α} (hi : s.stage i = .ready)
    (hl : s.device.todo i = l :: rest) :
    step text s (.kfifoIn i) = some (s.put text i l rest) := by
  simp [step, hi, Device.kfifoIn, hl, State.put]

/-- Thread `i` writes `k` strings and finds enough room after each. -/
def fill (i : ι) (k : ℕ) : List (Action ι) :=
  (List.replicate k [Action.kfifoIn i, .testAvail i]).flatten

omit [DecidableEq ι] in
theorem mem_fill {i : ι} {k : ℕ} {a : Action ι} (h : a ∈ fill i k) :
    a = .kfifoIn i ∨ a = .testAvail i := by
  obtain ⟨as, has, ha⟩ := List.mem_flatten.mp h
  rw [List.eq_of_mem_replicate has] at ha
  simpa using ha

theorem run_fill (text : α → List Byte) {i : ι} {l : α} {rest : List α} (stage : ι → Stage)
    (hi : stage i = .ready) (asleep : Bool) (reader : Reader) (k : ℕ) (d : Device ι α)
    (htodo : d.todo i = List.replicate k l ++ rest)
    (hroom : k * (text l).length + kfifoThresholdLen ≤ d.fifo.avail) :
    ∃ d', run (step text) ⟨d, stage, asleep, reader⟩ (fill i k) =
        some ⟨d', stage, asleep, reader⟩ ∧
      d'.todo = Function.update d.todo i rest ∧
      d'.fifo.avail = d.fifo.avail - k * (text l).length := by
  induction k generalizing d with
  | zero =>
    refine ⟨d, rfl, ?_, by simp⟩
    rw [← show d.todo i = rest by simpa using htodo, Function.update_eq_self]
  | succ k ih =>
    have havail : (d.put text i l (List.replicate k l ++ rest)).fifo.avail =
        d.fifo.avail - (text l).length := Lib.BoundedQueue.avail_push _ _
    rw [Nat.succ_mul] at hroom
    obtain ⟨d', hrun, htodo', havail'⟩ :=
      ih (d.put text i l (List.replicate k l ++ rest)) (by simp [Device.put]) (by omega)
    refine ⟨d', ?_, ?_, ?_⟩
    · refine Lib.run_cons.mpr ⟨_, step_kfifoIn hi htodo, ?_⟩
      refine Lib.run_cons.mpr ⟨_, ?_, hrun⟩
      have hge : kfifoThresholdLen ≤ (d.put text i l (List.replicate k l ++ rest)).fifo.avail := by
        omega
      simp [step, State.put, hge.not_gt, ← hi]
    · simp [htodo', Device.put]
    · rw [havail', havail, Nat.succ_mul]
      omega

/-- Three threads write one after the other before any of them looks how much room is left. -/
theorem run_three (text : α → List Byte) {i j k : ι} (hij : i ≠ j) (hik : i ≠ k) (hjk : j ≠ k)
    {d : Device ι α} {l : α} (hi : d.todo i = [l]) (hj : d.todo j = [l])
    (hk : d.todo k = [l]) (hroom : d.fifo.avail < 3 * (text l).length) (asleep : Bool)
    (reader : Reader) :
    ∃ t, run (step text) ⟨d, fun _ => .ready, asleep, reader⟩ [.kfifoIn i, .kfifoIn j, .kfifoIn k] =
      some t ∧ 0 < t.device.dropped := by
  let s₀ : State ι α := ⟨d, fun _ => .ready, asleep, reader⟩
  let s₁ := s₀.put text i l []
  let s₂ := s₁.put text j l []
  have h₁ : step text s₀ (.kfifoIn i) = some s₁ := step_kfifoIn rfl hi
  have h₂ : step text s₁ (.kfifoIn j) = some s₂ :=
    step_kfifoIn (by simp [s₁, s₀, State.put, hij.symm])
      (by simp [s₁, s₀, State.put, Device.put, hij.symm, hj])
  have h₃ : step text s₂ (.kfifoIn k) = some (s₂.put text k l []) :=
    step_kfifoIn (by simp [s₂, s₁, s₀, State.put, hik.symm, hjk.symm])
      (by simp [s₂, s₁, s₀, State.put, Device.put, hik.symm, hjk.symm, hk])
  refine ⟨s₂.put text k l [], ?_, ?_⟩
  · exact Lib.run_cons.mpr ⟨s₁, h₁, Lib.run_cons.mpr ⟨s₂, h₂, Lib.run_singleton.mpr h₃⟩⟩
  · simp only [s₂, s₁, s₀, State.put, Device.put, Lib.BoundedQueue.avail_push]
    omega

end Evaluation

/-- The longest line there is, and one that leaves just 500 bytes free in the end. -/
def longLine : List Byte := List.replicate Backpressure.lineMax 0x61

def fillingLine : List Byte := List.replicate 163 0x61

theorem longLine_length : longLine.length = 199 := List.length_replicate

theorem fillingLine_length : fillingLine.length = 163 := List.length_replicate

/-- The first thread fills the FIFO, and every thread has a long line to write after that. -/
def overfull {N : ℕ} (i : Fin N) : List (List Byte) :=
  if i.val = 0 then List.replicate 79 longLine ++ [fillingLine, longLine] else [longLine]

theorem overfull_length {N : ℕ} (i : Fin N) : ∀ l ∈ overfull i, l.length ≤ 199 := by
  intro l hl
  have hmem : l = longLine ∨ l = fillingLine := by
    simp only [overfull] at hl
    split_ifs at hl
    · simp only [List.mem_append, List.mem_cons, List.not_mem_nil, or_false] at hl
      rcases hl with hl | hl | hl
      · exact .inl (List.eq_of_mem_replicate hl)
      · exact .inr hl
      · exact .inl hl
    · exact .inl (List.mem_singleton.mp hl)
  rcases hmem with rfl | rfl
  · exact longLine_length.le
  · exact fillingLine_length.le.trans (by decide)

/-- The first thread leaves just 500 bytes free and is let through, then three threads write. -/
theorem overfull_overflows {N : ℕ} (hN : 3 ≤ N) : ∃ as t,
    run (Evaluation.step id) (Evaluation.init (overfull (N := N))) as = some t ∧
      0 < t.device.dropped := by
  let i₀ : Fin N := ⟨0, by omega⟩
  let i₁ : Fin N := ⟨1, by omega⟩
  let i₂ : Fin N := ⟨2, by omega⟩
  let ready : Fin N → Evaluation.Stage := fun _ => .ready
  have hroom₀ : (Device.init (overfull (N := N))).fifo.avail = 16384 := Device.avail_init _
  have htodo₀ : (Device.init (overfull (N := N))).todo i₀ =
    List.replicate 79 longLine ++ [fillingLine, longLine] := rfl
  obtain ⟨d₁, h₁, htodo₁, havail₁⟩ :=
    Evaluation.run_fill id ready rfl false .idle 79 _ htodo₀
      (by rw [hroom₀, id, longLine_length]; decide)
  have hroom₁ : d₁.fifo.avail = 663 := by rw [havail₁, hroom₀, id, longLine_length]
  have htodo₁' : d₁.todo i₀ = List.replicate 1 fillingLine ++ [longLine] := by simp [htodo₁]
  obtain ⟨d₂, h₂, htodo₂, havail₂⟩ :=
    Evaluation.run_fill id ready rfl false .idle 1 _ htodo₁'
      (by rw [hroom₁, id, fillingLine_length]; decide)
  have hroom₂ : d₂.fifo.avail = 500 := by rw [havail₂, hroom₁, id, fillingLine_length]
  have hlong : ∀ i, d₂.todo i = [longLine] := by
    intro i
    by_cases hi : i = i₀
    · simp [htodo₂, hi]
    · have hne : i.val ≠ 0 := fun h => hi (Fin.ext h)
      simp [htodo₂, htodo₁, hi, Device.init, overfull, hne]
  obtain ⟨t, h₃, hdrop⟩ := Evaluation.run_three id (i := i₀) (j := i₁) (k := i₂)
    (by simp [i₀, i₁]) (by simp [i₀, i₂]) (by simp [i₁, i₂]) (hlong i₀) (hlong i₁) (hlong i₂)
    (by rw [hroom₂, id, longLine_length]; decide) false .idle
  exact ⟨_, t,
    Lib.run_append.mpr ⟨_, h₁, Lib.run_append.mpr ⟨_, h₂, h₃⟩⟩, hdrop⟩

/-- `N` threads that write strings of at most 199 bytes can make the FIFO drop some. -/
def Overflows (ι : Type) {σ β : Type} (init : (ι → List (List Byte)) → σ) (step : σ → β → Option σ)
    (device : σ → Device ι (List Byte)) : Prop :=
  ∃ program : ι → List (List Byte), (∀ i, ∀ l ∈ program i, l.length ≤ 199) ∧
    ∃ as t, run step (init program) as = some t ∧ 0 < (device t).dropped

/-- Exactly three writers and more can overrun the back-pressure, both as it is meant and step by
step as the module does it. -/
theorem overflows_iff (N : ℕ) :
    (Overflows (Fin N) Backpressure.init (Backpressure.step id) (·.device) ↔ 3 ≤ N) ∧
    (Overflows (Fin N) Evaluation.init (Evaluation.step id) (·.device) ↔ 3 ≤ N) := by
  have hsafe : Overflows (Fin N) Backpressure.init (Backpressure.step id) (·.device) →
      3 ≤ N := by
    rintro ⟨program, hlen, as, t, h, hdrop⟩
    by_contra hN
    have hfew : Backpressure.lineMax * Fintype.card (Fin N) ≤ kfifoThresholdLen := by
      simp only [Fintype.card_fin, Backpressure.lineMax, kfifoThresholdLen]
      omega
    exact hdrop.ne' (Backpressure.dropped_eq_zero hfew hlen h)
  have hrefines : Overflows (Fin N) Evaluation.init (Evaluation.step id) (·.device) →
      Overflows (Fin N) Backpressure.init (Backpressure.step id) (·.device) := by
    rintro ⟨program, hlen, as, t, h, hdrop⟩
    obtain ⟨bs, hbs⟩ := Evaluation.run_refines h
    exact ⟨program, hlen, bs, t.abstract, hbs, hdrop⟩
  have hunsafe : 3 ≤ N →
      Overflows (Fin N) Evaluation.init (Evaluation.step id) (·.device) := by
    intro hN
    obtain ⟨as, t, h, hdrop⟩ := overfull_overflows hN
    exact ⟨overfull, overfull_length, as, t, h, hdrop⟩
  exact ⟨⟨hsafe, hrefines ∘ hunsafe⟩, ⟨hsafe ∘ hrefines, hunsafe⟩⟩

end Squint.Kernel
