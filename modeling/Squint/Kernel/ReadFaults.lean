import Squint.Kernel.Evaluation
import Mathlib.Algebra.Ring.Int.Defs

/-! Reads whose copy to user space faults. What `kfifo_to_user` has copied by then has left the
FIFO, and the error that it reports reaches the reader as a large count. -/
namespace Squint.Kernel

open Lib (run Along)

/-- What `kfifo_to_user` reports: `copied`, and the value it returns. -/
structure ToUser where
  copied : ℕ
  ret : ℤ
  deriving DecidableEq, Repr

def efault : ℤ := 14

/-- `kfifo_to_user`, where the bytes of the user's buffer from `fault` on cannot be written. -/
def kfifoToUser (items : List Byte) (count : ℕ) (fault : Option ℕ) : ToUser :=
  let len := min count items.length
  match fault with
  | none => ⟨len, 0⟩
  | some k => if k < len then ⟨k, -efault⟩ else ⟨len, 0⟩

/-- `ret ? ret : copied`. Beside `copied`, an `unsigned int`, the error is one as well. -/
def ToUser.value (x : ToUser) : ℤ := (if x.ret ≠ 0 then x.ret else x.copied) % 2 ^ 32

/-- The sum of the non-negative values among those that reads returned. -/
def returned : List ℤ → ℕ
  | [] => 0
  | v :: values => v.toNat + returned values

/-- Everything that is to be copied goes to bytes of the buffer that can be written. -/
def NoFault (items : List Byte) (count : ℕ) (fault : Option ℕ) : Prop :=
  ∀ k ∈ fault, min count items.length ≤ k

instance (items : List Byte) (count : ℕ) (fault : Option ℕ) :
    Decidable (NoFault items count fault) := by
  unfold NoFault
  infer_instance

section
variable {items : List Byte} {count : ℕ} {fault : Option ℕ}

theorem kfifoToUser_of_noFault (h : NoFault items count fault) :
    kfifoToUser items count fault = ⟨min count items.length, 0⟩ := by
  cases fault with
  | none => rfl
  | some k => exact if_neg (h k rfl).not_gt

theorem kfifoToUser_of_fault (h : ¬ NoFault items count fault) :
    ∃ k < items.length, kfifoToUser items count fault = ⟨k, -efault⟩ := by
  simp only [NoFault, Option.mem_def, not_forall, not_le] at h
  obtain ⟨k, rfl, hk⟩ := h
  exact ⟨k, hk.trans_le (min_le_right _ _), if_pos hk⟩

theorem value_of_fault (h : ¬ NoFault items count fault) :
    (kfifoToUser items count fault).value = 4294967282 := by
  obtain ⟨k, -, hx⟩ := kfifoToUser_of_fault h
  simp [hx, ToUser.value, efault]

theorem value_of_noFault (hlength : items.length ≤ kfifoLen) (h : NoFault items count fault) :
    (kfifoToUser items count fault).value = (kfifoToUser items count fault).copied := by
  have hle : min count items.length ≤ kfifoLen := (min_le_right _ _).trans hlength
  rw [kfifoToUser_of_noFault h]
  simp only [ToUser.value, ne_eq, not_true_eq_false, if_false]
  unfold kfifoLen at hle
  omega

/-- What a read returns after a fault is more than the FIFO can hold. -/
theorem copied_lt_value (hlength : items.length ≤ kfifoLen) (h : ¬ NoFault items count fault) :
    (kfifoToUser items count fault).copied < (kfifoToUser items count fault).value := by
  rw [value_of_fault h]
  obtain ⟨k, hk, hx⟩ := kfifoToUser_of_fault h
  rw [hx]
  unfold kfifoLen at hlength
  dsimp only
  omega

theorem value_eq_copied_iff (hlength : items.length ≤ kfifoLen) :
    (kfifoToUser items count fault).value = (kfifoToUser items count fault).copied ↔
      NoFault items count fault := by
  constructor
  · intro heq
    by_contra h
    exact (copied_lt_value hlength h).ne heq.symm
  · exact value_of_noFault hlength

/-- A fault adds more to the values than to the bytes that have left the FIFO. -/
theorem kfifoToUser_balance (hlength : items.length ≤ kfifoLen) {m r : ℕ} (hle : m ≤ r) :
    m + (kfifoToUser items count fault).copied ≤
        r + (kfifoToUser items count fault).value.toNat ∧
      (m + (kfifoToUser items count fault).copied =
          r + (kfifoToUser items count fault).value.toNat ↔
        m = r ∧ NoFault items count fault) := by
  by_cases h : NoFault items count fault
  · have hvalue := value_of_noFault hlength h
    simp only [h, and_true]
    omega
  · have hlt := copied_lt_value hlength h
    simp only [h, and_false, iff_false]
    omega

theorem copied_le : (kfifoToUser items count fault).copied ≤ items.length := by
  by_cases h : NoFault items count fault
  · rw [kfifoToUser_of_noFault h]
    exact min_le_right _ _
  · obtain ⟨k, hk, hx⟩ := kfifoToUser_of_fault h
    rw [hx]
    exact hk.le

end

def Device.removed {ι α : Type} (d : Device ι α) : ℕ := d.reads.flatten.length

theorem Device.removed_kfifoToUser {ι α : Type} (d : Device ι α) (count : ℕ) (fault : Option ℕ) :
    (d.kfifoToUser (Kernel.kfifoToUser d.fifo.items count fault).copied).removed =
      d.removed + (Kernel.kfifoToUser d.fifo.items count fault).copied := by
  simp [removed, Device.kfifoToUser, min_eq_left copied_le]

theorem Device.removed_kfifoIn {ι α : Type} [DecidableEq ι] {text : α → List Byte}
    {d d' : Device ι α} {i : ι} (h : d.kfifoIn text i = some d') : d'.removed = d.removed := by
  obtain ⟨l, rest, -, rfl⟩ := kfifoIn_eq_some h
  rfl

theorem returned_append (values : List ℤ) (v : ℤ) :
    returned (values ++ [v]) = returned values + v.toNat := by
  induction values with
  | nil => simp [returned]
  | cons u values ih =>
    rw [List.cons_append, returned, returned, ih]
    omega

variable {ι α : Type} [DecidableEq ι] {text : α → List Byte}

/-! ## Without back-pressure -/

namespace KernelModule.Faulting

structure State (ι α : Type) where
  device : Device ι α
  values : List ℤ

inductive Action (ι : Type) where
  | kfifoIn (i : ι)
  | read (count : ℕ) (fault : Option ℕ)
  deriving DecidableEq, Repr

def step (text : α → List Byte) (s : State ι α) : Action ι → Option (State ι α)
  | .kfifoIn i => (s.device.kfifoIn text i).map fun d => { s with device := d }
  | .read count fault =>
    let x := kfifoToUser s.device.fifo.items count fault
    some ⟨s.device.kfifoToUser x.copied, s.values ++ [x.value]⟩

def Unfaulted (s : State ι α) : Action ι → Prop
  | .read count fault => NoFault s.device.fifo.items count fault
  | .kfifoIn _ => True

instance (s : State ι α) (a : Action ι) : Decidable (Unfaulted s a) := by
  cases a <;> unfold Unfaulted <;> infer_instance

theorem step_balance {s t : State ι α} {a : Action ι}
    (hs : s.device.removed ≤ returned s.values) (h : step text s a = some t) :
    t.device.removed ≤ returned t.values ∧ (t.device.removed = returned t.values ↔
      s.device.removed = returned s.values ∧ Unfaulted s a) := by
  cases a with
  | kfifoIn i =>
    obtain ⟨d, hd, rfl⟩ := Option.map_eq_some_iff.mp h
    simp only [Device.removed_kfifoIn hd, Unfaulted, and_true]
    exact hs
  | read count fault =>
    obtain rfl := Option.some.inj h
    simp only [Device.removed_kfifoToUser, returned_append, Unfaulted]
    exact kfifoToUser_balance s.device.fifo.bounded hs

end KernelModule.Faulting

/-! ## With back-pressure -/

namespace Evaluation.Faulting

/-- The module, what `kfifo_to_user` reported to the read that is under way, and what earlier reads
returned. -/
structure State (ι α : Type) where
  base : Evaluation.State ι α
  result : ToUser
  values : List ℤ

inductive Action (ι : Type) where
  | act (a : Evaluation.Action ι)
  | read (count : ℕ) (fault : Option ℕ)
  deriving DecidableEq, Repr

/-- `SquintDeviceRead` returns when the reader becomes idle. -/
def State.goOn (s : State ι α) (t : Evaluation.State ι α) : State ι α :=
  { s with
    base := t
    values := if s.base.reader ≠ .idle ∧ t.reader = .idle then s.values ++ [s.result.value]
      else s.values }

def step (text : α → List Byte) (s : State ι α) : Action ι → Option (State ι α)
  | .act (.kfifoToUser _) => none
  | .act a => (Evaluation.step text s.base a).map s.goOn
  | .read count fault =>
    if s.base.reader = .idle then
      let x := kfifoToUser s.base.device.fifo.items count fault
      some ⟨{ s.base with device := s.base.device.kfifoToUser x.copied, reader := .removed }, x,
        s.values⟩
    else none

def Unfaulted (s : State ι α) : Action ι → Prop
  | .read count fault => NoFault s.base.device.fifo.items count fault
  | .act _ => True

instance (s : State ι α) (a : Action ι) : Decidable (Unfaulted s a) := by
  cases a <;> unfold Unfaulted <;> infer_instance

/-- What reads have returned or are about to return. -/
def State.answers (s : State ι α) : List ℤ :=
  if s.base.reader = .idle then s.values else s.values ++ [s.result.value]

omit [DecidableEq ι] in
theorem State.answers_goOn (s : State ι α) {t : Evaluation.State ι α}
    (h : s.base.reader = .idle → t.reader = .idle) : (s.goOn t).answers = s.answers := by
  unfold State.answers State.goOn
  split_ifs <;> simp_all

theorem step_act {s t : State ι α} {a : Evaluation.Action ι} (h : step text s (.act a) = some t) :
    t.base.device.removed = s.base.device.removed ∧ t.answers = s.answers := by
  have hstep : ∃ b, Evaluation.step text s.base a = some b ∧ s.goOn b = t ∧
      ∀ count, a ≠ .kfifoToUser count := by
    cases a with
    | kfifoToUser count => cases h
    | _ =>
      obtain ⟨b, hb, hgo⟩ := Option.map_eq_some_iff.mp h
      exact ⟨b, hb, hgo, by simp⟩
  obtain ⟨b, hb, rfl, hread⟩ := hstep
  cases step_does hb with
  | write _ hd => exact ⟨Device.removed_kfifoIn hd, s.answers_goOn id⟩
  | @read count _ => exact absurd rfl (hread count)
  | awaited hr => exact ⟨rfl, s.answers_goOn (by simp [hr])⟩
  | clear hr => exact ⟨rfl, s.answers_goOn (by simp [hr])⟩
  | done => exact ⟨rfl, s.answers_goOn fun _ => rfl⟩
  | wake => exact ⟨rfl, s.answers_goOn fun _ => rfl⟩
  | _ => exact ⟨rfl, s.answers_goOn id⟩

theorem step_balance {s t : State ι α} {a : Action ι}
    (hs : s.base.device.removed ≤ returned s.answers) (h : step text s a = some t) :
    t.base.device.removed ≤ returned t.answers ∧ (t.base.device.removed = returned t.answers ↔
      s.base.device.removed = returned s.answers ∧ Unfaulted s a) := by
  cases a with
  | act a =>
    obtain ⟨hremoved, hanswers⟩ := step_act h
    simp only [hremoved, hanswers, Unfaulted, and_true]
    exact hs
  | read count fault =>
    simp only [step, Option.ite_none_right_eq_some, Option.some.injEq] at h
    obtain ⟨hr, rfl⟩ := h
    simp only [State.answers, hr, if_true, reduceCtorEq, if_false, Device.removed_kfifoToUser,
      returned_append, Unfaulted]
    apply kfifoToUser_balance s.base.device.fifo.bounded
    simpa [State.answers, hr] using hs

end Evaluation.Faulting

/-! ## Whole runs -/

/-- In all three modules the values that reads return account for the bytes that have left the FIFO
exactly when no copy faults. No read returns an error: a fault comes back as `4294967282`. -/
theorem removed_eq_returned_iff (text : α → List Byte) :
    (∀ (d : Device ι α) (as : List (KernelModule.Faulting.Action ι))
        (t : KernelModule.Faulting.State ι α), d.reads = [] →
      run (KernelModule.Faulting.step text) ⟨d, []⟩ as = some t →
      (t.device.removed = returned t.values ↔
        Along KernelModule.Faulting.Unfaulted (KernelModule.Faulting.step text) ⟨d, []⟩ as)) ∧
    (∀ (b : Evaluation.State ι α) (x : ToUser) (as : List (Evaluation.Faulting.Action ι))
        (t : Evaluation.Faulting.State ι α), b.device.reads = [] → b.reader = .idle →
      run (Evaluation.Faulting.step text) ⟨b, x, []⟩ as = some t → t.base.reader = .idle →
      (t.base.device.removed = returned t.values ↔
        Along Evaluation.Faulting.Unfaulted (Evaluation.Faulting.step text) ⟨b, x, []⟩ as)) ∧
    ∀ (fifo : Kfifo) (count : ℕ) (fault : Option ℕ),
      0 ≤ (kfifoToUser fifo.items count fault).value ∧
      ((kfifoToUser fifo.items count fault).value = (kfifoToUser fifo.items count fault).copied ↔
        NoFault fifo.items count fault) ∧
      (¬ NoFault fifo.items count fault →
        (kfifoToUser fifo.items count fault).value = 4294967282) := by
  refine ⟨fun d as t hd h => ?_, fun b x as t hd hr h hidle => ?_, fun fifo count fault => ?_⟩
  · have hiff := Along.iff_of_step
      (I := fun s : KernelModule.Faulting.State ι α => s.device.removed ≤ returned s.values)
      (Q := fun s => s.device.removed = returned s.values)
      (fun _ _ _ hs hu => KernelModule.Faulting.step_balance hs hu)
      (by simp [Device.removed, hd]) h
    simpa [Device.removed, hd, returned] using hiff
  · have hiff := Along.iff_of_step
      (I := fun s : Evaluation.Faulting.State ι α => s.base.device.removed ≤ returned s.answers)
      (Q := fun s => s.base.device.removed = returned s.answers)
      (fun _ _ _ hs hu => Evaluation.Faulting.step_balance hs hu)
      (by simp [Device.removed, hd]) h
    simpa [Device.removed, hd, returned, Evaluation.Faulting.State.answers, hr, hidle] using hiff
  · have hnonneg : 0 ≤ (kfifoToUser fifo.items count fault).value := by
      apply Int.emod_nonneg
      decide
    exact ⟨hnonneg, value_eq_copied_iff fifo.bounded, value_of_fault⟩

def queued : Device Unit (List Byte) :=
  ⟨Lib.BoundedQueue.empty.push [0x40, 0x20, 0x66, 0x6c], fun _ => [[0x0a, 0x40]], [], 0, []⟩

theorem unfaulted_accounted : ∃ t : KernelModule.Faulting.State Unit (List Byte),
    t.values = [3, 3] ∧ t.device.removed = returned t.values := by
  have hvalues : (run (KernelModule.Faulting.step id) ⟨queued, []⟩
      [.read 3 (some 3), .kfifoIn (), .read 10 (some 8)]).map (·.values) = some [3, 3] := by
    decide +kernel
  obtain ⟨t, h, hvalues⟩ := Option.map_eq_some_iff.mp hvalues
  refine ⟨t, hvalues, ((removed_eq_returned_iff id).1 queued _ t rfl h).mpr ?_⟩
  decide +kernel

/-- A read of four bytes whose buffer ends after two: both are gone, and the reader is told of
`4294967282`. -/
theorem fault_loses : ∃ t : KernelModule.Faulting.State Unit (List Byte),
    run (KernelModule.Faulting.step id) ⟨queued, []⟩ [.read 4 (some 2)] = some t ∧
      t.values = [4294967282] ∧ t.device.fifo.items = [0x66, 0x6c] ∧
      t.device.removed = 2 ∧ t.device.removed ≠ returned t.values := by
  exact ⟨_, rfl, by decide +kernel, by decide +kernel, by decide +kernel, by decide +kernel⟩

end Squint.Kernel
