import Mathlib.Data.Fintype.Card
import Squint.Kernel.Device

/-! Back-pressure as `kfifo_kernel_evaluation` means it: a writer that leaves fewer than 500 bytes
free stops until more than 500 are free again. The flag and the wait queue by which the module
brings this about do not appear here. -/
namespace Squint.Kernel.Backpressure

/-- Where a thread stands in `squint_fifo_write`. -/
inductive Stage where
  | ready
  | wrote
  | blocked
  deriving DecidableEq, Repr

structure State (ι α : Type) where
  device : Device ι α
  stage : ι → Stage

inductive Action (ι : Type) where
  | kfifoIn (i : ι)
  | testAvail (i : ι)
  | resume (i : ι)
  | read (count : ℕ)
  deriving DecidableEq, Repr

variable {ι α : Type} [DecidableEq ι]

def init (program : ι → List α) : State ι α := ⟨.init program, fun _ => .ready⟩

def step (text : α → List Byte) (s : State ι α) : Action ι → Option (State ι α)
  | .kfifoIn i =>
    if s.stage i = .ready then
      (s.device.kfifoIn text i).map fun d => ⟨d, Function.update s.stage i .wrote⟩
    else none
  | .testAvail i =>
    if s.stage i = .wrote then
      if s.device.fifo.avail < kfifoThresholdLen then
        some { s with stage := Function.update s.stage i .blocked }
      else some { s with stage := Function.update s.stage i .ready }
    else none
  | .resume i =>
    if s.stage i = .blocked ∧ kfifoThresholdLen < s.device.fifo.avail then
      some { s with stage := Function.update s.stage i .ready }
    else none
  | .read count => some { s with device := s.device.kfifoToUser count }

inductive Does (text : α → List Byte) (s : State ι α) : State ι α → Prop
  | write {i d} (hi : s.stage i = .ready) (h : s.device.kfifoIn text i = some d) :
      Does text s ⟨d, Function.update s.stage i .wrote⟩
  | block {i} (hi : s.stage i = .wrote) :
      Does text s { s with stage := Function.update s.stage i .blocked }
  | goOn {i} (hi : s.stage i ≠ .ready) (h : kfifoThresholdLen ≤ s.device.fifo.avail) :
      Does text s { s with stage := Function.update s.stage i .ready }
  | read (count : ℕ) : Does text s { s with device := s.device.kfifoToUser count }

variable {text : α → List Byte} {s t : State ι α}

theorem step_does {a : Action ι} (h : step text s a = some t) : Does text s t := by
  cases a with
  | kfifoIn i =>
    simp only [step, Option.ite_none_right_eq_some, Option.map_eq_some_iff] at h
    obtain ⟨hi, d, hd, rfl⟩ := h
    exact .write hi hd
  | testAvail i =>
    simp only [step] at h
    split_ifs at h with hi hlt
    · obtain rfl := Option.some.inj h
      exact .block hi
    · obtain rfl := Option.some.inj h
      exact .goOn (by simp [hi]) (by omega)
  | resume i =>
    simp only [step, Option.ite_none_right_eq_some, Option.some.injEq] at h
    obtain ⟨⟨hi, hlt⟩, rfl⟩ := h
    exact .goOn (by simp [hi]) (by omega)
  | read count =>
    obtain rfl := Option.some.inj h
    exact .read count

/-- The longest string that is written: `print_trace` formats into 200 bytes. -/
def lineMax : ℕ := 199

variable [Fintype ι]

/-- The threads that have written and not yet been found to have left enough room. -/
def busy (stage : ι → Stage) : Finset ι := Finset.univ.filter (stage · ≠ .ready)

theorem busy_update_wrote {stage : ι → Stage} {i : ι} (hi : stage i = .ready) :
    (busy (Function.update stage i .wrote)).card = (busy stage).card + 1 := by
  have h : busy (Function.update stage i .wrote) = insert i (busy stage) := by
    ext j
    by_cases hj : j = i <;> simp [busy, hj]
  rw [h, Finset.card_insert_of_notMem (by simp [busy, hi])]

theorem busy_update_blocked {stage : ι → Stage} {i : ι} (hi : stage i = .wrote) :
    busy (Function.update stage i .blocked) = busy stage := by
  ext j
  by_cases hj : j = i <;> simp [busy, hj, hi]

omit [DecidableEq ι] in
/-- A thread about to write is not among the busy ones. -/
theorem card_busy_lt {stage : ι → Stage} {i : ι} (hi : stage i = .ready) :
    (busy stage).card < Fintype.card ι := by
  apply Finset.card_lt_univ_of_notMem (x := i)
  simp [busy, hi]

/-- Each busy thread has used at most one line of the room that was left before. -/
structure Room (text : α → List Byte) (s : State ι α) : Prop where
  room : kfifoThresholdLen ≤ s.device.fifo.avail + lineMax * (busy s.stage).card
  short : ∀ i, ∀ l ∈ s.device.todo i, (text l).length ≤ lineMax

omit [DecidableEq ι] in
theorem room_init {program : ι → List α} (h : ∀ i, ∀ l ∈ program i, (text l).length ≤ lineMax) :
    Room text (init program) := by
  refine ⟨?_, h⟩
  simp only [init, Device.init, Lib.BoundedQueue.avail_empty, kfifoThresholdLen, kfifoLen]
  omega

theorem room_step {a : Action ι} (hs : Room text s) (h : step text s a = some t) : Room text t := by
  cases step_does h with
  | @write i _ hi hd =>
    obtain ⟨l, rest, hl, rfl⟩ := Device.kfifoIn_eq_some hd
    have hlen := hs.short i l (by simp [hl])
    have hroom := hs.room
    refine ⟨?_, fun j m hm => ?_⟩
    · simp only [Device.put, Lib.BoundedQueue.avail_push, busy_update_wrote hi]
      rw [Nat.mul_add]
      omega
    · simp only [Device.put, Function.update_apply] at hm
      split_ifs at hm with hj
      · exact hs.short i m (by simp [hl, hm])
      · exact hs.short j m hm
  | block hi => exact ⟨by simpa only [busy_update_blocked hi] using hs.room, hs.short⟩
  | goOn _ hle => exact ⟨Nat.le_add_right_of_le hle, hs.short⟩
  | read count =>
    have hroom := hs.room
    have havail := s.device.fifo.avail_le_avail_pop count
    exact ⟨hroom.trans (Nat.add_le_add_right havail _), hs.short⟩

omit [DecidableEq ι] in
/-- With so few threads that all of them together cannot use up the threshold, every string finds
room. -/
theorem Room.fits (hN : lineMax * Fintype.card ι ≤ kfifoThresholdLen) (hs : Room text s) {i : ι}
    (hi : s.stage i = .ready) {l : α} (hl : l ∈ s.device.todo i) :
    (text l).length ≤ s.device.fifo.avail := by
  have hlen := hs.short i l hl
  have hroom := hs.room
  have hbusy : lineMax * ((busy s.stage).card + 1) ≤ lineMax * Fintype.card ι :=
    Nat.mul_le_mul_left _ (card_busy_lt hi)
  rw [Nat.mul_add] at hbusy
  omega

theorem Room.keeps (hN : lineMax * Fintype.card ι ≤ kfifoThresholdLen) (hs : Room text s)
    {a : Action ι} (h : step text s a = some t) (h0 : s.device.dropped = 0) :
    t.device.dropped = 0 := by
  cases step_does h with
  | write hi hd =>
    obtain ⟨l, rest, hl, rfl⟩ := Device.kfifoIn_eq_some hd
    have hfit := hs.fits hN hi (l := l) (by simp [hl])
    simp only [Device.put, h0]
    omega
  | block => exact h0
  | goOn => exact h0
  | read => exact h0

/-- With one or two threads nothing is ever dropped. -/
theorem dropped_eq_zero (hN : lineMax * Fintype.card ι ≤ kfifoThresholdLen)
    {program : ι → List α} (hshort : ∀ i, ∀ l ∈ program i, (text l).length ≤ lineMax)
    {as : List (Action ι)} (h : Lib.run (step text) (init program) as = some t) :
    t.device.dropped = 0 := by
  have hstep : ∀ s a u, Room text s ∧ s.device.dropped = 0 → step text s a = some u →
      Room text u ∧ u.device.dropped = 0 := fun s a u hs hu =>
    ⟨room_step hs.1 hu, hs.1.keeps hN hu hs.2⟩
  exact (Lib.run_invariant hstep ⟨room_init hshort, rfl⟩ h).2

end Squint.Kernel.Backpressure
