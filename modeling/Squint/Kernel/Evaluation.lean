import Squint.Kernel.Backpressure

/-! The module of `kfifo_kernel_evaluation`, one memory access at a time: the flag `asleep`, the
wait queue, and a reader that clears the one before it wakes the other. -/
namespace Squint.Kernel.Evaluation

/-- Where a thread stands in `squint_fifo_write`: before `kfifo_in`, before the test of
`kfifo_avail`, before `asleep = 1`, before the condition of `wait_event_interruptible`, or asleep
on `wq`. -/
inductive Stage where
  | ready
  | wrote
  | sleepy
  | waiting
  | parked
  deriving DecidableEq, Repr

/-- Where the reader stands in `SquintDeviceRead`: between two reads, before the test of `asleep`,
before `asleep = 0`, or before `wake_up_interruptible`. -/
inductive Reader where
  | idle
  | removed
  | clearing
  | waking
  deriving DecidableEq, Repr

structure State (ι α : Type) where
  device : Device ι α
  stage : ι → Stage
  asleep : Bool
  reader : Reader

inductive Action (ι : Type) where
  | kfifoIn (i : ι)
  | testAvail (i : ι)
  | setAsleep (i : ι)
  | waitEvent (i : ι)
  | kfifoToUser (count : ℕ)
  | testAsleep
  | clearAsleep
  | wakeUp
  deriving DecidableEq, Repr

variable {ι α : Type}

def init (program : ι → List α) : State ι α := ⟨.init program, fun _ => .ready, false, .idle⟩

/-- `wake_up_interruptible`: who sleeps on `wq` goes back to the condition. -/
def Stage.wake : Stage → Stage
  | .parked => .waiting
  | stage => stage

theorem Stage.wake_eq_ready {stage : Stage} : stage.wake = .ready ↔ stage = .ready := by
  cases stage <;> simp [wake]

variable [DecidableEq ι]

def step (text : α → List Byte) (s : State ι α) : Action ι → Option (State ι α)
  | .kfifoIn i =>
    if s.stage i = .ready then
      (s.device.kfifoIn text i).map fun d =>
        { s with device := d, stage := Function.update s.stage i .wrote }
    else none
  | .testAvail i =>
    if s.stage i = .wrote then
      if s.device.fifo.avail < kfifoThresholdLen then
        some { s with stage := Function.update s.stage i .sleepy }
      else some { s with stage := Function.update s.stage i .ready }
    else none
  | .setAsleep i =>
    if s.stage i = .sleepy then
      some { s with asleep := true, stage := Function.update s.stage i .waiting }
    else none
  | .waitEvent i =>
    if s.stage i = .waiting then
      if kfifoThresholdLen < s.device.fifo.avail then
        some { s with stage := Function.update s.stage i .ready }
      else some { s with stage := Function.update s.stage i .parked }
    else none
  | .kfifoToUser count =>
    if s.reader = .idle then
      some { s with device := s.device.kfifoToUser count, reader := .removed }
    else none
  | .testAsleep =>
    if s.reader = .removed then
      if s.asleep = true ∧ kfifoThresholdLen < s.device.fifo.avail then
        some { s with reader := .clearing }
      else some { s with reader := .idle }
    else none
  | .clearAsleep =>
    if s.reader = .clearing then some { s with asleep := false, reader := .waking } else none
  | .wakeUp =>
    if s.reader = .waking then some { s with stage := Stage.wake ∘ s.stage, reader := .idle }
    else none

inductive Does (text : α → List Byte) (s : State ι α) : Action ι → State ι α → Prop
  | write {i d} (hi : s.stage i = .ready) (h : s.device.kfifoIn text i = some d) :
      Does text s (.kfifoIn i) { s with device := d, stage := Function.update s.stage i .wrote }
  | enough {i} (hi : s.stage i = .wrote) (h : kfifoThresholdLen ≤ s.device.fifo.avail) :
      Does text s (.testAvail i) { s with stage := Function.update s.stage i .ready }
  | scarce {i} (hi : s.stage i = .wrote) (h : s.device.fifo.avail < kfifoThresholdLen) :
      Does text s (.testAvail i) { s with stage := Function.update s.stage i .sleepy }
  | setAsleep {i} (hi : s.stage i = .sleepy) :
      Does text s (.setAsleep i)
        { s with asleep := true, stage := Function.update s.stage i .waiting }
  | goOn {i} (hi : s.stage i = .waiting) (h : kfifoThresholdLen < s.device.fifo.avail) :
      Does text s (.waitEvent i) { s with stage := Function.update s.stage i .ready }
  | park {i} (hi : s.stage i = .waiting) (h : s.device.fifo.avail ≤ kfifoThresholdLen) :
      Does text s (.waitEvent i) { s with stage := Function.update s.stage i .parked }
  | read {count} (hr : s.reader = .idle) :
      Does text s (.kfifoToUser count)
        { s with device := s.device.kfifoToUser count, reader := .removed }
  | awaited (hr : s.reader = .removed) (ha : s.asleep = true)
      (h : kfifoThresholdLen < s.device.fifo.avail) :
      Does text s .testAsleep { s with reader := .clearing }
  | done (hr : s.reader = .removed) : Does text s .testAsleep { s with reader := .idle }
  | clear (hr : s.reader = .clearing) :
      Does text s .clearAsleep { s with asleep := false, reader := .waking }
  | wake (hr : s.reader = .waking) :
      Does text s .wakeUp { s with stage := Stage.wake ∘ s.stage, reader := .idle }

section
variable {text : α → List Byte} {s t : State ι α} {a : Action ι}

theorem step_does (h : step text s a = some t) : Does text s a t := by
  cases a with
  | kfifoIn i =>
    simp only [step, Option.ite_none_right_eq_some, Option.map_eq_some_iff] at h
    obtain ⟨hi, d, hd, rfl⟩ := h
    exact .write hi hd
  | testAvail i =>
    simp only [step] at h
    split_ifs at h with hi hlt <;> obtain rfl := Option.some.inj h
    · exact .scarce hi hlt
    · exact .enough hi (by omega)
  | setAsleep i =>
    simp only [step, Option.ite_none_right_eq_some, Option.some.injEq] at h
    obtain ⟨hi, rfl⟩ := h
    exact .setAsleep hi
  | waitEvent i =>
    simp only [step] at h
    split_ifs at h with hi hlt <;> obtain rfl := Option.some.inj h
    · exact .goOn hi hlt
    · exact .park hi (by omega)
  | kfifoToUser count =>
    simp only [step, Option.ite_none_right_eq_some, Option.some.injEq] at h
    obtain ⟨hr, rfl⟩ := h
    exact .read hr
  | testAsleep =>
    simp only [step] at h
    split_ifs at h with hr hc <;> obtain rfl := Option.some.inj h
    · exact .awaited hr hc.1 hc.2
    · exact .done hr
  | clearAsleep =>
    simp only [step, Option.ite_none_right_eq_some, Option.some.injEq] at h
    obtain ⟨hr, rfl⟩ := h
    exact .clear hr
  | wakeUp =>
    simp only [step, Option.ite_none_right_eq_some, Option.some.injEq] at h
    obtain ⟨hr, rfl⟩ := h
    exact .wake hr

theorem step_moves (h : step text s a = some t) : Moves text s.device t.device := by
  cases step_does h with
  | write _ hd => exact .write hd
  | read => exact .read _
  | _ => exact .stay

/-! ## Refinement of the back-pressure model -/

def Stage.abstract : Stage → Backpressure.Stage
  | .ready => .ready
  | .wrote => .wrote
  | .sleepy | .waiting | .parked => .blocked

def State.abstract (s : State ι α) : Backpressure.State ι α :=
  ⟨s.device, Stage.abstract ∘ s.stage⟩

omit [DecidableEq ι] in
/-- Waking a thread lets it look again; the back-pressure model does not see it. -/
theorem abstract_wake (stage : ι → Stage) :
    Stage.abstract ∘ Stage.wake ∘ stage = Stage.abstract ∘ stage := by
  funext i
  cases h : stage i <;> simp [h, Stage.wake, Stage.abstract]

theorem abstract_update_blocked {stage : ι → Stage} {i : ι} {v : Stage}
    (hv : v.abstract = .blocked) (hi : (stage i).abstract = .blocked) :
    Stage.abstract ∘ Function.update stage i v = Stage.abstract ∘ stage := by
  rw [Function.comp_update, hv, ← hi]
  exact Function.update_eq_self i (Stage.abstract ∘ stage)

/-- Every step of the module is a step of the back-pressure model, or none. -/
theorem step_refines (h : step text s a = some t) :
    ∃ as, Lib.run (Backpressure.step text) s.abstract as = some t.abstract := by
  cases step_does h with
  | @write i d hi hd =>
    refine ⟨[.kfifoIn i], Lib.run_singleton.mpr ?_⟩
    simp [Backpressure.step, State.abstract, hi, hd, Stage.abstract, Function.comp_update]
  | @enough i hi hle =>
    refine ⟨[.testAvail i], Lib.run_singleton.mpr ?_⟩
    simp [Backpressure.step, State.abstract, hi, Stage.abstract, Function.comp_update, hle.not_gt]
  | @scarce i hi hlt =>
    refine ⟨[.testAvail i], Lib.run_singleton.mpr ?_⟩
    simp [Backpressure.step, State.abstract, hi, Stage.abstract, Function.comp_update, hlt]
  | setAsleep hi =>
    refine ⟨[], ?_⟩
    rw [Lib.run_nil, State.abstract, State.abstract, abstract_update_blocked rfl (hi ▸ rfl)]
  | @goOn i hi hlt =>
    refine ⟨[.resume i], Lib.run_singleton.mpr ?_⟩
    simp [Backpressure.step, State.abstract, hi, Stage.abstract, Function.comp_update, hlt]
  | park hi =>
    refine ⟨[], ?_⟩
    rw [Lib.run_nil, State.abstract, State.abstract, abstract_update_blocked rfl (hi ▸ rfl)]
  | @read count hr => exact ⟨[.read count], rfl⟩
  | awaited => exact ⟨[], rfl⟩
  | done => exact ⟨[], rfl⟩
  | clear => exact ⟨[], rfl⟩
  | wake =>
    refine ⟨[], ?_⟩
    rw [Lib.run_nil, State.abstract, State.abstract, abstract_wake]

end

section
variable {text : α → List Byte} {program : ι → List α} {as : List (Action ι)} {t : State ι α}

theorem run_refines (h : Lib.run (step text) (init program) as = some t) :
    ∃ bs, Lib.run (Backpressure.step text) (Backpressure.init program) bs = some t.abstract :=
  Lib.run_simulation (fun _ _ _ => step_refines) h

theorem dropped_eq_zero [Fintype ι]
    (hN : Backpressure.lineMax * Fintype.card ι ≤ kfifoThresholdLen)
    (hshort : ∀ i, ∀ l ∈ program i, (text l).length ≤ Backpressure.lineMax)
    (h : Lib.run (step text) (init program) as = some t) : t.device.dropped = 0 := by
  obtain ⟨bs, hbs⟩ := run_refines h
  exact Backpressure.dropped_eq_zero hN hshort hbs

theorem run_consistent (h : Lib.run (step text) (init program) as = some t) :
    t.device.Consistent text program :=
  Lib.run_invariant (I := fun s => s.device.Consistent text program)
    (fun _ _ _ hs hu => hs.moves (step_moves hu)) (Device.consistent_init text program) h

end

end Squint.Kernel.Evaluation
