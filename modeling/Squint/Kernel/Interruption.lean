import Squint.Kernel.Overflow

/-! Signals and the back-pressure of `kfifo_kernel_evaluation`. A signal ends
`wait_event_interruptible` before there is room, and `squint_fifo_write` does not look at what it
returned. -/
namespace Squint.Kernel.Interruption

open Lib (run Along)
open Evaluation (Stage Reader)

/-- The module, and for which threads a signal is pending. -/
structure State (ι α : Type) where
  base : Evaluation.State ι α
  pending : ι → Bool

/-- What the module does, a signal for a thread, or a thread's return to user mode, where the signal
is handled. -/
inductive Action (ι : Type) where
  | act (a : Evaluation.Action ι)
  | signal (i : ι)
  | handle (i : ι)
  deriving DecidableEq, Repr

variable {ι α : Type}

def init (program : ι → List α) : State ι α :=
  ⟨Evaluation.init program, fun _ => false⟩

variable [DecidableEq ι]

/-- `wait_event_interruptible` of thread `i` returns `-ERESTARTSYS`. -/
def Interrupted (s : State ι α) (i : ι) : Prop :=
  s.base.stage i = .waiting ∧ s.pending i = true ∧ s.base.device.fifo.avail ≤ kfifoThresholdLen

instance (s : State ι α) (i : ι) : Decidable (Interrupted s i) := by
  unfold Interrupted
  infer_instance

def State.moveTo (s : State ι α) (i : ι) (stage : Stage) : State ι α :=
  { s with base := { s.base with stage := Function.update s.base.stage i stage } }

def step (text : α → List Byte) (s : State ι α) : Action ι → Option (State ι α)
  | .act a =>
    match a with
    | .waitEvent i =>
      if Interrupted s i then some (s.moveTo i .ready)
      else (Evaluation.step text s.base (.waitEvent i)).map fun t => { s with base := t }
    | a => (Evaluation.step text s.base a).map fun t => { s with base := t }
  -- Who sleeps on `wq` looks at the condition and then at its signals.
  | .signal i =>
    some { s.moveTo i (s.base.stage i).wake with pending := Function.update s.pending i true }
  | .handle i =>
    if s.base.stage i = .ready then some { s with pending := Function.update s.pending i false }
    else none

inductive Does (text : α → List Byte) (s : State ι α) : Action ι → State ι α → Prop
  | act {a t} (h : Evaluation.step text s.base a = some t) :
      Does text s (.act a) { s with base := t }
  | interrupt {i} (h : Interrupted s i) : Does text s (.act (.waitEvent i)) (s.moveTo i .ready)
  | signal (i : ι) :
      Does text s (.signal i)
        { s.moveTo i (s.base.stage i).wake with pending := Function.update s.pending i true }
  | handle {i} (h : s.base.stage i = .ready) :
      Does text s (.handle i) { s with pending := Function.update s.pending i false }

section
variable {text : α → List Byte} {s t : State ι α} {a : Action ι}

theorem step_act_of_not {b : Evaluation.Action ι} (hb : ∀ i, b = .waitEvent i → ¬ Interrupted s i) :
    step text s (.act b) =
      (Evaluation.step text s.base b).map fun t => { s with base := t } := by
  cases b with
  | waitEvent i => exact if_neg (hb i rfl)
  | _ => rfl

theorem step_does (h : step text s a = some t) : Does text s a t := by
  cases a with
  | act b =>
    by_cases hb : ∀ i, b = .waitEvent i → ¬ Interrupted s i
    · rw [step_act_of_not hb] at h
      obtain ⟨u, hu, rfl⟩ := Option.map_eq_some_iff.mp h
      exact .act hu
    · push Not at hb
      obtain ⟨i, rfl, hi⟩ := hb
      have hready : step text s (.act (.waitEvent i)) = some (s.moveTo i .ready) := if_pos hi
      obtain rfl := Option.some.inj (hready.symm.trans h)
      exact .interrupt hi
  | signal i =>
    obtain rfl := Option.some.inj h
    exact .signal i
  | handle i =>
    simp only [step, Option.ite_none_right_eq_some, Option.some.injEq] at h
    obtain ⟨hi, rfl⟩ := h
    exact .handle hi

/-- Without signals this is the module as it was. -/
theorem run_act {b : Evaluation.State ι α} {as : List (Evaluation.Action ι)}
    (hs : ∀ i, s.pending i = false) (h : run (Evaluation.step text) s.base as = some b) :
    run (step text) s (as.map .act) = some { s with base := b } := by
  induction as generalizing s with
  | nil =>
    obtain rfl : s.base = b := by simpa using h
    rfl
  | cons a as ih =>
    obtain ⟨u, hu, hrest⟩ := Lib.run_cons.mp h
    refine Lib.run_cons.mpr ⟨{ s with base := u }, ?_, ih hs hrest⟩
    have hnot : ∀ i, a = .waitEvent i → ¬ Interrupted s i := by
      intro i _ hi
      have hpending := hi.2.1
      simp [hs i] at hpending
    rw [step_act_of_not hnot, hu]
    rfl

end

/-! ## A single writer -/

/-- A wait is interrupted only when there is room for what the thread writes next. -/
def LeavesNext (text : α → List Byte) (s : State ι α) : Action ι → Prop
  | .act (.waitEvent i) => Interrupted s i → ∀ l ∈ (s.base.device.todo i).head?,
      (text l).length ≤ s.base.device.fifo.avail
  | _ => True

instance (text : α → List Byte) (s : State ι α) (a : Action ι) :
    Decidable (LeavesNext text s a) := by
  unfold LeavesNext
  split <;> infer_instance

/-- Nothing is lost so far, and the writer has room for the next string when it comes to it. -/
structure Kept (text : α → List Byte) (b : Evaluation.State Unit α) : Prop where
  short : ∀ l ∈ b.device.todo (), (text l).length ≤ Backpressure.lineMax
  kept : b.device.dropped = 0
  room : b.stage () = .ready → ∀ l ∈ (b.device.todo ()).head?, (text l).length ≤ b.device.fifo.avail

section
variable {text : α → List Byte} {b c : Evaluation.State Unit α}

theorem Kept.of_threshold (h : Kept text b) (havail : kfifoThresholdLen ≤ b.device.fifo.avail) :
    ∀ l ∈ (b.device.todo ()).head?, (text l).length ≤ b.device.fifo.avail := by
  intro l hl
  have hlen := h.short l (List.mem_of_mem_head? hl)
  simp only [Backpressure.lineMax] at hlen
  simp only [kfifoThresholdLen] at havail
  omega

theorem Kept.moveTo (h : Kept text b) (stage : Unit → Stage)
    (hroom : stage () = .ready → ∀ l ∈ (b.device.todo ()).head?,
      (text l).length ≤ b.device.fifo.avail) : Kept text { b with stage := stage } :=
  ⟨h.short, h.kept, hroom⟩

theorem Kept.read (h : Kept text b) (count : ℕ) (reader : Reader) :
    Kept text { b with device := b.device.kfifoToUser count, reader := reader } := by
  refine ⟨h.short, h.kept, fun hready l hl => ?_⟩
  exact (h.room hready l hl).trans (Lib.BoundedQueue.avail_le_avail_pop _ _)

theorem Kept.write (h : Kept text b) {d : Device Unit α} (hready : b.stage () = .ready)
    (hd : b.device.kfifoIn text () = some d) :
    Kept text { b with device := d, stage := Function.update b.stage () .wrote } := by
  obtain ⟨l, rest, hl, rfl⟩ := Device.kfifoIn_eq_some hd
  have hfits := h.room hready l (by simp [hl])
  refine ⟨fun l' hl' => ?_, ?_, by simp⟩
  · apply h.short l'
    simp_all [Device.put]
  · have hkept := h.kept
    simp only [Device.put]
    omega

theorem Kept.act (h : Kept text b) {a : Evaluation.Action Unit}
    (hstep : Evaluation.step text b a = some c) : Kept text c := by
  cases Evaluation.step_does hstep with
  | write hready hd => exact h.write hready hd
  | enough _ hle => exact h.moveTo _ fun _ => h.of_threshold hle
  | goOn _ hlt => exact h.moveTo _ fun _ => h.of_threshold hlt.le
  | scarce => exact h.moveTo _ (by simp)
  | park => exact h.moveTo _ (by simp)
  | setAsleep => exact ⟨h.short, h.kept, by simp⟩
  | read => exact h.read _ _
  | awaited => exact ⟨h.short, h.kept, h.room⟩
  | done => exact ⟨h.short, h.kept, h.room⟩
  | clear => exact ⟨h.short, h.kept, h.room⟩
  | wake => exact ⟨h.short, h.kept, fun hready => h.room (Stage.wake_eq_ready.mp hready)⟩

theorem step_kept {s t : State Unit α} {a : Action Unit} (hs : Kept text s.base)
    (ha : LeavesNext text s a) (h : step text s a = some t) : Kept text t.base := by
  cases step_does h with
  | act hu => exact hs.act hu
  | interrupt hi => exact hs.moveTo _ fun _ => ha hi
  | signal i =>
    apply hs.moveTo
    intro hready
    rw [Function.update_self] at hready
    exact hs.room (Stage.wake_eq_ready.mp hready)
  | handle => exact hs

/-! ## Interrupted again and again -/

theorem update_unit {β : Type} (f : Unit → β) (v : β) : Function.update f () v = fun _ => v :=
  Function.update_eq_const_of_subsingleton () v f

/-- The state of a writer that has a signal pending and is about to write. -/
def signalled (d : Device Unit α) (asleep : Bool) (reader : Reader) : State Unit α :=
  ⟨⟨d, fun _ => .ready, asleep, reader⟩, fun _ => true⟩

def stopped (d : Device Unit α) (reader : Reader) : State Unit α :=
  ⟨⟨d, fun _ => .waiting, true, reader⟩, fun _ => true⟩

theorem interrupted_stopped {d : Device Unit α} (h : d.fifo.avail < kfifoThresholdLen)
    (reader : Reader) : Interrupted (stopped d reader) () :=
  ⟨rfl, rfl, h.le⟩

/-- A write that leaves too little room, up to the wait. -/
def scarceWrite : List (Action Unit) :=
  [.act (.kfifoIn ()), .act (.testAvail ()), .act (.setAsleep ())]

theorem run_scarceWrite {d : Device Unit α} {l : α} {rest : List α} (hl : d.todo () = l :: rest)
    (hroom : (d.put text () l rest).fifo.avail < kfifoThresholdLen) (asleep : Bool)
    (reader : Reader) :
    run (step text) (signalled d asleep reader) scarceWrite =
      some (stopped (d.put text () l rest) reader) := by
  let at_ (stage : Stage) : State Unit α :=
    ⟨⟨d.put text () l rest, fun _ => stage, asleep, reader⟩, fun _ => true⟩
  have h₁ : step text (signalled d asleep reader) (.act (.kfifoIn ())) = some (at_ .wrote) := by
    simp [step, Evaluation.step, signalled, Device.kfifoIn, hl, at_, update_unit]
  have h₂ : step text (at_ .wrote) (.act (.testAvail ())) = some (at_ .sleepy) := by
    simp [step, Evaluation.step, hroom, at_, update_unit]
  have h₃ : step text (at_ .sleepy) (.act (.setAsleep ())) =
      some (stopped (d.put text () l rest) reader) := by
    simp [step, Evaluation.step, at_, stopped, update_unit]
  exact Lib.run_cons.mpr ⟨_, h₁, Lib.run_cons.mpr ⟨_, h₂, Lib.run_singleton.mpr h₃⟩⟩

theorem step_stopped {d : Device Unit α} (h : d.fifo.avail < kfifoThresholdLen) (reader : Reader) :
    step text (stopped d reader) (.act (.waitEvent ())) = some (signalled d true reader) := by
  have hready : step text (stopped d reader) (.act (.waitEvent ())) =
      some ((stopped d reader).moveTo () .ready) := if_pos (interrupted_stopped h reader)
  rw [hready]
  simp [State.moveTo, stopped, signalled, update_unit]

theorem avail_put (d : Device Unit α) (l : α) (rest : List α) :
    (d.put text () l rest).fifo.avail = d.fifo.avail - (text l).length :=
  Lib.BoundedQueue.avail_push _ _

/-- With a signal pending, a write that leaves too little room does not wait. -/
theorem run_interruptedWrite {d : Device Unit α} {l : α} {rest : List α}
    (hl : d.todo () = l :: rest) (hroom : d.fifo.avail < kfifoThresholdLen + (text l).length)
    (asleep : Bool) (reader : Reader) :
    run (step text) (signalled d asleep reader) (scarceWrite ++ [.act (.waitEvent ())]) =
        some (signalled (d.put text () l rest) true reader) := by
  have hscarce : (d.put text () l rest).fifo.avail < kfifoThresholdLen := by
    rw [avail_put]
    simp only [kfifoThresholdLen] at hroom ⊢
    omega
  exact Lib.run_append.mpr ⟨_, run_scarceWrite hl hscarce asleep reader,
    Lib.run_singleton.mpr (step_stopped hscarce reader)⟩

def interruptedWrites (k : ℕ) : List (Action Unit) :=
  (List.replicate k (scarceWrite ++ [.act (.waitEvent ())])).flatten

theorem interruptedWrites_succ (k : ℕ) :
    interruptedWrites (k + 1) = scarceWrite ++ [.act (.waitEvent ())] ++ interruptedWrites k := by
  simp [interruptedWrites, List.replicate_succ]

/-- So it writes on until the FIFO is full, and beyond. -/
theorem run_interrupted {l : α} {rest : List α} (k : ℕ) {d : Device Unit α}
    (htodo : d.todo () = List.replicate k l ++ rest)
    (hroom : d.fifo.avail < kfifoThresholdLen + (text l).length) (asleep : Bool) (reader : Reader) :
    ∃ d' asleep', run (step text) (signalled d asleep reader) (interruptedWrites k) =
        some (signalled d' asleep' reader) ∧
      d'.todo () = rest ∧ d'.fifo.avail = d.fifo.avail - k * (text l).length ∧
      d'.dropped = d.dropped + (k * (text l).length - d.fifo.avail) := by
  induction k generalizing d asleep with
  | zero => exact ⟨d, asleep, rfl, by simpa using htodo, by simp, by simp⟩
  | succ k ih =>
    have havail : (d.put text () l (List.replicate k l ++ rest)).fifo.avail =
        d.fifo.avail - (text l).length := avail_put d l _
    obtain ⟨d', asleep', hrun, htodo', havail', hdropped⟩ :=
      ih (d := d.put text () l (List.replicate k l ++ rest)) (by simp [Device.put]) (by omega) true
    refine ⟨d', asleep', ?_, htodo', ?_, ?_⟩
    · rw [interruptedWrites_succ]
      exact Lib.run_append.mpr ⟨_, run_interruptedWrite htodo hroom asleep reader, hrun⟩
    · rw [havail', havail, Nat.succ_mul]
      omega
    · rw [hdropped, havail, Nat.succ_mul]
      simp only [Device.put]
      omega

/-- Between two waits nothing is asked of the writer. -/
theorem leavesNext_of_forall {s : State Unit α} {as : List (Action Unit)}
    (h : ∀ a ∈ as, a ≠ .act (.waitEvent ())) : Along (LeavesNext text) (step text) s as := by
  refine Along.of_forall (fun _ a ha => ?_) h
  match a with
  | .act (.waitEvent ()) => exact absurd rfl ha
  | .act (.kfifoIn _) | .act (.testAvail _) | .act (.setAsleep _) | .act (.kfifoToUser _)
  | .act .testAsleep | .act .clearAsleep | .act .wakeUp | .signal _ | .handle _ => trivial

theorem leavesNext_scarceWrite {s : State Unit α} :
    Along (LeavesNext text) (step text) s scarceWrite :=
  leavesNext_of_forall (by simp [scarceWrite])

/-- Nothing is asked of interrupted waits either while the same string fits once more. -/
theorem leavesNext_interruptedWrites {l : α} {rest : List α} (k : ℕ) {d : Device Unit α}
    (htodo : d.todo () = List.replicate k l ++ l :: rest)
    (hroom : d.fifo.avail < kfifoThresholdLen + (text l).length)
    (hfits : (k + 1) * (text l).length ≤ d.fifo.avail) (asleep : Bool) (reader : Reader) :
    Along (LeavesNext text) (step text) (signalled d asleep reader) (interruptedWrites k) := by
  induction k generalizing d asleep with
  | zero => trivial
  | succ k ih =>
    let d₁ := d.put text () l (List.replicate k l ++ l :: rest)
    have havail : d₁.fifo.avail = d.fifo.avail - (text l).length := avail_put d l _
    have hnext : (d₁.todo ()).head? = some l := by
      cases k <;> simp [d₁, Device.put, List.replicate_succ]
    have hlen : (k + 1) * (text l).length ≤ d₁.fifo.avail := by
      rw [Nat.succ_mul] at hfits
      omega
    have hscarce : d₁.fifo.avail < kfifoThresholdLen := by
      simp only [kfifoThresholdLen] at hroom ⊢
      omega
    have hwait : LeavesNext text (stopped d₁ reader) (.act (.waitEvent ())) := by
      intro _ l' hl'
      obtain rfl : l = l' := Option.some.inj (hnext.symm.trans hl')
      exact (Nat.le_mul_of_pos_left _ k.succ_pos).trans hlen
    rw [interruptedWrites_succ, List.append_assoc]
    refine Along.append (run_scarceWrite htodo hscarce asleep reader) leavesNext_scarceWrite ?_
    refine Along.cons hwait (step_stopped hscarce reader) ?_
    exact ih (by simp [d₁, Device.put]) (by omega) hlen true

def fillThenSignal : List (Action Unit) := (Evaluation.fill () 79).map .act ++ [.signal ()]

theorem run_fillThenSignal (rest : List (List Byte)) :
    ∃ d, run (step id) (init fun _ => List.replicate 79 longLine ++ rest) fillThenSignal =
        some (signalled d false .idle) ∧ d.todo () = rest ∧ d.fifo.avail = 663 := by
  have hempty := Device.avail_init fun _ : Unit => List.replicate 79 longLine ++ rest
  obtain ⟨d, h, htodo, havail⟩ := Evaluation.run_fill id (i := ()) (fun _ => .ready) rfl false .idle
    79 (Device.init fun _ : Unit => List.replicate 79 longLine ++ rest) rfl
    (by rw [hempty, id, longLine_length]; decide)
  rw [hempty, id, longLine_length] at havail
  have hsignal : step id (⟨⟨d, fun _ => .ready, false, .idle⟩, fun _ => false⟩) (.signal ()) =
      some (signalled d false .idle) := by
    simp [step, State.moveTo, signalled, Stage.wake, update_unit]
  refine ⟨d, ?_, by rw [htodo, Function.update_self], havail⟩
  exact Lib.run_append.mpr ⟨_, run_act (fun _ => rfl) h, Lib.run_singleton.mpr hsignal⟩

theorem fillThenSignal_no_wait : ∀ a ∈ fillThenSignal, a ≠ .act (.waitEvent ()) := by
  intro a ha
  rcases List.mem_append.mp ha with ha | ha
  · obtain ⟨b, hb, rfl⟩ := List.mem_map.mp ha
    rcases Evaluation.mem_fill hb with rfl | rfl <;> simp
  · rw [List.mem_singleton.mp ha]
    simp

def shortLine : List Byte := List.replicate 66 0x61

theorem shortLine_length : shortLine.length = 66 := List.length_replicate

/-- A single writer loses nothing as long as each wait that a signal ends finds room for the next
string. -/
theorem dropped_eq_zero_of_leavesNext {program : List α}
    (hshort : ∀ l ∈ program, (text l).length ≤ 199) {as : List (Action Unit)} {s : State Unit α}
    (halong : Along (LeavesNext text) (step text) (init fun _ => program) as)
    (h : run (step text) (init fun _ => program) as = some s) : s.base.device.dropped = 0 := by
  have hinit : Kept text (init fun _ : Unit => program).base := by
    refine ⟨hshort, rfl, fun _ l hl => ?_⟩
    have hlen := hshort l (List.mem_of_mem_head? hl)
    show (text l).length ≤ (Device.init fun _ : Unit => program).fifo.avail
    rw [Device.avail_init, kfifoLen]
    omega
  exact (halong.invariant (fun _ _ _ hs ha hu => step_kept hs ha hu) hinit h).kept

end

/-- A signal after the 79th of 83 strings, and no read: the waits after the next three strings are
interrupted, the last of them with just enough room for the short string that follows. -/
theorem interruptedRun_kept : ∃ as bs, ∃ u s : State Unit (List Byte),
    run (step id) (init fun _ => List.replicate 82 longLine ++ [shortLine]) as = some u ∧
      Interrupted u () ∧ run (step id) u (.act (.waitEvent ()) :: bs) = some s ∧
      s.base.device.todo () = [] ∧ s.base.device.dropped = 0 := by
  have hlong : (id longLine).length = 199 := longLine_length
  obtain ⟨d₁, h₁, htodo₁, hroom₁⟩ :=
    run_fillThenSignal (List.replicate 2 longLine ++ longLine :: [shortLine])
  have hroom : d₁.fifo.avail < kfifoThresholdLen + (id longLine).length := by
    rw [hroom₁, hlong]
    decide
  obtain ⟨d₂, asleep, h₂, htodo₂, havail₂, -⟩ := run_interrupted 2 htodo₁ hroom false .idle
  have halong₂ := leavesNext_interruptedWrites 2 htodo₁ hroom (by omega) false .idle
  have havail₃ : (d₂.put id () longLine [shortLine]).fifo.avail = 66 := by
    rw [avail_put, havail₂, hlong, hroom₁]
  have hscarce : (d₂.put id () longLine [shortLine]).fifo.avail < kfifoThresholdLen := by
    rw [havail₃]
    decide
  have h₃ := run_scarceWrite htodo₂ hscarce asleep .idle
  have h₄ : step id (stopped (d₂.put id () longLine [shortLine]) .idle) (.act (.waitEvent ())) =
      some (signalled (d₂.put id () longLine [shortLine]) true .idle) := step_stopped hscarce .idle
  have hwait : LeavesNext id (stopped (d₂.put id () longLine [shortLine]) .idle)
      (.act (.waitEvent ())) := by
    intro _ l hl
    obtain rfl : shortLine = l := by simpa [stopped, Device.put] using hl
    exact (shortLine_length.trans havail₃.symm).le
  obtain ⟨s, h₅, htodo₅⟩ : ∃ s,
      step id (signalled (d₂.put id () longLine [shortLine]) true .idle) (.act (.kfifoIn ())) =
        some s ∧
        s.base.device.todo () = [] := by
    simp [step, Evaluation.step, signalled, Device.kfifoIn, Device.put]
  have hbefore := Lib.run_append.mpr ⟨_, h₁, Lib.run_append.mpr ⟨_, h₂, h₃⟩⟩
  have hafter : run (step id) (stopped (d₂.put id () longLine [shortLine]) .idle)
      [.act (.waitEvent ()), .act (.kfifoIn ())] = some s :=
    Lib.run_cons.mpr ⟨_, h₄, Lib.run_singleton.mpr h₅⟩
  have hlast : Along (LeavesNext id) (step id)
      (signalled (d₂.put id () longLine [shortLine]) true .idle) [.act (.kfifoIn ())] :=
    leavesNext_of_forall (by simp)
  have halong := Along.append hbefore
    (Along.append h₁ (leavesNext_of_forall fillThenSignal_no_wait)
      (Along.append h₂ halong₂ leavesNext_scarceWrite))
    (Along.cons hwait h₄ hlast)
  have hshort : ∀ l ∈ List.replicate 82 longLine ++ [shortLine], (id l).length ≤ 199 := by
    intro l hl
    rcases List.mem_append.mp hl with hl | hl
    · rw [List.eq_of_mem_replicate hl, hlong]
    · rw [List.mem_singleton.mp hl, id, shortLine_length]
      decide
  exact ⟨_, _, _, s, hbefore, interrupted_stopped hscarce _, hafter, htodo₅,
    dropped_eq_zero_of_leavesNext hshort halong (Lib.run_append.mpr ⟨_, hbefore, hafter⟩)⟩

/-- 83 strings of 199 bytes, a signal after the 79th of them, and no read. -/
theorem interrupted_drops : ∃ as, ∃ s : State Unit (List Byte),
    run (step id) (init fun _ => List.replicate 83 longLine) as = some s ∧
      (∀ l ∈ List.replicate 83 longLine, (id l).length ≤ 199) ∧ 0 < s.base.device.dropped := by
  obtain ⟨d, h, htodo, hroom⟩ := run_fillThenSignal (List.replicate 4 longLine ++ [])
  have hscarce : d.fifo.avail < kfifoThresholdLen + (id longLine).length := by
    rw [hroom, id, longLine_length]
    decide
  obtain ⟨d', asleep, hrun, -, -, hdropped⟩ := run_interrupted 4 htodo hscarce false .idle
  refine ⟨_, _, Lib.run_append.mpr ⟨_, h, hrun⟩, ?_, ?_⟩
  · intro l hl
    rw [List.eq_of_mem_replicate hl, id, longLine_length]
  · rw [signalled, hdropped, hroom, id, longLine_length]
    omega

end Squint.Kernel.Interruption
