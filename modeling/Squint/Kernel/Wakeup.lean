import Squint.Kernel.Overflow

/-! Lost wake-ups. `asleep` is set before a writer looks whether it must sleep and cleared before
the sleepers are woken, so a writer can go to sleep without the flag. -/
namespace Squint.Kernel.Evaluation

open Lib (run Along)

variable {ι α : Type}

/-- A writer sleeps, and no read will wake it: the reader has finished its last read, and the next
one finds `asleep` cleared. -/
def LostWakeUp (s : State ι α) : Prop :=
  s.reader = .idle ∧ s.asleep = false ∧ ∃ i, s.stage i = .parked

/-- A wake-up is under way: the reader has seen `asleep` and has not yet woken anyone, or a woken
writer has not yet looked how much room there is. -/
def WakingUp (s : State ι α) : Prop :=
  s.reader = .clearing ∨ s.reader = .waking ∨ s.asleep = false ∧ ∃ i, s.stage i = .waiting

/-- A string written during a wake-up leaves more than 500 bytes free. -/
def LeavesRoom (text : α → List Byte) (s : State ι α) : Action ι → Prop
  | .kfifoIn i => WakingUp s → ∀ l ∈ (s.device.todo i).head?,
      kfifoThresholdLen + (text l).length < s.device.fifo.avail
  | _ => True

/-- During a wake-up there is room, and nobody sleeps unless the flag says so or is about to be
woken. -/
structure Watched (s : State ι α) : Prop where
  room : WakingUp s → kfifoThresholdLen < s.device.fifo.avail
  flagged : (∃ i, s.stage i = .parked) → s.asleep = true ∨ s.reader = .waking

theorem Watched.not_lost {s : State ι α} (h : Watched s) : ¬ LostWakeUp s := by
  rintro ⟨hr, ha, hp⟩
  rcases h.flagged hp with ha' | hr'
  · simp [ha] at ha'
  · simp [hr] at hr'

theorem watched_init (program : ι → List α) : Watched (init program) := by
  constructor <;> simp [init, WakingUp]

variable [DecidableEq ι]

theorem exists_of_update {stage : ι → Stage} {i : ι} {v w : Stage} (hv : v ≠ w)
    (h : ∃ j, Function.update stage i v j = w) : ∃ j, stage j = w := by
  obtain ⟨j, hj⟩ := h
  rw [Function.update_apply] at hj
  split_ifs at hj with hji
  · exact absurd hj hv
  · exact ⟨j, hj⟩

variable {text : α → List Byte} {s t : State ι α}

theorem Watched.update (h : Watched s) (i : ι) {v : Stage} (hw : v ≠ .waiting) (hp : v ≠ .parked) :
    Watched { s with stage := Function.update s.stage i v } where
  room hc := h.room (hc.imp_right (Or.imp_right (And.imp_right (exists_of_update hw))))
  flagged hc := h.flagged (exists_of_update hp hc)

theorem Watched.step {a : Action ι} (hs : Watched s) (hleaves : LeavesRoom text s a)
    (h : step text s a = some t) : Watched t := by
  cases step_does h with
  | @write i _ _ hd =>
    obtain ⟨l, rest, hl, rfl⟩ := Device.kfifoIn_eq_some hd
    have hup := hs.update i (v := .wrote) (by decide) (by decide)
    refine ⟨fun hc => ?_, hup.flagged⟩
    have hc' : WakingUp s :=
      hc.imp_right (Or.imp_right (And.imp_right (exists_of_update (by decide))))
    have hleft := hleaves hc' l (by simp [hl])
    simp only [Device.put, Lib.BoundedQueue.avail_push]
    omega
  | @enough i => exact hs.update i (by decide) (by decide)
  | @scarce i => exact hs.update i (by decide) (by decide)
  | setAsleep =>
    refine ⟨fun hc => hs.room ?_, fun _ => .inl rfl⟩
    rcases hc with hc | hc | ⟨hc, -⟩
    · exact .inl hc
    · exact .inr (.inl hc)
    · cases hc
  | @goOn i => exact hs.update i (by decide) (by decide)
  | @park i hi hle =>
    -- with the flag cleared, a writer that still has to look finds room
    have hflag : s.asleep = true := by
      by_contra hf
      have hroom := hs.room (.inr (.inr ⟨by simpa using hf, i, hi⟩))
      omega
    refine ⟨fun hc => hs.room ?_, fun _ => .inl hflag⟩
    exact hc.imp_right (Or.imp_right (And.imp_right (exists_of_update (by decide))))
  | @read count hr =>
    refine ⟨fun hc => ?_, fun hp => .inl ?_⟩
    · have hroom : kfifoThresholdLen < s.device.fifo.avail := by
        rcases hc with hc | hc | hc
        · cases hc
        · cases hc
        · exact hs.room (.inr (.inr hc))
      exact hroom.trans_le (s.device.fifo.avail_le_avail_pop count)
    · exact (hs.flagged hp).resolve_right (by simp [hr])
  | awaited hr ha hlt => exact ⟨fun _ => hlt, fun _ => .inl ha⟩
  | done hr =>
    refine ⟨fun hc => ?_, fun hp => .inl ?_⟩
    · rcases hc with hc | hc | hc
      · cases hc
      · cases hc
      · exact hs.room (.inr (.inr hc))
    · exact (hs.flagged hp).resolve_right (by simp [hr])
  | clear hr => exact ⟨fun _ => hs.room (.inl hr), fun _ => .inr rfl⟩
  | wake hr =>
    refine ⟨fun _ => hs.room (.inr (.inl hr)), ?_⟩
    rintro ⟨i, hi⟩
    cases hst : s.stage i <;> simp [hst, Stage.wake] at hi

/-! ## A writer that is woken -/

def Calm (s : State ι α) : Prop := s.reader = .idle ∧ ∀ i, s.stage i ≠ .waiting

omit [DecidableEq ι] in
theorem Calm.not_wakingUp (h : Calm s) : ¬ WakingUp s := by
  rintro (hr | hr | ⟨-, i, hi⟩)
  · simp [h.1] at hr
  · simp [h.1] at hr
  · exact h.2 i hi

theorem fill_leavesRoom (hs : Calm s) (i : ι) (k : ℕ) :
    Along (LeavesRoom text) (Evaluation.step text) s (fill i k) := by
  apply Along.of_invariant (I := Calm) (Q := fun a => a = .kfifoIn i ∨ a = .testAvail i)
  · rintro s a hs (rfl | rfl)
    · exact fun hwaking => absurd hwaking hs.not_wakingUp
    · trivial
  · intro s a t hs ha ht
    have hmove : ∀ v, v ≠ .waiting → ∀ j, Function.update s.stage i v j ≠ .waiting :=
      fun v hv j hj => (exists_of_update hv ⟨j, hj⟩).elim hs.2
    rcases ha with rfl | rfl
    · cases step_does ht with
      | write => exact ⟨hs.1, hmove _ (by decide)⟩
    · cases step_does ht with
      | enough => exact ⟨hs.1, hmove _ (by decide)⟩
      | scarce => exact ⟨hs.1, hmove _ (by decide)⟩
  · exact hs
  · exact fun a ha => mem_fill ha

theorem avail_read_put {d : Device ι (List Byte)} (hroom : d.fifo.avail = 663) (i : ι)
    (rest : List (List Byte)) :
    (d.put id i longLine rest).fifo.avail = 464 ∧
      ((d.put id i longLine rest).kfifoToUser 1000).fifo.avail = 1464 := by
  have hput : (d.put id i longLine rest).fifo.avail = 464 := by
    simp only [Device.put, Lib.BoundedQueue.avail_push, id, longLine_length, hroom]
  have hlen : 1000 ≤ (d.put id i longLine rest).fifo.items.length := by
    simp only [Lib.BoundedQueue.avail, kfifoLen] at hput
    omega
  exact ⟨hput, by rw [Device.kfifoToUser, Lib.BoundedQueue.avail_pop _ hlen, hput]⟩

theorem leavesRoom_kfifoIn {i : ι} {as : List (Action ι)} (hi : LeavesRoom text s (.kfifoIn i))
    (has : ∀ a ∈ as, ∀ j, a ≠ .kfifoIn j) :
    Along (LeavesRoom text) (Evaluation.step text) s (.kfifoIn i :: as) := by
  refine ⟨hi, fun _ _ => Along.of_forall (Q := fun a => ∀ j, a ≠ .kfifoIn j) ?_ has⟩
  intro _ a ha
  cases a with
  | kfifoIn j => exact absurd rfl (ha j)
  | _ => trivial

def twoWriters : Bool → List (List Byte)
  | true => List.replicate 80 longLine
  | false => [longLine]

/-- The first writer sleeps, and the reader has made room and is about to wake it. -/
def aboutToWake (d : Device Bool (List Byte)) : State Bool (List Byte) :=
  ⟨d, Function.update (fun _ => .ready) true .parked, true, .clearing⟩

theorem run_to_parked {d : Device Bool (List Byte)} (htodo : d.todo true = [longLine])
    (hroom : d.fifo.avail = 663) :
    ∃ d', run (step id) ⟨d, fun _ => .ready, false, .idle⟩
        [.kfifoIn true, .testAvail true, .setAsleep true, .waitEvent true, .kfifoToUser 1000,
          .testAsleep] = some (aboutToWake d') ∧
      d'.todo false = d.todo false ∧ d'.fifo.avail = 1464 := by
  obtain ⟨h₁, h₂⟩ := avail_read_put hroom true []
  refine ⟨(d.put id true longLine []).kfifoToUser 1000, ?_, ?_, h₂⟩
  · simp [Lib.run_cons, step, Device.kfifoIn, htodo, h₁, h₂, kfifoThresholdLen, aboutToWake]
  · simp [Device.kfifoToUser, Device.put]

/-- The other writer comes in between and leaves enough room for the first one to go on. -/
theorem run_to_woken {d : Device Bool (List Byte)} (htodo : d.todo false = [longLine])
    (hroom : d.fifo.avail = 1464) :
    ∃ t, run (step id) (aboutToWake d)
        [.kfifoIn false, .clearAsleep, .wakeUp, .waitEvent true] = some t ∧
      t.stage true = .ready := by
  have h₁ : (d.put id false longLine []).fifo.avail = 1265 := by
    simp only [Device.put, Lib.BoundedQueue.avail_push, id, longLine_length, hroom]
  refine ⟨⟨d.put id false longLine [], Function.update (fun _ => .wrote) true .ready, false, .idle⟩,
    ?_, by simp⟩
  simp [Lib.run_cons, step, Device.kfifoIn, htodo, h₁, kfifoThresholdLen, aboutToWake, Stage.wake]
  funext i
  cases i <;> rfl

/-- As long as no string written during a wake-up leaves 500 bytes or less, no wake-up is lost. -/
theorem no_lostWakeUp {program : ι → List α} {as : List (Action ι)}
    (hroom : Along (LeavesRoom text) (Evaluation.step text) (init program) as)
    (h : run (Evaluation.step text) (init program) as = some t) : ¬ LostWakeUp t :=
  (hroom.invariant (fun _ _ _ hs ha hu => hs.step ha hu) (watched_init program) h).not_lost

/-- A writer fills the FIFO and sleeps. A read makes room, and before the writer is woken another
one writes a line. -/
theorem wokenRun_no_lostWakeUp : ∃ as bs, ∃ u t : State Bool (List Byte),
    run (step id) (init twoWriters) as = some u ∧
      WakingUp u ∧ u.stage true = .parked ∧ run (step id) u (.kfifoIn false :: bs) = some t ∧
      t.stage true = .ready ∧ ¬ LostWakeUp t := by
  let d₀ : Device Bool (List Byte) := .init twoWriters
  have hroom₀ : d₀.fifo.avail = 16384 := Device.avail_init _
  have htodo₀ : d₀.todo true = List.replicate 79 longLine ++ [longLine] := rfl
  obtain ⟨d₁, h₁, htodo₁, hroom₁⟩ := run_fill id (fun _ => .ready) rfl false .idle 79 d₀ htodo₀
    (by rw [hroom₀, id, longLine_length]; decide)
  rw [hroom₀, id, longLine_length] at hroom₁
  obtain ⟨d₂, h₂, htodo₂, hroom₂⟩ := run_to_parked (by simp [htodo₁]) hroom₁
  have htodo₂' : d₂.todo false = [longLine] := by
    rw [htodo₂, htodo₁]
    rfl
  obtain ⟨t, h₃, hready⟩ := run_to_woken htodo₂' hroom₂
  have h₁₂ := Lib.run_append.mpr ⟨_, h₁, h₂⟩
  have hfirst : Along (LeavesRoom id) (step id) _ (fill true 79) :=
    fill_leavesRoom (s := ⟨d₀, fun _ => .ready, false, .idle⟩) ⟨rfl, by simp⟩ true 79
  have hcalm : LeavesRoom id ⟨d₁, fun _ => .ready, false, .idle⟩ (.kfifoIn true) :=
    fun hwaking => absurd hwaking (Calm.not_wakingUp ⟨rfl, by simp⟩)
  have hleaves : LeavesRoom id (aboutToWake d₂) (.kfifoIn false) := by
    intro _ l hl
    obtain rfl : longLine = l := by simpa [aboutToWake, htodo₂'] using hl
    simp [aboutToWake, hroom₂, longLine_length, kfifoThresholdLen]
  have hlast : Along (LeavesRoom id) (step id) (aboutToWake d₂)
      [.kfifoIn false, .clearAsleep, .wakeUp, .waitEvent true] :=
    leavesRoom_kfifoIn hleaves (by simp)
  have halong :=
    Along.append h₁₂ (Along.append h₁ hfirst (leavesRoom_kfifoIn hcalm (by simp))) hlast
  exact ⟨_, _, _, t, h₁₂, .inl rfl, by simp [aboutToWake], h₃, hready,
    no_lostWakeUp halong (Lib.run_append.mpr ⟨_, h₁₂, h₃⟩)⟩

/-! ## One writer and one reader lose a wake-up -/

/-- The writer finds little room and is about to set the flag. A read makes room, so that the
writer sets the flag and goes on, and the reader takes it for asleep. -/
theorem run_to_stale {d : Device Unit (List Byte)} {k : ℕ}
    (htodo : d.todo () = List.replicate (k + 1) longLine) (hroom : d.fifo.avail = 663) :
    ∃ d', run (step id) ⟨d, fun _ => .ready, false, .idle⟩
        [.kfifoIn (), .testAvail (), .kfifoToUser 1000, .setAsleep (), .waitEvent (), .testAsleep] =
      some ⟨d', fun _ => .ready, true, .clearing⟩ ∧
      d'.todo () = List.replicate k longLine ∧ d'.fifo.avail = 1464 := by
  obtain ⟨h₁, h₂⟩ := avail_read_put hroom () (List.replicate k longLine)
  refine ⟨(d.put id () longLine (List.replicate k longLine)).kfifoToUser 1000, ?_, ?_, h₂⟩
  · simp [Lib.run_cons, step, Device.kfifoIn, htodo, List.replicate_succ, h₁, h₂,
      kfifoThresholdLen]
  · simp [Device.kfifoToUser, Device.put]

/-- The writer now does go to sleep. Only then does the reader clear the flag and wake it, and it
goes to sleep again. -/
theorem run_to_lost {d : Device Unit (List Byte)} (htodo : d.todo () = [longLine])
    (hroom : d.fifo.avail = 668) :
    ∃ t, run (step id) ⟨d, fun _ => .ready, true, .clearing⟩
        [.kfifoIn (), .testAvail (), .setAsleep (), .waitEvent (), .clearAsleep, .wakeUp,
          .waitEvent ()] = some t ∧ LostWakeUp t := by
  let d₁ := d.put id () longLine []
  have hd₁ : d.kfifoIn id () = some d₁ := by simp [Device.kfifoIn, htodo, d₁]
  have h₁ : d₁.fifo.avail = 469 := by
    simp only [d₁, Device.put, Lib.BoundedQueue.avail_push, id, longLine_length, hroom]
  refine ⟨⟨d₁, fun _ => .parked, false, .idle⟩, ?_, rfl, rfl, (), rfl⟩
  simp [Lib.run_cons, step, hd₁, h₁, kfifoThresholdLen, Stage.wake]
  exact funext fun _ => rfl

/-- A single writer of lines as long as the module's can end up asleep for good. -/
theorem lostWakeUp_reachable : ∃ as t,
    run (step id) (init fun _ : Unit => List.replicate 85 longLine) as = some t ∧
      LostWakeUp t := by
  let ready : Unit → Stage := fun _ => .ready
  let d₀ : Device Unit (List Byte) := .init fun _ => List.replicate 85 longLine
  have hroom₀ : d₀.fifo.avail = 16384 := Device.avail_init _
  have htodo₀ : d₀.todo () = List.replicate 79 longLine ++ List.replicate 6 longLine := rfl
  obtain ⟨d₁, h₁, htodo₁, hroom₁⟩ := run_fill id ready rfl false .idle 79 d₀ htodo₀
    (by rw [hroom₀, id, longLine_length]; decide)
  rw [hroom₀, id, longLine_length] at hroom₁
  obtain ⟨d₂, h₂, htodo₂, hroom₂⟩ := run_to_stale (k := 5) (by simp [htodo₁]) hroom₁
  have htodo₂' : d₂.todo () = List.replicate 4 longLine ++ [longLine] := htodo₂
  obtain ⟨d₃, h₃, htodo₃, hroom₃⟩ := run_fill id ready rfl true .clearing 4 d₂ htodo₂'
    (by rw [hroom₂, id, longLine_length]; decide)
  rw [hroom₂, id, longLine_length] at hroom₃
  obtain ⟨t, h₄, hlost⟩ := run_to_lost (by simp [htodo₃]) hroom₃
  have h₃₄ := Lib.run_append.mpr ⟨_, h₃, h₄⟩
  have h₂₄ := Lib.run_append.mpr ⟨_, h₂, h₃₄⟩
  exact ⟨_, t, Lib.run_append.mpr ⟨_, h₁, h₂₄⟩, hlost⟩

end Squint.Kernel.Evaluation
