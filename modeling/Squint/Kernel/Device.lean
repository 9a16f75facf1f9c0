import Mathlib.Data.List.Basic
import Mathlib.Logic.Function.Basic
import Mathlib.Tactic.Common
import Squint.Lib.BoundedQueue
import Squint.Lib.Run

/-! The trace FIFO of the kernel module, together with what has gone through it. Writers append
strings, the reader of `/proc/squint` takes bytes off the front. -/
namespace Squint.Kernel

abbrev Byte := UInt8

def kfifoLen : ℕ := 16384
def kfifoThresholdLen : ℕ := 500

abbrev Kfifo := Lib.BoundedQueue Byte kfifoLen

/-- `squint_dev`, and the strings each thread of `ι` has still to write. The last three fields are
history: what was handed to `kfifo_in`, how many bytes of it found no room, what reads returned. -/
structure Device (ι α : Type) where
  fifo : Kfifo
  todo : ι → List α
  written : List (ι × α)
  dropped : ℕ
  reads : List (List Byte)

namespace Device

variable {ι α : Type}

def init (todo : ι → List α) : Device ι α := ⟨.empty, todo, [], 0, []⟩

theorem avail_init (todo : ι → List α) : (init todo).fifo.avail = kfifoLen :=
  Lib.BoundedQueue.avail_empty

variable [DecidableEq ι]

def writtenBy (d : Device ι α) (i : ι) : List α := (d.written.filter (·.1 = i)).map (·.2)

/-- Everything the writers produced, delivered or not. -/
def stream (d : Device ι α) : List Byte := d.reads.flatten ++ d.fifo.items

/-- Thread `i` hands `l` to `kfifo_in`, which leaves out what finds no room. -/
def put (text : α → List Byte) (d : Device ι α) (i : ι) (l : α) (rest : List α) : Device ι α where
  fifo := d.fifo.push (text l)
  todo := Function.update d.todo i rest
  written := d.written ++ [(i, l)]
  dropped := d.dropped + ((text l).length - d.fifo.avail)
  reads := d.reads

/-- `kfifo_in_spinlocked` of the next string of thread `i`. -/
def kfifoIn (text : α → List Byte) (d : Device ι α) (i : ι) : Option (Device ι α) :=
  match d.todo i with
  | [] => none
  | l :: rest => some (d.put text i l rest)

/-- `kfifo_to_user`, where the copy to user space succeeds. -/
def kfifoToUser (d : Device ι α) (count : ℕ) : Device ι α :=
  { d with fifo := d.fifo.pop count, reads := d.reads ++ [d.fifo.items.take count] }

end Device

/-- What a system of writers and a reader can do to the device in one step. -/
inductive Moves {ι α : Type} [DecidableEq ι] (text : α → List Byte) (d : Device ι α) :
    Device ι α → Prop
  | stay : Moves text d d
  | write {i d'} (h : d.kfifoIn text i = some d') : Moves text d d'
  | read (n : ℕ) : Moves text d (d.kfifoToUser n)

section
variable {ι α : Type} [DecidableEq ι] {text : α → List Byte} {d d' : Device ι α} {i : ι}

namespace Device

theorem kfifoIn_eq_some (h : d.kfifoIn text i = some d') :
    ∃ l rest, d.todo i = l :: rest ∧ d' = d.put text i l rest := by
  unfold kfifoIn at h
  split at h
  · cases h
  · rename_i l rest heq
    exact ⟨l, rest, heq, (Option.some.inj h).symm⟩

theorem stream_put (l : α) (rest : List α) :
    (d.put text i l rest).stream = d.stream ++ (text l).take d.fifo.avail := by
  simp [stream, put, Lib.BoundedQueue.push]

omit [DecidableEq ι] in
theorem stream_kfifoToUser (n : ℕ) : (d.kfifoToUser n).stream = d.stream := by
  simp [stream, kfifoToUser, Lib.BoundedQueue.pop]

theorem writtenBy_put (l : α) (rest : List α) (j : ι) :
    (d.put text i l rest).writtenBy j = d.writtenBy j ++ if i = j then [l] else [] := by
  by_cases h : i = j <;> simp [writtenBy, put, h]

/-- Nothing is reordered within a thread, and nothing lost as long as all bytes find room. -/
structure Consistent (text : α → List Byte) (program : ι → List α) (d : Device ι α) : Prop where
  order : ∀ i, d.writtenBy i ++ d.todo i = program i
  stream : d.dropped = 0 → d.stream = d.written.flatMap fun p => text p.2

theorem consistent_init (text : α → List Byte) (program : ι → List α) :
    (init program).Consistent text program :=
  ⟨fun _ => rfl, fun _ => rfl⟩

theorem Consistent.mem_program {program : ι → List α} (hd : d.Consistent text program) {p : ι × α}
    (hp : p ∈ d.written) : p.2 ∈ program p.1 := by
  rw [← hd.order p.1]
  apply List.mem_append_left
  exact List.mem_map.mpr ⟨p, List.mem_filter.mpr ⟨hp, by simp⟩, rfl⟩

/-- A single thread that has written all it had to has put just that into the FIFO. -/
theorem Consistent.stream_unit {program : Unit → List α} {d : Device Unit α}
    (hd : d.Consistent text program) (hdone : d.todo () = []) (hkept : d.dropped = 0) :
    d.stream = (program ()).flatMap text := by
  have hwritten : d.written.map (·.2) = program () := by
    simpa [writtenBy, hdone] using hd.order ()
  rw [hd.stream hkept, ← hwritten, List.flatMap_map]

theorem Consistent.kfifoIn {program : ι → List α} (hd : d.Consistent text program)
    (h : d.kfifoIn text i = some d') : d'.Consistent text program := by
  obtain ⟨l, rest, hl, rfl⟩ := kfifoIn_eq_some h
  refine ⟨fun j => ?_, fun h0 => ?_⟩
  · rw [writtenBy_put]
    by_cases hj : i = j
    · subst hj
      simpa [put, hl] using hd.order i
    · simpa [put, hj, Ne.symm hj] using hd.order j
  · simp only [put, Nat.add_eq_zero_iff] at h0
    have hroom : (text l).length ≤ d.fifo.avail := by omega
    rw [stream_put, hd.stream h0.1, List.take_of_length_le hroom]
    simp [put]

theorem Consistent.kfifoToUser {program : ι → List α} (hd : d.Consistent text program) (n : ℕ) :
    (d.kfifoToUser n).Consistent text program := by
  refine ⟨hd.order, fun h0 => ?_⟩
  rw [stream_kfifoToUser]
  exact hd.stream h0

theorem Consistent.moves {program : ι → List α} (hd : d.Consistent text program)
    (h : Moves text d d') : d'.Consistent text program := by
  cases h with
  | stay => exact hd
  | write h => exact hd.kfifoIn h
  | read n => exact hd.kfifoToUser n

end Device

end

/-! ## Without back-pressure -/

namespace KernelModule

/-- The steps of `kfifo_kernel_module` and of the copy in NOVA: there `squint_fifo_write` is
`kfifo_in` and `SquintDeviceRead` is `kfifo_to_user`. -/
inductive Action (ι : Type) where
  | kfifoIn (i : ι)
  | kfifoToUser (count : ℕ)
  deriving DecidableEq, Repr

variable {ι α : Type} [DecidableEq ι] {text : α → List Byte}

def step (text : α → List Byte) (d : Device ι α) : Action ι → Option (Device ι α)
  | .kfifoIn i => d.kfifoIn text i
  | .kfifoToUser count => some (d.kfifoToUser count)

theorem step_moves {d d' : Device ι α} {a : Action ι} (h : step text d a = some d') :
    Moves text d d' := by
  cases a with
  | kfifoIn i => exact .write h
  | kfifoToUser count =>
    obtain rfl := Option.some.inj h
    exact .read count

theorem run_consistent {program : ι → List α} {as : List (Action ι)} {d : Device ι α}
    (h : Lib.run (step text) (.init program) as = some d) : d.Consistent text program :=
  Lib.run_invariant (fun _ _ _ hs hu => hs.moves (step_moves hu))
    (Device.consistent_init text program) h

/-- A single thread gets through with all it has to write if there is room for it. -/
theorem exists_run_all {m : ℕ} {d : Device Unit α} (hm : ∀ l ∈ d.todo (), (text l).length ≤ m)
    (hroom : (d.todo ()).length * m ≤ d.fifo.avail) :
    ∃ as d', Lib.run (step text) d as = some d' ∧ d'.todo () = [] ∧ d'.dropped = d.dropped := by
  obtain ⟨ls, hls⟩ : ∃ ls, d.todo () = ls := ⟨_, rfl⟩
  induction ls generalizing d with
  | nil => exact ⟨[], d, rfl, hls, rfl⟩
  | cons l ls ih =>
    have hl := hm l (by simp [hls])
    have hput : step text d (.kfifoIn ()) = some (d.put text () l ls) := by
      simp [step, Device.kfifoIn, hls]
    rw [hls, List.length_cons, Nat.succ_mul] at hroom
    have hm' : ∀ l' ∈ (d.put text () l ls).todo (), (text l').length ≤ m := fun l' hl' =>
      hm l' (by simp_all [Device.put])
    have hroom' : ((d.put text () l ls).todo ()).length * m ≤ (d.put text () l ls).fifo.avail := by
      simp only [Device.put, Function.update_self, Lib.BoundedQueue.avail_push]
      omega
    obtain ⟨as, d', hrun, hdone, hkept⟩ := ih hm' hroom' (by simp [Device.put])
    refine ⟨.kfifoIn () :: as, d', Lib.run_cons.mpr ⟨_, hput, hrun⟩, hdone, ?_⟩
    rw [hkept]
    simp only [Device.put]
    omega

end KernelModule

end Squint.Kernel
