import Mathlib.Data.List.Basic
import Mathlib.Tactic.Common

/-! Memory that keeps its words over a power failure, behind a cache that does not. A word is an
independent cell: what a failure leaves in it is the last value known to have reached the medium or
any value stored after that one. -/
namespace Squint.Lib

/-- A word. `pending` are the values stored since `kept` reached the medium, oldest first; a write
back has been asked for the first `marked` of them. -/
structure Cell (β : Type) where
  kept : β
  pending : List β
  marked : ℕ
deriving DecidableEq, Repr

namespace Cell

variable {β : Type} {c : Cell β} {v w : β}

def rest (v : β) : Cell β := ⟨v, [], 0⟩

def now (c : Cell β) : β := c.pending.getLast?.getD c.kept

def store (c : Cell β) (v : β) : Cell β := { c with pending := c.pending ++ [v] }

/-- An asynchronous write back: it is complete after the next fence. -/
def writeBack (c : Cell β) : Cell β := { c with marked := c.pending.length }

/-- A synchronous one. -/
def flush (c : Cell β) : Cell β := rest c.now

def fence (c : Cell β) : Cell β :=
  ⟨(c.pending.take c.marked).getLast?.getD c.kept, c.pending.drop c.marked, 0⟩

/-- A failure may leave `v` in the word. -/
def MayHold (c : Cell β) (v : β) : Prop := v = c.kept ∨ v ∈ c.pending

/-- A failure leaves `v` in the word. -/
def Sure (c : Cell β) (v : β) : Prop := ∀ w, c.MayHold w → w = v

/-- Nothing has been stored since the last write back. -/
def Ready (c : Cell β) : Prop := c.marked = c.pending.length

/-- The next fence makes sure of `v`. -/
def Due (c : Cell β) (v : β) : Prop := c.fence.Sure v

instance [DecidableEq β] (c : Cell β) (v : β) : Decidable (c.MayHold v) :=
  inferInstanceAs (Decidable (_ ∨ _))

theorem getLast?_getD_cases (l : List β) (k : β) :
    l.getLast?.getD k = k ∨ l.getLast?.getD k ∈ l := by
  cases h : l.getLast? with
  | none => exact Or.inl rfl
  | some x => exact Or.inr (List.mem_of_getLast? h)

theorem mayHold_now (c : Cell β) : c.MayHold c.now :=
  getLast?_getD_cases c.pending c.kept

theorem Sure.now_eq (h : c.Sure v) : c.now = v := h _ c.mayHold_now

theorem sure_rest (v : β) : (rest v).Sure v := by
  intro w hw
  simpa [rest, MayHold] using hw

@[simp] theorem now_rest (v : β) : (rest v).now = v := rfl
@[simp] theorem now_writeBack (c : Cell β) : c.writeBack.now = c.now := rfl
@[simp] theorem now_flush (c : Cell β) : c.flush.now = c.now := rfl
@[simp] theorem now_store (c : Cell β) (v : β) : (c.store v).now = v := by simp [now, store]

@[simp] theorem now_fence (c : Cell β) : c.fence.now = c.now := by
  have h := congrArg List.getLast? (List.take_append_drop c.marked c.pending)
  rw [List.getLast?_append] at h
  simp only [now, fence, ← h]
  cases (c.pending.drop c.marked).getLast? <;> rfl

theorem mayHold_store : (c.store v).MayHold w ↔ c.MayHold w ∨ w = v := by
  simp [MayHold, store, or_assoc]

@[simp] theorem mayHold_writeBack : c.writeBack.MayHold w ↔ c.MayHold w := Iff.rfl

theorem MayHold.of_flush (h : c.flush.MayHold w) : c.MayHold w := by
  obtain rfl : w = c.now := sure_rest c.now w h
  exact c.mayHold_now

theorem MayHold.of_fence (h : c.fence.MayHold w) : c.MayHold w := by
  obtain h | h := h
  · obtain hk | hk := getLast?_getD_cases (c.pending.take c.marked) c.kept
    · exact Or.inl (h.trans hk)
    · have hw : w ∈ c.pending.take c.marked := by rw [show w = _ from h]; exact hk
      exact Or.inr (List.mem_of_mem_take hw)
  · exact Or.inr (List.mem_of_mem_drop h)

theorem ready_rest (v : β) : (rest v).Ready := rfl
theorem ready_writeBack (c : Cell β) : c.writeBack.Ready := rfl
theorem ready_flush (c : Cell β) : c.flush.Ready := rfl

theorem Ready.fence_eq (h : c.Ready) : c.fence = rest c.now := by
  have hm : c.marked = c.pending.length := h
  simp [fence, rest, now, hm]

theorem Ready.due (h : c.Ready) : c.Due c.now := by
  rw [Due, h.fence_eq]
  exact sure_rest _

theorem Sure.due (h : c.Sure v) : c.Due v := fun w hw => h w hw.of_fence

theorem Due.now_eq (h : c.Due v) : c.now = v := by
  rw [← now_fence]
  exact Sure.now_eq h

end Cell

inductive MemOp (α β : Type) where
  | store (a : α) (v : β)
  | ntStore (a : α) (v : β)
  | clwb (a : α)
  | clflush (a : α)
  | sfence
deriving DecidableEq, Repr

namespace MemOp

variable {α β ι : Type} [DecidableEq α] [DecidableEq ι]

/-- What becomes of the word at `a`. A store past the cache is written back at the next fence. -/
def onCell (line : α → ι) (a : α) (c : Cell β) : MemOp α β → Cell β
  | store x v => if x = a then c.store v else c
  | ntStore x v => if x = a then (c.store v).writeBack else c
  | clwb x => if line x = line a then c.writeBack else c
  | clflush x => if line x = line a then c.flush else c
  | sfence => c.fence

def storedTo (a : α) : MemOp α β → Option β
  | store x v | ntStore x v => if x = a then some v else none
  | _ => none

/-- It asks for the word at `a` to be written back. -/
def Flushes (line : α → ι) (a : α) : MemOp α β → Prop
  | clwb x | clflush x => line x = line a
  | _ => False

end MemOp

def exec {α β ι : Type} [DecidableEq α] [DecidableEq ι] (line : α → ι) (m : α → Cell β)
    (ops : List (MemOp α β)) : α → Cell β :=
  fun a => ops.foldl (MemOp.onCell line a) (m a)

section

variable {α β ι : Type} [DecidableEq α] [DecidableEq ι] {line : α → ι} {m : α → Cell β}
  {ops xs ys : List (MemOp α β)} {o : MemOp α β} {a : α} {v w : β}

@[simp] theorem exec_nil : exec line m [] = m := rfl

@[simp] theorem exec_append : exec line m (xs ++ ys) = exec line (exec line m xs) ys := by
  funext a
  simp [exec]

theorem exec_cons : exec line m (o :: ops) = exec line (exec line m [o]) ops := rfl

theorem exec_singleton : exec line m [o] a = o.onCell line a (m a) := rfl

def Unstored (a : α) (ops : List (MemOp α β)) : Prop := ∀ o ∈ ops, o.storedTo a = none

theorem Unstored.of_append (h : Unstored a (xs ++ ys)) : Unstored a xs ∧ Unstored a ys :=
  ⟨fun o ho => h o (List.mem_append_left ys ho), fun o ho => h o (List.mem_append_right xs ho)⟩

/-- An operation leaves the word as it is, or stores to it, or only brings it nearer to the
medium. -/
theorem MemOp.onCell_cases (line : α → ι) (a : α) (c : Cell β) (o : MemOp α β) :
    o.onCell line a c = c ∨ (∃ v, o.storedTo a = some v ∧
      (o.onCell line a c = c.store v ∨ o.onCell line a c = (c.store v).writeBack)) ∨
    o.storedTo a = none ∧
      (o.onCell line a c = c.writeBack ∨ o.onCell line a c = c.flush ∨
        o.onCell line a c = c.fence) := by
  cases o with
  | store x v =>
    by_cases h : x = a
    · exact Or.inr (Or.inl ⟨v, by simp [storedTo, h], Or.inl (by simp [onCell, h])⟩)
    · exact Or.inl (by simp [onCell, h])
  | ntStore x v =>
    by_cases h : x = a
    · exact Or.inr (Or.inl ⟨v, by simp [storedTo, h], Or.inr (by simp [onCell, h])⟩)
    · exact Or.inl (by simp [onCell, h])
  | clwb x =>
    by_cases h : line x = line a
    · exact Or.inr (Or.inr ⟨rfl, Or.inl (by simp [onCell, h])⟩)
    · exact Or.inl (by simp [onCell, h])
  | clflush x =>
    by_cases h : line x = line a
    · exact Or.inr (Or.inr ⟨rfl, Or.inr (Or.inl (by simp [onCell, h]))⟩)
    · exact Or.inl (by simp [onCell, h])
  | sfence => exact Or.inr (Or.inr ⟨rfl, Or.inr (Or.inr rfl)⟩)

/-- What a word may hold, it held before or was stored to it. -/
theorem mayHold_of_exec (h : (exec line m ops a).MayHold w) :
    (m a).MayHold w ∨ ∃ o ∈ ops, o.storedTo a = some w := by
  induction ops generalizing m with
  | nil => exact Or.inl h
  | cons o ops ih =>
    rw [exec_cons] at h
    obtain h | ⟨o', ho', hw⟩ := ih h
    · rw [exec_singleton] at h
      obtain he | ⟨v, hv, he⟩ | ⟨-, he⟩ := o.onCell_cases line a (m a)
      · exact Or.inl (he ▸ h)
      · have h : ((m a).store v).MayHold w := by
          obtain he | he := he <;> rw [he] at h <;> exact h
        obtain h | rfl := Cell.mayHold_store.mp h
        · exact Or.inl h
        · exact Or.inr ⟨o, by simp, hv⟩
      · left
        obtain he | he | he := he <;> rw [he] at h
        · exact h
        · exact h.of_flush
        · exact h.of_fence
    · exact Or.inr ⟨o', by simp [ho'], hw⟩

theorem sure_exec (hs : (m a).Sure v) (h : Unstored a ops) : (exec line m ops a).Sure v := by
  intro w hw
  obtain hw | ⟨o, ho, hw⟩ := mayHold_of_exec hw
  · exact hs w hw
  · rw [h o ho] at hw
    cases hw

theorem MemOp.now_onCell (line : α → ι) (a : α) (c : Cell β) (o : MemOp α β) :
    (o.onCell line a c).now = (o.storedTo a).getD c.now := by
  cases o with
  | store x v | ntStore x v => by_cases h : x = a <;> simp [onCell, storedTo, h]
  | clwb x | clflush x => by_cases h : line x = line a <;> simp [onCell, storedTo, h]
  | sfence => simp [onCell, storedTo]

/-- A load sees the last store. -/
theorem now_exec (h : Unstored a ops) : (exec line m ops a).now = (m a).now := by
  induction ops generalizing m with
  | nil => rfl
  | cons o ops ih =>
    rw [exec_cons, ih (fun o' ho' => h o' (by simp [ho'])), exec_singleton, MemOp.now_onCell,
      h o (by simp), Option.getD_none]

/-- What loads see afterwards depends only on what they saw before. -/
theorem now_exec_congr {m' : α → Cell β} (h : (m a).now = (m' a).now) :
    (exec line m ops a).now = (exec line m' ops a).now := by
  induction ops generalizing m m' with
  | nil => exact h
  | cons o ops ih =>
    rw [exec_cons, exec_cons (m := m')]
    apply ih
    rw [exec_singleton, exec_singleton, MemOp.now_onCell, MemOp.now_onCell, h]

theorem due_exec (hd : (m a).Due v) (h : Unstored a ops) : (exec line m ops a).Due v := by
  induction ops generalizing m with
  | nil => exact hd
  | cons o ops ih =>
    rw [exec_cons]
    apply ih _ (fun o' ho' => h o' (by simp [ho']))
    rw [exec_singleton]
    have hv := hd.now_eq
    obtain he | ⟨w, hw, -⟩ | ⟨-, he | he | he⟩ := o.onCell_cases line a (m a)
    · rwa [he]
    · rw [h o (by simp)] at hw
      cases hw
    · rw [he, ← hv]
      exact (Cell.ready_writeBack _).due
    · rw [he, ← hv]
      exact (Cell.ready_flush _).due
    · rw [he]
      exact Cell.Sure.due hd

theorem ready_exec (hr : (m a).Ready) (h : Unstored a ops) : (exec line m ops a).Ready := by
  induction ops generalizing m with
  | nil => exact hr
  | cons o ops ih =>
    rw [exec_cons]
    apply ih _ (fun o' ho' => h o' (by simp [ho']))
    rw [exec_singleton]
    obtain he | ⟨v, hv, -⟩ | ⟨-, he | he | he⟩ := o.onCell_cases line a (m a)
    · rw [he]
      exact hr
    · rw [h o (by simp)] at hv
      cases hv
    · exact he ▸ Cell.ready_writeBack _
    · exact he ▸ Cell.ready_flush _
    · rw [he, hr.fence_eq]
      exact Cell.ready_rest _

theorem ready_of_flushes (ho : o ∈ ops) (hf : o.Flushes line a) (h : Unstored a ops) :
    (exec line m ops a).Ready := by
  obtain ⟨xs, ys, rfl⟩ := List.append_of_mem ho
  rw [exec_append, exec_cons]
  refine ready_exec ?_ fun o' ho' => h o' (by simp [ho'])
  rw [exec_singleton]
  cases o with
  | clwb x => simpa [MemOp.onCell, show line x = line a from hf] using Cell.ready_writeBack _
  | clflush x => simpa [MemOp.onCell, show line x = line a from hf] using Cell.ready_flush _
  | store x v | ntStore x v | sfence => exact hf.elim

/-- A synchronous write back leaves nothing to wait for. -/
theorem sure_of_clflush {x : α} (ho : MemOp.clflush x ∈ ops) (hx : line x = line a)
    (h : Unstored a ops) : (exec line m ops a).Sure (m a).now := by
  obtain ⟨xs, ys, rfl⟩ := List.append_of_mem ho
  obtain ⟨hxs, hys⟩ := h.of_append
  rw [exec_append, exec_cons]
  refine sure_exec ?_ fun o ho => hys o (by simp [ho])
  have hnow : (exec line m xs a).now = (m a).now := now_exec hxs
  rw [exec_singleton, ← hnow]
  simpa [MemOp.onCell, hx, Cell.flush] using Cell.sure_rest (exec line m xs a).now

/-- An operation after which everything that could be lost still can. -/
def MemOp.Lazy : MemOp α β → Prop
  | .store .. | .ntStore .. | .clwb _ => True
  | .clflush _ | .sfence => False

theorem mayHold_of_lazy (hl : ∀ o ∈ ops, o.Lazy) (h : (m a).MayHold w) :
    (exec line m ops a).MayHold w := by
  induction ops generalizing m with
  | nil => exact h
  | cons o ops ih =>
    rw [exec_cons]
    refine ih (fun o' ho' => hl o' (by simp [ho'])) ?_
    rw [exec_singleton]
    cases o with
    | store x v =>
      simp only [MemOp.onCell]
      split_ifs
      · exact Cell.mayHold_store.mpr (Or.inl h)
      · exact h
    | ntStore x v =>
      simp only [MemOp.onCell]
      split_ifs
      · exact Cell.mayHold_store.mpr (Or.inl h)
      · exact h
    | clwb x =>
      simp only [MemOp.onCell]
      split_ifs <;> exact h
    | clflush x => exact False.elim (hl (.clflush x) (by simp))
    | sfence => exact False.elim (hl .sfence (by simp))

/-- A fence completes what has been asked for. -/
theorem sure_of_fence (hd : (m a).Due v) (h : Unstored a ops) (hf : MemOp.sfence ∈ ops) :
    (exec line m ops a).Sure v := by
  obtain ⟨xs, ys, rfl⟩ := List.append_of_mem hf
  obtain ⟨hx, hy⟩ := h.of_append
  rw [exec_append, exec_cons]
  exact sure_exec (due_exec hd hx) fun o ho => hy o (by simp [ho])

end

/-- What a failure may leave. -/
def Leaves {α β : Type} (m : α → Cell β) (image : α → β) : Prop := ∀ a, (m a).MayHold (image a)

/-- The memory that an image is loaded into. -/
def restart {α β : Type} (image : α → β) : α → Cell β := fun a => Cell.rest (image a)

end Squint.Lib
