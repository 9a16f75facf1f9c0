import Mathlib.Data.List.Basic
import Mathlib.Tactic.Common

/-! A queue of at most `capacity` elements, whose writers are cut off where it is full. -/
namespace Squint.Lib

structure BoundedQueue (α : Type) (capacity : ℕ) where
  items : List α
  bounded : items.length ≤ capacity

namespace BoundedQueue

variable {α : Type} {capacity : ℕ}

def empty : BoundedQueue α capacity := ⟨[], by simp⟩

def avail (q : BoundedQueue α capacity) : ℕ := capacity - q.items.length

/-- As many of `xs` as there is room for go in at the end. -/
def push (q : BoundedQueue α capacity) (xs : List α) : BoundedQueue α capacity where
  items := q.items ++ xs.take q.avail
  bounded := by
    have := q.bounded
    simp only [List.length_append, List.length_take, avail]
    omega

/-- The first `n` elements, or all of them, leave. -/
def pop (q : BoundedQueue α capacity) (n : ℕ) : BoundedQueue α capacity where
  items := q.items.drop n
  bounded := by
    have := q.bounded
    simp only [List.length_drop]
    omega

@[simp] theorem avail_empty : (empty : BoundedQueue α capacity).avail = capacity := by
  simp [empty, avail]

theorem avail_push (q : BoundedQueue α capacity) (xs : List α) :
    (q.push xs).avail = q.avail - xs.length := by
  have := q.bounded
  simp only [push, avail, List.length_append, List.length_take]
  omega

theorem avail_pop (q : BoundedQueue α capacity) {n : ℕ} (h : n ≤ q.items.length) :
    (q.pop n).avail = q.avail + n := by
  have := q.bounded
  simp only [pop, avail, List.length_drop]
  omega

theorem avail_le_avail_pop (q : BoundedQueue α capacity) (n : ℕ) : q.avail ≤ (q.pop n).avail := by
  simp only [pop, avail, List.length_drop]
  omega

end BoundedQueue

end Squint.Lib
