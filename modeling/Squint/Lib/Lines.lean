import Mathlib.Data.List.Basic
import Mathlib.Tactic.Common

/-! Text cut into lines, each of which keeps its end. -/
namespace Squint.Lib

variable {α : Type}

/-- A line ends with the only `nl` in it. -/
def IsLine (nl : α) (x : List α) : Prop := ∃ body, x = body ++ [nl] ∧ nl ∉ body

/-- What comes after the last `nl` is a line as well. -/
def splitLines [DecidableEq α] (nl : α) : List α → List (List α)
  | [] => []
  | a :: as =>
    if a = nl then [a] :: splitLines nl as
    else match splitLines nl as with
      | [] => [[a]]
      | l :: ls => (a :: l) :: ls

variable {nl : α} {x y a b : List α}

section
variable [DecidableEq α]

theorem splitLines_line (hx : IsLine nl x) (rest : List α) :
    splitLines nl (x ++ rest) = x :: splitLines nl rest := by
  obtain ⟨body, rfl, hnl⟩ := hx
  induction body with
  | nil => simp [splitLines]
  | cons c body ih =>
    have hc : c ≠ nl := fun h => hnl (h ▸ List.mem_cons_self)
    have hbody := ih fun h => hnl (List.mem_cons_of_mem c h)
    simp only [List.cons_append, splitLines, if_neg hc, hbody]

theorem splitLines_of_not_mem (hne : x ≠ []) (hnl : nl ∉ x) : splitLines nl x = [x] := by
  induction x with
  | nil => exact absurd rfl hne
  | cons c x ih =>
    have hc : c ≠ nl := fun h => hnl (h ▸ List.mem_cons_self)
    by_cases hx : x = []
    · simp [hx, splitLines, hc]
    · have hrest := ih hx fun h => hnl (List.mem_cons_of_mem c h)
      simp only [splitLines, if_neg hc, hrest]

theorem splitLines_lines_append {xs : List (List α)} (h : ∀ x ∈ xs, IsLine nl x) (rest : List α) :
    splitLines nl (xs.flatten ++ rest) = xs ++ splitLines nl rest := by
  induction xs with
  | nil => rfl
  | cons x xs ih =>
    rw [List.flatten_cons, List.append_assoc, splitLines_line (h x (by simp)),
      ih fun y hy => h y (by simp [hy]), List.cons_append]

theorem splitLines_flatten {xs : List (List α)} (h : ∀ x ∈ xs, IsLine nl x) :
    splitLines nl xs.flatten = xs := by
  have happend := splitLines_lines_append h []
  simpa [splitLines] using happend

end

theorem IsLine.append_left (hx : IsLine nl x) (ha : nl ∉ a) : IsLine nl (a ++ x) := by
  obtain ⟨body, rfl, hnl⟩ := hx
  refine ⟨a ++ body, by simp, ?_⟩
  simp [ha, hnl]

/-- A line that is cut off has lost its end. -/
theorem IsLine.not_mem_take (hx : IsLine nl x) {r : ℕ} (hr : r < x.length) : nl ∉ x.take r := by
  obtain ⟨body, rfl, hnl⟩ := hx
  rw [List.length_append, List.length_singleton] at hr
  rw [List.take_append_of_le_length (by omega)]
  exact fun h => hnl (List.mem_of_mem_take h)

/-- Where a text starts with a line is no question of how it is read. -/
theorem IsLine.append_inj (hx : IsLine nl x) (hy : IsLine nl y) (h : x ++ a = y ++ b) :
    x = y ∧ a = b := by
  classical
  have hsplit := congrArg (splitLines nl) h
  rw [splitLines_line hx, splitLines_line hy] at hsplit
  obtain rfl := (List.cons.inj hsplit).1
  exact ⟨rfl, List.append_cancel_left h⟩

end Squint.Lib
