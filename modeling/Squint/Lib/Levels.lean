import Mathlib.Logic.Function.Basic
import Mathlib.Tactic.Common

/-! Logs whose entries happen on levels. On each level the log is a sequence of acts, each of which
shows some marks; what happens on another level in between does not count. -/
namespace Squint.Lib

variable {ε μ α : Type}

/-- The log is made of acts on each level; of the last one, the marks `owed` are still to come. -/
def ExactOn (level : ε → ℕ) (mark : ε → μ) (marks : α → List μ) (L : List ε)
    (owed : ℕ → List μ) : Prop :=
  ∀ n, ∃ acts : List α, (L.filter fun e => level e = n).map mark ++ owed n = acts.flatMap marks

namespace ExactOn

variable {level : ε → ℕ} {mark : ε → μ} {marks : α → List μ} {L L' : List ε} {owed : ℕ → List μ}
  {e : ε} {n : ℕ} {o : List μ}

theorem nil : ExactOn level mark marks [] fun _ => [] := fun _ => ⟨[], rfl⟩

theorem snoc (h : ExactOn level mark marks L owed) (hn : level e = n) (acts : List α)
    (ho : mark e :: o = owed n ++ acts.flatMap marks) :
    ExactOn level mark marks (L ++ [e]) (Function.update owed n o) := by
  intro m
  obtain ⟨before, hbefore⟩ := h m
  by_cases hm : m = n
  · subst hm
    refine ⟨before ++ acts, ?_⟩
    rw [List.flatMap_append, ← hbefore, List.append_assoc, ← ho]
    simp [hn]
  · refine ⟨before, ?_⟩
    rw [Function.update_of_ne hm, ← hbefore]
    simp [hn, Ne.symm hm]

theorem begins (h : ExactOn level mark marks L owed) (hn : level e = n) (ho : owed n = [])
    {act : α} (hact : mark e :: o = marks act) :
    ExactOn level mark marks (L ++ [e]) (Function.update owed n o) :=
  h.snoc hn [act] (by simp [ho, hact])

theorem pays {m : μ} (h : ExactOn level mark marks L (Function.update owed n [m]))
    (hn : level e = n) (hm : mark e = m) :
    ExactOn level mark marks (L ++ [e]) (Function.update owed n []) := by
  have hpaid := h.snoc (o := []) hn [] (by simp [hm])
  rwa [Function.update_idem] at hpaid

theorem quiet (h : ExactOn level mark marks L owed) {act : α} (hact : [mark e] = marks act)
    (ho : owed (level e) = []) : ExactOn level mark marks (L ++ [e]) owed := by
  have hone := h.begins rfl ho hact
  rwa [← ho, Function.update_eq_self] at hone

end ExactOn

end Squint.Lib
