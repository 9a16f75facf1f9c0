import Mathlib.Data.List.Basic
import Mathlib.Tactic.Common

/-! Systems whose steps are named by actions, their runs, and the rules by which a fact about one
step becomes a fact about every run. -/
namespace Squint.Lib

variable {σ τ α β : Type}

/-- All of `as`, one after the other; `none` if one of them cannot be done. -/
def run (step : σ → α → Option σ) (s : σ) (as : List α) : Option σ := as.foldlM step s

section
variable {step : σ → α → Option σ} {s t : σ} {a : α} {as bs : List α}

@[simp] theorem run_nil : run step s [] = some s := rfl

theorem run_cons :
    run step s (a :: as) = some t ↔ ∃ u, step s a = some u ∧ run step u as = some t := by
  simp only [run, List.foldlM_cons, Option.bind_eq_bind, Option.bind_eq_some_iff]

theorem run_append :
    run step s (as ++ bs) = some t ↔ ∃ u, run step s as = some u ∧ run step u bs = some t := by
  simp only [run, List.foldlM_append, Option.bind_eq_bind, Option.bind_eq_some_iff]

theorem run_singleton : run step s [a] = some t ↔ step s a = some t := by
  simp [run_cons]

/-- What every step keeps, every run keeps. -/
theorem run_invariant {I : σ → Prop} (hstep : ∀ s a t, I s → step s a = some t → I t) (hs : I s)
    (h : run step s as = some t) : I t := by
  induction as generalizing s with
  | nil =>
    obtain rfl : s = t := by simpa using h
    exact hs
  | cons a as ih =>
    obtain ⟨u, hu, h⟩ := run_cons.mp h
    exact ih (hstep s a u hs hu) h

end

/-- Every action of the run is done in a state in which `P` allows it. -/
def Along (P : σ → α → Prop) (step : σ → α → Option σ) : σ → List α → Prop
  | _, [] => True
  | s, a :: as => P s a ∧ ∀ t, step s a = some t → Along P step t as

section
variable {P : σ → α → Prop} {step : σ → α → Option σ} {s t : σ} {a : α} {as bs : List α}

theorem Along.cons (hP : P s a) (ha : step s a = some t) (h : Along P step t as) :
    Along P step s (a :: as) := by
  refine ⟨hP, fun u hu => ?_⟩
  obtain rfl := Option.some.inj (ha.symm.trans hu)
  exact h

theorem Along.append (h : run step s as = some t) (has : Along P step s as)
    (hbs : Along P step t bs) : Along P step s (as ++ bs) := by
  induction as generalizing s with
  | nil =>
    obtain rfl : s = t := by simpa using h
    exact hbs
  | cons a as ih =>
    obtain ⟨u, hu, h⟩ := run_cons.mp h
    exact Along.cons has.1 hu (ih h (has.2 u hu))

/-- Where an invariant allows actions of one kind and they keep it, all runs of them are allowed. -/
theorem Along.of_invariant {I : σ → Prop} {Q : α → Prop} (hP : ∀ s a, I s → Q a → P s a)
    (hstep : ∀ s a t, I s → Q a → step s a = some t → I t) (hs : I s) (h : ∀ a ∈ as, Q a) :
    Along P step s as := by
  induction as generalizing s with
  | nil => trivial
  | cons a as ih =>
    have ha := h a (by simp)
    exact ⟨hP s a hs ha, fun t ht => ih (hstep s a t hs ha ht) fun b hb => h b (by simp [hb])⟩

theorem Along.of_forall {Q : α → Prop} (hP : ∀ s a, Q a → P s a) (h : ∀ a ∈ as, Q a) :
    Along P step s as :=
  of_invariant (I := fun _ => True) (fun s a _ => hP s a) (fun _ _ _ _ _ _ => trivial) trivial h

end

instance Along.decidable {P : σ → α → Prop} [∀ s a, Decidable (P s a)] (step : σ → α → Option σ) :
    ∀ s as, Decidable (Along P step s as)
  | _, [] => isTrue trivial
  | s, a :: as =>
    match h : step s a with
    | none => decidable_of_iff (P s a) (by simp [Along, h])
    | some t =>
      have : Decidable (Along P step t as) := Along.decidable step t as
      decidable_of_iff (P s a ∧ Along P step t as) (by simp [Along, h])

/-- What every allowed step keeps, every run of allowed steps keeps. -/
theorem Along.invariant {P : σ → α → Prop} {step : σ → α → Option σ} {I : σ → Prop}
    (hstep : ∀ s a t, I s → P s a → step s a = some t → I t) {s t : σ} {as : List α}
    (hP : Along P step s as) (hs : I s) (h : run step s as = some t) : I t := by
  induction as generalizing s with
  | nil =>
    obtain rfl : s = t := by simpa using h
    exact hs
  | cons a as ih =>
    obtain ⟨u, hu, h⟩ := run_cons.mp h
    exact ih (hP.2 u hu) (hstep s a u hs hP.1 hu) h

/-- What is kept by exactly the allowed steps is kept by exactly the runs of allowed steps. -/
theorem Along.iff_of_step {P : σ → α → Prop} {step : σ → α → Option σ} {I Q : σ → Prop}
    (hstep : ∀ s a t, I s → step s a = some t → I t ∧ (Q t ↔ Q s ∧ P s a)) {s t : σ} {as : List α}
    (hs : I s) (h : run step s as = some t) : Q t ↔ Q s ∧ Along P step s as := by
  induction as generalizing s with
  | nil =>
    obtain rfl : s = t := by simpa using h
    simp [Along]
  | cons a as ih =>
    obtain ⟨u, hu, h⟩ := run_cons.mp h
    obtain ⟨hI, hQ⟩ := hstep s a u hs hu
    rw [ih hI h, hQ]
    simp [Along, hu, and_assoc]

/-- Where each step of one system is a run of another, so is each of its runs. -/
theorem run_simulation {step : σ → α → Option σ} {step' : τ → β → Option τ} {f : σ → τ}
    (hstep : ∀ s a t, step s a = some t → ∃ bs, run step' (f s) bs = some (f t)) {s t : σ}
    {as : List α} (h : run step s as = some t) : ∃ bs, run step' (f s) bs = some (f t) := by
  induction as generalizing s with
  | nil =>
    obtain rfl : s = t := by simpa using h
    exact ⟨[], rfl⟩
  | cons a as ih =>
    obtain ⟨u, hu, h⟩ := run_cons.mp h
    obtain ⟨bs, hbs⟩ := hstep s a u hu
    obtain ⟨bs', hbs'⟩ := ih h
    exact ⟨bs ++ bs', run_append.mpr ⟨f u, hbs, hbs'⟩⟩

end Squint.Lib
