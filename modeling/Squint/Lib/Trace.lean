import Mathlib.Data.List.Infix
import Mathlib.Tactic.Common

/-! Deterministic machines that report what they do, and a rule by which two of them report the
same once the entries that do not count are deleted. -/
namespace Squint.Lib

variable {σ σ' ε : Type}

/-- `n` steps, with all they report. -/
def runFor (step : σ → Option (σ × List ε)) : ℕ → σ → Option (σ × List ε)
  | 0, s => some (s, [])
  | n + 1, s => (step s).bind fun p => (runFor step n p.1).map fun q => (q.1, p.2 ++ q.2)

theorem runFor_succ {step : σ → Option (σ × List ε)} {n : ℕ} {s u : σ} {L : List ε} :
    runFor step (n + 1) s = some (u, L) ↔
      ∃ t L₁ L₂, step s = some (t, L₁) ∧ runFor step n t = some (u, L₂) ∧ L = L₁ ++ L₂ := by
  simp only [runFor, Option.bind_eq_some_iff, Option.map_eq_some_iff, Prod.exists, Prod.mk.injEq]
  constructor
  · rintro ⟨t, L₁, h₁, _, L₂, h₂, rfl, rfl⟩
    exact ⟨t, L₁, L₂, h₁, h₂, rfl⟩
  · rintro ⟨t, L₁, L₂, h₁, h₂, rfl⟩
    exact ⟨t, L₁, h₁, u, L₂, h₂, rfl, rfl⟩

theorem runFor_one {step : σ → Option (σ × List ε)} {s t : σ} {L : List ε}
    (h : step s = some (t, L)) : runFor step 1 s = some (t, L) :=
  runFor_succ.mpr ⟨t, L, [], h, rfl, by simp⟩

theorem runFor_add {step : σ → Option (σ × List ε)} {m n : ℕ} {s u : σ} {L : List ε} :
    runFor step (m + n) s = some (u, L) ↔
      ∃ t L₁ L₂, runFor step m s = some (t, L₁) ∧ runFor step n t = some (u, L₂) ∧
        L = L₁ ++ L₂ := by
  induction m generalizing s L with
  | zero =>
    simp only [Nat.zero_add, runFor, Option.some.injEq, Prod.mk.injEq]
    constructor
    · intro h
      exact ⟨s, [], L, ⟨rfl, rfl⟩, h, rfl⟩
    · rintro ⟨_, _, L₂, ⟨rfl, rfl⟩, h, rfl⟩
      exact h
  | succ m ih =>
    rw [Nat.add_right_comm]
    constructor
    · intro h
      obtain ⟨t, L₁, _, hs, hr, rfl⟩ := runFor_succ.mp h
      obtain ⟨v, L₂, L₃, hv, hu, rfl⟩ := ih.mp hr
      exact ⟨v, L₁ ++ L₂, L₃, runFor_succ.mpr ⟨t, L₁, L₂, hs, hv, rfl⟩, hu, by simp⟩
    · rintro ⟨v, _, L₃, hv, hu, rfl⟩
      obtain ⟨t, L₁, L₂, hs, hr, rfl⟩ := runFor_succ.mp hv
      exact runFor_succ.mpr ⟨t, L₁, L₂ ++ L₃, hs, ih.mpr ⟨v, L₂, L₃, hr, hu, rfl⟩, by simp⟩

/-- What holds at first and is kept by every step, together with its report, holds throughout. -/
theorem runFor_invariant {step : σ → Option (σ × List ε)} {I : σ → List ε → Prop}
    (hstep : ∀ s L₀ t L, I s L₀ → step s = some (t, L) → I t (L₀ ++ L)) {n : ℕ} {s t : σ}
    {L₀ L : List ε} (hs : I s L₀) (h : runFor step n s = some (t, L)) : I t (L₀ ++ L) := by
  induction n generalizing s L₀ L with
  | zero =>
    simp only [runFor, Option.some.injEq, Prod.mk.injEq] at h
    obtain ⟨rfl, rfl⟩ := h
    simpa using hs
  | succ n ih =>
    obtain ⟨u, L₁, L₂, h₁, h₂, rfl⟩ := runFor_succ.mp h
    rw [← List.append_assoc]
    exact ih (hstep _ _ _ _ hs h₁) h₂

section
variable (step : σ → Option (σ × List ε)) (vis : ε → Bool)

/-- `n` steps lead from `s` to `t` and show `V`. -/
def Reaches (n : ℕ) (s t : σ) (V : List ε) : Prop :=
  ∃ L, runFor step n s = some (t, L) ∧ L.filter vis = V

/-- The same, with nothing to be seen before the last step. -/
def Leap (n : ℕ) (s t : σ) (V : List ε) : Prop :=
  Reaches step vis n s t V ∧ ∀ m < n, ∀ u V', Reaches step vis m s u V' → V' = []

/-- `P` holds of every state that a run from `s` comes to. -/
def Always (P : σ → Prop) (s : σ) : Prop := ∀ n t L, runFor step n s = some (t, L) → P t

/-- Some run from `s` shows `V` first. -/
def Observes (s : σ) (V : List ε) : Prop := ∃ n t V', Reaches step vis n s t V' ∧ V <+: V'

/-- The run from `s` shows `V` and ends in `t`. -/
def Halts (s t : σ) (V : List ε) : Prop := (∃ n, Reaches step vis n s t V) ∧ step t = none

end

section
variable {step : σ → Option (σ × List ε)} {vis : ε → Bool} {m n : ℕ} {s t u : σ} {V V' : List ε}

theorem Reaches.refl (s : σ) : Reaches step vis 0 s s [] := ⟨[], rfl, rfl⟩

theorem Reaches.zero (h : Reaches step vis 0 s t V) : t = s ∧ V = [] := by
  obtain ⟨L, h, rfl⟩ := h
  simp only [runFor, Option.some.injEq, Prod.mk.injEq] at h
  obtain ⟨rfl, rfl⟩ := h
  exact ⟨rfl, rfl⟩

theorem Reaches.trans (h : Reaches step vis m s t V) (h' : Reaches step vis n t u V') :
    Reaches step vis (m + n) s u (V ++ V') := by
  obtain ⟨L, h, rfl⟩ := h
  obtain ⟨L', h', rfl⟩ := h'
  exact ⟨L ++ L', runFor_add.mpr ⟨t, L, L', h, h', rfl⟩, by simp⟩

theorem Reaches.split (h : Reaches step vis m s t V) (h' : Reaches step vis (m + n) s u V') :
    ∃ V'', Reaches step vis n t u V'' ∧ V' = V ++ V'' := by
  obtain ⟨L, h, rfl⟩ := h
  obtain ⟨_, h', rfl⟩ := h'
  obtain ⟨t', L₁, L₂, h₁, h₂, rfl⟩ := runFor_add.mp h'
  rw [h] at h₁
  simp only [Option.some.injEq, Prod.mk.injEq] at h₁
  obtain ⟨rfl, rfl⟩ := h₁
  exact ⟨_, ⟨L₂, h₂, rfl⟩, by simp⟩

theorem Reaches.not_halted (h : Reaches step vis n s t V) (h' : Reaches step vis m s u V')
    (hlt : n < m) : step t ≠ none := by
  obtain ⟨k, rfl⟩ := Nat.exists_eq_add_of_lt hlt
  rw [Nat.add_assoc] at h'
  obtain ⟨V'', ⟨L, hL, -⟩, -⟩ := h.split h'
  obtain ⟨v, L₁, L₂, hs, -, -⟩ := runFor_succ.mp hL
  simp [hs]

theorem Leap.one {L : List ε} (h : step s = some (t, L)) :
    Leap step vis 1 s t (L.filter vis) := by
  refine ⟨⟨L, runFor_one h, rfl⟩, fun m hm u V' hu => ?_⟩
  obtain rfl : m = 0 := by omega
  exact hu.zero.2

/-- Either the run is still inside the leap, and silent, or it goes on from its end. -/
theorem Leap.cases (h : Leap step vis m s t V) (h' : Reaches step vis n s u V') :
    (n < m ∧ V' = []) ∨ ∃ k V'', n = m + k ∧ Reaches step vis k t u V'' ∧ V' = V ++ V'' := by
  rcases Nat.lt_or_ge n m with hlt | hge
  · exact .inl ⟨hlt, h.2 n hlt u V' h'⟩
  · obtain ⟨k, rfl⟩ := Nat.exists_eq_add_of_le hge
    obtain ⟨V'', hV, rfl⟩ := h.1.split h'
    exact .inr ⟨k, V'', rfl, hV, rfl⟩

/-- Where a leap ends in a halted state, nothing comes after it. -/
theorem Leap.ended (h : Leap step vis m s t V) (ht : step t = none)
    (hu : Reaches step vis n s u V') : (n < m ∧ V' = []) ∨ (n = m ∧ u = t ∧ V' = V) := by
  rcases h.cases hu with hlt | ⟨k, V'', rfl, hk, rfl⟩
  · exact .inl hlt
  · cases k with
    | zero =>
      obtain ⟨rfl, rfl⟩ := hk.zero
      exact .inr ⟨rfl, rfl, by simp⟩
    | succ k =>
      have hz : Reaches step vis 0 t t [] := .refl t
      exact absurd ht (hz.not_halted hk (by omega))

theorem Leap.refl (s : σ) : Leap step vis 0 s s [] := ⟨.refl s, by simp⟩

/-- A leap after silent steps is a leap. -/
theorem Leap.trans (h : Leap step vis m s t []) (h' : Leap step vis n t u V) :
    Leap step vis (m + n) s u V := by
  refine ⟨h.1.trans h'.1, fun k hk v V' hv => ?_⟩
  rcases h.cases hv with ⟨-, hnil⟩ | ⟨j, V'', rfl, hj, rfl⟩
  · exact hnil
  · exact h'.2 j (by omega) v _ hj

theorem Always.of_reaches {P : σ → Prop} (h : Always step P s) (hr : Reaches step vis n s t V) :
    Always step P t := by
  obtain ⟨L, hL, -⟩ := hr
  exact fun k u L' hu => h (n + k) u (L ++ L') (runFor_add.mpr ⟨t, L, L', hL, hu, rfl⟩)

theorem Always.of_step {P : σ → Prop} (hstep : ∀ s t L, P s → step s = some (t, L) → P t)
    (hs : P s) : Always step P s := by
  intro n
  induction n generalizing s with
  | zero =>
    intro t L h
    simp only [runFor, Option.some.injEq, Prod.mk.injEq] at h
    exact h.1 ▸ hs
  | succ n ih =>
    intro t L h
    obtain ⟨u, L₁, L₂, h₁, h₂, -⟩ := runFor_succ.mp h
    exact ih (hstep s u L₁ hs h₁) t L₂ h₂

theorem Always.imp {P Q : σ → Prop} (h : Always step P s) (hPQ : ∀ t, P t → Q t) :
    Always step Q s := fun n t L ht => hPQ t (h n t L ht)

theorem Always.here {P : σ → Prop} (h : Always step P s) : P s := h 0 s [] rfl

theorem Observes.mono (h : Observes step vis s V') (hp : V <+: V') : Observes step vis s V := by
  obtain ⟨n, t, V'', hr, hp'⟩ := h
  exact ⟨n, t, V'', hr, hp.trans hp'⟩

theorem Observes.nil (s : σ) : Observes step vis s [] := ⟨0, s, [], .refl s, List.nil_prefix⟩

theorem Observes.after (h : Reaches step vis n s t V) (h' : Observes step vis t V') :
    Observes step vis s (V ++ V') := by
  obtain ⟨k, u, V'', hu, hp⟩ := h'
  exact ⟨n + k, u, V ++ V'', h.trans hu, (List.prefix_append_right_inj V).mpr hp⟩

theorem Halts.after (h : Reaches step vis n s t V) (h' : Halts step vis t u V') :
    Halts step vis s u (V ++ V') := by
  obtain ⟨⟨k, hk⟩, hu⟩ := h'
  exact ⟨⟨n + k, h.trans hk⟩, hu⟩

end

section
variable (step : σ → Option (σ × List ε)) (step' : σ' → Option (σ' × List ε)) (vis : ε → Bool)
variable (R : σ → σ' → Prop) (μ : σ' → ℕ) (F : σ → σ' → Prop)

/-- What two related states may do: both leap and show the same, the second one goes on alone
and gets closer to a common step, or both end. -/
inductive Matched (s : σ) (s' : σ') : Prop
  | both {m m' t t' V} (h : Leap step vis (m + 1) s t V) (h' : Leap step' vis (m' + 1) s' t' V)
      (hr : R t t')
  | alone {m' t'} (h' : Leap step' vis (m' + 1) s' t' []) (hμ : μ t' < μ s') (hr : R s t')
  | ended {m m' t t'} (h : Leap step vis m s t []) (ht : step t = none)
      (h' : Leap step' vis m' s' t' []) (ht' : step' t' = none) (hf : F t t')

/-- Every state related to another is matched by it. -/
def Bisimulation : Prop := ∀ s s', R s s' → Matched step step' vis R μ F s s'

end

section
variable {step : σ → Option (σ × List ε)} {step' : σ' → Option (σ' × List ε)} {vis : ε → Bool}
variable {R : σ → σ' → Prop} {μ : σ' → ℕ} {F : σ → σ' → Prop}

/-- Both go on silently to states whose next steps match, or that have none. -/
theorem Matched.of_steps {m m' : ℕ} {s t : σ} {s' t' : σ'} (h : Leap step vis m s t [])
    (h' : Leap step' vis m' s' t' []) (hf : F t t')
    (hstep : Option.Rel (fun p p' => R p.1 p'.1 ∧ p'.2.filter vis = p.2.filter vis)
      (step t) (step' t')) : Matched step step' vis R μ F s s' := by
  generalize ho : step t = o at hstep
  generalize ho' : step' t' = o' at hstep
  cases hstep with
  | none => exact .ended h ho h' ho' hf
  | some hp => exact .both (h.trans (.one ho)) (hp.2 ▸ h'.trans (.one ho')) hp.1

/-- What the states of the second machine satisfy on all their way may be used. -/
theorem Bisimulation.of_always {P : σ' → Prop}
    (h : ∀ s s', R s s' → P s' → Matched step step' vis R μ F s s') :
    Bisimulation step step' vis (fun s s' => R s s' ∧ Always step' P s') μ F := by
  rintro s s' ⟨hr, hP⟩
  cases h s s' hr hP.here with
  | both hl hl' hr' => exact .both hl hl' ⟨hr', hP.of_reaches hl'.1⟩
  | alone hl' hμ hr' => exact .alone hl' hμ ⟨hr', hP.of_reaches hl'.1⟩
  | ended hl ht hl' ht' hf => exact .ended hl ht hl' ht' hf

end

namespace Bisimulation

variable {step : σ → Option (σ × List ε)} {step' : σ' → Option (σ' × List ε)} {vis : ε → Bool}
variable {R : σ → σ' → Prop} {μ : σ' → ℕ} {F : σ → σ' → Prop}
variable (hb : Bisimulation step step' vis R μ F)
include hb

theorem observes_right {n : ℕ} {s u : σ} {s' : σ'} {V : List ε} (hr : R s s')
    (h : Reaches step vis n s u V) : Observes step' vis s' V := by
  induction n using Nat.strong_induction_on generalizing s s' V with
  | _ n ihn =>
    induction hk : μ s' using Nat.strong_induction_on generalizing s' with
    | _ k ihk =>
      cases hb s s' hr with
      | both hl hl' hr' =>
        rcases hl.cases h with ⟨-, rfl⟩ | ⟨j, V'', rfl, hj, rfl⟩
        · exact .nil s'
        · exact (ihn j (by omega) hr' hj).after hl'.1
      | alone hl' hμ hr' =>
        simpa using (ihk _ (hk ▸ hμ) hr' rfl).after hl'.1
      | ended hl ht _ _ _ =>
        rcases hl.ended ht h with ⟨-, rfl⟩ | ⟨-, -, rfl⟩ <;> exact .nil s'

theorem observes_left {n : ℕ} {s : σ} {s' u' : σ'} {V : List ε} (hr : R s s')
    (h : Reaches step' vis n s' u' V) : Observes step vis s V := by
  induction n using Nat.strong_induction_on generalizing s s' V with
  | _ n ihn =>
    cases hb s s' hr with
    | both hl hl' hr' =>
      rcases hl'.cases h with ⟨-, rfl⟩ | ⟨j, V'', rfl, hj, rfl⟩
      · exact .nil s
      · exact (ihn j (by omega) hr' hj).after hl.1
    | alone hl' _ hr' =>
      rcases hl'.cases h with ⟨-, rfl⟩ | ⟨j, V'', rfl, hj, rfl⟩
      · exact .nil s
      · simpa using ihn j (by omega) hr' hj
    | ended _ _ hl' ht' _ =>
      rcases hl'.ended ht' h with ⟨-, rfl⟩ | ⟨-, -, rfl⟩ <;> exact .nil s

/-- Related states can show the same. -/
theorem observes_iff {s : σ} {s' : σ'} (hr : R s s') (V : List ε) :
    Observes step vis s V ↔ Observes step' vis s' V := by
  constructor
  · rintro ⟨n, t, V', h, hp⟩
    exact (hb.observes_right hr h).mono hp
  · rintro ⟨n, t, V', h, hp⟩
    exact (hb.observes_left hr h).mono hp

theorem halts_right {s t : σ} {s' : σ'} {V : List ε} (hr : R s s') (h : Halts step vis s t V) :
    ∃ t', Halts step' vis s' t' V ∧ F t t' := by
  obtain ⟨⟨n, h⟩, ht⟩ := h
  induction n using Nat.strong_induction_on generalizing s s' V with
  | _ n ihn =>
    induction hk : μ s' using Nat.strong_induction_on generalizing s' with
    | _ k ihk =>
      cases hb s s' hr with
      | both hl hl' hr' =>
        rcases hl.cases h with ⟨hlt, -⟩ | ⟨j, V'', rfl, hj, rfl⟩
        · exact absurd ht (h.not_halted hl.1 hlt)
        · obtain ⟨t', hh, hf⟩ := ihn j (by omega) hr' hj
          exact ⟨t', hh.after hl'.1, hf⟩
      | alone hl' hμ hr' =>
        obtain ⟨t', hh, hf⟩ := ihk _ (hk ▸ hμ) hr' rfl
        exact ⟨t', by simpa using hh.after hl'.1, hf⟩
      | ended hl ht₁ hl' ht' hf =>
        rcases hl.ended ht₁ h with ⟨hlt, -⟩ | ⟨-, rfl, rfl⟩
        · exact absurd ht (h.not_halted hl.1 hlt)
        · exact ⟨_, ⟨⟨_, hl'.1⟩, ht'⟩, hf⟩

theorem halts_left {s : σ} {s' t' : σ'} {V : List ε} (hr : R s s') (h : Halts step' vis s' t' V) :
    ∃ t, Halts step vis s t V ∧ F t t' := by
  obtain ⟨⟨n, h⟩, ht'⟩ := h
  induction n using Nat.strong_induction_on generalizing s s' V with
  | _ n ihn =>
    cases hb s s' hr with
    | both hl hl' hr' =>
      rcases hl'.cases h with ⟨hlt, -⟩ | ⟨j, V'', rfl, hj, rfl⟩
      · exact absurd ht' (h.not_halted hl'.1 hlt)
      · obtain ⟨t, hh, hf⟩ := ihn j (by omega) hr' hj
        exact ⟨t, hh.after hl.1, hf⟩
    | alone hl' _ hr' =>
      rcases hl'.cases h with ⟨hlt, -⟩ | ⟨j, V'', rfl, hj, rfl⟩
      · exact absurd ht' (h.not_halted hl'.1 hlt)
      · simpa using ihn j (by omega) hr' hj
    | ended hl ht hl' ht₁ hf =>
      rcases hl'.ended ht₁ h with ⟨hlt, -⟩ | ⟨-, rfl, rfl⟩
      · exact absurd ht' (h.not_halted hl'.1 hlt)
      · exact ⟨_, ⟨⟨_, hl.1⟩, ht⟩, hf⟩

end Bisimulation

end Squint.Lib
