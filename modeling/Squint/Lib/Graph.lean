import Mathlib.Logic.Relation
import Mathlib.Tactic.Common

/-! Graphs that grow: what is reached when edges or vertices are added. -/
namespace Squint.Lib

open Relation

variable {α : Type}

/-- Where new edges start only at `T`, a path follows old edges, at least up to `T`. -/
theorem transGen_of_added {r s : α → α → Prop} {T : α → Prop} (h : ∀ a b, s a b → r a b ∨ T a)
    {a b : α} (ha : ¬ T a) (hs : TransGen s a b) :
    TransGen r a b ∨ ∃ c, TransGen r a c ∧ T c := by
  induction hs with
  | single hab =>
    rcases h _ _ hab with hr | hT
    · exact .inl (.single hr)
    · exact absurd hT ha
  | tail _ hbc ih =>
    rcases ih with ih | ih
    · rcases h _ _ hbc with hr | hT
      · exact .inl (ih.tail hr)
      · exact .inr ⟨_, ih, hT⟩
    · exact .inr ih

/-! ## Dominance -/

/-- `b` is reached from `s` without passing `a`. -/
def ReachesWithout (r : α → α → Prop) (s a b : α) : Prop :=
  s ≠ a ∧ ReflTransGen (fun x y => r x y ∧ y ≠ a) s b

/-- Every path from `s` to `b` passes `a`. -/
def Dominates (r : α → α → Prop) (s a b : α) : Prop := ¬ ReachesWithout r s a b

section
variable {r : α → α → Prop} {s a b c : α}

theorem ReachesWithout.reaches (h : ReachesWithout r s a b) : ReflTransGen r s b :=
  ReflTransGen.mono (fun _ _ hxy => hxy.1) _ _ h.2

theorem ReachesWithout.ne (h : ReachesWithout r s a b) : b ≠ a := by
  rcases h.2.cases_tail with rfl | ⟨c, -, hcb⟩
  · exact h.1
  · exact hcb.2

theorem ReachesWithout.tail (h : ReachesWithout r s a b) (hbc : r b c) (hc : c ≠ a) :
    ReachesWithout r s a c :=
  ⟨h.1, h.2.tail ⟨hbc, hc⟩⟩

/-- What cannot be reached is dominated by everything. -/
theorem Dominates.of_not_reaches (h : ¬ ReflTransGen r s b) : Dominates r s a b :=
  fun hr => h hr.reaches

end

variable {β : Type}

/-- `r'` is `r` with the new vertex `n` put in front of `m`: what led to `m` leads to `n` now, and
`n` leads to `m` only. -/
structure InsertedBefore (r : α → α → Prop) (s : α) (r' : β → β → Prop) (s' : β) (f : α → β) (n : β)
    (m : α) : Prop where
  inj : Function.Injective f
  fresh : ∀ v, f v ≠ n
  surj : ∀ v', v' = n ∨ ∃ v, f v = v'
  start : s = m ∧ s' = n ∨ s ≠ m ∧ s' = f s
  old : ∀ u v, v ≠ m → (r' (f u) (f v) ↔ r u v)
  into : ∀ u, r' (f u) n ↔ r u m
  skip : ∀ u, ¬ r' (f u) (f m)
  next : ∀ v', r' n v' ↔ v' = f m

namespace InsertedBefore

variable {r : α → α → Prop} {s : α} {r' : β → β → Prop} {s' : β} {f : α → β} {n : β} {m : α}
  {a b : α}

theorem project (h : InsertedBefore r s r' s' f n m) {v' : β} (hv : ReachesWithout r' s' (f a) v') :
    (v' = n → a ≠ m → ReachesWithout r s a m) ∧ ∀ v, v' = f v → ReachesWithout r s a v := by
  obtain ⟨hstart, hpath⟩ := hv
  induction hpath with
  | refl =>
    rcases h.start with ⟨rfl, rfl⟩ | ⟨hne, rfl⟩
    · exact ⟨fun _ ha => ⟨ha.symm, .refl⟩, fun v hv => absurd hv.symm (h.fresh v)⟩
    · refine ⟨fun heq => absurd heq (h.fresh s), fun v hv => ?_⟩
      obtain rfl := h.inj hv
      exact ⟨fun heq => hstart (congrArg f heq), .refl⟩
  | @tail u' v' _ hstep ih =>
    obtain ⟨hedge, hne⟩ := hstep
    rcases h.surj u' with rfl | ⟨u, rfl⟩
    · obtain rfl := (h.next v').mp hedge
      have ha : a ≠ m := fun heq => hne (congrArg f heq.symm)
      refine ⟨fun heq => absurd heq (h.fresh m), fun v hv => ?_⟩
      obtain rfl := h.inj hv
      exact ih.1 rfl ha
    · have hu := ih.2 u rfl
      constructor
      · rintro rfl ha
        exact hu.tail ((h.into u).mp hedge) ha.symm
      · rintro v rfl
        by_cases hv : v = m
        · exact absurd (hv ▸ hedge) (h.skip u)
        · exact hu.tail ((h.old u v hv).mp hedge) fun heq => hne (congrArg f heq)

theorem lift (h : InsertedBefore r s r' s' f n m) (hb : ReachesWithout r s a b) :
    ReachesWithout r' s' (f a) (f b) := by
  obtain ⟨hstart, hpath⟩ := hb
  induction hpath with
  | refl =>
    have hne : f s ≠ f a := fun heq => hstart (h.inj heq)
    rcases h.start with ⟨rfl, rfl⟩ | ⟨-, rfl⟩
    · exact ⟨(h.fresh a).symm, .single ⟨(h.next _).mpr rfl, hne⟩⟩
    · exact ⟨hne, .refl⟩
  | @tail u v _ hstep ih =>
    obtain ⟨hedge, hne⟩ := hstep
    have hne' : f v ≠ f a := fun heq => hne (h.inj heq)
    by_cases hv : v = m
    · subst hv
      have hn := ih.tail ((h.into u).mpr hedge) (h.fresh a).symm
      exact hn.tail ((h.next _).mpr rfl) hne'
    · exact ih.tail ((h.old u v hv).mpr hedge) hne'

theorem dominates_iff (h : InsertedBefore r s r' s' f n m) :
    Dominates r' s' (f a) (f b) ↔ Dominates r s a b :=
  not_congr ⟨fun hb => (h.project hb).2 b rfl, h.lift⟩

/-- What dominates the old vertex from further up dominates the new one. -/
theorem dominates_new (h : InsertedBefore r s r' s' f n m) (ha : a ≠ m) (hd : Dominates r s a m) :
    Dominates r' s' (f a) n :=
  fun hn => hd ((h.project hn).1 rfl ha)

theorem new_dominates (h : InsertedBefore r s r' s' f n m) : Dominates r' s' n (f m) := by
  rintro ⟨hstart, hpath⟩
  rcases hpath.cases_tail with heq | ⟨u', hu', hedge, -⟩
  · rcases h.start with ⟨-, rfl⟩ | ⟨hne, rfl⟩
    · exact hstart rfl
    · exact hne (h.inj heq.symm)
  · rcases h.surj u' with rfl | ⟨u, rfl⟩
    · exact ReachesWithout.ne ⟨hstart, hu'⟩ rfl
    · exact h.skip u hedge

theorem reaches_old (h : InsertedBefore r s r' s' f n m) {v' : β} (hv : ReflTransGen r' s' v') :
    (v' = n → ReflTransGen r s m) ∧ ∀ v, v' = f v → ReflTransGen r s v := by
  induction hv with
  | refl =>
    rcases h.start with ⟨rfl, rfl⟩ | ⟨-, rfl⟩
    · exact ⟨fun _ => .refl, fun v hv => absurd hv.symm (h.fresh v)⟩
    · refine ⟨fun heq => absurd heq (h.fresh s), fun v hv => ?_⟩
      obtain rfl := h.inj hv
      exact .refl
  | @tail u' v' _ hedge ih =>
    rcases h.surj u' with rfl | ⟨u, rfl⟩
    · obtain rfl := (h.next v').mp hedge
      refine ⟨fun heq => absurd heq (h.fresh m), fun v hv => ?_⟩
      obtain rfl := h.inj hv
      exact ih.1 rfl
    · have hu := ih.2 u rfl
      constructor
      · rintro rfl
        exact hu.tail ((h.into u).mp hedge)
      · rintro v rfl
        by_cases hv : v = m
        · exact absurd (hv ▸ hedge) (h.skip u)
        · exact hu.tail ((h.old u v hv).mp hedge)

end InsertedBefore

end Squint.Lib
