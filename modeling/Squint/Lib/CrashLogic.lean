import Squint.Lib.PersistentMemory

/-! Programs over persistent memory. A program may fail after any of its operations, so a
specification says what holds at the end and what holds at every failure on the way. -/
namespace Squint.Lib

/-- A program reads the memory it is started in and says what it returns and which operations it
does. -/
structure Prog {α ι : Type} (line : α → ι) (β ρ : Type) where
  run : (α → Cell β) → ρ × List (MemOp α β)

namespace Prog

section

variable {α ι : Type} {line : α → ι} {β ρ : Type} {m : α → Cell β}

def val (p : Prog line β ρ) (m : α → Cell β) : ρ := (p.run m).1

def ops (p : Prog line β ρ) (m : α → Cell β) : List (MemOp α β) := (p.run m).2

def emitAll (os : List (MemOp α β)) : Prog line β Unit := ⟨fun _ => ((), os)⟩

def emit (o : MemOp α β) : Prog line β Unit := emitAll [o]

def store (a : α) (v : β) : Prog line β Unit := emit (.store a v)

def load (a : α) : Prog line β β := ⟨fun m => ((m a).now, [])⟩

-- Here and below the proofs are `(rfl)` so that `simp` does not leave the unfolding of programs to
-- the kernel.
@[simp] theorem val_emitAll (os : List (MemOp α β)) :
    (emitAll os : Prog line β Unit).val m = () := (rfl)
@[simp] theorem ops_emitAll (os : List (MemOp α β)) :
    (emitAll os : Prog line β Unit).ops m = os := (rfl)
@[simp] theorem val_emit (o : MemOp α β) : (emit o : Prog line β Unit).val m = () := (rfl)
@[simp] theorem ops_emit (o : MemOp α β) : (emit o : Prog line β Unit).ops m = [o] := (rfl)
@[simp] theorem ops_store (a : α) (v : β) :
    (store a v : Prog line β Unit).ops m = [MemOp.store a v] := (rfl)
@[simp] theorem val_load (a : α) : (load a : Prog line β β).val m = (m a).now := (rfl)
@[simp] theorem ops_load (a : α) : (load a : Prog line β β).ops m = [] := (rfl)

@[simp] theorem val_ite (c : Prop) [Decidable c] (p q : Prog line β ρ) :
    (if c then p else q).val m = if c then p.val m else q.val m := apply_ite (val · m) c p q

@[simp] theorem ops_ite (c : Prop) [Decidable c] (p q : Prog line β ρ) :
    (if c then p else q).ops m = if c then p.ops m else q.ops m := apply_ite (ops · m) c p q

theorem ext {p q : Prog line β ρ} (hv : ∀ m, p.val m = q.val m) (ho : ∀ m, p.ops m = q.ops m) :
    p = q := by
  cases p
  cases q
  exact congrArg mk (funext fun m => Prod.ext (hv m) (ho m))

end

section

variable {α ι : Type} [DecidableEq α] {line : α → ι} {β ρ : Type} {R S : α → Prop}
  {p : Prog line β ρ} {m : α → Cell β} {a : α}

def Within (R : α → Prop) (p : Prog line β ρ) : Prop :=
  ∀ m, ∀ o ∈ p.ops m, ∀ a v, o.storedTo a = some v → R a

theorem Within.load (R : α → Prop) (a : α) : Within R (load a : Prog line β β) := by
  intro m o ho
  simp at ho

theorem Within.store {v : β} (h : R a) : Within R (store a v : Prog line β Unit) := by
  intro m o ho x w hw
  obtain rfl : o = MemOp.store a v := by simpa using ho
  simp only [MemOp.storedTo] at hw
  split_ifs at hw with hx
  exact hx ▸ h

theorem Within.emitAll {os : List (MemOp α β)} (h : ∀ o ∈ os, ∀ a, o.storedTo a = none) :
    Within R (emitAll os : Prog line β Unit) := by
  intro m o ho a v hv
  rw [h o ho a] at hv
  cases hv

theorem Within.mono (h : Within R p) (hRS : ∀ a, R a → S a) : Within S p :=
  fun m o ho a v hv => hRS a (h m o ho a v hv)

theorem Within.unstored (h : Within R p) (ha : ¬R a) : Unstored a (p.ops m) := by
  intro o ho
  cases hv : o.storedTo a with
  | none => rfl
  | some v => exact (ha (h m o ho a v hv)).elim

theorem Within.unstored_of_prefix (h : Within R p) (ha : ¬R a) {xs : List (MemOp α β)}
    (hx : xs <+: p.ops m) : Unstored a xs :=
  fun o ho => h.unstored ha o (hx.subset ho)

end

variable {α ι : Type} [DecidableEq α] [DecidableEq ι] {line : α → ι} {β ρ τ : Type}

def after (p : Prog line β ρ) (m : α → Cell β) : α → Cell β := exec line m (p.ops m)

theorem after_congr {p : Prog line β ρ} {q : Prog line β τ} {m : α → Cell β}
    (h : p.ops m = q.ops m) : p.after m = q.after m := by
  rw [after, after, h]

instance : Monad (Prog line β) where
  pure a := ⟨fun _ => (a, [])⟩
  bind p f := ⟨fun m => ((f (p.val m)).val (p.after m), p.ops m ++ (f (p.val m)).ops (p.after m))⟩

section

variable {p : Prog line β ρ} {f : ρ → Prog line β τ} {m : α → Cell β}

@[simp] theorem val_pure (a : ρ) : (pure a : Prog line β ρ).val m = a := (rfl)
@[simp] theorem ops_pure (a : ρ) : (pure a : Prog line β ρ).ops m = [] := (rfl)
@[simp] theorem after_pure (a : ρ) : (pure a : Prog line β ρ).after m = m := (rfl)

@[simp] theorem val_bind : (p >>= f).val m = (f (p.val m)).val (p.after m) := (rfl)
@[simp] theorem ops_bind : (p >>= f).ops m = p.ops m ++ (f (p.val m)).ops (p.after m) := (rfl)

@[simp] theorem after_bind : (p >>= f).after m = (f (p.val m)).after (p.after m) := by
  simp [after]

@[simp] theorem val_map (g : ρ → τ) : (g <$> p).val m = g (p.val m) := (rfl)

@[simp] theorem ops_map (g : ρ → τ) : (g <$> p).ops m = p.ops m := List.append_nil (p.ops m)

@[simp] theorem after_map (g : ρ → τ) : (g <$> p).after m = p.after m := by
  rw [after, ops_map, after]

@[simp] theorem after_ite (c : Prop) [Decidable c] (p q : Prog line β ρ) :
    (if c then p else q).after m = if c then p.after m else q.after m := apply_ite (after · m) c p q

@[simp] theorem after_load (a : α) : (load a : Prog line β β).after m = m := (rfl)

instance : LawfulMonad (Prog line β) :=
  LawfulMonad.mk' (Prog line β)
    (fun p => ext (fun _ => rfl) fun m => List.append_nil (p.ops m))
    (fun _ _ => rfl)
    (fun p f g => ext (fun m => by simp) fun m => by simp [List.append_assoc])

end

section

variable {R : α → Prop} {p : Prog line β ρ} {f : ρ → Prog line β τ} {m : α → Cell β} {a : α}

theorem Within.pure (R : α → Prop) (r : ρ) : Within R (pure r : Prog line β ρ) := by
  intro m o ho
  simp at ho

theorem Within.bind (hp : Within R p) (hf : ∀ r, Within R (f r)) : Within R (p >>= f) := by
  intro m o ho
  obtain ho | ho := List.mem_append.mp ho
  · exact hp m o ho
  · exact hf _ _ o ho

/-- What is outside stays as it is, at the end and at every failure. -/
theorem Within.sure (h : Within R p) (ha : ¬R a) {v : β} (hs : (m a).Sure v)
    {xs : List (MemOp α β)} (hx : xs <+: p.ops m) : (exec line m xs a).Sure v :=
  sure_exec hs (h.unstored_of_prefix ha hx)

theorem Within.sure_after (h : Within R p) (ha : ¬R a) {v : β} (hs : (m a).Sure v) :
    (p.after m a).Sure v :=
  h.sure ha hs List.prefix_rfl

theorem Within.now_after (h : Within R p) (ha : ¬R a) : (p.after m a).now = (m a).now :=
  now_exec (h.unstored ha)

end

/-- What it returns and what it leaves in the words of `W` depends only on what was in them. -/
def DependsOn (W : α → Prop) (p : Prog line β ρ) : Prop :=
  ∀ m m', (∀ a, W a → (m a).now = (m' a).now) →
    p.val m = p.val m' ∧ ∀ a, W a → (p.after m a).now = (p.after m' a).now

section

variable {W R : α → Prop} {p : Prog line β ρ} {f : ρ → Prog line β τ} {a : α}

theorem DependsOn.pure (W : α → Prop) (r : ρ) : DependsOn W (pure r : Prog line β ρ) :=
  fun _ _ hm => ⟨rfl, hm⟩

theorem DependsOn.load (h : W a) : DependsOn W (load a : Prog line β β) :=
  fun _ _ hm => ⟨hm a h, hm⟩

theorem DependsOn.emitAll (W : α → Prop) (os : List (MemOp α β)) :
    DependsOn W (emitAll os : Prog line β Unit) :=
  fun _ _ hm => ⟨rfl, fun a ha => now_exec_congr (hm a ha)⟩

theorem DependsOn.bind (hp : DependsOn W p) (hf : ∀ r, DependsOn W (f r)) :
    DependsOn W (p >>= f) := by
  intro m m' hm
  obtain ⟨hv, hafter⟩ := hp m m' hm
  obtain ⟨hv', hafter'⟩ := hf (p.val m) _ _ hafter
  rw [val_bind, val_bind, after_bind, after_bind, ← hv]
  exact ⟨hv', hafter'⟩

theorem DependsOn.of_within {p : Prog line β Unit} (h : Within R p) (hR : ∀ a, W a → ¬R a) :
    DependsOn W p := by
  intro m m' hm
  refine ⟨rfl, fun a ha => ?_⟩
  rw [h.now_after (hR a ha), h.now_after (hR a ha)]
  exact hm a ha

end

/-- At the end nothing is left to write back in the words of `S`. -/
def WritesBack (S : α → Prop) (p : Prog line β ρ) : Prop := ∀ m a, S a → (p.after m a).Ready

section

variable {R S T : α → Prop} {p : Prog line β ρ} {f : ρ → Prog line β τ}

theorem WritesBack.bind_last (hf : ∀ r, WritesBack S (f r)) : WritesBack S (p >>= f) := by
  intro m a ha
  rw [after_bind]
  exact hf _ _ a ha

theorem WritesBack.bind_first (hp : WritesBack S p) (hf : ∀ r, Within R (f r))
    (hRS : ∀ a, S a → ¬R a) : WritesBack S (p >>= f) := by
  intro m a ha
  rw [after_bind]
  exact ready_exec (hp m a ha) ((hf _).unstored (hRS a ha))

theorem WritesBack.mono (h : WritesBack S p) (hT : ∀ a, T a → S a) : WritesBack T p :=
  fun m a ha => h m a (hT a ha)

theorem WritesBack.or (hS : WritesBack S p) (hT : WritesBack T p) :
    WritesBack (fun a => S a ∨ T a) p :=
  fun m a ha => ha.elim (hS m a) (hT m a)

end

/-- Started where `P` holds, the program ends where `Q` holds, and wherever it fails `C` holds. -/
def Spec (P : (α → Cell β) → Prop) (p : Prog line β ρ) (Q : ρ → (α → Cell β) → Prop)
    (C : (α → Cell β) → Prop) : Prop :=
  ∀ m, P m → (∀ xs, xs <+: p.ops m → C (exec line m xs)) ∧ Q (p.val m) (p.after m)

section

variable {P P' C C' : (α → Cell β) → Prop} {Q Q' : ρ → (α → Cell β) → Prop}
  {R : τ → (α → Cell β) → Prop} {p : Prog line β ρ} {f : ρ → Prog line β τ}

theorem Spec.pure {r : ρ} (h : ∀ m, P m → C m ∧ Q r m) : Spec P (pure r : Prog line β ρ) Q C := by
  intro m hm
  refine ⟨fun xs hx => ?_, (h m hm).2⟩
  obtain rfl : xs = [] := List.prefix_nil.mp hx
  exact (h m hm).1

theorem prefix_append_cases {γ : Type} {xs ys zs : List γ} (h : xs <+: ys ++ zs) :
    xs <+: ys ∨ ∃ zs', xs = ys ++ zs' ∧ zs' <+: zs := by
  obtain hl | hl := Nat.le_total xs.length ys.length
  · exact Or.inl (List.prefix_of_prefix_length_le h (List.prefix_append ys zs) hl)
  · obtain ⟨zs', rfl⟩ := List.prefix_of_prefix_length_le (List.prefix_append ys zs) h hl
    exact Or.inr ⟨zs', rfl, (List.prefix_append_right_inj ys).mp h⟩

/-- A failure on the way is one in the first part or one in the second. -/
theorem Spec.bind (hp : Spec P p Q C) (hf : ∀ r, Spec (Q r) (f r) R C) :
    Spec P (p >>= f) R C := by
  intro m hm
  obtain ⟨hc, hq⟩ := hp m hm
  obtain ⟨hc', hr⟩ := hf _ _ hq
  constructor
  · intro xs hx
    rw [ops_bind] at hx
    obtain hx | ⟨ys, rfl, hy⟩ := prefix_append_cases hx
    · exact hc xs hx
    · rw [exec_append]
      exact hc' ys hy
  · rwa [val_bind, after_bind]

theorem Spec.bind_val {r : ρ} (hp : Spec P p (fun x m => x = r ∧ P' m) C)
    (hf : Spec P' (f r) R C) : Spec P (p >>= f) R C := by
  refine hp.bind fun x => ?_
  rintro m ⟨rfl, hm⟩
  exact hf m hm

theorem Spec.map {g : ρ → τ} (h : Spec P p (fun r m => R (g r) m) C) : Spec P (g <$> p) R C := by
  intro m hm
  rw [val_map, ops_map, after_map]
  exact h m hm

theorem Spec.conseq (h : Spec P p Q C) (hP : ∀ m, P' m → P m) (hQ : ∀ r m, Q r m → Q' r m)
    (hC : ∀ m, C m → C' m) : Spec P' p Q' C' := by
  intro m hm
  obtain ⟨hc, hq⟩ := h m (hP m hm)
  exact ⟨fun xs hx => hC _ (hc xs hx), hQ _ _ hq⟩

theorem Spec.congr {q : Prog line β ρ} (h : ∀ m, P m → p.val m = q.val m ∧ p.ops m = q.ops m)
    (hq : Spec P q Q C) : Spec P p Q C := by
  intro m hm
  rw [after, (h m hm).1, (h m hm).2]
  exact hq m hm

theorem Spec.read (h : ∀ m, P m → p.ops m = [] ∧ C m ∧ Q (p.val m) m) : Spec P p Q C := by
  intro m hm
  obtain ⟨hops, hc, hq⟩ := h m hm
  rw [after, hops]
  refine ⟨fun xs hx => ?_, hq⟩
  obtain rfl : xs = [] := List.prefix_nil.mp hx
  exact hc

theorem Spec.bind_load {a : α} {v : β} {f : β → Prog line β τ} (hv : ∀ m, P m → (m a).now = v)
    (hC : ∀ m, P m → C m) (hf : Spec P (f v) R C) : Spec P (load a >>= f) R C :=
  Spec.bind_val (Spec.read fun m hm => ⟨ops_load a, hC m hm, hv m hm, hm⟩) hf

/-- Where all stores are to words of `R`, it is enough to have something that such stores keep. -/
theorem Spec.of_within {R : α → Prop} {I : (α → Cell β) → Prop} (hR : Within R p)
    (hI : ∀ m, P m → I m)
    (hkeep : ∀ m xs, I m → (∀ a, ¬R a → Unstored a xs) → I (exec line m xs)) (hC : ∀ m, I m → C m)
    (hQ : ∀ m, P m → Q (p.val m) (p.after m)) : Spec P p Q C := by
  intro m hm
  refine ⟨fun xs hx => hC _ (hkeep m xs (hI m hm) fun a ha => ?_), hQ m hm⟩
  exact hR.unstored_of_prefix ha hx

end

end Prog

end Squint.Lib
