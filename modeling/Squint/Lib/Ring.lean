import Mathlib.Data.List.Basic
import Mathlib.Data.Nat.ModEq
import Mathlib.Logic.Function.Basic
import Mathlib.Tactic.Common

/-! A ring buffer of `n` cells, where `n` divides `2 ^ w`. Two counters of `w` bits say how many
elements have been put in and taken out; they are never reduced modulo `n`. -/
namespace Squint.Lib

structure Ring (α : Type) (w : ℕ) where
  cells : ℕ → α
  inn : BitVec w
  out : BitVec w

namespace Ring

variable {α : Type} {w : ℕ}

def used (r : Ring α w) : ℕ := (r.inn - r.out).toNat

def unused (n : ℕ) (r : Ring α w) : ℕ := (BitVec.ofNat w n - (r.inn - r.out)).toNat

/-- `xs` goes to the cells from `start` on. -/
def copyIn (n : ℕ) (cells : ℕ → α) (start : ℕ) : List α → ℕ → α
  | [] => cells
  | x :: xs => copyIn n (Function.update cells (start % n) x) (start + 1) xs

/-- As many of `xs` as there is room for go in. -/
def push (n : ℕ) (r : Ring α w) (xs : List α) : Ring α w :=
  let ys := xs.take (r.unused n)
  { r with
    cells := copyIn n r.cells r.inn.toNat ys
    inn := r.inn + BitVec.ofNat w ys.length }

/-- The first `count` elements, or all of them. They stay where they are. -/
def peek (n : ℕ) (r : Ring α w) (count : ℕ) : List α :=
  (List.range (min count r.used)).map fun i => r.cells ((r.out.toNat + i) % n)

def advance (r : Ring α w) (k : ℕ) : Ring α w := { r with out := r.out + BitVec.ofNat w k }

/-- Of all that was ever put in, `base` elements are gone and `xs` is there. -/
structure Holds (n : ℕ) (r : Ring α w) (base : ℕ) (xs : List α) : Prop where
  out : r.out = BitVec.ofNat w base
  inn : r.inn = BitVec.ofNat w (base + xs.length)
  bounded : xs.length ≤ n
  cells : ∀ i (h : i < xs.length), r.cells ((base + i) % n) = xs[i]

section
variable {n base : ℕ} {cells : ℕ → α} {xs ys : List α}

/-- Two places less than a whole round apart are different cells. -/
theorem add_mod_ne {i j : ℕ} (hi : i < n) (hj : j < n) (h : i ≠ j) :
    (base + i) % n ≠ (base + j) % n := by
  intro heq
  have hmod : i ≡ j [MOD n] := Nat.ModEq.add_left_cancel' base heq
  exact h (hmod.eq_of_lt_of_lt hi hj)

theorem copyIn_cells (hlen : xs.length + ys.length ≤ n)
    (h : ∀ i (hi : i < xs.length), cells ((base + i) % n) = xs[i]) :
    ∀ i (hi : i < (xs ++ ys).length),
      copyIn n cells (base + xs.length) ys ((base + i) % n) = (xs ++ ys)[i] := by
  induction ys generalizing cells xs with
  | nil => simpa [copyIn] using h
  | cons y ys ih =>
    rw [List.length_cons] at hlen
    have hstep : ∀ i (hi : i < (xs ++ [y]).length),
        Function.update cells ((base + xs.length) % n) y ((base + i) % n) = (xs ++ [y])[i] := by
      intro i hi
      rw [List.length_append, List.length_singleton] at hi
      by_cases hlast : i = xs.length
      · subst hlast
        simp
      · have hold : i < xs.length := by omega
        rw [Function.update_of_ne (add_mod_ne (by omega) (by omega) hlast), h i hold,
          List.getElem_append_left hold]
    have hroom : (xs ++ [y]).length + ys.length ≤ n := by
      rw [List.length_append, List.length_singleton]
      omega
    have hrest := ih hroom hstep
    simpa [copyIn, Nat.add_assoc] using hrest

theorem copyIn_mod {start : ℕ} : copyIn n cells (start % n) ys = copyIn n cells start ys := by
  induction ys generalizing cells start with
  | nil => rfl
  | cons y ys ih =>
    rw [copyIn, copyIn, Nat.mod_mod, ← ih, Nat.mod_add_mod, ih]

end

section
variable {n base : ℕ} {r : Ring α w} {xs ys : List α}

theorem ofNat_add_sub (a b : ℕ) :
    BitVec.ofNat w (a + b) - BitVec.ofNat w a = BitVec.ofNat w b := by
  rw [BitVec.ofNat_add, BitVec.add_comm, BitVec.add_sub_cancel]

theorem Holds.used_eq (hn : n < 2 ^ w) (h : r.Holds n base xs) : r.used = xs.length := by
  have hlen := h.bounded
  rw [used, h.inn, h.out, ofNat_add_sub, BitVec.toNat_ofNat, Nat.mod_eq_of_lt (by omega)]

theorem Holds.unused_eq (hn : n < 2 ^ w) (h : r.Holds n base xs) :
    r.unused n = n - xs.length := by
  have hlen := h.bounded
  have hfree : BitVec.ofNat w n - BitVec.ofNat w xs.length = BitVec.ofNat w (n - xs.length) := by
    rw [← ofNat_add_sub xs.length (n - xs.length), Nat.add_sub_cancel' hlen]
  rw [unused, h.inn, h.out, ofNat_add_sub, hfree, BitVec.toNat_ofNat,
    Nat.mod_eq_of_lt (by omega)]

/-- Cells are found by the counters, although these have wrapped. -/
theorem ofNat_add_mod (hd : n ∣ 2 ^ w) (m i : ℕ) :
    ((BitVec.ofNat w m).toNat + i) % n = (m + i) % n := by
  rw [BitVec.toNat_ofNat, Nat.add_mod, Nat.mod_mod_of_dvd m hd, ← Nat.add_mod]

theorem Holds.push (hn : n < 2 ^ w) (hd : n ∣ 2 ^ w) (h : r.Holds n base xs) (ys : List α) :
    (r.push n ys).Holds n base (xs ++ ys.take (n - xs.length)) := by
  have hlen := h.bounded
  unfold Ring.push
  rw [h.unused_eq hn]
  generalize hzs : ys.take (n - xs.length) = zs
  have hfits : xs.length + zs.length ≤ n := by
    rw [← hzs, List.length_take]
    omega
  refine ⟨h.out, ?_, by simpa using hfits, fun i hi => ?_⟩
  · show r.inn + BitVec.ofNat w zs.length = _
    rw [h.inn, List.length_append, ← BitVec.ofNat_add, Nat.add_assoc]
  · show copyIn n r.cells r.inn.toNat zs ((base + i) % n) = _
    have hstart := ofNat_add_mod hd (base + xs.length) 0
    rw [Nat.add_zero, Nat.add_zero] at hstart
    rw [← copyIn_mod, h.inn, hstart, copyIn_mod]
    exact copyIn_cells hfits h.cells i hi

theorem Holds.peek (hn : n < 2 ^ w) (hd : n ∣ 2 ^ w) (h : r.Holds n base xs) (count : ℕ) :
    r.peek n count = xs.take count := by
  unfold Ring.peek
  rw [h.used_eq hn, h.out]
  apply List.ext_getElem
  · simp
  · intro i hi hi'
    rw [List.length_take] at hi'
    rw [List.getElem_map, List.getElem_range, List.getElem_take, ofNat_add_mod hd, h.cells]

theorem Holds.advance (h : r.Holds n base xs) {k : ℕ} (hk : k ≤ xs.length) :
    (r.advance k).Holds n (base + k) (xs.drop k) := by
  have hlen := h.bounded
  refine ⟨?_, ?_, by rw [List.length_drop]; omega, fun i hi => ?_⟩
  · show r.out + BitVec.ofNat w k = _
    rw [h.out, BitVec.ofNat_add]
  · show r.inn = _
    rw [h.inn, List.length_drop]
    congr 1
    omega
  · show r.cells _ = _
    rw [List.length_drop] at hi
    rw [List.getElem_drop, Nat.add_assoc, h.cells]

end

end Ring

end Squint.Lib
