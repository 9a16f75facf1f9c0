import Mathlib.Data.Nat.Digits.Lemmas

/-! Numerals as printed: digits from the most significant on, of fixed length or as many as are
needed, and their reading back. -/
namespace Squint.Lib

def value (b : ℕ) (ds : List ℕ) : ℕ := ds.foldl (fun n d => n * b + d) 0

/-- The last `w` digits of `n`. -/
def fixedDigits (b : ℕ) : ℕ → ℕ → List ℕ
  | 0, _ => []
  | w + 1, n => fixedDigits b w (n / b) ++ [n % b]

/-- The digits of `n` without leading zeros; zero itself has one digit. -/
def printedDigits (b n : ℕ) : List ℕ := if n = 0 then [0] else (Nat.digits b n).reverse

variable {b n w : ℕ}

theorem length_fixedDigits : (fixedDigits b w n).length = w := by
  induction w generalizing n with
  | zero => rfl
  | succ w ih => simp [fixedDigits, ih]

theorem lt_of_mem_fixedDigits (hb : 0 < b) : ∀ d ∈ fixedDigits b w n, d < b := by
  induction w generalizing n with
  | zero => simp [fixedDigits]
  | succ w ih =>
    intro d hd
    rcases List.mem_append.mp hd with hd | hd
    · exact ih d hd
    · obtain rfl := List.mem_singleton.mp hd
      exact Nat.mod_lt n hb

theorem value_fixedDigits (h : n < b ^ w) : value b (fixedDigits b w n) = n := by
  induction w generalizing n with
  | zero =>
    have : n = 0 := by simpa using h
    simp [fixedDigits, value, this]
  | succ w ih =>
    have hdiv : n / b < b ^ w := Nat.div_lt_of_lt_mul (by rwa [pow_succ'] at h)
    have hrec := ih hdiv
    simp only [value] at hrec
    simp only [fixedDigits, value, List.foldl_append, List.foldl_cons, List.foldl_nil, hrec]
    exact Nat.div_add_mod' n b

theorem value_printedDigits : value b (printedDigits b n) = n := by
  unfold printedDigits value
  split_ifs with hn
  · simp [hn]
  · rw [List.foldl_reverse]
    conv_rhs => rw [← Nat.ofDigits_digits b n, Nat.ofDigits_eq_foldr]
    congr 1
    funext d m
    simp [Nat.mul_comm, Nat.add_comm]

theorem lt_of_mem_printedDigits (hb : 1 < b) : ∀ d ∈ printedDigits b n, d < b := by
  unfold printedDigits
  split_ifs with hn
  · simpa using (Nat.zero_lt_one.trans hb)
  · intro d hd
    exact Nat.digits_lt_base hb (List.mem_reverse.mp hd)

theorem length_printedDigits_le (hb : 1 < b) (hw : 0 < w) (h : n < b ^ w) :
    (printedDigits b n).length ≤ w := by
  unfold printedDigits
  split_ifs with hn
  · exact hw
  · rw [List.length_reverse]
    exact (Nat.digits_length_le_iff hb n).mpr h

theorem printedDigits_ne_nil : printedDigits b n ≠ [] := by
  unfold printedDigits
  split_ifs with hn <;> simp [hn, Nat.digits_ne_nil_iff_ne_zero]

section
variable {α : Type}

/-- The number that the characters `xs` stand for, if all of them are digits. -/
def readDigits (digit? : α → Option ℕ) (b : ℕ) (xs : List α) : Option ℕ :=
  (xs.mapM digit?).map (value b)

/-- Digits are read back where every one of them is. -/
theorem readDigits_map {digit? : α → Option ℕ} {digit : ℕ → α} {ds : List ℕ}
    (h : ∀ d ∈ ds, digit? (digit d) = some d) :
    readDigits digit? b (ds.map digit) = some (value b ds) := by
  have hmap : (ds.map digit).mapM digit? = some ds := by
    induction ds with
    | nil => rfl
    | cons d ds ih =>
      have htail := ih fun e he => h e (by simp [he])
      simp [h d (by simp), htail]
  simp [readDigits, hmap]

end

end Squint.Lib
