import Mathlib

/-! Sets of numbers as lists of extents in increasing order with gaps between them. A set has at
most one such list. -/
namespace Squint.Lib

/-- The numbers from `low` to `high`, both included. -/
@[ext]
structure Extent where
  low : ℕ
  high : ℕ
deriving DecidableEq, Repr

namespace Extent

def size (r : Extent) : ℕ := r.high + 1 - r.low

def Contains (r : Extent) (b : ℕ) : Prop := r.low ≤ b ∧ b ≤ r.high

instance (r : Extent) (b : ℕ) : Decidable (r.Contains b) := inferInstanceAs (Decidable (_ ∧ _))

end Extent

variable {l l' A B C : List Extent} {r x : Extent} {b : ℕ}

def cover (l : List Extent) : Set ℕ := {b | ∃ r ∈ l, r.Contains b}

def total (l : List Extent) : ℕ := (l.map Extent.size).sum

theorem mem_cover : b ∈ cover l ↔ ∃ r ∈ l, r.Contains b := Iff.rfl

@[simp] theorem cover_nil : cover [] = ∅ := by
  ext b
  simp [mem_cover]

theorem cover_cons : cover (r :: l) = Set.Icc r.low r.high ∪ cover l := by
  ext b
  simp [mem_cover, Extent.Contains]

theorem cover_append : cover (A ++ B) = cover A ∪ cover B := by
  ext b
  simp [mem_cover, or_and_right, exists_or]

@[simp] theorem total_nil : total [] = 0 := rfl

@[simp] theorem total_cons : total (r :: l) = r.size + total l := by
  simp [total]

@[simp] theorem total_append : total (A ++ B) = total A + total B := by
  simp [total]

/-- The extents are not empty, and between two of them at least one number is left out. -/
structure Separated (l : List Extent) : Prop where
  proper : ∀ r ∈ l, r.low ≤ r.high
  gaps : l.Pairwise fun r r' => r.high + 1 < r'.low

theorem Separated.nil : Separated [] := ⟨by simp, List.Pairwise.nil⟩

theorem separated_cons :
    Separated (r :: l) ↔ r.low ≤ r.high ∧ (∀ r' ∈ l, r.high + 1 < r'.low) ∧ Separated l := by
  constructor
  · intro h
    have hgaps := List.pairwise_cons.mp h.gaps
    exact ⟨h.proper r (by simp), hgaps.1, fun r' hr' => h.proper r' (by simp [hr']), hgaps.2⟩
  · intro h
    exact ⟨by simpa using ⟨h.1, h.2.2.proper⟩, List.pairwise_cons.mpr ⟨h.2.1, h.2.2.gaps⟩⟩

theorem separated_append :
    Separated (A ++ B) ↔
      Separated A ∧ Separated B ∧ ∀ a ∈ A, ∀ b ∈ B, a.high + 1 < b.low := by
  constructor
  · intro h
    have hgaps := List.pairwise_append.mp h.gaps
    exact ⟨⟨fun r hr => h.proper r (by simp [hr]), hgaps.1⟩,
      ⟨fun r hr => h.proper r (by simp [hr]), hgaps.2.1⟩, hgaps.2.2⟩
  · intro h
    apply Separated.mk
    · intro r hr
      obtain hr | hr := List.mem_append.mp hr
      · exact h.1.proper r hr
      · exact h.2.1.proper r hr
    · exact List.pairwise_append.mpr ⟨h.1.gaps, h.2.1.gaps, h.2.2⟩

/-- One extent decides whether the ones on either side of it are apart from each other. -/
theorem separated_middle :
    Separated (A ++ x :: B) ↔
      Separated A ∧ Separated B ∧ x.low ≤ x.high ∧ (∀ a ∈ A, a.high + 1 < x.low) ∧
        ∀ b ∈ B, x.high + 1 < b.low := by
  rw [separated_append, separated_cons]
  constructor
  · intro ⟨hA, ⟨hx, hxB, hB⟩, hAB⟩
    exact ⟨hA, hB, hx, fun a ha => hAB a ha x (by simp), hxB⟩
  · intro ⟨hA, hB, hx, hAx, hxB⟩
    refine ⟨hA, ⟨hx, hxB, hB⟩, fun a ha b hb => ?_⟩
    have hax := hAx a ha
    obtain rfl | hb := List.mem_cons.mp hb
    · exact hax
    · have hxb := hxB b hb
      omega

/-- An extent may be replaced by extents within it. -/
theorem Separated.replace (h : Separated (A ++ x :: B)) (hC : Separated C)
    (hin : ∀ c ∈ C, x.low ≤ c.low ∧ c.high ≤ x.high) : Separated (A ++ (C ++ B)) := by
  obtain ⟨hA, hB, hx, hAx, hxB⟩ := separated_middle.mp h
  have hCB : Separated (C ++ B) := by
    refine separated_append.mpr ⟨hC, hB, fun c hc b hb => ?_⟩
    have hcx := (hin c hc).2
    have hxb := hxB b hb
    omega
  refine separated_append.mpr ⟨hA, hCB, fun a ha b hb => ?_⟩
  have hax := hAx a ha
  obtain hb | hb := List.mem_append.mp hb
  · have hxc := (hin b hb).1
    omega
  · have hxb := hxB b hb
    omega

theorem Separated.disjoint (h : Separated (A ++ B)) : Disjoint (cover A) (cover B) := by
  rw [Set.disjoint_left]
  rintro n ⟨a, ha, hna⟩ ⟨b, hb, hnb⟩
  have hgap := (separated_append.mp h).2.2 a ha b hb
  have h₁ := hna.2
  have h₂ := hnb.1
  omega

theorem le_of_mem_cover_cons (h : Separated (r :: l)) (hb : b ∈ cover (r :: l)) : r.low ≤ b := by
  obtain ⟨hr, hrl, -⟩ := separated_cons.mp h
  obtain ⟨r', hr', hb⟩ := hb
  obtain rfl | hr' := List.mem_cons.mp hr'
  · exact hb.1
  · have hgap := hrl r' hr'
    have hlow := hb.1
    omega

theorem mem_cover_tail_iff (h : Separated (r :: l)) :
    b ∈ cover l ↔ b ∈ cover (r :: l) ∧ r.high < b := by
  obtain ⟨-, hrl, -⟩ := separated_cons.mp h
  rw [cover_cons]
  constructor
  · intro hb
    refine ⟨Or.inr hb, ?_⟩
    obtain ⟨r', hr', hb⟩ := hb
    have hgap := hrl r' hr'
    have hlow := hb.1
    omega
  · rintro ⟨hb | hb, hlt⟩
    · exact absurd hb.2 (by omega)
    · exact hb

theorem succ_high_notMem_cover (h : Separated (r :: l)) : r.high + 1 ∉ cover (r :: l) := by
  intro hb
  have hmem := (mem_cover_tail_iff h).mpr ⟨hb, by omega⟩
  obtain ⟨-, hrl, -⟩ := separated_cons.mp h
  obtain ⟨r', hr', hb⟩ := hmem
  have hgap := hrl r' hr'
  have hlow := hb.1
  omega

private theorem high_le_of_cover_eq (h : Separated (r :: l)) (h' : Separated (x :: l'))
    (hcover : cover (r :: l) = cover (x :: l')) : r.low = x.low ∧ r.high ≤ x.high := by
  have hr := (separated_cons.mp h).1
  have hx := (separated_cons.mp h').1
  have hrmem : r.low ∈ cover (x :: l') := hcover ▸ ⟨r, by simp, le_rfl, hr⟩
  have hxmem : x.low ∈ cover (r :: l) := hcover ▸ ⟨x, by simp, le_rfl, hx⟩
  have h₁ := le_of_mem_cover_cons h' hrmem
  have h₂ := le_of_mem_cover_cons h hxmem
  refine ⟨by omega, ?_⟩
  by_contra hlt
  apply succ_high_notMem_cover h'
  rw [← hcover]
  exact ⟨r, by simp, by omega, by omega⟩

/-- The list is determined by the set. -/
theorem Separated.ext (h : Separated l) (h' : Separated l') (hcover : cover l = cover l') :
    l = l' := by
  induction l generalizing l' with
  | nil =>
    cases l' with
    | nil => rfl
    | cons x l' =>
      have hx : x.low ∈ cover (x :: l') := ⟨x, by simp, le_rfl, (separated_cons.mp h').1⟩
      rw [← hcover] at hx
      simp at hx
  | cons r l ih =>
    cases l' with
    | nil =>
      have hr : r.low ∈ cover (r :: l) := ⟨r, by simp, le_rfl, (separated_cons.mp h).1⟩
      rw [hcover] at hr
      simp at hr
    | cons x l' =>
      have h₁ := high_le_of_cover_eq h h' hcover
      have h₂ := high_le_of_cover_eq h' h hcover.symm
      obtain rfl : r = x := Extent.ext h₁.1 (by omega)
      congr 1
      apply ih (separated_cons.mp h).2.2 (separated_cons.mp h').2.2
      ext b
      rw [mem_cover_tail_iff h, mem_cover_tail_iff h', hcover]

theorem cover_finite (l : List Extent) : (cover l).Finite := by
  induction l with
  | nil => simp
  | cons r l ih =>
    rw [cover_cons]
    exact (Set.finite_Icc _ _).union ih

theorem ncard_cover (h : Separated l) : (cover l).ncard = total l := by
  induction l with
  | nil => simp
  | cons r l ih =>
    have hdisj := Separated.disjoint (A := [r]) (B := l) h
    have hsplit : cover (r :: l) = cover [r] ∪ cover l := cover_append (A := [r])
    rw [hsplit, Set.ncard_union_eq hdisj (cover_finite _) (cover_finite _),
      ih (separated_cons.mp h).2.2, total_cons]
    congr 1
    rw [cover_cons, cover_nil, Set.union_empty, Set.ncard_eq_toFinset_card', Set.toFinset_Icc,
      Nat.card_Icc]
    rfl

/-- A set is counted by its pieces. -/
theorem sum_card_inter {α : Type} [DecidableEq α] {s : Finset α} {pieces : List (Finset α)}
    (hdisj : pieces.Pairwise Disjoint) (hs : ∀ b ∈ s, ∃ r ∈ pieces, b ∈ r) :
    (pieces.map fun r => (s ∩ r).card).sum = s.card := by
  induction pieces generalizing s with
  | nil =>
    have hempty : s = ∅ := Finset.eq_empty_of_forall_notMem fun b hb => by simpa using hs b hb
    simp [hempty]
  | cons r pieces ih =>
    obtain ⟨hr, hrest⟩ := List.pairwise_cons.mp hdisj
    have hout : ∀ b ∈ s \ r, ∃ r' ∈ pieces, b ∈ r' := by
      intro b hb
      obtain ⟨hb, hbr⟩ := Finset.mem_sdiff.mp hb
      obtain ⟨r', hr', hbr'⟩ := hs b hb
      obtain rfl | hr' := List.mem_cons.mp hr'
      · exact absurd hbr' hbr
      · exact ⟨r', hr', hbr'⟩
    -- the other pieces do not meet `r`
    have hsame : (pieces.map fun r' => (s \ r ∩ r').card) =
        pieces.map fun r' => (s ∩ r').card := by
      apply List.map_congr_left
      intro r' hr'
      congr 1
      rw [Finset.sdiff_inter_right_comm, Finset.sdiff_eq_self_iff_disjoint]
      exact Finset.disjoint_of_subset_left Finset.inter_subset_right (hr r' hr').symm
    rw [List.map_cons, List.sum_cons, ← hsame, ih hrest hout, add_comm]
    exact Finset.card_sdiff_add_card_inter s r

end Squint.Lib
