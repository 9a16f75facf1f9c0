import Mathlib.Data.List.Basic
import Mathlib.Data.Tree.Basic
import Mathlib.Tactic.Common

/-! Binary search trees whose balance is left to whoever rebalances them: what a search and an
insertion do is read off the in-order list. -/
namespace Squint.Lib

variable {α : Type}

def inorder : BinaryTree α → List α
  | .nil => []
  | .node a l r => inorder l ++ a :: inorder r

@[simp] theorem inorder_nil : inorder (.nil : BinaryTree α) = [] := rfl

@[simp] theorem inorder_node (a : α) (l r : BinaryTree α) :
    inorder (.node a l r) = inorder l ++ a :: inorder r := rfl

theorem inorder_map {β : Type} (f : α → β) (t : BinaryTree α) :
    inorder (t.map f) = (inorder t).map f := by
  induction t with
  | nil => rfl
  | node a l r ihl ihr => simp [BinaryTree.map, ihl, ihr]

/-- The way a balanced tree is made of its nodes. -/
structure Shape (α : Type) where
  build : List α → BinaryTree α
  inorder_build : ∀ l, inorder (build l) = l

attribute [simp] Shape.inorder_build

/-- The shape of a tree without left subtrees. -/
def Shape.spine (α : Type) : Shape α where
  build := List.foldr (fun a t => .node a .nil t) .nil
  inorder_build l := by
    induction l with
    | nil => rfl
    | cons a l ih => simpa using ih

/-- Goes down from the root, as `cmp` says how the key lies to a node. Returns whether a node holds
the key, and the last node met. -/
def descend (cmp : α → Ordering) : BinaryTree α → Option α → Bool × Option α
  | .nil, curr => (false, curr)
  | .node a l r, _ =>
    match cmp a with
    | .lt => descend cmp l (some a)
    | .gt => descend cmp r (some a)
    | .eq => (true, some a)

/-- Links `x` in where the search for it ends, unless a node holds its key. -/
def link (cmp : α → Ordering) (x : α) : BinaryTree α → Option (BinaryTree α)
  | .nil => some (.node x .nil .nil)
  | .node a l r =>
    match cmp a with
    | .lt => (link cmp x l).map fun l => .node a l r
    | .gt => (link cmp x r).map fun r => .node a l r
    | .eq => none

section Search
variable {cmp : α → Ordering} {t : BinaryTree α} {a x : α} {A B : List α} {c : Option α}

/-- Where a node of the tree lies if the key splits the in-order list in two. -/
theorem node_cases {l r : BinaryTree α} (h : inorder (.node a l r) = A ++ B) :
    (∃ A', A = inorder l ++ a :: A' ∧ inorder r = A' ++ B) ∨
      ∃ B', inorder l = A ++ B' ∧ B = B' ++ a :: inorder r := by
  obtain ⟨A', hA, hr⟩ | ⟨B', hl, hB⟩ := List.append_eq_append_iff.mp h
  · cases A' with
    | nil => exact Or.inr ⟨[], by simpa using hA.symm, by simpa using hr.symm⟩
    | cons a' A' =>
      simp only [List.cons_append, List.cons.injEq] at hr
      obtain ⟨rfl, hr⟩ := hr
      exact Or.inl ⟨A', hA, hr⟩
  · exact Or.inr ⟨B', hl, hB⟩

/-- A search for a key between two neighbours ends at one of them. -/
theorem descend_gap (ht : inorder t = A ++ B) (hA : ∀ a ∈ A, cmp a = .gt)
    (hB : ∀ b ∈ B, cmp b = .lt) :
    ∃ y, descend cmp t c = (false, y) ∧
      (t = .nil ∧ y = c ∨ y.isSome ∧ (y = A.getLast? ∨ y = B.head?)) := by
  induction t generalizing A B c with
  | nil => exact ⟨c, rfl, Or.inl ⟨rfl, rfl⟩⟩
  | node a l r ihl ihr =>
    obtain ⟨A', rfl, hr⟩ | ⟨B', hl, rfl⟩ := node_cases ht
    · have ha : cmp a = .gt := hA a (by simp)
      obtain ⟨y, hy, hcases⟩ := ihr (c := some a) hr (fun b hb => hA b (by simp [hb])) hB
      refine ⟨y, by rw [descend, ha]; exact hy, Or.inr ?_⟩
      obtain ⟨rfl, rfl⟩ | ⟨hsome, hy'⟩ := hcases
      · obtain ⟨rfl, rfl⟩ := List.append_eq_nil_iff.mp hr.symm
        exact ⟨rfl, Or.inl (by simp)⟩
      · refine ⟨hsome, ?_⟩
        obtain rfl | rfl := hy'
        · obtain ⟨z, hz⟩ := Option.isSome_iff_exists.mp hsome
          left
          rw [List.getLast?_append, List.getLast?_cons, hz]
          rfl
        · exact Or.inr rfl
    · have ha : cmp a = .lt := hB a (by simp)
      obtain ⟨y, hy, hcases⟩ := ihl (c := some a) hl hA (fun b hb => hB b (by simp [hb]))
      refine ⟨y, by rw [descend, ha]; exact hy, Or.inr ?_⟩
      obtain ⟨rfl, rfl⟩ | ⟨hsome, hy'⟩ := hcases
      · obtain ⟨rfl, rfl⟩ := List.append_eq_nil_iff.mp hl.symm
        exact ⟨rfl, Or.inr rfl⟩
      · refine ⟨hsome, ?_⟩
        obtain rfl | rfl := hy'
        · exact Or.inl rfl
        · obtain ⟨z, hz⟩ := Option.isSome_iff_exists.mp hsome
          right
          rw [List.head?_append, hz]
          rfl

theorem descend_found (ht : inorder t = A ++ a :: B) (hA : ∀ a ∈ A, cmp a = .gt)
    (ha : cmp a = .eq) (hB : ∀ b ∈ B, cmp b = .lt) : descend cmp t c = (true, some a) := by
  induction t generalizing A B c with
  | nil => simp at ht
  | node a' l r ihl ihr =>
    obtain ⟨A', rfl, hr⟩ | ⟨B', hl, hB'⟩ := node_cases ht
    · rw [descend, hA a' (by simp)]
      exact ihr hr (fun b hb => hA b (by simp [hb])) hB
    · cases B' with
      | nil =>
        obtain ⟨rfl, rfl⟩ : a = a' ∧ B = inorder r := by simpa using hB'
        rw [descend, ha]
      | cons b B' =>
        simp only [List.cons_append, List.cons.injEq] at hB'
        obtain ⟨rfl, rfl⟩ := hB'
        rw [descend, hB a' (by simp)]
        exact ihl hl hA fun b hb => hB b (by simp [hb])

theorem link_gap (ht : inorder t = A ++ B) (hA : ∀ a ∈ A, cmp a = .gt)
    (hB : ∀ b ∈ B, cmp b = .lt) : ∃ t', link cmp x t = some t' ∧ inorder t' = A ++ x :: B := by
  induction t generalizing A B with
  | nil =>
    obtain ⟨rfl, rfl⟩ := List.append_eq_nil_iff.mp ht.symm
    exact ⟨_, rfl, rfl⟩
  | node a l r ihl ihr =>
    obtain ⟨A', rfl, hr⟩ | ⟨B', hl, rfl⟩ := node_cases ht
    · have ha : cmp a = .gt := hA a (by simp)
      obtain ⟨t', ht', hin⟩ := ihr hr (fun b hb => hA b (by simp [hb])) hB
      refine ⟨.node a l t', by rw [link, ha, ht']; rfl, ?_⟩
      simp [hin]
    · have ha : cmp a = .lt := hB a (by simp)
      obtain ⟨t', ht', hin⟩ := ihl hl hA (fun b hb => hB b (by simp [hb]))
      refine ⟨.node a t' r, by rw [link, ha, ht']; rfl, ?_⟩
      simp [hin]

end Search

/-! ## Neighbours in the in-order list -/

section Neighbours
variable {p : α → Bool} {A B : List α} {a : α}

def next? (p : α → Bool) : List α → Option α
  | [] => none
  | a :: l => if p a then l.head? else next? p l

def prev? (p : α → Bool) (l : List α) : Option α := next? p l.reverse

theorem next?_append (hA : ∀ a ∈ A, p a = false) (ha : p a = true) :
    next? p (A ++ a :: B) = B.head? := by
  induction A with
  | nil => simp [next?, ha]
  | cons b A ih =>
    rw [List.cons_append, next?, hA b (by simp)]
    exact ih fun c hc => hA c (by simp [hc])

theorem prev?_append (hB : ∀ b ∈ B, p b = false) (ha : p a = true) :
    prev? p (A ++ a :: B) = A.getLast? := by
  have hrev : (A ++ a :: B).reverse = B.reverse ++ a :: A.reverse := by simp
  rw [prev?, hrev, next?_append (by simpa using hB) ha, List.head?_reverse]

end Neighbours

end Squint.Lib
