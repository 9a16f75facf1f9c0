import Squint.Lib.Ranges
import Squint.Lib.SearchTree
import Squint.Nova.Primitives

/-! Range nodes and the trees that hold them: `struct nova_range_node` of `nova.h` and the functions
of `balloc.c` that free blocks and used inodes share. The red-black tree of the kernel is any search
tree: each operation that rebalances it is told the shape it ends in. -/
namespace Squint.Nova
open Squint.Lib

inductive Errno
  | einval
  | eio
  | enomem
  | enospc
deriving DecidableEq, Repr

/-- The module parameter `dram_struct_csum`, and what the checksum depends on. -/
structure DramCsum where
  dramStructCsum : Bool
  cfg : Config
deriving DecidableEq, Repr

/-- A range node at the address `ptr`. Nodes of blocks and inodes have no `vma` or `mmap_entry`. -/
structure RangeNode where
  ptr : ℕ
  rangeLow : ℕ
  rangeHigh : ℕ
  csum : BitVec 32
deriving DecidableEq, Repr

abbrev RangeTree := BinaryTree RangeNode

variable (cs : DramCsum)

def novaCalculateRangeNodeCsum (n : RangeNode) : BitVec 32 :=
  novaCrc32c cs.cfg (BitVec.allOnes 32)
    (leBytes 8 0 ++ leBytes 8 0 ++ leBytes 8 n.rangeLow ++ leBytes 8 n.rangeHigh)

def novaUpdateRangeNodeChecksum (n : RangeNode) : RangeNode :=
  if cs.dramStructCsum then { n with csum := novaCalculateRangeNodeCsum cs n } else n

def novaRangeNodeChecksumOk (n : RangeNode) : Bool :=
  !cs.dramStructCsum || n.csum == novaCalculateRangeNodeCsum cs n

def novaRbtreeCompareRangenode (key : ℕ) (curr : RangeNode) : Ordering :=
  if key < curr.rangeLow then .lt
  else if key > curr.rangeHigh then .gt
  else .eq

/-- The second component is what `*ret_node` holds if it was `NULL` before. -/
def novaFindRangeNode (tree : RangeTree) (key : ℕ) : Bool × Option RangeNode :=
  match descend (novaRbtreeCompareRangenode key) tree none with
  | (found, some curr) =>
    if novaRangeNodeChecksumOk cs curr then (found, some curr) else (false, none)
  | (found, none) => (found, none)

def novaInsertRangeNode (sh : Shape RangeNode) (tree : RangeTree) (node : RangeNode) :
    Except Errno RangeTree :=
  match link (novaRbtreeCompareRangenode node.rangeLow) node tree with
  | none => .error .einval
  | some tree => .ok (sh.build (inorder tree))

def rbErase (sh : Shape RangeNode) (tree : RangeTree) (ptr : ℕ) : RangeTree :=
  sh.build ((inorder tree).filter fun n => n.ptr != ptr)

def rbNext (tree : RangeTree) (ptr : ℕ) : Option RangeNode :=
  next? (fun n => n.ptr == ptr) (inorder tree)

def rbPrev (tree : RangeTree) (ptr : ℕ) : Option RangeNode :=
  prev? (fun n => n.ptr == ptr) (inorder tree)

def writeNode (tree : RangeTree) (node : RangeNode) : RangeTree :=
  tree.map fun n => if n.ptr = node.ptr then node else n

/-- The neighbours `(*prev, *next)` of a range that is not in the tree. -/
def novaFindFreeSlot (tree : RangeTree) (rangeLow rangeHigh : ℕ) :
    Except Errno (Option RangeNode × Option RangeNode) :=
  match novaFindRangeNode cs tree rangeLow with
  | (true, _) => .error .einval
  | (false, none) => .ok (none, none)
  | (false, some ret) =>
    if ret.rangeHigh < rangeLow then
      match rbNext tree ret.ptr with
      | none => .ok (some ret, none)
      | some next =>
        if novaRangeNodeChecksumOk cs next then .ok (some ret, some next) else .error .eio
    else if ret.rangeLow > rangeHigh then
      match rbPrev tree ret.ptr with
      | none => .ok (none, some ret)
      | some prev =>
        if novaRangeNodeChecksumOk cs prev then .ok (some prev, some ret) else .error .eio
    else .error .einval

/-! ## Nodes in order -/

def RangeNode.extent (n : RangeNode) : Extent := ⟨n.rangeLow, n.rangeHigh⟩

def extents (L : List RangeNode) : List Extent := L.map RangeNode.extent

@[simp] theorem extents_nil : extents [] = [] := rfl

@[simp] theorem extents_cons (n : RangeNode) (L : List RangeNode) :
    extents (n :: L) = n.extent :: extents L := rfl

@[simp] theorem extents_append (A B : List RangeNode) :
    extents (A ++ B) = extents A ++ extents B := List.map_append

/-- What holds of the nodes of a tree, from left to right, between two operations. -/
structure NodesOk (L : List RangeNode) : Prop where
  ptrs : (L.map RangeNode.ptr).Nodup
  separated : Separated (extents L)
  csums : ∀ n ∈ L, novaRangeNodeChecksumOk cs n = true

variable {cs} {n curr : RangeNode} {L A B C : List RangeNode} {tree : RangeTree}
  {sh : Shape RangeNode} {low high : ℕ}

@[simp] theorem novaUpdateRangeNodeChecksum_ptr :
    (novaUpdateRangeNodeChecksum cs n).ptr = n.ptr := by
  unfold novaUpdateRangeNodeChecksum
  split <;> rfl

@[simp] theorem novaUpdateRangeNodeChecksum_rangeLow :
    (novaUpdateRangeNodeChecksum cs n).rangeLow = n.rangeLow := by
  unfold novaUpdateRangeNodeChecksum
  split <;> rfl

@[simp] theorem novaUpdateRangeNodeChecksum_rangeHigh :
    (novaUpdateRangeNodeChecksum cs n).rangeHigh = n.rangeHigh := by
  unfold novaUpdateRangeNodeChecksum
  split <;> rfl

@[simp] theorem novaUpdateRangeNodeChecksum_ok :
    novaRangeNodeChecksumOk cs (novaUpdateRangeNodeChecksum cs n) = true := by
  unfold novaUpdateRangeNodeChecksum novaRangeNodeChecksumOk
  split <;> simp_all [novaCalculateRangeNodeCsum]

theorem novaRbtreeCompareRangenode_gt (h : n.rangeLow ≤ n.rangeHigh) (hlow : n.rangeHigh < low) :
    novaRbtreeCompareRangenode low n = .gt := by
  unfold novaRbtreeCompareRangenode
  rw [if_neg (by omega), if_pos hlow]

theorem novaRbtreeCompareRangenode_lt (hlow : low < n.rangeLow) :
    novaRbtreeCompareRangenode low n = .lt := by
  unfold novaRbtreeCompareRangenode
  rw [if_pos hlow]

namespace NodesOk

theorem proper (h : NodesOk cs L) (hn : n ∈ L) : n.rangeLow ≤ n.rangeHigh :=
  h.separated.proper n.extent (List.mem_map_of_mem hn)

theorem ptr_ne_left (h : NodesOk cs (A ++ curr :: B)) (hn : n ∈ A) : n.ptr ≠ curr.ptr := by
  have hptrs := h.ptrs
  rw [List.map_append, List.map_cons, List.nodup_append] at hptrs
  exact hptrs.2.2 n.ptr (List.mem_map_of_mem hn) curr.ptr (by simp)

theorem ptr_ne_right (h : NodesOk cs (A ++ curr :: B)) (hn : n ∈ B) : n.ptr ≠ curr.ptr := by
  have hptrs := h.ptrs
  rw [List.map_append, List.map_cons, List.nodup_append, List.nodup_cons] at hptrs
  intro heq
  exact hptrs.2.1.1 (heq ▸ List.mem_map_of_mem hn)

/-- What is to be shown of nodes that take the place of one. -/
theorem replace (h : NodesOk cs (A ++ curr :: B)) (hC : Separated (extents C))
    (hin : ∀ c ∈ C, curr.rangeLow ≤ c.rangeLow ∧ c.rangeHigh ≤ curr.rangeHigh)
    (hptrs : (C.map RangeNode.ptr).Nodup)
    (hfresh : ∀ c ∈ C, c.ptr = curr.ptr ∨ c.ptr ∉ (A ++ B).map RangeNode.ptr)
    (hcsums : ∀ c ∈ C, novaRangeNodeChecksumOk cs c = true) : NodesOk cs (A ++ (C ++ B)) := by
  have hout : ∀ c ∈ C, c.ptr ∉ (A ++ B).map RangeNode.ptr := by
    intro c hc
    obtain heq | hnot := hfresh c hc
    · rw [heq, List.map_append, List.mem_append, List.mem_map, List.mem_map]
      rintro (⟨n, hn, hptr⟩ | ⟨n, hn, hptr⟩)
      · exact h.ptr_ne_left hn hptr
      · exact h.ptr_ne_right hn hptr
    · exact hnot
  constructor
  · have hAB := h.ptrs
    rw [List.map_append, List.map_cons, List.nodup_append, List.nodup_cons] at hAB
    rw [List.map_append, List.map_append, List.nodup_append, List.nodup_append]
    refine ⟨hAB.1, ⟨hptrs, hAB.2.1.2, ?_⟩, ?_⟩
    · rintro p hp q hq rfl
      obtain ⟨c, hc, rfl⟩ := List.mem_map.mp hp
      exact hout c hc (by simp only [List.map_append, List.mem_append]; exact Or.inr hq)
    · rintro p hp q hq rfl
      obtain hq | hq := List.mem_append.mp hq
      · obtain ⟨c, hc, rfl⟩ := List.mem_map.mp hq
        exact hout c hc (by simp only [List.map_append, List.mem_append]; exact Or.inl hp)
      · exact hAB.2.2 p hp p (by simp [hq]) rfl
  · have hsep := h.separated
    rw [extents_append, extents_cons] at hsep
    rw [extents_append, extents_append]
    apply hsep.replace hC
    intro c hc
    obtain ⟨n, hn, rfl⟩ := List.mem_map.mp hc
    exact hin n hn
  · intro n hn
    rw [List.mem_append, List.mem_append] at hn
    obtain hn | hn | hn := hn
    · exact h.csums n (by simp [hn])
    · exact hcsums n hn
    · exact h.csums n (by simp [hn])

/-- Numbers that no node holds lie between two neighbours. -/
theorem exists_slot (h : NodesOk cs L) {n : ℕ} (hn : 0 < n)
    (hdisj : Disjoint (cover (extents L)) (Set.Ico low (low + n))) :
    ∃ A B, L = A ++ B ∧ (∀ a ∈ A, a.rangeHigh < low) ∧ ∀ b ∈ B, low + n - 1 < b.rangeLow := by
  have hsep := h.separated
  clear h
  induction L with
  | nil => exact ⟨[], [], rfl, by simp, by simp⟩
  | cons x L ih =>
    rw [extents_cons] at hsep hdisj
    obtain ⟨hx, hxL, hL⟩ := separated_cons.mp hsep
    simp only [RangeNode.extent] at hx hxL
    rw [cover_cons, Set.disjoint_union_left] at hdisj
    by_cases hhigh : x.rangeHigh < low
    · obtain ⟨A, B, rfl, hA, hB⟩ := ih hdisj.2 hL
      exact ⟨x :: A, B, rfl, by simpa using ⟨hhigh, hA⟩, hB⟩
    · have hlow : low + n - 1 < x.rangeLow := by
        by_contra hle
        have hin : max x.rangeLow low ∈ Set.Icc x.extent.low x.extent.high := by
          simp only [Set.mem_Icc, RangeNode.extent]
          omega
        have hout := Set.disjoint_left.mp hdisj.1 hin
        simp only [Set.mem_Ico] at hout
        omega
      refine ⟨[], x :: L, rfl, by simp, fun b hb => ?_⟩
      obtain rfl | hb := List.mem_cons.mp hb
      · exact hlow
      · have hgap := hxL b.extent (List.mem_map_of_mem hb)
        simp only [RangeNode.extent] at hgap
        omega

end NodesOk

/-! ## The operations of the tree -/

theorem rbNext_eq (h : NodesOk cs (A ++ curr :: B)) (ht : inorder tree = A ++ curr :: B) :
    rbNext tree curr.ptr = B.head? := by
  rw [rbNext, ht]
  apply next?_append
  · intro n hn
    simpa using h.ptr_ne_left hn
  · simp

theorem rbPrev_eq (h : NodesOk cs (A ++ curr :: B)) (ht : inorder tree = A ++ curr :: B) :
    rbPrev tree curr.ptr = A.getLast? := by
  rw [rbPrev, ht]
  apply prev?_append
  · intro n hn
    simpa using h.ptr_ne_right hn
  · simp

theorem inorder_rbErase (h : NodesOk cs (A ++ curr :: B)) (ht : inorder tree = A ++ curr :: B) :
    inorder (rbErase sh tree curr.ptr) = A ++ B := by
  rw [rbErase, Shape.inorder_build, ht, List.filter_append, List.filter_cons_of_neg (by simp)]
  congr 1
  · apply List.filter_eq_self.mpr
    intro n hn
    simpa using h.ptr_ne_left hn
  · apply List.filter_eq_self.mpr
    intro n hn
    simpa using h.ptr_ne_right hn

theorem inorder_writeNode (h : NodesOk cs (A ++ curr :: B)) (ht : inorder tree = A ++ curr :: B)
    (hn : n.ptr = curr.ptr) : inorder (writeNode tree n) = A ++ n :: B := by
  have hA : A.map (fun m => if m.ptr = n.ptr then n else m) = A.map id :=
    List.map_congr_left fun m hm => if_neg (hn ▸ h.ptr_ne_left hm)
  have hB : B.map (fun m => if m.ptr = n.ptr then n else m) = B.map id :=
    List.map_congr_left fun m hm => if_neg (hn ▸ h.ptr_ne_right hm)
  rw [writeNode, inorder_map, ht, List.map_append, List.map_cons, if_pos hn.symm, hA, hB,
    List.map_id, List.map_id]

theorem novaInsertRangeNode_eq (sh : Shape RangeNode) (h : NodesOk cs (A ++ B))
    (ht : inorder tree = A ++ B) (hA : ∀ a ∈ A, a.rangeHigh < n.rangeLow)
    (hB : ∀ b ∈ B, n.rangeLow < b.rangeLow) :
    ∃ tree', novaInsertRangeNode sh tree n = .ok tree' ∧ inorder tree' = A ++ n :: B := by
  have hgt : ∀ a ∈ A, novaRbtreeCompareRangenode n.rangeLow a = .gt := fun a ha =>
    novaRbtreeCompareRangenode_gt (h.proper (by simp [ha])) (hA a ha)
  have hlt : ∀ b ∈ B, novaRbtreeCompareRangenode n.rangeLow b = .lt := fun b hb =>
    novaRbtreeCompareRangenode_lt (hB b hb)
  obtain ⟨t, hlink, hin⟩ := link_gap (x := n) ht hgt hlt
  refine ⟨sh.build (inorder t), ?_, by rw [Shape.inorder_build, hin]⟩
  rw [novaInsertRangeNode, hlink]

theorem novaFindRangeNode_gap (h : NodesOk cs (A ++ B)) (ht : inorder tree = A ++ B)
    (hA : ∀ a ∈ A, a.rangeHigh < low) (hB : ∀ b ∈ B, low < b.rangeLow) :
    ∃ y, novaFindRangeNode cs tree low = (false, y) ∧
      (y = none ∧ A = [] ∧ B = [] ∨ y.isSome ∧ (y = A.getLast? ∨ y = B.head?)) := by
  have hgt : ∀ a ∈ A, novaRbtreeCompareRangenode low a = .gt := fun a ha =>
    novaRbtreeCompareRangenode_gt (h.proper (by simp [ha])) (hA a ha)
  have hlt : ∀ b ∈ B, novaRbtreeCompareRangenode low b = .lt := fun b hb =>
    novaRbtreeCompareRangenode_lt (hB b hb)
  obtain ⟨y, hy, hcases⟩ := descend_gap (c := none) ht hgt hlt
  refine ⟨y, ?_, ?_⟩
  · cases y with
    | none => rw [novaFindRangeNode, hy]
    | some c =>
      have hc : c ∈ A ++ B := by
        obtain ⟨-, hc⟩ | ⟨-, hc | hc⟩ := hcases
        · cases hc
        · exact List.mem_append_left B (List.mem_of_getLast? hc.symm)
        · exact List.mem_append_right A (List.mem_of_head? hc.symm)
      simp only [novaFindRangeNode, hy, h.csums c hc, if_true]
  · obtain ⟨rfl, rfl⟩ | hcases := hcases
    · exact Or.inl ⟨rfl, List.append_eq_nil_iff.mp ht.symm⟩
    · exact Or.inr hcases

theorem novaFindRangeNode_found (h : NodesOk cs (A ++ curr :: B))
    (ht : inorder tree = A ++ curr :: B) (hlow : curr.rangeLow ≤ low)
    (hhigh : low ≤ curr.rangeHigh) : novaFindRangeNode cs tree low = (true, some curr) := by
  have hsep := h.separated
  rw [extents_append, extents_cons] at hsep
  obtain ⟨-, -, -, hAx, hxB⟩ := separated_middle.mp hsep
  have hdesc : descend (novaRbtreeCompareRangenode low) tree none = (true, some curr) := by
    apply descend_found ht
    · intro a ha
      have hgap := hAx a.extent (List.mem_map_of_mem ha)
      apply novaRbtreeCompareRangenode_gt (h.proper (by simp [ha]))
      simp only [RangeNode.extent] at hgap
      omega
    · unfold novaRbtreeCompareRangenode
      rw [if_neg (by omega), if_neg (by omega)]
    · intro b hb
      have hgap := hxB b.extent (List.mem_map_of_mem hb)
      apply novaRbtreeCompareRangenode_lt
      simp only [RangeNode.extent] at hgap
      omega
  simp only [novaFindRangeNode, hdesc, h.csums curr (by simp), if_true]

/-- Whichever neighbour the search ends at, the slot of a range that is apart from all nodes is
between its two neighbours. -/
theorem novaFindFreeSlot_eq (h : NodesOk cs (A ++ B)) (ht : inorder tree = A ++ B)
    (hle : low ≤ high) (hA : ∀ a ∈ A, a.rangeHigh < low) (hB : ∀ b ∈ B, high < b.rangeLow) :
    novaFindFreeSlot cs tree low high = .ok (A.getLast?, B.head?) := by
  obtain ⟨y, hy, hcases⟩ := novaFindRangeNode_gap h ht hA fun b hb => lt_of_le_of_lt hle (hB b hb)
  obtain ⟨rfl, rfl, rfl⟩ | ⟨hsome, hcases⟩ := hcases
  · simp [novaFindFreeSlot, hy]
  obtain ⟨c, rfl⟩ := Option.isSome_iff_exists.mp hsome
  obtain hc | hc := hcases
  · obtain ⟨A', rfl⟩ := List.getLast?_eq_some_iff.mp hc.symm
    rw [List.append_assoc] at h ht
    have hnext : rbNext tree c.ptr = B.head? := rbNext_eq h ht
    simp only [novaFindFreeSlot, hy, if_pos (hA c (by simp)), hnext, ← hc]
    cases hB' : B.head? with
    | none => rfl
    | some b =>
      have hb : b ∈ A' ++ ([c] ++ B) := by simp [List.mem_of_head? hB']
      simp only [h.csums b hb, if_true]
  · obtain ⟨B', rfl⟩ := List.head?_eq_some_iff.mp hc.symm
    have hprev : rbPrev tree c.ptr = A.getLast? := rbPrev_eq h ht
    have hlow : high < c.rangeLow := hB c (by simp)
    have hc' : ¬ c.rangeHigh < low := by
      have hproper : c.rangeLow ≤ c.rangeHigh := h.proper (by simp)
      omega
    simp only [novaFindFreeSlot, hy, if_neg hc', if_pos hlow, hprev, List.head?_cons]
    cases hA' : A.getLast? with
    | none => rfl
    | some a =>
      have ha : a ∈ A ++ c :: B' := by simp [List.mem_of_getLast? hA']
      simp only [h.csums a ha, if_true]

end Squint.Nova
