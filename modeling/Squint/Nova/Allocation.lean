import Squint.Nova.FreeList

/-! Taking blocks from the free list of one CPU (`balloc.c`). -/
namespace Squint.Nova
open Squint.Lib

variable {cs : DramCsum} {sh : Shape RangeNode} {fl fl' : FreeList} {lost n low p : ℕ}
  {A B C : List RangeNode} {curr y : RangeNode}

/-- The `n` blocks from `low` on are no longer in a node, but the accounts still have them. -/
structure Took (cs : DramCsum) (lost : ℕ) (fl fl' : FreeList) (low n : ℕ) : Prop where
  pos : 0 < n
  same : SameAccounts fl fl'
  ok : fl'.Ok cs (lost + n)
  subset : Set.Ico low (low + n) ⊆ fl.freeSet
  rest : fl'.freeSet = fl.freeSet \ Set.Ico low (low + n)

theorem sub64_eq {a b : ℕ} (hb : b ≤ a) (ha : a < 2 ^ 64) : sub64 a b = a - b := by
  unfold sub64
  omega

/-- What is to be shown of the nodes `C` that are left of `curr`. -/
theorem FreeList.Ok.take (h : fl.Ok cs lost) (hfl : fl.nodes = A ++ curr :: B)
    (hsame : SameAccounts fl fl') (hfl' : fl'.nodes = A ++ (C ++ B)) (hn : 0 < n)
    (hlow : curr.rangeLow ≤ low) (hhigh : low + n ≤ curr.rangeHigh + 1)
    (hC : Separated (extents C))
    (hcover : cover (extents C) =
      Set.Icc curr.rangeLow curr.rangeHigh \ Set.Ico low (low + n))
    (hsize : total (extents C) + n = curr.extent.size) (hptrs : (C.map RangeNode.ptr).Nodup)
    (hfresh : ∀ c ∈ C, c.ptr = curr.ptr ∨ c.ptr ∉ (A ++ B).map RangeNode.ptr)
    (hcsums : ∀ c ∈ C, novaRangeNodeChecksumOk cs c = true)
    (hfirst : fl'.firstNode = ((A ++ (C ++ B)).map RangeNode.ptr).head?)
    (hlast : fl'.lastNode = ((A ++ (C ++ B)).map RangeNode.ptr).getLast?)
    (hcount : fl'.numBlocknode = (A ++ (C ++ B)).length) : Took cs lost fl fl' low n := by
  have hok := h.nodes
  rw [hfl] at hok
  have hin : ∀ c ∈ C, curr.rangeLow ≤ c.rangeLow ∧ c.rangeHigh ≤ curr.rangeHigh := by
    intro c hc
    have hproper := hC.proper c.extent (List.mem_map_of_mem hc)
    have hl : c.rangeLow ∈ cover (extents C) := ⟨c.extent, List.mem_map_of_mem hc, le_rfl, hproper⟩
    have hr : c.rangeHigh ∈ cover (extents C) := ⟨c.extent, List.mem_map_of_mem hc, hproper, le_rfl⟩
    rw [hcover] at hl hr
    exact ⟨hl.1.1, hr.1.2⟩
  have hmem : ∀ m ∈ A ++ (C ++ B), m ∈ C ∨ m ∈ fl.nodes := by
    intro m hm
    rw [hfl]
    simp only [List.mem_append, List.mem_cons] at hm ⊢
    tauto
  have hsep := hok.separated
  rw [extents_append, extents_cons] at hsep
  obtain ⟨-, -, -, hA, hB⟩ := separated_middle.mp hsep
  refine ⟨hn, hsame, ?_, ?_, ?_⟩
  · constructor
    · rw [hfl']
      exact hok.replace hC hin hptrs hfresh hcsums
    · intro m hm
      rw [hsame.blockStart, hsame.blockEnd]
      have hcurr := h.bounds curr (by simp [hfl])
      obtain hm | hm := hmem m (hfl' ▸ hm)
      · have hm' := hin m hm
        omega
      · exact h.bounds m hm
    · rw [hfirst, hfl']
    · rw [hlast, hfl']
    · rw [hcount, hfl']
    · rw [hsame.numFreeBlocks, h.free, hfl, hfl']
      simp only [extents_append, extents_cons, total_append, total_cons]
      omega
    · rw [hsame.blockEnd]
      exact h.small
  · intro b hb
    refine ⟨curr.extent, by simp [hfl, extents], ?_, ?_⟩
    · have hb' := hb.1
      simp only [RangeNode.extent]
      omega
    · have hb' := hb.2
      simp only [RangeNode.extent]
      omega
  · ext b
    -- the other nodes hold none of the blocks
    have hother : b ∈ cover (extents A) ∨ b ∈ cover (extents B) → b ∉ Set.Ico low (low + n) := by
      rintro (⟨r, hr, hb⟩ | ⟨r, hr, hb⟩) hout
      · have hgap := hA r hr
        have hle := hb.2
        have hlo := hout.1
        simp only [RangeNode.extent] at hgap
        omega
      · have hgap := hB r hr
        have hle := hb.1
        have hhi := hout.2
        simp only [RangeNode.extent] at hgap
        omega
    simp only [FreeList.freeSet, hfl, hfl', extents_append, extents_cons, cover_append, cover_cons,
      hcover, Set.mem_union, Set.mem_sdiff, RangeNode.extent]
    tauto

theorem took_cut (h : fl.Ok cs lost) (hfl : fl.nodes = A ++ curr :: B) (hn : 0 < n)
    (hptr : y.ptr = curr.ptr) (hle : y.rangeLow ≤ y.rangeHigh)
    (hcsum : novaRangeNodeChecksumOk cs y = true)
    (hcut : low = curr.rangeLow ∧ y.rangeLow = low + n ∧ y.rangeHigh = curr.rangeHigh ∨
      low = y.rangeHigh + 1 ∧ y.rangeLow = curr.rangeLow ∧ low + n = curr.rangeHigh + 1) :
    Took cs lost fl { fl with blockFreeTree := writeNode fl.blockFreeTree y } low n := by
  have hok := h.nodes
  rw [hfl] at hok
  have hptrs : (A ++ ([y] ++ B)).map RangeNode.ptr = fl.nodes.map RangeNode.ptr := by
    simp [hfl, hptr]
  apply h.take (C := [y]) hfl (.refl ..) (inorder_writeNode hok hfl hptr) hn
  · omega
  · omega
  · exact separated_cons.mpr ⟨hle, by simp, .nil⟩
  · ext b
    simp only [extents_cons, extents_nil, cover_cons, cover_nil, Set.union_empty, RangeNode.extent,
      Set.mem_Icc, Set.mem_sdiff, Set.mem_Ico]
    omega
  · simp only [extents_cons, extents_nil, total_cons, total_nil, Extent.size, RangeNode.extent]
    omega
  · simp
  · simpa using Or.inl hptr
  · simpa using hcsum
  · rw [hptrs]
    exact h.first
  · rw [hptrs]
    exact h.last
  · show fl.numBlocknode = _
    rw [h.count, hfl]
    simp

theorem took_node (h : fl.Ok cs lost) (hfl : fl.nodes = A ++ curr :: B)
    (hn : n = curr.rangeHigh + 1 - curr.rangeLow) :
    Took cs lost fl (dropNode sh fl curr) curr.rangeLow n := by
  have hok := h.nodes
  rw [hfl] at hok
  have hle : curr.rangeLow ≤ curr.rangeHigh := hok.proper (by simp)
  have hnext := rbNext_eq hok hfl
  have hprev := rbPrev_eq hok hfl
  apply h.take (C := []) hfl (.refl ..) (inorder_rbErase hok hfl) (by omega) le_rfl
  · omega
  · exact .nil
  · ext b
    simp only [extents_nil, cover_nil, Set.mem_empty_iff_false, Set.mem_sdiff, Set.mem_Icc,
      Set.mem_Ico, false_iff]
    omega
  · simp only [extents_nil, total_nil, Extent.size, RangeNode.extent]
    omega
  · simp
  · simp
  · simp
  · show (if fl.firstNode = some curr.ptr then
      (rbNext fl.blockFreeTree curr.ptr).map RangeNode.ptr else fl.firstNode) = _
    rw [h.first, hfl, hnext]
    cases A with
    | nil => simp
    | cons a A =>
      have ha : a.ptr ≠ curr.ptr := hok.ptr_ne_left (by simp)
      simp [ha]
  · show (if fl.lastNode = some curr.ptr then
      (rbPrev fl.blockFreeTree curr.ptr).map RangeNode.ptr else fl.lastNode) = _
    rw [h.last, hfl, hprev]
    obtain rfl | ⟨B, b, rfl⟩ := List.eq_nil_or_concat' B
    · simp
    · have hb : b.ptr ≠ curr.ptr := hok.ptr_ne_right (by simp)
      rw [← List.singleton_append, ← List.append_assoc, getLast?_ptrs_concat,
        if_neg (by simpa using hb), List.nil_append, getLast?_ptrs_concat]
  · show fl.numBlocknode - 1 = _
    rw [h.count, hfl]
    simp

/-- Blocks are cut out of a node, which keeps the part before them; a new node gets the part behind
them. -/
theorem took_split {z : RangeNode} {tree : RangeTree} (h : fl.Ok cs lost)
    (hfl : fl.nodes = A ++ curr :: B) (hn : 0 < n) (hptr : y.ptr = curr.ptr)
    (hright : z.ptr ∉ fl.nodes.map RangeNode.ptr)
    (hylow : y.rangeLow = curr.rangeLow) (hyle : y.rangeLow ≤ y.rangeHigh)
    (hlow : low = y.rangeHigh + 1) (hrlow : z.rangeLow = low + n)
    (hrhigh : z.rangeHigh = curr.rangeHigh) (hrle : z.rangeLow ≤ z.rangeHigh)
    (hcsum : novaRangeNodeChecksumOk cs y = true)
    (hcsum' : novaRangeNodeChecksumOk cs z = true)
    (htree : inorder tree = A ++ ([y, z] ++ B)) :
    Took cs lost fl { fl with
      blockFreeTree := tree
      numBlocknode := fl.numBlocknode + 1
      lastNode := if fl.lastNode = some curr.ptr then some z.ptr else fl.lastNode } low n := by
  have hok := h.nodes
  rw [hfl] at hok
  have hne : z.ptr ≠ curr.ptr := by
    intro heq
    apply hright
    simp [hfl, heq]
  apply h.take (C := [y, z]) hfl (.refl ..) htree hn
  · omega
  · omega
  · rw [extents_cons, extents_cons, extents_nil]
    refine separated_cons.mpr ⟨hyle, fun r hr => ?_, separated_cons.mpr ⟨hrle, by simp, .nil⟩⟩
    obtain rfl := List.mem_singleton.mp hr
    simp only [RangeNode.extent]
    omega
  · ext b
    simp only [extents_cons, extents_nil, cover_cons, cover_nil, Set.union_empty, RangeNode.extent,
      Set.mem_union, Set.mem_Icc, Set.mem_sdiff, Set.mem_Ico]
    omega
  · simp only [extents_cons, extents_nil, total_cons, total_nil, Extent.size, RangeNode.extent]
    omega
  · simpa [hptr] using hne.symm
  · intro c hc
    simp only [List.mem_cons, List.not_mem_nil, or_false] at hc
    obtain rfl | rfl := hc
    · exact Or.inl hptr
    · right
      rw [hfl] at hright
      simp only [List.map_append, List.map_cons, List.mem_append, List.mem_cons] at hright ⊢
      tauto
  · simpa using ⟨hcsum, hcsum'⟩
  · show fl.firstNode = _
    rw [h.first, hfl]
    exact (head?_ptrs_eq hptr _).symm
  · show (if fl.lastNode = some curr.ptr then some z.ptr else fl.lastNode) = _
    rw [h.last, hfl]
    obtain rfl | ⟨B, b, rfl⟩ := List.eq_nil_or_concat' B
    · simp
    · have hb : b.ptr ≠ curr.ptr := hok.ptr_ne_right (by simp)
      rw [← List.singleton_append, ← List.append_assoc, getLast?_ptrs_concat,
        if_neg (by simpa using hb), ← List.append_assoc, getLast?_ptrs_concat]
  · show fl.numBlocknode + 1 = _
    rw [h.count, hfl]
    simp
    omega

theorem cutSuperpage_cases (sh : Shape RangeNode) (h : fl.Ok cs lost)
    (hfl : fl.nodes = A ++ curr :: B) {node : Option ℕ}
    (hnode : ∀ p ∈ node, p ∉ fl.nodes.map RangeNode.ptr) {leftMargin rightMargin numBlocks : ℕ}
    (hleft : 0 < leftMargin) (hnum : 0 < numBlocks)
    (hsum : leftMargin + numBlocks + rightMargin = curr.rangeHigh + 1 - curr.rangeLow) :
    (∃ fl', cutSuperpage cs sh fl node curr leftMargin rightMargin numBlocks = (.ok (), fl') ∧
        Took cs lost fl fl' (curr.rangeLow + leftMargin) numBlocks) ∨
      ∃ fl' n, cutSuperpage cs sh fl node curr leftMargin rightMargin numBlocks =
          (.error .enomem, fl') ∧
        node = none ∧ Took cs lost fl fl' (curr.rangeLow + leftMargin) n ∧ fl'.nodes ≠ [] := by
  have hok := h.nodes
  rw [hfl] at hok
  simp only [cutSuperpage, if_pos (show leftMargin ≠ 0 by omega)]
  generalize hy : novaUpdateRangeNodeChecksum cs
    { curr with rangeHigh := curr.rangeLow + leftMargin - 1 } = y
  have hptr : y.ptr = curr.ptr := by simp [← hy]
  have hylow : y.rangeLow = curr.rangeLow := by simp [← hy]
  have hyhigh : y.rangeHigh = curr.rangeLow + leftMargin - 1 := by simp [← hy]
  have hcsum : novaRangeNodeChecksumOk cs y = true := by simp [← hy]
  -- first everything behind the left margin is cut off
  have hcut : Took cs lost fl { fl with blockFreeTree := writeNode fl.blockFreeTree y }
      (curr.rangeLow + leftMargin) (numBlocks + rightMargin) :=
    took_cut h hfl (by omega) hptr (by omega) hcsum (by omega)
  have hwrite : inorder (writeNode fl.blockFreeTree y) = A ++ y :: B :=
    inorder_writeNode hok hfl hptr
  by_cases hright : rightMargin = 0
  · subst hright
    rw [if_neg (by simp)]
    exact Or.inl ⟨_, rfl, hcut⟩
  rw [if_pos hright]
  cases node with
  | none =>
    refine Or.inr ⟨_, _, rfl, rfl, hcut, ?_⟩
    show inorder (writeNode fl.blockFreeTree y) ≠ []
    simp [hwrite]
  | some p =>
    have hoky : NodesOk cs ((A ++ [y]) ++ B) := by
      have hoky := hcut.ok.nodes
      rw [FreeList.nodes, hwrite] at hoky
      simpa using hoky
    have hsep := hok.separated
    rw [extents_append, extents_cons] at hsep
    obtain ⟨-, -, -, hA, hB⟩ := separated_middle.mp hsep
    have hwrite' : inorder (writeNode fl.blockFreeTree y) = (A ++ [y]) ++ B := by
      simpa using hwrite
    obtain ⟨tree, hins, htree⟩ := novaInsertRangeNode_eq sh
      (n := novaUpdateRangeNodeChecksum cs
        ⟨p, curr.rangeLow + leftMargin + numBlocks, curr.rangeHigh, 0⟩) hoky hwrite'
      (fun a ha => by
        simp only [novaUpdateRangeNodeChecksum_rangeLow]
        obtain ha | ha := List.mem_append.mp ha
        · have hgap := hA a.extent (List.mem_map_of_mem ha)
          simp only [RangeNode.extent] at hgap
          omega
        · obtain rfl := List.mem_singleton.mp ha
          omega)
      (fun b hb => by
        have hgap := hB b.extent (List.mem_map_of_mem hb)
        simp only [RangeNode.extent] at hgap
        simp only [novaUpdateRangeNodeChecksum_rangeLow]
        omega)
    simp only [hins]
    refine Or.inl ⟨_, rfl, ?_⟩
    generalize hz : novaUpdateRangeNodeChecksum cs
      ⟨p, curr.rangeLow + leftMargin + numBlocks, curr.rangeHigh, 0⟩ = z at htree
    have hzptr : z.ptr = p := by simp [← hz]
    have hzlow : z.rangeLow = curr.rangeLow + leftMargin + numBlocks := by simp [← hz]
    have hzhigh : z.rangeHigh = curr.rangeHigh := by simp [← hz]
    have hsplit := took_split h hfl hnum hptr (hzptr ▸ hnode p rfl) hylow (by omega) (by omega)
      hzlow hzhigh (by omega) hcsum (by simp [← hz]) (by simpa using htree)
    rwa [hzptr] at hsplit

/-- What comes of an attempt to take aligned blocks: nothing, the blocks, or (without a node for the
right margin) blocks that are lost. -/
theorem novaAllocSuperpage_cases (sh : Shape RangeNode) (h : fl.Ok cs lost) {node : Option ℕ}
    (hnode : ∀ p ∈ node, p ∉ fl.nodes.map RangeNode.ptr) {numBlocks : ℕ} (hnum : 0 < numBlocks)
    {W : List RangeNode} (hW : ∀ m ∈ W, m ∈ fl.nodes) :
    novaAllocSuperpage cs sh fl node numBlocks W = (.ok none, fl) ∨
      (∃ low n fl', novaAllocSuperpage cs sh fl node numBlocks W = (.ok (some (low, n)), fl') ∧
        Took cs lost fl fl' low n ∧ n ≤ numBlocks ∧ 0 < low ∧ low % 512 = 0) ∨
      ∃ low n fl', novaAllocSuperpage cs sh fl node numBlocks W = (.error .enomem, fl') ∧
        node = none ∧ Took cs lost fl fl' low n ∧ fl'.nodes ≠ [] := by
  induction W generalizing numBlocks with
  | nil => exact Or.inl rfl
  | cons curr W ih =>
    have hcurr := hW curr (by simp)
    have hbounds := h.bounds curr hcurr
    have hle := h.nodes.proper hcurr
    have hsmall := h.small
    have hblocks : sub64 curr.rangeHigh curr.rangeLow + 1 = curr.rangeHigh + 1 - curr.rangeLow := by
      rw [sub64_eq hle (by omega)]
      omega
    simp only [novaAllocSuperpage, h.nodes.csums curr hcurr, if_true, hblocks, pagesPer2Mb]
    generalize hleft : 512 - curr.rangeLow % 512 = leftMargin
    generalize hroom : sub64 (curr.rangeHigh + 1 - curr.rangeLow) leftMargin = room
    generalize hnum' : (if numBlocks > room ∧ room / 512 * 512 > 0 then room / 512 * 512
      else numBlocks) = numBlocks'
    have hnum'pos : 0 < numBlocks' ∧ numBlocks' ≤ numBlocks := by
      rw [← hnum']
      split_ifs <;> omega
    split_ifs with hfits
    · have hroom' : room = curr.rangeHigh + 1 - curr.rangeLow - leftMargin := by
        rw [← hroom, sub64_eq (by omega) (by omega)]
      obtain ⟨A, B, hfl⟩ := List.append_of_mem hcurr
      have hmod : (room - numBlocks') % 2 ^ 32 = room - numBlocks' := Nat.mod_eq_of_lt (by omega)
      rw [hmod]
      right
      have hsum : leftMargin + numBlocks' + (room - numBlocks') =
          curr.rangeHigh + 1 - curr.rangeLow := by omega
      obtain ⟨fl', heq, htook⟩ | ⟨fl', n, heq, hnone, htook, hne⟩ :=
        cutSuperpage_cases sh h hfl hnode (by omega) hnum'pos.1 hsum
      · refine Or.inl ⟨_, _, fl', by rw [heq], htook, hnum'pos.2, by omega, by omega⟩
      · exact Or.inr ⟨_, n, fl', by rw [heq], hnone, htook, hne⟩
    · obtain heq | ⟨low, n, fl', heq, htook, hn, hlow⟩ | hlost :=
        ih hnum'pos.1 fun m hm => hW m (by simp [hm])
      · exact Or.inl heq
      · exact Or.inr (Or.inl ⟨low, n, fl', heq, htook, hn.trans hnum'pos.2, hlow⟩)
      · exact Or.inr (Or.inr hlost)

/-- The list without the `n` blocks from `low` on, but for the counts of allocations. -/
structure Granted (cs : DramCsum) (lost : ℕ) (fl fl' : FreeList) (low n : ℕ) : Prop where
  pos : 0 < n
  ok : fl'.Ok cs lost
  subset : Set.Ico low (low + n) ⊆ fl.freeSet
  rest : fl'.freeSet = fl.freeSet \ Set.Ico low (low + n)
  numFreeBlocks : fl'.numFreeBlocks + n = fl.numFreeBlocks
  same : SameAccounts { fl with numFreeBlocks := fl.numFreeBlocks - n } fl'

theorem Took.granted (h : Took cs lost fl fl' low n) :
    Granted cs lost fl { fl' with numFreeBlocks := fl'.numFreeBlocks - n } low n := by
  have hfree := h.ok.free
  have hsame := h.same.numFreeBlocks
  refine ⟨h.pos, ⟨h.ok.nodes, h.ok.bounds, h.ok.first, h.ok.last, h.ok.count, ?_, h.ok.small⟩,
    h.subset, h.rest, ?_, ⟨h.same.blockStart, h.same.blockEnd, ?_, h.same.allocLog,
      h.same.allocData, h.same.freeLog, h.same.freeData⟩⟩
  · show fl'.numFreeBlocks - n = total (extents fl'.nodes) + lost
    omega
  · show fl'.numFreeBlocks - n + n = fl.numFreeBlocks
    omega
  · show fl'.numFreeBlocks - n = fl.numFreeBlocks - n
    rw [hsame]

theorem FreeList.Ok.nodes_eq_nil (h : fl.Ok cs lost)
    (hempty : fl.firstNode = none ∨ fl.numFreeBlocks = 0) : fl.nodes = [] := by
  have hfirst := h.first
  have hfree := h.free
  have hproper : ∀ m ∈ fl.nodes, m.rangeLow ≤ m.rangeHigh := fun m hm => h.nodes.proper hm
  cases hnodes : fl.nodes with
  | nil => rfl
  | cons m L =>
    have hm := hproper m (by simp [hnodes])
    rw [hnodes] at hfirst hfree
    simp only [extents_cons, total_cons, Extent.size, RangeNode.extent] at hfree
    obtain hnone | hzero := hempty
    · simp [hnone] at hfirst
    · omega

theorem FreeList.Ok.walk_eq (h : fl.Ok cs lost) (dir : AllocDirection) :
    fl.walk dir = match dir with
      | .fromHead => fl.nodes
      | .fromTail => fl.nodes.reverse := by
  cases dir with
  | fromHead =>
    simp only [FreeList.walk, h.first]
    cases fl.nodes <;> simp
  | fromTail =>
    simp only [FreeList.walk, h.last, ← List.head?_reverse, ← List.map_reverse]
    cases fl.nodes.reverse <;> simp

theorem FreeList.Ok.mem_walk (h : fl.Ok cs lost) (dir : AllocDirection) :
    curr ∈ fl.walk dir ↔ curr ∈ fl.nodes := by
  rw [h.walk_eq]
  cases dir <;> simp

/-- The second loop finds nothing, or takes what it says. Single pages are found in any node. -/
theorem allocUnaligned_cases (sh : Shape RangeNode) (h : fl.Ok cs lost) (btype : BlockType)
    (dir : AllocDirection) {numBlocks : ℕ} (hnum : 0 < numBlocks) {W : List RangeNode}
    (hW : ∀ m ∈ W, m ∈ fl.nodes) :
    allocUnaligned cs sh fl btype dir numBlocks W = none ∧ (btype = .b4K → W = []) ∨
      ∃ low n fl', allocUnaligned cs sh fl btype dir numBlocks W = some ((low, n), fl') ∧
        Took cs lost fl fl' low n ∧ n ≤ numBlocks ∧ (btype ≠ .b4K → n = numBlocks) := by
  induction W with
  | nil => exact Or.inl ⟨rfl, fun _ => rfl⟩
  | cons curr W ih =>
    have hcurr := hW curr (by simp)
    have hbounds := h.bounds curr hcurr
    have hle := h.nodes.proper hcurr
    have hsmall := h.small
    obtain ⟨A, B, hfl⟩ := List.append_of_mem hcurr
    have hblocks : sub64 curr.rangeHigh curr.rangeLow + 1 = curr.rangeHigh + 1 - curr.rangeLow := by
      rw [sub64_eq hle (by omega)]
      omega
    simp only [allocUnaligned, h.nodes.csums curr hcurr, if_true, hblocks]
    split_ifs with hall hskip
    · obtain ⟨hnone, -⟩ | hsome := ih fun m hm => hW m (by simp [hm])
      · exact Or.inl ⟨hnone, fun h4K => absurd h4K hskip.1⟩
      · exact Or.inr hsome
    · refine Or.inr ⟨_, _, _, rfl, took_node h hfl rfl, hall, fun hbig => ?_⟩
      by_contra hne
      exact hskip ⟨hbig, by omega⟩
    · right
      cases dir with
      | fromHead =>
        refine ⟨_, _, _, rfl, took_cut h hfl hnum (by simp) ?_ (by simp) (Or.inl (by simp)), le_rfl,
          fun _ => rfl⟩
        simp only [novaUpdateRangeNodeChecksum_rangeLow, novaUpdateRangeNodeChecksum_rangeHigh]
        omega
      | fromTail =>
        have hcut : curr.rangeHigh + 1 - numBlocks = curr.rangeHigh - numBlocks + 1 := by omega
        refine ⟨_, _, _, rfl, took_cut h hfl hnum (by simp) ?_ (by simp)
          (Or.inr ⟨by simpa using hcut, by simp, by omega⟩), le_rfl, fun _ => rfl⟩
        simp only [novaUpdateRangeNodeChecksum_rangeLow, novaUpdateRangeNodeChecksum_rangeHigh]
        omega

theorem allocFallback_cases (sh : Shape RangeNode) (h : fl.Ok cs lost) (btype : BlockType)
    (dir : AllocDirection) {numBlocks : ℕ} (hnum : 0 < numBlocks) :
    allocFallback cs sh fl btype dir numBlocks = (.error .enospc, fl) ∧
        (btype = .b4K → fl.nodes = []) ∨
      ∃ low n fl', allocFallback cs sh fl btype dir numBlocks = (.ok (low, n), fl') ∧
        Granted cs lost fl fl' low n ∧ n ≤ numBlocks ∧ (btype ≠ .b4K → n = numBlocks) := by
  have hwalk : ∀ m ∈ fl.walk dir, m ∈ fl.nodes := fun m hm => (h.mem_walk dir).mp hm
  obtain ⟨hnone, hempty⟩ | ⟨low, n, fl', hsome, htook, hn, hbig⟩ :=
    allocUnaligned_cases sh h btype dir hnum hwalk
  · refine Or.inl ⟨by simp only [allocFallback, hnone], fun h4K => ?_⟩
    apply List.eq_nil_iff_forall_not_mem.mpr
    intro m hm
    have hm' := (h.mem_walk dir).mpr hm
    rw [hempty h4K] at hm'
    simp at hm'
  · have hfree := htook.ok.free
    refine Or.inr ⟨low, n, _, ?_, htook.granted, hn, hbig⟩
    simp only [allocFallback, hsome]
    rw [if_neg (by omega)]

/-- The blocks behind a left margin for which there was no node. -/
inductive Leaked (cs : DramCsum) (node : Option ℕ) (lost : ℕ) (fl : FreeList) : ℕ → FreeList → Prop
  | none : Leaked cs node lost fl lost fl
  | some {low n : ℕ} {fl' : FreeList} (hnode : node = none) (htook : Took cs lost fl fl' low n)
      (hleft : fl'.nodes ≠ []) : Leaked cs node lost fl (lost + n) fl'

theorem Leaked.ok {node : Option ℕ} {lost' : ℕ} (h : Leaked cs node lost fl lost' fl')
    (hok : fl.Ok cs lost) : fl'.Ok cs lost' := by
  cases h with
  | none => exact hok
  | some _ htook _ => exact htook.ok

/-- An allocation takes blocks that are free, no more than asked for and exactly as many where
they have to be contiguous, or it finds none; for single pages it finds some if there are any. -/
theorem novaAllocBlocksInFreeList_cases (sh : Shape RangeNode) (h : fl.Ok cs lost)
    {node : Option ℕ} (hnode : ∀ p ∈ node, p ∉ fl.nodes.map RangeNode.ptr) (btype : BlockType)
    (atype : AllocType) (dir : AllocDirection) {numBlocks : ℕ} (hnum : 0 < numBlocks) :
    ∃ lost' fl₁, Leaked cs node lost fl lost' fl₁ ∧
      (novaAllocBlocksInFreeList cs sh fl node btype atype numBlocks dir =
          (.error .enospc, fl₁) ∧ (atype = .data → btype = .b4K → fl.nodes = []) ∨
        ∃ low n fl', novaAllocBlocksInFreeList cs sh fl node btype atype numBlocks dir =
            (.ok (low, n), fl') ∧
          Granted cs lost' fl₁ fl' low n ∧ n ≤ numBlocks) := by
  by_cases hempty : fl.firstNode = none ∨ fl.numFreeBlocks = 0
  · refine ⟨lost, fl, .none, Or.inl ⟨?_, fun _ _ => h.nodes_eq_nil hempty⟩⟩
    simp only [novaAllocBlocksInFreeList, if_pos hempty]
  by_cases hlog : atype = .log ∧ notEnoughBlocks fl numBlocks atype
  · refine ⟨lost, fl, .none, Or.inl ⟨?_, fun hdata => by simp [hlog.1] at hdata⟩⟩
    simp only [novaAllocBlocksInFreeList, if_neg hempty, if_pos hlog]
  by_cases hhuge : numBlocks % pagesPer2Mb = 0 ∧ atype = .data
  · have hwalk : ∀ m ∈ fl.walk dir, m ∈ fl.nodes := fun m hm => (h.mem_walk dir).mp hm
    obtain heq | ⟨low, n, fl', heq, htook, hn, hlow, -⟩ | ⟨low, n, fl₁, heq, hnone, htook, hleft⟩ :=
      novaAllocSuperpage_cases sh h hnode hnum hwalk
    · refine ⟨lost, fl, .none, ?_⟩
      simp only [novaAllocBlocksInFreeList, if_neg hempty, if_neg hlog, if_pos hhuge, heq]
      obtain ⟨herr, h4K⟩ | ⟨low, n, fl', hok, hgrant, hn, -⟩ :=
        allocFallback_cases sh h btype dir hnum
      · exact Or.inl ⟨herr, fun _ => h4K⟩
      · exact Or.inr ⟨low, n, fl', hok, hgrant, hn⟩
    · refine ⟨lost, fl, .none, Or.inr ⟨low, n, _, ?_, htook.granted, hn⟩⟩
      simp only [novaAllocBlocksInFreeList, if_neg hempty, if_neg hlog, if_pos hhuge, heq]
      rw [if_pos ⟨htook.pos, by omega⟩]
    · refine ⟨lost + n, fl₁, .some hnone htook hleft, ?_⟩
      simp only [novaAllocBlocksInFreeList, if_neg hempty, if_neg hlog, if_pos hhuge, heq]
      obtain ⟨herr, h4K⟩ | ⟨low, n, fl', hok, hgrant, hn, -⟩ :=
        allocFallback_cases sh htook.ok btype dir hnum
      · exact Or.inl ⟨herr, fun _ hb => absurd (h4K hb) hleft⟩
      · exact Or.inr ⟨low, n, fl', hok, hgrant, hn⟩
  · refine ⟨lost, fl, .none, ?_⟩
    simp only [novaAllocBlocksInFreeList, if_neg hempty, if_neg hlog, if_neg hhuge]
    obtain ⟨herr, h4K⟩ | ⟨low, n, fl', hok, hgrant, hn, -⟩ :=
      allocFallback_cases sh h btype dir hnum
    · exact Or.inl ⟨herr, fun _ => h4K⟩
    · exact Or.inr ⟨low, n, fl', hok, hgrant, hn⟩

end Squint.Nova
