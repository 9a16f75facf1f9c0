import Squint.Nova.RangeTree

/-! The free list of one CPU (`balloc.c`). Each function is what it does under the lock of the list.
The node allocator of the kernel answers with a node (its address) or with `none`. -/
namespace Squint.Nova
open Squint.Lib

inductive BlockType
  | b4K
  | b2M
  | b1G
deriving DecidableEq, Repr

inductive AllocType
  | log
  | data
deriving DecidableEq, Repr

inductive AllocDirection
  | fromHead
  | fromTail
deriving DecidableEq, Repr

def novaGetNumblocks : BlockType → ℕ
  | .b4K => 1
  | .b2M => 512
  | .b1G => 0x40000

/-- A number of operations and of the pages they moved. -/
structure Tally where
  count : ℕ
  pages : ℕ
deriving DecidableEq, Repr

def Tally.add (t : Tally) (pages : ℕ) : Tally := ⟨t.count + 1, t.pages + pages⟩

structure FreeList where
  blockFreeTree : RangeTree
  firstNode : Option ℕ
  lastNode : Option ℕ
  blockStart : ℕ
  blockEnd : ℕ
  numFreeBlocks : ℕ
  numBlocknode : ℕ
  allocLog : Tally
  allocData : Tally
  freeLog : Tally
  freeData : Tally

def sub64 (a b : ℕ) : ℕ := (a + 2 ^ 64 - b) % 2 ^ 64

def pagesPer2Mb : ℕ := 512

def deadZoneBlocks : ℕ := 256

variable (cs : DramCsum) (sh : Shape RangeNode)

/-! ## Giving blocks back -/

/-- From the slot between `prev` and `next` to the label `block_found`: the blocks join the node
they align with, or go into the node at `ptr`. -/
def joinFree (fl : FreeList) (ptr low high numBlocks : ℕ) (prev next : Option RangeNode) :
    Except Errno FreeList :=
  match prev.filter (fun prev => low == prev.rangeHigh + 1),
    next.filter (fun next => high + 1 == next.rangeLow) with
  | some prev, some next =>
    -- fits the hole
    let tree := rbErase sh fl.blockFreeTree next.ptr
    .ok { fl with
      blockFreeTree :=
        writeNode tree (novaUpdateRangeNodeChecksum cs { prev with rangeHigh := next.rangeHigh })
      numBlocknode := fl.numBlocknode - 1
      lastNode := if fl.lastNode = some next.ptr then some prev.ptr else fl.lastNode }
  | some prev, none =>
    -- aligns left
    .ok { fl with
      blockFreeTree := writeNode fl.blockFreeTree
        (novaUpdateRangeNodeChecksum cs { prev with rangeHigh := prev.rangeHigh + numBlocks }) }
  | none, some next =>
    -- aligns right
    .ok { fl with
      blockFreeTree := writeNode fl.blockFreeTree
        (novaUpdateRangeNodeChecksum cs { next with rangeLow := next.rangeLow - numBlocks }) }
  | none, none =>
    let curr := novaUpdateRangeNodeChecksum cs ⟨ptr, low, high, 0⟩
    match novaInsertRangeNode sh fl.blockFreeTree curr with
    | .error e => .error e
    | .ok tree =>
      .ok { fl with
        blockFreeTree := tree
        firstNode := if prev.isNone then some ptr else fl.firstNode
        lastNode := if next.isNone then some ptr else fl.lastNode
        numBlocknode := fl.numBlocknode + 1 }

/-- `node` is the node that is allocated before the lock is taken. -/
def novaFreeBlocks (fl : FreeList) (node : Option ℕ) (blocknr : ℕ) (num : ℤ) (btype : BlockType)
    (logPage : Bool) : Except Errno Unit × FreeList :=
  if num ≤ 0 then (.error .einval, fl)
  else
    match node with
    | none => (.error .enomem, fl)
    | some ptr =>
      let numBlocks := novaGetNumblocks btype * num.toNat
      let blockHigh := blocknr + numBlocks - 1
      if blocknr < fl.blockStart ∨ blocknr + num.toNat > fl.blockEnd + 1 then (.error .eio, fl)
      else
        match novaFindFreeSlot cs fl.blockFreeTree blocknr blockHigh with
        | .error e => (.error e, fl)
        | .ok (prev, next) =>
          match joinFree cs sh fl ptr blocknr blockHigh numBlocks prev next with
          | .error e => (.error e, fl)
          | .ok fl =>
            let fl := { fl with numFreeBlocks := fl.numFreeBlocks + numBlocks }
            if logPage then (.ok (), { fl with freeLog := fl.freeLog.add numBlocks })
            else (.ok (), { fl with freeData := fl.freeData.add numBlocks })

/-! ## Taking blocks -/

def FreeList.nodes (fl : FreeList) : List RangeNode := inorder fl.blockFreeTree

def FreeList.nodeAt (fl : FreeList) (ptr : ℕ) : Option RangeNode :=
  fl.nodes.find? fun n => n.ptr == ptr

def notEnoughBlocks (fl : FreeList) (numBlocks : ℕ) (atype : AllocType) : Bool :=
  match fl.firstNode, fl.lastNode with
  | some first, some last =>
    if fl.numFreeBlocks < numBlocks then true
    else
      match fl.nodeAt first, fl.nodeAt last with
      | some first, some last =>
        atype == .log && decide (sub64 last.rangeHigh first.rangeLow < deadZoneBlocks)
      | _, _ => false
  | _, _ => true

/-- The nodes that `temp` goes through, from the first or the last node on. -/
def FreeList.walk (fl : FreeList) : AllocDirection → List RangeNode
  | .fromHead => fl.nodes.dropWhile fun n => some n.ptr != fl.firstNode
  | .fromTail => fl.nodes.reverse.dropWhile fun n => some n.ptr != fl.lastNode

/-- `curr` leaves the list with all its blocks. -/
def dropNode (fl : FreeList) (curr : RangeNode) : FreeList :=
  { fl with
    firstNode := if fl.firstNode = some curr.ptr then
      (rbNext fl.blockFreeTree curr.ptr).map RangeNode.ptr else fl.firstNode
    lastNode := if fl.lastNode = some curr.ptr then
      (rbPrev fl.blockFreeTree curr.ptr).map RangeNode.ptr else fl.lastNode
    blockFreeTree := rbErase sh fl.blockFreeTree curr.ptr
    numBlocknode := fl.numBlocknode - 1 }

/-- `numBlocks` blocks are cut out of `curr` after its first `leftMargin` ones. Without a node for
the right margin the attempt ends, and the blocks behind the left margin are in no node. -/
def cutSuperpage (fl : FreeList) (node : Option ℕ) (curr : RangeNode)
    (leftMargin rightMargin numBlocks : ℕ) : Except Errno Unit × FreeList :=
  if leftMargin ≠ 0 then
    let left := novaUpdateRangeNodeChecksum cs
      { curr with rangeHigh := curr.rangeLow + leftMargin - 1 }
    let fl := { fl with blockFreeTree := writeNode fl.blockFreeTree left }
    if rightMargin ≠ 0 then
      match node with
      | none => (.error .enomem, fl)
      | some ptr =>
        let right := novaUpdateRangeNodeChecksum cs
          ⟨ptr, curr.rangeLow + leftMargin + numBlocks, curr.rangeHigh, 0⟩
        (.ok (), { fl with
          -- whether the node could be inserted is not looked at
          blockFreeTree := match novaInsertRangeNode sh fl.blockFreeTree right with
            | .ok tree => tree
            | .error _ => fl.blockFreeTree
          numBlocknode := fl.numBlocknode + 1
          lastNode := if fl.lastNode = some curr.ptr then some ptr else fl.lastNode })
    else (.ok (), fl)
  else if rightMargin ≠ 0 then
    let right := novaUpdateRangeNodeChecksum cs { curr with rangeLow := curr.rangeLow + numBlocks }
    (.ok (), { fl with blockFreeTree := writeNode fl.blockFreeTree right })
  else (.ok (), dropNode sh fl curr)

/-- The first block and the number of blocks, or `none` if no node has room for aligned blocks. The
left margin is never `0`. -/
def novaAllocSuperpage (fl : FreeList) (node : Option ℕ) :
    ℕ → List RangeNode → Except Errno (Option (ℕ × ℕ)) × FreeList
  | _, [] => (.ok none, fl)
  | numBlocks, curr :: rest =>
    if novaRangeNodeChecksumOk cs curr then
      let currBlocks := sub64 curr.rangeHigh curr.rangeLow + 1
      let leftMargin := pagesPer2Mb - curr.rangeLow % pagesPer2Mb
      let room := sub64 currBlocks leftMargin
      let aligned := room / pagesPer2Mb * pagesPer2Mb
      let numBlocks := if numBlocks > room ∧ aligned > 0 then aligned else numBlocks
      if currBlocks > leftMargin ∧ numBlocks ≤ room then
        -- the right margin is an `unsigned int`
        let rightMargin := (room - numBlocks) % 2 ^ 32
        match cutSuperpage cs sh fl node curr leftMargin rightMargin numBlocks with
        | (.error e, fl) => (.error e, fl)
        | (.ok (), fl) => (.ok (some (curr.rangeLow + leftMargin, numBlocks)), fl)
      else novaAllocSuperpage fl node numBlocks rest
    else novaAllocSuperpage fl node numBlocks rest

/-- The loop that takes what the first node has, or the first node with enough of it. -/
def allocUnaligned (fl : FreeList) (btype : BlockType) (dir : AllocDirection) (numBlocks : ℕ) :
    List RangeNode → Option ((ℕ × ℕ) × FreeList)
  | [] => none
  | curr :: rest =>
    if novaRangeNodeChecksumOk cs curr then
      let currBlocks := sub64 curr.rangeHigh curr.rangeLow + 1
      if numBlocks ≥ currBlocks then
        if btype ≠ .b4K ∧ numBlocks > currBlocks then allocUnaligned fl btype dir numBlocks rest
        else some ((curr.rangeLow, currBlocks), dropNode sh fl curr)
      else
        match dir with
        | .fromHead =>
          let curr' := novaUpdateRangeNodeChecksum cs
            { curr with rangeLow := curr.rangeLow + numBlocks }
          some ((curr.rangeLow, numBlocks),
            { fl with blockFreeTree := writeNode fl.blockFreeTree curr' })
        | .fromTail =>
          let curr' := novaUpdateRangeNodeChecksum cs
            { curr with rangeHigh := curr.rangeHigh - numBlocks }
          some ((curr.rangeHigh + 1 - numBlocks, numBlocks),
            { fl with blockFreeTree := writeNode fl.blockFreeTree curr' })
    else allocUnaligned fl btype dir numBlocks rest

/-- From the second loop to the end: the first block and the number of blocks. -/
def allocFallback (fl : FreeList) (btype : BlockType) (dir : AllocDirection) (numBlocks : ℕ) :
    Except Errno (ℕ × ℕ) × FreeList :=
  match allocUnaligned cs sh fl btype dir numBlocks (fl.walk dir) with
  | none => (.error .enospc, fl)
  | some ((blocknr, n), fl) =>
    if fl.numFreeBlocks < n then (.error .enospc, fl)
    else (.ok (blocknr, n), { fl with numFreeBlocks := fl.numFreeBlocks - n })

/-- The first block and the number of blocks. -/
def novaAllocBlocksInFreeList (fl : FreeList) (node : Option ℕ) (btype : BlockType)
    (atype : AllocType) (numBlocks : ℕ) (dir : AllocDirection) :
    Except Errno (ℕ × ℕ) × FreeList :=
  if fl.firstNode = none ∨ fl.numFreeBlocks = 0 then (.error .enospc, fl)
  else if atype = .log ∧ notEnoughBlocks fl numBlocks atype then (.error .enospc, fl)
  else if numBlocks % pagesPer2Mb = 0 ∧ atype = .data then
    -- huge blocks for data first
    match novaAllocSuperpage cs sh fl node numBlocks (fl.walk dir) with
    | (.ok (some (blocknr, n)), fl) =>
      if n > 0 ∧ blocknr ≠ 0 then
        (.ok (blocknr, n), { fl with numFreeBlocks := fl.numFreeBlocks - n })
      else allocFallback cs sh fl btype dir numBlocks
    | (_, fl) => allocFallback cs sh fl btype dir numBlocks
  else allocFallback cs sh fl btype dir numBlocks

/-! ## What every operation keeps -/

variable {cs sh} {fl fl' : FreeList} {lost n low high p : ℕ} {A B C : List RangeNode}
  {curr : RangeNode}

def FreeList.freeSet (fl : FreeList) : Set ℕ := cover (extents fl.nodes)

/-- The blocks of the list are those of its nodes and `lost` ones that no node holds. -/
structure FreeList.Ok (cs : DramCsum) (lost : ℕ) (fl : FreeList) : Prop where
  nodes : NodesOk cs fl.nodes
  bounds : ∀ n ∈ fl.nodes, fl.blockStart ≤ n.rangeLow ∧ n.rangeHigh ≤ fl.blockEnd
  first : fl.firstNode = (fl.nodes.map RangeNode.ptr).head?
  last : fl.lastNode = (fl.nodes.map RangeNode.ptr).getLast?
  count : fl.numBlocknode = fl.nodes.length
  free : fl.numFreeBlocks = total (extents fl.nodes) + lost
  small : fl.blockEnd < 2 ^ 32

/-- The fields that only the accounting at the end of an operation changes. -/
structure SameAccounts (fl fl' : FreeList) : Prop where
  blockStart : fl'.blockStart = fl.blockStart
  blockEnd : fl'.blockEnd = fl.blockEnd
  numFreeBlocks : fl'.numFreeBlocks = fl.numFreeBlocks
  allocLog : fl'.allocLog = fl.allocLog
  allocData : fl'.allocData = fl.allocData
  freeLog : fl'.freeLog = fl.freeLog
  freeData : fl'.freeData = fl.freeData

theorem FreeList.Ok.mem_bounds (h : fl.Ok cs lost) {b : ℕ} (hb : b ∈ fl.freeSet) :
    fl.blockStart ≤ b ∧ b ≤ fl.blockEnd := by
  obtain ⟨r, hr, hb⟩ := hb
  obtain ⟨n, hn, rfl⟩ := List.mem_map.mp hr
  have hbounds := h.bounds n hn
  have hlow : n.rangeLow ≤ b := hb.1
  have hhigh : b ≤ n.rangeHigh := hb.2
  omega

theorem FreeList.Ok.ncard (h : fl.Ok cs lost) : fl.numFreeBlocks = fl.freeSet.ncard + lost := by
  rw [h.free, FreeList.freeSet, ncard_cover h.nodes.separated]

/-! ## Freeing -/

section Freeing
variable {prev next : RangeNode}

/-- The nodes below a range: either the last one aligns with it, or all are apart from it. -/
theorem below_cases (hA : Separated (extents A)) (hlow : ∀ a ∈ A, a.rangeHigh < low) :
    (∃ A' prev, A = A' ++ [prev] ∧ low = prev.rangeHigh + 1 ∧
        A.getLast?.filter (fun prev => low == prev.rangeHigh + 1) = some prev) ∨
      (∀ a ∈ A, a.rangeHigh + 1 < low) ∧
        A.getLast?.filter (fun prev => low == prev.rangeHigh + 1) = none := by
  obtain rfl | ⟨A', prev, rfl⟩ := List.eq_nil_or_concat' A
  · exact Or.inr ⟨by simp, rfl⟩
  · by_cases halign : low = prev.rangeHigh + 1
    · exact Or.inl ⟨A', prev, rfl, halign, by simp [halign]⟩
    · refine Or.inr ⟨fun a ha => ?_, by simp [halign]⟩
      have hprev := hlow prev (by simp)
      obtain ha | ha := List.mem_append.mp ha
      · have hlt := (separated_append.mp (extents_append A' [prev] ▸ hA)).2.2 a.extent
          (List.mem_map_of_mem ha) prev.extent (by simp)
        have hproper := hA.proper prev.extent (by simp)
        simp only [RangeNode.extent] at hlt hproper
        omega
      · obtain rfl := List.mem_singleton.mp ha
        omega

/-- The nodes above a range: either the first one aligns with it, or all are apart from it. -/
theorem above_cases (hB : Separated (extents B)) (hhigh : ∀ b ∈ B, high < b.rangeLow) :
    (∃ next B', B = next :: B' ∧ high + 1 = next.rangeLow ∧
        B.head?.filter (fun next => high + 1 == next.rangeLow) = some next) ∨
      (∀ b ∈ B, high + 1 < b.rangeLow) ∧
        B.head?.filter (fun next => high + 1 == next.rangeLow) = none := by
  cases B with
  | nil => exact Or.inr ⟨by simp, rfl⟩
  | cons next B' =>
    by_cases halign : high + 1 = next.rangeLow
    · exact Or.inl ⟨next, B', rfl, halign, by simp [halign]⟩
    · refine Or.inr ⟨fun b hb => ?_, by simp [halign]⟩
      have hnext := hhigh next (by simp)
      obtain rfl | hb := List.mem_cons.mp hb
      · omega
      · have hsep := separated_cons.mp hB
        have hlt := hsep.2.1 b.extent (List.mem_map_of_mem hb)
        have hproper := hsep.1
        simp only [RangeNode.extent] at hlt hproper
        omega

/-- The result of giving `n` blocks from `low` on back, but for the accounts. -/
structure Joined (cs : DramCsum) (lost : ℕ) (fl fl' : FreeList) (low n : ℕ) : Prop where
  same : SameAccounts fl fl'
  ok : FreeList.Ok cs lost { fl' with numFreeBlocks := fl'.numFreeBlocks + n }
  rest : fl'.freeSet = fl.freeSet ∪ Set.Ico low (low + n)

/-- What is to be shown of the node `y` that stands for the freed blocks and the nodes `P` and `N`
that align with them. -/
theorem FreeList.Ok.join {y : RangeNode} {P N : List RangeNode} (h : fl.Ok cs lost)
    (hfl : fl.nodes = (A ++ P) ++ (N ++ B)) (hsame : SameAccounts fl fl')
    (hfl' : fl'.nodes = A ++ y :: B) (hcsum : novaRangeNodeChecksumOk cs y = true)
    (hy : y.rangeLow ≤ y.rangeHigh) (hA : ∀ a ∈ A, a.rangeHigh + 1 < y.rangeLow)
    (hB : ∀ b ∈ B, y.rangeHigh + 1 < b.rangeLow)
    (hbounds : fl.blockStart ≤ y.rangeLow ∧ y.rangeHigh ≤ fl.blockEnd)
    (hptrs : ((A ++ y :: B).map RangeNode.ptr).Nodup)
    (hfirst : fl'.firstNode = ((A ++ y :: B).map RangeNode.ptr).head?)
    (hlast : fl'.lastNode = ((A ++ y :: B).map RangeNode.ptr).getLast?)
    (hcount : fl'.numBlocknode = (A ++ y :: B).length)
    (hsize : y.extent.size = total (extents P) + n + total (extents N))
    (hcover : ∀ b, y.extent.Contains b ↔
      b ∈ cover (extents P) ∨ b ∈ Set.Ico low (low + n) ∨ b ∈ cover (extents N)) :
    Joined cs lost fl fl' low n := by
  have hmem : ∀ m ∈ A ++ y :: B, m = y ∨ m ∈ fl.nodes := by
    intro m hm
    rw [hfl]
    simp only [List.mem_append, List.mem_cons] at hm ⊢
    tauto
  have hsep := h.nodes.separated
  rw [hfl, extents_append, extents_append, extents_append] at hsep
  obtain ⟨hAP, hNB, -⟩ := separated_append.mp hsep
  have hA' := (separated_append.mp hAP).1
  have hB' := (separated_append.mp hNB).2.1
  refine ⟨hsame, ?_, ?_⟩
  · constructor
    · show NodesOk cs fl'.nodes
      rw [hfl']
      refine ⟨hptrs, ?_, fun m hm => ?_⟩
      · rw [extents_append, extents_cons]
        refine separated_middle.mpr ⟨hA', hB', hy, ?_, ?_⟩
        · intro a ha
          obtain ⟨m, hm, rfl⟩ := List.mem_map.mp ha
          exact hA m hm
        · intro b hb
          obtain ⟨m, hm, rfl⟩ := List.mem_map.mp hb
          exact hB m hm
      · obtain rfl | hm := hmem m hm
        · exact hcsum
        · exact h.nodes.csums m hm
    · intro m hm
      show fl'.blockStart ≤ m.rangeLow ∧ m.rangeHigh ≤ fl'.blockEnd
      rw [hsame.blockStart, hsame.blockEnd]
      obtain rfl | hm := hmem m (hfl' ▸ hm)
      · exact hbounds
      · exact h.bounds m hm
    · show fl'.firstNode = (fl'.nodes.map RangeNode.ptr).head?
      rw [hfirst, hfl']
    · show fl'.lastNode = (fl'.nodes.map RangeNode.ptr).getLast?
      rw [hlast, hfl']
    · show fl'.numBlocknode = fl'.nodes.length
      rw [hcount, hfl']
    · show fl'.numFreeBlocks + n = total (extents fl'.nodes) + lost
      rw [hsame.numFreeBlocks, h.free, hfl, hfl']
      simp only [extents_append, extents_cons, total_append, total_cons, hsize]
      omega
    · show fl'.blockEnd < 2 ^ 32
      rw [hsame.blockEnd]
      exact h.small
  · ext b
    have hb := hcover b
    simp only [FreeList.freeSet, hfl, hfl', extents_append, extents_cons, cover_append, cover_cons,
      Set.mem_union]
    have hicc : b ∈ Set.Icc y.extent.low y.extent.high ↔ y.extent.Contains b := Iff.rfl
    rw [hicc, hb]
    tauto

theorem head?_ptrs_eq {y : RangeNode} (hy : y.ptr = curr.ptr) (C : List RangeNode) :
    ((A ++ y :: B).map RangeNode.ptr).head? = ((A ++ curr :: C).map RangeNode.ptr).head? := by
  cases A with
  | nil => simp [hy]
  | cons a A => simp

theorem getLast?_ptrs_concat (b : RangeNode) (C : List RangeNode) :
    ((C ++ (B ++ [b])).map RangeNode.ptr).getLast? = some b.ptr := by
  rw [← List.append_assoc]
  simp

theorem SameAccounts.refl (fl : FreeList) (tree : RangeTree) (first last : Option ℕ) (count : ℕ) :
    SameAccounts fl { fl with
      blockFreeTree := tree, firstNode := first, lastNode := last, numBlocknode := count } :=
  ⟨rfl, rfl, rfl, rfl, rfl, rfl, rfl⟩

variable {y : RangeNode}

theorem joined_hole (h : fl.Ok cs lost) (hfl : fl.nodes = (A ++ [prev]) ++ ([next] ++ B))
    (hprev : low = prev.rangeHigh + 1) (hnext : low + n = next.rangeLow) (hptr : y.ptr = prev.ptr)
    (hlow : y.rangeLow = prev.rangeLow) (hhigh : y.rangeHigh = next.rangeHigh)
    (hcsum : novaRangeNodeChecksumOk cs y = true) :
    Joined cs lost fl { fl with
      blockFreeTree := writeNode (rbErase sh fl.blockFreeTree next.ptr) y
      numBlocknode := fl.numBlocknode - 1
      lastNode := if fl.lastNode = some next.ptr then some prev.ptr else fl.lastNode } low n := by
  have hok := h.nodes
  rw [hfl] at hok
  have herase : inorder (rbErase sh fl.blockFreeTree next.ptr) = A ++ prev :: B := by
    rw [inorder_rbErase hok hfl, List.append_assoc]
    rfl
  have hsub : NodesOk cs (A ++ prev :: B) := by
    have hdrop := hok.replace (C := []) .nil (by simp) (by simp) (by simp) (by simp)
    simpa using hdrop
  have hsep := hok.separated
  simp only [extents_append, extents_cons, List.append_assoc, List.cons_append,
    List.nil_append] at hsep
  obtain ⟨-, hrest, hprevle, hA, -⟩ := separated_middle.mp hsep
  obtain ⟨hnextle, hB, -⟩ := separated_cons.mp hrest
  have hbprev := h.bounds prev (by simp [hfl])
  have hbnext := h.bounds next (by simp [hfl])
  simp only [RangeNode.extent] at hprevle hnextle
  apply h.join hfl (.refl ..) (inorder_writeNode hsub herase hptr) hcsum
  · omega
  · intro a ha
    rw [hlow]
    exact hA a.extent (List.mem_map_of_mem ha)
  · intro b hb
    rw [hhigh]
    exact hB b.extent (List.mem_map_of_mem hb)
  · omega
  · simpa [hptr] using hsub.ptrs
  · show fl.firstNode = _
    rw [h.first, hfl, List.append_assoc]
    exact (head?_ptrs_eq hptr _).symm
  · show (if fl.lastNode = some next.ptr then some prev.ptr else fl.lastNode) = _
    rw [h.last, hfl]
    -- `next` is the last node exactly if nothing follows it
    obtain rfl | ⟨B, b, rfl⟩ := List.eq_nil_or_concat' B
    · simp [hptr]
    · have hb : b.ptr ≠ next.ptr := hok.ptr_ne_right (by simp)
      rw [← List.append_assoc, getLast?_ptrs_concat, if_neg (by simpa using hb),
        ← List.singleton_append, ← List.append_assoc, getLast?_ptrs_concat]
  · show fl.numBlocknode - 1 = _
    rw [h.count, hfl]
    simp
  · simp only [Extent.size, RangeNode.extent, extents_cons, extents_nil, total_cons, total_nil]
    omega
  · intro b
    simp only [Extent.Contains, RangeNode.extent, extents_cons, extents_nil, cover_cons, cover_nil,
      Set.union_empty, Set.mem_Icc, Set.mem_Ico]
    omega

theorem joined_left (h : fl.Ok cs lost) (hfl : fl.nodes = (A ++ [prev]) ++ B)
    (hprev : low = prev.rangeHigh + 1) (hend : low + n ≤ fl.blockEnd + 1)
    (hB : ∀ b ∈ B, low + n < b.rangeLow) (hptr : y.ptr = prev.ptr)
    (hlow : y.rangeLow = prev.rangeLow) (hhigh : y.rangeHigh = prev.rangeHigh + n)
    (hcsum : novaRangeNodeChecksumOk cs y = true) :
    Joined cs lost fl { fl with blockFreeTree := writeNode fl.blockFreeTree y } low n := by
  have hfl₁ : fl.nodes = A ++ prev :: B := by
    rw [hfl, List.append_assoc]
    rfl
  have hok := h.nodes
  rw [hfl₁] at hok
  have hsep := hok.separated
  rw [extents_append, extents_cons] at hsep
  obtain ⟨-, -, hprevle, hA, -⟩ := separated_middle.mp hsep
  have hbprev := h.bounds prev (by simp [hfl])
  simp only [RangeNode.extent] at hprevle
  have hptrs : (A ++ y :: B).map RangeNode.ptr = fl.nodes.map RangeNode.ptr := by
    simp [hfl₁, hptr]
  apply h.join (P := [prev]) (N := []) (B := B) (by simpa using hfl) (.refl ..)
    (inorder_writeNode hok hfl₁ hptr) hcsum
  · omega
  · intro a ha
    rw [hlow]
    exact hA a.extent (List.mem_map_of_mem ha)
  · intro b hb
    have hgap := hB b hb
    omega
  · omega
  · rw [hptrs]
    exact h.nodes.ptrs
  · rw [hptrs]
    exact h.first
  · rw [hptrs]
    exact h.last
  · show fl.numBlocknode = _
    rw [h.count, hfl₁]
    simp
  · simp only [Extent.size, RangeNode.extent, extents_cons, extents_nil, total_cons, total_nil]
    omega
  · intro b
    simp only [Extent.Contains, RangeNode.extent, extents_cons, extents_nil, cover_cons, cover_nil,
      Set.union_empty, Set.mem_Icc, Set.mem_Ico, Set.mem_empty_iff_false, or_false]
    omega

theorem joined_right (h : fl.Ok cs lost) (hfl : fl.nodes = A ++ ([next] ++ B)) (hn : 0 < n)
    (hnext : low + n = next.rangeLow) (hstart : fl.blockStart ≤ low)
    (hA : ∀ a ∈ A, a.rangeHigh + 1 < low) (hptr : y.ptr = next.ptr) (hlow : y.rangeLow = low)
    (hhigh : y.rangeHigh = next.rangeHigh) (hcsum : novaRangeNodeChecksumOk cs y = true) :
    Joined cs lost fl { fl with blockFreeTree := writeNode fl.blockFreeTree y } low n := by
  have hok := h.nodes
  rw [hfl] at hok
  have hsep := hok.separated
  rw [extents_append, List.singleton_append, extents_cons] at hsep
  obtain ⟨-, -, hnextle, -, hB⟩ := separated_middle.mp hsep
  have hbnext := h.bounds next (by simp [hfl])
  simp only [RangeNode.extent] at hnextle
  have hptrs : (A ++ y :: B).map RangeNode.ptr = fl.nodes.map RangeNode.ptr := by
    simp [hfl, hptr]
  apply h.join (P := []) (N := [next]) (B := B) (by simpa using hfl) (.refl ..)
    (inorder_writeNode hok hfl hptr) hcsum
  · omega
  · intro a ha
    rw [hlow]
    exact hA a ha
  · intro b hb
    rw [hhigh]
    exact hB b.extent (List.mem_map_of_mem hb)
  · omega
  · rw [hptrs]
    exact h.nodes.ptrs
  · rw [hptrs]
    exact h.first
  · rw [hptrs]
    exact h.last
  · show fl.numBlocknode = _
    rw [h.count, hfl]
    simp
  · simp only [Extent.size, RangeNode.extent, extents_cons, extents_nil, total_cons, total_nil]
    omega
  · intro b
    simp only [Extent.Contains, RangeNode.extent, extents_cons, extents_nil, cover_cons, cover_nil,
      Set.union_empty, Set.mem_Icc, Set.mem_Ico, Set.mem_empty_iff_false, false_or]
    omega

theorem joined_middle {tree : RangeTree} (h : fl.Ok cs lost) (hfl : fl.nodes = A ++ B) (hn : 0 < n)
    (hstart : fl.blockStart ≤ low) (hend : low + n ≤ fl.blockEnd + 1)
    (hA : ∀ a ∈ A, a.rangeHigh + 1 < low) (hB : ∀ b ∈ B, low + n < b.rangeLow)
    (hptr : y.ptr ∉ fl.nodes.map RangeNode.ptr) (hlow : y.rangeLow = low)
    (hhigh : y.rangeHigh + 1 = low + n) (hcsum : novaRangeNodeChecksumOk cs y = true)
    (htree : inorder tree = A ++ y :: B) :
    Joined cs lost fl { fl with
      blockFreeTree := tree
      firstNode := if A.getLast?.isNone then some y.ptr else fl.firstNode
      lastNode := if B.head?.isNone then some y.ptr else fl.lastNode
      numBlocknode := fl.numBlocknode + 1 } low n := by
  have hok := h.nodes
  apply h.join (P := []) (N := []) (B := B) (by simpa using hfl) (.refl ..) htree hcsum
  · omega
  · intro a ha
    rw [hlow]
    exact hA a ha
  · intro b hb
    have hgap := hB b hb
    omega
  · omega
  · have hperm : ((A ++ y :: B).map RangeNode.ptr).Perm (y.ptr :: fl.nodes.map RangeNode.ptr) := by
      rw [hfl]
      simp
    exact hperm.nodup_iff.mpr (List.nodup_cons.mpr ⟨hptr, hok.ptrs⟩)
  · show (if A.getLast?.isNone then some y.ptr else fl.firstNode) = _
    rw [h.first, hfl]
    cases A <;> simp
  · show (if B.head?.isNone then some y.ptr else fl.lastNode) = _
    rw [h.last, hfl]
    obtain rfl | ⟨B, b, rfl⟩ := List.eq_nil_or_concat' B
    · simp
    · cases B <;> simp [List.getLast?_append, List.getLast?_cons]
  · show fl.numBlocknode + 1 = _
    rw [h.count, hfl]
    simp
    omega
  · simp only [Extent.size, RangeNode.extent, extents_nil, total_nil]
    omega
  · intro b
    simp only [Extent.Contains, RangeNode.extent, extents_nil, cover_nil, Set.mem_Ico,
      Set.mem_empty_iff_false, or_false, false_or]
    omega

/-- Blocks that are not free are taken in, whatever they align with. -/
theorem joinFree_joined (sh : Shape RangeNode) (h : fl.Ok cs lost) (hfl : fl.nodes = A ++ B)
    (hn : 0 < n) (hstart : fl.blockStart ≤ low) (hend : low + n ≤ fl.blockEnd + 1)
    (hA : ∀ a ∈ A, a.rangeHigh < low) (hB : ∀ b ∈ B, low + n - 1 < b.rangeLow)
    (hp : p ∉ fl.nodes.map RangeNode.ptr) :
    ∃ fl', joinFree cs sh fl p low (low + n - 1) n A.getLast? B.head? = .ok fl' ∧
      Joined cs lost fl fl' low n := by
  have hsep := h.nodes.separated
  rw [hfl, extents_append] at hsep
  obtain ⟨hsepA, hsepB, -⟩ := separated_append.mp hsep
  obtain ⟨A', prev, rfl, hprev, hfp⟩ | ⟨hA', hfp⟩ := below_cases hsepA hA
  · obtain ⟨next, B', rfl, hnext, hfn⟩ | ⟨hB', hfn⟩ := above_cases hsepB hB
    · simp only [joinFree, hfp, hfn]
      exact ⟨_, rfl, joined_hole h hfl hprev (by omega) (by simp) (by simp) (by simp) (by simp)⟩
    · have hgap : ∀ b ∈ B, low + n < b.rangeLow := by
        intro b hb
        have hb' := hB' b hb
        omega
      simp only [joinFree, hfp, hfn]
      exact ⟨_, rfl, joined_left h hfl hprev hend hgap (by simp) (by simp) (by simp) (by simp)⟩
  · obtain ⟨next, B', rfl, hnext, hfn⟩ | ⟨hB', hfn⟩ := above_cases hsepB hB
    · have hlow : next.rangeLow - n = low := by omega
      simp only [joinFree, hfp, hfn]
      exact ⟨_, rfl, joined_right h hfl hn (by omega) hstart hA' (by simp) (by simp [hlow])
        (by simp) (by simp)⟩
    · have hgap : ∀ b ∈ B, low + n < b.rangeLow := by
        intro b hb
        have hb' := hB' b hb
        omega
      have hhigh : low + n - 1 + 1 = low + n := by omega
      obtain ⟨tree, hins, htree⟩ := novaInsertRangeNode_eq sh
        (n := novaUpdateRangeNodeChecksum cs ⟨p, low, low + n - 1, 0⟩) (hfl ▸ h.nodes) hfl
        (by simpa using hA) (fun b hb => by
          have hb' := hgap b hb
          simp only [novaUpdateRangeNodeChecksum_rangeLow]
          omega)
      simp only [joinFree, hfp, hfn, hins]
      refine ⟨_, rfl, ?_⟩
      have hjoined := joined_middle h hfl hn hstart hend hA' hgap (by simpa using hp) (by simp)
        (by simpa using hhigh) (by simp) htree
      simpa using hjoined

/-- A range whose first block is free is not given back a second time. -/
theorem novaFreeBlocks_free (sh : Shape RangeNode) (h : fl.Ok cs lost) {blocknr : ℕ}
    (hb : blocknr ∈ fl.freeSet) (node : Option ℕ) (num : ℤ) (btype : BlockType) (logPage : Bool) :
    ∃ e, novaFreeBlocks cs sh fl node blocknr num btype logPage = (.error e, fl) := by
  have hslot : ∀ high, novaFindFreeSlot cs fl.blockFreeTree blocknr high = .error .einval := by
    intro high
    obtain ⟨r, hr, hlow, hhigh⟩ := hb
    obtain ⟨curr, hcurr, rfl⟩ := List.mem_map.mp hr
    obtain ⟨A, B, hnodes⟩ := List.append_of_mem hcurr
    have hfound := novaFindRangeNode_found (hnodes ▸ h.nodes) hnodes hlow hhigh
    rw [novaFindFreeSlot, hfound]
  unfold novaFreeBlocks
  split
  · exact ⟨_, rfl⟩
  · cases node with
    | none => exact ⟨_, rfl⟩
    | some ptr =>
      simp only [hslot]
      split
      · exact ⟨_, rfl⟩
      · exact ⟨_, rfl⟩

end Freeing

/-! ## The result of an operation -/

/-- The pages that were taken from the list, and those that were given back. -/
def FreeList.taken (fl : FreeList) : ℕ := fl.allocLog.pages + fl.allocData.pages

def FreeList.given (fl : FreeList) : ℕ := fl.freeLog.pages + fl.freeData.pages

/-- The list still has its range of blocks, and its counters balance. -/
structure FreeList.Follows (fl fl' : FreeList) : Prop where
  blockStart : fl'.blockStart = fl.blockStart
  blockEnd : fl'.blockEnd = fl.blockEnd
  balance : fl'.numFreeBlocks + fl'.taken + fl.given = fl.numFreeBlocks + fl.taken + fl'.given

theorem FreeList.Follows.refl (fl : FreeList) : fl.Follows fl := ⟨rfl, rfl, rfl⟩

theorem novaGetNumblocks_pos (btype : BlockType) : 0 < novaGetNumblocks btype := by
  cases btype <;> decide

/-- The order of the nodes and the free blocks do not depend on what is counted as freed. -/
theorem FreeList.Ok.freed (h : fl.Ok cs lost) (freeLog freeData : Tally) :
    { fl with freeLog := freeLog, freeData := freeData }.Ok cs lost :=
  ⟨h.nodes, h.bounds, h.first, h.last, h.count, h.free, h.small⟩

theorem novaFreeBlocks_ok (sh : Shape RangeNode) {blocknr : ℕ} {num : ℤ} {btype : BlockType}
    (h : fl.Ok cs lost) (hnum : 0 < num) (hn : novaGetNumblocks btype * num.toNat = n)
    (hstart : fl.blockStart ≤ blocknr) (hend : blocknr + n ≤ fl.blockEnd + 1)
    (hdisj : Disjoint fl.freeSet (Set.Ico blocknr (blocknr + n)))
    (hp : p ∉ fl.nodes.map RangeNode.ptr) (logPage : Bool) :
    ∃ fl', novaFreeBlocks cs sh fl (some p) blocknr num btype logPage = (.ok (), fl') ∧
      fl.Follows fl' ∧ fl'.Ok cs lost ∧
      fl'.freeSet = fl.freeSet ∪ Set.Ico blocknr (blocknr + n) := by
  have hpos := novaGetNumblocks_pos btype
  have hle : num.toNat ≤ n := hn ▸ Nat.le_mul_of_pos_left _ hpos
  have hnpos : 0 < n := by omega
  obtain ⟨A, B, hfl, hA, hB⟩ := h.nodes.exists_slot hnpos hdisj
  have hslot : novaFindFreeSlot cs fl.blockFreeTree blocknr (blocknr + n - 1) =
      .ok (A.getLast?, B.head?) :=
    novaFindFreeSlot_eq (hfl ▸ h.nodes) hfl (by omega) hA hB
  obtain ⟨fl₁, hjoin, hsame, hok, hset⟩ :=
    joinFree_joined sh h hfl hnpos hstart hend hA hB hp
  simp only [novaFreeBlocks, if_neg (show ¬ num ≤ 0 by omega), hn, hslot, hjoin,
    if_neg (show ¬ (blocknr < fl.blockStart ∨ blocknr + num.toNat > fl.blockEnd + 1) by omega)]
  cases logPage with
  | true =>
    refine ⟨_, rfl, ⟨hsame.blockStart, hsame.blockEnd, ?_⟩, hok.freed _ _, hset⟩
    simp only [FreeList.taken, FreeList.given, Tally.add, hsame.numFreeBlocks, hsame.allocLog,
      hsame.allocData, hsame.freeLog, hsame.freeData]
    omega
  | false =>
    refine ⟨_, rfl, ⟨hsame.blockStart, hsame.blockEnd, ?_⟩, hok.freed _ _, hset⟩
    simp only [FreeList.taken, FreeList.given, Tally.add, hsame.numFreeBlocks, hsame.allocLog,
      hsame.allocData, hsame.freeLog, hsame.freeData]
    omega

end Squint.Nova
