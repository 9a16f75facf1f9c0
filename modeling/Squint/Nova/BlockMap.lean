import Squint.Lib.Run
import Squint.Nova.Allocation

/-! The free lists of all CPUs (`balloc.c`). A request tries one list after the other, each under
its own lock; between two attempts other threads may take and give back blocks. -/
namespace Squint.Nova
open Squint.Lib

structure BlockMap where
  perListBlocks : ℕ
  lists : List FreeList

structure BlockRequest where
  num : ℕ
  btype : BlockType
  atype : AllocType
  fromTail : AllocDirection
deriving DecidableEq, Repr

def BlockRequest.numBlocks (r : BlockRequest) : ℕ := r.num * novaGetNumblocks r.btype

variable (cs : DramCsum)

def countAlloc (atype : AllocType) (n : ℕ) (fl : FreeList) : FreeList :=
  match atype with
  | .log => { fl with allocLog := fl.allocLog.add n }
  | .data => { fl with allocData := fl.allocData.add n }

/-- `nova_new_blocks` from the label `retry` on, in the list it has chosen: `none` if it tries
another list. -/
def tryNewBlocks (sh : Shape RangeNode) (fl : FreeList) (node : Option ℕ) (req : BlockRequest)
    (retried : ℕ) : Option (Except Errno (ℕ × ℕ)) × FreeList :=
  if notEnoughBlocks fl req.numBlocks req.atype = true ∧ retried < 2 then (none, fl)
  else
    match novaAllocBlocksInFreeList cs sh fl node req.btype req.atype req.numBlocks
      req.fromTail with
    | (.error _, fl) => (some (.error .enospc), fl)
    | (.ok (blocknr, n), fl) =>
      (some (if blocknr = 0 then .error .enospc else .ok (blocknr, n)), countAlloc req.atype n fl)

/-- An `int` that is compared with an `unsigned long`. -/
def intToUlong (n : ℕ) : ℕ :=
  if n % 2 ^ 32 < 2 ^ 31 then n % 2 ^ 32 else n % 2 ^ 32 + (2 ^ 64 - 2 ^ 32)

/-- The loop of `nova_get_candidate_free_list` from list `i` on. -/
def candidateFrom (i cpuid numFreeBlocks : ℕ) : List FreeList → ℕ
  | [] => cpuid
  | fl :: rest =>
    if fl.numFreeBlocks > intToUlong numFreeBlocks then
      candidateFrom (i + 1) i fl.numFreeBlocks rest
    else candidateFrom (i + 1) cpuid numFreeBlocks rest

def novaGetCandidateFreeList (map : BlockMap) : ℕ := candidateFrom 0 0 0 map.lists

/-- What the kernel answers during one critical section: the node, and the shape of the tree. -/
structure KernelAnswers where
  node : Option ℕ
  shape : Shape RangeNode

def attemptAt (answers : KernelAnswers) (map : BlockMap) (req : BlockRequest) (cpuid retried : ℕ) :
    Option (Except Errno (ℕ × ℕ)) × BlockMap :=
  match map.lists[cpuid]? with
  | none => (some (.error .einval), map)
  | some fl =>
    let (result, fl) := tryNewBlocks cs answers.shape fl answers.node req retried
    (result, { map with lists := map.lists.set cpuid fl })

/-- The attempts of `nova_new_blocks` when no other thread runs; `left` more lists may be tried. -/
def newBlocksFrom (answers : KernelAnswers) (map : BlockMap) (req : BlockRequest) :
    ℕ → ℕ → Except Errno (ℕ × ℕ) × BlockMap
  | 0, cpuid =>
    match attemptAt cs answers map req cpuid 2 with
    | (some result, map) => (result, map)
    | (none, map) => (.error .enospc, map)
  | left + 1, cpuid =>
    match attemptAt cs answers map req cpuid (1 - left) with
    | (some result, map) => (result, map)
    | (none, map) => newBlocksFrom answers map req left (novaGetCandidateFreeList map)

def toInt (n : ℕ) : ℤ := Int.bmod n (2 ^ 32)

/-- `nova_new_blocks` without the zeroing of the blocks: `*blocknr` and the number of blocks of the
type asked for. -/
def novaNewBlocks (answers : KernelAnswers) (map : BlockMap) (req : BlockRequest) (cpuid : ℕ) :
    Except Errno (ℕ × ℤ) × BlockMap :=
  if req.numBlocks = 0 then (.error .einval, map)
  else
    match newBlocksFrom cs answers map req 2 cpuid with
    | (.error e, map) => (.error e, map)
    | (.ok (blocknr, n), map) => (.ok (blocknr, toInt (n / novaGetNumblocks req.btype)), map)

/-- `nova_free_blocks`, which goes to the list the first block belongs to. -/
def freeBlocksIn (answers : KernelAnswers) (map : BlockMap) (blocknr : ℕ) (num : ℤ)
    (btype : BlockType) (logPage : Bool) : Except Errno Unit × BlockMap :=
  let cpuid := blocknr / map.perListBlocks
  match map.lists[cpuid]? with
  | none => (.error .einval, map)
  | some fl =>
    let (result, fl) :=
      novaFreeBlocks cs answers.shape fl answers.node blocknr num btype logPage
    (result, { map with lists := map.lists.set cpuid fl })

def novaCountFreeBlocks (map : BlockMap) : ℕ := (map.lists.map FreeList.numFreeBlocks).sum

/-! ## Runs -/

/-- The free lists, and the blocks that were handed out and not given back. -/
structure BlockSystem where
  map : BlockMap
  held : Finset ℕ

/-- What the threads do, one critical section after the other. -/
inductive BlockAction
  | attempt (cpuid : ℕ) (req : BlockRequest) (retried : ℕ) (answers : KernelAnswers)
  | release (blocknr : ℕ) (num : ℤ) (btype : BlockType) (logPage : Bool) (answers : KernelAnswers)

def BlockAction.answers : BlockAction → KernelAnswers
  | .attempt _ _ _ answers => answers
  | .release _ _ _ _ answers => answers

/-- The kernel does not hand out a node that is in the list. -/
def KernelAnswers.Fresh (answers : KernelAnswers) (fl : FreeList) : Prop :=
  ∀ p ∈ answers.node, p ∉ fl.nodes.map RangeNode.ptr

instance (answers : KernelAnswers) (fl : FreeList) : Decidable (answers.Fresh fl) :=
  inferInstanceAs (Decidable (∀ p ∈ answers.node, p ∉ fl.nodes.map RangeNode.ptr))

def blocksOf (blocknr n : ℕ) : Finset ℕ := Finset.Ico blocknr (blocknr + n)

/-- One critical section. A thread asks for at least one block, and gives back only blocks that are
held. -/
def blockStep (s : BlockSystem) : BlockAction → Option BlockSystem
  | .attempt cpuid req retried answers =>
    match s.map.lists[cpuid]? with
    | none => none
    | some fl =>
      if answers.Fresh fl ∧ 0 < req.numBlocks then
        match attemptAt cs answers s.map req cpuid retried with
        | (some (.ok (blocknr, n)), map) => some ⟨map, s.held ∪ blocksOf blocknr n⟩
        | (_, map) => some ⟨map, s.held⟩
      else none
  | .release blocknr num btype logPage answers =>
    match s.map.lists[blocknr / s.map.perListBlocks]? with
    | none => none
    | some fl =>
      let n := novaGetNumblocks btype * num.toNat
      if answers.Fresh fl ∧ 0 < num ∧ blocksOf blocknr n ⊆ s.held then
        match freeBlocksIn cs answers s.map blocknr num btype logPage with
        | (.ok (), map) => some ⟨map, s.held \ blocksOf blocknr n⟩
        | (.error _, map) => some ⟨map, s.held⟩
      else none

def FreeList.region (fl : FreeList) : Finset ℕ := Finset.Icc fl.blockStart fl.blockEnd

/-- What each list manages, which no critical section changes. -/
def BlockMap.shares (map : BlockMap) : ℕ × List (Finset ℕ) :=
  (map.perListBlocks, map.lists.map FreeList.region)

/-- The state of one list against the blocks that are held. Blocks are lost only if some section was
`leaky`: the kernel had no node for it. -/
structure ListSound (leaky : Prop) (held : Finset ℕ) (fl : FreeList) : Prop where
  ok : ∃ lost, (lost ≠ 0 → leaky) ∧ fl.Ok cs lost
  apart : ∀ b ∈ fl.freeSet, b ∉ held
  balance : fl.numFreeBlocks + (held ∩ fl.region).card = fl.region.card

/-- Each list has its blocks within its share, and the first block of a share is never handed out:
there the checksums and the parity of the share begin. -/
structure BlockSystem.Sound (leaky : Prop) (s : BlockSystem) : Prop where
  lists : ∀ (i : ℕ) fl, s.map.lists[i]? = some fl → ListSound cs leaky s.held fl
  shares : ∀ (i : ℕ) fl, s.map.lists[i]? = some fl →
    s.map.perListBlocks * i < fl.blockStart ∧ fl.blockEnd + 1 ≤ s.map.perListBlocks * (i + 1)
  held : ∀ b ∈ s.held, ∃ (i : ℕ) (fl : FreeList), s.map.lists[i]? = some fl ∧ b ∈ fl.region

variable {cs} {leaky : Prop} {s t : BlockSystem} {fl fl' : FreeList} {lost i j b n : ℕ}

theorem FreeList.Follows.region_eq (h : fl.Follows fl') : fl'.region = fl.region := by
  rw [FreeList.region, FreeList.region, h.blockStart, h.blockEnd]

theorem mem_region : b ∈ fl.region ↔ fl.blockStart ≤ b ∧ b ≤ fl.blockEnd := by
  simp [FreeList.region]

theorem mem_blocksOf {blocknr : ℕ} :
    b ∈ blocksOf blocknr n ↔ b ∈ Set.Ico blocknr (blocknr + n) := by
  simp [blocksOf]

theorem Leaked.freeSet_subset {node : Option ℕ} {lost' : ℕ} (h : Leaked cs node lost fl lost' fl') :
    fl'.freeSet ⊆ fl.freeSet := by
  cases h with
  | none => exact subset_rfl
  | some _ htook _ =>
    rw [htook.rest]
    exact Set.sdiff_subset

theorem Leaked.same {node : Option ℕ} {lost' : ℕ} (h : Leaked cs node lost fl lost' fl') :
    SameAccounts fl fl' := by
  cases h with
  | none => exact ⟨rfl, rfl, rfl, rfl, rfl, rfl, rfl⟩
  | some _ htook _ => exact htook.same

theorem Leaked.lost_eq {node : Option ℕ} {lost' : ℕ} (h : Leaked cs node lost fl lost' fl')
    (hnode : node ≠ Option.none) : lost' = lost := by
  cases h with
  | none => rfl
  | some hnone _ _ => exact absurd hnone hnode

theorem SameAccounts.follows (h : SameAccounts fl fl') : fl.Follows fl' := by
  refine ⟨h.blockStart, h.blockEnd, ?_⟩
  simp only [FreeList.taken, FreeList.given, h.numFreeBlocks, h.allocLog, h.allocData, h.freeLog,
    h.freeData]

theorem countAlloc_nodes (atype : AllocType) (n : ℕ) (fl : FreeList) :
    (countAlloc atype n fl).nodes = fl.nodes := by
  cases atype <;> rfl

theorem countAlloc_ok (atype : AllocType) (n : ℕ) (h : fl.Ok cs lost) :
    (countAlloc atype n fl).Ok cs lost := by
  cases atype <;> exact ⟨h.nodes, h.bounds, h.first, h.last, h.count, h.free, h.small⟩

theorem countAlloc_numFreeBlocks (atype : AllocType) (n : ℕ) (fl : FreeList) :
    (countAlloc atype n fl).numFreeBlocks = fl.numFreeBlocks := by
  cases atype <;> rfl

/-- Taking blocks and counting them keeps the balance. -/
theorem Granted.follows {fl₁ : FreeList} {low : ℕ} (hsame : SameAccounts fl fl₁)
    (h : Granted cs lost fl₁ fl' low n) (atype : AllocType) :
    fl.Follows (countAlloc atype n fl') := by
  have hfree := h.numFreeBlocks
  have hnum := hsame.numFreeBlocks
  have hs := h.same
  cases atype <;>
  · refine ⟨hs.blockStart.trans hsame.blockStart, hs.blockEnd.trans hsame.blockEnd, ?_⟩
    simp only [countAlloc, FreeList.taken, FreeList.given, Tally.add, hs.allocLog, hs.allocData,
      hs.freeLog, hs.freeData, hsame.allocLog, hsame.allocData, hsame.freeLog, hsame.freeData]
    omega

/-- Block 0, which stands for a failure, is never granted. -/
theorem Granted.low_ne_zero {fl₁ : FreeList} {low lost' : ℕ} {node : Option ℕ}
    (hgrant : Granted cs lost' fl₁ fl' low n) (h : fl.Ok cs lost) (hpos : 0 < fl.blockStart)
    (hleak : Leaked cs node lost fl lost' fl₁) : low ≠ 0 := by
  have hfirst : low ∈ Set.Ico low (low + n) := ⟨le_rfl, Nat.lt_add_of_pos_right hgrant.pos⟩
  have hbounds := h.mem_bounds (hleak.freeSet_subset (hgrant.subset hfirst))
  omega

theorem tryNewBlocks_cases (sh : Shape RangeNode) (h : fl.Ok cs lost) (hpos : 0 < fl.blockStart)
    {node : Option ℕ} (hnode : ∀ p ∈ node, p ∉ fl.nodes.map RangeNode.ptr) {req : BlockRequest}
    (hreq : 0 < req.numBlocks) (retried : ℕ) :
    ∃ lost' fl', fl'.Ok cs lost' ∧ fl.Follows fl' ∧ (node ≠ none → lost' = lost) ∧
      ((∃ r, tryNewBlocks cs sh fl node req retried = (r, fl') ∧ (∀ g, r ≠ some (.ok g)) ∧
          fl'.freeSet ⊆ fl.freeSet ∧ fl'.numFreeBlocks = fl.numFreeBlocks) ∨
        ∃ low n, tryNewBlocks cs sh fl node req retried = (some (.ok (low, n)), fl') ∧
          0 < n ∧ n ≤ req.numBlocks ∧ Set.Ico low (low + n) ⊆ fl.freeSet ∧
          fl'.freeSet ⊆ fl.freeSet \ Set.Ico low (low + n) ∧
          fl'.numFreeBlocks + n = fl.numFreeBlocks) := by
  by_cases hretry : notEnoughBlocks fl req.numBlocks req.atype = true ∧ retried < 2
  · refine ⟨lost, fl, h, .refl fl, fun _ => rfl, Or.inl ⟨none, ?_, by simp, subset_rfl, rfl⟩⟩
    rw [tryNewBlocks, if_pos hretry]
  obtain ⟨lost', fl₁, hleak, hcases⟩ := novaAllocBlocksInFreeList_cases sh h hnode req.btype
    req.atype req.fromTail hreq
  have hsame := hleak.same
  obtain ⟨heq, -⟩ | ⟨low, n, fl', heq, hgrant, hn⟩ := hcases
  · refine ⟨lost', fl₁, hleak.ok h, hsame.follows, hleak.lost_eq,
      Or.inl ⟨some (.error .enospc), ?_, by simp, hleak.freeSet_subset, hsame.numFreeBlocks⟩⟩
    rw [tryNewBlocks, if_neg hretry, heq]
  · have hsub : Set.Ico low (low + n) ⊆ fl.freeSet := hgrant.subset.trans hleak.freeSet_subset
    have hlow := hgrant.low_ne_zero h hpos hleak
    refine ⟨lost', countAlloc req.atype n fl', countAlloc_ok _ _ hgrant.ok,
      hgrant.follows hsame _, hleak.lost_eq, Or.inr ⟨low, n, ?_, hgrant.pos, hn, hsub, ?_, ?_⟩⟩
    · simp only [tryNewBlocks, if_neg hretry, heq, if_neg hlow]
    · rw [FreeList.freeSet, countAlloc_nodes, ← FreeList.freeSet, hgrant.rest]
      exact Set.sdiff_subset_sdiff_left hleak.freeSet_subset
    · rw [countAlloc_numFreeBlocks, hgrant.numFreeBlocks, hsame.numFreeBlocks]

theorem attemptAt_eq {map : BlockMap} {answers : KernelAnswers} {req : BlockRequest} {retried : ℕ}
    {r : Option (Except Errno (ℕ × ℕ))} (hfl : map.lists[i]? = some fl)
    (h : tryNewBlocks cs answers.shape fl answers.node req retried = (r, fl')) :
    attemptAt cs answers map req i retried = (r, { map with lists := map.lists.set i fl' }) := by
  simp only [attemptAt, hfl, h]

theorem freeBlocksIn_eq {map : BlockMap} {answers : KernelAnswers} {blocknr : ℕ} {num : ℤ}
    {btype : BlockType} {logPage : Bool} {r : Except Errno Unit}
    (hfl : map.lists[blocknr / map.perListBlocks]? = some fl)
    (h : novaFreeBlocks cs answers.shape fl answers.node blocknr num btype logPage = (r, fl')) :
    freeBlocksIn cs answers map blocknr num btype logPage =
      (r, { map with lists := map.lists.set (blocknr / map.perListBlocks) fl' }) := by
  simp only [freeBlocksIn, hfl, h]

theorem BlockMap.set_self {map : BlockMap} (hfl : map.lists[i]? = some fl) :
    { map with lists := map.lists.set i fl } = map := by
  obtain ⟨_, hget⟩ := List.getElem?_eq_some_iff.mp hfl
  rw [← hget, List.set_getElem_self]

theorem ListSound.freeSet_subset {held : Finset ℕ} (h : ListSound cs leaky held fl)
    (hb : b ∈ fl.freeSet) : b ∈ fl.region := by
  obtain ⟨lost, -, hok⟩ := h.ok
  exact mem_region.mpr (hok.mem_bounds hb)

theorem numFreeBlocks_union {low : ℕ} (h : fl.Ok cs lost) (h' : fl'.Ok cs lost)
    (hset : fl'.freeSet = fl.freeSet ∪ Set.Ico low (low + n))
    (hdisj : Disjoint fl.freeSet (Set.Ico low (low + n))) :
    fl'.numFreeBlocks = fl.numFreeBlocks + n := by
  have hico : (Set.Ico low (low + n)).ncard = n := by
    rw [Set.ncard_eq_toFinset_card', Set.toFinset_Ico, Nat.card_Ico]
    omega
  rw [h.ncard, h'.ncard, hset,
    Set.ncard_union_eq hdisj (cover_finite _) (Set.finite_Ico _ _), hico]
  omega

namespace BlockSystem.Sound

theorem mono {leaky' : Prop} (h : s.Sound cs leaky) (himp : leaky → leaky') :
    s.Sound cs leaky' := by
  refine ⟨fun i fl hfl => ?_, h.shares, h.held⟩
  have hlist := h.lists i fl hfl
  obtain ⟨lost, hlost, hok⟩ := hlist.ok
  exact ⟨⟨lost, fun hne => himp (hlost hne), hok⟩, hlist.apart, hlist.balance⟩

theorem blockStart_pos (h : s.Sound cs leaky) (hfl : s.map.lists[i]? = some fl) :
    0 < fl.blockStart := Nat.zero_lt_of_lt (h.shares i fl hfl).1

theorem div_eq (h : s.Sound cs leaky) (hfl : s.map.lists[i]? = some fl) (hb : b ∈ fl.region) :
    b / s.map.perListBlocks = i := by
  obtain ⟨hlow, hhigh⟩ := h.shares i fl hfl
  have hb' := mem_region.mp hb
  apply Nat.div_eq_of_lt_le
  · rw [Nat.mul_comm]
    omega
  · rw [Nat.mul_comm]
    omega

theorem index_eq (h : s.Sound cs leaky) (hfl : s.map.lists[i]? = some fl) (hb : b ∈ fl.region)
    (hfl' : s.map.lists[j]? = some fl') (hb' : b ∈ fl'.region) : i = j :=
  (h.div_eq hfl hb).symm.trans (h.div_eq hfl' hb')

/-- Held blocks that follow each other are in one list: between two lists there is a block that is
never handed out. -/
theorem subset_region (h : s.Sound cs leaky) {blocknr : ℕ} (hheld : blocksOf blocknr n ⊆ s.held)
    (hfl : s.map.lists[i]? = some fl) (hfirst : blocknr ∈ fl.region) :
    blocksOf blocknr n ⊆ fl.region := by
  have hstep : ∀ k, k < n → blocknr + k ∈ fl.region := by
    intro k
    induction k with
    | zero => exact fun _ => hfirst
    | succ k ih =>
      intro hk
      have hprev := mem_region.mp (ih (by omega))
      have hmem : blocknr + (k + 1) ∈ s.held := by
        apply hheld
        rw [mem_blocksOf, Set.mem_Ico]
        omega
      obtain ⟨j, fl', hfl', hb⟩ := h.held _ hmem
      have hb' := mem_region.mp hb
      by_cases hend : blocknr + (k + 1) ≤ fl.blockEnd
      · exact mem_region.mpr ⟨by omega, hend⟩
      · -- the block behind the last one would be in the list of the same share
        have hshare := h.shares i fl hfl
        have hshare' := h.shares j fl' hfl'
        have hji : j < i + 1 := by
          apply Nat.lt_of_mul_lt_mul_left (a := s.map.perListBlocks)
          omega
        have hij : i < j + 1 := by
          apply Nat.lt_of_mul_lt_mul_left (a := s.map.perListBlocks)
          omega
        obtain rfl : i = j := by omega
        rw [hfl, Option.some.injEq] at hfl'
        rw [← hfl'] at hb
        exact hb
  intro b hb
  rw [mem_blocksOf, Set.mem_Ico] at hb
  have hk := hstep (b - blocknr) (by omega)
  rwa [show blocknr + (b - blocknr) = b by omega] at hk

/-- What is to be shown after a critical section: that the list it worked on is sound, and that only
blocks of this list changed hands. -/
theorem update (h : s.Sound cs leaky) (hfl : s.map.lists[i]? = some fl) (hfollows : fl.Follows fl')
    {held : Finset ℕ} (hsound : ListSound cs leaky held fl')
    (hother : ∀ b, b ∉ fl.region → (b ∈ held ↔ b ∈ s.held)) :
    BlockSystem.Sound cs leaky ⟨{ s.map with lists := s.map.lists.set i fl' }, held⟩ ∧
      { s.map with lists := s.map.lists.set i fl' }.shares = s.map.shares := by
  have hlt : i < s.map.lists.length := (List.getElem?_eq_some_iff.mp hfl).1
  have hregion := hfollows.region_eq
  have hself : (s.map.lists.set i fl')[i]? = some fl' := by
    rw [List.getElem?_set_self hlt]
  refine ⟨⟨?_, ?_, ?_⟩, ?_⟩
  · intro j flj hj
    simp only at hj
    by_cases hij : i = j
    · subst hij
      rw [hself, Option.some.injEq] at hj
      exact hj ▸ hsound
    · rw [List.getElem?_set_ne hij] at hj
      have hsj := h.lists j flj hj
      have hnot : ∀ b ∈ flj.region, b ∉ fl.region := fun b hb hb' =>
        hij (h.index_eq hfl hb' hj hb)
      refine ⟨hsj.ok, fun b hb => ?_, ?_⟩
      · rw [hother b (hnot b (hsj.freeSet_subset hb))]
        exact hsj.apart b hb
      · have hinter : held ∩ flj.region = s.held ∩ flj.region := by
          ext b
          simp only [Finset.mem_inter]
          constructor
          · intro ⟨hb, hr⟩
            exact ⟨(hother b (hnot b hr)).mp hb, hr⟩
          · intro ⟨hb, hr⟩
            exact ⟨(hother b (hnot b hr)).mpr hb, hr⟩
        rw [hinter]
        exact hsj.balance
  · intro j flj hj
    simp only at hj ⊢
    by_cases hij : i = j
    · subst hij
      rw [hself, Option.some.injEq] at hj
      rw [← hj, hfollows.blockStart, hfollows.blockEnd]
      exact h.shares i fl hfl
    · rw [List.getElem?_set_ne hij] at hj
      exact h.shares j flj hj
  · intro b hb
    simp only at hb ⊢
    by_cases hr : b ∈ fl.region
    · exact ⟨i, fl', hself, hregion ▸ hr⟩
    · obtain ⟨j, flj, hj, hbj⟩ := h.held b ((hother b hr).mp hb)
      have hij : i ≠ j := by
        rintro rfl
        rw [hfl, Option.some.injEq] at hj
        exact hr (hj ▸ hbj)
      exact ⟨j, flj, by rw [List.getElem?_set_ne hij]; exact hj, hbj⟩
  · have hget : (s.map.lists.map FreeList.region)[i]? = some fl.region := by
      rw [List.getElem?_map, hfl, Option.map_some]
    obtain ⟨_, hget⟩ := List.getElem?_eq_some_iff.mp hget
    rw [BlockMap.shares, BlockMap.shares, List.map_set, hregion, ← hget, List.set_getElem_self]

/-- An attempt hands out blocks of its list that nobody holds, no more than asked for, or none. -/
theorem attempt (h : s.Sound cs leaky) (hfl : s.map.lists[i]? = some fl) {answers : KernelAnswers}
    (hfresh : answers.Fresh fl) (hleaky : answers.node = none → leaky) {req : BlockRequest}
    (hreq : 0 < req.numBlocks) (retried : ℕ) :
    (∃ r map, attemptAt cs answers s.map req i retried = (r, map) ∧ (∀ g, r ≠ some (.ok g)) ∧
        BlockSystem.Sound cs leaky ⟨map, s.held⟩ ∧ map.shares = s.map.shares) ∨
      ∃ low n map, attemptAt cs answers s.map req i retried = (some (.ok (low, n)), map) ∧
        0 < n ∧ n ≤ req.numBlocks ∧ blocksOf low n ⊆ fl.region ∧ Disjoint (blocksOf low n) s.held ∧
        BlockSystem.Sound cs leaky ⟨map, s.held ∪ blocksOf low n⟩ ∧ map.shares = s.map.shares := by
  have hsound := h.lists i fl hfl
  obtain ⟨lost, hlost, hok⟩ := hsound.ok
  have hpos := h.blockStart_pos hfl
  obtain ⟨lost', fl', hok', hfollows, hsame, hcases⟩ :=
    tryNewBlocks_cases answers.shape hok hpos hfresh hreq retried
  have hlost' : lost' ≠ 0 → leaky := by
    intro hne
    by_cases hnode : answers.node = none
    · exact hleaky hnode
    · exact hlost (hsame hnode ▸ hne)
  have hregion := hfollows.region_eq
  obtain ⟨r, heq, hnone, hsub, hnum⟩ | ⟨low, n, heq, hn, hle, hgrant, hsub, hnum⟩ := hcases
  · refine Or.inl ⟨r, _, attemptAt_eq hfl heq, hnone, ?_⟩
    apply h.update hfl hfollows
    · refine ⟨⟨lost', hlost', hok'⟩, fun b hb => hsound.apart b (hsub hb), ?_⟩
      rw [hnum, hregion]
      exact hsound.balance
    · exact fun _ _ => Iff.rfl
  · have hblocks : blocksOf low n ⊆ fl.region := fun b hb =>
      hsound.freeSet_subset (hgrant (mem_blocksOf.mp hb))
    have hdisj : Disjoint (blocksOf low n) s.held := by
      rw [Finset.disjoint_left]
      exact fun b hb => hsound.apart b (hgrant (mem_blocksOf.mp hb))
    refine Or.inr ⟨low, n, _, attemptAt_eq hfl heq, hn, hle, hblocks, hdisj, ?_⟩
    apply h.update hfl hfollows
    · refine ⟨⟨lost', hlost', hok'⟩, fun b hb => ?_, ?_⟩
      · have hb' := hsub hb
        rw [Finset.mem_union, not_or]
        exact ⟨hsound.apart b hb'.1, fun hin => hb'.2 (mem_blocksOf.mp hin)⟩
      · have hcard : ((s.held ∪ blocksOf low n) ∩ fl.region).card =
            (s.held ∩ fl.region).card + n := by
          rw [Finset.union_inter_distrib_right, Finset.inter_eq_left.mpr hblocks,
            Finset.card_union_of_disjoint, blocksOf, Nat.card_Ico]
          · omega
          · exact Finset.disjoint_of_subset_left Finset.inter_subset_left hdisj.symm
        have hbalance := hsound.balance
        rw [hregion, hcard]
        omega
    · intro b hb
      rw [Finset.mem_union, or_iff_left]
      exact fun hin => hb (hblocks hin)

/-- Held blocks are taken back, unless there is no node for them. -/
theorem release (h : s.Sound cs leaky) {blocknr : ℕ}
    (hfl : s.map.lists[blocknr / s.map.perListBlocks]? = some fl) {answers : KernelAnswers}
    (hfresh : answers.Fresh fl) {num : ℤ} (hnum : 0 < num)
    {btype : BlockType} (hn : novaGetNumblocks btype * num.toNat = n)
    (hheld : blocksOf blocknr n ⊆ s.held) (logPage : Bool) :
    (answers.node = none ∧ ∃ map,
        freeBlocksIn cs answers s.map blocknr num btype logPage = (.error .enomem, map) ∧
        BlockSystem.Sound cs leaky ⟨map, s.held⟩ ∧ map.shares = s.map.shares) ∨
      answers.node ≠ none ∧ ∃ map,
        freeBlocksIn cs answers s.map blocknr num btype logPage = (.ok (), map) ∧
        BlockSystem.Sound cs leaky ⟨map, s.held \ blocksOf blocknr n⟩ ∧
        map.shares = s.map.shares := by
  have hsound := h.lists _ fl hfl
  obtain ⟨lost, hlost, hok⟩ := hsound.ok
  have hnpos : 0 < n := by
    rw [← hn]
    exact Nat.mul_pos (novaGetNumblocks_pos btype) (by omega)
  cases hnode : answers.node with
  | none =>
    refine Or.inl ⟨rfl, _, freeBlocksIn_eq hfl ?_,
      h.update hfl (.refl fl) hsound fun _ _ => Iff.rfl⟩
    simp only [novaFreeBlocks, if_neg (show ¬ num ≤ 0 by omega), hnode]
  | some p =>
    -- the first block says which list it is
    have hfirst : blocknr ∈ fl.region := by
      have hmem : blocknr ∈ blocksOf blocknr n := by
        rw [mem_blocksOf, Set.mem_Ico]
        omega
      obtain ⟨j, fl', hfl', hb⟩ := h.held blocknr (hheld hmem)
      rw [← h.div_eq hfl' hb, hfl, Option.some.injEq] at hfl'
      exact hfl' ▸ hb
    have hregion := h.subset_region hheld hfl hfirst
    have hstart := (mem_region.mp hfirst).1
    have hend : blocknr + n ≤ fl.blockEnd + 1 := by
      have hlast : blocknr + n - 1 ∈ blocksOf blocknr n := by
        rw [mem_blocksOf, Set.mem_Ico]
        omega
      have hlast' := (mem_region.mp (hregion hlast)).2
      omega
    have hdisj : Disjoint fl.freeSet (Set.Ico blocknr (blocknr + n)) := by
      rw [Set.disjoint_left]
      exact fun b hb hin => hsound.apart b hb (hheld (mem_blocksOf.mpr hin))
    obtain ⟨fl', heq, hfollows, hok', hset⟩ :=
      novaFreeBlocks_ok answers.shape hok hnum hn hstart hend hdisj (hfresh p hnode) logPage
    have hregion' := hfollows.region_eq
    refine Or.inr ⟨by simp, _, freeBlocksIn_eq hfl (hnode ▸ heq), ?_⟩
    apply h.update hfl hfollows
    · refine ⟨⟨lost, hlost, hok'⟩, fun b hb hin => ?_, ?_⟩
      · rw [hset] at hb
        obtain ⟨hheldb, hout⟩ := Finset.mem_sdiff.mp hin
        obtain hb | hb := hb
        · exact hsound.apart b hb hheldb
        · exact hout (mem_blocksOf.mpr hb)
      · have hcard : (s.held ∩ fl.region).card =
            ((s.held \ blocksOf blocknr n) ∩ fl.region).card + n := by
          rw [Finset.sdiff_inter_right_comm, Finset.card_sdiff_of_subset, blocksOf, Nat.card_Ico]
          · have hle := Finset.card_le_card (Finset.subset_inter hheld hregion)
            rw [blocksOf, Nat.card_Ico] at hle
            omega
          · exact Finset.subset_inter hheld hregion
        have hnum' := numFreeBlocks_union hok hok' hset hdisj
        have hbalance := hsound.balance
        rw [hregion']
        omega
    · intro b hb
      rw [Finset.mem_sdiff]
      exact ⟨fun hin => hin.1, fun hin => ⟨hin, fun hblock => hb (hregion hblock)⟩⟩

theorem step {a : BlockAction} (h : s.Sound cs leaky) (hleaky : a.answers.node = none → leaky)
    (hstep : blockStep cs s a = some t) : t.Sound cs leaky ∧ t.map.shares = s.map.shares := by
  cases a with
  | attempt cpuid req retried answers =>
    cases hfl : s.map.lists[cpuid]? with
    | none => simp only [blockStep, hfl, reduceCtorEq] at hstep
    | some fl =>
      simp only [blockStep, hfl] at hstep
      split at hstep
      · rename_i hguard
        obtain ⟨r, map, heq, hnone, hsound⟩ | ⟨low, n, map, heq, -, -, -, -, hsound⟩ :=
          h.attempt hfl hguard.1 hleaky hguard.2 retried
        · rw [heq] at hstep
          split at hstep
          · rename_i hr
            exact absurd (congrArg Prod.fst hr) (hnone _)
          · rename_i hr
            cases hr
            cases hstep
            exact hsound
        · rw [heq] at hstep
          cases hstep
          exact hsound
      · cases hstep
  | release blocknr num btype logPage answers =>
    cases hfl : s.map.lists[blocknr / s.map.perListBlocks]? with
    | none => simp only [blockStep, hfl, reduceCtorEq] at hstep
    | some fl =>
      simp only [blockStep, hfl] at hstep
      split at hstep
      · rename_i hguard
        obtain ⟨-, map, heq, hsound⟩ | ⟨-, map, heq, hsound⟩ :=
          h.release hfl hguard.1 hguard.2.1 rfl hguard.2.2 logPage
        · rw [heq] at hstep
          cases hstep
          exact hsound
        · rw [heq] at hstep
          cases hstep
          exact hsound
      · cases hstep

/-- Any interleaving of the critical sections of any threads. -/
theorem run {as : List BlockAction} (h : s.Sound cs leaky)
    (hleaky : ∀ a ∈ as, a.answers.node = none → leaky)
    (hrun : Lib.run (blockStep cs) s as = some t) :
    t.Sound cs leaky ∧ t.map.shares = s.map.shares := by
  have halong : Along (fun _ a => a.answers.node = none → leaky) (blockStep cs) s as :=
    Along.of_forall (fun _ _ ha => ha) hleaky
  apply halong.invariant
    (I := fun u => u.Sound cs leaky ∧ u.map.shares = s.map.shares) ?_ ⟨h, rfl⟩ hrun
  intro u a v hu ha hstep
  obtain ⟨hsound, hshares⟩ := hu.1.step ha hstep
  exact ⟨hsound, hshares.trans hu.2⟩

theorem count (h : s.Sound cs leaky) :
    novaCountFreeBlocks s.map + s.held.card =
      (s.map.lists.map fun fl => fl.region.card).sum := by
  have hdisj : (s.map.lists.map FreeList.region).Pairwise Disjoint := by
    rw [List.pairwise_map, List.pairwise_iff_getElem]
    intro i j hi hj hij
    rw [Finset.disjoint_left]
    intro b hb hb'
    have heq := h.index_eq (List.getElem?_eq_getElem hi) hb (List.getElem?_eq_getElem hj) hb'
    omega
  have hheld : ∀ b ∈ s.held, ∃ r ∈ s.map.lists.map FreeList.region, b ∈ r := by
    intro b hb
    obtain ⟨i, fl, hfl, hregion⟩ := h.held b hb
    exact ⟨_, List.mem_map_of_mem (List.mem_of_getElem? hfl), hregion⟩
  have hcard := sum_card_inter hdisj hheld
  rw [List.map_map] at hcard
  rw [← hcard, novaCountFreeBlocks, ← List.sum_map_add]
  congr 1
  apply List.map_congr_left
  intro fl hfl
  obtain ⟨i, hget⟩ := List.mem_iff_getElem?.mp hfl
  exact (h.lists i fl hget).balance

end BlockSystem.Sound

/-! ## A request for pages of data -/

section Data
variable {req : BlockRequest}

theorem candidateFrom_free {lists pre rest : List FreeList} (hlists : pre ++ rest = lists)
    {cpuid num : ℕ} (hbest : num ≠ 0 → ∃ fl, lists[cpuid]? = some fl ∧ 0 < fl.numFreeBlocks)
    (hfree : num ≠ 0 ∨ ∃ fl ∈ rest, 0 < fl.numFreeBlocks) :
    ∃ fl, lists[candidateFrom pre.length cpuid num rest]? = some fl ∧ 0 < fl.numFreeBlocks := by
  induction rest generalizing pre cpuid num with
  | nil =>
    obtain hnum | ⟨fl, hmem, -⟩ := hfree
    · exact hbest hnum
    · simp at hmem
  | cons fl rest ih =>
    have hlists' : (pre ++ [fl]) ++ rest = lists := by simpa using hlists
    have hlen : (pre ++ [fl]).length = pre.length + 1 := by simp
    have hget : lists[pre.length]? = some fl := by
      rw [← hlists, List.getElem?_append_right le_rfl, Nat.sub_self, List.getElem?_cons_zero]
    rw [candidateFrom]
    split
    · rename_i hgt
      have hpos : 0 < fl.numFreeBlocks := by omega
      rw [← hlen]
      exact ih hlists' (fun _ => ⟨fl, hget, hpos⟩) (Or.inl hpos.ne')
    · rename_i hle
      rw [← hlen]
      apply ih hlists' hbest
      by_cases hnum : num = 0
      · have hzero : fl.numFreeBlocks = 0 := by
          rw [hnum, show intToUlong 0 = 0 from rfl] at hle
          omega
        obtain hne | ⟨fl', hmem, hpos⟩ := hfree
        · exact absurd hnum hne
        · obtain rfl | hmem := List.mem_cons.mp hmem
          · omega
          · exact Or.inr ⟨fl', hmem, hpos⟩
      · exact Or.inl hnum

/-- If there is a free block, the list found has one. -/
theorem novaGetCandidateFreeList_free {map : BlockMap}
    (hfree : ∃ fl ∈ map.lists, 0 < fl.numFreeBlocks) :
    ∃ fl, map.lists[novaGetCandidateFreeList map]? = some fl ∧ 0 < fl.numFreeBlocks := by
  apply candidateFrom_free (List.nil_append map.lists) _ (Or.inr hfree)
  exact fun h => absurd rfl h

/-- A list with a node does not refuse pages of data, at most it sends the request elsewhere. -/
theorem tryNewBlocks_data (sh : Shape RangeNode) (h : fl.Ok cs lost) (hpos : 0 < fl.blockStart)
    {node : Option ℕ} (hnode : ∀ p ∈ node, p ∉ fl.nodes.map RangeNode.ptr)
    (hdata : req.atype = .data) (hpages : req.btype = .b4K) (hreq : 0 < req.numBlocks) {retried : ℕ}
    (hlist : retried < 2 ∨ fl.nodes ≠ []) :
    retried < 2 ∧ tryNewBlocks cs sh fl node req retried = (none, fl) ∨
      ∃ low n fl', tryNewBlocks cs sh fl node req retried = (some (.ok (low, n)), fl') ∧
        0 < n ∧ n ≤ req.numBlocks := by
  by_cases hretry : notEnoughBlocks fl req.numBlocks req.atype = true ∧ retried < 2
  · exact Or.inl ⟨hretry.2, by rw [tryNewBlocks, if_pos hretry]⟩
  obtain ⟨lost', fl₁, hleak, hcases⟩ := novaAllocBlocksInFreeList_cases sh h hnode req.btype
    req.atype req.fromTail hreq
  obtain ⟨-, hempty⟩ | ⟨low, n, fl', heq, hgrant, hn⟩ := hcases
  · have hnil := hempty hdata hpages
    have hfirst : notEnoughBlocks fl req.numBlocks req.atype = true := by
      have hnone : fl.firstNode = none := by rw [h.first, hnil]; rfl
      simp only [notEnoughBlocks, hnone]
    obtain hlt | hne := hlist
    · exact absurd ⟨hfirst, hlt⟩ hretry
    · exact absurd hnil hne
  · have hlow := hgrant.low_ne_zero h hpos hleak
    refine Or.inr ⟨low, n, countAlloc req.atype n fl', ?_, hgrant.pos, hn⟩
    simp only [tryNewBlocks, if_neg hretry, heq, if_neg hlow]

namespace BlockSystem.Sound
variable {answers : KernelAnswers} {cpuid : ℕ}

theorem attemptAt_data (h : s.Sound cs False) (hfresh : answers.Fresh fl)
    (hdata : req.atype = .data) (hpages : req.btype = .b4K) (hreq : 0 < req.numBlocks)
    (hfl : s.map.lists[cpuid]? = some fl) (retried : ℕ)
    (hlist : retried < 2 ∨ 0 < fl.numFreeBlocks) :
    retried < 2 ∧ attemptAt cs answers s.map req cpuid retried = (none, s.map) ∨
      ∃ low n map, attemptAt cs answers s.map req cpuid retried = (some (.ok (low, n)), map) ∧
        0 < n ∧ n ≤ req.numBlocks := by
  obtain ⟨lost, hlost, hok⟩ := (h.lists cpuid fl hfl).ok
  have hpos := h.blockStart_pos hfl
  have hlist' : retried < 2 ∨ fl.nodes ≠ [] := by
    refine hlist.imp_right fun hfree hnil => hlost ?_
    have hnum := hok.free
    rw [hnil, extents_nil, total_nil] at hnum
    omega
  obtain ⟨hlt, heq⟩ | ⟨low, n, fl', heq, hn⟩ :=
    tryNewBlocks_data answers.shape hok hpos hfresh hdata hpages hreq hlist'
  · left
    exact ⟨hlt, by rw [attemptAt_eq hfl heq, BlockMap.set_self hfl]⟩
  · exact Or.inr ⟨low, n, _, attemptAt_eq hfl heq, hn⟩

/-- The attempts of one request, of which the last is made in a list with a free block. -/
theorem newBlocksFrom_data (h : s.Sound cs False) (hfresh : ∀ fl ∈ s.map.lists, answers.Fresh fl)
    (hdata : req.atype = .data) (hpages : req.btype = .b4K) (hreq : 0 < req.numBlocks)
    (hfree : ∃ fl ∈ s.map.lists, 0 < fl.numFreeBlocks) {left : ℕ}
    (hfl : s.map.lists[cpuid]? = some fl) (hlast : left = 0 → 0 < fl.numFreeBlocks) :
    ∃ low n map, newBlocksFrom cs answers s.map req left cpuid = (.ok (low, n), map) ∧
      0 < n ∧ n ≤ req.numBlocks := by
  induction left generalizing cpuid fl with
  | zero =>
    obtain ⟨hlt, -⟩ | ⟨low, n, map, heq, hn⟩ := h.attemptAt_data (hfresh fl
      (List.mem_of_getElem? hfl)) hdata hpages hreq hfl 2 (Or.inr (hlast rfl))
    · omega
    · exact ⟨low, n, map, by simp only [newBlocksFrom, heq], hn⟩
  | succ left ih =>
    have hlt : 1 - left < 2 := by omega
    obtain ⟨-, heq⟩ | ⟨low, n, map, heq, hn⟩ := h.attemptAt_data (hfresh fl
      (List.mem_of_getElem? hfl)) hdata hpages hreq hfl _ (Or.inl hlt)
    · obtain ⟨fl', hfl', hpos⟩ := novaGetCandidateFreeList_free hfree
      obtain ⟨low, n, map, heq', hn⟩ := ih hfl' fun _ => hpos
      refine ⟨low, n, map, ?_, hn⟩
      rw [newBlocksFrom, heq]
      exact heq'
    · exact ⟨low, n, map, by simp only [newBlocksFrom, heq], hn⟩

end BlockSystem.Sound

end Data

end Squint.Nova
