import Squint.Nova.BlockMap

/-! The free lists as `nova_init_blockmap` makes them, and what holds of them after any run. -/
namespace Squint.Nova
open Squint.Lib

structure SbInfo where
  initsize : ℕ
  cpus : ℕ
deriving DecidableEq, Repr

/-- `NOVA_DEF_BLOCK_SIZE_4K`, the only value that `nova_init` gives to `s_blocksize`. -/
def blocksize : ℕ := 4096

def headReservedBlocks : ℕ := 64

def tailReservedBlocks : ℕ := 2

/-- The blocks a list manages, and those set aside around them. -/
structure ListLayout where
  blockStart : ℕ
  blockEnd : ℕ
  csumStart : ℕ
  numCsumBlocks : ℕ
  replicaCsumStart : ℕ
  parityStart : ℕ
  numParityBlocks : ℕ
  replicaParityStart : ℕ
deriving DecidableEq, Repr

namespace SbInfo
variable (sbi : SbInfo)

def numBlocks : ℕ := sbi.initsize / 2 ^ 12

def perListBlocks : ℕ := sbi.numBlocks / sbi.cpus

def dataCsumBlocks : ℕ := sbi.initsize / 2 ^ 9 * 4 / 2 ^ 12

def parityBlocks : ℕ :=
  let totalBlocks := sbi.initsize / blocksize
  let stripes := blocksize / 2 ^ 9 + 1
  totalBlocks / stripes + if totalBlocks % stripes = 0 then 0 else 1

/-- What one CPU sets aside of `blocks`. -/
def perCpu (blocks : ℕ) : ℕ := blocks / sbi.cpus + if blocks % sbi.cpus = 0 then 0 else 1

end SbInfo

def novaDataCsumInitFreeList (sbi : SbInfo) (l : ListLayout) : ListLayout :=
  let blockStart := l.blockStart + sbi.perCpu sbi.dataCsumBlocks
  let numCsumBlocks := sub64 blockStart l.blockStart
  { l with
    csumStart := l.blockStart
    blockStart := blockStart
    numCsumBlocks := numCsumBlocks
    replicaCsumStart := sub64 (l.blockEnd + 1) numCsumBlocks
    blockEnd := sub64 l.blockEnd numCsumBlocks }

def novaDataParityInitFreeList (sbi : SbInfo) (l : ListLayout) : ListLayout :=
  let blockStart := l.blockStart + sbi.perCpu sbi.parityBlocks
  let numParityBlocks := sub64 blockStart l.blockStart
  { l with
    parityStart := l.blockStart
    blockStart := blockStart
    numParityBlocks := numParityBlocks
    -- unlike that of the checksums, the replica of the parity is not cut off from the list
    replicaParityStart := sub64 (l.blockEnd + 1) numParityBlocks }

def novaInitFreeList (sbi : SbInfo) (index : ℕ) : ListLayout :=
  let blockStart := sbi.perListBlocks * index
  let blockEnd := sub64 (blockStart + sbi.perListBlocks) 1
  let l : ListLayout :=
    { blockStart := if index = 0 then blockStart + headReservedBlocks else blockStart
      blockEnd := if index = sbi.cpus - 1 then sub64 blockEnd tailReservedBlocks else blockEnd
      csumStart := 0
      numCsumBlocks := 0
      replicaCsumStart := 0
      parityStart := 0
      numParityBlocks := 0
      replicaParityStart := 0 }
  novaDataParityInitFreeList sbi (novaDataCsumInitFreeList sbi l)

variable (cs : DramCsum)

/-- The body of the loop of `nova_init_blockmap`, without recovery. The list has the one node at
`ptr`; without memory for it the kernel stops. -/
def initBlocks (sbi : SbInfo) (sh : Shape RangeNode) (ptr index : ℕ) : Except Errno FreeList := do
  let l := novaInitFreeList sbi index
  let blknode := novaUpdateRangeNodeChecksum cs ⟨ptr, l.blockStart, l.blockEnd, 0⟩
  let tree ← novaInsertRangeNode sh .nil blknode
  return { blockFreeTree := tree
           firstNode := some ptr
           lastNode := some ptr
           blockStart := l.blockStart
           blockEnd := l.blockEnd
           numFreeBlocks := sub64 l.blockEnd l.blockStart + 1
           numBlocknode := 1
           allocLog := ⟨0, 0⟩
           allocData := ⟨0, 0⟩
           freeLog := ⟨0, 0⟩
           freeData := ⟨0, 0⟩ }

/-- The kernel hands out the node at `ptr index` for each list. -/
def novaInitBlockmap (sbi : SbInfo) (sh : Shape RangeNode) (ptr : ℕ → ℕ) :
    Except Errno BlockMap := do
  let lists ← (List.range sbi.cpus).mapM fun index => initBlocks cs sbi sh (ptr index) index
  return ⟨sbi.perListBlocks, lists⟩

/-! ## The layout -/

/-- How many blocks of a share are no list's. -/
def SbInfo.setAside (sbi : SbInfo) (index : ℕ) : ℕ :=
  (if index = 0 then headReservedBlocks else 0) +
    (if index = sbi.cpus - 1 then tailReservedBlocks else 0) +
    2 * sbi.perCpu sbi.dataCsumBlocks + sbi.perCpu sbi.parityBlocks

/-- Each share has room for more than what is set aside in it. -/
structure SbInfo.Fits (sbi : SbInfo) : Prop where
  small : sbi.numBlocks < 2 ^ 32
  room : ∀ i < sbi.cpus, sbi.setAside i < sbi.perListBlocks

instance (sbi : SbInfo) : Decidable sbi.Fits :=
  decidable_of_iff (sbi.numBlocks < 2 ^ 32 ∧ ∀ i < sbi.cpus, sbi.setAside i < sbi.perListBlocks)
    ⟨fun h => ⟨h.1, h.2⟩, fun h => ⟨h.small, h.room⟩⟩

/-- Where the checksums, their replica and the parity of a share are kept. -/
def ListLayout.metadata (l : ListLayout) : Finset ℕ :=
  blocksOf l.csumStart l.numCsumBlocks ∪ blocksOf l.replicaCsumStart l.numCsumBlocks ∪
    blocksOf l.parityStart l.numParityBlocks

variable {cs} {sbi : SbInfo} {sh : Shape RangeNode} {s : BlockSystem}
  {fl : FreeList} {l : ListLayout} {map : BlockMap} {i j b : ℕ} {ptr : ℕ → ℕ}

theorem novaDataCsumInitFreeList_eq {c : ℕ} (hc : sbi.perCpu sbi.dataCsumBlocks = c)
    (hle : l.blockStart + c ≤ l.blockEnd) (hend : l.blockEnd < 2 ^ 32) :
    novaDataCsumInitFreeList sbi l =
      { l with csumStart := l.blockStart, blockStart := l.blockStart + c, numCsumBlocks := c,
               replicaCsumStart := l.blockEnd + 1 - c, blockEnd := l.blockEnd - c } := by
  have hnum : sub64 (l.blockStart + c) l.blockStart = c := by
    rw [sub64_eq (by omega) (by omega), Nat.add_sub_cancel_left]
  rw [novaDataCsumInitFreeList, hc, hnum, sub64_eq (by omega) (by omega),
    sub64_eq (by omega) (by omega)]

theorem novaDataParityInitFreeList_eq {q : ℕ} (hq : sbi.perCpu sbi.parityBlocks = q)
    (hle : l.blockStart + q ≤ l.blockEnd) (hend : l.blockEnd < 2 ^ 32) :
    novaDataParityInitFreeList sbi l =
      { l with parityStart := l.blockStart, blockStart := l.blockStart + q, numParityBlocks := q,
               replicaParityStart := l.blockEnd + 1 - q } := by
  have hnum : sub64 (l.blockStart + q) l.blockStart = q := by
    rw [sub64_eq (by omega) (by omega), Nat.add_sub_cancel_left]
  rw [novaDataParityInitFreeList, hq, hnum, sub64_eq (by omega) (by omega)]

theorem SbInfo.perCpu_pos (hpos : 0 < b) : 0 < sbi.perCpu b := by
  unfold perCpu
  split
  · rename_i hmod
    exact Nat.add_pos_left (Nat.div_pos (Nat.le_of_dvd hpos (Nat.dvd_of_mod_eq_zero hmod))
      (Nat.pos_of_ne_zero fun h0 => by rw [h0, Nat.mod_zero] at hmod; omega)) _
  · exact Nat.succ_pos _

theorem SbInfo.Fits.parityBlocks_pos (h : sbi.Fits) (hi : i < sbi.cpus) : 0 < sbi.parityBlocks := by
  have hroom := h.room i hi
  have hblocks : sbi.perListBlocks ≤ sbi.numBlocks := Nat.div_le_self _ _
  unfold numBlocks at hblocks
  show 0 < sbi.initsize / 4096 / 9 + if sbi.initsize / 4096 % 9 = 0 then 0 else 1
  split_ifs <;> omega

theorem SbInfo.Fits.reserved_lt (h : sbi.Fits) (hi : i < sbi.cpus) :
    headReservedBlocks < sbi.perListBlocks ∧ tailReservedBlocks < sbi.perListBlocks := by
  have hfirst := h.room 0 (by omega)
  have hlast := h.room (sbi.cpus - 1) (by omega)
  simp only [setAside, if_true] at hfirst hlast
  omega

/-- What is where in a share. -/
structure ListLayout.Within (l : ListLayout) (sbi : SbInfo) (index : ℕ) : Prop where
  csums : sbi.perListBlocks * index ≤ l.csumStart
  parity : l.csumStart + l.numCsumBlocks = l.parityStart
  start : l.parityStart + l.numParityBlocks = l.blockStart
  gap : 0 < l.numParityBlocks
  nonempty : l.blockStart ≤ l.blockEnd
  replica : l.blockEnd + 1 = l.replicaCsumStart
  finish : l.replicaCsumStart + l.numCsumBlocks ≤ sbi.perListBlocks * (index + 1)
  head : index = 0 → headReservedBlocks ≤ l.csumStart
  tail : index = sbi.cpus - 1 →
    l.replicaCsumStart + l.numCsumBlocks + tailReservedBlocks ≤ sbi.perListBlocks * (index + 1)

theorem SbInfo.Fits.share_le (hi : i < sbi.cpus) :
    sbi.perListBlocks * (i + 1) ≤ sbi.numBlocks := by
  calc sbi.perListBlocks * (i + 1) ≤ sbi.perListBlocks * sbi.cpus := Nat.mul_le_mul_left _ hi
    _ ≤ sbi.numBlocks := Nat.div_mul_le_self _ _

theorem novaInitFreeList_within (h : sbi.Fits) (hi : i < sbi.cpus) :
    (novaInitFreeList sbi i).Within sbi i := by
  have hshare := SbInfo.Fits.share_le hi
  have hsmall := h.small
  have hroom := h.room i hi
  have hreserved := h.reserved_lt hi
  have hpos := sbi.perCpu_pos (h.parityBlocks_pos hi)
  unfold SbInfo.setAside at hroom
  generalize hc : sbi.perCpu sbi.dataCsumBlocks = c at hroom
  generalize hq : sbi.perCpu sbi.parityBlocks = q at hroom hpos
  rw [Nat.mul_succ] at hshare
  have hend : sub64 (sbi.perListBlocks * i + sbi.perListBlocks) 1 =
      sbi.perListBlocks * i + sbi.perListBlocks - 1 := sub64_eq (by omega) (by omega)
  have htail : sub64 (sbi.perListBlocks * i + sbi.perListBlocks - 1) tailReservedBlocks =
      sbi.perListBlocks * i + sbi.perListBlocks - 1 - tailReservedBlocks :=
    sub64_eq (by omega) (by omega)
  rw [novaInitFreeList, hend, htail]
  generalize hstart : (if i = 0 then sbi.perListBlocks * i + headReservedBlocks
    else sbi.perListBlocks * i) = blockStart
  generalize hlast : (if i = sbi.cpus - 1 then
    sbi.perListBlocks * i + sbi.perListBlocks - 1 - tailReservedBlocks
    else sbi.perListBlocks * i + sbi.perListBlocks - 1) = blockEnd
  have hstart' : blockStart =
      sbi.perListBlocks * i + if i = 0 then headReservedBlocks else 0 := by
    split at hstart <;> split <;> omega
  have hlast' : blockEnd + 1 + (if i = sbi.cpus - 1 then tailReservedBlocks else 0) =
      sbi.perListBlocks * i + sbi.perListBlocks := by
    split at hlast <;> split <;> omega
  rw [novaDataCsumInitFreeList_eq hc (by simp only; omega) (by simp only; omega),
    novaDataParityInitFreeList_eq hq (by simp only; omega) (by simp only; omega)]
  constructor
  all_goals simp only
  · split at hstart <;> omega
  · exact hpos
  · omega
  · omega
  · rw [Nat.mul_succ]
    omega
  · intro h0
    rw [if_pos h0] at hstart
    omega
  · intro hi'
    rw [if_pos hi'] at hlast
    rw [Nat.mul_succ]
    omega

/-! ## The lists at a mount -/

def ListLayout.region (l : ListLayout) : Finset ℕ := Finset.Icc l.blockStart l.blockEnd

def SbInfo.shares (sbi : SbInfo) : ℕ × List (Finset ℕ) :=
  (sbi.perListBlocks, (List.range sbi.cpus).map fun i => (novaInitFreeList sbi i).region)

variable (cs) in
theorem SbInfo.Fits.initBlocks_ok (h : sbi.Fits) (sh : Shape RangeNode) (hi : i < sbi.cpus)
    (p : ℕ) :
    ∃ fl, initBlocks cs sbi sh p i = .ok fl ∧ fl.Ok cs 0 ∧
      fl.blockStart = (novaInitFreeList sbi i).blockStart ∧
      fl.blockEnd = (novaInitFreeList sbi i).blockEnd ∧ fl.numFreeBlocks = fl.region.card := by
  have hwithin := novaInitFreeList_within h hi
  have hle := hwithin.nonempty
  have hlt : (novaInitFreeList sbi i).blockEnd < 2 ^ 32 := by
    have hshare := SbInfo.Fits.share_le hi
    have hsmall := h.small
    have hreplica := hwithin.replica
    have hfinish := hwithin.finish
    omega
  have hfree : sub64 (novaInitFreeList sbi i).blockEnd (novaInitFreeList sbi i).blockStart + 1 =
      (novaInitFreeList sbi i).blockEnd + 1 - (novaInitFreeList sbi i).blockStart := by
    rw [sub64_eq hle (by omega)]
    omega
  refine ⟨_, rfl, ?_, rfl, rfl, ?_⟩
  · have hnodes : ∀ n : RangeNode, inorder (sh.build (inorder (.node n .nil .nil))) = [n] := by
      intro n
      rw [Shape.inorder_build]
      rfl
    constructor
    all_goals simp only [FreeList.nodes, hnodes]
    · refine ⟨by simp, ?_, by simp⟩
      rw [extents_cons, separated_cons]
      exact ⟨by simpa [RangeNode.extent] using hle, by simp [extents], .nil⟩
    · simp
    · simp
    · simp
    · rfl
    · simp [hfree, RangeNode.extent, Extent.size, extents, total]
    · exact hlt
  · rw [hfree, FreeList.region, Nat.card_Icc]

variable (cs) in
theorem novaInitBlockmap_ok (h : sbi.Fits) (sh : Shape RangeNode) (ptr : ℕ → ℕ) :
    ∃ map, novaInitBlockmap cs sbi sh ptr = .ok map ∧ BlockSystem.Sound cs False ⟨map, ∅⟩ ∧
      map.shares = sbi.shares := by
  have hall : ∀ i, ∃ fl, initBlocks cs sbi sh (ptr i) i = .ok fl := fun i => ⟨_, rfl⟩
  choose g hg using hall
  have hok : ∀ i < sbi.cpus, (g i).Ok cs 0 ∧
      (g i).blockStart = (novaInitFreeList sbi i).blockStart ∧
      (g i).blockEnd = (novaInitFreeList sbi i).blockEnd ∧
      (g i).numFreeBlocks = (g i).region.card := by
    intro i hi
    obtain ⟨fl, hfl, hlist⟩ := h.initBlocks_ok cs sh hi (ptr i)
    rw [hg i] at hfl
    cases hfl
    exact hlist
  have hget : ∀ (i : ℕ) fl, ((List.range sbi.cpus).map g)[i]? = some fl →
      i < sbi.cpus ∧ g i = fl := by
    intro i fl hfl
    simpa [List.getElem?_range, List.getElem?_eq_some_iff] using hfl
  refine ⟨⟨sbi.perListBlocks, (List.range sbi.cpus).map g⟩, ?_, ⟨?_, ?_, by simp⟩, ?_⟩
  · have hpure : (fun i => initBlocks cs sbi sh (ptr i) i) = fun i => pure (g i) := funext hg
    rw [novaInitBlockmap, hpure, List.mapM_pure]
    rfl
  · intro i fl hfl
    obtain ⟨hi, rfl⟩ := hget i fl hfl
    obtain ⟨hlist, -, -, hnum⟩ := hok i hi
    exact ⟨⟨0, by simp, hlist⟩, by simp, by simpa using hnum⟩
  · intro i fl hfl
    obtain ⟨hi, rfl⟩ := hget i fl hfl
    obtain ⟨-, hstart, hend, -⟩ := hok i hi
    obtain ⟨hcsums, hparity, hdata, hsome, -, hreplica, hfinish, -, -⟩ :=
      novaInitFreeList_within h hi
    simp only [hstart, hend]
    omega
  · rw [BlockMap.shares, SbInfo.shares, List.map_map]
    congr 1
    apply List.map_congr_left
    intro i hi
    obtain ⟨-, hstart, hend, -⟩ := hok i (List.mem_range.mp hi)
    rw [Function.comp_apply, FreeList.region, hstart, hend, ListLayout.region]

/-! ## Runs -/

section
variable {as : List BlockAction}

theorem SbInfo.Fits.run_sound (h : sbi.Fits) (hmap : novaInitBlockmap cs sbi sh ptr = .ok map)
    (hrun : run (blockStep cs) ⟨map, ∅⟩ as = some s) :
    s.Sound cs (∃ a ∈ as, a.answers.node = none) ∧
      s.map.shares = sbi.shares := by
  obtain ⟨map', hmap', hsound, hshares⟩ := novaInitBlockmap_ok cs h sh ptr
  rw [hmap] at hmap'
  cases hmap'
  have hstart : BlockSystem.Sound cs (∃ a ∈ as, a.answers.node = none) ⟨map, ∅⟩ :=
    hsound.mono False.elim
  obtain ⟨hsound', hshares'⟩ := hstart.run (fun a ha hnode => ⟨a, ha, hnode⟩) hrun
  exact ⟨hsound', hshares'.trans hshares⟩

/-- Nothing is lost if the kernel always had a node. -/
theorem SbInfo.Fits.run_soundFull (h : sbi.Fits) (hmap : novaInitBlockmap cs sbi sh ptr = .ok map)
    (hrun : run (blockStep cs) ⟨map, ∅⟩ as = some s) (hnodes : ∀ a ∈ as, a.answers.node ≠ none) :
    s.Sound cs False :=
  (h.run_sound hmap hrun).1.mono fun ⟨a, ha, hnode⟩ => hnodes a ha hnode

theorem BlockMap.region_of_shares (h : map.shares = sbi.shares)
    (hfl : map.lists[i]? = some fl) :
    i < sbi.cpus ∧ fl.region = (novaInitFreeList sbi i).region := by
  have hlists : map.lists.map FreeList.region =
      (List.range sbi.cpus).map fun i => (novaInitFreeList sbi i).region := congrArg Prod.snd h
  have hget : (map.lists.map FreeList.region)[i]? = some fl.region := by
    rw [List.getElem?_map, hfl, Option.map_some]
  rw [hlists] at hget
  obtain ⟨hi, heq⟩ : i < sbi.cpus ∧ (novaInitFreeList sbi i).region = fl.region := by
    simpa [List.getElem?_eq_some_iff] using hget
  exact ⟨hi, heq.symm⟩

theorem BlockMap.length_of_shares (h : map.shares = sbi.shares) :
    map.lists.length = sbi.cpus := by
  have hlists := congrArg (List.length ∘ Prod.snd) h
  simpa [BlockMap.shares, SbInfo.shares] using hlists

/-- What is set aside in one share is not among the blocks of any list. -/
theorem SbInfo.Fits.not_mem_metadata (h : sbi.Fits) (hi : i < sbi.cpus)
    (hb : b ∈ (novaInitFreeList sbi i).region) (hj : j < sbi.cpus) :
    b ∉ (novaInitFreeList sbi j).metadata := by
  obtain ⟨hcsums, hparity, hdata, -, -, hreplica, hfinish, -, -⟩ := novaInitFreeList_within h hi
  obtain ⟨hcsums', hparity', hdata', -, hle', hreplica', hfinish', -, -⟩ :=
    novaInitFreeList_within h hj
  have hb' := Finset.mem_Icc.mp hb
  intro hmem
  simp only [ListLayout.metadata, Finset.mem_union, mem_blocksOf, Set.mem_Ico] at hmem
  -- both are within the share of the list
  have hij : i < j + 1 := by
    apply Nat.lt_of_mul_lt_mul_left (a := sbi.perListBlocks)
    omega
  have hji : j < i + 1 := by
    apply Nat.lt_of_mul_lt_mul_left (a := sbi.perListBlocks)
    omega
  obtain rfl : i = j := by omega
  omega

theorem SbInfo.Fits.mem_device (h : sbi.Fits) (hi : i < sbi.cpus)
    (hb : b ∈ (novaInitFreeList sbi i).region) :
    headReservedBlocks ≤ b ∧ b + tailReservedBlocks < sbi.numBlocks := by
  obtain ⟨hcsums, hparity, hdata, -, -, hreplica, hfinish, hhead, htail⟩ :=
    novaInitFreeList_within h hi
  have hb' := Finset.mem_Icc.mp hb
  have hreserved := h.reserved_lt hi
  constructor
  · by_cases h0 : i = 0
    · have hstart := hhead h0
      omega
    · have hshare : sbi.perListBlocks * 1 ≤ sbi.perListBlocks * i :=
        Nat.mul_le_mul_left _ (by omega)
      omega
  · by_cases hlast : i = sbi.cpus - 1
    · have hend := htail hlast
      have hshare := SbInfo.Fits.share_le hi
      omega
    · have hshare := SbInfo.Fits.share_le (show i + 1 < sbi.cpus by omega)
      rw [Nat.mul_succ] at hshare
      omega

/-- Whatever the threads do, a block that is held is none that the file system keeps for itself, and
no attempt hands out a block that is held. -/
theorem blockRun_safe (h : sbi.Fits) (hmap : novaInitBlockmap cs sbi sh ptr = .ok map)
    (hrun : run (blockStep cs) ⟨map, ∅⟩ as = some s) :
    (∀ b ∈ s.held, headReservedBlocks ≤ b ∧ b + tailReservedBlocks < sbi.numBlocks ∧
        ∀ j < sbi.cpus, b ∉ (novaInitFreeList sbi j).metadata) ∧
      ∀ (i : ℕ) fl, s.map.lists[i]? = some fl →
        fl.numFreeBlocks + (s.held ∩ fl.region).card = fl.region.card ∧
        ∀ (answers : KernelAnswers) (req : BlockRequest) (retried low n : ℕ) (map' : BlockMap),
          answers.Fresh fl → 0 < req.numBlocks →
          attemptAt cs answers s.map req i retried = (some (.ok (low, n)), map') →
          0 < n ∧ n ≤ req.numBlocks ∧ blocksOf low n ⊆ fl.region ∧
            Disjoint (blocksOf low n) s.held := by
  obtain ⟨hsound, hshares⟩ := h.run_sound hmap hrun
  constructor
  · intro b hb
    obtain ⟨i, fl, hfl, hregion⟩ := hsound.held b hb
    obtain ⟨hi, heq⟩ := BlockMap.region_of_shares hshares hfl
    rw [heq] at hregion
    obtain ⟨hhead, htail⟩ := h.mem_device hi hregion
    exact ⟨hhead, htail, fun j hj => h.not_mem_metadata hi hregion hj⟩
  · intro i fl hfl
    refine ⟨(hsound.lists i fl hfl).balance, ?_⟩
    intro answers req retried low n map' hfresh hreq heq
    have hattempt :=
      (hsound.mono fun _ => trivial).attempt hfl hfresh (fun _ => trivial) hreq retried
    obtain ⟨r, map₁, heq', hnone, -⟩ | ⟨low', n', map₁, heq', hn, hle, hsub, hdisj, -⟩ := hattempt
    · rw [heq, Prod.mk.injEq] at heq'
      exact absurd heq'.1.symm (hnone _)
    · rw [heq] at heq'
      cases heq'
      exact ⟨hn, hle, hsub, hdisj⟩

def twoCpus : SbInfo := ⟨2 ^ 22, 2⟩

def plainNodes : DramCsum := ⟨false, ⟨true, false, true, true⟩⟩

/-- Two threads take blocks, of which one gives back two. -/
def takeAndGive : List BlockAction :=
  let answers : KernelAnswers := ⟨some 9, .spine RangeNode⟩
  [.attempt 0 ⟨3, .b4K, .data, .fromHead⟩ 0 answers,
    .attempt 1 ⟨2, .b4K, .log, .fromTail⟩ 0 answers,
    .release 126 2 .b4K false answers]

theorem takeAndGive_runs :
    ∃ map s, novaInitBlockmap plainNodes twoCpus (.spine RangeNode) id = .ok map ∧
      run (blockStep plainNodes) ⟨map, ∅⟩ takeAndGive = some s ∧ s.held = {125, 1016, 1017} ∧
      (∃ fl ∈ s.map.lists, 126 ∈ fl.region) ∧
      ∀ fl ∈ s.map.lists, KernelAnswers.Fresh ⟨some 9, .spine RangeNode⟩ fl := by
  refine ⟨_, _, rfl, rfl, ?_, ?_, ?_⟩
  all_goals decide

theorem blockRun_safe_twoCpus :
    ∃ map s, novaInitBlockmap plainNodes twoCpus (.spine RangeNode) id = .ok map ∧
      run (blockStep plainNodes) ⟨map, ∅⟩ takeAndGive = some s ∧ s.held = {125, 1016, 1017} ∧
      ∀ j < 2, 125 ∉ (novaInitFreeList twoCpus j).metadata := by
  obtain ⟨map, s, hmap, hrun, hheld, -⟩ := takeAndGive_runs
  have hsafe := blockRun_safe (by decide) hmap hrun
  exact ⟨map, s, hmap, hrun, hheld, (hsafe.1 125 (by simp [hheld])).2.2⟩

/-- The count of free blocks goes down and up with what is held. -/
theorem blockRun_count (h : sbi.Fits) (hmap : novaInitBlockmap cs sbi sh ptr = .ok map)
    (hrun : run (blockStep cs) ⟨map, ∅⟩ as = some s) :
    novaCountFreeBlocks s.map + s.held.card =
      ((List.range sbi.cpus).map fun i =>
        (novaInitFreeList sbi i).blockEnd + 1 - (novaInitFreeList sbi i).blockStart).sum := by
  obtain ⟨hsound, hshares⟩ := h.run_sound hmap hrun
  have hregions : s.map.lists.map FreeList.region =
      (List.range sbi.cpus).map fun i => (novaInitFreeList sbi i).region :=
    congrArg Prod.snd hshares
  have hcards : s.map.lists.map (fun fl => fl.region.card) =
      (List.range sbi.cpus).map fun i => (novaInitFreeList sbi i).region.card := by
    have hmap := congrArg (List.map Finset.card) hregions
    simpa only [List.map_map, Function.comp_def] using hmap
  rw [hsound.count, hcards]
  simp only [ListLayout.region, Nat.card_Icc]

theorem blockRun_count_twoCpus :
    ∃ map s, novaInitBlockmap plainNodes twoCpus (.spine RangeNode) id = .ok map ∧
      run (blockStep plainNodes) ⟨map, ∅⟩ takeAndGive = some s ∧
      novaCountFreeBlocks s.map + s.held.card =
        ((List.range 2).map fun i =>
          (novaInitFreeList twoCpus i).blockEnd + 1 -
            (novaInitFreeList twoCpus i).blockStart).sum := by
  obtain ⟨map, s, hmap, hrun, -⟩ := takeAndGive_runs
  exact ⟨map, s, hmap, hrun, blockRun_count (by decide) hmap hrun⟩

/-- In a list that has lost nothing, the nodes hold all blocks that nobody holds. -/
theorem ListSound.freeSet_eq {held : Finset ℕ} (h : ListSound cs False held fl) :
    fl.freeSet = ↑(fl.region \ held) := by
  obtain ⟨lost, hlost, hok⟩ := h.ok
  obtain rfl : lost = 0 := by
    by_contra hne
    exact hlost hne
  apply Set.eq_of_subset_of_ncard_le
  · intro b hb
    rw [Finset.mem_coe, Finset.mem_sdiff]
    exact ⟨h.freeSet_subset hb, h.apart b hb⟩
  · have hcard := Finset.card_sdiff_add_card_inter fl.region held
    have hnum := hok.ncard
    have hbalance := h.balance
    rw [Finset.inter_comm] at hbalance
    rw [Set.ncard_coe_finset]
    omega
  · exact Finset.finite_toSet _

/-- Blocks that are held can always be given back if there is memory for a node; and if there always
was, then each block of a list is either held or in one of the nodes of the list. -/
theorem blockRun_lossless (h : sbi.Fits) (hmap : novaInitBlockmap cs sbi sh ptr = .ok map)
    (hrun : run (blockStep cs) ⟨map, ∅⟩ as = some s) :
    (∀ (blocknr : ℕ) (num : ℤ) (btype : BlockType) (logPage : Bool) (answers : KernelAnswers),
        0 < num → blocksOf blocknr (novaGetNumblocks btype * num.toNat) ⊆ s.held →
        (∀ fl ∈ s.map.lists, answers.Fresh fl) → answers.node ≠ none →
        (freeBlocksIn cs answers s.map blocknr num btype logPage).1 = .ok ()) ∧
      ((∀ a ∈ as, a.answers.node ≠ none) →
        ∀ fl ∈ s.map.lists, fl.freeSet = ↑(fl.region \ s.held)) := by
  obtain ⟨hsound, -⟩ := h.run_sound hmap hrun
  constructor
  · intro blocknr num btype logPage answers hnum hheld hfresh hnode
    have hfirst : blocknr ∈ s.held := by
      apply hheld
      rw [mem_blocksOf, Set.mem_Ico]
      have hpos := Nat.mul_pos (novaGetNumblocks_pos btype) (show 0 < num.toNat by omega)
      omega
    obtain ⟨i, fl, hfl, hregion⟩ := hsound.held blocknr hfirst
    have hdiv := hsound.div_eq hfl hregion
    rw [← hdiv] at hfl
    obtain ⟨hnone, -⟩ | ⟨-, map', heq, -⟩ :=
      hsound.release hfl (hfresh fl (List.mem_of_getElem? hfl)) hnum rfl hheld logPage
    · exact absurd hnone hnode
    · rw [heq]
  · intro hnodes fl hmem
    obtain ⟨i, hfl⟩ := List.mem_iff_getElem?.mp hmem
    exact ((h.run_soundFull hmap hrun hnodes).lists i fl hfl).freeSet_eq

theorem blockRun_lossless_twoCpus :
    ∃ map s, novaInitBlockmap plainNodes twoCpus (.spine RangeNode) id = .ok map ∧
      run (blockStep plainNodes) ⟨map, ∅⟩ takeAndGive = some s ∧
      ∀ fl ∈ s.map.lists, fl.freeSet = ↑(fl.region \ s.held) := by
  obtain ⟨map, s, hmap, hrun, -⟩ := takeAndGive_runs
  exact ⟨map, s, hmap, hrun, (blockRun_lossless (by decide) hmap hrun).2 (by decide)⟩

/-- The ranges in the lists depend only on what is held, and not on the order in which blocks were
taken and given back. -/
theorem blockRun_canonical (h : sbi.Fits) {sh' : Shape RangeNode} {ptr' : ℕ → ℕ} {map' : BlockMap}
    {as' : List BlockAction} {s' : BlockSystem}
    (hmap : novaInitBlockmap cs sbi sh ptr = .ok map)
    (hrun : run (blockStep cs) ⟨map, ∅⟩ as = some s) (hnodes : ∀ a ∈ as, a.answers.node ≠ none)
    (hmap' : novaInitBlockmap cs sbi sh' ptr' = .ok map')
    (hrun' : run (blockStep cs) ⟨map', ∅⟩ as' = some s')
    (hnodes' : ∀ a ∈ as', a.answers.node ≠ none) (hheld : s.held = s'.held) :
    s.map.lists.map (fun fl => extents fl.nodes) =
      s'.map.lists.map fun fl => extents fl.nodes := by
  have hshares := (h.run_sound hmap hrun).2
  have hshares' := (h.run_sound hmap' hrun').2
  apply List.ext_getElem
  · rw [List.length_map, List.length_map, BlockMap.length_of_shares hshares,
      BlockMap.length_of_shares hshares']
  · intro i hi hi'
    rw [List.length_map] at hi hi'
    rw [List.getElem_map, List.getElem_map]
    have hget := List.getElem?_eq_getElem hi
    have hget' := List.getElem?_eq_getElem hi'
    have hlist := (h.run_soundFull hmap hrun hnodes).lists i _ hget
    have hlist' := (h.run_soundFull hmap' hrun' hnodes').lists i _ hget'
    have hregion := (BlockMap.region_of_shares hshares hget).2
    have hregion' := (BlockMap.region_of_shares hshares' hget').2
    obtain ⟨_, -, hok⟩ := hlist.ok
    obtain ⟨_, -, hok'⟩ := hlist'.ok
    apply hok.nodes.separated.ext hok'.nodes.separated
    calc cover (extents s.map.lists[i].nodes)
        = ↑(s.map.lists[i].region \ s.held) := hlist.freeSet_eq
      _ = ↑(s'.map.lists[i].region \ s'.held) := by rw [hregion, hregion', hheld]
      _ = cover (extents s'.map.lists[i].nodes) := hlist'.freeSet_eq.symm

/-- All that was taken is given back, in two parts and in another order. -/
def takeAndGiveAll : List BlockAction :=
  let answers : KernelAnswers := ⟨some 9, .spine RangeNode⟩
  takeAndGive ++ [.release 1017 1 .b4K true answers, .release 125 1 .b4K false answers,
    .release 1016 1 .b4K true ⟨some 8, .spine RangeNode⟩]

theorem blockRun_canonical_twoCpus :
    ∃ map s, novaInitBlockmap plainNodes twoCpus (.spine RangeNode) id = .ok map ∧
      run (blockStep plainNodes) ⟨map, ∅⟩ takeAndGiveAll = some s ∧
      s.map.lists.map (fun fl => extents fl.nodes) =
        map.lists.map fun fl => extents fl.nodes := by
  have hexists : ∃ map s, novaInitBlockmap plainNodes twoCpus (.spine RangeNode) id = .ok map ∧
      run (blockStep plainNodes) ⟨map, ∅⟩ takeAndGiveAll = some s ∧ s.held = ∅ :=
    ⟨_, _, rfl, rfl, by decide⟩
  obtain ⟨map, s, hmap, hrun, hheld⟩ := hexists
  exact ⟨map, s, hmap, hrun, blockRun_canonical (by decide) hmap hrun (by decide) hmap
    run_nil (fun _ ha => absurd ha List.not_mem_nil) hheld⟩

/-- A release that begins with a block nobody holds is refused and changes nothing. -/
theorem blockRun_refuses (h : sbi.Fits) (hmap : novaInitBlockmap cs sbi sh ptr = .ok map)
    (hrun : run (blockStep cs) ⟨map, ∅⟩ as = some s) (hnodes : ∀ a ∈ as, a.answers.node ≠ none)
    (hfl : fl ∈ s.map.lists) (hb : b ∈ fl.region) (hfree : b ∉ s.held) (answers : KernelAnswers)
    (num : ℤ) (btype : BlockType) (logPage : Bool) :
    ∃ e, freeBlocksIn cs answers s.map b num btype logPage = (.error e, s.map) := by
  have hsound := h.run_soundFull hmap hrun hnodes
  obtain ⟨i, hget⟩ := List.mem_iff_getElem?.mp hfl
  have hlist := hsound.lists i fl hget
  have hin : b ∈ fl.freeSet := by
    rw [hlist.freeSet_eq, Finset.mem_coe, Finset.mem_sdiff]
    exact ⟨hb, hfree⟩
  obtain ⟨lost, -, hok⟩ := hlist.ok
  obtain ⟨e, he⟩ := novaFreeBlocks_free answers.shape hok hin answers.node num btype logPage
  rw [← hsound.div_eq hget hb] at hget
  exact ⟨e, by rw [freeBlocksIn_eq hget he, BlockMap.set_self hget]⟩

theorem blockRun_refuses_twoCpus :
    ∃ map s, novaInitBlockmap plainNodes twoCpus (.spine RangeNode) id = .ok map ∧
      run (blockStep plainNodes) ⟨map, ∅⟩ takeAndGive = some s ∧
      ∃ e, freeBlocksIn plainNodes ⟨some 9, .spine RangeNode⟩ s.map 126 2 .b4K false =
        (.error e, s.map) := by
  obtain ⟨map, s, hmap, hrun, hheld, ⟨fl, hfl, hb⟩, -⟩ := takeAndGive_runs
  exact ⟨map, s, hmap, hrun, blockRun_refuses (by decide) hmap hrun (by decide) hfl hb
    (by simp [hheld]) _ 2 .b4K false⟩

/-- As long as a block of some list is not held, pages for data are not refused, whichever list the
request begins with. Their number comes back as an `int`. -/
theorem blockRun_progress (h : sbi.Fits) (hmap : novaInitBlockmap cs sbi sh ptr = .ok map)
    (hrun : run (blockStep cs) ⟨map, ∅⟩ as = some s) (hnodes : ∀ a ∈ as, a.answers.node ≠ none)
    (hfl : fl ∈ s.map.lists) (hb : b ∈ fl.region) (hfree : b ∉ s.held) {cpuid : ℕ}
    (hcpuid : cpuid < sbi.cpus) {answers : KernelAnswers}
    (hfresh : ∀ fl ∈ s.map.lists, answers.Fresh fl) {req : BlockRequest}
    (hdata : req.atype = .data) (hpages : req.btype = .b4K) (hnum : 0 < req.num)
    (hint : req.num < 2 ^ 31) :
    ∃ low n map', novaNewBlocks cs answers s.map req cpuid = (.ok (low, n), map') ∧
      0 < n ∧ n ≤ req.num := by
  have hsound := h.run_soundFull hmap hrun hnodes
  have hblocks : req.numBlocks = req.num := by
    rw [BlockRequest.numBlocks, hpages]
    exact Nat.mul_one _
  have hpos : 0 < fl.numFreeBlocks := by
    obtain ⟨i, hget⟩ := List.mem_iff_getElem?.mp hfl
    have hbalance := (hsound.lists i fl hget).balance
    have hlt : (s.held ∩ fl.region).card < fl.region.card := by
      apply Finset.card_lt_card
      rw [Finset.ssubset_iff_of_subset Finset.inter_subset_right]
      exact ⟨b, hb, fun hin => hfree (Finset.mem_inter.mp hin).1⟩
    omega
  have hlength := BlockMap.length_of_shares (h.run_sound hmap hrun).2
  obtain ⟨fl', hfl'⟩ : ∃ fl', s.map.lists[cpuid]? = some fl' :=
    ⟨_, List.getElem?_eq_getElem (hlength ▸ hcpuid)⟩
  obtain ⟨low, n, map', heq, hn, hle⟩ := hsound.newBlocksFrom_data hfresh hdata hpages
    (by omega) ⟨fl, hfl, hpos⟩ hfl' (show 2 = 0 → 0 < fl'.numFreeBlocks by omega)
  have hcount : toInt n = n := Int.bmod_eq_of_le (by omega) (by omega)
  refine ⟨low, n, map', ?_, by omega, by omega⟩
  rw [novaNewBlocks, if_neg (by omega), heq, hpages]
  simp only [novaGetNumblocks, Nat.div_one, hcount]

theorem blockRun_progress_twoCpus :
    ∃ map s, novaInitBlockmap plainNodes twoCpus (.spine RangeNode) id = .ok map ∧
      run (blockStep plainNodes) ⟨map, ∅⟩ takeAndGive = some s ∧
      ∃ low n map', novaNewBlocks plainNodes ⟨some 9, .spine RangeNode⟩ s.map
        ⟨4, .b4K, .data, .fromHead⟩ 1 = (.ok (low, n), map') ∧ 0 < n ∧ n ≤ 4 := by
  obtain ⟨map, s, hmap, hrun, hheld, ⟨fl, hfl, hb⟩, hfresh⟩ := takeAndGive_runs
  refine ⟨map, s, hmap, hrun, ?_⟩
  exact blockRun_progress (by decide) hmap hrun (by decide) hfl hb (by simp [hheld]) (by decide)
    hfresh rfl rfl (by decide) (by decide)

end

end Squint.Nova
