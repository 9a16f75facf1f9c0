import Squint.Nova.Transactions

/-! Inodes on the medium: the updates of `inode.h` and the checks of `checksum.c`. With metadata
checksums every inode has a checksum and a replica. -/
namespace Squint.Nova
open Squint.Lib

/-- An inode has two cache lines to itself. -/
def novaInodeSize : ℕ := 128

/-- The checksum is the last field. -/
def inodeCsumOff : ℕ := 116

/-- The parts of `struct nova_inode_update` that transactions read. -/
structure InodeUpdate where
  tail : ℕ
  alterTail : ℕ
deriving DecidableEq, Repr

def bytesOf (ws : List ℕ) : List (BitVec 8) := ws.flatMap (leBytes 8)

def inodeCsum (cfg : Config) (pi : List ℕ) : ℕ :=
  (novaCrc32c cfg (BitVec.allOnes 32) ((bytesOf pi).take inodeCsumOff)).toNat

def novaUpdateInodeChecksum (cfg : Config) (pi : ℕ) : Code Unit := do
  if cfg.metadataCsum then
    let ws ← loadWords pi inodeWords
    storeBytes (pi + inodeCsumOff) 4 (inodeCsum cfg ws)
  novaFlushBuffer cfg pi (8 * inodeWords) true

/-- `true` where the source returns 0. -/
def novaCheckInodeChecksum (cfg : Config) (pi : List ℕ) : Bool :=
  !cfg.metadataCsum || getBytes (pi.getD 14 0) 4 4 == inodeCsum cfg pi

def novaUpdateTail (cfg : Config) (pi newTail : ℕ) : Code Unit := do
  persistentBarrier
  store (pi + logTailOff) newTail
  novaFlushBuffer cfg (pi + logTailOff) cachelineSize true

def novaUpdateAlterTail (cfg : Config) (pi newTail : ℕ) : Code Unit := do
  if cfg.metadataCsum then
    persistentBarrier
    store (pi + alterLogTailOff) newTail
    novaFlushBuffer cfg (pi + alterLogTailOff) cachelineSize true

def novaUpdateAlterInode (cfg : Config) (inode : InodeRef) : Code Unit := do
  if cfg.metadataCsum then
    let ws ← loadWords inode.piAddr inodeWords
    memcpyToPmemNocache cfg inode.alterPiAddr ws

def novaUpdateInode (cfg : Config) (inode : InodeRef) (update : InodeUpdate) (updateAlter : Bool) :
    Code Unit := do
  novaUpdateTail cfg inode.piAddr update.tail
  if cfg.metadataCsum then novaUpdateAlterTail cfg inode.piAddr update.alterTail
  novaUpdateInodeChecksum cfg inode.piAddr
  if updateAlter then novaUpdateAlterInode cfg inode

def span (pi : ℕ) : List ℕ := (List.range inodeWords).map fun k => pi + 8 * k

theorem mem_span {pi a : ℕ} : a ∈ span pi ↔ ∃ k < inodeWords, a = pi + 8 * k := by
  simp [span, eq_comm]

theorem mem_span_of_lt {pi k : ℕ} (h : k < inodeWords) : pi + 8 * k ∈ span pi :=
  mem_span.mpr ⟨k, h, rfl⟩

theorem span_lt {pi a : ℕ} (h : a ∈ span pi) : pi ≤ a ∧ a < pi + 8 * inodeWords := by
  obtain ⟨k, hk, rfl⟩ := mem_span.mp h
  omega

/-- The checksum of the inode is right. -/
def Sealed (cfg : Config) (s : ℕ → ℕ) (pi : ℕ) : Prop :=
  novaCheckInodeChecksum cfg (wordsAt s pi) = true

theorem length_leBytes (n w : ℕ) : (leBytes n w).length = n := by simp [leBytes]

theorem take_leBytes {n k : ℕ} (h : k ≤ n) (w : ℕ) : (leBytes n w).take k = leBytes k w := by
  simp [leBytes, ← List.map_take, List.take_range, Nat.min_eq_left h]

/-- The last four bytes do not count. -/
theorem inodeCsum_wordsAt (cfg : Config) (s : ℕ → ℕ) (pi : ℕ) :
    inodeCsum cfg (wordsAt s pi) = (novaCrc32c cfg (BitVec.allOnes 32)
      (bytesOf ((List.range 14).map fun k => s (pi + 8 * k)) ++
        leBytes 4 (s (pi + 112)))).toNat := by
  have hsplit : wordsAt s pi = ((List.range 14).map fun k => s (pi + 8 * k)) ++ [s (pi + 112)] := by
    rw [wordsAt, show inodeWords = 14 + 1 from rfl, List.range_succ, List.map_append]
    rfl
  have hlen : (bytesOf ((List.range 14).map fun k => s (pi + 8 * k))).length = 112 := by
    simp [bytesOf, List.length_flatMap, length_leBytes, Function.comp_def]
  rw [inodeCsum, hsplit, bytesOf, List.flatMap_append, ← bytesOf, List.take_append, hlen,
    List.take_of_length_le (by rw [hlen]; decide)]
  simp [inodeCsumOff, take_leBytes]

section Footprints

variable {cfg : Config} {pi : ℕ} {W : ℕ → Prop}

theorem within_novaUpdateTail (cfg : Config) (pi newTail : ℕ) :
    Prog.Within (· = pi + logTailOff) (novaUpdateTail cfg pi newTail) :=
  .bind (within_persistentBarrier _) fun _ => .bind (.store rfl) fun _ =>
    within_novaFlushBuffer _ _ _ _ _

theorem within_novaUpdateAlterTail (cfg : Config) (pi newTail : ℕ) :
    Prog.Within (fun a => cfg.metadataCsum = true ∧ a = pi + alterLogTailOff)
      (novaUpdateAlterTail cfg pi newTail) := by
  unfold novaUpdateAlterTail
  split_ifs with h
  · exact .bind (within_persistentBarrier _) fun _ => .bind (.store ⟨h, rfl⟩) fun _ =>
      within_novaFlushBuffer _ _ _ _ _
  · exact .pure _ _

theorem within_loadWords (R : ℕ → Prop) (a n : ℕ) : Prog.Within R (loadWords a n) := by
  intro m o ho
  rw [(loadWords_eq a n m).2] at ho
  cases ho

theorem within_novaUpdateInodeChecksum (cfg : Config) (hpi : pi % 8 = 0) :
    Prog.Within (fun a => cfg.metadataCsum = true ∧ a = pi + 112)
      (novaUpdateInodeChecksum cfg pi) := by
  unfold novaUpdateInodeChecksum
  split_ifs with h
  · refine .bind (within_loadWords _ _ _) fun _ => .bind (within_storeBytes ⟨h, ?_⟩) fun _ =>
      within_novaFlushBuffer _ _ _ _ _
    exact wordOf_add hpi inodeCsumOff
  · exact within_novaFlushBuffer _ _ _ _ _

theorem novaUpdateInode_eq (cfg : Config) (inode : InodeRef) (update : InodeUpdate) :
    novaUpdateInode cfg inode update false = (do
      novaUpdateTail cfg inode.piAddr update.tail
      novaUpdateAlterTail cfg inode.piAddr update.alterTail
      novaUpdateInodeChecksum cfg inode.piAddr) := by
  cases h : cfg.metadataCsum <;> simp [novaUpdateInode, novaUpdateAlterTail, h]

/-- The words of an inode that its updates store to. -/
def Touched (cfg : Config) (pi a : ℕ) : Prop :=
  a = pi + logTailOff ∨ cfg.metadataCsum = true ∧ a ∈ span pi

theorem within_novaUpdateInode (cfg : Config) (inode : InodeRef) (update : InodeUpdate)
    (hpi : inode.piAddr % 8 = 0) :
    Prog.Within (Touched cfg inode.piAddr) (novaUpdateInode cfg inode update false) := by
  rw [novaUpdateInode_eq]
  refine .bind ((within_novaUpdateTail _ _ _).mono fun a ha => Or.inl ha) fun _ =>
    .bind ((within_novaUpdateAlterTail _ _ _).mono fun a ha => Or.inr ⟨ha.1, ?_⟩) fun _ =>
    (within_novaUpdateInodeChecksum _ hpi).mono fun a ha => Or.inr ⟨ha.1, ?_⟩
  · exact mem_span.mpr ⟨11, by decide, ha.2⟩
  · exact mem_span.mpr ⟨14, by decide, ha.2⟩

theorem dependsOn_novaFlushBuffer (W : ℕ → Prop) (cfg : Config) (buf len : ℕ) (fence : Bool) :
    Prog.DependsOn W (novaFlushBuffer cfg buf len fence) := by
  refine .bind (.emitAll W _) fun _ => ?_
  cases fence
  · exact .pure W ()
  · exact .emitAll W _

theorem dependsOn_storeBytes {a size v : ℕ} (h : W (wordOf a)) :
    Prog.DependsOn W (storeBytes a size v) :=
  .bind (.load h) fun _ => .emitAll W _

theorem dependsOn_loadWords {a n : ℕ} (h : ∀ k < n, W (a + 8 * k)) :
    Prog.DependsOn W (loadWords a n) := by
  intro m m' hm
  rw [(loadWords_eq a n m).1, (loadWords_eq a n m').1, after_loadWords, after_loadWords]
  exact ⟨List.map_congr_left fun k hk => hm _ (h k (List.mem_range.mp hk)), hm⟩

theorem dependsOn_novaUpdateTail (W : ℕ → Prop) (cfg : Config) (pi newTail : ℕ) :
    Prog.DependsOn W (novaUpdateTail cfg pi newTail) :=
  .bind (.emitAll W _) fun _ => .bind (.emitAll W _) fun _ => dependsOn_novaFlushBuffer W _ _ _ _

theorem dependsOn_novaUpdateAlterTail (W : ℕ → Prop) (cfg : Config) (pi newTail : ℕ) :
    Prog.DependsOn W (novaUpdateAlterTail cfg pi newTail) := by
  unfold novaUpdateAlterTail
  split_ifs
  · exact .bind (.emitAll W _) fun _ => .bind (.emitAll W _) fun _ =>
      dependsOn_novaFlushBuffer W _ _ _ _
  · exact .pure W _

theorem dependsOn_novaUpdateInodeChecksum (cfg : Config) (hpi : pi % 8 = 0)
    (h : ∀ a ∈ span pi, W a) : Prog.DependsOn W (novaUpdateInodeChecksum cfg pi) := by
  unfold novaUpdateInodeChecksum
  split_ifs
  · refine .bind (dependsOn_loadWords fun k hk => h _ (mem_span_of_lt hk)) fun _ =>
      .bind (dependsOn_storeBytes (h _ ?_)) fun _ => dependsOn_novaFlushBuffer W _ _ _ _
    exact mem_span.mpr ⟨14, by decide, wordOf_add hpi inodeCsumOff⟩
  · exact dependsOn_novaFlushBuffer W _ _ _ _

theorem dependsOn_novaUpdateInode (cfg : Config) (inode : InodeRef) (update : InodeUpdate)
    (hpi : inode.piAddr % 8 = 0) (h : ∀ a ∈ span inode.piAddr, W a) :
    Prog.DependsOn W (novaUpdateInode cfg inode update false) := by
  rw [novaUpdateInode_eq]
  exact .bind (dependsOn_novaUpdateTail W _ _ _) fun _ =>
    .bind (dependsOn_novaUpdateAlterTail W _ _ _) fun _ =>
    dependsOn_novaUpdateInodeChecksum cfg hpi h

theorem writesBack_novaUpdateInodeChecksum (cfg : Config) (pi : ℕ) :
    Prog.WritesBack (· ∈ span pi) (novaUpdateInodeChecksum cfg pi) := by
  have hflush : Prog.WritesBack (· ∈ span pi) (novaFlushBuffer cfg pi (8 * inodeWords) true) :=
    fun m a ha => ready_novaFlushBuffer (by decide) (span_lt ha).1 (span_lt ha).2
  unfold novaUpdateInodeChecksum
  split_ifs
  · exact .bind_last fun _ => .bind_last fun _ => hflush
  · exact hflush

theorem writesBack_novaUpdateInode (cfg : Config) (inode : InodeRef) (update : InodeUpdate) :
    Prog.WritesBack (· ∈ span inode.piAddr) (novaUpdateInode cfg inode update false) := by
  rw [novaUpdateInode_eq]
  exact .bind_last fun _ => .bind_last fun _ => writesBack_novaUpdateInodeChecksum _ _

end Footprints

section Values

variable {cfg : Config} {pi : ℕ} {m : Memory}

theorem nowOf_novaFlushBuffer (cfg : Config) (buf len : ℕ) (fence : Bool) (m : Memory) :
    nowOf ((novaFlushBuffer cfg buf len fence).after m) = nowOf m :=
  funext fun _ => now_novaFlushBuffer

theorem getD_wordsAt (s : ℕ → ℕ) (pi : ℕ) : (wordsAt s pi).getD 14 0 = s (pi + 112) := by
  rw [wordsAt, List.getD_eq_getElem?_getD, List.getElem?_map, List.getElem?_range (by decide)]
  rfl

/-- The stored checksum is the one that is then computed. -/
theorem inodeCsum_congr {s s' : ℕ → ℕ} (h : ∀ k < 14, s' (pi + 8 * k) = s (pi + 8 * k))
    (hlast : s' (pi + 112) % 2 ^ 32 = s (pi + 112) % 2 ^ 32) :
    inodeCsum cfg (wordsAt s' pi) = inodeCsum cfg (wordsAt s pi) := by
  have hmap : (List.range 14).map (fun k => s' (pi + 8 * k)) =
      (List.range 14).map fun k => s (pi + 8 * k) :=
    List.map_congr_left fun k hk => h k (List.mem_range.mp hk)
  rw [inodeCsum_wordsAt, inodeCsum_wordsAt, hmap, leBytes_congr (n := 4) hlast]

theorem inodeCsum_lt (cfg : Config) (ws : List ℕ) : inodeCsum cfg ws < 2 ^ 32 := BitVec.isLt _

theorem nowOf_novaUpdateInodeChecksum (h : cfg.metadataCsum = true) (hpi : pi % 8 = 0) (m : Memory)
    (x : ℕ) : nowOf ((novaUpdateInodeChecksum cfg pi).after m) x =
      if x = pi + 112 then
        setBytes (nowOf m (pi + 112)) 4 4 (inodeCsum cfg (wordsAt (nowOf m) pi))
      else nowOf m x := by
  have hw : wordOf (pi + inodeCsumOff) = pi + 112 := wordOf_add hpi inodeCsumOff
  have hb : (pi + inodeCsumOff) % 8 = 4 := by unfold inodeCsumOff; omega
  simp only [novaUpdateInodeChecksum, h, if_true, Prog.after_bind, nowOf_novaFlushBuffer,
    after_loadWords, val_loadWords, nowOf_storeBytes, hw, hb]

theorem sealed_novaUpdateInodeChecksum (cfg : Config) (hpi : pi % 8 = 0) (m : Memory) :
    Sealed cfg (nowOf ((novaUpdateInodeChecksum cfg pi).after m)) pi := by
  unfold Sealed novaCheckInodeChecksum
  by_cases h : cfg.metadataCsum = true
  · have hsame : inodeCsum cfg (wordsAt (nowOf ((novaUpdateInodeChecksum cfg pi).after m)) pi) =
        inodeCsum cfg (wordsAt (nowOf m) pi) := by
      refine inodeCsum_congr (fun k hk => ?_) ?_
      · rw [nowOf_novaUpdateInodeChecksum h hpi, if_neg (by omega)]
      · rw [nowOf_novaUpdateInodeChecksum h hpi, if_pos rfl]
        exact setBytes_mod _ 4 4 _
    rw [getD_wordsAt, hsame, nowOf_novaUpdateInodeChecksum h hpi, if_pos rfl, getBytes_setBytes,
      Nat.mod_eq_of_lt (inodeCsum_lt cfg _)]
    simp
  · simp [h]

theorem sealed_novaUpdateInode (cfg : Config) (inode : InodeRef) (update : InodeUpdate)
    (hpi : inode.piAddr % 8 = 0) (m : Memory) :
    Sealed cfg (nowOf ((novaUpdateInode cfg inode update false).after m)) inode.piAddr := by
  rw [novaUpdateInode_eq, Prog.after_bind, Prog.after_bind]
  exact sealed_novaUpdateInodeChecksum cfg hpi _

theorem Sealed.congr {s s' : ℕ → ℕ} (h : Sealed cfg s pi) (hs : ∀ a ∈ span pi, s' a = s a) :
    Sealed cfg s' pi := by
  have : wordsAt s' pi = wordsAt s pi :=
    List.map_congr_left fun k hk => hs _ (mem_span_of_lt (List.mem_range.mp hk))
  rwa [Sealed, this]

end Values

section Replicas

variable {cfg : Config} {m : Memory}

end Replicas

end Squint.Nova
