import Squint.Nova.Inodes

/-! Entries of inode logs, `log.h` and the entry part of `checksum.c`: their layout, their checksum
and how they are changed in place. -/
namespace Squint.Nova
open Squint.Lib

inductive EntryType
  | fileWrite
  | dirLog
  | setAttr
  | linkChange
  | mmapWrite
  | snapshotInfo
deriving DecidableEq, Repr

/-- `none` is a byte that no entry with a checksum starts with, as that of `NEXT_PAGE`. -/
def EntryType.ofByte : ℕ → Option EntryType
  | 1 => some .fileWrite
  | 2 => some .dirLog
  | 3 => some .setAttr
  | 4 => some .linkChange
  | 5 => some .mmapWrite
  | 6 => some .snapshotInfo
  | _ => none

def EntryType.toByte : EntryType → ℕ
  | .fileWrite => 1
  | .dirLog => 2
  | .setAttr => 3
  | .linkChange => 4
  | .mmapWrite => 5
  | .snapshotInfo => 6

def novaDentryHeaderLen : ℕ := 48

def novaGetLogEntrySize : EntryType → ℕ
  | .fileWrite => 64
  | .dirLog => novaDentryHeaderLen
  | .setAttr => 56
  | .linkChange => 40
  | .mmapWrite => 40
  | .snapshotInfo => 40

/-- Where the checksum of an entry is. -/
def entryCsumOff : EntryType → ℕ
  | .fileWrite => 60
  | .dirLog => dentryCsumOff
  | .setAttr => 52
  | .linkChange => 36
  | .mmapWrite => 36
  | .snapshotInfo => 36

/-- The length of an entry; that of a directory entry is in the entry. -/
def entryLen (type : EntryType) (deLen : ℕ) : ℕ :=
  if type = .dirLog then deLen else novaGetLogEntrySize type

def novaInitCsum : BitVec 32 := 1#32

/-- The checksum over an entry of `len` bytes without its own four bytes. -/
def novaCalcEntryCsum (cfg : Config) (type : EntryType) (len : ℕ) (data : List (BitVec 8)) : ℕ :=
  (novaCrc32c cfg (novaCrc32c cfg novaInitCsum (data.take (entryCsumOff type)))
    ((data.take len).drop (entryCsumOff type + 4))).toNat

def novaUpdateEntryCsum (cfg : Config) (entry : ℕ) : Code Unit := do
  if !cfg.metadataCsum then novaFlushBuffer cfg entry cachelineSize true
  else
    let w ← load entry
    match EntryType.ofByte (getBytes w 0 1) with
    | none => return ()
    | some type =>
      let len := entryLen type (getBytes w 4 2)
      let ws ← loadWords entry ((len + 7) / 8)
      storeBytes (entry + entryCsumOff type) 4 (novaCalcEntryCsum cfg type len (bytesOf ws))
      if len > 0 then novaFlushBuffer cfg entry len true

def logBlockTail : ℕ := 4064

def pageTail (p : ℕ) : ℕ := p / pageSize * pageSize + logBlockTail

/-- The page tail has the number of invalid entries and of entries in one word, then the epoch, the
page of the other log and the next page. -/
def alterPageOff : ℕ := 16

def alterLogEntry (curr : ℕ) : Code ℕ := do
  let alterPage ← load (pageTail curr + alterPageOff)
  return alterPage + curr % pageSize

/-- A copy of the entry to the other log. -/
def novaUpdateAlterEntry (cfg : Config) (entry : ℕ) : Code Unit := do
  if !cfg.metadataCsum then return ()
  let alterCurr ← alterLogEntry entry
  if alterCurr = 0 then return ()
  let w ← load entry
  match EntryType.ofByte (getBytes w 0 1) with
  | none => return ()
  | some type =>
    let ws ← loadWords entry (entryLen type (getBytes w 4 2) / 8)
    memcpyToPmemNocache cfg alterCurr ws

def novaIncPageInvalidEntries (cfg : Config) (curr : ℕ) : Code Unit := do
  let w ← load (pageTail curr)
  storeBytes (pageTail curr) 4 (getBytes w 0 4 + 1)
  novaFlushBuffer cfg (pageTail curr) 32 false

/-- A field of an entry and its new value. -/
structure Field where
  off : ℕ
  size : ℕ
  value : ℕ
deriving DecidableEq, Repr

def storeFields (entry : ℕ) : List Field → Code Unit
  | [] => return ()
  | fd :: fds => do
    storeBytes (entry + fd.off) fd.size fd.value
    storeFields entry fds

/-- What an entry is changed to in place. -/
inductive EntryUpdate
  | write (epochId transId time fileSize : ℕ)
  | dentry (epochId transId mtime nlink : ℕ) (change : ℤ)
  | setattr (attr mode uid gid atime ctime mtime epochId transId size : ℕ)
  | linkChange (epochId transId links ctime flags generation : ℕ)
deriving DecidableEq, Repr

def EntryUpdate.type : EntryUpdate → EntryType
  | .write .. => .fileWrite
  | .dentry .. => .dirLog
  | .setattr .. => .setAttr
  | .linkChange .. => .linkChange

/-- `links_count` is an unsigned short. -/
def linksCount (nlink : ℕ) (linkChange : ℤ) : ℕ :=
  if nlink % 2 ^ 16 = 0 ∧ linkChange = -1 then 0 else ((nlink + linkChange) % 2 ^ 16).toNat

/-- The stores of `nova_update_write_entry`, `nova_update_old_dentry`, `nova_update_setattr_entry`
and `nova_update_link_change_entry`, in their order. -/
def EntryUpdate.fields : EntryUpdate → List Field
  | .write epochId transId time fileSize =>
    [⟨40, 8, epochId⟩, ⟨48, 8, transId⟩, ⟨28, 4, time⟩, ⟨32, 8, fileSize⟩, ⟨2, 1, 0⟩]
  | .dentry epochId transId mtime nlink change =>
    [⟨32, 8, epochId⟩, ⟨40, 8, transId⟩, ⟨16, 8, 0⟩, ⟨3, 1, 1⟩, ⟨8, 4, mtime⟩,
      ⟨6, 2, linksCount nlink change⟩]
  | .setattr attr mode uid gid atime ctime mtime epochId transId size =>
    [⟨0, 1, EntryType.setAttr.toByte⟩, ⟨1, 1, attr⟩, ⟨2, 2, mode⟩, ⟨4, 4, uid⟩, ⟨8, 4, gid⟩,
      ⟨12, 4, atime⟩, ⟨20, 4, ctime⟩, ⟨16, 4, mtime⟩, ⟨32, 8, epochId⟩, ⟨40, 8, transId⟩,
      ⟨48, 1, 0⟩, ⟨24, 8, size⟩]
  | .linkChange epochId transId links ctime flags generation =>
    [⟨0, 1, EntryType.linkChange.toByte⟩, ⟨16, 8, epochId⟩, ⟨24, 8, transId⟩, ⟨1, 1, 0⟩,
      ⟨2, 2, links⟩, ⟨4, 4, ctime⟩, ⟨8, 4, flags⟩, ⟨12, 4, generation⟩]

def novaUpdateLogEntry (cfg : Config) (entry : ℕ) (u : EntryUpdate) : Code Unit := do
  storeFields entry u.fields
  if u.type = .dirLog then novaIncPageInvalidEntries cfg entry
  novaUpdateEntryCsum cfg entry

/-- With metadata checksums the other log takes the place of the journal. -/
def novaInplaceUpdateLogEntry (cfg : Config) (pair entry : ℕ) (u : EntryUpdate) : Code Bool := do
  if cfg.metadataCsum then
    novaUpdateLogEntry cfg entry u
    novaUpdateAlterEntry cfg entry
    return true
  else
    match ← novaCreateLogentryTransaction cfg pair entry (novaGetLogEntrySize u.type) with
    | none => return false
    | some journalTail =>
      novaUpdateLogEntry cfg entry u
      persistentBarrier
      novaCommitLiteTransaction cfg pair journalTail

def entryItems : ℕ → ℕ → List Item
  | _, 0 => []
  | entry, n + 1 => .field entry :: entryItems (entry + 8) n

theorem length_entryItems (entry n : ℕ) : (entryItems entry n).length = n := by
  induction n generalizing entry with
  | zero => rfl
  | succ n ih => simp [entryItems, ih]

theorem mem_entryItems {entry n : ℕ} {it : Item} :
    it ∈ entryItems entry n ↔ ∃ k < n, it = .field (entry + 8 * k) := by
  induction n generalizing entry with
  | zero => simp [entryItems]
  | succ n ih =>
    rw [entryItems, List.mem_cons, ih]
    constructor
    · rintro (rfl | ⟨k, hk, rfl⟩)
      · exact ⟨0, by omega, rfl⟩
      · exact ⟨k + 1, by omega, by congr 1; omega⟩
    · rintro ⟨k, hk, rfl⟩
      cases k with
      | zero => exact Or.inl rfl
      | succ k => exact Or.inr ⟨k, by omega, by congr 1; omega⟩

theorem mem_covered_entryItems {entry n a : ℕ} (h : entry % 8 = 0) :
    a ∈ covered (entryItems entry n) ↔ ∃ k < n, a = entry + 8 * k := by
  have hw : ∀ k, wordOf (entry + 8 * k) = entry + 8 * k := fun k => by unfold wordOf; omega
  rw [mem_covered]
  constructor
  · rintro ⟨it, hit, ha⟩
    obtain ⟨k, hk, rfl⟩ := mem_entryItems.mp hit
    exact ⟨k, hk, by simpa [Item.words, hw] using ha⟩
  · rintro ⟨k, hk, rfl⟩
    exact ⟨_, mem_entryItems.mpr ⟨k, hk, rfl⟩, by simp [Item.words, hw]⟩

theorem appendWords_eq (cfg : Config) (entry count temp : ℕ) :
    appendWords cfg entry count temp = appendItems cfg temp (entryItems entry count) := by
  induction count generalizing entry temp with
  | zero => rfl
  | succ n ih =>
    rw [appendWords, entryItems, appendItems]
    simp only [ih]
    rfl

theorem novaCreateLogentryTransaction_eq (cfg : Config) (pair entry size : ℕ) :
    novaCreateLogentryTransaction cfg pair entry size =
      createTransaction cfg pair (entryItems entry (size / 8)) := by
  unfold novaCreateLogentryTransaction createTransaction
  refine bind_congr fun start => ?_
  cases start with
  | none => rfl
  | some temp => simp only [appendWords_eq]

def setFields (entry : ℕ) (fds : List Field) (s : ℕ → ℕ) : ℕ → ℕ :=
  fds.foldl (fun s fd a => if a = wordOf (entry + fd.off) then
    setBytes (s a) ((entry + fd.off) % 8) fd.size fd.value else s a) s

theorem nowOf_storeFields (entry : ℕ) (fds : List Field) (m : Memory) :
    nowOf ((storeFields entry fds).after m) = setFields entry fds (nowOf m) := by
  induction fds generalizing m with
  | nil => rfl
  | cons fd fds ih =>
    rw [storeFields, Prog.after_bind, ih, setFields, setFields, List.foldl_cons]
    congr 1
    funext a
    rw [nowOf_storeBytes]
    split_ifs with h
    · rw [h]
    · rfl

theorem within_storeFields {R : ℕ → Prop} {entry : ℕ} {fds : List Field}
    (h : ∀ fd ∈ fds, R (wordOf (entry + fd.off))) : Prog.Within R (storeFields entry fds) := by
  induction fds with
  | nil => exact .pure R _
  | cons fd fds ih =>
    exact .bind (within_storeBytes (h fd (by simp))) fun _ =>
      ih fun fd' hfd => h fd' (by simp [hfd])

theorem dependsOn_storeFields {W : ℕ → Prop} {entry : ℕ} {fds : List Field}
    (h : ∀ fd ∈ fds, W (wordOf (entry + fd.off))) : Prog.DependsOn W (storeFields entry fds) := by
  induction fds with
  | nil => exact .pure W _
  | cons fd fds ih =>
    exact .bind (dependsOn_storeBytes (h fd (by simp))) fun _ =>
      ih fun fd' hfd => h fd' (by simp [hfd])

/-- Every field that an update stores to is inside the part of the entry that is journalled. -/
theorem EntryUpdate.off_lt (u : EntryUpdate) :
    ∀ fd ∈ u.fields, fd.off < novaGetLogEntrySize u.type := by
  cases u <;> simp [fields, type, novaGetLogEntrySize, novaDentryHeaderLen]

theorem novaGetLogEntrySize_bounds (type : EntryType) :
    novaGetLogEntrySize type % 8 = 0 ∧ novaGetLogEntrySize type ≤ cachelineSize := by
  cases type <;> decide

section InPlace

variable {cfg : Config} {j : Journal} {entry : ℕ} {u : EntryUpdate}

/-- Where an entry is in its page, which is not the journal's. -/
structure EntryPlaced (j : Journal) (entry : ℕ) (u : EntryUpdate) : Prop where
  aligned : entry % 8 = 0
  fits_page : entry % pageSize + novaGetLogEntrySize u.type ≤ logBlockTail
  clear : j.Clear (entry / pageSize * pageSize) pageSize

/-- The words of the entry that are journalled. -/
def InEntry (entry : ℕ) (u : EntryUpdate) (a : ℕ) : Prop :=
  a ∈ covered (entryItems entry (novaGetLogEntrySize u.type / 8))

theorem inEntry_iff (h : entry % 8 = 0) {a : ℕ} :
    InEntry entry u a ↔ a % 8 = 0 ∧ entry ≤ a ∧ a < entry + novaGetLogEntrySize u.type := by
  have hs := (novaGetLogEntrySize_bounds u.type).1
  rw [InEntry, mem_covered_entryItems h]
  constructor
  · rintro ⟨k, hk, rfl⟩
    omega
  · rintro ⟨h₁, h₂, h₃⟩
    exact ⟨(a - entry) / 8, by omega, by omega⟩

theorem EntryPlaced.not_own (h : EntryPlaced j entry u) {a : ℕ} (ha : InEntry entry u a) :
    ¬j.Own a := by
  obtain ⟨-, h₁, h₂⟩ := (inEntry_iff h.aligned).mp ha
  have hp := h.fits_page
  refine h.clear.not_own ?_ ?_ <;> unfold logBlockTail pageSize at * <;> omega

/-- The counter in the page tail is not journalled. -/
theorem EntryPlaced.pageTail_free (h : EntryPlaced j entry u) :
    ¬(InEntry entry u (pageTail entry) ∨ j.Own (pageTail entry)) := by
  have hp := h.fits_page
  rintro (ha | ha)
  · obtain ⟨-, h₁, h₂⟩ := (inEntry_iff h.aligned).mp ha
    unfold pageTail logBlockTail pageSize at *
    omega
  · refine h.clear.not_own ?_ ?_ ha <;> unfold pageTail logBlockTail pageSize <;> omega

theorem wordOf_pageTail (p : ℕ) : wordOf (pageTail p) = pageTail p := by
  unfold wordOf pageTail logBlockTail pageSize
  omega

theorem within_novaIncPageInvalidEntries {R : ℕ → Prop} (h : R (pageTail entry)) :
    Prog.Within R (novaIncPageInvalidEntries cfg entry) :=
  .bind (.load R _) fun _ => .bind (within_storeBytes (by rwa [wordOf_pageTail])) fun _ =>
    within_novaFlushBuffer R _ _ _ _

theorem novaUpdateLogEntry_eq (hcsum : cfg.metadataCsum = false) :
    novaUpdateLogEntry cfg entry u = (do
      storeFields entry u.fields
      (if u.type = .dirLog then novaIncPageInvalidEntries cfg entry else pure ())
      novaFlushBuffer cfg entry cachelineSize true) := by
  unfold novaUpdateLogEntry novaUpdateEntryCsum
  split_ifs <;> simp_all

theorem InEntry.of_field (h : entry % 8 = 0) {fd : Field} (hfd : fd ∈ u.fields) :
    InEntry entry u (wordOf (entry + fd.off)) := by
  have := u.off_lt fd hfd
  rw [inEntry_iff h]
  unfold wordOf
  omega

theorem novaUpdateLogEntry_respects (hcsum : cfg.metadataCsum = false) (h : EntryPlaced j entry u)
    (old : ℕ → ℕ) :
    Respects cfg j (InEntry entry u) old
      (nowOf ((novaUpdateLogEntry cfg entry u).after (restart old)))
      (entryItems entry (novaGetLogEntrySize u.type / 8)) (novaUpdateLogEntry cfg entry u) := by
  have hb := novaGetLogEntrySize_bounds u.type
  have hfield : ∀ it ∈ entryItems entry (novaGetLogEntrySize u.type / 8), ∃ a, it = .field a :=
    fun it hit => by
      obtain ⟨k, -, rfl⟩ := mem_entryItems.mp hit
      exact ⟨_, rfl⟩
  have hinc : ∀ {R : ℕ → Prop}, R (pageTail entry) →
      Prog.Within R
        (if u.type = .dirLog then novaIncPageInvalidEntries cfg entry else pure ()) := by
    intro R hR
    split_ifs
    · exact within_novaIncPageInvalidEntries hR
    · exact .pure R _
  apply Respects.of_dependsOn
  · refine ⟨?_, ?_, ?_, ?_, ?_⟩
    · rw [length_entryItems]
      unfold novaMaxJournalLength
      unfold cachelineSize at hb
      omega
    · exact fun it hit a ha => h.not_own (mem_covered.mpr ⟨it, hit, ha⟩)
    all_goals
      intro it hit
      obtain ⟨a, rfl⟩ := hfield it hit
      simp [Item.replica, Item.type, journalInode, journalEntry]
  · exact fun a ha => h.not_own ha
  · exact fun a ha => ha
  · intro it hit
    obtain ⟨a, rfl⟩ := hfield it hit
    simp [Item.replica]
  · intro it hit
    obtain ⟨a, rfl⟩ := hfield it hit
    trivial
  · rw [novaUpdateLogEntry_eq hcsum]
    exact .bind (within_storeFields fun fd hfd => Or.inl (InEntry.of_field h.aligned hfd)) fun _ =>
      .bind (hinc (Or.inr h.pageTail_free)) fun _ => within_novaFlushBuffer _ _ _ _ _
  · rw [novaUpdateLogEntry_eq hcsum]
    refine .bind (dependsOn_storeFields fun fd hfd => InEntry.of_field h.aligned hfd) fun _ =>
      .bind (.of_within (hinc (R := (· = pageTail entry)) rfl) ?_) fun _ =>
      dependsOn_novaFlushBuffer _ _ _ _ _
    rintro a ha rfl
    exact h.pageTail_free (Or.inl ha)
  · rw [novaUpdateLogEntry_eq hcsum]
    refine .bind_last fun _ => .bind_last fun _ => fun m a ha => ?_
    obtain ⟨-, h₁, h₂⟩ := (inEntry_iff h.aligned).mp ha
    exact ready_novaFlushBuffer (by decide) h₁ (by omega)

theorem nowOf_novaUpdateLogEntry (hcsum : cfg.metadataCsum = false) (h : EntryPlaced j entry u)
    (m : Memory) {a : ℕ} (ha : InEntry entry u a) :
    nowOf ((novaUpdateLogEntry cfg entry u).after m) a = setFields entry u.fields (nowOf m) a := by
  have hne : ¬a = pageTail entry := fun he => h.pageTail_free (Or.inl (he ▸ ha))
  have hinc : Prog.Within (· = pageTail entry) (novaIncPageInvalidEntries cfg entry) :=
    within_novaIncPageInvalidEntries rfl
  rw [novaUpdateLogEntry_eq hcsum, Prog.after_bind, Prog.after_bind, nowOf_novaFlushBuffer,
    ← nowOf_storeFields]
  split_ifs
  · exact hinc.now_after hne
  · rfl

theorem novaInplaceUpdateLogEntry_eq (hcsum : cfg.metadataCsum = false) (pair : ℕ) :
    novaInplaceUpdateLogEntry cfg pair entry u = transaction cfg pair
      (createTransaction cfg pair (entryItems entry (novaGetLogEntrySize u.type / 8)))
      (novaUpdateLogEntry cfg entry u) (pure ()) := by
  rw [transaction_pure, ← novaCreateLogentryTransaction_eq, novaInplaceUpdateLogEntry, hcsum]
  rfl

/-- A change of an entry in place is all or nothing. -/
theorem novaInplaceUpdateLogEntry_crashAtomic (hcsum : cfg.metadataCsum = false)
    (h : EntryPlaced j entry u) {i : ℕ} {m : Memory}
    (hm : Quiet j (InEntry entry u) (nowOf m) i m) :
    CrashAtomic cfg j (InEntry entry u) (nowOf m) (setFields entry u.fields (nowOf m))
      (novaInplaceUpdateLogEntry cfg j.pair entry u) m := by
  rw [novaInplaceUpdateLogEntry_eq hcsum]
  have hatomic := transaction_crashAtomic (novaUpdateLogEntry_respects hcsum h (nowOf m))
    (finishes_pure j (InEntry entry u) _) hm.idle
  simp only [not_false_eq_true, and_true] at hatomic
  exact hatomic.congr fun a ha => (nowOf_novaUpdateLogEntry hcsum h (restart (nowOf m)) ha).symm

end InPlace

theorem novaInplaceUpdateLogEntry_crashAtomic_sample :
    CrashAtomic ⟨true, false, true, true⟩ sampleJournal (InEntry 819200 (.write 1 2 3 4))
      (nowOf (sampleJournal.fresh fun _ => 7))
      (setFields 819200 (EntryUpdate.write 1 2 3 4).fields (nowOf (sampleJournal.fresh fun _ => 7)))
      (novaInplaceUpdateLogEntry ⟨true, false, true, true⟩ sampleJournal.pair 819200
        (.write 1 2 3 4))
      (sampleJournal.fresh fun _ => 7) :=
  have h : EntryPlaced sampleJournal 819200 (.write 1 2 3 4) :=
    ⟨by decide, by decide, by decide⟩
  novaInplaceUpdateLogEntry_crashAtomic rfl h (sampleJournal.quiet_fresh _ _)

end Squint.Nova
