import Squint.Nova.Primitives

/-! The lite journal, `journal.c`: for each processor a page of undo entries used as a ring, and a
pair of pointers into it. -/
namespace Squint.Nova
open Squint.Lib

def novaMaxJournalLength : ℕ := 128

def journalInode : ℕ := 1

def journalEntry : ℕ := 2

/-- `sizeof(struct nova_lite_journal_entry)`. -/
def entrySize : ℕ := 32

/-- The words of `struct nova_inode` whose addresses the journal takes. -/
def logTailOff : ℕ := 72
def alterLogTailOff : ℕ := 88
def deleteEpochIdOff : ℕ := 104

/-- `valid` is a byte of the first word. -/
def validOff : ℕ := 1

/-- `sizeof(struct nova_inode)` in words. -/
def inodeWords : ℕ := 15

/-- `ino` and `csum` of `struct nova_dentry`. -/
def dentryInoOff : ℕ := 16
def dentryCsumOff : ℕ := 12

def novaGetJournalPointers (cpu : ℕ) : ℕ := pageSize * 48 + cpu * cachelineSize

/-- The checksum over all of an entry but its last four bytes. -/
def entryCsum (cfg : Config) (w₀ w₁ w₂ w₃ : ℕ) : ℕ :=
  (novaCrc32c cfg (BitVec.allOnes 32)
    (leBytes 8 w₀ ++ leBytes 8 w₁ ++ leBytes 8 w₂ ++ leBytes 4 w₃)).toNat

def novaUpdateJournalEntryCsum (cfg : Config) (entry : ℕ) : Code Unit := do
  let w₀ ← load entry
  let w₁ ← load (entry + 8)
  let w₂ ← load (entry + 16)
  let w₃ ← load (entry + 24)
  storeBytes (entry + 28) 4 (entryCsum cfg w₀ w₁ w₂ w₃)

/-- `true` where the source returns 0. -/
def novaCheckEntryIntegrity (cfg : Config) (entry : ℕ) : Code Bool := do
  let w₀ ← load entry
  let w₁ ← load (entry + 8)
  let w₂ ← load (entry + 16)
  let w₃ ← load (entry + 24)
  return getBytes w₃ 4 4 == entryCsum cfg w₀ w₁ w₂ w₃

def nextLiteJournal (currP : ℕ) : ℕ :=
  if currP % pageSize + entrySize ≥ pageSize then currP - currP % pageSize else currP + entrySize

/-- The loop of `nova_check_journal_entries`. The ring has `novaMaxJournalLength` places, so a walk
that does not meet the tail in as many steps never does: `none`. -/
def novaCheckJournalEntries (cfg : Config) (pair : ℕ) : ℕ → ℕ → Code (Option Bool)
  | 0, temp => do
    let tail ← load (pair + 8)
    return if temp = tail then some true else none
  | fuel + 1, temp => do
    let tail ← load (pair + 8)
    if temp = tail then return some true
    let ok ← novaCheckEntryIntegrity cfg temp
    if ok then novaCheckJournalEntries cfg pair fuel (nextLiteJournal temp)
    else return some false

section Recovery

def novaUndoJournalInode (cfg : Config) (entry : ℕ) : Code Unit := do
  if cfg.metadataCsum then
    let pi ← load (entry + 8)
    let alterPi ← load (entry + 16)
    let ws ← loadWords alterPi inodeWords
    memcpyToPmemNocache cfg pi ws

def novaUndoJournalEntry (cfg : Config) (entry : ℕ) : Code Unit := do
  let addr ← load (entry + 8)
  let value ← load (entry + 16)
  store addr value
  novaFlushBuffer cfg addr cachelineSize false

def novaUndoLiteJournalEntry (cfg : Config) (entry : ℕ) : Code Unit := do
  let type ← load entry
  if type = journalInode then novaUndoJournalInode cfg entry
  else if type = journalEntry then novaUndoJournalEntry cfg entry

/-- The loop of `nova_recover_lite_journal`; `false` if it does not end. -/
def undoEntries (cfg : Config) (pair : ℕ) : ℕ → ℕ → Code Bool
  | 0, temp => do
    let tail ← load (pair + 8)
    return temp == tail
  | fuel + 1, temp => do
    let tail ← load (pair + 8)
    if temp = tail then return true
    novaUndoLiteJournalEntry cfg temp
    undoEntries cfg pair fuel (nextLiteJournal temp)

def novaRecoverLiteJournal (cfg : Config) (pair : ℕ) : Code Bool := do
  let head ← load pair
  let ended ← undoEntries cfg pair novaMaxJournalLength head
  if ended then
    let head ← load pair
    store (pair + 8) head
    novaFlushBuffer cfg pair cachelineSize true
  return ended

/-- What became of the journal of one processor. -/
inductive Recovered
  | clean
  | rolledBack
  | checksumFailure
  | hangs
deriving DecidableEq, Repr

/-- The body of the loop of `nova_lite_journal_soft_init`. -/
def recoverJournal (cfg : Config) (pair : ℕ) : Code Recovered := do
  let head ← load pair
  let tail ← load (pair + 8)
  if head = tail then return .clean
  match ← novaCheckJournalEntries cfg pair novaMaxJournalLength head with
  | none => return .hangs
  | some false => return .checksumFailure
  | some true => return if ← novaRecoverLiteJournal cfg pair then .rolledBack else .hangs

end Recovery

section Transactions

/-- An inode as the journal sees it: where it is, where its replica is, and whether it can be read
at all. -/
structure InodeRef where
  piAddr : ℕ
  alterPiAddr : ℕ
  readable : Bool
deriving DecidableEq, Repr

def novaAppendReplicaInodeJournal (cfg : Config) (currP : ℕ) (inode : InodeRef) : Code ℕ := do
  store currP journalInode
  storeBytes (currP + 24) 4 0
  store (currP + 8) inode.piAddr
  store (currP + 16) inode.alterPiAddr
  novaUpdateJournalEntryCsum cfg currP
  return nextLiteJournal currP

/-- The entry keeps the whole word that `field` is in. -/
def novaAppendEntryJournal (cfg : Config) (currP field : ℕ) : Code ℕ := do
  store currP journalEntry
  storeBytes (currP + 24) 4 0
  store (currP + 8) (wordOf field)
  let value ← load (wordOf field)
  store (currP + 16) value
  novaUpdateJournalEntryCsum cfg currP
  return nextLiteJournal currP

def novaJournalInodeTail (cfg : Config) (currP pi : ℕ) : Code ℕ := do
  let currP ← novaAppendEntryJournal cfg currP (pi + logTailOff)
  if cfg.metadataCsum then novaAppendEntryJournal cfg currP (pi + alterLogTailOff)
  else return currP

def novaAppendInodeJournal (cfg : Config) (currP : ℕ) (inode : InodeRef)
    (newInode invalidate isDir : Bool) : Code ℕ := do
  if cfg.metadataCsum then novaAppendReplicaInodeJournal cfg currP inode
  else if !inode.readable then return currP
  else if isDir then novaJournalInodeTail cfg currP inode.piAddr
  else if newInode then novaAppendEntryJournal cfg currP (inode.piAddr + validOff)
  else
    let currP ← novaJournalInodeTail cfg currP inode.piAddr
    if invalidate then
      let currP ← novaAppendEntryJournal cfg currP (inode.piAddr + validOff)
      novaAppendEntryJournal cfg currP (inode.piAddr + deleteEpochIdOff)
    else return currP

def novaAppendDentryJournal (cfg : Config) (currP dentry : ℕ) : Code ℕ := do
  let currP ← novaAppendEntryJournal cfg currP (dentry + dentryInoOff)
  novaAppendEntryJournal cfg currP (dentry + dentryCsumOff)

def novaFlushJournalInBatch (cfg : Config) (head tail : ℕ) : Code Unit := do
  if head < tail then novaFlushBuffer cfg head (tail - head) false
  else
    novaFlushBuffer cfg head (pageSize - head % pageSize) false
    novaFlushBuffer cfg (tail - tail % pageSize) (tail % pageSize) false
  persistentBarrier

/-- What all transactions begin with: a pair that is not empty is a bug (`none`). -/
def journalStart (pair : ℕ) : Code (Option ℕ) := do
  let head ← load pair
  let tail ← load (pair + 8)
  return if head = 0 ∨ head ≠ tail then none else some head

/-- What all of them end with: the entries are flushed, then they are made to count. -/
def journalPublish (cfg : Config) (pair temp : ℕ) : Code ℕ := do
  let head ← load pair
  novaFlushJournalInBatch cfg head temp
  store (pair + 8) temp
  novaFlushBuffer cfg pair cachelineSize true
  return temp

def novaCreateInodeTransaction (cfg : Config) (pair : ℕ) (inode dir : InodeRef)
    (newInode invalidate : Bool) : Code (Option ℕ) := do
  match ← journalStart pair with
  | none => return none
  | some temp =>
    let temp ← novaAppendInodeJournal cfg temp inode newInode invalidate false
    let temp ← novaAppendInodeJournal cfg temp dir newInode invalidate true
    some <$> journalPublish cfg pair temp

def novaCreateRenameTransaction (cfg : Config) (pair : ℕ) (oldInode oldDir : InodeRef)
    (newInode newDir : Option InodeRef) (fatherEntry : Option ℕ) (invalidateNewInode : Bool) :
    Code (Option ℕ) := do
  match ← journalStart pair with
  | none => return none
  | some temp =>
    let temp ← novaAppendInodeJournal cfg temp oldInode false false false
    let temp ← novaAppendInodeJournal cfg temp oldDir false false true
    let temp ← match newInode with
      | some inode => novaAppendInodeJournal cfg temp inode false invalidateNewInode false
      | none => pure temp
    let temp ← match newDir with
      | some dir => novaAppendInodeJournal cfg temp dir false false true
      | none => pure temp
    let temp ← match fatherEntry with
      | some dentry => novaAppendDentryJournal cfg temp dentry
      | none => pure temp
    some <$> journalPublish cfg pair temp

/-- The loop of `nova_create_logentry_transaction`: the words of the entry from `entry` on. -/
def appendWords (cfg : Config) (entry : ℕ) : ℕ → ℕ → Code ℕ
  | 0, temp => return temp
  | count + 1, temp => do
    let temp ← novaAppendEntryJournal cfg temp entry
    appendWords cfg (entry + 8) count temp

/-- `size` is what `nova_get_log_entry_size` says. -/
def novaCreateLogentryTransaction (cfg : Config) (pair entry size : ℕ) : Code (Option ℕ) := do
  match ← journalStart pair with
  | none => return none
  | some temp =>
    let temp ← appendWords cfg entry (size / 8) temp
    some <$> journalPublish cfg pair temp

/-- `false` is a bug. -/
def novaCommitLiteTransaction (cfg : Config) (pair tail : ℕ) : Code Bool := do
  let journalTail ← load (pair + 8)
  if journalTail ≠ tail then return false
  store pair tail
  novaFlushBuffer cfg pair cachelineSize true
  return true

end Transactions

end Squint.Nova
