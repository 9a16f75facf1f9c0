import Squint.Nova.LogEntries

/-! The transactions of `namei.c`: a new inode in a directory, a change of link count or the removal
of a name, and a rename. Each is a list of changes to single inodes and entries, made under one
transaction. -/
namespace Squint.Nova
open Squint.Lib

/-- `true` unless the journal is found in a state that is a bug. -/
def novaLiteTransactionForNewInode (cfg : Config) (pair : ℕ) (inode dir : InodeRef)
    (update : InodeUpdate) : Code Bool := do
  match ← novaCreateInodeTransaction cfg pair inode dir true false with
  | none => return false
  | some journalTail =>
    novaUpdateInode cfg dir update false
    storeBytes (inode.piAddr + validOff) 1 1
    novaUpdateInodeChecksum cfg inode.piAddr
    persistentBarrier
    let ok ← novaCommitLiteTransaction cfg pair journalTail
    if ok then
      novaUpdateAlterInode cfg inode
      novaUpdateAlterInode cfg dir
    return ok

def novaLiteTransactionForTimeAndLink (cfg : Config) (pair : ℕ) (inode dir : InodeRef)
    (update updateDir : InodeUpdate) (invalidate : Bool) (epochId : ℕ) : Code Bool := do
  match ← novaCreateInodeTransaction cfg pair inode dir false invalidate with
  | none => return false
  | some journalTail =>
    if invalidate then
      storeBytes (inode.piAddr + validOff) 1 0
      store (inode.piAddr + deleteEpochIdOff) epochId
    novaUpdateInode cfg inode update false
    novaUpdateInode cfg dir updateDir false
    persistentBarrier
    let ok ← novaCommitLiteTransaction cfg pair journalTail
    if ok then
      novaUpdateAlterInode cfg inode
      novaUpdateAlterInode cfg dir
    return ok

/-- What `nova_rename` has found out when it takes the lock of the journal. `newDir` is there if it
is not the old one, `fatherEntry` if a directory gets another parent. -/
structure Rename where
  oldInode : InodeRef
  oldDir : InodeRef
  newInode : Option InodeRef
  newDir : Option InodeRef
  fatherEntry : Option ℕ
  newDirIno : ℕ
  invalidateNewInode : Bool
  epochId : ℕ
  updateOld : InodeUpdate
  updateDirOld : InodeUpdate
  updateDirNew : InodeUpdate
  updateNew : InodeUpdate
deriving DecidableEq, Repr

/-- The stores of `nova_rename` between the creation of its transaction and the barrier. -/
def novaRenameUpdates (cfg : Config) (r : Rename) : Code Unit := do
  novaUpdateInode cfg r.oldInode r.updateOld false
  novaUpdateInode cfg r.oldDir r.updateDirOld false
  match r.newDir with
  | some newDir => novaUpdateInode cfg newDir r.updateDirNew false
  | none => pure ()
  match r.fatherEntry with
  | some fatherEntry =>
    store (fatherEntry + dentryInoOff) r.newDirIno
    novaUpdateEntryCsum cfg fatherEntry
    novaUpdateAlterEntry cfg fatherEntry
  | none => pure ()
  match r.newInode with
  | some newInode =>
    if r.invalidateNewInode then
      storeBytes (newInode.piAddr + validOff) 1 0
      store (newInode.piAddr + deleteEpochIdOff) r.epochId
    novaUpdateInode cfg newInode r.updateNew false
  | none => pure ()

/-- The last part of `nova_rename`, from the lock of the journal on. -/
def novaRename (cfg : Config) (pair : ℕ) (r : Rename) : Code Bool := do
  match ← novaCreateRenameTransaction cfg pair r.oldInode r.oldDir r.newInode r.newDir r.fatherEntry
      r.invalidateNewInode with
  | none => return false
  | some journalTail =>
    novaRenameUpdates cfg r
    persistentBarrier
    let ok ← novaCommitLiteTransaction cfg pair journalTail
    if ok then
      novaUpdateAlterInode cfg r.oldInode
      novaUpdateAlterInode cfg r.oldDir
      match r.newDir with
      | some newDir => novaUpdateAlterInode cfg newDir
      | none => pure ()
      match r.newInode with
      | some newInode => novaUpdateAlterInode cfg newInode
      | none => pure ()
    return ok

/-- A change to one inode or to one directory entry. -/
inductive Change
  | tail (inode : InodeRef) (update : InodeUpdate)
  | validate (inode : InodeRef)
  | invalidate (inode : InodeRef) (update : InodeUpdate) (epochId : ℕ)
  | father (entry ino : ℕ)
deriving DecidableEq, Repr

namespace Change

def code (cfg : Config) : Change → Code Unit
  | tail inode update => novaUpdateInode cfg inode update false
  | validate inode => do
    storeBytes (inode.piAddr + validOff) 1 1
    novaUpdateInodeChecksum cfg inode.piAddr
  | invalidate inode update epochId => do
    storeBytes (inode.piAddr + validOff) 1 0
    store (inode.piAddr + deleteEpochIdOff) epochId
    novaUpdateInode cfg inode update false
  | father entry ino => do
    store (entry + dentryInoOff) ino
    novaUpdateEntryCsum cfg entry
    novaUpdateAlterEntry cfg entry

def items (cfg : Config) : Change → List Item
  | tail inode _ =>
    if cfg.metadataCsum then [.inode inode.piAddr inode.alterPiAddr]
    else [.field (inode.piAddr + logTailOff)]
  | validate inode =>
    if cfg.metadataCsum then [.inode inode.piAddr inode.alterPiAddr]
    else [.field (inode.piAddr + validOff)]
  | invalidate inode _ _ =>
    if cfg.metadataCsum then [.inode inode.piAddr inode.alterPiAddr]
    else [.field (inode.piAddr + logTailOff), .field (inode.piAddr + validOff),
      .field (inode.piAddr + deleteEpochIdOff)]
  | father entry _ => [.field (entry + dentryInoOff), .field (entry + dentryCsumOff)]

def inode? : Change → Option InodeRef
  | tail inode _ | validate inode | invalidate inode _ _ => some inode
  | father _ _ => none

@[simp] theorem inode?_tail (n : InodeRef) (u : InodeUpdate) : (tail n u).inode? = some n := rfl
@[simp] theorem inode?_validate (n : InodeRef) : (validate n).inode? = some n := rfl
@[simp] theorem inode?_invalidate (n : InodeRef) (u : InodeUpdate) (e : ℕ) :
    (invalidate n u e).inode? = some n := rfl
@[simp] theorem inode?_father (d ino : ℕ) : (father d ino).inode? = none := rfl

end Change

def changesCode (cfg : Config) : List Change → Code Unit
  | [] => return ()
  | c :: cs => do
    c.code cfg
    changesCode cfg cs

section Forms

variable {cfg : Config}

/-- The items of an inode in `nova_append_inode_journal`. -/
def inodeItems (cfg : Config) (inode : InodeRef) (newInode invalidate isDir : Bool) : List Item :=
  if cfg.metadataCsum then [.inode inode.piAddr inode.alterPiAddr]
  else if isDir then [.field (inode.piAddr + logTailOff)]
  else if newInode then [.field (inode.piAddr + validOff)]
  else .field (inode.piAddr + logTailOff) ::
    if invalidate then [.field (inode.piAddr + validOff), .field (inode.piAddr + deleteEpochIdOff)]
    else []

end Forms

/-- The operations that end in such a transaction. -/
inductive NameOp
  | create (inode dir : InodeRef) (update : InodeUpdate)
  | link (inode dir : InodeRef) (update updateDir : InodeUpdate) (invalidate : Bool) (epochId : ℕ)
  | rename (r : Rename)
deriving DecidableEq, Repr

namespace NameOp

def code (cfg : Config) (pair : ℕ) : NameOp → Code Bool
  | create inode dir update => novaLiteTransactionForNewInode cfg pair inode dir update
  | link inode dir update updateDir invalidate epochId =>
    novaLiteTransactionForTimeAndLink cfg pair inode dir update updateDir invalidate epochId
  | rename r => novaRename cfg pair r

/-- The change of an inode that may lose its last name. -/
def unlinked (inode : InodeRef) (update : InodeUpdate) (invalidate : Bool) (epochId : ℕ) : Change :=
  if invalidate then .invalidate inode update epochId else .tail inode update

@[simp] theorem inode?_unlinked (n : InodeRef) (u : InodeUpdate) (b : Bool) (e : ℕ) :
    (unlinked n u b e).inode? = some n := by
  cases b <;> rfl

/-- In the order of the stores. -/
def changes : NameOp → List Change
  | create inode dir update => [.tail dir update, .validate inode]
  | link inode dir update updateDir invalidate epochId =>
    [unlinked inode update invalidate epochId, .tail dir updateDir]
  | rename r =>
    [.tail r.oldInode r.updateOld, .tail r.oldDir r.updateDirOld] ++
      (r.newDir.map fun n => .tail n r.updateDirNew).toList ++
      (r.fatherEntry.map fun d => .father d r.newDirIno).toList ++
      (r.newInode.map fun n => unlinked n r.updateNew r.invalidateNewInode r.epochId).toList

/-- In the order of the journal. -/
def items (cfg : Config) : NameOp → List Item
  | create inode dir _ =>
    inodeItems cfg inode true false false ++ inodeItems cfg dir true false true
  | link inode dir _ _ invalidate _ =>
    inodeItems cfg inode false invalidate false ++ inodeItems cfg dir false invalidate true
  | rename r =>
    inodeItems cfg r.oldInode false false false ++ inodeItems cfg r.oldDir false false true ++
      (r.newInode.map fun n => inodeItems cfg n false r.invalidateNewInode false).getD [] ++
      (r.newDir.map fun n => inodeItems cfg n false false true).getD [] ++
      (r.fatherEntry.map fun d =>
        [Item.field (d + dentryInoOff), Item.field (d + dentryCsumOff)]).getD []

/-- The inodes whose replicas are brought up to date, in this order. -/
def replicated : NameOp → List InodeRef
  | create inode dir _ => [inode, dir]
  | link inode dir _ _ _ _ => [inode, dir]
  | rename r => [r.oldInode, r.oldDir] ++ r.newDir.toList ++ r.newInode.toList

theorem items_perm (cfg : Config) (op : NameOp) :
    (op.items cfg).Perm (op.changes.flatMap (Change.items cfg)) := by
  cases op with
  | create inode dir update =>
    simp only [items, changes, List.flatMap_cons, List.flatMap_nil, List.append_nil]
    refine List.perm_append_comm.trans (List.Perm.of_eq ?_)
    cases hc : cfg.metadataCsum <;> simp [inodeItems, Change.items, hc]
  | link inode dir update updateDir invalidate epochId =>
    refine List.Perm.of_eq ?_
    cases hc : cfg.metadataCsum <;> cases invalidate <;>
      simp [items, changes, unlinked, inodeItems, Change.items, hc]
  | rename r =>
    have hnew : ∀ n, inodeItems cfg n false r.invalidateNewInode false =
        (unlinked n r.updateNew r.invalidateNewInode r.epochId).items cfg := by
      intro n
      cases hc : cfg.metadataCsum <;> cases hi : r.invalidateNewInode <;>
        simp [inodeItems, unlinked, Change.items, hc]
    have htail : ∀ (n : InodeRef) u, inodeItems cfg n false false true =
        (Change.tail n u).items cfg := fun n u => by
      cases hc : cfg.metadataCsum <;> simp [inodeItems, Change.items, hc]
    have hold : inodeItems cfg r.oldInode false false false =
        (Change.tail r.oldInode r.updateOld).items cfg := by
      cases hc : cfg.metadataCsum <;> simp [inodeItems, Change.items, hc]
    -- only the inode that is replaced comes at another place
    have hflat : (rename r).changes.flatMap (Change.items cfg) =
        (Change.tail r.oldInode r.updateOld).items cfg ++
          (Change.tail r.oldDir r.updateDirOld).items cfg ++
          (((r.newDir.map fun n => (Change.tail n r.updateDirNew).items cfg).getD [] ++
            (r.fatherEntry.map fun d => (Change.father d r.newDirIno).items cfg).getD []) ++
          (r.newInode.map fun n =>
            (unlinked n r.updateNew r.invalidateNewInode r.epochId).items cfg).getD []) := by
      cases hn : r.newInode <;> cases hd : r.newDir <;> cases hf : r.fatherEntry <;>
        simp [changes, hn, hd, hf]
    rw [hflat]
    simp only [items, hold, htail r.oldDir r.updateDirOld, hnew, fun n => htail n r.updateDirNew,
      List.append_assoc]
    refine List.Perm.append_left _ (List.Perm.append_left _ ?_)
    refine List.perm_append_comm.trans ?_
    rw [List.append_assoc]
    rfl

end NameOp

end Squint.Nova
