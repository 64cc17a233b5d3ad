import Oifs.Directory
import Oifs.Truncate
import Mathlib.Data.List.DropRight

namespace Oifs

/-- The part of a hash map from names that the code uses; the order of the list is its order of
iteration. -/
abbrev NameMap := List (String × Nat)

namespace NameMap

def get? (m : NameMap) (name : String) : Option Nat := (m.find? (·.1 = name)).map Prod.snd

def remove (m : NameMap) (name : String) : NameMap := m.filter (·.1 ≠ name)

def insert (m : NameMap) (name : String) (id : Nat) : NameMap := (name, id) :: m.remove name

def orInsert (m : NameMap) (name : String) (id : Nat) : NameMap :=
  if (m.get? name).isSome then m else m.insert name id

end NameMap

structure DirIndex where
  complete : Bool := false
  coldScans : Nat := 0
  stored : NameMap := []
  plain : NameMap := []

def dirIndexBuildAfterScans : Nat := 8

structure Mounted where
  volume : Volume
  dirCache : Nat → Option DirIndex

abbrev MountM := EStateM DiskError Mounted

namespace Mounted

def setIndex (m : Mounted) (id : Nat) (ix : Option DirIndex) : Mounted :=
  { m with dirCache := Function.update m.dirCache id ix }

def updateIndex (m : Mounted) (id : Nat) (f : DirIndex → DirIndex) : Mounted :=
  m.setIndex id ((m.dirCache id).map f)

end Mounted

def onVolume {α : Type} (x : DiskM α) : MountM α := fun m =>
  match x m.volume with
  | .ok a v => .ok a { m with volume := v }
  | .error e v => .error e { m with volume := v }

def readVolume {α : Type} (f : Volume → Except DiskError α) : MountM α := fun m =>
  match f m.volume with
  | .ok a => .ok a m
  | .error e => .error e m

/-- What the directory operations work with besides the image: name ciphers and the journaled calls.
-/
structure DirSession extends Session where
  encryptFilename : EncryptionKey → Nat → String → Option String
  decryptFilename : EncryptionKey → Nat → String → Option String
  createEntryJournaled : Nat → Nat → String → String → Nat → FileType → MountM Nat
  deleteFileJournaled : Nat → Nat → String → String → Nat → Nat → MountM Unit

def DirectoryError.toDisk (e : DirectoryError) : DiskError := .io e.display

def checkFilename (name : String) : MountM Unit :=
  match validateFilename name with
  | .ok () => return ()
  | .error e => throw e.toDisk

namespace Volume

/-- `read_dir_entries_from_block`; a block outside the mapping has none. -/
def readDirEntriesFromBlock (v : Volume) (b : Nat) : Except DiskError (List DirectoryEntry) :=
  if b < v.mapBlocks then
    match collectItems (directoryItems (v.block b)) with
    | .ok entries => .ok entries
    | .error e => .error e.toDisk
  else .ok []

/-- The blocks of a directory, in the order of the scans; holes are skipped. -/
def dirBlocks (v : Volume) (inode : Inode) : List Nat :=
  ((List.range (dirNumBlocks inode)).map (v.resolveLogicalBlockId inode)).filter (· ≠ 0)

def locateEntryInDir (v : Volume) (inode : Inode) (name : String) (hash : Nat) : Option (Nat × Nat) :=
  (v.dirBlocks inode).findSome? fun b =>
    if b < v.mapBlocks then (findEntryInBlockWithHash (v.block b) name hash).map fun id => (id, b)
    else none

def readDirEntries (v : Volume) : List Nat → Except DiskError (List DirectoryEntry)
  | [] => .ok []
  | b :: bs => do
    let entries ← v.readDirEntriesFromBlock b
    return entries ++ (← readDirEntries v bs)

def buildDirIndex (v : Volume) (inode : Inode) : Except DiskError NameMap := do
  return (← v.readDirEntries (v.dirBlocks inode)).foldl (fun m e => m.orInsert e.name e.inode) []

def appendDirEntryToBlock (b : Nat) (entry : DirectoryEntry) : DiskM Unit := do
  let v ← get
  let off := findInsertOffsetInBlock (v.block b)
  if v.mapBlocks ≤ b then throw (.io "Directory block not found")
  else if off + 20 + (nameBytes entry.name).length > blockSize then
    throw (.io "Directory block is full")
  else
    let (f, r) := serializeInto entry (v.block b) off
    set (v.setBlock b f)
    match r with
    | .ok _ => return ()
    | .error e => throw e.toDisk

def rewriteDirEntriesInBlock (b : Nat) (entries : List DirectoryEntry) : DiskM Unit := do
  let v ← get
  if v.mapBlocks ≤ b then throw (.io "Directory block not found")
  else
    let (f, r) := serializeAll entries (fun _ => 0) 0
    set (v.setBlock b f)
    match r with
    | .ok _ => return ()
    | .error e => throw e.toDisk

def probeOrder (n : Nat) : List Nat := if n = 0 then [] else (n - 1) :: List.range (n - 1)

def findRoom (v : Volume) (inode : Inode) (entry : DirectoryEntry) : Option Nat :=
  ((probeOrder (dirNumBlocks inode)).map (v.resolveLogicalBlockId inode)).find? fun b =>
    b ≠ 0 ∧ b < v.mapBlocks ∧
      findInsertOffsetInBlock (v.block b) + (20 + (nameBytes entry.name).length) ≤ blockSize

def appendDirEntryToDir (parent : Inode) (entry : DirectoryEntry) : DiskM Inode := do
  let v ← get
  match v.findRoom parent entry with
  | some b => do
    appendDirEntryToBlock b entry
    return parent
  | none => do
    let n := dirNumBlocks parent
    let (b, parent) ← getOrAllocBlock parent n true
    modify (·.setBlock b fun _ => 0)
    appendDirEntryToBlock b entry
    return { parent with size := (n + 1) * blockSize }

/-- The inode allocator of `create_entry_internal`. An id behind the table is released again. -/
def allocateInode : DiskM Nat := fun v =>
  match findNextFreeWrapped v.inodeBit bitmapBits v.freeInodeHint with
  | none => .error .noSpace v
  | some id =>
    if id ≥ v.superblock.usableInodeCount then .error .noSpace v
    else .ok id { v with inodeBit := Function.update v.inodeBit id true, freeInodeHint := id + 1 }

def newInode (now : Nat) (fileType : FileType) : DiskM Inode := do
  let inode := { Inode.new fileType with createdAt := now, modifiedAt := now }
  if fileType = .directory then
    let b ← allocAndZeroBlock
    return { inode.setSlot 0 b with size := blockSize }
  else return inode

end Volume

/-- The entry that a deletion is about: its stored name, its inode and its block. -/
structure DeleteTarget where
  name : String
  id : Nat
  block : Nat

namespace DirSession

variable (S : DirSession)

/-- The name that an entry is stored under; a name that cannot be encrypted stays as it is. -/
def storedName (parent : Nat) (name : String) : String :=
  match S.encryptionKey with
  | some key => (S.encryptFilename key parent name).getD name
  | none => name

def lookupCandidates (parent : Nat) (name : String) : List String :=
  if S.encryptionKey.isSome then [S.storedName parent name, name] else [name]

def deleteCandidates (parent : Nat) (name : String) : List String :=
  (S.encryptionKey.bind fun key => S.encryptFilename key parent name).toList ++ [name]

def fastLookup (ix : DirIndex) (name : String) : Option (Option Nat) :=
  match (if S.encryptionKey.isSome then ix.plain else ix.stored).get? name with
  | some id => some (some id)
  | none => if ix.complete && S.encryptionKey.isNone then some none else none

def rememberName (ix : DirIndex) (name : String) (found : Option Nat) : DirIndex :=
  match found with
  | none => ix
  | some id =>
    if S.encryptionKey.isSome then { ix with plain := ix.plain.insert name id }
    else { ix with stored := ix.stored.insert name id }

/-- The scan of the directory, and the full index after a miss or after many scans. -/
def scanLookup (parent : Nat) (dir : Inode) (ix : DirIndex) (name : String) : MountM (Option Nat) := do
  let v := (← get).volume
  let found := (S.lookupCandidates parent name).findSome? fun c =>
    (v.locateEntryInDir dir c (hashFilename c)).map Prod.fst
  let ix := { ix with coldScans := min (ix.coldScans + 1) (2 ^ 32 - 1) }
  modify (·.setIndex parent (some ix))
  let ix ← (if found.isNone ∨ ix.coldScans ≥ dirIndexBuildAfterScans then do
      let stored ← readVolume (·.buildDirIndex dir)
      pure { ix with stored := stored, complete := true }
    else pure ix)
  modify (·.setIndex parent (some (S.rememberName ix name found)))
  return found

def dirLookup (parent : Nat) (name : String) : MountM (Option Nat) := do
  let m ← get
  match (m.dirCache parent).bind (S.fastLookup · name) with
  | some found => return found
  | none => do
    let dir ← readVolume (·.readInodeInternal parent)
    if dir.mode ≠ .directory then throw (.io "Not dir")
    else
      let ix := (m.dirCache parent).getD {}
      if ix.complete then
        let found := (S.lookupCandidates parent name).findSome? ix.stored.get?
        modify (·.setIndex parent (some (S.rememberName ix name found)))
        return found
      else S.scanLookup parent dir ix name

def existsText (fileType : FileType) (name : String) : String :=
  match fileType with
  | .directory => s!"Directory '{name}' already exists"
  | .file => s!"File '{name}' already exists"

def checkNewEntry (parent : Nat) (name : String) (fileType : FileType) : MountM Inode := do
  let dir ← readVolume (·.readInodeInternal parent)
  if dir.mode ≠ .directory then throw (.io "Not dir")
  else if (← S.dirLookup parent name).isSome then throw (.alreadyExists (existsText fileType name))
  else return dir

/-- Stage one of `create_entry_internal`, under the shared lock: the name to store. -/
def prepareEntry (parent : Nat) (name : String) (fileType : FileType) : MountM String := do
  let _ ← S.checkNewEntry parent name fileType
  return S.storedName parent name

def commitEntry (now parent : Nat) (name stored : String) (fileType : FileType) : MountM Nat := do
  if (← get).volume.superblock.hasJournalLayout then
    S.createEntryJournaled now parent name stored (hashFilename stored) fileType
  else
    let dir ← S.checkNewEntry parent name fileType
    let id ← onVolume Volume.allocateInode
    let inode ← onVolume (Volume.newInode now fileType)
    onVolume (Volume.writeInodeInternal id inode)
    let dir ← onVolume (Volume.appendDirEntryToDir dir ⟨id, hashFilename stored, stored⟩)
    onVolume (Volume.writeInodeInternal parent { dir with modifiedAt := now })
    modify (·.updateIndex parent fun ix =>
      { ix with
        plain := if S.encryptionKey.isSome then ix.plain.insert name id else ix.plain
        stored := ix.stored.insert stored id })
    return id

/-- `create_entry_internal` with no other call in between. -/
def createEntryInternal (now parent : Nat) (name : String) (fileType : FileType) : MountM Nat := do
  checkFilename name
  let stored ← S.prepareEntry parent name fileType
  S.commitEntry now parent name stored fileType

def createFile (now parent : Nat) (name : String) : MountM Nat :=
  S.createEntryInternal now parent name .file

def createDirectory (now parent : Nat) (name : String) : MountM Nat :=
  S.createEntryInternal now parent name .directory

def lookup (parent : Nat) (name : String) : MountM Nat := do
  checkFilename name
  match ← S.dirLookup parent name with
  | some id => return id
  | none => throw (.io "Not found")

def cachedEntries (ix : DirIndex) : Option (List DirectoryEntry) :=
  let toEntries (m : NameMap) := m.map fun (name, id) => (⟨id, hashFilename name, name⟩ : DirectoryEntry)
  if !ix.complete then none
  else if S.encryptionKey.isNone then some (toEntries ix.stored)
  else if ix.plain.length = ix.stored.length then some (toEntries ix.plain)
  else none

def plainEntry (dir : Nat) (e : DirectoryEntry) : DirectoryEntry :=
  match S.encryptionKey.bind fun key => S.decryptFilename key dir e.name with
  | some name => if validateFilename name = .ok () then { e with name := name } else e
  | none => e

def mapOf (entries : List DirectoryEntry) : NameMap :=
  entries.foldl (fun m e => m.insert e.name e.inode) []

def listDir (id : Nat) : MountM (List DirectoryEntry) := do
  let dir ← readVolume (·.readInodeInternal id)
  let m ← get
  if dir.mode ≠ .directory then throw (.io "Not a directory")
  else
    match (m.dirCache id).bind S.cachedEntries with
    | some entries => return entries
    | none => do
      let raw ← readVolume fun v => v.readDirEntries (v.dirBlocks dir)
      let entries := raw.map (S.plainEntry id)
      let ix := (m.dirCache id).getD {}
      modify (·.setIndex id (some { ix with
        stored := mapOf raw
        plain := if S.encryptionKey.isSome then mapOf entries else ix.plain
        complete := true }))
      return entries

def locateTarget (v : Volume) (parent : Nat) (dir : Inode) (name : String) :
    Except DiskError DeleteTarget :=
  match (S.deleteCandidates parent name).findSome? fun c =>
      (v.locateEntryInDir dir c (hashFilename c)).map fun (id, b) => (⟨c, id, b⟩ : DeleteTarget) with
  | some target => .ok target
  | none => .error (.io "File not found")

/-- Stage one of `delete_file`, under the shared lock. -/
def findTarget (parent : Nat) (name : String) : MountM DeleteTarget := do
  let dir ← readVolume (·.readInodeInternal parent)
  if dir.mode ≠ .directory then throw (.io "Not a directory")
  else readVolume fun v => S.locateTarget v parent dir name

/-- The target under the exclusive lock, with the entries its block keeps: that of stage one if
still there, or else the present one. -/
def refindTarget (parent : Nat) (dir : Inode) (name : String) (target : DeleteTarget) :
    MountM (DeleteTarget × List DirectoryEntry) := do
  let raw ← readVolume (·.readDirEntriesFromBlock target.block)
  if raw.any (·.name = target.name) then return (target, raw.filter (·.name ≠ target.name))
  else
    let target ← readVolume fun v => S.locateTarget v parent dir name
    let raw ← readVolume (·.readDirEntriesFromBlock target.block)
    return (target, raw.filter (·.name ≠ target.name))

def checkEmptyDir (v : Volume) (target : Inode) : Except DiskError Unit := do
  if target.mode = .directory ∧ target.slot 0 ≠ 0 then
    if !(← v.readDirEntriesFromBlock (target.slot 0)).isEmpty then
      throw (.io "Directory is not empty")

def releaseInode (id : Nat) (inode : Inode) (v : Volume) : Volume :=
  let v := v.freeBlocks (v.collectInodeBlocks inode)
  let v := { v with inodeBit := Function.update v.inodeBit id false }
  if id < v.freeInodeHint then { v with freeInodeHint := id } else v

def commitDelete (now parent : Nat) (name : String) (target : DeleteTarget) : MountM Unit := do
  if (← get).volume.superblock.hasJournalLayout then
    S.deleteFileJournaled now parent name target.name target.id target.block
  else
    let dir ← readVolume (·.readInodeInternal parent)
    if dir.mode ≠ .directory then throw (.io "Not a directory")
    else
      let (target, remaining) ← S.refindTarget parent dir name target
      let victim ← readVolume (·.readInodeInternal target.id)
      readVolume fun v => checkEmptyDir v victim
      onVolume (Volume.rewriteDirEntriesInBlock target.block remaining)
      modify fun m => (m.updateIndex parent fun ix =>
        { ix with plain := ix.plain.remove name, stored := ix.stored.remove target.name }).setIndex
          target.id none
      let victim ← readVolume (·.readInodeInternal target.id)
      onVolume (modify (releaseInode target.id victim))
      onVolume (Volume.writeInodeInternal parent { dir with modifiedAt := now })

/-- `delete_file` with no other call in between. -/
def deleteFile (now parent : Nat) (name : String) : MountM Unit := do
  checkFilename name
  let target ← S.findTarget parent name
  S.commitDelete now parent name target

def pathParts (path : String) : List String :=
  (path.toList.splitOn '/').map String.ofList |>.filter fun s => s ≠ "" ∧ s ≠ "."

def resolvePathIter (curr : Nat) : List String → MountM Nat
  | [] => return curr
  | part :: parts => do
    if part = ".." then throw (.io "Path traversal '..' is not supported in OIFS paths")
    else
      checkFilename part
      match ← S.dirLookup curr part with
      | some id => resolvePathIter id parts
      | none => throw (.io "Not found")

def resolvePath (path : String) : MountM Nat := do
  S.resolvePathIter (← get).volume.superblock.rootInode (pathParts path)

/-- `str::rsplit_once`: what stands before and after the last separator. -/
def rsplitOnce (sep : Char) (s : List Char) : Option (List Char × List Char) :=
  if sep ∈ s then some ((s.rdropWhile (· ≠ sep)).dropLast, s.rtakeWhile (· ≠ sep)) else none

/-- `resolve_parent`: the part behind the last slash, unless it is empty or a dot. -/
def resolveParent (path : String) : MountM (Nat × String) := do
  let root := (← get).volume.superblock.rootInode
  let trimmed := path.toList.rdropWhile (· = '/')
  let (parentStr, last) := (rsplitOnce '/' trimmed).getD ([], trimmed)
  let name := String.ofList last
  if name ≠ "" ∧ name ≠ "." then
    checkFilename name
    let parent ← S.resolvePathIter root (pathParts (String.ofList parentStr))
    return (parent, name)
  else
    let parts := pathParts path
    match parts.getLast? with
    | none => throw (.io "Empty")
    | some name => do
      checkFilename name
      let parent ← S.resolvePathIter root parts.dropLast
      return (parent, name)

end DirSession

def plainDirSession : DirSession where
  toSession := clearSession none
  encryptFilename _ _ _ := none
  decryptFilename _ _ _ := none
  createEntryJournaled _ _ _ _ _ _ := throw .noSpace
  deleteFileJournaled _ _ _ _ _ _ := throw .noSpace

end Oifs
