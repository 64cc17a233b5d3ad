import Oifs.AllocSim
import Oifs.JournaledTruncate
import Oifs.DirectoryOps

namespace Oifs

namespace Staging

variable (v : Volume) (s : Staging)

def totalPhysicalBytes (inode : Inode) (n : Nat) : Nat :=
  ((List.range n).map fun idx =>
    let e := s.resolveLogicalChunkEntry v inode idx
    if e.isEmpty then 0 else e.compressedLen).sum

end Staging

namespace Journal

variable (J : Journal)

/-- A transaction ends: commit, apply, and the hint of the simulation. -/
def finish (s : Staging) (more : List VolumeOp) : DiskM Unit := do
  J.commitAndApply (s.ops ++ more)
  modify ({ · with freeBlockHint := s.freeBlockHint })

def writeDataJournaled (now id fileOffset : Nat) (plan : WritePlan) (config : FilterConfig) :
    DiskM Unit := do
  let v ← get
  let old ← liftExcept (v.readInodeInternal id)
  let newPhysical := max plan.newCompressedSize plan.newSize
  let needed := divCeil newPhysical blockSize
  let mayFree := 0 < old.size ∧ (plan.case.freesPreviousBlocks ∨
    (fileOffset = 0 ∧ plan.physOff = 0 ∧ newPhysical < old.size))
  let oldBlocks := if mayFree then v.collectInodeBlocks old else []
  let s ← liftExcept (Staging.newDataOnly v)
  let (inode, s, used) ← stagePayloadWrite old plan.physOff plan.buffer s
  let v ← get
  let (inode, zeroed) := if fileOffset = 0 ∧ plan.physOff = 0 ∧
      needed < divCeil (max old.compressedSize old.size) blockSize then
    v.pruneStalePointers inode needed else (inode, [])
  let inode := Session.updateInode plan config now inode
  let image ← liftExcept (J.encodeInodeSlot v id inode)
  -- `used` lists the payload blocks only
  J.finish s (zeroed ++ (oldBlocks.filter (· ∉ used)).map (.setDataBitmap · false) ++
    [.writeInode id inode image])

def stageChunk (inode : Inode) (delta : Int) (s : Staging) (p : PreparedChunkPayload) :
    DiskM (Inode × Int × Staging) := do
  let v ← get
  let (start, s) ← liftExcept (s.takeExtent v p.blocksNeeded)
  modify (·.storePayload start p.blocksNeeded p.payload)
  let v ← get
  let old := s.resolveLogicalChunkEntry v inode p.chunkIdx
  let oldBytes := if old.isEmpty then 0 else old.compressedLen
  let (inode, s) ← liftExcept (s.setLogicalChunkEntry v inode p.chunkIdx
    (ChunkEntry.new start p.blocksNeeded p.flag p.compLen))
  let s := if old.isEmpty then s else s.dropExtent v old.startBlock old.blockCount
  return (inode, delta + (p.compLen : Int) - (oldBytes : Int), s)

def stageChunks : Inode → Int → Staging → List PreparedChunkPayload → DiskM (Inode × Int × Staging)
  | inode, delta, s, [] => pure (inode, delta, s)
  | inode, delta, s, p :: ps => do
    let (inode, delta, s) ← stageChunk inode delta s p
    stageChunks inode delta s ps

def commitChunksJournaled (S : Session) (now : Nat) (nonce : Nonce) (id newSize : Nat)
    (prepared : List PreparedChunkPayload) : DiskM Unit := do
  let v ← get
  let old ← liftExcept (v.readInodeInternal id)
  let s ← liftExcept (Staging.newDataOnly v)
  let (inode, delta, s) ← stageChunks (S.markSeekable ⟨now, nonce, fun _ _ => nonce⟩ old) 0 s prepared
  let v ← get
  let total := if old.isSeekable then ((inode.compressedSize : Int) + delta).toNat
    else s.totalPhysicalBytes v inode (divCeil newSize chunkSize64k)
  let inode := { inode with size := newSize, compressedSize := total, modifiedAt := now }
  let image ← liftExcept (J.encodeInodeSlot v id inode)
  J.finish s [.writeInode id inode image]
  J.maybeCheckpoint

def stageDrops (inode : Inode) (s : Staging) : List Nat → DiskM (Inode × Staging)
  | [] => return (inode, s)
  | idx :: idxs => do
    let v ← get
    let entry := s.resolveLogicalChunkEntry v inode idx
    if entry.isEmpty then stageDrops inode s idxs
    else
      let (inode, s) ← liftExcept ((s.dropExtent v entry.startBlock entry.blockCount).setLogicalChunkEntry
        v inode idx 0)
      stageDrops inode s idxs

def stageLastChunk (S : Session) (A : Ambient) (id : Nat) (inode : Inode) (s : Staging)
    (newSize : Nat) : DiskM (Inode × Staging) := do
  let idx := divCeil newSize chunkSize64k - 1
  let validLen := newSize - idx * chunkSize64k
  let v ← get
  let old := s.resolveLogicalChunkEntry v inode idx
  if validLen < chunkSize64k ∧ !old.isEmpty then
    let data ← liftExcept (S.readSingleChunkDecompressed v id inode idx validLen)
    let p ← liftExcept (S.prepareChunkPayload data validLen 1 A.draw
      ⟨id, idx, v.superblock.encryptionVersion⟩)
    let (start, s) ← liftExcept (s.takeExtent v p.blocksNeeded)
    modify (·.storePayload start p.blocksNeeded p.payload)
    let v ← get
    let (inode, s) ← liftExcept (s.setLogicalChunkEntry v inode idx
      (ChunkEntry.new start p.blocksNeeded p.flag p.compLen))
    return (inode, s.dropExtent v old.startBlock old.blockCount)
  else return (inode, s)

def truncateChunked64k (S : Session) (A : Ambient) (id newSize : Nat) : DiskM Unit := do
  let v ← get
  let inode ← liftExcept (v.readInodeInternal id)
  if inode.size = newSize then return
  else if newSize > inode.size then
    let inode := { inode with size := newSize, modifiedAt := A.now }
    let image ← liftExcept (J.encodeInodeSlot v id inode)
    J.commitAndApply [.writeInode id inode image]
    J.maybeCheckpoint
  else
    let newChunks := divCeil newSize chunkSize64k
    let oldChunks := divCeil inode.size chunkSize64k
    let s ← liftExcept (Staging.newDataOnly v)
    let (inode, s) ← stageDrops inode s (List.range' newChunks (oldChunks - newChunks))
    let (inode, s) ← (if newSize = 0 then pure ({ inode with
        blocks := fun _ => 0, tripleIndirect := 0, compressedSize := 0, size := 0
        modifiedAt := A.now }, s)
      else do
        let (inode, s) ← stageLastChunk S A id inode s newSize
        let v ← get
        pure ({ inode with
          compressedSize := s.totalPhysicalBytes v inode newChunks
          size := newSize, modifiedAt := A.now }, s))
    let v ← get
    let image ← liftExcept (J.encodeInodeSlot v id inode)
    J.finish s [.writeInode id inode image]
    J.maybeCheckpoint

/-- The journaled branch of `truncate_internal` for a file that is stored as a whole and transformed. -/
def truncateRebuild (S : Session) (A : Ambient) (id newSize : Nat) : DiskM Unit := do
  let v ← get
  let inode ← liftExcept (v.readInodeInternal id)
  let full ← liftExcept (S.readDataInternal v id inode)
  let mode := if 0 < inode.compressedSize then CompressionMode.always else .never
  let plan ← liftExcept (S.planWritePrepared inode 0 (resize full newSize) mode inode.filter none
    A.nonce (fileAadForScheme id v.superblock.encryptionVersion))
  J.writeDataJournaled A.now id 0 plan inode.filter

def findNextFreeBounded (bit : Nat → Bool) (len start limit : Nat) : Option Nat :=
  if limit = 0 then none
  else
    let start := min start limit
    match findFirstFreeFrom bit len start with
    | some k => if k < limit then some k else (findFirstFreeFrom bit len 0).filter (· < start)
    | none => (findFirstFreeFrom bit len 0).filter (· < start)

/-- The place of a new entry: a block of the directory with room, or one more block. -/
def stageEntry (v : Volume) (dir : Inode) (s : Staging) (entry : DirectoryEntry) :
    Except DiskError (Inode × Staging) :=
  match v.findRoom dir entry with
  | some b => .ok (dir, s.push (.writeBlockSlice b (findInsertOffsetInBlock (v.block b)) entry.bytes))
  | none => do
    let n := dirNumBlocks dir
    let (b, dir, s) ← s.getOrAllocBlock v dir n
    return ({ dir with size := (n + 1) * blockSize },
      s.push (.writeBlockSlice b 0 (entry.bytes ++ List.replicate (blockSize - entry.bytes.length) 0)))

def stageInode (v : Volume) (now : Nat) (fileType : FileType) (s : Staging) :
    Except DiskError (Inode × Staging) := do
  let inode := { Inode.new fileType with createdAt := now, modifiedAt := now }
  if fileType = .directory then
    let (b, s) ← s.takeBlock v
    return ({ inode.setSlot 0 b with size := blockSize }, s)
  else return (inode, s)

/-- The operations of `create_entry_journaled`. The source sets the simulation up only when it needs
a block. -/
def stageCreate (v : Volume) (now : Nat) (dir : Inode) (stored : String) (hash : Nat)
    (fileType : FileType) : Except DiskError (Nat × Inode × Inode × Staging) := do
  match findNextFreeBounded v.inodeBit bitmapBits v.freeInodeHint v.superblock.usableInodeCount with
  | none => throw .noSpace
  | some id =>
    let s ← Staging.newDataOnly v
    let (inode, s) ← stageInode v now fileType (s.push (.setInodeBitmap id true))
    let entry : DirectoryEntry := ⟨id, hash, stored⟩
    let (dir, s) ← stageEntry v dir s entry
    return (id, inode, { dir with modifiedAt := now }, s)

def createEntryJournaled (S : DirSession) (now parent : Nat) (name stored : String) (hash : Nat)
    (fileType : FileType) : MountM Nat := do
  checkFilename name
  checkFilename stored
  let dir ← S.checkNewEntry parent name fileType
  let v := (← get).volume
  let (id, inode, dir, s) ← onVolume (liftExcept (stageCreate v now dir stored hash fileType))
  let image ← onVolume (liftExcept (J.encodeInodeSlot v id inode))
  let dirImage ← onVolume (liftExcept (J.encodeInodeSlot v parent dir))
  onVolume (J.finish s [.writeInode id inode image, .writeInode parent dir dirImage])
  onVolume (modify ({ · with freeInodeHint := id + 1 }))
  modify (·.updateIndex parent fun ix =>
    { ix with
      plain := if S.encryptionKey.isSome then ix.plain.insert name id else ix.plain
      stored := ix.stored.insert stored id })
  onVolume J.maybeCheckpoint
  return id

def buildDirBlockImage (entries : List DirectoryEntry) : Except DiskError (List UInt8) :=
  match serializeAll entries (fun _ => 0) 0 with
  | (f, .ok _) => .ok ((List.range blockSize).map f)
  | (_, .error e) => .error e.toDisk

/-- The check of `delete_file_journaled`; it does not ask whether the directory has a first block. -/
def checkEmptyDir (v : Volume) (target : Inode) : Except DiskError Unit := do
  if target.mode = .directory then
    if !(← v.readDirEntriesFromBlock (target.slot 0)).isEmpty then
      throw (.io "Directory is not empty")

def deleteFileJournaled (S : DirSession) (now parent : Nat) (name matched : String)
    (target block : Nat) : MountM Unit := do
  let dir ← readVolume (·.readInodeInternal parent)
  if dir.mode ≠ .directory then throw (.io "Not a directory")
  else
    let (target, remaining) ← S.refindTarget parent dir name ⟨matched, target, block⟩
    let dirImage ← readVolume fun _ => buildDirBlockImage remaining
    let victim ← readVolume (·.readInodeInternal target.id)
    readVolume fun v => checkEmptyDir v victim
    let v := (← get).volume
    let blocks := v.collectInodeBlocks victim
    let dir := { dir with modifiedAt := now }
    let image ← readVolume fun v => J.encodeInodeSlot v parent dir
    onVolume (J.commitAndApply (.writeBlockSlice target.block 0 dirImage ::
      (blocks.map (.setDataBitmap · false) ++
        [.setInodeBitmap target.id false, .writeInode parent dir image])))
    onVolume (modify fun v =>
      let v := match blocks.min? with
        | some low => if low < v.freeBlockHint then { v with freeBlockHint := low } else v
        | none => v
      if target.id < v.freeInodeHint then { v with freeInodeHint := target.id } else v)
    modify fun m => (m.updateIndex parent fun ix =>
      { ix with plain := ix.plain.remove name, stored := ix.stored.remove target.name }).setIndex
        target.id none
    onVolume J.maybeCheckpoint

def session (S : DirSession) : DirSession :=
  let plain : Session := { S.toSession with
    writeDataJournaled := J.writeDataJournaled
    commitChunksJournaled := J.commitChunksJournaled S.toSession
    truncateJournaled := J.truncateInternal (J.truncateChunked64k S.toSession)
      (J.truncateRebuild S.toSession) }
  { S with
    toSession := plain
    createEntryJournaled := J.createEntryJournaled S
    deleteFileJournaled := J.deleteFileJournaled S }

end Journal

end Oifs
