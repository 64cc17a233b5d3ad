import Oifs.ReadPath

namespace Oifs

namespace WriteCase

def rewritesFilterMetadata (c : WriteCase) : Bool := c = fullOverwrite || c = recompress

def freesPreviousBlocks (c : WriteCase) : Bool := c = fullOverwrite || c = recompress

end WriteCase

/-- `effective_filter`: the configuration of the call, or the one that the file keeps. -/
def effectiveFilter (inode : Inode) (config : FilterConfig) : FilterConfig :=
  if config.isActive then config else inode.filter

structure FullOverwritePayload where
  buffer : List UInt8
  isCompressed : Bool
  encryptionNonce : Option Nonce

namespace Session

variable (S : Session)

def mayAppendZstdFrame (inode : Inode) (offset : Nat) (config : FilterConfig) : Bool :=
  if inode.compressedSize = 0 ∨ offset ≠ inode.size ∨ inode.encrypted ∨ config.isActive ∨
      inode.filterTypesize ≠ 0 ∨ S.encryptionKey.isSome then false
  else inode.compressedSize ≤ inode.size + inode.size / 4 + 4096

def payloadIsTransformed (inode : Inode) (config : FilterConfig) : Bool :=
  0 < inode.compressedSize || inode.encrypted || S.encryptionKey.isSome || config.isActive ||
    0 < inode.filterTypesize

def compressPayload (working : List UInt8) (mode : CompressionMode) :
    Except DiskError (List UInt8 × Bool) :=
  match mode with
  | .always => do return (← S.codec.compressFrame working 0, true)
  | .stream level | .seekable _ level => do
    return (← S.codec.compressFrame working (if level ≤ 0 then 0 else level), true)
  | .never => return (working, false)
  | .auto =>
    if working.length ≥ 8192 then do
      let compressed ← S.codec.compressFrame working 0
      return if compressed.length < working.length then (compressed, true) else (working, false)
    else return (working, false)

def buildFullOverwriteBufferPure (data : List UInt8) (mode : CompressionMode) (config : FilterConfig)
    (nonce : Nonce) (aad : List UInt8) : Except DiskError FullOverwritePayload := do
  let (final, isCompressed) ← S.compressPayload (S.codec.applyFilters data config) mode
  match S.encryptionKey with
  | some key => return ⟨← S.codec.encryptData final key nonce aad, isCompressed, some nonce⟩
  | none => return ⟨final, isCompressed, none⟩

def isFullOverwrite (inode : Inode) (offset : Nat) (data : List UInt8) (config : FilterConfig) : Bool :=
  offset = 0 && (inode.size = 0 || data.length ≥ inode.size || S.payloadIsTransformed inode config)

/-- `plan_write_prepared`. `existing` is the decoded content of the file, where it was read. -/
def planWritePrepared (inode : Inode) (offset : Nat) (data : List UInt8) (mode : CompressionMode)
    (config : FilterConfig) (existing : Option (List UInt8)) (nonce : Nonce) (aad : List UInt8) :
    Except DiskError WritePlan :=
  let effective := effectiveFilter inode config
  if S.isFullOverwrite inode offset data config then do
    let payload ← S.buildFullOverwriteBufferPure data mode effective nonce aad
    return {
      case := .fullOverwrite
      physOff := 0
      buffer := payload.buffer
      newSize :=
        if payload.isCompressed then data.length
        else if payload.encryptionNonce.isSome || effective.isActive then payload.buffer.length
        else max inode.size payload.buffer.length
      newCompressedSize := if payload.isCompressed then payload.buffer.length else 0
      encryptionNonce := payload.encryptionNonce }
  else if S.payloadIsTransformed inode config then
    if S.mayAppendZstdFrame inode offset config then do
      let frame ← S.codec.compressFrame data 0
      return {
        case := .compressedAppend
        physOff := inode.compressedSize
        buffer := frame
        newSize := inode.size + data.length
        newCompressedSize := inode.compressedSize + frame.length
        encryptionNonce := none }
    else do
      let full ← match existing with
        | some existing => pure existing
        | none =>
          if inode.size = 0 then pure []
          else .error (.io "Missing existing decompressed payload for recompression plan")
      let full := copyFromSlice
        (if full.length < offset + data.length then resize full (offset + data.length) else full)
        offset data
      let payload ← S.buildFullOverwriteBufferPure full mode effective nonce aad
      return {
        case := .recompress
        physOff := 0
        buffer := payload.buffer
        newSize := if payload.isCompressed then full.length else payload.buffer.length
        newCompressedSize := if payload.isCompressed then payload.buffer.length else 0
        encryptionNonce := payload.encryptionNonce }
  else
    .ok {
      case := .raw
      physOff := offset
      buffer := data
      newSize := max inode.size (offset + data.length)
      newCompressedSize := 0
      encryptionNonce := none }

def readExisting (v : Volume) (id : Nat) (inode : Inode) (offset : Nat) (data : List UInt8)
    (config : FilterConfig) : Except DiskError (Option (List UInt8)) :=
  if !S.isFullOverwrite inode offset data config ∧ S.payloadIsTransformed inode config ∧
      0 < inode.size ∧ !S.mayAppendZstdFrame inode offset config then do
    return some (← S.readDataInternal v id inode)
  else .ok none

def planWrite (v : Volume) (id : Nat) (inode : Inode) (offset : Nat) (data : List UInt8)
    (mode : CompressionMode) (config : FilterConfig) (nonce : Nonce) : Except DiskError WritePlan := do
  let existing ← S.readExisting v id inode offset data config
  S.planWritePrepared inode offset data mode config existing nonce
    (fileAadForScheme id v.superblock.encryptionVersion)

end Session

namespace Volume

def leafBlocks (seekable : Bool) (val : Nat) : List Nat :=
  if val = 0 then []
  else if seekable then
    if ChunkEntry.isEmpty val then []
    else List.range' (ChunkEntry.startBlock val) (ChunkEntry.blockCount val)
  else [val]

def treeBlocks (v : Volume) (seekable : Bool) : Nat → Nat → Nat → List Nat
  | 0, _, val => leafBlocks seekable val
  | depth + 1, limit, blk =>
    if blk = 0 then []
    else
      blk :: (if blk < v.mapBlocks then
        (List.range limit).flatMap fun k =>
          v.treeBlocks seekable depth ptrsPerBlock (v.readBlockPtr blk k)
      else [])

def visitedCells (total covered perCell : Nat) : Nat :=
  if total > covered then min (divCeil (total - covered) perCell) ptrsPerBlock else ptrsPerBlock

def logicalEntries (inode : Inode) : Nat :=
  if inode.isSeekable then divCeil inode.size chunkSize64k else divCeil inode.physicalSize blockSize

def collectInodeBlocks (v : Volume) (inode : Inode) : List Nat :=
  let total := logicalEntries inode
  (List.range directBlocks).flatMap (fun i => leafBlocks inode.isSeekable (inode.slot i)) ++
    v.treeBlocks inode.isSeekable 1 ptrsPerBlock (inode.slot 10) ++
    v.treeBlocks inode.isSeekable 2 (visitedCells total singleEnd ptrsPerBlock) (inode.slot 11) ++
    v.treeBlocks inode.isSeekable 3 (visitedCells total doubleEnd (ptrsPerBlock * ptrsPerBlock))
      (inode.slot 12)

/-- The blocks are released one by one and the hint moves down to the lowest. -/
def freeBlocks (v : Volume) (blks : List Nat) : Volume :=
  let v := blks.foldl free v
  match blks.min? with
  | some low => if low < v.freeBlockHint then { v with freeBlockHint := low } else v
  | none => v

end Volume

namespace Session

variable (S : Session)

def releaseBlocks (inode : Inode) : DiskM Inode := do
  modify fun v => v.freeBlocks (v.collectInodeBlocks inode)
  return { inode with blocks := fun _ => 0, tripleIndirect := 0 }

def updateInode (plan : WritePlan) (effective : FilterConfig) (now : Nat) (inode : Inode) : Inode :=
  let filter := if plan.case.rewritesFilterMetadata then effective else inode.filter
  { inode with
    size := plan.newSize
    compressedSize := plan.newCompressedSize
    encrypted := plan.encryptionNonce.isSome || inode.encrypted
    encryptionNonce := plan.encryptionNonce.getD inode.encryptionNonce
    filterTypesize := filter.typesize
    filterDelta := filter.delta
    filterShuffle := filter.shuffle
    filterBitshuffle := filter.bitshuffle
    modifiedAt := now }

def storePlan (A : Ambient) (id : Nat) (inode : Inode) (plan : WritePlan) (effective : FilterConfig) :
    DiskM Unit := do
  let inode ← (if plan.case.freesPreviousBlocks then releaseBlocks inode else pure inode)
  let (_, inode) ← Volume.writeBufferAtOffset inode plan.physOff plan.buffer
  Volume.writeInodeInternal id (updateInode plan effective A.now inode)

/-- The first look at the inode: a chunked file, or a call for one, goes to the chunk pipeline. -/
def isSeekableWrite (v : Volume) (id : Nat) (mode : CompressionMode) : Except DiskError Bool := do
  return (← v.readInodeInternal id).isSeekable || mode.isSeekable

def inspectWrite (v : Volume) (id offset : Nat) (data : List UInt8) (config : FilterConfig) :
    Except DiskError (Inode × Option (List UInt8)) := do
  let inode ← v.readInodeInternal id
  requireFile inode "Cannot write data to non-file inode"
  return (inode, ← S.readExisting v id inode offset data config)

def canUsePrepared (inode initial : Inode) : Bool :=
  inode.size = initial.size && inode.compressedSize = initial.compressedSize &&
    inode.modifiedAt = initial.modifiedAt && inode.encrypted = initial.encrypted &&
    inode.blocks = initial.blocks

def commitWrite (A : Ambient) (id offset : Nat) (data : List UInt8) (mode : CompressionMode)
    (config : FilterConfig) (initial : Inode) (prepared : WritePlan) : DiskM Unit := do
  let v ← get
  let inode ← liftExcept (v.readInodeInternal id)
  liftExcept (requireFile inode "Cannot write data to non-file inode")
  let plan ← liftExcept (if canUsePrepared inode initial then .ok prepared
    else S.planWrite v id inode offset data mode config A.nonce)
  if v.superblock.hasJournalLayout then
    S.writeDataJournaled A.now id offset plan (effectiveFilter inode config)
  else storePlan A id inode plan (effectiveFilter inode config)

def writeDataWithFilters (A : Ambient) (id offset : Nat) (data : List UInt8)
    (mode : CompressionMode) (config : FilterConfig) : DiskM Unit := do
  let v ← get
  if ← liftExcept (isSeekableWrite v id mode) then
    S.writeChunked64kPipeline A id offset data mode.chunkLevel
  else
    let (initial, existing) ← liftExcept (S.inspectWrite v id offset data config)
    let plan ← liftExcept (S.planWritePrepared initial offset data mode config existing A.nonce
      (fileAadForScheme id v.superblock.encryptionVersion))
    S.commitWrite A id offset data mode config initial plan

end Session

end Oifs
