import Oifs.Chunk

namespace Oifs

structure ChunkAadContext where
  inodeId : Nat
  chunkIdx : Nat
  scheme : Nat

def nonceBytes (n : Nonce) : List UInt8 := List.ofFn n

def leadingNonce (bytes : List UInt8) : Nonce := fun k => bytes.getD k 0

namespace Session

def prepareChunkPayload (S : Session) (chunkBuf : List UInt8) (validLen : Nat) (zstdLevel : Int)
    (draw : Nat → Nat → Nonce) (ctx : ChunkAadContext) : Except DiskError PreparedChunkPayload := do
  let level := if zstdLevel ≤ 0 then 1 else zstdLevel
  let plain := chunkBuf.take validLen
  let compressed ← S.codec.compressFrame plain level
  let isCompressed := compressed.length < validLen ∧ compressed.length < 65536
  let aad (flag : Nat) := chunkAadForScheme ctx.inodeId ctx.chunkIdx (UInt8.ofNat flag) ctx.scheme
  let encrypt (key : EncryptionKey) (flag : Nat) (bytes : List UInt8) : Except DiskError (List UInt8) := do
    let enc ← S.codec.encryptData bytes key (draw ctx.chunkIdx flag) (aad flag)
    return nonceBytes (draw ctx.chunkIdx flag) ++ enc
  let make (payload : List UInt8) (flag compLen : Nat) : PreparedChunkPayload :=
    ⟨ctx.chunkIdx, payload, flag, compLen, divCeil payload.length blockSize⟩
  match S.encryptionKey with
  | some key =>
    -- an encrypted frame that is no shorter than the chunk is dropped for the raw bytes
    let small ← if isCompressed then do
        let payload ← encrypt key ChunkEntry.flagCompressed compressed
        pure (if payload.length < validLen ∧ payload.length ≤ 65535 then some payload else none)
      else pure none
    match small with
    | some payload => return make payload ChunkEntry.flagCompressed payload.length
    | none =>
      let payload ← encrypt key ChunkEntry.flagRaw plain
      return make payload ChunkEntry.flagRaw (min payload.length 65535)
  | none =>
    if isCompressed then return make compressed ChunkEntry.flagCompressed compressed.length
    else return make plain ChunkEntry.flagRaw (validLen % 2 ^ 16)

def chunkSlice (v : Volume) (entry : ChunkEntry) (copyLen : Nat) : Except DiskError (List UInt8) :=
  if entry.startBlock + divCeil copyLen blockSize ≤ v.mapBlocks then
    .ok (v.extentBytes entry.startBlock copyLen)
  else .error (.io s!"Chunk block {entry.startBlock} out of bounds")

def decryptChunk (S : Session) (v : Volume) (id idx flag : Nat) (bytes : List UInt8) :
    Except DiskError (List UInt8) :=
  if bytes.length < 40 then .error .decryptionFailed
  else
    match S.encryptionKey with
    | none => .error .passwordRequired
    | some key =>
      match S.codec.decryptData (bytes.drop 24) key (leadingNonce bytes)
          (chunkAadForScheme id idx (UInt8.ofNat flag) v.superblock.encryptionVersion) with
      | some plain => .ok plain
      | none => .error .decryptionFailed

def readSingleChunkDecompressed (S : Session) (v : Volume) (id : Nat) (inode : Inode) (idx validLen : Nat) :
    Except DiskError (List UInt8) := do
  let entry := v.resolveLogicalChunkEntry inode idx
  let total := entry.blockCount * blockSize
  if entry.isEmpty then return List.replicate validLen 0
  else if entry.flags = ChunkEntry.flagRaw then
    let needed := if inode.encrypted then validLen + 40 else validLen
    let raw ← chunkSlice v entry (min needed total)
    let plain ← if inode.encrypted then S.decryptChunk v id idx ChunkEntry.flagRaw raw else pure raw
    return resize plain validLen
  else if entry.flags = ChunkEntry.flagCompressed then
    let comp ← chunkSlice v entry (min entry.compressedLen total)
    let frame ← if inode.encrypted then S.decryptChunk v id idx ChunkEntry.flagCompressed comp
      else pure comp
    let result ← S.codec.decompressFrame frame chunkSize64k
    return resize result validLen
  else return List.replicate validLen 0

def chunkValidLen (size idx : Nat) : Nat := min (size - idx * chunkSize64k) chunkSize64k

def readChunked64kInternal (S : Session) (v : Volume) (id : Nat) (inode : Inode) :
    Except DiskError (List UInt8) := do
  let parts ← (List.range (divCeil inode.size chunkSize64k)).mapM fun idx =>
    S.readSingleChunkDecompressed v id inode idx (chunkValidLen inode.size idx)
  return parts.flatten

def readAtChunkedLoop (S : Session) (v : Volume) (id : Nat) (inode : Inode) (curr rest : Nat) :
    Except DiskError (List UInt8) :=
  if rest = 0 then .ok []
  else
    let idx := curr / chunkSize64k
    let inChunk := curr % chunkSize64k
    let validLen := chunkValidLen inode.size idx
    let toCopy := min rest (validLen - inChunk)
    if validLen - inChunk = 0 then .ok []
    else
      match S.readSingleChunkDecompressed v id inode idx validLen with
      | .error e => .error e
      | .ok chunk =>
        if _h : 0 < min (chunk.length - inChunk) toCopy then
          match readAtChunkedLoop S v id inode (curr + min (chunk.length - inChunk) toCopy)
              (rest - min (chunk.length - inChunk) toCopy) with
          | .error e => .error e
          | .ok tail => .ok ((chunk.drop inChunk).take (min (chunk.length - inChunk) toCopy) ++ tail)
        else .ok []
termination_by rest
decreasing_by
  change rest - min (chunk.length - inChunk) toCopy < rest
  omega

def readAtChunked64k (S : Session) (v : Volume) (id : Nat) (inode : Inode) (offset len : Nat) :
    Except DiskError (List UInt8) :=
  if offset ≥ inode.size ∨ len = 0 then .ok []
  else S.readAtChunkedLoop v id inode offset (min len (inode.size - offset))

/-- The new bytes of chunk `idx` under a write of `data` at `offset`. -/
def chunkBuffer (S : Session) (v : Volume) (id : Nat) (inode : Inode) (offset : Nat)
    (data : List UInt8) (idx : Nat) : Except DiskError (List UInt8) := do
  let start := idx * chunkSize64k
  let writeStart := max offset start
  let writeEnd := min (offset + data.length) (start + chunkSize64k)
  let slice := (data.take (writeEnd - offset)).drop (writeStart - offset)
  let validLen := chunkValidLen (max inode.size (offset + data.length)) idx
  if writeStart - start = 0 ∧ writeEnd - start ≥ validLen then
    return copyFromSlice (List.replicate validLen 0) 0 slice
  else
    let old ← if start < inode.size then
        S.readSingleChunkDecompressed v id inode idx (chunkValidLen inode.size idx)
      else pure []
    let buf := if old.length < validLen then resize old validLen else old
    return copyFromSlice buf (writeStart - start) slice

/-- Stage one of `write_chunked_64k_pipeline`. -/
structure ChunkPlan where
  initialInode : Inode
  /-- Index, new bytes and valid length of each chunk that the write touches. -/
  chunks : List (Nat × List UInt8 × Nat)

def touchedChunks (offset len : Nat) : List Nat :=
  List.range' (offset / chunkSize64k)
    ((offset + len - 1) / chunkSize64k + 1 - offset / chunkSize64k)

def planChunks (S : Session) (v : Volume) (id : Nat) (inode : Inode) (offset : Nat)
    (data : List UInt8) : Except DiskError (List (Nat × List UInt8 × Nat)) :=
  (touchedChunks offset data.length).mapM fun idx => do
    let buf ← S.chunkBuffer v id inode offset data idx
    return (idx, buf, chunkValidLen (max inode.size (offset + data.length)) idx)

def requireFile (inode : Inode) (text : String) : Except DiskError Unit :=
  if inode.mode ≠ .file then .error (.io text) else .ok ()

def planChunkedWrite (S : Session) (v : Volume) (id offset : Nat) (data : List UInt8) :
    Except DiskError ChunkPlan := do
  let inode ← v.readInodeInternal id
  requireFile inode "Cannot write chunked data to non-file inode"
  return ⟨inode, ← S.planChunks v id inode offset data⟩

def prepareChunks (S : Session) (scheme id : Nat) (level : Int) (A : Ambient)
    (chunks : List (Nat × List UInt8 × Nat)) : Except DiskError (List PreparedChunkPayload) :=
  chunks.mapM fun c => S.prepareChunkPayload c.2.1 c.2.2 level A.draw ⟨id, c.1, scheme⟩

/-- One round of the loop of `commit_prepared_chunked_write`, with the change of the stored size. -/
def commitChunk (inode : Inode) (delta : Int) (p : PreparedChunkPayload) : DiskM (Inode × Int) := do
  let start ← Volume.allocateContiguousBlocksInternal p.blocksNeeded
  modify (·.storePayload start p.blocksNeeded p.payload)
  let v ← get
  let old := v.resolveLogicalChunkEntry inode p.chunkIdx
  let oldBytes := if old.isEmpty then 0 else old.compressedLen
  let inode ← Volume.setLogicalChunkEntry inode p.chunkIdx
    (ChunkEntry.new start p.blocksNeeded p.flag p.compLen)
  if !old.isEmpty then
    Volume.freeContiguousBlocksInternal old.startBlock old.blockCount
  return (inode, delta + (p.compLen : Int) - (oldBytes : Int))

def commitChunks : Inode → Int → List PreparedChunkPayload → DiskM (Inode × Int)
  | inode, delta, [] => pure (inode, delta)
  | inode, delta, p :: ps => do
    let (inode, delta) ← commitChunk inode delta p
    commitChunks inode delta ps

def totalPhysicalBytes (v : Volume) (inode : Inode) (n : Nat) : Nat :=
  ((List.range n).map fun idx =>
    let e := v.resolveLogicalChunkEntry inode idx
    if e.isEmpty then 0 else e.compressedLen).sum

/-- `inode.flags |= INODE_FLAG_SEEKABLE_64K`, and the encryption marks. -/
def markSeekable (S : Session) (A : Ambient) (inode : Inode) : Inode :=
  let inode := if inode.isSeekable then inode else { inode with flags := inode.flags + 1 }
  if S.encryptionKey.isSome then
    { inode with
      encrypted := true
      encryptionNonce := if inode.encryptionNonce = fun _ => 0 then A.nonce else inode.encryptionNonce }
  else inode

def commitPreparedChunkedWrite (S : Session) (A : Ambient) (id newSize : Nat)
    (prepared : List PreparedChunkPayload) : DiskM Unit := do
  let v ← get
  if v.superblock.hasJournalLayout then S.commitChunksJournaled A.now A.nonce id newSize prepared
  else
    let old ← liftExcept (v.readInodeInternal id)
    let (inode, delta) ← commitChunks (S.markSeekable A old) 0 prepared
    let v ← get
    let total := if old.isSeekable then ((inode.compressedSize : Int) + delta).toNat
      else totalPhysicalBytes v inode (divCeil newSize chunkSize64k)
    Volume.writeInodeInternal id
      { inode with size := newSize, compressedSize := total, modifiedAt := A.now }

def writeChunked64kInternal (S : Session) (A : Ambient) (id offset : Nat) (data : List UInt8)
    (level : Int) : DiskM Unit := do
  let v ← get
  let inode ← liftExcept (v.readInodeInternal id)
  liftExcept (requireFile inode "Cannot write chunked data to non-file inode")
  if data.isEmpty then return
  else
    let chunks ← liftExcept (S.planChunks v id inode offset data)
    let prepared ← liftExcept (S.prepareChunks v.superblock.encryptionVersion id level A chunks)
    S.commitPreparedChunkedWrite A id (max inode.size (offset + data.length)) prepared

def canUsePreparedChunks (inode initial : Inode) : Bool :=
  inode.size = initial.size && inode.modifiedAt = initial.modifiedAt &&
    inode.blocks = initial.blocks && inode.tripleIndirect = initial.tripleIndirect

/-- Stage three: the prepared payloads, or all stages again under the lock. -/
def commitChunkedWrite (S : Session) (A : Ambient) (id offset : Nat) (data : List UInt8)
    (level : Int) (initial : Inode) (prepared : List PreparedChunkPayload) : DiskM Unit := do
  let v ← get
  let inode ← liftExcept (v.readInodeInternal id)
  liftExcept (requireFile inode "Cannot write chunked data to non-file inode")
  if canUsePreparedChunks inode initial then
    S.commitPreparedChunkedWrite A id (max inode.size (offset + data.length)) prepared
  else S.writeChunked64kInternal A id offset data level

/-- `write_chunked_64k_pipeline` with no other call in between. -/
def writeChunked64kPipeline (S : Session) (A : Ambient) (id offset : Nat) (data : List UInt8)
    (level : Int) : DiskM Unit := do
  if data.isEmpty then return
  else
    let v ← get
    let plan ← liftExcept (S.planChunkedWrite v id offset data)
    let prepared ← liftExcept (S.prepareChunks v.superblock.encryptionVersion id level A plan.chunks)
    S.commitChunkedWrite A id offset data level plan.initialInode prepared

end Session

end Oifs
