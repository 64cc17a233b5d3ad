import Oifs.ReadExtents

namespace Oifs

/-! The calls. -/

namespace Session

def gatherPayload (E : IoEngine) (v : Volume) (inode : Inode) (physicalSize : Nat) :
    Except DiskError (List UInt8) :=
  if E.isDirect then .ok (v.rawData inode physicalSize)
  else
    let extents := v.walkPayloadBlocks
      (fun l blk off len => if blk < v.mapBlocks then ExtentList.push l (blk * blockSize) off len else l)
      inode physicalSize []
    match E.readOne v (List.replicate physicalSize 0) extents with
    | (.error e, _) => .error e
    | (.ok (), raw) => .ok raw

def readDataInternalWith (S : Session) (E : IoEngine) (v : Volume) (id : Nat) (inode : Inode) :
    Except DiskError (List UInt8) :=
  if inode.isSeekable then S.readChunked64kInternal v id inode
  else if inode.physicalSize = 0 then .ok []
  else
    match gatherPayload E v inode inode.physicalSize with
    | .error e => .error e
    | .ok raw => S.decodePayload v.superblock.encryptionVersion id inode raw

def readDataWith (S : Session) (E : IoEngine) (v : Volume) (id : Nat) :
    Except DiskError (List UInt8) := do
  S.readDataInternalWith E v id (← v.readInodeInternal id)

/-- The loop of `read_at_chunked_64k`, with the buffer it writes to. -/
def chunkedInto (S : Session) (v : Volume) (id : Nat) (inode : Inode) (curr rest done : Nat)
    (buf : List UInt8) : Except DiskError Nat × List UInt8 :=
  if rest = 0 then (.ok done, buf)
  else
    let idx := curr / chunkSize64k
    let inChunk := curr % chunkSize64k
    let validLen := chunkValidLen inode.size idx
    let toCopy := min rest (validLen - inChunk)
    if validLen - inChunk = 0 then (.ok done, buf)
    else
      match S.readSingleChunkDecompressed v id inode idx validLen with
      | .error e => (.error e, buf)
      | .ok chunk =>
        let available := min (chunk.length - inChunk) toCopy
        if _h : 0 < available then
          S.chunkedInto v id inode (curr + available) (rest - available) (done + available)
            (copyFromSlice buf done ((chunk.drop inChunk).take available))
        else (.ok done, buf)
termination_by rest
decreasing_by
  change rest - min (chunk.length - inChunk) toCopy < rest
  omega

/-- The loop of `read_at_prepare` on a raw file: holes are zeroed, mapped blocks are copied or
planned. -/
def prepareRaw (v : Volume) (inode : Inode) (planned : Bool) (curr rest done : Nat)
    (buf : List UInt8) (extents : List ReadExtent) : List UInt8 × List ReadExtent :=
  if _h : rest = 0 then (buf, extents)
  else
    let len := min rest (blockSize - curr % blockSize)
    let blk := v.resolveLogicalBlockId inode (curr / blockSize)
    let (buf, extents) :=
      if blk ≠ 0 ∧ blk < v.mapBlocks then
        if planned then
          (buf, ExtentList.push extents (blk * blockSize + curr % blockSize) done len)
        else
          (copyFromSlice buf done
            ((List.range len).map fun k => v.block blk (curr % blockSize + k)), extents)
      else (copyFromSlice buf done (List.replicate len 0), extents)
    prepareRaw v inode planned (curr + len) (rest - len) (done + len) buf extents
termination_by rest
decreasing_by
  have hmod := mod_blockSize_lt curr
  change rest - min rest (blockSize - curr % blockSize) < rest
  omega

/-- A request after `read_at_prepare`. -/
structure PlannedRead where
  result : Except DiskError Nat
  buf : List UInt8
  extents : List ReadExtent

def readAtPrepare (S : Session) (E : IoEngine) (v : Volume) (id offset : Nat) (buf : List UInt8)
    (planned : Bool) : PlannedRead :=
  match v.readInodeInternal id with
  | .error e => ⟨.error e, buf, []⟩
  | .ok inode =>
    if inode.mode ≠ .file then ⟨.error (.io "Cannot read non-file inode"), buf, []⟩
    else if offset ≥ inode.size ∨ buf.length = 0 then ⟨.ok 0, buf, []⟩
    else
      let total := min buf.length (inode.size - offset)
      if inode.isSeekable then
        let (r, buf) := S.chunkedInto v id inode offset total 0 buf
        ⟨r, buf, []⟩
      else if 0 < inode.compressedSize ∨ inode.encrypted then
        match S.readDataInternalWith E v id inode with
        | .error e => ⟨.error e, buf, []⟩
        | .ok full =>
          let part := (full.take (offset + total)).drop offset
          ⟨.ok part.length, copyFromSlice buf 0 part, []⟩
      else
        let (buf, extents) := prepareRaw v inode planned offset total 0 buf []
        ⟨.ok total, buf, extents⟩

def readAtWith (S : Session) (E : IoEngine) (v : Volume) (id offset : Nat) (buf : List UInt8) :
    Except DiskError Nat × List UInt8 :=
  if E.isDirect then
    let p := S.readAtPrepare E v id offset buf false
    (p.result, p.buf)
  else
    let p := S.readAtPrepare E v id offset buf true
    match p.result with
    | .error e => (.error e, p.buf)
    | .ok n =>
      if p.extents.isEmpty then (.ok n, p.buf)
      else
        match E.readOne v p.buf p.extents with
        | (.error e, buf) => (.error e, buf)
        | (.ok (), buf) => (.ok n, buf)

structure ReadRequest where
  id : Nat
  offset : Nat
  buf : List UInt8

/-- The results of a batch, with the buffers put back in their places. -/
def scatter (failure : Option DiskError) :
    List PlannedRead → List (List UInt8) → List (Except DiskError Nat × List UInt8)
  | [], _ => []
  | p :: ps, bufs =>
    if p.extents.isEmpty then (p.result, p.buf) :: scatter failure ps bufs
    else
      (match failure with
        | some e => .error e
        | none => p.result, bufs.headD p.buf) :: scatter failure ps bufs.tail

/-- A request of a batch; the plan of one that failed is dropped. -/
def prepareRequest (S : Session) (E : IoEngine) (v : Volume) (q : ReadRequest) : PlannedRead :=
  let p := S.readAtPrepare E v q.id q.offset q.buf (!E.isDirect)
  match p.result with
  | .error _ => { p with extents := [] }
  | .ok _ => p

def batchTargets (ps : List PlannedRead) : List ReadTarget :=
  (ps.filter fun p => !p.extents.isEmpty).map fun p => ⟨p.buf, p.extents⟩

def readAtBatch (S : Session) (E : IoEngine) (v : Volume) (requests : List ReadRequest) :
    List (Except DiskError Nat × List UInt8) :=
  let prepared := requests.map (S.prepareRequest E v)
  let targets := batchTargets prepared
  if targets.isEmpty then prepared.map fun p => (p.result, p.buf)
  else
    match E.read v targets with
    | (.error e, bufs) => scatter (some e) prepared bufs
    | (.ok (), bufs) => scatter none prepared bufs

end Session

end Oifs
