import Oifs.ChunkRuns

namespace Oifs

/-! Reading through the mapping, with `pread` or through a ring: the payload is planned as a list of
extents, which the engine then fills. -/

/-- `len` bytes of the image from `diskOffset` on, to go into a buffer at `bufOffset`. -/
structure ReadExtent where
  diskOffset : Nat
  bufOffset : Nat
  len : Nat
  deriving DecidableEq

namespace ExtentList

/-- `ExtentList::push`: an extent that goes on where the last one ended is merged into it. -/
def push (l : List ReadExtent) (diskOffset bufOffset len : Nat) : List ReadExtent :=
  if len = 0 then l
  else
    match l.getLast? with
    | none => l ++ [⟨diskOffset, bufOffset, len⟩]
    | some last =>
      if last.diskOffset + last.len = diskOffset ∧ last.bufOffset + last.len = bufOffset ∧
          last.len + len < 2 ^ 64 then
        l.dropLast ++ [{ last with len := last.len + len }]
      else l ++ [⟨diskOffset, bufOffset, len⟩]

end ExtentList

structure ReadTarget where
  buf : List UInt8
  extents : List ReadExtent

structure ReadOp where
  off : Nat
  len : Nat
  deriving DecidableEq

/-- The backend in use: `read_exact_at` on the file, or the driver of the ring. -/
inductive IoBackend where
  | mmap
  | pread (readExactAt : Nat → Nat → Except DiskError (List UInt8))
  | ioUring (run : List ReadOp → Except DiskError (ReadOp → List UInt8))

structure IoEngine where
  effective : IoBackend
  /-- The length of the mapping. -/
  imageLen : Nat

def Volume.imageBytes (v : Volume) (off len : Nat) : List UInt8 :=
  (List.range len).map fun k => v.block ((off + k) / blockSize) ((off + k) % blockSize)

def copyExtent (fetch : Nat → Nat → List UInt8) (buf : List UInt8) (e : ReadExtent) : List UInt8 :=
  copyFromSlice buf e.bufOffset (fetch e.diskOffset e.len)

def fillExtents (fetch : Nat → Nat → List UInt8) (extents : List ReadExtent) (buf : List UInt8) :
    List UInt8 :=
  extents.foldl (copyExtent fetch) buf

namespace IoEngine

def isDirect (E : IoEngine) : Bool :=
  match E.effective with
  | .mmap => true
  | _ => false

def inRange (imageLen bufLen : Nat) (e : ReadExtent) : Bool :=
  decide (e.bufOffset + e.len ≤ bufLen) && decide (e.diskOffset + e.len ≤ imageLen)

def outOfRange (imageLen bufLen : Nat) : ReadExtent → DiskError
  | ⟨diskOffset, bufOffset, len⟩ =>
    .io s!"read extent out of range (disk_offset={diskOffset}, buf_offset={bufOffset}, len={len}, buf_len={bufLen}, image_len={imageLen})"

/-- `validate`: the first extent that falls out of its buffer or of the image is refused. -/
def validate (targets : List ReadTarget) (imageLen : Nat) : Except DiskError Unit :=
  targets.forM fun t => t.extents.forM fun e =>
    if inRange imageLen t.buf.length e then .ok () else .error (outOfRange imageLen t.buf.length e)

def preadExtents (readExactAt : Nat → Nat → Except DiskError (List UInt8)) :
    List ReadExtent → List UInt8 → Except DiskError Unit × List UInt8
  | [], buf => (.ok (), buf)
  | e :: es, buf =>
    match readExactAt e.diskOffset e.len with
    | .error err => (.error err, buf)
    | .ok bytes => preadExtents readExactAt es (copyFromSlice buf e.bufOffset bytes)

def readPread (readExactAt : Nat → Nat → Except DiskError (List UInt8)) :
    List ReadTarget → Except DiskError Unit × List (List UInt8)
  | [] => (.ok (), [])
  | t :: ts =>
    match preadExtents readExactAt t.extents t.buf with
    | (.error err, buf) => (.error err, buf :: ts.map ReadTarget.buf)
    | (.ok (), buf) =>
      let (r, bufs) := readPread readExactAt ts
      (r, buf :: bufs)

/-- `MAX_OP_BYTES`. -/
def maxOpBytes : Nat := 2 ^ 20

def splitFrom (e : ReadExtent) (done : Nat) : List ReadExtent :=
  if done < e.len then
    let len := min (e.len - done) maxOpBytes
    ⟨e.diskOffset + done, e.bufOffset + done, len⟩ :: splitFrom e (done + len)
  else []
termination_by e.len - done
decreasing_by
  have hpos : 0 < maxOpBytes := by decide
  omega

def transfers (extents : List ReadExtent) : List ReadExtent := extents.flatMap (splitFrom · 0)

/-- `RingPool::read`. -/
def ringRead (run : List ReadOp → Except DiskError (ReadOp → List UInt8))
    (targets : List ReadTarget) : Except DiskError Unit × List (List UInt8) :=
  let ops := targets.flatMap fun t => transfers t.extents
  if ops.isEmpty then (.ok (), targets.map ReadTarget.buf)
  else
    match run (ops.map fun e => ⟨e.diskOffset, e.len⟩) with
    | .error err => (.error err, targets.map ReadTarget.buf)
    | .ok data =>
      (.ok (), targets.map fun t =>
        fillExtents (fun off len => data ⟨off, len⟩) (transfers t.extents) t.buf)

def read (E : IoEngine) (v : Volume) (targets : List ReadTarget) :
    Except DiskError Unit × List (List UInt8) :=
  match validate targets E.imageLen with
  | .error err => (.error err, targets.map ReadTarget.buf)
  | .ok () =>
    match E.effective with
    | .mmap => (.ok (), targets.map fun t => fillExtents v.imageBytes t.extents t.buf)
    | .pread readExactAt => readPread readExactAt targets
    | .ioUring run => ringRead run targets

def readOne (E : IoEngine) (v : Volume) (buf : List UInt8) (extents : List ReadExtent) :
    Except DiskError Unit × List UInt8 :=
  let (r, bufs) := E.read v [⟨buf, extents⟩]
  (r, bufs.headD buf)

/-- The file has the bytes of the mapping, and a read inside the image delivers them. -/
structure Coherent (E : IoEngine) (v : Volume) : Prop where
  mapped : v.mapBlocks = E.imageLen / blockSize
  pread : ∀ readExactAt, E.effective = .pread readExactAt → ∀ off len, off + len ≤ E.imageLen →
    readExactAt off len = .ok (v.imageBytes off len)
  ioUring : ∀ run, E.effective = .ioUring run → ∀ ops : List ReadOp,
    (∀ op ∈ ops, op.off + op.len ≤ E.imageLen) →
    ∃ data, run ops = .ok data ∧ ∀ op ∈ ops, data op = v.imageBytes op.off op.len

end IoEngine

end Oifs
