import Oifs.JournaledVolume
import Oifs.ChunkTree

namespace Oifs

open LittleEndian

/-- `AllocSim`: a copy of the first data bitmap block, what was allocated and the pointers to write.
-/
structure AllocSim where
  dataBitmap : Nat → Bool
  freeBlockHint : Nat
  freshBlocks : List Nat
  pointers : Nat → Nat → Option Nat

/-- A simulation together with the operations staged so far. -/
structure Staging extends AllocSim where
  ops : List VolumeOp

namespace Staging

variable (v : Volume) (s : Staging)

def newDataOnly (v : Volume) : Except DiskError Staging :=
  if v.mapBlocks ≤ v.superblock.dataBitmapBlock then .error (.io "data bitmap not found")
  else .ok ⟨⟨v.dataBit, v.freeBlockHint, [], fun _ _ => none⟩, []⟩

def push (op : VolumeOp) : Staging := { s with ops := s.ops ++ [op] }

def setPointer (parent idx child : Nat) : Staging :=
  { s with pointers := fun p k => if p = parent ∧ k = idx then some child else s.pointers p k }

def writePointer (parent idx child : Nat) : Staging :=
  (s.setPointer parent idx child).push (.writeBlockSlice parent (idx * 8) (encode 8 child))

def allocBlock : Except DiskError (Nat × Staging) :=
  match findNextFreeWrapped s.dataBitmap bitmapBits
      (s.freeBlockHint - v.superblock.dataBlockStart) with
  | none => .error .noSpace
  | some bit =>
    let blk := v.superblock.dataBlockStart + bit
    if blk ≥ v.superblock.blockCount then .error .noSpace
    else .ok (blk, { s with
      dataBitmap := Function.update s.dataBitmap bit true
      freeBlockHint := blk + 1
      freshBlocks := blk :: s.freshBlocks })

def takeBlock : Except DiskError (Nat × Staging) := do
  let (blk, s) ← s.allocBlock v
  return (blk, s.push (.setDataBitmap blk true))

def setBits (start count : Nat) (val : Bool) : Nat → Bool := fun k =>
  if start ≤ v.superblock.dataBlockStart + k ∧ v.superblock.dataBlockStart + k < start + count then val
  else s.dataBitmap k

def allocContiguous (count : Nat) : Except DiskError (Nat × Staging) :=
  if count = 0 then .ok (s.freeBlockHint, s)
  else
    match findContiguousFreeWrapped s.dataBitmap bitmapBits
        (s.freeBlockHint - v.superblock.dataBlockStart) count with
    | none => .error .noSpace
    | some bit =>
      let blk := v.superblock.dataBlockStart + bit
      if blk + count > v.superblock.blockCount then .error .noSpace
      else .ok (blk, { s with
        dataBitmap := s.setBits v blk count true
        freeBlockHint := blk + count
        freshBlocks := List.range' blk count ++ s.freshBlocks })

def freeContiguous (start count : Nat) : Staging :=
  if count = 0 then s
  else { s with
    dataBitmap := if start < v.superblock.dataBlockStart then s.dataBitmap
      else s.setBits v start count false
    freeBlockHint := if start < s.freeBlockHint then start else s.freeBlockHint }

def takeExtent (count : Nat) : Except DiskError (Nat × Staging) := do
  let (start, s) ← s.allocContiguous v count
  return (start, s.push (.setDataBitmapRange start count true))

def dropExtent (start count : Nat) : Staging :=
  (s.freeContiguous v start count).push (.setDataBitmapRange start count false)

/-- A pointer as the transaction sees it; a block that it has allocated reads as zeros. -/
def pointer (parent idx : Nat) : Nat :=
  (s.pointers parent idx).getD (if parent ∈ s.freshBlocks then 0 else v.readBlockPtr parent idx)

/-- `sim_ensure_root`. -/
def ensureRoot (inode : Inode) (slot : Nat) : Except DiskError (Nat × Inode × Staging) :=
  if inode.slot slot = 0 then do
    let (blk, s) ← s.takeBlock v
    return (blk, inode.setSlot slot blk, s)
  else .ok (inode.slot slot, inode, s)

/-- `sim_child`. -/
def child (parent idx : Nat) : Except DiskError (Nat × Staging) :=
  if (s.pointers parent idx).isSome ∨ s.pointer v parent idx ≠ 0 then .ok (s.pointer v parent idx, s)
  else do
    let (blk, s) ← s.takeBlock v
    return (blk, s.writePointer parent idx blk)

/-- `sim_get_or_alloc_block`. -/
def getOrAllocBlock (inode : Inode) (idx : Nat) : Except DiskError (Nat × Inode × Staging) :=
  match BlockPath.fromLogical idx with
  | some (.direct i) => s.ensureRoot v inode i
  | some (.single i) => do
    let (sib, inode, s) ← s.ensureRoot v inode 10
    if sib = 0 then return (0, inode, s)
    else
      let (blk, s) ← s.child v sib i
      return (blk, inode, s)
  | some (.double a b) => do
    let (dib, inode, s) ← s.ensureRoot v inode 11
    if dib = 0 then return (0, inode, s)
    else
      let (sib, s) ← s.child v dib a
      if sib = 0 then return (0, inode, s)
      else
        let (blk, s) ← s.child v sib b
        return (blk, inode, s)
  | some (.triple a b c) => do
    let (tib, inode, s) ← s.ensureRoot v inode 12
    if tib = 0 then return (0, inode, s)
    else
      let (dib, s) ← s.child v tib a
      if dib = 0 then return (0, inode, s)
      else
        let (sib, s) ← s.child v dib b
        if sib = 0 then return (0, inode, s)
        else
          let (blk, s) ← s.child v sib c
          return (blk, inode, s)
  | none => .error (.io "File too large (max 513GB)")

def clearLogicalChunkEntry (inode : Inode) (idx : Nat) : Except DiskError (Inode × Staging) :=
  match BlockPath.fromLogical idx with
  | some (.direct i) => .ok (inode.setSlot i 0, s)
  | some (.single i) =>
    let sib := inode.slot 10
    .ok (inode, if sib ≠ 0 then s.writePointer sib i 0 else s)
  | some (.double a b) =>
    let dib := inode.slot 11
    if dib = 0 then .ok (inode, s)
    else do
      let (sib, s) ← s.child v dib a
      return (inode, if sib ≠ 0 then s.writePointer sib b 0 else s)
  | some (.triple a b c) =>
    let tib := inode.slot 12
    if tib = 0 then .ok (inode, s)
    else do
      let (dib, s) ← s.child v tib a
      if dib = 0 then return (inode, s)
      else
        let (sib, s) ← s.child v dib b
        return (inode, if sib ≠ 0 then s.writePointer sib c 0 else s)
  | none => .ok (inode, s)

/-- `sim_set_logical_chunk_entry`. -/
def setLogicalChunkEntry (inode : Inode) (idx : Nat) (entry : ChunkEntry) :
    Except DiskError (Inode × Staging) :=
  if entry.isEmpty then s.clearLogicalChunkEntry v inode idx
  else
    match BlockPath.fromLogical idx with
    | some (.direct i) => .ok (inode.setSlot i entry, s)
    | some (.single i) => do
      let (sib, inode, s) ← s.ensureRoot v inode 10
      return (inode, s.writePointer sib i entry)
    | some (.double a b) => do
      let (dib, inode, s) ← s.ensureRoot v inode 11
      let (sib, s) ← s.child v dib a
      return (inode, s.writePointer sib b entry)
    | some (.triple a b c) => do
      let (tib, inode, s) ← s.ensureRoot v inode 12
      let (dib, s) ← s.child v tib a
      let (sib, s) ← s.child v dib b
      return (inode, s.writePointer sib c entry)
    | none => .error (.io "Chunk index exceeds maximum addressable size")

def follow (parent slot : Nat) : Nat := if parent = 0 then 0 else s.pointer v parent slot

/-- `sim_resolve_logical_chunk_entry`. -/
def resolveLogicalChunkEntry (inode : Inode) (idx : Nat) : ChunkEntry :=
  match BlockPath.fromLogical idx with
  | some (.direct i) => inode.slot i
  | some (.single i) => s.follow v (inode.slot 10) i
  | some (.double a b) => s.follow v (s.follow v (inode.slot 11) a) b
  | some (.triple a b c) => s.follow v (s.follow v (s.follow v (inode.slot 12) a) b) c
  | none => 0

end Staging

def stagePayloadWrite (inode : Inode) (off : Nat) (data : List UInt8) (s : Staging) :
    DiskM (Inode × Staging × List Nat) :=
  if data.isEmpty then pure (inode, s, [])
  else do
    let v ← get
    let (phys, inode, s) ← liftExcept (s.getOrAllocBlock v inode (off / blockSize))
    let n := min data.length (blockSize - off % blockSize)
    let used := if phys ≠ 0 then [phys] else []
    modify fun v =>
      -- a fresh block loses what its last owner left in it
      let v := if phys ≠ 0 ∧ phys ∈ s.freshBlocks then v.setBlock phys fun _ => 0 else v
      v.setBlock phys (patch (v.block phys) (off % blockSize) (data.take n))
    let (inode, s, more) ← stagePayloadWrite inode (off + n) (data.drop n) s
    return (inode, s, used ++ more)
termination_by data.length
decreasing_by
  have hmod := mod_blockSize_lt off
  have hpos : 0 < data.length := List.length_pos_iff.mpr (by rintro rfl; simp at *)
  rw [List.length_drop]
  omega

namespace Volume

def zeroPointers (b first : Nat) : List VolumeOp :=
  (List.range' first (ptrsPerBlock - first)).map fun k => .writeBlockSlice b (k * 8) (List.replicate 8 0)

def zeroBlockOp (b : Nat) : VolumeOp := .writeBlockSlice b 0 (List.replicate blockSize 0)

/-- The pointers of `b` from `first` on are zeroed, and each block below them wholly. -/
def zeroChildren (v : Volume) (b first : Nat) : List VolumeOp :=
  (List.range' first (ptrsPerBlock - first)).flatMap fun k =>
    .writeBlockSlice b (k * 8) (List.replicate 8 0) ::
      (if v.readBlockPtr b k = 0 then [] else [zeroBlockOp (v.readBlockPtr b k)])

def pruneStalePointers (v : Volume) (inode : Inode) (firstStale : Nat) : Inode × List VolumeOp :=
  if firstStale = 0 then (inode, [])
  else
    let inode := (List.range' (min firstStale 10) (10 - min firstStale 10)).foldl (·.setSlot · 0) inode
    if firstStale ≤ 10 then (((inode.setSlot 10 0).setSlot 11 0).setSlot 12 0, [])
    else if firstStale ≤ 10 + 512 then
      (inode, if inode.slot 10 ≠ 0 then zeroPointers (inode.slot 10) (firstStale - 10) else [])
    else if firstStale ≤ 10 + 512 * (1 + 512) then
      (inode, if inode.slot 11 ≠ 0 then v.zeroChildren (inode.slot 11) (firstStale - (10 + 512)) else [])
    else
      let start := firstStale - (10 + 512 * (1 + 512))
      (inode, if inode.slot 12 ≠ 0 then
        (List.range' start (ptrsPerBlock - start)).flatMap fun b =>
          .writeBlockSlice (inode.slot 12) (b * 8) (List.replicate 8 0) ::
            (if v.readBlockPtr (inode.slot 12) b = 0 then []
              else v.zeroChildren (v.readBlockPtr (inode.slot 12) b) 0)
      else [])

end Volume

end Oifs
