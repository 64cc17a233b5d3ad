import Oifs.Payload
import Oifs.Codec

namespace Oifs

def chunkSize64k : Nat := 65536

def resize (l : List UInt8) (n : Nat) : List UInt8 := l.take n ++ List.replicate (n - l.length) 0

def copyFromSlice (buf : List UInt8) (off : Nat) (data : List UInt8) : List UInt8 :=
  buf.take off ++ data ++ buf.drop (off + data.length)

/-- `ChunkEntry`: a start block, a block count, flags and a length packed into a `u64`. -/
abbrev ChunkEntry := Nat

namespace ChunkEntry

def flagEmpty : Nat := 0

def flagCompressed : Nat := 1

def flagRaw : Nat := 2

def new (startBlock blockCount flags compressedLen : Nat) : ChunkEntry :=
  startBlock % 2 ^ 32 + blockCount % 2 ^ 8 * 2 ^ 32 + flags % 2 ^ 8 * 2 ^ 40 +
    compressedLen % 2 ^ 16 * 2 ^ 48

def startBlock (e : ChunkEntry) : Nat := e % 2 ^ 32

def blockCount (e : ChunkEntry) : Nat := e / 2 ^ 32 % 2 ^ 8

def flags (e : ChunkEntry) : Nat := e / 2 ^ 40 % 2 ^ 8

def compressedLen (e : ChunkEntry) : Nat := e / 2 ^ 48 % 2 ^ 16

def isEmpty (e : ChunkEntry) : Bool := e == 0 || flags e == flagEmpty

end ChunkEntry

def findContiguousLoop (bit : Nat → Bool) (len count start : Nat) : Option Nat :=
  if start + count ≤ len then
    match _h : findFirstFreeFrom bit len start with
    | none => none
    | some candidate =>
      if candidate + count > len then none
      else
        match hi : (List.range' 1 (count - 1)).find? fun i => bit (candidate + i) with
        | none => some candidate
        | some i => findContiguousLoop bit len count (candidate + i + 1)
  else none
termination_by len - start
decreasing_by
  have hge := findFirstFreeFrom_ge _h
  have hmem := List.mem_range'_1.mp (List.mem_of_find?_eq_some hi)
  omega

def findContiguousFreeFrom (bit : Nat → Bool) (len start count : Nat) : Option Nat :=
  if count = 0 then if start ≤ len then some start else none
  else if count > len ∨ start ≥ len then none
  else if count = 1 then findFirstFreeFrom bit len start
  else findContiguousLoop bit len count start

def findContiguousFreeWrapped (bit : Nat → Bool) (len hint count : Nat) : Option Nat :=
  match findContiguousFreeFrom bit len hint count with
  | some idx => some idx
  | none => if hint > 0 then (findContiguousFreeFrom bit len 0 count).filter (· < hint) else none

namespace Volume

/-- The error of `inode_slot_range`. -/
def inodeOutside (id usable : Nat) : DiskError :=
  .io s!"Inode id {id} is outside the inode table ({usable} usable inodes)"

def readInodeInternal (v : Volume) (id : Nat) : Except DiskError Inode :=
  if id ≥ v.superblock.usableInodeCount then
    .error (inodeOutside id v.superblock.usableInodeCount)
  else
    match v.inode id with
    | .ok i => .ok i
    | .error e => .error (.inodeDecode e)

def writeInodeInternal (id : Nat) (i : Inode) : DiskM Unit := do
  let v ← get
  if id ≥ v.superblock.usableInodeCount then
    throw (inodeOutside id v.superblock.usableInodeCount)
  else set { v with inode := Function.update v.inode id (.ok i) }

def setMarks (v : Volume) (b n : Nat) (val : Bool) : Volume :=
  { v with dataBit := fun k =>
      if b ≤ v.superblock.dataBlockStart + k ∧ v.superblock.dataBlockStart + k < b + n then val
      else v.dataBit k }

/-- `allocate_contiguous_blocks_internal`. The blocks are not compared with the end of the image. -/
def allocateContiguousBlocksInternal (count : Nat) : DiskM Nat := do
  let v ← get
  if count = 0 then return v.freeBlockHint
  else
    match findContiguousFreeWrapped v.dataBit bitmapBits
        (v.freeBlockHint - v.superblock.dataBlockStart) count with
    | none => throw .noSpace
    | some bit =>
      let blk := v.superblock.dataBlockStart + bit
      set { v.setMarks blk count true with freeBlockHint := blk + count }
      return blk

def freeContiguousBlocksInternal (start count : Nat) : DiskM Unit := do
  let v ← get
  if count = 0 then return
  else
    let v := if start < v.superblock.dataBlockStart then v else v.setMarks start count false
    set (if start < v.freeBlockHint then { v with freeBlockHint := start } else v)

/-- The payload of a chunk, block by block; the tail of its last block is zeroed. -/
def storePayload (v : Volume) (start : Nat) : Nat → List UInt8 → Volume
  | 0, _ => v
  | n + 1, rest =>
    if start < v.mapBlocks then
      storePayload (v.setBlock start fun k => (rest.take blockSize).getD k 0) (start + 1) n
        (rest.drop blockSize)
    else storePayload v (start + 1) n rest

def extentBytes (v : Volume) (start n : Nat) : List UInt8 :=
  (List.range n).map fun k => v.block (start + k / blockSize) (k % blockSize)

def resolveLogicalChunkEntry (v : Volume) (inode : Inode) (idx : Nat) : ChunkEntry :=
  v.resolveLogicalBlockId inode idx

def ensureChunkRoot (inode : Inode) (s : Nat) : DiskM (Nat × Inode) :=
  if inode.slot s = 0 then do
    let blk ← allocAndZeroBlock
    return (blk, inode.setSlot s blk)
  else return (inode.slot s, inode)

def getChunkChild (parent idx : Nat) : DiskM Nat := do
  let v ← get
  let child := v.readBlockPtr parent idx
  if child = 0 then do
    let child ← allocAndZeroBlock
    modify (·.writeBlockPtr parent idx child)
    return child
  else return child

/-- `set_logical_chunk_entry` with an empty entry: nothing is allocated on the way. -/
def clearLogicalChunkEntry (inode : Inode) (idx : Nat) : DiskM Inode := do
  let v ← get
  let clear (parent slot : Nat) : DiskM Inode := do
    if parent ≠ 0 then set (v.writeBlockPtr parent slot 0)
    return inode
  match BlockPath.fromLogical idx with
  | some (.direct i) => return inode.setSlot i 0
  | some (.single i) => clear (inode.slot 10) i
  | some (.double a b) => clear (v.follow (inode.slot 11) a) b
  | some (.triple a b c) => clear (v.follow (v.follow (inode.slot 12) a) b) c
  | none => return inode

def setLogicalChunkEntry (inode : Inode) (idx : Nat) (entry : ChunkEntry) : DiskM Inode :=
  if entry.isEmpty then clearLogicalChunkEntry inode idx
  else
    match BlockPath.fromLogical idx with
    | some (.direct i) => return inode.setSlot i entry
    | some (.single i) => do
      let (sib, inode) ← ensureChunkRoot inode 10
      modify (·.writeBlockPtr sib i entry)
      return inode
    | some (.double a b) => do
      let (dib, inode) ← ensureChunkRoot inode 11
      let sib ← getChunkChild dib a
      modify (·.writeBlockPtr sib b entry)
      return inode
    | some (.triple a b c) => do
      let (tib, inode) ← ensureChunkRoot inode 12
      let dib ← getChunkChild tib a
      let sib ← getChunkChild dib b
      modify (·.writeBlockPtr sib c entry)
      return inode
    | none => throw (.io "Chunk index exceeds maximum addressable size")

end Volume

section Meta

variable {v v' : Volume}

theorem ensureChunkRoot_sameMeta {inode i : Inode} {s root : Nat}
    (h : Volume.ensureChunkRoot inode s v = .ok (root, i) v') : SameMeta inode i := by
  unfold Volume.ensureChunkRoot at h
  split_ifs at h
  · simp only [DiskM.bind_ok, DiskM.pure_ok] at h
    obtain ⟨_, _, -, hpair, -⟩ := h
    cases hpair
    exact sameMeta_setSlot ..
  · cases (DiskM.pure_ok.mp h).1
    exact SameMeta.refl _

theorem clearLogicalChunkEntry_sameMeta {inode i : Inode} {idx : Nat}
    (h : Volume.clearLogicalChunkEntry inode idx v = .ok i v') : SameMeta inode i := by
  have hclear : ∀ {parent slot : Nat} {w w' : Volume},
      (do if parent ≠ 0 then set (w.writeBlockPtr parent slot 0)
          return inode : DiskM Inode) w = .ok i w' → SameMeta inode i := by
    intro parent slot w w' h
    by_cases hp : parent ≠ 0
    · simp only [if_pos hp, DiskM.bind_ok, DiskM.pure_ok] at h
      obtain ⟨_, _, -, rfl, -⟩ := h
      exact SameMeta.refl _
    · simp only [if_neg hp, DiskM.pure_ok] at h
      rw [h.1]
      exact SameMeta.refl _
  unfold Volume.clearLogicalChunkEntry at h
  rw [DiskM.get_bind] at h
  cases hp : BlockPath.fromLogical idx with
  | none =>
    rw [hp] at h
    rw [← (DiskM.pure_ok.mp h).1]
    exact SameMeta.refl _
  | some path =>
    rw [hp] at h
    cases path with
    | direct s =>
      rw [← (DiskM.pure_ok.mp h).1]
      exact sameMeta_setSlot ..
    | single | double | triple => exact hclear h

theorem setLogicalChunkEntry_sameMeta {inode i : Inode} {idx : Nat} {entry : ChunkEntry}
    (h : Volume.setLogicalChunkEntry inode idx entry v = .ok i v') : SameMeta inode i := by
  unfold Volume.setLogicalChunkEntry at h
  split_ifs at h
  · exact clearLogicalChunkEntry_sameMeta h
  · cases hp : BlockPath.fromLogical idx with
    | none => simp [hp] at h
    | some path =>
      rw [hp] at h
      cases path with
      | direct s =>
        rw [← (DiskM.pure_ok.mp h).1]
        exact sameMeta_setSlot ..
      | single a =>
        simp only [DiskM.bind_ok, DiskM.pure_ok] at h
        obtain ⟨⟨_, i₁⟩, _, hroot, _, _, -, rfl, -⟩ := h
        exact ensureChunkRoot_sameMeta hroot
      | double a b =>
        simp only [DiskM.bind_ok, DiskM.pure_ok] at h
        obtain ⟨⟨_, i₁⟩, _, hroot, _, _, -, _, _, -, rfl, -⟩ := h
        exact ensureChunkRoot_sameMeta hroot
      | triple a b c =>
        simp only [DiskM.bind_ok, DiskM.pure_ok] at h
        obtain ⟨⟨_, i₁⟩, _, hroot, _, _, -, _, _, -, _, _, -, rfl, -⟩ := h
        exact ensureChunkRoot_sameMeta hroot

end Meta

end Oifs
