import Oifs.WritePath

namespace Oifs

def zeroFrom (f : Nat → UInt8) (start k : Nat) : UInt8 := if start ≤ k then 0 else f k

namespace Volume

def zeroSlack (v : Volume) (inode : Inode) (idx size : Nat) : Volume :=
  let blk := v.resolveLogicalBlockId inode idx
  if blk ≠ 0 then v.setBlock blk (zeroFrom (v.block blk) (size % blockSize)) else v

def clearLogicalBlockPtr (inode : Inode) (idx : Nat) : DiskM Inode := clearLogicalChunkEntry inode idx

def clearBlockPtrs (inode : Inode) : List Nat → DiskM (Inode × List Nat)
  | [] => return (inode, [])
  | idx :: idxs => do
    let v ← get
    let blk := v.resolveLogicalBlockId inode idx
    if blk ≠ 0 then
      let inode ← clearLogicalBlockPtr inode idx
      let (inode, freed) ← clearBlockPtrs inode idxs
      return (inode, blk :: freed)
    else clearBlockPtrs inode idxs

def childPointers (v : Volume) (b : Nat) : List Nat :=
  ((List.range ptrsPerBlock).map (v.readBlockPtr b)).filter (· ≠ 0)

def zeroCellsFrom (v : Volume) (b keep : Nat) : Volume :=
  v.setBlock b (zeroFrom (v.block b) (keep * 8))

def pruneLowTiers (inode : Inode) (needed : Nat) : DiskM (Inode × List Nat) := do
  let (inode, freed) := if needed ≤ 10 ∧ inode.slot 10 ≠ 0 then
    (inode.setSlot 10 0, [inode.slot 10]) else (inode, [])
  let v ← get
  let dib := inode.slot 11
  if dib = 0 then return (inode, freed)
  else if needed ≤ 522 then
    return (inode.setSlot 11 0, freed ++ v.childPointers dib ++ [dib])
  else
    let keep := divCeil (needed - 522) 512
    let pruned := ((List.range' keep (ptrsPerBlock - keep)).map (v.readBlockPtr dib)).filter (· ≠ 0)
    set (v.zeroCellsFrom dib keep)
    return (inode, freed ++ pruned)

def pruneUnusedIndirectBlocks (inode : Inode) (needed : Nat) : DiskM (Inode × List Nat) := do
  let (inode, freed) ← pruneLowTiers inode needed
  let v ← get
  let tib := inode.slot 12
  if needed ≤ 10 + 512 + 512 * 512 ∧ tib ≠ 0 then
    let below := (v.childPointers tib).flatMap fun dib => v.childPointers dib ++ [dib]
    return (inode.setSlot 12 0, freed ++ below ++ [tib])
  else return (inode, freed)

end Volume

namespace Session

variable (S : Session)

def dropChunks (inode : Inode) : List Nat → DiskM Inode
  | [] => return inode
  | idx :: idxs => do
    let v ← get
    let entry := v.resolveLogicalChunkEntry inode idx
    let inode ← (if entry.isEmpty then pure inode
      else do
        Volume.freeContiguousBlocksInternal entry.startBlock entry.blockCount
        Volume.setLogicalChunkEntry inode idx 0)
    dropChunks inode idxs

/-- The last chunk that a shorter file keeps is stored again without the bytes behind its end. -/
def shortenLastChunk (A : Ambient) (id : Nat) (inode : Inode) (newSize : Nat) : DiskM Inode := do
  let idx := divCeil newSize chunkSize64k - 1
  let validLen := newSize - idx * chunkSize64k
  let v ← get
  let old := v.resolveLogicalChunkEntry inode idx
  if validLen < chunkSize64k ∧ !old.isEmpty then
    let data ← liftExcept (S.readSingleChunkDecompressed v id inode idx validLen)
    let p ← liftExcept (S.prepareChunkPayload data validLen 1 A.draw
      ⟨id, idx, v.superblock.encryptionVersion⟩)
    let start ← Volume.allocateContiguousBlocksInternal p.blocksNeeded
    modify (·.storePayload start p.blocksNeeded p.payload)
    let inode ← Volume.setLogicalChunkEntry inode idx
      (ChunkEntry.new start p.blocksNeeded p.flag p.compLen)
    Volume.freeContiguousBlocksInternal old.startBlock old.blockCount
    return inode
  else return inode

def truncateChunked64k (A : Ambient) (id newSize : Nat) : DiskM Unit := do
  let v ← get
  let inode ← liftExcept (v.readInodeInternal id)
  if inode.size = newSize then return
  else if newSize > inode.size then
    Volume.writeInodeInternal id { inode with size := newSize, modifiedAt := A.now }
  else
    let newChunks := divCeil newSize chunkSize64k
    let oldChunks := divCeil inode.size chunkSize64k
    let inode ← dropChunks inode (List.range' newChunks (oldChunks - newChunks))
    if newSize = 0 then
      Volume.writeInodeInternal id { inode with
        blocks := fun _ => 0, tripleIndirect := 0, compressedSize := 0, size := 0
        modifiedAt := A.now }
    else
      let inode ← S.shortenLastChunk A id inode newSize
      let v ← get
      Volume.writeInodeInternal id { inode with
        compressedSize := totalPhysicalBytes v inode newChunks
        size := newSize, modifiedAt := A.now }

def truncateRebuild (A : Ambient) (id : Nat) (inode : Inode) (newSize : Nat) : DiskM Unit := do
  let v ← get
  let full ← liftExcept (S.readDataInternal v id inode)
  let mode := if 0 < inode.compressedSize then CompressionMode.always else .never
  let plan ← liftExcept (S.planWritePrepared inode 0 (resize full newSize) mode inode.filter none
    A.nonce (fileAadForScheme id v.superblock.encryptionVersion))
  let inode ← (if plan.case.freesPreviousBlocks then releaseBlocks inode else pure inode)
  let (_, inode) ← Volume.writeBufferAtOffset inode plan.physOff plan.buffer
  Volume.writeInodeInternal id { inode with
    size := plan.newSize
    compressedSize := plan.newCompressedSize
    modifiedAt := A.now
    encrypted := plan.encryptionNonce.isSome || inode.encrypted
    encryptionNonce := plan.encryptionNonce.getD inode.encryptionNonce }

def expandRaw (A : Ambient) (id : Nat) (inode : Inode) (newSize : Nat) : DiskM Unit := do
  if 0 < inode.size then
    modify fun v => v.zeroSlack inode ((inode.size - 1) / blockSize) inode.size
  Volume.writeInodeInternal id { inode with size := newSize, modifiedAt := A.now }

def shrinkRaw (A : Ambient) (id : Nat) (inode : Inode) (newSize : Nat) : DiskM Unit := do
  let newBlocks := divCeil newSize blockSize
  let oldBlocks := divCeil inode.size blockSize
  if newSize % blockSize ≠ 0 ∧ 0 < newBlocks then
    modify fun v => v.zeroSlack inode (newBlocks - 1) newSize
  let (inode, freed) ← Volume.clearBlockPtrs inode (List.range' newBlocks (oldBlocks - newBlocks))
  let (inode, pruned) ← Volume.pruneUnusedIndirectBlocks inode newBlocks
  modify (·.freeBlocks (freed ++ pruned))
  Volume.writeInodeInternal id { inode with size := newSize, modifiedAt := A.now }

def truncateInternal (A : Ambient) (id newSize : Nat) : DiskM Unit := do
  let v ← get
  let inode ← liftExcept (v.readInodeInternal id)
  liftExcept (requireFile inode "Cannot truncate non-file inode")
  if newSize = inode.size then return
  else if v.superblock.hasJournalLayout then S.truncateJournaled A id newSize
  else if inode.isSeekable then S.truncateChunked64k A id newSize
  else if 0 < inode.compressedSize ∨ inode.encrypted ∨ 0 < inode.filterTypesize then
    S.truncateRebuild A id inode newSize
  else if newSize > inode.size then expandRaw A id inode newSize
  else shrinkRaw A id inode newSize

end Session

theorem shrinkRaw_ok {A : Ambient} {id n : Nat} {i : Inode} {v v' : Volume}
    (hrun : Session.shrinkRaw A id i n v = .ok () v') :
    ∃ j freed w₁ j' pruned w₂,
      Volume.clearBlockPtrs i
        (List.range' (divCeil n blockSize) (divCeil i.size blockSize - divCeil n blockSize))
        (if n % blockSize ≠ 0 ∧ 0 < divCeil n blockSize then
          v.zeroSlack i (divCeil n blockSize - 1) n else v) = .ok (j, freed) w₁ ∧
      Volume.pruneUnusedIndirectBlocks j (divCeil n blockSize) w₁ = .ok (j', pruned) w₂ ∧
      Volume.writeInodeInternal id { j' with size := n, modifiedAt := A.now }
        (w₂.freeBlocks (freed ++ pruned)) = .ok () v' := by
  have hrest : ∀ u, (do
      let r ← Volume.clearBlockPtrs i
        (List.range' (divCeil n blockSize) (divCeil i.size blockSize - divCeil n blockSize))
      let p ← Volume.pruneUnusedIndirectBlocks r.1 (divCeil n blockSize)
      modify (·.freeBlocks (r.2 ++ p.2))
      Volume.writeInodeInternal id { p.1 with size := n, modifiedAt := A.now } : DiskM Unit) u =
        .ok () v' → ∃ j freed w₁ j' pruned w₂,
      Volume.clearBlockPtrs i
        (List.range' (divCeil n blockSize) (divCeil i.size blockSize - divCeil n blockSize)) u =
          .ok (j, freed) w₁ ∧
      Volume.pruneUnusedIndirectBlocks j (divCeil n blockSize) w₁ = .ok (j', pruned) w₂ ∧
      Volume.writeInodeInternal id { j' with size := n, modifiedAt := A.now }
        (w₂.freeBlocks (freed ++ pruned)) = .ok () v' := by
    intro u hrun
    simp only [DiskM.bind_ok, DiskM.modify_ok] at hrun
    obtain ⟨⟨j, freed⟩, w₁, hclear, ⟨j', pruned⟩, w₂, hprune, _, _, rfl, hwrite⟩ := hrun
    exact ⟨j, freed, w₁, j', pruned, w₂, hclear, hprune, hwrite⟩
  unfold Session.shrinkRaw at hrun
  dsimp only at hrun
  split at hrun
  next hslack =>
    obtain ⟨_, w₁, hzero, hrun⟩ := DiskM.bind_ok.mp hrun
    rw [if_pos hslack, DiskM.modify_ok.mp hzero]
    exact hrest w₁ hrun
  next hnone =>
    rw [if_neg hnone]
    exact hrest v hrun

end Oifs
