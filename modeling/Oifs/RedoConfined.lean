import Oifs.ApplyOp
import Oifs.Layout

namespace Oifs

namespace SuperBlock

def regionOf (sb : SuperBlock) : MetadataOp → Nat → Prop
  | .setInodeBitmap _ _, i =>
    sb.inodeBitmapBlock * sb.blockSize ≤ i ∧
      i < (sb.inodeBitmapBlock + sb.inodeBitmapBlocks) * sb.blockSize ∧
      i < sb.dataBitmapBlock * sb.blockSize
  | .setDataBitmap _ _, i | .setDataBitmapRange _ _ _, i =>
    sb.dataBitmapBlock * sb.blockSize ≤ i ∧
      i < (sb.dataBitmapBlock + sb.dataBitmapBlocks) * sb.blockSize ∧
      i < sb.inodeTableBlock * sb.blockSize
  -- the slot, as far as it lies inside the inode table
  | .writeInode inodeId _, i =>
    sb.inodeTableBlock * sb.blockSize + inodeId.toNat * inodeSlotSize ≤ i ∧
      i < sb.inodeTableBlock * sb.blockSize + (inodeId.toNat + 1) * inodeSlotSize ∧
      i < sb.dataBlockStart * sb.blockSize
  | .writeBlockSlice blockId _ _, i =>
    blockId.toNat * sb.blockSize ≤ i ∧ i < (blockId.toNat + 1) * sb.blockSize ∧
      sb.dataBlockStart * sb.blockSize ≤ i ∧ i < sb.blockCount * sb.blockSize

/-- The slot of a written inode lies inside the table, or the write is refused. -/
def SlotBacked (sb : SuperBlock) (imageLen : Nat) : MetadataOp → Prop
  | .writeInode inodeId _ =>
    inodeId.toNat < sb.inodeTableCapacity ∨ sb.inodeCount ≤ inodeId.toNat ∨
      imageLen < sb.inodeTableBlock * sb.blockSize + (inodeId.toNat + 1) * inodeSlotSize
  | _ => True

variable {sb : SuperBlock}

theorem Validated.inodeBitmapBlocks_eq {mmapLen : Nat}
    (hv : sb.Validated mmapLen) : sb.inodeBitmapBlocks = 1 := by
  have hle := hv.inodes_le
  unfold inodeBitmapBlocks
  split
  next =>
    rw [divCeil_bitmapBlockBits]
    exact span_eq_one_iff.mpr hle
  next => rfl

theorem Validated.dataBitmap_le {mmapLen : Nat} (hv : sb.Validated mmapLen) :
    sb.dataBitmapBlock + sb.dataBitmapBlocks ≤ sb.inodeTableBlock := by
  cases hv3 : sb.isV3Layout with
  | true =>
    have htable := hv.v3_table hv3
    omega
  | false =>
    have hlt := hv.bitmap_lt_table
    have hone : sb.dataBitmapBlocks = 1 := by rw [dataBitmapBlocks, hv3]; rfl
    omega

theorem Validated.dataBitmap_region {mmapLen : Nat} (hv : sb.Validated mmapLen)
    (i : Nat) (hi : sb.dataBitmapBlock * sb.blockSize ≤ i ∧
      i < (sb.dataBitmapBlock + sb.dataBitmapBlocks) * sb.blockSize) :
    sb.dataBitmapBlock * sb.blockSize ≤ i ∧
      i < (sb.dataBitmapBlock + sb.dataBitmapBlocks) * sb.blockSize ∧
      i < sb.inodeTableBlock * sb.blockSize :=
  ⟨hi.1, hi.2, Nat.lt_of_lt_of_le hi.2 (Nat.mul_le_mul_right _ hv.dataBitmap_le)⟩

theorem Validated.slot_le_data {mmapLen id : Nat} (hv : sb.Validated mmapLen)
    (hid : id < sb.inodeTableCapacity) :
    sb.inodeTableBlock * sb.blockSize + (id + 1) * inodeSlotSize ≤
      sb.dataBlockStart * sb.blockSize := by
  have htable := hv.table_le_data
  have hcap : id < (sb.dataBlockStart - sb.inodeTableBlock) * 16 :=
    Nat.lt_of_lt_of_le hid (Nat.min_le_left _ _)
  rw [hv.blockSize_eq, Oifs.blockSize, inodeSlotSize]
  omega

theorem Validated.data_le_slot {mmapLen id : Nat} (hv : sb.Validated mmapLen)
    (hid : sb.inodeTableCapacity ≤ id) :
    sb.dataBlockStart * sb.blockSize ≤
      sb.inodeTableBlock * sb.blockSize + id * inodeSlotSize := by
  have htable := hv.table_le_data
  have hcount := hv.data_lt_count
  have hover := hv.no_overflow
  have hcap : (sb.dataBlockStart - sb.inodeTableBlock) * 16 ≤ id := by
    rw [inodeTableCapacity, inodeSlotsPerBlock, Oifs.blockSize, inodeSlotSize] at hid
    rw [Oifs.blockSize] at hover
    omega
  rw [hv.blockSize_eq, Oifs.blockSize, inodeSlotSize]
  omega

end SuperBlock

theorem bitmapSpanRange_ok {image : ByteStore} {bs bitmapStart bitmapBlocks start stop : Nat}
    (h : bitmapSpanRange image bs bitmapStart bitmapBlocks = .ok (start, stop)) :
    start = bitmapStart * bs ∧ stop = start + bitmapBlocks * bs ∧ stop ≤ image.len := by
  unfold bitmapSpanRange at h
  dsimp only at h
  split at h
  next => cases h
  next hle =>
    cases h
    exact ⟨rfl, rfl, Nat.not_lt.mp hle⟩

theorem overlay_span {image bitmap : ByteStore} {bs bitmapStart bitmapBlocks start stop : Nat}
    (h : bitmapSpanRange image bs bitmapStart bitmapBlocks = .ok (start, stop))
    (hlen : bitmap.len = (image.sub start (stop - start)).len) :
    image.ChangesOnly (image.overlay start bitmap) fun i =>
      bitmapStart * bs ≤ i ∧ i < (bitmapStart + bitmapBlocks) * bs := by
  obtain ⟨hstart, hstop, hle⟩ := bitmapSpanRange_ok h
  rw [ByteStore.sub_len (by omega)] at hlen
  apply ByteStore.changesOnly_overlay
  intro i hlo hhi
  rw [Nat.add_mul]
  omega

theorem setSpanBit_changesOnly {image image' : ByteStore}
    {bs bitmapStart bitmapBlocks id bit : Nat} {allocated : Bool}
    (h : setSpanBit image bs bitmapStart bitmapBlocks id bit allocated = .ok image') :
    image.ChangesOnly image' fun i =>
      bitmapStart * bs ≤ i ∧ i < (bitmapStart + bitmapBlocks) * bs := by
  obtain ⟨⟨start, stop⟩, hspan, hset⟩ := except_bind_ok.mp h
  dsimp only at hset
  split at hset
  next => cases hset
  next =>
    cases hset
    exact overlay_span hspan (Bitmap.put_len _ _ _)

/-- Redoing an operation changes bytes it is about, as long as a written slot is in the table. -/
theorem applyOpInPlace_changesOnly {sb : SuperBlock} {image image' : ByteStore} {op : MetadataOp}
    (hv : sb.Validated image.len) (hslot : sb.SlotBacked image.len op)
    (h : applyOpInPlace sb image op = .ok image') :
    image.ChangesOnly image' (sb.regionOf op) := by
  cases op with
  | setInodeBitmap inodeId allocated =>
    simp only [applyOpInPlace] at h
    split at h
    next => cases h
    next =>
      apply (setSpanBit_changesOnly h).mono
      intro i hi
      refine ⟨hi.1, hi.2, ?_⟩
      have hlt := hi.2
      rw [hv.inodeBitmapBlocks_eq, hv.inodeBitmap_eq] at hlt
      rw [hv.dataBitmap_eq]
      exact hlt
  | setDataBitmap blockId allocated =>
    simp only [applyOpInPlace] at h
    split at h
    next => cases h
    next => exact (setSpanBit_changesOnly h).mono hv.dataBitmap_region
  | setDataBitmapRange startBlock count allocated =>
    simp only [applyOpInPlace] at h
    split at h
    next => cases h
    next =>
      obtain ⟨⟨start, stop⟩, hspan, hset⟩ := except_bind_ok.mp h
      cases hset
      exact (overlay_span hspan (Bitmap.putRange_len _ _ _ _)).mono hv.dataBitmap_region
  | writeInode inodeId inodeBytes =>
    simp only [applyOpInPlace] at h
    split at h
    next => cases h
    next hid =>
      split at h
      next => cases h
      next hend =>
        cases h
        have hin : inodeId.toNat < sb.inodeTableCapacity := by
          rcases hslot with hin | hcount | hout
          · exact hin
          · exact absurd hcount hid
          · rw [Nat.add_mul, inodeSlotSize] at hout
            rw [inodeBytesLen] at hend
            omega
        have hdata := hv.slot_le_data hin
        apply ByteStore.changesOnly_write
        intro i hlo hhi
        rw [inodeBytes.property] at hhi
        rw [inodeSlotSize] at hdata
        rw [inodeBytesLen] at hlo hhi
        change sb.inodeTableBlock * sb.blockSize + inodeId.toNat * 256 ≤ i ∧
          i < sb.inodeTableBlock * sb.blockSize + (inodeId.toNat + 1) * 256 ∧
          i < sb.dataBlockStart * sb.blockSize
        generalize sb.inodeTableBlock * sb.blockSize = table at *
        omega
  | writeBlockSlice blockId offset data =>
    simp only [applyOpInPlace] at h
    split at h
    next => cases h
    next hblock =>
      split at h
      next => cases h
      next hend =>
        split at h
        next => cases h
        next hfit =>
          cases h
          apply ByteStore.changesOnly_write
          intro i hlo hhi
          have hlow : sb.dataBlockStart * sb.blockSize ≤ blockId.toNat * sb.blockSize :=
            Nat.mul_le_mul_right _ (by omega)
          have hhigh : (blockId.toNat + 1) * sb.blockSize ≤ sb.blockCount * sb.blockSize :=
            Nat.mul_le_mul_right _ (by omega)
          rw [Nat.add_mul, Nat.one_mul] at hhigh
          refine ⟨by omega, ?_, by omega, by omega⟩
          rw [Nat.add_mul, Nat.one_mul]
          omega

theorem applyOpInPlace_writeInode {sb : SuperBlock} {image : ByteStore} {inodeId : UInt64}
    {inodeBytes : InodeBytes} (hid : inodeId.toNat < sb.inodeCount)
    (hend : sb.inodeTableBlock * sb.blockSize + (inodeId.toNat + 1) * inodeSlotSize ≤ image.len) :
    applyOpInPlace sb image (.writeInode inodeId inodeBytes) = .ok (image.write
      (sb.inodeTableBlock * sb.blockSize + inodeId.toNat * inodeBytesLen) inodeBytes.val) := by
  rw [Nat.add_mul, inodeSlotSize] at hend
  simp only [applyOpInPlace]
  rw [if_neg (by omega), if_neg (by rw [inodeBytesLen]; omega)]
  rfl

/-- The redo of an operation stays inside its region exactly if the slot of a written inode is
inside the table or the write is refused. -/
theorem applyOpInPlace_confined_iff {sb : SuperBlock} {len : Nat} (hlen : len < 2 ^ 63)
    (hvalid : sb.validate len = .ok ()) (op : MetadataOp) :
    (∀ image image' : ByteStore, image.len = len → applyOpInPlace sb image op = .ok image' →
      image.ChangesOnly image' (sb.regionOf op)) ↔ sb.SlotBacked len op := by
  have hv := SuperBlock.validated_of_ok hvalid
  constructor
  · intro hall
    cases op with
    | writeInode inodeId inodeBytes =>
      by_contra hnot
      simp only [SuperBlock.SlotBacked, not_or, Nat.not_lt, Nat.not_le] at hnot
      obtain ⟨hcap, hid, hend⟩ := hnot
      -- an image that differs from the record in its first byte
      obtain ⟨b, hb⟩ : ∃ b, inodeBytes.val[0]? = some b :=
        ⟨_, List.getElem?_eq_getElem (by rw [inodeBytes.property]; decide)⟩
      obtain ⟨-, hchange⟩ := hall ⟨len, fun _ => b + 1, hlen⟩ _ rfl
        (applyOpInPlace_writeInode hid hend)
      have hdata := hv.data_le_slot hcap
      have hin := (hchange (sb.inodeTableBlock * sb.blockSize + inodeId.toNat * inodeBytesLen)
        (by simp [ByteStore.write, hb])).2.2
      rw [inodeBytesLen] at hin
      rw [inodeSlotSize] at hdata
      omega
    | setInodeBitmap | setDataBitmap | setDataBitmapRange | writeBlockSlice => trivial
  · intro hslot image image' himage h
    subst himage
    exact applyOpInPlace_changesOnly hv hslot h

/-- A superblock of the first format: it counts 32 inodes where 16 slots fit. -/
def legacySuper : SuperBlock where
  magic := SuperBlock.magicWord
  blockSize := blockSize
  blockCount := 8
  inodeBitmapBlock := 1
  dataBitmapBlock := 2
  inodeTableBlock := 3
  inodeCount := 32
  dataBlockStart := 4
  rootInode := 0
  encrypted := false
  encryptionVersion := 0
  formatVersion := SuperBlock.formatVersionLegacy
  migrationCursor := 0

theorem applyOpInPlace_confined_slot : legacySuper.validate 32768 = .ok () ∧
    ∀ (inodeBytes : InodeBytes) (image image' : ByteStore), image.len = 32768 →
      applyOpInPlace legacySuper image (.writeInode 15 inodeBytes) = .ok image' →
      image.ChangesOnly image' (legacySuper.regionOf (.writeInode 15 inodeBytes)) :=
  ⟨by decide, fun inodeBytes => (applyOpInPlace_confined_iff (by decide) (by decide)
    (.writeInode 15 inodeBytes)).mpr (Or.inl (by decide))⟩

/-- The seventeenth slot of that table is the first of the data area: a redone inode record lands
in block 4. -/
theorem inode_redo_in_data_area : ∃ image image' : ByteStore, ∃ inodeBytes : InodeBytes,
    legacySuper.validate image.len = .ok () ∧
    applyOpInPlace legacySuper image (.writeInode 16 inodeBytes) = .ok image' ∧
    image'.byte (legacySuper.dataBlockStart * blockSize) ≠
      image.byte (legacySuper.dataBlockStart * blockSize) ∧
    ¬image.ChangesOnly image' (legacySuper.regionOf (.writeInode 16 inodeBytes)) := by
  let image : ByteStore := ⟨32768, fun _ => 0, by decide⟩
  let record : InodeBytes := ⟨List.replicate 256 1, List.length_replicate⟩
  have happly : applyOpInPlace legacySuper image (.writeInode 16 record) =
      .ok (image.write 16384 record.val) := applyOpInPlace_writeInode (by decide) (by decide)
  have hfirst : (image.write 16384 record.val).byte (16384 + 0) = 1 := by
    rw [ByteStore.write_byte_in (by rw [record.property]; decide)]
    rfl
  have hbyte : (image.write 16384 record.val).byte 16384 ≠ image.byte 16384 := by
    rw [hfirst]
    decide
  refine ⟨image, _, record, by decide, happly, hbyte, ?_⟩
  intro hchange
  have hin := (hchange.2 16384 hbyte).2.2
  exact absurd hin (by decide)

end Oifs
