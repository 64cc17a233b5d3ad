import Oifs.Migration
import Oifs.RedoConfined

namespace Oifs

open LittleEndian

namespace InodeFormat

def v1Head (i : Inode) : List UInt8 :=
  encode 4 (fileTypeToTag i.mode).toNat ++ (encode 8 i.size ++ (encode 8 i.compressedSize ++
    (encode 8 i.createdAt ++ encode 8 i.modifiedAt)))

def v1Tail (i : Inode) : List UInt8 :=
  i.filterTypesize :: boolByte i.filterDelta :: boolByte i.filterShuffle ::
    boolByte i.filterBitshuffle :: (encode 8 i.tripleIndirect ++ encode 4 i.flags)

def encodeV1Payload (i : Inode) : List UInt8 := v1Head i ++ (v2Middle i ++ v1Tail i)

@[simp] theorem v1Head_length (i : Inode) : (v1Head i).length = 36 := by simp [v1Head]

@[simp] theorem v1Tail_length (i : Inode) : (v1Tail i).length = 16 := by simp [v1Tail]

@[simp] theorem encodeV1Payload_length (i : Inode) : (encodeV1Payload i).length = 173 := by
  simp [encodeV1Payload]

section Payload

variable (i : Inode) (rest : List UInt8)

theorem payload_append : encodeV1Payload i ++ rest = v1Head i ++ (v2Middle i ++ (v1Tail i ++ rest)) := by
  simp only [encodeV1Payload, List.append_assoc]

theorem byteAt_payload_tail (off : Nat) :
    byteAt (encodeV1Payload i ++ rest) (157 + off) = byteAt (v1Tail i ++ rest) off := by
  rw [payload_append, byteAt_skip (by rw [v1Head_length]; omega), v1Head_length,
    byteAt_skip (by rw [v2Middle_length]; omega), v2Middle_length,
    show 157 + off - 36 - 121 = off by omega]

theorem bytesAt_payload_tail (off n : Nat) :
    bytesAt (encodeV1Payload i ++ rest) (157 + off) n = bytesAt (v1Tail i ++ rest) off n := by
  rw [payload_append, bytesAt_skip (by rw [v1Head_length]; omega), v1Head_length,
    bytesAt_skip (by rw [v2Middle_length]; omega), v2Middle_length,
    show 157 + off - 36 - 121 = off by omega]

theorem payload_blocks (k : Fin 12) :
    bytesAt (encodeV1Payload i ++ rest) (36 + k * 8) 8 = encode 8 (i.blocks k) := by
  rw [payload_append, bytesAt_skip (by simp), v1Head_length, Nat.add_sub_cancel_left, v2Middle,
    List.append_assoc]
  exact bytesAt_flatten_ofFn (f := fun k => encode 8 (i.blocks k)) (fun _ => encode_length 8 _) k _

theorem payload_encrypted : byteAt (encodeV1Payload i ++ rest) 132 = boolByte i.encrypted := by
  have hlen : ((List.ofFn fun k => encode 8 (i.blocks k)).flatten).length = 96 := by simp
  rw [payload_append, byteAt_skip (by simp), v1Head_length, v2Middle, List.append_assoc,
    byteAt_skip (by rw [hlen]), hlen]
  rfl

theorem payload_nonce (k : Fin 24) :
    byteAt (encodeV1Payload i ++ rest) (133 + k) = i.encryptionNonce k := by
  have hlen : ((List.ofFn fun k => encode 8 (i.blocks k)).flatten).length = 96 := by simp
  rw [payload_append, byteAt_skip (by rw [v1Head_length]; omega), v1Head_length, v2Middle,
    List.append_assoc, byteAt_skip (by rw [hlen]; omega), hlen,
    show 133 + k.val - 36 - 96 = k.val + 1 by omega, byteAt, List.cons_append,
    List.getElem?_cons_succ, List.getElem?_append_left (by simp), List.getElem?_ofFn]
  simp

theorem bincodeBool_of_boolByte {slot : List UInt8} {off : Nat} {b : Bool}
    (h : byteAt slot off = boolByte b) : bincodeBool slot off = .ok b := by
  unfold bincodeBool
  rw [h]
  cases b <;> rfl

theorem decodeV1_payload (h : i.Fits) (hrest : inodeSlotSize ≤ 173 + rest.length) :
    decodeV1 (encodeV1Payload i ++ rest) = .ok i := by
  have hmode : bincodeFileType (encodeV1Payload i ++ rest) 0 = .ok i.mode := by
    have htag : getU32 (encodeV1Payload i ++ rest) 0 = (fileTypeToTag i.mode).toNat := by
      rw [getU32, show bytesAt (encodeV1Payload i ++ rest) 0 4 =
        encode 4 (fileTypeToTag i.mode).toNat from rfl, decode_encode]
      cases i.mode <;> rfl
    unfold bincodeFileType
    rw [htag]
    cases i.mode <;> rfl
  have hflags : getU32 (encodeV1Payload i ++ rest) 169 = i.flags := by
    rw [getU32, show bytesAt (encodeV1Payload i ++ rest) 169 4 = encode 4 i.flags from
      bytesAt_payload_tail i rest 12 4, decode_encode]
    exact Nat.mod_eq_of_lt h.flags
  have htriple : getU64 (encodeV1Payload i ++ rest) 161 = i.tripleIndirect :=
    getU64_of_bytesAt (bytesAt_payload_tail i rest 4 8) h.tripleIndirect
  have hblocks : ∀ k : Fin 12, getU64 (encodeV1Payload i ++ rest) (36 + k * 8) = i.blocks k :=
    fun k => getU64_of_bytesAt (payload_blocks i rest k) (h.blocks k)
  have hsize : getU64 (encodeV1Payload i ++ rest) 4 = i.size := getU64_of_bytesAt rfl h.size
  have hcomp : getU64 (encodeV1Payload i ++ rest) 12 = i.compressedSize :=
    getU64_of_bytesAt rfl h.compressedSize
  have hcreated : getU64 (encodeV1Payload i ++ rest) 20 = i.createdAt :=
    getU64_of_bytesAt rfl h.createdAt
  have hmodified : getU64 (encodeV1Payload i ++ rest) 28 = i.modifiedAt :=
    getU64_of_bytesAt rfl h.modifiedAt
  have htypesize : byteAt (encodeV1Payload i ++ rest) 157 = i.filterTypesize :=
    byteAt_payload_tail i rest 0
  have hencrypted := bincodeBool_of_boolByte (payload_encrypted i rest)
  have hdelta : bincodeBool (encodeV1Payload i ++ rest) 158 = .ok i.filterDelta :=
    bincodeBool_of_boolByte (byteAt_payload_tail i rest 1)
  have hshuffle : bincodeBool (encodeV1Payload i ++ rest) 159 = .ok i.filterShuffle :=
    bincodeBool_of_boolByte (byteAt_payload_tail i rest 2)
  have hbit : bincodeBool (encodeV1Payload i ++ rest) 160 = .ok i.filterBitshuffle :=
    bincodeBool_of_boolByte (byteAt_payload_tail i rest 3)
  have hlen : ¬(encodeV1Payload i ++ rest).length < inodeSlotSize := by
    rw [List.length_append, encodeV1Payload_length]
    omega
  rw [decodeV1, if_neg hlen, hmode, hencrypted, hdelta, hshuffle, hbit]
  simp only [bind, Except.bind, pure, Except.pure, hsize, hcomp, hcreated, hmodified, hblocks,
    payload_nonce, htypesize, htriple, hflags]

end Payload

theorem decodeV2_fits {slot : List UInt8} {i : Inode} (h : decodeV2 slot = .ok i) : i.Fits := by
  unfold decodeV2 at h
  split at h
  next => cases h
  next =>
    obtain ⟨mode, -, hmode⟩ := except_bind_ok.mp h
    cases hmode
    exact ⟨getU64_lt _ _, getU64_lt _ _, getU64_lt _ _, getU64_lt _ _, fun _ => getU64_lt _ _,
      getU64_lt _ _, getU32_lt _ _⟩

theorem decodeFor_fits {slot : List UInt8} {version : Nat} {i : Inode}
    (h : decodeFor slot version = .ok i) : i.Fits := by
  unfold decodeFor at h
  split at h
  next => exact decodeV2_fits h
  next => exact decodeV1_fits h

end InodeFormat

def SuperBlock.slotOffset (sb : SuperBlock) (inodeId : Nat) : Nat :=
  sb.inodeTableBlock * Oifs.blockSize + inodeId * inodeSlotSize

def SuperBlock.OutsideTable (sb : SuperBlock) (i : Nat) : Prop :=
  i < sb.inodeTableBlock * Oifs.blockSize ∨ sb.dataBlockStart * Oifs.blockSize ≤ i

namespace DiskImage

def oldSlot (d : DiskImage) (inodeId : Nat) : List UInt8 :=
  match d.inodeSlotRange inodeId with
  | .ok (start, _) => d.mmap.read start inodeSlotSize
  | .error _ => List.replicate inodeSlotSize 0

theorem oldSlot_length (d : DiskImage) (inodeId : Nat) : (d.oldSlot inodeId).length = inodeSlotSize := by
  unfold oldSlot
  split
  next => exact ByteStore.read_length _ _ _
  next => exact List.length_replicate

/-- `encode_inode_slot`: a record of the first format is laid over the old bytes. -/
def encodeInodeSlot (d : DiskImage) (inodeId : Nat) (inode : Inode) : InodeBytes :=
  if d.superblock.inodeRecordVersionFor inodeId < SuperBlock.formatVersionFixedInode then
    ⟨InodeFormat.encodeV1Payload inode ++ (d.oldSlot inodeId).drop 173, by
      rw [List.length_append, List.length_drop, oldSlot_length, InodeFormat.encodeV1Payload_length]
      rfl⟩
  else ⟨InodeFormat.encodeV2 inode, InodeFormat.encodeV2_length inode⟩

variable {d : DiskImage} {id j start stop : Nat} {inode : Inode} {mmap : ByteStore}

theorem decodeFor_encodeInodeSlot (h : inode.Fits) :
    InodeFormat.decodeFor (d.encodeInodeSlot id inode).val
      (d.superblock.inodeRecordVersionFor id) = .ok inode := by
  by_cases hold : d.superblock.inodeRecordVersionFor id < SuperBlock.formatVersionFixedInode
  · have hrest : inodeSlotSize ≤ 173 + ((d.oldSlot id).drop 173).length := by
      rw [List.length_drop, oldSlot_length]
      decide
    rw [encodeInodeSlot, if_pos hold, InodeFormat.decodeFor, if_neg (Nat.not_le.mpr hold)]
    exact InodeFormat.decodeV1_payload inode _ h hrest
  · rw [encodeInodeSlot, if_neg hold, InodeFormat.decodeFor, if_pos (Nat.not_lt.mp hold)]
    exact InodeFormat.decodeV2_encodeV2 h

theorem inodeSlotRange_usable (h : d.inodeSlotRange id = .ok (start, stop)) :
    id < d.superblock.usableInodeCount := by
  unfold inodeSlotRange at h
  dsimp only at h
  split at h
  next => cases h
  next hid => omega

theorem usable_le_capacity (sb : SuperBlock) (h : id < sb.usableInodeCount) :
    id < sb.inodeTableCapacity ∧ id < sb.inodeCount := by
  unfold SuperBlock.usableInodeCount at h
  omega

theorem slot_le_data {mmapLen : Nat} {sb : SuperBlock} (hv : sb.Validated mmapLen)
    (h : id < sb.usableInodeCount) :
    sb.slotOffset id + inodeSlotSize ≤ sb.dataBlockStart * Oifs.blockSize := by
  have hle := hv.slot_le_data (usable_le_capacity sb h).1
  rw [hv.blockSize_eq, Nat.add_mul, Nat.one_mul] at hle
  unfold SuperBlock.slotOffset
  omega

theorem inodeSlotRange_of_lt (hv : d.superblock.Validated d.mmap.len)
    (h : id < d.superblock.usableInodeCount) :
    d.inodeSlotRange id = .ok (d.superblock.slotOffset id,
      d.superblock.slotOffset id + inodeSlotSize) := by
  have hend := slot_le_data hv h
  have hdata := Nat.mul_le_mul_right blockSize (Nat.le_of_lt hv.data_lt_count)
  have hover := hv.no_overflow
  have hfits := hv.fits
  unfold SuperBlock.slotOffset at hend
  unfold inodeSlotRange
  rw [if_neg (by omega)]
  dsimp only
  rw [if_neg (by omega), if_neg (by omega)]
  rfl

theorem readInodeInternal_of_lt (hv : d.superblock.Validated d.mmap.len)
    (h : id < d.superblock.usableInodeCount) :
    d.readInodeInternal id =
      (InodeFormat.decodeFor (d.slot id) (d.superblock.inodeRecordVersionFor id)).mapError
        .inodeDecode :=
  readInodeInternal_of_range (inodeSlotRange_of_lt hv h)

theorem readInodeInternal_of_ge (hv : d.superblock.usableInodeCount ≤ id) (mmap : ByteStore) :
    ({ d with mmap := mmap } : DiskImage).readInodeInternal id = d.readInodeInternal id := by
  unfold readInodeInternal inodeSlotRange
  rw [if_pos hv, if_pos hv]

theorem readInodeInternal_usable (h : d.readInodeInternal id = .ok inode) :
    id < d.superblock.usableInodeCount := by
  unfold readInodeInternal at h
  split at h
  next => cases h
  next _ _ hrange => exact inodeSlotRange_usable hrange

theorem readInodeInternal_fits (hv : d.superblock.Validated d.mmap.len)
    (h : d.readInodeInternal id = .ok inode) : inode.Fits := by
  rw [readInodeInternal_of_lt hv (readInodeInternal_usable h)] at h
  cases hdec : InodeFormat.decodeFor (d.slot id) (d.superblock.inodeRecordVersionFor id) with
  | error e =>
    rw [hdec] at h
    cases h
  | ok i =>
    rw [hdec] at h
    cases h
    exact InodeFormat.decodeFor_fits hdec

theorem readInodeInternal_congr (hv : d.superblock.Validated d.mmap.len)
    (h : d.mmap.ChangesOnly mmap d.superblock.OutsideTable) (id : Nat) :
    ({ d with mmap := mmap } : DiskImage).readInodeInternal id = d.readInodeInternal id := by
  by_cases hid : id < d.superblock.usableInodeCount
  · have hv' : d.superblock.Validated mmap.len := by
      rw [h.1]
      exact hv
    have hend := slot_le_data hv hid
    have hslot : ({ d with mmap := mmap } : DiskImage).slot id = d.slot id := by
      apply ByteStore.read_congr
      intro i hlo hhi
      by_contra hne
      unfold SuperBlock.slotOffset at hend
      rcases h.2 i hne with hbefore | hbehind
      · dsimp only at hlo
        omega
      · dsimp only at hhi
        omega
    rw [readInodeInternal_of_lt hv hid, readInodeInternal_of_lt (d := { d with mmap := mmap }) hv' hid,
      hslot]
  · exact readInodeInternal_of_ge (by omega) mmap

theorem readInodeInternal_write_self (hv : d.superblock.Validated d.mmap.len)
    (hid : id < d.superblock.usableInodeCount) {bytes : InodeBytes}
    (hbytes : InodeFormat.decodeFor bytes.val (d.superblock.inodeRecordVersionFor id) = .ok inode) :
    ({ d with mmap := d.mmap.write (d.superblock.slotOffset id) bytes.val } :
      DiskImage).readInodeInternal id = .ok inode := by
  have hslot : ({ d with mmap := d.mmap.write (d.superblock.slotOffset id) bytes.val } :
      DiskImage).slot id = bytes.val := by
    have hself := ByteStore.read_write_self d.mmap (d.superblock.slotOffset id) bytes.val
    rw [bytes.property] at hself
    exact hself
  have hread := readInodeInternal_of_lt
    (d := { d with mmap := d.mmap.write (d.superblock.slotOffset id) bytes.val }) hv hid
  rw [hread, hslot, hbytes]
  rfl

theorem readInodeInternal_write_other (hv : d.superblock.Validated d.mmap.len) (hne : j ≠ id)
    (bytes : InodeBytes) :
    ({ d with mmap := d.mmap.write (d.superblock.slotOffset id) bytes.val } :
      DiskImage).readInodeInternal j = d.readInodeInternal j := by
  by_cases hj : j < d.superblock.usableInodeCount
  · have hslot : ({ d with mmap := d.mmap.write (d.superblock.slotOffset id) bytes.val } :
        DiskImage).slot j = d.slot j := by
      apply ByteStore.read_write_disjoint
      rw [bytes.property]
      unfold SuperBlock.slotOffset inodeSlotSize inodeBytesLen
      dsimp only
      omega
    have hread := readInodeInternal_of_lt
      (d := { d with mmap := d.mmap.write (d.superblock.slotOffset id) bytes.val }) hv hj
    rw [readInodeInternal_of_lt hv hj, hread, hslot]
  · exact readInodeInternal_of_ge (by omega) _

end DiskImage

end Oifs
