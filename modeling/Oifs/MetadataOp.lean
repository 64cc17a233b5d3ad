import Oifs.Bytes

namespace Oifs

open LittleEndian

/-- `INODE_BYTES`. -/
def inodeBytesLen : Nat := 256

abbrev InodeBytes := { bytes : List UInt8 // bytes.length = inodeBytesLen }

/-- One absolute assignment of metadata; never a relative change. -/
inductive MetadataOp where
  | setInodeBitmap (inodeId : UInt64) (allocated : Bool)
  | setDataBitmap (blockId : UInt64) (allocated : Bool)
  | setDataBitmapRange (startBlock : UInt64) (count : UInt32) (allocated : Bool)
  | writeInode (inodeId : UInt64) (inodeBytes : InodeBytes)
  | writeBlockSlice (blockId : UInt64) (offset : UInt32) (data : List UInt8)
  deriving DecidableEq

def opSetInodeBitmap : UInt8 := 1

def opSetDataBitmap : UInt8 := 2

def opWriteInode : UInt8 := 3

def opWriteBlockSlice : UInt8 := 4

def opSetDataBitmapRange : UInt8 := 5

def boolByte (b : Bool) : UInt8 := if b then 1 else 0

namespace MetadataOp

def encode : MetadataOp → List UInt8
  | setInodeBitmap inodeId allocated => opSetInodeBitmap :: (u64 inodeId ++ [boolByte allocated])
  | setDataBitmap blockId allocated => opSetDataBitmap :: (u64 blockId ++ [boolByte allocated])
  | setDataBitmapRange startBlock count allocated =>
    opSetDataBitmapRange :: (u64 startBlock ++ (u32 count ++ [boolByte allocated]))
  | writeInode inodeId inodeBytes => opWriteInode :: (u64 inodeId ++ inodeBytes.val)
  | writeBlockSlice blockId offset data =>
    -- the length field is `data.len() as u32`
    opWriteBlockSlice ::
      (u64 blockId ++ (u32 offset ++ (u32 (UInt32.ofNat data.length) ++ data)))

def encodedSize : MetadataOp → Nat
  | setInodeBitmap .. | setDataBitmap .. => 1 + 8 + 1
  | setDataBitmapRange .. => 1 + 8 + 4 + 1
  | writeInode .. => 1 + 8 + inodeBytesLen
  | writeBlockSlice _ _ data => 1 + 8 + 4 + 4 + data.length

theorem encode_length (op : MetadataOp) : op.encode.length = op.encodedSize := by
  cases op with
  | setInodeBitmap | setDataBitmap | setDataBitmapRange => simp [encode, encodedSize]
  | writeInode inodeId inodeBytes =>
    simp only [encode, encodedSize, List.length_cons, List.length_append, u64_length,
      inodeBytes.property]
    omega
  | writeBlockSlice =>
    simp only [encode, encodedSize, List.length_cons, List.length_append, u64_length, u32_length]
    omega

def decode (bytes : List UInt8) : Option (MetadataOp × Nat) :=
  match bytes.head? with
  | none => none
  | some tag =>
    if tag = opSetInodeBitmap then
      if bytes.length < 10 then none
      else some (setInodeBitmap (readU64 (bytesAt bytes 1 8)) (bytes.getD 9 0 != 0), 10)
    else if tag = opSetDataBitmap then
      if bytes.length < 10 then none
      else some (setDataBitmap (readU64 (bytesAt bytes 1 8)) (bytes.getD 9 0 != 0), 10)
    else if tag = opSetDataBitmapRange then
      if bytes.length < 14 then none
      else some (setDataBitmapRange (readU64 (bytesAt bytes 1 8)) (readU32 (bytesAt bytes 9 4))
        (bytes.getD 13 0 != 0), 14)
    else if tag = opWriteInode then
      if h : bytes.length < 1 + 8 + inodeBytesLen then none
      else some (writeInode (readU64 (bytesAt bytes 1 8)) ⟨bytesAt bytes 9 inodeBytesLen, by
        simp only [bytesAt, List.length_take, List.length_drop]; omega⟩, 1 + 8 + inodeBytesLen)
    else if tag = opWriteBlockSlice then
      if bytes.length < 17 then none
      else
        let len := (readU32 (bytesAt bytes 13 4)).toNat
        if bytes.length < 17 + len then none
        else some (writeBlockSlice (readU64 (bytesAt bytes 1 8)) (readU32 (bytesAt bytes 9 4))
          (bytesAt bytes 17 len), 17 + len)
    else none

theorem decode_used {bytes : List UInt8} {op : MetadataOp} {used : Nat}
    (h : decode bytes = some (op, used)) : 0 < used ∧ used ≤ bytes.length := by
  unfold decode at h
  dsimp only at h
  split at h
  next => simp at h
  next =>
    repeat' split at h
    all_goals
      first
      | (simp only [Option.some.injEq, Prod.mk.injEq] at h; omega)
      | simp at h

def decodeAll (bytes : List UInt8) : Option (List MetadataOp) :=
  if bytes.isEmpty then some []
  else
    match _h : decode bytes with
    | none => none
    | some (op, used) => (decodeAll (bytes.drop used)).map (op :: ·)
termination_by bytes.length
decreasing_by
  have := decode_used _h
  simp only [List.length_drop]
  omega

def LengthFits : MetadataOp → Prop
  | writeBlockSlice _ _ data => data.length < 2 ^ 32
  | _ => True

@[simp] theorem boolByte_ne_zero (b : Bool) : (boolByte b != 0) = b := by
  cases b <;> rfl

/-- Decoding reads one operation back and leaves what follows it. -/
theorem decode_encode {op : MetadataOp} (rest : List UInt8) (h : op.LengthFits) :
    decode (op.encode ++ rest) = some (op, op.encodedSize) := by
  have hlen : (op.encode ++ rest).length = op.encodedSize + rest.length := by
    rw [List.length_append, encode_length]
  cases op with
  | setInodeBitmap inodeId allocated =>
    have hid : bytesAt ((setInodeBitmap inodeId allocated).encode ++ rest) 1 8 = u64 inodeId := rfl
    have hflag : ((setInodeBitmap inodeId allocated).encode ++ rest)[9]? = some (boolByte allocated) :=
      rfl
    have hhead : ((setInodeBitmap inodeId allocated).encode ++ rest).head? = some opSetInodeBitmap :=
      rfl
    generalize (setInodeBitmap inodeId allocated).encode ++ rest = bytes at *
    simp [decode, hhead, hid, hflag, hlen, encodedSize]
  | setDataBitmap blockId allocated =>
    have hid : bytesAt ((setDataBitmap blockId allocated).encode ++ rest) 1 8 = u64 blockId := rfl
    have hflag : ((setDataBitmap blockId allocated).encode ++ rest)[9]? = some (boolByte allocated) :=
      rfl
    have hhead : ((setDataBitmap blockId allocated).encode ++ rest).head? = some opSetDataBitmap :=
      rfl
    generalize (setDataBitmap blockId allocated).encode ++ rest = bytes at *
    simp [decode, hhead, hid, hflag, hlen, encodedSize, opSetDataBitmap, opSetInodeBitmap]
  | setDataBitmapRange startBlock count allocated =>
    have hid : bytesAt ((setDataBitmapRange startBlock count allocated).encode ++ rest) 1 8 =
        u64 startBlock := rfl
    have hcount : bytesAt ((setDataBitmapRange startBlock count allocated).encode ++ rest) 9 4 =
        u32 count := rfl
    have hflag : ((setDataBitmapRange startBlock count allocated).encode ++ rest)[13]? =
        some (boolByte allocated) := rfl
    have hhead : ((setDataBitmapRange startBlock count allocated).encode ++ rest).head? =
        some opSetDataBitmapRange := rfl
    generalize (setDataBitmapRange startBlock count allocated).encode ++ rest = bytes at *
    simp [decode, hhead, hid, hcount, hflag, hlen, encodedSize, opSetDataBitmapRange,
      opSetDataBitmap, opSetInodeBitmap]
  | writeInode inodeId inodeBytes =>
    have hid : bytesAt ((writeInode inodeId inodeBytes).encode ++ rest) 1 8 = u64 inodeId := rfl
    have hrec : bytesAt ((writeInode inodeId inodeBytes).encode ++ rest) 9 inodeBytesLen =
        inodeBytes.val := List.take_left' inodeBytes.property
    have hhead : ((writeInode inodeId inodeBytes).encode ++ rest).head? = some opWriteInode := rfl
    generalize (writeInode inodeId inodeBytes).encode ++ rest = bytes at *
    simp [decode, hhead, hid, hrec, hlen, encodedSize, opWriteInode, opSetDataBitmapRange,
      opSetDataBitmap, opSetInodeBitmap]
  | writeBlockSlice blockId offset data =>
    have hid : bytesAt ((writeBlockSlice blockId offset data).encode ++ rest) 1 8 = u64 blockId := rfl
    have hoff : bytesAt ((writeBlockSlice blockId offset data).encode ++ rest) 9 4 = u32 offset := rfl
    have hdlen : bytesAt ((writeBlockSlice blockId offset data).encode ++ rest) 13 4 =
        u32 (UInt32.ofNat data.length) := rfl
    have hdata : bytesAt ((writeBlockSlice blockId offset data).encode ++ rest) 17 data.length =
        data := List.take_left
    have hhead : ((writeBlockSlice blockId offset data).encode ++ rest).head? =
        some opWriteBlockSlice := rfl
    have hnat : (UInt32.ofNat data.length).toNat = data.length := UInt32.toNat_ofNat_of_lt' h
    generalize (writeBlockSlice blockId offset data).encode ++ rest = bytes at *
    simp [decode, hhead, hid, hoff, hdlen, hnat, hdata, hlen, encodedSize, opWriteBlockSlice,
      opWriteInode, opSetDataBitmapRange, opSetDataBitmap, opSetInodeBitmap, Nat.add_assoc]

end MetadataOp

def encodeOps (ops : List MetadataOp) : List UInt8 := ops.flatMap MetadataOp.encode

namespace MetadataOp

theorem decodeAll_of_decode {bytes : List UInt8} {op : MetadataOp} {used : Nat}
    (h : decode bytes = some (op, used)) :
    decodeAll bytes = (decodeAll (bytes.drop used)).map (op :: ·) := by
  have hne : bytes.isEmpty = false := by
    cases bytes with
    | nil => simp [decode] at h
    | cons => rfl
  rw [decodeAll, hne]
  simp only [Bool.false_eq_true, if_false]
  split
  next hd => simp [h] at hd
  next op' used' hd =>
    cases h.symm.trans hd
    rfl

theorem decodeAll_encodeOps {ops : List MetadataOp} (h : ∀ op ∈ ops, op.LengthFits) :
    decodeAll (encodeOps ops) = some ops := by
  induction ops with
  | nil => simp [encodeOps, decodeAll]
  | cons op ops ih =>
    have hop := decode_encode (encodeOps ops) (h op (by simp))
    have hcons : encodeOps (op :: ops) = op.encode ++ encodeOps ops := rfl
    rw [hcons, decodeAll_of_decode hop, List.drop_left' op.encode_length,
      ih (fun o ho => h o (by simp [ho]))]
    rfl

theorem lengthFits_of_encodeOps {ops : List MetadataOp} (h : (encodeOps ops).length < 2 ^ 32) :
    ∀ op ∈ ops, op.LengthFits := by
  intro op hop
  obtain ⟨before, after, rfl⟩ := List.append_of_mem hop
  have hlt : op.encodedSize < 2 ^ 32 := by
    simp only [encodeOps, List.flatMap_append, List.flatMap_cons, List.length_append,
      encode_length] at h
    omega
  cases op with
  | writeBlockSlice blockId offset data =>
    rw [encodedSize] at hlt
    change data.length < 2 ^ 32
    omega
  | setInodeBitmap | setDataBitmap | setDataBitmapRange | writeInode => exact trivial

end MetadataOp

end Oifs
