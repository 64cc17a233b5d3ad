import Oifs.Inode
import Oifs.MetadataOp
import Oifs.SuperBlock
import Mathlib.Tactic.FinCases

namespace Oifs

open LittleEndian

/-- `InodeFormatError`; the text of the `bincode` error is left out. -/
inductive InodeFormatError where
  | truncated (got : Nat)
  | unknownFileType (tag : UInt8)
  | legacy
  deriving DecidableEq

/-- `INODE_V2_RECORD_VERSION`. -/
def inodeV2RecordVersion : UInt8 := 2

namespace InodeFormat

def fileTypeToTag : FileType → UInt8
  | .file => 0
  | .directory => 1

def tagToFileType (tag : UInt8) : Except InodeFormatError FileType :=
  if tag = 0 then .ok .file
  else if tag = 1 then .ok .directory
  else .error (.unknownFileType tag)

def byteAt (slot : List UInt8) (off : Nat) : UInt8 := slot[off]?.getD 0

def getU64 (slot : List UInt8) (off : Nat) : Nat := decode (bytesAt slot off 8)

def getU32 (slot : List UInt8) (off : Nat) : Nat := decode (bytesAt slot off 4)

def v2Head (i : Inode) : List UInt8 :=
  fileTypeToTag i.mode :: (encode 8 i.size ++ (encode 8 i.compressedSize ++
    (encode 8 i.createdAt ++ encode 8 i.modifiedAt)))

def v2Middle (i : Inode) : List UInt8 :=
  (List.ofFn fun k => encode 8 (i.blocks k)).flatten ++
    (boolByte i.encrypted :: List.ofFn i.encryptionNonce)

def v2Tail (i : Inode) : List UInt8 :=
  i.filterTypesize :: boolByte i.filterDelta :: boolByte i.filterShuffle ::
    boolByte i.filterBitshuffle :: (encode 8 i.tripleIndirect ++
      (inodeV2RecordVersion :: (encode 4 i.flags ++ List.replicate 85 0)))

def encodeV2 (i : Inode) : List UInt8 := v2Head i ++ (v2Middle i ++ v2Tail i)

def decodeV2 (slot : List UInt8) : Except InodeFormatError Inode :=
  if slot.length < inodeSlotSize then .error (.truncated slot.length)
  else do
    let mode ← tagToFileType (byteAt slot 0)
    return {
      mode := mode
      size := getU64 slot 1
      compressedSize := getU64 slot 9
      createdAt := getU64 slot 17
      modifiedAt := getU64 slot 25
      blocks := fun k => getU64 slot (33 + k * 8)
      encrypted := byteAt slot 129 ≠ 0
      encryptionNonce := fun k => byteAt slot (130 + k)
      filterTypesize := byteAt slot 154
      filterDelta := byteAt slot 155 ≠ 0
      filterShuffle := byteAt slot 156 ≠ 0
      filterBitshuffle := byteAt slot 157 ≠ 0
      tripleIndirect := getU64 slot 158
      flags := getU32 slot 167 }

/-- `bincode` reads an enum as a `u32` index. -/
def bincodeFileType (slot : List UInt8) (off : Nat) : Except InodeFormatError FileType :=
  if getU32 slot off = 0 then .ok .file
  else if getU32 slot off = 1 then .ok .directory
  else .error .legacy

/-- `bincode` takes the bytes 0 and 1 as booleans and nothing else. -/
def bincodeBool (slot : List UInt8) (off : Nat) : Except InodeFormatError Bool :=
  if byteAt slot off = 0 then .ok false
  else if byteAt slot off = 1 then .ok true
  else .error .legacy

/-- `decode_v1`: the packed `bincode` record at the start of the slot; what follows is ignored. -/
def decodeV1 (slot : List UInt8) : Except InodeFormatError Inode :=
  if slot.length < inodeSlotSize then .error (.truncated slot.length)
  else do
    let mode ← bincodeFileType slot 0
    let encrypted ← bincodeBool slot 132
    let filterDelta ← bincodeBool slot 158
    let filterShuffle ← bincodeBool slot 159
    let filterBitshuffle ← bincodeBool slot 160
    return {
      mode := mode
      size := getU64 slot 4
      compressedSize := getU64 slot 12
      createdAt := getU64 slot 20
      modifiedAt := getU64 slot 28
      blocks := fun k => getU64 slot (36 + k * 8)
      encrypted := encrypted
      encryptionNonce := fun k => byteAt slot (133 + k)
      filterTypesize := byteAt slot 157
      filterDelta := filterDelta
      filterShuffle := filterShuffle
      filterBitshuffle := filterBitshuffle
      tripleIndirect := getU64 slot 161
      flags := getU32 slot 169 }

def decodeFor (slot : List UInt8) (formatVersion : Nat) : Except InodeFormatError Inode :=
  if formatVersion ≥ SuperBlock.formatVersionFixedInode then decodeV2 slot else decodeV1 slot

theorem decodeFor_legacy (slot : List UInt8) :
    decodeFor slot SuperBlock.formatVersionLegacy = decodeV1 slot := if_neg (by decide)

theorem getU64_lt (slot : List UInt8) (off : Nat) : getU64 slot off < 2 ^ 64 := by
  have hlt := decode_lt (bytesAt slot off 8)
  have hlen : (bytesAt slot off 8).length ≤ 8 := by simp [bytesAt]
  have hpow := Nat.pow_le_pow_right (show 0 < 256 by decide) hlen
  exact Nat.lt_of_lt_of_le hlt hpow

theorem getU32_lt (slot : List UInt8) (off : Nat) : getU32 slot off < 2 ^ 32 := by
  have hlt := decode_lt (bytesAt slot off 4)
  have hlen : (bytesAt slot off 4).length ≤ 4 := by simp [bytesAt]
  have hpow := Nat.pow_le_pow_right (show 0 < 256 by decide) hlen
  exact Nat.lt_of_lt_of_le hlt hpow

theorem decodeV1_fits {slot : List UInt8} {i : Inode} (h : decodeV1 slot = .ok i) : i.Fits := by
  unfold decodeV1 at h
  split at h
  next => cases h
  next =>
    cases hm : bincodeFileType slot 0 with
    | error e => simp [hm, bind, Except.bind] at h
    | ok mode =>
      cases he : bincodeBool slot 132 with
      | error e => simp [hm, he, bind, Except.bind] at h
      | ok encrypted =>
        cases hd : bincodeBool slot 158 with
        | error e => simp [hm, he, hd, bind, Except.bind] at h
        | ok delta =>
          cases hs : bincodeBool slot 159 with
          | error e => simp [hm, he, hd, hs, bind, Except.bind] at h
          | ok shuffle =>
            cases hb : bincodeBool slot 160 with
            | error e => simp [hm, he, hd, hs, hb, bind, Except.bind] at h
            | ok bitshuffle =>
              simp only [hm, he, hd, hs, hb, bind, Except.bind, pure, Except.pure,
                Except.ok.injEq] at h
              subst h
              exact ⟨getU64_lt _ _, getU64_lt _ _, getU64_lt _ _, getU64_lt _ _,
                fun _ => getU64_lt _ _, getU64_lt _ _, getU32_lt _ _⟩

@[simp] theorem v2Head_length (i : Inode) : (v2Head i).length = 33 := by simp [v2Head]

@[simp] theorem v2Middle_length (i : Inode) : (v2Middle i).length = 121 := by
  simp [v2Middle]

@[simp] theorem v2Tail_length (i : Inode) : (v2Tail i).length = 102 := by simp [v2Tail]

@[simp] theorem encodeV2_length (i : Inode) : (encodeV2 i).length = inodeSlotSize := by
  simp [encodeV2, inodeSlotSize]

theorem bytesAt_flatten_ofFn {n w : Nat} {f : Fin n → List UInt8} (hw : ∀ k, (f k).length = w)
    (k : Fin n) (rest : List UInt8) :
    bytesAt ((List.ofFn f).flatten ++ rest) (k * w) w = f k := by
  induction n with
  | zero => exact k.elim0
  | succ n ih =>
    rw [List.ofFn_succ, List.flatten_cons, List.append_assoc]
    refine Fin.cases ?_ (fun k => ?_) k
    · exact bytesAt_append (a := []) (by simp) (hw 0)
    · have hk := ih (f := fun j => f j.succ) (fun j => hw j.succ) k
      rw [bytesAt, Fin.val_succ, Nat.succ_mul, Nat.add_comm, ← List.drop_drop,
        List.drop_left' (hw 0)]
      exact hk

theorem bytesAt_skip {a b : List UInt8} {off n : Nat} (h : a.length ≤ off) :
    bytesAt (a ++ b) off n = bytesAt b (off - a.length) n := by
  rw [bytesAt, bytesAt, List.drop_append, List.drop_eq_nil_of_le h, List.nil_append]

theorem byteAt_skip {a b : List UInt8} {off : Nat} (h : a.length ≤ off) :
    byteAt (a ++ b) off = byteAt b (off - a.length) := by
  rw [byteAt, byteAt, List.getElem?_append_right h]

theorem getU64_of_bytesAt {slot : List UInt8} {off n : Nat} (h : bytesAt slot off 8 = encode 8 n)
    (hn : n < 2 ^ 64) : getU64 slot off = n := by
  rw [getU64, h, decode_encode]
  exact Nat.mod_eq_of_lt hn

theorem byteAt_encodeV2_tail (i : Inode) (off : Nat) :
    byteAt (encodeV2 i) (154 + off) = byteAt (v2Tail i) off := by
  rw [encodeV2, byteAt_skip (by rw [v2Head_length]; omega), v2Head_length,
    byteAt_skip (by rw [v2Middle_length]; omega), v2Middle_length,
    show 154 + off - 33 - 121 = off by omega]

theorem bytesAt_encodeV2_tail (i : Inode) (off n : Nat) :
    bytesAt (encodeV2 i) (154 + off) n = bytesAt (v2Tail i) off n := by
  rw [encodeV2, bytesAt_skip (by rw [v2Head_length]; omega), v2Head_length,
    bytesAt_skip (by rw [v2Middle_length]; omega), v2Middle_length,
    show 154 + off - 33 - 121 = off by omega]

theorem encodeV2_blocks (i : Inode) (k : Fin 12) :
    bytesAt (encodeV2 i) (33 + k * 8) 8 = encode 8 (i.blocks k) := by
  rw [encodeV2, bytesAt_skip (by simp), v2Head_length, Nat.add_sub_cancel_left, v2Middle,
    List.append_assoc]
  exact bytesAt_flatten_ofFn (f := fun k => encode 8 (i.blocks k)) (fun _ => encode_length 8 _) k _

theorem encodeV2_encrypted (i : Inode) : byteAt (encodeV2 i) 129 = boolByte i.encrypted := by
  have hlen : ((List.ofFn fun k => encode 8 (i.blocks k)).flatten).length = 96 := by simp
  rw [encodeV2, byteAt_skip (by simp), v2Head_length, v2Middle, List.append_assoc,
    byteAt_skip (by rw [hlen]), hlen]
  rfl

theorem encodeV2_nonce (i : Inode) (k : Fin 24) :
    byteAt (encodeV2 i) (130 + k) = i.encryptionNonce k := by
  have hlen : ((List.ofFn fun k => encode 8 (i.blocks k)).flatten).length = 96 := by simp
  rw [encodeV2, byteAt_skip (by rw [v2Head_length]; omega), v2Head_length, v2Middle,
    List.append_assoc, byteAt_skip (by rw [hlen]; omega), hlen,
    show 130 + k.val - 33 - 96 = k.val + 1 by omega, byteAt, List.cons_append,
    List.getElem?_cons_succ, List.getElem?_append_left (by simp), List.getElem?_ofFn]
  simp

theorem decide_boolByte (b : Bool) : decide (boolByte b ≠ 0) = b := by
  cases b <;> rfl

theorem decodeV2_encodeV2 {i : Inode} (h : i.Fits) : decodeV2 (encodeV2 i) = .ok i := by
  have htag : tagToFileType (byteAt (encodeV2 i) 0) = .ok i.mode := by
    change tagToFileType (fileTypeToTag i.mode) = .ok i.mode
    cases i.mode <;> rfl
  have hflags : getU32 (encodeV2 i) 167 = i.flags := by
    rw [getU32, show bytesAt (encodeV2 i) 167 4 = encode 4 i.flags from
      bytesAt_encodeV2_tail i 13 4, decode_encode]
    exact Nat.mod_eq_of_lt h.flags
  have htriple : getU64 (encodeV2 i) 158 = i.tripleIndirect :=
    getU64_of_bytesAt (bytesAt_encodeV2_tail i 4 8) h.tripleIndirect
  have hblocks : ∀ k : Fin 12, getU64 (encodeV2 i) (33 + k * 8) = i.blocks k :=
    fun k => getU64_of_bytesAt (encodeV2_blocks i k) (h.blocks k)
  have hsize : getU64 (encodeV2 i) 1 = i.size := getU64_of_bytesAt rfl h.size
  have hcomp : getU64 (encodeV2 i) 9 = i.compressedSize := getU64_of_bytesAt rfl h.compressedSize
  have hcreated : getU64 (encodeV2 i) 17 = i.createdAt := getU64_of_bytesAt rfl h.createdAt
  have hmodified : getU64 (encodeV2 i) 25 = i.modifiedAt := getU64_of_bytesAt rfl h.modifiedAt
  have htypesize : byteAt (encodeV2 i) 154 = i.filterTypesize := byteAt_encodeV2_tail i 0
  have hdelta : byteAt (encodeV2 i) 155 = boolByte i.filterDelta := byteAt_encodeV2_tail i 1
  have hshuffle : byteAt (encodeV2 i) 156 = boolByte i.filterShuffle := byteAt_encodeV2_tail i 2
  have hbit : byteAt (encodeV2 i) 157 = boolByte i.filterBitshuffle := byteAt_encodeV2_tail i 3
  rw [decodeV2, if_neg (by rw [encodeV2_length]; exact Nat.lt_irrefl _), htag]
  simp only [bind, Except.bind, pure, Except.pure, hsize, hcomp, hcreated, hmodified, hblocks,
    encodeV2_encrypted, encodeV2_nonce, htypesize, hdelta, hshuffle, hbit, htriple, hflags,
    decide_boolByte]

theorem decodeV1_tripleIndirect {slot : List UInt8} {i : Inode} (h : decodeV1 slot = .ok i) :
    i.tripleIndirect = getU64 slot 161 := by
  unfold decodeV1 at h
  split at h
  next => cases h
  next =>
    simp only [bind, Except.bind] at h
    repeat' split at h
    all_goals cases h
    rfl

/-- The version byte of a v2 record lies in the triple indirect pointer of a v1 record. -/
theorem decodeV1_encodeV2_ne {i : Inode} (h : i.tripleIndirect < 2 ^ 41) :
    decodeV1 (encodeV2 i) ≠ .ok i := by
  intro hdec
  have htriple := decodeV1_tripleIndirect hdec
  have hbytes : bytesAt (encodeV2 i) 161 8 = bytesAt (encode 8 i.tripleIndirect) 3 5 ++
      (inodeV2RecordVersion :: bytesAt (encode 4 i.flags) 0 2) := by
    rw [show 161 = 154 + 7 from rfl, bytesAt_encodeV2_tail, v2Tail]
    rfl
  have hlen : (bytesAt (encode 8 i.tripleIndirect) 3 5).length = 5 := rfl
  rw [getU64, hbytes, decode_append, hlen, decode, show inodeV2RecordVersion.toNat = 2 from rfl]
    at htriple
  omega

end InodeFormat

end Oifs
