import Oifs.Frame
import Oifs.ShiftRegister

namespace Oifs

open LittleEndian ShiftRegister Polynomial

def crc32c (data : List UInt8) : UInt32 := ~~~(crc32cUpdate 0xFFFFFFFF data)

/-- The bits of a byte in the order in which a reflected checksum takes them, the lowest one first. -/
def byteBits (b : UInt8) : List Bool := (List.range 8).map b.toBitVec.getLsbD

def bitString (data : List UInt8) : List Bool := data.flatMap byteBits

@[simp] theorem byteBits_length (b : UInt8) : (byteBits b).length = 8 := by
  simp [byteBits]

theorem bitString_length (data : List UInt8) : (bitString data).length = 8 * data.length := by
  induction data with
  | nil => rfl
  | cons b data ih =>
    rw [bitString, List.flatMap_cons, List.length_append, byteBits_length, List.length_cons]
    rw [bitString] at ih
    omega

theorem byteBits_injective {b b' : UInt8} (h : byteBits b = byteBits b') : b = b' := by
  apply UInt8.toBitVec_inj.mp
  apply BitVec.eq_of_getLsbD_eq
  intro i hi
  have hbit := congrArg (fun bits : List Bool => bits[i]?) h
  simpa [byteBits, hi] using hbit

theorem bitString_injective {data data' : List UInt8} (h : bitString data = bitString data') :
    data = data' := by
  induction data generalizing data' with
  | nil =>
    have hlen := congrArg List.length h
    rw [bitString_length, bitString_length] at hlen
    exact (List.length_eq_zero_iff.mp (by simp at hlen; simp [hlen])).symm
  | cons b data ih =>
    cases data' with
    | nil =>
      have hlen := congrArg List.length h
      rw [bitString_length, bitString_length] at hlen
      simp at hlen
    | cons b' data' =>
      obtain ⟨hhead, htail⟩ := List.append_inj h (by simp)
      rw [byteBits_injective hhead, ih htail]

theorem crc32cBit_eq (crc : UInt32) : (crc32cBit crc).toBitVec = shift crc32cPoly.toBitVec crc.toBitVec := by
  have hbit : crc &&& 1 ≠ 0 ↔ crc.toBitVec.getLsbD 0 = true := by
    have hmask : (crc &&& 1).toBitVec = BitVec.setWidth 32 (BitVec.ofBool (crc.toBitVec.getLsbD 0)) := by
      rw [UInt32.toBitVec_and]
      exact BitVec.and_one_eq_setWidth_ofBool_getLsbD
    rw [← UInt32.toBitVec_inj.ne, hmask]
    cases crc.toBitVec.getLsbD 0 <;> decide
  unfold crc32cBit shift
  by_cases hset : crc &&& 1 ≠ 0
  · rw [if_pos hset, if_pos (hbit.mp hset)]
    rfl
  · rw [if_neg hset, if_neg (fun h => hset (hbit.mpr h))]
    rfl

theorem crc32cTable_eq (i : UInt32) :
    (crc32cTable i).toBitVec = (shift crc32cPoly.toBitVec)^[8] i.toBitVec := by
  simp only [crc32cTable, Nat.repeat, crc32cBit_eq, Function.iterate_succ_apply', Function.iterate_zero_apply]

theorem shift_eight (x : BitVec 32) :
    (shift crc32cPoly.toBitVec)^[8] x =
      (x >>> 8) ^^^ (shift crc32cPoly.toBitVec)^[8] (x &&& 0xFF#32) := by
  have hshift := (shift_linear crc32cPoly.toBitVec).iterate 8
  refine XorLinear.ext_twoPow hshift ((XorLinear.ushiftRight 8).xor
    (hshift.comp (XorLinear.and_const 0xFF#32))) ?_ x
  decide +kernel

noncomputable def castagnoli : (ZMod 2)[X] :=
  X ^ 32 + X ^ 28 + X ^ 27 + X ^ 26 + X ^ 25 + X ^ 23 + X ^ 22 + X ^ 20 + X ^ 19 + X ^ 18 + X ^ 14 +
    X ^ 13 + X ^ 11 + X ^ 10 + X ^ 9 + X ^ 8 + X ^ 6 + 1

theorem modulus_crc32cPoly : modulus crc32cPoly.toBitVec = castagnoli := by
  have hbits : ∀ i ∈ Finset.range 32, crc32cPoly.toBitVec.getLsbD i =
      decide (i ∈ [3, 4, 5, 6, 8, 9, 11, 12, 13, 17, 18, 20, 21, 22, 23, 25, 31]) := by decide
  have hsum : toPoly crc32cPoly.toBitVec = ∑ i ∈ Finset.range 32,
      if i ∈ [3, 4, 5, 6, 8, 9, 11, 12, 13, 17, 18, 20, 21, 22, 23, 25, 31] then X ^ (31 - i) else 0 :=
    Finset.sum_congr rfl fun i hi => by simp only [hbits i hi, decide_eq_true_eq]
  rw [modulus, hsum, castagnoli]
  simp [Finset.sum_range_succ]
  ring

theorem word_byteBits (b : UInt8) : (word (byteBits b) : BitVec 32) = b.toUInt32.toBitVec := by
  apply BitVec.eq_of_getLsbD_eq
  intro i hi
  rw [word_getLsbD, UInt8.toBitVec_toUInt32, BitVec.getLsbD_setWidth]
  by_cases hbyte : i < 8
  · simp [byteBits, hi, hbyte, List.getD_eq_getElem?_getD]
  · simp [byteBits, hi, hbyte, List.getD_eq_getElem?_getD, BitVec.getLsbD_of_ge _ _ (Nat.not_lt.mp hbyte)]

theorem crc32c_byte (crc : UInt32) (b : UInt8) :
    ((crc >>> 8) ^^^ crc32cTable ((crc ^^^ b.toUInt32) &&& 0xFF)).toBitVec =
      feed crc32cPoly.toBitVec crc.toBitVec (byteBits b) := by
  have hhigh : b.toUInt32.toBitVec >>> 8 = 0#32 := by
    apply BitVec.eq_of_getLsbD_eq
    intro i _
    rw [BitVec.getLsbD_ushiftRight, UInt8.toBitVec_toUInt32, BitVec.getLsbD_setWidth,
      BitVec.getLsbD_of_ge b.toBitVec _ (by omega), Bool.and_false, BitVec.getLsbD_zero]
  rw [feed_eq _ (by simp), byteBits_length, word_byteBits, shift_eight, UInt32.toBitVec_xor,
    crc32cTable_eq, BitVec.ushiftRight_xor_distrib, hhigh, BitVec.xor_zero]
  rfl

theorem crc32cUpdate_eq_feed (crc : UInt32) (data : List UInt8) :
    (crc32cUpdate crc data).toBitVec =
      feed crc32cPoly.toBitVec crc.toBitVec (bitString data) := by
  induction data generalizing crc with
  | nil => rfl
  | cons b data ih =>
    rw [bitString, List.flatMap_cons, feed_append, ← crc32c_byte]
    exact ih _

theorem crc32cUpdate_append (crc : UInt32) (data data' : List UInt8) :
    crc32cUpdate crc (data ++ data') = crc32cUpdate (crc32cUpdate crc data) data' :=
  List.foldl_append

theorem crc32cUpdate_pieces (crc : UInt32) (pieces : List (List UInt8)) :
    pieces.foldl crc32cUpdate crc = crc32cUpdate crc pieces.flatten := by
  induction pieces generalizing crc with
  | nil => rfl
  | cons piece pieces ih =>
    rw [List.foldl_cons, List.flatten_cons, crc32cUpdate_append]
    exact ih _

theorem crcFrameChecksum_eq (txSeq : UInt64) (payloadLen : UInt32) (payload : List UInt8) :
    crcFrameChecksum txSeq payloadLen payload = crc32c (u64 txSeq ++ u32 payloadLen ++ payload) := by
  rw [crcFrameChecksum, crc32c, crc32cUpdate_append _ (u64 txSeq ++ u32 payloadLen)]

/-- Both strings are equally long and agree outside `width` bits in a row. -/
def ChangedWithin (width : Nat) (data data' : List UInt8) : Prop :=
  data.length = data'.length ∧ ∃ start, ∀ i, i < start ∨ start + width ≤ i →
    (bitString data)[i]? = (bitString data')[i]?

theorem ChangedWithin.split {width : Nat} {data data' : List UInt8} (h : ChangedWithin width data data') :
    ∃ before burst burst' after, bitString data = before ++ burst ++ after ∧
      bitString data' = before ++ burst' ++ after ∧ burst.length = burst'.length ∧
      burst.length ≤ width := by
  obtain ⟨hlen, start, hsame⟩ := h
  have hbefore : (bitString data).take start = (bitString data').take start := by
    apply List.ext_getElem?
    intro i
    rw [List.getElem?_take, List.getElem?_take]
    split
    next hi => exact hsame i (Or.inl hi)
    next => rfl
  have hafter : (bitString data).drop (start + width) = (bitString data').drop (start + width) := by
    apply List.ext_getElem?
    intro i
    rw [List.getElem?_drop, List.getElem?_drop]
    exact hsame _ (Or.inr (Nat.le_add_right _ _))
  have hcut : ∀ bits : List Bool, bits = bits.take start ++ (bits.drop start).take width ++
      bits.drop (start + width) := by
    intro bits
    rw [List.append_assoc, ← List.drop_drop, List.take_append_drop, List.take_append_drop]
  refine ⟨_, _, ((bitString data').drop start).take width, _, hcut (bitString data), ?_, ?_, ?_⟩
  · rw [hbefore, hafter]
    exact hcut _
  · simp only [List.length_take, List.length_drop, bitString_length, hlen]
  · exact List.length_take_le _ _

theorem crc32cUpdate_burst_ne {data data' : List UInt8} (crc : UInt32) (h : ChangedWithin 32 data data')
    (hne : data ≠ data') : crc32cUpdate crc data ≠ crc32cUpdate crc data' := by
  obtain ⟨before, burst, burst', after, hbits, hbits', hlen, hle⟩ := h.split
  have hburst : burst ≠ burst' := by
    rintro rfl
    exact hne (bitString_injective (hbits.trans hbits'.symm))
  intro heq
  have hfeed := congrArg UInt32.toBitVec heq
  rw [crc32cUpdate_eq_feed, crc32cUpdate_eq_feed, hbits, hbits'] at hfeed
  exact feed_burst_ne (by decide) _ hlen hle hburst hfeed

/-- The checksum tells strings apart that differ within 32 bits, and is the remainder of the
string's polynomial. -/
theorem crc32c_division :
    (∀ data data', ChangedWithin 32 data data' → data ≠ data' → crc32c data ≠ crc32c data') ∧
    (∀ pieces : List (List UInt8),
      ~~~(pieces.foldl crc32cUpdate 0xFFFFFFFF) = crc32c pieces.flatten) ∧
    (∀ txSeq payloadLen payload, crcFrameChecksum txSeq payloadLen payload =
      crc32c (u64 txSeq ++ u32 payloadLen ++ payload)) ∧
    ∀ crc data, (crc32cUpdate crc data).toBitVec =
        feed crc32cPoly.toBitVec crc.toBitVec (bitString data) ∧
      toPoly (crc32cUpdate crc data).toBitVec =
        (toPoly crc.toBitVec * X ^ (8 * data.length) + message (bitString data) * X ^ 32) %ₘ
          castagnoli := by
  refine ⟨?_, ?_, crcFrameChecksum_eq, ?_⟩
  · intro data data' hchanged hne heq
    exact crc32cUpdate_burst_ne _ hchanged hne (UInt32.not_inj.mp heq)
  · intro pieces
    rw [crc32cUpdate_pieces, crc32c]
  · intro crc data
    have hfeed := crc32cUpdate_eq_feed crc data
    refine ⟨hfeed, ?_⟩
    rw [hfeed, toPoly_feed (by decide), bitString_length, modulus_crc32cPoly]

theorem crc32c_division_flip : ChangedWithin 32 [0x00, 0x31] [0x80, 0x31] ∧
    crc32c [0x00, 0x31] ≠ crc32c [0x80, 0x31] := by
  have hchanged : ChangedWithin 32 [0x00, 0x31] [0x80, 0x31] := by
    refine ⟨rfl, 0, ?_⟩
    intro i hi
    have hlong : 16 ≤ i := by omega
    rw [List.getElem?_eq_none (by simpa [bitString_length] using hlong),
      List.getElem?_eq_none (by simpa [bitString_length] using hlong)]
  exact ⟨hchanged, crc32c_division.1 _ _ hchanged (by decide)⟩

end Oifs
