import Oifs.Coalesce

namespace Oifs

open LittleEndian

def crc32cPoly : UInt32 := 0x82F63B78

def crc32cBit (crc : UInt32) : UInt32 :=
  if crc &&& 1 ≠ 0 then (crc >>> 1) ^^^ crc32cPoly else crc >>> 1

def crc32cTable (i : UInt32) : UInt32 := Nat.repeat crc32cBit 8 i

/-- `crc32c_update_sw`; the hardware paths compute the same function. -/
def crc32cUpdate (crc : UInt32) (data : List UInt8) : UInt32 :=
  data.foldl (fun crc b => (crc >>> 8) ^^^ crc32cTable ((crc ^^^ b.toUInt32) &&& 0xFF)) crc

def txHeaderLen : Nat := 20

def txMagic : UInt32 := 0x57414C54

def txCommitMarker : UInt32 := 0xDEADBEEF

def crcFrameChecksum (txSeq : UInt64) (payloadLen : UInt32) (payload : List UInt8) : UInt32 :=
  ~~~(crc32cUpdate (crc32cUpdate 0xFFFFFFFF (u64 txSeq ++ u32 payloadLen)) payload)

def encodeFrame (rs : RunSort) (txSeq : UInt64) (ops : List MetadataOp) : List UInt8 :=
  let payload := encodeOps (frameOps rs ops)
  let payloadLen := UInt32.ofNat payload.length
  let crc := crcFrameChecksum txSeq payloadLen payload
  u32 txMagic ++ (u64 txSeq ++ (u32 payloadLen ++ (u32 crc ++ (payload ++ u32 txCommitMarker))))

structure Transaction where
  txSeq : UInt64
  ops : List MetadataOp
  deriving DecidableEq

def decodeFrame (bytes : List UInt8) : Option (Transaction × Nat) :=
  if bytes.length < txHeaderLen + 4 then none
  else if readU32 (bytesAt bytes 0 4) ≠ txMagic then none
  else
    let txSeq := readU64 (bytesAt bytes 4 8)
    let payloadLen := (readU32 (bytesAt bytes 12 4)).toNat
    let storedCrc := readU32 (bytesAt bytes 16 4)
    let total := txHeaderLen + payloadLen + 4
    if bytes.length < total then none
    else
      let payload := bytesAt bytes txHeaderLen payloadLen
      if crcFrameChecksum txSeq (UInt32.ofNat payloadLen) payload ≠ storedCrc then none
      else if readU32 (bytesAt bytes (txHeaderLen + payloadLen) 4) ≠ txCommitMarker then none
      else (MetadataOp.decodeAll payload).map fun ops => (⟨txSeq, ops⟩, total)

def FrameFits (rs : RunSort) (ops : List MetadataOp) : Prop :=
  (encodeOps (frameOps rs ops)).length < 2 ^ 32

theorem encodeFrame_length (rs : RunSort) (txSeq : UInt64) (ops : List MetadataOp) :
    (encodeFrame rs txSeq ops).length = txHeaderLen + (encodeOps (frameOps rs ops)).length + 4 := by
  simp only [encodeFrame, List.length_append, u32_length, u64_length, txHeaderLen]
  omega

theorem decodeFrame_total {bytes : List UInt8} {tx : Transaction} {total : Nat}
    (h : decodeFrame bytes = some (tx, total)) : 24 ≤ total ∧ total ≤ bytes.length := by
  unfold decodeFrame at h
  dsimp only at h
  repeat' split at h
  all_goals try simp at h
  next =>
    obtain ⟨ops, -, -, rfl⟩ := h
    simp only [txHeaderLen] at *
    omega

theorem frame_fields {magic len crc marker : UInt32} {seq : UInt64} {payload rest : List UInt8}
    (bytes : List UInt8) (hb : bytes = u32 magic ++ (u64 seq ++ (u32 len ++ (u32 crc ++
      (payload ++ (u32 marker ++ rest)))))) :
    bytesAt bytes 0 4 = u32 magic ∧ bytesAt bytes 4 8 = u64 seq ∧ bytesAt bytes 12 4 = u32 len ∧
      bytesAt bytes 16 4 = u32 crc ∧ bytesAt bytes 20 payload.length = payload ∧
      bytesAt bytes (20 + payload.length) 4 = u32 marker := by
  subst hb
  refine ⟨rfl, rfl, rfl, rfl, List.take_left, ?_⟩
  simp only [← List.append_assoc]
  rw [List.append_assoc _ _ rest]
  exact bytesAt_append (by simp; omega) (u32_length _)

theorem decodeFrame_encodeFrame {rs : RunSort} {txSeq : UInt64} {ops : List MetadataOp}
    (rest : List UInt8) (h : FrameFits rs ops) :
    decodeFrame (encodeFrame rs txSeq ops ++ rest) =
      some (⟨txSeq, frameOps rs ops⟩, (encodeFrame rs txSeq ops).length) := by
  have hall := MetadataOp.decodeAll_encodeOps (MetadataOp.lengthFits_of_encodeOps h)
  have htotal := encodeFrame_length rs txSeq ops
  have hlen : ¬(encodeFrame rs txSeq ops ++ rest).length <
      20 + (encodeOps (frameOps rs ops)).length + 4 := by
    rw [List.length_append, htotal, txHeaderLen]
    omega
  obtain ⟨hmagic, hseq, hplen, hcrc, hpay, hmark⟩ := frame_fields
    (encodeFrame rs txSeq ops ++ rest) (by simp only [encodeFrame, List.append_assoc]; rfl)
  have hnat : (UInt32.ofNat (encodeOps (frameOps rs ops)).length).toNat =
      (encodeOps (frameOps rs ops)).length := UInt32.toNat_ofNat_of_lt' h
  generalize encodeFrame rs txSeq ops ++ rest = bytes at *
  have hshort : ¬bytes.length < 20 + 4 := by omega
  simp only [txHeaderLen] at htotal
  simp [-Nat.not_lt, decodeFrame, hshort, hlen, hmagic, hseq, hplen, hcrc, hnat, txHeaderLen, hpay, hmark, hall, htotal]

theorem decodeFrame_append_congr {frame rest : List UInt8} {tx : Transaction}
    (rest' : List UInt8) (h : decodeFrame (frame ++ rest) = some (tx, frame.length)) :
    decodeFrame (frame ++ rest') = some (tx, frame.length) := by
  have htotal := (decodeFrame_total h).1
  unfold decodeFrame at h ⊢
  dsimp only at h ⊢
  have htx : txHeaderLen = 20 := rfl
  have hlong : ∀ t : List UInt8, ¬(frame ++ t).length < txHeaderLen + 4 := by
    intro t
    rw [List.length_append]
    omega
  rw [if_neg (hlong _), bytesAt_append_left (show 0 + 4 ≤ frame.length by omega),
    bytesAt_append_left (show 4 + 8 ≤ frame.length by omega),
    bytesAt_append_left (show 12 + 4 ≤ frame.length by omega),
    bytesAt_append_left (show 16 + 4 ≤ frame.length by omega)] at h ⊢
  split at h
  next => simp at h
  next hmagic =>
    rw [if_neg hmagic]
    generalize (readU32 (bytesAt frame 12 4)).toNat = len at h ⊢
    have hlen : txHeaderLen + len + 4 = frame.length := by
      repeat' split at h
      all_goals try simp at h
      next => exact h.choose_spec.2.2
    have hfit : ∀ t : List UInt8, ¬(frame ++ t).length < txHeaderLen + len + 4 := by
      intro t
      rw [List.length_append]
      omega
    rw [if_neg (hfit _), bytesAt_append_left (show txHeaderLen + len ≤ frame.length by omega),
      bytesAt_append_left (show txHeaderLen + len + 4 ≤ frame.length by omega)] at h ⊢
    exact h

theorem decodeFrame_of_marker {bytes : List UInt8} {len : Nat}
    (hlen : (readU32 (bytesAt bytes 12 4)).toNat = len)
    (hmark : readU32 (bytesAt bytes (txHeaderLen + len) 4) ≠ txCommitMarker) :
    decodeFrame bytes = none := by
  unfold decodeFrame
  rw [hlen]
  simp [hmark]

theorem decodeFrame_of_zero {bytes : List UInt8} (h : ∀ b ∈ bytes.take 4, b = 0) :
    decodeFrame bytes = none := by
  have hmagic : readU32 (bytesAt bytes 0 4) ≠ txMagic := by
    rw [bytesAt, List.drop_zero, List.eq_replicate_of_mem h, readU32, decode_replicate_zero]
    decide
  simp [decodeFrame, hmagic]

/-- A frame that was cut short is not found, wherever the cut falls. -/
theorem decodeFrame_of_cut {rs : RunSort} {txSeq : UInt64} {ops : List MetadataOp}
    {cut rest : List UInt8} (h : FrameFits rs ops) (hcut : encodeFrame rs txSeq ops = cut ++ rest)
    (hne : rest ≠ []) : decodeFrame cut = none := by
  cases hd : decodeFrame cut with
  | none => rfl
  | some found =>
    obtain ⟨tx, total⟩ := found
    have hle := (decodeFrame_total hd).2
    have htake : (cut.take total).length = total := List.length_take_of_le hle
    have hfound : decodeFrame (cut.take total ++ cut.drop total) = some (tx, (cut.take total).length) := by
      rw [List.take_append_drop, htake]
      exact hd
    have hwhole := decodeFrame_append_congr (cut.drop total ++ rest) hfound
    rw [← List.append_assoc, List.take_append_drop, ← hcut, htake] at hwhole
    have hframe : decodeFrame (encodeFrame rs txSeq ops ++ []) = _ := decodeFrame_encodeFrame [] h
    rw [List.append_nil, hwhole] at hframe
    have hlen : total = (encodeFrame rs txSeq ops).length := congrArg Prod.snd (Option.some.inj hframe)
    have hpos := List.length_pos_iff.mpr hne
    rw [hcut, List.length_append] at hlen
    omega

/-- A frame is decoded whatever follows it, and no proper beginning of it is. -/
theorem frame_self_delimiting {rs : RunSort} (txSeq : UInt64) {ops : List MetadataOp}
    (h : FrameFits rs ops) :
    (∀ rest, decodeFrame (encodeFrame rs txSeq ops ++ rest) =
      some (⟨txSeq, frameOps rs ops⟩, (encodeFrame rs txSeq ops).length)) ∧
    ∀ cut, cut <+: encodeFrame rs txSeq ops → cut ≠ encodeFrame rs txSeq ops →
      decodeFrame cut = none := by
  refine ⟨fun rest => decodeFrame_encodeFrame rest h, ?_⟩
  rintro cut ⟨rest, hrest⟩ hproper
  refine decodeFrame_of_cut h hrest.symm ?_
  rintro rfl
  exact hproper (by rw [← hrest, List.append_nil])

/-- Three operations, of which the two on neighbouring bytes are stored as one. -/
theorem frame_self_delimiting_coalesced :
    let ops : List MetadataOp :=
      [.writeBlockSlice 38 5 [7, 9], .setInodeBitmap 3 true, .writeBlockSlice 38 7 [1]]
    FrameFits .stable ops ∧
    (∀ rest, decodeFrame (encodeFrame .stable 7 ops ++ rest) =
      some (⟨7, [.setInodeBitmap 3 true, .writeBlockSlice 38 5 [7, 9, 1]]⟩, 54)) ∧
    ∀ cut, cut <+: encodeFrame .stable 7 ops → cut ≠ encodeFrame .stable 7 ops →
      decodeFrame cut = none := by
  intro ops
  have hops : frameOps .stable ops = [.setInodeBitmap 3 true, .writeBlockSlice 38 5 [7, 9, 1]] := by
    have hsort : RunSort.stable.sort [] = [] := List.mergeSort_nil
    rw [frameOps, if_neg (by decide), coalesceOps, if_neg (by decide)]
    change _ ++ (coalesceRuns (RunSort.stable.sort []) ++ _) = _
    rw [hsort]
    decide
  have hfits : FrameFits .stable ops := by
    rw [FrameFits, hops]
    decide
  obtain ⟨hdecode, hcut⟩ := frame_self_delimiting 7 hfits
  have hlen : (encodeFrame .stable 7 ops).length = 54 := by
    rw [encodeFrame_length, hops]
    decide
  rw [hops, hlen] at hdecode
  exact ⟨hfits, hdecode, hcut⟩

end Oifs
