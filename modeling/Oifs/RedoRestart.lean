import Oifs.DiskJournal
import Oifs.RangedBits
import Oifs.RedoConfined

namespace Oifs

/-- The bits of the image that the redo of an operation sets to values of its own. -/
def SuperBlock.redoneBits (sb : SuperBlock) : MetadataOp → Nat → Prop
  | .setInodeBitmap inodeId _, k => k = sb.inodeBitmapBlock * sb.blockSize * 8 + inodeId.toNat
  | .setDataBitmap blockId _, k =>
    k = sb.dataBitmapBlock * sb.blockSize * 8 + (blockId.toNat - sb.dataBlockStart)
  | .setDataBitmapRange startBlock count _, k =>
    let first := sb.dataBitmapBlock * sb.blockSize * 8 + (startBlock.toNat - sb.dataBlockStart)
    first ≤ k ∧ k < first + count.toNat ∧
      k < (sb.dataBitmapBlock * sb.blockSize + sb.dataBitmapBlocks * sb.blockSize) * 8
  | .writeInode inodeId _, k =>
    let base := sb.inodeTableBlock * sb.blockSize + inodeId.toNat * inodeBytesLen
    base ≤ k / 8 ∧ k / 8 < base + inodeBytesLen
  | .writeBlockSlice blockId offset data, k =>
    let start := blockId.toNat * sb.blockSize + offset.toNat
    start ≤ k / 8 ∧ k / 8 < start + data.length

/-- The two images are alike afterwards in the bits of `P`, and `t` has changed in no others. -/
structure Settles (P : Nat → Prop) (s' t t' : ByteStore) : Prop where
  len : t'.len = t.len
  settled : ∀ k, P k → t'.bit k = s'.bit k
  kept : ∀ k, ¬P k → t'.bit k = t.bit k

section Stores

variable {s t : ByteStore} {start n : Nat}

theorem settles_write (start : Nat) (data : List UInt8) :
    Settles (fun k => start ≤ k / 8 ∧ k / 8 < start + data.length) (s.write start data) t
      (t.write start data) := by
  refine ⟨rfl, fun k hk => ?_, fun k hk => ?_⟩
  · obtain ⟨j, hj⟩ := Nat.exists_eq_add_of_le hk.1
    unfold ByteStore.bit
    rw [hj, ByteStore.write_byte_in (by omega), ByteStore.write_byte_in (by omega)]
  · unfold ByteStore.bit
    rw [ByteStore.write_byte_out (by omega)]

theorem bit_overlay_in {d : ByteStore} {j : Nat} (h : j < d.len * 8) :
    (s.overlay start d).bit (start * 8 + j) = d.bit j := by
  unfold ByteStore.bit
  rw [show (start * 8 + j) / 8 = start + j / 8 by omega, ByteStore.overlay_byte_in (by omega),
    show (start * 8 + j) % 8 = j % 8 by omega]

theorem bit_overlay_out {d : ByteStore} {k : Nat} (h : k < start * 8 ∨ (start + d.len) * 8 ≤ k) :
    (s.overlay start d).bit k = s.bit k := by
  unfold ByteStore.bit
  rw [ByteStore.overlay_byte_out (by omega)]

theorem bit_sub (j : Nat) : (s.sub start n).bit j = s.bit (start * 8 + j) := by
  unfold ByteStore.bit
  rw [ByteStore.sub_byte, show (start * 8 + j) / 8 = start + j / 8 by omega,
    show (start * 8 + j) % 8 = j % 8 by omega]

/-- The bits `Q` of a span are set to one value. -/
theorem settles_span {f : ByteStore → ByteStore} {Q : Nat → Prop} [DecidablePred Q] {v : Bool}
    (hs : n ≤ s.len) (ht : n ≤ t.len) (hlen : ∀ d, (f d).len = d.len)
    (hbit : ∀ d : ByteStore, d.len = n → ∀ j, (f d).bit j = if Q j then v else d.bit j)
    (hbound : ∀ j, Q j → j < n * 8) :
    Settles (fun k => start * 8 ≤ k ∧ Q (k - start * 8)) (s.overlay start (f (s.sub start n))) t
      (t.overlay start (f (t.sub start n))) := by
  have hsub : (t.sub start n).len = n := ByteStore.sub_len ht
  have hlenS : (f (s.sub start n)).len = n := (hlen _).trans (ByteStore.sub_len hs)
  have hlenT : (f (t.sub start n)).len = n := (hlen _).trans hsub
  refine ⟨rfl, fun k hk => ?_, fun k hk => ?_⟩
  · obtain ⟨j, rfl⟩ := Nat.exists_eq_add_of_le hk.1
    have hq : Q j := by simpa using hk.2
    have hj := hbound j hq
    rw [bit_overlay_in (by omega), bit_overlay_in (by omega), hbit _ (ByteStore.sub_len hs),
      hbit _ hsub, if_pos hq, if_pos hq]
  · by_cases hspan : start * 8 ≤ k ∧ k < (start + n) * 8
    · obtain ⟨j, rfl⟩ := Nat.exists_eq_add_of_le hspan.1
      have hq : ¬Q j := fun hq => hk ⟨hspan.1, by simpa using hq⟩
      rw [bit_overlay_in (by omega), hbit _ hsub, if_neg hq, bit_sub]
    · rw [bit_overlay_out (by omega)]

theorem Settles.congr {P Q : Nat → Prop} {s' t' : ByteStore} (h : Settles P s' t t')
    (hPQ : ∀ k, P k ↔ Q k) : Settles Q s' t t' :=
  ⟨h.len, fun k hk => h.settled k ((hPQ k).mpr hk), fun k hk => h.kept k (mt (hPQ k).mp hk)⟩

end Stores

variable {sb : SuperBlock} {s s' t : ByteStore}

theorem setSpanBit_settles {bs first blocks id bit : Nat} {allocated : Bool} (hlen : t.len = s.len)
    (h : setSpanBit s bs first blocks id bit allocated = .ok s') :
    ∃ t', setSpanBit t bs first blocks id bit allocated = .ok t' ∧
      Settles (· = first * bs * 8 + bit) s' t t' := by
  obtain ⟨⟨start, stop⟩, hspan, hset⟩ := except_bind_ok.mp h
  obtain ⟨rfl, rfl, hle⟩ := bitmapSpanRange_ok hspan
  have hspan' : bitmapSpanRange t bs first blocks =
      .ok (first * bs, first * bs + blocks * bs) := if_neg (by omega)
  simp only [Nat.add_sub_cancel_left] at hset
  split at hset
  next => cases hset
  next hin =>
    cases hset
    rw [ByteStore.sub_len (by omega)] at hin
    unfold setSpanBit
    rw [hspan']
    refine ⟨t.overlay (first * bs) (Bitmap.put allocated (t.sub (first * bs) (blocks * bs)) bit), ?_, ?_⟩
    · simp only [bind, Except.bind, Nat.add_sub_cancel_left]
      rw [if_neg (by rw [ByteStore.sub_len (by omega)]; exact hin)]
      rfl
    · refine (settles_span (Q := (· = bit)) (v := allocated) (by omega) (by omega)
        (fun d => Bitmap.put_len allocated d bit) (fun d hd j => ?_) (fun j hj => by omega)).congr
        fun k => ⟨fun hk => by omega, fun hk => ⟨by omega, by omega⟩⟩
      exact Bitmap.bit_put allocated d (by omega) j

/-- An operation succeeds on any image and settles its own bits. -/
theorem applyOpInPlace_settles {op : MetadataOp} (hlen : t.len = s.len)
    (h : applyOpInPlace sb s op = .ok s') :
    ∃ t', applyOpInPlace sb t op = .ok t' ∧ Settles (sb.redoneBits op) s' t t' := by
  cases op with
  | setInodeBitmap inodeId allocated =>
    simp only [applyOpInPlace] at h ⊢
    split at h
    next => cases h
    next hid =>
      rw [if_neg hid]
      exact setSpanBit_settles hlen h
  | setDataBitmap blockId allocated =>
    simp only [applyOpInPlace] at h ⊢
    split at h
    next => cases h
    next hblock =>
      rw [if_neg hblock]
      exact setSpanBit_settles hlen h
  | setDataBitmapRange startBlock count allocated =>
    simp only [applyOpInPlace] at h ⊢
    split at h
    next => cases h
    next hrange =>
      rw [if_neg hrange]
      obtain ⟨⟨start, stop⟩, hspan, hset⟩ := except_bind_ok.mp h
      obtain ⟨rfl, rfl, hle⟩ := bitmapSpanRange_ok hspan
      have hspan' : bitmapSpanRange t sb.blockSize sb.dataBitmapBlock sb.dataBitmapBlocks =
          .ok (sb.dataBitmapBlock * sb.blockSize, _) := if_neg (by omega)
      cases hset
      rw [hspan', Nat.add_sub_cancel_left]
      simp only [bind, Except.bind, Nat.add_sub_cancel_left]
      refine ⟨_, rfl, ?_⟩
      refine (settles_span (Q := fun j => startBlock.toNat - sb.dataBlockStart ≤ j ∧
        j < startBlock.toNat - sb.dataBlockStart + count.toNat ∧
        j < sb.dataBitmapBlocks * sb.blockSize * 8) (v := allocated) (by omega) (by omega)
        (fun d => Bitmap.putRange_len allocated d _ _) (fun d hd j => ?_)
        (fun j hj => hj.2.2)).congr fun k => ?_
      · rw [Bitmap.bit_putRange, hd]
      · unfold SuperBlock.redoneBits
        dsimp only
        omega
  | writeInode inodeId inodeBytes =>
    simp only [applyOpInPlace] at h ⊢
    split at h
    next => cases h
    next hid =>
      split at h
      next => cases h
      next hend =>
        cases h
        rw [if_neg hid, if_neg (by omega)]
        have hsettles := settles_write (s := s) (t := t)
          (sb.inodeTableBlock * sb.blockSize + inodeId.toNat * inodeBytesLen) inodeBytes.val
        rw [inodeBytes.property] at hsettles
        exact ⟨_, rfl, hsettles⟩
  | writeBlockSlice blockId offset data =>
    simp only [applyOpInPlace] at h ⊢
    split at h
    next => cases h
    next hblock =>
      split at h
      next => cases h
      next hend =>
        split at h
        next => cases h
        next hfit =>
          cases h
          rw [if_neg hblock, if_neg (by omega), if_neg hfit]
          exact ⟨_, rfl, settles_write _ data⟩

theorem eq_of_agree (hlen : t.len = s.len)
    (hagree : ∀ k, t.bit k ≠ s.bit k → ∃ op ∈ ([] : List MetadataOp), sb.redoneBits op k) : t = s := by
  refine store_ext_bits hlen fun k => ?_
  by_contra hne
  obtain ⟨op, hop, -⟩ := hagree k hne
  cases hop

/-- Operations redone on an image that differs only in bits they set end in the same image. -/
theorem redoAll_settles {ops : List MetadataOp} (hlen : t.len = s.len)
    (hagree : ∀ k, t.bit k ≠ s.bit k → ∃ op ∈ ops, sb.redoneBits op k)
    (h : redoAll sb ops s = .ok () s') : redoAll sb ops t = .ok () s' := by
  induction ops generalizing s t with
  | nil =>
    rw [eq_of_agree hlen hagree, h]
  | cons op ops ih =>
    unfold redoAll at h ⊢
    cases hs : applyOpInPlace sb s op with
    | error e =>
      rw [hs] at h
      cases h
    | ok s₁ =>
      rw [hs] at h
      obtain ⟨t₁, ht, hsettle⟩ := applyOpInPlace_settles hlen hs
      obtain ⟨s₁', hs', hself⟩ := applyOpInPlace_settles rfl hs
      cases hs.symm.trans hs'
      rw [ht]
      refine ih (by rw [hsettle.len, hself.len, hlen]) (fun k hne => ?_) h
      -- the bits of `op` are settled, the others are as far apart as before
      by_cases hk : sb.redoneBits op k
      · exact absurd (hsettle.settled k hk) hne
      · rw [hsettle.kept k hk, hself.kept k hk] at hne
        obtain ⟨op', hop', hbit⟩ := hagree k hne
        rcases List.mem_cons.mp hop' with rfl | hmem
        · exact absurd hbit hk
        · exact ⟨op', hmem, hbit⟩

/-- The operations that a recovery of the image would redo. -/
def pendingOps (sb : SuperBlock) (image : ByteStore) : List MetadataOp :=
  if !sb.hasJournalLayout then []
  else
    match journalRegion image sb with
    | .error _ => []
    | .ok region =>
      match JournalRing.attach region sb.blockSize with
      | .error _ => []
      | .ok ring =>
        match ring.recover (fun ops op => .ok (ops ++ [op])) [] with
        | .error _ => []
        | .ok (ops, _, _) => ops

section Rings

variable {r r' : JournalRing}

theorem recoverLoop_of_agree {σ : Type} {f : σ → MetadataOp → Except JournalError σ}
    (hring : r'.ringBytes = r.ringBytes) (hframe : ∀ p, r'.frameAt p = r.frameAt p)
    (target cursor traversed replayed : Nat) (acc : σ) :
    r'.recoverLoop f target cursor traversed replayed acc =
      r.recoverLoop f target cursor traversed replayed acc := by
  -- the two walks read the same frame at each cursor
  fun_induction JournalRing.recoverLoop r f target cursor traversed replayed acc
    <;> rw [JournalRing.recoverLoop] <;> simp_all

theorem recover_of_agree {ops : List MetadataOp} {done : JournalRing} {n : Nat}
    (hframe : ∀ p, r'.frameAt p = r.frameAt p) (hring : r'.ringBytes = r.ringBytes)
    (hstate : r'.state = r.state)
    (h : r.recover (fun ops op => .ok (ops ++ [op])) [] = .ok (ops, done, n)) :
    ∃ done' : JournalRing, r'.recover (fun ops op => .ok (ops ++ [op])) [] = .ok (ops, done', n) ∧
      done'.state = done.state := by
  unfold JournalRing.recover at h ⊢
  rw [hring, hstate, recoverLoop_of_agree hring hframe]
  split at h
  next hzero =>
    cases h
    simp [hzero, JournalRing.markCleanShutdown, hstate]
  next hpos =>
    rw [if_neg hpos]
    split at h
    next => cases h
    next hloop =>
      cases h
      simp [JournalRing.markCleanShutdown, hstate]

theorem attach_recover_of_agree {a b : ByteStore} {bs n : Nat} {ring done : JournalRing}
    {ops : List MetadataOp} (hattach : JournalRing.attach a bs = .ok ring)
    (h : ring.recover (fun ops op => .ok (ops ++ [op])) [] = .ok (ops, done, n))
    (hlen : bs + journalRingBytes bs ≤ b.len)
    (hread : ∀ i m, i + m ≤ bs + journalRingBytes bs → b.read i m = a.read i m) :
    ∃ ring' done' : JournalRing, JournalRing.attach b bs = .ok ring' ∧
      ring'.recover (fun ops op => .ok (ops ++ [op])) [] = .ok (ops, done', n) ∧
      done'.state = done.state := by
  obtain ⟨state, hdec, rfl⟩ := JournalRing.attach_ok hattach
  rw [← hread 0 bs (by omega)] at hdec
  have hframe : ∀ p, JournalRing.frameAt ⟨b, bs, journalRingBytes bs, state, none⟩ p =
      JournalRing.frameAt ⟨a, bs, journalRingBytes bs, state, none⟩ p := by
    intro p
    by_cases hp : p ≤ journalRingBytes bs
    · exact congrArg decodeFrame (hread _ _ (by dsimp only; omega))
    · simp [JournalRing.frameAt, ByteStore.read, Nat.sub_eq_zero_of_le (Nat.le_of_not_le hp)]
  obtain ⟨done', hrec, hstate⟩ := recover_of_agree hframe rfl rfl h
  exact ⟨_, done', JournalRing.attach_of_decode hdec hlen, hrec, hstate⟩

end Rings

/-- A recovery that breaks off, with any of its stores done, is made good by the next one: it ends
with the same image. -/
theorem recoverJournal_restarts {image mid final : ByteStore} {n : Nat}
    (h : recoverJournal sb image = .ok n final) (hlen : mid.len = image.len)
    (hregion : ∀ i, journalRegionStart sb.blockSize ≤ i →
      i < journalRegionStart sb.blockSize + journalRegionLen sb.blockSize →
      mid.byte i = image.byte i)
    (hmid : ∀ k, mid.bit k ≠ image.bit k → ∃ op ∈ pendingOps sb image, sb.redoneBits op k) :
    recoverJournal sb mid = .ok n final := by
  unfold pendingOps at hmid
  unfold recoverJournal at h ⊢
  split at h
  next hplain =>
    rw [if_pos hplain] at hmid ⊢
    rwa [eq_of_agree hlen hmid]
  next hjournal =>
    rw [if_neg hjournal] at hmid ⊢
    split at h
    next => cases h
    next old hold =>
      obtain ⟨hfits, rfl⟩ := journalRegion_ok hold
      have hnew : journalRegion mid sb = .ok (mid.sub (journalRegionStart sb.blockSize)
        (journalRegionLen sb.blockSize)) := if_neg (by omega)
      split at h
      next => cases h
      next ring hattach =>
        split at h
        next => cases h
        next ops done count hcollect =>
          have hinside : sb.blockSize + journalRingBytes sb.blockSize ≤
              journalRegionLen sb.blockSize := by
            have hmod := Nat.mod_le (journalRingBlocks * sb.blockSize) (2 ^ 64)
            unfold journalRegionLen journalRingBytes journalReservedBlocks journalRingBlocks at *
            omega
          obtain ⟨ring', done', hattach', hcollect', hstate⟩ := attach_recover_of_agree
            hattach hcollect (by rwa [ByteStore.sub_len (by omega)]) fun i m him =>
              ByteStore.read_congr (s := mid.sub (journalRegionStart sb.blockSize)
                (journalRegionLen sb.blockSize)) fun j _ hj =>
                  hregion _ (by omega) (by omega)
          simp only [hold, hattach, hcollect] at hmid
          simp only [hnew, hattach', hcollect', hstate]
          cases hredo : redoAll sb ops image with
          | error e image' =>
            rw [hredo] at h
            cases h
          | ok u image' =>
            rw [redoAll_settles hlen hmid hredo]
            rwa [hredo] at h

/-- A layout with a journal, in blocks of 64 bytes. -/
def ringSuper : SuperBlock :=
  { legacySuper with
    blockSize := 64, blockCount := 40, inodeTableBlock := 36, inodeCount := 4, dataBlockStart := 37 }

def slicePending : ByteStore :=
  let frame := encodeFrame RunSort.stable 0 [.writeBlockSlice 38 5 [7, 9]]
  let blank : ByteStore := { len := 40 * 64, byte := fun _ => 0, len_lt := by decide }
  (blank.write (3 * 64) (JournalState.encode ⟨frame.length, 0, 1, false⟩)).write (4 * 64) frame

theorem recoverJournal_restarts_slice : ∃ final, recoverJournal ringSuper slicePending = .ok 1 final ∧
    recoverJournal ringSuper (slicePending.write (38 * 64 + 5) [7]) = .ok 1 final := by
  have hpending : pendingOps ringSuper slicePending = [.writeBlockSlice 38 5 [7, 9]] := by
    decide +kernel
  have hcount : (recoverJournal ringSuper).run' slicePending = some 1 := by decide +kernel
  unfold EStateM.run' EStateM.run at hcount
  cases h : recoverJournal ringSuper slicePending with
  | error e image =>
    rw [h] at hcount
    cases hcount
  | ok n final =>
    rw [h] at hcount
    cases hcount
    refine ⟨final, rfl, recoverJournal_restarts h rfl (fun i _ hi => ?_) fun k hne => ?_⟩
    · exact ByteStore.write_byte_out (Or.inl (Nat.lt_of_lt_of_le hi (by decide)))
    · rw [hpending]
      refine ⟨_, List.mem_singleton_self _, ?_⟩
      by_contra hout
      refine hne (congrArg (·.toNat.testBit (k % 8)) (ByteStore.write_byte_out ?_))
      change ¬(38 * 64 + 5 ≤ k / 8 ∧ k / 8 < 38 * 64 + 5 + 2) at hout
      simp only [List.length_singleton]
      omega

end Oifs
