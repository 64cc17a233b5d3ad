import Oifs.RedoConfined

namespace Oifs

/-- The single-block operation on each block of a range; nothing is changed if one fails. -/
def applyEach (sb : SuperBlock) (image : ByteStore) (startBlock : UInt64) (count : UInt32)
    (allocated : Bool) : Except JournalError ByteStore :=
  (List.range count.toNat).foldlM (fun image k =>
    applyOpInPlace sb image (.setDataBitmap (startBlock + UInt64.ofNat k) allocated)) image

def SuperBlock.dataBits (sb : SuperBlock) : Nat := sb.dataBitmapBlocks * sb.blockSize * 8

section Store

variable {s t u : ByteStore}

theorem byte_eq_of_bits {i : Nat} (h : ∀ j, s.bit j = t.bit j) : s.byte i = t.byte i := by
  apply UInt8.toNat_inj.mp
  apply Nat.eq_of_testBit_eq
  intro k
  by_cases hk : k < 8
  · have hbit := h (i * 8 + k)
    unfold ByteStore.bit at hbit
    rwa [show (i * 8 + k) / 8 = i by omega, show (i * 8 + k) % 8 = k by omega] at hbit
  · have hlarge : ∀ b : UInt8, b.toNat.testBit k = false := by
      intro b
      refine Nat.testBit_lt_two_pow (Nat.lt_of_lt_of_le b.toNat_lt ?_)
      exact Nat.pow_le_pow_right (by decide) (Nat.not_lt.mp hk)
    rw [hlarge, hlarge]

theorem store_ext_bits (hlen : s.len = t.len) (h : ∀ j, s.bit j = t.bit j) : s = t := by
  have hbyte : s.byte = t.byte := funext fun i => byte_eq_of_bits h
  cases s
  cases t
  simp_all

theorem overlay_overlay (start : Nat) (hlen : t.len = u.len) :
    (s.overlay start t).overlay start u = s.overlay start u := by
  unfold ByteStore.overlay
  simp only [ByteStore.mk.injEq, true_and]
  funext i
  split
  next => rfl
  next h => rw [if_neg (hlen ▸ h)]

theorem put_byte_out (v : Bool) (d : ByteStore) (index : Nat) {i : Nat} (hi : d.len ≤ i) :
    (Bitmap.put v d index).byte i = d.byte i := by
  unfold Bitmap.put
  split
  next h => exact if_neg (by omega)
  next => rfl

end Store

section Range

variable {v : Bool} {d : ByteStore} {p : Nat}

theorem bit_foldl_put {n : Nat} (h : p + n ≤ d.len * 8) :
    ((List.range n).foldl (fun d k => Bitmap.put v d (p + k)) d).len = d.len ∧
    ∀ j, ((List.range n).foldl (fun d k => Bitmap.put v d (p + k)) d).bit j =
      if p ≤ j ∧ j < p + n then v else d.bit j := by
  induction n with
  | zero =>
    refine ⟨rfl, fun j => ?_⟩
    rw [if_neg (by omega)]
    rfl
  | succ n ih =>
    obtain ⟨hlen, hbit⟩ := ih (by omega)
    rw [List.range_succ, List.foldl_concat]
    refine ⟨by rw [Bitmap.put_len, hlen], fun j => ?_⟩
    rw [Bitmap.bit_put v _ (by rw [hlen]; omega), hbit]
    by_cases hj : j = p + n
    · rw [if_pos hj, if_pos (by omega)]
    · rw [if_neg hj]
      exact if_congr (by omega) rfl rfl

theorem putRange_eq_foldl {n : Nat} (h : p + n ≤ d.len * 8) :
    Bitmap.putRange v d p n = (List.range n).foldl (fun d k => Bitmap.put v d (p + k)) d := by
  obtain ⟨hlen, hbit⟩ := bit_foldl_put (v := v) h
  apply store_ext_bits
  · rw [Bitmap.putRange_len, hlen]
  · intro j
    rw [Bitmap.bit_putRange, hbit]
    exact if_congr (by omega) rfl rfl

theorem putRange_zero (v : Bool) (d : ByteStore) (p : Nat) : Bitmap.putRange v d p 0 = d := by
  unfold Bitmap.putRange
  exact if_pos (Nat.min_le_left _ _)

end Range

section Span

variable {sb : SuperBlock} {image : ByteStore}

theorem SuperBlock.Validated.span_fits (hv : sb.Validated image.len) :
    sb.dataBitmapBlock * sb.blockSize + sb.dataBitmapBlocks * sb.blockSize ≤ image.len := by
  have hle := hv.dataBitmap_le
  have htable := hv.table_le_data
  have hdata := hv.data_lt_count
  have hfits := hv.fits
  rw [hv.blockSize_eq, ← Nat.add_mul]
  exact Nat.le_trans (Nat.mul_le_mul_right _ (by omega)) hfits

theorem bitmapSpanRange_fits (hv : sb.Validated image.len) :
    bitmapSpanRange image sb.blockSize sb.dataBitmapBlock sb.dataBitmapBlocks =
      .ok (sb.dataBitmapBlock * sb.blockSize,
        sb.dataBitmapBlock * sb.blockSize + sb.dataBitmapBlocks * sb.blockSize) := by
  unfold bitmapSpanRange
  exact if_neg (Nat.not_lt.mpr hv.span_fits)

def dataSpan (sb : SuperBlock) (image : ByteStore) : ByteStore :=
  image.sub (sb.dataBitmapBlock * sb.blockSize) (sb.dataBitmapBlocks * sb.blockSize)

def withSpan (sb : SuperBlock) (image bitmap : ByteStore) : ByteStore :=
  image.overlay (sb.dataBitmapBlock * sb.blockSize) bitmap

theorem dataSpan_len (hv : sb.Validated image.len) :
    (dataSpan sb image).len = sb.dataBitmapBlocks * sb.blockSize := by
  have hfits := hv.span_fits
  exact ByteStore.sub_len (by omega)

theorem applyOpInPlace_single (hv : sb.Validated image.len) {b : UInt64} {allocated : Bool}
    (hlow : sb.dataBlockStart ≤ b.toNat) (hlt : b.toNat < sb.blockCount) :
    applyOpInPlace sb image (.setDataBitmap b allocated) =
      if b.toNat - sb.dataBlockStart < sb.dataBits then
        .ok (withSpan sb image (Bitmap.put allocated (dataSpan sb image) (b.toNat - sb.dataBlockStart)))
      else .error (.blockOutOfRange b.toNat) := by
  have hlen := dataSpan_len hv
  unfold dataSpan at hlen
  unfold applyOpInPlace setSpanBit
  rw [bitmapSpanRange_fits hv]
  simp only [bind, Except.bind, pure, Except.pure, throw, throwThe, MonadExceptOf.throw,
    Nat.add_sub_cancel_left]
  rw [if_neg (by omega), hlen]
  unfold SuperBlock.dataBits
  by_cases hbit : b.toNat - sb.dataBlockStart < sb.dataBitmapBlocks * sb.blockSize * 8
  · rw [if_neg (by omega), if_pos hbit]
    rfl
  · rw [if_pos (by omega), if_neg hbit]

theorem applyOpInPlace_single_out {b : UInt64} {allocated : Bool}
    (h : b.toNat < sb.dataBlockStart ∨ sb.blockCount ≤ b.toNat) :
    applyOpInPlace sb image (.setDataBitmap b allocated) = .error (.blockOutOfRange b.toNat) := by
  unfold applyOpInPlace
  simp only [bind, Except.bind, throw, throwThe, MonadExceptOf.throw]
  rw [if_pos h]

theorem applyOpInPlace_range (hv : sb.Validated image.len) {start : UInt64} {count : UInt32}
    {allocated : Bool} :
    applyOpInPlace sb image (.setDataBitmapRange start count allocated) =
      if sb.dataBlockStart ≤ start.toNat ∧ start.toNat + count.toNat ≤ sb.blockCount then
        .ok (withSpan sb image (Bitmap.putRange allocated (dataSpan sb image)
          (start.toNat - sb.dataBlockStart) count.toNat))
      else .error (.blockOutOfRange start.toNat) := by
  have hover := hv.no_overflow
  unfold applyOpInPlace
  rw [bitmapSpanRange_fits hv]
  simp only [bind, Except.bind, pure, Except.pure, throw, throwThe, MonadExceptOf.throw,
    Nat.add_sub_cancel_left]
  have hcount : sb.blockCount < 2 ^ 64 - 1 := by
    simp only [blockSize] at hover
    omega
  by_cases hin : sb.dataBlockStart ≤ start.toNat ∧ start.toNat + count.toNat ≤ sb.blockCount
  · rw [if_neg (by omega), if_pos hin]
    rfl
  · rw [if_pos (by omega), if_neg hin]

theorem dataSpan_withSpan (hv : sb.Validated image.len) {bitmap : ByteStore}
    (hlen : bitmap.len = sb.dataBitmapBlocks * sb.blockSize)
    (htail : ∀ i, bitmap.len ≤ i → bitmap.byte i = (dataSpan sb image).byte i) :
    dataSpan sb (withSpan sb image bitmap) = bitmap := by
  have hfits := hv.span_fits
  unfold dataSpan withSpan
  rw [← hlen]
  exact ByteStore.sub_overlay (by omega) htail

theorem foldl_put_tail {v : Bool} {d : ByteStore} {p n i : Nat} (h : p + n ≤ d.len * 8)
    (hi : d.len ≤ i) :
    ((List.range n).foldl (fun d k => Bitmap.put v d (p + k)) d).byte i = d.byte i := by
  induction n with
  | zero => rfl
  | succ n ih =>
    have hlen := (bit_foldl_put (v := v) (n := n) (by omega : p + n ≤ d.len * 8)).1
    rw [List.range_succ, List.foldl_concat, put_byte_out _ _ _ (by rw [hlen]; exact hi), ih (by omega)]

variable {start : UInt64} {allocated : Bool}

theorem toNat_add_ofNat {k : Nat} (h : start.toNat + k < 2 ^ 64) :
    (start + UInt64.ofNat k).toNat = start.toNat + k := by
  rw [UInt64.toNat_add, UInt64.toNat_ofNat_of_lt' (by rw [UInt64.size]; omega), Nat.mod_eq_of_lt h]

theorem singles_ok (hv : sb.Validated image.len) (hlow : sb.dataBlockStart ≤ start.toNat) {n : Nat}
    (hcount : start.toNat + n ≤ sb.blockCount)
    (hbits : start.toNat + n - sb.dataBlockStart ≤ sb.dataBits) :
    (List.range n).foldlM (fun image k =>
        applyOpInPlace sb image (.setDataBitmap (start + UInt64.ofNat k) allocated)) image =
      .ok (withSpan sb image ((List.range n).foldl (fun d k =>
        Bitmap.put allocated d (start.toNat - sb.dataBlockStart + k)) (dataSpan sb image))) := by
  have hspan := dataSpan_len hv
  have hover := hv.no_overflow
  simp only [blockSize] at hover
  induction n with
  | zero =>
    refine congrArg Except.ok ?_
    exact ByteStore.overlay_sub.symm
  | succ n ih =>
    have hroom : start.toNat - sb.dataBlockStart + n ≤ (dataSpan sb image).len * 8 := by
      rw [hspan]
      unfold SuperBlock.dataBits at hbits
      omega
    obtain ⟨hlen, -⟩ := bit_foldl_put (v := allocated) hroom
    have hback := dataSpan_withSpan hv (hlen.trans hspan) fun i hi =>
      foldl_put_tail hroom (by rw [← hlen]; exact hi)
    have hid : (start + UInt64.ofNat n).toNat = start.toNat + n := toNat_add_ofNat (by omega)
    rw [List.range_succ, List.foldlM_append, ih (by omega) (by omega), List.foldl_concat]
    simp only [bind, Except.bind, List.foldlM_cons, List.foldlM_nil]
    rw [applyOpInPlace_single (by exact hv) (by omega) (by omega), hid, hback, if_pos (by omega)]
    refine congrArg Except.ok ?_
    rw [show start.toNat + n - sb.dataBlockStart = start.toNat - sb.dataBlockStart + n by omega]
    exact overlay_overlay _ (by rw [Bitmap.put_len])

theorem foldlM_range_error {ε α : Type} {f : α → Nat → Except ε α} {a b : α} {e : ε} {k n : Nat}
    (hkn : k < n) (hok : (List.range k).foldlM f a = .ok b) (herr : f b k = .error e) :
    (List.range n).foldlM f a = .error e := by
  obtain ⟨m, rfl⟩ : ∃ m, n = k + (m + 1) := ⟨n - k - 1, by omega⟩
  rw [List.range_add, List.foldlM_append, hok, List.range_succ_eq_map]
  simp only [bind, Except.bind, List.map_cons, List.foldlM_cons, Nat.add_zero, herr]

theorem applyOpInPlace_single_error (hv : sb.Validated image.len) {b : UInt64}
    (h : ¬(sb.dataBlockStart ≤ b.toNat ∧ b.toNat < sb.blockCount ∧
      b.toNat - sb.dataBlockStart < sb.dataBits)) :
    applyOpInPlace sb image (.setDataBitmap b allocated) = .error (.blockOutOfRange b.toNat) := by
  by_cases hin : sb.dataBlockStart ≤ b.toNat ∧ b.toNat < sb.blockCount
  · rw [applyOpInPlace_single hv hin.1 hin.2, if_neg (by omega)]
  · exact applyOpInPlace_single_out (by omega)

theorem singles_error (allocated : Bool) (hv : sb.Validated image.len) {n : Nat} (hpos : 0 < n)
    (hbad : ¬(sb.dataBlockStart ≤ start.toNat ∧ start.toNat + n ≤ sb.blockCount ∧
      start.toNat + n - sb.dataBlockStart ≤ sb.dataBits)) :
    ∃ e, (List.range n).foldlM (fun image k =>
      applyOpInPlace sb image (.setDataBitmap (start + UInt64.ofNat k) allocated)) image = .error e := by
  have hover := hv.no_overflow
  simp only [blockSize] at hover
  by_cases hfirst : sb.dataBlockStart ≤ start.toNat ∧ start.toNat < sb.blockCount ∧
      start.toNat - sb.dataBlockStart < sb.dataBits
  · -- as many blocks go through as both bounds allow
    obtain ⟨k, hk⟩ : ∃ k, k = min (sb.blockCount - start.toNat)
        (sb.dataBits - (start.toNat - sb.dataBlockStart)) := ⟨_, rfl⟩
    have hid : (start + UInt64.ofNat k).toNat = start.toNat + k := toNat_add_ofNat (by omega)
    refine ⟨.blockOutOfRange (start + UInt64.ofNat k).toNat, foldlM_range_error (k := k) (by omega)
      (singles_ok hv hfirst.1 (by omega) (by omega)) ?_⟩
    exact applyOpInPlace_single_error (by exact hv) (by rw [hid]; omega)
  · refine ⟨_, foldlM_range_error hpos (by rfl) (applyOpInPlace_single_error hv ?_)⟩
    rwa [toNat_add_ofNat (by have := start.toNat_lt; omega), Nat.add_zero]

def RangeBacked (sb : SuperBlock) (start count : Nat) : Prop :=
  if count = 0 then sb.dataBlockStart ≤ start ∧ start ≤ sb.blockCount
  else sb.dataBlockStart ≤ start → start + count ≤ sb.blockCount →
    start + count - sb.dataBlockStart ≤ sb.dataBits

instance (sb : SuperBlock) (start count : Nat) : Decidable (RangeBacked sb start count) := by
  unfold RangeBacked
  infer_instance

/-- The ranged operation agrees with the single ones exactly where every data block of the range has
a bit; an empty range has to lie in the area as well. -/
theorem range_agrees_iff (sb : SuperBlock) (image : ByteStore)
    (hvalid : sb.validate image.len = .ok ()) (start : UInt64) (count : UInt32) (allocated : Bool) :
    (applyOpInPlace sb image (.setDataBitmapRange start count allocated)).toOption =
        (applyEach sb image start count allocated).toOption ↔
      RangeBacked sb start.toNat count.toNat := by
  have hv := SuperBlock.validated_of_ok hvalid
  rw [applyOpInPlace_range hv]
  unfold applyEach RangeBacked
  by_cases hzero : count.toNat = 0
  · rw [if_pos hzero, hzero, Nat.add_zero]
    by_cases hin : sb.dataBlockStart ≤ start.toNat ∧ start.toNat ≤ sb.blockCount
    · rw [if_pos hin]
      refine iff_of_true (congrArg some ?_) hin
      rw [putRange_zero]
      exact ByteStore.overlay_sub
    · rw [if_neg hin]
      exact iff_of_false (fun h => by cases h) hin
  · rw [if_neg hzero]
    by_cases hin : sb.dataBlockStart ≤ start.toNat ∧ start.toNat + count.toNat ≤ sb.blockCount
    · rw [if_pos hin]
      by_cases hbits : start.toNat + count.toNat - sb.dataBlockStart ≤ sb.dataBits
      · rw [singles_ok hv hin.1 hin.2 hbits, putRange_eq_foldl]
        · exact iff_of_true rfl fun _ _ => hbits
        · rw [dataSpan_len hv]
          unfold SuperBlock.dataBits at hbits
          omega
      · obtain ⟨e, he⟩ := singles_error allocated hv (Nat.pos_of_ne_zero hzero)
          (fun h => hbits h.2.2)
        rw [he]
        exact iff_of_false (fun h => by cases h) (fun h => hbits (h hin.1 hin.2))
    · obtain ⟨e, he⟩ := singles_error allocated hv (Nat.pos_of_ne_zero hzero)
        (fun h => hin ⟨h.1, h.2.1⟩)
      rw [if_neg hin, he]
      exact iff_of_true rfl fun hlow hcount => absurd ⟨hlow, hcount⟩ hin

theorem range_agrees_three_blocks : legacySuper.validate 32768 = .ok () ∧
    ∀ image : ByteStore, image.len = 32768 →
      (applyOpInPlace legacySuper image (.setDataBitmapRange 4 3 true)).toOption =
        (applyEach legacySuper image 4 3 true).toOption :=
  ⟨by decide, fun image hlen => (range_agrees_iff legacySuper image (by rw [hlen]; decide) 4 3 true).mpr
    (by decide)⟩

/-- A journaled image whose data area has one block more than its bitmap has bits. -/
def wideSuper : SuperBlock :=
  { legacySuper with
    blockCount := 37 + 32769
    inodeTableBlock := journalInodeTableBlock
    inodeCount := 16
    dataBlockStart := 37
    formatVersion := SuperBlock.formatVersionFixedInode }

/-- The last two blocks of that data area: the ranged operation succeeds, the single one on the
second fails. An empty range at block 0 fails. -/
theorem range_cut_off : ∃ image : ByteStore, wideSuper.validate image.len = .ok () ∧
    wideSuper.hasJournalLayout = true ∧
    (applyOpInPlace wideSuper image (.setDataBitmapRange 32804 2 true)).toOption.isSome = true ∧
    applyOpInPlace wideSuper image (.setDataBitmap 32805 true) = .error (.blockOutOfRange 32805) ∧
    (applyEach wideSuper image 32804 2 true).toOption.isSome = false ∧
    (applyOpInPlace wideSuper image (.setDataBitmapRange 0 0 true)).toOption.isSome = false ∧
    (applyEach wideSuper image 0 0 true).toOption.isSome = true := by
  let image : ByteStore := ⟨32806 * 4096, fun _ => 0, by decide⟩
  have hvalid : wideSuper.validate image.len = .ok () := by decide
  have hv := SuperBlock.validated_of_ok hvalid
  refine ⟨image, hvalid, by decide, ?_, ?_, ?_, ?_, rfl⟩
  · rw [applyOpInPlace_range hv, if_pos (by decide)]
    rfl
  · exact applyOpInPlace_single_error hv (by decide)
  · have heach : ∃ e, applyEach wideSuper image 32804 2 true = .error e :=
      singles_error true hv (by decide) (by decide)
    obtain ⟨e, he⟩ := heach
    rw [he]
    rfl
  · rw [applyOpInPlace_range hv, if_neg (by decide)]
    rfl

end Span

end Oifs
