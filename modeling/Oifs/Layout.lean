import Oifs.SuperBlock

namespace Oifs

namespace SuperBlock

structure Validated (sb : SuperBlock) (mmapLen : Nat) : Prop where
  blockSize_eq : sb.blockSize = Oifs.blockSize
  five_le : 5 ≤ sb.blockCount
  no_overflow : sb.blockCount * Oifs.blockSize < 2 ^ 64
  fits : sb.blockCount * Oifs.blockSize ≤ mmapLen
  inodeBitmap_eq : sb.inodeBitmapBlock = 1
  dataBitmap_eq : sb.dataBitmapBlock = 2
  bitmap_lt_table : sb.dataBitmapBlock < sb.inodeTableBlock
  table_le_data : sb.inodeTableBlock ≤ sb.dataBlockStart
  data_lt_count : sb.dataBlockStart < sb.blockCount
  inodes_pos : 0 < sb.inodeCount
  inodes_le : sb.inodeCount ≤ maxTrackedInodes
  root_lt : sb.rootInode < sb.usableInodeCount
  v3_table : sb.isV3Layout = true → sb.inodeTableBlock =
    sb.dataBitmapBlock + sb.dataBitmapBlocks +
      if sb.hasJournalLayout then journalReservedBlocks else 0

theorem validated_of_ok {sb : SuperBlock} {mmapLen : Nat} (h : sb.validate mmapLen = .ok ()) :
    sb.Validated mmapLen := by
  unfold validate at h
  simp only [bind, Except.bind, pure, Except.pure, throw, throwThe, MonadExceptOf.throw,
    ite_error_eq_ok, not_not, ne_eq, ge_iff_le, gt_iff_lt, Nat.not_le, Nat.not_lt] at h
  obtain ⟨_, hbs, hfive, hover, hfit, hib, hdb, htab, htd, hdc, hne, hin, hmax, _, hroot, hv3⟩ := h
  refine ⟨hbs, hfive, hover, hfit, hib, hdb, htab, htd, by omega, by omega, hmax, hroot, ?_⟩
  intro hv
  rw [if_pos hv, ite_error_eq_ok, ite_error_eq_ok] at hv3
  simpa using hv3.2.1

end SuperBlock

/-- A run of whole blocks, `stop` excluded. -/
structure BlockRange where
  start : Nat
  stop : Nat

namespace BlockRange

def Disjoint (a b : BlockRange) : Prop := ∀ x, ¬(a.start ≤ x ∧ x < a.stop ∧ b.start ≤ x ∧ x < b.stop)

theorem disjoint_of_le {a b : BlockRange} (h : a.stop ≤ b.start) : a.Disjoint b := by
  intro x hx
  omega

end BlockRange

namespace SuperBlock

/-- `journal_region`: it starts at a constant block, wherever the data bitmap ends. -/
def journalBlockRange : BlockRange :=
  ⟨journalHeaderBlock, journalHeaderBlock + journalReservedBlocks⟩

def regions (sb : SuperBlock) : List BlockRange :=
  [⟨0, 1⟩,
   ⟨sb.inodeBitmapBlock, sb.inodeBitmapBlock + sb.inodeBitmapBlocks⟩,
   ⟨sb.dataBitmapBlock, sb.dataBitmapBlock + sb.dataBitmapBlocks⟩] ++
  (if sb.hasJournalLayout then [journalBlockRange] else []) ++
  [⟨sb.inodeTableBlock, sb.inodeTableBlock + divCeil sb.inodeCount inodeSlotsPerBlock⟩,
   ⟨sb.dataBlockStart, sb.blockCount⟩]

def LayoutSound (sb : SuperBlock) (mmapLen : Nat) : Prop :=
  sb.regions.Pairwise BlockRange.Disjoint ∧
    ∀ r ∈ sb.regions, r.stop * Oifs.blockSize ≤ mmapLen

theorem divCeil_bitmapBlockBits (n : Nat) : divCeil n bitmapBlockBits = (n + 32767) / 32768 :=
  congrArg (· / 32768) (Nat.add_sub_assoc (by decide) n)

theorem span_eq_one_iff {n : Nat} : max ((n + 32767) / 32768) 1 = 1 ↔ n ≤ 32768 := by
  omega

variable {journaled : Bool} {sb : SuperBlock} {total : Nat}

theorem newV3_fields (h : newV3 total journaled = some sb) :
    ∃ jb tb db, jb = (if journaled then 33 else 0) ∧
      (total > 3 + jb + 1024 ∧ tb = 1024 ∨
        total ≤ 3 + jb + 1024 ∧ tb = (total - (3 + jb) - 1) / 4) ∧
      db = max ((total - (3 + jb + tb) + 32767) / 32768) 1 ∧
      2 + db + jb + tb < total ∧
      sb.blockCount = total ∧ sb.inodeBitmapBlock = 1 ∧ sb.dataBitmapBlock = 2 ∧
      sb.inodeTableBlock = 2 + db + jb ∧ sb.inodeCount = tb * 16 ∧
      sb.dataBlockStart = 2 + db + jb + tb ∧ sb.formatVersion = 3 ∧ tb ≤ 1024 := by
  unfold newV3 at h
  generalize hjb : (if journaled = true then journalReservedBlocks else 0) = jb at h
  simp only [show 1 + 1 + 1 + jb = 3 + jb by omega] at h
  generalize htb : (if total > 3 + jb + 1024 then 1024 else (total - (3 + jb) - 1) / 4) = tb at h
  have hcap : tb ≤ 1024 := by split at htb <;> omega
  have hib : max (divCeil (tb * inodeSlotsPerBlock) bitmapBlockBits) 1 = 1 := by
    clear htb h
    rw [divCeil_bitmapBlockBits, inodeSlotsPerBlock, Oifs.blockSize, inodeSlotSize]
    exact span_eq_one_iff.mpr (by omega)
  have hdb : divCeil (total - (1 + 1 + 1 + jb + tb)) bitmapBlockBits =
      (total - (3 + jb + tb) + 32767) / 32768 := by
    rw [show 1 + 1 + 1 + jb + tb = 3 + jb + tb by omega, divCeil_bitmapBlockBits]
  rw [hib, hdb] at h
  split at h
  next hroom =>
    cases h
    refine ⟨jb, tb, _, hjb.symm, ?_, rfl, hroom, rfl, rfl, rfl, rfl, rfl, rfl, rfl, hcap⟩
    split at htb
    next hbig => exact Or.inl ⟨hbig, htb.symm⟩
    next hsmall => exact Or.inr ⟨by omega, htb.symm⟩
  next => simp at h

theorem span_add_le {m n : Nat} (h : m ≤ n + 33) :
    max ((m + 32767) / 32768) 1 ≤ max ((n + 32767) / 32768) 1 + 1 := by
  have hdiv : (m + 32767) / 32768 ≤ (n + 32767) / 32768 + 1 := by
    rw [← Nat.add_div_right _ (by decide : 0 < 32768)]
    exact Nat.div_le_div_right (by omega)
  exact Nat.max_le.mpr ⟨Nat.le_trans hdiv (Nat.succ_le_succ (Nat.le_max_left _ _)), Nat.le_add_left _ _⟩

theorem dataBitmapBlocks_of_span (hv3 : sb.isV3Layout = true) (hib : sb.inodeBitmapBlocks = 1)
    (hle : sb.dataBitmapSpan 0 ≤ sb.dataBitmapSpan 33 + 1)
    (htable : sb.inodeTableBlock = 2 + sb.dataBitmapSpan (if journaled then 33 else 0) +
      (if journaled then 33 else 0)) :
    sb.dataBitmapBlocks = sb.dataBitmapSpan (if journaled then 33 else 0) := by
  simp only [dataBitmapBlocks, hv3, Bool.not_true, Bool.false_eq_true, if_false, hib]
  generalize sb.dataBitmapSpan = span at hle htable ⊢
  cases journaled with
  | false =>
    have hpos : sb.inodeTableBlock = 1 + 1 + span 0 + 0 := htable
    simp only [List.find?_cons, decide_eq_true hpos]
    rfl
  | true =>
    have hpos : sb.inodeTableBlock = 1 + 1 + span journalReservedBlocks + journalReservedBlocks :=
      htable
    have hne : ¬sb.inodeTableBlock = 1 + 1 + span 0 + 0 := by
      simp only [if_true] at htable
      omega
    simp only [List.find?_cons, decide_eq_false hne, decide_eq_true hpos]
    rfl

theorem newV3_spans (h : newV3 total journaled = some sb) :
    sb.inodeBitmapBlocks = 1 ∧ sb.inodeTableBlock =
      2 + sb.dataBitmapBlocks + (if journaled then journalReservedBlocks else 0) ∧
      sb.hasJournalLayout = journaled := by
  obtain ⟨jb, tb, db, hjb, -, hdb, -, hcount, -, -, htable, hinodes, hstart, hver, hcap⟩ :=
    newV3_fields h
  have hv3 : sb.isV3Layout = true := by simp [isV3Layout, hver, formatVersionV3Layout]
  have hib : sb.inodeBitmapBlocks = 1 := by
    simp only [inodeBitmapBlocks, hv3, if_true, divCeil_bitmapBlockBits, hinodes]
    exact span_eq_one_iff.mpr (by clear hdb; omega)
  have hspan : ∀ j, sb.dataBitmapSpan j = max ((total - (3 + j + tb) + 32767) / 32768) 1 := by
    intro j
    have hargs : 1 + 1 + 1 + j + (2 + db + jb + tb - (2 + db + jb)) = 3 + j + tb := by
      clear hdb
      omega
    simp only [dataBitmapSpan, divCeil_bitmapBlockBits, hib, hcount, hstart, htable, hargs]
  have hle : sb.dataBitmapSpan 0 ≤ sb.dataBitmapSpan 33 + 1 := by
    rw [hspan, hspan]
    exact span_add_le (by clear hdb hib; omega)
  rw [← hspan] at hdb
  clear hspan
  subst hjb hdb
  have hblocks := dataBitmapBlocks_of_span hv3 hib hle htable
  generalize sb.dataBitmapSpan = span at htable hblocks
  refine ⟨hib, ?_, ?_⟩
  · rw [htable, hblocks]
    rfl
  · rw [hasJournalLayout, if_pos hv3, hib, hblocks, htable]
    cases journaled with
    | false => exact decide_eq_false (Nat.ne_of_lt (Nat.lt_add_of_pos_right (by decide)))
    | true => exact decide_eq_true rfl

theorem journaled_bitmap_single_iff
    (h : newV3 total true = some sb) : sb.dataBitmapBlocks = 1 ↔ total ≤ 33828 := by
  obtain ⟨jb, tb, db, hjb, htb, hdb, -, -, -, -, htable, -, -, -, -⟩ := newV3_fields h
  obtain ⟨-, hspan, -⟩ := newV3_spans h
  simp only [if_true, journalReservedBlocks, journalRingBlocks] at hjb hspan
  subst hjb
  have heq : sb.dataBitmapBlocks = db := by
    clear hdb htb
    omega
  rw [heq, hdb, span_eq_one_iff]
  clear hdb heq
  obtain ⟨hbig, rfl⟩ | ⟨hsmall, rfl⟩ := htb <;> omega

theorem dataBitmapBlocks_pos (sb : SuperBlock) : 0 < sb.dataBitmapBlocks := by
  unfold dataBitmapBlocks
  split
  next => exact Nat.one_pos
  next =>
    split
    next => exact Nat.lt_of_lt_of_le Nat.one_pos (Nat.le_max_right _ _)
    next => exact Nat.one_pos

theorem journal_overlaps_bitmap {mmapLen : Nat}
    (hstart : sb.dataBitmapBlock = 2) (hblocks : 2 ≤ sb.dataBitmapBlocks)
    (hj : sb.hasJournalLayout = true) : ¬sb.LayoutSound mmapLen := by
  rintro ⟨hpair, _⟩
  simp only [regions, hj, if_true, List.cons_append, List.nil_append, List.pairwise_cons] at hpair
  have hjournal := hpair.2.2.1 journalBlockRange (by simp)
  exact hjournal 3 ⟨by simp only [hstart]; omega, by simp only [hstart]; omega,
    by decide, by decide⟩

theorem layoutSound_of_single_bitmap {total mmapLen : Nat}
    (h : newV3 total journaled = some sb) (hv : sb.Validated mmapLen)
    (hone : journaled = true → sb.dataBitmapBlocks = 1) : sb.LayoutSound mmapLen := by
  obtain ⟨jb, tb, db, hjb, -, -, hroom, hcount, -, -, htable, hinodes, hstart, -, -⟩ := newV3_fields h
  obtain ⟨hib, hspan, hlayout⟩ := newV3_spans h
  have hfit := hv.fits
  have htabBlocks : divCeil sb.inodeCount inodeSlotsPerBlock = tb := by
    simp only [divCeil, inodeSlotsPerBlock, Oifs.blockSize, inodeSlotSize, hinodes]
    omega
  rw [hcount, Oifs.blockSize] at hfit
  cases journaled with
  | false =>
    simp only [Bool.false_eq_true, if_false] at hspan hjb
    subst hjb
    simp only [LayoutSound, regions, hlayout, Bool.false_eq_true, if_false, List.append_nil,
      List.cons_append, List.nil_append, List.pairwise_cons, List.mem_cons, List.not_mem_nil,
      or_false, forall_eq_or_imp, forall_eq, hv.inodeBitmap_eq, hv.dataBitmap_eq, hib, htabBlocks,
      hcount, hstart, htable, Oifs.blockSize]
    refine ⟨⟨⟨?_, ?_, ?_, ?_⟩, ⟨?_, ?_, ?_⟩, ⟨?_, ?_⟩, ?_, by simp, .nil⟩, ?_⟩
    all_goals first | (apply BlockRange.disjoint_of_le; simp only; omega) | omega
  | true =>
    have hone := hone rfl
    simp only [if_true] at hspan hjb
    subst hjb
    simp only [LayoutSound, regions, hlayout, if_true, List.cons_append, List.nil_append,
      List.pairwise_cons, List.mem_cons, List.not_mem_nil, or_false, forall_eq_or_imp, forall_eq,
      hv.inodeBitmap_eq, hv.dataBitmap_eq, hib, hone, htabBlocks, hcount, hstart, htable,
      Oifs.blockSize, journalBlockRange, journalHeaderBlock, journalReservedBlocks,
      journalRingBlocks]
    simp only [hone, htable, journalReservedBlocks, journalRingBlocks] at hspan
    refine ⟨⟨⟨?_, ?_, ?_, ?_, ?_⟩, ⟨?_, ?_, ?_, ?_⟩, ⟨?_, ?_, ?_⟩, ⟨?_, ?_⟩, ?_, by simp, .nil⟩, ?_⟩
    all_goals first | (apply BlockRange.disjoint_of_le; simp only; omega) | omega

/-- The regions of a constructed image are apart exactly while a journaled one has one data bitmap
block. -/
theorem newV3_layoutSound_iff {total mmapLen : Nat} {journaled : Bool} {sb : SuperBlock}
    (h : newV3 total journaled = some sb) (hv : sb.validate mmapLen = .ok ()) :
    sb.LayoutSound mmapLen ↔ (journaled = true → total ≤ 33828) := by
  have hval := validated_of_ok hv
  obtain ⟨-, -, hlayout⟩ := newV3_spans h
  constructor
  · intro hs hj
    apply (journaled_bitmap_single_iff (hj ▸ h)).mp
    by_contra hne
    have hpos := sb.dataBitmapBlocks_pos
    exact journal_overlaps_bitmap hval.dataBitmap_eq (by omega) (hlayout.trans hj) hs
  · intro hle
    exact layoutSound_of_single_bitmap h hval
      (fun hj => (journaled_bitmap_single_iff (hj ▸ h)).mpr (hle hj))

theorem newV3_layoutSound_at_64 : ∃ sb, newV3 64 true = some sb ∧
    sb.validate (64 * 4096) = .ok () ∧
      (sb.LayoutSound (64 * 4096) ↔ (true = true → 64 ≤ 33828)) := by
  obtain ⟨sb, hsb⟩ : ∃ sb, newV3 64 true = some sb := ⟨_, rfl⟩
  have hv : sb.validate (64 * 4096) = .ok () := by
    cases hsb
    rfl
  exact ⟨sb, hsb, hv, newV3_layoutSound_iff hsb hv⟩

/-- A journaled image of 33,829 blocks is accepted with its journal inside its data bitmap. -/
theorem journaled_layout_overlaps : ∃ sb, newV3 33829 true = some sb ∧
    sb.validate (33829 * 4096) = .ok () ∧ ¬sb.LayoutSound (33829 * 4096) := by
  obtain ⟨sb, hsb⟩ : ∃ sb, newV3 33829 true = some sb := ⟨_, rfl⟩
  obtain ⟨-, -, hlayout⟩ := newV3_spans hsb
  have hv : sb.validate (33829 * 4096) = .ok () := by
    cases hsb
    rfl
  have hpos := sb.dataBitmapBlocks_pos
  have hne : ¬sb.dataBitmapBlocks = 1 := fun he => absurd ((journaled_bitmap_single_iff hsb).mp he) (by decide)
  exact ⟨sb, hsb, hv, journal_overlaps_bitmap (validated_of_ok hv).dataBitmap_eq (by omega) hlayout⟩

/-- The span of the data bitmap that `new_v3` makes room for, between the bitmap's start and the journal
or the inode table. -/
def newV3Span (totalBlocks : Nat) (journaled : Bool) : Nat :=
  let journalBlocks := if journaled then journalReservedBlocks else 0
  let metadataBlocks := 1 + 1 + 1 + journalBlocks
  let inodeTableBlocks :=
    if totalBlocks > metadataBlocks + 1024 then 1024 else (totalBlocks - metadataBlocks - 1) / 4
  let inodeBitmapBlocks := max (divCeil (inodeTableBlocks * inodeSlotsPerBlock) bitmapBlockBits) 1
  max (divCeil (totalBlocks - (1 + inodeBitmapBlocks + 1 + journalBlocks + inodeTableBlocks))
    bitmapBlockBits) 1

theorem newV3_table (h : newV3 total journaled = some sb) : sb.inodeTableBlock =
      sb.dataBitmapBlock + newV3Span total journaled + if journaled then journalReservedBlocks else 0 := by
  unfold newV3 at h
  obtain ⟨-, hsb⟩ := Option.ite_none_right_eq_some.mp h
  cases hsb
  rfl

theorem span_covers (total before : Nat) :
    total - before ≤ max ((total - before + 32767) / 32768) 1 * bitmapBlockBits := by
  have hdiv := Nat.div_add_mod (total - before + 32767) 32768
  have hmod := Nat.mod_lt (total - before + 32767) (by decide : 0 < 32768)
  calc total - before ≤ (total - before + 32767) / 32768 * 32768 := by omega
    _ ≤ max ((total - before + 32767) / 32768) 1 * 32768 :=
        Nat.mul_le_mul_right _ (Nat.le_max_left _ _)

/-- A new volume, read back from its superblock, has the spans it was laid out with. -/
theorem newV3_read_back {total : Nat} {journaled : Bool} {sb : SuperBlock}
    (h : newV3 total journaled = some sb) :
    sb.dataBitmapBlocks = newV3Span total journaled ∧ sb.hasJournalLayout = journaled ∧
      (sb.inodeTableBlock = sb.dataBitmapBlock + newV3Span total journaled +
        if journaled then journalReservedBlocks else 0) ∧
      ∀ block, sb.dataBlockStart ≤ block → block < total →
        block - sb.dataBlockStart < sb.dataBitmapBlocks * bitmapBlockBits := by
  obtain ⟨-, hspan, hlayout⟩ := newV3_spans h
  have htable := newV3_table h
  obtain ⟨jb, tb, db, hjb, -, hdb, -, -, -, hbitmap, hstored, -, hstart, -, -⟩ := newV3_fields h
  have hread : sb.dataBitmapBlocks = db := by
    clear hdb
    split at hspan <;> simp_all [journalReservedBlocks, journalRingBlocks]
  refine ⟨by omega, hlayout, htable, ?_⟩
  intro block hle hlt
  have hcovers := span_covers total (3 + jb + tb)
  rw [← hdb, ← hread] at hcovers
  have hpos := sb.dataBitmapBlocks_pos
  clear hdb hjb
  omega

theorem newV3_read_back_at_64 : ∃ sb, newV3 64 true = some sb ∧
    sb.dataBitmapBlocks = newV3Span 64 true ∧ sb.hasJournalLayout = true := by
  obtain ⟨sb, hsb⟩ : ∃ sb, newV3 64 true = some sb := ⟨_, rfl⟩
  obtain ⟨hspan, hlayout, -, -⟩ := newV3_read_back hsb
  exact ⟨sb, hsb, hspan, hlayout⟩

theorem newV3_inodes_pos_iff (h : newV3 total journaled = some sb) :
    0 < sb.inodeCount ↔ (if journaled then 41 else 8) ≤ total := by
  obtain ⟨jb, tb, db, hjb, htb, hdb, hroom, -, -, -, -, hinodes, -, -, -⟩ := newV3_fields h
  clear hdb
  rw [hinodes]
  cases journaled <;> simp only [Bool.false_eq_true, if_false, if_true] at hjb ⊢ <;> omega

theorem newV3_usable
    (h : newV3 total journaled = some sb) : sb.usableInodeCount = sb.inodeCount := by
  obtain ⟨jb, tb, db, -, -, -, -, -, -, -, htable, hinodes, hstart, -, hcap⟩ := newV3_fields h
  have hblocks : sb.dataBlockStart - sb.inodeTableBlock = tb := by omega
  have hslots : inodeSlotsPerBlock = 16 := rfl
  rw [usableInodeCount, inodeTableCapacity, hblocks, hinodes, hslots, maxTrackedInodes]
  omega

/-- `validate` accepts what the constructor returns exactly when the inode table got a block and the
image has a length. -/
theorem newV3_validate_iff {total : Nat} {journaled : Bool} {sb : SuperBlock}
    (h : newV3 total journaled = some sb) :
    sb.validate (total * Oifs.blockSize) = .ok () ↔
      (if journaled then 41 else 8) ≤ total ∧ total * Oifs.blockSize < 2 ^ 64 := by
  have hinodes := newV3_inodes_pos_iff h
  have husable := newV3_usable h
  obtain ⟨hib, htable, hlayout⟩ := newV3_spans h
  have hmin : (if journaled then 41 else 8) ≤ total → 5 ≤ total := by split <;> omega
  obtain ⟨hmagic, hsize, hroot⟩ : sb.magic = magicWord ∧ sb.blockSize = Oifs.blockSize ∧
      sb.rootInode = 0 := by
    unfold newV3 at h
    obtain ⟨-, hsb⟩ := Option.ite_none_right_eq_some.mp h
    cases hsb
    exact ⟨rfl, rfl, rfl⟩
  obtain ⟨jb, tb, db, -, -, hdb, hroom, hcount, hbitmap, hdata, hstored, hslots, hstart, hver, hcap⟩ :=
    newV3_fields h
  clear hdb
  have hv3 : sb.isV3Layout = true := by simp [isV3Layout, hver, formatVersionV3Layout]
  constructor
  · intro hv
    have hval := validated_of_ok hv
    exact ⟨hinodes.mp hval.inodes_pos, hcount ▸ hval.no_overflow⟩
  · rintro ⟨hle, hlen⟩
    have hpos := hinodes.mpr hle
    have hfive := hmin hle
    have hspan := sb.dataBitmapBlocks_pos
    have hpow : inodeSlotsPerBlock = 16 := rfl
    have hend : divCeil sb.usableInodeCount inodeSlotsPerBlock = tb := by
      rw [husable, hslots, hpow, divCeil]
      omega
    have hmax : sb.inodeCount ≤ maxTrackedInodes := by
      rw [hslots, maxTrackedInodes]
      omega
    unfold validate
    simp only [bind, Except.bind, pure, Except.pure, throw, throwThe, MonadExceptOf.throw,
      ite_error_eq_ok, not_not, ne_eq, ge_iff_le, gt_iff_lt, Nat.not_le, Nat.not_lt]
    refine ⟨hmagic, hsize, by omega, hcount ▸ hlen, hcount ▸ Nat.le_refl _, hbitmap, hdata, by omega, by omega, by omega,
      by omega, by omega, hmax, by omega, by omega, ?_⟩
    rw [if_pos hv3, ite_error_eq_ok, ite_error_eq_ok, hib, hlayout]
    refine ⟨by omega, ?_, rfl⟩
    simp only [not_not]
    omega

theorem newV3_validate_at_eight : ∃ sb, newV3 8 false = some sb ∧
    sb.validate (8 * Oifs.blockSize) = .ok () := by
  obtain ⟨sb, hsb⟩ : ∃ sb, newV3 8 false = some sb := ⟨_, rfl⟩
  exact ⟨sb, hsb, (newV3_validate_iff hsb).mpr (by decide)⟩

/-- Five blocks are the documented minimum and 37 the least for a journal; both get a table of no
blocks. -/
theorem newV3_without_inodes :
    (∃ sb, newV3 5 false = some sb ∧
      sb.validate (5 * Oifs.blockSize) = .error "Inode count cannot be zero") ∧
    ∃ sb, newV3 37 true = some sb ∧
      sb.validate (37 * Oifs.blockSize) = .error "Inode count cannot be zero" :=
  ⟨⟨_, rfl, rfl⟩, _, rfl, rfl⟩

end SuperBlock

end Oifs
