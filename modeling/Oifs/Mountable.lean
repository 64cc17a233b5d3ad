import Oifs.BlockTree
import Oifs.Layout

namespace Oifs

/-- An image that `SuperBlock::validate` accepts for the length of its file. -/
def Volume.Mountable (v : Volume) : Prop :=
  ∃ len, v.superblock.validate len = .ok () ∧ v.mapBlocks = len / blockSize

theorem Volume.Mountable.start_pos {v : Volume} (h : v.Mountable) :
    0 < v.superblock.dataBlockStart := by
  obtain ⟨len, hvalid, -⟩ := h
  have hv := SuperBlock.validated_of_ok hvalid
  exact Nat.lt_of_lt_of_le (Nat.zero_lt_of_lt hv.bitmap_lt_table) hv.table_le_data

theorem Volume.Mountable.count_le {v : Volume} (h : v.Mountable) :
    v.superblock.blockCount ≤ v.mapBlocks := by
  obtain ⟨len, hvalid, hmap⟩ := h
  have hv := SuperBlock.validated_of_ok hvalid
  rw [hmap]
  exact (Nat.le_div_iff_mul_le (by decide)).mpr hv.fits

theorem Volume.Mountable.sound {v : Volume} (h : v.Mountable) : v.Sound := by
  refine ⟨h.start_pos, h.count_le, ?_⟩
  obtain ⟨len, hvalid, -⟩ := h
  have hover := (SuperBlock.validated_of_ok hvalid).no_overflow
  simp only [show blockSize = 4096 from rfl] at hover
  omega

theorem Volume.Mountable.bitmaps_inside {v : Volume} (h : v.Mountable) :
    v.superblock.inodeBitmapBlocks = 1 ∧
    v.superblock.inodeBitmapBlock + v.superblock.inodeBitmapBlocks ≤ v.mapBlocks ∧
    v.superblock.dataBitmapBlock + v.superblock.dataBitmapBlocks ≤ v.mapBlocks := by
  have hcount := h.count_le
  obtain ⟨len, hvalid, -⟩ := h
  have hv := SuperBlock.validated_of_ok hvalid
  have hfive := hv.five_le
  have hone : v.superblock.inodeBitmapBlocks = 1 := by
    have hle := hv.inodes_le
    unfold SuperBlock.inodeBitmapBlocks
    split
    next =>
      simp only [divCeil, SuperBlock.bitmapBlockBits, SuperBlock.maxTrackedInodes] at hle ⊢
      omega
    next => rfl
  refine ⟨hone, by rw [hone, hv.inodeBitmap_eq]; omega, ?_⟩
  have htable := hv.table_le_data
  have hdata := hv.data_lt_count
  by_cases hv3 : v.superblock.isV3Layout = true
  · have hspan := hv.v3_table hv3
    omega
  · rw [SuperBlock.dataBitmapBlocks, if_pos (by simpa using hv3), hv.dataBitmap_eq]
    omega

end Oifs
