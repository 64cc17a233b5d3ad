import Oifs.AllocSim

namespace Oifs

section Search

variable {bit : Nat → Bool} {len start hint n i : Nat}

/-- There is a free bit below `n` at or behind the hint, or one before it while none is free behind
it in the whole bitmap. -/
def SearchFinds (bit : Nat → Bool) (len hint n : Nat) : Prop :=
  ∃ k, k < n ∧ k < len ∧ bit k = false ∧ (hint ≤ k ∨ ∀ j, hint ≤ j → j < len → bit j = true)

theorem findNextFreeWrapped_below :
    (∃ i, findNextFreeWrapped bit len hint = some i ∧ i < n) ↔ SearchFinds bit len hint n := by
  unfold findNextFreeWrapped
  cases hbehind : findFirstFreeFrom bit len hint with
  | some i =>
    obtain ⟨hge, hlt, hfree, hfirst⟩ := findFirstFreeFrom_eq_some.mp hbehind
    constructor
    · rintro ⟨_, hi, hn⟩
      cases hi
      exact ⟨i, hn, hlt, hfree, Or.inl hge⟩
    · rintro ⟨k, hn, hklen, hk, hplace⟩
      refine ⟨i, rfl, ?_⟩
      rcases hplace with hhint | hall
      · by_contra hcon
        rw [hfirst k hhint (by omega)] at hk
        cases hk
      · rw [hall i hge hlt] at hfree
        cases hfree
  | none =>
    have hall := findFirstFreeFrom_eq_none.mp hbehind
    dsimp only
    constructor
    · rintro ⟨i, hi, hn⟩
      split at hi
      next =>
        obtain ⟨hfound, hbefore⟩ := Option.filter_eq_some_iff.mp hi
        obtain ⟨-, hlt, hfree, -⟩ := findFirstFreeFrom_eq_some.mp hfound
        exact ⟨i, hn, hlt, hfree, Or.inr hall⟩
      next => cases hi
    · rintro ⟨k, hn, hklen, hk, -⟩
      have hbefore : k < hint := by
        by_contra hcon
        rw [hall k (by omega) hklen] at hk
        cases hk
      cases hfound : findFirstFreeFrom bit len 0 with
      | none =>
        rw [findFirstFreeFrom_eq_none.mp hfound k (Nat.zero_le _) hklen] at hk
        cases hk
      | some i =>
        obtain ⟨-, -, -, hfirst⟩ := findFirstFreeFrom_eq_some.mp hfound
        have hle : i ≤ k := by
          by_contra hcon
          rw [hfirst k (Nat.zero_le _) (by omega)] at hk
          cases hk
        refine ⟨i, ?_, by omega⟩
        rw [if_pos (by omega), Option.filter_eq_some_iff]
        exact ⟨rfl, by simpa using (by omega : i < hint)⟩

theorem searchFinds_of_free (hfree : ∃ k < n, bit k = false) (hlen : n ≤ len)
    (hplace : hint = 0 ∨ n = len) : SearchFinds bit len hint n := by
  obtain ⟨k, hk, hbit⟩ := hfree
  rcases hplace with rfl | rfl
  · exact ⟨k, hk, by omega, hbit, Or.inl (Nat.zero_le k)⟩
  · by_cases hbehind : ∀ j, hint ≤ j → j < n → bit j = true
    · exact ⟨k, hk, hk, hbit, Or.inr hbehind⟩
    · push Not at hbehind
      obtain ⟨j, hge, hlt, hj⟩ := hbehind
      exact ⟨j, hlt, hlt, by simpa using hj, Or.inl hge⟩

end Search

def SuperBlock.AllMarked (sb : SuperBlock) (bit : Nat → Bool) : Prop :=
  ∀ b, sb.dataBlockStart ≤ b → b < sb.blockCount → bit (b - sb.dataBlockStart) = true

def SuperBlock.Finds (sb : SuperBlock) (bit : Nat → Bool) (freeBlockHint : Nat) : Prop :=
  SearchFinds bit bitmapBits (freeBlockHint - sb.dataBlockStart) (sb.blockCount - sb.dataBlockStart)

theorem allocateBlock_noSpace_iff (v : Volume) :
    (∃ w, Volume.allocateBlock v = .error .noSpace w) ↔
      ¬v.superblock.Finds v.dataBit v.freeBlockHint := by
  rw [SuperBlock.Finds, ← findNextFreeWrapped_below]
  unfold Volume.allocateBlock
  cases findNextFreeWrapped v.dataBit bitmapBits
      (v.freeBlockHint - v.superblock.dataBlockStart) with
  | none => simp
  | some i =>
    dsimp only
    by_cases hend : v.superblock.dataBlockStart + i ≥ v.superblock.blockCount
    · rw [if_pos hend]
      simp
      omega
    · rw [if_neg hend]
      simp
      omega

theorem allocBlock_noSpace_iff (v : Volume) (s : Staging) :
    s.allocBlock v = .error .noSpace ↔ ¬v.superblock.Finds s.dataBitmap s.freeBlockHint := by
  rw [SuperBlock.Finds, ← findNextFreeWrapped_below]
  unfold Staging.allocBlock
  cases findNextFreeWrapped s.dataBitmap bitmapBits
      (s.freeBlockHint - v.superblock.dataBlockStart) with
  | none => simp
  | some i =>
    dsimp only
    by_cases hend : v.superblock.dataBlockStart + i ≥ v.superblock.blockCount
    · rw [if_pos hend]
      simp
      omega
    · rw [if_neg hend]
      simp
      omega

theorem finds_of_not_allMarked {sb : SuperBlock} {bit : Nat → Bool} {hint : Nat}
    (hlen : sb.blockCount - sb.dataBlockStart ≤ bitmapBits)
    (hplace : hint ≤ sb.dataBlockStart ∨ sb.blockCount - sb.dataBlockStart = bitmapBits)
    (h : ¬sb.AllMarked bit) : sb.Finds bit hint := by
  unfold SuperBlock.AllMarked at h
  push Not at h
  obtain ⟨b, hge, hlt, hb⟩ := h
  refine searchFinds_of_free ⟨b - sb.dataBlockStart, by omega, by simpa using hb⟩ hlen ?_
  exact hplace.imp_left fun hle => Nat.sub_eq_zero_of_le hle

/-- No space means a full data area exactly when the search finds a block or there is none. -/
theorem no_space_only_when_full_iff (v : Volume) (s : Staging) :
    (((∃ w, Volume.allocateBlock v = .error .noSpace w) → v.superblock.AllMarked v.dataBit) ↔
      v.superblock.AllMarked v.dataBit ∨ v.superblock.Finds v.dataBit v.freeBlockHint) ∧
    ((s.allocBlock v = .error .noSpace → v.superblock.AllMarked s.dataBitmap) ↔
      v.superblock.AllMarked s.dataBitmap ∨ v.superblock.Finds s.dataBitmap s.freeBlockHint) ∧
    (v.superblock.blockCount - v.superblock.dataBlockStart ≤ bitmapBits → ∀ (bit : Nat → Bool) (hint : Nat),
      hint ≤ v.superblock.dataBlockStart ∨
        v.superblock.blockCount - v.superblock.dataBlockStart = bitmapBits →
      v.superblock.AllMarked bit ∨ v.superblock.Finds bit hint) := by
  rw [allocateBlock_noSpace_iff, allocBlock_noSpace_iff]
  refine ⟨by tauto, by tauto, fun hlen bit hint hplace => ?_⟩
  by_cases hfull : v.superblock.AllMarked bit
  · exact Or.inl hfull
  · exact Or.inr (finds_of_not_allMarked hlen hplace hfull)

def lastBlockTaken : Volume :=
  { Session.tinyVolume (Inode.new .file) fun _ => 0 with freeBlockHint := 24 }

def firstBitmapFull : Volume :=
  { Session.tinyVolume (Inode.new .file) fun _ => 0 with
    superblock := (SuperBlock.new 40000).getD lastBlockTaken.superblock
    mapBlocks := 40000
    dataBit := fun k => k < bitmapBits
    freeBlockHint := 1028 }

theorem lastBlockTaken_finds : ¬lastBlockTaken.superblock.Finds lastBlockTaken.dataBit 24 := by
  rintro ⟨k, hn, -, -, hplace⟩
  have hk : k < 20 := hn
  rcases hplace with hge | hall
  · have hle : 20 ≤ k := hge
    omega
  · exact absurd (hall 20 (by decide) (by decide)) (by decide)

theorem firstBitmapFull_finds (hint : Nat) :
    ¬firstBitmapFull.superblock.Finds firstBitmapFull.dataBit hint := by
  rintro ⟨k, -, hlen, hfree, -⟩
  have hmark : firstBitmapFull.dataBit k = true := decide_eq_true hlen
  rw [hfree] at hmark
  cases hmark

/-- Free blocks behind the search and behind the first bitmap block. -/
theorem no_space_with_free_blocks :
    (lastBlockTaken.Mountable ∧ (∃ w, Volume.allocateBlock lastBlockTaken = .error .noSpace w) ∧
      (∃ s, Staging.newDataOnly lastBlockTaken = .ok s ∧ s.dataBitmap = lastBlockTaken.dataBit ∧
        s.allocBlock lastBlockTaken = .error .noSpace) ∧
      ¬lastBlockTaken.superblock.AllMarked lastBlockTaken.dataBit) ∧
    (firstBitmapFull.Mountable ∧ (∃ w, Volume.allocateBlock firstBitmapFull = .error .noSpace w) ∧
      (∃ s, Staging.newDataOnly firstBitmapFull = .ok s ∧ s.dataBitmap = firstBitmapFull.dataBit ∧
        s.allocBlock firstBitmapFull = .error .noSpace) ∧
      ¬firstBitmapFull.superblock.AllMarked firstBitmapFull.dataBit) := by
  refine ⟨⟨⟨24 * blockSize, by decide, rfl⟩, ?_, ⟨_, rfl, rfl, ?_⟩, fun h => ?_⟩,
    ⟨⟨40000 * blockSize, by decide, rfl⟩, ?_, ⟨_, rfl, rfl, ?_⟩, fun h => ?_⟩⟩
  · exact (allocateBlock_noSpace_iff _).mpr lastBlockTaken_finds
  · exact (allocBlock_noSpace_iff _ _).mpr lastBlockTaken_finds
  · exact absurd (h 5 (by decide) (by decide)) (by decide)
  · exact (allocateBlock_noSpace_iff _).mpr (firstBitmapFull_finds _)
  · exact (allocBlock_noSpace_iff _ _).mpr (firstBitmapFull_finds _)
  · exact absurd (h 33796 (by decide) (by decide)) (by decide)

end Oifs
