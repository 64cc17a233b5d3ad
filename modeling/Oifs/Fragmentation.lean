import Mathlib.Data.Rat.Defs
import Oifs.BitmapScan
import Oifs.DiskJournal
import Oifs.RedoConfined

namespace Oifs

open BitScan

/-- The counters of the scan in `analyze_fragmentation_internal`. -/
structure RunScan where
  usedBlocks : Nat := 0
  freeRuns : Nat := 0
  currentRunLen : Nat := 0
  largestFreeRun : Nat := 0
  totalGapSize : Nat := 0
  inFreeRun : Bool := false
  deriving DecidableEq

namespace RunScan

def extend (r : RunScan) (n : Nat) : RunScan :=
  { r with
    freeRuns := if r.inFreeRun then r.freeRuns else r.freeRuns + 1
    inFreeRun := true
    currentRunLen := r.currentRunLen + n }

def close (r : RunScan) : RunScan :=
  if r.inFreeRun then
    { r with
      totalGapSize := r.totalGapSize + r.currentRunLen
      largestFreeRun := max r.largestFreeRun r.currentRunLen
      inFreeRun := false
      currentRunLen := 0 }
  else r

def count (r : RunScan) (n : Nat) : RunScan := { r with usedBlocks := r.usedBlocks + n }

/-- A word of the bitmap; a mixed one is inspected bit by bit. -/
def word (r : RunScan) (x : BitVec 64) : RunScan :=
  if x = 0 then r.extend 64
  else if x = BitVec.allOnes 64 then (r.count 64).close
  else (List.range 64).foldl
    (fun r bit => if (x &&& 1#64 <<< bit) == 0 then r.extend 1 else r.close) (r.count x.cpop.toNat)

def block (r : RunScan) (used : Bool) : RunScan :=
  if !used then r.extend 1 else (r.count 1).close

def finish (r : RunScan) : RunScan :=
  if r.inFreeRun then
    { r with
      totalGapSize := r.totalGapSize + r.currentRunLen
      largestFreeRun := max r.largestFreeRun r.currentRunLen }
  else r

end RunScan

/-- `FragmentationStats`; the two ratios are floating-point numbers in the source. -/
structure FragmentationStats where
  totalBlocks : Nat
  usedBlocks : Nat
  freeBlocks : Nat
  freeRuns : Nat
  largestFreeRun : Nat
  avgGapSize : ℚ
  fragmentationRatio : ℚ
  deriving DecidableEq

/-- The scan of a bitmap, word by word as far as the words go and then bit by bit. -/
def scanBitmap (bitmap : ByteStore) (totalBlocks : Nat) : RunScan :=
  let numWords := totalBlocks / 64
  let remBits := totalBlocks % 64
  let words := (List.range (min numWords (bitmap.len / 8))).foldl
    (fun r c => r.word (bitmap.word c)) ({} : RunScan)
  let all :=
    if 0 < remBits then
      (List.range' (numWords * 64) (totalBlocks - numWords * 64)).foldl
        (fun r i => r.block (Bitmap.get bitmap i)) words
    else words
  all.finish

def RunScan.stats (r : RunScan) (totalBlocks : Nat) : FragmentationStats :=
  let freeBlocks := totalBlocks - r.usedBlocks
  { totalBlocks := totalBlocks
    usedBlocks := r.usedBlocks
    freeBlocks := freeBlocks
    freeRuns := r.freeRuns
    largestFreeRun := r.largestFreeRun
    avgGapSize := if 0 < r.freeRuns then r.totalGapSize / r.freeRuns else 0
    fragmentationRatio :=
      if 0 < freeBlocks ∧ 1 < r.freeRuns then (r.freeRuns - 1 : Nat) / (max (freeBlocks - 1) 1 : Nat)
      else 0 }

namespace DiskImage

def dataBitmapSlice (d : DiskImage) : Option ByteStore :=
  let start := d.superblock.dataBitmapBlock * blockSize
  let len := d.superblock.dataBitmapBlocks * blockSize
  if start + len > d.mmap.len then none else some (d.mmap.sub start len)

theorem dataBitmapSlice_some {d : DiskImage}
    (h : d.superblock.dataBitmapBlock * blockSize + d.superblock.dataBitmapBlocks * blockSize ≤
      d.mmap.len) :
    d.dataBitmapSlice = some (d.mmap.sub (d.superblock.dataBitmapBlock * blockSize)
      (d.superblock.dataBitmapBlocks * blockSize)) := by
  unfold dataBitmapSlice
  exact if_neg (Nat.not_lt.mpr h)

def analyzeFragmentationInternal (d : DiskImage) : Except DiskError FragmentationStats :=
  match d.dataBitmapSlice with
  | none => .error (.io "Bitmap not found")
  | some bitmap =>
    let totalBlocks := d.superblock.blockCount - d.superblock.dataBlockStart
    .ok ((scanBitmap bitmap totalBlocks).stats totalBlocks)

end DiskImage

def scanBlocks (bit : Nat → Bool) (totalBlocks : Nat) : RunScan :=
  ((List.range totalBlocks).foldl (fun r i => r.block (bit i)) ({} : RunScan)).finish

namespace RunScan

section Words

variable (r : RunScan)

theorem extend_extend (m n : Nat) : (r.extend m).extend n = r.extend (m + n) := by
  simp [extend, Nat.add_assoc]

theorem close_count (n : Nat) : (r.count n).close = r.close.count n := by
  unfold close count
  split <;> rfl

theorem close_close : r.close.close = r.close := by
  unfold close
  split <;> rfl

theorem count_count (m n : Nat) : (r.count m).count n = r.count (m + n) := by
  simp [count, Nat.add_assoc]

def mark (r : RunScan) (used : Bool) : RunScan := if used then r.close else r.extend 1

theorem block_eq (used : Bool) : r.block used = (r.mark used).count used.toNat := by
  cases used with
  | true => exact close_count r 1
  | false => rfl

theorem mark_count (used : Bool) (n : Nat) : (r.count n).mark used = (r.mark used).count n := by
  cases used with
  | true => exact close_count r n
  | false => rfl

theorem foldl_block {α : Type*} (p : α → Bool) (l : List α) :
    l.foldl (fun r i => r.block (p i)) r = l.foldl (fun r i => r.mark (p i)) (r.count (l.countP p)) := by
  induction l generalizing r with
  | nil => rfl
  | cons a l ih =>
    rw [List.foldl_cons, List.foldl_cons, ih, block_eq, count_count, mark_count, List.countP_cons]
    cases p a with
    | true => rw [if_pos rfl, Bool.toNat_true, Nat.add_comm]
    | false => rw [if_neg (by decide), Bool.toNat_false, Nat.add_comm]

theorem foldl_extend (n : Nat) :
    (List.range (n + 1)).foldl (fun r _ => r.extend 1) r = r.extend (n + 1) := by
  induction n with
  | zero => rfl
  | succ n ih => rw [List.range_succ, List.foldl_concat, ih, extend_extend]

theorem foldl_close (n : Nat) :
    (List.range (n + 1)).foldl (fun r _ => r.close) r = r.close := by
  induction n with
  | zero => rfl
  | succ n ih => rw [List.range_succ, List.foldl_concat, ih, close_close]

theorem word_eq (x : BitVec 64) :
    r.word x = (List.range 64).foldl (fun r j => r.block (x.getLsbD j)) r := by
  rw [foldl_block, ← cpop_eq]
  unfold word
  by_cases hzero : x = 0
  · subst hzero
    rw [if_pos rfl]
    have hclear : ∀ j, (0 : BitVec 64).getLsbD j = false := fun _ => BitVec.getLsbD_zero
    simp only [hclear]
    exact (foldl_extend r 63).symm
  · rw [if_neg hzero]
    by_cases hones : x = BitVec.allOnes 64
    · subst hones
      rw [if_pos rfl]
      have hmark : (List.range 64).foldl (fun r j => r.mark ((BitVec.allOnes 64).getLsbD j))
          (r.count 64) = (List.range 64).foldl (fun r _ => r.close) (r.count 64) := by
        refine List.foldl_ext _ _ _ fun r j hj => ?_
        rw [BitVec.getLsbD_allOnes, decide_eq_true (List.mem_range.mp hj)]
        rfl
      exact (hmark.trans (foldl_close (r.count 64) 63)).symm
    · rw [if_neg hones]
      refine List.foldl_ext _ _ _ fun r j hj => ?_
      rw [and_bit_beq_zero x (List.mem_range.mp hj)]
      unfold mark
      cases x.getLsbD j <;> rfl

end Words

theorem foldl_words (r : RunScan) (d : ByteStore) (n : Nat) :
    (List.range n).foldl (fun r c => r.word (d.word c)) r =
      (List.range (n * 64)).foldl (fun r i => r.block (d.bit i)) r := by
  induction n with
  | zero => rw [Nat.zero_mul, List.range_zero, List.foldl_nil, List.foldl_nil]
  | succ n ih =>
    rw [List.range_succ, List.foldl_concat, ih, word_eq, Nat.succ_mul, List.range_add,
      List.foldl_append, List.foldl_map]
    refine List.foldl_ext _ _ _ fun r j hj => ?_
    rw [ByteStore.getLsbD_word d n (List.mem_range.mp hj)]

end RunScan

theorem scanBitmap_eq {bitmap : ByteStore} {totalBlocks : Nat} (h : totalBlocks ≤ bitmap.len * 8) :
    scanBitmap bitmap totalBlocks = scanBlocks (Bitmap.get bitmap) totalBlocks := by
  have hget : ∀ i, i < totalBlocks → bitmap.bit i = Bitmap.get bitmap i := by
    intro i hi
    rw [Bitmap.get, decide_eq_true (by omega), Bool.true_and]
  have hwords : min (totalBlocks / 64) (bitmap.len / 8) = totalBlocks / 64 := by omega
  have hsplit : List.range totalBlocks = List.range (totalBlocks / 64 * 64) ++
      List.range' (totalBlocks / 64 * 64) (totalBlocks - totalBlocks / 64 * 64) := by
    have happend := List.range'_append_1 (s := 0) (m := totalBlocks / 64 * 64)
      (n := totalBlocks - totalBlocks / 64 * 64)
    rw [Nat.add_sub_cancel' (Nat.div_mul_le_self _ _), Nat.zero_add] at happend
    rw [List.range_eq_range', List.range_eq_range', happend]
  unfold scanBitmap scanBlocks
  simp only
  rw [hwords, RunScan.foldl_words, hsplit, List.foldl_append]
  have hfront : ∀ r : RunScan, (List.range (totalBlocks / 64 * 64)).foldl
      (fun r i => r.block (bitmap.bit i)) r = (List.range (totalBlocks / 64 * 64)).foldl
        (fun r i => r.block (Bitmap.get bitmap i)) r := by
    intro r
    refine List.foldl_ext _ _ _ fun r i hi => ?_
    rw [hget i (by have := List.mem_range.mp hi; omega)]
  rw [hfront]
  split
  next => rfl
  next hrest =>
    have hnone : totalBlocks - totalBlocks / 64 * 64 = 0 := by omega
    rw [hnone]
    rfl

section Runs

variable {bit : Nat → Bool} {n : Nat} {r : RunScan}

def runStart (bit : Nat → Bool) (i : Nat) : Bool := !bit i && (decide (i = 0) || bit (i - 1))

/-- What the counters say after `n` blocks. -/
structure RunScan.Follows (bit : Nat → Bool) (n : Nat) (r : RunScan) : Prop where
  used : r.usedBlocks = (List.range n).countP bit
  runs : r.freeRuns = (List.range n).countP (runStart bit)
  inside : r.currentRunLen ≤ n
  free : ∀ k, n - r.currentRunLen ≤ k → k < n → bit k = false
  left : r.currentRunLen < n → bit (n - r.currentRunLen - 1) = true
  state : r.inFreeRun = decide (0 < r.currentRunLen)
  found : ∃ a, FreeRun bit n a r.largestFreeRun
  bound : ∀ a l, FreeRun bit n a l → l ≤ max r.largestFreeRun r.currentRunLen

namespace RunScan.Follows

theorem init (bit : Nat → Bool) : Follows bit 0 {} where
  used := rfl
  runs := rfl
  inside := Nat.le_refl 0
  free k _ hk := absurd hk (Nat.not_lt_zero k)
  left h := absurd h (Nat.lt_irrefl 0)
  state := rfl
  found := ⟨0, Nat.le_refl 0, fun k hk => absurd hk (Nat.not_lt_zero k)⟩
  bound a l h := by
    have hle := h.1
    omega

theorem current_run (h : Follows bit n r) : FreeRun bit n (n - r.currentRunLen) r.currentRunLen := by
  have hin := h.inside
  refine ⟨by omega, fun k hk => h.free _ (by omega) (by omega)⟩

theorem longest (h : Follows bit n r) : ∃ a, FreeRun bit n a (max r.largestFreeRun r.currentRunLen) := by
  rcases Nat.le_total r.largestFreeRun r.currentRunLen with hle | hle
  · rw [Nat.max_eq_right hle]
    exact ⟨_, h.current_run⟩
  · rw [Nat.max_eq_left hle]
    exact h.found

theorem close_eq (h : Follows bit n r) : r.close =
    { r with
      totalGapSize := r.totalGapSize + r.currentRunLen
      largestFreeRun := max r.largestFreeRun r.currentRunLen
      inFreeRun := false
      currentRunLen := 0 } := by
  unfold close
  by_cases hrun : r.inFreeRun = true
  · rw [if_pos hrun]
  · rw [if_neg hrun]
    have hstate := h.state
    rw [Bool.not_eq_true] at hrun
    have hzero : r.currentRunLen = 0 := by
      rw [hrun] at hstate
      simpa using hstate.symm
    cases r
    simp_all

theorem used_block (h : Follows bit n r) (hbit : bit n = true) :
    Follows bit (n + 1) (r.block true) := by
  have hblock : r.block true = r.close.count 1 := close_count r 1
  rw [hblock, h.close_eq]
  refine ⟨?_, ?_, Nat.zero_le _, ?_, fun _ => hbit, rfl, ?_, ?_⟩
  · rw [countP_range_succ, hbit, if_pos rfl, ← h.used]
    rfl
  · have hno : runStart bit n = false := by simp [runStart, hbit]
    rw [countP_range_succ, hno, if_neg (by decide), ← h.runs]
    rfl
  · intro k hlow hlt
    simp only [count] at hlow
    omega
  · obtain ⟨a, hle, hfree⟩ := h.longest
    exact ⟨a, Nat.le_succ_of_le hle, hfree⟩
  · rintro a l ⟨hle, hfree⟩
    refine le_max_of_le_left ?_
    by_cases hend : a + l ≤ n
    · exact h.bound a l ⟨hend, hfree⟩
    · -- a run that holds the used block is empty
      by_contra hlt
      have hlast := hfree (n - a) (by omega)
      rw [Nat.add_sub_cancel' (by omega), hbit] at hlast
      cases hlast

theorem free_block (h : Follows bit n r) (hbit : bit n = false) :
    Follows bit (n + 1) (r.block false) := by
  have hin := h.inside
  have hstart : runStart bit n = !r.inFreeRun := by
    rw [h.state]
    unfold runStart
    rw [hbit]
    by_cases hrun : 0 < r.currentRunLen
    · have hprev := h.free (n - 1) (by omega) (by omega)
      have hn : n ≠ 0 := by omega
      simp [hrun, hprev, hn]
    · have hzero : r.currentRunLen = 0 := by omega
      by_cases hn : n = 0
      · simp [hn, hzero]
      · have hprev := h.left (by omega)
        rw [hzero, Nat.sub_zero] at hprev
        simp [hprev, hzero]
  refine ⟨?_, ?_, ?_, ?_, ?_, ?_, ?_, ?_⟩
  · rw [countP_range_succ, hbit, if_neg (by decide), ← h.used]
    rfl
  · rw [countP_range_succ, hstart, ← h.runs]
    change (if r.inFreeRun then r.freeRuns else r.freeRuns + 1) = _
    cases r.inFreeRun <;> rfl
  · exact Nat.succ_le_succ hin
  · intro k hlow hlt
    change n + 1 - (r.currentRunLen + 1) ≤ k at hlow
    by_cases hk : k = n
    · rw [hk, hbit]
    · exact h.free k (by omega) (by omega)
  · intro hlt
    change r.currentRunLen + 1 < n + 1 at hlt
    have hleft := h.left (by omega)
    have heq : n + 1 - (r.currentRunLen + 1) - 1 = n - r.currentRunLen - 1 := by omega
    change bit (n + 1 - (r.currentRunLen + 1) - 1) = true
    rw [heq, hleft]
  · exact (decide_eq_true (Nat.succ_pos r.currentRunLen)).symm
  · obtain ⟨a, hle, hfree⟩ := h.found
    exact ⟨a, Nat.le_succ_of_le hle, hfree⟩
  · rintro a l ⟨hle, hfree⟩
    change l ≤ max r.largestFreeRun (r.currentRunLen + 1)
    by_cases hend : a + l ≤ n
    · have hold := h.bound a l ⟨hend, hfree⟩
      omega
    · refine le_max_of_le_right ?_
      -- the block before the run at hand is used, so no run reaches further to the left
      by_contra hlong
      have hleft := h.left (by omega)
      have hfalse := hfree (n - r.currentRunLen - 1 - a) (by omega)
      rw [Nat.add_sub_cancel' (by omega), hleft] at hfalse
      cases hfalse

theorem block (h : Follows bit n r) : Follows bit (n + 1) (r.block (bit n)) := by
  cases hbit : bit n with
  | true => exact h.used_block hbit
  | false => exact h.free_block hbit

theorem foldl (bit : Nat → Bool) (n : Nat) :
    Follows bit n ((List.range n).foldl (fun r i => r.block (bit i)) {}) := by
  induction n with
  | zero => exact init bit
  | succ n ih =>
    rw [List.range_succ, List.foldl_concat]
    exact ih.block

theorem finish_largest (h : Follows bit n r) :
    r.finish.largestFreeRun = max r.largestFreeRun r.currentRunLen := by
  unfold finish
  by_cases hrun : r.inFreeRun = true
  · rw [if_pos hrun]
  · rw [if_neg hrun]
    have hstate := h.state
    rw [Bool.not_eq_true] at hrun
    rw [hrun] at hstate
    have hzero : r.currentRunLen = 0 := by simpa using hstate.symm
    rw [hzero, Nat.max_zero]

end RunScan.Follows

theorem RunScan.finish_same (r : RunScan) :
    r.finish.usedBlocks = r.usedBlocks ∧ r.finish.freeRuns = r.freeRuns := by
  unfold finish
  split <;> exact ⟨rfl, rfl⟩

theorem scanBlocks_counts (bit : Nat → Bool) (n : Nat) :
    (scanBlocks bit n).usedBlocks = (List.range n).countP bit ∧
      (scanBlocks bit n).freeRuns = (List.range n).countP (runStart bit) ∧
      IsGreatest {l | ∃ a, FreeRun bit n a l} (scanBlocks bit n).largestFreeRun := by
  have h := RunScan.Follows.foldl bit n
  unfold scanBlocks
  obtain ⟨hused, hruns⟩ := RunScan.finish_same
    ((List.range n).foldl (fun r i => r.block (bit i)) ({} : RunScan))
  refine ⟨hused.trans h.used, hruns.trans h.runs, ?_⟩
  rw [h.finish_largest]
  refine ⟨h.longest, ?_⟩
  rintro l ⟨a, hrun⟩
  exact h.bound a l hrun

theorem countP_not_add (p : Nat → Bool) (n : Nat) :
    n - (List.range n).countP p = (List.range n).countP fun i => !p i := by
  have hsum := List.length_eq_countP_add_countP p (l := List.range n)
  have hnot : (List.range n).countP (fun i => decide ¬p i = true) =
      (List.range n).countP fun i => !p i := by
    refine List.countP_congr fun i _ => ?_
    simp
  rw [List.length_range, hnot] at hsum
  omega

/-- If each data block has a bit, the scan by words reports what the scan by blocks finds: used and
free blocks, free runs and the longest of them. -/
theorem analyzeFragmentation_by_blocks (d : DiskImage) (bitmap : ByteStore)
    (hslice : d.dataBitmapSlice = some bitmap)
    (hbits : d.superblock.blockCount - d.superblock.dataBlockStart ≤ bitmap.len * 8) :
    ∃ stats, d.analyzeFragmentationInternal = .ok stats ∧
      let n := d.superblock.blockCount - d.superblock.dataBlockStart
      let bit := Bitmap.get bitmap
      (stats.usedBlocks = (scanBlocks bit n).usedBlocks ∧
        stats.freeBlocks = n - (scanBlocks bit n).usedBlocks ∧
        stats.freeRuns = (scanBlocks bit n).freeRuns ∧
        stats.largestFreeRun = (scanBlocks bit n).largestFreeRun) ∧
      stats.usedBlocks = (List.range n).countP bit ∧
      stats.freeBlocks = (List.range n).countP (fun i => !bit i) ∧
      stats.freeRuns = (List.range n).countP (runStart bit) ∧
      IsGreatest {l | ∃ a, FreeRun bit n a l} stats.largestFreeRun := by
  refine ⟨_, by rw [DiskImage.analyzeFragmentationInternal, hslice], ?_⟩
  rw [scanBitmap_eq hbits]
  obtain ⟨hused, hruns, hlargest⟩ := scanBlocks_counts (Bitmap.get bitmap)
    (d.superblock.blockCount - d.superblock.dataBlockStart)
  refine ⟨⟨rfl, rfl, rfl, rfl⟩, hused, ?_, hruns, hlargest⟩
  change _ - (scanBlocks _ _).usedBlocks = _
  rw [hused, countP_not_add]

/-- A data area of two words and 22 bits: the first word is in use, and the longest free run goes over
the end of the second. -/
theorem analyzeFragmentation_three_words : ∃ (d : DiskImage) (bitmap : ByteStore),
    d.dataBitmapSlice = some bitmap ∧
    d.superblock.blockCount - d.superblock.dataBlockStart = 150 ∧ 150 ≤ bitmap.len * 8 ∧
    ∃ stats, d.analyzeFragmentationInternal = .ok stats ∧ stats.usedBlocks = 67 ∧
      stats.freeBlocks = 83 ∧ stats.freeRuns = 3 ∧ stats.largestFreeRun = 45 := by
  let d : DiskImage := ⟨{ legacySuper with blockCount := 154 }, ⟨32768, fun i =>
    if 8192 ≤ i ∧ i < 8200 then 255 else if i = 8203 then 4 else if i = 8209 then 3 else 0, by decide⟩⟩
  have hslice := DiskImage.dataBitmapSlice_some (d := d) (by decide)
  have hbits : d.superblock.blockCount - d.superblock.dataBlockStart ≤
      (d.mmap.sub (d.superblock.dataBitmapBlock * blockSize)
        (d.superblock.dataBitmapBlocks * blockSize)).len * 8 := by
    rw [ByteStore.sub_len (by decide)]
    decide
  obtain ⟨stats, hstats, ⟨hused, hfree, hruns, hlargest⟩, -⟩ :=
    analyzeFragmentation_by_blocks d _ hslice hbits
  refine ⟨d, _, hslice, rfl, hbits, stats, hstats, ?_, ?_, ?_, ?_⟩
  · rw [hused]
    decide +kernel
  · rw [hfree]
    decide +kernel
  · rw [hruns]
    decide +kernel
  · rw [hlargest]
    decide +kernel

end Runs

end Oifs
