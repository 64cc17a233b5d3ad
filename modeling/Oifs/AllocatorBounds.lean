import Oifs.NoSpace

namespace Oifs

section Search

variable {bit : Nat → Bool} {len count start hint n i j : Nat}

/-- There is a free run that ends by `n` at or behind the hint, or one before it while none is
behind it in the whole bitmap. -/
def RunFinds (bit : Nat → Bool) (len hint count n : Nat) : Prop :=
  ∃ k, FreeRun bit len k count ∧ k + count ≤ n ∧
    (hint ≤ k ∨ ∀ j, hint ≤ j → ¬FreeRun bit len j count)

theorem findContiguousFreeWrapped_within (hcount : 0 < count) :
    (∀ i, findContiguousFreeWrapped bit len hint count = some i → i + count ≤ n) ↔
      RunFinds bit len hint count n ∨ ∀ k, ¬FreeRun bit len k count := by
  unfold findContiguousFreeWrapped
  have hbehind : FirstRun bit len count hint (findContiguousFreeFrom bit len hint count) :=
    firstRun_from hcount
  cases hfound : findContiguousFreeFrom bit len hint count with
  | some i =>
    rw [hfound] at hbehind
    obtain ⟨hge, hrun, hfirst⟩ := hbehind
    constructor
    · intro hall
      exact Or.inl ⟨i, hrun, hall i rfl, Or.inl hge⟩
    · rintro (⟨k, hk, hkn, hplace⟩ | hnone) _ hi
      · cases hi
        rcases hplace with hhint | hbefore
        · by_contra hcon
          exact hfirst k hhint (by omega) hk
        · exact absurd hrun (hbefore i hge)
      · exact absurd hrun (hnone i)
  | none =>
    rw [hfound] at hbehind
    dsimp only
    have hwhole : FirstRun bit len count 0 (findContiguousFreeFrom bit len 0 count) :=
      firstRun_from hcount
    constructor
    · intro hall
      by_cases hany : ∃ k, FreeRun bit len k count
      · obtain ⟨k, hk⟩ := hany
        have hbefore : k < hint := by
          by_contra hcon
          exact hbehind k (by omega) hk
        cases hzero : findContiguousFreeFrom bit len 0 count with
        | none =>
          rw [hzero] at hwhole
          exact absurd hk (hwhole k (Nat.zero_le k))
        | some i =>
          rw [hzero] at hwhole hall
          obtain ⟨-, hrun, hfirst⟩ := hwhole
          have hik : i ≤ k := by
            by_contra hcon
            exact hfirst k (Nat.zero_le k) (by omega) hk
          refine Or.inl ⟨i, hrun, hall i ?_, Or.inr hbehind⟩
          rw [if_pos (by omega), Option.filter_eq_some_iff]
          exact ⟨rfl, by simpa using (by omega : i < hint)⟩
      · exact Or.inr fun k hk => hany ⟨k, hk⟩
    · intro hcond i hi
      split at hi
      next =>
        obtain ⟨hsome, -⟩ := Option.filter_eq_some_iff.mp hi
        rw [hsome] at hwhole
        obtain ⟨-, hrun, hfirst⟩ := hwhole
        rcases hcond with ⟨k, hk, hkn, -⟩ | hnone
        · by_contra hcon
          exact hfirst k (Nat.zero_le k) (by omega) hk
        · exact absurd hrun (hnone i)
      next => cases hi

end Search

/-- `SimpleBlockAllocator`: the bits of one bitmap block. -/
structure SimpleBlockAllocator where
  bitmap : Nat → Bool
  startBlockOffset : Nat

namespace SimpleBlockAllocator

variable (a : SimpleBlockAllocator)

def setRange (start count : Nat) (val : Bool) : SimpleBlockAllocator :=
  { a with bitmap := fun k =>
      if start ≤ a.startBlockOffset + k ∧ a.startBlockOffset + k < start + count then val
      else a.bitmap k }

def allocateWithHint (hint : Nat) : Option Nat × SimpleBlockAllocator :=
  match findNextFreeWrapped a.bitmap bitmapBits (hint - a.startBlockOffset) with
  | none => (none, a)
  | some bit => (some (a.startBlockOffset + bit), a.setRange (a.startBlockOffset + bit) 1 true)

def allocateContiguous (count hint : Nat) : Option Nat × SimpleBlockAllocator :=
  if count = 0 then (some hint, a)
  else
    match findContiguousFreeWrapped a.bitmap bitmapBits (hint - a.startBlockOffset) count with
    | none => (none, a)
    | some bit =>
      (some (a.startBlockOffset + bit), a.setRange (a.startBlockOffset + bit) count true)

def freeContiguous (start count : Nat) : SimpleBlockAllocator :=
  if count = 0 ∨ start < a.startBlockOffset then a else a.setRange start count false

/-- `alloc_block` of the simulation: a block past the end of the image is released again. -/
def allocBlock (blockCount hint : Nat) : Option Nat × SimpleBlockAllocator :=
  match a.allocateWithHint hint with
  | (none, a) => (none, a)
  | (some blk, a) => if blk ≥ blockCount then (none, a.freeContiguous blk 1) else (some blk, a)

/-- `alloc_contiguous` of the simulation: a run that leaves the image is released again. -/
def allocContiguous (blockCount count hint : Nat) : Option Nat × SimpleBlockAllocator :=
  match a.allocateContiguous count hint with
  | (none, a) => (none, a)
  | (some blk, a) =>
    if count ≠ 0 ∧ blk + count > blockCount then (none, a.freeContiguous blk count)
    else (some blk, a)

/-- What an allocator owes: the run lies in the data area, was free and is marked, and no other bit
changes. -/
def HandsOut (blockCount count : Nat) : Option Nat × SimpleBlockAllocator → Prop
  | (none, b) => b = a
  | (some start, b) =>
    (∀ x, start ≤ x → x < start + count → a.startBlockOffset ≤ x ∧ x < blockCount ∧
      a.bitmap (x - a.startBlockOffset) = false ∧ b.bitmap (x - a.startBlockOffset) = true) ∧
    ∀ k, ¬(start ≤ a.startBlockOffset + k ∧ a.startBlockOffset + k < start + count) →
      b.bitmap k = a.bitmap k

variable {a}
variable {blockCount count hint start : Nat}

@[simp] theorem setRange_offset (start count : Nat) (val : Bool) :
    (a.setRange start count val).startBlockOffset = a.startBlockOffset := rfl

theorem setRange_one (bit : Nat) (val : Bool) :
    (a.setRange (a.startBlockOffset + bit) 1 val).bitmap = Function.update a.bitmap bit val := by
  funext k
  by_cases hk : k = bit
  · subst hk
    simp [setRange]
  · rw [Function.update_of_ne hk]
    simp only [setRange]
    rw [if_neg (by omega)]

theorem release_run (hstart : a.startBlockOffset ≤ start)
    (hfree : ∀ x, start ≤ x → x < start + count → a.bitmap (x - a.startBlockOffset) = false) :
    (a.setRange start count true).freeContiguous start count = a := by
  unfold freeContiguous
  by_cases hzero : count = 0
  · rw [if_pos (Or.inl hzero)]
    simp [setRange, hzero, show ∀ k, ¬(start ≤ a.startBlockOffset + k ∧
      a.startBlockOffset + k < start) from fun k => by omega]
  · rw [setRange_offset, if_neg (not_or.mpr ⟨hzero, Nat.not_lt.mpr hstart⟩)]
    obtain ⟨bitmap, offset⟩ := a
    simp only [setRange, mk.injEq, and_true]
    funext k
    split
    next hin =>
      have hclear := hfree (offset + k) hin.1 hin.2
      simp only [Nat.add_sub_cancel_left] at hclear
      rw [hclear]
    next => rfl

theorem handsOut_setRange (hstart : a.startBlockOffset ≤ start)
    (hfree : ∀ x, start ≤ x → x < start + count → a.bitmap (x - a.startBlockOffset) = false)
    (hend : start + count ≤ blockCount) :
    a.HandsOut blockCount count (some start, a.setRange start count true) := by
  constructor
  · intro x hlo hhi
    refine ⟨by omega, by omega, hfree x hlo hhi, if_pos (by omega)⟩
  · intro k hk
    exact if_neg hk

theorem freeRun_bits {bit : Nat} (h : FreeRun a.bitmap bitmapBits bit count) (x : Nat)
    (hlo : a.startBlockOffset + bit ≤ x) (hhi : x < a.startBlockOffset + bit + count) :
    a.bitmap (x - a.startBlockOffset) = false := by
  have hfree := h.2 (x - a.startBlockOffset - bit) (by omega)
  rwa [show bit + (x - a.startBlockOffset - bit) = x - a.startBlockOffset by omega] at hfree

theorem freeRun_of_found {bit : Nat}
    (h : findNextFreeWrapped a.bitmap bitmapBits (hint - a.startBlockOffset) = some bit) :
    FreeRun a.bitmap bitmapBits bit 1 := by
  obtain ⟨hclear, hlt⟩ := findNextFreeWrapped_some h
  refine ⟨hlt, fun k hk => ?_⟩
  rw [show bit + k = bit by omega]
  exact hclear

theorem allocBlock_eq (blockCount hint : Nat) : a.allocBlock blockCount hint =
    match findNextFreeWrapped a.bitmap bitmapBits (hint - a.startBlockOffset) with
    | none => (none, a)
    | some bit =>
      if a.startBlockOffset + bit ≥ blockCount then (none, a)
      else (some (a.startBlockOffset + bit), a.setRange (a.startBlockOffset + bit) 1 true) := by
  unfold allocBlock allocateWithHint
  cases hfound : findNextFreeWrapped a.bitmap bitmapBits (hint - a.startBlockOffset) with
  | none => rfl
  | some bit =>
    dsimp only
    rw [release_run (Nat.le_add_right _ _) (freeRun_bits (freeRun_of_found hfound))]

theorem allocContiguous_eq (blockCount hint : Nat) (hpos : 0 < count) :
    a.allocContiguous blockCount count hint =
      match findContiguousFreeWrapped a.bitmap bitmapBits (hint - a.startBlockOffset) count with
      | none => (none, a)
      | some bit =>
        if a.startBlockOffset + bit + count > blockCount then (none, a)
        else (some (a.startBlockOffset + bit),
          a.setRange (a.startBlockOffset + bit) count true) := by
  unfold allocContiguous allocateContiguous
  rw [if_neg (Nat.ne_of_gt hpos)]
  cases hfound : findContiguousFreeWrapped a.bitmap bitmapBits (hint - a.startBlockOffset)
      count with
  | none => rfl
  | some bit =>
    dsimp only
    rw [release_run (Nat.le_add_right _ _)
      (freeRun_bits (findContiguousFreeWrapped_some hpos hfound))]
    simp only [Nat.ne_of_gt hpos, ne_eq, not_false_eq_true, true_and]

theorem handsOut_allocBlock (blockCount hint : Nat) :
    a.HandsOut blockCount 1 (a.allocBlock blockCount hint) := by
  rw [allocBlock_eq]
  split
  next => rfl
  next bit hfound =>
    split
    next => rfl
    next hin =>
      exact handsOut_setRange (Nat.le_add_right _ _) (freeRun_bits (freeRun_of_found hfound))
        (by omega)

theorem handsOut_allocContiguous (blockCount count hint : Nat) :
    a.HandsOut blockCount count (a.allocContiguous blockCount count hint) := by
  by_cases hzero : count = 0
  · unfold allocContiguous allocateContiguous
    simp [HandsOut, hzero]
  · have hpos := Nat.pos_of_ne_zero hzero
    rw [allocContiguous_eq blockCount hint hpos]
    split
    next => rfl
    next bit hfound =>
      split
      next => rfl
      next hin =>
        exact handsOut_setRange (Nat.le_add_right _ _)
          (freeRun_bits (findContiguousFreeWrapped_some hpos hfound)) (by omega)

theorem handsOut_allocateContiguous_iff (blockCount count hint : Nat) :
    a.HandsOut blockCount count (a.allocateContiguous count hint) ↔
      count = 0 ∨ RunFinds a.bitmap bitmapBits (hint - a.startBlockOffset) count
        (blockCount - a.startBlockOffset) ∨ ∀ k, ¬FreeRun a.bitmap bitmapBits k count := by
  unfold allocateContiguous
  by_cases hzero : count = 0
  · rw [if_pos hzero]
    simp [HandsOut, hzero]
  · have hpos := Nat.pos_of_ne_zero hzero
    rw [if_neg hzero, or_iff_right hzero, ← findContiguousFreeWrapped_within hpos]
    cases hfound : findContiguousFreeWrapped a.bitmap bitmapBits (hint - a.startBlockOffset)
        count with
    | none => simp [HandsOut]
    | some bit =>
      have hfree := freeRun_bits (findContiguousFreeWrapped_some hpos hfound)
      dsimp only
      constructor
      · intro howed i hi
        cases hi
        have hlast := (howed.1 (a.startBlockOffset + bit + (count - 1)) (by omega) (by omega)).2.1
        omega
      · intro hwithin
        have hend := hwithin bit rfl
        exact handsOut_setRange (Nat.le_add_right _ _) hfree (by omega)

end SimpleBlockAllocator

def Volume.allocator (v : Volume) : SimpleBlockAllocator := ⟨v.dataBit, v.superblock.dataBlockStart⟩

@[simp] theorem Volume.allocator_bitmap (v : Volume) : v.allocator.bitmap = v.dataBit := rfl

@[simp] theorem Volume.allocator_offset (v : Volume) :
    v.allocator.startBlockOffset = v.superblock.dataBlockStart := rfl

def Staging.allocator (v : Volume) (s : Staging) : SimpleBlockAllocator :=
  ⟨s.dataBitmap, v.superblock.dataBlockStart⟩

def Volume.allocates (x : DiskM Nat) (v : Volume) : Option Nat × SimpleBlockAllocator :=
  match x v with
  | .ok blk w => (some blk, w.allocator)
  | .error _ w => (none, w.allocator)

theorem Volume.run_of_allocates {x : DiskM Nat} {v : Volume} {blk : Nat} {a : SimpleBlockAllocator}
    (h : v.allocates x = (some blk, a)) : ∃ w, x v = .ok blk w := by
  unfold Volume.allocates at h
  split at h
  next blk' w hrun =>
    cases h
    exact ⟨w, hrun⟩
  next => cases h

theorem allocator_setBlock (v : Volume) (b : Nat) (f : Nat → UInt8) :
    (v.setBlock b f).allocator = v.allocator := by
  unfold Volume.setBlock
  split <;> rfl

theorem allocator_setMark (v : Volume) (bit : Nat) :
    (v.setMark (v.superblock.dataBlockStart + bit) true).allocator =
      v.allocator.setRange (v.allocator.startBlockOffset + bit) 1 true := by
  have hbits := SimpleBlockAllocator.setRange_one (a := v.allocator) bit true
  simp only [Volume.allocator, Volume.setMark, Nat.add_sub_cancel_left] at hbits ⊢
  rw [← hbits]
  rfl

theorem allocates_allocateBlock (v : Volume) : v.allocates Volume.allocateBlock =
    v.allocator.allocBlock v.superblock.blockCount v.freeBlockHint := by
  rw [SimpleBlockAllocator.allocBlock_eq]
  unfold Volume.allocates Volume.allocateBlock
  rw [Volume.allocator_bitmap, Volume.allocator_offset]
  cases findNextFreeWrapped v.dataBit bitmapBits
      (v.freeBlockHint - v.superblock.dataBlockStart) with
  | none => rfl
  | some bit =>
    dsimp only
    by_cases hend : v.superblock.dataBlockStart + bit ≥ v.superblock.blockCount
    · rw [if_pos hend, if_pos hend]
    · rw [if_neg hend, if_neg hend]
      dsimp only
      rw [allocator_setBlock]
      exact congrArg (Prod.mk _) (allocator_setMark v bit)

theorem allocates_allocateContiguous (v : Volume) (count : Nat) :
    v.allocates (Volume.allocateContiguousBlocksInternal count) =
      v.allocator.allocateContiguous count v.freeBlockHint := by
  unfold Volume.allocates SimpleBlockAllocator.allocateContiguous
    Volume.allocateContiguousBlocksInternal
  rw [Volume.allocator_bitmap, Volume.allocator_offset]
  dsimp only [bind, EStateM.bind, get, getThe, MonadStateOf.get, EStateM.get]
  by_cases hzero : count = 0
  · rw [if_pos hzero, if_pos hzero]
    rfl
  · rw [if_neg hzero, if_neg hzero]
    cases findContiguousFreeWrapped v.dataBit bitmapBits
        (v.freeBlockHint - v.superblock.dataBlockStart) count with
    | none => rfl
    | some bit => rfl

def Staging.allocates (v : Volume) (s : Staging) :
    Except DiskError (Nat × Staging) → Option Nat × SimpleBlockAllocator
  | .ok r => (some r.1, r.2.allocator v)
  | .error _ => (none, s.allocator v)

theorem allocates_allocBlock (v : Volume) (s : Staging) : s.allocates v (s.allocBlock v) =
    (s.allocator v).allocBlock v.superblock.blockCount s.freeBlockHint := by
  have hbits := SimpleBlockAllocator.setRange_one (a := s.allocator v)
  rw [SimpleBlockAllocator.allocBlock_eq]
  unfold Staging.allocBlock Staging.allocator at *
  dsimp only at *
  cases findNextFreeWrapped s.dataBitmap bitmapBits
      (s.freeBlockHint - v.superblock.dataBlockStart) with
  | none => rfl
  | some bit =>
    dsimp only
    by_cases hend : v.superblock.dataBlockStart + bit ≥ v.superblock.blockCount
    · rw [if_pos hend, if_pos hend]
      rfl
    · rw [if_neg hend, if_neg hend, Staging.allocates, Staging.allocator, ← hbits]
      rfl

theorem allocates_allocContiguous (v : Volume) (s : Staging) (count : Nat) :
    s.allocates v (s.allocContiguous v count) =
      (s.allocator v).allocContiguous v.superblock.blockCount count s.freeBlockHint := by
  unfold Staging.allocContiguous
  by_cases hzero : count = 0
  · rw [if_pos hzero, SimpleBlockAllocator.allocContiguous, SimpleBlockAllocator.allocateContiguous,
      if_pos hzero]
    exact (if_neg fun h => h.1 hzero).symm
  · rw [if_neg hzero, SimpleBlockAllocator.allocContiguous_eq _ _ (Nat.pos_of_ne_zero hzero)]
    unfold Staging.allocator
    dsimp only
    cases findContiguousFreeWrapped s.dataBitmap bitmapBits
        (s.freeBlockHint - v.superblock.dataBlockStart) count with
    | none => rfl
    | some bit =>
      dsimp only
      by_cases hend : v.superblock.dataBlockStart + bit + count > v.superblock.blockCount
      · rw [if_pos hend, if_pos hend]
        rfl
      · rw [if_neg hend, if_neg hend]
        rfl

/-- The four allocators hand out what they owe, exactly if the in-place search finds a run inside
the image or none. -/
theorem allocators_handOut_iff (v : Volume) (s : Staging) (count : Nat) :
    (v.allocator.HandsOut v.superblock.blockCount 1 (v.allocates Volume.allocateBlock) ∧
      v.allocator.HandsOut v.superblock.blockCount count
        (v.allocates (Volume.allocateContiguousBlocksInternal count)) ∧
      (s.allocator v).HandsOut v.superblock.blockCount 1
        ((s.allocator v).allocBlock v.superblock.blockCount s.freeBlockHint) ∧
      (s.allocator v).HandsOut v.superblock.blockCount count
        ((s.allocator v).allocContiguous v.superblock.blockCount count s.freeBlockHint)) ↔
    count = 0 ∨ RunFinds v.dataBit bitmapBits (v.freeBlockHint - v.superblock.dataBlockStart) count
      (v.superblock.blockCount - v.superblock.dataBlockStart) ∨
      ∀ k, ¬FreeRun v.dataBit bitmapBits k count := by
  have hrun := SimpleBlockAllocator.handsOut_allocateContiguous_iff (a := v.allocator)
    v.superblock.blockCount count v.freeBlockHint
  rw [allocates_allocateBlock, allocates_allocateContiguous, hrun]
  constructor
  · exact fun h => h.2.1
  · exact fun h => ⟨SimpleBlockAllocator.handsOut_allocBlock _ _, h,
      SimpleBlockAllocator.handsOut_allocBlock _ _,
      SimpleBlockAllocator.handsOut_allocContiguous _ _ _⟩

/-- With the hint behind the last block a run of one block is handed out past the end of the image.
-/
theorem run_outside_image : lastBlockTaken.Mountable ∧
    (∃ start w, Volume.allocateContiguousBlocksInternal 1 lastBlockTaken = .ok start w ∧
      lastBlockTaken.superblock.blockCount ≤ start) ∧
    ¬lastBlockTaken.allocator.HandsOut lastBlockTaken.superblock.blockCount 1
      (lastBlockTaken.allocates (Volume.allocateContiguousBlocksInternal 1)) := by
  have hfree : FreeRun lastBlockTaken.dataBit bitmapBits 20 1 := by
    refine ⟨by decide, fun k hk => ?_⟩
    obtain rfl : k = 0 := by omega
    decide
  have hout : ¬(RunFinds lastBlockTaken.dataBit bitmapBits 20 1 20 ∨
      ∀ k, ¬FreeRun lastBlockTaken.dataBit bitmapBits k 1) := by
    rintro (⟨k, -, hn, hge | hnone⟩ | hnone)
    · omega
    · exact hnone 20 (Nat.le_refl 20) hfree
    · exact hnone 20 hfree
  refine ⟨⟨24 * blockSize, by decide, rfl⟩, ?_, ?_⟩
  · rw [← findContiguousFreeWrapped_within (by decide)] at hout
    push Not at hout
    obtain ⟨bit, hfound, hlt⟩ := hout
    have hrun := allocates_allocateContiguous lastBlockTaken 1
    unfold SimpleBlockAllocator.allocateContiguous at hrun
    rw [if_neg (by decide), show findContiguousFreeWrapped lastBlockTaken.allocator.bitmap bitmapBits
      (lastBlockTaken.freeBlockHint - lastBlockTaken.allocator.startBlockOffset) 1 = some bit from
      hfound] at hrun
    obtain ⟨w, hok⟩ := Volume.run_of_allocates hrun
    refine ⟨_, w, hok, ?_⟩
    change 24 ≤ 4 + bit
    omega
  · rw [allocates_allocateContiguous, SimpleBlockAllocator.handsOut_allocateContiguous_iff]
    rintro (hzero | hfinds)
    · cases hzero
    · exact hout hfinds

end Oifs
