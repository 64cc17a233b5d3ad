import Oifs.Chunk

namespace Oifs

open PointerForest

/-- The leaf values of a chunked file are entries, each with a run of blocks. -/
def chunkExtent (_ : Nat × Nat) (e : Nat) : Set Nat :=
  { b | ChunkEntry.isEmpty e = false ∧ ChunkEntry.startBlock e ≤ b ∧
    b < ChunkEntry.startBlock e + ChunkEntry.blockCount e }

theorem mem_chunkExtent {r : Nat × Nat} {e b : Nat} : b ∈ chunkExtent r e ↔
    ChunkEntry.isEmpty e = false ∧ ChunkEntry.startBlock e ≤ b ∧
      b < ChunkEntry.startBlock e + ChunkEntry.blockCount e := Iff.rfl

theorem chunkExtent_of_isEmpty {r : Nat × Nat} {e : Nat} (h : ChunkEntry.isEmpty e = true) :
    chunkExtent r e = ∅ := by
  apply Set.eq_empty_of_forall_notMem
  intro b hb
  rw [mem_chunkExtent, h] at hb
  cases hb.1

theorem chunkExtent_zero (r : Nat × Nat) : chunkExtent r 0 = ∅ := chunkExtent_of_isEmpty rfl

namespace ChunkEntry

variable {s n f c : Nat}

theorem startBlock_new (hs : s < 2 ^ 32) : startBlock (new s n f c) = s := by
  unfold startBlock new
  omega

theorem blockCount_new (hs : s < 2 ^ 32) (hn : n < 2 ^ 8) : blockCount (new s n f c) = n := by
  unfold blockCount new
  omega

theorem flags_new (hs : s < 2 ^ 32) (hf : f < 2 ^ 8) : flags (new s n f c) = f := by
  unfold flags new
  omega

theorem compressedLen_new (hs : s < 2 ^ 32) (hc : c < 2 ^ 16) : compressedLen (new s n f c) = c := by
  unfold compressedLen new
  omega

theorem new_lt (s n f c : Nat) : LT.lt (α := Nat) (new s n f c) (2 ^ 64) := by
  unfold new
  omega

theorem isEmpty_eq_false {e : Nat} (h : flags e ≠ flagEmpty) : isEmpty e = false := by
  have hne : e ≠ 0 := by
    rintro rfl
    exact h rfl
  simp [isEmpty, hne, h]

end ChunkEntry

section Search

variable {bit : Nat → Bool} {len count start hint i j : Nat}

def FreeRun (bit : Nat → Bool) (len i count : Nat) : Prop :=
  i + count ≤ len ∧ ∀ k, k < count → bit (i + k) = false

theorem findFirstFreeFrom_eq_some : findFirstFreeFrom bit len start = some i ↔
    start ≤ i ∧ i < len ∧ bit i = false ∧ ∀ j, start ≤ j → j < i → bit j = true := by
  unfold findFirstFreeFrom
  rw [List.find?_range'_eq_some, List.mem_range'_1]
  simp only [Bool.not_eq_true', Bool.not_not]
  constructor
  · rintro ⟨hfree, hmem, hfirst⟩
    exact ⟨hmem.1, by omega, hfree, hfirst⟩
  · rintro ⟨hge, hlt, hfree, hfirst⟩
    exact ⟨hfree, by omega, hfirst⟩

theorem findFirstFreeFrom_eq_none : findFirstFreeFrom bit len start = none ↔
    ∀ j, start ≤ j → j < len → bit j = true := by
  unfold findFirstFreeFrom
  rw [List.find?_range'_eq_none]
  simp only [Bool.not_not]
  constructor
  · exact fun h j hge hlt => h j hge (by omega)
  · exact fun h j hge hlt => h j hge (by omega)

theorem not_freeRun_of_set {k : Nat} (hj : j ≤ k) (hk : k < j + count) (hset : bit k = true) :
    ¬FreeRun bit len j count := by
  rintro ⟨-, hfree⟩
  have hclear := hfree (k - j) (by omega)
  rw [show j + (k - j) = k by omega, hset] at hclear
  cases hclear

def FirstRun (bit : Nat → Bool) (len count start : Nat) : Option Nat → Prop
  | some i => start ≤ i ∧ FreeRun bit len i count ∧
    ∀ j, start ≤ j → j < i → ¬FreeRun bit len j count
  | none => ∀ j, start ≤ j → ¬FreeRun bit len j count

theorem FirstRun.extend {start' : Nat} {found : Option Nat}
    (h : FirstRun bit len count start' found) (hle : start ≤ start')
    (hnone : ∀ j, start ≤ j → j < start' → ¬FreeRun bit len j count) :
    FirstRun bit len count start found := by
  cases found with
  | none =>
    intro j hj
    by_cases hlt : j < start'
    · exact hnone j hj hlt
    · exact h j (by omega)
  | some i =>
    obtain ⟨hge, hrun, hfirst⟩ := h
    refine ⟨by omega, hrun, fun j hj hji => ?_⟩
    by_cases hlt : j < start'
    · exact hnone j hj hlt
    · exact hfirst j (by omega) hji

theorem firstRun_loop (hcount : 0 < count) :
    FirstRun bit len count start (findContiguousLoop bit len count start) := by
  -- each round starts behind the set bit that ended the one before
  induction hn : len - start using Nat.strong_induction_on generalizing start with
  | _ n ih =>
    rw [findContiguousLoop]
    split
    next hle =>
      split
      next hnone =>
        intro j hj hrun
        have hset := findFirstFreeFrom_eq_none.mp hnone j hj (by have := hrun.1; omega)
        exact not_freeRun_of_set (Nat.le_refl j) (by omega) hset hrun
      next candidate hfirst =>
        obtain ⟨hge, hlt, hfree, hbefore⟩ := findFirstFreeFrom_eq_some.mp hfirst
        have hskip : ∀ j, start ≤ j → j < candidate → ¬FreeRun bit len j count := fun j hj hjc =>
          not_freeRun_of_set (Nat.le_refl j) (by omega) (hbefore j hj hjc)
        split
        next hlong =>
          intro j hj hrun
          by_cases hjc : j < candidate
          · exact hskip j hj hjc hrun
          · have hend := hrun.1
            omega
        next hfits =>
          split
          next hclear =>
            refine ⟨hge, ⟨by omega, fun k hk => ?_⟩, hskip⟩
            by_cases hzero : k = 0
            · rw [hzero]
              exact hfree
            · have hmem : k ∈ List.range' 1 (count - 1) := List.mem_range'_1.mpr (by omega)
              simpa using List.find?_eq_none.mp hclear k hmem
          next i hset =>
            have hmem := List.mem_range'_1.mp (List.mem_of_find?_eq_some hset)
            apply (ih _ (by omega) rfl).extend (by omega)
            intro j hj hji
            by_cases hjc : j < candidate
            · exact hskip j hj hjc
            · exact not_freeRun_of_set (show j ≤ candidate + i by omega) (by omega)
                (by simpa using List.find?_some hset)
    next hlong =>
      intro j hj hrun
      have hend := hrun.1
      omega

theorem firstRun_from (hcount : 0 < count) :
    FirstRun bit len count start (findContiguousFreeFrom bit len start count) := by
  unfold findContiguousFreeFrom
  rw [if_neg (by omega)]
  split
  next hout =>
    intro j hj hrun
    have hend := hrun.1
    omega
  next =>
    split
    next hone =>
      subst hone
      cases hfound : findFirstFreeFrom bit len start with
      | none =>
        intro j hj hrun
        have hset := findFirstFreeFrom_eq_none.mp hfound j hj (by have := hrun.1; omega)
        exact not_freeRun_of_set (Nat.le_refl j) (by omega) hset hrun
      | some i =>
        obtain ⟨hge, hlt, hfree, hbefore⟩ := findFirstFreeFrom_eq_some.mp hfound
        refine ⟨hge, ⟨by omega, fun k hk => ?_⟩, fun j hj hji =>
          not_freeRun_of_set (Nat.le_refl j) (by omega) (hbefore j hj hji)⟩
        rw [show i + k = i by omega]
        exact hfree
    next => exact firstRun_loop hcount

theorem findContiguousFreeFrom_some (hcount : 0 < count)
    (h : findContiguousFreeFrom bit len start count = some i) : FreeRun bit len i count := by
  have hfirst : FirstRun bit len count start (findContiguousFreeFrom bit len start count) :=
    firstRun_from hcount
  rw [h] at hfirst
  exact hfirst.2.1

theorem findContiguousFreeWrapped_some (hcount : 0 < count)
    (h : findContiguousFreeWrapped bit len hint count = some i) : FreeRun bit len i count := by
  unfold findContiguousFreeWrapped at h
  split at h
  next idx hfirst =>
    cases h
    exact findContiguousFreeFrom_some hcount hfirst
  next =>
    split at h
    next =>
      obtain ⟨hsome, -⟩ := Option.filter_eq_some_iff.mp h
      exact findContiguousFreeFrom_some hcount hsome
    next => cases h

end Search

namespace Volume

variable {v v' : Volume} {n count b : Nat}

/-- Every bit of the first bitmap block has a block of the image. -/
def WholeBitmap (v : Volume) : Prop :=
  v.superblock.dataBlockStart + bitmapBits ≤ v.superblock.blockCount

/-- The run of blocks that the image hands out ends inside it, and an entry can name it. -/
def RunInside (v : Volume) (count : Nat) : Prop :=
  ∀ n w, allocateContiguousBlocksInternal count v = .ok n w →
    n + count ≤ v.superblock.blockCount ∧ n + count ≤ 2 ^ 32

structure Reserves (v : Volume) (n count : Nat) (v' : Volume) : Prop where
  tables : v.SameTables v'
  start : v.superblock.dataBlockStart ≤ n
  bits : n + count ≤ v.superblock.dataBlockStart + bitmapBits
  free : ∀ b, n ≤ b → b < n + count → v.marked b = false
  marked : ∀ b, v'.marked b = true ↔ v.marked b = true ∨ (n ≤ b ∧ b < n + count)
  block : v'.block = v.block

theorem marked_setMarks (val : Bool) (hs : v.superblock.dataBlockStart ≤ n)
    (hn : n + count ≤ v.superblock.dataBlockStart + bitmapBits) :
    (v.setMarks n count val).marked b =
      if n ≤ b ∧ b < n + count then val else v.marked b := by
  unfold marked setMarks
  by_cases hin : n ≤ b ∧ b < n + count
  · have hlo : v.superblock.dataBlockStart ≤ b := by omega
    have hhi : b - v.superblock.dataBlockStart < bitmapBits := by omega
    have heq : v.superblock.dataBlockStart + (b - v.superblock.dataBlockStart) = b := by omega
    simp [hlo, hhi, heq, hin]
  · rw [if_neg hin]
    by_cases hlo : v.superblock.dataBlockStart ≤ b
    · have heq : v.superblock.dataBlockStart + (b - v.superblock.dataBlockStart) = b := by omega
      simp [heq, hin]
    · simp [hlo]

theorem allocateContiguousBlocksInternal_ok (hcount : 0 < count)
    (h : allocateContiguousBlocksInternal count v = .ok n v') : Reserves v n count v' := by
  unfold allocateContiguousBlocksInternal at h
  rw [DiskM.get_bind] at h
  rw [if_neg (by omega)] at h
  cases hbit : findContiguousFreeWrapped v.dataBit bitmapBits
      (v.freeBlockHint - v.superblock.dataBlockStart) count with
  | none =>
    rw [hbit] at h
    simp at h
  | some bit =>
    rw [hbit] at h
    simp only [DiskM.bind_ok, DiskM.set_ok, DiskM.pure_ok] at h
    obtain ⟨_, _, rfl, rfl, rfl⟩ := h
    obtain ⟨hlen, hclear⟩ := findContiguousFreeWrapped_some hcount hbit
    have hfree : ∀ b, v.superblock.dataBlockStart + bit ≤ b →
        b < v.superblock.dataBlockStart + bit + count → v.marked b = false := by
      intro b hlo hhi
      have hb := hclear (b - v.superblock.dataBlockStart - bit) (by omega)
      rw [show bit + (b - v.superblock.dataBlockStart - bit) =
        b - v.superblock.dataBlockStart by omega] at hb
      simp [marked, hb]
    refine ⟨⟨rfl, rfl, rfl, rfl, rfl⟩, by omega, by omega, hfree, fun b => ?_, rfl⟩
    change (v.setMarks (v.superblock.dataBlockStart + bit) count true).marked b = true ↔ _
    rw [marked_setMarks true (by omega) (by omega)]
    by_cases hin : v.superblock.dataBlockStart + bit ≤ b ∧
        b < v.superblock.dataBlockStart + bit + count
    · simp [hin]
    · simp [hin]

theorem freeContiguousBlocksInternal_ok (hs : v.superblock.dataBlockStart ≤ n)
    (hn : n + count ≤ v.superblock.dataBlockStart + bitmapBits)
    (h : freeContiguousBlocksInternal n count v = .ok () v') :
    v.SameTables v' ∧ v'.block = v.block ∧
      ∀ b, v'.marked b = true ↔ v.marked b = true ∧ ¬(n ≤ b ∧ b < n + count) := by
  unfold freeContiguousBlocksInternal at h
  rw [DiskM.get_bind] at h
  split at h
  next hzero =>
    obtain ⟨-, rfl⟩ := DiskM.pure_ok.mp h
    refine ⟨SameTables.refl v, rfl, fun b => ?_⟩
    have hout : ¬(n ≤ b ∧ b < n + count) := by omega
    simp [hout]
  next =>
    have hlt : ¬n < v.superblock.dataBlockStart := by omega
    simp only [if_neg hlt, DiskM.set_ok] at h
    have hmarks : ∀ b, (v.setMarks n count false).marked b = true ↔
        v.marked b = true ∧ ¬(n ≤ b ∧ b < n + count) := by
      intro b
      rw [marked_setMarks false hs hn]
      by_cases hin : n ≤ b ∧ b < n + count
      · simp [hin]
      · simp [hin]
    split at h
    next =>
      subst h
      exact ⟨⟨rfl, rfl, rfl, rfl, rfl⟩, rfl, hmarks⟩
    next =>
      subst h
      exact ⟨⟨rfl, rfl, rfl, rfl, rfl⟩, rfl, hmarks⟩

theorem storePayload_ok {start : Nat} (bytes : List UInt8) (hmap : start + count ≤ v.mapBlocks) :
    v.SameTables (v.storePayload start count bytes) ∧
      (v.storePayload start count bytes).dataBit = v.dataBit ∧
      (∀ b, b < start ∨ start + count ≤ b →
        (v.storePayload start count bytes).block b = v.block b) ∧
      ∀ j k, j < count → k < blockSize →
        (v.storePayload start count bytes).block (start + j) k =
          bytes.getD (j * blockSize + k) 0 := by
  induction count generalizing v start bytes with
  | zero =>
    exact ⟨SameTables.refl v, rfl, fun _ _ => rfl, fun j k hj => absurd hj (Nat.not_lt_zero j)⟩
  | succ count ih =>
    rw [storePayload, if_pos (by omega)]
    have hmap' : start + 1 + count ≤ (v.setBlock start fun k =>
        (bytes.take blockSize).getD k 0).mapBlocks := by
      rw [setBlock_mapBlocks]
      omega
    obtain ⟨htables, hbits, hother, hbytes⟩ := ih (bytes.drop blockSize) hmap'
    refine ⟨(sameTables_setBlock ..).trans htables, hbits.trans (setBlock_dataBit ..), ?_, ?_⟩
    · intro b hb
      rw [hother b (by omega), setBlock_block_other (by omega)]
    · intro j k hj hk
      cases j with
      | zero =>
        rw [hother _ (by omega), Nat.add_zero, setBlock_block_same (by omega), Nat.zero_mul,
          Nat.zero_add]
        simp [List.getD_eq_getElem?_getD, hk]
      | succ j =>
        have hj' := hbytes j k (by omega) hk
        rw [show start + (j + 1) = start + 1 + j by omega, hj']
        simp only [List.getD_eq_getElem?_getD, List.getElem?_drop]
        congr 2
        rw [Nat.add_mul]
        omega

end Volume

end Oifs
