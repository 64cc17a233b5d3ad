import Oifs.Bitmap
import Oifs.BitScan
import Oifs.ChunkTree
import Oifs.JournaledCalls

namespace Oifs

/-! The searches of a bitmap on its bytes: words of 64 bits first, then the bytes that remain. They
are the searches through the bits that the allocator is modelled with. -/

open BitScan

namespace Bitmap

/-- The chunks of `find_first_free_from`; in the first the bits before the start count as set. -/
def scanChunks (d : ByteStore) (startBit : Nat) : Option Nat :=
  let startChunk := startBit / 64
  let chunkCount := d.len / 8
  if startChunk < chunkCount then
    ((lowestClear (d.word startChunk ||| lowMask 64 (startBit % 64))).map (startChunk * 64 + ·)).or
      ((List.range' (startChunk + 1) (chunkCount - (startChunk + 1))).findSome? fun chunkIdx =>
        (lowestClear (d.word chunkIdx)).map (chunkIdx * 64 + ·))
  else none

def scanRemainder (d : ByteStore) (startBit : Nat) : Option Nat :=
  let chunkCount := d.len / 8
  let base := chunkCount * 64
  let remStartByte := if startBit > base then (startBit - base) / 8 else 0
  (List.range' remStartByte (d.len % 8 - remStartByte)).findSome? fun i =>
    let byteBitOffset := base + i * 8
    let mask := if startBit > byteBitOffset then lowMask 8 (startBit - byteBitOffset) else 0
    (lowestClear ((d.byte (chunkCount * 8 + i)).toBitVec ||| mask)).map (byteBitOffset + ·)

def findFirstFreeFrom (d : ByteStore) (startBit : Nat) : Option Nat :=
  if startBit ≥ d.len * 8 then none else (scanChunks d startBit).or (scanRemainder d startBit)

def findNextFreeBounded (d : ByteStore) (start limit : Nat) : Option Nat :=
  if limit = 0 then none
  else
    let start := min start limit
    match findFirstFreeFrom d start with
    | some bit => if bit < limit then some bit else (findFirstFreeFrom d 0).filter (· < start)
    | none => (findFirstFreeFrom d 0).filter (· < start)

def findNextFreeWrapped (d : ByteStore) (hint : Nat) : Option Nat :=
  match findFirstFreeFrom d hint with
  | some idx => some idx
  | none => if hint > 0 then (findFirstFreeFrom d 0).filter (· < hint) else none

variable {d : ByteStore}

theorem lowestClear_word (c : Nat) :
    (lowestClear (d.word c)).map (c * 64 + ·) =
      (List.range' (c * 64) 64).find? fun i => !d.bit i :=
  lowestClear_stretch fun _ hj => d.getLsbD_word c hj

theorem lowestClear_byte (i : Nat) :
    (lowestClear (d.byte i).toBitVec).map (i * 8 + ·) =
      (List.range' (i * 8) 8).find? fun i => !d.bit i :=
  lowestClear_stretch fun _ hj => d.getLsbD_byte i hj

theorem lowestClear_masked {w base : Nat} {x : BitVec w} (start : Nat)
    (hx : ∀ j, j < w → x.getLsbD j = d.bit (base + j)) (hge : base ≤ start) (hlt : start < base + w) :
    (lowestClear (x ||| lowMask w (start - base))).map (base + ·) =
      (List.range' start (base + w - start)).find? fun i => !d.bit i := by
  have hmasked : ∀ j, j < w → (x ||| lowMask w (start - base)).getLsbD j =
      (d.bit (base + j) || decide (base + j < start)) := by
    intro j hj
    rw [BitVec.getLsbD_or, hx j hj, getLsbD_lowMask (by omega)]
    congr 2
    simp only [eq_iff_iff]
    omega
  have hsplit := find?_range'_or (p := fun i => !(d.bit i || decide (i < start))) hge hlt.le
  rw [Nat.add_sub_cancel_left] at hsplit
  rw [lowestClear_stretch (p := fun i => d.bit i || decide (i < start)) hmasked, ← hsplit]
  have hskipped : (List.range' base (start - base)).find?
      (fun i => !(d.bit i || decide (i < start))) = none := by
    rw [List.find?_eq_none]
    intro i hi
    have hi' := List.mem_range'_1.mp hi
    simp [show i < start by omega]
  rw [hskipped, Option.none_or, ← List.head?_filter, ← List.head?_filter]
  congr 1
  apply List.filter_congr
  intro i hi
  have hi' := List.mem_range'_1.mp hi
  simp [show ¬i < start by omega]

theorem scanChunks_eq (d : ByteStore) (start : Nat) :
    scanChunks d start =
      (List.range' start (d.len / 8 * 64 - start)).find? fun i => !d.bit i := by
  unfold scanChunks
  dsimp only
  split
  next hin =>
    have hfirst := lowestClear_masked start (fun _ hj => d.getLsbD_word (start / 64) hj)
      (by omega) (by omega)
    have hrest := findSome?_stretches (w := 64) (p := fun i => !d.bit i) 0 (start / 64 + 1)
      (d.len / 8 - (start / 64 + 1))
    simp only [Nat.zero_add] at hrest
    simp only [lowestClear_word]
    rw [show start % 64 = start - start / 64 * 64 by omega, hfirst, hrest,
      show start / 64 * 64 + 64 = (start / 64 + 1) * 64 by omega, Nat.sub_mul]
    exact find?_range'_or (by omega) (by omega)
  next hout => rw [show d.len / 8 * 64 - start = 0 by omega, List.range'_zero, List.find?_nil]

theorem remainder_unmasked {start a : Nat} (hle : start ≤ d.len / 8 * 64 + a * 8) (n : Nat) :
    ((List.range' a n).findSome? fun i =>
      (lowestClear ((d.byte (d.len / 8 * 8 + i)).toBitVec |||
        if start > d.len / 8 * 64 + i * 8 then lowMask 8 (start - (d.len / 8 * 64 + i * 8)) else 0)).map
          (d.len / 8 * 64 + i * 8 + ·)) =
      (List.range' (d.len / 8 * 64 + a * 8) (n * 8)).find? fun i => !d.bit i := by
  rw [← findSome?_stretches]
  apply findSome?_congr
  intro i hi
  have hge := (List.mem_range'_1.mp hi).1
  rw [if_neg (by omega), show d.len / 8 * 64 + i * 8 = (d.len / 8 * 8 + i) * 8 by omega,
    ← lowestClear_byte]
  simp

theorem lowestClear_byte_masked (d : ByteStore) {start i : Nat} (hge : i * 8 ≤ start) (hlt : start < i * 8 + 8) :
    (lowestClear ((d.byte i).toBitVec |||
      if start > i * 8 then lowMask 8 (start - i * 8) else 0)).map (i * 8 + ·) =
      (List.range' start (i * 8 + 8 - start)).find? fun i => !d.bit i := by
  rw [← lowestClear_masked start (fun _ hj => d.getLsbD_byte i hj) hge hlt]
  split
  next => rfl
  next hnot =>
    rw [show start - i * 8 = 0 by omega]
    rfl

theorem scanRemainder_eq {start : Nat} (hlt : start < d.len * 8) :
    scanRemainder d start =
      (List.range' (max start (d.len / 8 * 64)) (d.len * 8 - max start (d.len / 8 * 64))).find?
        fun i => !d.bit i := by
  unfold scanRemainder
  dsimp only
  split
  next hgt =>
    -- the byte of the start is masked, those behind it are not
    generalize hbyte : (start - d.len / 8 * 64) / 8 = i
    have hfirst := lowestClear_byte_masked d (i := d.len / 8 * 8 + i)
      (show _ ≤ start by omega) (by omega)
    rw [show (d.len / 8 * 8 + i) * 8 = d.len / 8 * 64 + i * 8 by omega] at hfirst
    rw [show d.len % 8 - i = d.len % 8 - (i + 1) + 1 by omega, List.range'_succ,
      List.findSome?_cons, remainder_unmasked (by omega), hfirst, Nat.max_eq_left hgt.le,
      ← find?_range'_or (b := d.len / 8 * 64 + i * 8 + 8) (c := d.len * 8) (by omega) (by omega),
      show d.len / 8 * 64 + (i + 1) * 8 = d.len / 8 * 64 + i * 8 + 8 by omega,
      show (d.len % 8 - (i + 1)) * 8 = d.len * 8 - (d.len / 8 * 64 + i * 8 + 8) by omega]
    cases (List.range' start (d.len / 8 * 64 + i * 8 + 8 - start)).find? fun i => !d.bit i <;> rfl
  next hle =>
    rw [remainder_unmasked (by omega), Nat.max_eq_right (by omega)]
    congr 2
    omega

theorem findFirstFreeFrom_eq (d : ByteStore) (start : Nat) :
    findFirstFreeFrom d start = Oifs.findFirstFreeFrom d.bit (d.len * 8) start := by
  unfold findFirstFreeFrom Oifs.findFirstFreeFrom
  split
  next hge => rw [show d.len * 8 - start = 0 by omega, List.range'_zero, List.find?_nil]
  next hlt =>
    rw [scanChunks_eq, scanRemainder_eq (Nat.not_le.mp hlt)]
    by_cases hin : start ≤ d.len / 8 * 64
    · rw [Nat.max_eq_right hin]
      exact find?_range'_or hin (by omega)
    · rw [Nat.max_eq_left (by omega), show d.len / 8 * 64 - start = 0 by omega]
      rfl

/-! What the searches return. -/

def Free (d : ByteStore) (b : Nat) : Prop := b < d.len * 8 ∧ d.bit b = false

/-- A search that starts at `start` and wraps around looks at `k` before `b`. -/
def Before (start k b : Nat) : Prop := if start ≤ b then start ≤ k ∧ k < b else start ≤ k ∨ k < b

/-- The first free bit below `limit` in the order of a search from `start`. -/
structure FirstFree (d : ByteStore) (start limit b : Nat) : Prop where
  inside : b < limit
  free : Free d b
  first : ∀ k, k < limit → Free d k → ¬Before start k b

def Finds (d : ByteStore) (start limit : Nat) : Option Nat → Prop
  | some b => FirstFree d start limit b
  | none => ∀ k, k < limit → ¬Free d k

variable {start limit b : Nat}

theorem before_total {k : Nat} (start : Nat) (hne : k ≠ b) : Before start k b ∨ Before start b k := by
  unfold Before
  split <;> split <;> omega

theorem FirstFree.unique {b' : Nat} (h : FirstFree d start limit b)
    (h' : FirstFree d start limit b') : b = b' := by
  by_contra hne
  rcases before_total start hne with hbefore | hbefore
  · exact h'.first b h.inside h.free hbefore
  · exact h.first b' h'.inside h'.free hbefore

theorem Finds.eq_some_iff {found : Option Nat} (h : Finds d start limit found) :
    found = some b ↔ FirstFree d start limit b := by
  constructor
  · intro hfound
    rw [hfound] at h
    exact h
  · intro hfirst
    cases found with
    | none => exact (h b hfirst.inside hfirst.free).elim
    | some b' => rw [FirstFree.unique h hfirst]

theorem Finds.eq_none_iff {found : Option Nat} (h : Finds d start limit found) :
    found = none ↔ ∀ k, k < limit → ¬Free d k := by
  constructor
  · intro hfound
    rw [hfound] at h
    exact h
  · intro hnone
    cases found with
    | none => rfl
    | some b => exact (hnone b h.inside h.free).elim

theorem findFirstFreeFrom_some_iff : findFirstFreeFrom d start = some b ↔
    start ≤ b ∧ Free d b ∧ ∀ k, start ≤ k → k < b → ¬Free d k := by
  rw [findFirstFreeFrom_eq, findFirstFreeFrom_eq_some]
  unfold Free
  constructor
  · rintro ⟨hge, hlt, hfree, hbefore⟩
    exact ⟨hge, ⟨hlt, hfree⟩, fun k hk hkb hf => by simp [hbefore k hk hkb] at hf⟩
  · rintro ⟨hge, ⟨hlt, hfree⟩, hbefore⟩
    refine ⟨hge, hlt, hfree, fun k hk hkb => ?_⟩
    by_contra hclear
    exact hbefore k hk hkb ⟨by omega, by simpa using hclear⟩

theorem findFirstFreeFrom_none_iff : findFirstFreeFrom d start = none ↔
    ∀ k, start ≤ k → ¬Free d k := by
  rw [findFirstFreeFrom_eq, findFirstFreeFrom_eq_none]
  unfold Free
  constructor
  · intro hset k hk hfree
    simp [hset k hk hfree.1] at hfree
  · intro hnone k hk hlt
    by_contra hclear
    exact hnone k hk ⟨hlt, by simpa using hclear⟩

theorem finds_around (hnone : ∀ k, start ≤ k → k < limit → ¬Free d k)
    (hfront : ∀ k, k < start → Free d k → k < limit) :
    Finds d start limit ((findFirstFreeFrom d 0).filter (· < start)) := by
  cases hfound : findFirstFreeFrom d 0 with
  | none => exact fun k _ => findFirstFreeFrom_none_iff.mp hfound k (Nat.zero_le k)
  | some b =>
    obtain ⟨-, hfree, hbefore⟩ := findFirstFreeFrom_some_iff.mp hfound
    by_cases hb : b < start
    · rw [Option.filter_some_pos (by simpa using hb)]
      refine ⟨hfront b hb hfree, hfree, fun k hk hkfree hkb => ?_⟩
      rw [Before, if_neg (by omega)] at hkb
      rcases hkb with hge | hlt
      · exact hnone k hge hk hkfree
      · exact hbefore k (Nat.zero_le k) hlt hkfree
    · rw [Option.filter_some_neg (by simpa using hb)]
      intro k hk hkfree
      by_cases hks : start ≤ k
      · exact hnone k hks hk hkfree
      · exact hbefore k (Nat.zero_le k) (by omega) hkfree

theorem firstFree_of_some (hfound : findFirstFreeFrom d start = some b) (hlt : b < limit) :
    FirstFree d start limit b := by
  obtain ⟨hge, hfree, hbefore⟩ := findFirstFreeFrom_some_iff.mp hfound
  refine ⟨hlt, hfree, fun k _ hkfree hkb => ?_⟩
  rw [Before, if_pos hge] at hkb
  exact hbefore k hkb.1 hkb.2 hkfree

theorem finds_bounded (d : ByteStore) (start limit : Nat) :
    Finds d (min start limit) limit (findNextFreeBounded d start limit) := by
  unfold findNextFreeBounded
  have hmin := Nat.min_le_right start limit
  split
  next hzero =>
    intro k hk
    omega
  next =>
    dsimp only
    generalize min start limit = from' at hmin ⊢
    split
    next b hfound =>
      split
      next hlt => exact firstFree_of_some hfound hlt
      next hge =>
        obtain ⟨-, -, hbefore⟩ := findFirstFreeFrom_some_iff.mp hfound
        exact finds_around (fun k hk hlt => hbefore k hk (by omega)) fun k hk _ => by omega
    next hfound =>
      have hnone := findFirstFreeFrom_none_iff.mp hfound
      exact finds_around (fun k hk _ => hnone k hk) fun k hk _ => by omega

theorem finds_wrapped (d : ByteStore) (hint : Nat) :
    Finds d hint (d.len * 8) (findNextFreeWrapped d hint) := by
  unfold findNextFreeWrapped
  split
  next b hfound =>
    have hfree := (findFirstFreeFrom_some_iff.mp hfound).2.1
    exact firstFree_of_some hfound hfree.1
  next hfound =>
    have hnone := findFirstFreeFrom_none_iff.mp hfound
    split
    next => exact finds_around (fun k hk _ => hnone k hk) fun k _ hfree => hfree.1
    next hzero => exact fun k _ => hnone k (by omega)

/-- Each search returns the first free bit of its range in its order, or finds the range full. -/
theorem searches_first_free (d : ByteStore) (start limit : Nat) :
    ((∀ b, findFirstFreeFrom d start = some b ↔
        start ≤ b ∧ Free d b ∧ ∀ k, start ≤ k → k < b → ¬Free d k) ∧
      (findFirstFreeFrom d start = none ↔ ∀ k, start ≤ k → ¬Free d k)) ∧
    ((∀ b, findNextFreeBounded d start limit = some b ↔
        FirstFree d (min start limit) limit b) ∧
      (findNextFreeBounded d start limit = none ↔ ∀ k, k < limit → ¬Free d k)) ∧
    (∀ b, findNextFreeWrapped d start = some b ↔ FirstFree d start (d.len * 8) b) ∧
      (findNextFreeWrapped d start = none ↔ ∀ k, k < d.len * 8 → ¬Free d k) := by
  refine ⟨⟨fun b => findFirstFreeFrom_some_iff, findFirstFreeFrom_none_iff⟩, ⟨fun b => ?_, ?_⟩,
    fun b => ?_, ?_⟩
  · exact (finds_bounded d start limit).eq_some_iff
  · exact (finds_bounded d start limit).eq_none_iff
  · exact (finds_wrapped d start).eq_some_iff
  · exact (finds_wrapped d start).eq_none_iff

/-! Runs of free bits. -/

def isBitFree (d : ByteStore) (idx : Nat) : Bool :=
  let chunkCount := d.len / 8
  if idx / 64 < chunkCount then (d.word (idx / 64) &&& 1#64 <<< (idx % 64)) == 0
  else
    let remIdx := (idx - chunkCount * 64) / 8
    if remIdx < d.len % 8 then
      ((d.byte (chunkCount * 8 + remIdx)).toBitVec &&& 1#8 <<< (idx % 8)) == 0
    else false

/-- The loop of `find_contiguous_free_from`: behind a set bit the search goes on. -/
def contiguousLoop (d : ByteStore) (count startBit : Nat) : Option Nat :=
  if startBit + count ≤ d.len * 8 then
    match _hfound : findFirstFreeFrom d startBit with
    | none => none
    | some candidate =>
      if candidate + count > d.len * 8 then none
      else
        match hi : (List.range' 1 (count - 1)).find? fun i => !isBitFree d (candidate + i) with
        | none => some candidate
        | some i => contiguousLoop d count (candidate + i + 1)
  else none
termination_by d.len * 8 - startBit
decreasing_by
  have hge := (findFirstFreeFrom_some_iff.mp _hfound).1
  have hmem := List.mem_range'_1.mp (List.mem_of_find?_eq_some hi)
  omega

def findContiguousFreeFrom (d : ByteStore) (startBit count : Nat) : Option Nat :=
  if count = 0 then if startBit ≤ d.len * 8 then some startBit else none
  else if count > d.len * 8 ∨ startBit ≥ d.len * 8 then none
  else if count = 1 then findFirstFreeFrom d startBit
  else contiguousLoop d count startBit

def findContiguousFreeWrapped (d : ByteStore) (hint count : Nat) : Option Nat :=
  match findContiguousFreeFrom d hint count with
  | some idx => some idx
  | none => if hint > 0 then (findContiguousFreeFrom d 0 count).filter (· < hint) else none

theorem isBitFree_eq {idx : Nat} (hlt : idx < d.len * 8) : isBitFree d idx = !d.bit idx := by
  unfold isBitFree
  dsimp only
  split
  next =>
    have hword := d.getLsbD_word (idx / 64) (Nat.mod_lt idx (show 64 > 0 by decide))
    rw [and_bit_beq_zero _ (Nat.mod_lt _ (by decide)), hword,
      show idx / 64 * 64 + idx % 64 = idx by omega]
  next hbehind =>
    have hbyte := d.getLsbD_byte (d.len / 8 * 8 + (idx - d.len / 8 * 64) / 8)
      (Nat.mod_lt idx (show 8 > 0 by decide))
    rw [if_pos (by omega), and_bit_beq_zero _ (Nat.mod_lt _ (by decide)), hbyte,
      show (d.len / 8 * 8 + (idx - d.len / 8 * 64) / 8) * 8 + idx % 8 = idx by omega]

theorem find?_blocked {candidate count : Nat} (hle : candidate + count ≤ d.len * 8) :
    (List.range' 1 (count - 1)).find? (fun i => !isBitFree d (candidate + i)) =
      (List.range' 1 (count - 1)).find? fun i => d.bit (candidate + i) := by
  rw [← List.head?_filter, ← List.head?_filter]
  congr 1
  apply List.filter_congr
  intro i hi
  have hmem := List.mem_range'_1.mp hi
  rw [isBitFree_eq (by omega), Bool.not_not]

theorem findContiguousLoop_eq {bit : Nat → Bool} {len count start : Nat}
    (hle : start + count ≤ len) : findContiguousLoop bit len count start =
      (Oifs.findFirstFreeFrom bit len start).bind fun candidate =>
        if candidate + count > len then none
        else ((List.range' 1 (count - 1)).find? fun i => bit (candidate + i)).elim
          (some candidate) fun i => findContiguousLoop bit len count (candidate + i + 1) := by
  rw [findContiguousLoop, if_pos hle]
  split
  next hnone => rw [hnone, Option.bind_none]
  next candidate hfound =>
    rw [hfound, Option.bind_some]
    split
    next => rfl
    next =>
      split
      next hclear => rw [hclear, Option.elim_none]
      next i hset => rw [hset, Option.elim_some]

theorem contiguousLoop_eq (d : ByteStore) (count start : Nat) :
    contiguousLoop d count start = findContiguousLoop d.bit (d.len * 8) count start := by
  fun_induction contiguousLoop d count start with
  | case1 start hle hnone =>
    rw [findContiguousLoop_eq hle, ← findFirstFreeFrom_eq, hnone, Option.bind_none]
  | case2 start hle candidate hfound hlong =>
    rw [findContiguousLoop_eq hle, ← findFirstFreeFrom_eq, hfound, Option.bind_some, if_pos hlong]
  | case3 start hle candidate hfound hfits hclear =>
    rw [findContiguousLoop_eq hle, ← findFirstFreeFrom_eq, hfound, Option.bind_some, if_neg hfits,
      ← find?_blocked (Nat.not_lt.mp hfits), hclear, Option.elim_none]
  | case4 start hle candidate hfound hfits i hset ih =>
    rw [findContiguousLoop_eq hle, ← findFirstFreeFrom_eq, hfound, Option.bind_some, if_neg hfits,
      ← find?_blocked (Nat.not_lt.mp hfits), hset, Option.elim_some, ih]
  | case5 start hlong => rw [findContiguousLoop, if_neg hlong]

theorem findContiguousFreeFrom_eq (d : ByteStore) (start count : Nat) :
    findContiguousFreeFrom d start count =
      Oifs.findContiguousFreeFrom d.bit (d.len * 8) start count := by
  unfold findContiguousFreeFrom Oifs.findContiguousFreeFrom
  rw [findFirstFreeFrom_eq, contiguousLoop_eq]

def RunAt (d : ByteStore) (count i : Nat) : Prop := FreeRun d.bit (d.len * 8) i count

theorem firstRun_contiguous {count : Nat} (hcount : 1 ≤ count) (d : ByteStore) (start : Nat) :
    FirstRun d.bit (d.len * 8) count start (findContiguousFreeFrom d start count) := by
  rw [findContiguousFreeFrom_eq]
  exact firstRun_from hcount

theorem contiguous_some_iff {count i : Nat} (hcount : 1 ≤ count) :
    findContiguousFreeFrom d start count = some i ↔
      start ≤ i ∧ RunAt d count i ∧ ∀ j, start ≤ j → j < i → ¬RunAt d count j := by
  have hfirst := firstRun_contiguous hcount d start
  constructor
  · intro hfound
    rw [hfound] at hfirst
    exact hfirst
  · rintro ⟨hge, hrun, hleast⟩
    cases hfound : findContiguousFreeFrom d start count with
    | none =>
      rw [hfound] at hfirst
      exact (hfirst i hge hrun).elim
    | some k =>
      rw [hfound] at hfirst
      obtain ⟨hk, hkrun, hkleast⟩ := hfirst
      -- neither of two least positions is before the other
      rcases Nat.lt_trichotomy k i with hlt | heq | hgt
      · exact (hleast k hk hlt hkrun).elim
      · rw [heq]
      · exact (hkleast i hge hgt hrun).elim

theorem contiguous_none_iff {count : Nat} (hcount : 1 ≤ count) :
    findContiguousFreeFrom d start count = none ↔ ∀ j, start ≤ j → ¬RunAt d count j := by
  have hfirst := firstRun_contiguous hcount d start
  cases hfound : findContiguousFreeFrom d start count with
  | none =>
    rw [hfound] at hfirst
    exact ⟨fun _ => hfirst, fun _ => rfl⟩
  | some k =>
    rw [hfound] at hfirst
    exact ⟨fun h => (nomatch h), fun h => (h k hfirst.1 hfirst.2.1).elim⟩

theorem wrapped_finds {count i : Nat} (hcount : 1 ≤ count) (hrun : RunAt d count i) (hint : Nat) :
    ∃ k, findContiguousFreeWrapped d hint count = some k ∧ RunAt d count k := by
  unfold findContiguousFreeWrapped
  cases hfound : findContiguousFreeFrom d hint count with
  | some k => exact ⟨k, rfl, ((contiguous_some_iff hcount).mp hfound).2.1⟩
  | none =>
    have hnone := (contiguous_none_iff hcount).mp hfound
    have hi : i < hint := by
      by_contra hge
      exact hnone i (Nat.not_lt.mp hge) hrun
    dsimp only
    rw [if_pos (by omega)]
    cases hfront : findContiguousFreeFrom d 0 count with
    | none => exact ((contiguous_none_iff hcount).mp hfront i (Nat.zero_le i) hrun).elim
    | some k =>
      obtain ⟨-, hkrun, hleast⟩ := (contiguous_some_iff hcount).mp hfront
      have hki : k ≤ i := by
        by_contra hgt
        exact hleast i (Nat.zero_le i) (by omega) hrun
      exact ⟨k, Option.filter_some_pos (by simpa using Nat.lt_of_le_of_lt hki hi), hkrun⟩

/-- The search returns the least position from the start on, the wrapped one a run whenever there is
one. -/
theorem contiguous_searches (d : ByteStore) (start count : Nat) (hcount : 1 ≤ count) :
    (∀ i, findContiguousFreeFrom d start count = some i ↔
      start ≤ i ∧ RunAt d count i ∧ ∀ j, start ≤ j → j < i → ¬RunAt d count j) ∧
    (findContiguousFreeFrom d start count = none ↔ ∀ j, start ≤ j → ¬RunAt d count j) ∧
    ∀ i, RunAt d count i → ∃ k, findContiguousFreeWrapped d start count = some k ∧
      RunAt d count k := by
  refine ⟨fun i => contiguous_some_iff hcount, contiguous_none_iff hcount, fun i hrun => ?_⟩
  exact wrapped_finds hcount hrun start

/-- In two bytes with nine set bits in front a search from bit 14 on wraps around. -/
theorem contiguous_searches_three :
    ∃ d : ByteStore, d.len = 2 ∧ findContiguousFreeFrom d 14 3 = none ∧
      ∃ k, findContiguousFreeWrapped d 14 3 = some k ∧ RunAt d 3 k := by
  refine ⟨⟨2, fun i => if i = 0 then 255 else 1, by decide⟩, rfl, ?_, ?_⟩
  · rw [(contiguous_searches _ 14 3 (by decide)).2.1]
    intro j hj hrun
    have hend : j + 3 ≤ 16 := hrun.1
    omega
  · exact (contiguous_searches _ 14 3 (by decide)).2.2 9 ⟨by decide, by decide⟩

/-! The visitor of the set bits. -/

/-- The bits of one word or byte, as far as they lie below the limit. -/
def visitWord {σ : Type*} {w : Nat} (f : σ → Nat → σ) (maxBits base : Nat) (x : BitVec w) (s : σ) :
    σ :=
  visit (fun s bit => if base + bit < maxBits then f s (base + bit) else s) x s

/-- `for_each_set_bit`: the words of the part up to the limit, then the bytes that remain. -/
def forEachSetBit {σ : Type*} (d : ByteStore) (maxBits : Nat) (f : σ → Nat → σ) (s : σ) : σ :=
  let maxBytes := min ((maxBits + 7) / 8) d.len
  let chunkCount := maxBytes / 8
  let s := (List.range chunkCount).foldl
    (fun s chunkIdx => visitWord f maxBits (chunkIdx * 64) (d.word chunkIdx) s) s
  (List.range (maxBytes % 8)).foldl
    (fun s i => visitWord f maxBits (chunkCount * 64 + i * 8)
      (d.byte (chunkCount * 8 + i)).toBitVec s) s

section Visit

variable {σ : Type*} {f : σ → Nat → σ} {maxBits : Nat}

theorem visitWord_eq {w base : Nat} {x : BitVec w}
    (hx : ∀ j, j < w → x.getLsbD j = d.bit (base + j)) (s : σ) :
    visitWord f maxBits base x s =
      ((List.range' base w).filter fun i => decide (i < maxBits) && d.bit i).foldl f s := by
  unfold visitWord
  rw [visit_stretch hx (fun s i => if i < maxBits then f s i else s), ← List.filter_filter,
    List.foldl_filter (p := fun i => decide (i < maxBits))]
  simp only [decide_eq_true_eq]

theorem visitWord_chunk (c : Nat) (s : σ) :
    visitWord f maxBits (c * 64) (d.word c) s =
      ((List.range' (0 + c * 64) 64).filter fun i => decide (i < maxBits) && d.bit i).foldl f s := by
  rw [Nat.zero_add]
  exact visitWord_eq (fun _ hj => d.getLsbD_word c hj) s

theorem visitWord_byte (chunks i : Nat) (s : σ) :
    visitWord f maxBits (chunks * 64 + i * 8) (d.byte (chunks * 8 + i)).toBitVec s =
      ((List.range' (chunks * 64 + i * 8) 8).filter fun i =>
        decide (i < maxBits) && d.bit i).foldl f s := by
  apply visitWord_eq
  intro j hj
  rw [d.getLsbD_byte _ hj]
  congr 1
  omega

theorem filter_range_eq {p q : Nat → Bool} {m n : Nat} (hle : m ≤ n) (hin : ∀ i, i < m → p i = q i)
    (hout : ∀ i, m ≤ i → i < n → q i = false) : (List.range m).filter p = (List.range n).filter q := by
  have hsplit : List.range n = List.range m ++ (List.range (n - m)).map (m + ·) := by
    rw [← List.range_add, Nat.add_sub_cancel' hle]
  have hnil : ((List.range (n - m)).map (m + ·)).filter q = [] := by
    rw [List.filter_eq_nil_iff]
    intro i hi
    obtain ⟨k, hk, rfl⟩ := List.mem_map.mp hi
    have hlt := List.mem_range.mp hk
    simp [hout (m + k) (by omega) (by omega)]
  rw [hsplit, List.filter_append, hnil, List.append_nil]
  apply List.filter_congr
  intro i hi
  exact hin i (List.mem_range.mp hi)

theorem forEachSetBit_eq (d : ByteStore) (maxBits : Nat) (f : σ → Nat → σ) (s : σ) :
    forEachSetBit d maxBits f s = ((List.range maxBits).filter (get d)).foldl f s := by
  unfold forEachSetBit
  simp only [visitWord_chunk, visitWord_byte]
  rw [foldl_stretches, foldl_stretches, ← List.foldl_append, ← List.filter_append]
  congr 1
  have hbytes : List.range' 0 (min ((maxBits + 7) / 8) d.len / 8 * 64) ++
      List.range' (min ((maxBits + 7) / 8) d.len / 8 * 64) (min ((maxBits + 7) / 8) d.len % 8 * 8) =
      List.range (min ((maxBits + 7) / 8) d.len * 8) := by
    have happend := List.range'_append_1 (s := 0) (m := min ((maxBits + 7) / 8) d.len / 8 * 64)
      (n := min ((maxBits + 7) / 8) d.len % 8 * 8)
    rw [Nat.zero_add] at happend
    rw [happend, List.range_eq_range']
    congr 1
    omega
  rw [hbytes]
  by_cases hle : (maxBits + 7) / 8 ≤ d.len
  · rw [Nat.min_eq_left hle]
    symm
    apply filter_range_eq (by omega)
    · intro i hi
      rw [get, decide_eq_true (show i / 8 < d.len by omega), decide_eq_true hi]
    · intro i hi _
      rw [decide_eq_false (by omega), Bool.false_and]
  · rw [Nat.min_eq_right (by omega)]
    apply filter_range_eq (by omega)
    · intro i hi
      rw [get, decide_eq_true (show i / 8 < d.len by omega), decide_eq_true (by omega)]
    · intro i hi _
      rw [get, decide_eq_false (by omega), Bool.false_and]

end Visit

theorem get_putRange (v : Bool) (d : ByteStore) (startBit count j : Nat) :
    get (putRange v d startBit count) j =
      if startBit ≤ j ∧ j < startBit + count ∧ j < d.len * 8 then v else get d j := by
  unfold get
  rw [putRange_len, bit_putRange]
  split
  next hin => rw [decide_eq_true (by omega), Bool.true_and]
  next => rfl

/-- The range operations change the bits of the range and no other; the visitor meets the set bits
below its limit. -/
theorem range_then_visit {σ : Type*} (d : ByteStore) (startBit count limit : Nat)
    (f : σ → Nat → σ) (s : σ) :
    ((setRange d startBit count).len = d.len ∧
      (∀ j, get (setRange d startBit count) j =
        if startBit ≤ j ∧ j < startBit + count ∧ j < d.len * 8 then true else get d j) ∧
      forEachSetBit (setRange d startBit count) limit f s =
        ((List.range limit).filter (get (setRange d startBit count))).foldl f s) ∧
    (clearRange d startBit count).len = d.len ∧
      (∀ j, get (clearRange d startBit count) j =
        if startBit ≤ j ∧ j < startBit + count ∧ j < d.len * 8 then false else get d j) ∧
      forEachSetBit (clearRange d startBit count) limit f s =
        ((List.range limit).filter (get (clearRange d startBit count))).foldl f s :=
  ⟨⟨putRange_len true d startBit count, get_putRange true d startBit count,
      forEachSetBit_eq _ limit f s⟩,
    putRange_len false d startBit count, get_putRange false d startBit count,
      forEachSetBit_eq _ limit f s⟩

end Bitmap

end Oifs
