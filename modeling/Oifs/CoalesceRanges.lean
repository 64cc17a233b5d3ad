import Mathlib.Data.List.Sort
import Oifs.GapMerge
import Oifs.SuperBlock

/-! The byte ranges of several mutations are rounded to pages and merged before they are synced. -/

namespace Oifs

def saturatingAdd (a b : Nat) : Nat :=
  min (a + b) (2 ^ 64 - 1)

def saturatingMul (a b : Nat) : Nat :=
  min (a * b) (2 ^ 64 - 1)

/-- The interval of one `(offset, length)` range: whole pages, cut at the end of the mapping. -/
def pageInterval (mmapLen : Nat) (range : Nat × Nat) : Option (Nat × Nat) :=
  if range.2 = 0 ∨ mmapLen ≤ range.1 then none
  else
    let pageStart := range.1 / blockSize * blockSize
    let rawEnd := saturatingAdd range.1 range.2
    let pageEnd :=
      min (saturatingMul (saturatingAdd rawEnd (blockSize - 1) / blockSize) blockSize) mmapLen
    if pageStart < pageEnd then some (pageStart, pageEnd) else none

/-- The order of the sort key `(start, end)`. Intervals with equal keys are equal, so an unstable sort
has one result. -/
def intervalLe (a b : Nat × Nat) : Bool :=
  a.1 < b.1 || (a.1 == b.1 && a.2 ≤ b.2)

/-- The loop over the sorted intervals; what it pushes are offsets and lengths. -/
def mergeIntervals (maxGap curStart curEnd : Nat) : List (Nat × Nat) → List (Nat × Nat)
  | [] => [(curStart, curEnd - curStart)]
  | (start, stop) :: rest =>
    if start ≤ saturatingAdd curEnd maxGap then
      mergeIntervals maxGap curStart (max curEnd stop) rest
    else (curStart, curEnd - curStart) :: mergeIntervals maxGap start stop rest

def coalesceRangesWithGap (ranges : List (Nat × Nat)) (mmapLen maxGap : Nat) : List (Nat × Nat) :=
  if ranges = [] ∨ mmapLen = 0 then []
  else
    match (ranges.filterMap (pageInterval mmapLen)).mergeSort intervalLe with
    | [] => []
    | (start, stop) :: rest => mergeIntervals maxGap start stop rest

def coalesceRanges (ranges : List (Nat × Nat)) (mmapLen : Nat) : List (Nat × Nat) :=
  coalesceRangesWithGap ranges mmapLen 0

def pageFloor (range : Nat × Nat) : Nat :=
  range.1 / blockSize * blockSize

def pageCeil (range : Nat × Nat) : Nat :=
  (range.1 + range.2 + (blockSize - 1)) / blockSize * blockSize

/-- What merging is for: the pages that `ranges` touch, in order, with the small gaps filled. -/
structure Coalesced (ranges : List (Nat × Nat)) (mmapLen maxGap : Nat) (out : List (Nat × Nat)) :
    Prop where
  inside : ∀ o ∈ out, 0 < o.2 ∧ o.1 + o.2 ≤ mmapLen
  separated : out.Pairwise fun a b => a.1 + a.2 + maxGap < b.1
  covered : ∀ r ∈ ranges, ∀ x, r.1 ≤ x → x < r.1 + r.2 → x < mmapLen →
    ∃ o ∈ out, o.1 ≤ x ∧ x < o.1 + o.2
  tight : ∀ o ∈ out, ∀ x, o.1 ≤ x → x < o.1 + o.2 →
    (∃ r ∈ ranges, r.2 ≠ 0 ∧ pageFloor r ≤ x ∧ x < pageCeil r) ∨
      ∃ r ∈ ranges, ∃ r' ∈ ranges, r.2 ≠ 0 ∧ r'.2 ≠ 0 ∧
        pageCeil r ≤ x ∧ x < pageFloor r' ∧ pageFloor r' ≤ pageCeil r + maxGap

variable {ranges : List (Nat × Nat)} {mmapLen maxGap : Nat}

theorem intervalLe_iff {a b : Nat × Nat} :
    intervalLe a b = true ↔ a.1 < b.1 ∨ a.1 = b.1 ∧ a.2 ≤ b.2 := by
  simp [intervalLe]

theorem sorted_intervals (l : List (Nat × Nat)) :
    (l.mergeSort intervalLe).Pairwise fun a b => a.1 ≤ b.1 := by
  have hsorted : (l.mergeSort intervalLe).Pairwise fun a b => intervalLe a b = true := by
    apply List.pairwise_mergeSort
    · intro a b c hab hbc
      rw [intervalLe_iff] at *
      omega
    · intro a b
      rw [Bool.or_eq_true, intervalLe_iff, intervalLe_iff]
      omega
  refine hsorted.imp ?_
  intro a b hab
  rw [intervalLe_iff] at hab
  omega

theorem pageInterval_some (hlen : mmapLen < 2 ^ 63) {range interval : Nat × Nat} :
    pageInterval mmapLen range = some interval ↔
      range.2 ≠ 0 ∧ range.1 < mmapLen ∧
        interval = (pageFloor range, min (pageCeil range) mmapLen) := by
  have hend : min (saturatingMul
      (saturatingAdd (saturatingAdd range.1 range.2) (blockSize - 1) / blockSize) blockSize)
        mmapLen = min (pageCeil range) mmapLen := by
    simp only [saturatingMul, saturatingAdd, pageCeil, blockSize]
    omega
  unfold pageInterval
  by_cases hskip : range.2 = 0 ∨ mmapLen ≤ range.1
  · rw [if_pos hskip]
    constructor
    · intro h
      cases h
    · rintro ⟨hne, hlt, -⟩
      omega
  · have hlt : pageFloor range < min (pageCeil range) mmapLen := by
      simp only [pageFloor, pageCeil, blockSize]
      omega
    rw [if_neg hskip]
    dsimp only
    rw [hend, if_pos (show range.1 / blockSize * blockSize < _ from hlt), Option.some.injEq]
    constructor
    · intro h
      exact ⟨by omega, by omega, h.symm⟩
    · rintro ⟨-, -, rfl⟩
      rfl

theorem mergeIntervals_eq (hlen : mmapLen < 2 ^ 63) {rest : List (Nat × Nat)} {curStart curEnd : Nat}
    (hstart : ∀ i ∈ rest, i.1 < mmapLen) :
    mergeIntervals maxGap curStart curEnd rest =
      (GapMerge.merge maxGap (curStart, curEnd) rest).map fun o => (o.1, o.2 - o.1) := by
  induction rest generalizing curStart curEnd with
  | nil => rfl
  | cons next rest ih =>
    obtain ⟨start, stop⟩ := next
    have hrest : ∀ i ∈ rest, i.1 < mmapLen := fun i hi => hstart i (List.mem_cons_of_mem _ hi)
    have hnext : start < mmapLen := hstart _ List.mem_cons_self
    have hnear : start ≤ saturatingAdd curEnd maxGap ↔ start ≤ curEnd + maxGap := by
      unfold saturatingAdd
      omega
    unfold mergeIntervals GapMerge.merge
    by_cases h : start ≤ curEnd + maxGap
    · rw [if_pos (hnear.mpr h), if_pos h, ih hrest]
    · rw [if_neg (mt hnear.mp h), if_neg h, ih hrest]
      rfl

theorem mem_sorted_intervals (hlen : mmapLen < 2 ^ 63) {i : Nat × Nat} :
    i ∈ (ranges.filterMap (pageInterval mmapLen)).mergeSort intervalLe ↔
      ∃ r ∈ ranges, r.2 ≠ 0 ∧ r.1 < mmapLen ∧ i = (pageFloor r, min (pageCeil r) mmapLen) := by
  rw [List.mem_mergeSort, List.mem_filterMap]
  simp only [pageInterval_some hlen]

theorem pageFloor_le (r : Nat × Nat) : pageFloor r ≤ r.1 :=
  Nat.div_mul_le_self _ _

theorem le_pageCeil (r : Nat × Nat) : r.1 + r.2 ≤ pageCeil r := by
  simp only [pageCeil, blockSize]
  omega

theorem Coalesced.of_merged (hlen : mmapLen < 2 ^ 63) {first : Nat × Nat}
    {rest out : List (Nat × Nat)}
    (hsort : (ranges.filterMap (pageInterval mmapLen)).mergeSort intervalLe = first :: rest)
    (h : GapMerge.Merged maxGap (first :: rest) rest first out) :
    Coalesced ranges mmapLen maxGap (out.map fun o => (o.1, o.2 - o.1)) := by
  have hmem : ∀ i, i ∈ first :: rest ↔ ∃ r ∈ ranges, r.2 ≠ 0 ∧ r.1 < mmapLen ∧
      i = (pageFloor r, min (pageCeil r) mmapLen) := by
    intro i
    rw [← hsort]
    exact mem_sorted_intervals hlen
  have hlength : ∀ o ∈ out, o.1 + (o.2 - o.1) = o.2 := by
    intro o ho
    have hproper := h.proper o ho
    omega
  refine ⟨?_, ?_, ?_, ?_⟩
  · intro o' ho'
    obtain ⟨o, ho, rfl⟩ := List.mem_map.mp ho'
    obtain ⟨i, hi, heq⟩ := h.ends o ho
    obtain ⟨r, -, -, -, rfl⟩ := (hmem i).mp hi
    have hproper := h.proper o ho
    have hlast : o.2 ≤ mmapLen := heq ▸ Nat.min_le_right _ _
    exact ⟨by dsimp only; omega, by dsimp only; omega⟩
  · rw [List.pairwise_map]
    refine h.separated.imp_of_mem ?_
    intro a b ha _ hab
    dsimp only
    rw [hlength a ha]
    exact hab
  · intro r hr x hlow hhigh hx
    have hstart := pageFloor_le r
    have hstop := le_pageCeil r
    obtain ⟨o, ho, hleft, hright⟩ := h.covers _
      ((hmem _).mpr ⟨r, hr, by omega, by omega, rfl⟩)
    refine ⟨_, List.mem_map_of_mem ho, ?_, ?_⟩
    · exact hleft.trans (hstart.trans hlow)
    · dsimp only at hright ⊢
      rw [hlength o ho]
      omega
  · intro o' ho' x hlow hhigh
    obtain ⟨o, ho, rfl⟩ := List.mem_map.mp ho'
    dsimp only at hlow hhigh
    rw [hlength o ho] at hhigh
    rcases h.tight o ho x hlow hhigh with ⟨i, hi, hin⟩ | ⟨i, hi, j, hj, hafter, hbefore, hnear, -⟩
    · obtain ⟨r, hr, hne, -, rfl⟩ := (hmem i).mp hi
      exact .inl ⟨r, hr, hne, hin.1, hin.2.trans_le (Nat.min_le_left _ _)⟩
    · -- a gap ends before the mapping does, so the interval on its left was not cut
      obtain ⟨r, hr, hne, -, rfl⟩ := (hmem i).mp hi
      obtain ⟨r', hr', hne', hinside, rfl⟩ := (hmem j).mp hj
      have hfloor := pageFloor_le r'
      dsimp only at hafter hbefore hnear
      exact .inr ⟨r, hr, r', hr', hne, hne', by omega, hbefore, by omega⟩

theorem coalesced_nil (h : ∀ r ∈ ranges, r.2 ≠ 0 → mmapLen ≤ r.1) :
    Coalesced ranges mmapLen maxGap [] := by
  refine ⟨?_, List.Pairwise.nil, ?_, ?_⟩
  · intro o ho
    cases ho
  · intro r hr x hlow hhigh hx
    have hoff := h r hr (by omega)
    omega
  · intro o ho
    cases ho

/-- The advised ranges cover the pages asked for, in order and with no small gap left. -/
theorem coalesceRangesWithGap_coalesced (ranges : List (Nat × Nat)) (mmapLen maxGap : Nat)
    (hlen : mmapLen < 2 ^ 63) :
    Coalesced ranges mmapLen maxGap (coalesceRangesWithGap ranges mmapLen maxGap) := by
  have hmem {i : Nat × Nat} :
      i ∈ (ranges.filterMap (pageInterval mmapLen)).mergeSort intervalLe ↔ _ :=
    mem_sorted_intervals hlen
  unfold coalesceRangesWithGap
  split
  case isTrue h =>
    refine coalesced_nil ?_
    intro r hr _
    obtain rfl | rfl := h
    · cases hr
    · exact Nat.zero_le _
  case isFalse =>
    split
    case h_1 hsort =>
      refine coalesced_nil ?_
      intro r hr hne
      by_contra hlt
      have hin := hmem.mpr ⟨r, hr, hne, Nat.lt_of_not_le hlt, rfl⟩
      rw [hsort] at hin
      cases hin
    case h_2 start stop rest hsort =>
      have hinterval : ∀ i ∈ (start, stop) :: rest, i.1 < i.2 ∧ i.1 < mmapLen := by
        intro i hi
        rw [← hsort] at hi
        obtain ⟨r, -, hne, hlt, rfl⟩ := hmem.mp hi
        have hstart := pageFloor_le r
        have hstop := le_pageCeil r
        exact ⟨by dsimp only; omega, by dsimp only; omega⟩
      have hsorted := sorted_intervals (ranges.filterMap (pageInterval mmapLen))
      rw [hsort] at hsorted
      rw [mergeIntervals_eq hlen fun i hi => (hinterval i (List.mem_cons_of_mem _ hi)).2]
      apply Coalesced.of_merged hlen hsort
      exact GapMerge.merge_merged
        (GapMerge.midway_start hsorted fun i hi => (hinterval i hi).1)

theorem coalesceRangesWithGap_three_ranges :
    20000 < 2 ^ 63 ∧
      Coalesced [(9000, 10), (100, 1), (19000, 2 ^ 64 - 1)] 20000 4096
        (coalesceRangesWithGap [(9000, 10), (100, 1), (19000, 2 ^ 64 - 1)] 20000 4096) :=
  ⟨by decide, coalesceRangesWithGap_coalesced _ _ _ (by decide)⟩

end Oifs
