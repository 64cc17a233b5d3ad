import Oifs.ChunkFile

namespace Oifs

open PointerForest

namespace Volume

section Walk

variable {β : Type} (v : Volume) (emit : β → Nat → Nat → Nat → β) (inode : Inode) (physicalSize : Nat)

def emitBlock (acc : β) (blk read len : Nat) : β :=
  if v.isDataBlock blk then emit acc blk read len else acc

def walkBatch : List Nat → β → Nat → Nat → β × Nat × Nat
  | [], acc, read, idx => (acc, read, idx)
  | blk :: ptrs, acc, read, idx =>
    if read ≥ physicalSize then (acc, read, idx)
    else
      let len := min (physicalSize - read) blockSize
      walkBatch ptrs (v.emitBlock emit acc blk read len) (read + len) (idx + 1)

def pointersFrom (parent i : Nat) : List Nat :=
  (List.range' i (ptrsPerBlock - i)).map (v.readBlockPtr parent)

def walkStep (acc : β) (read idx : Nat) : Option (β × Nat × Nat) :=
  let toRead := min (physicalSize - read) blockSize
  let skip (n : Nat) : β × Nat × Nat := (acc, read + min (n * blockSize) (physicalSize - read), idx + n)
  let batch (parent i : Nat) : β × Nat × Nat :=
    if parent < v.mapBlocks then
      walkBatch v emit physicalSize (v.pointersFrom parent i) acc read idx
    else (acc, read + toRead, idx + 1)
  let single (blk : Nat) : β × Nat × Nat := (v.emitBlock emit acc blk read toRead, read + toRead, idx + 1)
  if idx < directBlocks then some (single (inode.slot idx))
  else if idx < singleEnd then
    if inode.slot 10 = 0 then some (skip (singleEnd - idx))
    else some (batch (inode.slot 10) (idx - directBlocks))
  else if idx < doubleEnd then
    let rel := idx - singleEnd
    if inode.slot 11 = 0 then some (skip (doubleEnd - idx))
    else
      let sib := v.readBlockPtr (inode.slot 11) (rel / ptrsPerBlock)
      if sib = 0 then some (skip (ptrsPerBlock - rel % ptrsPerBlock))
      else some (batch sib (rel % ptrsPerBlock))
  else if idx < maxLogicalBlocks then
    let rel := idx - doubleEnd
    let rem := rel % (ptrsPerBlock * ptrsPerBlock)
    if inode.slot 12 = 0 then some (skip (maxLogicalBlocks - idx))
    else
      let dib := v.readBlockPtr (inode.slot 12) (rel / (ptrsPerBlock * ptrsPerBlock))
      if dib = 0 then some (skip (ptrsPerBlock * ptrsPerBlock - rem))
      else
        let sib := v.readBlockPtr dib (rem / ptrsPerBlock)
        if sib = 0 then some (skip (ptrsPerBlock - rem % ptrsPerBlock))
        else some (single (v.readBlockPtr sib (rem % ptrsPerBlock)))
  else none

def walkLoop : Nat → β → Nat → Nat → β
  | 0, acc, _, _ => acc
  | fuel + 1, acc, read, idx =>
    if read < physicalSize then
      match walkStep v emit inode physicalSize acc read idx with
      | none => acc
      | some (acc, read, idx) => walkLoop fuel acc read idx
    else acc

/-- `walk_payload_blocks`. Each round moves on by a block at least. -/
def walkPayloadBlocks (acc : β) : β := walkLoop v emit inode physicalSize maxLogicalBlocks acc 0 0

def emitAt (acc : β) (k : Nat) : β :=
  if k * blockSize < physicalSize then
    v.emitBlock emit acc (v.resolveLogicalBlockId inode k) (k * blockSize)
      (min (physicalSize - k * blockSize) blockSize)
  else acc

def Visited (acc : β) (idx n : Nat) (r : β × Nat × Nat) : Prop :=
  r = ((List.range' idx n).foldl (v.emitAt emit inode physicalSize) acc,
    min ((idx + n) * blockSize) physicalSize, idx + n)

variable {v emit inode physicalSize}

theorem emitAt_hole {acc : β} {k : Nat} (h : v.resolveLogicalBlockId inode k = 0) :
    v.emitAt emit inode physicalSize acc k = acc := by
  unfold emitAt emitBlock
  rw [h]
  split
  next => rfl
  next => rfl

theorem foldl_emitAt_holes {acc : β} {idx n : Nat}
    (h : ∀ k, idx ≤ k → k < idx + n → v.resolveLogicalBlockId inode k = 0) :
    (List.range' idx n).foldl (v.emitAt emit inode physicalSize) acc = acc := by
  induction n generalizing idx with
  | zero => rfl
  | succ n ih =>
    rw [List.range'_succ, List.foldl_cons, emitAt_hole (h idx (Nat.le_refl _) (by omega))]
    exact ih fun k hk hk' => h k (by omega) (by omega)

theorem visited_skip {acc : β} {read idx n : Nat} (hread : read = idx * blockSize)
    (hlt : read < physicalSize)
    (h : ∀ k, idx ≤ k → k < idx + n → v.resolveLogicalBlockId inode k = 0) :
    Visited v emit inode physicalSize acc idx n
      (acc, read + min (n * blockSize) (physicalSize - read), idx + n) := by
  unfold Visited
  rw [foldl_emitAt_holes h, Nat.add_mul, ← hread]
  congr 2
  omega

theorem visited_single {acc : β} {read idx blk : Nat} (hread : read = idx * blockSize)
    (hlt : read < physicalSize) (h : v.resolveLogicalBlockId inode idx = blk) :
    Visited v emit inode physicalSize acc idx 1
      (v.emitBlock emit acc blk read (min (physicalSize - read) blockSize),
        read + min (physicalSize - read) blockSize, idx + 1) := by
  unfold Visited
  rw [List.range'_one, List.foldl_cons, List.foldl_nil, emitAt, ← hread, if_pos hlt, h, Nat.add_mul,
    Nat.one_mul, ← hread]
  congr 2
  omega

theorem visited_cons {acc : β} {idx n : Nat} {r : β × Nat × Nat}
    (h : Visited v emit inode physicalSize (v.emitAt emit inode physicalSize acc idx) (idx + 1) n r) :
    Visited v emit inode physicalSize acc idx (n + 1) r := by
  unfold Visited at *
  rw [h, List.range'_succ, List.foldl_cons, Nat.add_right_comm, Nat.add_assoc idx n 1]

theorem walkBatch_visited {ptrs : List Nat} {acc : β} {idx : Nat}
    (h : ∀ k, (hk : k < ptrs.length) → v.resolveLogicalBlockId inode (idx + k) = ptrs[k]) :
    ∃ n ≤ ptrs.length, (idx * blockSize < physicalSize → ptrs ≠ [] → 0 < n) ∧
      Visited v emit inode physicalSize acc idx n
        (walkBatch v emit physicalSize ptrs acc (min (idx * blockSize) physicalSize) idx) := by
  induction ptrs generalizing acc idx with
  | nil =>
    refine ⟨0, Nat.le_refl _, fun _ hne => absurd rfl hne, ?_⟩
    simp [Visited, walkBatch]
  | cons blk ptrs ih =>
    unfold walkBatch
    by_cases hend : physicalSize ≤ idx * blockSize
    · refine ⟨0, Nat.zero_le _, fun hlt => absurd hend (by omega), ?_⟩
      rw [Nat.min_eq_right hend, if_pos (Nat.le_refl _)]
      simp [Visited, Nat.min_eq_right hend]
    · have hmin : min (idx * blockSize) physicalSize = idx * blockSize := by omega
      have hnext : idx * blockSize + min (physicalSize - idx * blockSize) blockSize =
          min ((idx + 1) * blockSize) physicalSize := by
        rw [Nat.add_mul]
        omega
      have hhead : v.resolveLogicalBlockId inode idx = blk := h 0 (by simp)
      have htail : ∀ k, (hk : k < ptrs.length) →
          v.resolveLogicalBlockId inode (idx + 1 + k) = ptrs[k] := by
        intro k hk
        have hnth := h (k + 1) (by simpa using hk)
        rwa [← Nat.add_assoc, Nat.add_right_comm] at hnth
      obtain ⟨n, hn, -, hvis⟩ := ih htail
      refine ⟨n + 1, by simpa using hn, fun _ _ => Nat.succ_pos n, visited_cons ?_⟩
      rw [hmin, if_neg (by omega)]
      dsimp only
      rw [hnext]
      have hemit : v.emitBlock emit acc blk (idx * blockSize)
          (min (physicalSize - idx * blockSize) blockSize) =
          v.emitAt emit inode physicalSize acc idx := by
        rw [emitAt, if_pos (by omega), hhead]
      rw [hemit]
      exact hvis

theorem resolve_direct {idx : Nat} (h : idx < directBlocks) :
    v.resolveLogicalBlockId inode idx = inode.slot idx := by
  rw [resolveLogicalBlockId, BlockPath.fromLogical, if_pos h]

theorem resolve_single {idx : Nat} (h : ¬idx < directBlocks) (h' : idx < singleEnd) :
    v.resolveLogicalBlockId inode idx = v.follow (inode.slot 10) (idx - directBlocks) := by
  rw [resolveLogicalBlockId, BlockPath.fromLogical, if_neg h, if_pos h']

theorem resolve_double {idx : Nat} (h : ¬idx < singleEnd) (h' : idx < doubleEnd) :
    v.resolveLogicalBlockId inode idx =
      v.follow (v.follow (inode.slot 11) ((idx - singleEnd) / ptrsPerBlock))
        ((idx - singleEnd) % ptrsPerBlock) := by
  have hd : ¬idx < directBlocks := fun hlt => h (Nat.lt_of_lt_of_le hlt (by decide))
  rw [resolveLogicalBlockId, BlockPath.fromLogical, if_neg hd, if_neg h, if_pos h']

theorem resolve_triple {idx : Nat} (h : ¬idx < doubleEnd) (h' : idx < maxLogicalBlocks) :
    v.resolveLogicalBlockId inode idx =
      v.follow (v.follow (v.follow (inode.slot 12)
        ((idx - doubleEnd) / (ptrsPerBlock * ptrsPerBlock)))
        ((idx - doubleEnd) % (ptrsPerBlock * ptrsPerBlock) / ptrsPerBlock))
        ((idx - doubleEnd) % (ptrsPerBlock * ptrsPerBlock) % ptrsPerBlock) := by
  have hs : ¬idx < singleEnd := fun hlt => h (Nat.lt_of_lt_of_le hlt (by decide))
  have hd : ¬idx < directBlocks := fun hlt => hs (Nat.lt_of_lt_of_le hlt (by decide))
  rw [resolveLogicalBlockId, BlockPath.fromLogical, if_neg hd, if_neg hs, if_neg h, if_pos h']

theorem follow_of_ne {parent i : Nat} (h : parent ≠ 0) : v.follow parent i = v.readBlockPtr parent i :=
  if_neg h

theorem follow_zero (i : Nat) : v.follow 0 i = 0 := if_pos rfl

theorem readBlockPtr_unmapped {parent i : Nat} (h : ¬parent < v.mapBlocks) :
    v.readBlockPtr parent i = 0 := by
  rw [readBlockPtr, if_neg fun hb => h hb.1]

theorem visited_batch {acc : β} {read idx parent i : Nat} (hread : read = idx * blockSize)
    (hlt : read < physicalSize) (hi : i < ptrsPerBlock)
    (h : ∀ k, k < ptrsPerBlock - i →
      v.resolveLogicalBlockId inode (idx + k) = v.readBlockPtr parent (i + k)) :
    ∃ n, 0 < n ∧ n ≤ ptrsPerBlock - i ∧ Visited v emit inode physicalSize acc idx n
      (if parent < v.mapBlocks then
        walkBatch v emit physicalSize (v.pointersFrom parent i) acc read idx
      else (acc, read + min (physicalSize - read) blockSize, idx + 1)) := by
  by_cases hmap : parent < v.mapBlocks
  · rw [if_pos hmap]
    have hlen : (v.pointersFrom parent i).length = ptrsPerBlock - i := by simp [pointersFrom]
    have hmin : read = min (idx * blockSize) physicalSize := by omega
    have hcells : ∀ k, (hk : k < (v.pointersFrom parent i).length) →
        v.resolveLogicalBlockId inode (idx + k) = (v.pointersFrom parent i)[k] := by
      intro k hk
      rw [h k (hlen ▸ hk)]
      simp [pointersFrom]
    obtain ⟨n, hn, hpos, hvis⟩ := walkBatch_visited hcells
    refine ⟨n, hpos (hread ▸ hlt) ?_, hlen ▸ hn, hmin ▸ hvis⟩
    rw [← List.length_pos_iff, hlen]
    omega
  · rw [if_neg hmap]
    refine ⟨1, Nat.one_pos, by omega, ?_⟩
    have hhole := h 0 (by omega)
    rw [readBlockPtr_unmapped hmap] at hhole
    have hnone : v.emitBlock emit acc 0 read (min (physicalSize - read) blockSize) = acc := by
      rw [emitBlock, if_neg (by simp [isDataBlock])]
    rw [← hnone]
    exact hnone.symm ▸ visited_single hread hlt hhole

/-- One step of the walk visits the next blocks, at least one. -/
theorem walkStep_visited {acc : β} {read idx : Nat} {r : β × Nat × Nat}
    (hread : read = idx * blockSize) (hlt : read < physicalSize)
    (h : walkStep v emit inode physicalSize acc read idx = some r) :
    ∃ n, 0 < n ∧ idx + n ≤ maxLogicalBlocks ∧ Visited v emit inode physicalSize acc idx n r := by
  unfold walkStep at h
  dsimp only at h
  by_cases hd : idx < directBlocks
  · rw [if_pos hd] at h
    cases h
    have hmax : directBlocks ≤ maxLogicalBlocks := by decide
    exact ⟨1, Nat.one_pos, by omega, visited_single hread hlt (resolve_direct hd)⟩
  rw [if_neg hd] at h
  by_cases hs : idx < singleEnd
  · rw [if_pos hs] at h
    have hend : singleEnd ≤ maxLogicalBlocks := by decide
    by_cases hsib : inode.slot 10 = 0
    · rw [if_pos hsib] at h
      cases h
      refine ⟨singleEnd - idx, by omega, by omega, visited_skip hread hlt fun k hk hk' => ?_⟩
      rw [resolve_single (by omega) (by omega), hsib, follow_zero]
    · rw [if_neg hsib] at h
      cases h
      have hsize : singleEnd = directBlocks + ptrsPerBlock := rfl
      have hcells : ∀ k, k < ptrsPerBlock - (idx - directBlocks) →
          v.resolveLogicalBlockId inode (idx + k) =
            v.readBlockPtr (inode.slot 10) (idx - directBlocks + k) := by
        intro k hk
        rw [resolve_single (by omega) (by omega), follow_of_ne hsib]
        congr 1
        omega
      obtain ⟨n, hpos, hn, hvis⟩ := visited_batch hread hlt (by omega) hcells
      exact ⟨n, hpos, by omega, hvis⟩
  rw [if_neg hs] at h
  by_cases hdb : idx < doubleEnd
  · rw [if_pos hdb] at h
    have hend : doubleEnd ≤ maxLogicalBlocks := by decide
    have hsize : doubleEnd = singleEnd + 512 * 512 := rfl
    have hptrs : ptrsPerBlock = 512 := rfl
    by_cases hdib : inode.slot 11 = 0
    · rw [if_pos hdib] at h
      cases h
      refine ⟨doubleEnd - idx, by omega, by omega, visited_skip hread hlt fun k hk hk' => ?_⟩
      rw [resolve_double (by omega) (by omega), hdib, follow_zero, follow_zero]
    · rw [if_neg hdib] at h
      obtain ⟨q, m, hq, hm, hlt512, hrel⟩ : ∃ q m, (idx - singleEnd) / ptrsPerBlock = q ∧
          (idx - singleEnd) % ptrsPerBlock = m ∧ m < 512 ∧ idx = singleEnd + 512 * q + m :=
        ⟨_, _, rfl, rfl, by rw [hptrs]; omega, by rw [hptrs]; omega⟩
      rw [hq, hm] at h
      -- the next blocks up to the end of this indirect block share its pointer
      have hsame : ∀ k, k < ptrsPerBlock - m → v.resolveLogicalBlockId inode (idx + k) =
          v.follow (v.readBlockPtr (inode.slot 11) q) (m + k) := by
        intro k hk
        have hq' : (idx + k - singleEnd) / ptrsPerBlock = q := by rw [hptrs]; omega
        have hm' : (idx + k - singleEnd) % ptrsPerBlock = m + k := by rw [hptrs]; omega
        rw [resolve_double (by omega) (by omega), follow_of_ne hdib, hq', hm']
      by_cases hsib : v.readBlockPtr (inode.slot 11) q = 0
      · rw [if_pos hsib] at h
        cases h
        refine ⟨ptrsPerBlock - m, by omega, by omega, visited_skip hread hlt fun k hk hk' => ?_⟩
        have hk := hsame (k - idx) (by omega)
        rw [hsib, follow_zero] at hk
        rwa [show idx + (k - idx) = k by omega] at hk
      · rw [if_neg hsib] at h
        cases h
        obtain ⟨n, hpos, hn, hvis⟩ := visited_batch hread hlt hlt512
          (fun k hk => (hsame k hk).trans (follow_of_ne hsib))
        exact ⟨n, hpos, by omega, hvis⟩
  rw [if_neg hdb] at h
  by_cases ht : idx < maxLogicalBlocks
  · rw [if_pos ht] at h
    have hsize : maxLogicalBlocks = doubleEnd + 512 * 512 * 512 := rfl
    have hptrs : ptrsPerBlock = 512 := rfl
    by_cases htib : inode.slot 12 = 0
    · rw [if_pos htib] at h
      cases h
      refine ⟨maxLogicalBlocks - idx, by omega, by omega, visited_skip hread hlt fun k hk hk' => ?_⟩
      rw [resolve_triple (by omega) (by omega), htib, follow_zero, follow_zero, follow_zero]
    · rw [if_neg htib] at h
      obtain ⟨q, d, m, hq, hd', hm, hltd, hltm, hrel⟩ : ∃ q d m,
          (idx - doubleEnd) / (ptrsPerBlock * ptrsPerBlock) = q ∧
          (idx - doubleEnd) % (ptrsPerBlock * ptrsPerBlock) / ptrsPerBlock = d ∧
          (idx - doubleEnd) % (ptrsPerBlock * ptrsPerBlock) % ptrsPerBlock = m ∧ d < 512 ∧ m < 512 ∧
          idx = doubleEnd + 512 * 512 * q + 512 * d + m :=
        ⟨_, _, _, rfl, rfl, rfl, by rw [hptrs]; omega, by rw [hptrs]; omega, by rw [hptrs]; omega⟩
      have hrem : (idx - doubleEnd) % (ptrsPerBlock * ptrsPerBlock) = 512 * d + m := by
        rw [hptrs]
        omega
      rw [hd', hm, hq, hrem] at h
      by_cases hdib : v.readBlockPtr (inode.slot 12) q = 0
      · rw [if_pos hdib] at h
        cases h
        refine ⟨ptrsPerBlock * ptrsPerBlock - (512 * d + m), by rw [hptrs]; omega,
          by rw [hptrs]; omega, visited_skip hread hlt fun k hk hk' => ?_⟩
        have hq' : (k - doubleEnd) / (ptrsPerBlock * ptrsPerBlock) = q := by
          rw [hptrs] at hk' ⊢
          omega
        rw [resolve_triple (by omega) (by rw [hptrs] at hk'; omega), follow_of_ne htib, hq', hdib,
          follow_zero, follow_zero]
      · rw [if_neg hdib] at h
        by_cases hsib : v.readBlockPtr (v.readBlockPtr (inode.slot 12) q) d = 0
        · rw [if_pos hsib] at h
          cases h
          refine ⟨ptrsPerBlock - m, by omega, by omega, visited_skip hread hlt fun k hk hk' => ?_⟩
          have hq' : (k - doubleEnd) / (ptrsPerBlock * ptrsPerBlock) = q := by rw [hptrs]; omega
          have hd' : (k - doubleEnd) % (ptrsPerBlock * ptrsPerBlock) / ptrsPerBlock = d := by
            rw [hptrs]
            omega
          rw [resolve_triple (by omega) (by omega), follow_of_ne htib, hq', follow_of_ne hdib, hd',
            hsib, follow_zero]
        · rw [if_neg hsib] at h
          cases h
          refine ⟨1, Nat.one_pos, by omega, visited_single hread hlt ?_⟩
          rw [resolve_triple hdb ht, hq, hd', hm, follow_of_ne htib, follow_of_ne hdib,
            follow_of_ne hsib]
  · rw [if_neg ht] at h
    cases h

theorem walkStep_none {acc : β} {read idx : Nat}
    (h : walkStep v emit inode physicalSize acc read idx = none) : maxLogicalBlocks ≤ idx := by
  by_contra hlt
  unfold walkStep at h
  dsimp only at h
  rw [if_pos (show idx < maxLogicalBlocks by omega)] at h
  split_ifs at h

theorem foldl_emitAt_end {acc : β} {idx n : Nat} (h : physicalSize ≤ idx * blockSize) :
    (List.range' idx n).foldl (v.emitAt emit inode physicalSize) acc = acc := by
  induction n generalizing idx with
  | zero => rfl
  | succ n ih =>
    rw [List.range'_succ, List.foldl_cons, emitAt, if_neg (by omega)]
    exact ih (by rw [Nat.add_mul]; omega)

theorem walkLoop_eq {fuel : Nat} {acc : β} {read idx : Nat}
    (hread : read = min (idx * blockSize) physicalSize) (hfuel : maxLogicalBlocks ≤ idx + fuel) :
    walkLoop v emit inode physicalSize fuel acc read idx =
      (List.range' idx (maxLogicalBlocks - idx)).foldl (v.emitAt emit inode physicalSize) acc := by
  induction fuel generalizing acc read idx with
  | zero =>
    rw [Nat.sub_eq_zero_of_le (by omega)]
    rfl
  | succ fuel ih =>
    unfold walkLoop
    by_cases hlt : read < physicalSize
    · rw [if_pos hlt]
      have hread' : read = idx * blockSize := by omega
      cases hstep : walkStep v emit inode physicalSize acc read idx with
      | none =>
        rw [Nat.sub_eq_zero_of_le (walkStep_none hstep)]
        rfl
      | some r =>
        obtain ⟨n, hpos, hmax, hvis⟩ := walkStep_visited hread' hlt hstep
        rw [hvis]
        dsimp only
        rw [ih rfl (by omega), ← List.foldl_append, List.range'_append_1,
          show n + (maxLogicalBlocks - (idx + n)) = maxLogicalBlocks - idx by omega]
    · rw [if_neg hlt, foldl_emitAt_end (by omega)]

theorem walkPayloadBlocks_eq (acc : β) :
    walkPayloadBlocks v emit inode physicalSize acc =
      (List.range' 0 maxLogicalBlocks).foldl (v.emitAt emit inode physicalSize) acc :=
  walkLoop_eq (by simp) (Nat.le_add_left _ _)

end Walk

def copyBlock (v : Volume) (buf : Nat → UInt8) (blk off len : Nat) : Nat → UInt8 :=
  if blk < v.mapBlocks then patch buf off ((List.range len).map (v.block blk)) else buf

def rawData (v : Volume) (inode : Inode) (physicalSize : Nat) : List UInt8 :=
  (List.range physicalSize).map
    (v.walkPayloadBlocks v.copyBlock inode physicalSize fun _ => 0)

theorem emitAt_copyBlock {v : Volume} {inode : Inode} {physicalSize k j : Nat} {buf : Nat → UInt8}
    (hj : j < physicalSize) :
    v.emitAt v.copyBlock inode physicalSize buf k j =
      if k = j / blockSize ∧ v.isDataBlock (v.resolveLogicalBlockId inode k) = true ∧
          v.resolveLogicalBlockId inode k < v.mapBlocks then
        v.block (v.resolveLogicalBlockId inode k) (j % blockSize)
      else buf j := by
  have hdecomp := Nat.div_add_mod j blockSize
  have hmod := mod_blockSize_lt j
  unfold emitAt emitBlock copyBlock
  by_cases hin : k * blockSize < physicalSize ∧
      v.isDataBlock (v.resolveLogicalBlockId inode k) = true ∧
        v.resolveLogicalBlockId inode k < v.mapBlocks
  · obtain ⟨hlt, hdata, hmap⟩ := hin
    rw [if_pos hlt, if_pos hdata, if_pos hmap]
    by_cases hk : k = j / blockSize
    · subst hk
      rw [if_pos ⟨rfl, hdata, hmap⟩]
      have hoff : j = j / blockSize * blockSize + j % blockSize := by
        rw [Nat.mul_comm]
        omega
      have hlen : j % blockSize <
          ((List.range (min (physicalSize - j / blockSize * blockSize) blockSize)).map
            (v.block (v.resolveLogicalBlockId inode (j / blockSize)))).length := by
        rw [List.length_map, List.length_range]
        omega
      have hbyte : patch buf (j / blockSize * blockSize) _
          (j / blockSize * blockSize + j % blockSize) = _ := patch_in hlen
      rw [← hoff] at hbyte
      rw [hbyte]
      simp
    · rw [if_neg fun h => hk h.1, patch_out]
      rw [List.length_map, List.length_range]
      by_contra hout
      refine hk (Nat.div_eq_of_lt_le (by omega) ?_).symm
      rw [Nat.add_mul]
      omega
  · have hcond : ¬(k = j / blockSize ∧ v.isDataBlock (v.resolveLogicalBlockId inode k) = true ∧
        v.resolveLogicalBlockId inode k < v.mapBlocks) := by
      rintro ⟨rfl, hdata, hmap⟩
      refine hin ⟨?_, hdata, hmap⟩
      rw [Nat.mul_comm]
      omega
    rw [if_neg hcond]
    split_ifs with h1 h2 h3
    · exact absurd ⟨h1, h2, h3⟩ hin
    · rfl
    · rfl
    · rfl

theorem foldl_emitAt_copyBlock {v : Volume} {inode : Inode} {physicalSize j i n : Nat}
    {buf : Nat → UInt8} (hj : j < physicalSize) :
    (List.range' i n).foldl (v.emitAt v.copyBlock inode physicalSize) buf j =
      if (i ≤ j / blockSize ∧ j / blockSize < i + n) ∧
          v.isDataBlock (v.resolveLogicalBlockId inode (j / blockSize)) = true ∧
          v.resolveLogicalBlockId inode (j / blockSize) < v.mapBlocks then
        v.block (v.resolveLogicalBlockId inode (j / blockSize)) (j % blockSize)
      else buf j := by
  induction n generalizing i buf with
  | zero =>
    rw [if_neg (by omega)]
    rfl
  | succ n ih =>
    rw [List.range'_succ, List.foldl_cons, ih, emitAt_copyBlock hj]
    by_cases hi : i = j / blockSize
    · subst hi
      rw [if_neg (by omega)]
      have hin : j / blockSize ≤ j / blockSize ∧ j / blockSize < j / blockSize + (n + 1) := by omega
      simp only [true_and, hin]
    · have hiff : (i + 1 ≤ j / blockSize ∧ j / blockSize < i + 1 + n) ↔
          (i ≤ j / blockSize ∧ j / blockSize < i + (n + 1)) := by omega
      simp only [hi, hiff, false_and, if_false]

end Volume

theorem rawData_eq_payload {v : Volume} {i : Inode} {physicalSize : Nat}
    (h : ∀ k, k * blockSize < physicalSize → v.resolveLogicalBlockId i k ≠ 0 →
      v.isDataBlock (v.resolveLogicalBlockId i k) = true ∧ v.resolveLogicalBlockId i k < v.mapBlocks) :
    v.rawData i physicalSize = (List.range physicalSize).map (v.payload i) := by
  unfold Volume.rawData
  refine List.map_congr_left fun j hj => ?_
  rw [Volume.walkPayloadBlocks_eq, Volume.foldl_emitAt_copyBlock (List.mem_range.mp hj),
    Volume.payload, Volume.blockByte]
  by_cases hzero : v.resolveLogicalBlockId i (j / blockSize) = 0
  · rw [if_pos hzero, if_neg]
    rintro ⟨-, hdata, -⟩
    rw [hzero] at hdata
    simp [Volume.isDataBlock] at hdata
  · rw [if_neg hzero]
    refine if_pos ⟨⟨Nat.zero_le _, ?_⟩, h _ ?_ hzero⟩
    · by_contra hge
      refine hzero ?_
      rw [Volume.resolveLogicalBlockId, BlockPath.fromLogical_none_iff.mpr (by omega)]
    · exact Nat.lt_of_le_of_lt (Nat.div_mul_le_self ..) (List.mem_range.mp hj)

theorem rawData_eq {F : Files} {v : Volume} {id : Nat} (hg : Good rawExtent F v)
    (hhas : F.has id = true) (physicalSize : Nat) :
    v.rawData (F.inode id) physicalSize =
      (List.range physicalSize).map (v.payload (F.inode id)) := by
  refine rawData_eq_payload fun k _ hzero => ?_
  rw [resolveLogicalBlockId_eq hhas] at hzero ⊢
  cases hl : leafPlace id k with
  | none => simp [hl] at hzero
  | some l =>
    rw [hl, Option.map_some, Option.getD_some] at hzero
    have hdata := hg.data _ ⟨l, (leafPlace_valid hl).1, mem_owns_raw hzero⟩
    have hlt := (Volume.isDataBlock_iff.mp hdata).2.2
    exact ⟨hdata, Nat.lt_of_lt_of_le hlt hg.sound.count_le⟩

namespace Inode

def filter (i : Inode) : FilterConfig :=
  ⟨i.filterTypesize, i.filterDelta, i.filterShuffle, i.filterBitshuffle⟩

def physicalSize (i : Inode) : Nat := if 0 < i.compressedSize then i.compressedSize else i.size

def decodeLimit (i : Inode) : Nat := max (i.size + 65536) (1024 * 1024)

end Inode

namespace Session

def decryptPayload (S : Session) (scheme id : Nat) (inode : Inode) (raw : List UInt8) :
    Except DiskError (List UInt8) :=
  if inode.encrypted then
    match S.encryptionKey with
    | none => .error .passwordRequired
    | some key =>
      match S.codec.decryptData raw key inode.encryptionNonce (fileAadForScheme id scheme) with
      | some plain => .ok plain
      | none => .error .decryptionFailed
  else .ok raw

def decompressPayload (S : Session) (inode : Inode) (plain : List UInt8) :
    Except DiskError (List UInt8) :=
  if inode.mode = .file ∧ 0 < inode.compressedSize then
    S.codec.decodeStream plain inode.decodeLimit
  else .ok plain

def unfilterPayload (S : Session) (inode : Inode) (decoded : List UInt8) : List UInt8 :=
  if inode.filter.isActive then S.codec.unapplyFilters decoded inode.filter else decoded

def decodePayload (S : Session) (scheme id : Nat) (inode : Inode) (raw : List UInt8) :
    Except DiskError (List UInt8) := do
  let plain ← S.decryptPayload scheme id inode raw
  let decoded ← S.decompressPayload inode plain
  return S.unfilterPayload inode decoded

def readDataInternal (S : Session) (v : Volume) (id : Nat) (inode : Inode) :
    Except DiskError (List UInt8) :=
  if inode.isSeekable then S.readChunked64kInternal v id inode
  else if inode.physicalSize = 0 then .ok []
  else S.decodePayload v.superblock.encryptionVersion id inode (v.rawData inode inode.physicalSize)

def readData (S : Session) (v : Volume) (id : Nat) : Except DiskError (List UInt8) := do
  S.readDataInternal v id (← v.readInodeInternal id)

def readAtRawLoop (v : Volume) (inode : Inode) (curr rest : Nat) : List UInt8 :=
  if _h : rest = 0 then []
  else
    let len := min rest (blockSize - curr % blockSize)
    let blk := v.resolveLogicalBlockId inode (curr / blockSize)
    let bytes :=
      if blk ≠ 0 ∧ blk < v.mapBlocks then
        (List.range len).map fun k => v.block blk (curr % blockSize + k)
      else List.replicate len 0
    bytes ++ readAtRawLoop v inode (curr + len) (rest - len)
termination_by rest
decreasing_by
  have hmod := mod_blockSize_lt curr
  change rest - min rest (blockSize - curr % blockSize) < rest
  omega

def readAt (S : Session) (v : Volume) (id offset len : Nat) : Except DiskError (List UInt8) := do
  let inode ← v.readInodeInternal id
  requireFile inode "Cannot read non-file inode"
  if offset ≥ inode.size ∨ len = 0 then return []
  else
    let total := min len (inode.size - offset)
    if inode.isSeekable then S.readAtChunked64k v id inode offset len
    else if 0 < inode.compressedSize ∨ inode.encrypted then
      let full ← S.readDataInternal v id inode
      return (full.take (offset + total)).drop offset
    else return readAtRawLoop v inode offset total

end Session

end Oifs
