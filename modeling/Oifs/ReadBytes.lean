import Oifs.ReadPath

namespace Oifs

namespace Volume

variable {v : Volume} {inode : Inode}

theorem resolve_none {k : Nat} (h : maxLogicalBlocks ≤ k) : v.resolveLogicalBlockId inode k = 0 := by
  have hpath : BlockPath.fromLogical k = none := by
    unfold BlockPath.fromLogical
    have hbounds : directBlocks ≤ maxLogicalBlocks ∧ singleEnd ≤ maxLogicalBlocks ∧
        doubleEnd ≤ maxLogicalBlocks := by decide
    rw [if_neg (by omega), if_neg (by omega), if_neg (by omega), if_neg (by omega)]
  simp [resolveLogicalBlockId, hpath]

theorem filter_range_eq {p : Nat → Bool} {m n : Nat} (h : ∀ k, m ≤ k ∨ n ≤ k → p k = false) :
    (List.range m).filter p = (List.range n).filter p := by
  wlog hle : m ≤ n generalizing m n
  · exact (this (fun k hk => h k hk.symm) (Nat.le_of_not_le hle)).symm
  obtain ⟨d, rfl⟩ := Nat.exists_eq_add_of_le hle
  have hnone : ((List.range d).map (m + ·)).filter p = [] := by
    refine List.filter_eq_nil_iff.mpr fun k hk => ?_
    obtain ⟨j, -, rfl⟩ := List.mem_map.mp hk
    simp [h (m + j) (Or.inl (Nat.le_add_right ..))]
  rw [List.range_add, List.filter_append, hnone, List.append_nil]

/-- `walk_payload_blocks` calls `emit` for the data blocks below the rounded size, in order, and for
no others. -/
theorem walk_visits_data_blocks {β : Type} (v : Volume) (inode : Inode) (physicalSize : Nat)
    (emit : β → Nat → Nat → Nat → β) (acc : β) :
    v.walkPayloadBlocks emit inode physicalSize acc =
      ((List.range (divCeil physicalSize blockSize)).filter fun k =>
        v.isDataBlock (v.resolveLogicalBlockId inode k)).foldl
        (fun acc k => emit acc (v.resolveLogicalBlockId inode k) (k * blockSize)
          (min (physicalSize - k * blockSize) blockSize)) acc := by
  rw [walkPayloadBlocks_eq]
  have hstep : v.emitAt emit inode physicalSize = fun acc k =>
      if (decide (k * blockSize < physicalSize) &&
          v.isDataBlock (v.resolveLogicalBlockId inode k)) = true then
        emit acc (v.resolveLogicalBlockId inode k) (k * blockSize)
          (min (physicalSize - k * blockSize) blockSize)
      else acc := by
    funext acc k
    unfold emitAt emitBlock
    by_cases hlt : k * blockSize < physicalSize
    · simp [hlt]
    · simp [hlt]
  have hlast : ∀ k, k < divCeil physicalSize blockSize ↔ k * blockSize < physicalSize := by
    intro k
    simp only [divCeil, show blockSize = 4096 from rfl]
    omega
  rw [hstep, ← List.foldl_filter, ← List.range_eq_range']
  have hbelow : (List.range maxLogicalBlocks).filter (fun k =>
      decide (k * blockSize < physicalSize) && v.isDataBlock (v.resolveLogicalBlockId inode k)) =
      (List.range (divCeil physicalSize blockSize)).filter fun k =>
        decide (k * blockSize < physicalSize) && v.isDataBlock (v.resolveLogicalBlockId inode k) := by
    refine filter_range_eq fun k hk => ?_
    rcases hk with hk | hk
    · rw [resolve_none hk]
      simp [isDataBlock]
    · rw [decide_eq_false (mt (hlast k).mpr (Nat.not_lt.mpr hk)), Bool.false_and]
  have hsame : ∀ k ∈ List.range (divCeil physicalSize blockSize),
      (decide (k * blockSize < physicalSize) && v.isDataBlock (v.resolveLogicalBlockId inode k)) =
        v.isDataBlock (v.resolveLogicalBlockId inode k) := by
    intro k hk
    rw [decide_eq_true ((hlast k).mp (List.mem_range.mp hk)), Bool.true_and]
  rw [hbelow, List.filter_congr hsame]

/-- Position `j` of a whole file as `read_at` copies it, wherever its block lies. -/
def mappedByte (v : Volume) (inode : Inode) (j : Nat) : UInt8 :=
  let blk := v.resolveLogicalBlockId inode (j / blockSize)
  if blk ≠ 0 ∧ blk < v.mapBlocks then v.block blk (j % blockSize) else 0

def dataByte (v : Volume) (inode : Inode) (j : Nat) : UInt8 :=
  let blk := v.resolveLogicalBlockId inode (j / blockSize)
  if v.isDataBlock blk = true ∧ blk < v.mapBlocks then v.block blk (j % blockSize) else 0

theorem rawData_bytes (v : Volume) (inode : Inode) (n : Nat) :
    v.rawData inode n = (List.range n).map (v.dataByte inode) := by
  refine List.map_congr_left fun j hj => ?_
  rw [walkPayloadBlocks_eq, foldl_emitAt_copyBlock (List.mem_range.mp hj)]
  unfold dataByte
  by_cases hend : j / blockSize < maxLogicalBlocks
  · simp [hend]
  · rw [resolve_none (Nat.not_lt.mp hend)]
    simp [isDataBlock]

theorem readAtRawLoop_bytes (v : Volume) (inode : Inode) (curr rest : Nat) :
    Session.readAtRawLoop v inode curr rest = (List.range' curr rest).map (v.mappedByte inode) := by
  induction rest using Nat.strong_induction_on generalizing curr with
  | _ rest ih =>
    unfold Session.readAtRawLoop
    by_cases hz : rest = 0
    · rw [dif_pos hz, hz]
      rfl
    rw [dif_neg hz]
    have hmod := mod_blockSize_lt curr
    obtain ⟨len, hlen⟩ : ∃ len, min rest (blockSize - curr % blockSize) = len := ⟨_, rfl⟩
    dsimp only
    rw [hlen, ih (rest - len) (by omega)]
    have hbytes : (if v.resolveLogicalBlockId inode (curr / blockSize) ≠ 0 ∧
          v.resolveLogicalBlockId inode (curr / blockSize) < v.mapBlocks then
        (List.range len).map fun k =>
          v.block (v.resolveLogicalBlockId inode (curr / blockSize)) (curr % blockSize + k)
        else List.replicate len 0) = (List.range' curr len).map (v.mappedByte inode) := by
      -- all of these bytes are in one block
      have hpos : ∀ k < len, (curr + k) / blockSize = curr / blockSize ∧
          (curr + k) % blockSize = curr % blockSize + k := by
        intro k hk
        have hb : blockSize = 4096 := rfl
        rw [hb] at hlen hmod ⊢
        omega
      apply List.ext_getElem
      · split <;> simp
      · intro k hk hk'
        simp only [List.length_map, List.length_range'] at hk'
        obtain ⟨hdiv, hrem⟩ := hpos k hk'
        simp only [List.getElem_map, List.getElem_range', Nat.one_mul, mappedByte, hdiv, hrem]
        split <;> simp
    rw [hbytes, ← List.map_append, List.range'_append_1, show len + (rest - len) = rest by omega]

end Volume

namespace Session

variable {S : Session} {v : Volume} {id : Nat} {i : Inode}

theorem readSingle_length {idx n : Nat} {chunk : List UInt8}
    (h : S.readSingleChunkDecompressed v id i idx n = .ok chunk) : chunk.length = n := by
  have hresize : ∀ l : List UInt8, (resize l n).length = n := by
    intro l
    simp only [resize, List.length_append, List.length_take, List.length_replicate]
    omega
  unfold readSingleChunkDecompressed at h
  dsimp only at h
  split at h
  next =>
    cases h
    exact List.length_replicate
  next =>
    split at h
    next =>
      obtain ⟨raw, -, h⟩ := except_bind_ok.mp h
      split at h
      next =>
        obtain ⟨plain, -, h⟩ := except_bind_ok.mp h
        cases h
        exact hresize plain
      next =>
        cases h
        exact hresize raw
    next =>
      split at h
      next =>
        obtain ⟨comp, -, h⟩ := except_bind_ok.mp h
        split at h
        next =>
          obtain ⟨frame, -, h⟩ := except_bind_ok.mp h
          obtain ⟨result, -, h⟩ := except_bind_ok.mp h
          cases h
          exact hresize result
        next =>
          obtain ⟨frame, -, h⟩ := except_bind_ok.mp h
          obtain ⟨result, -, h⟩ := except_bind_ok.mp h
          cases h
          exact hresize result
      next =>
        cases h
        exact List.length_replicate

def ByteAt (S : Session) (v : Volume) (id : Nat) (i : Inode) (j : Nat) (x : UInt8) : Prop :=
  ∃ chunk, S.readSingleChunkDecompressed v id i (j / chunkSize64k)
      (chunkValidLen i.size (j / chunkSize64k)) = .ok chunk ∧ chunk[j % chunkSize64k]? = some x

theorem readAtChunkedLoop_step {curr rest : Nat} (hpos : 0 < rest) (hin : curr + rest ≤ i.size) :
    S.readAtChunkedLoop v id i curr rest = (do
      let chunk ← S.readSingleChunkDecompressed v id i (curr / chunkSize64k)
        (chunkValidLen i.size (curr / chunkSize64k))
      let n := min rest (chunkValidLen i.size (curr / chunkSize64k) - curr % chunkSize64k)
      let tail ← S.readAtChunkedLoop v id i (curr + n) (rest - n)
      return (chunk.drop (curr % chunkSize64k)).take n ++ tail) := by
  have hvalid : curr % chunkSize64k < chunkValidLen i.size (curr / chunkSize64k) := by
    simp only [chunkValidLen, chunkSize64k]
    omega
  conv_lhs => rw [readAtChunkedLoop]
  rw [if_neg (by omega)]
  dsimp only
  rw [if_neg (by omega)]
  cases hread : S.readSingleChunkDecompressed v id i (curr / chunkSize64k)
      (chunkValidLen i.size (curr / chunkSize64k)) with
  | error e => rfl
  | ok chunk =>
    have hlen := readSingle_length hread
    generalize hn : min rest (chunkValidLen i.size (curr / chunkSize64k) - curr % chunkSize64k) = n
    have hmin : min (chunk.length - curr % chunkSize64k) n = n := by omega
    dsimp only
    rw [hmin, dif_pos (by omega)]
    cases hloop : S.readAtChunkedLoop v id i (curr + n) (rest - n) with
    | error e => simp [bind, Except.bind]
    | ok tail => simp [bind, Except.bind, pure, Except.pure]

theorem readAtChunkedLoop_zero (curr : Nat) : S.readAtChunkedLoop v id i curr 0 = .ok [] := by
  rw [readAtChunkedLoop, if_pos rfl]

theorem readAtChunkedLoop_ok {curr rest : Nat} {bytes : List UInt8}
    (hin : rest = 0 ∨ curr + rest ≤ i.size) :
    S.readAtChunkedLoop v id i curr rest = .ok bytes ↔
      bytes.length = rest ∧ ∀ k x, bytes[k]? = some x → S.ByteAt v id i (curr + k) x := by
  induction rest using Nat.strong_induction_on generalizing curr bytes with
  | _ rest ih =>
    by_cases hzero : rest = 0
    · subst hzero
      rw [readAtChunkedLoop_zero, Except.ok.injEq]
      constructor
      · rintro rfl
        exact ⟨rfl, fun k x hx => by simp at hx⟩
      · exact fun h => (List.length_eq_zero_iff.mp h.1).symm
    have hsize := hin.resolve_left hzero
    rw [readAtChunkedLoop_step (by omega) hsize]
    obtain ⟨n, hn⟩ : ∃ n, min rest (chunkValidLen i.size (curr / chunkSize64k) -
        curr % chunkSize64k) = n := ⟨_, rfl⟩
    simp only [except_bind_ok, except_pure_ok, hn]
    have hbounds : 0 < n ∧ n ≤ rest ∧ curr % chunkSize64k + n ≤ chunkSize64k ∧
        curr % chunkSize64k + n ≤ chunkValidLen i.size (curr / chunkSize64k) := by
      simp only [chunkValidLen, chunkSize64k] at hn ⊢
      omega
    obtain ⟨hpos, hle, hchunk, hvalid⟩ := hbounds
    -- the first `n` bytes lie in one chunk
    have hplace : ∀ k < n, (curr + k) / chunkSize64k = curr / chunkSize64k ∧
        (curr + k) % chunkSize64k = curr % chunkSize64k + k := by
      intro k hk
      simp only [chunkSize64k] at hchunk ⊢
      omega
    have hrest : rest - n = 0 ∨ curr + n + (rest - n) ≤ i.size := Or.inr (by omega)
    constructor
    · rintro ⟨chunk, hread, tail, htail, rfl⟩
      obtain ⟨hlen, hbytes⟩ := (ih (rest - n) (by omega) hrest).mp htail
      have hchunkLen := readSingle_length hread
      have hfirst : ((chunk.drop (curr % chunkSize64k)).take n).length = n := by
        rw [List.length_take, List.length_drop]
        omega
      refine ⟨by rw [List.length_append, hfirst]; omega, fun k x hx => ?_⟩
      by_cases hk : k < n
      · obtain ⟨hdiv, hmod⟩ := hplace k hk
        rw [List.getElem?_append_left (by omega), List.getElem?_take_of_lt hk,
          List.getElem?_drop] at hx
        exact ⟨chunk, by rw [hdiv]; exact hread, by rw [hmod]; exact hx⟩
      · rw [List.getElem?_append_right (by omega), hfirst] at hx
        have hbyte := hbytes (k - n) x hx
        rwa [show curr + n + (k - n) = curr + k by omega] at hbyte
    · rintro ⟨hlen, hbytes⟩
      obtain ⟨chunk, hread, -⟩ := hbytes 0 _ (List.getElem?_eq_getElem (by omega))
      rw [Nat.add_zero] at hread
      refine ⟨chunk, hread, bytes.drop n, (ih (rest - n) (by omega) hrest).mpr ⟨?_, fun k x hx => ?_⟩, ?_⟩
      · rw [List.length_drop, hlen]
      · rw [List.getElem?_drop] at hx
        have hbyte := hbytes _ x hx
        rwa [← Nat.add_assoc] at hbyte
      · conv_rhs => rw [← List.take_append_drop n bytes]
        congr 1
        refine List.ext_getElem? fun k => ?_
        by_cases hk : k < n
        · obtain ⟨hdiv, hmod⟩ := hplace k hk
          have hkb : k < bytes.length := by omega
          rw [List.getElem?_take_of_lt hk, List.getElem?_take_of_lt hk, List.getElem?_drop,
            List.getElem?_eq_getElem hkb]
          obtain ⟨chunk', hread', hx⟩ := hbytes k _ (List.getElem?_eq_getElem hkb)
          rw [hdiv, hread] at hread'
          cases hread'
          rw [← hx, hmod]
        · rw [List.getElem?_eq_none (by rw [List.length_take]; omega),
            List.getElem?_eq_none (by rw [List.length_take]; omega)]

/-- A whole read is the ranged read of the whole file. -/
theorem readChunked64kInternal_eq_loop (S : Session) (v : Volume) (id : Nat) (i : Inode) :
    S.readChunked64kInternal v id i = S.readAtChunkedLoop v id i 0 i.size := by
  -- the chunks from `q` on
  suffices h : ∀ n q, q + n = divCeil i.size chunkSize64k →
      S.readAtChunkedLoop v id i (q * chunkSize64k) (i.size - q * chunkSize64k) = (do
        let parts ← (List.range' q n).mapM fun idx =>
          S.readSingleChunkDecompressed v id i idx (chunkValidLen i.size idx)
        return parts.flatten) by
    have hall := h (divCeil i.size chunkSize64k) 0 (Nat.zero_add _)
    rw [Nat.zero_mul, Nat.sub_zero, ← List.range_eq_range'] at hall
    exact hall.symm
  intro n
  induction n with
  | zero =>
    intro q hq
    have hend : i.size - q * chunkSize64k = 0 := by
      simp only [divCeil, chunkSize64k] at hq ⊢
      omega
    rw [hend, readAtChunkedLoop_zero]
    rfl
  | succ n ih =>
    intro q hq
    have hcurr : q * chunkSize64k / chunkSize64k = q ∧ q * chunkSize64k % chunkSize64k = 0 := by
      simp only [chunkSize64k]
      omega
    have hlt : q * chunkSize64k < i.size := by
      simp only [divCeil, chunkSize64k] at hq ⊢
      omega
    have hcopy : min (i.size - q * chunkSize64k) (chunkValidLen i.size q - 0) =
        chunkValidLen i.size q := by
      simp only [chunkValidLen]
      omega
    have htail : S.readAtChunkedLoop v id i (q * chunkSize64k + chunkValidLen i.size q)
        (i.size - q * chunkSize64k - chunkValidLen i.size q) =
        S.readAtChunkedLoop v id i ((q + 1) * chunkSize64k) (i.size - (q + 1) * chunkSize64k) := by
      by_cases hlast : i.size ≤ (q + 1) * chunkSize64k
      · have hzero : i.size - q * chunkSize64k - chunkValidLen i.size q = 0 ∧
            i.size - (q + 1) * chunkSize64k = 0 := by
          simp only [chunkValidLen, chunkSize64k] at hlast ⊢
          omega
        rw [hzero.1, hzero.2, readAtChunkedLoop_zero, readAtChunkedLoop_zero]
      · have hfull : chunkValidLen i.size q = chunkSize64k := by
          simp only [chunkValidLen, chunkSize64k] at hlast ⊢
          omega
        rw [hfull, Nat.succ_mul, Nat.sub_sub]
    rw [readAtChunkedLoop_step (by omega) (by omega), hcurr.1, hcurr.2, hcopy]
    dsimp only
    rw [htail, ih (q + 1) (by omega), List.range'_succ, List.mapM_cons]
    cases hread : S.readSingleChunkDecompressed v id i q (chunkValidLen i.size q) with
    | error e => rfl
    | ok chunk =>
      have hlen := readSingle_length hread
      simp only [bind, Except.bind, pure, Except.pure, List.drop_zero, ← hlen, List.take_length]
      cases (List.range' (q + 1) n).mapM fun idx =>
          S.readSingleChunkDecompressed v id i idx (chunkValidLen i.size idx) with
      | error e => rfl
      | ok parts => rfl

end Session

end Oifs
