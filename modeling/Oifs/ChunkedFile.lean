import Oifs.ChunkContent
import Oifs.ReadBytes

namespace Oifs

open PointerForest

theorem copyFromSlice_map_range (f : Nat → UInt8) {n off : Nat} {data : List UInt8}
    (h : off + data.length ≤ n) :
    copyFromSlice ((List.range n).map f) off data = (List.range n).map (patch f off data) := by
  unfold copyFromSlice
  apply List.ext_getElem
  · simp
    omega
  · intro j hj hj'
    simp only [List.length_map, List.length_range] at hj'
    rw [List.getElem_map, List.getElem_range]
    by_cases hlow : j < off
    · rw [patch_out (Or.inl hlow), List.getElem_append_left (by simp; omega),
        List.getElem_append_left (by simp; omega)]
      simp
    · by_cases hhigh : j < off + data.length
      · obtain ⟨k, rfl⟩ := Nat.exists_eq_add_of_le (Nat.not_lt.mp hlow)
        have hk : k < data.length := by omega
        have hmin : min off n = off := by omega
        rw [patch_in hk, List.getElem_append_left (by simp; omega),
          List.getElem_append_right (by simp)]
        simp [hmin]
      · rw [patch_out (Or.inr (by omega)), List.getElem_append_right (by simp; omega)]
        simp only [List.length_append, List.length_take, List.length_map, List.length_range,
          List.getElem_drop, List.getElem_map, List.getElem_range]
        congr 1
        omega

theorem patch_window {c : Nat → UInt8} {offset start : Nat} {data : List UInt8} (stop : Nat)
    (hstop : stop ≤ offset + data.length) (k : Nat) (hk : start + k < stop ∨
      offset + data.length ≤ start + k) :
    patch (fun k => c (start + k)) (max offset start - start)
      ((data.take (stop - offset)).drop (max offset start - offset)) k =
      patch c offset data (start + k) := by
  by_cases hlow : start + k < offset
  · rw [patch_out (Or.inl hlow), patch_out (Or.inl (by omega))]
  · by_cases hhigh : offset + data.length ≤ start + k
    · rw [patch_out (Or.inr hhigh), patch_out]
      refine Or.inr ?_
      simp only [List.length_drop, List.length_take]
      omega
    · have hle : max offset start - start ≤ k := by omega
      unfold patch
      rw [if_pos hle, if_pos (by omega), List.getElem?_drop,
        List.getElem?_take_of_lt (by omega)]
      congr 2
      omega

namespace Session

variable {S : Session} {v v' : Volume} {id : Nat} {i : Inode} {c : Nat → UInt8}

/-- A file that seekable calls have made, or a new one: its content is the first `size` bytes of
`c`. -/
structure ChunkedFile (S : Session) (v : Volume) (id : Nat) (i : Inode) (c : Nat → UInt8) :
    Prop where
  record : v.readInodeInternal id = .ok i
  mode : i.mode = .file
  plain : i.encrypted = false
  journal : v.superblock.hasJournalLayout = false
  image : ChunkImage v
  good : Good chunkExtent (Files.single id i) v
  kind : i.isSeekable = true ∨
    ((∀ s, i.slot s = 0) ∧ i.compressedSize = 0 ∧ i.filterTypesize = 0)
  chunks : S.Chunks v i fun idx k => c (idx * chunkSize64k + k)
  zero : ∀ j, i.size ≤ j → c j = 0

/-- The leaves of a file, read as the entries of chunks, stand for the bytes `c`. -/
structure ChunkView (S : Session) (v : Volume) (id : Nat) (i : Inode) (c : Nat → UInt8) : Prop where
  record : v.readInodeInternal id = .ok i
  mode : i.mode = .file
  plain : i.encrypted = false
  journal : v.superblock.hasJournalLayout = false
  good : Good chunkExtent (Files.single id i) v
  chunks : S.Chunks v i fun idx k => c (idx * chunkSize64k + k)
  zero : ∀ j, i.size ≤ j → c j = 0

theorem ChunkedFile.view (h : S.ChunkedFile v id i c) : S.ChunkView v id i c :=
  ⟨h.record, h.mode, h.plain, h.journal, h.good, h.chunks, h.zero⟩

theorem ChunkView.chunkedFile (h : S.ChunkView v id i c) (himage : ChunkImage v)
    (hseek : i.isSeekable = true) : S.ChunkedFile v id i c :=
  ⟨h.record, h.mode, h.plain, h.journal, himage, h.good, .inl hseek, h.chunks, h.zero⟩

theorem Holds.eq_nil_of_zero {d : List UInt8} (h : S.Holds v 0 d) : d = [] := by
  cases h with
  | empty => rfl
  | raw _ hflag => cases hflag
  | compressed _ _ _ hflag => cases hflag

theorem resolveLogicalChunkEntry_empty (v : Volume) (idx : Nat) (hslots : ∀ s, i.slot s = 0) :
    v.resolveLogicalChunkEntry i idx = 0 := by
  cases hl : leafPlace 0 idx with
  | none => exact resolveLogicalChunkEntry_none v hl
  | some l => rw [resolveLogicalChunkEntry_single v hl, get_single_empty hslots]

theorem ChunkedFile.zero_of_slots (h : S.ChunkedFile v id i c) (hslots : ∀ s, i.slot s = 0)
    (j : Nat) : c j = 0 := by
  obtain ⟨d, hd, hbytes⟩ := h.chunks (j / chunkSize64k)
  rw [resolveLogicalChunkEntry_empty v _ hslots] at hd
  have hbyte := hbytes (j % chunkSize64k) (Nat.mod_lt _ (by decide))
  change d.getD _ 0 = c (j / chunkSize64k * chunkSize64k + j % chunkSize64k) at hbyte
  rw [hd.eq_nil_of_zero, Nat.mul_comm, Nat.div_add_mod] at hbyte
  exact hbyte.symm

theorem chunkValidLen_le (size idx : Nat) : chunkValidLen size idx ≤ chunkSize64k :=
  Nat.min_le_right ..

/-- Every chunk reads as its part of `c`, at every length. -/
def ReadsAs (S : Session) (v : Volume) (id : Nat) (i : Inode) (c : Nat → UInt8) : Prop :=
  ∀ {idx n : Nat}, n ≤ chunkSize64k → S.readSingleChunkDecompressed v id i idx n =
    .ok ((List.range n).map fun k => c (idx * chunkSize64k + k))

theorem ChunkView.reads (hC : S.codec.Lawful) (h : S.ChunkView v id i c) : S.ReadsAs v id i c := by
  intro idx n hn
  obtain ⟨d, hd, hbytes⟩ := h.chunks idx
  rw [hd.read hC h.plain, resize_eq_map]
  refine congrArg Except.ok (List.map_congr_left fun k hk => hbytes k ?_)
  have hlt := List.mem_range.mp hk
  omega

def chunkPart (c : Nat → UInt8) (size idx : Nat) : List UInt8 :=
  (List.range (chunkValidLen size idx)).map fun k => c (idx * chunkSize64k + k)

theorem readAtChunkedLoop_parts {curr rest : Nat} (h : ∀ idx, S.readSingleChunkDecompressed v id i idx
      (chunkValidLen i.size idx) = .ok (chunkPart c i.size idx))
    (hrest : rest = 0 ∨ curr + rest ≤ i.size) :
    S.readAtChunkedLoop v id i curr rest = .ok ((List.range rest).map fun k => c (curr + k)) := by
  refine (readAtChunkedLoop_ok hrest).mpr ⟨by simp, fun k x hx => ?_⟩
  have hk : k < rest := by
    obtain ⟨hk, -⟩ := List.getElem?_eq_some_iff.mp hx
    rwa [List.length_map, List.length_range] at hk
  rw [List.getElem?_map, List.getElem?_range hk] at hx
  cases hx
  refine ⟨_, h _, ?_⟩
  have hvalid : (curr + k) % chunkSize64k < chunkValidLen i.size ((curr + k) / chunkSize64k) := by
    simp only [chunkValidLen, chunkSize64k]
    omega
  rw [chunkPart, List.getElem?_map, List.getElem?_range hvalid, Option.map_some, Nat.mul_comm,
    Nat.div_add_mod]

theorem ChunkView.parts (hC : S.codec.Lawful) (h : S.ChunkView v id i c) (idx : Nat) :
    S.readSingleChunkDecompressed v id i idx (chunkValidLen i.size idx) = .ok (chunkPart c i.size idx) :=
  h.reads hC (chunkValidLen_le ..)

theorem readData_parts (hrecord : v.readInodeInternal id = .ok i) (hseek : i.isSeekable = true)
    (h : ∀ idx, S.readSingleChunkDecompressed v id i idx (chunkValidLen i.size idx) =
      .ok (chunkPart c i.size idx)) : S.readData v id = .ok ((List.range i.size).map c) := by
  unfold readData
  rw [hrecord]
  change S.readDataInternal v id i = _
  rw [readDataInternal, if_pos hseek, readChunked64kInternal_eq_loop,
    readAtChunkedLoop_parts h (by omega)]
  simp

/-- The buffer of a touched chunk holds the new bytes over the old ones. -/
theorem chunkBuffer_ok {offset idx : Nat} {data buf : List UInt8} (h : S.ReadsAs v id i c)
    (hend : ∀ j, i.size ≤ j → c j = 0) (hidx : idx ∈ touchedChunks offset data.length)
    (hdata : data ≠ []) (hbuf : S.chunkBuffer v id i offset data idx = .ok buf) :
    buf = (List.range (chunkValidLen (max i.size (offset + data.length)) idx)).map
      fun k => patch c offset data (idx * chunkSize64k + k) := by
  have hlen := List.length_pos_iff.mpr hdata
  have hsize : chunkSize64k = 65536 := rfl
  have hmem : offset / 65536 ≤ idx ∧ idx ≤ (offset + data.length - 1) / 65536 := by
    have hmem := List.mem_range'_1.mp hidx
    rw [hsize] at hmem
    omega
  generalize hn : chunkValidLen (max i.size (offset + data.length)) idx = n
  have hn' : n = min (max i.size (offset + data.length) - idx * 65536) 65536 := hn.symm
  unfold Session.chunkBuffer at hbuf
  dsimp only at hbuf
  rw [hn] at hbuf
  have hslice : ((data.take (min (offset + data.length) (idx * chunkSize64k + chunkSize64k) -
      offset)).drop (max offset (idx * chunkSize64k) - offset)).length =
      min (offset + data.length) (idx * chunkSize64k + chunkSize64k) -
        max offset (idx * chunkSize64k) := by
    simp only [List.length_drop, List.length_take]
    omega
  -- in both branches the buffer is a patched copy of the old bytes
  have hpatched : ∀ f : Nat → UInt8, (∀ k, k < n → (max offset (idx * chunkSize64k) ≤
      idx * chunkSize64k + k ∧ idx * chunkSize64k + k <
        min (offset + data.length) (idx * chunkSize64k + chunkSize64k)) ∨
        f k = c (idx * chunkSize64k + k)) →
      copyFromSlice ((List.range n).map f) (max offset (idx * chunkSize64k) - idx * chunkSize64k)
        ((data.take (min (offset + data.length) (idx * chunkSize64k + chunkSize64k) -
          offset)).drop (max offset (idx * chunkSize64k) - offset)) =
      (List.range n).map fun k => patch c offset data (idx * chunkSize64k + k) := by
    intro f hf
    rw [copyFromSlice_map_range]
    · refine List.map_congr_left fun k hk => ?_
      have hlt := List.mem_range.mp hk
      rw [← patch_window (min (offset + data.length) (idx * chunkSize64k + chunkSize64k))
        (Nat.min_le_left ..) k (by rw [hsize]; omega)]
      rcases hf k hlt with ⟨hlo, hhi⟩ | heq
      · unfold patch
        rw [if_pos (by omega), if_pos (by omega)]
        have hin : k - (max offset (idx * chunkSize64k) - idx * chunkSize64k) <
            ((data.take (min (offset + data.length) (idx * chunkSize64k + chunkSize64k) -
              offset)).drop (max offset (idx * chunkSize64k) - offset)).length := by
          rw [hslice]
          omega
        rw [List.getElem?_eq_getElem hin, Option.getD_some, Option.getD_some]
      · unfold patch
        rw [heq]
    · rw [hslice, hsize]
      omega
  split at hbuf
  next hfull =>
    cases hbuf
    have hzero := hpatched (fun _ => 0) fun k hk => Or.inl (by rw [hsize] at hfull ⊢; omega)
    have hstart : max offset (idx * chunkSize64k) - idx * chunkSize64k = 0 := hfull.1
    rw [hstart] at hzero
    rw [← hzero]
    congr 1
    simp
  next hpart =>
    split at hbuf
    next hlt =>
      rw [h (chunkValidLen_le ..)] at hbuf
      cases hbuf
      have hold : (if ((List.range (chunkValidLen i.size idx)).map fun k =>
            c (idx * chunkSize64k + k)).length < n
          then resize ((List.range (chunkValidLen i.size idx)).map fun k =>
            c (idx * chunkSize64k + k)) n
          else (List.range (chunkValidLen i.size idx)).map fun k => c (idx * chunkSize64k + k)) =
          (List.range n).map fun k => c (idx * chunkSize64k + k) := by
        rw [List.length_map, List.length_range]
        split
        next hshort =>
          rw [resize_eq_map]
          refine List.map_congr_left fun k hk => ?_
          rw [getD_map_range]
          split
          next => rfl
          next hout =>
            -- behind the old end
            refine (hend _ ?_).symm
            unfold chunkValidLen at hout hshort
            rw [hsize] at *
            omega
        next hlong =>
          have heq : chunkValidLen i.size idx = n := by
            unfold chunkValidLen at *
            rw [hsize] at *
            omega
          rw [heq]
      rw [hold]
      exact hpatched _ fun k _ => Or.inr rfl
    next hge =>
      cases hbuf
      have hold : (if ([] : List UInt8).length < n then resize [] n else []) =
          (List.range n).map fun k => c (idx * chunkSize64k + k) := by
        have hzero : resize [] n = (List.range n).map fun k => c (idx * chunkSize64k + k) := by
          rw [resize_eq_map]
          exact List.map_congr_left fun k _ => (hend _ (by omega)).symm
        split
        next => exact hzero
        next hn0 =>
          have hn1 : n = 0 := by simpa using hn0
          rw [hn1]
          rfl
      rw [hold]
      exact hpatched _ fun k _ => Or.inr rfl

theorem entries_congr_slots {i' : Inode} {P : Nat → Volume → ChunkEntry → Prop} (h : Entries v i P)
    (hslots : ∀ s, i'.slot s = i.slot s) : Entries v i' P := by
  intro idx
  have hresolve : v.resolveLogicalChunkEntry i' idx = v.resolveLogicalChunkEntry i idx := by
    unfold Volume.resolveLogicalChunkEntry Volume.resolveLogicalBlockId
    split <;> simp only [hslots]
  rw [hresolve]
  exact h idx

theorem Chunks.congr_slots {i' : Inode} {g : Nat → Nat → UInt8} (h : S.Chunks v i g)
    (hslots : ∀ s, i'.slot s = i.slot s) : S.Chunks v i' g :=
  entries_congr_slots (P := fun idx => S.HoldsBytes (g idx)) h hslots

theorem ChunkView.of_store {i₁ i₂ : Inode} {v₁ : Volume} {g : Nat → Nat → UInt8}
    (hjournal : v₁.superblock.hasJournalLayout = false)
    (hg : Good chunkExtent (Files.single id i₁) v₁) (hch : S.Chunks v₁ i₁ g)
    (hslots : ∀ s, i₂.slot s = i₁.slot s) (hmode : i₂.mode = .file) (hplain : i₂.encrypted = false)
    (hbytes : ∀ idx k, k < chunkSize64k → g idx k = c (idx * chunkSize64k + k))
    (hzero : ∀ j, i₂.size ≤ j → c j = 0)
    (hw : Volume.writeInodeInternal id i₂ v₁ = .ok () v') : S.ChunkView v' id i₂ c := by
  obtain ⟨rfl, hrecord⟩ := writeInodeInternal_ok hw
  refine ⟨hrecord, hmode, hplain, hjournal, (hg.setInode _).congr_slots hslots, fun idx => ?_, hzero⟩
  obtain ⟨d, hd, hbytes'⟩ := hch.congr_slots hslots idx
  exact ⟨d, hd.congr (r := (0, 0)) rfl fun _ _ => rfl,
    fun k hk => (hbytes' k hk).trans (hbytes idx k hk)⟩

theorem ChunkedFile.of_store {i₁ i₂ : Inode} {v₁ : Volume} {g : Nat → Nat → UInt8}
    (himage : ChunkImage v₁) (hjournal : v₁.superblock.hasJournalLayout = false)
    (hg : Good chunkExtent (Files.single id i₁) v₁) (hch : S.Chunks v₁ i₁ g)
    (hslots : ∀ s, i₂.slot s = i₁.slot s) (hmode : i₂.mode = .file) (hplain : i₂.encrypted = false)
    (hkind : i₂.isSeekable = true ∨
      ((∀ s, i₂.slot s = 0) ∧ i₂.compressedSize = 0 ∧ i₂.filterTypesize = 0))
    (hbytes : ∀ idx k, k < chunkSize64k → g idx k = c (idx * chunkSize64k + k))
    (hzero : ∀ j, i₂.size ≤ j → c j = 0)
    (hw : Volume.writeInodeInternal id i₂ v₁ = .ok () v') : S.ChunkedFile v' id i₂ c := by
  have h := ChunkView.of_store hjournal hg hch hslots hmode hplain hbytes hzero hw
  obtain ⟨rfl, -⟩ := writeInodeInternal_ok hw
  exact ⟨h.record, h.mode, h.plain, h.journal, himage.congr rfl, h.good, hkind, h.chunks, h.zero⟩

end Session

end Oifs
