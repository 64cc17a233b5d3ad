import Oifs.ChunkedFile

namespace Oifs

open PointerForest

namespace Session

variable {S : Session} {v v' : Volume} {id : Nat} {i : Inode} {c : Nat → UInt8}

def writtenChunk (c : Nat → UInt8) (size offset : Nat) (data : List UInt8) (idx : Nat) :
    List UInt8 :=
  (List.range (chunkValidLen (max size (offset + data.length)) idx)).map
    fun k => patch c offset data (idx * chunkSize64k + k)

theorem writtenChunk_length (c : Nat → UInt8) (size offset : Nat) (data : List UInt8) (idx : Nat) :
    (writtenChunk c size offset data idx).length =
      chunkValidLen (max size (offset + data.length)) idx := by
  rw [writtenChunk, List.length_map, List.length_range]

variable {data : List UInt8} {ps : List PreparedChunkPayload}

theorem planned_written {A : Ambient} {offset : Nat} {level : Int}
    {xs : List Nat} {chunks : List (Nat × List UInt8 × Nat)}
    (h : S.ReadsAs v id i c) (hend : ∀ j, i.size ≤ j → c j = 0) (hdata : data ≠ [])
    (hxs : ∀ idx ∈ xs, idx ∈ touchedChunks offset data.length)
    (hplan : List.Forall₂ (fun idx y => (do
      let buf ← S.chunkBuffer v id i offset data idx
      return (idx, buf, chunkValidLen (max i.size (offset + data.length)) idx) :
        Except DiskError (Nat × List UInt8 × Nat)) = .ok y) xs chunks)
    (hprep : List.Forall₂ (fun c p => S.prepareChunkPayload c.2.1 c.2.2 level A.draw
      ⟨id, c.1, v.superblock.encryptionVersion⟩ = .ok p) chunks ps) :
    List.Forall₂ (fun idx p => S.prepareChunkPayload (writtenChunk c i.size offset data idx)
      (writtenChunk c i.size offset data idx).length level A.draw
      ⟨id, idx, v.superblock.encryptionVersion⟩ = .ok p) xs ps := by
  induction hplan generalizing ps with
  | nil =>
    cases hprep
    exact .nil
  | @cons idx _ _ _ hone hplan ih =>
    cases hprep with
    | cons hp hprep =>
      refine .cons ?_ (ih (fun idx hidx => hxs idx (List.mem_cons_of_mem _ hidx)) hprep)
      simp only [except_bind_ok, except_pure_ok] at hone
      obtain ⟨buf, hbuf, rfl⟩ := hone
      have hbytes := chunkBuffer_ok h hend (hxs _ List.mem_cons_self) hdata hbuf
      rw [hbytes] at hp
      rw [writtenChunk_length]
      exact hp

theorem writtenChunk_bounds (size : Nat) {offset idx : Nat} (hdata : data ≠ [])
    (hidx : idx ∈ touchedChunks offset data.length) :
    writtenChunk c size offset data idx ≠ [] ∧
      (writtenChunk c size offset data idx).length ≤ chunkSize64k := by
  have hlen := List.length_pos_iff.mpr hdata
  have hmem := List.mem_range'_1.mp hidx
  have hsize : chunkSize64k = 65536 := rfl
  rw [← List.length_pos_iff, writtenChunk, List.length_map, List.length_range, chunkValidLen, hsize]
  rw [hsize] at hmem
  omega

theorem writtenChunk_getD {size offset idx k : Nat}
    (hend : ∀ j, size ≤ j → c j = 0) (hk : k < chunkSize64k) :
    (writtenChunk c size offset data idx).getD k 0 = patch c offset data (idx * chunkSize64k + k) := by
  have hsize : chunkSize64k = 65536 := rfl
  rw [writtenChunk, getD_map_range]
  split
  next => rfl
  next hout =>
    unfold chunkValidLen at hout
    rw [hsize] at hk hout ⊢
    rw [patch_out (Or.inr (by omega)), hend _ (by omega)]

theorem patch_untouched {offset idx k : Nat} (hdata : data ≠ [])
    (hidx : idx ∉ touchedChunks offset data.length) (hk : k < chunkSize64k) :
    patch c offset data (idx * chunkSize64k + k) = c (idx * chunkSize64k + k) := by
  have hlen := List.length_pos_iff.mpr hdata
  have hsize : chunkSize64k = 65536 := rfl
  apply patch_out
  by_contra hin
  refine hidx (List.mem_range'_1.mpr ?_)
  rw [hsize] at hk hin ⊢
  omega

theorem markSeekable_plain (A : Ambient) (i : Inode) (hkey : S.encryptionKey = none) :
    S.markSeekable A i = if i.isSeekable then i else { i with flags := i.flags + 1 } := by
  unfold markSeekable
  simp [hkey]

theorem commitPreparedChunkedWrite_ok {A : Ambient} {newSize : Nat}
    (hjournal : v.superblock.hasJournalLayout = false) (hi : v.readInodeInternal id = .ok i)
    (h : S.commitPreparedChunkedWrite A id newSize ps v = .ok () v') :
    ∃ i₁ delta v₁ total, commitChunks (S.markSeekable A i) 0 ps v = .ok (i₁, delta) v₁ ∧
      Volume.writeInodeInternal id
        { i₁ with size := newSize, compressedSize := total, modifiedAt := A.now } v₁ = .ok () v' := by
  unfold commitPreparedChunkedWrite at h
  rw [DiskM.get_bind] at h
  rw [hjournal] at h
  simp only [Bool.false_eq_true, if_false, DiskM.bind_ok, DiskM.get_ok, liftExcept_ok] at h
  obtain ⟨old, _, ⟨hold, rfl⟩, ⟨i₁, delta⟩, v₁, hcommit, _, _, ⟨rfl, rfl⟩, hwrite⟩ := h
  rw [hi] at hold
  cases hold
  exact ⟨i₁, delta, _, _, hcommit, hwrite⟩

/-- The runs of blocks that a seekable call is given end inside the image. -/
def FitsImage (S : Session) (A : Ambient) (v : Volume) (id : Nat) (call : WriteCall) : Prop :=
  ∀ i plan ps, v.readInodeInternal id = .ok i →
    S.planChunkedWrite v id call.offset call.data = .ok plan →
    S.prepareChunks v.superblock.encryptionVersion id call.mode.chunkLevel A plan.chunks = .ok ps →
    (∀ p ∈ ps, p.Sized) → RunsInside ps (S.markSeekable A i) 0 v

theorem ChunkImage.fits (h : ChunkImage v) (S : Session) (A : Ambient) (id : Nat) (call : WriteCall) :
    S.FitsImage A v id call :=
  fun _ _ _ _ _ _ hps => h.runsInside (fun p hp => (hps p hp).blocks_pos) _ _

theorem write_commits {A : Ambient} {call : WriteCall} (hrecord : v.readInodeInternal id = .ok i)
    (hjournal : v.superblock.hasJournalLayout = false) (h : S.ReadsAs v id i c)
    (hend : ∀ j, i.size ≤ j → c j = 0) (hne : call.data ≠ [])
    (hseek : isSeekableWrite v id call.mode = .ok true)
    (hw : S.write id A call v = .ok () v') :
    ∃ ps i₁ delta v₁ total, List.Forall₂ (fun idx p => S.prepareChunkPayload
        (writtenChunk c i.size call.offset call.data idx)
        (writtenChunk c i.size call.offset call.data idx).length call.mode.chunkLevel A.draw
        ⟨id, idx, v.superblock.encryptionVersion⟩ = .ok p)
        (touchedChunks call.offset call.data.length) ps ∧
      (S.FitsImage A v id call → (∀ p ∈ ps, p.Sized) → RunsInside ps (S.markSeekable A i) 0 v) ∧
      commitChunks (S.markSeekable A i) 0 ps v = .ok (i₁, delta) v₁ ∧
      Volume.writeInodeInternal id { i₁ with
        size := max i.size (call.offset + call.data.length)
        compressedSize := total, modifiedAt := A.now } v₁ = .ok () v' := by
  obtain ⟨plan, ps, hplan, hprep, hcommit⟩ : ∃ plan prepared,
      S.planChunkedWrite v id call.offset call.data = .ok plan ∧
      S.prepareChunks v.superblock.encryptionVersion id call.mode.chunkLevel A plan.chunks =
        .ok prepared ∧
      S.commitChunkedWrite A id call.offset call.data call.mode.chunkLevel plan.initialInode
        prepared v = .ok () v' := by
    rcases write_ok.mp hw with ⟨-, hpipe⟩ | ⟨hfalse, -⟩
    · rcases writeChunked64kPipeline_ok.mp hpipe with ⟨hempty, -⟩ | ⟨-, hpipe⟩
      · exact absurd (List.isEmpty_iff.mp hempty) hne
      · exact hpipe
    · rw [hseek] at hfalse
      cases hfalse
  obtain ⟨hi, -, hchunks⟩ := planChunkedWrite_ok.mp hplan
  rw [hrecord] at hi
  obtain rfl : i = plan.initialInode := Except.ok.inj hi
  obtain ⟨i₂, hi₂, -, hstore⟩ := commitChunkedWrite_ok.mp hcommit
  rw [hrecord] at hi₂
  cases hi₂
  rw [canUsePreparedChunks_self, if_pos rfl] at hstore
  obtain ⟨i₁, delta, v₁, total, hcommits, hwrite⟩ :=
    commitPreparedChunkedWrite_ok hjournal hrecord hstore
  exact ⟨ps, i₁, delta, v₁, total, planned_written h hend hne (fun _ hidx => hidx)
    (mapM_ok.mp hchunks) (mapM_ok.mp hprep), fun hfits => hfits _ plan ps hrecord hplan hprep,
    hcommits, hwrite⟩

/-- A call on one file keeps the other records and the marked blocks that are not the file's. -/
structure SparesOthers (id : Nat) (i : Inode) (v v' : Volume) : Prop where
  superblock : v'.superblock = v.superblock
  mapBlocks : v'.mapBlocks = v.mapBlocks
  inodeBit : v'.inodeBit = v.inodeBit
  inode : ∀ j, j ≠ id → v'.inode j = v.inode j
  rest : ∀ b, v.marked b = true → b ∉ owned treeShape chunkExtent (v.cells (Files.single id i)) →
    v'.marked b = true ∧ v'.block b = v.block b

theorem SparesOthers.of_store {i₀ i₁ i₂ : Inode} {v₁ : Volume} (htables : v.SameTables v₁)
    (h : SparesRest (Files.single id i₀) v (Files.single id i₁) v₁) (hslots : ∀ s, i₀.slot s = i.slot s)
    (hw : Volume.writeInodeInternal id i₂ v₁ = .ok () v') : SparesOthers id i v v' := by
  obtain ⟨rfl, -⟩ := writeInodeInternal_ok hw
  refine ⟨htables.superblock, htables.mapBlocks, htables.inodeBit, fun j hj => ?_, fun b hmark hb => ?_⟩
  · exact (Function.update_of_ne hj _ _).trans (congrFun htables.inode j)
  · obtain ⟨hmark', hblock', -⟩ := h b hmark fun hin => hb (by rwa [cells_congr_slots hslots] at hin)
    exact ⟨hmark', hblock'⟩

theorem forall_sized {R : Nat → PreparedChunkPayload → Prop} {idxs : List Nat}
    (h : List.Forall₂ (fun idx p => p.chunkIdx = idx ∧ p.Sized ∧ R idx p) idxs ps) :
    ∀ p ∈ ps, p.Sized := by
  induction h with
  | nil => exact fun p hp => absurd hp List.not_mem_nil
  | cons hone _ ih => exact List.forall_mem_cons.mpr ⟨hone.2.1, ih⟩

theorem ChunkView.write {A : Ambient} {call : WriteCall} (hC : S.codec.Lawful)
    (hkey : S.encryptionKey = none) (h : S.ChunkView v id i c) (hne : call.data ≠ [])
    (hseek : isSeekableWrite v id call.mode = .ok true) (hfits : S.FitsImage A v id call)
    (hw : S.write id A call v = .ok () v') : SparesOthers id i v v' ∧
      ∃ i', i'.size = max i.size (call.offset + call.data.length) ∧ i'.isSeekable = true ∧
        S.ChunkView v' id i' (patch c call.offset call.data) := by
  obtain ⟨ps, i₁, delta, v₁, total, hprepared, hinside, hcommits, hwrite⟩ :=
    write_commits h.record h.journal (h.reads hC) h.zero hne hseek hw
  have hmark := S.markSeekable_plain A i hkey
  have hslots := markSeekable_slot S A i
  have hps : List.Forall₂ (fun idx p => p.chunkIdx = idx ∧ p.Sized ∧
      ∀ w e, w.superblock = v.superblock → Placed w e p →
        S.HoldsBytes (fun k => patch c call.offset call.data (idx * chunkSize64k + k)) w e)
      (touchedChunks call.offset call.data.length) ps := by
    refine (List.forall₂_and_left _ _).mpr ⟨fun _ hidx => hidx, hprepared⟩ |>.imp ?_
    rintro idx p ⟨hidx, hp⟩
    obtain ⟨hfull, hlen⟩ := writtenChunk_bounds (c := c) i.size hne hidx
    have hprep := prepareChunkPayload_ok hkey hp
    rw [List.take_length] at hprep
    exact ⟨hprep.chunkIdx, hprep.sized hC hfull hlen, fun w e _ hplaced =>
      ⟨_, hprep.holds hlen hplaced, fun k hk => writtenChunk_getD h.zero hk⟩⟩
  obtain ⟨htables, hg₁, hch₁, hspares⟩ := commitChunks_entries
    (P := fun idx => S.HoldsBytes fun k => c (idx * chunkSize64k + k)) rfl
    (hinside hfits (forall_sized hps)) hps (h.good.congr_slots hslots) (fun _ => holdsBytes_local _)
    (fun _ => holdsBytes_local _) (h.chunks.congr_slots hslots) hcommits
  have hmeta : i₁ = _ := commitChunks_sameMeta hcommits
  refine ⟨.of_store htables hspares hslots hwrite, { i₁ with
    size := max i.size (call.offset + call.data.length)
    compressedSize := total, modifiedAt := A.now }, rfl, ?_, ?_⟩
  · rw [hmeta]
    exact (isSeekable_of_flags rfl).trans (markSeekable_isSeekable A i)
  refine .of_store (g := fun idx k => patch c call.offset call.data (idx * chunkSize64k + k))
    (by rw [htables.superblock, h.journal]) hg₁ (fun idx => ?_) (fun _ => rfl) ?_ ?_
    (fun _ _ _ => rfl) ?_ hwrite
  · have hone := hch₁ idx
    by_cases hidx : idx ∈ touchedChunks call.offset call.data.length
    · simp only [hidx, if_true] at hone
      exact hone
    · simp only [hidx, if_false] at hone
      obtain ⟨d, hd, hbytes⟩ := hone
      exact ⟨d, hd, fun k hk => (hbytes k hk).trans (patch_untouched hne hidx hk).symm⟩
  · rw [hmeta, hmark]
    split <;> exact h.mode
  · rw [hmeta, hmark]
    split <;> exact h.plain
  · intro j hj
    have hend : max i.size (call.offset + call.data.length) ≤ j := hj
    rw [patch_out (Or.inr (by omega)), h.zero j (by omega)]

end Session

end Oifs
