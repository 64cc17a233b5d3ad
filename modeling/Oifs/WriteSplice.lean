import Oifs.SealedFile

namespace Oifs

open PointerForest

namespace Session

variable {S : Session} {v v' : Volume} {id : Nat} {i : Inode} {content data : List UInt8} {offset : Nat}

theorem isEmpty_of_lt {p : Nat} (h : p < 2 ^ 40) : ChunkEntry.isEmpty p = true := by
  rw [ChunkEntry.isEmpty, ChunkEntry.flags, Nat.div_eq_of_lt h]
  simp [ChunkEntry.flagEmpty]

theorem leaf_isEmpty (hg : Good rawExtent (Files.single id i) v)
    (hcount : v.superblock.blockCount ≤ 2 ^ 40) {l : Place (Nat × Nat)} (hl : treeShape.Valid l) :
    ChunkEntry.isEmpty ((v.cells (Files.single id i)).get l) = true := by
  refine isEmpty_of_lt ?_
  by_cases hzero : (v.cells (Files.single id i)).get l = 0
  · rw [hzero]
    decide
  · have hdata := (Volume.isDataBlock_iff.mp (hg.data _ ⟨l, hl, mem_owns_raw hzero⟩)).2.2
    omega

theorem good_chunks_of_raw (hg : Good rawExtent (Files.single id i) v)
    (hcount : v.superblock.blockCount ≤ 2 ^ 40) : Good chunkExtent (Files.single id i) v := by
  have hsub : ∀ l, treeShape.Valid l → ∀ b,
      b ∈ owns treeShape chunkExtent (v.cells (Files.single id i)) l →
        b ∈ owns treeShape rawExtent (v.cells (Files.single id i)) l := by
    intro l hl b hb
    by_cases hin : l.path.length < treeShape.depth l.root
    · exact (mem_claims_inner hin).mpr ((mem_claims_inner hin).mp hb)
    · have hchunk := ((mem_claims_leaf hin).mp hb).1
      rw [leaf_isEmpty hg hcount hl] at hchunk
      cases hchunk
  refine ⟨hg.sound, fun l l' hl hl' b hb hb' => ?_, ?_, ?_⟩
  · exact hg.separated l l' hl hl' b (hsub l hl b hb) (hsub l' hl' b hb')
  · rintro b ⟨l, hl, hb⟩
    exact hg.marked b ⟨l, hl, hsub l hl b hb⟩
  · rintro b ⟨l, hl, hb⟩
    exact hg.data b ⟨l, hl, hsub l hl b hb⟩

/-- The block ids of a whole file, taken for the entries of chunks, are empty entries. -/
theorem blank_of_raw (hg : Good rawExtent (Files.single id i) v)
    (hcount : v.superblock.blockCount ≤ 2 ^ 40) : Blank v i := by
  intro idx
  cases hl : leafPlace id idx with
  | none =>
    rw [resolveLogicalChunkEntry_none v hl]
    rfl
  | some l =>
    rw [resolveLogicalChunkEntry_single v hl]
    exact leaf_isEmpty hg hcount (leafPlace_valid hl).1

theorem StoredFile.plain_of_key {content : List UInt8} (h : S.StoredFile v id i content)
    (hkey : S.encryptionKey = none) : i.encrypted = false := by
  obtain ⟨plain, henc, -⟩ := h.encodes.layers
  unfold Encrypts at henc
  split at henc
  next =>
    obtain ⟨key, hsome, -⟩ := henc
    rw [hkey] at hsome
    cases hsome
  next hfalse => simpa using hfalse

/-- What a seekable call on a whole file needs: the runs that it is given end in the image, block ids
do not look like entries, and under a key ciphertexts have their tag. -/
structure SeekableReady (S : Session) (A : Ambient) (v : Volume) (id : Nat) (call : WriteCall) : Prop where
  fits : S.FitsImage A v id call
  narrow : v.superblock.blockCount ≤ 2 ^ 40
  tagged : S.encryptionKey.isSome = true → S.codec.Tagged

/-- A seekable call on a whole file drops its content: what was not written reads as zeros. -/
theorem StoredFile.read_seekable {A : Ambient} {call : WriteCall} (hC : S.codec.Lawful)
    (h : S.StoredFile v id i content) (hj : v.superblock.hasJournalLayout = false)
    (hready : S.SeekableReady A v id call) (hmode : call.mode.isSeekable = true) (hne : call.data ≠ [])
    (hw : S.write id A call v = .ok () v') :
    S.readData v' id = .ok ((List.range (max i.size (call.offset + call.data.length))).map
      (patch (fun _ => 0) call.offset call.data)) := by
  have hseek : isSeekableWrite v id call.mode = .ok true := by
    unfold isSeekableWrite
    rw [h.record]
    exact congrArg Except.ok (by simp [hmode])
  have hgood := good_chunks_of_raw h.good hready.narrow
  have hblank := blank_of_raw h.good hready.narrow
  cases hkey : S.encryptionKey with
  | none =>
    have hview : S.ChunkView v id i fun _ => 0 :=
      ⟨h.record, h.mode, h.plain_of_key hkey, hj, hgood,
        fun idx => ⟨[], .empty (hblank idx), fun _ _ => rfl⟩, fun _ _ => rfl⟩
    obtain ⟨-, i', hsize, hseek', h'⟩ := hview.write hC hkey hne hseek hready.fits hw
    rw [readData_parts h'.record hseek' (h'.parts hC), hsize]
  | some key =>
    have htag : S.codec.Tagged := hready.tagged (by rw [hkey]; rfl)
    obtain ⟨-, i', hsize, h'⟩ := write_sealed htag hkey h.record h.mode hj hgood hblank hne hseek
      hready.fits hw
    rw [h'.read hC htag hkey, hsize]

/-- Zeros and the bytes written are the splice exactly if it is as long and the content holds
nothing else outside of what is written. -/
theorem zeros_eq_splice_iff (content data : List UInt8) (offset size : Nat) :
    (List.range (max size (offset + data.length))).map (patch (fun _ => 0) offset data) =
        splice content offset data ↔
      max size (offset + data.length) = max content.length (offset + data.length) ∧
        ∀ j, j < content.length → j < offset ∨ offset + data.length ≤ j → content.getD j 0 = 0 := by
  have hself : content = (List.range content.length).map fun j => content.getD j 0 := by
    rw [← resize_eq_map, resize_length_self]
  have hsplice := splice_map_range (fun j => content.getD j 0) content.length offset data
  rw [← hself] at hsplice
  rw [hsplice]
  constructor
  · intro h
    have hlen : max size (offset + data.length) = max content.length (offset + data.length) := by
      simpa using congrArg List.length h
    rw [hlen, List.map_inj_left] at h
    refine ⟨hlen, fun j hj hout => ?_⟩
    have hbyte := h j (List.mem_range.mpr (by omega))
    rw [patch_out hout, patch_out hout, if_pos hj] at hbyte
    exact hbyte.symm
  · rintro ⟨hlen, h⟩
    rw [hlen, List.map_inj_left]
    intro j _
    by_cases hout : j < offset ∨ offset + data.length ≤ j
    · rw [patch_out hout, patch_out hout]
      split
      next hj => exact (h j hj hout).symm
      next => rfl
    · obtain ⟨k, rfl⟩ := Nat.exists_eq_add_of_le (show offset ≤ j by omega)
      rw [patch_in (by omega), patch_in (by omega)]

theorem splice_nil_eq_iff (content : List UInt8) (offset : Nat) :
    content = splice content offset [] ↔ offset ≤ content.length := by
  constructor
  · intro h
    have hlen := congrArg List.length h
    simp only [splice, List.length_append, resize_length, List.length_drop, List.length_nil] at hlen
    omega
  · intro h
    rw [splice, resize_of_le h]
    simp

/-- What makes a call at a non-zero offset a splice. In seekable mode the old content is dropped up to
the recorded size, and nothing happens without data; in the other modes the payload is rebuilt or has
no bytes behind the end. -/
def Splices (S : Session) (v : Volume) (i : Inode) (content : List UInt8) (call : WriteCall) : Prop :=
  if call.mode.isSeekable then
    if call.data = [] then call.offset ≤ content.length
    else max i.size (call.offset + call.data.length) =
        max content.length (call.offset + call.data.length) ∧
      ∀ j, j < content.length → j < call.offset ∨ call.offset + call.data.length ≤ j →
        content.getD j 0 = 0
  else S.payloadIsTransformed i call.config = true ∨
    ∀ j, i.size ≤ j → j < call.offset → v.payload i j = 0

/-- A call at a non-zero offset splices its bytes into a whole file exactly under `Splices`. -/
theorem read_after_write {A : Ambient} {call : WriteCall} (hC : S.codec.Lawful)
    (hs : S.StoredFile v id i content) (hpos : 0 < call.offset)
    (hjournal : v.superblock.hasJournalLayout = false)
    (hready : call.mode.isSeekable = true → S.SeekableReady A v id call)
    (h : S.writeDataWithFilters A id call.offset call.data call.mode call.config v = .ok () v') :
    S.readData v' id = .ok (splice content call.offset call.data) ↔ S.Splices v i content call := by
  unfold Splices
  cases hmode : call.mode.isSeekable with
  | false =>
    rw [if_neg Bool.false_ne_true, ← contentAfter_eq_iff hs]
    obtain ⟨i', hs'⟩ := write_stored hC hs hpos hmode hjournal h
    rw [hs'.read hC]
    exact ⟨Except.ok.inj, congrArg Except.ok⟩
  | true =>
    rw [if_pos rfl]
    by_cases hdata : call.data = []
    · have hseek : isSeekableWrite v id call.mode = .ok true := by
        unfold isSeekableWrite
        rw [hs.record]
        exact congrArg Except.ok (by simp [hmode])
      obtain rfl := write_nil hseek hdata h
      rw [if_pos hdata, hs.read hC, hdata, Except.ok.injEq, splice_nil_eq_iff]
    · rw [if_neg hdata, hs.read_seekable hC hjournal (hready hmode) hmode hdata h, Except.ok.injEq]
      exact zeros_eq_splice_iff content call.data call.offset i.size

theorem newFiles_stored : (clearSession none).StoredFile newFiles 0 (Inode.new .file) [] := by
  refine ⟨rfl, rfl, rfl, ?_, ⟨[], rfl, rfl⟩, rfl, fun h => absurd h (by decide)⟩
  refine good_empty rawExtent_zero ⟨by decide, by decide, by decide⟩ fun s => ?_
  unfold Inode.slot
  split
  next => rfl
  next =>
    split
    next => rfl
    next => rfl

theorem newFiles_runInside : newFiles.RunInside 1 := by
  intro n w halloc
  have hrun : (Volume.allocateContiguousBlocksInternal 1).run' newFiles = some 5 := by decide +kernel
  unfold EStateM.run' EStateM.run at hrun
  rw [show Volume.allocateContiguousBlocksInternal 1 newFiles = .ok n w from halloc] at hrun
  obtain rfl := Option.some.inj hrun
  decide

theorem newFiles_fits {id : Nat} {call : WriteCall}
    (hneeded : ((clearSession none).planChunkedWrite newFiles id call.offset call.data).toOption.bind
      (fun plan => ((clearSession none).prepareChunks 0 id call.mode.chunkLevel epoch
        plan.chunks).toOption.map (·.map (·.blocksNeeded))) = some [1]) :
    (clearSession none).FitsImage epoch newFiles id call := by
  intro i plan ps hi hplan hprep _
  rw [hplan] at hneeded
  change ((clearSession none).prepareChunks 0 _ _ epoch plan.chunks).toOption.map _ = _ at hneeded
  rw [show (clearSession none).prepareChunks 0 _ _ epoch plan.chunks = .ok ps from hprep] at hneeded
  obtain ⟨p, rfl, hp⟩ := List.map_eq_singleton_iff.mp (Option.some.inj hneeded)
  exact ⟨hp ▸ newFiles_runInside, fun _ _ _ _ => trivial⟩

theorem newFiles_ready :
    (clearSession none).SeekableReady epoch newFiles 0 ⟨2, [7], .seekable 65536 1, .none⟩ :=
  ⟨newFiles_fits (by decide +kernel), by decide, fun h => absurd h (by decide)⟩

theorem read_after_write_new : ∃ v',
    (clearSession none).writeDataWithFilters epoch 0 2 [7] (.seekable 65536 1) .none newFiles =
      .ok () v' ∧ (clearSession none).readData v' 0 = .ok [0, 0, 7] := by
  obtain ⟨v', hwrite, -⟩ := readsAfter_some (by decide +kernel :
    (clearSession none).readsAfter ((clearSession none).writeDataWithFilters epoch 0 2 [7]
      (.seekable 65536 1) .none) newFiles 0 = some [0, 0, 7])
  let call : WriteCall := ⟨2, [7], .seekable 65536 1, .none⟩
  have hwrite' : (clearSession none).write 0 epoch call newFiles = .ok () v' := hwrite
  exact ⟨v', hwrite, (read_after_write Codec.clearCodec_lawful newFiles_stored (by decide) rfl
    (fun _ => newFiles_ready) hwrite').mpr ⟨rfl, fun j hj => absurd hj (Nat.not_lt_zero j)⟩⟩

/-- A store behind the end of a plain file uncovers the bytes in between; a seekable call on a whole
file drops its content or its gap. -/
theorem write_not_splice :
    (clearSession none).readData tailVolume 0 = .ok [1] ∧ splice [1] 2 [7] = [1, 0, 7] ∧
    splice [1] 2 [] = [1, 0] ∧
    (∃ v', (clearSession none).writeDataWithFilters epoch 0 2 [7] .never .none tailVolume =
      .ok () v' ∧ (clearSession none).readData v' 0 = .ok [1, 1, 7]) ∧
    (∃ v', (clearSession none).writeDataWithFilters epoch 0 2 [7] (.seekable 65536 1) .none
      tailVolume = .ok () v' ∧ (clearSession none).readData v' 0 = .ok [0, 0, 7]) ∧
    ∃ v', (clearSession none).writeDataWithFilters epoch 0 2 [] (.seekable 65536 1) .none
      tailVolume = .ok () v' ∧ (clearSession none).readData v' 0 = .ok [1] := by
  refine ⟨tailVolume_stored.read Codec.clearCodec_lawful, by decide, by decide, ?_, ?_, ?_⟩
  · exact readsAfter_some (by decide +kernel)
  · exact readsAfter_some (by decide +kernel)
  · exact readsAfter_some (by decide +kernel)

end Session

end Oifs
