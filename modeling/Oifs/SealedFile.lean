import Oifs.EncryptedChunk

namespace Oifs

open PointerForest

/-- A ciphertext is as long as its message and a tag of 16 bytes. -/
def Codec.Tagged (C : Codec) : Prop :=
  ∀ {plain key nonce aad c}, C.encryptData plain key nonce aad = .ok c → c.length = plain.length + 16

namespace Session

variable {S : Session} {v v' : Volume} {id : Nat} {i : Inode} {c : Nat → UInt8} {key : EncryptionKey}

/-- No chunk of the file has an entry. -/
def Blank (v : Volume) (i : Inode) : Prop := Entries v i fun _ _ e => e.isEmpty = true

theorem Blank.reads (h : Blank v i) : S.ReadsAs v id i fun _ => 0 := by
  intro idx n _
  unfold readSingleChunkDecompressed
  dsimp only
  rw [if_pos (h idx)]
  exact congrArg Except.ok (by simp)

/-- The entry is empty and stands for zeros, or it was made for the ciphertext of its part of `c`. -/
def SealedChunk (S : Session) (id size : Nat) (c : Nat → UInt8) (idx : Nat) (v : Volume)
    (e : ChunkEntry) : Prop :=
  (e.isEmpty = true ∧ ∀ k, k < chunkSize64k → c (idx * chunkSize64k + k) = 0) ∨
    ∃ p level draw, S.prepareChunkPayload (chunkPart c size idx) (chunkPart c size idx).length level
      draw ⟨id, idx, v.superblock.encryptionVersion⟩ = .ok p ∧ Placed v e p

theorem isEmpty_local : LocalTo fun _ e => ChunkEntry.isEmpty e = true :=
  fun hempty _ _ _ => hempty

theorem placed_local (p : PreparedChunkPayload) : LocalTo fun v e => Placed v e p := by
  rintro v v' e r ⟨hp, ⟨start, hstart, rfl⟩, hstored⟩ - hmap hblock
  refine ⟨hp, ⟨start, hstart, rfl⟩, hstored.congr hmap fun b hlo hhi => hblock b ⟨?_, hlo, hhi⟩⟩
  refine ChunkEntry.isEmpty_eq_false ?_
  rw [ChunkEntry.flags_new hstart hp.flag_lt]
  exact Nat.ne_of_gt hp.flag_pos

theorem sealedChunk_local (id size : Nat) (c : Nat → UInt8) (idx : Nat) :
    LocalTo (S.SealedChunk id size c idx) := by
  rintro v v' e r (hempty | ⟨p, level, draw, hp, hplaced⟩) hsb hmap hblock
  · exact .inl hempty
  · refine .inr ⟨p, level, draw, ?_, placed_local p hplaced hsb hmap hblock⟩
    rw [hsb]
    exact hp

theorem SealedChunk.read {idx : Nat} (hC : S.codec.Lawful) (htag : S.codec.Tagged)
    (hkey : S.encryptionKey = some key) (henc : i.encrypted = true)
    (h : S.SealedChunk id i.size c idx v (v.resolveLogicalChunkEntry i idx)) :
    S.readSingleChunkDecompressed v id i idx (chunkValidLen i.size idx) =
      .ok (chunkPart c i.size idx) := by
  have hlen : (chunkPart c i.size idx).length = chunkValidLen i.size idx := by
    rw [chunkPart, List.length_map, List.length_range]
  rcases h with ⟨hempty, hzero⟩ | ⟨p, level, draw, hp, -, ⟨start, hstart, hentry⟩, hstored⟩
  · have hpart : chunkPart c i.size idx = List.replicate (chunkValidLen i.size idx) 0 := by
      rw [List.eq_replicate_iff]
      refine ⟨hlen, fun b hb => ?_⟩
      obtain ⟨k, hk, rfl⟩ := List.mem_map.mp hb
      exact hzero k (Nat.lt_of_lt_of_le (List.mem_range.mp hk) (chunkValidLen_le ..))
    unfold readSingleChunkDecompressed
    dsimp only
    rw [if_pos hempty, hpart]
    rfl
  · have hle : (chunkPart c i.size idx).length ≤ chunkSize64k := hlen ▸ chunkValidLen_le ..
    obtain ⟨frame, hframe, -⟩ := except_bind_ok.mp hp
    rw [List.take_length] at hframe
    rw [hentry] at hstored
    have hread := readSingle_placed (hC.frame hframe hle) htag (fun c hc => hC.decrypt hc) hkey hle
      hframe hp hstart henc hentry hstored
    rw [← hlen]
    split at hread
    next => rw [hread, resize_length_self]
    next =>
      obtain ⟨cipher, hcipher, hclen, hread⟩ := hread
      -- the reader takes exactly the nonce, the ciphertext and the tag
      have hwhole : min ((chunkPart c i.size idx).length + 40)
          (divCeil ((chunkPart c i.size idx).length + 40) blockSize * blockSize) - 24 =
          cipher.length := by
        unfold divCeil blockSize
        omega
      rw [hread, hwhole, resize_length_self, hC.decrypt hcipher]
      exact congrArg Except.ok (resize_length_self _)

/-- A file that one seekable call has made under a key: its content is the first `size` bytes of
`c`. -/
structure SealedFile (S : Session) (v : Volume) (id : Nat) (i : Inode) (c : Nat → UInt8) : Prop where
  record : v.readInodeInternal id = .ok i
  mode : i.mode = .file
  encrypted : i.encrypted = true
  seekable : i.isSeekable = true
  good : Good chunkExtent (Files.single id i) v
  chunks : Entries v i (S.SealedChunk id i.size c)

theorem SealedFile.read (hC : S.codec.Lawful) (htag : S.codec.Tagged)
    (hkey : S.encryptionKey = some key) (h : S.SealedFile v id i c) :
    S.readData v id = .ok ((List.range i.size).map c) :=
  readData_parts h.record h.seekable fun idx => (h.chunks idx).read hC htag hkey h.encrypted

theorem prepareChunkPayload_sized {d : List UInt8} {level : Int} {draw : Nat → Nat → Nonce}
    {ctx : ChunkAadContext} {p : PreparedChunkPayload} (htag : S.codec.Tagged)
    (hkey : S.encryptionKey = some key) (hlen : d.length ≤ chunkSize64k)
    (h : S.prepareChunkPayload d d.length level draw ctx = .ok p) :
    p.chunkIdx = ctx.chunkIdx ∧ p.Sized := by
  have hsize : chunkSize64k = 65536 := rfl
  obtain ⟨frame, hframe, -⟩ := except_bind_ok.mp h
  rw [List.take_length] at hframe
  obtain ⟨hidx, hflag, hblocks, -, c, hc, hpayload⟩ :=
    prepareChunkPayload_sealed hkey htag hframe hlen h
  have hplain : (sealedForm frame d).2.length ≤ d.length := by
    unfold sealedForm
    split
    next hshort => exact Nat.le_of_lt (Nat.lt_of_le_of_lt (Nat.le_add_right ..) hshort)
    next => exact Nat.le_refl _
  have htotal : p.payload.length = 24 + ((sealedForm frame d).2.length + 16) := by
    rw [hpayload, List.length_append, nonceBytes_length, htag hc]
  refine ⟨hidx, .of_length hblocks (by omega) (by omega) ?_⟩
  rw [hflag]
  unfold sealedForm
  split
  next => exact .inr rfl
  next => exact .inl rfl

/-- A seekable call under a key on a file without chunks makes a file that holds zeros and what was
written. -/
theorem write_sealed {A : Ambient} {call : WriteCall} (htag : S.codec.Tagged)
    (hkey : S.encryptionKey = some key) (hrecord : v.readInodeInternal id = .ok i)
    (hmode : i.mode = .file) (hjournal : v.superblock.hasJournalLayout = false)
    (hgood : Good chunkExtent (Files.single id i) v) (hblank : Blank v i) (hne : call.data ≠ [])
    (hseek : isSeekableWrite v id call.mode = .ok true) (hfits : S.FitsImage A v id call)
    (hw : S.write id A call v = .ok () v') :
    SparesOthers id i v v' ∧ ∃ i', i'.size = max i.size (call.offset + call.data.length) ∧
      S.SealedFile v' id i' (patch (fun _ => 0) call.offset call.data) := by
  obtain ⟨ps, i₁, delta, v₁, total, hprepared, hinside, hcommits, hwrite⟩ :=
    write_commits hrecord hjournal hblank.reads (fun _ _ => rfl) hne hseek hw
  have hslots := markSeekable_slot S A i
  have hps : List.Forall₂ (fun idx p => p.chunkIdx = idx ∧ p.Sized ∧
      ∀ w e, w.superblock = v.superblock → Placed w e p →
        S.SealedChunk id (max i.size (call.offset + call.data.length))
          (patch (fun _ => 0) call.offset call.data) idx w e)
      (touchedChunks call.offset call.data.length) ps := by
    refine (List.forall₂_and_left _ _).mpr ⟨fun _ hidx => hidx, hprepared⟩ |>.imp ?_
    rintro idx p ⟨hidx, hp⟩
    obtain ⟨hchunk, hsized⟩ := prepareChunkPayload_sized htag hkey
      (writtenChunk_bounds _ hne hidx).2 hp
    exact ⟨hchunk, hsized, fun w e hsb hplaced => .inr ⟨p, _, _, hsb ▸ hp, hplaced⟩⟩
  obtain ⟨htables, hg₁, hch₁, hspares⟩ := commitChunks_entries
    (P := fun _ _ e => ChunkEntry.isEmpty e = true) rfl (hinside hfits (forall_sized hps)) hps
    (hgood.congr_slots hslots) (fun _ => isEmpty_local) (fun idx => sealedChunk_local _ _ _ idx)
    (entries_congr_slots hblank hslots) hcommits
  have hmeta : i₁ = _ := commitChunks_sameMeta hcommits
  obtain ⟨hv', hrecord'⟩ := writeInodeInternal_ok hwrite
  refine ⟨.of_store htables hspares hslots hwrite, _, rfl, hrecord', ?_, ?_, ?_, ?_, fun idx => ?_⟩
  · rw [hmeta]
    simp only [markSeekable]
    split <;> split <;> exact hmode
  · rw [hmeta]
    simp [markSeekable, hkey]
  · rw [hmeta]
    exact (isSeekable_of_flags rfl).trans (markSeekable_isSeekable A i)
  · rw [hv']
    exact (hg₁.setInode _).congr_slots fun _ => rfl
  · have hone := hch₁ idx
    rw [hv']
    by_cases hidx : idx ∈ touchedChunks call.offset call.data.length
    · simp only [hidx, if_true] at hone
      exact sealedChunk_local _ _ _ _ (r := (0, 0)) hone rfl rfl fun _ _ => rfl
    · simp only [hidx, if_false] at hone
      exact .inl ⟨hone, fun k hk => patch_untouched hne hidx hk⟩

end Session

end Oifs
