import Oifs.JournaledCalls
import Oifs.WriteStages

namespace Oifs

/-! What a journaled store of prepared chunks leaves in the inode table. -/

theorem Volume.applyOp_superblock {op : VolumeOp} {v w : Volume} (h : v.applyOp op = .ok w) :
    w.superblock = v.superblock := by
  unfold Volume.applyOp at h
  cases op <;> dsimp only at h <;> split at h <;> cases h
  case writeBlockSlice => exact Volume.setBlock_superblock ..
  all_goals rfl

theorem Volume.applyJournalOps_superblock {ops : List VolumeOp} {v w : Volume}
    (h : Volume.applyJournalOps ops v = .ok () w) : w.superblock = v.superblock := by
  induction ops generalizing v with
  | nil =>
    cases h
    rfl
  | cons op ops ih =>
    obtain ⟨v₁, hop, h⟩ := Volume.applyJournalOps_cons.mp h
    exact (ih h).trans (Volume.applyOp_superblock hop)

theorem Volume.storePayload_superblock (v : Volume) (start n : Nat) (bytes : List UInt8) :
    (v.storePayload start n bytes).superblock = v.superblock := by
  induction n generalizing v start bytes with
  | zero => rfl
  | succ n ih =>
    unfold Volume.storePayload
    split
    next => exact (ih ..).trans (Volume.setBlock_superblock ..)
    next => exact ih ..

theorem Staging.ensureRoot_sameMeta {s : Staging} {v : Volume} {inode : Inode} {k : Nat}
    {r : Nat × Inode × Staging} (h : s.ensureRoot v inode k = .ok r) : SameMeta inode r.2.1 := by
  unfold Staging.ensureRoot at h
  split at h
  next =>
    obtain ⟨p, -, h⟩ := except_bind_ok.mp h
    cases h
    exact sameMeta_setSlot ..
  next =>
    cases h
    exact SameMeta.refl _

theorem Staging.clearLogicalChunkEntry_sameMeta {s : Staging} {v : Volume} {inode : Inode} {idx : Nat}
    {r : Inode × Staging} (h : s.clearLogicalChunkEntry v inode idx = .ok r) : SameMeta inode r.1 := by
  unfold Staging.clearLogicalChunkEntry at h
  split at h
  next =>
    cases h
    exact sameMeta_setSlot ..
  next =>
    cases h
    exact SameMeta.refl _
  next =>
    dsimp only at h
    split at h
    next =>
      cases h
      exact SameMeta.refl _
    next =>
      obtain ⟨p, -, h⟩ := except_bind_ok.mp h
      cases h
      exact SameMeta.refl _
  next =>
    dsimp only at h
    split at h
    next =>
      cases h
      exact SameMeta.refl _
    next =>
      obtain ⟨p, -, h⟩ := except_bind_ok.mp h
      split at h
      next =>
        cases h
        exact SameMeta.refl _
      next =>
        obtain ⟨q, -, h⟩ := except_bind_ok.mp h
        cases h
        exact SameMeta.refl _
  next =>
    cases h
    exact SameMeta.refl _

theorem Staging.setLogicalChunkEntry_sameMeta {s : Staging} {v : Volume} {inode : Inode} {idx : Nat}
    {entry : ChunkEntry} {r : Inode × Staging} (h : s.setLogicalChunkEntry v inode idx entry = .ok r) :
    SameMeta inode r.1 := by
  unfold Staging.setLogicalChunkEntry at h
  split at h
  next => exact Staging.clearLogicalChunkEntry_sameMeta h
  next =>
    split at h
    next =>
      cases h
      exact sameMeta_setSlot ..
    next =>
      obtain ⟨p, hroot, h⟩ := except_bind_ok.mp h
      cases h
      exact Staging.ensureRoot_sameMeta hroot
    next =>
      obtain ⟨p, hroot, h⟩ := except_bind_ok.mp h
      obtain ⟨q, -, h⟩ := except_bind_ok.mp h
      cases h
      exact Staging.ensureRoot_sameMeta hroot
    next =>
      obtain ⟨p, hroot, h⟩ := except_bind_ok.mp h
      obtain ⟨q, -, h⟩ := except_bind_ok.mp h
      obtain ⟨q', -, h⟩ := except_bind_ok.mp h
      cases h
      exact Staging.ensureRoot_sameMeta hroot
    next => cases h

namespace Journal

variable {J : Journal} {v w : Volume}

theorem stageChunk_keeps {inode : Inode} {delta : Int} {s : Staging} {p : PreparedChunkPayload}
    {r : Inode × Int × Staging} (h : stageChunk inode delta s p v = .ok r w) :
    SameMeta inode r.1 ∧ w.superblock = v.superblock := by
  unfold stageChunk at h
  simp only [DiskM.bind_ok, DiskM.get_ok, liftExcept_ok, DiskM.modify_ok, DiskM.pure_ok] at h
  obtain ⟨_, _, ⟨rfl, rfl⟩, e, _, ⟨-, rfl⟩, _, _, rfl, _, _, ⟨rfl, rfl⟩, q, _, ⟨hset, rfl⟩, hr, rfl⟩ := h
  subst hr
  exact ⟨Staging.setLogicalChunkEntry_sameMeta hset, Volume.storePayload_superblock ..⟩

theorem stageChunks_keeps {inode : Inode} {delta : Int} {s : Staging} {ps : List PreparedChunkPayload}
    {r : Inode × Int × Staging} (h : stageChunks inode delta s ps v = .ok r w) :
    SameMeta inode r.1 ∧ w.superblock = v.superblock := by
  induction ps generalizing inode delta s v with
  | nil =>
    obtain ⟨rfl, rfl⟩ := DiskM.pure_ok.mp h
    exact ⟨SameMeta.refl _, rfl⟩
  | cons p ps ih =>
    obtain ⟨q, v₁, hchunk, h⟩ := DiskM.bind_ok.mp h
    obtain ⟨hmeta, hsuper⟩ := stageChunk_keeps hchunk
    obtain ⟨hmeta', hsuper'⟩ := ih h
    exact ⟨hmeta.trans hmeta', hsuper'.trans hsuper⟩

theorem finish_record {s : Staging} {id : Nat} {inode : Inode} {image : InodeBytes}
    (hid : id < v.superblock.usableInodeCount)
    (h : J.finish s [.writeInode id inode image] v = .ok () w) :
    w.superblock = v.superblock ∧ w.readInodeInternal id = .ok inode := by
  unfold finish commitAndApply at h
  simp only [DiskM.bind_ok, DiskM.modify_ok] at h
  obtain ⟨_, v₂, ⟨_, v₁, hlog, happly⟩, rfl⟩ := h
  have hsuper := (commitJournalTx_ok hlog).tables.superblock
  obtain ⟨v₃, hops, hwrite⟩ := Volume.applyJournalOps_append.mp happly
  have hsuper' := (Volume.applyJournalOps_superblock hops).trans hsuper
  rw [apply_writeInode hwrite]
  refine ⟨hsuper', ?_⟩
  unfold Volume.readInodeInternal
  dsimp only
  rw [hsuper', if_neg (Nat.not_le.mpr hid), Function.update_self]

/-- A journaled store of prepared chunks leaves a seekable record behind. -/
theorem commitChunksJournaled_record {S : Session} {now id newSize : Nat} {nonce : Nonce}
    {ps : List PreparedChunkPayload}
    (h : J.commitChunksJournaled S now nonce id newSize ps v = .ok () w) :
    ∃ i, w.readInodeInternal id = .ok i ∧ i.isSeekable = true := by
  unfold commitChunksJournaled at h
  simp only [DiskM.bind_ok, DiskM.get_ok, liftExcept_ok] at h
  obtain ⟨_, _, ⟨rfl, rfl⟩, old, _, ⟨hold, rfl⟩, s, _, ⟨-, rfl⟩, r, v₁, hstage, _, _, ⟨rfl, rfl⟩,
    image, _, ⟨-, rfl⟩, _, v₂, hfinish, hcheck⟩ := h
  obtain ⟨hmeta, hsuper⟩ := stageChunks_keeps hstage
  have hid : id < v₁.superblock.usableInodeCount := by
    rw [hsuper]
    by_contra hge
    rw [Volume.readInodeInternal, if_pos (Nat.not_lt.mp hge)] at hold
    cases hold
  obtain ⟨hsuper', hrecord⟩ := finish_record hid hfinish
  have htables := (maybeCheckpoint_ok hcheck).tables
  have hread : w.readInodeInternal id = v₂.readInodeInternal id := by
    rw [Volume.readInodeInternal, htables.superblock, htables.inode, Volume.readInodeInternal]
  have hflags : r.1.flags = (S.markSeekable ⟨now, nonce, fun _ _ => nonce⟩ old).flags := by rw [hmeta]
  exact ⟨_, hread.trans hrecord,
    (Session.isSeekable_of_flags hflags).trans (Session.markSeekable_isSeekable _ old)⟩

end Journal

end Oifs
