import Oifs.ChunkTree
import Oifs.Mountable
import Oifs.Outcome
import Oifs.Truncate
import Oifs.WriteContent

namespace Oifs

open PointerForest

/-- A metadata operation as it acts on a volume. An inode stands beside the bytes of its slot. -/
inductive VolumeOp where
  | setInodeBitmap (id : Nat) (allocated : Bool)
  | setDataBitmap (blk : Nat) (allocated : Bool)
  | setDataBitmapRange (start count : Nat) (allocated : Bool)
  | writeInode (id : Nat) (inode : Inode) (image : InodeBytes)
  | writeBlockSlice (blk offset : Nat) (data : List UInt8)

def VolumeOp.metadata : VolumeOp → MetadataOp
  | setInodeBitmap id allocated => .setInodeBitmap (.ofNat id) allocated
  | setDataBitmap blk allocated => .setDataBitmap (.ofNat blk) allocated
  | setDataBitmapRange start count allocated =>
    .setDataBitmapRange (.ofNat start) (.ofNat count) allocated
  | writeInode id _ image => .writeInode (.ofNat id) image
  | writeBlockSlice blk offset data => .writeBlockSlice (.ofNat blk) (.ofNat offset) data

namespace Volume

/-- A bitmap of `blocks` blocks from `start` on has a bit `bit`, inside the mapping. -/
def HasBit (v : Volume) (start blocks bit : Nat) : Prop :=
  start + blocks ≤ v.mapBlocks ∧ bit / 8 < blocks * blockSize

instance (v : Volume) (start blocks bit : Nat) : Decidable (v.HasBit start blocks bit) :=
  inferInstanceAs (Decidable (_ ∧ _))

/-- `apply_op_in_place`. -/
def applyOp (v : Volume) : VolumeOp → Except JournalError Volume
  | .setInodeBitmap id allocated =>
    if id ≥ v.superblock.inodeCount ∨
        ¬v.HasBit v.superblock.inodeBitmapBlock v.superblock.inodeBitmapBlocks id then
      .error (.blockOutOfRange id)
    else .ok { v with inodeBit := Function.update v.inodeBit id allocated }
  | .setDataBitmap blk allocated =>
    if !v.isDataBlock blk ∨ ¬v.HasBit v.superblock.dataBitmapBlock v.superblock.dataBitmapBlocks
        (blk - v.superblock.dataBlockStart) then
      .error (.blockOutOfRange blk)
    else .ok (v.setMark blk allocated)
  | .setDataBitmapRange start count allocated =>
    if start < v.superblock.dataBlockStart ∨ start + count > v.superblock.blockCount ∨
        ¬v.HasBit v.superblock.dataBitmapBlock v.superblock.dataBitmapBlocks 0 then
      .error (.blockOutOfRange start)
    else .ok (v.setMarks start count allocated)
  | .writeInode id inode _ =>
    if id ≥ v.superblock.inodeCount ∨
        v.mapBlocks ≤ v.superblock.inodeTableBlock + id / SuperBlock.inodeSlotsPerBlock then
      .error (.blockOutOfRange id)
    else .ok { v with inode := Function.update v.inode id (.ok inode) }
  | .writeBlockSlice blk offset data =>
    if !v.isDataBlock blk ∨ v.mapBlocks ≤ blk ∨ blockSize < offset + data.length then
      .error (.blockOutOfRange blk)
    else .ok (v.setBlock blk (patch (v.block blk) offset data))

def applyJournalOps : List VolumeOp → DiskM Unit
  | [], v => .ok () v
  | op :: ops, v =>
    match v.applyOp op with
    | .error e => .error (.journal e) v
    | .ok w => applyJournalOps ops w

theorem applyJournalOps_cons {op : VolumeOp} {ops : List VolumeOp} {v u : Volume} :
    applyJournalOps (op :: ops) v = .ok () u ↔
      ∃ w, v.applyOp op = .ok w ∧ applyJournalOps ops w = .ok () u := by
  conv_lhs => unfold applyJournalOps
  cases v.applyOp op with
  | error e => simp
  | ok w => simp

theorem applyJournalOps_append {a b : List VolumeOp} {v u : Volume} :
    applyJournalOps (a ++ b) v = .ok () u ↔
      ∃ w, applyJournalOps a v = .ok () w ∧ applyJournalOps b w = .ok () u := by
  induction a generalizing v with
  | nil =>
    refine ⟨fun h => ⟨v, rfl, h⟩, ?_⟩
    rintro ⟨w, hnil, h⟩
    cases hnil
    exact h
  | cons op a ih =>
    simp only [List.cons_append, applyJournalOps_cons, ih]
    constructor
    · rintro ⟨w, hop, w', ha, hb⟩
      exact ⟨w', ⟨w, hop, ha⟩, hb⟩
    · rintro ⟨w', ⟨w, hop, ha⟩, hb⟩
      exact ⟨w, hop, w', ha, hb⟩

theorem applyJournalOps_singleton {op : VolumeOp} {v u : Volume} :
    applyJournalOps [op] v = .ok () u ↔ v.applyOp op = .ok u := by
  rw [applyJournalOps_cons]
  constructor
  · rintro ⟨w, hop, hnil⟩
    cases hnil
    exact hop
  · exact fun hop => ⟨u, hop, rfl⟩

def journalBytes (v : Volume) : ByteStore where
  len := journalRegionLen blockSize
  byte k := v.block (journalHeaderBlock + k / blockSize) (k % blockSize)
  len_lt := by decide

def setJournalBytes (v : Volume) (region : ByteStore) : Volume :=
  { v with block := fun b k =>
      if journalHeaderBlock ≤ b ∧ b < journalHeaderBlock + journalReservedBlocks then
        region.byte ((b - journalHeaderBlock) * blockSize + k)
      else v.block b k }

/-- A change of the ring in the journal region; an error leaves the region as it was. -/
def onJournal (f : JournalRing → Except JournalError JournalRing) : DiskM Unit := fun v =>
  if v.mapBlocks < journalHeaderBlock + journalReservedBlocks then
    .error (.io "Journal region does not fit in image") v
  else
    match JournalRing.attach v.journalBytes blockSize >>= f with
    | .error e => .error (.journal e) v
    | .ok ring => .ok () (v.setJournalBytes ring.region)

end Volume

/-- What the journal works with: the durability mode, the order of runs with one key, and the bytes
that an inode slot gets. -/
structure Journal where
  strict : Bool
  runSort : RunSort
  encodeInodeSlot : Volume → Nat → Inode → Except DiskError InodeBytes

namespace Journal

variable (J : Journal)

/-- `commit_journal_tx`, up to the flushes. -/
def commitJournalTx (ops : List VolumeOp) : DiskM Unit := do
  let v ← get
  if v.superblock.hasJournalLayout then
    Volume.onJournal fun ring => (ring.append J.runSort (ops.map VolumeOp.metadata)).map Prod.snd

def maybeCheckpoint : DiskM Unit := do
  let v ← get
  if v.superblock.hasJournalLayout && J.strict then
    Volume.onJournal fun ring => .ok ring.checkpoint

end Journal

section Log

variable {v v' : Volume}

theorem dataBitmapBlocks_pos (sb : SuperBlock) : 0 < sb.dataBitmapBlocks := by
  unfold SuperBlock.dataBitmapBlocks
  split
  next => exact Nat.one_pos
  next =>
    split
    next => exact Nat.lt_of_lt_of_le Nat.one_pos (Nat.le_max_right _ _)
    next => exact Nat.one_pos

theorem journal_before_table {sb : SuperBlock} {mmapLen : Nat} (hv : sb.Validated mmapLen)
    (hj : sb.hasJournalLayout = true) :
    journalHeaderBlock + journalReservedBlocks ≤ sb.inodeTableBlock := by
  by_cases hv3 : sb.isV3Layout = true
  · have htable := hv.v3_table hv3
    rw [hj, if_pos rfl, hv.dataBitmap_eq] at htable
    have hpos := dataBitmapBlocks_pos sb
    simp only [journalHeaderBlock]
    omega
  · simpa [SuperBlock.hasJournalLayout, hv3, journalInodeTableBlock] using hj

theorem journal_before_data (h : v.Mountable) (hj : v.superblock.hasJournalLayout = true) :
    journalHeaderBlock + journalReservedBlocks ≤ v.superblock.dataBlockStart := by
  obtain ⟨len, hvalid, -⟩ := h
  have hv := SuperBlock.validated_of_ok hvalid
  exact Nat.le_trans (journal_before_table hv hj) hv.table_le_data

structure LogWritten (v v' : Volume) : Prop where
  tables : v.SameTables v'
  bits : v'.dataBit = v.dataBit
  block : ∀ b, journalHeaderBlock + journalReservedBlocks ≤ b → v'.block b = v.block b

theorem LogWritten.refl (v : Volume) : LogWritten v v :=
  ⟨Volume.SameTables.refl v, rfl, fun _ _ => rfl⟩

theorem onJournal_ok {f : JournalRing → Except JournalError JournalRing}
    (h : Volume.onJournal f v = .ok () v') : LogWritten v v' := by
  unfold Volume.onJournal at h
  split at h
  next => cases h
  next =>
    split at h
    next => cases h
    next =>
      cases h
      refine ⟨⟨rfl, rfl, rfl, rfl, rfl⟩, rfl, fun b hb => ?_⟩
      funext k
      exact if_neg (by omega)

theorem commitJournalTx_ok {J : Journal} {ops : List VolumeOp}
    (h : J.commitJournalTx ops v = .ok () v') : LogWritten v v' := by
  unfold Journal.commitJournalTx at h
  rw [DiskM.get_bind] at h
  split at h
  next => exact onJournal_ok h
  next =>
    obtain ⟨-, rfl⟩ := DiskM.pure_ok.mp h
    exact LogWritten.refl v

theorem maybeCheckpoint_ok {J : Journal} (h : J.maybeCheckpoint v = .ok () v') :
    LogWritten v v' := by
  unfold Journal.maybeCheckpoint at h
  rw [DiskM.get_bind] at h
  split at h
  next => exact onJournal_ok h
  next =>
    obtain ⟨-, rfl⟩ := DiskM.pure_ok.mp h
    exact LogWritten.refl v

theorem Good.logWritten {ext : Nat × Nat → Nat → Set Nat} {F : Files} (hg : Good ext F v)
    (hlog : LogWritten v v')
    (hdata : journalHeaderBlock + journalReservedBlocks ≤ v.superblock.dataBlockStart) :
    Good ext F v' ∧ (∀ l, treeShape.Valid l → (v'.cells F).get l = (v.cells F).get l) ∧
      ∀ b ∈ owned treeShape ext (v.cells F), v'.block b = v.block b := by
  have hbytes : ∀ b ∈ owned treeShape ext (v.cells F), v'.block b = v.block b := by
    intro b hb
    have hstart := (Volume.isDataBlock_iff.mp (hg.data b hb)).2.1
    exact hlog.block b (Nat.le_trans hdata hstart)
  have hmarks : ∀ b ∈ owned treeShape ext (v.cells F), v'.marked b = true := by
    intro b hb
    have hmark := hg.marked b hb
    rwa [Volume.marked, hlog.bits, hlog.tables.superblock]
  obtain ⟨hgood, hget⟩ := hg.frame hlog.tables hmarks fun l hin hne =>
    hbytes _ ⟨l, hin.1, owns_inner hin hne⟩
  exact ⟨hgood, hget, hbytes⟩

end Log

namespace Session

def journaledVolume (i : Inode) : Volume :=
  let tiny := tinyVolume i fun _ => 0
  { tiny with
    superblock := { tiny.superblock with inodeTableBlock := 36, dataBlockStart := 37, blockCount := 48 }
    mapBlocks := 48
    block := fun b k => if b = journalHeaderBlock then (JournalState.encode ⟨0, 0, 0, true⟩).getD k 0 else 0
    freeBlockHint := 37 }

end Session

end Oifs
