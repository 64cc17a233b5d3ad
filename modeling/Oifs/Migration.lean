import Oifs.DiskJournal
import Oifs.Layout

namespace Oifs

open InodeFormat

structure MigrationStats where
  fromVersion : Nat
  toVersion : Nat
  inodesRewritten : Nat
  alreadyCurrent : Bool
  deriving DecidableEq

/-- The locals of the loop of `migrate`. -/
structure MigrateLoop where
  fromVersion : Nat
  inodeBitmap : ByteStore
  cursor : Nat
  rewritten : Nat

/-- Where a call stands between two stores to the image. -/
inductive MigratePhase where
  /-- After a crash. -/
  | unmounted
  /-- Mounted, with no call running; the result of the last one. -/
  | quiet (last : Option (Except DiskError MigrationStats))
  /-- The ring is checkpointed and its header is being flushed. -/
  | checkpointed
  /-- At the head of the loop. -/
  | scanning (l : MigrateLoop)
  /-- The slot at the cursor is done, the cursor has not moved. -/
  | rewrote (l : MigrateLoop)
  /-- The superblock holds the cursor and is being flushed. -/
  | flushing (l : MigrateLoop)
  /-- The superblock holds the new version and is being flushed. -/
  | finishing (l : MigrateLoop)

inductive MigrateEvent where
  | call
  | tick
  | flushFails
  | crash
  | reopen

namespace DiskImage

def slot (d : DiskImage) (inodeId : Nat) : List UInt8 :=
  d.mmap.read (d.superblock.inodeTableBlock * blockSize + inodeId * inodeSlotSize) inodeSlotSize

/-- The body of the loop for an allocated slot: decoded as v1 whatever the cursor says. -/
def rewriteSlot (d : DiskImage) (inodeId : Nat) : Except DiskError DiskImage :=
  match d.inodeSlotRange inodeId with
  | .error e => .error e
  | .ok (start, stop) =>
    match decodeV1 (d.mmap.read start (stop - start)) with
    | .error e => .error (.inodeFormat e)
    | .ok inode => .ok { d with mmap := d.mmap.write start (encodeV2 inode) }

def InodeAllocated (d : DiskImage) (inodeId : Nat) : Prop :=
  inodeId < d.superblock.inodeCount ∧
    ∃ bitmap, d.inodeBitmapSlice = some bitmap ∧ bitmap.bit inodeId = true

def setCursor (d : DiskImage) (cursor : Nat) : DiskImage :=
  { d with superblock := { d.superblock with migrationCursor := cursor } }

def setMigrated (d : DiskImage) : DiskImage :=
  { d with superblock := { d.superblock with
      migrationCursor := 0
      formatVersion := SuperBlock.formatVersionFixedInode } }

end DiskImage

structure Migration where
  phase : MigratePhase
  image : DiskImage

namespace Migration

def call (d : DiskImage) : Migration :=
  if !d.superblock.isLegacyInodeFormat then
    let version := d.superblock.inodeRecordVersion
    ⟨.quiet (some (.ok ⟨version, version, 0, true⟩)), d⟩
  else
    match checkpointJournal d.superblock d.mmap with
    | .error e => ⟨.quiet (some (.error e)), d⟩
    | .ok mmap => ⟨.checkpointed, { d with mmap := mmap }⟩

def scan (d : DiskImage) (l : MigrateLoop) : Migration :=
  if l.cursor < d.superblock.inodeCount then
    -- the bitmap copy has a bit for every id: `validate` bounds the inode count
    if l.inodeBitmap.bit l.cursor then
      match d.rewriteSlot l.cursor with
      | .error e => ⟨.quiet (some (.error e)), d⟩
      | .ok d' => ⟨.rewrote { l with rewritten := l.rewritten + 1 }, d'⟩
    else ⟨.rewrote l, d⟩
  else ⟨.finishing l, d.setMigrated⟩

/-- The cursor moves; the superblock learns of it every 256 slots only. -/
def advance (d : DiskImage) (l : MigrateLoop) : Migration :=
  let cursor := l.cursor + 1
  if cursor % 256 = 0 then ⟨.flushing { l with cursor := cursor }, d.setCursor cursor⟩
  else ⟨.scanning { l with cursor := cursor }, d⟩

def tick (w : Migration) : Migration :=
  match w.phase with
  | .unmounted | .quiet _ => w
  | .checkpointed =>
    match w.image.inodeBitmapSlice with
    | none => ⟨.quiet (some (.error (.io "inode bitmap not found"))), w.image⟩
    | some bitmap =>
      ⟨.scanning ⟨w.image.superblock.inodeRecordVersion, bitmap,
        w.image.superblock.migrationCursor, 0⟩, w.image⟩
  | .scanning l => scan w.image l
  | .rewrote l => advance w.image l
  | .flushing l => ⟨.scanning l, w.image⟩
  | .finishing l =>
    ⟨.quiet (some (.ok ⟨l.fromVersion, SuperBlock.formatVersionFixedInode, l.rewritten, false⟩)),
      w.image⟩

def step (w : Migration) : MigrateEvent → Migration
  | .call =>
    match w.phase with
    | .quiet _ => call w.image
    | _ => w
  | .tick => w.tick
  | .flushFails =>
    match w.phase with
    | .checkpointed | .flushing _ | .finishing _ =>
      ⟨.quiet (some (.error (.io "flush"))), w.image⟩
    | _ => w
  | .crash => ⟨.unmounted, w.image⟩
  | .reopen =>
    match w.phase with
    | .unmounted =>
      match w.image.mount with
      | .ok _ d => ⟨.quiet none, d⟩
      | .error _ d => ⟨.unmounted, d⟩
    | _ => w

def run (w : Migration) (events : List MigrateEvent) : Migration := events.foldl step w

def reached (w : Migration) : Nat :=
  match w.phase with
  | .scanning l | .flushing l => l.cursor
  | .rewrote l => l.cursor + 1
  | .finishing _ => w.image.superblock.inodeCount
  | .unmounted | .quiet _ | .checkpointed =>
    if w.image.superblock.isLegacyInodeFormat then w.image.superblock.migrationCursor
    else w.image.superblock.inodeCount

def Settled (w : Migration) : Prop :=
  w.phase = .unmounted ∨ ∃ last, w.phase = .quiet last

/-- No allocated slot between the stored cursor and the slot reached. -/
def Resumable (w : Migration) : Prop :=
  ∀ id, w.image.InodeAllocated id →
    w.image.superblock.inodeRecordVersionFor id = SuperBlock.formatVersionLegacy → w.reached ≤ id

def Interrupts (w : Migration) : MigrateEvent → Prop
  | .crash => True
  | .tick => ∃ l e, w.phase = .scanning l ∧ l.cursor < w.image.superblock.inodeCount ∧
      l.inodeBitmap.bit l.cursor = true ∧ w.image.rewriteSlot l.cursor = .error e
  | _ => False

def ResumableRun : Migration → List MigrateEvent → Prop
  | _, [] => True
  | w, event :: events =>
    (w.Interrupts event → w.Resumable) ∧ ResumableRun (w.step event) events

end Migration

structure LegacyImage (d : DiskImage) : Prop where
  valid : d.superblock.validate d.mmap.len = .ok ()
  legacy : d.superblock.isLegacyInodeFormat = true
  cursor : d.superblock.migrationCursor = 0

/-- Everything that `migrate` and the mounts in between leave as it was in `d₀`. -/
structure Derived (d₀ d : DiskImage) : Prop where
  superblock : d.superblock = { d₀.superblock with
    migrationCursor := d.superblock.migrationCursor
    formatVersion := d.superblock.formatVersion }
  version : d.superblock.formatVersion ≤ SuperBlock.formatVersionFixedInode
  len : d.mmap.len = d₀.mmap.len
  bitmap : ∀ i, blockSize ≤ i → i < 2 * blockSize → d.mmap.byte i = d₀.mmap.byte i
  ring : d.superblock.hasJournalLayout → EmptyRing d.mmap

namespace Derived

variable {d₀ d : DiskImage}

theorem legacy_version {sb : SuperBlock} (h : sb.isLegacyInodeFormat = true) :
    sb.formatVersion < SuperBlock.formatVersionFixedInode := by
  simpa [SuperBlock.isLegacyInodeFormat] using h

theorem not_v3 {sb : SuperBlock} (h : sb.formatVersion ≤ SuperBlock.formatVersionFixedInode) :
    sb.isV3Layout = false := by
  simp only [SuperBlock.isV3Layout, SuperBlock.formatVersionV3Layout,
    SuperBlock.formatVersionFixedInode] at *
  simp
  omega

theorem hasJournalLayout_eq {sb : SuperBlock}
    (h : sb.formatVersion ≤ SuperBlock.formatVersionFixedInode) :
    sb.hasJournalLayout = decide (journalInodeTableBlock ≤ sb.inodeTableBlock) := by
  rw [SuperBlock.hasJournalLayout, not_v3 h]
  rfl

theorem inodeTableBlock_eq (h : Derived d₀ d) :
    d.superblock.inodeTableBlock = d₀.superblock.inodeTableBlock := by
  rw [h.superblock]

theorem inodeCount_eq (h : Derived d₀ d) : d.superblock.inodeCount = d₀.superblock.inodeCount := by
  rw [h.superblock]

theorem blockSize_eq (h : Derived d₀ d) : d.superblock.blockSize = d₀.superblock.blockSize := by
  rw [h.superblock]

theorem inodeSlotRange_eq (h : Derived d₀ d) (id : Nat) : d.inodeSlotRange id = d₀.inodeSlotRange id := by
  have husable : d.superblock.usableInodeCount = d₀.superblock.usableInodeCount := by
    rw [h.superblock]
    rfl
  simp only [DiskImage.inodeSlotRange, husable, h.inodeTableBlock_eq, h.len]

theorem inodeAllocated_block {d : DiskImage}
    (hversion : d.superblock.formatVersion ≤ SuperBlock.formatVersionFixedInode)
    (hblock : d.superblock.inodeBitmapBlock = 1) (hlen : 2 * blockSize ≤ d.mmap.len) :
    d.inodeBitmapSlice = some (d.mmap.sub blockSize blockSize) ∧ ∀ id, d.InodeAllocated id ↔
      id < d.superblock.inodeCount ∧ (d.mmap.sub blockSize blockSize).bit id = true := by
  have hblocks : d.superblock.inodeBitmapBlocks = 1 := by
    rw [SuperBlock.inodeBitmapBlocks, not_v3 hversion]
    rfl
  have hslice : d.inodeBitmapSlice = some (d.mmap.sub blockSize blockSize) := by
    rw [DiskImage.inodeBitmapSlice, hblock, hblocks, Nat.one_mul, if_neg (by omega)]
  refine ⟨hslice, fun id => ?_⟩
  rw [DiskImage.InodeAllocated, hslice]
  simp

theorem block_facts (h₀ : LegacyImage d₀) :
    d₀.superblock.inodeBitmapBlock = 1 ∧ 2 * blockSize ≤ d₀.mmap.len := by
  have hv := SuperBlock.validated_of_ok h₀.valid
  have hfive := hv.five_le
  have hfits := hv.fits
  have hmul := Nat.mul_le_mul_right blockSize hfive
  exact ⟨hv.inodeBitmap_eq, by omega⟩

theorem bitmapSlice_eq (h : Derived d₀ d) (h₀ : LegacyImage d₀) :
    d.inodeBitmapSlice = some (d.mmap.sub blockSize blockSize) := by
  obtain ⟨hblock, hlen⟩ := block_facts h₀
  exact (inodeAllocated_block h.version (by rw [h.superblock, hblock]) (h.len ▸ hlen)).1

theorem inodeAllocated_iff (h : Derived d₀ d) (h₀ : LegacyImage d₀) (id : Nat) :
    d₀.InodeAllocated id ↔
      id < d₀.superblock.inodeCount ∧ (d.mmap.sub blockSize blockSize).bit id = true := by
  obtain ⟨hblock, hlen⟩ := block_facts h₀
  rw [(inodeAllocated_block (legacy_version h₀.legacy).le hblock hlen).2]
  apply and_congr_right
  intro hid
  have hle := (SuperBlock.validated_of_ok h₀.valid).inodes_le
  have hbs : blockSize = 4096 := rfl
  have hmax : SuperBlock.maxTrackedInodes = 32768 := rfl
  rw [ByteStore.bit, ByteStore.bit, ByteStore.sub_byte, ByteStore.sub_byte,
    h.bitmap _ (by omega) (by omega)]

theorem inodeAllocated_same (h : Derived d₀ d) (h₀ : LegacyImage d₀) (id : Nat) :
    d.InodeAllocated id ↔ d₀.InodeAllocated id := by
  obtain ⟨hblock, hlen⟩ := block_facts h₀
  rw [(inodeAllocated_block h.version (by rw [h.superblock, hblock]) (h.len ▸ hlen)).2,
    h.inodeAllocated_iff h₀, h.inodeCount_eq]

theorem write (data : List UInt8) (h : Derived d₀ d) (h₀ : LegacyImage d₀) {off : Nat}
    (hoff : d.superblock.inodeTableBlock * blockSize ≤ off) :
    Derived d₀ { d with mmap := d.mmap.write off data } := by
  have hv := SuperBlock.validated_of_ok h₀.valid
  have hdata := hv.dataBitmap_eq
  have htable := hv.bitmap_lt_table
  rw [h.inodeTableBlock_eq] at hoff
  refine ⟨h.superblock, h.version, h.len, fun i hlo hhi => ?_, fun hj => ?_⟩
  · rw [← h.bitmap i hlo hhi]
    refine ByteStore.write_byte_out (Or.inl ?_)
    simp only [blockSize] at hoff hhi
    omega
  · refine (h.ring hj).congr rfl fun i hlo hhi => ByteStore.write_byte_out (Or.inl ?_)
    rw [hasJournalLayout_eq h.version, decide_eq_true_eq, h.inodeTableBlock_eq] at hj
    simp only [blockSize, journalRegionStart, journalHeaderBlock, journalInodeTableBlock,
      journalReservedBlocks, journalRingBlocks] at hj hoff hhi
    omega

theorem headerOnly_apart {d : DiskImage} {mmap : ByteStore}
    (hversion : d.superblock.formatVersion ≤ SuperBlock.formatVersionFixedInode)
    (hm : HeaderOnly d.superblock d.mmap mmap) :
    (∀ i, blockSize ≤ i → i < 2 * blockSize → mmap.byte i = d.mmap.byte i) ∧
      ∀ id, DiskImage.slot { d with mmap := mmap } id = d.slot id := by
  refine ⟨fun i _ hhi => hm.byte i fun _ => ?_, fun id => ?_⟩
  · simp only [blockSize, journalRegionStart, journalHeaderBlock] at hhi ⊢
    omega
  · apply ByteStore.read_congr
    intro i hlo _
    apply hm.byte
    intro hj
    rw [hasJournalLayout_eq hversion, decide_eq_true_eq] at hj
    simp only [blockSize, journalRegionStart, journalHeaderBlock, journalInodeTableBlock,
      journalReservedBlocks, journalRingBlocks, journalHeaderLen] at hj hlo ⊢
    omega

theorem header (h : Derived d₀ d) {mmap : ByteStore} (hm : HeaderOnly d.superblock d.mmap mmap)
    (hring : d.superblock.hasJournalLayout → EmptyRing mmap) :
    Derived d₀ { d with mmap := mmap } :=
  ⟨h.superblock, h.version, hm.len.trans h.len,
    fun i hlo hhi => ((headerOnly_apart h.version hm).1 i hlo hhi).trans (h.bitmap i hlo hhi), hring⟩

end Derived

namespace DiskImage

theorem inodeSlotRange_ok {d : DiskImage} {id start stop : Nat}
    (h : d.inodeSlotRange id = .ok (start, stop)) :
    start = d.superblock.inodeTableBlock * blockSize + id * inodeSlotSize ∧
      stop - start = inodeSlotSize := by
  unfold inodeSlotRange at h
  dsimp only at h
  split at h
  next => cases h
  next =>
    split at h
    next => cases h
    next =>
      split at h
      next => cases h
      next =>
        cases h
        exact ⟨rfl, Nat.add_sub_cancel_left _ _⟩

theorem readInodeInternal_of_range {d : DiskImage} {id : Nat} {range : Nat × Nat}
    (h : d.inodeSlotRange id = .ok range) : d.readInodeInternal id =
      (decodeFor (d.slot id) (d.superblock.inodeRecordVersionFor id)).mapError .inodeDecode := by
  obtain ⟨start, stop⟩ := range
  obtain ⟨rfl, hlen⟩ := inodeSlotRange_ok h
  rw [readInodeInternal, h]
  dsimp only
  rw [hlen, slot]
  cases decodeFor _ _ with
  | error e => rfl
  | ok inode => rfl

theorem readInodeInternal_v1 {d : DiskImage} {id : Nat} {range : Nat × Nat}
    (h : d.inodeSlotRange id = .ok range)
    (hv : d.superblock.inodeRecordVersionFor id = SuperBlock.formatVersionLegacy) (inode : Inode) :
    d.readInodeInternal id = .ok inode ↔ decodeV1 (d.slot id) = .ok inode := by
  rw [readInodeInternal_of_range h, hv, decodeFor_legacy]
  cases decodeV1 (d.slot id) with
  | error e => simp [Except.mapError]
  | ok i => simp [Except.mapError]

theorem rewriteSlot_ok {d d' : DiskImage} {id : Nat} (h : d.rewriteSlot id = .ok d') :
    ∃ inode range, d.inodeSlotRange id = .ok range ∧ decodeV1 (d.slot id) = .ok inode ∧
      d' = ⟨d.superblock, d.mmap.write
        (d.superblock.inodeTableBlock * blockSize + id * inodeSlotSize) (encodeV2 inode)⟩ ∧
      d'.slot id = encodeV2 inode ∧ ∀ other, other ≠ id → d'.slot other = d.slot other := by
  unfold rewriteSlot at h
  split at h
  next => cases h
  next start stop hrange =>
    split at h
    next => cases h
    next inode hdec =>
      cases h
      obtain ⟨rfl, hlen⟩ := inodeSlotRange_ok hrange
      rw [hlen] at hdec
      refine ⟨inode, _, hrange, hdec, rfl, ?_, fun other hne => ?_⟩
      · rw [slot, ← encodeV2_length inode]
        exact ByteStore.read_write_self _ _ _
      · refine ByteStore.read_write_disjoint ?_
        rw [encodeV2_length]
        simp only [inodeSlotSize]
        omega

end DiskImage

end Oifs
