import Oifs.Migration

namespace Oifs

open InodeFormat

def Converted (d₀ d : DiskImage) (id : Nat) : Prop :=
  ∃ inode range, d₀.inodeSlotRange id = .ok range ∧ decodeV1 (d₀.slot id) = .ok inode ∧
    d.slot id = encodeV2 inode

theorem Converted.decodeV2 {d₀ d : DiskImage} {id : Nat} (h : Converted d₀ d id) :
    decodeV2 (d.slot id) = decodeV1 (d₀.slot id) := by
  obtain ⟨inode, range, -, hdec, hslot⟩ := h
  rw [hslot, hdec, decodeV2_encodeV2 (decodeV1_fits hdec)]

theorem recordVersion_legacy_iff {sb : SuperBlock} {id : Nat} :
    sb.inodeRecordVersionFor id = SuperBlock.formatVersionLegacy ↔
      sb.isLegacyInodeFormat = true ∧ sb.migrationCursor ≤ id := by
  unfold SuperBlock.inodeRecordVersionFor
  cases sb.isLegacyInodeFormat with
  | true => simp [SuperBlock.formatVersionFixedInode, SuperBlock.formatVersionLegacy]
  | false => simp [SuperBlock.formatVersionFixedInode, SuperBlock.formatVersionLegacy]

theorem LegacyImage.recordVersion {d : DiskImage} (h : LegacyImage d) (id : Nat) :
    d.superblock.inodeRecordVersionFor id = SuperBlock.formatVersionLegacy :=
  recordVersion_legacy_iff.mpr ⟨h.legacy, by rw [h.cursor]; exact Nat.zero_le _⟩

namespace Migration

def Copies (d₀ : DiskImage) (l : MigrateLoop) : Prop :=
  ∀ id, id < d₀.superblock.inodeCount → (l.inodeBitmap.bit id = true ↔ d₀.InodeAllocated id)

def PhaseInv (d₀ : DiskImage) (w : Migration) : Prop :=
  match w.phase with
  | .unmounted | .quiet none | .quiet (some (.error _)) => True
  | .quiet (some (.ok _)) | .finishing _ => w.image.superblock.isLegacyInodeFormat = false
  | .checkpointed => w.image.superblock.isLegacyInodeFormat = true
  | .scanning l | .rewrote l => w.image.superblock.isLegacyInodeFormat = true ∧
      w.image.superblock.migrationCursor ≤ l.cursor ∧ Copies d₀ l
  | .flushing l => w.image.superblock.isLegacyInodeFormat = true ∧
      w.image.superblock.migrationCursor = l.cursor ∧ Copies d₀ l

/-- Below the slot that was reached the records are v2, from there on they still read as v1. -/
structure Inv (d₀ : DiskImage) (w : Migration) : Prop where
  derived : Derived d₀ w.image
  converted : ∀ id, d₀.InodeAllocated id → id < w.reached → Converted d₀ w.image id
  pending : ∀ id, d₀.InodeAllocated id → w.reached ≤ id →
    decodeV1 (w.image.slot id) = decodeV1 (d₀.slot id)
  phase : PhaseInv d₀ w

/-- The phases in which nothing is known but what the image says. -/
def Stopped : MigratePhase → Prop
  | .unmounted | .quiet none | .quiet (some (.error _)) => True
  | _ => False

variable {d₀ : DiskImage} {w : Migration}

variable {phase : MigratePhase}

theorem reached_stopped (hs : Stopped phase) (d : DiskImage) :
    reached ⟨phase, d⟩ = if d.superblock.isLegacyInodeFormat then d.superblock.migrationCursor
      else d.superblock.inodeCount := by
  cases phase with
  | unmounted | quiet => rfl
  | checkpointed | scanning | rewrote | flushing | finishing => exact hs.elim

theorem phaseInv_stopped (hs : Stopped phase) (d : DiskImage) :
    PhaseInv d₀ ⟨phase, d⟩ := by
  cases phase with
  | unmounted => trivial
  | quiet last =>
    cases last with
    | none => trivial
    | some result =>
      cases result with
      | error => trivial
      | ok => exact hs.elim
  | checkpointed | scanning | rewrote | flushing | finishing => exact hs.elim

theorem Inv.stored_le (h : Inv d₀ w) :
    (if w.image.superblock.isLegacyInodeFormat then w.image.superblock.migrationCursor
      else w.image.superblock.inodeCount) ≤ w.reached := by
  have hp := h.phase
  unfold PhaseInv at hp
  unfold reached
  cases hphase : w.phase with
  | unmounted | quiet | checkpointed => exact le_rfl
  | scanning l | flushing l | rewrote l =>
    rw [hphase] at hp
    dsimp only at hp ⊢
    rw [if_pos hp.1]
    omega
  | finishing l =>
    rw [hphase] at hp
    dsimp only at hp ⊢
    rw [if_neg (by simp [hp])]

theorem inv_stop (h : Inv d₀ w) (h₀ : LegacyImage d₀) (hr : w.Resumable)
    (hs : Stopped phase) : Inv d₀ ⟨phase, w.image⟩ := by
  have hle := h.stored_le
  refine ⟨h.derived, fun id ha hid => ?_, fun id ha hid => ?_, phaseInv_stopped hs _⟩
  · rw [reached_stopped hs] at hid
    exact h.converted id ha (Nat.lt_of_lt_of_le hid hle)
  · rw [reached_stopped hs] at hid
    by_cases hreach : id < w.reached
    · have hlegacy : w.image.superblock.isLegacyInodeFormat = true ∧
          w.image.superblock.migrationCursor ≤ id := by
        split at hid
        next hl => exact ⟨hl, hid⟩
        next => exact absurd ha.1 (by rw [h.derived.inodeCount_eq] at hid; omega)
      have hlate := hr id ((h.derived.inodeAllocated_same h₀ id).mpr ha)
        (recordVersion_legacy_iff.mpr hlegacy)
      exact absurd hreach hlate.not_gt
    · exact h.pending id ha (Nat.not_lt.mp hreach)

theorem resumable_of_stored (h : w.image.superblock.isLegacyInodeFormat = true →
    w.reached = w.image.superblock.migrationCursor) : w.Resumable := by
  intro id _ hversion
  obtain ⟨hlegacy, hle⟩ := recordVersion_legacy_iff.mp hversion
  rwa [h hlegacy]

/-- The scan keeps the invariant. -/
theorem inv_scan {l : MigrateLoop} (h : Inv d₀ w) (h₀ : LegacyImage d₀) (hp : w.phase = .scanning l)
    (hsafe : w.Interrupts .tick → w.Resumable) : Inv d₀ (scan w.image l) := by
  have hphase := h.phase
  rw [PhaseInv, hp] at hphase
  obtain ⟨hlegacy, hle, hcopy⟩ := hphase
  have hreach : w.reached = l.cursor := by rw [reached, hp]
  have hcount := h.derived.inodeCount_eq
  unfold scan
  split
  next hlt =>
    split
    next hbit =>
      cases hslot : w.image.rewriteSlot l.cursor with
      | error e => exact inv_stop h h₀ (hsafe ⟨l, e, hp, hlt, hbit, hslot⟩) trivial
      | ok d' =>
        obtain ⟨inode, range, hrange, hdec, rfl, hnew, hother⟩ := DiskImage.rewriteSlot_ok hslot
        have hd := Derived.write (encodeV2 inode) h.derived h₀
          (Nat.le_add_right (w.image.superblock.inodeTableBlock * blockSize)
            (l.cursor * inodeSlotSize))
        refine ⟨hd, fun id ha hid => ?_, fun id ha hid => ?_, hlegacy, hle, hcopy⟩
        · -- the slot at the cursor is new, those before it are as they were
          by_cases hcur : id = l.cursor
          · subst hcur
            refine ⟨inode, range, ?_, ?_, hnew⟩
            · rw [← h.derived.inodeSlotRange_eq]
              exact hrange
            · rw [← h.pending _ ha (by rw [hreach])]
              exact hdec
          · obtain ⟨i, r, hr, hd, hs⟩ := h.converted id ha (by
              rw [hreach]
              have hid' : id < l.cursor + 1 := hid
              omega)
            exact ⟨i, r, hr, hd, (hother id hcur).trans hs⟩
        · have hid' : l.cursor + 1 ≤ id := hid
          rw [hother id (by omega)]
          exact h.pending id ha (by rw [hreach]; omega)
    next hbit =>
      refine ⟨h.derived, fun id ha hid => ?_, fun id ha hid => ?_, hlegacy, hle, hcopy⟩
      · have hid' : id < l.cursor + 1 := hid
        have hne : id ≠ l.cursor := by
          rintro rfl
          exact hbit ((hcopy _ (hcount ▸ hlt)).mpr ha)
        exact h.converted id ha (by rw [hreach]; omega)
      · have hid' : l.cursor + 1 ≤ id := hid
        exact h.pending id ha (by rw [hreach]; omega)
  next hend =>
    have hall : ∀ id, d₀.InodeAllocated id → id < w.reached := by
      intro id ha
      have hid := ha.1
      rw [hreach]
      omega
    refine ⟨⟨?_, le_rfl, h.derived.len, h.derived.bitmap, fun hj => ?_⟩,
      fun id ha _ => h.converted id ha (hall id ha), fun id ha hid => ?_, rfl⟩
    · simp only [DiskImage.setMigrated]
      rw [h.derived.superblock]
    · apply h.derived.ring
      rw [Derived.hasJournalLayout_eq le_rfl] at hj
      rw [Derived.hasJournalLayout_eq h.derived.version]
      exact hj
    · have hid' : w.image.superblock.inodeCount ≤ id := hid
      exact absurd ha.1 (by omega)

theorem inv_header {mmap : ByteStore} (h : Inv d₀ w)
    (hm : HeaderOnly w.image.superblock w.image.mmap mmap)
    (hring : w.image.superblock.hasJournalLayout → EmptyRing mmap)
    (hreach : reached ⟨phase, w.image⟩ = w.reached) (hphase : PhaseInv d₀ ⟨phase, w.image⟩) :
    Inv d₀ ⟨phase, { w.image with mmap := mmap }⟩ := by
  have hslot := (Derived.headerOnly_apart h.derived.version hm).2
  have hreach' : reached ⟨phase, { w.image with mmap := mmap }⟩ = w.reached := hreach
  refine ⟨h.derived.header hm hring, fun id ha hid => ?_, fun id ha hid => ?_, hphase⟩
  · obtain ⟨i, r, hr, hdec, hs⟩ := h.converted id ha (by rwa [hreach'] at hid)
    exact ⟨i, r, hr, hdec, (hslot id).trans hs⟩
  · rw [hslot id]
    exact h.pending id ha (by rwa [hreach'] at hid)

theorem Inv.blockSize_eq (h : Inv d₀ w) (h₀ : LegacyImage d₀) :
    w.image.superblock.blockSize = blockSize :=
  h.derived.blockSize_eq.trans (SuperBlock.validated_of_ok h₀.valid).blockSize_eq

theorem inv_call {last : Option (Except DiskError MigrationStats)} (h : Inv d₀ w)
    (h₀ : LegacyImage d₀) (hp : w.phase = .quiet last) : Inv d₀ (call w.image) := by
  have hreach : w.reached = if w.image.superblock.isLegacyInodeFormat then
      w.image.superblock.migrationCursor else w.image.superblock.inodeCount := by
    rw [reached, hp]
  unfold call
  split
  next hnew =>
    have hfixed : w.image.superblock.isLegacyInodeFormat = false := by simpa using hnew
    refine ⟨h.derived, fun id ha hid => ?_, fun id ha hid => ?_, hfixed⟩
    · exact h.converted id ha (by rw [hreach]; exact hid)
    · exact h.pending id ha (by rw [hreach]; exact hid)
  next hold =>
    have hlegacy : w.image.superblock.isLegacyInodeFormat = true := by simpa using hold
    cases hcheck : checkpointJournal w.image.superblock w.image.mmap with
    | error e =>
      exact inv_stop h h₀ (resumable_of_stored fun hl => by rw [hreach, if_pos hl]) trivial
    | ok mmap =>
      obtain ⟨hm, hring⟩ := onRing_spec empties_checkpoint (h.blockSize_eq h₀) hcheck
      exact inv_header h hm hring hreach.symm hlegacy

theorem inv_reopen (h : Inv d₀ w) (h₀ : LegacyImage d₀) (hp : w.phase = .unmounted) :
    Inv d₀ (w.step .reopen) := by
  have hreach : w.reached = if w.image.superblock.isLegacyInodeFormat then
      w.image.superblock.migrationCursor else w.image.superblock.inodeCount := by
    rw [reached, hp]
  obtain ⟨mmap, hm, hring, hmount⟩ := DiskImage.mount_of_empty (h.blockSize_eq h₀) h.derived.ring
  rw [step, hp]
  rcases hmount with hok | ⟨e, herr⟩
  · rw [hok]
    exact inv_header h hm hring hreach.symm trivial
  · rw [herr]
    exact inv_header h hm hring hreach.symm trivial

theorem inv_advance {l : MigrateLoop} (h : Inv d₀ w) (hp : w.phase = .rewrote l) :
    Inv d₀ (advance w.image l) := by
  have hphase := h.phase
  rw [PhaseInv, hp] at hphase
  obtain ⟨hlegacy, hle, hcopy⟩ := hphase
  have hreach : w.reached = l.cursor + 1 := by rw [reached, hp]
  unfold advance
  dsimp only
  split
  next =>
    refine ⟨⟨?_, h.derived.version, h.derived.len, h.derived.bitmap, h.derived.ring⟩,
      fun id ha hid => ?_, fun id ha hid => ?_, hlegacy, rfl, hcopy⟩
    · simp only [DiskImage.setCursor]
      rw [h.derived.superblock]
    · exact h.converted id ha (by rw [hreach]; exact hid)
    · exact h.pending id ha (by rw [hreach]; exact hid)
  next =>
    refine ⟨h.derived, fun id ha hid => ?_, fun id ha hid => ?_, hlegacy, ?_, hcopy⟩
    · exact h.converted id ha (by rw [hreach]; exact hid)
    · exact h.pending id ha (by rw [hreach]; exact hid)
    · exact Nat.le_succ_of_le hle

theorem inv_phase (h : Inv d₀ w)
    (hreach : reached ⟨phase, w.image⟩ = w.reached) (hphase : PhaseInv d₀ ⟨phase, w.image⟩) :
    Inv d₀ ⟨phase, w.image⟩ :=
  ⟨h.derived, fun id ha hid => h.converted id ha (hreach ▸ hid),
    fun id ha hid => h.pending id ha (hreach ▸ hid), hphase⟩

theorem inv_tick (h : Inv d₀ w) (h₀ : LegacyImage d₀)
    (hsafe : w.Interrupts .tick → w.Resumable) : Inv d₀ w.tick := by
  have hphase := h.phase
  unfold tick
  cases hp : w.phase with
  | unmounted | quiet => exact h
  | checkpointed =>
    rw [PhaseInv, hp] at hphase
    dsimp only
    have hreach : w.reached = w.image.superblock.migrationCursor := by
      rw [reached, hp]
      exact if_pos hphase
    rw [h.derived.bitmapSlice_eq h₀]
    refine inv_phase h hreach.symm ⟨hphase, le_rfl, fun id hid => ?_⟩
    rw [h.derived.inodeAllocated_iff h₀]
    exact (and_iff_right hid).symm
  | scanning l => exact inv_scan h h₀ hp hsafe
  | rewrote l => exact inv_advance h hp
  | flushing l =>
    rw [PhaseInv, hp] at hphase
    refine inv_phase h ?_ ⟨hphase.1, hphase.2.1.le, hphase.2.2⟩
    rw [reached, reached, hp]
  | finishing l =>
    rw [PhaseInv, hp] at hphase
    refine inv_phase h ?_ hphase
    rw [reached, reached, hp]
    exact if_neg (by simp [hphase])

theorem inv_step {event : MigrateEvent} (h : Inv d₀ w) (h₀ : LegacyImage d₀)
    (hsafe : w.Interrupts event → w.Resumable) : Inv d₀ (w.step event) := by
  cases event with
  | call =>
    cases hp : w.phase with
    | quiet last =>
      rw [step, hp]
      exact inv_call h h₀ hp
    | unmounted | checkpointed | scanning | rewrote | flushing | finishing =>
      rw [step, hp]
      exact h
  | tick => exact inv_tick h h₀ hsafe
  | flushFails =>
    -- a flush is only ever under way when the superblock is stored
    have hphase := h.phase
    rw [step]
    cases hp : w.phase with
    | unmounted | quiet | scanning | rewrote => exact h
    | checkpointed =>
      exact inv_stop h h₀ (resumable_of_stored fun hl => by rw [reached, hp]; exact if_pos hl) trivial
    | flushing l =>
      rw [PhaseInv, hp] at hphase
      exact inv_stop h h₀ (resumable_of_stored fun _ => by rw [reached, hp]; exact hphase.2.1.symm)
        trivial
    | finishing l =>
      rw [PhaseInv, hp] at hphase
      exact inv_stop h h₀ (resumable_of_stored fun hl => by simp [hphase] at hl) trivial
  | crash => exact inv_stop h h₀ (hsafe trivial) trivial
  | reopen =>
    cases hp : w.phase with
    | unmounted => exact inv_reopen h h₀ hp
    | quiet | checkpointed | scanning | rewrote | flushing | finishing =>
      rw [step, hp]
      exact h

theorem inv_run {events : List MigrateEvent} (h : Inv d₀ w) (h₀ : LegacyImage d₀)
    (hsafe : ResumableRun w events) : Inv d₀ (run w events) := by
  induction events generalizing w with
  | nil => exact h
  | cons event events ih => exact ih (inv_step h h₀ hsafe.1) hsafe.2

theorem inv_start {mmap : ByteStore} (h₀ : LegacyImage d₀)
    (hcheck : checkpointJournal d₀.superblock d₀.mmap = .ok mmap) :
    Inv d₀ ⟨.checkpointed, { d₀ with mmap := mmap }⟩ := by
  have hv := SuperBlock.validated_of_ok h₀.valid
  have hversion := (Derived.legacy_version h₀.legacy).le
  obtain ⟨hm, hring⟩ := onRing_spec empties_checkpoint hv.blockSize_eq hcheck
  obtain ⟨hbitmap, hslot⟩ := Derived.headerOnly_apart hversion hm
  have hreach : reached ⟨.checkpointed, { d₀ with mmap := mmap }⟩ = 0 :=
    (if_pos h₀.legacy).trans h₀.cursor
  refine ⟨⟨rfl, hversion, hm.len, hbitmap, hring⟩, fun id _ hid => ?_, fun id _ _ => ?_, h₀.legacy⟩
  · rw [hreach] at hid
    omega
  · rw [hslot id]

theorem Inv.reads (h : Inv d₀ w) (h₀ : LegacyImage d₀) (hs : w.Settled) {id : Nat}
    (ha : d₀.InodeAllocated id) : w.image.readInodeInternal id = d₀.readInodeInternal id := by
  have hreach : w.reached = if w.image.superblock.isLegacyInodeFormat then
      w.image.superblock.migrationCursor else w.image.superblock.inodeCount := by
    rcases hs with hp | ⟨last, hp⟩
    · rw [reached, hp]
    · rw [reached, hp]
  have hdecode : decodeFor (w.image.slot id) (w.image.superblock.inodeRecordVersionFor id) =
      decodeV1 (d₀.slot id) := by
    by_cases hv1 : w.image.superblock.inodeRecordVersionFor id = SuperBlock.formatVersionLegacy
    · obtain ⟨hlegacy, hle⟩ := recordVersion_legacy_iff.mp hv1
      rw [hv1]
      exact h.pending id ha (by rw [hreach, if_pos hlegacy]; exact hle)
    · have hv2 : w.image.superblock.inodeRecordVersionFor id =
          SuperBlock.formatVersionFixedInode := by
        unfold SuperBlock.inodeRecordVersionFor at hv1 ⊢
        split at hv1
        next hc => exact if_pos hc
        next => exact absurd rfl hv1
      rw [recordVersion_legacy_iff] at hv1
      rw [hv2, ← Converted.decodeV2 (h.converted id ha ?_)]
      · rfl
      · have hid := ha.1
        rw [hreach, h.derived.inodeCount_eq]
        split
        next hl => exact Nat.not_le.mp fun hle => hv1 ⟨hl, hle⟩
        next => exact hid
  cases hrange : d₀.inodeSlotRange id with
  | error e =>
    rw [DiskImage.readInodeInternal, DiskImage.readInodeInternal, h.derived.inodeSlotRange_eq, hrange]
  | ok range =>
    rw [DiskImage.readInodeInternal_of_range hrange, h₀.recordVersion id, decodeFor_legacy,
      DiskImage.readInodeInternal_of_range ((h.derived.inodeSlotRange_eq id).trans hrange), hdecode]

/-- A crash at a point that is not resumable leaves a v2 record that is read as v1. -/
theorem Inv.misread (h : Inv d₀ w) (h₀ : LegacyImage d₀) {id : Nat} (ha : d₀.InodeAllocated id)
    (hversion : w.image.superblock.inodeRecordVersionFor id = SuperBlock.formatVersionLegacy)
    (hlt : id < w.reached)
    (hsmall : ∀ i, d₀.readInodeInternal id = .ok i → i.tripleIndirect < 2 ^ 41) :
    w.image.readInodeInternal id ≠ d₀.readInodeInternal id := by
  obtain ⟨inode, range, hrange, hdec, hslot⟩ := h.converted id ha hlt
  have hread := (DiskImage.readInodeInternal_v1 hrange (h₀.recordVersion id) inode).mpr hdec
  rw [hread]
  intro heq
  rw [DiskImage.readInodeInternal_v1 ((h.derived.inodeSlotRange_eq id).trans hrange) hversion,
    hslot] at heq
  exact decodeV1_encodeV2_ne (hsmall inode hread) heq

/-- In every run interrupted only at resumable points each allocated inode reads as before, and a
completed migration has stored them as v2 records; no other crash leaves them readable. -/
theorem run_keeps_inodes {d : DiskImage} {mmap : ByteStore} {w : Migration}
    {events : List MigrateEvent} (h : LegacyImage d)
    (hcheck : checkpointJournal d.superblock d.mmap = .ok mmap)
    (hrun : run ⟨.checkpointed, { d with mmap := mmap }⟩ events = w)
    (hsafe : ResumableRun ⟨.checkpointed, { d with mmap := mmap }⟩ events) :
    (w.Settled → ∀ id, d.InodeAllocated id →
      w.image.readInodeInternal id = d.readInodeInternal id) ∧
    (∀ stats, w.phase = .quiet (some (.ok stats)) →
      (∀ id, d.InodeAllocated id → ∃ inode, d.readInodeInternal id = .ok inode ∧
        w.image.slot id = encodeV2 inode) ∧
      ∃ version, w.step .call = ⟨.quiet (some (.ok ⟨version, version, 0, true⟩)), w.image⟩) ∧
    ((∀ id i, d.InodeAllocated id → d.readInodeInternal id = .ok i → i.tripleIndirect < 2 ^ 41) →
      ((∀ id, d.InodeAllocated id →
        (w.step .crash).image.readInodeInternal id = d.readInodeInternal id) ↔ w.Resumable)) := by
  have hi := inv_run (inv_start h hcheck) h hsafe
  rw [hrun] at hi
  refine ⟨fun hs id ha => hi.reads h hs ha, fun stats hp => ?_, fun hsmall => ⟨fun hreads => ?_, ?_⟩⟩
  · have hphase := hi.phase
    rw [PhaseInv, hp] at hphase
    have hreach : w.reached = d.superblock.inodeCount := by
      rw [reached, hp]
      exact (if_neg (by simp [hphase])).trans hi.derived.inodeCount_eq
    refine ⟨fun id ha => ?_, w.image.superblock.inodeRecordVersion, ?_⟩
    · obtain ⟨inode, range, hrange, hdec, hslot⟩ := hi.converted id ha (by rw [hreach]; exact ha.1)
      exact ⟨inode, (DiskImage.readInodeInternal_v1 hrange (h.recordVersion id) inode).mpr hdec, hslot⟩
    · rw [step, hp]
      dsimp only
      rw [call, if_pos (by simp [hphase])]
  · intro id halloc hversion
    by_contra hlt
    have ha := (hi.derived.inodeAllocated_same h id).mp halloc
    exact hi.misread h ha hversion (Nat.not_le.mp hlt) (fun i hread => hsmall id i ha hread)
      (hreads id ha)
  · intro hr id ha
    have hstop : Inv d ⟨.unmounted, w.image⟩ := inv_stop hi h hr trivial
    exact hstop.reads h (.inl rfl) ha

/-- No tick is interrupted if every allocated record can be read. -/
theorem Inv.tick_uninterrupted (h : Inv d₀ w)
    (hread : ∀ id, d₀.InodeAllocated id → ∃ i, d₀.readInodeInternal id = .ok i)
    (h₀ : LegacyImage d₀) : ¬w.Interrupts .tick := by
  rintro ⟨l, e, hp, hlt, hbit, herror⟩
  have hphase := h.phase
  rw [PhaseInv, hp] at hphase
  rw [h.derived.inodeCount_eq] at hlt
  have ha := (hphase.2.2 l.cursor hlt).mp hbit
  obtain ⟨i, hi⟩ := hread l.cursor ha
  have hdec := h.pending l.cursor ha (by rw [reached, hp])
  cases hrange : d₀.inodeSlotRange l.cursor with
  | error e' =>
    rw [DiskImage.readInodeInternal, hrange] at hi
    cases hi
  | ok range =>
    rw [(DiskImage.readInodeInternal_v1 hrange (h₀.recordVersion _) i).mp hi] at hdec
    have hrange' := (h.derived.inodeSlotRange_eq l.cursor).trans hrange
    obtain ⟨start, stop⟩ := range
    obtain ⟨rfl, hlen⟩ := DiskImage.inodeSlotRange_ok hrange'
    rw [DiskImage.slot] at hdec
    rw [DiskImage.rewriteSlot, hrange'] at herror
    dsimp only at herror
    rw [hlen, hdec] at herror
    cases herror

theorem resumableRun_ticks (h : Inv d₀ w) (h₀ : LegacyImage d₀)
    (hread : ∀ id, d₀.InodeAllocated id → ∃ i, d₀.readInodeInternal id = .ok i) (n : Nat) :
    ResumableRun w (List.replicate n .tick) := by
  induction n generalizing w with
  | zero => trivial
  | succ n ih =>
    have hsafe : w.Interrupts .tick → w.Resumable := fun hi => absurd hi (h.tick_uninterrupted hread h₀)
    exact ⟨hsafe, ih (inv_step h h₀ hsafe)⟩

def legacyDisk : DiskImage where
  superblock := {
    magic := SuperBlock.magicWord
    blockSize := 4096
    blockCount := 5
    inodeBitmapBlock := 1
    dataBitmapBlock := 2
    inodeTableBlock := 3
    inodeCount := 16
    dataBlockStart := 4
    rootInode := 0
    encrypted := false
    encryptionVersion := 0
    formatVersion := SuperBlock.formatVersionLegacy
    migrationCursor := 0 }
  mmap := ⟨20480, fun i => if i = 4096 ∨ i = 12288 then 1 else 0, by omega⟩

set_option maxRecDepth 4000 in
theorem legacyDisk_legacy : LegacyImage legacyDisk := ⟨by decide, rfl, rfl⟩

theorem legacyDisk_allocated : legacyDisk.InodeAllocated 0 :=
  ((Derived.inodeAllocated_block (by decide) rfl (by decide)).2 0).mpr ⟨by decide, by decide⟩

theorem legacyDisk_rewrite : ∃ inode d', legacyDisk.rewriteSlot 0 = .ok d' ∧
    (∃ range, legacyDisk.inodeSlotRange 0 = .ok range) ∧ decodeV1 (legacyDisk.slot 0) = .ok inode ∧
    inode.tripleIndirect = 0 ∧ d'.superblock = legacyDisk.superblock ∧
    d'.mmap.len = legacyDisk.mmap.len ∧ d'.slot 0 = encodeV2 inode := by
  cases h : legacyDisk.rewriteSlot 0 with
  | error e =>
    have hok : (legacyDisk.rewriteSlot 0).toOption.isSome = true := by decide +kernel
    rw [h] at hok
    cases hok
  | ok d' =>
    obtain ⟨inode, range, hrange, hdec, rfl, hslot, -⟩ := DiskImage.rewriteSlot_ok h
    exact ⟨inode, _, rfl, ⟨range, hrange⟩, hdec,
      (decodeV1_tripleIndirect hdec).trans (by decide +kernel), rfl, ByteStore.write_len .., hslot⟩

def rewrittenBy (w : Migration) : Option Nat :=
  match w.phase with
  | .quiet (some (.ok stats)) => some stats.inodesRewritten
  | _ => none

/-- A crash before the first rewrite, the mount after it, and a call that migrates the 16 slots. -/
theorem run_keeps_inodes_completed : ∃ w stats,
    run ⟨.checkpointed, legacyDisk⟩ (.crash :: .reopen :: .call :: List.replicate 35 .tick) = w ∧
    w.phase = .quiet (some (.ok stats)) ∧ stats.inodesRewritten = 1 ∧
    w.image.readInodeInternal 0 = legacyDisk.readInodeInternal 0 ∧
    ∃ inode, legacyDisk.readInodeInternal 0 = .ok inode ∧ w.image.slot 0 = encodeV2 inode := by
  generalize hrun : run ⟨.checkpointed, legacyDisk⟩
    (.crash :: .reopen :: .call :: List.replicate 35 .tick) = w
  have hdone : rewrittenBy w = some 1 := by
    rw [← hrun]
    decide +kernel
  obtain ⟨stats, hphase, hone⟩ : ∃ stats, w.phase = .quiet (some (.ok stats)) ∧
      stats.inodesRewritten = 1 := by
    unfold rewrittenBy at hdone
    split at hdone
    next stats hp => exact ⟨stats, hp, Option.some.inj hdone⟩
    next => cases hdone
  have hread : ∀ id, legacyDisk.InodeAllocated id → ∃ i, legacyDisk.readInodeInternal id = .ok i := by
    intro id ha
    obtain ⟨hlt, hbit⟩ := ((Derived.inodeAllocated_block (by decide) rfl (by decide)).2 id).mp ha
    have hroot : ∀ id < 16, (legacyDisk.mmap.sub blockSize blockSize).bit id = true → id = 0 := by
      decide
    rw [hroot id hlt hbit]
    obtain ⟨inode, -, -, ⟨range, hrange⟩, hdec, -⟩ := legacyDisk_rewrite
    exact ⟨inode, (DiskImage.readInodeInternal_v1 hrange (legacyDisk_legacy.recordVersion 0) inode).mpr hdec⟩
  have hsafe : ResumableRun ⟨.checkpointed, legacyDisk⟩
      (.crash :: .reopen :: .call :: List.replicate 35 .tick) := by
    have hstored : (⟨.checkpointed, legacyDisk⟩ : Migration).Resumable :=
      resumable_of_stored fun _ => rfl
    have hinv : Inv legacyDisk (run ⟨.checkpointed, legacyDisk⟩ [.crash, .reopen, .call]) :=
      inv_run (inv_start legacyDisk_legacy rfl) legacyDisk_legacy
        ⟨fun _ => hstored, fun h => h.elim, fun h => h.elim, trivial⟩
    exact ⟨fun _ => hstored, fun h => h.elim, fun h => h.elim,
      resumableRun_ticks hinv legacyDisk_legacy hread 35⟩
  obtain ⟨hreads, hcomplete, -⟩ := run_keeps_inodes legacyDisk_legacy rfl hrun hsafe
  exact ⟨w, stats, rfl, hphase, hone, hreads (.inr ⟨_, hphase⟩) 0 legacyDisk_allocated,
    (hcomplete stats hphase).1 0 legacyDisk_allocated⟩

/-- The root is rewritten, the process dies, and the next mount takes the v2 record for a v1 record.
-/
theorem interrupted_rewrite_misread : ∃ d w, LegacyImage d ∧
    checkpointJournal d.superblock d.mmap = .ok d.mmap ∧
    run ⟨.checkpointed, d⟩ [.tick, .tick, .crash, .reopen] = w ∧ w.Settled ∧
    d.InodeAllocated 0 ∧ w.image.readInodeInternal 0 ≠ d.readInodeInternal 0 := by
  obtain ⟨inode, d', hd', ⟨range, hrange⟩, hdec, hzero, hsb, hlen, hslot⟩ := legacyDisk_rewrite
  have hcopy : step ⟨.checkpointed, legacyDisk⟩ .tick =
      ⟨.scanning ⟨1, legacyDisk.mmap.sub blockSize blockSize, 0, 0⟩, legacyDisk⟩ := by
    rw [step, tick]
    dsimp only
    rw [(Derived.inodeAllocated_block (by decide) rfl (by decide)).1]
    rfl
  have hscan : step ⟨.scanning ⟨1, legacyDisk.mmap.sub blockSize blockSize, 0, 0⟩, legacyDisk⟩
      .tick = ⟨.rewrote ⟨1, legacyDisk.mmap.sub blockSize blockSize, 0, 1⟩, d'⟩ := by
    rw [step, tick]
    dsimp only
    rw [scan, if_pos (by decide), if_pos (by decide), hd']
  have hreopen : step ⟨.unmounted, d'⟩ .reopen = ⟨.quiet none, d'⟩ := by
    have hplain : d'.superblock.hasJournalLayout = false := by
      rw [hsb]
      decide
    rw [step]
    dsimp only
    rw [DiskImage.mount_plain (by rw [hsb]; rfl) (by rw [hsb, hlen]; exact legacyDisk_legacy.valid)
      hplain]
  refine ⟨legacyDisk, ⟨.quiet none, d'⟩, legacyDisk_legacy, rfl, ?_, Or.inr ⟨none, rfl⟩,
    legacyDisk_allocated, ?_⟩
  · rw [run, List.foldl_cons, hcopy, List.foldl_cons, hscan, List.foldl_cons, List.foldl_cons,
      List.foldl_nil, step.eq_def _ .crash]
    exact hreopen
  · have hrange' : d'.inodeSlotRange 0 = .ok range := by
      rw [← hrange, DiskImage.inodeSlotRange, DiskImage.inodeSlotRange, hsb, hlen]
    have hversion := hsb ▸ legacyDisk_legacy.recordVersion 0
    rw [(DiskImage.readInodeInternal_v1 hrange (legacyDisk_legacy.recordVersion 0) inode).mpr hdec]
    intro heq
    rw [DiskImage.readInodeInternal_v1 hrange' hversion, hslot] at heq
    exact decodeV1_encodeV2_ne (by rw [hzero]; decide) heq

end Migration
end Oifs
