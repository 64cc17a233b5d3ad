import Oifs.ApplyOp
import Oifs.InodeFormat
import Oifs.RingRecovery

namespace Oifs

/-- The errors of the disk manager. `inodeDecode` is the I/O error that carries the text of the
decoder's. -/
inductive DiskError where
  | io (text : String)
  /-- An I/O error of the kind that callers tell apart. -/
  | alreadyExists (text : String)
  | journal (e : JournalError)
  | inodeFormat (e : InodeFormatError)
  | inodeDecode (e : InodeFormatError)
  | corruptedSuperblock (text : String)
  | invalidMagic
  | noSpace
  | passwordRequired
  | decryptionFailed
  deriving DecidableEq

def journalRegionLen (blockSize : Nat) : Nat := journalReservedBlocks * blockSize

def journalRegionStart (blockSize : Nat) : Nat := journalHeaderBlock * blockSize

def journalRegion (mmap : ByteStore) (sb : SuperBlock) : Except DiskError ByteStore :=
  let start := journalRegionStart sb.blockSize
  let len := journalRegionLen sb.blockSize
  if start + len > mmap.len then .error (.io "Journal region does not fit in image")
  else .ok (mmap.sub start len)

def onRing (f : JournalRing → JournalRing) (sb : SuperBlock) (mmap : ByteStore) :
    Except DiskError ByteStore :=
  if !sb.hasJournalLayout then .ok mmap
  else
    match journalRegion mmap sb with
    | .error e => .error e
    | .ok region =>
      match JournalRing.attach region sb.blockSize with
      | .error e => .error (.journal e)
      | .ok ring => .ok (mmap.overlay (journalRegionStart sb.blockSize) (f ring).region)

def checkpointJournal : SuperBlock → ByteStore → Except DiskError ByteStore :=
  onRing JournalRing.checkpoint

def markJournalClean : SuperBlock → ByteStore → Except DiskError ByteStore :=
  onRing JournalRing.markCleanShutdown

/-- The second phase of `recover_journal`. What was applied before an error stays. -/
def redoAll (sb : SuperBlock) : List MetadataOp → EStateM DiskError ByteStore Unit
  | [], mmap => .ok () mmap
  | op :: ops, mmap =>
    match applyOpInPlace sb mmap op with
    | .error e => .error (.journal e) mmap
    | .ok mmap' => redoAll sb ops mmap'

/-- `recover_journal`: operations are collected from a copy of the region and redone, the ring is
reset. -/
def recoverJournal (sb : SuperBlock) : EStateM DiskError ByteStore Nat := fun mmap =>
  if !sb.hasJournalLayout then .ok 0 mmap
  else
    match journalRegion mmap sb with
    | .error e => .error e mmap
    | .ok snapshot =>
      match JournalRing.attach snapshot sb.blockSize with
      | .error e => .error (.journal e) mmap
      | .ok ring =>
        match ring.recover (fun ops op => .ok (ops ++ [op])) [] with
        | .error e => .error (.journal e) mmap
        | .ok (ops, ring, txCount) =>
          match redoAll sb ops mmap with
          | .error e mmap => .error e mmap
          | .ok _ mmap =>
            let state : JournalState := ⟨0, 0, ring.state.txSeq, true⟩
            let headerLen := min sb.blockSize journalHeaderLen
            .ok txCount (mmap.write (journalRegionStart sb.blockSize) (state.encode.take headerLen))

/-- The mapped image and the superblock that its first block holds. -/
structure DiskImage where
  superblock : SuperBlock
  mmap : ByteStore

namespace DiskImage

def inodeBitmapSlice (d : DiskImage) : Option ByteStore :=
  let start := d.superblock.inodeBitmapBlock * blockSize
  let len := d.superblock.inodeBitmapBlocks * blockSize
  if start + len > d.mmap.len then none else some (d.mmap.sub start len)

/-- `inode_slot_range`. The sums only grow, so one test stands for their overflow checks. -/
def inodeSlotRange (d : DiskImage) (inodeId : Nat) : Except DiskError (Nat × Nat) :=
  let usable := d.superblock.usableInodeCount
  if inodeId ≥ usable then
    .error (.io s!"Inode id {inodeId} is outside the inode table ({usable} usable inodes)")
  else
    let offset := d.superblock.inodeTableBlock * blockSize + inodeId * inodeSlotSize
    if offset + inodeSlotSize ≥ 2 ^ 64 then .error (.io "Offset overflow")
    else if offset + inodeSlotSize > d.mmap.len then .error (.io "Bounds")
    else .ok (offset, offset + inodeSlotSize)

def readInodeInternal (d : DiskImage) (inodeId : Nat) : Except DiskError Inode :=
  match d.inodeSlotRange inodeId with
  | .error e => .error e
  | .ok (start, stop) =>
    match InodeFormat.decodeFor (d.mmap.read start (stop - start))
        (d.superblock.inodeRecordVersionFor inodeId) with
    | .error e => .error (.inodeDecode e)
    | .ok inode => .ok inode

/-- The part of `open` for an existing image that touches the mapping. -/
def mount : EStateM DiskError DiskImage Unit := fun d =>
  if d.superblock.magic ≠ SuperBlock.magicWord then .error .invalidMagic d
  else
    match d.superblock.validate d.mmap.len with
    | .error text => .error (.corruptedSuperblock text) d
    | .ok _ =>
      match recoverJournal d.superblock d.mmap with
      | .error e mmap => .error e { d with mmap := mmap }
      | .ok _ mmap =>
        match markJournalClean d.superblock mmap with
        | .error e => .error e { d with mmap := mmap }
        | .ok mmap => .ok () { d with mmap := mmap }

end DiskImage

namespace JournalRing

theorem attach_ok {region : ByteStore} {bs : Nat} {r : JournalRing} (h : attach region bs = .ok r) :
    ∃ state, JournalState.decode (region.read 0 bs) = some state ∧
      r = ⟨region, bs, journalRingBytes bs, state, none⟩ := by
  unfold attach at h
  split at h
  next => cases h
  next =>
    split at h
    next => cases h
    next state hdec =>
      dsimp only at h
      split at h
      next => cases h
      next =>
        split at h
        next => cases h
        next =>
          cases h
          exact ⟨state, hdec, rfl⟩

theorem attach_of_decode {region : ByteStore} {bs : Nat} {state : JournalState}
    (hdec : JournalState.decode (region.read 0 bs) = some state)
    (hfits : bs + journalRingBytes bs ≤ region.len) :
    attach region bs = .ok ⟨region, bs, journalRingBytes bs, state, none⟩ := by
  have hlen := region.len_lt
  rw [attach, if_neg (by omega), hdec]
  dsimp only
  rw [if_neg (by omega), if_neg (by omega)]

theorem checkpoint_cases (r : JournalRing) :
    (r.checkpoint = r ∧ r.state.head % r.ringBytes = r.state.tail % r.ringBytes) ∨
      (r.ringBytes = 0 ∧ r.checkpoint = r) ∨
      r.checkpoint = (r.setTail (r.state.head % r.ringBytes)).persist := by
  unfold checkpoint checkpointTo
  by_cases hzero : r.ringBytes = 0
  · rw [if_pos hzero]
    exact Or.inr (Or.inl ⟨hzero, rfl⟩)
  · rw [if_neg hzero]
    dsimp only
    split
    next heq => exact Or.inl ⟨rfl, heq⟩
    next =>
      have hdist : (r.state.head % r.ringBytes + r.ringBytes -
          r.state.head % r.ringBytes % r.ringBytes) % r.ringBytes = 0 := by
        rw [Nat.mod_mod, Nat.add_sub_cancel_left, Nat.mod_self]
      rw [if_pos (by rw [hdist]; exact Nat.zero_le _)]
      exact Or.inr (Or.inr rfl)

end JournalRing

theorem JournalState.decode_lt {bytes : List UInt8} {s : JournalState} (h : decode bytes = some s) :
    s.head < 2 ^ 64 ∧ s.tail < 2 ^ 64 := by
  unfold decode at h
  repeat' split at h
  all_goals cases h
  exact ⟨UInt64.toNat_lt _, UInt64.toNat_lt _⟩

/-- The journal region fits and its header says that nothing is pending. -/
structure EmptyRing (mmap : ByteStore) : Prop where
  fits : journalRegionStart blockSize + journalRegionLen blockSize ≤ mmap.len
  stored : ∃ st, JournalState.decode (mmap.read (journalRegionStart blockSize) blockSize) = some st ∧
    st.head % journalRingBytes blockSize = st.tail % journalRingBytes blockSize

/-- The images differ in the bytes of the journal header at most, and only where there is one. -/
structure HeaderOnly (sb : SuperBlock) (mmap mmap' : ByteStore) : Prop where
  len : mmap'.len = mmap.len
  byte : ∀ i, (sb.hasJournalLayout → i < journalRegionStart blockSize ∨
    journalRegionStart blockSize + journalHeaderLen ≤ i) → mmap'.byte i = mmap.byte i

namespace HeaderOnly

variable {sb : SuperBlock} {mmap a b c : ByteStore}

theorem refl : HeaderOnly sb mmap mmap := ⟨rfl, fun _ _ => rfl⟩

theorem trans (hab : HeaderOnly sb a b) (hbc : HeaderOnly sb b c) : HeaderOnly sb a c :=
  ⟨hbc.len.trans hab.len, fun i hi => (hbc.byte i hi).trans (hab.byte i hi)⟩

theorem write (h : sb.hasJournalLayout) (st : JournalState) :
    HeaderOnly sb mmap (mmap.write (journalRegionStart blockSize) st.encode) :=
  ⟨rfl, fun _ hi => ByteStore.write_byte_out (by
    rw [JournalState.encode_length]
    exact hi h)⟩

end HeaderOnly

theorem EmptyRing.congr {mmap mmap' : ByteStore} (h : EmptyRing mmap) (hlen : mmap'.len = mmap.len)
    (hbyte : ∀ i, journalRegionStart blockSize ≤ i → i < journalRegionStart blockSize + blockSize →
      mmap'.byte i = mmap.byte i) : EmptyRing mmap' :=
  ⟨hlen ▸ h.fits, by rw [ByteStore.read_congr hbyte]; exact h.stored⟩

theorem emptyRing_write {mmap : ByteStore} {st : JournalState}
    (hfits : journalRegionStart blockSize + journalRegionLen blockSize ≤ mmap.len)
    (hh : st.head < 2 ^ 64) (ht : st.tail < 2 ^ 64)
    (heq : st.head % journalRingBytes blockSize = st.tail % journalRingBytes blockSize) :
    EmptyRing (mmap.write (journalRegionStart blockSize) st.encode) := by
  refine ⟨hfits, st, ?_, heq⟩
  rw [show blockSize = st.encode.length + (blockSize - journalHeaderLen) by
    rw [JournalState.encode_length]; rfl, ByteStore.read_add, ByteStore.read_write_self]
  exact JournalState.decode_encode _ hh ht

def Empties (f : JournalRing → JournalRing) : Prop :=
  ∀ r : JournalRing, r.blockSize = blockSize → r.ringBytes = journalRingBytes blockSize →
    r.state.head < 2 ^ 64 →
    ((f r).region = r.region ∧ r.state.head % r.ringBytes = r.state.tail % r.ringBytes) ∨
      ∃ st : JournalState, (f r).region = r.region.write 0 st.encode ∧ st.head < 2 ^ 64 ∧
        st.tail < 2 ^ 64 ∧ st.head % r.ringBytes = st.tail % r.ringBytes

theorem persist_region {r : JournalRing} (h : r.blockSize = blockSize) :
    r.persist.region = r.region.write 0 r.state.encode := by
  rw [JournalRing.persist, if_pos (by rw [h]; decide)]

theorem empties_checkpoint : Empties JournalRing.checkpoint := by
  intro r hbs hring hh
  rcases r.checkpoint_cases with ⟨hsame, heq⟩ | ⟨hzero, -⟩ | hset
  · rw [hsame]
    exact Or.inl ⟨rfl, heq⟩
  · rw [hring] at hzero
    exact absurd hzero (by decide)
  · refine Or.inr ⟨(r.setTail (r.state.head % r.ringBytes)).state, ?_, hh, ?_, ?_⟩
    · rw [hset]
      exact persist_region hbs
    · exact Nat.lt_of_le_of_lt (Nat.mod_le _ _) hh
    · exact (Nat.mod_mod _ _).symm

theorem empties_markCleanShutdown : Empties JournalRing.markCleanShutdown := by
  intro r hbs _ _
  exact Or.inr ⟨⟨0, 0, r.state.txSeq, true⟩, persist_region hbs, Nat.two_pow_pos _, Nat.two_pow_pos _,
    rfl⟩

theorem journalRegion_ok {mmap region : ByteStore} {sb : SuperBlock}
    (h : journalRegion mmap sb = .ok region) :
    journalRegionStart sb.blockSize + journalRegionLen sb.blockSize ≤ mmap.len ∧
      region = mmap.sub (journalRegionStart sb.blockSize) (journalRegionLen sb.blockSize) := by
  unfold journalRegion at h
  dsimp only at h
  split at h
  next => cases h
  next hfits =>
    cases h
    exact ⟨Nat.not_lt.mp hfits, rfl⟩

theorem read_region (mmap : ByteStore) :
    (mmap.sub (journalRegionStart blockSize) (journalRegionLen blockSize)).read 0 blockSize =
      mmap.read (journalRegionStart blockSize) blockSize := by
  simp [ByteStore.read]

theorem onRing_spec {f : JournalRing → JournalRing} {sb : SuperBlock} {mmap mmap' : ByteStore}
    (hf : Empties f) (hbs : sb.blockSize = blockSize) (h : onRing f sb mmap = .ok mmap') :
    HeaderOnly sb mmap mmap' ∧ (sb.hasJournalLayout → EmptyRing mmap') := by
  unfold onRing at h
  split at h
  next hplain =>
    cases h
    refine ⟨HeaderOnly.refl, fun hj => ?_⟩
    simp [hj] at hplain
  next hjournal =>
    split at h
    next => cases h
    next region hregion =>
      split at h
      next => cases h
      next ring hring =>
        cases h
        obtain ⟨hfits, rfl⟩ := journalRegion_ok hregion
        obtain ⟨state, hdec, rfl⟩ := JournalRing.attach_ok hring
        rw [hbs] at hfits hdec ⊢
        rw [read_region] at hdec
        have hlt := JournalState.decode_lt hdec
        rcases hf ⟨mmap.sub (journalRegionStart blockSize) (journalRegionLen blockSize), blockSize,
          journalRingBytes blockSize, state, none⟩ rfl rfl hlt.1 with ⟨hsame, heq⟩ | ⟨st, hst, hh, ht, heq⟩
        · rw [hsame, ByteStore.overlay_sub]
          exact ⟨HeaderOnly.refl, fun _ => ⟨hfits, state, hdec, heq⟩⟩
        · rw [hst]
          dsimp only
          rw [ByteStore.overlay_sub_write (by omega) (by
            rw [JournalState.encode_length]; decide), Nat.add_zero]
          exact ⟨HeaderOnly.write (by simpa using hjournal) st, fun _ => emptyRing_write hfits hh ht heq⟩

theorem JournalRing.handed_of_mod_eq {r : JournalRing}
    (h : r.state.head % r.ringBytes = r.state.tail % r.ringBytes) : r.handed = [] := by
  unfold handed
  split
  next => rfl
  next => rw [h, CircularLog.walk, if_neg (by simp)]

theorem EmptyRing.attaches {mmap : ByteStore} {sb : SuperBlock} (h : EmptyRing mmap)
    (hbs : sb.blockSize = blockSize) : ∃ region ring, journalRegion mmap sb = .ok region ∧
      JournalRing.attach region sb.blockSize = .ok ring ∧ ring.handed = [] := by
  have hfits := h.fits
  obtain ⟨st, hdec, heq⟩ := h.stored
  have hlen : (mmap.sub (journalRegionStart blockSize) (journalRegionLen blockSize)).len =
      journalRegionLen blockSize := ByteStore.sub_len (by omega)
  refine ⟨mmap.sub (journalRegionStart blockSize) (journalRegionLen blockSize),
    ⟨mmap.sub (journalRegionStart blockSize) (journalRegionLen blockSize), blockSize,
      journalRingBytes blockSize, st, none⟩, ?_, ?_, JournalRing.handed_of_mod_eq heq⟩
  · rw [journalRegion, hbs, if_neg (by omega)]
  · rw [hbs]
    exact JournalRing.attach_of_decode (by rw [read_region]; exact hdec) (by rw [hlen]; decide)

theorem recoverJournal_of_empty {sb : SuperBlock} {mmap : ByteStore} (hbs : sb.blockSize = blockSize)
    (h : sb.hasJournalLayout → EmptyRing mmap) : ∃ mmap', recoverJournal sb mmap = .ok 0 mmap' ∧
      HeaderOnly sb mmap mmap' ∧ (sb.hasJournalLayout → EmptyRing mmap') := by
  by_cases hj : sb.hasJournalLayout
  · have hempty := h hj
    obtain ⟨region, ring, hregion, hattach, hnone⟩ := hempty.attaches hbs
    have hrec : ring.recover (fun ops op => .ok (ops ++ [op])) ([] : List MetadataOp) =
        .ok ([], ring.markCleanShutdown, 0) := by
      rw [JournalRing.recover_eq, hnone]
      rfl
    refine ⟨mmap.write (journalRegionStart blockSize)
      (JournalState.encode ⟨0, 0, ring.markCleanShutdown.state.txSeq, true⟩), ?_,
      HeaderOnly.write hj _, fun _ => emptyRing_write hempty.fits (Nat.two_pow_pos _)
        (Nat.two_pow_pos _) rfl⟩
    have hhead : min blockSize journalHeaderLen = journalHeaderLen := rfl
    rw [recoverJournal, hj, hregion, hbs]
    rw [hbs] at hattach
    simp only [hattach, hrec, redoAll, hhead, Bool.not_true, Bool.false_eq_true, if_false]
    rw [List.take_of_length_le (by rw [JournalState.encode_length])]
  · refine ⟨mmap, ?_, HeaderOnly.refl, fun hj' => absurd hj' hj⟩
    rw [recoverJournal, if_pos (by simpa using hj)]

theorem onRing_of_empty {f : JournalRing → JournalRing} {sb : SuperBlock} {mmap : ByteStore}
    (hf : Empties f) (hbs : sb.blockSize = blockSize) (h : sb.hasJournalLayout → EmptyRing mmap) :
    ∃ mmap', onRing f sb mmap = .ok mmap' ∧ HeaderOnly sb mmap mmap' ∧
      (sb.hasJournalLayout → EmptyRing mmap') := by
  have hok : ∃ mmap', onRing f sb mmap = .ok mmap' := by
    by_cases hj : sb.hasJournalLayout
    · obtain ⟨region, ring, hregion, hattach, -⟩ := (h hj).attaches hbs
      refine ⟨mmap.overlay (journalRegionStart sb.blockSize) (f ring).region, ?_⟩
      rw [onRing, hj, hregion]
      simp only [hattach, Bool.not_true, Bool.false_eq_true, if_false]
    · exact ⟨mmap, by rw [onRing, if_pos (by simpa using hj)]⟩
  obtain ⟨mmap', hmmap⟩ := hok
  exact ⟨mmap', hmmap, onRing_spec hf hbs hmmap⟩

theorem DiskImage.mount_of_empty {d : DiskImage} (hbs : d.superblock.blockSize = blockSize)
    (h : d.superblock.hasJournalLayout → EmptyRing d.mmap) :
    ∃ mmap', HeaderOnly d.superblock d.mmap mmap' ∧ (d.superblock.hasJournalLayout → EmptyRing mmap') ∧
      (d.mount = .ok () { d with mmap := mmap' } ∨
        ∃ e, d.mount = .error e { d with mmap := mmap' }) := by
  unfold mount
  split
  next => exact ⟨d.mmap, HeaderOnly.refl, h, Or.inr ⟨_, rfl⟩⟩
  next =>
    split
    next => exact ⟨d.mmap, HeaderOnly.refl, h, Or.inr ⟨_, rfl⟩⟩
    next =>
      obtain ⟨mid, hrec, hmid, hempty⟩ := recoverJournal_of_empty hbs h
      obtain ⟨last, hmark, hlast, hempty'⟩ := onRing_of_empty empties_markCleanShutdown hbs hempty
      rw [hrec]
      dsimp only
      rw [markJournalClean, hmark]
      exact ⟨last, hmid.trans hlast, hempty', Or.inl rfl⟩

theorem DiskImage.mount_plain {d : DiskImage} (hmagic : d.superblock.magic = SuperBlock.magicWord)
    (hvalid : d.superblock.validate d.mmap.len = .ok ())
    (hplain : d.superblock.hasJournalLayout = false) : d.mount = .ok () d := by
  simp only [mount, hmagic, hvalid, recoverJournal, markJournalClean, onRing, hplain, ne_eq,
    not_true_eq_false, Bool.not_false, if_true, if_false]

end Oifs
