import Oifs.BitmapScan
import Oifs.DirectoryBlocks
import Oifs.DirectoryOps
import Oifs.InodeCache
import Oifs.InodeSlots
import Oifs.Interleaving
import Oifs.Outcome
import Oifs.RingAppend
import Oifs.WriteStages

namespace Oifs

/-! The inode cache in front of the inode table, through reads, writes, journaled transactions and
deletions. -/

/-- The image with the cache in front of its inode table. -/
structure CachedDisk where
  image : DiskImage
  inodeCache : BoundedInodeCache

abbrev CacheM := EStateM DiskError CachedDisk

abbrev InodeRecord := { inode : Inode // inode.Fits }

/-- An operation that a transaction logs besides the inode records. -/
abbrev PlainOp := { op : MetadataOp // ∀ id bytes, op ≠ .writeInode id bytes }

/-- `commit_journal_tx`; in strict mode the flush of the ring may fail. -/
def commitJournalTx (rs : RunSort) (flushed : Bool) (sb : SuperBlock) (ops : List MetadataOp) :
    EStateM DiskError ByteStore Unit := fun mmap =>
  if !sb.hasJournalLayout then .ok () mmap
  else
    match journalRegion mmap sb with
    | .error e => .error e mmap
    | .ok region =>
      match JournalRing.attach region sb.blockSize with
      | .error e => .error (.journal e) mmap
      | .ok ring =>
        match ring.append rs ops with
        | .error e => .error (.journal e) mmap
        | .ok (_, ring) =>
          let mmap := mmap.overlay (journalRegionStart sb.blockSize) ring.region
          if flushed then .ok () mmap else .error (.io "flush failed") mmap

namespace CachedDisk

def setMmap (s : CachedDisk) (mmap : ByteStore) : CachedDisk :=
  { s with image := { s.image with mmap := mmap } }

def readInodeInternal (inodeId : Nat) : CacheM Inode := fun s =>
  match s.inodeCache.get inodeId with
  | some cached => .ok cached s
  | none =>
    match s.image.readInodeInternal inodeId with
    | .error e => .error e s
    | .ok inode => .ok inode { s with inodeCache := s.inodeCache.insert inodeId inode }

def writeInodeInternal (inodeId : Nat) (inode : Inode) : CacheM Unit := fun s =>
  match s.image.inodeSlotRange inodeId with
  | .error e => .error e s
  | .ok (start, _) =>
    .ok () { s.setMmap (s.image.mmap.write start (s.image.encodeInodeSlot inodeId inode).val) with
      inodeCache := s.inodeCache.insert inodeId inode }

def postImage (d : DiskImage) (w : Nat × InodeRecord) : MetadataOp :=
  .writeInode (UInt64.ofNat w.1) (d.encodeInodeSlot w.1 w.2.val)

def insertRecords (c : BoundedInodeCache) (writes : List (Nat × InodeRecord)) : BoundedInodeCache :=
  writes.foldl (fun c w => c.insert w.1 w.2.val) c

/-- The end of the journaled calls: the post-images are built, the transaction is logged and
applied, and the cache is brought up to date. -/
def transact (rs : RunSort) (flushed : Bool) (ops : List PlainOp) (writes : List (Nat × InodeRecord))
    (removed : Option Nat) : CacheM Unit := fun s =>
  let sb := s.image.superblock
  let all := ops.map Subtype.val ++ writes.map (postImage s.image)
  match (commitJournalTx rs flushed sb all >>= fun _ => redoAll sb all) s.image.mmap with
  | .error e mmap => .error e (s.setMmap mmap)
  | .ok () mmap =>
    .ok () { s.setMmap mmap with
      inodeCache := insertRecords (removed.elim s.inodeCache s.inodeCache.remove) writes }

def lift {α : Type} (r : Except DiskError α) : CacheM α := fun s =>
  match r with
  | .ok a => .ok a s
  | .error e => .error e s

def updateJournaled (rs : RunSort) (flushed : Bool) (inodeId : Nat)
    (change : Inode → Except DiskError (List PlainOp × InodeRecord)) : CacheM Unit := do
  let inode ← readInodeInternal inodeId
  let (ops, record) ← lift (change inode)
  transact rs flushed ops [(inodeId, record)] none

/-- `create_entry_journaled`: the new inode is the first free one of the table. -/
def createJournaled (rs : RunSort) (flushed : Bool) (freeInodeHint parent : Nat) (new : InodeRecord)
    (change : Inode → Nat → Except DiskError (List PlainOp × InodeRecord)) : CacheM Unit := do
  let dir ← readInodeInternal parent
  let s ← get
  match s.image.inodeBitmapSlice with
  | none => throw (.io "inode bitmap not found")
  | some slice =>
    match Bitmap.findNextFreeBounded slice freeInodeHint s.image.superblock.usableInodeCount with
    | none => throw .noSpace
    | some newId => do
      let (ops, record) ← lift (change dir newId)
      transact rs flushed ops [(newId, new), (parent, record)] none

/-- `delete_file_journaled`. -/
def deleteJournaled (rs : RunSort) (flushed : Bool) (parent target : Nat)
    (change : Inode → Inode → Except DiskError (List PlainOp × InodeRecord)) : CacheM Unit := do
  let dir ← readInodeInternal parent
  let victim ← readInodeInternal target
  let (ops, record) ← lift (change dir victim)
  transact rs flushed ops [(parent, record)] (some target)

def checkpoint : CacheM Unit := fun s =>
  match checkpointJournal s.image.superblock s.image.mmap with
  | .error e => .error e s
  | .ok mmap => .ok () (s.setMmap mmap)

def view (d : DiskImage) : Volume where
  superblock := d.superblock
  mapBlocks := d.mmap.len / blockSize
  inodeBit id := d.mmap.bit (d.superblock.inodeBitmapBlock * blockSize * 8 + id)
  dataBit k := d.mmap.bit (d.superblock.dataBitmapBlock * blockSize * 8 + k)
  inode id := InodeFormat.decodeFor (d.slot id) (d.superblock.inodeRecordVersionFor id)
  block b k := d.mmap.byte (b * blockSize + k)
  freeBlockHint := 0
  freeInodeHint := 0

def rewriteDirEntriesInBlock (b : Nat) (entries : List DirectoryEntry) : CacheM Unit := fun s =>
  if s.image.mmap.len / blockSize ≤ b then .error (.io "Directory block not found") s
  else
    let (f, r) := serializeAll entries (fun _ => 0) 0
    let s := s.setMmap (s.image.mmap.write (b * blockSize) (bytesOf f 0 blockSize))
    match r with
    | .ok _ => .ok () s
    | .error e => .error e.toDisk s

def clearBit (bitmapBlock bit : Nat) (mmap : ByteStore) : ByteStore :=
  mmap.overlay (bitmapBlock * blockSize)
    (Bitmap.clear (mmap.sub (bitmapBlock * blockSize) blockSize) bit)

def freeBlock (sb : SuperBlock) (mmap : ByteStore) (b : Nat) : ByteStore :=
  if b < sb.dataBlockStart then mmap else clearBit sb.dataBitmapBlock (b - sb.dataBlockStart) mmap

def releaseInode (inodeId : Nat) (inode : Inode) (s : CachedDisk) : CachedDisk :=
  let sb := s.image.superblock
  let mmap := ((view s.image).collectInodeBlocks inode).foldl (freeBlock sb) s.image.mmap
  s.setMmap (clearBit sb.inodeBitmapBlock inodeId mmap)

def refindTarget (S : DirSession) (parent : Nat) (dir : Inode) (name : String) (target : DeleteTarget) :
    CacheM (DeleteTarget × List DirectoryEntry) := do
  let s ← get
  let raw ← lift ((view s.image).readDirEntriesFromBlock target.block)
  if raw.any (·.name = target.name) then return (target, raw.filter (·.name ≠ target.name))
  else
    let target ← lift (S.locateTarget (view s.image) parent dir name)
    let raw ← lift ((view s.image).readDirEntriesFromBlock target.block)
    return (target, raw.filter (·.name ≠ target.name))

/-- `delete_file` on an image without a journal. -/
def deleteInPlace (S : DirSession) (now : Nat) (parent : Nat) (name : String) : CacheM Unit := do
  lift ((validateFilename name).mapError DirectoryError.toDisk)
  let dir ← readInodeInternal parent
  if dir.mode ≠ .directory then throw (.io "Not a directory")
  else
    let target ← lift (S.locateTarget (view (← get).image) parent dir name)
    let dir ← readInodeInternal parent
    if dir.mode ≠ .directory then throw (.io "Not a directory")
    else
      let (target, remaining) ← refindTarget S parent dir name target
      let victim ← readInodeInternal target.id
      lift (DirSession.checkEmptyDir (view (← get).image) victim)
      rewriteDirEntriesInBlock target.block remaining
      let victim ← readInodeInternal target.id
      modify (releaseInode target.id victim)
      modify fun s => { s with inodeCache := s.inodeCache.remove target.id }
      writeInodeInternal parent { dir with modifiedAt := now }

/-- A call that only looks answers as the call on the volume that the image shows. -/
def Shows {α : Type} (s : CachedDisk) (m : Mounted) (x : CacheM α) (y : MountM α) : Prop :=
  (∃ a, x s = .ok a s ∧ y m = .ok a m) ∨ ∃ e, x s = .error e s ∧ y m = .error e m

theorem Shows.bind {α β : Type} {s : CachedDisk} {m : Mounted} {x : CacheM α} {y : MountM α}
    {f : α → CacheM β} {g : α → MountM β} (h : Shows s m x y) (hf : ∀ a, Shows s m (f a) (g a)) :
    Shows s m (x >>= f) (y >>= g) := by
  rcases h with ⟨a, hx, hy⟩ | ⟨e, hx, hy⟩
  · have hrest := hf a
    unfold Shows at hrest ⊢
    change (∃ b, EStateM.bind x f s = _ ∧ EStateM.bind y g m = _) ∨
      ∃ e, EStateM.bind x f s = _ ∧ EStateM.bind y g m = _
    rwa [EStateM.bind, EStateM.bind, hx, hy]
  · exact Or.inr ⟨e, Outcome.bind_error.mpr (Or.inl hx), Outcome.bind_error.mpr (Or.inl hy)⟩

theorem shows_lift {α : Type} (s : CachedDisk) {m : Mounted} (hm : m.volume = view s.image)
    (f : Volume → Except DiskError α) : Shows s m (lift (f (view s.image))) (readVolume f) := by
  unfold Shows lift readVolume
  rw [hm]
  cases f (view s.image) with
  | ok a => exact Or.inl ⟨a, rfl, rfl⟩
  | error e => exact Or.inr ⟨e, rfl, rfl⟩

/-- A deletion finds its target again as on the volume. -/
theorem refindTarget_shows (S : DirSession) (parent : Nat) (dir : Inode) (name : String)
    (t : DeleteTarget) (s : CachedDisk) {m : Mounted} (hm : m.volume = view s.image) :
    Shows s m (refindTarget S parent dir name t) (S.refindTarget parent dir name t) := by
  change Shows s m (lift _ >>= _) _
  refine (shows_lift s hm fun v => v.readDirEntriesFromBlock t.block).bind fun raw => ?_
  split
  next => exact Or.inl ⟨_, rfl, rfl⟩
  next =>
    refine (shows_lift s hm fun v => S.locateTarget v parent dir name).bind fun t' => ?_
    exact (shows_lift s hm fun v => v.readDirEntriesFromBlock t'.block).bind fun raw' =>
      Or.inl ⟨_, rfl, rfl⟩

/-- One call on the image. -/
inductive Event where
  | read (inodeId : Nat)
  | write (inodeId : Nat) (record : InodeRecord)
  | update (flushed : Bool) (inodeId : Nat)
    (change : Inode → Except DiskError (List PlainOp × InodeRecord))
  | create (flushed : Bool) (freeInodeHint parent : Nat) (new : InodeRecord)
    (change : Inode → Nat → Except DiskError (List PlainOp × InodeRecord))
  | delete (flushed : Bool) (parent target : Nat)
    (change : Inode → Inode → Except DiskError (List PlainOp × InodeRecord))
  | deleteInPlace (S : DirSession) (now : UInt64) (parent : Nat) (name : String)
  | checkpoint
  | clear

def Event.call (rs : RunSort) : Event → CacheM Unit
  | read inodeId => readInodeInternal inodeId >>= fun _ => pure ()
  | write inodeId record => writeInodeInternal inodeId record.val
  | update flushed inodeId change => updateJournaled rs flushed inodeId change
  | create flushed hint parent new change => createJournaled rs flushed hint parent new change
  | delete flushed parent target change => deleteJournaled rs flushed parent target change
  | deleteInPlace S now parent name => do
    if (← get).image.superblock.hasJournalLayout then return ()
    else CachedDisk.deleteInPlace S now.toNat parent name
  | checkpoint => CachedDisk.checkpoint
  | clear => modify fun s => { s with inodeCache := s.inodeCache.clear }

def step (rs : RunSort) (s : CachedDisk) (e : Event) : Option CachedDisk :=
  some (Outcome.finalState (e.call rs s))

/-- No block of the directory that a deletion in place works on is a block of the inode table. -/
def Tame (s : CachedDisk) : Event → Prop
  | .deleteInPlace _ _ parent _ => ∀ dir, s.image.readInodeInternal parent = .ok dir →
      ∀ b ∈ (view s.image).dirBlocks dir,
        b < s.image.superblock.inodeTableBlock ∨ s.image.superblock.dataBlockStart ≤ b
  | _ => True

/-- What the cache holds is what the slots hold, and no shard is fuller than it may be. -/
structure Coherent (s : CachedDisk) : Prop where
  valid : s.image.superblock.Validated s.image.mmap.len
  sound : s.inodeCache.Sound
  agrees : ∀ id inode, s.inodeCache.get id = some inode → s.image.readInodeInternal id = .ok inode

section Keep

open Outcome

variable {s t : CachedDisk} {id : Nat} {inode : Inode} {mmap : ByteStore}

theorem Coherent.insert (h : Coherent s) (hread : s.image.readInodeInternal id = .ok inode) :
    Coherent { s with inodeCache := s.inodeCache.insert id inode } := by
  refine ⟨h.valid, h.sound.insert, ?_⟩
  intro j record hget
  rcases BoundedInodeCache.get_insert hget with ⟨rfl, rfl⟩ | ⟨-, hold⟩
  · exact hread
  · exact h.agrees j record hold

theorem Coherent.remove (h : Coherent s) (id : Nat) :
    Coherent { s with inodeCache := s.inodeCache.remove id } :=
  ⟨h.valid, h.sound.remove, fun j record hget =>
    h.agrees j record (BoundedInodeCache.get_remove hget).2⟩

theorem Coherent.setMmap (h : Coherent s)
    (hmap : s.image.mmap.ChangesOnly mmap s.image.superblock.OutsideTable) :
    Coherent (s.setMmap mmap) := by
  refine ⟨?_, h.sound, ?_⟩
  · change s.image.superblock.Validated mmap.len
    rw [hmap.1]
    exact h.valid
  · intro j record hget
    have hread := DiskImage.readInodeInternal_congr h.valid hmap j
    exact hread.trans (h.agrees j record hget)

theorem readInodeInternal_runs (h : Coherent s) :
    Runs Coherent (readInodeInternal id) s fun inode s' =>
      s'.image = s.image ∧ s.image.readInodeInternal id = .ok inode := by
  unfold Runs readInodeInternal
  cases hget : s.inodeCache.get id with
  | some cached => exact ⟨h, rfl, h.agrees id cached hget⟩
  | none =>
    cases hread : s.image.readInodeInternal id with
    | error e => exact h
    | ok inode => exact ⟨h.insert hread, rfl, rfl⟩

theorem lift_runs {α : Type} {r : Except DiskError α} (h : Coherent s) :
    Runs Coherent (lift r) s fun a s' => r = .ok a ∧ s = s' := by
  unfold Runs lift
  cases r with
  | ok a => exact ⟨h, rfl, rfl⟩
  | error e => exact h

theorem writeInodeInternal_runs (h : Coherent s) (hfits : inode.Fits) :
    Runs Coherent (writeInodeInternal id inode) s fun _ _ => True := by
  unfold Runs writeInodeInternal
  cases hrange : s.image.inodeSlotRange id with
  | error e => exact h
  | ok range =>
    have hid := DiskImage.inodeSlotRange_usable hrange
    rw [DiskImage.inodeSlotRange_of_lt h.valid hid] at hrange
    cases hrange
    refine ⟨⟨h.valid, h.sound.insert, ?_⟩, trivial⟩
    intro j record hget
    rcases BoundedInodeCache.get_insert hget with ⟨rfl, rfl⟩ | ⟨hne, hold⟩
    · exact DiskImage.readInodeInternal_write_self h.valid hid
        (DiskImage.decodeFor_encodeInodeSlot hfits)
    · exact (DiskImage.readInodeInternal_write_other h.valid hne _).trans (h.agrees j record hold)

end Keep

section Transactions

open Outcome

variable {s : CachedDisk} {sb : SuperBlock} {mmap : ByteStore}

theorem append_region_len {rs : RunSort} {r r' : JournalRing} {ops : List MetadataOp} {seq : UInt64}
    (h : r.append rs ops = .ok (seq, r')) : r'.region.len = r.region.len := by
  unfold JournalRing.append at h
  dsimp only at h
  split at h
  next => cases h
  next =>
    cases h
    rw [JournalRing.persist_region_len, JournalRing.store_region, ByteStore.write_len,
      (JournalRing.place_frame r _).2.2]

theorem commitJournalTx_runs {rs : RunSort} {flushed : Bool} {ops : List MetadataOp}
    (hv : sb.Validated mmap.len) :
    Runs (mmap.ChangesOnly · sb.OutsideTable) (commitJournalTx rs flushed sb ops) mmap
      fun _ _ => True := by
  have hrefl := ByteStore.ChangesOnly.refl mmap sb.OutsideTable
  unfold Runs commitJournalTx
  by_cases hj : sb.hasJournalLayout = true
  · rw [if_neg (by simp [hj])]
    split
    next => exact hrefl
    next region hregion =>
      split
      next => exact hrefl
      next ring hattach =>
        split
        next => exact hrefl
        next seq ring' happend =>
          have hout : mmap.ChangesOnly
              (mmap.overlay (journalRegionStart sb.blockSize) ring'.region) sb.OutsideTable := by
            obtain ⟨hfits, rfl⟩ := journalRegion_ok hregion
            obtain ⟨state, -, rfl⟩ := JournalRing.attach_ok hattach
            have hring : ring'.region.len = journalRegionLen sb.blockSize := by
              rw [append_region_len happend]
              exact ByteStore.sub_len (by omega)
            have hbefore := Nat.mul_le_mul_right Oifs.blockSize (journal_before_table hv hj)
            apply ByteStore.changesOnly_overlay
            intro i _ hi
            rw [hring, hv.blockSize_eq] at hi
            rw [Nat.add_mul] at hbefore
            exact .inl (Nat.lt_of_lt_of_le hi hbefore)
          split
          next => exact ⟨hout, trivial⟩
          next => exact hout
  · rw [if_pos (by simp [hj])]
    exact ⟨hrefl, trivial⟩

theorem regionOf_plain {op : MetadataOp} (hv : sb.Validated mmap.len)
    (hop : ∀ id bytes, op ≠ .writeInode id bytes) {i : Nat} (hi : sb.regionOf op i) :
    sb.OutsideTable i := by
  have hbs := hv.blockSize_eq
  cases op with
  | writeInode id bytes => exact absurd rfl (hop id bytes)
  | setInodeBitmap id allocated =>
    have htable := Nat.mul_le_mul_right sb.blockSize (Nat.le_of_lt hv.bitmap_lt_table)
    rw [hbs] at htable
    exact .inl (Nat.lt_of_lt_of_le (hbs ▸ hi.2.2) htable)
  | setDataBitmap id allocated => exact .inl (hbs ▸ hi.2.2)
  | setDataBitmapRange start count allocated => exact .inl (hbs ▸ hi.2.2)
  | writeBlockSlice id offset data => exact .inr (hbs ▸ hi.2.2.1)

theorem redoAll_plain_runs {ops : List PlainOp} (hv : sb.Validated mmap.len) {m : ByteStore}
    (hm : mmap.ChangesOnly m sb.OutsideTable) :
    Runs (mmap.ChangesOnly · sb.OutsideTable) (redoAll sb (ops.map Subtype.val)) m
      fun _ _ => True := by
  induction ops generalizing m with
  | nil => exact ⟨hm, trivial⟩
  | cons op ops ih =>
    rw [List.map_cons]
    unfold Runs redoAll
    cases happly : applyOpInPlace sb m op.val with
    | error e => exact hm
    | ok m' =>
      have hvm : sb.Validated m.len := by
        rw [hm.1]
        exact hv
      have hslot : sb.SlotBacked m.len op.val := by
        cases hop : op.val with
        | writeInode id bytes => exact absurd hop (op.property id bytes)
        | _ => trivial
      have hstep := applyOpInPlace_changesOnly hvm hslot happly
      exact ih (hm.trans (hstep.mono fun i hi => regionOf_plain hv op.property hi))

theorem redoAll_append (a b : List MetadataOp) :
    redoAll sb (a ++ b) = redoAll sb a >>= fun _ => redoAll sb b := by
  funext m
  induction a generalizing m with
  | nil => rfl
  | cons op ops ih =>
    change redoAll sb (op :: (ops ++ b)) m = EStateM.bind (redoAll sb (op :: ops)) _ m
    unfold EStateM.bind redoAll
    cases applyOpInPlace sb m op with
    | error e => rfl
    | ok m' => exact ih m'

theorem usable_lt_word {id : Nat} (h : id < sb.usableInodeCount) : id < 2 ^ 64 := by
  have hle : sb.usableInodeCount ≤ SuperBlock.maxTrackedInodes := Nat.min_le_right _ _
  exact Nat.lt_of_lt_of_le h (Nat.le_trans hle (by decide))

theorem applyOp_postImage {d : DiskImage} {w : Nat × InodeRecord} {m : ByteStore}
    (hv : d.superblock.Validated m.len) (hid : w.1 < d.superblock.usableInodeCount) :
    applyOpInPlace d.superblock m (postImage d w) =
      .ok (m.write (d.superblock.slotOffset w.1) (d.encodeInodeSlot w.1 w.2.val).val) := by
  have hnat : (UInt64.ofNat w.1).toNat = w.1 := UInt64.toNat_ofNat_of_lt' (usable_lt_word hid)
  have hcap := DiskImage.usable_le_capacity d.superblock hid
  have hend := hv.slot_le_data hcap.1
  have hdata := Nat.mul_le_mul_right d.superblock.blockSize (Nat.le_of_lt hv.data_lt_count)
  have hfits := hv.fits
  rw [← hv.blockSize_eq] at hfits
  have happly : applyOpInPlace d.superblock m (postImage d w) = _ :=
    applyOpInPlace_writeInode (by rw [hnat]; exact hcap.2) (by rw [hnat]; omega)
  rw [hnat, hv.blockSize_eq] at happly
  exact happly

/-- The records of a transaction are written one after another; the insertions that follow put the
cache right. -/
theorem redoAll_writes {d : DiskImage} {writes : List (Nat × InodeRecord)}
    (hids : ∀ w ∈ writes, w.1 < d.superblock.usableInodeCount) {m : ByteStore}
    {c : BoundedInodeCache} (hv : d.superblock.Validated m.len)
    (hagrees : ∀ id inode, id ∉ writes.map Prod.fst → c.get id = some inode →
      ({ d with mmap := m } : DiskImage).readInodeInternal id = .ok inode) :
    ∃ m', redoAll d.superblock (writes.map (postImage d)) m = .ok () m' ∧ m'.len = m.len ∧
      ∀ id inode, (insertRecords c writes).get id = some inode →
        ({ d with mmap := m' } : DiskImage).readInodeInternal id = .ok inode := by
  induction writes generalizing m c with
  | nil => exact ⟨m, rfl, rfl, fun id inode hget => hagrees id inode List.not_mem_nil hget⟩
  | cons w ws ih =>
    have hid := hids w List.mem_cons_self
    let bytes := d.encodeInodeSlot w.1 w.2.val
    have hmid : ∀ id inode, id ∉ ws.map Prod.fst → (c.insert w.1 w.2.val).get id = some inode →
        ({ d with mmap := m.write (d.superblock.slotOffset w.1) bytes.val } :
          DiskImage).readInodeInternal id = .ok inode := by
      intro id inode hnot hget
      rcases BoundedInodeCache.get_insert hget with ⟨rfl, rfl⟩ | ⟨hne, hold⟩
      · exact DiskImage.readInodeInternal_write_self (d := { d with mmap := m }) hv hid
          (DiskImage.decodeFor_encodeInodeSlot w.2.property)
      · have hother := DiskImage.readInodeInternal_write_other (d := { d with mmap := m }) hv hne bytes
        refine hother.trans (hagrees id inode ?_ hold)
        rw [List.map_cons, List.mem_cons]
        rintro (heq | hmem)
        · exact hne heq
        · exact hnot hmem
    obtain ⟨m', hredo, hlen, hend⟩ :=
      ih (fun w' hw' => hids w' (List.mem_cons_of_mem w hw'))
        (m := m.write (d.superblock.slotOffset w.1) bytes.val) hv hmid
    refine ⟨m', ?_, hlen, hend⟩
    rw [List.map_cons, redoAll, applyOp_postImage hv hid]
    exact hredo

theorem sound_insertRecords {c : BoundedInodeCache} (h : c.Sound)
    (writes : List (Nat × InodeRecord)) : (insertRecords c writes).Sound := by
  induction writes generalizing c with
  | nil => exact h
  | cons w ws ih => exact ih h.insert

theorem transact_runs {rs : RunSort} {flushed : Bool} {ops : List PlainOp}
    {writes : List (Nat × InodeRecord)} {removed : Option Nat} (h : Coherent s)
    (hids : ∀ w ∈ writes, w.1 < s.image.superblock.usableInodeCount) :
    Runs Coherent (transact rs flushed ops writes removed) s fun _ _ => True := by
  let d := s.image
  let c := removed.elim s.inodeCache s.inodeCache.remove
  have hc : c.Sound ∧ ∀ id inode, c.get id = some inode → d.readInodeInternal id = .ok inode := by
    cases removed with
    | none => exact ⟨h.sound, h.agrees⟩
    | some target => exact ⟨(h.remove target).sound, (h.remove target).agrees⟩
  have hlog : Yields (d.mmap.ChangesOnly · d.superblock.OutsideTable)
      (commitJournalTx rs flushed d.superblock
          (ops.map Subtype.val ++ writes.map (postImage d)) >>= fun _ =>
        redoAll d.superblock (ops.map Subtype.val ++ writes.map (postImage d))) d.mmap
      fun _ m => m.len = d.mmap.len ∧ ∀ id inode, (insertRecords c writes).get id = some inode →
        ({ d with mmap := m } : DiskImage).readInodeInternal id = .ok inode := by
    refine (Yields.of_runs (commitJournalTx_runs h.valid)).bind fun _ m₁ h₁ => ?_
    rw [redoAll_append]
    refine (Yields.of_runs (redoAll_plain_runs h.valid h₁.1)).bind fun _ m₂ h₂ => ?_
    have hv : d.superblock.Validated m₂.len := by
      rw [h₂.1.1]
      exact h.valid
    obtain ⟨m', hredo, hlen, hend⟩ := redoAll_writes (d := d) (c := c) hids hv
      fun id inode _ hget =>
        (DiskImage.readInodeInternal_congr h.valid h₂.1 id).trans (hc.2 id inode hget)
    unfold Yields
    rw [hredo]
    exact ⟨hlen.trans h₂.1.1, hend⟩
  unfold Yields at hlog
  unfold Runs transact
  dsimp only
  generalize (commitJournalTx rs flushed s.image.superblock _ >>= _) s.image.mmap = r at hlog ⊢
  cases r with
  | error e m => exact h.setMmap hlog
  | ok _ m =>
    refine ⟨⟨?_, sound_insertRecords hc.1 writes, hlog.2⟩, trivial⟩
    change d.superblock.Validated m.len
    rw [hlog.1]
    exact h.valid

end Transactions

section Calls

open Outcome

variable {s : CachedDisk} {rs : RunSort} {flushed : Bool}

theorem updateJournaled_runs {id : Nat}
    {change : Inode → Except DiskError (List PlainOp × InodeRecord)} (h : Coherent s) :
    Runs Coherent (updateJournaled rs flushed id change) s fun _ _ => True := by
  refine (readInodeInternal_runs h).bind ?_
  rintro inode s₁ h₁ ⟨himage, hread⟩
  refine (lift_runs h₁).read fun ⟨ops, record⟩ _ => ?_
  apply transact_runs h₁
  intro w hw
  rw [List.mem_singleton.mp hw, himage]
  exact DiskImage.readInodeInternal_usable hread

theorem createJournaled_runs {hint parent : Nat} {new : InodeRecord}
    {change : Inode → Nat → Except DiskError (List PlainOp × InodeRecord)} (h : Coherent s) :
    Runs Coherent (createJournaled rs flushed hint parent new change) s fun _ _ => True := by
  refine (readInodeInternal_runs h).bind ?_
  rintro dir s₁ h₁ ⟨himage, hread⟩
  refine Runs.get_bind ?_
  split
  next => exact Runs.throw h₁
  next slice hslice =>
    split
    next => exact Runs.throw h₁
    next newId hfound =>
      refine (lift_runs h₁).read fun ⟨ops, record⟩ _ => ?_
      apply transact_runs h₁
      intro w hw
      rcases List.mem_pair.mp hw with rfl | rfl
      · have hfinds := Bitmap.finds_bounded slice hint s₁.image.superblock.usableInodeCount
        rw [hfound] at hfinds
        exact hfinds.1
      · rw [himage]
        exact DiskImage.readInodeInternal_usable hread

theorem deleteJournaled_runs {parent target : Nat}
    {change : Inode → Inode → Except DiskError (List PlainOp × InodeRecord)} (h : Coherent s) :
    Runs Coherent (deleteJournaled rs flushed parent target change) s fun _ _ => True := by
  refine (readInodeInternal_runs h).bind ?_
  rintro dir s₁ h₁ ⟨himage, hread⟩
  refine (readInodeInternal_runs h₁).bind ?_
  rintro victim s₂ h₂ ⟨himage₂, -⟩
  refine (lift_runs h₂).read fun ⟨ops, record⟩ _ => ?_
  apply transact_runs h₂
  intro w hw
  rw [List.mem_singleton.mp hw, himage₂, himage]
  exact DiskImage.readInodeInternal_usable hread

theorem checkpoint_runs (h : Coherent s) : Runs Coherent checkpoint s fun _ _ => True := by
  unfold Runs checkpoint
  split
  next => exact h
  next mmap hring =>
    refine ⟨h.setMmap ?_, trivial⟩
    obtain ⟨hheader, -⟩ := onRing_spec empties_checkpoint h.valid.blockSize_eq hring
    refine ⟨hheader.len, fun i hi => ?_⟩
    by_contra hin
    refine hi (hheader.byte i fun hj => ?_)
    have hbefore := Nat.mul_le_mul_right blockSize (journal_before_table h.valid hj)
    have hheaderLen : journalHeaderLen ≤ journalReservedBlocks * blockSize := by decide
    unfold SuperBlock.OutsideTable at hin
    unfold journalRegionStart
    rw [Nat.add_mul] at hbefore
    omega

theorem clearBit_changesOnly {sb : SuperBlock} {mmap : ByteStore} {bitmapBlock : Nat} (bit : Nat)
    (h : bitmapBlock < sb.inodeTableBlock) :
    mmap.ChangesOnly (clearBit bitmapBlock bit mmap) sb.OutsideTable := by
  apply ByteStore.changesOnly_overlay
  intro i _ hi
  have hlen : (Bitmap.clear (mmap.sub (bitmapBlock * blockSize) blockSize) bit).len ≤ blockSize := by
    rw [Bitmap.clear, Bitmap.put_len]
    exact Nat.min_le_left _ _
  have hend := Nat.mul_le_mul_right blockSize h
  rw [Nat.succ_mul] at hend
  exact .inl (by omega)

theorem freeBlocks_changesOnly {sb : SuperBlock} {mmap : ByteStore} (hv : sb.Validated mmap.len)
    (blocks : List Nat) :
    mmap.ChangesOnly (blocks.foldl (freeBlock sb) mmap) sb.OutsideTable := by
  induction blocks generalizing mmap with
  | nil => exact ByteStore.ChangesOnly.refl _ _
  | cons b bs ih =>
    have hstep : mmap.ChangesOnly (freeBlock sb mmap b) sb.OutsideTable := by
      unfold freeBlock
      split
      next => exact ByteStore.ChangesOnly.refl _ _
      next => exact clearBit_changesOnly _ hv.bitmap_lt_table
    refine hstep.trans (ih ?_)
    rw [hstep.1]
    exact hv

theorem Coherent.releaseInode (h : Coherent s) (id : Nat) (inode : Inode) :
    Coherent (releaseInode id inode s) := by
  have hfree := freeBlocks_changesOnly h.valid ((view s.image).collectInodeBlocks inode)
  apply h.setMmap
  refine hfree.trans (clearBit_changesOnly id ?_)
  rw [h.valid.inodeBitmap_eq]
  exact Nat.lt_trans (by rw [h.valid.dataBitmap_eq]; decide) h.valid.bitmap_lt_table

theorem locateTarget_block {S : DirSession} {v : Volume} {parent : Nat} {dir : Inode}
    {name : String} {t : DeleteTarget}
    (h : S.locateTarget v parent dir name = .ok t) : t.block ∈ v.dirBlocks dir := by
  unfold DirSession.locateTarget at h
  split at h
  next t' hfind =>
    cases h
    obtain ⟨c, -, hc⟩ := List.exists_of_findSome?_eq_some hfind
    obtain ⟨⟨id, b⟩, hloc, rfl⟩ := Option.map_eq_some_iff.mp hc
    obtain ⟨b', hb', hfound⟩ := List.exists_of_findSome?_eq_some hloc
    split at hfound
    next =>
      obtain ⟨_, -, hpair⟩ := Option.map_eq_some_iff.mp hfound
      cases hpair
      exact hb'
    next => cases hfound
  next => cases h

theorem refindTarget_runs {S : DirSession} {parent : Nat} {dir : Inode} {name : String}
    {t : DeleteTarget} (h : Coherent s) (ht : t.block ∈ (view s.image).dirBlocks dir) :
    Runs Coherent (refindTarget S parent dir name t) s
      fun r s' => s = s' ∧ r.1.block ∈ (view s.image).dirBlocks dir := by
  refine Runs.get_bind ?_
  refine (lift_runs h).read fun raw _ => ?_
  split
  next => exact Runs.pure h ⟨rfl, ht⟩
  next =>
    refine (lift_runs h).read fun t' ht' => ?_
    refine (lift_runs h).read fun raw' _ => ?_
    exact Runs.pure h ⟨rfl, locateTarget_block ht'⟩

theorem rewriteDirEntriesInBlock_runs {b : Nat} {entries : List DirectoryEntry} (h : Coherent s)
    (hb : b < s.image.superblock.inodeTableBlock ∨ s.image.superblock.dataBlockStart ≤ b) :
    Runs Coherent (rewriteDirEntriesInBlock b entries) s fun _ _ => True := by
  unfold Runs rewriteDirEntriesInBlock
  split
  next => exact h
  next =>
    obtain ⟨f, r⟩ := serializeAll entries (fun _ => 0) 0
    have hwrite : Coherent
        (s.setMmap (s.image.mmap.write (b * blockSize) (bytesOf f 0 blockSize))) := by
      apply h.setMmap
      apply ByteStore.changesOnly_write
      intro i hlo hhi
      rw [bytesOf_length] at hhi
      rcases hb with hbefore | hbehind
      · have hend := Nat.mul_le_mul_right blockSize hbefore
        rw [Nat.succ_mul] at hend
        exact .inl (by omega)
      · exact .inr (Nat.le_trans (Nat.mul_le_mul_right blockSize hbehind) hlo)
    cases r with
    | ok _ => exact ⟨hwrite, trivial⟩
    | error e => exact hwrite

theorem deleteInPlace_runs {S : DirSession} {now : UInt64} {parent : Nat} {name : String}
    (h : Coherent s) (htame : Tame s (.deleteInPlace S now parent name)) :
    Runs Coherent (deleteInPlace S now.toNat parent name) s fun _ _ => True := by
  refine (lift_runs h).read fun _ _ => ?_
  refine (readInodeInternal_runs h).bind ?_
  rintro dir s₁ h₁ ⟨himage₁, hread⟩
  split
  next => exact Runs.throw h₁
  next =>
    refine Runs.get_bind ?_
    refine (lift_runs h₁).read fun t ht => ?_
    refine (readInodeInternal_runs h₁).bind ?_
    rintro dir' s₂ h₂ ⟨himage₂, hread'⟩
    rw [himage₁, hread] at hread'
    cases hread'
    split
    next => exact Runs.throw h₂
    next =>
      have hblock := locateTarget_block ht
      rw [← himage₂] at hblock
      refine (refindTarget_runs h₂ hblock).bind ?_
      rintro ⟨t', remaining⟩ _ - ⟨rfl, hblock'⟩
      rw [himage₂, himage₁] at hblock'
      refine (readInodeInternal_runs h₂).bind ?_
      rintro victim s₃ h₃ ⟨himage₃, -⟩
      refine Runs.get_bind ?_
      refine (lift_runs h₃).read fun _ _ => ?_
      have hplace := htame dir hread t'.block hblock'
      rw [← himage₁, ← himage₂, ← himage₃] at hplace
      refine (rewriteDirEntriesInBlock_runs h₃ hplace).bind fun _ s₄ h₄ _ => ?_
      refine (readInodeInternal_runs h₄).bind fun victim' s₅ h₅ _ => ?_
      refine (Runs.modify (h₅.releaseInode t'.id victim')).bind fun _ s₆ h₆ _ => ?_
      refine (Runs.modify (h₆.remove t'.id)).bind fun _ s₇ h₇ _ => ?_
      refine writeInodeInternal_runs h₇ ?_
      have hfits := DiskImage.readInodeInternal_fits h.valid hread
      exact { hfits with modifiedAt := now.toNat_lt }

theorem call_runs {e : Event} (h : Coherent s) (htame : Tame s e) :
    Runs Coherent (e.call rs) s fun _ _ => True := by
  cases e with
  | read id => exact (readInodeInternal_runs h).bind fun _ s' h' _ => Runs.pure h' trivial
  | write id record => exact writeInodeInternal_runs h record.property
  | update flushed id change => exact updateJournaled_runs h
  | create flushed hint parent new change => exact createJournaled_runs h
  | delete flushed parent target change => exact deleteJournaled_runs h
  | deleteInPlace S now parent name =>
    refine Runs.get_bind ?_
    split
    next => exact Runs.pure h trivial
    next => exact deleteInPlace_runs h htame
  | checkpoint => exact checkpoint_runs h
  | clear =>
    have hclear : Coherent { s with inodeCache := s.inodeCache.clear } := by
      refine ⟨h.valid, BoundedInodeCache.sound_clear _, ?_⟩
      intro id inode hget
      rw [BoundedInodeCache.get_clear] at hget
      cases hget
    exact (Runs.modify hclear).mono fun _ _ _ _ => trivial

end Calls

/-- As long as no deletion meets a directory in the inode table, the cache agrees with the slots and
no shard outgrows its capacity. -/
theorem cache_agrees {rs : RunSort} {d : DiskImage} {capacity : Nat} {events : List Event}
    {s : CachedDisk} (hvalid : d.superblock.validate d.mmap.len = .ok ())
    (hrun : Interleaving.run (step rs) ⟨d, .withCapacity capacity⟩ events = some s)
    (htame : Interleaving.Meets (step rs) Tame ⟨d, .withCapacity capacity⟩ events) :
    (∀ id inode, s.inodeCache.get id = some inode → s.image.readInodeInternal id = .ok inode) ∧
      ∀ k, (s.inodeCache.shards k).map.keys.length ≤ (s.inodeCache.shards k).capacity := by
  have hstart : Coherent ⟨d, .withCapacity capacity⟩ := by
    refine ⟨SuperBlock.validated_of_ok hvalid, BoundedInodeCache.sound_withCapacity capacity, ?_⟩
    intro id inode hget
    rw [BoundedInodeCache.get_withCapacity] at hget
    cases hget
  have hstep : ∀ {s e t}, Coherent s → Tame s e → step rs s e = some t → Coherent t := by
    intro s e t hs he hst
    cases hst
    exact (call_runs hs he).final
  have hend := Interleaving.run_keeps hstep hstart htame hrun
  exact ⟨hend.agrees, fun k => (hend.sound k).size_le⟩

/-- A valid image whose root directory has one entry, for inode 5. Inode 2 is a file of five bytes.
-/
def oneBlockRoot (b : Nat) : DiskImage where
  superblock := { legacySuper with
    inodeCount := 16
    rootInode := 1
    formatVersion := SuperBlock.formatVersionFixedInode }
  mmap :=
    (((⟨32768, fun _ => 0, by decide⟩ : ByteStore).write (b * blockSize)
      [5, 0, 0, 0, 0, 0, 0, 0, 0, 0, 0, 0, 0, 0, 0, 0, 1, 0, 97]).write 12544
      (InodeFormat.encodeV2 { (Inode.new .directory).setSlot 0 b with size := blockSize })).write 12800
      (InodeFormat.encodeV2 { Inode.new .file with size := 5 })

theorem oneBlockRoot_dirBlocks {dir : Inode} (h : (oneBlockRoot 5).readInodeInternal 1 = .ok dir) :
    (view (oneBlockRoot 5)).dirBlocks dir = [5] := by
  have hblocks : ((oneBlockRoot 5).readInodeInternal 1).map (view (oneBlockRoot 5)).dirBlocks =
      .ok [5] := by decide +kernel
  rw [h] at hblocks
  exact Except.ok.inj hblocks

/-- The root directory has a block of the data area. -/
theorem cache_agrees_root : ∃ s, Interleaving.run (step RunSort.stable)
      ⟨oneBlockRoot 5, .withCapacity 4⟩ [.deleteInPlace plainDirSession 0 1 "a", .read 2] = some s ∧
    (∀ id inode, s.inodeCache.get id = some inode → s.image.readInodeInternal id = .ok inode) ∧
      ∀ k, (s.inodeCache.shards k).map.keys.length ≤ (s.inodeCache.shards k).capacity := by
  have htame : Interleaving.Meets (step RunSort.stable) Tame ⟨oneBlockRoot 5, .withCapacity 4⟩
      [.deleteInPlace plainDirSession 0 1 "a", .read 2] := by
    refine ⟨?_, fun _ _ => ⟨trivial, fun _ _ => trivial⟩⟩
    intro dir hdir b hb
    rw [oneBlockRoot_dirBlocks hdir, List.mem_singleton] at hb
    subst hb
    exact .inr (by decide)
  exact ⟨_, rfl, cache_agrees (by decide) rfl htame⟩

/-- The root directory has block 3, the inode table: deleting the entry leaves zeros in the slots,
and the cache goes on with the file. -/
theorem delete_in_table_stales_cache :
    (oneBlockRoot 3).superblock.validate (oneBlockRoot 3).mmap.len = .ok () ∧
    ∃ s, Interleaving.run (step RunSort.stable) ⟨oneBlockRoot 3, .withCapacity 4⟩
        [.read 2, .deleteInPlace plainDirSession 0 1 "a"] = some s ∧
      (s.inodeCache.get 2).map (·.size) = some 5 ∧
      (s.image.readInodeInternal 2).map (·.size) = .ok 0 := by
  refine ⟨by decide, _, rfl, ?_⟩
  decide +kernel

end CachedDisk

end Oifs
