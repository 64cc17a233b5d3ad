import Oifs.JournaledCalls

namespace Oifs

namespace MountM

variable {α β : Type} {m m' : Mounted}

theorem readVolume_ok {f : Volume → Except DiskError α} {a : α} :
    readVolume f m = .ok a m' ↔ f m.volume = .ok a ∧ m = m' := by
  unfold readVolume
  cases f m.volume with
  | ok b => simp
  | error e => simp

theorem onVolume_error {x : DiskM α} {e : DiskError} :
    onVolume x m = .error e m' ↔ ∃ v, x m.volume = .error e v ∧ { m with volume := v } = m' := by
  unfold onVolume
  cases x m.volume with
  | ok b v => simp
  | error e v => simp

theorem onVolume_ok {x : DiskM α} {a : α} :
    onVolume x m = .ok a m' ↔ ∃ v, x m.volume = .ok a v ∧ { m with volume := v } = m' := by
  unfold onVolume
  cases x m.volume with
  | ok b v => simp
  | error e v => simp

end MountM

/-! What a deletion is about. -/

namespace Volume

variable {v : Volume} {inode : Inode}

def listing (v : Volume) (inode : Inode) : Except DiskError (List DirectoryEntry) :=
  v.readDirEntries (v.dirBlocks inode)

def laterBlocks (v : Volume) (inode : Inode) : List Nat :=
  ((List.range' 1 (dirNumBlocks inode - 1)).map (v.resolveLogicalBlockId inode)).filter (· ≠ 0)

theorem readDirEntries_eq_nil {bs : List Nat} :
    v.readDirEntries bs = .ok [] ↔ ∀ b ∈ bs, v.readDirEntriesFromBlock b = .ok [] := by
  induction bs with
  | nil => simp [readDirEntries]
  | cons b bs ih =>
    rw [readDirEntries, List.forall_mem_cons, ← ih, except_bind_ok]
    constructor
    · rintro ⟨entries, hfirst, hrest⟩
      obtain ⟨rest, hread, hall⟩ := except_bind_ok.mp hrest
      obtain ⟨rfl, rfl⟩ := List.append_eq_nil_iff.mp (except_pure_ok.mp hall)
      exact ⟨hfirst, hread⟩
    · rintro ⟨hfirst, hread⟩
      exact ⟨[], hfirst, except_bind_ok.mpr ⟨[], hread, rfl⟩⟩

theorem dirBlocks_eq (h : 0 < dirNumBlocks inode) : v.dirBlocks inode =
    (if inode.slot 0 ≠ 0 then [inode.slot 0] else []) ++ v.laterBlocks inode := by
  have hrange : List.range (dirNumBlocks inode) =
      0 :: List.range' 1 (dirNumBlocks inode - 1) := by
    obtain ⟨n, hn⟩ : ∃ n, dirNumBlocks inode = n + 1 := ⟨dirNumBlocks inode - 1, by omega⟩
    rw [hn, List.range_eq_range', List.range'_succ]
    rfl
  have hzero : v.resolveLogicalBlockId inode 0 = inode.slot 0 := rfl
  rw [dirBlocks, hrange, List.map_cons, hzero, laterBlocks, List.filter_cons]
  by_cases hslot : inode.slot 0 = 0
  · simp [hslot]
  · simp [hslot]

theorem listing_eq_nil_iff (hfirst : inode.slot 0 ≠ 0 →
      v.readDirEntriesFromBlock (inode.slot 0) = .ok []) :
    v.listing inode = .ok [] ↔
      ∀ b ∈ v.laterBlocks inode, v.readDirEntriesFromBlock b = .ok [] := by
  rw [listing, readDirEntries_eq_nil]
  rcases Nat.eq_zero_or_pos (dirNumBlocks inode) with hzero | hpos
  · simp [dirBlocks, laterBlocks, hzero]
  · rw [dirBlocks_eq hpos]
    constructor
    · intro hall b hb
      exact hall b (List.mem_append_right _ hb)
    · intro hall b hb
      rcases List.mem_append.mp hb with hb | hb
      · split at hb
        next hslot =>
          rw [List.mem_singleton.mp hb]
          exact hfirst hslot
        next => cases hb
      · exact hall b hb

end Volume

theorem listDir_nil_iff {S : DirSession} {m : Mounted} {id : Nat} (hnone : m.dirCache id = none) :
    (∃ m', S.listDir id m = .ok [] m') ↔ ∃ inode, m.volume.readInodeInternal id = .ok inode ∧
      inode.mode = .directory ∧ m.volume.listing inode = .ok [] := by
  constructor
  · rintro ⟨m', h⟩
    obtain ⟨inode, _, hrecord, h⟩ := DiskM.bind_ok.mp h
    obtain ⟨hread, rfl⟩ := MountM.readVolume_ok.mp hrecord
    obtain ⟨_, _, hget, h⟩ := DiskM.bind_ok.mp h
    obtain ⟨rfl, rfl⟩ := DiskM.get_ok.mp hget
    split at h
    next => exact (DiskM.throw_ok.mp h).elim
    next hdir =>
      rw [hnone] at h
      obtain ⟨raw, _, hscan, h⟩ := DiskM.bind_ok.mp h
      obtain ⟨hlist, rfl⟩ := MountM.readVolume_ok.mp hscan
      obtain ⟨_, _, -, h⟩ := DiskM.bind_ok.mp h
      obtain ⟨hmap, -⟩ := DiskM.pure_ok.mp h
      rw [List.map_eq_nil_iff.mp hmap] at hlist
      exact ⟨inode, hread, not_not.mp hdir, hlist⟩
  · rintro ⟨inode, hread, hdir, hlist⟩
    refine ⟨m.setIndex id (some { complete := true, stored := DirSession.mapOf [], plain :=
      if S.encryptionKey.isSome then DirSession.mapOf ([].map (S.plainEntry id)) else [] }), ?_⟩
    refine DiskM.bind_ok.mpr ⟨inode, m, MountM.readVolume_ok.mpr ⟨hread, rfl⟩, ?_⟩
    refine DiskM.bind_ok.mpr ⟨m, m, DiskM.get_ok.mpr ⟨rfl, rfl⟩, ?_⟩
    rw [if_neg (not_not.mpr hdir), hnone]
    refine DiskM.bind_ok.mpr ⟨[], m, MountM.readVolume_ok.mpr ⟨hlist, rfl⟩, ?_⟩
    exact DiskM.bind_ok.mpr ⟨⟨⟩, _, DiskM.modify_ok.mpr rfl, DiskM.pure_ok.mpr ⟨rfl, rfl⟩⟩

section Deletion

variable {S : DirSession} {m m' : Mounted} {parent : Nat} {dir : Inode} {name : String}
  {target : DeleteTarget}

open MountM DiskM

theorem refindTarget_ok {out : DeleteTarget × List DirectoryEntry}
    (hloc : S.locateTarget m.volume parent dir name = .ok target)
    (h : S.refindTarget parent dir name target m = .ok out m') : out.1 = target ∧ m = m' := by
  obtain ⟨raw, _, hraw, h⟩ := bind_ok.mp h
  obtain ⟨-, rfl⟩ := readVolume_ok.mp hraw
  split at h
  next =>
    obtain ⟨rfl, rfl⟩ := pure_ok.mp h
    exact ⟨rfl, rfl⟩
  next =>
    obtain ⟨target', _, hagain, h⟩ := bind_ok.mp h
    obtain ⟨hsame, rfl⟩ := readVolume_ok.mp hagain
    obtain ⟨raw', _, hraw', h⟩ := bind_ok.mp h
    obtain ⟨-, rfl⟩ := readVolume_ok.mp hraw'
    obtain ⟨rfl, rfl⟩ := pure_ok.mp h
    rw [hloc] at hsame
    cases hsame
    exact ⟨rfl, rfl⟩

theorem findTarget_ok (h : S.findTarget parent name m = .ok target m') :
    ∃ dir, m.volume.readInodeInternal parent = .ok dir ∧
      S.locateTarget m.volume parent dir name = .ok target ∧ m = m' := by
  obtain ⟨dir, _, hdir, h⟩ := bind_ok.mp h
  obtain ⟨hread, rfl⟩ := readVolume_ok.mp hdir
  split at h
  next => exact (throw_ok.mp h).elim
  next =>
    obtain ⟨hloc, rfl⟩ := readVolume_ok.mp h
    exact ⟨dir, hread, hloc, rfl⟩

theorem checkFilename_ok {u : Unit} (h : checkFilename name m = .ok u m') :
    validateFilename name = .ok () ∧ m = m' := by
  unfold checkFilename at h
  cases hvalid : validateFilename name with
  | ok =>
    rw [hvalid] at h
    obtain ⟨-, rfl⟩ := pure_ok.mp h
    exact ⟨rfl, rfl⟩
  | error e =>
    rw [hvalid] at h
    exact (throw_ok.mp h).elim

theorem checkEmptyDir_ok {v : Volume} {victim : Inode}
    (h : DirSession.checkEmptyDir v victim = .ok ()) (hdir : victim.mode = .directory) :
    victim.slot 0 ≠ 0 → v.readDirEntriesFromBlock (victim.slot 0) = .ok [] := by
  intro hslot
  unfold DirSession.checkEmptyDir at h
  rw [if_pos ⟨hdir, hslot⟩] at h
  obtain ⟨entries, hread, h⟩ := except_bind_ok.mp h
  cases entries with
  | nil => exact hread
  | cons e entries => cases h

theorem checkEmptyDir_journaled_ok {v : Volume} {victim : Inode}
    (h : Journal.checkEmptyDir v victim = .ok ()) (hdir : victim.mode = .directory) :
    v.readDirEntriesFromBlock (victim.slot 0) = .ok [] := by
  unfold Journal.checkEmptyDir at h
  rw [if_pos hdir] at h
  obtain ⟨entries, hread, h⟩ := except_bind_ok.mp h
  cases entries with
  | nil => exact hread
  | cons e entries => cases h

theorem commitDelete_checked {now : Nat} {u : Unit} (hj : m.volume.superblock.hasJournalLayout = false)
    (hread : m.volume.readInodeInternal parent = .ok dir)
    (hloc : S.locateTarget m.volume parent dir name = .ok target)
    (h : S.commitDelete now parent name target m = .ok u m') :
    ∃ victim, m.volume.readInodeInternal target.id = .ok victim ∧
      DirSession.checkEmptyDir m.volume victim = .ok () := by
  obtain ⟨_, _, hget, h⟩ := bind_ok.mp h
  obtain ⟨rfl, rfl⟩ := get_ok.mp hget
  rw [hj] at h
  obtain ⟨dir', _, hdir, h⟩ := bind_ok.mp h
  obtain ⟨hsame, rfl⟩ := readVolume_ok.mp hdir
  rw [hread] at hsame
  cases hsame
  split at h
  next => exact (throw_ok.mp h).elim
  next =>
    obtain ⟨⟨target', remaining⟩, _, hfind, h⟩ := bind_ok.mp h
    obtain ⟨rfl, rfl⟩ := refindTarget_ok hloc hfind
    obtain ⟨victim, _, hrecord, h⟩ := bind_ok.mp h
    obtain ⟨hvictim, rfl⟩ := readVolume_ok.mp hrecord
    obtain ⟨_, _, hempty, -⟩ := bind_ok.mp h
    exact ⟨victim, hvictim, (readVolume_ok.mp hempty).1⟩

theorem deleteFileJournaled_checked {J : Journal} {now : Nat} {u : Unit}
    (hread : m.volume.readInodeInternal parent = .ok dir)
    (hloc : S.locateTarget m.volume parent dir name = .ok target)
    (h : J.deleteFileJournaled S now parent name target.name target.id target.block m = .ok u m') :
    ∃ victim, m.volume.readInodeInternal target.id = .ok victim ∧
      Journal.checkEmptyDir m.volume victim = .ok () := by
  obtain ⟨dir', _, hdir, h⟩ := bind_ok.mp h
  obtain ⟨hsame, rfl⟩ := readVolume_ok.mp hdir
  rw [hread] at hsame
  cases hsame
  split at h
  next => exact (throw_ok.mp h).elim
  next =>
    obtain ⟨⟨target', remaining⟩, _, hfind, h⟩ := bind_ok.mp h
    obtain ⟨rfl, rfl⟩ := refindTarget_ok hloc hfind
    obtain ⟨_, _, himage, h⟩ := bind_ok.mp h
    obtain ⟨-, rfl⟩ := readVolume_ok.mp himage
    obtain ⟨victim, _, hrecord, h⟩ := bind_ok.mp h
    obtain ⟨hvictim, rfl⟩ := readVolume_ok.mp hrecord
    obtain ⟨_, _, hempty, -⟩ := bind_ok.mp h
    exact ⟨victim, hvictim, (readVolume_ok.mp hempty).1⟩

/-- A successful deletion was of a directory that lists as empty exactly if no block behind the
first has an entry. -/
theorem deleteFile_lists_empty_iff {J : Journal} {now : Nat} {u : Unit}
    (h : (J.session S).deleteFile now parent name m = .ok u m') :
    ∃ dir target victim, m.volume.readInodeInternal parent = .ok dir ∧
      S.locateTarget m.volume parent dir name = .ok target ∧
      m.volume.readInodeInternal target.id = .ok victim ∧
      (victim.mode = .directory →
        ((∃ w, S.listDir target.id (m.setIndex target.id none) = .ok [] w) ↔
          ∀ b ∈ m.volume.laterBlocks victim, m.volume.readDirEntriesFromBlock b = .ok [])) := by
  obtain ⟨_, _, hname, h⟩ := bind_ok.mp h
  obtain ⟨-, rfl⟩ := checkFilename_ok hname
  obtain ⟨target, _, hfind, h⟩ := bind_ok.mp h
  obtain ⟨dir, hread, hloc, rfl⟩ := findTarget_ok hfind
  obtain ⟨victim, hvictim, hfirst⟩ : ∃ victim, m.volume.readInodeInternal target.id = .ok victim ∧
      (victim.mode = .directory → victim.slot 0 ≠ 0 →
        m.volume.readDirEntriesFromBlock (victim.slot 0) = .ok []) := by
    cases hj : m.volume.superblock.hasJournalLayout with
    | false =>
      obtain ⟨victim, hvictim, hempty⟩ := commitDelete_checked hj hread hloc h
      exact ⟨victim, hvictim, fun hdir => checkEmptyDir_ok hempty hdir⟩
    | true =>
      obtain ⟨_, _, hget, h⟩ := bind_ok.mp h
      obtain ⟨rfl, rfl⟩ := get_ok.mp hget
      rw [if_pos hj] at h
      obtain ⟨victim, hvictim, hempty⟩ := deleteFileJournaled_checked hread hloc h
      exact ⟨victim, hvictim, fun hdir _ => checkEmptyDir_journaled_ok hempty hdir⟩
  refine ⟨dir, target, victim, hread, hloc, hvictim, fun hdir => ?_⟩
  rw [listDir_nil_iff (by simp [Mounted.setIndex]), ← Volume.listing_eq_nil_iff (hfirst hdir)]
  constructor
  · rintro ⟨inode, hsame, -, hlist⟩
    cases hvictim.symm.trans hsame
    exact hlist
  · intro hlist
    exact ⟨victim, hvictim, hdir, hlist⟩

end Deletion

def twoBlockDir : Mounted where
  volume :=
    let dirOf (b₀ b₁ n : Nat) : Inode :=
      { ((Inode.new .directory).setSlot 0 b₀).setSlot 1 b₁ with size := n * blockSize }
    let entries (es : List DirectoryEntry) : Nat → UInt8 := (serializeAll es (fun _ => 0) 0).1
    { Session.tinyVolume (Inode.new .file) fun _ => 0 with
      inodeBit := fun k => k < 4
      dataBit := fun k => k < 3
      inode := fun id => .ok (if id = 0 then dirOf 4 0 1 else if id = 1 then dirOf 5 6 2
        else Inode.new .file)
      block := fun b =>
        if b = 4 then entries [⟨1, hashFilename "d", "d"⟩]
        else if b = 5 then entries [⟨2, hashFilename "a", "a"⟩]
        else if b = 6 then entries [⟨3, hashFilename "b", "b"⟩]
        else fun _ => 0
      freeBlockHint := 7
      freeInodeHint := 4 }
  dirCache _ := none

def firstBlockEmptied : Mounted :=
  { twoBlockDir with volume := twoBlockDir.volume.setBlock 5 fun _ => 0 }

theorem deleteFile_lists_empty_emptied : ∃ m',
    ((Journal.mk false RunSort.stable fun _ _ _ => .error .noSpace).session
      plainDirSession).deleteFile 8 0 "d" firstBlockEmptied = .ok () m' ∧
    ∃ dir target victim, firstBlockEmptied.volume.readInodeInternal 0 = .ok dir ∧
      plainDirSession.locateTarget firstBlockEmptied.volume 0 dir "d" = .ok target ∧
      firstBlockEmptied.volume.readInodeInternal target.id = .ok victim ∧
      (victim.mode = .directory →
        ((∃ w, plainDirSession.listDir target.id (firstBlockEmptied.setIndex target.id none) =
            .ok [] w) ↔
          ∀ b ∈ firstBlockEmptied.volume.laterBlocks victim,
            firstBlockEmptied.volume.readDirEntriesFromBlock b = .ok [])) := by
  have hcheck : (match ((Journal.mk false RunSort.stable fun _ _ _ => .error .noSpace).session
      plainDirSession).deleteFile 8 0 "d" firstBlockEmptied with
      | .ok _ _ => true
      | .error _ _ => false) = true := by
    decide +kernel
  split at hcheck
  next u m' hrun => exact ⟨m', hrun, deleteFile_lists_empty_iff hrun⟩
  next => cases hcheck

def deleteBoth : MountM (List DirectoryEntry) := do
  plainDirSession.deleteFile 7 1 "a"
  let left ← plainDirSession.listDir 1
  plainDirSession.deleteFile 8 0 "d"
  return left

/-- The second deletion succeeds although `b` is listed; its inode stays allocated and no entry is
left of it. -/
theorem nonempty_directory_deleted : ∃ m, deleteBoth twoBlockDir =
      .ok [⟨3, hashFilename "b", "b"⟩] m ∧ m.volume.inodeBit 3 = true ∧
    ∃ root, m.volume.readInodeInternal 0 = .ok root ∧ m.volume.listing root = .ok [] := by
  have hcheck : (match deleteBoth twoBlockDir with
      | .ok left m => decide (left = [⟨3, hashFilename "b", "b"⟩]) && m.volume.inodeBit 3 &&
        decide ((m.volume.readInodeInternal 0).toOption.bind
          (fun root => (m.volume.listing root).toOption) = some [])
      | .error _ _ => false) = true := by
    decide +kernel
  split at hcheck
  next left m hrun =>
    simp only [Bool.and_eq_true, decide_eq_true_eq] at hcheck
    obtain ⟨⟨rfl, hbit⟩, hlist⟩ := hcheck
    refine ⟨m, hrun, hbit, ?_⟩
    obtain ⟨root, hroot, hread⟩ := Option.bind_eq_some_iff.mp hlist
    exact ⟨root, toOption_eq_some.mp hroot, toOption_eq_some.mp hread⟩
  next => cases hcheck

end Oifs
