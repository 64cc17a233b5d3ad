import Oifs.AllocFrame
import Oifs.DirectoryCalls

namespace Oifs

open Outcome

/-! What the steps of a creation leave alone. -/

section Frame

variable {R : Volume → Prop} (hblock : ∀ v b f, R v → R (Volume.setBlock v b f))
  (hmark : ∀ v b n, R v → R { Volume.setMark v b true with freeBlockHint := n })

include hblock hmark

theorem newInode_keeps (now : Nat) (fileType : FileType) :
    Keeps R (Volume.newInode now fileType) := by
  unfold Volume.newInode
  split
  next => exact (allocAndZeroBlock_keeps hblock hmark).bind fun _ => Keeps.pure _
  next => exact Keeps.pure _

omit hmark in
theorem appendDirEntryToBlock_keeps (b : Nat) (entry : DirectoryEntry) :
    Keeps R (Volume.appendDirEntryToBlock b entry) := by
  intro v hv
  have hruns : Runs R (Volume.appendDirEntryToBlock b entry) v fun _ _ => True := by
    refine Runs.get_bind ?_
    dsimp only
    split
    next => exact Runs.throw hv
    next =>
      split
      next => exact Runs.throw hv
      next =>
        refine Runs.bind (Runs.set (hblock _ _ _ hv)) ?_
        rintro _ _ h₁ -
        split
        next => exact Runs.pure h₁ trivial
        next => exact Runs.throw h₁
  exact hruns.final

theorem appendDirEntryToDir_keeps (dir : Inode) (entry : DirectoryEntry) :
    Keeps R (Volume.appendDirEntryToDir dir entry) := by
  refine Keeps.get.bind fun v => ?_
  split
  next => exact (appendDirEntryToBlock_keeps hblock _ _).bind fun _ => Keeps.pure _
  next =>
    refine (getOrAllocBlock_keeps hblock hmark _ _ _).bind fun r => ?_
    dsimp only
    refine (Keeps.modify fun v hv => hblock v _ _ hv).bind fun _ => ?_
    exact (appendDirEntryToBlock_keeps hblock _ _).bind fun _ => Keeps.pure _

end Frame

theorem onVolume_keeps {α : Type} {R : Volume → Prop} {x : DiskM α} (hx : Keeps R x) :
    Keeps (fun m => R m.volume) (onVolume x) := by
  intro m hm
  have hend := hx m.volume hm
  unfold onVolume
  cases h : x m.volume with
  | ok a v =>
    rw [h] at hend
    exact hend
  | error e v =>
    rw [h] at hend
    exact hend

theorem readVolume_keeps {α : Type} {R : Mounted → Prop} (f : Volume → Except DiskError α) :
    Keeps R (readVolume f) := by
  intro m hm
  unfold readVolume
  split
  next => exact hm
  next => exact hm

/-! The checks of a creation. -/

section Checks

variable {S : DirSession} {v : Volume}

theorem scanLookup_keeps (parent : Nat) (dir : Inode) (ix : DirIndex) (name : String) :
    Keeps (fun m => m.volume = v) (S.scanLookup parent dir ix name) := by
  refine Keeps.get.bind fun m => ?_
  refine Keeps.bind (Keeps.modify fun _ hm => hm) fun _ => ?_
  refine Keeps.bind ?_ fun _ => Keeps.bind (Keeps.modify fun _ hm => hm) fun _ => Keeps.pure _
  split
  next => exact (readVolume_keeps _).bind fun stored => Keeps.pure _
  next => exact Keeps.pure _

theorem dirLookup_keeps (parent : Nat) (name : String) :
    Keeps (fun m => m.volume = v) (S.dirLookup parent name) := by
  refine Keeps.get.bind fun m => ?_
  split
  next => exact Keeps.pure _
  next =>
    refine (readVolume_keeps _).bind fun dir => ?_
    split
    next => exact Keeps.throw _
    next =>
      dsimp only
      split
      next => exact Keeps.bind (Keeps.modify fun _ hm => hm) fun _ => Keeps.pure _
      next => exact scanLookup_keeps parent dir _ name

theorem checkNewEntry_keeps (parent : Nat) (name : String) (fileType : FileType) :
    Keeps (fun m => m.volume = v) (S.checkNewEntry parent name fileType) := by
  refine (readVolume_keeps _).bind fun dir => ?_
  split
  next => exact Keeps.throw _
  next =>
    refine (dirLookup_keeps parent name).bind fun found => ?_
    split
    next => exact Keeps.throw _
    next => exact Keeps.pure _

end Checks

/-! A creation that fails. -/

namespace DirSession

def listingOf (S : DirSession) (v : Volume) (id : Nat) : Except DiskError (List DirectoryEntry) :=
  match S.listDir id ⟨v, fun _ => none⟩ with
  | .ok entries _ => .ok entries
  | .error e _ => .error e

def CreateAdmitted (S : DirSession) (parent : Nat) (name : String) (fileType : FileType)
    (m : Mounted) : Prop :=
  validateFilename name = .ok () ∧
    (∃ dir₁ dir₂ m₁ m₂, S.checkNewEntry parent name fileType m = .ok dir₁ m₁ ∧
      S.checkNewEntry parent name fileType m₁ = .ok dir₂ m₂) ∧
    ∃ id, findNextFreeWrapped m.volume.inodeBit bitmapBits m.volume.freeInodeHint = some id ∧
      id < m.volume.superblock.usableInodeCount

end DirSession

theorem checkFilename_error {name : String} {m m' : Mounted} {e : DiskError}
    (h : checkFilename name m = .error e m') : validateFilename name ≠ .ok () ∧ m' = m := by
  unfold checkFilename at h
  cases hvalid : validateFilename name with
  | ok =>
    rw [hvalid] at h
    cases h
  | error e₁ =>
    rw [hvalid] at h
    refine ⟨nofun, ?_⟩
    cases h
    rfl

theorem allocateInode_ok {v v' : Volume} {id : Nat} (h : Volume.allocateInode v = .ok id v') :
    findNextFreeWrapped v.inodeBit bitmapBits v.freeInodeHint = some id ∧
      id < v.superblock.usableInodeCount ∧ v'.inodeBit = Function.update v.inodeBit id true := by
  unfold Volume.allocateInode at h
  split at h
  next => cases h
  next k hfind =>
    split at h
    next => cases h
    next hroom =>
      cases h
      exact ⟨hfind, by omega, rfl⟩

theorem allocateInode_error {v v' : Volume} {e : DiskError}
    (h : Volume.allocateInode v = .error e v') : v' = v ∧
      ∀ id, findNextFreeWrapped v.inodeBit bitmapBits v.freeInodeHint = some id →
        v.superblock.usableInodeCount ≤ id := by
  unfold Volume.allocateInode at h
  split at h
  next hfind =>
    cases h
    refine ⟨rfl, fun id hid => ?_⟩
    rw [hfind] at hid
    cases hid
  next k hfind =>
    split at h
    next hfull =>
      cases h
      refine ⟨rfl, fun id hid => ?_⟩
      rw [hfind] at hid
      cases hid
      exact hfull
    next => cases h

section Create

variable {S : DirSession} {now parent : Nat} {name stored : String} {fileType : FileType}
  {m m' : Mounted} {e : DiskError}

theorem storeEntry_keeps {bits : Nat → Bool} (dir : Inode) (id : Nat) (g : Mounted → Mounted)
    (hg : ∀ m, (g m).volume = m.volume) :
    Keeps (fun m => m.volume.inodeBit = bits) (do
      let inode ← onVolume (Volume.newInode now fileType)
      onVolume (Volume.writeInodeInternal id inode)
      let dir ← onVolume (Volume.appendDirEntryToDir dir ⟨id, hashFilename stored, stored⟩)
      onVolume (Volume.writeInodeInternal parent { dir with modifiedAt := now })
      modify g
      return id) := by
  have hblock (v : Volume) (b : Nat) (f : Nat → UInt8) (hv : v.inodeBit = bits) :
      (v.setBlock b f).inodeBit = bits := (Volume.setBlock_inodeBit v b f).trans hv
  have hmark (v : Volume) (b n : Nat) (hv : v.inodeBit = bits) :
      { v.setMark b true with freeBlockHint := n }.inodeBit = bits := hv
  have hnew := newInode_keeps hblock hmark now fileType
  have happend (dir : Inode) (entry : DirectoryEntry) :=
    appendDirEntryToDir_keeps hblock hmark dir entry
  have hwrite (id : Nat) (i : Inode) :=
    writeInodeInternal_keeps (R := fun v => v.inodeBit = bits) (fun _ _ hv => hv) id i
  refine (onVolume_keeps hnew).bind fun inode => ?_
  refine (onVolume_keeps (hwrite id inode)).bind fun _ => ?_
  refine (onVolume_keeps (happend dir _)).bind fun dir => ?_
  refine (onVolume_keeps (hwrite parent _)).bind fun _ => ?_
  refine Keeps.bind (Keeps.modify fun m hm => ?_) fun _ => Keeps.pure _
  rw [hg]
  exact hm

theorem commitEntry_error (hj : m.volume.superblock.hasJournalLayout = false)
    (h : S.commitEntry now parent name stored fileType m = .error e m') :
    (m'.volume = m.volume ∧
      ((∃ e m₁, S.checkNewEntry parent name fileType m = .error e m₁) ∨
        ∀ id, findNextFreeWrapped m.volume.inodeBit bitmapBits m.volume.freeInodeHint = some id →
          m.volume.superblock.usableInodeCount ≤ id)) ∨
    ∃ dir m₁ id, S.checkNewEntry parent name fileType m = .ok dir m₁ ∧
      findNextFreeWrapped m.volume.inodeBit bitmapBits m.volume.freeInodeHint = some id ∧
      id < m.volume.superblock.usableInodeCount ∧ m'.volume.inodeBit id = true := by
  unfold DirSession.commitEntry at h
  obtain h | ⟨_, _, hget, h⟩ := bind_error.mp h
  · cases h
  obtain ⟨rfl, rfl⟩ := DiskM.get_ok.mp hget
  rw [if_neg (by rw [hj]; exact Bool.false_ne_true)] at h
  obtain h | ⟨dir, m₁, hcheck, h⟩ := bind_error.mp h
  · exact .inl ⟨(checkNewEntry_keeps parent name fileType).of_error rfl h, .inl ⟨e, m', h⟩⟩
  have hvolume : m₁.volume = m.volume :=
    (checkNewEntry_keeps parent name fileType).of_ok rfl hcheck
  obtain h | ⟨id, m₂, halloc, h⟩ := bind_error.mp h
  · obtain ⟨v, hfail, rfl⟩ := MountM.onVolume_error.mp h
    rw [hvolume] at hfail
    obtain ⟨rfl, hfull⟩ := allocateInode_error hfail
    exact .inl ⟨rfl, .inr hfull⟩
  · obtain ⟨v, htake, rfl⟩ := MountM.onVolume_ok.mp halloc
    rw [hvolume] at htake
    obtain ⟨hfind, hroom, hbit⟩ := allocateInode_ok htake
    have hend : m'.volume.inodeBit = v.inodeBit :=
      (storeEntry_keeps dir id (·.updateIndex parent _) fun _ => rfl).of_error rfl h
    refine .inr ⟨dir, m₁, id, hcheck, hfind, hroom, ?_⟩
    rw [hend, hbit, Function.update_self]

theorem createEntryInternal_error (hj : m.volume.superblock.hasJournalLayout = false)
    (h : S.createEntryInternal now parent name fileType m = .error e m') :
    (m'.volume = m.volume ∧ ¬S.CreateAdmitted parent name fileType m) ∨
    ∃ id, m.volume.inodeBit id = false ∧ m'.volume.inodeBit id = true ∧
      S.CreateAdmitted parent name fileType m := by
  obtain h | ⟨_, _, hchecked, h⟩ := bind_error.mp h
  · obtain ⟨hname, rfl⟩ := checkFilename_error h
    exact .inl ⟨rfl, fun hadmitted => hname hadmitted.1⟩
  obtain ⟨hname, rfl⟩ := checkFilename_ok hchecked
  obtain h | ⟨stored, _, hprepared, h⟩ := bind_error.mp h
  · obtain h | ⟨_, _, -, h⟩ := bind_error.mp h
    · refine .inl ⟨(checkNewEntry_keeps parent name fileType).of_error rfl h, ?_⟩
      rintro ⟨-, ⟨dir₁, dir₂, m₁, m₂, hfirst, -⟩, -⟩
      rw [hfirst] at h
      cases h
    · cases h
  obtain ⟨dir₁, m₁, hfirst, hpure⟩ := DiskM.bind_ok.mp hprepared
  obtain ⟨-, rfl⟩ := DiskM.pure_ok.mp hpure
  have hvolume : m₁.volume = m.volume := (checkNewEntry_keeps parent name fileType).of_ok rfl hfirst
  rw [← hvolume] at hj ⊢
  obtain ⟨hsame, hwhy⟩ | ⟨dir₂, m₂, id, hsecond, hfind, hroom, htaken⟩ := commitEntry_error hj h
  · refine .inl ⟨hsame, ?_⟩
    rintro ⟨-, ⟨dir₁', dir₂', m₁', m₂', hfirst', hsecond'⟩, free, hfree, hroom⟩
    have hrun := hfirst.symm.trans hfirst'
    cases hrun
    rw [← hvolume] at hfree hroom
    obtain ⟨e₁, m₃, hbad⟩ | hfull := hwhy
    · rw [hsecond'] at hbad
      cases hbad
    · exact absurd hroom (Nat.not_lt.mpr (hfull free hfree))
  · refine .inr ⟨id, (findNextFreeWrapped_some hfind).1, htaken, hname, ?_, id, ?_, ?_⟩
    · exact ⟨dir₁, dir₂, m₁, m₂, hfirst, hsecond⟩
    · rw [← hvolume]
      exact hfind
    · rw [← hvolume]
      exact hroom

/-- A failing creation leaves bitmaps and listings as they were exactly if it fails before it takes
an inode. -/
theorem createEntryInternal_failed_iff (hj : m.volume.superblock.hasJournalLayout = false)
    (h : S.createEntryInternal now parent name fileType m = .error e m') :
    (m'.volume.inodeBit = m.volume.inodeBit ∧ m'.volume.dataBit = m.volume.dataBit ∧
      ∀ id, S.listingOf m'.volume id = S.listingOf m.volume id) ↔
    ¬S.CreateAdmitted parent name fileType m := by
  obtain ⟨hsame, hrefused⟩ | ⟨id, hfree, htaken, hadmitted⟩ := createEntryInternal_error hj h
  · rw [hsame]
    exact ⟨fun _ => hrefused, fun _ => ⟨rfl, rfl, fun _ => rfl⟩⟩
  · refine ⟨fun hkept => ?_, fun hrefused => absurd hadmitted hrefused⟩
    rw [hkept.1, hfree] at htaken
    cases htaken

end Create

def noBlockLeft : Mounted :=
  { twoBlockDir with volume := { twoBlockDir.volume with dataBit := fun _ => true } }

/-- A directory of an existing name is refused with nothing changed. -/
theorem createEntryInternal_failed_existing : ∃ e m',
    plainDirSession.createEntryInternal 8 0 "d" .directory noBlockLeft = .error e m' ∧
    ((m'.volume.inodeBit = noBlockLeft.volume.inodeBit ∧
      m'.volume.dataBit = noBlockLeft.volume.dataBit ∧
      ∀ id, plainDirSession.listingOf m'.volume id = plainDirSession.listingOf noBlockLeft.volume id) ↔
    ¬plainDirSession.CreateAdmitted 0 "d" .directory noBlockLeft) := by
  have hcheck : (match plainDirSession.createEntryInternal 8 0 "d" .directory noBlockLeft with
      | .ok _ _ => false
      | .error _ _ => true) = true := by
    decide +kernel
  split at hcheck
  next => cases hcheck
  next e m' hrun => exact ⟨e, m', hrun, createEntryInternal_failed_iff rfl hrun⟩

/-- No block is left for the new directory: the call fails, and its inode stays taken. -/
theorem failed_create_keeps_inode : ∃ m',
    plainDirSession.createDirectory 8 0 "e" noBlockLeft = .error .noSpace m' ∧
    noBlockLeft.volume.inodeBit 4 = false ∧ m'.volume.inodeBit 4 = true := by
  have hcheck : (match plainDirSession.createDirectory 8 0 "e" noBlockLeft with
      | .error .noSpace m' => !noBlockLeft.volume.inodeBit 4 && m'.volume.inodeBit 4
      | _ => false) = true := by
    decide +kernel
  split at hcheck
  next m' hrun =>
    simp only [Bool.and_eq_true, Bool.not_eq_true'] at hcheck
    exact ⟨m', hrun, hcheck.1, hcheck.2⟩
  next => cases hcheck

end Oifs
