import Oifs.CachedInodes
import Oifs.Fragmentation
import Oifs.HostFiles
import Oifs.Outcome
import Oifs.Rebuild

namespace Oifs

open Outcome

namespace Volume

def dataBitmap (v : Volume) : ByteStore where
  len := min (v.superblock.dataBitmapBlocks * blockSize) (2 ^ 63 - 1)
  byte i := UInt8.ofNat (Nat.ofBits fun j : Fin 8 => v.dataBit (i * 8 + j))
  len_lt := by omega

/-- `analyze_fragmentation_internal`. -/
def analyzeFragmentation (v : Volume) : Except DiskError FragmentationStats :=
  if v.superblock.dataBitmapBlock + v.superblock.dataBitmapBlocks ≤ v.mapBlocks then
    let totalBlocks := v.superblock.blockCount - v.superblock.dataBlockStart
    .ok ((scanBitmap v.dataBitmap totalBlocks).stats totalBlocks)
  else .error (.io "Bitmap not found")

end Volume

/-- On a view of an image the two analyses are one. -/
theorem analyzeFragmentation_view (d : DiskImage) :
    (CachedDisk.view d).analyzeFragmentation = d.analyzeFragmentationInternal := by
  have hfits : d.superblock.dataBitmapBlock + d.superblock.dataBitmapBlocks ≤ d.mmap.len / blockSize ↔
      d.superblock.dataBitmapBlock * blockSize + d.superblock.dataBitmapBlocks * blockSize ≤
        d.mmap.len := by
    rw [Nat.le_div_iff_mul_le (by decide), Nat.add_mul]
  unfold Volume.analyzeFragmentation DiskImage.analyzeFragmentationInternal
  by_cases hin : d.superblock.dataBitmapBlock * blockSize + d.superblock.dataBitmapBlocks * blockSize ≤
      d.mmap.len
  · have hstore : (CachedDisk.view d).dataBitmap = d.mmap.sub (d.superblock.dataBitmapBlock * blockSize)
        (d.superblock.dataBitmapBlocks * blockSize) := by
      have hlt := d.mmap.len_lt
      unfold Volume.dataBitmap ByteStore.sub
      congr 1
      · change min (d.superblock.dataBitmapBlocks * blockSize) _ = _
        omega
      · funext i
        have hbits : (fun j : Fin 8 => (CachedDisk.view d).dataBit (i * 8 + j)) = fun j : Fin 8 =>
            (d.mmap.byte (d.superblock.dataBitmapBlock * blockSize + i)).toNat.testBit j := by
          funext j
          have hj := j.isLt
          unfold CachedDisk.view ByteStore.bit
          dsimp only
          congr 3
          · omega
          · omega
        rw [hbits, Nat.ofBits_testBit, Nat.mod_eq_of_lt (UInt8.toNat_lt _), UInt8.ofNat_toNat]
    rw [d.dataBitmapSlice_some hin, ← hstore]
    exact if_pos (hfits.mpr hin)
  · rw [DiskImage.dataBitmapSlice, if_pos (Nat.not_le.mp hin)]
    exact if_neg fun h => hin (hfits.mp h)

def FsckReport.debug (r : FsckReport) : String :=
  let clean := r.isClean
  let orphans := r.orphanInodes
  let leaked := r.leakedBlocks
  let missing := r.missingBlocks
  let crossLinked := r.crossLinkedBlocks
  s!"FsckReport \x7b is_clean: {clean}, orphan_inodes: {orphans}, leaked_blocks: {leaked}, " ++
    s!"missing_blocks: {missing}, cross_linked_blocks: {crossLinked} \x7d"

namespace SafeDefrag

/-- What the host answers to the calls of one defragmentation; `none` where a call succeeds. -/
structure Answers where
  ambient : Nat → Ambient
  /-- What mounting makes of a journaled image. -/
  recover : Volume → Except DiskError Volume
  /-- A copy that breaks off may have left something at its target. -/
  copy : Option (DiskError × Option (Option Volume))
  openCopy : Option DiskError
  /-- An error while the copy is rebuilt, and what it holds by then. -/
  rebuild : Option (DiskError × Option Volume)
  flush : Option DiskError
  renameSource : Option DiskError
  renameTemp : Option DiskError
  openNew : Option DiskError
  restore : Option DiskError
  removeBackup : Option DiskError
  reload : Option DiskError

/-- The files of the host and the file that the manager has mapped. -/
structure Live where
  host : HostFiles String (Option Volume)
  attached : Nat
  attached_lt : attached < host.next

abbrev LiveM := EStateM DiskError Live

namespace Live

def withHost (s : Live) (host : HostFiles String (Option Volume)) (h : s.host.next ≤ host.next) :
    Live :=
  { s with host := host, attached_lt := Nat.lt_of_lt_of_le s.attached_lt h }

def setFile (s : Live) (f : Nat) (a : Option Volume) : Live :=
  s.withHost (s.host.setContent f a) (Nat.le_refl _)

def put (s : Live) (p : String) (a : Option Volume) : Live :=
  s.withHost (s.host.put p a) (s.host.put_replaced p a).choose_spec.next

end Live

def notFound : DiskError := .io "No such file or directory (os error 2)"

def lift {α : Type} (r : Except DiskError α) : LiveM α :=
  match r with
  | .ok a => pure a
  | .error e => throw e

def answer (fault : Option DiskError) : LiveM Unit :=
  match fault with
  | none => return ()
  | some e => throw e

def ignoring (x : LiveM Unit) : LiveM Unit := fun s =>
  match x s with
  | .ok _ s' => .ok () s'
  | .error _ s' => .ok () s'

def cleaningUp {α : Type} (cleanup : LiveM Unit) (x : LiveM α) : LiveM α := fun s =>
  match x s with
  | .ok a s' => .ok a s'
  | .error e s' =>
    match cleanup s' with
    | .ok _ s'' => .error e s''
    | .error _ s'' => .error e s''

/-- What `init_or_open_with_key` checks of an image that exists, and what it makes of it. -/
def mountImage (S : Session) (recover : Volume → Except DiskError Volume) (v : Volume) :
    Except DiskError Volume :=
  if v.superblock.magic ≠ SuperBlock.magicWord then .error .invalidMagic
  else
    match v.superblock.validate (v.mapBlocks * blockSize) with
    | .error text => .error (.corruptedSuperblock text)
    | .ok () =>
      if v.superblock.encrypted && S.encryptionKey.isNone then .error .passwordRequired
      else if v.superblock.hasJournalLayout then recover v
      else .ok v

/-- `open_with_key`. A path that names nothing gets an empty file, which cannot be mapped. -/
def openImage (S : Session) (recover : Volume → Except DiskError Volume) (fault : Option DiskError)
    (p : String) : LiveM Volume := fun s =>
  match fault, s.host.entry p with
  | some e, _ => .error e s
  | none, none => .error (.io "memory map must have a non-zero length") (s.put p none)
  | none, some f =>
    match s.host.content f with
    | none => .error .invalidMagic s
    | some v =>
      match mountImage S recover v with
      | .error e => .error e s
      | .ok v' => .ok v'.reopened (s.setFile f (some v'))

/-- `std::fs::rename`. -/
def renamePath (fault : Option DiskError) (p q : String) : LiveM Unit := fun s =>
  match fault with
  | some e => .error e s
  | none =>
    match h : s.host.rename p q with
    | none => .error notFound s
    | some host => .ok () (s.withHost host (HostFiles.rename_next h).ge)

/-- `std::fs::remove_file`. -/
def removePath (fault : Option DiskError) (p : String) : LiveM Unit := fun s =>
  match fault with
  | some e => .error e s
  | none =>
    match h : s.host.remove p with
    | none => .error notFound s
    | some host => .ok () (s.withHost host (HostFiles.remove_ok h).2.2.ge)

def reloadFromDisk (fault : Option DiskError) (source : String) : LiveM Unit := fun s =>
  match fault with
  | some e => .error e s
  | none =>
    match h : s.host.entry source with
    | none => .error notFound s
    | some f =>
      match s.host.content f with
      | none => .error .invalidMagic s
      | some v =>
        match v.superblock.validate (v.mapBlocks * blockSize) with
        | .error text => .error (.corruptedSuperblock text) s
        | .ok () => .ok () { s with attached := f, attached_lt := s.host.named source f h }

def backupPath (source : String) : String := source ++ ".old"

/-- The check of the new image at the source path, behind both renamings. -/
def checkNew (S : Session) (env : Answers) (source : String) (restore : LiveM Unit) :
    LiveM FragmentationStats := do
  let final ← cleaningUp restore (openImage S env.recover env.openNew source)
  let after ← lift final.analyzeFragmentation
  let fsck ← lift final.verifyIntegrity
  if !fsck.isClean then do
    restore
    let report := fsck.debug
    throw (.io s!"Safe defragmentation integrity check failed: {report}")
  else return after

section Rules

variable {α : Type} {E M : Live → Prop} {s : Live} {Q : α → Live → Prop}

theorem ignoring_run (x : LiveM Unit) (s : Live) : ignoring x s = .ok () (finalState (x s)) := by
  unfold ignoring
  cases x s <;> rfl

theorem cleaningUp_yields {cleanup : LiveM Unit} {x : LiveM α} (hx : Yields M x s Q)
    (hclean : ∀ s', M s' → E (finalState (cleanup s'))) : Yields E (cleaningUp cleanup x) s Q := by
  unfold Yields cleaningUp at *
  cases h : x s with
  | ok a s' =>
    rw [h] at hx
    exact hx
  | error e s' =>
    rw [h] at hx
    have hE := hclean s' hx
    cases hc : cleanup s' with
    | ok u s'' =>
      rw [hc] at hE
      simp only [hc]
      exact hE
    | error e' s'' =>
      rw [hc] at hE
      simp only [hc]
      exact hE

end Rules

section Exits

variable {S : Session} {env : Answers} {source temp : String} {v w : Volume} {a t : Nat} {s : Live}

variable {fault : Option DiskError} {u : Volume} {f : Nat}

/-- The source path names the file that the manager has mapped, an image with the content of `v`. -/
def Intact (S : Session) (v : Volume) (source : String) (s : Live) : Prop :=
  s.host.entry source = some s.attached ∧
    ∃ w, s.host.content s.attached = some w ∧ S.SameContent v w

structure Untouched (v : Volume) (source : String) (a : Nat) (s : Live) : Prop where
  attached : s.attached = a
  entry : s.host.entry source = some a
  content : s.host.content a = some v

structure Copied (v : Volume) (source temp : String) (a t : Nat) (w : Volume) (s : Live) : Prop
    extends Untouched v source a s where
  apart : t ≠ a
  tempEntry : s.host.entry temp = some t
  tempContent : s.host.content t = some w

theorem Untouched.intact (h : Untouched v source a s) : Intact S v source s := by
  refine ⟨?_, v, ?_, Session.SameContent.refl S v⟩
  · rw [h.attached, h.entry]
  · rw [h.attached, h.content]

theorem Untouched.put (h : Untouched v source a s) (htemp : s.host.entry temp ≠ some a)
    (x : Option Volume) : Untouched v source a (s.put temp x) ∧ ∃ t, t ≠ a ∧
      (s.put temp x).host.entry temp = some t ∧ (s.put temp x).host.content t = x := by
  obtain ⟨t, ht⟩ := s.host.put_replaced temp x
  have hne : source ≠ temp := by
    rintro rfl
    exact htemp h.entry
  have hapart : t ≠ a := by
    rintro rfl
    rcases ht.new with hold | hnext
    · exact htemp hold
    · have hlt := s.attached_lt
      rw [h.attached] at hlt
      omega
  have hcontent : (s.put temp x).host.content = Function.update s.host.content t x := ht.content
  refine ⟨⟨h.attached, (ht.others source hne).trans h.entry, ?_⟩, t, hapart, ht.entry, ?_⟩
  · rw [hcontent, Function.update_of_ne hapart.symm, h.content]
  · rw [hcontent, Function.update_self]

theorem mountImage_ok {recover : Volume → Except DiskError Volume}
    (h : mountImage S recover v = .ok w) :
    v.superblock.validate (v.mapBlocks * blockSize) = .ok () ∧
      (v.superblock.hasJournalLayout = false → w = v) := by
  unfold mountImage at h
  split at h
  next => cases h
  next =>
    split at h
    next => cases h
    next hvalid =>
      refine ⟨hvalid, fun hj => ?_⟩
      split at h
      next => cases h
      next =>
        rw [hj] at h
        cases h
        rfl

theorem openImage_yields {recover : Volume → Except DiskError Volume}
    {p : String} (hentry : s.host.entry p = some t) (hcontent : s.host.content t = some w) :
    Yields (· = s) (openImage S recover fault p) s fun c s' => ∃ w', mountImage S recover w = .ok w' ∧
      c = w'.reopened ∧ s' = s.setFile t (some w') := by
  unfold Yields openImage
  rw [hentry]
  cases fault with
  | some e => exact rfl
  | none =>
    simp only [hcontent]
    cases hmount : mountImage S recover w with
    | error e => exact rfl
    | ok w' => exact ⟨w', rfl, rfl, rfl⟩

/-- What the copy becomes. -/
structure Rebuilt (S : Session) (env : Answers) (v u : Volume) : Prop where
  same : S.SameContent v u
  root : v.InodeAllocated v.superblock.rootInode ∧
    ∃ i, v.readInodeInternal v.superblock.rootInode = .ok i
  reopened : ∀ u', mountImage S env.recover u = .ok u' → S.SameContent v u'

theorem Copied.setFile (h : Copied v source temp a t w s) (x : Option Volume) :
    Untouched v source a (s.setFile t x) ∧ (s.setFile t x).host.content t = x := by
  refine ⟨⟨h.attached, h.entry, ?_⟩, Function.update_self ..⟩
  exact (Function.update_of_ne h.apart.symm _ _).trans h.content

/-- The manager stays on the old file, which the restoring rename can bring back, while `o` stands at
the source path. -/
structure Standing (S : Session) (v : Volume) (source : String) (a : Nat) (o : Option Nat) (s : Live) :
    Prop where
  attached : s.attached = a
  content : ∃ w, s.host.content a = some w ∧ S.SameContent v w
  entry : s.host.entry source = o
  back : s.host.entry (backupPath source) = some a ∨
    o = some a ∧ s.host.entry (backupPath source) = none

theorem Standing.intact_iff {o : Option Nat} (h : Standing S v source a o s) :
    Intact S v source s ↔ o = some a := by
  unfold Intact
  rw [h.attached, h.entry]
  exact and_iff_left h.content

theorem renamePath_yields {p q : String} {E : Live → Prop} (hE : E s) :
    Yields E (renamePath fault p q) s fun _ s' => s'.attached = s.attached ∧
      ∃ f, s.host.entry p = some f ∧ HostFiles.Renamed s.host p q f s'.host := by
  unfold Yields renamePath
  cases fault with
  | some e => exact hE
  | none =>
    simp only
    split
    next _ s' h =>
      split at h
      next => cases h
      next host hrename =>
        cases h
        exact ⟨rfl, HostFiles.rename_ok hrename⟩
    next _ s' h =>
      split at h
      next =>
        cases h
        exact hE
      next => cases h

theorem Standing.restore_iff {o : Option Nat} (h : Standing S v source a o s) :
    Intact S v source (finalState (renamePath fault (backupPath source) source s)) ↔
      fault = none ∨ o = some a := by
  cases fault with
  | some e =>
    rw [or_iff_right (by simp)]
    exact h.intact_iff
  | none =>
    refine iff_of_true ?_ (.inl rfl)
    have hrename : Yields (· = s) (renamePath none (backupPath source) source) s _ :=
      renamePath_yields rfl
    unfold Yields at hrename
    cases hrun : renamePath none (backupPath source) source s with
    | ok u s' =>
      rw [hrun] at hrename
      obtain ⟨hatt, f, hback, hrenamed⟩ := hrename
      have hf : f = a := by
        rcases h.back with hold | ⟨-, hnone⟩
        · exact Option.some.inj (hback.symm.trans hold)
        · rw [hnone] at hback
          cases hback
      subst hf
      obtain ⟨w, hw, hsame⟩ := h.content
      refine ⟨?_, w, ?_, hsame⟩
      · change s'.host.entry source = some s'.attached
        rw [hatt, h.attached, hrenamed.target]
      · change s'.host.content s'.attached = some w
        rw [hatt, h.attached, hrenamed.content, hw]
    | error e s' =>
      rw [hrun] at hrename
      obtain rfl : s' = s := hrename
      refine h.intact_iff.mpr ?_
      rcases h.back with hold | ⟨hsource, -⟩
      · obtain ⟨host, hsome⟩ := HostFiles.rename_some (q := source) hold
        unfold renamePath at hrun
        simp only at hrun
        split at hrun
        next hnone =>
          rw [hsome] at hnone
          cases hnone
        next => cases hrun
      · exact hsource

theorem backupPath_ne (source : String) : backupPath source ≠ source := by
  intro h
  have hlen := congrArg String.length h
  unfold backupPath at hlen
  rw [String.length_append] at hlen
  have hold : ".old".length = 4 := by decide
  omega

theorem Standing.setFile (h : Standing S v source a (some f) s)
    (hu : S.SameContent v u) : Standing S v source a (some f) (s.setFile f (some u)) := by
  refine ⟨h.attached, ?_, h.entry, h.back⟩
  by_cases hf : a = f
  · subst hf
    exact ⟨u, Function.update_self .., hu⟩
  · obtain ⟨w, hw, hsame⟩ := h.content
    exact ⟨w, (Function.update_of_ne hf _ _).trans hw, hsame⟩

def restoring (env : Answers) (source : String) : LiveM Unit :=
  ignoring (renamePath env.restore (backupPath source) source)

theorem Standing.restoring_iff {o : Option Nat} (h : Standing S v source a o s) (env : Answers) :
    Intact S v source (finalState (restoring env source s)) ↔ env.restore = none ∨ o = some a := by
  unfold restoring
  rw [ignoring_run]
  exact h.restore_iff

theorem Standing.check (h : Standing S v source a (some f) s)
    (hcontent : s.host.content f = some u) (hu : Rebuilt S env v u) :
    Yields (fun s' => Intact S v source s' ↔ env.restore = none ∨ f = a)
      (checkNew S env source (restoring env source)) s fun _ s' =>
        ∃ u', Standing S v source a (some f) s' ∧ s'.host.content f = some u' ∧ S.SameContent v u' ∧
          u'.superblock.validate (u'.mapBlocks * blockSize) = .ok () := by
  unfold checkNew
  refine Yields.bind (cleaningUp_yields (openImage_yields h.entry hcontent) ?_) ?_
  · intro s' hs
    rw [hs, h.restoring_iff env, Option.some.injEq]
  rintro _ _ ⟨u', hmount, rfl, rfl⟩
  have hsame := hu.reopened u' hmount
  have hafter := h.setFile hsame
  have hvalid : u'.superblock.validate (u'.mapBlocks * blockSize) = .ok () := by
    rw [hsame.superblock, hsame.mapBlocks, ← hu.same.superblock, ← hu.same.mapBlocks]
    exact (mountImage_ok hmount).1
  have hmountable : u'.reopened.Mountable :=
    ⟨_, hvalid, (Nat.mul_div_cancel u'.mapBlocks (by decide : 0 < blockSize)).symm⟩
  obtain ⟨after, hanalyze⟩ : ∃ after, u'.reopened.analyzeFragmentation = .ok after := by
    unfold Volume.analyzeFragmentation
    exact ⟨_, if_pos hmountable.bitmaps_inside.2.2⟩
  obtain ⟨fsck, hfsck⟩ : ∃ fsck, u'.reopened.verifyIntegrity = .ok fsck := by
    refine verifyIntegrity_total _ ?_
    obtain ⟨halloc, i, hread⟩ := hu.root
    have hkind := hsame.kind _ halloc
    rw [hread, ← hsame.superblock] at hkind
    change ∃ i, u'.readInodeInternal u'.superblock.rootInode = .ok i
    cases hroot : u'.readInodeInternal u'.superblock.rootInode with
    | ok i' => exact ⟨i', rfl⟩
    | error e =>
      rw [hroot] at hkind
      cases hkind
  rw [hanalyze, hfsck]
  change Yields _ (if !fsck.isClean then _ else _) _ _
  by_cases hclean : fsck.isClean = true
  · simp only [hclean]
    exact ⟨u', hafter, Function.update_self .., hsame, hvalid⟩
  · simp only [hclean]
    change Yields _ (restoring env source >>= _) _ _
    refine Yields.bind (Q := fun _ s' => Intact S v source s' ↔ env.restore = none ∨ f = a) ?_
      fun _ _ hs => Yields.throw hs
    have hrestored := hafter.restoring_iff env
    unfold Yields restoring at *
    rw [ignoring_run] at hrestored ⊢
    rwa [Option.some.injEq] at hrestored

theorem Standing.remove (h : Standing S v source a (some f) s)
    (fault : Option DiskError) (hcontent : s.host.content f = some u) :
    let s' := finalState (removePath fault (backupPath source) s)
    s'.attached = a ∧ s'.host.entry source = some f ∧ s'.host.content f = some u ∧
      s'.host.content a = s.host.content a := by
  unfold removePath
  cases fault with
  | some e => exact ⟨h.attached, h.entry, hcontent, rfl⟩
  | none =>
    simp only
    split
    next => exact ⟨h.attached, h.entry, hcontent, rfl⟩
    next host hremove =>
      obtain ⟨hothers, hsame, -⟩ := HostFiles.remove_ok hremove
      exact ⟨h.attached, (hothers source (backupPath_ne source).symm).trans h.entry,
        (congrFun hsame f).trans hcontent, congrFun hsame a⟩

theorem reloadFromDisk_ok (hentry : s.host.entry source = some f)
    (hcontent : s.host.content f = some u)
    (hvalid : u.superblock.validate (u.mapBlocks * blockSize) = .ok ()) :
    ∃ s', reloadFromDisk none source s = .ok () s' ∧ s'.attached = f ∧ s'.host = s.host := by
  unfold reloadFromDisk
  simp only
  split
  next hnone =>
    rw [hentry] at hnone
    cases hnone
  next g hg =>
    obtain rfl : g = f := Option.some.inj (hg.symm.trans hentry)
    simp only [hcontent, hvalid]
    exact ⟨_, rfl, rfl, rfl⟩

theorem Standing.reload (h : Standing S v source a (some f) s)
    (hcontent : s.host.content f = some u) (hu : S.SameContent v u)
    (hvalid : u.superblock.validate (u.mapBlocks * blockSize) = .ok ()) :
    Yields (fun s' => Intact S v source s' ↔ env.reload = none ∨ f = a)
      (ignoring (removePath env.removeBackup (backupPath source))) s fun _ s' =>
        Yields (fun s' => Intact S v source s' ↔ env.reload = none ∨ f = a)
          (reloadFromDisk env.reload source) s' fun _ s' =>
            Intact S v source s' ↔ env.reload = none ∨ f = a := by
  obtain ⟨hatt, hentry, hfile, hold⟩ := h.remove env.removeBackup hcontent
  unfold Yields
  rw [ignoring_run]
  dsimp only
  generalize finalState (removePath env.removeBackup (backupPath source) s) = s' at *
  cases hreload : env.reload with
  | some e =>
    change Intact S v source s' ↔ _
    unfold Intact
    rw [or_iff_right (by simp), hatt, hentry, hold, Option.some.injEq]
    exact and_iff_left h.content
  | none =>
    obtain ⟨s'', hrun, hatt', hhost⟩ := reloadFromDisk_ok hentry hfile hvalid
    rw [hrun]
    refine iff_of_true ⟨?_, u, ?_, hu⟩ (.inl rfl)
    · rw [hhost, hatt', hentry]
    · rw [hhost, hatt', hfile]

end Exits

section Examples

end Examples

end SafeDefrag

end Oifs
