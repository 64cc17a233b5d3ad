import Oifs.Fsck

namespace Oifs

open PointerForest

namespace Volume

def Reachable (v : Volume) (id : Nat) : Prop :=
  Worklist.Reach v.dirChildren v.superblock.rootInode id

def InodeAllocated (v : Volume) (id : Nat) : Prop :=
  id < v.superblock.inodeCount ∧ v.inodeBit id = true

def BlockAllocated (v : Volume) (b : Nat) : Prop :=
  (v.superblock.dataBlockStart ≤ b ∧ b < v.superblock.blockCount ∧
    b - v.superblock.dataBlockStart < v.superblock.dataBitmapBlocks * bitmapBits) ∧
      v.dataBit (b - v.superblock.dataBlockStart) = true

open Classical in
noncomputable def reachableFiles (v : Volume) : Files where
  has id := decide (v.Reachable id ∧ ∃ i, v.readInodeInternal id = .ok i)
  inode id := match v.readInodeInternal id with
    | .ok i => i
    | .error _ => Inode.new .file

def EntriesAllocated (v : Volume) : Prop :=
  ∀ id inode, v.Reachable id → v.readInodeInternal id = .ok inode → inode.mode = .directory →
    ∀ e ∈ v.dirEntries inode, v.InodeAllocated e.inode

/-- What a consistent image is, over all pointers of all inodes: what a check should imply. -/
structure WellFormed (v : Volume) : Prop where
  entries : v.EntriesAllocated
  inodes : ∀ id, v.InodeAllocated id → v.Reachable id
  once : Separated treeShape (fileExtent v.reachableFiles) (v.cells v.reachableFiles)
  blocks : ∀ b, v.BlockAllocated b →
    b ∈ owned treeShape (fileExtent v.reachableFiles) (v.cells v.reachableFiles)
  data : ∀ b ∈ owned treeShape (fileExtent v.reachableFiles) (v.cells v.reachableFiles),
    v.isDataBlock b = true ∧ v.BlockAllocated b

/-- The cells of the two upper tiers behind those that the size of the file stands for are empty. -/
def NoHiddenPointers (v : Volume) : Prop :=
  ∀ id inode, v.Reachable id → v.readInodeInternal id = .ok inode → ∀ a < ptrsPerBlock,
    (visitedCells (logicalEntries inode) singleEnd ptrsPerBlock ≤ a →
      v.follow (inode.slot 11) a = 0) ∧
    (visitedCells (logicalEntries inode) doubleEnd (ptrsPerBlock * ptrsPerBlock) ≤ a →
      v.follow (inode.slot 12) a = 0)

end Volume

section Bits

variable {v : Volume}

theorem mem_allocatedInodes (h : v.Mountable) (id : Nat) :
    id ∈ v.allocatedInodes ↔ v.InodeAllocated id := by
  obtain ⟨hone, hin, -⟩ := h.bitmaps_inside
  obtain ⟨len, hvalid, -⟩ := h
  have hv := SuperBlock.validated_of_ok hvalid
  unfold Volume.allocatedInodes Volume.setBits Volume.InodeAllocated
  rw [if_pos hin, hone, List.mem_filter, List.mem_range]
  have hlimit : v.superblock.inodeCount ≤ 1 * bitmapBits := hv.inodes_le
  rw [Nat.min_eq_left hlimit]

theorem mem_allocatedDataBlocks (h : v.Mountable) (b : Nat) :
    b ∈ v.allocatedDataBlocks ↔ v.BlockAllocated b := by
  obtain ⟨-, -, hin⟩ := h.bitmaps_inside
  unfold Volume.allocatedDataBlocks Volume.setBits Volume.BlockAllocated
  rw [if_pos hin, List.mem_map]
  simp only [List.mem_filter, List.mem_range]
  constructor
  · rintro ⟨k, ⟨hk, hbit⟩, rfl⟩
    rw [Nat.add_sub_cancel_left]
    exact ⟨by omega, hbit⟩
  · rintro ⟨hrange, hbit⟩
    exact ⟨b - v.superblock.dataBlockStart, ⟨by omega, hbit⟩, by omega⟩

end Bits

section Traversal

variable {v : Volume}

theorem isDirectory_of_children (id : Nat) (next : List Nat) (h : v.dirChildren id = .ok next)
    (hne : next ≠ []) : v.isDirectory id = true := by
  unfold Volume.dirChildren at h
  unfold Volume.isDirectory
  cases hread : v.readInodeInternal id with
  | error e =>
    rw [hread] at h
    cases h
  | ok inode =>
    simp only [hread, bind, Except.bind] at h
    split at h
    next =>
      cases h
      exact absurd rfl hne
    next hdir => simpa using hdir

theorem referencedInodes_ok {ids : List Nat} (h : v.referencedInodes = .ok ids) :
    ids.Nodup ∧ ∀ id, id ∈ ids ↔ v.Reachable id := by
  unfold Volume.referencedInodes at h
  split at h
  next seen hscan =>
    cases h
    exact Worklist.mem_scan isDirectory_of_children hscan
  next => cases h
  next => cases h

/-- The check gives a report as soon as the root can be read. -/
theorem verifyIntegrity_total (v : Volume)
    (hroot : ∃ i, v.readInodeInternal v.superblock.rootInode = .ok i) :
    ∃ r, v.verifyIntegrity = .ok r := by
  have hread : ∀ id, (∃ i, v.readInodeInternal id = .ok i) → ∃ next, v.dirChildren id = .ok next := by
    rintro id ⟨i, hi⟩
    unfold Volume.dirChildren
    simp only [hi, bind, Except.bind]
    split
    next => exact ⟨_, rfl⟩
    next => exact ⟨_, rfl⟩
  have hfollow : ∀ id, v.isDirectory id = true → ∃ next, v.dirChildren id = .ok next := by
    intro id hdir
    refine hread id ?_
    unfold Volume.isDirectory at hdir
    split at hdir
    next i hi => exact ⟨i, hi⟩
    next => cases hdir
  have hnodes : ∀ id next, v.dirChildren id = .ok next →
      id ∈ List.range v.superblock.usableInodeCount ∧ next.length ≤ v.dirWeight id := by
    intro id next hnext
    refine ⟨?_, by rw [Volume.dirWeight, hnext]⟩
    by_contra hout
    have herr : v.readInodeInternal id =
        .error (Volume.inodeOutside id v.superblock.usableInodeCount) :=
      if_pos (by simpa using hout)
    unfold Volume.dirChildren at hnext
    rw [herr] at hnext
    cases hnext
  have hscan : ∃ seen, v.referencedInodes = .ok seen := by
    unfold Volume.referencedInodes
    split
    next seen _ => exact ⟨seen, rfl⟩
    next hnone =>
      refine absurd hnone (Worklist.scan_ne_none List.nodup_range hnodes ?_)
      simp [Volume.scanRounds]
    next e herr =>
      refine absurd herr (Worklist.scan_ne_error hfollow (fun a ha => ?_) e)
      rw [List.mem_singleton.mp ha]
      exact hread _ hroot
  obtain ⟨seen, hseen⟩ := hscan
  unfold Volume.verifyIntegrity
  simp only [hseen, bind, Except.bind]
  exact ⟨_, rfl⟩

end Traversal

section Pointers

variable {v : Volume} {F : Files} {id : Nat}

theorem fileExtent_zero (F : Files) (r : Nat × Nat) : fileExtent F r 0 = ∅ := by
  unfold fileExtent
  split
  next => exact chunkExtent_of_isEmpty rfl
  next => exact rawExtent_zero r

theorem mem_visitedPlaces {i : Inode} {l : Place (Nat × Nat)} (h : l ∈ visitedPlaces id i) :
    treeShape.Valid l ∧ l.root.1 = id := by
  have hbelow : ∀ {d limit s : Nat}, limit ≤ ptrsPerBlock → d = treeShape.depth (id, s) →
      l ∈ (belowPaths d limit []).map (⟨(id, s), ·⟩) → treeShape.Valid l ∧ l.root.1 = id := by
    intro d limit s hlimit hd hmem
    obtain ⟨p, hp, rfl⟩ := List.mem_map.mp hmem
    obtain ⟨t, rfl, hlen, hdrop, hlast⟩ := mem_belowPaths.mp hp
    rw [List.append_nil]
    refine ⟨⟨by rw [← hd]; exact hlen, fun k hk => ?_⟩, rfl⟩
    rcases List.eq_nil_or_concat t with rfl | ⟨t', a, rfl⟩
    · cases hk
    · rw [List.concat_eq_append] at hk hdrop hlast
      rcases List.mem_append.mp hk with hk | hk
      · exact hdrop k (by rwa [List.dropLast_concat])
      · rw [List.mem_singleton.mp hk]
        exact Nat.lt_of_lt_of_le (hlast a (by simp)) hlimit
  have hcells : ∀ total covered perCell, Volume.visitedCells total covered perCell ≤ ptrsPerBlock := by
    intro total covered perCell
    unfold Volume.visitedCells
    split
    next => exact Nat.min_le_right _ _
    next => exact Nat.le_refl _
  unfold visitedPlaces at h
  rcases List.mem_append.mp h with h | h
  · rcases List.mem_append.mp h with h | h
    · rcases List.mem_append.mp h with h | h
      · obtain ⟨s, -, rfl⟩ := List.mem_map.mp h
        exact ⟨⟨Nat.zero_le _, by simp⟩, rfl⟩
      · exact hbelow (Nat.le_refl _) rfl h
    · exact hbelow (hcells ..) rfl h
  · exact hbelow (hcells ..) rfl h

theorem visited_of_get_ne {l : Place (Nat × Nat)} (hhas : F.has id = true)
    (hhidden : ∀ a < ptrsPerBlock,
      (Volume.visitedCells (Volume.logicalEntries (F.inode id)) singleEnd ptrsPerBlock ≤ a →
        v.follow ((F.inode id).slot 11) a = 0) ∧
      (Volume.visitedCells (Volume.logicalEntries (F.inode id)) doubleEnd
          (ptrsPerBlock * ptrsPerBlock) ≤ a →
        v.follow ((F.inode id).slot 12) a = 0))
    (hl : treeShape.Valid l) (hroot : l.root.1 = id) (hne : (v.cells F).get l ≠ 0) :
    l ∈ visitedPlaces id (F.inode id) := by
  obtain ⟨⟨id', s⟩, p⟩ := l
  cases hroot
  have hslot : (v.cells F).get ⟨(id', s), []⟩ = (F.inode id').slot s := by
    rw [Cells.get_root, v.cells_root hhas]
  have hbelow : ∀ {d limit : Nat}, d = treeShape.depth (id', s) →
      (∀ a < ptrsPerBlock, limit ≤ a → v.follow ((F.inode id').slot s) a = 0) →
      p ∈ belowPaths d limit [] := by
    intro d limit hd hzero
    refine mem_belowPaths.mpr ⟨p, by simp, by rw [hd]; exact hl.1,
      fun k hk => hl.2 k (List.dropLast_subset _ hk), fun a ha => ?_⟩
    by_contra hge
    obtain ⟨t, rfl⟩ : ∃ t, p = t ++ [a] := List.getLast?_eq_some_iff.mp ha
    have hcell : (v.cells F).get ⟨(id', s), [a]⟩ = 0 := by
      rw [Cells.get_cons, hslot]
      exact hzero a (hl.2 a (by simp)) (by omega)
    exact hne (Cells.get_below_zero hcell t)
  have hs : s ≤ 12 := by
    by_contra hs
    have hnone : (F.inode id').slot s = 0 := by
      rw [Inode.slot, dif_neg (by omega), if_neg (by omega)]
    rw [hnone] at hslot
    exact hne (by simpa using Cells.get_below_zero hslot p)
  unfold visitedPlaces
  simp only [List.mem_append, List.mem_map, List.mem_range, Place.mk.injEq, Prod.mk.injEq, true_and]
  rcases Nat.lt_or_ge s 10 with hlt | hge
  · have hdepth : p.length ≤ s - 9 := hl.1
    have hnil : p = [] := List.length_eq_zero_iff.mp (by omega)
    exact Or.inl (Or.inl (Or.inl ⟨s, hlt, rfl, hnil.symm⟩))
  · obtain rfl | rfl | rfl : s = 10 ∨ s = 11 ∨ s = 12 := by omega
    · exact Or.inl (Or.inl (Or.inr ⟨p, hbelow rfl fun a ha hge => absurd ha (by omega), rfl, rfl⟩))
    · exact Or.inl (Or.inr ⟨p, hbelow rfl fun a ha => (hhidden a ha).1, rfl, rfl⟩)
    · exact Or.inr ⟨p, hbelow rfl fun a ha => (hhidden a ha).2, rfl, rfl⟩

theorem not_visited_of_hidden {i : Inode} {a s limit : Nat}
    (hlimit : limit = if s = 11 then
        Volume.visitedCells (Volume.logicalEntries i) singleEnd ptrsPerBlock
      else Volume.visitedCells (Volume.logicalEntries i) doubleEnd (ptrsPerBlock * ptrsPerBlock))
    (hs : s = 11 ∨ s = 12) (ha : limit ≤ a) : (⟨(id, s), [a]⟩ : Place (Nat × Nat)) ∉
      visitedPlaces id i := by
  have hbelow : ∀ d, [a] ∉ belowPaths d limit [] := by
    intro d hmem
    obtain ⟨t, ht, -, -, hlast⟩ := mem_belowPaths.mp hmem
    rw [List.append_nil] at ht
    subst ht
    have hlt := hlast a rfl
    omega
  unfold visitedPlaces
  simp only [List.mem_append, List.mem_map, List.mem_range, Place.mk.injEq, Prod.mk.injEq, true_and]
  rintro (((⟨k, hk, rfl, hnil⟩ | ⟨p, -, h10, -⟩) | ⟨p, hp, rfl, rfl⟩) | ⟨p, hp, rfl, rfl⟩)
  · cases hnil
  · omega
  · rw [if_pos rfl] at hlimit
    exact hbelow 2 (hlimit ▸ hp)
  · rw [if_neg (by decide)] at hlimit
    exact hbelow 3 (hlimit ▸ hp)

end Pointers

section Report

variable {v : Volume} {r : FsckReport}

theorem reachableFiles_has {id : Nat} {i : Inode} (hreach : v.Reachable id)
    (hread : v.readInodeInternal id = .ok i) :
    v.reachableFiles.has id = true ∧ v.reachableFiles.inode id = i := by
  simp only [Volume.reachableFiles, hread, decide_eq_true_eq]
  exact ⟨⟨hreach, i, rfl⟩, trivial⟩

theorem reachableFiles_read {id : Nat} (h : v.reachableFiles.has id = true) :
    v.Reachable id ∧ v.readInodeInternal id = .ok (v.reachableFiles.inode id) := by
  simp only [Volume.reachableFiles, decide_eq_true_eq] at h
  obtain ⟨hreach, i, hread⟩ := h
  exact ⟨hreach, by rw [(reachableFiles_has hreach hread).2, hread]⟩

theorem has_of_get_ne {F : Files} {l : Place (Nat × Nat)} (h : (v.cells F).get l ≠ 0) :
    F.has l.root.1 = true := by
  by_contra hno
  obtain ⟨root, p⟩ := l
  have hroot : (v.cells F).get ⟨root, []⟩ = 0 := by
    rw [Cells.get_root]
    exact if_neg hno
  exact h (by simpa using Cells.get_below_zero hroot p)

theorem disjoint_of_nodup_flatMap {α β : Type} {f : α → List β} {l : List α} {a a' : α}
    (h : (l.flatMap f).Nodup) (ha : a ∈ l) (ha' : a' ∈ l) (hne : a ≠ a') :
    (f a).Disjoint (f a') := by
  have hsymm : Std.Symm (Function.onFun List.Disjoint f) := ⟨fun _ _ hdisj => hdisj.symm⟩
  exact (List.nodup_flatMap.mp h).2.forall ha ha' hne

/-- What a clean report says about the collected blocks. -/
structure CleanCollection (v : Volume) : Prop where
  inodes : ∀ id, v.InodeAllocated id → v.Reachable id
  leaked : ∀ b, v.BlockAllocated b → ∃ id, v.reachableFiles.has id = true ∧
    ∃ l ∈ visitedPlaces id (v.reachableFiles.inode id),
      b ∈ owns treeShape (fileExtent v.reachableFiles) (v.cells v.reachableFiles) l
  missing : ∀ id, v.reachableFiles.has id = true →
    ∀ l ∈ visitedPlaces id (v.reachableFiles.inode id),
      ∀ b ∈ owns treeShape (fileExtent v.reachableFiles) (v.cells v.reachableFiles) l,
        v.BlockAllocated b
  once : ∀ id id', v.reachableFiles.has id = true → v.reachableFiles.has id' = true →
    ∀ l ∈ visitedPlaces id (v.reachableFiles.inode id),
    ∀ l' ∈ visitedPlaces id' (v.reachableFiles.inode id'), ∀ b,
      b ∈ owns treeShape (fileExtent v.reachableFiles) (v.cells v.reachableFiles) l →
      b ∈ owns treeShape (fileExtent v.reachableFiles) (v.cells v.reachableFiles) l' → l = l'

theorem blocksOf_eq {id : Nat} (h : v.reachableFiles.has id = true) : v.blocksOf id =
    (visitedPlaces id (v.reachableFiles.inode id)).flatMap (blocksAt v v.reachableFiles) := by
  rw [← collectInodeBlocks_eq h]
  unfold Volume.blocksOf
  rw [(reachableFiles_read h).2]

/-- A clean report means that marks and reachable files agree. -/
theorem cleanCollection (hmount : v.Mountable) (h : v.verifyIntegrity = .ok r)
    (hclean : r.isClean = true) : CleanCollection v := by
  unfold Volume.verifyIntegrity at h
  obtain ⟨ids, hids, h⟩ := except_bind_ok.mp h
  cases h
  obtain ⟨hnodup, hmem⟩ := referencedInodes_ok hids
  simp only [FsckReport.isClean, Bool.and_eq_true, List.isEmpty_iff] at hclean
  obtain ⟨⟨⟨horphan, hleaked⟩, hmissing⟩, hcross⟩ := hclean
  have hmissing' := (List.mergeSort_perm ((ids.flatMap v.blocksOf).dedup.filter
    (· ∉ v.allocatedDataBlocks)) (· ≤ ·)).symm
  rw [hmissing] at hmissing'
  rw [List.filter_eq_nil_iff] at horphan hleaked hcross
  have hmissing'' := List.filter_eq_nil_iff.mp hmissing'.eq_nil
  -- which blocks were collected, and from where
  have hcollected : ∀ b, b ∈ ids.flatMap v.blocksOf ↔ ∃ id, v.reachableFiles.has id = true ∧
      ∃ l ∈ visitedPlaces id (v.reachableFiles.inode id),
        b ∈ owns treeShape (fileExtent v.reachableFiles) (v.cells v.reachableFiles) l := by
    intro b
    rw [List.mem_flatMap]
    constructor
    · rintro ⟨id, hid, hb⟩
      have hhas : v.reachableFiles.has id = true := by
        unfold Volume.blocksOf at hb
        split at hb
        next i hi => exact (reachableFiles_has ((hmem id).mp hid) hi).1
        next => cases hb
      rw [blocksOf_eq hhas, List.mem_flatMap] at hb
      obtain ⟨l, hl, hb⟩ := hb
      exact ⟨id, hhas, l, hl, mem_blocksAt.mp hb⟩
    · rintro ⟨id, hhas, l, hl, hb⟩
      refine ⟨id, (hmem id).mpr (reachableFiles_read hhas).1, ?_⟩
      rw [blocksOf_eq hhas, List.mem_flatMap]
      exact ⟨l, hl, mem_blocksAt.mpr hb⟩
  have hall : (ids.flatMap v.blocksOf).Nodup := by
    rw [List.nodup_iff_count_le_one]
    intro b
    by_contra hcount
    have hb : b ∈ ids.flatMap v.blocksOf := List.count_pos_iff.mp (by omega)
    exact hcross b (List.mem_dedup.mpr hb) (by simpa using Nat.lt_of_not_le hcount)
  have heach := (List.nodup_flatMap.mp hall).1
  refine ⟨fun id hid => ?_, fun b hb => ?_, fun id hhas l hl b hb => ?_,
    fun id id' hhas hhas' l hl l' hl' b hb hb' => ?_⟩
  · by_contra hno
    exact horphan id ((mem_allocatedInodes hmount id).mpr hid)
      (by simpa using fun hin => hno ((hmem id).mp hin))
  · refine (hcollected b).mp ?_
    by_contra hno
    exact hleaked b ((mem_allocatedDataBlocks hmount b).mpr hb) (by simpa using hno)
  · have hin := (hcollected b).mpr ⟨id, hhas, l, hl, hb⟩
    refine (mem_allocatedDataBlocks hmount b).mp ?_
    by_contra hno
    exact hmissing'' b (List.mem_dedup.mpr hin) (by simpa using hno)
  · have hid := (hmem id).mpr (reachableFiles_read hhas).1
    have hid' := (hmem id').mpr (reachableFiles_read hhas').1
    by_contra hne
    by_cases hsame : id = id'
    · -- two places of one inode
      subst hsame
      have hplaces := heach id hid
      rw [blocksOf_eq hhas] at hplaces
      have hdisj := disjoint_of_nodup_flatMap hplaces hl hl' hne
      exact hdisj (mem_blocksAt.mpr hb) (mem_blocksAt.mpr hb')
    · have hdisj := disjoint_of_nodup_flatMap hall hid hid' hsame
      have hin : b ∈ v.blocksOf id := by
        rw [blocksOf_eq hhas, List.mem_flatMap]
        exact ⟨l, hl, mem_blocksAt.mpr hb⟩
      have hin' : b ∈ v.blocksOf id' := by
        rw [blocksOf_eq hhas', List.mem_flatMap]
        exact ⟨l', hl', mem_blocksAt.mpr hb'⟩
      exact hdisj hin hin'

/-- A clean report means a consistent image exactly if entries name allocated inodes and every
pointer was seen. -/
theorem clean_report_iff (hmount : v.Mountable) (h : v.verifyIntegrity = .ok r)
    (hclean : r.isClean = true) :
    v.WellFormed ↔ v.EntriesAllocated ∧ v.NoHiddenPointers := by
  have hc := cleanCollection hmount h hclean
  have hdata : ∀ b, v.BlockAllocated b → v.isDataBlock b = true := by
    intro b hb
    have hpos := hmount.start_pos
    exact Volume.isDataBlock_iff.mpr ⟨by have := hb.1.1; omega, hb.1.1, hb.1.2.1⟩
  constructor
  · intro hw
    -- a hidden pointer would be a second one to a block that is accounted for
    have hhidden : ∀ {id s a limit : Nat} {i : Inode}, v.Reachable id →
        v.readInodeInternal id = .ok i → (s = 11 ∨ s = 12) → a < ptrsPerBlock →
        limit = (if s = 11 then Volume.visitedCells (Volume.logicalEntries i) singleEnd ptrsPerBlock
          else Volume.visitedCells (Volume.logicalEntries i) doubleEnd (ptrsPerBlock * ptrsPerBlock)) →
        limit ≤ a → v.follow (i.slot s) a = 0 := by
      intro id s a limit i hreach hread hs ha hlimit hle
      obtain ⟨hhas, rfl⟩ := reachableFiles_has hreach hread
      by_contra hne
      have hin : treeShape.Inner ⟨(id, s), []⟩ := by
        refine ⟨⟨by simp, by simp⟩, ?_⟩
        simp only [treeShape, List.length_nil]
        omega
      have hin' : treeShape.Inner ⟨(id, s), [a]⟩ := by
        refine ⟨hin.child ha, ?_⟩
        simp only [treeShape, List.length_singleton]
        omega
      have hget : (v.cells v.reachableFiles).get ⟨(id, s), [a]⟩ =
          v.follow ((v.reachableFiles.inode id).slot s) a := by
        rw [Cells.get_cons, Cells.get_root, v.cells_root hhas]
        rfl
      have hown : (v.cells v.reachableFiles).get ⟨(id, s), [a]⟩ ∈ owns treeShape
          (fileExtent v.reachableFiles) (v.cells v.reachableFiles) ⟨(id, s), [a]⟩ :=
        owns_inner hin' (by rwa [hget])
      obtain ⟨id', hhas', l, hl, hb⟩ := hc.leaked _ (hw.data _ ⟨_, hin'.1, hown⟩).2
      have hplace := hw.once _ _ (mem_visitedPlaces hl).1 hin'.1 _ hb hown
      subst hplace
      cases (mem_visitedPlaces hl).2
      exact not_visited_of_hidden hlimit hs hle hl
    refine ⟨hw.entries, fun id i hreach hread a ha => ⟨fun hle => ?_, fun hle => ?_⟩⟩
    · exact hhidden hreach hread (Or.inl rfl) ha rfl hle
    · exact hhidden hreach hread (Or.inr rfl) ha rfl hle
  · rintro ⟨hentries, hhidden⟩
    -- every place with a pointer has been visited
    have hvisited : ∀ l b, treeShape.Valid l →
        b ∈ owns treeShape (fileExtent v.reachableFiles) (v.cells v.reachableFiles) l →
        v.reachableFiles.has l.root.1 = true ∧
          l ∈ visitedPlaces l.root.1 (v.reachableFiles.inode l.root.1) := by
      intro l b hl hb
      have hne := get_ne_zero_of_owns (fileExtent_zero v.reachableFiles) hb
      have hhas := has_of_get_ne hne
      obtain ⟨hreach, hread⟩ := reachableFiles_read hhas
      exact ⟨hhas, visited_of_get_ne hhas (hhidden _ _ hreach hread) hl rfl hne⟩
    refine ⟨hentries, hc.inodes, fun l l' hl hl' b hb hb' => ?_, fun b hb => ?_, ?_⟩
    · obtain ⟨hhas, hin⟩ := hvisited l b hl hb
      obtain ⟨hhas', hin'⟩ := hvisited l' b hl' hb'
      exact hc.once _ _ hhas hhas' l hin l' hin' b hb hb'
    · obtain ⟨id, -, l, hl, hown⟩ := hc.leaked b hb
      exact ⟨l, (mem_visitedPlaces hl).1, hown⟩
    · rintro b ⟨l, hl, hb⟩
      obtain ⟨hhas, hin⟩ := hvisited l b hl hb
      have hmarked := hc.missing _ hhas l hin b hb
      exact ⟨hdata b hmarked, hmarked⟩

def rootOnly (first : Nat → UInt8) : Volume :=
  let root : Inode := { (Inode.new .directory).setSlot 0 4 with size := blockSize }
  { Session.tinyVolume root first with
    inode := fun id => if id = 0 then .ok root else .ok (Inode.new .file) }

theorem rootOnly_mountable (first : Nat → UInt8) : (rootOnly first).Mountable :=
  ⟨24 * blockSize, by show (rootOnly fun _ => 0).superblock.validate _ = _; decide, rfl⟩

def oneEntry (id : Nat) : Nat → UInt8 :=
  (serializeInto ⟨id, hashFilename "a", "a"⟩ (fun _ => 0) 0).1

/-- A directory with one file of two blocks, the second behind an indirect block. -/
def indirectFile : Volume :=
  let file : Inode := { ((Inode.new .file).setSlot 0 5).setSlot 10 6 with size := 11 * blockSize }
  { rootOnly (oneEntry 1) with
    inodeBit := fun k => k < 2
    dataBit := fun k => k < 4
    inode := fun id => if id = 1 then .ok file else (rootOnly (oneEntry 1)).inode id }.writeBlockPtr 6 0 7

theorem indirectFile_reachable {id : Nat} (h : indirectFile.Reachable id) : id = 1 ∨ id = 0 := by
  have hscan : indirectFile.referencedInodes = .ok [1, 0] := by decide +kernel
  simpa using ((referencedInodes_ok hscan).2 id).mpr h

theorem indirectFile_wellFormed : ∃ r, indirectFile.verifyIntegrity = .ok r ∧
    r.isClean = true ∧ indirectFile.WellFormed := by
  have hmount : indirectFile.Mountable := ⟨24 * blockSize, by decide, rfl⟩
  have hcheck : indirectFile.verifyIntegrity = .ok ⟨[], [], [], []⟩ := by decide +kernel
  refine ⟨_, hcheck, rfl, (clean_report_iff hmount hcheck rfl).mpr ⟨?_, ?_⟩⟩
  · intro id i hid hread hmode e he
    rcases indirectFile_reachable hid with rfl | rfl
    · cases hread
      cases hmode
    · cases hread
      have hentries : indirectFile.dirEntries
          { (Inode.new .directory).setSlot 0 4 with size := blockSize } =
            [⟨1, hashFilename "a", "a"⟩] := by
        decide +kernel
      rw [hentries] at he
      rw [List.mem_singleton.mp he]
      exact ⟨by decide, by decide⟩
  · intro id i hid hread a _
    rcases indirectFile_reachable hid with rfl | rfl
    · cases hread
      exact ⟨fun _ => rfl, fun _ => rfl⟩
    · cases hread
      exact ⟨fun _ => rfl, fun _ => rfl⟩

def hiddenPointer : Volume :=
  let file : Inode := { (Inode.new .file).setSlot 11 5 with size := (singleEnd + 1) * blockSize }
  { rootOnly (oneEntry 1) with
    inodeBit := fun k => k < 2
    dataBit := fun k => k < 2
    inode := fun id => if id = 1 then .ok file else (rootOnly (oneEntry 1)).inode id }.writeBlockPtr 5 1 9

/-- An entry that names a free inode, and a file with a pointer to a free block: both images pass the
check. -/
theorem clean_report_of_damaged_image :
    ((rootOnly (oneEntry 1)).Mountable ∧
      (∃ r, (rootOnly (oneEntry 1)).verifyIntegrity = .ok r ∧ r.isClean = true) ∧
      ¬ (rootOnly (oneEntry 1)).EntriesAllocated) ∧
    (hiddenPointer.Mountable ∧
      (∃ r, hiddenPointer.verifyIntegrity = .ok r ∧ r.isClean = true) ∧
      ∃ b ∈ owned treeShape (fileExtent hiddenPointer.reachableFiles)
        (hiddenPointer.cells hiddenPointer.reachableFiles), ¬ hiddenPointer.BlockAllocated b) := by
  refine ⟨⟨rootOnly_mountable _, ⟨⟨[], [], [], []⟩, by decide +kernel, rfl⟩, fun h => ?_⟩,
    ⟨24 * blockSize, by decide, rfl⟩, ⟨⟨[], [], [], []⟩, by decide +kernel, rfl⟩, 9, ?_, ?_⟩
  · have hentry : (⟨1, hashFilename "a", "a"⟩ : DirectoryEntry) ∈
        (rootOnly (oneEntry 1)).dirEntries
          { (Inode.new .directory).setSlot 0 4 with size := blockSize } := by
      decide +kernel
    have hfree := h 0 _ .root rfl rfl _ hentry
    exact absurd hfree.2 (by decide)
  · have hscan : hiddenPointer.referencedInodes = .ok [1, 0] := by decide +kernel
    have hreach : hiddenPointer.Reachable 1 := ((referencedInodes_ok hscan).2 1).mp (by simp)
    obtain ⟨hhas, hinode⟩ := reachableFiles_has hreach
      (show hiddenPointer.readInodeInternal 1 = .ok
        { (Inode.new .file).setSlot 11 5 with size := (singleEnd + 1) * blockSize } from rfl)
    have hin : treeShape.Inner ⟨(1, 11), [1]⟩ :=
      ⟨⟨by decide, by decide⟩, by decide⟩
    have hget : (hiddenPointer.cells hiddenPointer.reachableFiles).get ⟨(1, 11), [1]⟩ = 9 := by
      rw [Cells.get_cons, Cells.get_root, hiddenPointer.cells_root hhas, hinode]
      decide +kernel
    refine ⟨⟨(1, 11), [1]⟩, hin.1, ?_⟩
    rw [← hget]
    exact owns_inner hin (by rw [hget]; decide)
  · intro hmarked
    exact absurd hmarked.2 (by decide)

end Report

end Oifs
