import Oifs.ChunkTree
import Oifs.FileContent
import Oifs.Mountable
import Oifs.Outcome
import Oifs.Truncate

namespace Oifs

open PointerForest

/-- The logical index of the first block below a path in a tree of depth `d`. -/
def pathBase (d : Nat) : List Nat → Nat
  | [] => 0
  | i :: q => pathBase d q + i * ptrsPerBlock ^ (d - (q.length + 1))

def tierStart (s : Nat) : Nat := if s ≤ 10 then s else if s = 11 then singleEnd else doubleEnd

def firstLogical (l : Place (Nat × Nat)) : Nat :=
  tierStart l.root.2 + pathBase (l.root.2 - 9) l.path

theorem firstLogical_leaf {id idx : Nat} {l : Place (Nat × Nat)} (h : leafPlace id idx = some l) :
    firstLogical l = idx := by
  obtain ⟨path, hpath, rfl⟩ := Option.map_eq_some_iff.mp h
  obtain ⟨hslots, hidx⟩ := BlockPath.fromLogical_some hpath
  cases path with
  | direct k =>
    have hk : k < 10 := hslots
    have hle : k ≤ 10 := by omega
    subst hidx
    simp [BlockPath.place, BlockPath.toLogical, firstLogical, tierStart, pathBase, hle]
  | single k =>
    simp only [BlockPath.toLogical, directBlocks] at hidx
    simp [BlockPath.place, firstLogical, tierStart, pathBase, hidx]
  | double a b =>
    simp only [BlockPath.toLogical, ptrsPerBlock] at hidx
    simp [BlockPath.place, firstLogical, tierStart, pathBase, ptrsPerBlock]
    omega
  | triple a b k =>
    simp only [BlockPath.toLogical, ptrsPerBlock] at hidx
    simp [BlockPath.place, firstLogical, tierStart, pathBase, ptrsPerBlock]
    omega

def Surviving (n : Nat) (l : Place (Nat × Nat)) : Prop := firstLogical l < n

theorem Surviving.parent {n : Nat} (r : Nat × Nat) (k : Nat) (q : List Nat)
    (h : Surviving n ⟨r, k :: q⟩) : Surviving n ⟨r, q⟩ := by
  unfold Surviving firstLogical at *
  simp only [pathBase] at h
  exact Nat.lt_of_le_of_lt (Nat.add_le_add_left (Nat.le_add_right _ _) _) h

theorem readBlockPtr_writeOther (v : Volume) {b k c j : Nat} (h : (c, j) ≠ (b, k)) :
    (v.writeBlockPtr b k 0).readBlockPtr c j = v.readBlockPtr c j := by
  unfold Volume.writeBlockPtr
  by_cases hc : c = b
  · subst hc
    have hj : j ≠ k := fun hj => h (by rw [hj])
    unfold Volume.readBlockPtr
    rw [Volume.setBlock_mapBlocks]
    split
    next hin => rw [Volume.setBlock_block_same hin.1, cell_patch_other (by simp) hj]
    next => rfl
  · exact Volume.readBlockPtr_congr (Volume.setBlock_mapBlocks ..)
      (Volume.setBlock_block_other hc) j

theorem readBlockPtr_writeZero (v : Volume) (b k c j : Nat) :
    (v.writeBlockPtr b k 0).readBlockPtr c j = v.readBlockPtr c j ∨
      (v.writeBlockPtr b k 0).readBlockPtr c j = 0 := by
  unfold Volume.writeBlockPtr Volume.readBlockPtr
  rw [Volume.setBlock_mapBlocks]
  split
  next hin =>
    by_cases hc : c = b
    · subst hc
      rw [Volume.setBlock_block_same hin.1]
      by_cases hj : j = k
      · subst hj
        exact Or.inr (cell_patch_same (by decide))
      · exact Or.inl (cell_patch_other (by simp) hj)
    · rw [Volume.setBlock_block_other hc]
      exact Or.inl rfl
  next => exact Or.inl rfl

theorem readBlockPtr_writeSame (v : Volume) (b k : Nat) :
    (v.writeBlockPtr b k 0).readBlockPtr b k = 0 := by
  unfold Volume.writeBlockPtr Volume.readBlockPtr
  rw [Volume.setBlock_mapBlocks]
  split
  next hin => rw [Volume.setBlock_block_same hin.1, cell_patch_same (by decide)]
  next => rfl

theorem readBlockPtr_zeroCellsFrom (v : Volume) (b keep c k : Nat) :
    (v.zeroCellsFrom b keep).readBlockPtr c k =
      if c = b ∧ keep ≤ k then 0 else v.readBlockPtr c k := by
  unfold Volume.zeroCellsFrom
  by_cases hc : c = b
  · subst hc
    unfold Volume.readBlockPtr
    rw [Volume.setBlock_mapBlocks]
    by_cases hin : c < v.mapBlocks ∧ k * 8 + 8 ≤ blockSize
    · rw [if_pos hin, if_pos hin, Volume.setBlock_block_same hin.1]
      by_cases hk : keep ≤ k
      · rw [if_pos ⟨rfl, hk⟩]
        refine (congrArg LittleEndian.decode (List.map_congr_left fun m hm => ?_)).trans
          (cell_zero (f := fun _ => 0) (i := k) fun _ => rfl)
        exact if_pos (by omega)
      · rw [if_neg fun h => hk h.2]
        refine congrArg LittleEndian.decode (List.map_congr_left fun m hm => ?_)
        have hm := List.mem_range.mp hm
        exact if_neg (by omega)
    · rw [if_neg hin, if_neg hin, ite_self]
  · rw [if_neg fun h => hc h.1]
    exact Volume.readBlockPtr_congr (Volume.setBlock_mapBlocks ..)
      (Volume.setBlock_block_other hc) k

theorem mem_childPointers {v : Volume} {b c : Nat} (h : c ∈ v.childPointers b) :
    ∃ a < ptrsPerBlock, v.readBlockPtr b a = c ∧ c ≠ 0 := by
  unfold Volume.childPointers at h
  obtain ⟨hmem, hne⟩ := List.mem_filter.mp h
  obtain ⟨a, ha, rfl⟩ := List.mem_map.mp hmem
  exact ⟨a, List.mem_range.mp ha, rfl, by simpa using hne⟩

theorem mem_doubleBlocks {w : Volume} {j : Inode} (id : Nat) {b : Nat} (hdib : j.slot 11 ≠ 0)
    (hb : b ∈ w.childPointers (j.slot 11) ++ [j.slot 11]) :
    ∃ q, treeShape.Valid ⟨(id, 11), q⟩ ∧
      (w.cells (Files.single id j)).get ⟨(id, 11), q⟩ = b ∧ b ≠ 0 := by
  have hroot : (w.cells (Files.single id j)).get ⟨(id, 11), []⟩ = j.slot 11 := cells_single_root ..
  have hin : treeShape.Inner ⟨(id, 11), []⟩ := ⟨⟨by simp, by simp⟩, by simp [treeShape]⟩
  rcases List.mem_append.mp hb with hchild | hself
  · obtain ⟨a, ha, hget, hne⟩ := mem_childPointers hchild
    refine ⟨[a], hin.child ha, ?_, hne⟩
    rw [Cells.get_cons, hroot, if_neg hdib]
    exact hget
  · rw [List.mem_singleton.mp hself]
    exact ⟨[], hin.1, hroot, hdib⟩

theorem mem_tripleBlocks {w : Volume} {j : Inode} (id : Nat) {b : Nat} (htib : j.slot 12 ≠ 0)
    (hb : b ∈ ((w.childPointers (j.slot 12)).flatMap fun dib => w.childPointers dib ++ [dib]) ++
      [j.slot 12]) :
    ∃ q, treeShape.Valid ⟨(id, 12), q⟩ ∧
      (w.cells (Files.single id j)).get ⟨(id, 12), q⟩ = b ∧ b ≠ 0 := by
  have hroot : (w.cells (Files.single id j)).get ⟨(id, 12), []⟩ = j.slot 12 := cells_single_root ..
  have hin : treeShape.Inner ⟨(id, 12), []⟩ := ⟨⟨by simp, by simp⟩, by simp [treeShape]⟩
  rcases List.mem_append.mp hb with hbelow | hself
  · obtain ⟨dib, hdib, hb⟩ := List.mem_flatMap.mp hbelow
    obtain ⟨a, ha, hget, hne⟩ := mem_childPointers hdib
    have hvalid : treeShape.Valid ⟨(id, 12), [a]⟩ := hin.child ha
    have hdibGet : (w.cells (Files.single id j)).get ⟨(id, 12), [a]⟩ = dib := by
      rw [Cells.get_cons, hroot, if_neg htib]
      exact hget
    rcases List.mem_append.mp hb with hchild | hself
    · obtain ⟨k, hk, hget', hne'⟩ := mem_childPointers hchild
      have hin' : treeShape.Inner ⟨(id, 12), [a]⟩ := ⟨hvalid, by simp [treeShape]⟩
      refine ⟨[k, a], hin'.child hk, ?_, hne'⟩
      rw [Cells.get_cons, hdibGet, if_neg hne]
      exact hget'
    · rw [List.mem_singleton.mp hself]
      exact ⟨[a], hvalid, hdibGet, hne⟩
  · rw [List.mem_singleton.mp hself]
    exact ⟨[], hin.1, hroot, htib⟩

theorem not_surviving_slot {n id s first : Nat} (hfirst : tierStart s = first) (hle : n ≤ first) :
    ¬Surviving n ⟨(id, s), []⟩ := by
  simp only [Surviving, firstLogical, pathBase, hfirst]
  omega

theorem not_surviving_double {n id keep k : Nat} (hkeep : n ≤ singleEnd + keep * ptrsPerBlock)
    (hle : keep ≤ k) : ¬Surviving n ⟨(id, 11), [k]⟩ := by
  have hfirst : firstLogical ⟨(id, 11), [k]⟩ = singleEnd + k * ptrsPerBlock := by
    simp [firstLogical, tierStart, pathBase]
  have hmul := Nat.mul_le_mul_right ptrsPerBlock hle
  rw [Surviving, hfirst]
  omega

theorem le_keptCells (n : Nat) : n ≤ singleEnd + divCeil (n - 522) 512 * ptrsPerBlock := by
  simp only [divCeil, singleEnd, directBlocks, ptrsPerBlock]
  omega

/-- Pointers behind the first `n` blocks are being removed: inode and volume have become `j` and
`w`, and nothing leads to `freed`. -/
structure Shrinks (n id : Nat) (i : Inode) (v : Volume) (j : Inode) (w : Volume)
    (freed : List Nat) : Prop where
  erased : Erased treeShape (Surviving n) (v.cells (Files.single id i)) (w.cells (Files.single id j))
  tables : v.SameTables w
  bits : w.dataBit = v.dataBit
  bytes : ∀ b, (∀ l, treeShape.Inner l → (v.cells (Files.single id i)).get l ≠ 0 →
    (v.cells (Files.single id i)).get l ≠ b) → w.block b = v.block b
  sameMeta : SameMeta i j
  freed : ∀ b ∈ freed, ∃ l, treeShape.Valid l ∧
    b ∈ owns treeShape rawExtent (v.cells (Files.single id i)) l ∧
      (w.cells (Files.single id j)).get l = 0

namespace Shrinks

variable {n id : Nat} {i j : Inode} {v w : Volume} {freed : List Nat}

variable {w' : Volume} {more : List Nat} {j' : Inode}

theorem refl (n id : Nat) (i : Inode) (v : Volume) : Shrinks n id i v i v [] where
  erased := Erased.refl
  tables := Volume.SameTables.refl v
  bits := rfl
  bytes _ _ := rfl
  sameMeta := SameMeta.refl i
  freed _ hb := by cases hb

theorem free (h : Shrinks n id i v j w freed) (hmore : ∀ b ∈ more, ∃ l, treeShape.Valid l ∧
      b ∈ owns treeShape rawExtent (v.cells (Files.single id i)) l ∧
        (w.cells (Files.single id j)).get l = 0) : Shrinks n id i v j w (freed ++ more) :=
  { h with freed := fun b hb => (List.mem_append.mp hb).elim (h.freed b) (hmore b) }

theorem owns_of_get (h : Shrinks n id i v j w freed) {l : Place (Nat × Nat)} {b : Nat}
    (hl : treeShape.Valid l) (hget : (w.cells (Files.single id j)).get l = b) (hne : b ≠ 0) :
    b ∈ owns treeShape rawExtent (v.cells (Files.single id i)) l := by
  have hold := h.erased.get_of_ne hl (by rwa [hget])
  rw [← hget, hold]
  exact mem_owns_raw (by rwa [← hold, hget])

theorem setSlot (h : Shrinks n id i v j w freed) (hg : Good rawExtent (Files.single id i) v)
    {s : Nat} (hs : s ≤ 12) (hout : ¬Surviving n ⟨(id, s), []⟩) :
    Shrinks n id i v (j.setSlot s 0) w freed := by
  have hroot : ∀ r, (w.cells (Files.single id (j.setSlot s 0))).root r =
      (w.cells (Files.single id j)).root r ∨
        (w.cells (Files.single id (j.setSlot s 0))).root r = 0 ∧ ¬Surviving n ⟨r, []⟩ := by
    rintro ⟨k, t⟩
    by_cases hk : k = id
    · subst hk
      rw [w.cells_root (Files.single_has ..), w.cells_root (Files.single_has ..),
        Files.single_inode, Files.single_inode]
      by_cases ht : t = s
      · subst ht
        exact Or.inr ⟨Inode.slot_setSlot_same j hs 0, hout⟩
      · exact Or.inl (Inode.slot_setSlot_other j hs ht 0)
    · exact Or.inl (by simp [Volume.cells, Files.single, hk])
  refine ⟨h.erased.step hg.separated Surviving.parent hroot fun _ _ _ => Or.inl rfl, h.tables,
    h.bits, h.bytes, h.sameMeta.trans (sameMeta_setSlot j s 0), fun b hb => ?_⟩
  obtain ⟨l, hl, hown, hzero⟩ := h.freed b hb
  have hsub := Cells.get_erased (fun r => (hroot r).imp_right And.left)
    (fun _ _ _ => Or.inl rfl) hl
  exact ⟨l, hl, hown, hsub.elim (fun hsame => hsame.trans hzero) fun hnone => hnone⟩

theorem setCells (h : Shrinks n id i v j w freed) (hg : Good rawExtent (Files.single id i) v)
    (htables : w.SameTables w') (hbits : w'.dataBit = w.dataBit)
    (hbytes : ∀ b, (∀ l, treeShape.Inner l → (v.cells (Files.single id i)).get l ≠ 0 →
      (v.cells (Files.single id i)).get l ≠ b) → w'.block b = w.block b)
    (hptr : ∀ b k, k < ptrsPerBlock → w'.readBlockPtr b k = w.readBlockPtr b k ∨
      w'.readBlockPtr b k = 0 ∧ ∃ r q, treeShape.Inner ⟨r, q⟩ ∧
        (v.cells (Files.single id i)).get ⟨r, q⟩ = b ∧ b ≠ 0 ∧ ¬Surviving n ⟨r, k :: q⟩) :
    Shrinks n id i v j w' freed := by
  have hroot : ∀ r, (w'.cells (Files.single id j)).root r = (w.cells (Files.single id j)).root r :=
    fun _ => rfl
  refine ⟨h.erased.step hg.separated Surviving.parent (fun r => Or.inl (hroot r)) hptr,
    h.tables.trans htables, hbits.trans h.bits, fun b hb => (hbytes b hb).trans (h.bytes b hb),
    h.sameMeta, fun b hb => ?_⟩
  obtain ⟨l, hl, hown, hzero⟩ := h.freed b hb
  have hsub := Cells.get_erased (fun r => Or.inl (hroot r))
    (fun b k hk => (hptr b k hk).imp_right And.left) hl
  exact ⟨l, hl, hown, hsub.elim (fun hsame => hsame.trans hzero) fun hnone => hnone⟩

theorem writeZero (h : Shrinks n id i v j w freed) (hg : Good rawExtent (Files.single id i) v)
    {r : Nat × Nat} {q : List Nat} {k b : Nat} (hin : treeShape.Inner ⟨r, q⟩)
    (hget : (v.cells (Files.single id i)).get ⟨r, q⟩ = b) (hne : b ≠ 0)
    (hout : ¬Surviving n ⟨r, k :: q⟩) :
    Shrinks n id i v j (w.writeBlockPtr b k 0) freed ∧
      ((w.writeBlockPtr b k 0).cells (Files.single id j)).get ⟨r, k :: q⟩ = 0 := by
  have hnew : Shrinks n id i v j (w.writeBlockPtr b k 0) freed := by
    refine h.setCells hg (Volume.sameTables_setBlock ..) (Volume.setBlock_dataBit ..) ?_ ?_
    · intro c hc
      refine Volume.setBlock_block_other ?_
      rintro rfl
      exact hc _ hin (by rwa [hget]) hget
    · intro c m _
      by_cases hcell : (c, m) = (b, k)
      · cases hcell
        exact Or.inr ⟨readBlockPtr_writeSame .., r, q, hin, hget, hne, hout⟩
      · exact Or.inl (readBlockPtr_writeOther w hcell)
  refine ⟨hnew, ?_⟩
  rw [Cells.get_cons]
  rcases hnew.erased.sub _ hin.1 with hsame | hnone
  · rw [hsame, hget, if_neg hne]
    exact readBlockPtr_writeSame ..
  · exact if_pos hnone

/-- Clearing a block behind the new end frees it and keeps the rest. -/
theorem clear (h : Shrinks n id i v j w freed) (hg : Good rawExtent (Files.single id i) v)
    {idx : Nat} (hidx : n ≤ idx) (hne : w.resolveLogicalBlockId j idx ≠ 0)
    (hrun : Volume.clearLogicalBlockPtr j idx w = .ok j' w') :
    Shrinks n id i v j' w' (freed ++ [w.resolveLogicalBlockId j idx]) := by
  have hres := resolveLogicalBlockId_eq (v := w) (Files.single_has id j) idx
  rw [Files.single_inode] at hres
  unfold Volume.clearLogicalBlockPtr Volume.clearLogicalChunkEntry at hrun
  simp only [DiskM.bind_ok, DiskM.get_ok] at hrun
  obtain ⟨_, _, ⟨rfl, rfl⟩, hrun⟩ := hrun
  cases hl : leafPlace id idx with
  | none =>
    rw [hl] at hres
    exact absurd hres hne
  | some l =>
    rw [hl, Option.map_some, Option.getD_some] at hres
    have hout : ¬Surviving n l := by
      rw [Surviving, firstLogical_leaf hl]
      omega
    obtain ⟨hvalid, -, -, -⟩ := leafPlace_valid hl
    have hown := h.owns_of_get hvalid hres.symm hne
    obtain ⟨path, hpath, rfl⟩ := Option.map_eq_some_iff.mp hl
    rw [hpath] at hrun
    -- the pointer is kept in a block, whose place leads to it since the start
    have hcell : ∀ {s k : Nat} {q : List Nat}, path.place id = ⟨(id, s), k :: q⟩ →
        (do if (w.cells (Files.single id j)).get ⟨(id, s), q⟩ ≠ 0 then
              set (w.writeBlockPtr ((w.cells (Files.single id j)).get ⟨(id, s), q⟩) k 0)
            return j : DiskM Inode) w = .ok j' w' →
        Shrinks n id i v j' w' (freed ++ [w.resolveLogicalBlockId j idx]) := by
      intro s k q hplace hrun
      rw [hplace] at hres hout hown hvalid
      have hparent := Cells.parent_ne_zero (by rwa [← hres])
      rw [if_pos hparent] at hrun
      simp only [DiskM.bind_ok, DiskM.set_ok, DiskM.pure_ok] at hrun
      obtain ⟨_, _, rfl, rfl, rfl⟩ := hrun
      have hin := hvalid.parent.1
      have hold := h.erased.get_of_ne hin.1 hparent
      obtain ⟨hnew, hzero⟩ := h.writeZero hg hin hold.symm hparent hout
      refine hnew.free fun b hb => ?_
      rw [List.mem_singleton.mp hb]
      exact ⟨_, hvalid, hown, hzero⟩
    cases path with
    | direct k =>
      have hk : k < 10 := (BlockPath.fromLogical_some hpath).1
      obtain ⟨rfl, rfl⟩ := DiskM.pure_ok.mp hrun
      refine (h.setSlot hg (show k ≤ 12 by omega) hout).free fun b hb => ?_
      rw [List.mem_singleton.mp hb]
      refine ⟨_, hvalid, hown, ?_⟩
      exact (cells_single_root ..).trans (Inode.slot_setSlot_same j (by omega) 0)
    | single k =>
      rw [← cells_single_root w id 10 j] at hrun
      exact hcell rfl hrun
    | double a b =>
      rw [← cells_single_root w id 11 j] at hrun
      exact hcell rfl hrun
    | triple a b k =>
      rw [← cells_single_root w id 12 j] at hrun
      exact hcell rfl hrun

theorem clearBlockPtrs (hg : Good rawExtent (Files.single id i) v) {idxs : List Nat}
    (hidx : ∀ idx ∈ idxs, n ≤ idx) (h : Shrinks n id i v j w freed)
    (hrun : Volume.clearBlockPtrs j idxs w = .ok (j', more) w') :
    Shrinks n id i v j' w' (freed ++ more) := by
  induction idxs generalizing j w freed more with
  | nil =>
    obtain ⟨heq, rfl⟩ := DiskM.pure_ok.mp hrun
    cases heq
    rwa [List.append_nil]
  | cons idx idxs ih =>
    have hrest : ∀ k ∈ idxs, n ≤ k := fun k hk => hidx k (List.mem_cons_of_mem _ hk)
    unfold Volume.clearBlockPtrs at hrun
    simp only [DiskM.bind_ok, DiskM.get_ok] at hrun
    obtain ⟨_, _, ⟨rfl, rfl⟩, hrun⟩ := hrun
    split at hrun
    next hne =>
      simp only [DiskM.bind_ok, DiskM.pure_ok] at hrun
      obtain ⟨j₁, w₁, hclear, ⟨j₂, more₁⟩, w₂, hrec, heq, rfl⟩ := hrun
      cases heq
      have hnext := h.clear hg (hidx idx List.mem_cons_self) hne hclear
      have hdone := ih hrest hnext hrec
      rwa [List.append_assoc] at hdone
    next => exact ih hrest h hrun

theorem dropSlot (h : Shrinks n id i v j w freed) (hg : Good rawExtent (Files.single id i) v)
    {s : Nat} (hs : s ≤ 12) (hout : ¬Surviving n ⟨(id, s), []⟩)
    (hmore : ∀ b ∈ more, ∃ q, treeShape.Valid ⟨(id, s), q⟩ ∧
      (w.cells (Files.single id j)).get ⟨(id, s), q⟩ = b ∧ b ≠ 0) :
    Shrinks n id i v (j.setSlot s 0) w (freed ++ more) := by
  have hroot : (w.cells (Files.single id (j.setSlot s 0))).get ⟨(id, s), []⟩ = 0 :=
    (cells_single_root ..).trans (Inode.slot_setSlot_same j hs 0)
  refine (h.setSlot hg hs hout).free fun b hb => ?_
  obtain ⟨q, hvalid, hget, hne⟩ := hmore b hb
  have hbelow := Cells.get_below_zero hroot q
  rw [List.append_nil] at hbelow
  exact ⟨_, hvalid, h.owns_of_get hvalid hget hne, hbelow⟩

theorem pruneDouble (h : Shrinks n id i v j w freed) (hg : Good rawExtent (Files.single id i) v)
    {keep : Nat} (hdib : j.slot 11 ≠ 0) (hkeep : n ≤ singleEnd + keep * ptrsPerBlock) :
    Shrinks n id i v j (w.zeroCellsFrom (j.slot 11) keep) (freed ++
      ((List.range' keep (ptrsPerBlock - keep)).map (w.readBlockPtr (j.slot 11))).filter
        (· ≠ 0)) := by
  have hin : treeShape.Inner ⟨(id, 11), []⟩ := ⟨⟨by simp, by simp⟩, by simp [treeShape]⟩
  have hroot : (w.cells (Files.single id j)).get ⟨(id, 11), []⟩ = j.slot 11 := cells_single_root ..
  have hold := h.erased.get_of_ne hin.1 (by rwa [hroot])
  rw [hroot] at hold
  have hnew : Shrinks n id i v j (w.zeroCellsFrom (j.slot 11) keep) freed := by
    refine h.setCells hg (Volume.sameTables_setBlock ..) (Volume.setBlock_dataBit ..) ?_ ?_
    · intro c hc
      refine Volume.setBlock_block_other ?_
      rintro rfl
      exact hc _ hin (by rwa [← hold]) hold.symm
    · intro c k hk
      rw [readBlockPtr_zeroCellsFrom]
      by_cases hcell : c = j.slot 11 ∧ keep ≤ k
      · obtain ⟨rfl, hle⟩ := hcell
        exact Or.inr ⟨if_pos ⟨rfl, hle⟩, (id, 11), [], hin, hold.symm, hdib,
          not_surviving_double hkeep hle⟩
      · exact Or.inl (if_neg hcell)
  refine hnew.free fun b hb => ?_
  obtain ⟨hmem, hne⟩ := List.mem_filter.mp hb
  obtain ⟨a, ha, rfl⟩ := List.mem_map.mp hmem
  have hrange := List.mem_range'_1.mp ha
  have hvalid : treeShape.Valid ⟨(id, 11), [a]⟩ := hin.child (show a < ptrsPerBlock by omega)
  refine ⟨_, hvalid, h.owns_of_get hvalid ?_ (by simpa using hne), ?_⟩
  · rw [Cells.get_cons, hroot, if_neg hdib]
    rfl
  · rw [Cells.get_cons, cells_single_root, if_neg hdib]
    exact (readBlockPtr_zeroCellsFrom ..).trans (if_pos ⟨rfl, hrange.1⟩)

theorem pruneLowTiers (h : Shrinks n id i v j w freed) (hg : Good rawExtent (Files.single id i) v)
    (hrun : Volume.pruneLowTiers j n w = .ok (j', more) w') :
    Shrinks n id i v j' w' (freed ++ more) := by
  unfold Volume.pruneLowTiers at hrun
  -- the single indirect tier
  obtain ⟨j₁, freed₁, hpair, h₁⟩ : ∃ j₁ freed₁,
      (if n ≤ 10 ∧ j.slot 10 ≠ 0 then (j.setSlot 10 0, [j.slot 10]) else (j, [])) = (j₁, freed₁) ∧
        Shrinks n id i v j₁ w (freed ++ freed₁) := by
    by_cases hsib : n ≤ 10 ∧ j.slot 10 ≠ 0
    · refine ⟨_, _, if_pos hsib, h.dropSlot hg (by decide) (not_surviving_slot rfl hsib.1) fun b hb => ?_⟩
      rw [List.mem_singleton.mp hb]
      exact ⟨[], ⟨by simp, by simp⟩, cells_single_root .., hsib.2⟩
    · refine ⟨_, _, if_neg hsib, ?_⟩
      rwa [List.append_nil]
  rw [hpair] at hrun
  simp only [DiskM.bind_ok, DiskM.get_ok] at hrun
  obtain ⟨_, _, ⟨rfl, rfl⟩, hrun⟩ := hrun
  split at hrun
  next =>
    obtain ⟨heq, rfl⟩ := DiskM.pure_ok.mp hrun
    cases heq
    exact h₁
  next hdib =>
    split at hrun
    next hle =>
      obtain ⟨heq, rfl⟩ := DiskM.pure_ok.mp hrun
      cases heq
      rw [List.append_assoc, ← List.append_assoc]
      exact h₁.dropSlot hg (by decide) (not_surviving_slot rfl hle) fun b hb =>
        mem_doubleBlocks id hdib hb
    next hgt =>
      simp only [DiskM.bind_ok, DiskM.set_ok, DiskM.pure_ok] at hrun
      obtain ⟨_, _, rfl, heq, rfl⟩ := hrun
      cases heq
      rw [← List.append_assoc]
      exact h₁.pruneDouble hg hdib (le_keptCells n)

theorem pruneUnusedIndirectBlocks (h : Shrinks n id i v j w freed)
    (hg : Good rawExtent (Files.single id i) v)
    (hrun : Volume.pruneUnusedIndirectBlocks j n w = .ok (j', more) w') :
    Shrinks n id i v j' w' (freed ++ more) := by
  unfold Volume.pruneUnusedIndirectBlocks at hrun
  simp only [DiskM.bind_ok, DiskM.get_ok] at hrun
  obtain ⟨⟨j₁, freed₁⟩, w₁, hlow, _, _, ⟨rfl, rfl⟩, hrun⟩ := hrun
  have h₁ := h.pruneLowTiers hg hlow
  split at hrun
  next htib =>
    obtain ⟨heq, rfl⟩ := DiskM.pure_ok.mp hrun
    cases heq
    rw [List.append_assoc, ← List.append_assoc]
    exact h₁.dropSlot hg (by decide) (not_surviving_slot rfl htib.1) fun b hb =>
      mem_tripleBlocks id htib.2 hb
  next =>
    obtain ⟨heq, rfl⟩ := DiskM.pure_ok.mp hrun
    cases heq
    exact h₁

theorem good (h : Shrinks n id i v j w freed) (hg : Good rawExtent (Files.single id i) v)
    (htables : w.SameTables w') (hblock : w'.block = w.block)
    (hmark : ∀ b, b ∉ freed → w'.marked b = w.marked b) :
    Good rawExtent (Files.single id j) w' := by
  have hcells : w'.cells (Files.single id j) = w.cells (Files.single id j) := by
    simp only [Volume.cells, Cells.mk.injEq, true_and]
    funext b k
    exact Volume.readBlockPtr_congr htables.mapBlocks (congrFun hblock b) k
  have htables' := h.tables.trans htables
  refine ⟨htables'.sound hg.sound, ?_, fun b hb => ?_, fun b hb => ?_⟩
  · rw [hcells]
    exact h.erased.separated rawExtent_zero hg.separated
  · rw [hcells] at hb
    have hkeep : b ∉ freed := by
      intro hfree
      obtain ⟨l, hl, hown, hzero⟩ := h.freed b hfree
      exact h.erased.not_owned rawExtent_zero hg.separated hl hown hzero hb
    have hold : w.marked b = v.marked b := by
      rw [Volume.marked, Volume.marked, h.bits, h.tables.superblock]
    rw [hmark b hkeep, hold]
    exact hg.marked b (h.erased.owned_subset rawExtent_zero hb)
  · rw [hcells] at hb
    rw [htables'.isDataBlock]
    exact hg.data b (h.erased.owned_subset rawExtent_zero hb)

theorem payload (h : Shrinks n id i v j w freed) (hg : Good rawExtent (Files.single id i) v)
    (hmap : w'.mapBlocks = w.mapBlocks) (hblock : w'.block = w.block) {k : Nat}
    (hk : k / blockSize < n) : w'.payload j k = v.payload i k := by
  have hres : ∀ (u : Volume) (i' : Inode), u.resolveLogicalBlockId i' (k / blockSize) =
      ((leafPlace id (k / blockSize)).map (u.cells (Files.single id i')).get).getD 0 := by
    intro u i'
    have heq := resolveLogicalBlockId_eq (v := u) (Files.single_has id i') (k / blockSize)
    rwa [Files.single_inode] at heq
  have hcells : w'.cells (Files.single id j) = w.cells (Files.single id j) := by
    simp only [Volume.cells, Cells.mk.injEq, true_and]
    funext b m
    exact Volume.readBlockPtr_congr hmap (congrFun hblock b) m
  rw [Volume.payload, Volume.payload, hres, hres, hcells]
  cases hl : leafPlace id (k / blockSize) with
  | none => rfl
  | some l =>
    obtain ⟨hvalid, hleaf, -, -⟩ := leafPlace_valid hl
    have hkept : Surviving n l := by
      rw [Surviving, firstLogical_leaf hl]
      exact hk
    rw [Option.map_some, Option.map_some, Option.getD_some, Option.getD_some,
      h.erased.kept l hvalid hkept, Volume.blockByte, Volume.blockByte]
    by_cases hzero : (v.cells (Files.single id i)).get l = 0
    · rw [if_pos hzero, if_pos hzero]
    · have hown := mem_owns_raw hzero
      rw [if_neg hzero, if_neg hzero, hblock, h.bytes _ fun l' hin hne =>
        hg.leaf_not_inner hvalid hleaf hown hin hne]

end Shrinks

end Oifs
