import Oifs.ChunkExtents

namespace Oifs

open PointerForest

section Leaves

variable {ext : Nat × Nat → Nat → Set Nat} {t l : Place (Nat × Nat)} {F F₁ F' : Files}
  {v v₁ v' : Volume}

theorem ensureChunkRoot_ok (hext : ∀ r, ext r 0 = ∅) {id s root : Nat} {i : Inode}
    (hg : Good ext F v) (hhas : F.has id = true) (hlo : 10 ≤ s) (hhi : s ≤ 12)
    (ht : t.root = (id, s)) (h : Volume.ensureChunkRoot (F.inode id) s v = .ok (root, i) v') :
    Grows ext t F v (F.set id i) v' ∧ (v'.cells (F.set id i)).get ⟨(id, s), []⟩ = root ∧
      root ≠ 0 := by
  have hin : treeShape.Inner ⟨(id, s), []⟩ := by
    refine ⟨⟨Nat.zero_le _, by simp⟩, ?_⟩
    change 0 < s - 9
    omega
  unfold Volume.ensureChunkRoot at h
  by_cases hzero : (F.inode id).slot s = 0
  · simp only [hzero, if_true, DiskM.bind_ok, DiskM.pure_ok, Prod.mk.injEq] at h
    obtain ⟨n, v₁, halloc, ⟨rfl, rfl⟩, rfl⟩ := h
    have ha := Volume.allocAndZeroBlock_ok hg.sound halloc
    have hn := (Volume.isDataBlock_iff.mp ha.data).1
    obtain ⟨hgrow, hget⟩ := Grows.link_root hext hg ha hhas hhi hzero (claims_inner hin hn) ht
    exact ⟨hgrow, hget, hn⟩
  · simp only [hzero, if_false, DiskM.pure_ok, Prod.mk.injEq] at h
    obtain ⟨⟨rfl, rfl⟩, rfl⟩ := h
    rw [Files.set_self]
    exact ⟨Grows.refl hg, v.cells_root hhas s, hzero⟩

theorem getChunkChild_ok (hext : ∀ r, ext r 0 = ∅) {r : Nat × Nat} {q : List Nat}
    {i parent child : Nat} (hg : Good ext F v) (hin : treeShape.Inner ⟨r, q⟩)
    (hi : i < ptrsPerBlock) (hin' : treeShape.Inner ⟨r, i :: q⟩)
    (hp : (v.cells F).get ⟨r, q⟩ = parent) (hne : parent ≠ 0) (hroot : r = t.root)
    (hpath : (i :: q) <:+ t.path) (h : Volume.getChunkChild parent i v = .ok child v') :
    Grows ext t F v F v' ∧ (v'.cells F).get ⟨r, i :: q⟩ = child ∧ child ≠ 0 := by
  unfold Volume.getChunkChild at h
  rw [DiskM.get_bind] at h
  by_cases hzero : v.readBlockPtr parent i = 0
  · simp only [hzero, if_true, DiskM.bind_ok, DiskM.modify_ok, DiskM.pure_ok] at h
    obtain ⟨n, v₁, halloc, _, _, rfl, rfl, rfl⟩ := h
    have ha := Volume.allocAndZeroBlock_ok hg.sound halloc
    have hn := (Volume.isDataBlock_iff.mp ha.data).1
    subst hp
    obtain ⟨hgrow, hget⟩ :=
      Grows.link_child hext hg ha hin hi hne hzero (claims_inner hin' hn) hroot hpath
    exact ⟨hgrow, hget, hn⟩
  · simp only [hzero, if_false, DiskM.pure_ok] at h
    obtain ⟨rfl, rfl⟩ := h
    refine ⟨Grows.refl hg, ?_, hzero⟩
    rw [Cells.get_cons, hp, if_neg hne]
    rfl

theorem setAt_setSlot {id s w : Nat} (hhas : F.has id = true) (hs : s < 10) :
    Cells.SetAt treeShape (v.cells F) (v.cells (F.set id ((F.inode id).setSlot s w)))
      ⟨(id, s), []⟩ w where
  root := by
    rintro ⟨j, u⟩
    by_cases hat : (⟨(j, u), []⟩ : Place (Nat × Nat)) = ⟨(id, s), []⟩
    · cases hat
      rw [if_pos rfl, v.cells_root (by exact hhas), Files.set_inode_same,
        Inode.slot_setSlot_same _ (by omega)]
    · rw [if_neg hat]
      by_cases hj : j = id
      · subst hj
        have hu : u ≠ s := by
          rintro rfl
          exact hat rfl
        rw [v.cells_root (by exact hhas), v.cells_root hhas, Files.set_inode_same,
          Inode.slot_setSlot_other _ (by omega) hu]
      · exact v.cells_root_congr v (Files.set_has ..) (Files.set_inode_other _ hj _) u
  ptr _ _ _ _ _ _ := by
    rw [if_neg (by simp)]
    rfl
  empty hin := by
    have hlt : 0 < s - 9 := hin.2
    omega
  bare i hv := by
    have hlt : 1 ≤ s - 9 := hv.1
    omega
  parent _ i q hq := by cases hq

theorem readBlockPtr_writeBlockPtr {p i w : Nat} (hmap : p < v.mapBlocks) (hw : w < 2 ^ 64) (b : Nat)
    {j : Nat} (hj : j < ptrsPerBlock) : (v.writeBlockPtr p i w).readBlockPtr b j =
      if b = p ∧ j = i then w else v.readBlockPtr b j := by
  have hfit : j * 8 + 8 ≤ blockSize := by
    simp only [ptrsPerBlock, blockSize] at hj ⊢
    omega
  by_cases hb : b = p
  · subst hb
    rw [Volume.readBlockPtr, Volume.writeBlockPtr, Volume.setBlock_mapBlocks, if_pos ⟨hmap, hfit⟩,
      Volume.setBlock_block_same hmap]
    by_cases hji : j = i
    · rw [hji, if_pos ⟨rfl, rfl⟩, cell_patch_same hw]
    · rw [if_neg fun h => hji h.2, cell_patch_other (LittleEndian.encode_length 8 w) hji]
      exact (if_pos ⟨hmap, hfit⟩).symm
  · rw [if_neg fun h => hb h.1]
    exact Volume.readBlockPtr_congr (Volume.setBlock_mapBlocks ..) (Volume.setBlock_block_other hb) j

theorem setAt_writeBlockPtr {r : Nat × Nat} {q : List Nat} {i p w : Nat} (hg : Good ext F v)
    (hin : treeShape.Inner ⟨r, q⟩) (hleaf : ¬treeShape.Inner ⟨r, i :: q⟩) (hp : (v.cells F).get ⟨r, q⟩ = p) (hne : p ≠ 0) (hw : w < 2 ^ 64) :
    Cells.SetAt treeShape (v.cells F) ((v.writeBlockPtr p i w).cells F) ⟨r, i :: q⟩ w := by
  have hmap : p < v.mapBlocks := by
    have hdata := hg.data p ⟨_, hin.1, hp ▸ owns_inner hin (hp ▸ hne)⟩
    exact Nat.lt_of_lt_of_le (Volume.isDataBlock_iff.mp hdata).2.2 hg.sound.count_le
  refine Cells.SetAt.of_cell hg.separated hin hleaf hp hne rfl fun b j hj => ?_
  exact readBlockPtr_writeBlockPtr hmap hw b hj

/-- One leaf has a new value; pointer blocks may have been taken on the way to it. -/
structure SetsLeaf (ext : Nat × Nat → Nat → Set Nat) (l : Place (Nat × Nat)) (e : Nat) (F : Files)
    (v : Volume) (F' : Files) (v' : Volume) : Prop where
  tables : v.SameTables v'
  good : Good ext F' v'
  leaf : ∀ l', treeShape.Valid l' → ¬treeShape.Inner l' →
    (v'.cells F').get l' = if l' = l then e else (v.cells F).get l'
  mono : ∀ b, v.marked b = true → v'.marked b = true
  blocks : ∀ b ∈ owned treeShape ext (v'.cells F'), b ∈ ext l.root e ∨
    (b ∈ owned treeShape ext (v.cells F) ∧ b ∉ owns treeShape ext (v.cells F) l) ∨
    v.marked b = false
  bytes : ∀ b, v.marked b = true → (∀ l', treeShape.Inner l' → (v.cells F).get l' ≠ b) →
    v'.block b = v.block b

theorem SetsLeaf.of_setAt (hext : ∀ r, ext r 0 = ∅) {e : Nat} (hgrow : Grows ext t F v F₁ v₁)
    (hbefore : ∀ l', treeShape.Valid l' → ¬treeShape.Inner l' →
      (v₁.cells F₁).get l' = (v.cells F).get l')
    (hset : Cells.SetAt treeShape (v₁.cells F₁) (v'.cells F') l e) (hl : treeShape.Valid l)
    (hleaf : ¬treeShape.Inner l) (htables : v₁.SameTables v')
    (hmarks : ∀ b, v'.marked b = v₁.marked b)
    (hbytes : ∀ b, (∀ l', treeShape.Inner l' → (v₁.cells F₁).get l' ≠ b) → v'.block b = v₁.block b)
    (hnew : ∀ b ∈ ext l.root e, v.marked b = true ∧ v.isDataBlock b = true ∧
      b ∉ owned treeShape ext (v.cells F)) : SetsLeaf ext l e F v F' v' := by
  -- the blocks of the new value are marked, so no pointer block was taken from them
  have hout : ∀ b ∈ ext l.root e, b ∉ owned treeShape ext (v₁.cells F₁) := by
    intro b hb hin
    obtain ⟨hmark, -, hnot⟩ := hnew b hb
    have hfree := hgrow.fresh b hin hnot
    rw [hmark] at hfree
    cases hfree
  have howns : owns treeShape ext (v₁.cells F₁) l = owns treeShape ext (v.cells F) l := by
    rw [owns, owns, hbefore l hl hleaf]
  have howned : ∀ b, b ∈ owned treeShape ext (v'.cells F') ↔ b ∈ ext l.root e ∨
      (b ∈ owned treeShape ext (v₁.cells F₁) ∧ b ∉ owns treeShape ext (v.cells F) l) := by
    intro b
    rw [owned_setAt hl hgrow.good.separated hset, mem_claims_leaf (hl.leaf hleaf), howns]
  have hmono : ∀ b, v.marked b = true → v'.marked b = true := by
    intro b hb
    rw [hmarks]
    exact (hgrow.marked b).mpr (Or.inl hb)
  have hdata : ∀ b, v'.isDataBlock b = v.isDataBlock b :=
    fun b => (hgrow.tables.trans htables).isDataBlock b
  refine ⟨hgrow.tables.trans htables, ⟨htables.sound hgrow.good.sound, ?_, ?_, ?_⟩, ?_, hmono, ?_, ?_⟩
  · apply hgrow.good.separated.setAt hset
    intro b hb l' hl' _ hbl'
    rw [mem_claims_leaf (hl.leaf hleaf)] at hb
    exact hout b hb ⟨l', hl', hbl'⟩
  · intro b hb
    rcases (howned b).mp hb with hb | ⟨hb, -⟩
    · exact hmono b (hnew b hb).1
    · rw [hmarks]
      exact hgrow.good.marked b hb
  · intro b hb
    rcases (howned b).mp hb with hb | ⟨hb, -⟩
    · rw [hdata]
      exact (hnew b hb).2.1
    · rw [htables.isDataBlock]
      exact hgrow.good.data b hb
  · intro l' hl' hleaf'
    rw [hset.get hl', hbefore l' hl' hleaf']
  · intro b hb
    rcases (howned b).mp hb with hb | ⟨hb, hnot⟩
    · exact Or.inl hb
    · by_cases hold : b ∈ owned treeShape ext (v.cells F)
      · exact Or.inr (Or.inl ⟨hold, hnot⟩)
      · exact Or.inr (Or.inr (hgrow.fresh b hb hold))
  · intro b hmark hinner
    have hpos : b ≠ 0 := by
      have hstart := hgrow.good.sound.start_pos
      have hle := (Volume.marked_iff.mp hmark).1
      rw [hgrow.tables.superblock] at hstart
      omega
    have hinner₁ : ∀ l', treeShape.Inner l' → (v₁.cells F₁).get l' ≠ b := by
      intro l' hl' heq
      have hsame := hgrow.same_of_marked hext hl'.1 hmark (heq ▸ owns_inner hl' (heq ▸ hpos))
      exact hinner l' hl' (hsame.symm.trans heq)
    rw [hbytes b hinner₁]
    exact hgrow.bytes b hmark fun l' hl' _ => hinner l' hl'

theorem SetsLeaf.of_writeBlockPtr (hext : ∀ r, ext r 0 = ∅) {r : Nat × Nat} {q : List Nat}
    {i p e : Nat} (hgrow : Grows ext ⟨r, q⟩ F v F₁ v₁) (hin : treeShape.Inner ⟨r, q⟩)
    (hi : i < ptrsPerBlock) (hleaf : ¬treeShape.Inner ⟨r, i :: q⟩)
    (hp : (v₁.cells F₁).get ⟨r, q⟩ = p) (hne : p ≠ 0) (he : e < 2 ^ 64)
    (hnew : ∀ b ∈ ext r e, v.marked b = true ∧ v.isDataBlock b = true ∧
      b ∉ owned treeShape ext (v.cells F)) :
    SetsLeaf ext ⟨r, i :: q⟩ e F v F₁ (v₁.writeBlockPtr p i e) := by
  refine SetsLeaf.of_setAt hext hgrow (fun l' hl' hleaf' => ?_)
    (setAt_writeBlockPtr hgrow.good hin hleaf hp hne he) (hin.child hi) hleaf
    (Volume.sameTables_setBlock ..) (fun b => Volume.marked_setBlock ..) (fun b hb => ?_) hnew
  · apply hgrow.leaf_same hin.1 hl' hleaf'
    rintro rfl
    exact hleaf' hin
  · refine Volume.setBlock_block_other fun heq => hb _ hin ?_
    rw [hp, heq]

theorem SetsLeaf.of_setSlot (hext : ∀ r, ext r 0 = ∅) {id s e : Nat} (hg : Good ext F v)
    (hhas : F.has id = true) (hs : s < 10)
    (hnew : ∀ b ∈ ext (id, s) e, v.marked b = true ∧ v.isDataBlock b = true ∧
      b ∉ owned treeShape ext (v.cells F)) :
    SetsLeaf ext ⟨(id, s), []⟩ e F v (F.set id ((F.inode id).setSlot s e)) v := by
  have hvalid : treeShape.Valid ⟨(id, s), []⟩ := ⟨Nat.zero_le _, by simp⟩
  have hleaf : ¬treeShape.Inner ⟨(id, s), []⟩ := by
    intro hin
    have hlt : 0 < s - 9 := hin.2
    omega
  exact SetsLeaf.of_setAt hext (Grows.refl (t := ⟨(id, s), []⟩) hg) (fun _ _ _ => rfl)
    (setAt_setSlot hhas hs) hvalid hleaf (Volume.SameTables.refl v) (fun _ => rfl)
    (fun _ _ => rfl) hnew

/-- The entry is set at its place, and no other leaf changes. -/
theorem setLogicalChunkEntry_ok (hext : ∀ r, ext r 0 = ∅) {id idx e : Nat} {i : Inode}
    (hg : Good ext F v) (hhas : F.has id = true) (hempty : ChunkEntry.isEmpty e = false)
    (he : e < 2 ^ 64)
    (hnew : ∀ r, ∀ b ∈ ext r e, v.marked b = true ∧ v.isDataBlock b = true ∧
      b ∉ owned treeShape ext (v.cells F))
    (h : Volume.setLogicalChunkEntry (F.inode id) idx e v = .ok i v') :
    ∃ l, leafPlace id idx = some l ∧ SetsLeaf ext l e F v (F.set id i) v' := by
  unfold Volume.setLogicalChunkEntry at h
  rw [hempty, if_neg Bool.false_ne_true] at h
  unfold leafPlace
  cases hp : BlockPath.fromLogical idx with
  | none => simp [hp] at h
  | some path =>
    have hslots := (BlockPath.fromLogical_some hp).1
    have hleaf : ¬treeShape.Inner (path.place id) := (BlockPath.place_valid hslots).2.1
    refine ⟨path.place id, rfl, ?_⟩
    rw [hp] at h
    cases path with
    | direct s =>
      obtain ⟨rfl, rfl⟩ := DiskM.pure_ok.mp h
      exact SetsLeaf.of_setSlot hext hg hhas hslots (hnew _)
    | single a =>
      simp only [DiskM.bind_ok, DiskM.modify_ok, DiskM.pure_ok] at h
      obtain ⟨⟨sib, i₁⟩, v₁, hroot, _, _, rfl, rfl, rfl⟩ := h
      obtain ⟨hgrow, hget, hne⟩ :=
        ensureChunkRoot_ok (t := ⟨(id, 10), []⟩) hext hg hhas (by decide) (by decide) rfl hroot
      exact SetsLeaf.of_writeBlockPtr hext hgrow (inner_mk (by decide) (by simp)) hslots hleaf hget
        hne he (hnew _)
    | double a b =>
      obtain ⟨ha, hb⟩ := hslots
      simp only [DiskM.bind_ok, DiskM.modify_ok, DiskM.pure_ok] at h
      obtain ⟨⟨dib, i₁⟩, v₁, hroot, sib, v₂, hchild, _, _, rfl, rfl, rfl⟩ := h
      obtain ⟨hgrow, hget, hne⟩ :=
        ensureChunkRoot_ok (t := ⟨(id, 11), [a]⟩) hext hg hhas (by decide) (by decide) rfl hroot
      obtain ⟨hgrow₂, hget₂, hne₂⟩ := getChunkChild_ok (t := ⟨(id, 11), [a]⟩) hext hgrow.good
        (inner_mk (by decide) (by simp)) ha (inner_mk (by simp) (by simpa using ha)) hget hne rfl
        List.suffix_rfl hchild
      exact SetsLeaf.of_writeBlockPtr hext (hgrow.trans hext hgrow₂)
        (inner_mk (by simp) (by simpa using ha)) hb hleaf hget₂ hne₂ he (hnew _)
    | triple a b c =>
      obtain ⟨ha, hb, hc⟩ := hslots
      simp only [DiskM.bind_ok, DiskM.modify_ok, DiskM.pure_ok] at h
      obtain ⟨⟨tib, i₁⟩, v₁, hroot, dib, v₂, hchild, sib, v₃, hchild', _, _, rfl, rfl, rfl⟩ := h
      obtain ⟨hgrow, hget, hne⟩ :=
        ensureChunkRoot_ok (t := ⟨(id, 12), [b, a]⟩) hext hg hhas (by decide) (by decide) rfl hroot
      obtain ⟨hgrow₂, hget₂, hne₂⟩ := getChunkChild_ok (t := ⟨(id, 12), [b, a]⟩) hext hgrow.good
        (inner_mk (by decide) (by simp)) ha (inner_mk (by simp) (by simpa using ha)) hget hne rfl
        (List.suffix_cons ..) hchild
      obtain ⟨hgrow₃, hget₃, hne₃⟩ := getChunkChild_ok (t := ⟨(id, 12), [b, a]⟩) hext hgrow₂.good
        (inner_mk (by simp) (by simpa using ha)) hb (inner_mk (by simp) (by simp [ha, hb])) hget₂
        hne₂ rfl List.suffix_rfl hchild'
      exact SetsLeaf.of_writeBlockPtr hext ((hgrow.trans hext hgrow₂).trans hext hgrow₃)
        (inner_mk (by simp) (by simp [ha, hb])) hc hleaf hget₃ hne₃ he (hnew _)

theorem SetsLeaf.refl (hg : Good ext F v) (hzero : (v.cells F).get l = 0)
    (hnone : ∀ b, b ∉ owns treeShape ext (v.cells F) l) : SetsLeaf ext l 0 F v F v where
  tables := Volume.SameTables.refl v
  good := hg
  leaf l' _ _ := by
    split
    next heq => rw [heq, hzero]
    next => rfl
  mono _ hb := hb
  blocks b hb := Or.inr (Or.inl ⟨hb, hnone b⟩)
  bytes _ _ _ := rfl

/-- The entry is gone, and no other leaf changes. -/
theorem clearLogicalChunkEntry_ok (hext : ∀ r, ext r 0 = ∅) {id idx : Nat} {i : Inode}
    {l : Place (Nat × Nat)} (hl : leafPlace id idx = some l) (hg : Good ext F v)
    (hhas : F.has id = true) (h : Volume.clearLogicalChunkEntry (F.inode id) idx v = .ok i v') :
    SetsLeaf ext l 0 F v (F.set id i) v' := by
  have hnew : ∀ r, ∀ b ∈ ext r 0, v.marked b = true ∧ v.isDataBlock b = true ∧
      b ∉ owned treeShape ext (v.cells F) := by
    intro r b hb
    rw [hext] at hb
    exact hb.elim
  -- the interior tiers: the parent of the leaf holds the cell, or the leaf is empty
  have hclear : ∀ {r : Nat × Nat} {q : List Nat} {k parent : Nat}, treeShape.Inner ⟨r, q⟩ →
      k < ptrsPerBlock → ¬treeShape.Inner ⟨r, k :: q⟩ → (v.cells F).get ⟨r, q⟩ = parent →
      (do if parent ≠ 0 then set (v.writeBlockPtr parent k 0)
          return F.inode id : DiskM Inode) v = .ok i v' →
      SetsLeaf ext ⟨r, k :: q⟩ 0 F v (F.set id i) v' := by
    intro r q k parent hin hk hleaf hparent h
    by_cases hne : parent ≠ 0
    · simp only [if_pos hne, DiskM.bind_ok, DiskM.set_ok, DiskM.pure_ok] at h
      obtain ⟨_, _, rfl, rfl, rfl⟩ := h
      rw [Files.set_self]
      exact SetsLeaf.of_writeBlockPtr hext (Grows.refl hg) hin hk hleaf hparent hne (by decide)
        (hnew r)
    · simp only [if_neg hne, DiskM.pure_ok] at h
      obtain ⟨rfl, rfl⟩ := h
      rw [Files.set_self]
      have hzero : (v.cells F).get ⟨r, k :: q⟩ = 0 := by
        rw [Cells.get_cons, if_pos (by simpa [hparent] using hne)]
      exact SetsLeaf.refl hg hzero fun b hb => get_ne_zero_of_owns hext hb hzero
  unfold Volume.clearLogicalChunkEntry at h
  rw [DiskM.get_bind] at h
  obtain ⟨path, hpath, rfl⟩ := Option.map_eq_some_iff.mp hl
  have hslots := (BlockPath.fromLogical_some hpath).1
  have hleaf : ¬treeShape.Inner (path.place id) := (BlockPath.place_valid hslots).2.1
  rw [hpath] at h
  cases path with
  | direct s =>
    obtain ⟨rfl, rfl⟩ := DiskM.pure_ok.mp h
    exact SetsLeaf.of_setSlot hext hg hhas hslots (hnew _)
  | single a =>
    refine hclear (inner_mk (by decide) (by simp)) hslots hleaf ?_ h
    rw [Cells.get_root, v.cells_root hhas]
  | double a b =>
    refine hclear (inner_mk (by simp) (by simpa using hslots.1)) hslots.2 hleaf ?_ h
    rw [Cells.get_cons, Cells.get_root, v.cells_root hhas]
    rfl
  | triple a b c =>
    obtain ⟨ha, hb, hc⟩ := hslots
    refine hclear (inner_mk (by simp) (by simp [ha, hb])) hc hleaf ?_ h
    rw [Cells.get_cons, Cells.get_cons, Cells.get_root, v.cells_root hhas]
    rfl

theorem Good.frame (hg : Good ext F v) (htables : v.SameTables v')
    (hmarks : ∀ b ∈ owned treeShape ext (v.cells F), v'.marked b = true)
    (hbytes : ∀ l, treeShape.Inner l → (v.cells F).get l ≠ 0 →
      v'.block ((v.cells F).get l) = v.block ((v.cells F).get l)) :
    Good ext F v' ∧ ∀ l, treeShape.Valid l → (v'.cells F).get l = (v.cells F).get l := by
  have hget : ∀ l, treeShape.Valid l → (v'.cells F).get l = (v.cells F).get l := by
    rintro ⟨r, p⟩ hl
    have hroot : (v'.cells F).root r = (v.cells F).root r := rfl
    refine Cells.get_congr hroot (fun q hin hne i _ => ?_) hl
    exact Volume.readBlockPtr_congr htables.mapBlocks (hbytes _ hin hne) i
  refine ⟨⟨htables.sound hg.sound, hg.separated.congr hget, fun b hb => ?_, fun b hb => ?_⟩, hget⟩
  · exact hmarks b ((owned_congr hget b).mp hb)
  · rw [htables.isDataBlock]
    exact hg.data b ((owned_congr hget b).mp hb)

theorem Good.extent_bounds {e : Nat} (hg : Good chunkExtent F v) (hl : treeShape.Valid l)
    (hleaf : ¬treeShape.Inner l) (he : (v.cells F).get l = e)
    (hempty : ChunkEntry.isEmpty e = false) (hcount : 0 < ChunkEntry.blockCount e) :
    v.superblock.dataBlockStart ≤ ChunkEntry.startBlock e ∧
      ChunkEntry.startBlock e + ChunkEntry.blockCount e ≤
        v.superblock.dataBlockStart + bitmapBits := by
  have hmark : ∀ b, ChunkEntry.startBlock e ≤ b →
      b < ChunkEntry.startBlock e + ChunkEntry.blockCount e → v.marked b = true := by
    intro b hlo hhi
    refine hg.marked b ⟨l, hl, ?_⟩
    rw [owns, mem_claims_leaf (hl.leaf hleaf), he]
    exact ⟨hempty, hlo, hhi⟩
  have hfirst := (Volume.marked_iff.mp (hmark _ (Nat.le_refl _) (by omega))).1
  obtain ⟨hlast, hbit, -⟩ := Volume.marked_iff.mp
    (hmark (ChunkEntry.startBlock e + ChunkEntry.blockCount e - 1) (by omega) (by omega))
  omega

end Leaves

end Oifs
