import Oifs.ChunkLeaves

namespace Oifs

open PointerForest

section Relink

variable {ext : Nat × Nat → Nat → Set Nat} {t l : Place (Nat × Nat)} {F F₁ F' : Files}
  {v v₁ v' : Volume}

/-- A chunk has a new entry; its old blocks are free, those of the other chunks are as they were. -/
structure Relinks (l : Place (Nat × Nat)) (e : Nat) (F : Files) (v : Volume) (F' : Files)
    (v' : Volume) : Prop where
  tables : v.SameTables v'
  good : Good chunkExtent F' v'
  leaf : ∀ l', treeShape.Valid l' → ¬treeShape.Inner l' →
    (v'.cells F').get l' = if l' = l then e else (v.cells F).get l'
  others : ∀ l', treeShape.Valid l' → ¬treeShape.Inner l' →
    ∀ b ∈ owns treeShape chunkExtent (v.cells F) l', v'.block b = v.block b

/-- The payload of the new entry lies in blocks that were free. -/
structure Replaces (l : Place (Nat × Nat)) (start count : Nat) (bytes : List UInt8) (e : Nat)
    (F : Files) (v : Volume) (F' : Files) (v' : Volume) : Prop extends Relinks l e F v F' v' where
  bits : start + count ≤ v.superblock.dataBlockStart + bitmapBits
  stored : ∀ j k, j < count → k < blockSize →
    v'.block (start + j) k = bytes.getD (j * blockSize + k) 0

theorem release_marks {old : Nat} {v₂ : Volume} (hg : Good chunkExtent F v)
    (hl : treeShape.Valid l) (hleaf : ¬treeShape.Inner l) (hold : (v.cells F).get l = old)
    (htables : v.SameTables v')
    (hfree : if ChunkEntry.isEmpty old then v₂ = v' else
      Volume.freeContiguousBlocksInternal (ChunkEntry.startBlock old) (ChunkEntry.blockCount old) v' =
        .ok () v₂) :
    v'.SameTables v₂ ∧ v₂.block = v'.block ∧
      ∀ b, v'.marked b = true → b ∉ owns treeShape chunkExtent (v.cells F) l → v₂.marked b = true := by
  by_cases hempty : ChunkEntry.isEmpty old = true
  · rw [if_pos hempty] at hfree
    subst hfree
    exact ⟨Volume.SameTables.refl _, rfl, fun _ hb _ => hb⟩
  have hfalse : ChunkEntry.isEmpty old = false := by simpa using hempty
  rw [if_neg hempty] at hfree
  by_cases hcount : ChunkEntry.blockCount old = 0
  · rw [hcount] at hfree
    unfold Volume.freeContiguousBlocksInternal at hfree
    simp only [DiskM.bind_ok, DiskM.get_ok, if_true, DiskM.pure_ok] at hfree
    obtain ⟨_, _, ⟨rfl, rfl⟩, -, rfl⟩ := hfree
    exact ⟨Volume.SameTables.refl _, rfl, fun _ hb _ => hb⟩
  obtain ⟨hlo, hhi⟩ := hg.extent_bounds hl hleaf hold hfalse (by omega)
  rw [← htables.superblock] at hlo hhi
  obtain ⟨htables', hblock, hmarks⟩ := Volume.freeContiguousBlocksInternal_ok hlo hhi hfree
  refine ⟨htables', hblock, fun b hb hnot => ?_⟩
  rw [hmarks]
  refine ⟨hb, fun hin => hnot ?_⟩
  rw [owns, mem_claims_leaf (hl.leaf hleaf), hold]
  exact ⟨hfalse, hin.1, hin.2⟩

theorem SetsLeaf.release {e old : Nat} {v₂ : Volume} (h : SetsLeaf chunkExtent l e F v F' v')
    (hg : Good chunkExtent F v) (hl : treeShape.Valid l) (hleaf : ¬treeShape.Inner l)
    (hold : (v.cells F).get l = old)
    (hnew : ∀ b ∈ chunkExtent l.root e, b ∉ owned treeShape chunkExtent (v.cells F))
    (hfree : if ChunkEntry.isEmpty old then v₂ = v' else
      Volume.freeContiguousBlocksInternal (ChunkEntry.startBlock old) (ChunkEntry.blockCount old) v' =
        .ok () v₂) :
    v'.SameTables v₂ ∧ v₂.block = v'.block ∧ Good chunkExtent F' v₂ ∧
      ∀ l, treeShape.Valid l → (v₂.cells F').get l = (v'.cells F').get l := by
  obtain ⟨htables, hblock, hmarks⟩ := release_marks hg hl hleaf hold h.tables hfree
  have hkept : ∀ b ∈ owned treeShape chunkExtent (v'.cells F'), v₂.marked b = true := by
    intro b hb
    refine hmarks b (h.good.marked b hb) fun hown => ?_
    rcases h.blocks b hb with hnewb | ⟨-, hnot⟩ | hfreeb
    · exact hnew b hnewb ⟨l, hl, hown⟩
    · exact hnot hown
    · rw [hg.marked b ⟨l, hl, hown⟩] at hfreeb
      cases hfreeb
  obtain ⟨hgood, hget⟩ := h.good.frame htables hkept fun _ _ _ => by rw [hblock]
  exact ⟨htables, hblock, hgood, hget⟩

/-- A payload has been stored in blocks that were free and are reserved for it now. -/
structure Staged (F : Files) (v : Volume) (start count : Nat) (bytes : List UInt8) (v' : Volume) :
    Prop where
  tables : v.SameTables v'
  good : Good chunkExtent F v'
  get : ∀ l, treeShape.Valid l → (v'.cells F).get l = (v.cells F).get l
  start_le : v.superblock.dataBlockStart ≤ start
  bits : start + count ≤ v.superblock.dataBlockStart + bitmapBits
  free : ∀ b, start ≤ b → b < start + count → v.marked b = false
  marked : ∀ b, v'.marked b = true ↔ v.marked b = true ∨ (start ≤ b ∧ b < start + count)
  kept : ∀ b, v.marked b = true → v'.block b = v.block b
  stored : ∀ j k, j < count → k < blockSize →
    v'.block (start + j) k = bytes.getD (j * blockSize + k) 0

theorem staged_of_allocate {start count : Nat} (bytes : List UInt8) (hg : Good chunkExtent F v)
    (hend : start + count ≤ v.superblock.blockCount) (hcount : 0 < count)
    (halloc : Volume.allocateContiguousBlocksInternal count v = .ok start v') :
    Staged F v start count bytes (v'.storePayload start count bytes) := by
  have hr := Volume.allocateContiguousBlocksInternal_ok hcount halloc
  have hbits := hr.bits
  have hle := hg.sound.count_le
  have hmap : start + count ≤ v'.mapBlocks := by
    rw [hr.tables.mapBlocks]
    omega
  obtain ⟨htables, hdata, hother, hbytes⟩ := Volume.storePayload_ok bytes hmap
  have hmarked : ∀ b, (v'.storePayload start count bytes).marked b = v'.marked b := by
    intro b
    rw [Volume.marked, Volume.marked, htables.superblock, hdata]
  have hkept : ∀ b, v.marked b = true →
      (v'.storePayload start count bytes).block b = v.block b := by
    intro b hb
    have hout : ¬(start ≤ b ∧ b < start + count) := by
      rintro ⟨hlo, hhi⟩
      rw [hr.free b hlo hhi] at hb
      cases hb
    exact (hother b (by omega)).trans (congrFun hr.block b)
  obtain ⟨hgood, hget⟩ := hg.frame (hr.tables.trans htables)
    (fun b hb => (hmarked b).trans ((hr.marked b).mpr (Or.inl (hg.marked b hb))))
    (fun l hin hne => hkept _ (hg.marked _ ⟨l, hin.1, owns_inner hin hne⟩))
  refine ⟨hr.tables.trans htables, hgood, hget, hr.start, hbits, hr.free, fun b => ?_, hkept, hbytes⟩
  rw [hmarked]
  exact hr.marked b

theorem Staged.resolve {id start count : Nat} {bytes : List UInt8}
    (h : Staged F v start count bytes v') (hhas : F.has id = true) (idx : Nat) :
    v'.resolveLogicalChunkEntry (F.inode id) idx = v.resolveLogicalChunkEntry (F.inode id) idx := by
  unfold Volume.resolveLogicalChunkEntry
  rw [resolveLogicalBlockId_eq hhas, resolveLogicalBlockId_eq hhas]
  cases hl : leafPlace id idx with
  | none => rfl
  | some l => exact h.get l (leafPlace_valid hl).1

theorem Staged.sets {id idx start count f c : Nat} {bytes : List UInt8} {i : Inode}
    {v₂ v₃ : Volume} (hstaged : Staged F v start count bytes v₂) (hg : Good chunkExtent F v)
    (hhas : F.has id = true) (hend : start + count ≤ v.superblock.blockCount)
    (h32 : start + count ≤ 2 ^ 32) (hcount : 0 < count)
    (h256 : count < 2 ^ 8) (hf : 0 < f) (hf' : f < 2 ^ 8)
    (hset : Volume.setLogicalChunkEntry (F.inode id) idx (ChunkEntry.new start count f c) v₂ =
      .ok i v₃) :
    ∃ l, leafPlace id idx = some l ∧
      (v₂.cells F).get l = v.resolveLogicalChunkEntry (F.inode id) idx ∧
      (∀ b, b ∈ chunkExtent l.root (ChunkEntry.new start count f c) ↔
        start ≤ b ∧ b < start + count) ∧
      (∀ b, start ≤ b → b < start + count → b ∉ owned treeShape chunkExtent (v₂.cells F)) ∧
      SetsLeaf chunkExtent l (ChunkEntry.new start count f c) F v₂ (F.set id i) v₃ := by
  have hbits := hstaged.bits
  have hpos := hg.sound.start_pos
  have hs := hstaged.start_le
  have hstart : start < 2 ^ 32 := by omega
  have hnotEmpty : ChunkEntry.isEmpty (ChunkEntry.new start count f c) = false := by
    refine ChunkEntry.isEmpty_eq_false ?_
    rw [ChunkEntry.flags_new hstart hf']
    exact Nat.ne_of_gt hf
  have hextent : ∀ r b, b ∈ chunkExtent r (ChunkEntry.new start count f c) ↔
      start ≤ b ∧ b < start + count := by
    intro r b
    rw [mem_chunkExtent, ChunkEntry.startBlock_new hstart, ChunkEntry.blockCount_new hstart h256]
    simp [hnotEmpty]
  have hnotOwned : ∀ b, start ≤ b → b < start + count →
      b ∉ owned treeShape chunkExtent (v₂.cells F) := by
    intro b hlo hhi hb
    have hmark := hg.marked b ((owned_congr hstaged.get b).mp hb)
    rw [hstaged.free b hlo hhi] at hmark
    cases hmark
  have hnew : ∀ r, ∀ b ∈ chunkExtent r (ChunkEntry.new start count f c), v₂.marked b = true ∧
      v₂.isDataBlock b = true ∧ b ∉ owned treeShape chunkExtent (v₂.cells F) := by
    intro r b hb
    obtain ⟨hlo, hhi⟩ := (hextent r b).mp hb
    refine ⟨(hstaged.marked b).mpr (Or.inr ⟨hlo, hhi⟩), ?_, hnotOwned b hlo hhi⟩
    rw [hstaged.tables.isDataBlock, Volume.isDataBlock_iff]
    omega
  obtain ⟨l, hl, hsets⟩ := setLogicalChunkEntry_ok chunkExtent_zero hstaged.good hhas hnotEmpty
    (ChunkEntry.new_lt start count f c) hnew hset
  refine ⟨l, hl, ?_, fun b => hextent _ b, hnotOwned, hsets⟩
  rw [hstaged.get l (leafPlace_valid hl).1]
  unfold Volume.resolveLogicalChunkEntry
  rw [resolveLogicalBlockId_eq hhas, hl]
  rfl

/-- What no place of the files owns is as before. -/
def SparesRest (F : Files) (v : Volume) (F' : Files) (v' : Volume) : Prop :=
  ∀ b, v.marked b = true → b ∉ owned treeShape chunkExtent (v.cells F) →
    v'.marked b = true ∧ v'.block b = v.block b ∧ b ∉ owned treeShape chunkExtent (v'.cells F')

/-- Staging a run, setting its entry and freeing the old run replaces one chunk. -/
theorem replaces_of_steps {id idx start count f c : Nat} {bytes : List UInt8} {i : Inode}
    {v₂ v₃ v₄ : Volume} (hg : Good chunkExtent F v) (hhas : F.has id = true)
    (hend : start + count ≤ v.superblock.blockCount) (h32 : start + count ≤ 2 ^ 32)
    (hcount : 0 < count) (h256 : count < 2 ^ 8) (hf : 0 < f) (hf' : f < 2 ^ 8)
    (hstaged : Staged F v start count bytes v₂)
    (hset : Volume.setLogicalChunkEntry (F.inode id) idx (ChunkEntry.new start count f c) v₂ =
      .ok i v₃)
    (hfree : if ChunkEntry.isEmpty (v.resolveLogicalChunkEntry (F.inode id) idx) then v₄ = v₃ else
      Volume.freeContiguousBlocksInternal
        (ChunkEntry.startBlock (v.resolveLogicalChunkEntry (F.inode id) idx))
        (ChunkEntry.blockCount (v.resolveLogicalChunkEntry (F.inode id) idx)) v₃ = .ok () v₄) :
    (∃ l, leafPlace id idx = some l ∧
      Replaces l start count bytes (ChunkEntry.new start count f c) F v (F.set id i) v₄) ∧
    SparesRest F v (F.set id i) v₄ := by
  obtain ⟨l, hl, hold, hextent, hnotOwned, hsets⟩ :=
    hstaged.sets hg hhas hend h32 hcount h256 hf hf' hset
  obtain ⟨hvalid, hleaf, -, -⟩ := leafPlace_valid hl
  have hpos := hg.sound.start_pos
  have hs := hstaged.start_le
  obtain ⟨htables₄, hblock₄, hgood₄, hget₄⟩ := hsets.release hstaged.good hvalid hleaf hold
    (fun b hb => hnotOwned b ((hextent b).mp hb).1 ((hextent b).mp hb).2) hfree
  refine ⟨⟨l, hl, ⟨(hstaged.tables.trans hsets.tables).trans htables₄, hgood₄,
    fun l' hl' hleaf' => ?_, fun l' hl' hleaf' b hb => ?_⟩, hstaged.bits, fun j k hj hk => ?_⟩,
    fun b hmark hb => ?_⟩
  · rw [hget₄ l' hl', hsets.leaf l' hl' hleaf', hstaged.get l' hl']
  · have hmark := hg.marked b ⟨l', hl', hb⟩
    have hb₂ : b ∈ owns treeShape chunkExtent (v₂.cells F) l' := by
      rwa [owns, hstaged.get l' hl']
    have hne : b ≠ 0 := (Volume.isDataBlock_iff.mp (hg.data b ⟨l', hl', hb⟩)).1
    have hinner : ∀ l'', treeShape.Inner l'' → (v₂.cells F).get l'' ≠ b := fun l'' hin heq =>
      hstaged.good.leaf_not_inner hl' hleaf' hb₂ hin (heq ▸ hne) heq
    rw [hblock₄, hsets.bytes b ((hstaged.marked b).mpr (Or.inl hmark)) hinner]
    exact hstaged.kept b hmark
  · have hinner : ∀ l', treeShape.Inner l' → (v₂.cells F).get l' ≠ start + j := by
      intro l' hin heq
      refine hnotOwned (start + j) (by omega) (by omega) ⟨l', hin.1, heq ▸ owns_inner hin ?_⟩
      rw [heq]
      omega
    have hreserved : v₂.marked (start + j) = true :=
      (hstaged.marked _).mpr (Or.inr ⟨by omega, by omega⟩)
    rw [hblock₄, hsets.bytes (start + j) hreserved hinner]
    exact hstaged.stored j k hj hk
  · have hmark₂ := (hstaged.marked b).mpr (Or.inl hmark)
    have hb₂ : b ∉ owned treeShape chunkExtent (v₂.cells F) :=
      fun hin => hb ((owned_congr hstaged.get b).mp hin)
    obtain ⟨-, -, hmarks₄⟩ := release_marks hstaged.good hvalid hleaf hold hsets.tables hfree
    have hne : b ≠ 0 := by
      have hdata := (Volume.marked_iff.mp hmark).1
      omega
    have hinner : ∀ l', treeShape.Inner l' → (v₂.cells F).get l' ≠ b := fun l' hin heq =>
      hb₂ ⟨l', hin.1, heq ▸ owns_inner hin (heq ▸ hne)⟩
    refine ⟨hmarks₄ b (hsets.mono b hmark₂) fun hown => hb₂ ⟨l, hvalid, hown⟩, ?_, fun hin => ?_⟩
    · rw [hblock₄, hsets.bytes b hmark₂ hinner]
      exact hstaged.kept b hmark
    · rcases hsets.blocks b ((owned_congr hget₄ b).mp hin) with hnew | ⟨hold, -⟩ | hfreeb
      · obtain ⟨hlo, hhi⟩ := (hextent b).mp hnew
        rw [hstaged.free b hlo hhi] at hmark
        cases hmark
      · exact hb₂ hold
      · rw [hmark₂] at hfreeb
        cases hfreeb

theorem clearLogicalChunkEntry_congr {inode i : Inode} {idx : Nat}
    (hmap : v₁.mapBlocks = v.mapBlocks) (hblock : v₁.block = v.block)
    (h : Volume.clearLogicalChunkEntry inode idx v₁ = .ok i v') :
    ∃ w, Volume.clearLogicalChunkEntry inode idx v = .ok i w ∧ w = { v with block := w.block } ∧
      v' = { v₁ with block := w.block } := by
  have hptr : ∀ b k, v₁.readBlockPtr b k = v.readBlockPtr b k :=
    fun b k => Volume.readBlockPtr_congr hmap (congrFun hblock b) k
  have hfollow : ∀ b k, v₁.follow b k = v.follow b k := by
    intro b k
    rw [Volume.follow, Volume.follow, hptr]
  have hpure : ∀ {i' : Inode}, (pure i' : DiskM Inode) v₁ = .ok i v' →
      ∃ w, (pure i' : DiskM Inode) v = .ok i w ∧ w = { v with block := w.block } ∧
        v' = { v₁ with block := w.block } := by
    intro i' h
    obtain ⟨rfl, rfl⟩ := DiskM.pure_ok.mp h
    refine ⟨v, DiskM.pure_ok.mpr ⟨rfl, rfl⟩, rfl, ?_⟩
    rw [← hblock]
  have hclear : ∀ {parent k : Nat},
      (do if parent ≠ 0 then set (v₁.writeBlockPtr parent k 0)
          return inode : DiskM Inode) v₁ = .ok i v' →
      ∃ w, (do if parent ≠ 0 then set (v.writeBlockPtr parent k 0)
               return inode : DiskM Inode) v = .ok i w ∧ w = { v with block := w.block } ∧
        v' = { v₁ with block := w.block } := by
    intro parent k h
    by_cases hne : parent ≠ 0
    · simp only [if_pos hne, DiskM.bind_ok, DiskM.set_ok, DiskM.pure_ok] at h ⊢
      obtain ⟨_, _, rfl, rfl, rfl⟩ := h
      refine ⟨v.writeBlockPtr parent k 0, ⟨(), _, rfl, rfl, rfl⟩, ?_⟩
      unfold Volume.writeBlockPtr Volume.setBlock
      rw [hmap]
      split
      next => exact ⟨rfl, by rw [hblock]⟩
      next => exact ⟨rfl, by rw [← hblock, ← hmap]⟩
    · simp only [if_neg hne] at h ⊢
      exact hpure h
  unfold Volume.clearLogicalChunkEntry at h ⊢
  simp only [DiskM.bind_ok, DiskM.get_ok] at h ⊢
  obtain ⟨_, _, ⟨rfl, rfl⟩, h⟩ := h
  cases hp : BlockPath.fromLogical idx with
  | none =>
    rw [hp] at h
    obtain ⟨w, hw, hrest⟩ := hpure h
    exact ⟨w, ⟨v, v, ⟨rfl, rfl⟩, hw⟩, hrest⟩
  | some path =>
    rw [hp] at h
    cases path with
    | direct s =>
      obtain ⟨w, hw, hrest⟩ := hpure h
      exact ⟨w, ⟨v, v, ⟨rfl, rfl⟩, hw⟩, hrest⟩
    | single a =>
      obtain ⟨w, hw, hrest⟩ := hclear h
      exact ⟨w, ⟨v, v, ⟨rfl, rfl⟩, hw⟩, hrest⟩
    | double a b =>
      dsimp only at h
      rw [hfollow] at h
      obtain ⟨w, hw, hrest⟩ := hclear h
      exact ⟨w, ⟨v, v, ⟨rfl, rfl⟩, hw⟩, hrest⟩
    | triple a b c =>
      dsimp only at h
      rw [hfollow, hfollow] at h
      obtain ⟨w, hw, hrest⟩ := hclear h
      exact ⟨w, ⟨v, v, ⟨rfl, rfl⟩, hw⟩, hrest⟩

theorem relinks_of_drop {id idx e : Nat} {i : Inode} (hg : Good chunkExtent F v)
    (hhas : F.has id = true) (he : v.resolveLogicalChunkEntry (F.inode id) idx = e)
    (hempty : ChunkEntry.isEmpty e = false)
    (hfree : Volume.freeContiguousBlocksInternal (ChunkEntry.startBlock e)
      (ChunkEntry.blockCount e) v = .ok () v₁)
    (hclear : Volume.clearLogicalChunkEntry (F.inode id) idx v₁ = .ok i v') :
    ∃ l, leafPlace id idx = some l ∧ Relinks l 0 F v (F.set id i) v' := by
  cases hl : leafPlace id idx with
  | none =>
    unfold Volume.resolveLogicalChunkEntry at he
    rw [resolveLogicalBlockId_eq hhas, hl] at he
    rw [← he] at hempty
    cases hempty
  | some l =>
  refine ⟨l, rfl, ?_⟩
  obtain ⟨hvalid, hleaf, -, -⟩ := leafPlace_valid hl
  have hget : (v.cells F).get l = e := by
    rw [← he]
    unfold Volume.resolveLogicalChunkEntry
    rw [resolveLogicalBlockId_eq hhas, hl]
    rfl
  obtain ⟨htables, hblock, hmarks⟩ := release_marks hg hvalid hleaf hget (Volume.SameTables.refl v)
    (by rw [hempty, if_neg Bool.false_ne_true]; exact hfree)
  -- the entry is cleared as it would be before the release
  obtain ⟨w, hw, hwv, hv'⟩ := clearLogicalChunkEntry_congr htables.mapBlocks hblock hclear
  have hsets := clearLogicalChunkEntry_ok chunkExtent_zero hl hg hhas hw
  have hmarkw : ∀ b, w.marked b = v.marked b := by
    intro b
    rw [hwv]
    rfl
  have hmark' : ∀ b, v'.marked b = v₁.marked b := by
    intro b
    rw [hv']
    rfl
  have htables' : w.SameTables v' := by
    rw [hwv, hv']
    exact ⟨htables.superblock, htables.mapBlocks, htables.inodeBit, htables.inode,
      htables.freeInodeHint⟩
  have hblock' : v'.block = w.block := by rw [hv']
  have hkept : ∀ b ∈ owned treeShape chunkExtent (w.cells (F.set id i)), v'.marked b = true := by
    intro b hb
    have hmark := hsets.good.marked b hb
    rw [hmarkw] at hmark
    rw [hmark']
    rcases hsets.blocks b hb with hnone | ⟨-, hout⟩ | hfree
    · rw [chunkExtent_zero] at hnone
      exact hnone.elim
    · exact hmarks b hmark hout
    · rw [hmark] at hfree
      cases hfree
  obtain ⟨hgood', hget'⟩ := hsets.good.frame htables' hkept fun _ _ _ => by rw [hblock']
  refine ⟨hsets.tables.trans htables', hgood', fun l' hl' hleaf' => ?_, fun l' hl' hleaf' b hb => ?_⟩
  · rw [hget' l' hl', hsets.leaf l' hl' hleaf']
  · have hne : b ≠ 0 := (Volume.isDataBlock_iff.mp (hg.data b ⟨l', hl', hb⟩)).1
    rw [hblock', hsets.bytes b (hg.marked b ⟨l', hl', hb⟩)
      (fun l'' hin heq => hg.leaf_not_inner hl' hleaf' hb hin (heq ▸ hne) heq)]

end Relink

end Oifs
