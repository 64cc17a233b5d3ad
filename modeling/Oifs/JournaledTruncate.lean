import Oifs.JournaledVolume
import Oifs.RawFile

namespace Oifs

open PointerForest

def zeroBlockPtrOp (blk entry : Nat) : VolumeOp :=
  .writeBlockSlice blk (entry * 8) (List.replicate 8 0)

theorem zeroBlockPtrOp_inj {b c k m : Nat} (h : zeroBlockPtrOp b k = zeroBlockPtrOp c m) :
    b = c ∧ k = m := by
  obtain ⟨hblk, hoff, -⟩ := VolumeOp.writeBlockSlice.inj h
  exact ⟨hblk, by omega⟩

namespace Volume

/-- The operation that zeroes the bytes behind `size` in its last block, if that block is there. -/
def slackOps (v : Volume) (inode : Inode) (idx size : Nat) : List VolumeOp :=
  let blk := v.resolveLogicalBlockId inode idx
  if blk ≠ 0 then
    [.writeBlockSlice blk (size % blockSize) (List.replicate (blockSize - size % blockSize) 0)]
  else []

/-- `clear_logical_block_ptr` with a journal: pointers in blocks are cleared by the transaction. -/
def stageClear (v : Volume) (inode : Inode) (idx : Nat) : Inode × List VolumeOp :=
  let clear (parent slot : Nat) : Inode × List VolumeOp :=
    (inode, if parent ≠ 0 then [zeroBlockPtrOp parent slot] else [])
  match BlockPath.fromLogical idx with
  | some (.direct i) => (inode.setSlot i 0, [])
  | some (.single i) => clear (inode.slot 10) i
  | some (.double a b) => clear (v.follow (inode.slot 11) a) b
  | some (.triple a b c) => clear (v.follow (v.follow (inode.slot 12) a) b) c
  | none => (inode, [])

def stageClears (v : Volume) (inode : Inode) : List Nat → Inode × List Nat × List VolumeOp
  | [] => (inode, [], [])
  | idx :: idxs =>
    let blk := v.resolveLogicalBlockId inode idx
    if blk ≠ 0 then
      let (inode, ops) := v.stageClear inode idx
      let (inode, freed, more) := v.stageClears inode idxs
      (inode, blk :: freed, ops ++ more)
    else v.stageClears inode idxs

def stagePruneLowTiers (v : Volume) (inode : Inode) (needed : Nat) :
    Inode × List Nat × List VolumeOp :=
  let (inode, freed) := if needed ≤ 10 ∧ inode.slot 10 ≠ 0 then
    (inode.setSlot 10 0, [inode.slot 10]) else (inode, [])
  let dib := inode.slot 11
  if dib = 0 then (inode, freed, [])
  else if needed ≤ 522 then (inode.setSlot 11 0, freed ++ v.childPointers dib ++ [dib], [])
  else
    let keep := divCeil (needed - 522) 512
    let cells := (List.range' keep (ptrsPerBlock - keep)).filter (v.readBlockPtr dib · ≠ 0)
    (inode, freed ++ cells.map (v.readBlockPtr dib), cells.map (zeroBlockPtrOp dib))

def stagePrune (v : Volume) (inode : Inode) (needed : Nat) : Inode × List Nat × List VolumeOp :=
  let (inode, freed, ops) := v.stagePruneLowTiers inode needed
  let tib := inode.slot 12
  if needed ≤ 10 + 512 + 512 * 512 ∧ tib ≠ 0 then
    let below := (v.childPointers tib).flatMap fun dib => v.childPointers dib ++ [dib]
    (inode.setSlot 12 0, freed ++ below ++ [tib], ops)
  else (inode, freed, ops)

end Volume

namespace Journal

variable (J : Journal)

def commitAndApply (ops : List VolumeOp) : DiskM Unit := do
  J.commitJournalTx ops
  Volume.applyJournalOps ops

def expandRaw (A : Ambient) (id : Nat) (inode : Inode) (newSize : Nat) : DiskM Unit := do
  let v ← get
  let slack := if 0 < inode.size then
    v.slackOps inode ((inode.size - 1) / blockSize) inode.size else []
  let inode := { inode with size := newSize, modifiedAt := A.now }
  let image ← liftExcept (J.encodeInodeSlot v id inode)
  J.commitAndApply (slack ++ [.writeInode id inode image])
  J.maybeCheckpoint

def shrinkRaw (A : Ambient) (id : Nat) (inode : Inode) (newSize : Nat) : DiskM Unit := do
  let v ← get
  let newBlocks := divCeil newSize blockSize
  let oldBlocks := divCeil inode.size blockSize
  let slack := if newSize % blockSize ≠ 0 ∧ 0 < newBlocks then
    v.slackOps inode (newBlocks - 1) newSize else []
  let (inode, freed, cleared) :=
    v.stageClears inode (List.range' newBlocks (oldBlocks - newBlocks))
  let (inode, pruned, zeroed) := v.stagePrune inode newBlocks
  let inode := { inode with size := newSize, modifiedAt := A.now }
  let image ← liftExcept (J.encodeInodeSlot v id inode)
  J.commitAndApply (slack ++ cleared ++ zeroed ++
    (freed ++ pruned).map (.setDataBitmap · false) ++ [.writeInode id inode image])
  modify fun v => match (freed ++ pruned).min? with
    | some low => if low < v.freeBlockHint then { v with freeBlockHint := low } else v
    | none => v
  J.maybeCheckpoint

/-- The journaled branches of `truncate_internal`. -/
def truncateInternal (chunked rebuild : Ambient → Nat → Nat → DiskM Unit) (A : Ambient)
    (id newSize : Nat) : DiskM Unit := do
  let v ← get
  let inode ← liftExcept (v.readInodeInternal id)
  if inode.isSeekable then chunked A id newSize
  else if 0 < inode.compressedSize ∨ inode.encrypted ∨ 0 < inode.filterTypesize then
    rebuild A id newSize
  else if newSize > inode.size then J.expandRaw A id inode newSize
  else J.shrinkRaw A id inode newSize

end Journal

/-- Pointers behind the first `n` blocks are staged for removal: the operations clear cells behind
the end, and nothing will lead to `freed`. -/
structure Stages (n id : Nat) (i : Inode) (v : Volume) (j : Inode) (freed : List Nat)
    (ops : List VolumeOp) : Prop where
  cell : ∀ op ∈ ops, ∃ r q k, op = zeroBlockPtrOp ((v.cells (Files.single id i)).get ⟨r, q⟩) k ∧
    treeShape.Inner ⟨r, q⟩ ∧ (v.cells (Files.single id i)).get ⟨r, q⟩ ≠ 0 ∧
      ¬Surviving n ⟨r, k :: q⟩
  slots : ∃ gone, Shrinks n id i v j v gone ∧ ∀ b ∈ freed, b ∈ gone ∨
    ∃ r q k, treeShape.Valid ⟨r, k :: q⟩ ∧
      b ∈ owns treeShape rawExtent (v.cells (Files.single id i)) ⟨r, k :: q⟩ ∧
        zeroBlockPtrOp ((v.cells (Files.single id i)).get ⟨r, q⟩) k ∈ ops

namespace Stages

variable {n id : Nat} {i j : Inode} {v : Volume} {freed : List Nat} {ops : List VolumeOp}

theorem refl (n id : Nat) (i : Inode) (v : Volume) : Stages n id i v i [] [] where
  cell _ hop := by cases hop
  slots := ⟨[], Shrinks.refl n id i v, fun _ hb => by cases hb⟩

theorem dropSlot (h : Stages n id i v j freed ops) (hg : Good rawExtent (Files.single id i) v)
    {s : Nat} {more : List Nat} (hs : s ≤ 12) (hout : ¬Surviving n ⟨(id, s), []⟩)
    (hmore : ∀ b ∈ more, ∃ q, treeShape.Valid ⟨(id, s), q⟩ ∧
      (v.cells (Files.single id j)).get ⟨(id, s), q⟩ = b ∧ b ≠ 0) :
    Stages n id i v (j.setSlot s 0) (freed ++ more) ops := by
  obtain ⟨gone, hslots, hfreed⟩ := h.slots
  refine ⟨h.cell, gone ++ more, hslots.dropSlot hg hs hout hmore, fun b hb => ?_⟩
  rcases List.mem_append.mp hb with hold | hnew
  · exact (hfreed b hold).imp_left (List.mem_append_left _)
  · exact Or.inl (List.mem_append_right _ hnew)

theorem zeroCells (h : Stages n id i v j freed ops) {r : Nat × Nat} {q cells : List Nat} {b : Nat}
    (hin : treeShape.Inner ⟨r, q⟩) (hget : (v.cells (Files.single id j)).get ⟨r, q⟩ = b)
    (hne : b ≠ 0) (hcells : ∀ k ∈ cells, k < ptrsPerBlock ∧ v.readBlockPtr b k ≠ 0 ∧
      ¬Surviving n ⟨r, k :: q⟩) :
    Stages n id i v j (freed ++ cells.map (v.readBlockPtr b))
      (ops ++ cells.map (zeroBlockPtrOp b)) := by
  obtain ⟨gone, hslots, hfreed⟩ := h.slots
  have hold : (v.cells (Files.single id i)).get ⟨r, q⟩ = b := by
    rw [← hget]
    exact (hslots.erased.get_of_ne hin.1 (by rwa [hget])).symm
  refine ⟨fun op hop => ?_, gone, hslots, fun c hc => ?_⟩
  · rcases List.mem_append.mp hop with hop | hop
    · exact h.cell op hop
    · obtain ⟨k, hk, rfl⟩ := List.mem_map.mp hop
      exact ⟨r, q, k, by rw [hold], hin, by rwa [hold], (hcells k hk).2.2⟩
  · rcases List.mem_append.mp hc with hc | hc
    · refine (hfreed c hc).imp_right ?_
      rintro ⟨r', q', k, hvalid, hown, hop⟩
      exact ⟨r', q', k, hvalid, hown, List.mem_append_left _ hop⟩
    · obtain ⟨k, hk, rfl⟩ := List.mem_map.mp hc
      obtain ⟨hlt, hptr, -⟩ := hcells k hk
      refine Or.inr ⟨r, q, k, hin.child hlt, hslots.owns_of_get (hin.child hlt) ?_ hptr, ?_⟩
      · rw [Cells.get_cons, hget, if_neg hne]
        rfl
      · rw [hold]
        exact List.mem_append_right _ (List.mem_map_of_mem hk)

theorem stageClear (h : Stages n id i v j freed ops) (hg : Good rawExtent (Files.single id i) v)
    {idx : Nat} (hidx : n ≤ idx) (hne : v.resolveLogicalBlockId j idx ≠ 0) :
    Stages n id i v (v.stageClear j idx).1 (freed ++ [v.resolveLogicalBlockId j idx])
      (ops ++ (v.stageClear j idx).2) := by
  obtain ⟨l, hl, hget⟩ := resolve_leaf id hne
  have hout : ¬Surviving n l := by
    rw [Surviving, firstLogical_leaf hl]
    omega
  obtain ⟨hvalid, -, -, -⟩ := leafPlace_valid hl
  obtain ⟨path, hpath, rfl⟩ := Option.map_eq_some_iff.mp hl
  unfold Volume.stageClear
  rw [hpath]
  -- the pointer is kept in a block
  have hcell : ∀ {s k : Nat} {q : List Nat}, path.place id = ⟨(id, s), k :: q⟩ →
      Stages n id i v j (freed ++ [v.resolveLogicalBlockId j idx])
        (ops ++ if (v.cells (Files.single id j)).get ⟨(id, s), q⟩ ≠ 0 then
          [zeroBlockPtrOp ((v.cells (Files.single id j)).get ⟨(id, s), q⟩) k] else []) := by
    intro s k q hplace
    rw [hplace] at hget hout hvalid
    have hparent := Cells.parent_ne_zero (by rwa [hget])
    obtain ⟨hin, hlt⟩ := hvalid.parent
    have hptr : v.readBlockPtr ((v.cells (Files.single id j)).get ⟨(id, s), q⟩) k =
        v.resolveLogicalBlockId j idx := by
      rw [← hget, Cells.get_cons, if_neg hparent]
      rfl
    rw [if_pos hparent, ← hptr]
    refine show Stages n id i v j (freed ++ [k].map _) (ops ++ [k].map _) from
      h.zeroCells hin rfl hparent fun k' hk' => ?_
    rw [List.mem_singleton.mp hk']
    exact ⟨hlt, by rwa [hptr], hout⟩
  cases path with
  | direct k =>
    have hk : k < 10 := (BlockPath.fromLogical_some hpath).1
    rw [List.append_nil]
    refine h.dropSlot hg (show k ≤ 12 by omega) hout fun b hb => ?_
    rw [List.mem_singleton.mp hb]
    exact ⟨[], hvalid, hget, hne⟩
  | single k =>
    have hnew := hcell rfl
    rwa [cells_single_root] at hnew
  | double a b =>
    have hnew := hcell rfl
    rwa [cells_single_cons, cells_single_root] at hnew
  | triple a b k =>
    have hnew := hcell rfl
    rwa [cells_single_cons, cells_single_cons, cells_single_root] at hnew

theorem stageClears (hg : Good rawExtent (Files.single id i) v) {idxs : List Nat}
    (hidx : ∀ idx ∈ idxs, n ≤ idx) (h : Stages n id i v j freed ops) :
    Stages n id i v (v.stageClears j idxs).1 (freed ++ (v.stageClears j idxs).2.1)
      (ops ++ (v.stageClears j idxs).2.2) := by
  induction idxs generalizing j freed ops with
  | nil => simpa [Volume.stageClears] using h
  | cons idx idxs ih =>
    have hrest : ∀ k ∈ idxs, n ≤ k := fun k hk => hidx k (List.mem_cons_of_mem _ hk)
    unfold Volume.stageClears
    dsimp only
    split
    next hne =>
      have hnext := ih hrest (h.stageClear hg (hidx idx List.mem_cons_self) hne)
      rwa [List.append_assoc, List.append_assoc] at hnext
    next => exact ih hrest h

theorem stagePruneLowTiers (h : Stages n id i v j freed ops)
    (hg : Good rawExtent (Files.single id i) v) :
    Stages n id i v (v.stagePruneLowTiers j n).1 (freed ++ (v.stagePruneLowTiers j n).2.1)
      (ops ++ (v.stagePruneLowTiers j n).2.2) := by
  unfold Volume.stagePruneLowTiers
  -- the single indirect tier
  obtain ⟨j₁, freed₁, hpair, h₁⟩ : ∃ j₁ freed₁,
      (if n ≤ 10 ∧ j.slot 10 ≠ 0 then (j.setSlot 10 0, [j.slot 10]) else (j, [])) = (j₁, freed₁) ∧
        Stages n id i v j₁ (freed ++ freed₁) ops := by
    by_cases hsib : n ≤ 10 ∧ j.slot 10 ≠ 0
    · refine ⟨_, _, if_pos hsib, h.dropSlot hg (by decide) (not_surviving_slot rfl hsib.1)
        fun b hb => ?_⟩
      rw [List.mem_singleton.mp hb]
      exact ⟨[], ⟨by simp, by simp⟩, cells_single_root .., hsib.2⟩
    · refine ⟨_, _, if_neg hsib, ?_⟩
      rwa [List.append_nil]
  rw [hpair]
  dsimp only
  split
  next => simpa using h₁
  next hdib =>
    split
    next hle =>
      dsimp only
      rw [List.append_nil, List.append_assoc, ← List.append_assoc]
      exact h₁.dropSlot hg (by decide) (not_surviving_slot rfl hle) fun b hb =>
        mem_doubleBlocks id hdib hb
    next =>
      dsimp only
      rw [← List.append_assoc]
      have hin : treeShape.Inner ⟨(id, 11), []⟩ := ⟨⟨by simp, by simp⟩, by simp [treeShape]⟩
      refine h₁.zeroCells hin (cells_single_root ..) hdib fun k hk => ?_
      obtain ⟨hmem, hptr⟩ := List.mem_filter.mp hk
      have hrange := List.mem_range'_1.mp hmem
      exact ⟨by omega, by simpa using hptr, not_surviving_double (le_keptCells n) hrange.1⟩

theorem stagePrune (h : Stages n id i v j freed ops) (hg : Good rawExtent (Files.single id i) v) :
    Stages n id i v (v.stagePrune j n).1 (freed ++ (v.stagePrune j n).2.1)
      (ops ++ (v.stagePrune j n).2.2) := by
  have h₁ := h.stagePruneLowTiers hg
  unfold Volume.stagePrune
  obtain ⟨⟨j₁, freed₁, ops₁⟩, heq⟩ : ∃ r, v.stagePruneLowTiers j n = r := ⟨_, rfl⟩
  rw [heq] at h₁ ⊢
  dsimp only at h₁ ⊢
  split
  next htib =>
    dsimp only
    rw [List.append_assoc, ← List.append_assoc]
    exact h₁.dropSlot hg (by decide) (not_surviving_slot rfl htib.1) fun b hb =>
      mem_tripleBlocks id htib.2 hb
  next => exact h₁

theorem congr (h : Stages n id i v j freed ops) {w : Volume} (hmap : w.mapBlocks = v.mapBlocks)
    (hbytes : ∀ l, treeShape.Inner l → (v.cells (Files.single id i)).get l ≠ 0 →
      w.block ((v.cells (Files.single id i)).get l) = v.block ((v.cells (Files.single id i)).get l)) :
    Stages n id i w j freed ops := by
  obtain ⟨gone, hslots, hfreed⟩ := h.slots
  have hget : ∀ l, treeShape.Valid l → (w.cells (Files.single id i)).get l =
      (v.cells (Files.single id i)).get l := by
    rintro ⟨r, p⟩ hl
    have hroot : (w.cells (Files.single id i)).root r = (v.cells (Files.single id i)).root r := rfl
    refine Cells.get_congr hroot (fun q hin hne k _ => ?_) hl
    exact Volume.readBlockPtr_congr hmap (hbytes _ hin hne) k
  have hget' : ∀ l, treeShape.Valid l → (w.cells (Files.single id j)).get l =
      (v.cells (Files.single id j)).get l := by
    rintro ⟨r, p⟩ hl
    have hroot : (w.cells (Files.single id j)).root r = (v.cells (Files.single id j)).root r := rfl
    refine Cells.get_congr hroot (fun q hin hne k _ => ?_) hl
    have hold := hslots.erased.get_of_ne hin.1 hne
    rw [hold] at hne ⊢
    exact Volume.readBlockPtr_congr hmap (hbytes _ hin hne) k
  refine ⟨fun op hop => ?_, gone, ⟨⟨fun l hl => ?_, fun l hl hkeep => ?_⟩,
    Volume.SameTables.refl w, rfl, fun _ _ => rfl, hslots.sameMeta, fun b hb => ?_⟩, fun b hb => ?_⟩
  · obtain ⟨r, q, k, hop, hin, hne, hout⟩ := h.cell op hop
    exact ⟨r, q, k, by rw [hget _ hin.1]; exact hop, hin, by rwa [hget _ hin.1], hout⟩
  · rw [hget l hl, hget' l hl]
    exact hslots.erased.sub l hl
  · rw [hget l hl, hget' l hl]
    exact hslots.erased.kept l hl hkeep
  · obtain ⟨l, hl, hown, hzero⟩ := hslots.freed b hb
    exact ⟨l, hl, by rwa [owns, hget l hl], by rwa [hget' l hl]⟩
  · refine (hfreed b hb).imp_right ?_
    rintro ⟨r, q, k, hvalid, hown, hop⟩
    exact ⟨r, q, k, hvalid, by rwa [owns, hget _ hvalid], by rwa [hget _ hvalid.parent.1.1]⟩

theorem applyOp_zeroBlockPtr {w u : Volume} {b k : Nat}
    (h : w.applyOp (zeroBlockPtrOp b k) = .ok u) : u = w.writeBlockPtr b k 0 := by
  unfold Volume.applyOp zeroBlockPtrOp at h
  dsimp only at h
  split at h
  next => cases h
  next =>
    cases h
    rfl

theorem apply_cells (hg : Good rawExtent (Files.single id i) v) {w u : Volume} {gone : List Nat}
    (hcell : ∀ op ∈ ops, ∃ r q k, op = zeroBlockPtrOp ((v.cells (Files.single id i)).get ⟨r, q⟩) k ∧
      treeShape.Inner ⟨r, q⟩ ∧ (v.cells (Files.single id i)).get ⟨r, q⟩ ≠ 0 ∧
        ¬Surviving n ⟨r, k :: q⟩)
    (h : Shrinks n id i v j w gone) (hrun : Volume.applyJournalOps ops w = .ok () u) :
    Shrinks n id i v j u gone ∧
      (∀ b k, zeroBlockPtrOp b k ∈ ops → u.readBlockPtr b k = 0) ∧
        ∀ b k, w.readBlockPtr b k = 0 → u.readBlockPtr b k = 0 := by
  induction ops generalizing w with
  | nil =>
    cases hrun
    exact ⟨h, fun _ _ hop => absurd hop List.not_mem_nil, fun _ _ hz => hz⟩
  | cons op ops ih =>
    obtain ⟨w₁, happly, hrest⟩ := Volume.applyJournalOps_cons.mp hrun
    obtain ⟨r, q, k, rfl, hin, hne, hout⟩ := hcell op List.mem_cons_self
    rw [applyOp_zeroBlockPtr happly] at hrest
    obtain ⟨hnew, -⟩ := h.writeZero hg hin rfl hne hout
    obtain ⟨hs, hzeros, hmono⟩ := ih (fun op hop => hcell op (List.mem_cons_of_mem _ hop)) hnew hrest
    refine ⟨hs, fun b m hop => ?_, fun b m hz => hmono b m ?_⟩
    · rcases List.mem_cons.mp hop with heq | hmem
      · obtain ⟨rfl, rfl⟩ := zeroBlockPtrOp_inj heq
        exact hmono _ _ (readBlockPtr_writeSame ..)
      · exact hzeros b m hmem
    · rcases readBlockPtr_writeZero w _ k b m with hsame | hzero
      · rw [hsame, hz]
      · exact hzero

theorem apply (h : Stages n id i v j freed ops) (hg : Good rawExtent (Files.single id i) v)
    {u : Volume} (hrun : Volume.applyJournalOps ops v = .ok () u) : Shrinks n id i v j u freed := by
  obtain ⟨gone, hslots, hfreed⟩ := h.slots
  obtain ⟨hs, hzeros, -⟩ := apply_cells hg h.cell hslots hrun
  refine { hs with freed := fun b hb => ?_ }
  rcases hfreed b hb with hgone | ⟨r, q, k, hvalid, hown, hop⟩
  · exact hs.freed b hgone
  · refine ⟨_, hvalid, hown, ?_⟩
    rw [Cells.get_cons]
    split
    next => rfl
    next hne =>
      rw [hs.erased.get_of_ne hvalid.parent.1.1 hne]
      exact hzeros _ _ hop

end Stages

section Apply

variable {v v₁ v' w u : Volume} {id n : Nat} {i j : Inode}

theorem apply_release {blks : List Nat}
    (h : Volume.applyJournalOps (blks.map (.setDataBitmap · false)) v = .ok () u) :
    v.SameTables u ∧ u.block = v.block ∧ ∀ b, b ∉ blks → u.marked b = v.marked b := by
  induction blks generalizing v with
  | nil =>
    cases h
    exact ⟨Volume.SameTables.refl _, rfl, fun _ _ => rfl⟩
  | cons c blks ih =>
    rw [List.map_cons, Volume.applyJournalOps_cons] at h
    obtain ⟨w, happly, h⟩ := h
    obtain ⟨htables, hblock, hmarks⟩ := ih h
    unfold Volume.applyOp at happly
    dsimp only at happly
    split at happly
    next => cases happly
    next hdata =>
      cases happly
      have hset : v.SameTables (v.setMark c false) := ⟨rfl, rfl, rfl, rfl, rfl⟩
      refine ⟨hset.trans htables, hblock, fun b hb => ?_⟩
      rw [hmarks b fun hmem => hb (List.mem_cons_of_mem _ hmem)]
      have hne : b ≠ c := fun heq => hb (heq ▸ List.mem_cons_self)
      have hc : v.isDataBlock c = true := by
        by_contra hn
        exact hdata (Or.inl (by simpa using hn))
      have hle := (Volume.isDataBlock_iff.mp hc).2.1
      unfold Volume.marked Volume.setMark
      dsimp only
      by_cases hlow : v.superblock.dataBlockStart ≤ b
      · rw [Function.update_of_ne (by omega)]
      · simp [hlow]

theorem apply_writeInode {image : InodeBytes}
    (h : Volume.applyJournalOps [.writeInode id j image] v = .ok () u) :
    u = { v with inode := Function.update v.inode id (.ok j) } := by
  have happly := Volume.applyJournalOps_singleton.mp h
  unfold Volume.applyOp at happly
  dsimp only at happly
  split at happly
  next => cases happly
  next =>
    cases happly
    rfl

theorem apply_slackOps (hg : Good rawExtent (Files.single id i) v) {idx size : Nat}
    (h : Volume.applyJournalOps (v.slackOps i idx size) v = .ok () w) :
    v.SameTables w ∧ Good rawExtent (Files.single id i) w ∧
      (∀ k, w.payload i k =
        if k / blockSize = idx ∧ size % blockSize ≤ k % blockSize then 0 else v.payload i k) ∧
      ∀ l, treeShape.Inner l → (v.cells (Files.single id i)).get l ≠ 0 →
        w.block ((v.cells (Files.single id i)).get l) =
          v.block ((v.cells (Files.single id i)).get l) := by
  unfold Volume.slackOps at h
  dsimp only at h
  split at h
  next hne =>
    have happly := Volume.applyJournalOps_singleton.mp h
    unfold Volume.applyOp at happly
    dsimp only at happly
    split at happly
    next => cases happly
    next =>
      cases happly
      obtain ⟨l, hl, hget⟩ := resolve_leaf id hne
      obtain ⟨hvalid, hleaf, -, -⟩ := leafPlace_valid hl
      have hown : v.resolveLogicalBlockId i idx ∈
          owns treeShape rawExtent (v.cells (Files.single id i)) l := by
        rw [← hget] at hne ⊢
        exact mem_owns_raw hne
      have hinner : ∀ l', treeShape.Inner l' → (v.cells (Files.single id i)).get l' ≠ 0 →
          (v.cells (Files.single id i)).get l' ≠ v.resolveLogicalBlockId i idx :=
        fun l' hin hne' => hg.leaf_not_inner hvalid hleaf hown hin hne'
      refine ⟨Volume.sameTables_setBlock .., hg.setBlock hinner, fun k => ?_, fun l' hin hne' =>
        Volume.setBlock_block_other (hinner l' hin hne')⟩
      have hset := payload_setBlock (f := patch (v.block (v.resolveLogicalBlockId i idx))
        (size % blockSize) (List.replicate (blockSize - size % blockSize) 0)) hg
        (Files.single_has id i) hl hget hne k
      rw [Files.single_inode] at hset
      rw [hset]
      by_cases hk : k / blockSize = idx
      · subst hk
        have hmod := mod_blockSize_lt k
        simp only [if_true, true_and]
        by_cases hin : size % blockSize ≤ k % blockSize
        · rw [if_pos hin, patch, if_pos hin, List.getElem?_replicate, if_pos (by omega),
            Option.getD_some]
        · rw [if_neg hin, patch, if_neg hin, Volume.payload, Volume.blockByte, if_neg hne]
      · rw [if_neg hk, if_neg fun h => hk h.1]
  next hz =>
    cases h
    refine ⟨Volume.SameTables.refl v, hg, fun k => ?_, fun _ _ _ => rfl⟩
    split
    next hk =>
      rw [Volume.payload, hk.1, not_not.mp hz]
      rfl
    next => rfl

end Apply

section Truncation

variable {J : Journal} {A : Ambient} {v v₁ v' w : Volume} {id n : Nat} {i i' : Inode}

theorem RawFile.logWritten (h : RawFile v id i) (hlog : LogWritten v v')
    (hdata : journalHeaderBlock + journalReservedBlocks ≤ v.superblock.dataBlockStart) :
    RawFile v' id i ∧ v'.payload i = v.payload i := by
  obtain ⟨hgood, hget, hbytes⟩ := h.good.logWritten hlog hdata
  refine ⟨⟨?_, h.mode, h.whole, h.plain, h.clear, h.unfiltered, hgood⟩, ?_⟩
  · have hrecord := h.record
    unfold Volume.readInodeInternal at hrecord ⊢
    rwa [hlog.tables.superblock, hlog.tables.inode]
  · funext k
    have hsame : v'.payload ((Files.single id i).inode id) k =
        v.payload ((Files.single id i).inode id) k :=
      payload_congr (Files.single_has id i) (Files.single_has id i) (fun idx l hl m => ?_) k
    · rwa [Files.single_inode] at hsame
    · obtain ⟨hvalid, -, -, -⟩ := leafPlace_valid hl
      rw [hget l hvalid]
      by_cases hzero : (v.cells (Files.single id i)).get l = 0
      · rw [hzero]
        rfl
      · rw [Volume.blockByte, Volume.blockByte, hbytes _ ⟨l, hvalid, mem_owns_raw hzero⟩]

theorem Resized.before (h : Resized v₁ i n v' id i') (hlog : LogWritten v v₁)
    (hpay : v₁.payload i = v.payload i) : Resized v i n v' id i' :=
  ⟨h.superblock.trans hlog.tables.superblock, h.mapBlocks.trans hlog.tables.mapBlocks, h.file, h.size,
    fun k hk => by rw [h.payload k hk, hpay]⟩

theorem Resized.after {v'' : Volume} (h : Resized v i n v' id i') (hlog : LogWritten v' v'')
    (hdata : journalHeaderBlock + journalReservedBlocks ≤ v'.superblock.dataBlockStart) :
    Resized v i n v'' id i' := by
  obtain ⟨hfile, hpay⟩ := h.file.logWritten hlog hdata
  exact ⟨hlog.tables.superblock.trans h.superblock, hlog.tables.mapBlocks.trans h.mapBlocks, hfile,
    h.size, fun k hk => by rw [hpay, h.payload k hk]⟩

theorem resolve_logWritten (hg : Good rawExtent (Files.single id i) v) (hlog : LogWritten v v₁)
    (hdata : journalHeaderBlock + journalReservedBlocks ≤ v.superblock.dataBlockStart) (idx : Nat) :
    v₁.resolveLogicalBlockId i idx = v.resolveLogicalBlockId i idx := by
  obtain ⟨-, hget, -⟩ := hg.logWritten hlog hdata
  have hres : ∀ u : Volume, u.resolveLogicalBlockId i idx =
      ((leafPlace id idx).map (u.cells (Files.single id i)).get).getD 0 := by
    intro u
    have heq := resolveLogicalBlockId_eq (v := u) (Files.single_has id i) idx
    rwa [Files.single_inode] at heq
  rw [hres, hres]
  cases hl : leafPlace id idx with
  | none => rfl
  | some l =>
    rw [Option.map_some, Option.map_some, hget l (leafPlace_valid hl).1]

theorem slackOps_logWritten (hg : Good rawExtent (Files.single id i) v) (hlog : LogWritten v v₁)
    (hdata : journalHeaderBlock + journalReservedBlocks ≤ v.superblock.dataBlockStart)
    (idx size : Nat) : v.slackOps i idx size = v₁.slackOps i idx size := by
  unfold Volume.slackOps
  rw [resolve_logWritten hg hlog hdata]

theorem readInodeInternal_update (h : v.readInodeInternal id = .ok i) (htables : v.SameTables w)
    (j : Inode) : ({ w with inode := Function.update w.inode id (.ok j) } :
      Volume).readInodeInternal id = .ok j := by
  have hid : ¬id ≥ v.superblock.usableInodeCount := by
    intro hge
    rw [Volume.readInodeInternal, if_pos hge] at h
    cases h
  unfold Volume.readInodeInternal
  rw [htables.superblock, if_neg hid]
  simp

theorem Journal.expandRaw_resized (h : RawFile v id i) (hmount : v.Mountable)
    (hj : v.superblock.hasJournalLayout = true) (hlt : i.size < n)
    (hrun : J.expandRaw A id i n v = .ok () v') : ∃ i', Resized v i n v' id i' := by
  have hdata := journal_before_data hmount hj
  unfold Journal.expandRaw Journal.commitAndApply at hrun
  simp only [DiskM.bind_ok, DiskM.get_ok] at hrun
  obtain ⟨_, _, ⟨rfl, rfl⟩, image, _, himage, _, u, ⟨_, v₁, hcommit, happly⟩, hcheck⟩ := hrun
  obtain ⟨-, rfl⟩ := liftExcept_ok.mp himage
  have hlog := commitJournalTx_ok hcommit
  obtain ⟨h₁, hpay₁⟩ := h.logWritten hlog hdata
  obtain ⟨w, hslack, hwrite⟩ := Volume.applyJournalOps_append.mp happly
  -- the last block of the file is zeroed from its end on
  obtain ⟨htables, hg, hpay⟩ : v₁.SameTables w ∧ Good rawExtent (Files.single id i) w ∧
      ∀ k, w.payload i k = if i.size < n ∧ SlackByte i.size k then 0 else v₁.payload i k := by
    by_cases hpos : 0 < i.size
    · rw [if_pos hpos, slackOps_logWritten h.good hlog hdata] at hslack
      obtain ⟨htables, hg, hpay, -⟩ := apply_slackOps h₁.good hslack
      refine ⟨htables, hg, fun k => ?_⟩
      rw [hpay k]
      simp only [SlackByte, hlt, hpos, true_and]
    · rw [if_neg hpos] at hslack
      cases hslack
      refine ⟨Volume.SameTables.refl _, h₁.good, fun k => ?_⟩
      rw [if_neg fun hs => hpos hs.2.1]
  have hu := apply_writeInode hwrite
  have hrecord := readInodeInternal_update h₁.record htables
    { i with size := n, modifiedAt := A.now }
  rw [← hu] at hrecord
  obtain ⟨hfile, hsame⟩ := h₁.stored hg (SameMeta.refl i) hu hrecord
  have hres : Resized v i n u id { i with size := n, modifiedAt := A.now } :=
    Resized.before ⟨hu ▸ htables.superblock, hu ▸ htables.mapBlocks, hfile, rfl,
      fun k _ => by rw [hsame, hpay k]⟩ hlog hpay₁
  refine ⟨_, hres.after (maybeCheckpoint_ok hcheck) ?_⟩
  rw [hu]
  rw [← hlog.tables.superblock, ← htables.superblock] at hdata
  exact hdata

theorem apply_zeroTail (h : RawFile v id i) (hlog : LogWritten v v₁)
    (hdata : journalHeaderBlock + journalReservedBlocks ≤ v.superblock.dataBlockStart)
    (hrun : Volume.applyJournalOps (if n % blockSize ≠ 0 ∧ 0 < divCeil n blockSize then
      v.slackOps i (divCeil n blockSize - 1) n else []) v₁ = .ok () w) :
    v₁.SameTables w ∧ Good rawExtent (Files.single id i) w ∧
      (∀ k < n, w.payload i k = v₁.payload i k) ∧
      ∀ l, treeShape.Inner l → (v.cells (Files.single id i)).get l ≠ 0 →
        w.block ((v.cells (Files.single id i)).get l) =
          v.block ((v.cells (Files.single id i)).get l) := by
  obtain ⟨hg₁, hget₁, hbytes₁⟩ := h.good.logWritten hlog hdata
  have hinner : ∀ l, treeShape.Inner l → (v.cells (Files.single id i)).get l ≠ 0 →
      v₁.block ((v.cells (Files.single id i)).get l) =
        v.block ((v.cells (Files.single id i)).get l) :=
    fun l hin hne => hbytes₁ _ ⟨l, hin.1, owns_inner hin hne⟩
  split at hrun
  next hslack =>
    rw [slackOps_logWritten h.good hlog hdata] at hrun
    obtain ⟨htables, hg, hpay, hbytes⟩ := apply_slackOps hg₁ hrun
    refine ⟨htables, hg, fun k hk => ?_, fun l hin hne => ?_⟩
    · rw [hpay k, if_neg]
      rintro ⟨hdiv, hmod⟩
      simp only [divCeil, show blockSize = 4096 from rfl] at *
      omega
    · have hsame := hbytes l hin (by rwa [hget₁ l hin.1])
      rw [hget₁ l hin.1] at hsame
      rw [hsame, hinner l hin hne]
  next =>
    cases hrun
    exact ⟨Volume.SameTables.refl _, hg₁, fun _ _ => rfl, hinner⟩

theorem Journal.shrinkRaw_ok {idxs : List Nat} (hidxs : idxs = List.range' (divCeil n blockSize)
      (divCeil i.size blockSize - divCeil n blockSize))
    (hrun : J.shrinkRaw A id i n v = .ok () v') :
    ∃ v₁ w u₁ u₂ u u',
      LogWritten v v₁ ∧
      Volume.applyJournalOps (if n % blockSize ≠ 0 ∧ 0 < divCeil n blockSize then
        v.slackOps i (divCeil n blockSize - 1) n else []) v₁ = .ok () w ∧
      Volume.applyJournalOps ((v.stageClears i idxs).2.2 ++
        (v.stagePrune (v.stageClears i idxs).1 (divCeil n blockSize)).2.2) w = .ok () u₁ ∧
      Volume.applyJournalOps (((v.stageClears i idxs).2.1 ++
        (v.stagePrune (v.stageClears i idxs).1 (divCeil n blockSize)).2.1).map
          (.setDataBitmap · false)) u₁ = .ok () u₂ ∧
      u = { u₂ with inode := Function.update u₂.inode id (.ok
        { (v.stagePrune (v.stageClears i idxs).1 (divCeil n blockSize)).1 with
          size := n, modifiedAt := A.now }) } ∧
      LogWritten u u' ∧ LogWritten u' v' := by
  unfold Journal.shrinkRaw Journal.commitAndApply at hrun
  simp only [DiskM.bind_ok, DiskM.get_ok, DiskM.modify_ok] at hrun
  obtain ⟨_, _, ⟨rfl, rfl⟩, hrun⟩ := hrun
  rw [← hidxs] at hrun
  generalize v.stageClears i idxs = r at hrun ⊢
  obtain ⟨j, freed, cleared⟩ := r
  dsimp only at hrun ⊢
  generalize v.stagePrune j (divCeil n blockSize) = r at hrun ⊢
  obtain ⟨j', pruned, zeroed⟩ := r
  dsimp only at hrun ⊢
  obtain ⟨image, _, himage, _, u, ⟨_, v₁, hcommit, happly⟩, _, u', hhint, hcheck⟩ := hrun
  obtain ⟨-, rfl⟩ := liftExcept_ok.mp himage
  rw [List.append_assoc (_ : List VolumeOp) cleared zeroed] at happly
  obtain ⟨u₂, happly, hwrite⟩ := Volume.applyJournalOps_append.mp happly
  obtain ⟨u₁, happly, hrelease⟩ := Volume.applyJournalOps_append.mp happly
  obtain ⟨w, htail, hcells⟩ := Volume.applyJournalOps_append.mp happly
  refine ⟨v₁, w, u₁, u₂, u, u', commitJournalTx_ok hcommit, htail, hcells, hrelease,
    apply_writeInode hwrite, ?_, maybeCheckpoint_ok hcheck⟩
  rw [← hhint]
  split
  next =>
    split
    next => exact ⟨⟨rfl, rfl, rfl, rfl, rfl⟩, rfl, fun _ _ => rfl⟩
    next => exact LogWritten.refl u
  next => exact LogWritten.refl u

theorem Journal.shrinkRaw_resized (h : RawFile v id i) (hmount : v.Mountable)
    (hj : v.superblock.hasJournalLayout = true) (hlt : n ≤ i.size)
    (hrun : J.shrinkRaw A id i n v = .ok () v') : ∃ i', Resized v i n v' id i' := by
  have hdata := journal_before_data hmount hj
  obtain ⟨idxs, hidxs⟩ : ∃ idxs, idxs = List.range' (divCeil n blockSize)
    (divCeil i.size blockSize - divCeil n blockSize) := ⟨_, rfl⟩
  have hidx : ∀ idx ∈ idxs, divCeil n blockSize ≤ idx := by
    intro idx hmem
    rw [hidxs] at hmem
    exact (List.mem_range'_1.mp hmem).1
  have hprune := ((Stages.refl (divCeil n blockSize) id i v).stageClears h.good hidx).stagePrune h.good
  obtain ⟨v₁, w, u₁, u₂, u, u', hlog, htail, hcells, hrelease, hu, hhint, hcheck⟩ :=
    Journal.shrinkRaw_ok hidxs hrun
  rw [List.nil_append, List.nil_append] at hprune
  obtain ⟨h₁, hpay₁⟩ := h.logWritten hlog hdata
  obtain ⟨htables, hg, hpay, hbytes⟩ := apply_zeroTail h hlog hdata htail
  have hmap : w.mapBlocks = v.mapBlocks := htables.mapBlocks.trans hlog.tables.mapBlocks
  have hs := (hprune.congr hmap hbytes).apply hg hcells
  obtain ⟨htables₂, hblock₂, hmarks₂⟩ := apply_release hrelease
  have htables' : v₁.SameTables u₂ := (htables.trans hs.tables).trans htables₂
  have hrecord := readInodeInternal_update h₁.record htables'
    { (v.stagePrune (v.stageClears i idxs).1 (divCeil n blockSize)).1 with
      size := n, modifiedAt := A.now }
  rw [← hu] at hrecord
  have hres := (Shrinks.resized h₁ hlt htables hg hpay hs htables₂ hblock₂ hmarks₂ hu hrecord).before
    hlog hpay₁
  have hdata' : journalHeaderBlock + journalReservedBlocks ≤ u.superblock.dataBlockStart := by
    rw [hu]
    change _ ≤ u₂.superblock.dataBlockStart
    rw [htables'.superblock, hlog.tables.superblock]
    exact hdata
  refine ⟨_, (hres.after hhint hdata').after hcheck ?_⟩
  rw [hhint.tables.superblock]
  exact hdata'

/-- The session whose truncations of journaled images are those of `J`. -/
def Session.onJournal (S : Session) (J : Journal)
    (chunked rebuild : Ambient → Nat → Nat → DiskM Unit) : Session :=
  { S with truncateJournaled := J.truncateInternal chunked rebuild }

theorem truncateInternal_resized {S : Session} {chunked rebuild : Ambient → Nat → Nat → DiskM Unit}
    (h : RawFile v id i) (hmount : v.Mountable)
    (hrun : (S.onJournal J chunked rebuild).truncateInternal A id n v = .ok () v') :
    ∃ i', Resized v i n v' id i' := by
  have hraw : ¬(0 < i.compressedSize ∨ i.encrypted = true ∨ 0 < i.filterTypesize) := by
    simp [h.plain, h.clear, h.unfiltered]
  have hwhole : ¬i.isSeekable = true := by simp [h.whole]
  unfold Session.truncateInternal at hrun
  simp only [DiskM.bind_ok, DiskM.get_ok, liftExcept_ok] at hrun
  obtain ⟨_, _, ⟨rfl, rfl⟩, i₀, _, ⟨hrecord, rfl⟩, _, _, ⟨-, rfl⟩, hrun⟩ := hrun
  rw [h.record] at hrecord
  cases hrecord
  split at hrun
  next hsize =>
    obtain ⟨-, rfl⟩ := DiskM.pure_ok.mp hrun
    refine ⟨i, rfl, rfl, h, hsize.symm, fun k hk => ?_⟩
    rw [if_neg fun hgrow => by omega]
  next hsize =>
    split at hrun
    next hj =>
      change J.truncateInternal chunked rebuild A id n v = .ok () v' at hrun
      unfold Journal.truncateInternal at hrun
      simp only [DiskM.bind_ok, DiskM.get_ok, liftExcept_ok] at hrun
      obtain ⟨_, _, ⟨rfl, rfl⟩, i₀, _, ⟨hrecord, rfl⟩, hrun⟩ := hrun
      rw [h.record] at hrecord
      cases hrecord
      rw [if_neg hwhole, if_neg hraw] at hrun
      split at hrun
      next hgrow => exact Journal.expandRaw_resized h hmount hj hgrow hrun
      next hle => exact Journal.shrinkRaw_resized h hmount hj (by omega) hrun
    next =>
      split at hrun
      next hgrow => exact expandRaw_resized h hgrow hrun
      next hle => exact shrinkRaw_resized h (by omega) hrun

end Truncation

end Oifs
