import Oifs.AllocSim
import Oifs.JournaledTruncate

namespace Oifs

open PointerForest

theorem cell_congr {f g : Nat → UInt8} {i : Nat} (h : ∀ k, k < 8 → f (i * 8 + k) = g (i * 8 + k)) :
    cell f i = cell g i := by
  unfold cell
  rw [List.map_congr_left fun k hk => h k (List.mem_range.mp hk)]

def zeroCellsOp (b first n : Nat) : VolumeOp :=
  .writeBlockSlice b (first * 8) (List.replicate (n * 8) 0)

def Zeroes (ops : List VolumeOp) (b k : Nat) : Prop :=
  ∃ first n, zeroCellsOp b first n ∈ ops ∧ first ≤ k ∧ k < first + n

theorem cell_patch_zeros {f : Nat → UInt8} {first n k : Nat} (h : first ≤ k ∧ k < first + n) :
    cell (patch f (first * 8) (List.replicate (n * 8) 0)) k = 0 := by
  rw [← cell_zero (f := fun _ => 0) (i := k) fun _ => rfl]
  refine cell_congr fun j hj => ?_
  rw [patch, if_pos (by omega), List.getElem?_replicate, if_pos (by omega), Option.getD_some]

theorem cell_patch_zeros_other {f : Nat → UInt8} {first n k : Nat}
    (h : ¬(first ≤ k ∧ k < first + n)) :
    cell (patch f (first * 8) (List.replicate (n * 8) 0)) k = cell f k := by
  refine cell_congr fun j hj => patch_out ?_
  rw [List.length_replicate]
  omega

namespace Volume

variable {v : Volume}

theorem applyOp_zeroCells {b first n : Nat} (hb : v.isDataBlock b = true) (hmap : b < v.mapBlocks)
    (hn : first + n ≤ ptrsPerBlock) : v.applyOp (zeroCellsOp b first n) =
      .ok (v.setBlock b (patch (v.block b) (first * 8) (List.replicate (n * 8) 0))) := by
  have hfits : first * 8 + n * 8 ≤ blockSize := by
    simp only [ptrsPerBlock, blockSize] at *
    omega
  unfold applyOp zeroCellsOp
  dsimp only
  rw [if_neg]
  rw [hb, List.length_replicate]
  simp only [Bool.not_true, Bool.false_eq_true, false_or]
  omega

theorem readBlockPtr_zeroCells {b first n : Nat} (hmap : b < v.mapBlocks) (c k : Nat) :
    (v.setBlock b (patch (v.block b) (first * 8) (List.replicate (n * 8) 0))).readBlockPtr c k =
      if c = b ∧ first ≤ k ∧ k < first + n then 0 else v.readBlockPtr c k := by
  by_cases hc : c = b
  · subst hc
    simp only [readBlockPtr, setBlock_mapBlocks, setBlock_block_same hmap, true_and]
    by_cases hk : first ≤ k ∧ k < first + n
    · rw [if_pos hk, cell_patch_zeros hk, ite_self]
    · rw [if_neg hk, cell_patch_zeros_other hk]
  · rw [if_neg fun h => hc h.1]
    exact readBlockPtr_congr (setBlock_mapBlocks ..) (setBlock_block_other hc) k

theorem applyJournalOps_zeroes {ops : List VolumeOp} (hcount : v.superblock.blockCount ≤ v.mapBlocks)
    (hops : ∀ op ∈ ops, ∃ b first n, op = zeroCellsOp b first n ∧ v.isDataBlock b = true ∧
      first + n ≤ ptrsPerBlock) :
    ∃ u, applyJournalOps ops v = .ok () u ∧ v.SameTables u ∧
      (∀ b k, Zeroes ops b k → u.readBlockPtr b k = 0) ∧
        ∀ b k, ¬Zeroes ops b k → u.readBlockPtr b k = v.readBlockPtr b k := by
  induction ops generalizing v with
  | nil =>
    refine ⟨v, rfl, SameTables.refl v, fun b k hz => ?_, fun _ _ _ => rfl⟩
    obtain ⟨_, _, hmem, -⟩ := hz
    cases hmem
  | cons op ops ih =>
    obtain ⟨b, first, n, rfl, hb, hn⟩ := hops op List.mem_cons_self
    have hmap : b < v.mapBlocks := by
      have hlt := (isDataBlock_iff.mp hb).2.2
      omega
    have hset := sameTables_setBlock v b (patch (v.block b) (first * 8) (List.replicate (n * 8) 0))
    obtain ⟨u, hrun, htables, hzero, hsame⟩ := ih
      (v := v.setBlock b (patch (v.block b) (first * 8) (List.replicate (n * 8) 0)))
      (by rw [hset.superblock, hset.mapBlocks]; exact hcount) fun op hop => by
        obtain ⟨c, f, m, heq, hc, hm⟩ := hops op (List.mem_cons_of_mem _ hop)
        exact ⟨c, f, m, heq, by rw [hset.isDataBlock]; exact hc, hm⟩
    refine ⟨u, applyJournalOps_cons.mpr ⟨_, applyOp_zeroCells hb hmap hn, hrun⟩,
      hset.trans htables, fun c k hz => ?_, fun c k hz => ?_⟩
    · by_cases hrest : Zeroes ops c k
      · exact hzero c k hrest
      · obtain ⟨f, m, hmem, hk⟩ := hz
        rcases List.mem_cons.mp hmem with heq | hmem
        · obtain ⟨hblk, hoff, hdata⟩ := VolumeOp.writeBlockSlice.inj heq
          have hlen := congrArg List.length hdata
          rw [List.length_replicate, List.length_replicate] at hlen
          rw [hsame c k hrest, readBlockPtr_zeroCells hmap, if_pos ⟨hblk, by omega, by omega⟩]
        · exact absurd ⟨f, m, hmem, hk⟩ hrest
    · have hrest : ¬Zeroes ops c k := by
        rintro ⟨f, m, hmem, hk⟩
        exact hz ⟨f, m, List.mem_cons_of_mem _ hmem, hk⟩
      rw [hsame c k hrest, readBlockPtr_zeroCells hmap, if_neg]
      rintro ⟨rfl, hk⟩
      exact hz ⟨first, n, List.mem_cons_self, hk⟩

end Volume

/-- The pointer blocks of an inode lie in the data area, and no two of its pointers lead to one of
them. -/
structure PointerTree (v : Volume) (id : Nat) (i : Inode) : Prop where
  mapped : v.superblock.blockCount ≤ v.mapBlocks
  separated : Separated treeShape (fun _ _ => ∅) (v.cells (Files.single id i))
  data : ∀ l, treeShape.Inner l → (v.cells (Files.single id i)).get l ≠ 0 →
    v.isDataBlock ((v.cells (Files.single id i)).get l) = true

def Behind (id s start : Nat) (l : Place (Nat × Nat)) : Prop :=
  l.root = (id, s) ∧ ∃ a, l.path.getLast? = some a ∧ start ≤ a

theorem Behind.child {id s start k : Nat} {r : Nat × Nat} {q : List Nat}
    (h : Behind id s start ⟨r, q⟩) : Behind id s start ⟨r, k :: q⟩ := by
  obtain ⟨hroot, a, hlast, ha⟩ := h
  refine ⟨hroot, a, ?_, ha⟩
  change q.getLast? = some a at hlast
  rw [List.getLast?_cons, hlast, Option.getD_some]

namespace PointerTree

variable {v : Volume} {id : Nat} {i : Inode}

theorem clear_behind (h : PointerTree v id i) {s start : Nat} {ops : List VolumeOp}
    (hops : ∀ op ∈ ops, ∃ q first n,
      op = zeroCellsOp ((v.cells (Files.single id i)).get ⟨(id, s), q⟩) first n ∧
      treeShape.Inner ⟨(id, s), q⟩ ∧ (v.cells (Files.single id i)).get ⟨(id, s), q⟩ ≠ 0 ∧
      first + n ≤ ptrsPerBlock ∧
        ∀ k, first ≤ k → k < first + n → Behind id s start ⟨(id, s), k :: q⟩)
    (htop : ∀ a, start ≤ a → a < ptrsPerBlock → i.slot s ≠ 0 → zeroCellsOp (i.slot s) a 1 ∈ ops) :
    ∃ u, Volume.applyJournalOps ops v = .ok () u ∧ v.SameTables u ∧ ∀ l, treeShape.Valid l →
      (Behind id s start l → (u.cells (Files.single id i)).get l = 0) ∧
        (¬Behind id s start l → (u.cells (Files.single id i)).get l =
          (v.cells (Files.single id i)).get l) := by
  obtain ⟨u, hrun, htables, hzero, hsame⟩ := Volume.applyJournalOps_zeroes h.mapped fun op hop => by
    obtain ⟨q, first, n, heq, hin, hne, hn, -⟩ := hops op hop
    exact ⟨_, first, n, heq, h.data _ hin hne, hn⟩
  have herased : Erased treeShape (fun l => ¬Behind id s start l) (v.cells (Files.single id i))
      (u.cells (Files.single id i)) := by
    refine Erased.refl.step h.separated (fun r k q hkeep hbehind => hkeep hbehind.child)
      (fun r => Or.inl rfl) fun b k hk => ?_
    by_cases hz : Zeroes ops b k
    · refine Or.inr ⟨hzero b k hz, ?_⟩
      obtain ⟨first, n, hmem, hfirst, hlast⟩ := hz
      obtain ⟨q, first', n', heq, hin, hne, -, hbehind⟩ := hops _ hmem
      obtain ⟨hblk, hoff, hdata⟩ := VolumeOp.writeBlockSlice.inj heq
      have hlen := congrArg List.length hdata
      rw [List.length_replicate, List.length_replicate] at hlen
      refine ⟨(id, s), q, hin, hblk.symm, hblk ▸ hne, fun hkeep => hkeep ?_⟩
      exact hbehind k (by omega) (by omega)
    · exact Or.inl (hsame b k hz)
  refine ⟨u, hrun, htables, fun l hl => ⟨?_, herased.kept l hl⟩⟩
  obtain ⟨r, p⟩ := l
  rintro ⟨hroot, a, hlast, ha⟩
  cases hroot
  obtain ⟨front, rfl⟩ := List.getLast?_eq_some_iff.mp hlast
  have hlt : a < ptrsPerBlock := hl.2 a (by simp)
  apply Cells.get_below_zero
  rw [cells_single_cons, cells_single_root, Volume.follow]
  split
  next => rfl
  next hne => exact hzero _ _ ⟨a, 1, htop a ha hlt hne, Nat.le_refl _, Nat.lt_succ_self _⟩

theorem mem_zeroPointers {b first : Nat} {op : VolumeOp} (h : op ∈ Volume.zeroPointers b first) :
    ∃ k, first ≤ k ∧ k < ptrsPerBlock ∧ op = zeroCellsOp b k 1 := by
  obtain ⟨k, hk, rfl⟩ := List.mem_map.mp h
  have hrange := List.mem_range'_1.mp hk
  exact ⟨k, hrange.1, by omega, rfl⟩

theorem mem_zeroChildren {b first : Nat} {op : VolumeOp} : op ∈ v.zeroChildren b first ↔
    ∃ k, first ≤ k ∧ k < ptrsPerBlock ∧ (op = zeroCellsOp b k 1 ∨
      v.readBlockPtr b k ≠ 0 ∧ op = zeroCellsOp (v.readBlockPtr b k) 0 ptrsPerBlock) := by
  unfold Volume.zeroChildren
  rw [List.mem_flatMap]
  constructor
  · rintro ⟨k, hk, hmem⟩
    have hrange := List.mem_range'_1.mp hk
    refine ⟨k, hrange.1, by omega, ?_⟩
    rcases List.mem_cons.mp hmem with rfl | hmem
    · exact Or.inl rfl
    · split at hmem
      next => cases hmem
      next hne => exact Or.inr ⟨hne, List.mem_singleton.mp hmem⟩
  · rintro ⟨k, hfirst, hk, rfl | ⟨hne, rfl⟩⟩
    · exact ⟨k, List.mem_range'_1.mpr (by omega), List.mem_cons_self⟩
    · refine ⟨k, List.mem_range'_1.mpr (by omega), List.mem_cons_of_mem _ ?_⟩
      rw [if_neg hne]
      exact List.mem_singleton.mpr rfl

theorem behind_singleton {id s start k : Nat} (h : start ≤ k) : Behind id s start ⟨(id, s), [k]⟩ :=
  ⟨rfl, k, rfl, h⟩

theorem inner_of_length {id s : Nat} {q : List Nat} (hq : q.length + 9 < s)
    (hlt : ∀ k ∈ q, k < ptrsPerBlock) : treeShape.Inner ⟨(id, s), q⟩ :=
  ⟨⟨show q.length ≤ s - 9 by omega, hlt⟩, show q.length < s - 9 by omega⟩

theorem get_child {s k : Nat} {q : List Nat}
    (hne : (v.cells (Files.single id i)).get ⟨(id, s), q⟩ ≠ 0) :
    (v.cells (Files.single id i)).get ⟨(id, s), k :: q⟩ =
      v.readBlockPtr ((v.cells (Files.single id i)).get ⟨(id, s), q⟩) k :=
  Cells.get_cons_of_ne hne

theorem zeroChildren_ops {s start first : Nat} {q : List Nat} {op : VolumeOp}
    (hq : q.length + 10 < s) (hlt : ∀ k ∈ q, k < ptrsPerBlock)
    (hne : (v.cells (Files.single id i)).get ⟨(id, s), q⟩ ≠ 0)
    (hbehind : ∀ k, first ≤ k → Behind id s start ⟨(id, s), k :: q⟩)
    (hop : op ∈ v.zeroChildren ((v.cells (Files.single id i)).get ⟨(id, s), q⟩) first) :
    ∃ q first n, op = zeroCellsOp ((v.cells (Files.single id i)).get ⟨(id, s), q⟩) first n ∧
      treeShape.Inner ⟨(id, s), q⟩ ∧ (v.cells (Files.single id i)).get ⟨(id, s), q⟩ ≠ 0 ∧
      first + n ≤ ptrsPerBlock ∧
        ∀ k, first ≤ k → k < first + n → Behind id s start ⟨(id, s), k :: q⟩ := by
  obtain ⟨k, hfirst, hk, rfl | ⟨hptr, rfl⟩⟩ := mem_zeroChildren.mp hop
  · refine ⟨q, k, 1, rfl, inner_of_length (by omega) hlt, hne, hk, fun j hj _ => ?_⟩
    exact hbehind j (by omega)
  · have hget := get_child (k := k) hne
    refine ⟨k :: q, 0, ptrsPerBlock, by rw [hget], inner_of_length (by rw [List.length_cons]; omega) ?_,
      by rwa [hget], by omega, fun j _ _ => (hbehind k hfirst).child⟩
    rintro j (_ | ⟨_, hj⟩)
    · exact hk
    · exact hlt j hj

end PointerTree

def PruneClears (firstStale idx : Nat) : Prop :=
  firstStale ≠ 0 ∧
    if firstStale ≤ 10 then firstStale ≤ idx
    else if firstStale ≤ 522 then firstStale ≤ idx ∧ idx < 522
    else if firstStale ≤ 262666 then 522 + 512 * (firstStale - 522) ≤ idx ∧ idx < 262666
    else 262666 + 262144 * (firstStale - 262666) ≤ idx

instance (firstStale idx : Nat) : Decidable (PruneClears firstStale idx) := by
  unfold PruneClears
  infer_instance

theorem behind_place {id s start : Nat} {path : BlockPath} : Behind id s start (path.place id) ↔
    match path with
    | .direct _ => False
    | .single a => s = 10 ∧ start ≤ a
    | .double a _ => s = 11 ∧ start ≤ a
    | .triple a _ _ => s = 12 ∧ start ≤ a := by
  cases path with
  | direct k => simp [Behind, BlockPath.place]
  | single a | double a b | triple a b c => simp [Behind, BlockPath.place, eq_comm]

def PruneTier (firstStale s start : Nat) : Prop :=
  (s = 10 ∧ 10 < firstStale ∧ firstStale ≤ 522 ∧ start = firstStale - 10) ∨
    (s = 11 ∧ 522 < firstStale ∧ firstStale ≤ 262666 ∧ start = firstStale - 522) ∨
    (s = 12 ∧ 262666 < firstStale ∧ start = firstStale - 262666)

theorem behind_iff_clears {id s start firstStale idx : Nat} {path : BlockPath}
    (htier : PruneTier firstStale s start)
    (hpath : BlockPath.fromLogical idx = some path) :
    Behind id s start (path.place id) ↔ PruneClears firstStale idx := by
  obtain ⟨hslots, hidx⟩ := BlockPath.fromLogical_some hpath
  rw [behind_place, PruneClears]
  unfold PruneTier at htier
  cases path with
  | direct k =>
    have hk : k < 10 := hslots
    have hidx' : k = idx := hidx
    refine iff_of_false not_false ?_
    split_ifs with hten hsingle hdouble
    · omega
    · omega
    · omega
    · omega
  | single | double | triple =>
    simp only [BlockPath.SlotsInBounds, BlockPath.toLogical, doubleEnd, singleEnd, directBlocks,
      ptrsPerBlock] at hslots hidx
    dsimp only
    rcases htier with htier | htier | htier
    · rw [if_neg (by omega), if_pos htier.2.2.1]
      omega
    · rw [if_neg (by omega), if_neg (by omega), if_pos htier.2.2.1]
      omega
    · rw [if_neg (by omega), if_neg (by omega), if_neg (by omega)]
      omega

namespace PointerTree

variable {v : Volume} {id : Nat} {i : Inode}

theorem resolve_cleared {u : Volume} {s start firstStale : Nat}
    (hclear : ∀ l, treeShape.Valid l →
      (Behind id s start l → (u.cells (Files.single id i)).get l = 0) ∧
        (¬Behind id s start l → (u.cells (Files.single id i)).get l =
          (v.cells (Files.single id i)).get l))
    (hplace : ∀ idx path, BlockPath.fromLogical idx = some path →
      (Behind id s start (path.place id) ↔ PruneClears firstStale idx)) (idx : Nat) :
    u.resolveLogicalBlockId i idx =
      if PruneClears firstStale idx then 0 else v.resolveLogicalBlockId i idx := by
  rw [resolve_single u id, resolve_single v id]
  cases hpath : BlockPath.fromLogical idx with
  | none => simp [leafPlace, hpath]
  | some path =>
    have hl : leafPlace id idx = some (path.place id) := by rw [leafPlace, hpath, Option.map_some]
    obtain ⟨hgone, hkept⟩ := hclear _ (leafPlace_valid hl).1
    rw [hl, Option.map_some, Option.map_some, Option.getD_some, Option.getD_some]
    by_cases hbehind : Behind id s start (path.place id)
    · rw [if_pos ((hplace idx path hpath).mp hbehind), hgone hbehind]
    · rw [if_neg fun h => hbehind ((hplace idx path hpath).mpr h), hkept hbehind]

def SlotCleared (v : Volume) (id : Nat) (i : Inode) (s start : Nat) (ops : List VolumeOp) : Prop :=
  ∃ u, Volume.applyJournalOps ops v = .ok () u ∧ v.SameTables u ∧ ∀ l, treeShape.Valid l →
    (Behind id s start l → (u.cells (Files.single id i)).get l = 0) ∧
      (¬Behind id s start l → (u.cells (Files.single id i)).get l =
        (v.cells (Files.single id i)).get l)

def SlotOps (v : Volume) (id : Nat) (i : Inode) (s start : Nat) (ops : List VolumeOp) : Prop :=
  ∀ op ∈ ops, ∃ q first n, op = zeroCellsOp ((v.cells (Files.single id i)).get ⟨(id, s), q⟩) first n ∧
    treeShape.Inner ⟨(id, s), q⟩ ∧ (v.cells (Files.single id i)).get ⟨(id, s), q⟩ ≠ 0 ∧
    first + n ≤ ptrsPerBlock ∧
      ∀ k, first ≤ k → k < first + n → Behind id s start ⟨(id, s), k :: q⟩

theorem single_ops (v : Volume) (id : Nat) (i : Inode) (start : Nat) : SlotOps v id i 10 start
    (if i.slot 10 ≠ 0 then Volume.zeroPointers (i.slot 10) start else []) := by
  intro op hop
  split at hop
  next hne =>
    obtain ⟨k, hk, hlt, rfl⟩ := mem_zeroPointers hop
    refine ⟨[], k, 1, by rw [cells_single_root], inner_of_length (by simp) (by simp),
      by rwa [cells_single_root], hlt, fun j hj _ => behind_singleton (by omega)⟩
  next => cases hop

theorem double_ops (v : Volume) (id : Nat) (i : Inode) (start : Nat) : SlotOps v id i 11 start
    (if i.slot 11 ≠ 0 then v.zeroChildren (i.slot 11) start else []) := by
  intro op hop
  split at hop
  next hne =>
    rw [← cells_single_root v id] at hop hne
    exact zeroChildren_ops (by simp) (by simp) hne (fun k hk => behind_singleton hk) hop
  next => cases hop

def zeroGrandchildren (v : Volume) (blk start : Nat) : List VolumeOp :=
  (List.range' start (ptrsPerBlock - start)).flatMap fun b =>
    .writeBlockSlice blk (b * 8) (List.replicate 8 0) ::
      (if v.readBlockPtr blk b = 0 then [] else v.zeroChildren (v.readBlockPtr blk b) 0)

theorem triple_ops (v : Volume) (id : Nat) (i : Inode) (start : Nat) : SlotOps v id i 12 start
    (if i.slot 12 ≠ 0 then zeroGrandchildren v (i.slot 12) start else []) := by
  intro op hop
  split at hop
  next hne =>
    obtain ⟨b, hb, hop⟩ := List.mem_flatMap.mp hop
    have hrange := List.mem_range'_1.mp hb
    have hlt : b < ptrsPerBlock := by omega
    rcases List.mem_cons.mp hop with rfl | hop
    · refine ⟨[], b, 1, by rw [cells_single_root]; rfl, inner_of_length (by simp) (by simp),
        by rwa [cells_single_root], hlt, fun j hj _ => behind_singleton (by omega)⟩
    · split at hop
      next => cases hop
      next hptr =>
        rw [← cells_single_root v id] at hop hne hptr
        rw [← get_child hne] at hop hptr
        refine zeroChildren_ops (by simp) (by simpa using hlt) hptr (fun k _ => ?_) hop
        exact (behind_singleton hrange.1).child
  next => cases hop

theorem clear_single (h : PointerTree v id i) (start : Nat) : SlotCleared v id i 10 start
    (if i.slot 10 ≠ 0 then Volume.zeroPointers (i.slot 10) start else []) := by
  refine h.clear_behind (single_ops v id i start) fun a hstart ha hne => ?_
  rw [if_pos hne]
  exact List.mem_map.mpr ⟨a, List.mem_range'_1.mpr (by omega), rfl⟩

theorem clear_double (h : PointerTree v id i) (start : Nat) : SlotCleared v id i 11 start
    (if i.slot 11 ≠ 0 then v.zeroChildren (i.slot 11) start else []) := by
  refine h.clear_behind (double_ops v id i start) fun a hstart ha hne => ?_
  rw [if_pos hne]
  exact mem_zeroChildren.mpr ⟨a, hstart, ha, Or.inl rfl⟩

theorem clear_triple (h : PointerTree v id i) (start : Nat) : SlotCleared v id i 12 start
    (if i.slot 12 ≠ 0 then zeroGrandchildren v (i.slot 12) start else []) := by
  refine h.clear_behind (triple_ops v id i start) fun a hstart ha hne => ?_
  rw [if_pos hne]
  exact List.mem_flatMap.mpr ⟨a, List.mem_range'_1.mpr (by omega), List.mem_cons_self⟩

theorem prune_zero (v : Volume) (i : Inode) : v.pruneStalePointers i 0 = (i, []) := by
  rw [Volume.pruneStalePointers, if_pos rfl]

theorem prune_eq {firstStale : Nat} (hten : 10 < firstStale) : v.pruneStalePointers i firstStale =
    (i, if firstStale ≤ 522 then
        if i.slot 10 ≠ 0 then Volume.zeroPointers (i.slot 10) (firstStale - 10) else []
      else if firstStale ≤ 262666 then
        if i.slot 11 ≠ 0 then v.zeroChildren (i.slot 11) (firstStale - 522) else []
      else if i.slot 12 ≠ 0 then zeroGrandchildren v (i.slot 12) (firstStale - 262666) else []) := by
  have hmin : min firstStale 10 = 10 := by omega
  have hsecond : 10 + 512 = 522 := rfl
  have hthird : 10 + 512 * (1 + 512) = 262666 := rfl
  unfold Volume.pruneStalePointers zeroGrandchildren
  rw [if_neg (by omega), hmin]
  simp only [Nat.sub_self, List.range'_zero, List.foldl_nil, hsecond, hthird]
  rw [if_neg (by omega)]
  by_cases hsingle : firstStale ≤ 522
  · rw [if_pos hsingle, if_pos hsingle]
  · rw [if_neg hsingle, if_neg hsingle]
    by_cases hdouble : firstStale ≤ 262666
    · rw [if_pos hdouble, if_pos hdouble]
    · rw [if_neg hdouble, if_neg hdouble]

theorem prune_tier (h : PointerTree v id i) {firstStale : Nat} (hten : 10 < firstStale) :
    ∃ u, Volume.applyJournalOps (v.pruneStalePointers i firstStale).2 v = .ok () u ∧
      v.SameTables u ∧ (v.pruneStalePointers i firstStale).1 = i ∧
      ∀ idx, u.resolveLogicalBlockId i idx =
        if PruneClears firstStale idx then 0 else v.resolveLogicalBlockId i idx := by
  rw [prune_eq hten]
  by_cases hsingle : firstStale ≤ 522
  · rw [if_pos hsingle]
    obtain ⟨u, hrun, htables, hclear⟩ := h.clear_single (firstStale - 10)
    refine ⟨u, hrun, htables, rfl, resolve_cleared hclear fun idx path hpath => ?_⟩
    exact behind_iff_clears (Or.inl ⟨rfl, hten, hsingle, rfl⟩) hpath
  · rw [if_neg hsingle]
    by_cases hdouble : firstStale ≤ 262666
    · rw [if_pos hdouble]
      obtain ⟨u, hrun, htables, hclear⟩ := h.clear_double (firstStale - 522)
      refine ⟨u, hrun, htables, rfl, resolve_cleared hclear fun idx path hpath => ?_⟩
      exact behind_iff_clears (Or.inr (Or.inl ⟨rfl, by omega, hdouble, rfl⟩)) hpath
    · rw [if_neg hdouble]
      obtain ⟨u, hrun, htables, hclear⟩ := h.clear_triple (firstStale - 262666)
      refine ⟨u, hrun, htables, rfl, resolve_cleared hclear fun idx path hpath => ?_⟩
      exact behind_iff_clears (Or.inr (Or.inr ⟨rfl, by omega, rfl⟩)) hpath

theorem slot_foldl_setSlot (first n k : Nat) (j : Inode) (h : first + n ≤ 13) :
    ((List.range' first n).foldl (·.setSlot · 0) j).slot k =
      if first ≤ k ∧ k < first + n then 0 else j.slot k := by
  induction n generalizing first j with
  | zero => rw [if_neg (by omega)]; rfl
  | succ n ih =>
    rw [List.range'_succ, List.foldl_cons, ih (first + 1) _ (by omega)]
    by_cases hk : k = first
    · rw [hk, if_neg (by omega), if_pos (by omega), Inode.slot_setSlot_same _ (by omega)]
    · rw [Inode.slot_setSlot_other _ (by omega) hk]
      by_cases hin : first ≤ k ∧ k < first + (n + 1)
      · rw [if_pos (by omega), if_pos hin]
      · rw [if_neg (by omega), if_neg hin]

theorem prune_direct {firstStale : Nat} (hpos : firstStale ≠ 0) (hten : firstStale ≤ 10) :
    (v.pruneStalePointers i firstStale).2 = [] ∧ ∀ k, k ≤ 12 →
      (v.pruneStalePointers i firstStale).1.slot k = if firstStale ≤ k then 0 else i.slot k := by
  have hmin : min firstStale 10 = firstStale := by omega
  unfold Volume.pruneStalePointers
  rw [if_neg hpos, hmin]
  dsimp only
  rw [if_pos hten]
  refine ⟨rfl, fun k hk => ?_⟩
  by_cases h12 : k = 12
  · rw [h12, Inode.slot_setSlot_same _ (by omega), if_pos (by omega)]
  · rw [Inode.slot_setSlot_other _ (by omega) h12]
    by_cases h11 : k = 11
    · rw [h11, Inode.slot_setSlot_same _ (by omega), if_pos (by omega)]
    · rw [Inode.slot_setSlot_other _ (by omega) h11]
      by_cases h10 : k = 10
      · rw [h10, Inode.slot_setSlot_same _ (by omega), if_pos (by omega)]
      · rw [Inode.slot_setSlot_other _ (by omega) h10, slot_foldl_setSlot _ _ _ _ (by omega)]
        by_cases hstale : firstStale ≤ k
        · rw [if_pos (by omega), if_pos hstale]
        · rw [if_neg (by omega), if_neg hstale]

theorem prune_resolves (h : PointerTree v id i) (firstStale : Nat) :
    ∃ u, Volume.applyJournalOps (v.pruneStalePointers i firstStale).2 v = .ok () u ∧
      v.SameTables u ∧
      ∀ idx, u.resolveLogicalBlockId (v.pruneStalePointers i firstStale).1 idx =
        if PruneClears firstStale idx then 0 else v.resolveLogicalBlockId i idx := by
  by_cases hten : 10 < firstStale
  · obtain ⟨u, hrun, htables, hinode, hresolve⟩ := h.prune_tier hten
    exact ⟨u, hrun, htables, by rwa [hinode]⟩
  · by_cases hzero : firstStale = 0
    · subst hzero
      rw [prune_zero]
      exact ⟨v, rfl, Volume.SameTables.refl v, fun idx => (if_neg fun hc => hc.1 rfl).symm⟩
    · obtain ⟨hops, hslot⟩ := prune_direct (v := v) (i := i) hzero (by omega)
      refine ⟨v, by rw [hops]; rfl, Volume.SameTables.refl v, fun idx => ?_⟩
      have hclears : PruneClears firstStale idx ↔ firstStale ≤ idx := by
        rw [PruneClears, if_pos (by omega)]
        exact and_iff_right hzero
      have hroot : ∀ s, firstStale ≤ s → s ≤ 12 →
          (v.pruneStalePointers i firstStale).1.slot s = 0 := by
        intro s hs hle
        rw [hslot s hle, if_pos hs]
      unfold Volume.resolveLogicalBlockId
      simp only [hclears]
      cases hpath : BlockPath.fromLogical idx with
      | none => simp
      | some path =>
        obtain ⟨hslots, hidx⟩ := BlockPath.fromLogical_some hpath
        cases path with
        | direct k =>
          have hk : k < 10 := hslots
          have hidx' : k = idx := hidx
          dsimp only
          rw [hslot k (by omega), hidx']
        | single a | double a b | triple a b c =>
          simp only [BlockPath.toLogical, doubleEnd, singleEnd, directBlocks, ptrsPerBlock] at hidx
          rw [if_pos (by omega)]
          simp [hroot 10 (by omega) (by omega), hroot 11 (by omega) (by omega),
            hroot 12 (by omega) (by omega), Volume.follow]

end PointerTree

/-- `prune_stale_pointers` keeps the blocks before the first stale index and drops the others
exactly if there are none that it does not reach. -/
theorem prune_stale_pointers_iff {v : Volume} {id : Nat} {i : Inode} (h : PointerTree v id i)
    (hid : id < v.superblock.inodeCount)
    (htable : v.superblock.inodeTableBlock + id / SuperBlock.inodeSlotsPerBlock < v.mapBlocks)
    (image : InodeBytes) (firstStale : Nat) :
    ∃ u, Volume.applyJournalOps ((v.pruneStalePointers i firstStale).2 ++
        [.writeInode id (v.pruneStalePointers i firstStale).1 image]) v = .ok () u ∧
      u.inode id = .ok (v.pruneStalePointers i firstStale).1 ∧
      ((∀ idx, u.resolveLogicalBlockId (v.pruneStalePointers i firstStale).1 idx =
          if idx < firstStale then v.resolveLogicalBlockId i idx else 0) ↔
        ∀ idx, firstStale ≤ idx → ¬PruneClears firstStale idx → v.resolveLogicalBlockId i idx = 0) := by
  obtain ⟨w, hrun, htables, hresolve⟩ := h.prune_resolves firstStale
  generalize v.pruneStalePointers i firstStale = r at hrun hresolve ⊢
  obtain ⟨j, ops⟩ := r
  have hwrite : w.applyOp (.writeInode id j image) =
      .ok { w with inode := Function.update w.inode id (.ok j) } := by
    refine if_neg ?_
    rw [htables.superblock, htables.mapBlocks]
    omega
  refine ⟨_, Volume.applyJournalOps_append.mpr ⟨w, hrun,
    Volume.applyJournalOps_singleton.mpr hwrite⟩, Function.update_self .., ?_⟩
  have hsame : ∀ idx, Volume.resolveLogicalBlockId
      { w with inode := Function.update w.inode id (.ok j) } j idx =
        w.resolveLogicalBlockId j idx := fun idx => rfl
  constructor
  · intro hall idx hle hclears
    have hafter := hall idx
    rw [hsame, hresolve, if_neg hclears, if_neg (by omega)] at hafter
    exact hafter
  · intro hrest idx
    rw [hsame, hresolve]
    by_cases hlt : idx < firstStale
    · rw [if_pos hlt, if_neg]
      rw [PruneClears]
      split_ifs with hten hsingle hdouble
      · omega
      · omega
      · omega
      · omega
    · rw [if_neg hlt]
      by_cases hclears : PruneClears firstStale idx
      · rw [if_pos hclears]
      · rw [if_neg hclears]
        exact hrest idx (by omega) hclears

def pointerBlock (k child : Nat) : Nat → UInt8 := patch (fun _ => 0) (k * 8) (LittleEndian.encode 8 child)

theorem cell_pointerBlock {k child : Nat} (h : child < 2 ^ 64) (j : Nat) :
    cell (pointerBlock k child) j = if j = k then child else 0 := by
  unfold pointerBlock
  by_cases hj : j = k
  · rw [if_pos hj, hj, cell_patch_same h]
  · rw [if_neg hj, cell_patch_other (LittleEndian.encode_length ..) hj]
    exact cell_zero fun _ => rfl

def deepInode : Inode :=
  { ((Inode.new .file).setSlot 11 4).setSlot 12 7 with size := 262668 * 4096 }

def deepCell (b : Nat) : Option Nat :=
  match b with
  | 4 | 7 | 8 => some 0
  | 5 | 9 => some 1
  | _ => none

def deepVolume : Volume :=
  { Session.tinyVolume deepInode fun _ => 0 with
    block := fun b => match deepCell b with
      | some k => pointerBlock k (b + 1)
      | none => fun _ => 0 }

theorem deepCell_cases {b k : Nat} (h : deepCell b = some k) :
    b = 4 ∨ b = 5 ∨ b = 7 ∨ b = 8 ∨ b = 9 := by
  unfold deepCell at h
  split at h
  all_goals first | omega | cases h

theorem deepVolume_ptr (b k : Nat) (hk : k < ptrsPerBlock) :
    deepVolume.readBlockPtr b k = if deepCell b = some k then b + 1 else 0 := by
  have hfit : k * 8 + 8 ≤ blockSize := by
    simp only [ptrsPerBlock, blockSize] at *
    omega
  have hmap : deepVolume.mapBlocks = 24 := rfl
  unfold Volume.readBlockPtr
  have hblock : deepVolume.block b = match deepCell b with
      | some k => pointerBlock k (b + 1)
      | none => fun _ => 0 := rfl
  cases hcell : deepCell b with
  | none =>
    have hzero : cell (deepVolume.block b) k = 0 := by
      rw [hblock, hcell]
      exact cell_zero fun _ => rfl
    rw [hzero, ite_self]
    rfl
  | some m =>
    have hb := deepCell_cases hcell
    rw [hblock, hcell, if_pos ⟨by omega, hfit⟩]
    dsimp only
    rw [cell_pointerBlock (by omega)]
    simp only [Option.some.injEq, eq_comm]

theorem deepInode_slot {s : Nat} (h : deepInode.slot s ≠ 0) : s = 11 ∧ deepInode.slot s = 4 ∨
    s = 12 ∧ deepInode.slot s = 7 := by
  by_cases h11 : s = 11
  · subst h11
    exact Or.inl ⟨rfl, rfl⟩
  · by_cases h12 : s = 12
    · subst h12
      exact Or.inr ⟨rfl, rfl⟩
    · refine absurd ?_ h
      change ((((Inode.new .file).setSlot 11 4).setSlot 12 7).slot s) = 0
      rw [Inode.slot_setSlot_other _ (by omega) h12, Inode.slot_setSlot_other _ (by omega) h11,
        Inode.slot_new]

theorem deepVolume_root {r : Nat × Nat} (h : (deepVolume.cells (Files.single 0 deepInode)).root r ≠ 0) :
    (r = (0, 11) ∧ (deepVolume.cells (Files.single 0 deepInode)).root r = 4) ∨
      (r = (0, 12) ∧ (deepVolume.cells (Files.single 0 deepInode)).root r = 7) := by
  obtain ⟨j, s⟩ := r
  by_cases hj : j = 0
  · subst hj
    rw [deepVolume.cells_root (Files.single_has 0 deepInode), Files.single_inode] at h ⊢
    rcases deepInode_slot h with ⟨rfl, hslot⟩ | ⟨rfl, hslot⟩
    · exact Or.inl ⟨rfl, hslot⟩
    · exact Or.inr ⟨rfl, hslot⟩
  · refine absurd (if_neg ?_) h
    simpa [Files.single] using hj

theorem deepVolume_tree : PointerTree deepVolume 0 deepInode := by
  have hptr : ∀ b k, k < ptrsPerBlock → (deepVolume.cells (Files.single 0 deepInode)).ptr b k ≠ 0 →
      deepCell b = some k ∧ (deepVolume.cells (Files.single 0 deepInode)).ptr b k = b + 1 := by
    intro b k hk hne
    change deepVolume.readBlockPtr b k ≠ 0 at hne
    change _ ∧ deepVolume.readBlockPtr b k = b + 1
    rw [deepVolume_ptr b k hk] at hne ⊢
    by_cases hcell : deepCell b = some k
    · exact ⟨hcell, if_pos hcell⟩
    · exact absurd (if_neg hcell) hne
  refine ⟨by decide, separated_of_injective ?_ ?_ ?_, ?_⟩
  · intro r r' hne heq
    rcases deepVolume_root hne with ⟨rfl, h⟩ | ⟨rfl, h⟩
    · rcases deepVolume_root (by rwa [heq]) with ⟨rfl, h'⟩ | ⟨rfl, h'⟩
      · rfl
      · omega
    · rcases deepVolume_root (by rwa [heq]) with ⟨rfl, h'⟩ | ⟨rfl, h'⟩
      · omega
      · rfl
  · intro b b' k k' hk hk' hne heq
    obtain ⟨hcell, hval⟩ := hptr b k hk hne
    obtain ⟨hcell', hval'⟩ := hptr b' k' hk' (by rwa [heq])
    have hb : b' = b := by omega
    subst hb
    rw [hcell] at hcell'
    exact ⟨rfl, (Option.some.inj hcell').symm⟩
  · intro r b k hk hne heq
    obtain ⟨hcell, hval⟩ := hptr b k hk (by rwa [heq])
    have hb := deepCell_cases hcell
    rcases deepVolume_root hne with ⟨-, h⟩ | ⟨-, h⟩
    · omega
    · omega
  · rintro ⟨r, q⟩ hin hne
    have hrange : ∀ b, 4 ≤ b → b < 24 → deepVolume.isDataBlock b = true :=
      fun b hlo hhi => Volume.isDataBlock_iff.mpr ⟨by omega, hlo, hhi⟩
    cases q with
    | nil =>
      rcases deepVolume_root hne with ⟨-, h⟩ | ⟨-, h⟩
      · exact hrange _ (by rw [Cells.get_root, h]) (by rw [Cells.get_root, h]; omega)
      · exact hrange _ (by rw [Cells.get_root, h]; omega) (by rw [Cells.get_root, h]; omega)
    | cons k q =>
      obtain ⟨-, hk⟩ := hin.1.parent
      have hcons := Cells.get_cons_of_ne (i := k) (Cells.parent_ne_zero hne)
      rw [hcons] at hne ⊢
      obtain ⟨hcell, hval⟩ := hptr _ k hk hne
      have hb := deepCell_cases hcell
      rw [hval]
      exact hrange _ (by omega) (by omega)

theorem prune_stale_pointers_direct : ∃ u,
    Volume.applyJournalOps ((deepVolume.pruneStalePointers deepInode 5).2 ++
      [.writeInode 0 (deepVolume.pruneStalePointers deepInode 5).1
        ⟨List.replicate inodeBytesLen 0, List.length_replicate⟩]) deepVolume = .ok () u ∧
    ∀ idx, u.resolveLogicalBlockId (deepVolume.pruneStalePointers deepInode 5).1 idx =
      if idx < 5 then deepVolume.resolveLogicalBlockId deepInode idx else 0 := by
  obtain ⟨u, hrun, -, hiff⟩ := prune_stale_pointers_iff deepVolume_tree (by decide) (by decide)
    ⟨List.replicate inodeBytesLen 0, List.length_replicate⟩ 5
  refine ⟨u, hrun, hiff.mpr fun idx hle hclears => absurd ?_ hclears⟩
  exact ⟨by decide, hle⟩

/-- Wherever the first stale index lies, the second block of the double tier stays; the same happens
one tier up. -/
theorem stale_pointers_left : PointerTree deepVolume 0 deepInode ∧
    (∀ firstStale ∈ [0, 11, 523], ∃ u,
      Volume.applyJournalOps (deepVolume.pruneStalePointers deepInode firstStale).2 deepVolume =
        .ok () u ∧
      u.resolveLogicalBlockId (deepVolume.pruneStalePointers deepInode firstStale).1 523 = 6) ∧
    ∃ u, Volume.applyJournalOps (deepVolume.pruneStalePointers deepInode 262667).2 deepVolume =
        .ok () u ∧
      u.resolveLogicalBlockId (deepVolume.pruneStalePointers deepInode 262667).1 262667 = 10 := by
  refine ⟨deepVolume_tree, fun firstStale hmem => ?_, ?_⟩
  · obtain ⟨u, hrun, -, hresolve⟩ := deepVolume_tree.prune_resolves firstStale
    refine ⟨u, hrun, ?_⟩
    have hkept : ∀ k ∈ [0, 11, 523], ¬PruneClears k 523 := by decide
    rw [hresolve, if_neg (hkept firstStale hmem)]
    decide +kernel
  · obtain ⟨u, hrun, -, hresolve⟩ := deepVolume_tree.prune_resolves 262667
    refine ⟨u, hrun, ?_⟩
    rw [hresolve, if_neg (by decide)]
    decide +kernel

end Oifs
