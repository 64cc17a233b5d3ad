import Oifs.DirectoryOps
import Oifs.JournaledVolume
import Oifs.Worklist

namespace Oifs

open PointerForest

structure FsckReport where
  orphanInodes : List Nat
  leakedBlocks : List Nat
  missingBlocks : List Nat
  crossLinkedBlocks : List Nat
  deriving DecidableEq

def FsckReport.isClean (r : FsckReport) : Bool :=
  r.orphanInodes.isEmpty && r.leakedBlocks.isEmpty && r.missingBlocks.isEmpty &&
    r.crossLinkedBlocks.isEmpty

namespace Volume

/-- `for_each_set_bit` on a bitmap of `blocks` blocks from `start` on, below `limit`; a bitmap outside
the mapping has no bits. -/
def setBits (v : Volume) (start blocks limit : Nat) (bit : Nat → Bool) : List Nat :=
  if start + blocks ≤ v.mapBlocks then (List.range (min limit (blocks * bitmapBits))).filter bit
  else []

def allocatedInodes (v : Volume) : List Nat :=
  v.setBits v.superblock.inodeBitmapBlock v.superblock.inodeBitmapBlocks v.superblock.inodeCount
    v.inodeBit

def allocatedDataBlocks (v : Volume) : List Nat :=
  (v.setBits v.superblock.dataBitmapBlock v.superblock.dataBitmapBlocks
    (v.superblock.blockCount - v.superblock.dataBlockStart) v.dataBit).map
      (v.superblock.dataBlockStart + ·)

/-- The entries that a scan of the directory meets; records that are none are passed over. -/
def dirEntries (v : Volume) (inode : Inode) : List DirectoryEntry :=
  (v.dirBlocks inode).flatMap fun b =>
    if b < v.mapBlocks then (directoryItems (v.block b)).filterMap Except.toOption else []

def dirChildren (v : Volume) (id : Nat) : Except DiskError (List Nat) := do
  let inode ← v.readInodeInternal id
  if inode.mode ≠ .directory then return []
  else return (v.dirEntries inode).map (·.inode)

def isDirectory (v : Volume) (id : Nat) : Bool :=
  match v.readInodeInternal id with
  | .ok inode => inode.mode = .directory
  | .error _ => false

def dirWeight (v : Volume) (id : Nat) : Nat :=
  match v.dirChildren id with
  | .ok children => children.length
  | .error _ => 0

def scanRounds (v : Volume) : Nat :=
  1 + ((List.range v.superblock.usableInodeCount).map v.dirWeight).sum

def referencedInodes (v : Volume) : Except DiskError (List Nat) :=
  match Worklist.scan v.dirChildren v.isDirectory v.scanRounds [v.superblock.rootInode] []
      [v.superblock.rootInode] with
  | .ok (some seen) => .ok seen
  | .ok none => .error (.io "scan not finished")
  | .error e => .error e

def blocksOf (v : Volume) (id : Nat) : List Nat :=
  match v.readInodeInternal id with
  | .ok inode => v.collectInodeBlocks inode
  | .error _ => []

/-- `verify_integrity_on`. -/
def verifyIntegrity (v : Volume) : Except DiskError FsckReport := do
  let inodes ← v.referencedInodes
  let blocks := inodes.flatMap v.blocksOf
  return {
    orphanInodes := v.allocatedInodes.filter (· ∉ inodes)
    leakedBlocks := v.allocatedDataBlocks.filter (· ∉ blocks)
    missingBlocks := (blocks.dedup.filter (· ∉ v.allocatedDataBlocks)).mergeSort
    crossLinkedBlocks := blocks.dedup.filter (1 < blocks.count ·) }

end Volume

section Places

/-- The paths of at most `d` further cells, of the first `limit` cells in the first step. -/
def belowPaths : Nat → Nat → List Nat → List (List Nat)
  | 0, _, q => [q]
  | d + 1, limit, q => q :: (List.range limit).flatMap fun k => belowPaths d ptrsPerBlock (k :: q)

theorem mem_belowPaths {d limit : Nat} {q p : List Nat} : p ∈ belowPaths d limit q ↔
    ∃ t, p = t ++ q ∧ t.length ≤ d ∧ (∀ k ∈ t.dropLast, k < ptrsPerBlock) ∧
      ∀ k ∈ t.getLast?, k < limit := by
  induction d generalizing limit q with
  | zero =>
    simp only [belowPaths, List.mem_singleton, Nat.le_zero, List.length_eq_zero_iff]
    constructor
    · rintro rfl
      exact ⟨[], rfl, rfl, by simp, by simp⟩
    · rintro ⟨t, rfl, rfl, -, -⟩
      rfl
  | succ d ih =>
    simp only [belowPaths, List.mem_cons, List.mem_flatMap, List.mem_range, ih]
    constructor
    · rintro (rfl | ⟨k, hk, t, rfl, hlen, hdrop, hlast⟩)
      · exact ⟨[], rfl, by simp, by simp, by simp⟩
      · refine ⟨t ++ [k], by simp, by simp; omega, ?_, by simpa using hk⟩
        intro m hm
        rw [List.dropLast_concat] at hm
        rcases List.eq_nil_or_concat t with rfl | ⟨t', a, rfl⟩
        · cases hm
        · rw [List.concat_eq_append] at hm hdrop hlast
          rcases List.mem_append.mp hm with hm | hm
          · exact hdrop m (by rwa [List.dropLast_concat])
          · exact hlast m (by simpa using (List.mem_singleton.mp hm).symm)
    · rintro ⟨t, rfl, hlen, hdrop, hlast⟩
      rcases List.eq_nil_or_concat t with rfl | ⟨t', a, rfl⟩
      · exact Or.inl rfl
      · rw [List.concat_eq_append] at hlen hdrop hlast ⊢
        rw [List.dropLast_concat] at hdrop
        refine Or.inr ⟨a, hlast a (by simp), t', by simp, by simpa using hlen, ?_, ?_⟩
        · exact fun k hk => hdrop k (List.dropLast_subset _ hk)
        · exact fun k hk => hdrop k (List.mem_of_getLast? hk)

def visitedPlaces (id : Nat) (i : Inode) : List (Place (Nat × Nat)) :=
  let total := Volume.logicalEntries i
  (List.range directBlocks).map (fun s => ⟨(id, s), []⟩) ++
    (belowPaths 1 ptrsPerBlock []).map (⟨(id, 10), ·⟩) ++
    (belowPaths 2 (Volume.visitedCells total singleEnd ptrsPerBlock) []).map (⟨(id, 11), ·⟩) ++
    (belowPaths 3 (Volume.visitedCells total doubleEnd (ptrsPerBlock * ptrsPerBlock)) []).map
      (⟨(id, 12), ·⟩)

/-- The blocks that the pointer of a place leads to, in the order of the collection. -/
def blocksAt (v : Volume) (F : Files) (l : Place (Nat × Nat)) : List Nat :=
  if l.path.length < treeShape.depth l.root then
    if (v.cells F).get l = 0 then [] else [(v.cells F).get l]
  else Volume.leafBlocks (F.inode l.root.1).isSeekable ((v.cells F).get l)

theorem treeBlocks_zero (v : Volume) (seekable : Bool) (d limit : Nat) :
    v.treeBlocks seekable d limit 0 = [] := by
  cases d <;> rfl

theorem treeBlocks_eq {v : Volume} {F : Files} {r : Nat × Nat} {d limit : Nat} {q : List Nat}
    (hlen : q.length + d = treeShape.depth r) :
    v.treeBlocks (F.inode r.1).isSeekable d limit ((v.cells F).get ⟨r, q⟩) =
      (belowPaths d limit q).flatMap fun p => blocksAt v F ⟨r, p⟩ := by
  induction d generalizing limit q with
  | zero =>
    rw [belowPaths, List.flatMap_singleton, blocksAt, if_neg (by simp only; omega)]
    rfl
  | succ d ih =>
    rw [belowPaths, List.flatMap_cons, List.flatMap_assoc]
    have hbelow : ∀ k, (belowPaths d ptrsPerBlock (k :: q)).flatMap (fun p => blocksAt v F ⟨r, p⟩) =
        v.treeBlocks (F.inode r.1).isSeekable d ptrsPerBlock ((v.cells F).get ⟨r, k :: q⟩) :=
      fun k => (ih (by simp only [List.length_cons]; omega)).symm
    simp only [hbelow]
    rw [blocksAt, if_pos (by simp only; omega), Volume.treeBlocks]
    by_cases hzero : (v.cells F).get ⟨r, q⟩ = 0
    · have hnone : ∀ k, (v.cells F).get ⟨r, k :: q⟩ = 0 := by
        intro k
        rw [Cells.get_cons, if_pos hzero]
      simp only [hzero, hnone, treeBlocks_zero, if_true]
      simp
    · have hcell : ∀ k, (v.cells F).get ⟨r, k :: q⟩ =
          v.readBlockPtr ((v.cells F).get ⟨r, q⟩) k := by
        intro k
        rw [Cells.get_cons, if_neg hzero]
        rfl
      rw [if_neg hzero, if_neg hzero, List.singleton_append]
      congr 1
      split
      next => simp only [hcell]
      next hout =>
        have hnone : ∀ k, v.readBlockPtr ((v.cells F).get ⟨r, q⟩) k = 0 :=
          fun k => if_neg fun h => hout h.1
        simp [hcell, hnone, treeBlocks_zero]

theorem collectInodeBlocks_eq {v : Volume} {F : Files} {id : Nat} (hhas : F.has id = true) :
    v.collectInodeBlocks (F.inode id) =
      (visitedPlaces id (F.inode id)).flatMap (blocksAt v F) := by
  have hroot : ∀ s, (F.inode id).slot s = (v.cells F).get ⟨(id, s), []⟩ := by
    intro s
    rw [Cells.get_root, v.cells_root hhas]
  unfold Volume.collectInodeBlocks visitedPlaces
  simp only [List.flatMap_append, List.flatMap_map, hroot]
  rw [treeBlocks_eq (r := (id, 10)) rfl, treeBlocks_eq (r := (id, 11)) rfl,
    treeBlocks_eq (r := (id, 12)) rfl]
  -- what is left are the ten direct slots, which are leaves
  congr 3

def fileExtent (F : Files) (r : Nat × Nat) (w : Nat) : Set Nat :=
  if (F.inode r.1).isSeekable then chunkExtent r w else rawExtent r w

theorem mem_leafBlocks {F : Files} {r : Nat × Nat} {w b : Nat} :
    b ∈ Volume.leafBlocks (F.inode r.1).isSeekable w ↔ b ∈ fileExtent F r w := by
  unfold Volume.leafBlocks fileExtent
  by_cases hzero : w = 0
  · subst hzero
    rw [if_pos rfl]
    split
    next => simp [mem_chunkExtent, ChunkEntry.isEmpty]
    next => simp [rawExtent]
  · rw [if_neg hzero]
    split
    next =>
      rw [mem_chunkExtent]
      split
      next hempty => simp [hempty]
      next hempty =>
        rw [List.mem_range'_1]
        simp [hempty]
    next =>
      rw [List.mem_singleton]
      refine ⟨fun h => ⟨h, by rwa [h]⟩, fun h => h.1⟩

theorem mem_blocksAt {v : Volume} {F : Files} {l : Place (Nat × Nat)} {b : Nat} :
    b ∈ blocksAt v F l ↔ b ∈ owns treeShape (fileExtent F) (v.cells F) l := by
  unfold blocksAt owns
  split
  next hin =>
    rw [mem_claims_inner hin]
    split
    next hzero =>
      refine ⟨fun h => absurd h List.not_mem_nil, fun h => absurd (h.1.trans hzero) h.2⟩
    next hne =>
      rw [List.mem_singleton]
      exact ⟨fun h => ⟨h, by rwa [h]⟩, fun h => h.1⟩
  next hleaf =>
    rw [mem_claims_leaf hleaf]
    exact mem_leafBlocks

end Places

end Oifs
