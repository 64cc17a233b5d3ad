import Oifs.DirectoryBlocks
import Oifs.DirectoryOps
import Oifs.WriteContent

namespace Oifs

open PointerForest

namespace Volume

def growDir (parent : Inode) : DiskM (Nat × Inode) := do
  let n := dirNumBlocks parent
  let (b, parent) ← getOrAllocBlock parent n true
  modify (·.setBlock b fun _ => 0)
  return (b, { parent with size := (n + 1) * blockSize })

section Calls

variable {v v' : Volume} {b : Nat} {e : DirectoryEntry} {es : List DirectoryEntry}

theorem appendDirEntryToDir_ok {parent dir : Inode}
    (h : appendDirEntryToDir parent e v = .ok dir v') :
    (∃ b, v.findRoom parent e = some b ∧ dir = parent ∧ appendDirEntryToBlock b e v = .ok () v') ∨
      ∃ b v₁, growDir parent v = .ok (b, dir) v₁ ∧ appendDirEntryToBlock b e v₁ = .ok () v' := by
  unfold appendDirEntryToDir at h
  rw [DiskM.get_bind] at h
  dsimp only at h
  cases hroom : v.findRoom parent e with
  | some b =>
    rw [hroom] at h
    obtain ⟨_, v₁, happend, h⟩ := DiskM.bind_ok.mp h
    obtain ⟨rfl, rfl⟩ := DiskM.pure_ok.mp h
    exact Or.inl ⟨b, rfl, rfl, happend⟩
  | none =>
    rw [hroom] at h
    obtain ⟨⟨b, i⟩, v₁, halloc, h⟩ := DiskM.bind_ok.mp h
    obtain ⟨_, v₂, hzero, h⟩ := DiskM.bind_ok.mp h
    obtain ⟨_, v₃, happend, h⟩ := DiskM.bind_ok.mp h
    obtain ⟨rfl, rfl⟩ := DiskM.pure_ok.mp h
    refine Or.inr ⟨b, v₂, ?_, happend⟩
    exact DiskM.bind_ok.mpr ⟨(b, i), v₁, halloc, DiskM.bind_ok.mpr ⟨_, v₂, hzero, rfl⟩⟩

theorem findRoom_some {parent : Inode} (h : v.findRoom parent e = some b) :
    ∃ idx < dirNumBlocks parent, v.resolveLogicalBlockId parent idx = b := by
  obtain ⟨idx, hidx, heq⟩ := List.mem_map.mp (List.mem_of_find?_eq_some h)
  refine ⟨idx, ?_, heq⟩
  unfold probeOrder at hidx
  split at hidx
  next => exact absurd hidx List.not_mem_nil
  next hpos =>
    rcases List.mem_cons.mp hidx with rfl | hidx
    · omega
    · have hlt := List.mem_range.mp hidx
      omega

theorem appendDirEntryToBlock_ok (h : appendDirEntryToBlock b e v = .ok () v')
    (hholds : HoldsFrom (v.block b) 0 es) (hproper : e.Proper) :
    ∃ g, v' = v.setBlock b g ∧ HoldsFrom g 0 (es ++ [e]) := by
  unfold appendDirEntryToBlock at h
  rw [DiskM.get_bind] at h
  rw [hholds.scans.offset] at h
  dsimp only at h
  split at h
  next => exact absurd h (by simp)
  next =>
    split at h
    next => exact absurd h (by simp)
    next hroom =>
      have hend : recordsLength es + e.bytes.length ≤ blockSize := by
        rw [e.bytes_length, recordHeader]
        omega
      rw [serializeInto_eq hproper hend] at h
      obtain ⟨_, v₁, hset, h⟩ := DiskM.bind_ok.mp h
      obtain ⟨-, rfl⟩ := DiskM.pure_ok.mp h
      have happend := hholds.append hproper (by omega)
      rw [Nat.zero_add] at happend
      exact ⟨_, (DiskM.set_ok.mp hset).symm, happend⟩

theorem rewriteDirEntriesInBlock_ok (h : rewriteDirEntriesInBlock b es v = .ok () v')
    (hproper : ∀ e ∈ es, e.Proper) (hend : recordsLength es ≤ blockSize) :
    ∃ g, v' = v.setBlock b g ∧ HoldsFrom g 0 es := by
  unfold rewriteDirEntriesInBlock at h
  rw [DiskM.get_bind] at h
  obtain ⟨g, next, hrun, hholds⟩ := serializeAll_holds holdsFrom_zero hproper (by simpa using hend)
  rw [recordsLength_nil] at hrun
  rw [hrun] at h
  dsimp only at h
  split at h
  next => exact absurd h (by simp)
  next =>
    obtain ⟨_, v₁, hset, h⟩ := DiskM.bind_ok.mp h
    obtain ⟨-, rfl⟩ := DiskM.pure_ok.mp h
    exact ⟨g, (DiskM.set_ok.mp hset).symm, hholds⟩

end Calls

end Volume

structure DirHolds (id : Nat) (F : Files) (v : Volume) (contents : Nat → List DirectoryEntry) : Prop where
  has : F.has id = true
  good : Good rawExtent F v
  there : ∀ idx < dirNumBlocks (F.inode id), v.resolveLogicalBlockId (F.inode id) idx ≠ 0
  holds : ∀ idx < dirNumBlocks (F.inode id),
    HoldsFrom (v.block (v.resolveLogicalBlockId (F.inode id) idx)) 0 (contents idx)

def entriesOf (contents : Nat → List DirectoryEntry) (n : Nat) : List DirectoryEntry :=
  (List.range n).flatMap contents

theorem entriesOf_update (contents : Nat → List DirectoryEntry) {idx n : Nat} (hidx : idx < n) :
    ∃ before behind, entriesOf contents n = before ++ contents idx ++ behind ∧
      ∀ es, entriesOf (Function.update contents idx es) n = before ++ es ++ behind := by
  have hsplit : List.range n = List.range idx ++ idx :: List.range' (idx + 1) (n - idx - 1) := by
    rw [List.range_eq_range', List.range_eq_range', ← List.range'_succ]
    have happend := @List.range'_append_1 0 idx (n - idx - 1 + 1)
    rw [Nat.zero_add] at happend
    rw [happend]
    congr 1
    omega
  have hentries : ∀ c : Nat → List DirectoryEntry, entriesOf c n =
      (List.range idx).flatMap c ++ c idx ++ (List.range' (idx + 1) (n - idx - 1)).flatMap c := by
    intro c
    rw [entriesOf, hsplit, List.flatMap_append, List.flatMap_cons, List.append_assoc]
  have hother : ∀ (l : List Nat) (es : List DirectoryEntry), idx ∉ l →
      l.flatMap (Function.update contents idx es) = l.flatMap contents := by
    intro l es hout
    refine List.flatMap_congr fun k hk => Function.update_of_ne ?_ ..
    rintro rfl
    exact hout hk
  refine ⟨_, _, hentries contents, fun es => ?_⟩
  rw [hentries, hother _ es (by simp), hother _ es (by simp), Function.update_self]

theorem entriesOf_grown (contents : Nat → List DirectoryEntry) (n : Nat) :
    entriesOf (Function.update contents n []) (n + 1) = entriesOf contents n := by
  rw [entriesOf, List.range_succ, List.flatMap_append, List.flatMap_singleton, Function.update_self,
    List.append_nil]
  refine List.flatMap_congr fun k hk => Function.update_of_ne ?_ ..
  have hlt := List.mem_range.mp hk
  omega

section Trees

variable {id idx b : Nat} {F F' : Files} {v v' : Volume}

theorem resolve_place (hhas : F.has id = true)
    (hne : v.resolveLogicalBlockId (F.inode id) idx ≠ 0) :
    ∃ l, leafPlace id idx = some l ∧ (v.cells F).get l = v.resolveLogicalBlockId (F.inode id) idx := by
  rw [resolveLogicalBlockId_eq hhas] at hne ⊢
  cases hl : leafPlace id idx with
  | none =>
    rw [hl] at hne
    exact absurd rfl hne
  | some l => exact ⟨l, rfl, rfl⟩

theorem cells_set_slots (v : Volume) (F : Files) (id : Nat) {i i' : Inode}
    (h : ∀ s, i'.slot s = i.slot s) : v.cells (F.set id i') = v.cells (F.set id i) := by
  unfold Volume.cells
  congr 1
  funext r
  by_cases hr : r.1 = id
  · simp [hr, h]
  · simp [Files.set_inode_other F hr]

theorem Good.of_cells_eq (hg : Good rawExtent F v) (h : v.cells F' = v.cells F) : Good rawExtent F' v := by
  obtain ⟨hsound, hseparated, hmarked, hdata⟩ := hg
  rw [← h] at hseparated hmarked hdata
  exact ⟨hsound, hseparated, hmarked, hdata⟩

theorem Grows.resolve {t : Place (Nat × Nat)} (h : Grows rawExtent t F v F' v') (hg : Good rawExtent F v)
    (hhas : F.has id = true) (hhas' : F'.has id = true)
    (hne : v.resolveLogicalBlockId (F.inode id) idx ≠ 0) :
    v'.resolveLogicalBlockId (F'.inode id) idx = v.resolveLogicalBlockId (F.inode id) idx ∧
      v'.block (v.resolveLogicalBlockId (F.inode id) idx) =
        v.block (v.resolveLogicalBlockId (F.inode id) idx) := by
  obtain ⟨l, hl, hget⟩ := resolve_place hhas hne
  obtain ⟨hvalid, hleaf, -, -⟩ := leafPlace_valid hl
  rw [← hget] at hne ⊢
  have hown := mem_owns_raw hne
  constructor
  · rw [resolveLogicalBlockId_eq hhas', hl]
    exact h.keeps hvalid hne
  · refine h.bytes _ (hg.marked _ ⟨l, hvalid, hown⟩) fun l' hin _ heq => ?_
    exact hg.leaf_not_inner hvalid hleaf hown hin (by rwa [heq]) heq

theorem resolve_owned (hhas : F.has id = true) (hne : v.resolveLogicalBlockId (F.inode id) idx ≠ 0) :
    v.resolveLogicalBlockId (F.inode id) idx ∈ owned treeShape rawExtent (v.cells F) := by
  obtain ⟨l, hl, hget⟩ := resolve_place hhas hne
  rw [← hget] at hne ⊢
  exact ⟨l, (leafPlace_valid hl).1, mem_owns_raw hne⟩

theorem Good.resolve_mapped (hg : Good rawExtent F v) (hhas : F.has id = true)
    (hne : v.resolveLogicalBlockId (F.inode id) idx ≠ 0) :
    v.resolveLogicalBlockId (F.inode id) idx < v.mapBlocks := by
  have hdata := (Volume.isDataBlock_iff.mp (hg.data _ (resolve_owned hhas hne))).2.2
  have hcount := hg.sound.count_le
  omega

theorem Good.resolve_inj (hg : Good rawExtent F v) (hhas : F.has id = true) {k : Nat}
    (hne : v.resolveLogicalBlockId (F.inode id) idx ≠ 0)
    (heq : v.resolveLogicalBlockId (F.inode id) k = v.resolveLogicalBlockId (F.inode id) idx) : k = idx := by
  obtain ⟨l, hl, hget⟩ := resolve_place hhas hne
  obtain ⟨l', hl', hget'⟩ := resolve_place hhas (heq ▸ hne)
  rw [← hget] at hne heq
  rw [← hget'] at heq
  have hsame := hg.separated l' l (leafPlace_valid hl').1 (leafPlace_valid hl).1 _
    (heq ▸ mem_owns_raw (heq ▸ hne)) (mem_owns_raw hne)
  rw [hsame] at hl'
  exact (leafPlace_inj hl' hl).2

theorem Good.resolve_setBlock (hg : Good rawExtent F v) (hhas : F.has id = true)
    (hne : v.resolveLogicalBlockId (F.inode id) idx ≠ 0) (f : Nat → UInt8) :
    Good rawExtent F (v.setBlock (v.resolveLogicalBlockId (F.inode id) idx) f) ∧
      ∀ k, (v.setBlock (v.resolveLogicalBlockId (F.inode id) idx) f).resolveLogicalBlockId (F.inode id) k =
        v.resolveLogicalBlockId (F.inode id) k := by
  obtain ⟨l, hl, hget⟩ := resolve_place hhas hne
  obtain ⟨hvalid, hleaf, -, -⟩ := leafPlace_valid hl
  rw [← hget] at hne ⊢
  have hinner : ∀ l', treeShape.Inner l' → (v.cells F).get l' ≠ 0 → (v.cells F).get l' ≠ (v.cells F).get l :=
    fun l' hin hpos => hg.leaf_not_inner hvalid hleaf (mem_owns_raw hne) hin hpos
  refine ⟨hg.setBlock hinner, fun k => ?_⟩
  rw [resolveLogicalBlockId_eq hhas, resolveLogicalBlockId_eq hhas]
  cases hk : leafPlace id k with
  | none => rfl
  | some l' => exact cells_setBlock hinner (leafPlace_valid hk).1

end Trees

namespace DirHolds

variable {id idx : Nat} {F : Files} {v v' : Volume} {contents : Nat → List DirectoryEntry}

theorem marked (h : DirHolds id F v contents) (hidx : idx < dirNumBlocks (F.inode id)) :
    v.marked (v.resolveLogicalBlockId (F.inode id) idx) = true :=
  h.good.marked _ (resolve_owned h.has (h.there idx hidx))

theorem dirNumBlocks_le (h : DirHolds id F v contents) : dirNumBlocks (F.inode id) ≤ bitmapBits := by
  have hcard := Finset.card_le_card_of_injOn
    (fun idx => v.resolveLogicalBlockId (F.inode id) idx - v.superblock.dataBlockStart)
    (s := Finset.range (dirNumBlocks (F.inode id))) (t := Finset.range bitmapBits) ?_ ?_
  · simpa using hcard
  · intro idx hidx
    have hmark := Volume.marked_iff.mp (h.marked (Finset.mem_range.mp hidx))
    exact Finset.mem_range.mpr hmark.2.1
  · intro idx hidx k hk heq
    have hidx := Finset.mem_range.mp hidx
    have hk := Finset.mem_range.mp hk
    have hle := (Volume.marked_iff.mp (h.marked hidx)).1
    have hle' := (Volume.marked_iff.mp (h.marked hk)).1
    exact h.good.resolve_inj h.has (h.there k hk) (by dsimp only at heq; omega)

theorem dirBlocks_eq (h : DirHolds id F v contents) : v.dirBlocks (F.inode id) =
    (List.range (dirNumBlocks (F.inode id))).map (v.resolveLogicalBlockId (F.inode id)) := by
  refine List.filter_eq_self.mpr fun b hb => ?_
  obtain ⟨idx, hidx, rfl⟩ := List.mem_map.mp hb
  exact decide_eq_true (h.there idx (List.mem_range.mp hidx))

theorem mem_dirBlocks (h : DirHolds id F v contents) {b : Nat} (hb : b ∈ v.dirBlocks (F.inode id)) :
    ∃ idx < dirNumBlocks (F.inode id), v.resolveLogicalBlockId (F.inode id) idx = b := by
  rw [h.dirBlocks_eq] at hb
  obtain ⟨idx, hidx, heq⟩ := List.mem_map.mp hb
  exact ⟨idx, List.mem_range.mp hidx, heq⟩

theorem store (h : DirHolds id F v contents) (hidx : idx < dirNumBlocks (F.inode id))
    {g : Nat → UInt8} {es : List DirectoryEntry} (hg : HoldsFrom g 0 es) :
    DirHolds id F (v.setBlock (v.resolveLogicalBlockId (F.inode id) idx) g)
      (Function.update contents idx es) := by
  obtain ⟨hgood, hsame⟩ := h.good.resolve_setBlock h.has (h.there idx hidx) g
  refine ⟨h.has, hgood, fun k hk => ?_, fun k hk => ?_⟩
  · rw [hsame]
    exact h.there k hk
  · rw [hsame]
    by_cases heq : k = idx
    · subst heq
      rw [Volume.setBlock_block_same (h.good.resolve_mapped h.has (h.there k hk)), Function.update_self]
      exact hg
    · rw [Volume.setBlock_block_other (fun hblk => heq (h.good.resolve_inj h.has (h.there idx hidx) hblk)),
        Function.update_of_ne heq]
      exact h.holds k hk

theorem dirNumBlocks_grown (i : Inode) {n : Nat} (hn : n ≤ bitmapBits) :
    dirNumBlocks { i with size := (n + 1) * blockSize } = n + 1 := by
  have hpos : (n + 1) * blockSize ≠ 0 := by
    rw [blockSize]
    omega
  have hceil : divCeil ((n + 1) * blockSize) blockSize = n + 1 := by
    rw [divCeil, blockSize]
    omega
  have hbits : bitmapBits < maxDirBlocks := by decide
  rw [dirNumBlocks, if_neg hpos, hceil, Nat.min_eq_left (by omega)]

theorem grow (h : DirHolds id F v contents) {b : Nat} {dir : Inode}
    (hrun : Volume.growDir (F.inode id) v = .ok (b, dir) v') :
    dirNumBlocks dir = dirNumBlocks (F.inode id) + 1 ∧
      v'.resolveLogicalBlockId dir (dirNumBlocks (F.inode id)) = b ∧
      DirHolds id (F.set id dir) v' (Function.update contents (dirNumBlocks (F.inode id)) []) := by
  have hn := h.dirNumBlocks_le
  obtain ⟨⟨b', i⟩, w, halloc, hrun⟩ := DiskM.bind_ok.mp hrun
  obtain ⟨_, w', hzero, hrun⟩ := DiskM.bind_ok.mp hrun
  obtain ⟨heq, rfl⟩ := DiskM.pure_ok.mp hrun
  obtain ⟨rfl, rfl⟩ := Prod.mk.inj heq
  obtain rfl := DiskM.modify_ok.mp hzero
  obtain ⟨l, hl, hgrow, hget, hne, -⟩ := getOrAllocBlock_ok h.good h.has halloc
  generalize hcount : dirNumBlocks (F.inode id) = n at *
  obtain ⟨dir, hdir⟩ : ∃ dir, { i with size := (n + 1) * blockSize } = dir := ⟨_, rfl⟩
  have hnum : dirNumBlocks dir = n + 1 := hdir ▸ dirNumBlocks_grown i hn
  have hslots : ∀ s, dir.slot s = i.slot s := fun s => by rw [← hdir]; rfl
  rw [hdir]
  -- the tree with the new block, and the block zeroed
  have hgood : Good rawExtent (F.set id dir) w := hgrow.good.of_cells_eq (cells_set_slots w F id hslots)
  have hlast : w.resolveLogicalBlockId dir n = b' := by
    have heq := resolveLogicalBlockId_eq (F := F.set id i) (v := w) h.has n
    rw [hl, Files.set_inode_same] at heq
    rw [resolve_congr rfl rfl hslots, heq]
    exact hget
  have hthere : w.resolveLogicalBlockId ((F.set id dir).inode id) n ≠ 0 := by
    rw [Files.set_inode_same, hlast]
    exact hne
  have hset := hgood.resolve_setBlock h.has hthere fun _ => 0
  have hlt := hgood.resolve_mapped h.has hthere
  have hinj : ∀ k, w.resolveLogicalBlockId dir k = b' → k = n := by
    intro k hk
    apply hgood.resolve_inj h.has hthere
    rw [Files.set_inode_same, hk, hlast]
  rw [Files.set_inode_same, hlast] at hset hlt
  obtain ⟨hgood', hsame⟩ := hset
  -- the other blocks are where they were
  have hkeep : ∀ k < n, w.resolveLogicalBlockId dir k = v.resolveLogicalBlockId (F.inode id) k ∧
      w.block (v.resolveLogicalBlockId (F.inode id) k) = v.block (v.resolveLogicalBlockId (F.inode id) k) := by
    intro k hk
    have hres := hgrow.resolve h.good h.has h.has (h.there k (hcount ▸ hk))
    rw [Files.set_inode_same] at hres
    rw [resolve_congr rfl rfl hslots]
    exact hres
  refine ⟨hnum, (hsame n).trans hlast, h.has, hgood', ?_, ?_⟩
  · intro k hk
    rw [Files.set_inode_same] at hk ⊢
    rw [hsame]
    by_cases heq : k = n
    · rw [heq, hlast]
      exact hne
    · rw [(hkeep k (by omega)).1]
      exact h.there k (by omega)
  · intro k hk
    rw [Files.set_inode_same] at hk ⊢
    rw [hsame]
    by_cases heq : k = n
    · rw [heq, hlast, Volume.setBlock_block_same hlt, Function.update_self]
      exact holdsFrom_zero
    · rw [Volume.setBlock_block_other (fun hblk => heq (hinj k hblk)), Function.update_of_ne heq]
      obtain ⟨hres, hbytes⟩ := hkeep k (by omega)
      rw [hres, hbytes]
      exact h.holds k (by omega)

theorem appendToBlock (h : DirHolds id F v contents) (hidx : idx < dirNumBlocks (F.inode id))
    {e : DirectoryEntry} (hproper : e.Proper)
    (hrun : Volume.appendDirEntryToBlock (v.resolveLogicalBlockId (F.inode id) idx) e v = .ok () v') :
    DirHolds id F v' (Function.update contents idx (contents idx ++ [e])) := by
  obtain ⟨g, rfl, hg⟩ := Volume.appendDirEntryToBlock_ok hrun (h.holds idx hidx) hproper
  exact h.store hidx hg

theorem entries_append {n : Nat} (hidx : idx < n) (e : DirectoryEntry) :
    (entriesOf (Function.update contents idx (contents idx ++ [e])) n : Multiset DirectoryEntry) =
      e ::ₘ (entriesOf contents n : Multiset DirectoryEntry) := by
  obtain ⟨before, behind, hall, hnew⟩ := entriesOf_update contents hidx
  have hperm : (before ++ contents idx ++ e :: behind).Perm (e :: (before ++ contents idx ++ behind)) :=
    List.perm_middle
  rw [hall, hnew, Multiset.cons_coe, Multiset.coe_eq_coe]
  simpa using hperm

theorem entries_erase {n : Nat} (hidx : idx < n) {e : DirectoryEntry}
    (hone : (contents idx).filter (·.name = e.name) = [e]) :
    (entriesOf (Function.update contents idx ((contents idx).filter (·.name ≠ e.name))) n :
      Multiset DirectoryEntry) = (entriesOf contents n : Multiset DirectoryEntry).erase e := by
  obtain ⟨before, behind, hall, hnew⟩ := entriesOf_update contents hidx
  obtain ⟨es, hes⟩ : ∃ es, (contents idx).filter (·.name ≠ e.name) = es := ⟨_, rfl⟩
  have hblock : (contents idx).Perm (e :: es) := by
    have hparts := List.filter_append_perm (fun x : DirectoryEntry => decide (x.name = e.name)) (contents idx)
    have hnot : (contents idx).filter (fun x => !decide (x.name = e.name)) = es := by
      rw [← hes]
      simp
    rw [hone, hnot] at hparts
    exact hparts.symm
  have hperm : (before ++ contents idx ++ behind).Perm (e :: (before ++ es ++ behind)) := by
    refine ((hblock.append_left before).append_right behind).trans ?_
    simp
  rw [hall, hes, hnew, Multiset.coe_eq_coe.mpr hperm, ← Multiset.cons_coe, Multiset.erase_cons_head]

theorem append (h : DirHolds id F v contents) {e : DirectoryEntry} {dir : Inode} (hproper : e.Proper)
    (hrun : Volume.appendDirEntryToDir (F.inode id) e v = .ok dir v') :
    ∃ contents', DirHolds id (F.set id dir) v' contents' ∧
      (entriesOf contents' (dirNumBlocks dir) : Multiset DirectoryEntry) =
        e ::ₘ (entriesOf contents (dirNumBlocks (F.inode id)) : Multiset DirectoryEntry) := by
  rcases Volume.appendDirEntryToDir_ok hrun with ⟨b, hroom, rfl, happend⟩ | ⟨b, v₁, hgrow, happend⟩
  · obtain ⟨idx, hidx, rfl⟩ := Volume.findRoom_some hroom
    rw [F.set_self]
    exact ⟨_, h.appendToBlock hidx hproper happend, entries_append hidx e⟩
  · obtain ⟨hnum, rfl, hgrown⟩ := h.grow hgrow
    have hlast : dirNumBlocks (F.inode id) < dirNumBlocks ((F.set id dir).inode id) := by
      rw [Files.set_inode_same]
      omega
    rw [← F.set_inode_same id dir] at happend
    refine ⟨_, hgrown.appendToBlock hlast hproper happend, ?_⟩
    rw [hnum, entries_append (Nat.lt_succ_self _), entriesOf_grown]

theorem read_block (h : DirHolds id F v contents) (hidx : idx < dirNumBlocks (F.inode id)) :
    v.readDirEntriesFromBlock (v.resolveLogicalBlockId (F.inode id) idx) = .ok (contents idx) := by
  rw [Volume.readDirEntriesFromBlock, if_pos (h.good.resolve_mapped h.has (h.there idx hidx)),
    (h.holds idx hidx).scans.items, collectItems_ok]

theorem erase (h : DirHolds id F v contents) {e : DirectoryEntry} {b : Nat} {raw : List DirectoryEntry}
    (hb : b ∈ v.dirBlocks (F.inode id)) (hraw : v.readDirEntriesFromBlock b = .ok raw)
    (hone : raw.filter (·.name = e.name) = [e])
    (hrun : Volume.rewriteDirEntriesInBlock b (raw.filter (·.name ≠ e.name)) v = .ok () v') :
    ∃ contents', DirHolds id F v' contents' ∧
      (entriesOf contents' (dirNumBlocks (F.inode id)) : Multiset DirectoryEntry) =
        (entriesOf contents (dirNumBlocks (F.inode id)) : Multiset DirectoryEntry).erase e := by
  obtain ⟨idx, hidx, rfl⟩ := h.mem_dirBlocks hb
  rw [h.read_block hidx] at hraw
  obtain rfl := Except.ok.inj hraw
  have hholds := h.holds idx hidx
  have hend := hholds.end_le
  have hless := recordsLength_filter_le (contents idx) fun x => decide (x.name ≠ e.name)
  obtain ⟨g, rfl, hg⟩ := Volume.rewriteDirEntriesInBlock_ok hrun
    (fun x hx => hholds.proper x (List.mem_filter.mp hx).1) (by omega)
  exact ⟨_, h.store hidx hg, entries_erase hidx hone⟩

theorem readDirEntries_eq (h : DirHolds id F v contents) :
    v.readDirEntries (v.dirBlocks (F.inode id)) = .ok (entriesOf contents (dirNumBlocks (F.inode id))) := by
  have hsome : ∀ l : List Nat, (∀ idx ∈ l, idx < dirNumBlocks (F.inode id)) →
      v.readDirEntries (l.map (v.resolveLogicalBlockId (F.inode id))) = .ok (l.flatMap contents) := by
    intro l hl
    induction l with
    | nil => rfl
    | cons idx l ih =>
      obtain ⟨hidx, hl⟩ := List.forall_mem_cons.mp hl
      rw [List.map_cons, Volume.readDirEntries, h.read_block hidx, ih hl]
      rfl
  rw [h.dirBlocks_eq]
  exact hsome _ fun idx hidx => List.mem_range.mp hidx

theorem locate_eq (h : DirHolds id F v contents) (name : String) :
    (v.locateEntryInDir (F.inode id) name (hashFilename name)).map Prod.fst =
      ((entriesOf contents (dirNumBlocks (F.inode id))).find? (·.name = name)).map (·.inode) := by
  have hsome : ∀ l : List Nat, (∀ idx ∈ l, idx < dirNumBlocks (F.inode id)) →
      ((l.map (v.resolveLogicalBlockId (F.inode id))).findSome? fun b =>
        if b < v.mapBlocks then
          (findEntryInBlockWithHash (v.block b) name (hashFilename name)).map fun id => (id, b)
        else none).map Prod.fst = ((l.flatMap contents).find? (·.name = name)).map (·.inode) := by
    intro l hl
    induction l with
    | nil => rfl
    | cons idx l ih =>
      obtain ⟨hidx, hl⟩ := List.forall_mem_cons.mp hl
      rw [List.map_cons, List.findSome?_cons, if_pos (h.good.resolve_mapped h.has (h.there idx hidx)),
        (h.holds idx hidx).scans.filtered, List.flatMap_cons, List.find?_append]
      cases (contents idx).find? (·.name = name) with
      | none => simpa using ih hl
      | some e => rfl
  rw [Volume.locateEntryInDir, h.dirBlocks_eq]
  exact hsome _ fun idx hidx => List.mem_range.mp hidx

end DirHolds

/-- A directory whose blocks are all there and all zero. -/
structure FreshDir (id : Nat) (F : Files) (v : Volume) : Prop where
  has : F.has id = true
  good : Good rawExtent F v
  there : ∀ idx < dirNumBlocks (F.inode id), v.resolveLogicalBlockId (F.inode id) idx ≠ 0
  zero : ∀ idx < dirNumBlocks (F.inode id), v.block (v.resolveLogicalBlockId (F.inode id) idx) = fun _ => 0

/-- What calls make of a fresh directory, and the entries that it then should have. -/
inductive DirRun (id : Nat) : Files → Volume → Multiset DirectoryEntry → Prop
  | fresh {F : Files} {v : Volume} : FreshDir id F v → DirRun id F v 0
  | append {F : Files} {v v' : Volume} {M : Multiset DirectoryEntry} {e : DirectoryEntry} {dir : Inode} :
      DirRun id F v M → e.Proper → Volume.appendDirEntryToDir (F.inode id) e v = .ok dir v' →
      DirRun id (F.set id dir) v' (e ::ₘ M)
  | grow {F : Files} {v v' : Volume} {M : Multiset DirectoryEntry} {b : Nat} {dir : Inode} :
      DirRun id F v M → Volume.growDir (F.inode id) v = .ok (b, dir) v' → DirRun id (F.set id dir) v' M
  | delete {F : Files} {v v' : Volume} {M : Multiset DirectoryEntry} {e : DirectoryEntry} {b : Nat}
      {raw : List DirectoryEntry} :
      DirRun id F v M → b ∈ v.dirBlocks (F.inode id) → v.readDirEntriesFromBlock b = .ok raw →
      raw.filter (·.name = e.name) = [e] →
      Volume.rewriteDirEntriesInBlock b (raw.filter (·.name ≠ e.name)) v = .ok () v' →
      DirRun id F v' (M.erase e)

section Runs

variable {id : Nat} {F : Files} {v : Volume} {M : Multiset DirectoryEntry}

theorem DirRun.holds (h : DirRun id F v M) : ∃ contents, DirHolds id F v contents ∧
    (entriesOf contents (dirNumBlocks (F.inode id)) : Multiset DirectoryEntry) = M := by
  induction h with
  | fresh hfresh =>
    refine ⟨fun _ => [], ⟨hfresh.has, hfresh.good, hfresh.there, fun idx hidx => ?_⟩, by simp [entriesOf]⟩
    rw [hfresh.zero idx hidx]
    exact holdsFrom_zero
  | append _ hproper hrun ih =>
    obtain ⟨contents, hholds, rfl⟩ := ih
    obtain ⟨contents', hholds', hentries⟩ := hholds.append hproper hrun
    exact ⟨contents', hholds', by rw [Files.set_inode_same, hentries]⟩
  | grow _ hrun ih =>
    obtain ⟨contents, hholds, rfl⟩ := ih
    obtain ⟨hnum, -, hgrown⟩ := hholds.grow hrun
    exact ⟨_, hgrown, by rw [Files.set_inode_same, hnum, entriesOf_grown]⟩
  | delete _ hb hraw hone hrun ih =>
    obtain ⟨contents, hholds, rfl⟩ := ih
    exact hholds.erase hb hraw hone hrun

/-- After every run the iterator reads the entries of the model, blocks end in zeros, and the three
scanners agree. -/
theorem directory_run (h : DirRun id F v M) :
    ∃ entries, v.readDirEntries (v.dirBlocks (F.inode id)) = .ok entries ∧
      (entries : Multiset DirectoryEntry) = M ∧
      (∀ b ∈ v.dirBlocks (F.inode id), ∀ k, findInsertOffsetInBlock (v.block b) ≤ k → k < blockSize →
        v.block b k = 0) ∧
      (∀ b ∈ v.dirBlocks (F.inode id), ∃ es : List DirectoryEntry,
        directoryItems (v.block b) = es.map .ok ∧
        ∀ name, findEntryInBlockWithHash (v.block b) name (hashFilename name) = findEntryInBlock (v.block b) name ∧
          findEntryInBlock (v.block b) name = (es.find? (·.name = name)).map (·.inode)) ∧
      ∀ name, (v.locateEntryInDir (F.inode id) name (hashFilename name)).map Prod.fst =
        (entries.find? (·.name = name)).map (·.inode) := by
  obtain ⟨contents, hholds, hentries⟩ := h.holds
  refine ⟨_, hholds.readDirEntries_eq, hentries, fun b hb k hk hlt => ?_, fun b hb => ?_, hholds.locate_eq⟩
  · obtain ⟨idx, hidx, rfl⟩ := hholds.mem_dirBlocks hb
    have hblock := hholds.holds idx hidx
    rw [hblock.scans.offset] at hk
    exact hblock.zero_behind k (by omega) hlt
  · obtain ⟨idx, hidx, rfl⟩ := hholds.mem_dirBlocks hb
    have hscans := (hholds.holds idx hidx).scans
    refine ⟨contents idx, hscans.items, fun name => ⟨?_, hscans.unfiltered name⟩⟩
    rw [hscans.filtered, hscans.unfiltered]

def entryFor (id : Nat) (name : String) : DirectoryEntry := ⟨id, hashFilename name, name⟩

/-- The in-place creation of a directory gives a fresh one. -/
theorem freshDir_newInode {now : Nat} {dir : Inode} {v' : Volume} (hs : v.Sound)
    (h : Volume.newInode now .directory v = .ok dir v') : FreshDir id (Files.single id dir) v' := by
  obtain ⟨b, w, halloc, h⟩ := DiskM.bind_ok.mp h
  obtain ⟨hdir, rfl⟩ := DiskM.pure_ok.mp h
  have ha := Volume.allocAndZeroBlock_ok hs halloc
  have hslot : dir.slot 0 = b := hdir ▸ Inode.slot_setSlot_same _ (by decide) b
  have hother : ∀ s, s ≠ 0 → dir.slot s = 0 := by
    intro s hs
    rw [← Inode.slot_new .directory s, ← hdir]
    exact Inode.slot_setSlot_other _ (by decide) hs b
  have hnum : dirNumBlocks dir = 1 := by
    have hsize : dir.size = blockSize := by rw [← hdir]
    rw [dirNumBlocks, hsize, if_neg (by decide)]
    decide
  have hfirst : ∀ idx < dirNumBlocks dir, w.resolveLogicalBlockId dir idx = b := by
    intro idx hidx
    obtain rfl : idx = 0 := by omega
    exact hslot
  refine ⟨Files.single_has id dir, Session.good_direct (ha.tables.sound hs) hslot hother
    ((ha.marked b).mpr (Or.inr rfl)) ((ha.tables.isDataBlock b).trans ha.data), ?_, ?_⟩
  · intro idx hidx
    rw [Files.single_inode] at hidx ⊢
    rw [hfirst idx hidx]
    exact (Volume.isDataBlock_iff.mp ha.data).1
  · intro idx hidx
    rw [Files.single_inode] at hidx ⊢
    rw [hfirst idx hidx]
    exact ha.zero

/-- A file is created and deleted again. -/
theorem directory_run_create_delete : ∃ F v v' entries, DirRun 0 F v {entryFor 1 "a"} ∧
    v.readDirEntries (v.dirBlocks (F.inode 0)) = .ok entries ∧
    (entries : Multiset DirectoryEntry) = {entryFor 1 "a"} ∧ DirRun 0 F v' 0 ∧
    v'.readDirEntries (v'.dirBlocks (F.inode 0)) = .ok [] := by
  have hsteps : ∃ i u, Volume.newInode 0 .directory
        (Session.tinyVolume (Inode.new .directory) fun _ => 0) = .ok i u ∧
      ∃ d v, Volume.appendDirEntryToDir i (entryFor 1 "a") u = .ok d v ∧
        v.readDirEntriesFromBlock 5 = .ok [entryFor 1 "a"] ∧ 5 ∈ v.dirBlocks d ∧
        ∃ v', Volume.rewriteDirEntriesInBlock 5 [] v = .ok () v' := by
    refine ⟨_, _, rfl, _, _, rfl, ?_, ?_, _, rfl⟩
    · decide +kernel
    · decide +kernel
  obtain ⟨i, u, hnew, d, v, hcreate, hraw, hblock, v', hrewrite⟩ := hsteps
  have hcreated : DirRun 0 ((Files.single 0 i).set 0 d) v {entryFor 1 "a"} :=
    (DirRun.fresh (freshDir_newInode ⟨by decide, by decide, by decide⟩ hnew)).append
      ⟨by decide, rfl, by decide⟩ hcreate
  have hdeleted := hcreated.delete hblock hraw (e := entryFor 1 "a") (by decide) hrewrite
  rw [← Multiset.cons_zero, Multiset.erase_cons_head] at hdeleted
  obtain ⟨entries, hread, hentries, -⟩ := directory_run hcreated
  obtain ⟨none, hread', hnone, -⟩ := directory_run hdeleted
  obtain rfl := Multiset.coe_eq_zero none |>.mp hnone
  exact ⟨_, v, v', entries, hcreated, hread, hentries, hdeleted, hread'⟩

end Runs

end Oifs
