import Oifs.Volume
import Oifs.PointerForest

namespace Oifs

open PointerForest

/-- Some of the files of an image, each with the inode that is or will be in its slot. -/
structure Files where
  has : Nat → Bool
  inode : Nat → Inode

namespace Files

def set (F : Files) (id : Nat) (i : Inode) : Files := { F with inode := Function.update F.inode id i }

@[simp] theorem set_has (F : Files) (id : Nat) (i : Inode) : (F.set id i).has = F.has := rfl

@[simp] theorem set_inode_same (F : Files) (id : Nat) (i : Inode) : (F.set id i).inode id = i :=
  Function.update_self ..

theorem set_inode_other (F : Files) {id j : Nat} (h : j ≠ id) (i : Inode) :
    (F.set id i).inode j = F.inode j := Function.update_of_ne h ..

@[simp] theorem set_set (F : Files) (id : Nat) (i j : Inode) : (F.set id i).set id j = F.set id j := by
  simp [set]

theorem set_self (F : Files) (id : Nat) : F.set id (F.inode id) = F := by
  simp [set]

end Files

/-- The pointer trees of the files: a root is an inode with one of its slots. -/
def treeShape : Shape (Nat × Nat) where
  depth r := r.2 - 9
  width := ptrsPerBlock

def rawExtent (_ : Nat × Nat) (w : Nat) : Set Nat := { b | b = w ∧ b ≠ 0 }

namespace Volume

def cells (v : Volume) (F : Files) : Cells (Nat × Nat) where
  root r := if F.has r.1 then (F.inode r.1).slot r.2 else 0
  ptr := v.readBlockPtr

theorem cells_root (v : Volume) {F : Files} {id : Nat} (h : F.has id = true) (s : Nat) :
    (v.cells F).root (id, s) = (F.inode id).slot s := if_pos h

theorem cells_root_congr (v v' : Volume) {F F' : Files} {id : Nat} (hhas : F'.has = F.has)
    (h : F'.inode id = F.inode id) (s : Nat) : (v'.cells F').root (id, s) = (v.cells F).root (id, s) := by
  simp only [cells, hhas, h]

structure Sound (v : Volume) : Prop where
  start_pos : 0 < v.superblock.dataBlockStart
  count_le : v.superblock.blockCount ≤ v.mapBlocks
  count_lt : v.superblock.blockCount < 2 ^ 64

/-- The two volumes differ in the data bitmap, the blocks and the hint for free blocks at most. -/
structure SameTables (v v' : Volume) : Prop where
  superblock : v'.superblock = v.superblock
  mapBlocks : v'.mapBlocks = v.mapBlocks
  inodeBit : v'.inodeBit = v.inodeBit
  inode : v'.inode = v.inode
  freeInodeHint : v'.freeInodeHint = v.freeInodeHint

namespace SameTables

theorem refl (v : Volume) : SameTables v v := ⟨rfl, rfl, rfl, rfl, rfl⟩

theorem trans {a b c : Volume} (hab : SameTables a b) (hbc : SameTables b c) : SameTables a c :=
  ⟨hbc.superblock.trans hab.superblock, hbc.mapBlocks.trans hab.mapBlocks,
    hbc.inodeBit.trans hab.inodeBit, hbc.inode.trans hab.inode,
    hbc.freeInodeHint.trans hab.freeInodeHint⟩

theorem sound {v v' : Volume} (h : SameTables v v') (hs : v.Sound) : v'.Sound :=
  ⟨h.superblock ▸ hs.start_pos, h.superblock ▸ h.mapBlocks ▸ hs.count_le,
    h.superblock ▸ hs.count_lt⟩

theorem isDataBlock {v v' : Volume} (h : SameTables v v') (b : Nat) :
    v'.isDataBlock b = v.isDataBlock b := by
  rw [Volume.isDataBlock, Volume.isDataBlock, h.superblock]

end SameTables

theorem isDataBlock_iff {v : Volume} {b : Nat} : v.isDataBlock b = true ↔
    b ≠ 0 ∧ v.superblock.dataBlockStart ≤ b ∧ b < v.superblock.blockCount := by
  simp [isDataBlock, and_assoc]

theorem sameTables_setBlock (v : Volume) (b : Nat) (f : Nat → UInt8) :
    SameTables v (v.setBlock b f) := by
  unfold setBlock
  split
  next => exact ⟨rfl, rfl, rfl, rfl, rfl⟩
  next => exact SameTables.refl v

theorem setBlock_block_same {v : Volume} {b : Nat} {f : Nat → UInt8} (h : b < v.mapBlocks) :
    (v.setBlock b f).block b = f := by
  rw [setBlock, if_pos h]
  exact Function.update_self ..

theorem setBlock_block_other {v : Volume} {b c : Nat} {f : Nat → UInt8} (h : c ≠ b) :
    (v.setBlock b f).block c = v.block c := by
  unfold setBlock
  split
  next => exact Function.update_of_ne h ..
  next => rfl

@[simp] theorem setBlock_dataBit (v : Volume) (b : Nat) (f : Nat → UInt8) :
    (v.setBlock b f).dataBit = v.dataBit := by
  unfold setBlock
  split <;> rfl

@[simp] theorem setBlock_inodeBit (v : Volume) (b : Nat) (f : Nat → UInt8) :
    (v.setBlock b f).inodeBit = v.inodeBit := by
  unfold setBlock
  split <;> rfl

@[simp] theorem setBlock_superblock (v : Volume) (b : Nat) (f : Nat → UInt8) :
    (v.setBlock b f).superblock = v.superblock := (sameTables_setBlock v b f).superblock

@[simp] theorem setBlock_mapBlocks (v : Volume) (b : Nat) (f : Nat → UInt8) :
    (v.setBlock b f).mapBlocks = v.mapBlocks := (sameTables_setBlock v b f).mapBlocks

@[simp] theorem marked_setBlock (v : Volume) (b : Nat) (f : Nat → UInt8) (c : Nat) :
    (v.setBlock b f).marked c = v.marked c := by
  simp [marked]

theorem readBlockPtr_congr {v v' : Volume} {b : Nat} (hm : v'.mapBlocks = v.mapBlocks)
    (hb : v'.block b = v.block b) (i : Nat) : v'.readBlockPtr b i = v.readBlockPtr b i := by
  rw [readBlockPtr, readBlockPtr, hm, hb]

structure Allocates (v : Volume) (n : Nat) (v' : Volume) : Prop where
  data : v.isDataBlock n = true
  free : v.marked n = false
  tables : SameTables v v'
  marked : ∀ b, v'.marked b = true ↔ v.marked b = true ∨ b = n
  zero : v'.block n = fun _ => 0
  other : ∀ b, b ≠ n → v'.block b = v.block b

theorem marked_iff {v : Volume} {b : Nat} : v.marked b = true ↔
    v.superblock.dataBlockStart ≤ b ∧ b - v.superblock.dataBlockStart < bitmapBits ∧
      v.dataBit (b - v.superblock.dataBlockStart) = true := by
  simp [marked, and_assoc]

theorem marked_setMark_true {v : Volume} {n b : Nat} (hs : v.superblock.dataBlockStart ≤ n)
    (hn : n - v.superblock.dataBlockStart < bitmapBits) :
    (v.setMark n true).marked b = true ↔ v.marked b = true ∨ b = n := by
  rw [marked_iff, marked_iff]
  simp only [setMark, Function.update_apply]
  constructor
  · rintro ⟨h1, h2, h3⟩
    split at h3
    next heq => exact Or.inr (by omega)
    next => exact Or.inl ⟨h1, h2, h3⟩
  · rintro (⟨h1, h2, h3⟩ | rfl)
    · refine ⟨h1, h2, ?_⟩
      split
      next => rfl
      next => exact h3
    · exact ⟨hs, hn, if_pos rfl⟩

theorem allocateBlock_ok {v v' : Volume} {n : Nat} (hs : v.Sound) (h : allocateBlock v = .ok n v') :
    Allocates v n v' := by
  have hpos := hs.start_pos
  have hle := hs.count_le
  unfold allocateBlock at h
  split at h
  next => cases h
  next bit hbit =>
    obtain ⟨hfree, hlt⟩ := findNextFreeWrapped_some hbit
    dsimp only at h
    split at h
    next => cases h
    next hin =>
      cases h
      have hmap : v.superblock.dataBlockStart + bit < v.mapBlocks := by omega
      refine ⟨isDataBlock_iff.mpr ⟨by omega, by omega, by omega⟩, ?_, ?_, fun b => ?_, ?_, ?_⟩
      · simp [marked, hfree]
      · have hmark : SameTables v { v.setMark (v.superblock.dataBlockStart + bit) true with
            freeBlockHint := v.superblock.dataBlockStart + bit + 1 } := ⟨rfl, rfl, rfl, rfl, rfl⟩
        exact hmark.trans (sameTables_setBlock _ _ _)
      · rw [marked_setBlock]
        exact marked_setMark_true (v := v) (Nat.le_add_right _ _)
          (by rw [Nat.add_sub_cancel_left]; exact hlt)
      · exact setBlock_block_same hmap
      · intro b hb
        exact setBlock_block_other hb

theorem allocAndZeroBlock_ok {v v' : Volume} {n : Nat} (hs : v.Sound)
    (h : allocAndZeroBlock v = .ok n v') : Allocates v n v' := by
  unfold allocAndZeroBlock at h
  simp only [DiskM.bind_ok, DiskM.modify_ok, DiskM.pure_ok] at h
  obtain ⟨n', v₁, halloc, -, -, rfl, rfl, rfl⟩ := h
  have ha := allocateBlock_ok hs halloc
  have hmap : n' < v₁.mapBlocks := by
    have hle := hs.count_le
    have hlt := (isDataBlock_iff.mp ha.data).2.2
    rw [ha.tables.mapBlocks]
    omega
  refine ⟨ha.data, ha.free, ha.tables.trans (sameTables_setBlock _ _ _), fun b => ?_, ?_, ?_⟩
  · rw [marked_setBlock]
    exact ha.marked b
  · exact setBlock_block_same hmap
  · intro b hb
    rw [setBlock_block_other hb]
    exact ha.other b hb

end Volume

section Growth

variable (ext : Nat × Nat → Nat → Set Nat)

/-- The trees of the files share no block, and their blocks are marked blocks of the data area. -/
structure Good (F : Files) (v : Volume) : Prop where
  sound : v.Sound
  separated : Separated treeShape ext (v.cells F)
  marked : ∀ b ∈ owned treeShape ext (v.cells F), v.marked b = true
  data : ∀ b ∈ owned treeShape ext (v.cells F), v.isDataBlock b = true

structure Adds (F : Files) (v : Volume) (F' : Files) (v' : Volume) : Prop where
  tables : v.SameTables v'
  good : Good ext F' v'
  empty : ∀ l, treeShape.Valid l → (v'.cells F').get l ≠ (v.cells F).get l → (v.cells F).get l = 0
  marked : ∀ b, v'.marked b = true ↔ v.marked b = true ∨
    (b ∈ owned treeShape ext (v'.cells F') ∧ b ∉ owned treeShape ext (v.cells F))
  fresh : ∀ b ∈ owned treeShape ext (v'.cells F'), b ∉ owned treeShape ext (v.cells F) →
    v.marked b = false

/-- The new blocks lie on the way to `t`, and nothing else has happened. -/
structure Grows (t : Place (Nat × Nat)) (F : Files) (v : Volume) (F' : Files) (v' : Volume) : Prop
    extends Adds ext F v F' v' where
  only : ∀ l, treeShape.Valid l → (v'.cells F').get l ≠ (v.cells F).get l →
    l.root = t.root ∧ l.path <:+ t.path
  zero : ∀ b ∈ owned treeShape ext (v'.cells F'), b ∉ owned treeShape ext (v.cells F) →
    (∀ l, treeShape.Inner l → (v'.cells F').get l ≠ b) → v'.block b = fun _ => 0
  bytes : ∀ b, v.marked b = true →
    (∀ l, treeShape.Inner l → l.root = t.root → (v.cells F).get l ≠ b) → v'.block b = v.block b

variable {ext} {t : Place (Nat × Nat)} {F F' F'' : Files} {v v' v'' : Volume}

namespace Adds

theorem refl (h : Good ext F v) : Adds ext F v F v where
  tables := Volume.SameTables.refl v
  good := h
  empty _ _ hne := absurd rfl hne
  marked _ := ⟨Or.inl, fun hb => hb.elim id fun ⟨hin, hout⟩ => absurd hin hout⟩
  fresh _ hin hout := absurd hin hout

theorem keeps (h : Adds ext F v F' v') {l : Place (Nat × Nat)} (hl : treeShape.Valid l)
    (hne : (v.cells F).get l ≠ 0) : (v'.cells F').get l = (v.cells F).get l := by
  by_contra hdiff
  exact hne (h.empty l hl hdiff)

theorem owned_mono (hext : ∀ r, ext r 0 = ∅) (h : Adds ext F v F' v') {b : Nat}
    (hb : b ∈ owned treeShape ext (v.cells F)) : b ∈ owned treeShape ext (v'.cells F') := by
  obtain ⟨l, hl, hb⟩ := hb
  refine ⟨l, hl, ?_⟩
  rw [owns, h.keeps hl (get_ne_zero_of_owns hext hb)]
  exact hb

theorem not_owned (hext : ∀ r, ext r 0 = ∅) (h : Adds ext F v F' v') {l : Place (Nat × Nat)}
    {b : Nat} (hl : treeShape.Valid l) (hz : (v.cells F).get l = 0)
    (hb : b ∈ owns treeShape ext (v'.cells F') l) : b ∉ owned treeShape ext (v.cells F) := by
  rintro ⟨l', hl', hb'⟩
  have hne := get_ne_zero_of_owns hext hb'
  have hsame : b ∈ owns treeShape ext (v'.cells F') l' := by
    rw [owns, h.keeps hl' hne]
    exact hb'
  have heq := h.good.separated l l' hl hl' b hb hsame
  rw [heq] at hz
  exact hne hz

theorem same_of_marked (hext : ∀ r, ext r 0 = ∅) (h : Adds ext F v F' v') {l : Place (Nat × Nat)}
    {b : Nat} (hl : treeShape.Valid l) (hmark : v.marked b = true)
    (hb : b ∈ owns treeShape ext (v'.cells F') l) : (v'.cells F').get l = (v.cells F).get l := by
  by_contra hdiff
  have hout := h.not_owned hext hl (h.empty l hl hdiff) hb
  have hfree := h.fresh b ⟨l, hl, hb⟩ hout
  rw [hmark] at hfree
  cases hfree

theorem trans (hext : ∀ r, ext r 0 = ∅) (h : Adds ext F v F' v') (h' : Adds ext F' v' F'' v'') :
    Adds ext F v F'' v'' where
  tables := h.tables.trans h'.tables
  good := h'.good
  empty l hl hne := by
    by_cases hfirst : (v'.cells F').get l = (v.cells F).get l
    · rw [← hfirst]
      exact h'.empty l hl (by rwa [hfirst])
    · exact h.empty l hl hfirst
  marked b := by
    rw [h'.marked, h.marked]
    constructor
    · rintro ((hb | ⟨hin, hout⟩) | ⟨hin, hout⟩)
      · exact Or.inl hb
      · exact Or.inr ⟨h'.owned_mono hext hin, hout⟩
      · exact Or.inr ⟨hin, fun hb => hout (h.owned_mono hext hb)⟩
    · rintro (hb | ⟨hin, hout⟩)
      · exact Or.inl (Or.inl hb)
      · by_cases hmid : b ∈ owned treeShape ext (v'.cells F')
        · exact Or.inl (Or.inr ⟨hmid, hout⟩)
        · exact Or.inr ⟨hin, hmid⟩
  fresh b hin hout := by
    by_cases hmid : b ∈ owned treeShape ext (v'.cells F')
    · exact h.fresh b hmid hout
    · have hfree := h'.fresh b hin hmid
      by_contra hmark
      rw [(h.marked b).mpr (Or.inl (by simpa using hmark))] at hfree
      cases hfree

end Adds

namespace Grows

theorem refl (h : Good ext F v) : Grows ext t F v F v where
  toAdds := Adds.refl h
  only _ _ hne := absurd rfl hne
  zero _ hin hout := absurd hin hout
  bytes _ _ _ := rfl

theorem trans (hext : ∀ r, ext r 0 = ∅) (h : Grows ext t F v F' v')
    (h' : Grows ext t F' v' F'' v'') : Grows ext t F v F'' v'' where
  toAdds := h.toAdds.trans hext h'.toAdds
  only l hl hne := by
    by_cases hfirst : (v'.cells F').get l = (v.cells F).get l
    · exact h'.only l hl (by rwa [hfirst])
    · exact h.only l hl hfirst
  zero b hin hout hleaf := by
    by_cases hmid : b ∈ owned treeShape ext (v'.cells F')
    · -- taken by the first part: the second part leaves its bytes alone
      have hleaf' : ∀ l, treeShape.Inner l → (v'.cells F').get l ≠ b := by
        intro l hl heq
        have hpos := (Volume.isDataBlock_iff.mp (h.good.data b hmid)).1
        exact hleaf l hl ((h'.keeps hl.1 (by rwa [heq])).trans heq)
      rw [h'.bytes b (h.good.marked b hmid) (fun l hl _ => hleaf' l hl)]
      exact h.zero b hmid hout hleaf'
    · exact h'.zero b hin hmid hleaf
  bytes b hmark hleaf := by
    have hmark' : v'.marked b = true := (h.marked b).mpr (Or.inl hmark)
    rw [h'.bytes b hmark' ?_, h.bytes b hmark hleaf]
    intro l hl hroot heq
    have hpos : (v'.cells F').get l ≠ 0 := by
      have hstart := h'.good.sound.start_pos
      have hle := (Volume.marked_iff.mp hmark').1
      rw [h'.tables.superblock] at hstart
      omega
    have hsame := h.same_of_marked hext hl.1 hmark (heq ▸ owns_inner hl hpos)
    exact hleaf l hl hroot (hsame ▸ heq)

theorem link (hext : ∀ r, ext r 0 = ∅) {l₀ : Place (Nat × Nat)} {n : Nat} {v₁ : Volume}
    (hg : Good ext F v) (ha : v.Allocates n v₁) (htables : v.SameTables v')
    (hset : Cells.SetAt treeShape (v.cells F) (v'.cells F') l₀ n) (hl₀ : treeShape.Valid l₀)
    (hempty : (v.cells F).get l₀ = 0) (hclaims : ∀ b, b ∈ claims treeShape ext l₀ n ↔ b = n)
    (hmarked : ∀ b, v'.marked b = true ↔ v.marked b = true ∨ b = n)
    (hzero : v'.block n = fun _ => 0)
    (hbytes : ∀ b, b ≠ n → (∀ l, treeShape.Inner l → l.root = l₀.root → (v.cells F).get l ≠ b) →
      v'.block b = v.block b)
    (hroot : l₀.root = t.root) (hpath : l₀.path <:+ t.path) :
    Grows ext t F v F' v' ∧ (v'.cells F').get l₀ = n := by
  have hnew : n ∉ owned treeShape ext (v.cells F) := by
    intro hn
    have hmark := hg.marked n hn
    rw [ha.free] at hmark
    cases hmark
  have hnone : ∀ b, b ∉ owns treeShape ext (v.cells F) l₀ :=
    fun b hb => get_ne_zero_of_owns hext hb hempty
  have howned : ∀ b, b ∈ owned treeShape ext (v'.cells F') ↔
      b = n ∨ b ∈ owned treeShape ext (v.cells F) := by
    intro b
    rw [owned_setAt hl₀ hg.separated hset, hclaims]
    simp [hnone]
  refine ⟨⟨⟨htables, ⟨htables.sound hg.sound, ?_, ?_, ?_⟩, ?_, ?_, ?_⟩, ?_, ?_, ?_⟩,
    by rw [hset.get hl₀, if_pos rfl]⟩
  · apply hg.separated.setAt hset
    intro b hb l hl _ hbl
    rw [hclaims] at hb
    subst hb
    exact hnew ⟨l, hl, hbl⟩
  · intro b hb
    rw [hmarked]
    rcases (howned b).mp hb with rfl | hb
    · exact Or.inr rfl
    · exact Or.inl (hg.marked b hb)
  · intro b hb
    rw [htables.isDataBlock]
    rcases (howned b).mp hb with rfl | hb
    · exact ha.data
    · exact hg.data b hb
  · intro l hl hne
    rw [hset.get hl] at hne
    by_cases hat : l = l₀
    · rw [hat]
      exact hempty
    · rw [if_neg hat] at hne
      exact absurd rfl hne
  · intro b
    rw [hmarked, howned]
    constructor
    · rintro (hb | rfl)
      · exact Or.inl hb
      · exact Or.inr ⟨Or.inl rfl, hnew⟩
    · rintro (hb | ⟨rfl | hin, hout⟩)
      · exact Or.inl hb
      · exact Or.inr rfl
      · exact absurd hin hout
  · intro b hin hout
    rcases (howned b).mp hin with rfl | hin
    · exact ha.free
    · exact absurd hin hout
  · intro l hl hne
    rw [hset.get hl] at hne
    by_cases hat : l = l₀
    · rw [hat]
      exact ⟨hroot, hpath⟩
    · rw [if_neg hat] at hne
      exact absurd rfl hne
  · intro b hin hout _
    rcases (howned b).mp hin with rfl | hin
    · exact hzero
    · exact absurd hin hout
  · intro b hmark hleaf
    apply hbytes b
    · rintro rfl
      rw [ha.free] at hmark
      cases hmark
    · rw [hroot]
      exact hleaf

theorem link_root (hext : ∀ r, ext r 0 = ∅) {id s n : Nat} {v₁ : Volume} (hg : Good ext F v)
    (ha : v.Allocates n v₁) (hhas : F.has id = true) (hs : s ≤ 12) (hempty : (F.inode id).slot s = 0)
    (hclaims : ∀ b, b ∈ claims treeShape ext ⟨(id, s), []⟩ n ↔ b = n) (ht : t.root = (id, s)) :
    Grows ext t F v (F.set id ((F.inode id).setSlot s n)) v₁ ∧
      (v₁.cells (F.set id ((F.inode id).setSlot s n))).get ⟨(id, s), []⟩ = n := by
  have hget : (v.cells F).get ⟨(id, s), []⟩ = 0 := by
    rw [Cells.get_root, v.cells_root hhas]
    exact hempty
  have hinner : ∀ l, treeShape.Inner l → (v.cells F).get l ≠ 0 → (v.cells F).get l ≠ n := by
    intro l hl hne heq
    have hmark := hg.marked n ⟨l, hl.1, heq ▸ owns_inner hl hne⟩
    rw [ha.free] at hmark
    cases hmark
  refine link hext hg ha ha.tables ⟨?_, ?_, ?_, ?_, ?_⟩ ⟨Nat.zero_le _, by simp⟩ hget hclaims
    ha.marked ha.zero (fun b hb _ => ha.other b hb) ht.symm (List.nil_suffix ..)
  · rintro ⟨j, u⟩
    by_cases hat : (⟨(j, u), []⟩ : Place (Nat × Nat)) = ⟨(id, s), []⟩
    · cases hat
      rw [if_pos rfl, v₁.cells_root (by exact hhas), Files.set_inode_same,
        Inode.slot_setSlot_same _ hs]
    · rw [if_neg hat]
      by_cases hj : j = id
      · subst hj
        have hu : u ≠ s := by
          rintro rfl
          exact hat rfl
        rw [v₁.cells_root (by exact hhas), v.cells_root hhas, Files.set_inode_same,
          Inode.slot_setSlot_other _ hs hu]
      · exact v.cells_root_congr v₁ (Files.set_has ..) (Files.set_inode_other _ hj _) u
  · intro r q hin hne i hi
    rw [if_neg (by simp)]
    exact Volume.readBlockPtr_congr ha.tables.mapBlocks (ha.other _ (hinner _ hin hne)) i
  · intro _ _ i _
    simp only [Volume.cells, Volume.readBlockPtr, ha.zero]
    split
    next => exact cell_zero fun _ => rfl
    next => rfl
  · intro i _
    rw [Cells.get_cons, if_pos hget]
  · intro _ i q hq
    cases hq

theorem link_child (hext : ∀ r, ext r 0 = ∅) {r : Nat × Nat} {q : List Nat} {i n : Nat} {v₁ : Volume}
    (hg : Good ext F v) (ha : v.Allocates n v₁) (hin : treeShape.Inner ⟨r, q⟩) (hi : i < ptrsPerBlock)
    (hparent : (v.cells F).get ⟨r, q⟩ ≠ 0) (hempty : v.readBlockPtr ((v.cells F).get ⟨r, q⟩) i = 0)
    (hclaims : ∀ b, b ∈ claims treeShape ext ⟨r, i :: q⟩ n ↔ b = n) (hroot : r = t.root)
    (hpath : (i :: q) <:+ t.path) :
    Grows ext t F v F (v₁.writeBlockPtr ((v.cells F).get ⟨r, q⟩) i n) ∧
      (Volume.cells (v₁.writeBlockPtr ((v.cells F).get ⟨r, q⟩) i n) F).get ⟨r, i :: q⟩ = n := by
  have hget : (v.cells F).get ⟨r, i :: q⟩ = 0 := by
    rw [Cells.get_cons_of_ne hparent]
    exact hempty
  have hown : ∀ l, treeShape.Inner l → (v.cells F).get l ≠ 0 →
      (v.cells F).get l ∈ owned treeShape ext (v.cells F) :=
    fun l hl hne => ⟨l, hl.1, owns_inner hl hne⟩
  have hinner : ∀ l, treeShape.Inner l → (v.cells F).get l ≠ 0 → (v.cells F).get l ≠ n := by
    intro l hl hne heq
    have hmark := hg.marked _ (hown l hl hne)
    rw [heq, ha.free] at hmark
    cases hmark
  have hmap : ∀ b, v.isDataBlock b = true → b < v₁.mapBlocks := by
    intro b hb
    have hle := hg.sound.count_le
    have hlt := (Volume.isDataBlock_iff.mp hb).2.2
    rw [ha.tables.mapBlocks]
    omega
  have hpb := hmap _ (hg.data _ (hown _ hin hparent))
  have hn64 : n < 2 ^ 64 :=
    Nat.lt_trans (Volume.isDataBlock_iff.mp ha.data).2.2 hg.sound.count_lt
  have hpn := hinner _ hin hparent
  generalize hp : (v.cells F).get ⟨r, q⟩ = p at *
  have hother : ∀ b, b ≠ p → (v₁.writeBlockPtr p i n).block b = v₁.block b :=
    fun b hb => Volume.setBlock_block_other hb
  have htables : v.SameTables (v₁.writeBlockPtr p i n) :=
    ha.tables.trans (Volume.sameTables_setBlock _ _ _)
  have hptr : ∀ b, b ≠ n → ∀ j, j < ptrsPerBlock → (v₁.writeBlockPtr p i n).readBlockPtr b j =
      if b = p ∧ j = i then n else v.readBlockPtr b j := by
    intro b hb j hj
    by_cases hbp : b = p
    · subst hbp
      have hfit : j * 8 + 8 ≤ blockSize := by
        simp only [ptrsPerBlock, blockSize] at *
        omega
      simp only [Volume.readBlockPtr, htables.mapBlocks, ← ha.tables.mapBlocks, hpb, hfit, and_self,
        if_true, true_and]
      rw [Volume.writeBlockPtr, Volume.setBlock_block_same hpb, ha.other b hpn]
      by_cases hji : j = i
      · rw [if_pos hji, hji, cell_patch_same hn64]
      · rw [if_neg hji, cell_patch_other (LittleEndian.encode_length 8 n) hji]
    · rw [if_neg (fun h => hbp h.1)]
      exact Volume.readBlockPtr_congr htables.mapBlocks ((hother b hbp).trans (ha.other b hb)) j
  refine link hext hg ha htables ⟨?_, ?_, ?_, ?_, ?_⟩ (hin.child hi) hget hclaims
    (fun b => ?_) ?_ (fun b hbn hleaf => ?_) hroot hpath
  · intro r'
    rw [if_neg (by simp)]
    rfl
  · intro r' q' hin' hne j hj
    rw [show (Volume.cells (v₁.writeBlockPtr p i n) F).ptr = (v₁.writeBlockPtr p i n).readBlockPtr
      from rfl, hptr _ (hinner _ hin' hne) j hj]
    congr 1
    simp only [eq_iff_iff, Place.mk.injEq, List.cons.injEq]
    constructor
    · rintro ⟨heq, rfl⟩
      have hplace := hg.separated.inner_inj hin hin' (by rw [hp]; exact hparent) (by rw [hp]; exact heq)
      cases hplace
      exact ⟨rfl, rfl, rfl⟩
    · rintro ⟨rfl, rfl, rfl⟩
      exact ⟨hp, rfl⟩
  · intro _ _ j _
    change (v₁.writeBlockPtr p i n).readBlockPtr n j = 0
    rw [Volume.readBlockPtr, hother n (Ne.symm hpn), ha.zero]
    split
    next => exact cell_zero fun _ => rfl
    next => rfl
  · intro j _
    rw [Cells.get_cons, if_pos hget]
  · intro _ j q' hq
    cases hq
    rw [hp]
    exact hparent
  · rw [Volume.writeBlockPtr, Volume.marked_setBlock]
    exact ha.marked b
  · rw [hother n (Ne.symm hpn)]
    exact ha.zero
  · rw [hother b (fun hbp => hleaf ⟨r, q⟩ hin rfl (by rw [hp, hbp]))]
    exact ha.other b hbn

end Grows

theorem rawExtent_zero (r : Nat × Nat) : rawExtent r 0 = ∅ := by
  ext b
  constructor
  · rintro ⟨rfl, hne⟩
    exact absurd rfl hne
  · intro hb
    exact hb.elim

theorem claims_inner {l : Place (Nat × Nat)} {n : Nat} (hl : treeShape.Inner l) (hn : n ≠ 0)
    (b : Nat) : b ∈ claims treeShape ext l n ↔ b = n := by
  rw [mem_claims_inner hl.2]
  constructor
  · rintro ⟨rfl, _⟩
    rfl
  · rintro rfl
    exact ⟨rfl, hn⟩

theorem claims_raw {l : Place (Nat × Nat)} {n : Nat} (hn : n ≠ 0) (b : Nat) :
    b ∈ claims treeShape rawExtent l n ↔ b = n := by
  by_cases hl : l.path.length < treeShape.depth l.root
  · rw [mem_claims_inner hl]
    constructor
    · rintro ⟨rfl, _⟩
      rfl
    · rintro rfl
      exact ⟨rfl, hn⟩
  · rw [mem_claims_leaf hl]
    constructor
    · rintro ⟨rfl, _⟩
      rfl
    · rintro rfl
      exact ⟨rfl, hn⟩

def SameMeta (i i' : Inode) : Prop :=
  i' = { i with blocks := i'.blocks, tripleIndirect := i'.tripleIndirect }

theorem SameMeta.refl (i : Inode) : SameMeta i i := rfl

theorem SameMeta.trans {i i' i'' : Inode} (h : SameMeta i i') (h' : SameMeta i' i'') :
    SameMeta i i'' := by
  unfold SameMeta at *
  rw [h', h]

theorem sameMeta_setSlot (i : Inode) (s p : Nat) : SameMeta i (i.setSlot s p) := by
  unfold SameMeta Inode.setSlot
  split <;> rfl

end Growth

end Oifs
