import Oifs.GetOrAlloc

namespace Oifs

open PointerForest

namespace Volume

def blockByte (v : Volume) (b k : Nat) : UInt8 := if b = 0 then 0 else v.block b k

def payload (v : Volume) (inode : Inode) (j : Nat) : UInt8 :=
  v.blockByte (v.resolveLogicalBlockId inode (j / blockSize)) (j % blockSize)

/-- `write_buffer_at_offset`, without the list of touched blocks that the flushes use. -/
def writeBufferAtOffset (inode : Inode) (offset : Nat) (data : List UInt8) : DiskM (Nat × Inode) :=
  if data.isEmpty then pure (offset, inode)
  else do
    let (blk, inode) ← getOrAllocBlock inode (offset / blockSize) true
    let toWrite := min data.length (blockSize - offset % blockSize)
    modify fun v => v.setBlock blk (patch (v.block blk) (offset % blockSize) (data.take toWrite))
    writeBufferAtOffset inode (offset + toWrite) (data.drop toWrite)
termination_by data.length
decreasing_by
  have hmod := mod_blockSize_lt offset
  have hpos : 0 < data.length := List.length_pos_iff.mpr (by rintro rfl; simp at *)
  rw [List.length_drop]
  omega

end Volume

variable {ext : Nat × Nat → Nat → Set Nat} {F F' F'' : Files} {v v' v'' : Volume}

variable {f : Nat → UInt8} {data : List UInt8}

theorem cells_setBlock {b : Nat}
    (hb : ∀ l, treeShape.Inner l → (v.cells F).get l ≠ 0 → (v.cells F).get l ≠ b)
    {l : Place (Nat × Nat)} (hl : treeShape.Valid l) :
    ((v.setBlock b f).cells F).get l = (v.cells F).get l := by
  obtain ⟨r, p⟩ := l
  have hroot : ((v.setBlock b f).cells F).root r = (v.cells F).root r := rfl
  refine Cells.get_congr hroot (fun q hin hne i _ => ?_) hl
  exact Volume.readBlockPtr_congr (Volume.setBlock_mapBlocks ..)
    (Volume.setBlock_block_other (hb _ hin hne)) i

theorem Good.leaf_not_inner (hg : Good ext F v) {l : Place (Nat × Nat)} (hl : treeShape.Valid l)
    (hleaf : ¬treeShape.Inner l) {b : Nat} (hb : b ∈ owns treeShape ext (v.cells F) l)
    {l' : Place (Nat × Nat)} (hin : treeShape.Inner l') (hne : (v.cells F).get l' ≠ 0) :
    (v.cells F).get l' ≠ b := by
  intro heq
  have hsame := hg.separated l l' hl hin.1 b hb (heq ▸ owns_inner hin hne)
  rw [hsame] at hleaf
  exact hleaf hin

theorem Good.setBlock (hg : Good ext F v) {b : Nat}
    (hb : ∀ l, treeShape.Inner l → (v.cells F).get l ≠ 0 → (v.cells F).get l ≠ b) :
    Good ext F (v.setBlock b f) := by
  have hget : ∀ l, treeShape.Valid l → ((v.setBlock b f).cells F).get l = (v.cells F).get l :=
    fun l hl => cells_setBlock hb hl
  refine ⟨(Volume.sameTables_setBlock v b f).sound hg.sound, hg.separated.congr hget, ?_, ?_⟩
  · intro c hc
    rw [Volume.marked_setBlock]
    exact hg.marked c ((owned_congr hget c).mp hc)
  · intro c hc
    rw [(Volume.sameTables_setBlock v b f).isDataBlock]
    exact hg.data c ((owned_congr hget c).mp hc)

theorem Grows.leaf_same {t l : Place (Nat × Nat)} (h : Grows ext t F v F' v')
    (ht : treeShape.Valid t) (hl : treeShape.Valid l) (hleaf : ¬treeShape.Inner l) (hne : l ≠ t) :
    (v'.cells F').get l = (v.cells F).get l := by
  by_contra hdiff
  obtain ⟨hroot, hpath⟩ := h.only l hl hdiff
  have hlen := hl.leaf hleaf
  have htlen := ht.1
  rw [← hroot] at htlen
  have heq := hpath.eq_of_length_le (by omega)
  obtain ⟨r, p⟩ := l
  obtain ⟨r', p'⟩ := t
  exact hne (by rw [show r = r' from hroot, show p = p' from heq])

/-- Blocks were added to one file and bytes stored in its blocks. -/
structure Extends (ext : Nat × Nat → Nat → Set Nat) (id : Nat) (F : Files) (v : Volume) (F' : Files)
    (v' : Volume) : Prop extends Adds ext F v F' v' where
  only : ∀ l, treeShape.Valid l → (v'.cells F').get l ≠ (v.cells F).get l → l.root.1 = id
  bytes : ∀ b, v.marked b = true →
    (∀ l, treeShape.Valid l → l.root.1 = id → b ∉ owns treeShape ext (v.cells F) l) →
    v'.block b = v.block b

namespace Extends

variable {id : Nat}

theorem refl (h : Good ext F v) : Extends ext id F v F v where
  toAdds := Adds.refl h
  only _ _ hne := absurd rfl hne
  bytes _ _ _ := rfl

theorem trans (hext : ∀ r, ext r 0 = ∅) (h : Extends ext id F v F' v')
    (h' : Extends ext id F' v' F'' v'') : Extends ext id F v F'' v'' where
  toAdds := h.toAdds.trans hext h'.toAdds
  only l hl hne := by
    by_cases hfirst : (v'.cells F').get l = (v.cells F).get l
    · exact h'.only l hl (by rwa [hfirst])
    · exact h.only l hl hfirst
  bytes b hmark hout := by
    rw [h'.bytes b ((h.marked b).mpr (Or.inl hmark)) ?_, h.bytes b hmark hout]
    intro l hl hroot hb
    have hsame := h.same_of_marked hext hl hmark hb
    exact hout l hl hroot (by rwa [owns, hsame] at hb)

theorem of_grows {t : Place (Nat × Nat)} (ht : t.root.1 = id) (h : Grows ext t F v F' v') :
    Extends ext id F v F' v' where
  toAdds := h.toAdds
  only l hl hne := (h.only l hl hne).1 ▸ ht
  bytes b hmark hout := by
    apply h.bytes b hmark
    intro l hl hroot heq
    have hpos : (v.cells F).get l ≠ 0 := by
      have hstart := h.good.sound.start_pos
      have hle := (Volume.marked_iff.mp hmark).1
      rw [h.tables.superblock] at hstart
      omega
    exact hout l hl.1 (hroot ▸ ht) (heq ▸ owns_inner hl hpos)

theorem of_setBlock {l : Place (Nat × Nat)} {b : Nat} {f : Nat → UInt8} (hg : Good ext F v)
    (hl : treeShape.Valid l) (hleaf : ¬treeShape.Inner l) (hroot : l.root.1 = id)
    (hb : b ∈ owns treeShape ext (v.cells F) l) : Extends ext id F v F (v.setBlock b f) := by
  have hinner : ∀ l', treeShape.Inner l' → (v.cells F).get l' ≠ 0 → (v.cells F).get l' ≠ b :=
    fun l' hin hne => hg.leaf_not_inner hl hleaf hb hin hne
  have hget : ∀ l', treeShape.Valid l' → ((v.setBlock b f).cells F).get l' = (v.cells F).get l' :=
    fun l' hl' => cells_setBlock hinner hl'
  refine ⟨⟨Volume.sameTables_setBlock v b f, hg.setBlock hinner, fun l' hl' hne => ?_, fun c => ?_,
    fun c hin hout => ?_⟩, fun l' hl' hne => ?_, fun c _ hout => ?_⟩
  · exact absurd (hget l' hl') hne
  · rw [Volume.marked_setBlock, owned_congr hget]
    simp
  · exact absurd ((owned_congr hget c).mp hin) hout
  · exact absurd (hget l' hl') hne
  · apply Volume.setBlock_block_other
    rintro rfl
    exact hout l hl hroot hb

end Extends

theorem mem_owns_raw {c : Cells (Nat × Nat)} {l : Place (Nat × Nat)} (hne : c.get l ≠ 0) :
    c.get l ∈ owns treeShape rawExtent c l := (claims_raw hne _).mpr rfl

theorem payload_congr {id : Nat} (hhas : F.has id = true) (hhas' : F'.has id = true)
    (h : ∀ idx l, leafPlace id idx = some l → ∀ k,
      v'.blockByte ((v'.cells F').get l) k = v.blockByte ((v.cells F).get l) k) (j : Nat) :
    v'.payload (F'.inode id) j = v.payload (F.inode id) j := by
  rw [Volume.payload, Volume.payload, resolveLogicalBlockId_eq hhas, resolveLogicalBlockId_eq hhas']
  cases hl : leafPlace id (j / blockSize) with
  | none => rfl
  | some l => exact h _ l hl _

theorem Grows.payload {t : Place (Nat × Nat)} {id : Nat} (h : Grows rawExtent t F v F' v')
    (hg : Good rawExtent F v) (hhas : F.has id = true) (hhas' : F'.has id = true) (j : Nat) :
    v'.payload (F'.inode id) j = v.payload (F.inode id) j := by
  refine payload_congr hhas hhas' (fun idx l hl k => ?_) j
  obtain ⟨hvalid, hleaf, -, -⟩ := leafPlace_valid hl
  by_cases hsame : (v'.cells F').get l = (v.cells F).get l
  · rw [hsame]
    by_cases hzero : (v.cells F).get l = 0
    · rw [hzero]
      rfl
    · have hown := mem_owns_raw hzero
      have hbytes := h.bytes _ (hg.marked _ ⟨l, hvalid, hown⟩) (fun l' hin _ heq =>
        hg.leaf_not_inner hvalid hleaf hown hin (by rwa [heq]) heq)
      rw [Volume.blockByte, Volume.blockByte, hbytes]
  · -- the block is new, and zeroed
    have hzero := h.empty l hvalid hsame
    have hnew : (v'.cells F').get l ≠ 0 := fun heq => hsame (heq.trans hzero.symm)
    have hown := mem_owns_raw hnew
    have hout := h.not_owned rawExtent_zero hvalid hzero hown
    have hbytes := h.zero _ ⟨l, hvalid, hown⟩ hout (fun l' hin heq =>
      h.good.leaf_not_inner hvalid hleaf hown hin (by rwa [heq]) heq)
    rw [Volume.blockByte, Volume.blockByte, if_neg hnew, hbytes, if_pos hzero]

theorem payload_setBlock {id idx b : Nat} {l : Place (Nat × Nat)}
    (hg : Good rawExtent F v) (hhas : F.has id = true) (hl : leafPlace id idx = some l)
    (hb : (v.cells F).get l = b) (hne : b ≠ 0) (j : Nat) :
    (v.setBlock b f).payload (F.inode id) j =
      if j / blockSize = idx then f (j % blockSize) else v.payload (F.inode id) j := by
  obtain ⟨hvalid, hleaf, -, -⟩ := leafPlace_valid hl
  have hown : b ∈ owns treeShape rawExtent (v.cells F) l := hb ▸ mem_owns_raw (hb ▸ hne)
  have hget : ∀ l', treeShape.Valid l' → ((v.setBlock b f).cells F).get l' = (v.cells F).get l' :=
    fun l' hl' => cells_setBlock (fun l'' hin h => hg.leaf_not_inner hvalid hleaf hown hin h) hl'
  have hmap : b < v.mapBlocks := by
    have hlt := (Volume.isDataBlock_iff.mp (hg.data b ⟨l, hvalid, hown⟩)).2.2
    have hle := hg.sound.count_le
    omega
  rw [Volume.payload, Volume.payload, resolveLogicalBlockId_eq hhas, resolveLogicalBlockId_eq hhas]
  by_cases hj : j / blockSize = idx
  · rw [if_pos hj, hj, hl, Option.map_some, Option.getD_some, hget l hvalid, hb, Volume.blockByte,
      if_neg hne, Volume.setBlock_block_same hmap]
  · rw [if_neg hj]
    cases hl' : leafPlace id (j / blockSize) with
    | none => rfl
    | some l' =>
      have hvalid' := (leafPlace_valid hl').1
      rw [Option.map_some, Option.map_some, Option.getD_some, Option.getD_some, hget l' hvalid']
      by_cases hzero : (v.cells F).get l' = 0
      · rw [hzero]
        rfl
      · have hdiff : (v.cells F).get l' ≠ b := by
          intro heq
          have hplace := hg.separated l' l hvalid' hvalid b (heq ▸ mem_owns_raw hzero) hown
          rw [hplace] at hl'
          exact hj (leafPlace_inj hl' hl).2
        rw [Volume.blockByte, Volume.blockByte, Volume.setBlock_block_other hdiff]

/-- What a store into the payload of file `id` does. -/
structure Writes (id : Nat) (F : Files) (v : Volume) (i : Inode) (v' : Volume) (off : Nat)
    (data : List UInt8) : Prop where
  grown : Extends rawExtent id F v (F.set id i) v'
  sameMeta : SameMeta (F.inode id) i
  payload : v'.payload i = patch (v.payload (F.inode id)) off data

theorem patch_patch {off n : Nat} :
    patch (patch f off (data.take n)) (off + n) (data.drop n) = patch f off data := by
  funext j
  unfold patch
  by_cases hlow : off ≤ j
  · by_cases hhigh : off + n ≤ j
    · rw [if_pos hhigh, if_pos hlow, if_pos hlow, List.getElem?_drop,
        List.getElem?_take_eq_none (by omega), Option.getD_none]
      congr 2
      omega
    · rw [if_neg hhigh, if_pos hlow, if_pos hlow, List.getElem?_take_of_lt (by omega)]
  · rw [if_neg hlow, if_neg hlow, if_neg (by omega)]

theorem getOrAllocBlock_patch {id off blk : Nat} {i : Inode}
    (hg : Good rawExtent F v) (hhas : F.has id = true)
    (h : Volume.getOrAllocBlock (F.inode id) (off / blockSize) true v = .ok (blk, i) v')
    (hfit : off % blockSize + data.length ≤ blockSize) :
    Writes id F v i (v'.setBlock blk (patch (v'.block blk) (off % blockSize) data)) off data := by
  obtain ⟨l, hl, hgrow, hget, hne, hmeta⟩ := getOrAllocBlock_ok hg hhas h
  obtain ⟨hvalid, hleaf, hroot, -⟩ := leafPlace_valid hl
  have hown : blk ∈ owns treeShape rawExtent (v'.cells (F.set id i)) l :=
    hget ▸ mem_owns_raw (hget ▸ hne)
  refine ⟨(Extends.of_grows hroot hgrow).trans rawExtent_zero
    (Extends.of_setBlock hgrow.good hvalid hleaf hroot hown), hmeta, ?_⟩
  funext j
  have hold : v'.payload i j = v.payload (F.inode id) j := by
    have hkept := hgrow.payload hg hhas hhas j
    rwa [Files.set_inode_same] at hkept
  have hnew := payload_setBlock (f := patch (v'.block blk) (off % blockSize) data) hgrow.good
    (F := F.set id i) hhas hl hget hne j
  rw [Files.set_inode_same, hold] at hnew
  rw [hnew]
  have hdecomp := Nat.div_add_mod j blockSize
  have hdecomp' := Nat.div_add_mod off blockSize
  have hlt := mod_blockSize_lt j
  by_cases hj : j / blockSize = off / blockSize
  · -- the byte lies in the block that is stored
    have hbyte : v'.block blk (j % blockSize) = v.payload (F.inode id) j := by
      rw [← hold, Volume.payload, ← Files.set_inode_same F id i,
        resolveLogicalBlockId_eq (F := F.set id i) hhas, hj, hl, Option.map_some, Option.getD_some,
        hget, Volume.blockByte, if_neg hne]
    rw [if_pos hj, patch, patch, hbyte]
    rw [hj] at hdecomp
    by_cases hle : off ≤ j
    · rw [if_pos hle, if_pos (by omega)]
      congr 2
      omega
    · rw [if_neg hle, if_neg (by omega)]
  · rw [if_neg hj, patch_out]
    by_contra hin
    refine hj (Nat.div_eq_of_lt_le ?_ ?_)
    · rw [Nat.mul_comm]
      omega
    · rw [Nat.add_mul, Nat.mul_comm]
      omega

theorem Writes.trans {id off n : Nat} {i i' : Inode} (h : Writes id F v i v' off (data.take n))
    (h' : Writes id (F.set id i) v' i' v'' (off + n) (data.drop n)) :
    Writes id F v i' v'' off data := by
  obtain ⟨hgrow, hmeta, hpay⟩ := h
  obtain ⟨hgrow', hmeta', hpay'⟩ := h'
  rw [Files.set_set] at hgrow'
  rw [Files.set_inode_same] at hmeta' hpay'
  refine ⟨hgrow.trans rawExtent_zero hgrow', hmeta.trans hmeta', ?_⟩
  rw [hpay', hpay, patch_patch]

theorem writeBufferAtOffset_ok {id off e : Nat} {i : Inode}
    (hg : Good rawExtent F v) (hhas : F.has id = true)
    (h : Volume.writeBufferAtOffset (F.inode id) off data v = .ok (e, i) v') :
    e = off + data.length ∧ Writes id F v i v' off data := by
  induction hlen : data.length using Nat.strong_induction_on generalizing F v off data with
  | h len ih =>
    rw [Volume.writeBufferAtOffset] at h
    by_cases hempty : data.isEmpty = true
    · rw [if_pos hempty] at h
      obtain ⟨hpair, rfl⟩ := DiskM.pure_ok.mp h
      obtain ⟨rfl, rfl⟩ := Prod.mk.inj hpair
      have hnil : data = [] := List.isEmpty_iff.mp hempty
      subst hnil
      refine ⟨by simp_all, ?_, SameMeta.refl _, ?_⟩
      · rw [Files.set_self]
        exact Extends.refl hg
      · funext j
        rw [patch_out (by simp; omega)]
    · rw [if_neg hempty] at h
      simp only [DiskM.bind_ok, DiskM.modify_ok] at h
      obtain ⟨⟨blk, i₁⟩, v₁, halloc, _, _, rfl, h⟩ := h
      have hpos : 0 < data.length := List.length_pos_iff.mpr (by rintro rfl; simp at hempty)
      have hmod := mod_blockSize_lt off
      have hfit : off % blockSize +
          (data.take (min data.length (blockSize - off % blockSize))).length ≤ blockSize := by
        rw [List.length_take]
        omega
      have hone := getOrAllocBlock_patch hg hhas halloc hfit
      have hdrop : (data.drop (min data.length (blockSize - off % blockSize))).length < len := by
        rw [List.length_drop]
        omega
      obtain ⟨rfl, hrest⟩ := ih _ hdrop (F := F.set id i₁) hone.grown.good hhas
        (by rw [Files.set_inode_same]; exact h) rfl
      refine ⟨by rw [List.length_drop]; omega, hone.trans hrest⟩

end Oifs
