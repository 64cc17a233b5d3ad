import Oifs.Payload
import Oifs.Outcome

namespace Oifs

open PointerForest Outcome

variable {F : Files} {v v' : Volume} {id idx off : Nat} {i : Inode} {e : DiskError}

theorem allocateBlock_error (h : Volume.allocateBlock v = .error e v') : v' = v := by
  unfold Volume.allocateBlock at h
  split at h
  next => cases h; rfl
  next =>
    dsimp only at h
    split at h
    next => cases h; rfl
    next => cases h

theorem allocAndZeroBlock_error (h : Volume.allocAndZeroBlock v = .error e v') :
    v' = v ∧ Volume.allocateBlock v = .error e v := by
  unfold Volume.allocAndZeroBlock at h
  obtain h | ⟨blk, v₁, -, h⟩ := bind_error.mp h
  · obtain rfl := allocateBlock_error h
    exact ⟨rfl, h⟩
  · cases h

theorem getOrAllocIndirectChild_error {parent k : Nat} {inter : Bool}
    (h : Volume.getOrAllocIndirectChild parent k true inter v = .error e v') : v' = v := by
  unfold Volume.getOrAllocIndirectChild at h
  rw [DiskM.get_bind] at h
  split at h
  next => cases h; rfl
  next =>
    split at h
    next => cases h; rfl
    next =>
      split at h
      next =>
        cases inter with
        | true =>
          obtain h | ⟨blk, v₁, -, h⟩ := bind_error.mp h
          · exact (allocAndZeroBlock_error h).1
          · cases h
        | false =>
          obtain h | ⟨blk, v₁, -, h⟩ := bind_error.mp h
          · exact allocateBlock_error h
          · cases h
      next => cases h

namespace Volume

/-- The allocator hands out no block. -/
def Full (v : Volume) : Prop := ∃ e, allocateBlock v = .error e v

instance (v : Volume) : Decidable v.Full :=
  match h : allocateBlock v with
  | .ok n w => .isFalse fun hfull => by
      obtain ⟨e, he⟩ := hfull
      cases h.symm.trans he
  | .error e w => .isTrue ⟨e, by rw [h, allocateBlock_error h]⟩

end Volume

/-- The slot of the inode on the way to block `idx`. -/
def Inode.wayRoot (i : Inode) (idx : Nat) : Nat :=
  match BlockPath.fromLogical idx with
  | some (.direct k) => i.slot k
  | some (.single _) => i.slot 10
  | some (.double _ _) => i.slot 11
  | some (.triple _ _ _) => i.slot 12
  | none => 0

theorem wayRoot_eq {l : Place (Nat × Nat)} (hl : leafPlace id idx = some l) :
    i.wayRoot idx = i.slot l.root.2 := by
  obtain ⟨path, hpath, rfl⟩ := Option.map_eq_some_iff.mp hl
  unfold Inode.wayRoot
  rw [hpath]
  cases path <;> rfl

theorem Grows.slots_kept {t : Place (Nat × Nat)} {s : Nat} (h : Grows rawExtent t F v (F.set id i) v')
    (hhas : F.has id = true) (ht : t.root = (id, s)) (hne : i.slot s ≠ 0) :
    (∀ k, i.slot k = (F.inode id).slot k) ↔ (F.inode id).slot s ≠ 0 := by
  have hold : ∀ k, (v.cells F).get ⟨(id, k), []⟩ = (F.inode id).slot k := fun k => v.cells_root hhas k
  have hnew : ∀ k, (v'.cells (F.set id i)).get ⟨(id, k), []⟩ = i.slot k := by
    intro k
    rw [Cells.get_root, v'.cells_root (F := F.set id i) hhas, Files.set_inode_same]
  refine ⟨fun hsame => hsame s ▸ hne, fun hroot k => ?_⟩
  by_contra hdiff
  have hchanged : (v'.cells (F.set id i)).get ⟨(id, k), []⟩ ≠ (v.cells F).get ⟨(id, k), []⟩ := by
    rwa [hold, hnew]
  have hvalid : treeShape.Valid ⟨(id, k), []⟩ := ⟨Nat.zero_le _, by simp⟩
  have hk : (id, k) = (id, s) := (h.only _ hvalid hchanged).1.trans ht
  obtain rfl := (Prod.mk.inj hk).2
  exact hroot ((hold k).symm.trans (h.empty _ hvalid hchanged))

/-- A slot of the inode, filled from `alloc` if it is empty. -/
def takeSlot (alloc : DiskM Nat) (error : Nat → DiskError) (i : Inode) (s : Nat) :
    DiskM (Nat × Inode) := do
  let inode ←
    if i.slot s = 0 ∧ true then do
      let blk ← alloc
      pure (i.setSlot s blk)
    else pure i
  let v ← get
  let blk := inode.slot s
  if blk ≠ 0 ∧ !v.isDataBlock blk then throw (error blk)
  else return (blk, inode)

theorem takeSlot_error {s : Nat} {alloc : DiskM Nat} (error : Nat → DiskError) (hs : s ≤ 12)
    (halloc : ∀ {n v₁}, alloc v = .ok n v₁ → v.Allocates n v₁)
    (h : takeSlot alloc error i s v = .error e v') :
    i.slot s ≠ 0 ∧ v' = v ∨ i.slot s = 0 ∧ alloc v = .error e v' := by
  unfold takeSlot at h
  by_cases hzero : i.slot s = 0
  · refine .inr ⟨hzero, ?_⟩
    rw [if_pos ⟨hzero, rfl⟩] at h
    obtain h | ⟨n, v₁, hn, h⟩ := bind_error.mp h
    · exact h
    · obtain h | ⟨j, v₂, hok, h⟩ := bind_error.mp h
      · cases h
      obtain ⟨rfl, rfl⟩ := DiskM.pure_ok.mp hok
      have ha := halloc hn
      dsimp only at h
      rw [DiskM.get_bind, Inode.slot_setSlot_same i hs, if_neg ?_] at h
      · cases h
      · rw [ha.tables.isDataBlock, ha.data]
        simp
  · refine .inl ⟨hzero, ?_⟩
    rw [if_neg fun h => hzero h.1] at h
    obtain h | ⟨j, v₁, hok, h⟩ := bind_error.mp h
    · cases h
    · obtain ⟨rfl, rfl⟩ := DiskM.pure_ok.mp hok
      dsimp only at h
      rw [DiskM.get_bind] at h
      split at h
      next =>
        cases h
        rfl
      next => cases h

theorem takeSlot_inv {s blk : Nat} {i' : Inode} {alloc : DiskM Nat} (error : Nat → DiskError)
    (h : takeSlot alloc error i s v = .ok (blk, i') v') :
    i.slot s ≠ 0 ∧ i' = i ∨ i.slot s = 0 ∧ i'.slot s = blk ∧ ∃ n v₁, alloc v = .ok n v₁ := by
  unfold takeSlot at h
  by_cases hzero : i.slot s = 0
  · rw [if_pos ⟨hzero, rfl⟩] at h
    obtain ⟨n, v₁, hn, h⟩ := DiskM.bind_ok.mp h
    obtain ⟨j, v₂, hok, h⟩ := DiskM.bind_ok.mp h
    dsimp only at h
    rw [DiskM.get_bind] at h
    split at h
    next => cases h
    next =>
      obtain ⟨hpair, rfl⟩ := DiskM.pure_ok.mp h
      obtain ⟨rfl, rfl⟩ := Prod.mk.inj hpair
      exact .inr ⟨hzero, rfl, n, v₁, hn⟩
  · rw [if_neg fun h => hzero h.1] at h
    obtain ⟨j, v₁, hok, h⟩ := DiskM.bind_ok.mp h
    obtain ⟨rfl, rfl⟩ := DiskM.pure_ok.mp hok
    dsimp only at h
    rw [DiskM.get_bind] at h
    split at h
    next => cases h
    next =>
      obtain ⟨hpair, rfl⟩ := DiskM.pure_ok.mp h
      obtain ⟨rfl, rfl⟩ := Prod.mk.inj hpair
      exact .inl ⟨hzero, rfl⟩

/-- What a failed search for a block leaves behind: the pointer blocks it has linked. -/
structure Left (id : Nat) (F : Files) (v : Volume) (i : Inode) (v' : Volume) : Prop where
  grown : Extends rawExtent id F v (F.set id i) v'
  sameMeta : SameMeta (F.inode id) i
  payload : v'.payload i = v.payload (F.inode id)

theorem Left.refl (hg : Good rawExtent F v) : Left id F v (F.inode id) v where
  grown := by
    rw [Files.set_self]
    exact Extends.refl hg
  sameMeta := SameMeta.refl _
  payload := rfl

theorem Left.of_grows {t : Place (Nat × Nat)} (h : Grows rawExtent t F v (F.set id i) v')
    (hg : Good rawExtent F v) (hhas : F.has id = true) (ht : t.root.1 = id)
    (hmeta : SameMeta (F.inode id) i) : Left id F v i v' where
  grown := Extends.of_grows ht h
  sameMeta := hmeta
  payload := by
    funext j
    have hhas' : (F.set id i).has id = true := hhas
    have hkept := h.payload hg hhas hhas' j
    rwa [Files.set_inode_same] at hkept

/-- The first part of the way to a block behind an indirect root. -/
theorem ensureRoot_then {s : Nat} {t : Place (Nat × Nat)} {rest : Nat × Inode → DiskM (Nat × Inode)}
    (hg : Good rawExtent F v) (hhas : F.has id = true) (hlo : 10 ≤ s) (hhi : s ≤ 12)
    (ht : t.root = (id, s))
    (hrest : ∀ {root : Nat} {i : Inode} {v₁ : Volume}, root ≠ 0 →
      (v₁.cells (F.set id i)).get ⟨(id, s), []⟩ = root → Good rawExtent (F.set id i) v₁ →
      rest (root, i) v₁ = .error e v' → Grows rawExtent t (F.set id i) v₁ (F.set id i) v')
    (h : (Volume.ensureRoot (F.inode id) s true >>= rest) v = .error e v') :
    ∃ i, Left id F v i v' ∧ ((∀ k, i.slot k = (F.inode id).slot k) ↔
      (F.inode id).slot s ≠ 0 ∨ v.Full) := by
  obtain h | ⟨⟨root, i⟩, v₁, hroot, h⟩ := bind_error.mp h
  · -- nothing was linked yet
    refine ⟨F.inode id, ?_⟩
    obtain ⟨hne, rfl⟩ | ⟨-, hfull⟩ := takeSlot_error
      (fun root => .io s!"Indirect root {root} is outside the data area") hhi
      (Volume.allocAndZeroBlock_ok hg.sound) h
    · exact ⟨Left.refl hg, fun _ => .inl hne, fun _ _ => rfl⟩
    · obtain ⟨rfl, hfull⟩ := allocAndZeroBlock_error hfull
      exact ⟨Left.refl hg, fun _ => .inr ⟨e, hfull⟩, fun _ _ => rfl⟩
  · obtain ⟨hgrow, hget, hne, hmeta⟩ := ensureRoot_ok (t := t) rawExtent_zero hg hhas hlo hhi ht hroot
    have hgrow' := hgrow.trans rawExtent_zero (hrest hne hget hgrow.good h)
    have hslot : i.slot s = root := by
      rw [← hget, Cells.get_root, v₁.cells_root (F := F.set id i) hhas, Files.set_inode_same]
    refine ⟨i, Left.of_grows hgrow' hg hhas (by rw [ht]) hmeta, ?_⟩
    rw [hgrow'.slots_kept hhas ht (by rwa [hslot])]
    refine ⟨.inl, ?_⟩
    rintro (hthere | ⟨e', hfull⟩)
    · exact hthere
    obtain ⟨hthere, -⟩ | ⟨-, -, n, v₂, hn⟩ := takeSlot_inv
      (fun root => .io s!"Indirect root {root} is outside the data area") hroot
    · exact hthere
    · obtain ⟨n', v₃, halloc, -⟩ := DiskM.bind_ok.mp hn
      rw [hfull] at halloc
      cases halloc

theorem getOrAllocIndirectChild_stays {t : Place (Nat × Nat)} {parent k : Nat} {inter : Bool}
    (hg : Good rawExtent F v) (h : Volume.getOrAllocIndirectChild parent k true inter v = .error e v') :
    Grows rawExtent t F v F v' := by
  obtain rfl := getOrAllocIndirectChild_error h
  exact Grows.refl hg

/-- A search for a block that fails takes a slot of the inode only if that slot is empty and a block
is free. -/
theorem getOrAllocBlock_error (hg : Good rawExtent F v) (hhas : F.has id = true)
    (h : Volume.getOrAllocBlock (F.inode id) idx true v = .error e v') :
    ∃ i, Left id F v i v' ∧ ((∀ k, i.slot k = (F.inode id).slot k) ↔
      (F.inode id).wayRoot idx ≠ 0 ∨ v.Full ∨ maxLogicalBlocks ≤ idx) := by
  unfold Volume.getOrAllocBlock at h
  unfold Inode.wayRoot
  cases hp : BlockPath.fromLogical idx with
  | none =>
    rw [hp] at h
    cases h
    exact ⟨_, Left.refl hg, fun _ => .inr (.inr (BlockPath.fromLogical_none_iff.mp hp)), fun _ _ => rfl⟩
  | some path =>
    have hslots := (BlockPath.fromLogical_some hp).1
    have hlt : ¬maxLogicalBlocks ≤ idx := by
      rw [← BlockPath.fromLogical_none_iff, hp]
      exact Option.some_ne_none path
    rw [hp] at h
    dsimp only at h
    simp only [hlt, or_false]
    cases path with
    | direct s =>
      have hs : s < 10 := hslots
      refine ⟨F.inode id, ?_⟩
      obtain ⟨hne, rfl⟩ | ⟨-, hfull⟩ := takeSlot_error
        (fun blk => .io s!"Block pointer {blk} is outside the data area") (by omega)
        (Volume.allocateBlock_ok hg.sound) h
      · exact ⟨Left.refl hg, fun _ => .inl hne, fun _ _ => rfl⟩
      · obtain rfl := allocateBlock_error hfull
        exact ⟨Left.refl hg, fun _ => .inr ⟨e, hfull⟩, fun _ _ => rfl⟩
    | single a =>
      refine ensureRoot_then (t := BlockPath.place id (.single a)) hg hhas (by decide) (by decide) rfl
        (fun hne hget hgood h => ?_) h
      dsimp only at h
      rw [if_neg hne] at h
      obtain h | ⟨_, _, -, h⟩ := bind_error.mp h
      · exact getOrAllocIndirectChild_stays hgood h
      · cases h
    | double a b =>
      refine ensureRoot_then (t := BlockPath.place id (.double a b)) hg hhas (by decide) (by decide) rfl
        (fun hne hget hgood h => ?_) h
      dsimp only at h
      rw [if_neg hne] at h
      obtain h | ⟨sib, v₂, hmid, h⟩ := bind_error.mp h
      · exact getOrAllocIndirectChild_stays hgood h
      obtain ⟨hgrow₂, -, hne₂⟩ := getOrAllocIndirectChild_ok
        (t := BlockPath.place id (.double a b)) rawExtent_zero hgood (inner_mk (by decide) (by simp))
        hslots.1 hget hne (fun n hn => claims_raw hn) rfl (List.suffix_cons ..) hmid
      rw [if_neg hne₂] at h
      obtain h | ⟨_, _, -, h⟩ := bind_error.mp h
      · exact hgrow₂.trans rawExtent_zero (getOrAllocIndirectChild_stays hgrow₂.good h)
      · cases h
    | triple a b c =>
      obtain ⟨ha, hb, -⟩ := hslots
      refine ensureRoot_then (t := BlockPath.place id (.triple a b c)) hg hhas (by decide) (by decide) rfl
        (fun hne hget hgood h => ?_) h
      dsimp only at h
      rw [if_neg hne] at h
      obtain h | ⟨dib, v₂, hmid, h⟩ := bind_error.mp h
      · exact getOrAllocIndirectChild_stays hgood h
      obtain ⟨hgrow₂, hget₂, hne₂⟩ := getOrAllocIndirectChild_ok
        (t := BlockPath.place id (.triple a b c)) rawExtent_zero hgood (inner_mk (by decide) (by simp))
        ha hget hne (fun n hn => claims_raw hn) rfl
        ((List.suffix_cons _ _).trans (List.suffix_cons ..)) hmid
      rw [if_neg hne₂] at h
      obtain h | ⟨sib, v₃, hlow, h⟩ := bind_error.mp h
      · exact hgrow₂.trans rawExtent_zero (getOrAllocIndirectChild_stays hgrow₂.good h)
      obtain ⟨hgrow₃, -, hne₃⟩ := getOrAllocIndirectChild_ok
        (t := BlockPath.place id (.triple a b c)) rawExtent_zero hgrow₂.good
        (inner_mk (by simp) (by simpa using ha)) hb hget₂ hne₂ (fun n hn => claims_raw hn) rfl
        (List.suffix_cons ..) hlow
      have hboth := hgrow₂.trans rawExtent_zero hgrow₃
      rw [if_neg hne₃] at h
      obtain h | ⟨_, _, -, h⟩ := bind_error.mp h
      · exact hboth.trans rawExtent_zero (getOrAllocIndirectChild_stays hboth.good h)
      · cases h

theorem wayRoot_congr {j : Inode} (h : ∀ k, j.slot k = i.slot k) : j.wayRoot idx = i.wayRoot idx := by
  unfold Inode.wayRoot
  split <;> first | exact h _ | rfl

theorem Adds.slot_keeps (h : Adds rawExtent F v (F.set id i) v') (hhas : F.has id = true) {k : Nat}
    (hne : (F.inode id).slot k ≠ 0) : i.slot k = (F.inode id).slot k := by
  have hvalid : treeShape.Valid ⟨(id, k), []⟩ := ⟨Nat.zero_le _, by simp⟩
  have hkeep := h.keeps hvalid (by rwa [Cells.get_root, v.cells_root hhas])
  rwa [Cells.get_root, Cells.get_root, v.cells_root hhas, v'.cells_root (F := F.set id i) hhas,
    Files.set_inode_same] at hkeep

theorem getOrAllocBlock_slots {blk : Nat} (hg : Good rawExtent F v) (hhas : F.has id = true)
    (h : Volume.getOrAllocBlock (F.inode id) idx true v = .ok (blk, i) v') :
    (∀ k, i.slot k = (F.inode id).slot k) ↔ (F.inode id).wayRoot idx ≠ 0 := by
  obtain ⟨⟨⟨j, s⟩, q⟩, hl, hgrow, hget, hne, -⟩ := getOrAllocBlock_ok hg hhas h
  obtain rfl : j = id := (leafPlace_valid hl).2.2.1
  rw [wayRoot_eq hl]
  refine hgrow.slots_kept hhas rfl fun hzero => hne ?_
  have hroot : (v'.cells (F.set j i)).get ⟨(j, s), []⟩ = 0 := by
    rw [Cells.get_root, v'.cells_root (F := F.set j i) hhas, Files.set_inode_same, hzero]
  rw [← hget, ← List.append_nil q]
  exact Cells.get_below_zero hroot q

theorem kept_trans {i₁ i₂ : Inode} {v₁ : Volume} (h₁ : Adds rawExtent F v (F.set id i₁) v₁)
    (h₂ : Adds rawExtent (F.set id i₁) v₁ (F.set id i₂) v') (hhas : F.has id = true) :
    (∀ k, i₂.slot k = (F.inode id).slot k) ↔
      (∀ k, i₁.slot k = (F.inode id).slot k) ∧ ∀ k, i₂.slot k = i₁.slot k := by
  have hlater : ∀ {k}, i₁.slot k ≠ 0 → i₂.slot k = i₁.slot k := by
    intro k hne
    have hset : (F.set id i₁).inode id = i₁ := Files.set_inode_same ..
    have hadds : Adds rawExtent (F.set id i₁) v₁ ((F.set id i₁).set id i₂) v' := by rwa [Files.set_set]
    have hkeep := hadds.slot_keeps hhas (by rwa [hset])
    rwa [hset] at hkeep
  constructor
  · intro hsame
    have hfirst : ∀ k, i₁.slot k = (F.inode id).slot k := by
      intro k
      by_cases hold : (F.inode id).slot k = 0
      · by_contra hdiff
        rw [hold] at hdiff
        exact hdiff ((hlater hdiff).symm.trans ((hsame k).trans hold))
      · exact h₁.slot_keeps hhas hold
    exact ⟨hfirst, fun k => (hsame k).trans (hfirst k).symm⟩
  · rintro ⟨hfirst, hsecond⟩ k
    exact (hsecond k).trans (hfirst k)

/-- The bytes that go to the block at `off`. -/
def firstPart (off : Nat) (data : List UInt8) : Nat := min data.length (blockSize - off % blockSize)

theorem writeBufferAtOffset_nil : Volume.writeBufferAtOffset i off [] = pure (off, i) := by
  rw [Volume.writeBufferAtOffset]
  exact if_pos List.isEmpty_nil

variable {data : List UInt8}

theorem writeBufferAtOffset_eq (hdata : data ≠ []) :
    Volume.writeBufferAtOffset i off data = (do
      let r ← Volume.getOrAllocBlock i (off / blockSize) true
      modify fun v => v.setBlock r.1 (patch (v.block r.1) (off % blockSize)
        (data.take (firstPart off data)))
      Volume.writeBufferAtOffset r.2 (off + firstPart off data) (data.drop (firstPart off data))) := by
  rw [Volume.writeBufferAtOffset, if_neg (by simpa using hdata)]
  rfl

theorem firstPart_pos (off : Nat) (hdata : data ≠ []) : 0 < firstPart off data := by
  have hmod := mod_blockSize_lt off
  have hpos := List.length_pos_iff.mpr hdata
  unfold firstPart
  omega

theorem firstPart_same {k : Nat} (hk : k < firstPart off data) :
    (off + k) / blockSize = off / blockSize := by
  have hdecomp := Nat.div_add_mod off blockSize
  unfold firstPart at hk
  refine Nat.div_eq_of_lt_le ?_ ?_
  · rw [Nat.mul_comm]
    omega
  · rw [Nat.add_mul, Nat.mul_comm]
    omega

theorem writeBufferAtOffset_slots {n : Nat} (hg : Good rawExtent F v)
    (hhas : F.has id = true) (h : Volume.writeBufferAtOffset (F.inode id) off data v = .ok (n, i) v') :
    (∀ k, i.slot k = (F.inode id).slot k) ↔
      ∀ k, k < data.length → (F.inode id).wayRoot ((off + k) / blockSize) ≠ 0 := by
  induction hlen : data.length using Nat.strong_induction_on generalizing F v off data with
  | h len ih =>
    by_cases hempty : data = []
    · subst hempty
      rw [writeBufferAtOffset_nil] at h
      obtain ⟨hpair, rfl⟩ := DiskM.pure_ok.mp h
      obtain ⟨rfl, rfl⟩ := Prod.mk.inj hpair
      cases hlen
      simp
    · rw [writeBufferAtOffset_eq hempty] at h
      simp only [DiskM.bind_ok, DiskM.modify_ok] at h
      obtain ⟨⟨blk, i₁⟩, v₁, halloc, _, _, rfl, h⟩ := h
      have hpos := firstPart_pos off hempty
      have hle : firstPart off data ≤ data.length := Nat.min_le_left ..
      have hfit : off % blockSize + (data.take (firstPart off data)).length ≤ blockSize := by
        have hmod := mod_blockSize_lt off
        rw [List.length_take]
        unfold firstPart
        omega
      have hone := getOrAllocBlock_patch hg hhas halloc hfit
      have hset : (F.set id i₁).inode id = i₁ := Files.set_inode_same ..
      dsimp only at h
      rw [← hset] at h
      have hrest := ih _ (by rw [List.length_drop]; omega) hone.grown.good (F := F.set id i₁) hhas h rfl
      have hwrites := (writeBufferAtOffset_ok (F := F.set id i₁) hone.grown.good hhas h).2
      have hgrown := hwrites.grown.toAdds
      rw [Files.set_set] at hgrown
      rw [hset, List.length_drop] at hrest
      rw [kept_trans hone.grown.toAdds hgrown hhas, getOrAllocBlock_slots hg hhas halloc]
      constructor
      · rintro ⟨hfirst, hkept⟩ k hk
        by_cases hin : k < firstPart off data
        · rwa [firstPart_same hin]
        · have hsame := (getOrAllocBlock_slots hg hhas halloc).mpr hfirst
          have hway := hrest.mp hkept (k - firstPart off data) (by omega)
          rw [wayRoot_congr hsame] at hway
          rwa [show off + firstPart off data + (k - firstPart off data) = off + k by omega] at hway
      · intro hall
        have hfirst : (F.inode id).wayRoot (off / blockSize) ≠ 0 := hall 0 (by omega)
        refine ⟨hfirst, hrest.mpr fun k hk => ?_⟩
        rw [wayRoot_congr ((getOrAllocBlock_slots hg hhas halloc).mpr hfirst), Nat.add_assoc]
        exact hall _ (by omega)

/-- Where a store stops: the bytes that were stored and the image then, if a block is missing. -/
def Volume.storeStop (inode : Inode) (offset : Nat) (data : List UInt8) (v : Volume) :
    Option (Nat × Volume) :=
  if _h : data = [] then none
  else
    match getOrAllocBlock inode (offset / blockSize) true v with
    | .error _ _ => some (0, v)
    | .ok (blk, inode) v =>
      let part := firstPart offset data
      let v := v.setBlock blk (patch (v.block blk) (offset % blockSize) (data.take part))
      (storeStop inode (offset + part) (data.drop part) v).map fun s => (part + s.1, s.2)
termination_by data.length
decreasing_by
  have hpos := firstPart_pos offset _h
  have hlen := List.length_pos_iff.mpr _h
  rw [List.length_drop]
  omega

/-- A store that fails has stored the first bytes and got no block for the next. -/
theorem writeBufferAtOffset_stops (h : Volume.writeBufferAtOffset i off data v = .error e v') :
    ∃ n j w, n < data.length ∧ Volume.storeStop i off data v = some (n, w) ∧
      Volume.writeBufferAtOffset i off (data.take n) v = .ok (off + n, j) w ∧
      Volume.getOrAllocBlock j ((off + n) / blockSize) true w = .error e v' := by
  induction hlen : data.length using Nat.strong_induction_on generalizing i v off data with
  | h len ih =>
    have hempty : data ≠ [] := by
      rintro rfl
      rw [writeBufferAtOffset_nil] at h
      cases h
    have hpos := firstPart_pos off hempty
    have hle : firstPart off data ≤ data.length := Nat.min_le_left ..
    rw [Volume.storeStop, dif_neg hempty]
    rw [writeBufferAtOffset_eq hempty] at h
    obtain h | ⟨⟨blk, i₁⟩, v₁, halloc, h⟩ := bind_error.mp h
    · rw [h]
      refine ⟨0, i, v, by omega, rfl, ?_, h⟩
      rw [List.take_zero, writeBufferAtOffset_nil]
      rfl
    · obtain h | ⟨_, v₂, hmodify, h⟩ := bind_error.mp h
      · cases h
      obtain ⟨n, j, w, hn, hstop, hok, hfail⟩ := ih _ (by rw [List.length_drop]; omega) h rfl
      rw [List.length_drop] at hn
      have hpart : firstPart off (data.take (firstPart off data + n)) = firstPart off data := by
        unfold firstPart
        rw [List.length_take]
        omega
      have htake : data.take (firstPart off data + n) ≠ [] := by
        rw [← List.length_pos_iff, List.length_take]
        omega
      refine ⟨firstPart off data + n, j, w, by omega, ?_, ?_, by rwa [← Nat.add_assoc]⟩
      · obtain rfl := DiskM.modify_ok.mp hmodify
        rw [halloc]
        dsimp only at hstop ⊢
        rw [hstop, Option.map_some]
      · rw [writeBufferAtOffset_eq htake, hpart]
        refine DiskM.bind_ok.mpr ⟨(blk, i₁), v₁, halloc, DiskM.bind_ok.mpr ⟨(), v₂, ?_, ?_⟩⟩
        · rw [List.take_take, Nat.min_eq_left (by omega)]
          exact hmodify
        · rw [List.drop_take, Nat.add_sub_cancel_left, ← Nat.add_assoc]
          exact hok

/-- What a failing store leaves behind: the first `n` bytes, and taken slots unless the ways to the
blocks start in slots that are set. -/
theorem writeBufferAtOffset_error (hg : Good rawExtent F v) (hhas : F.has id = true)
    (h : Volume.writeBufferAtOffset (F.inode id) off data v = .error e v') :
    ∃ n w i, n < data.length ∧ Volume.storeStop (F.inode id) off data v = some (n, w) ∧
      Writes id F v i v' off (data.take n) ∧ ((∀ k, i.slot k = (F.inode id).slot k) ↔
        (∀ k, k < n → (F.inode id).wayRoot ((off + k) / blockSize) ≠ 0) ∧
        ((F.inode id).wayRoot ((off + n) / blockSize) ≠ 0 ∨ w.Full ∨
          maxLogicalBlocks ≤ (off + n) / blockSize)) := by
  obtain ⟨n, j, w, hn, hstop, hok, hfail⟩ := writeBufferAtOffset_stops h
  obtain ⟨-, hwrites⟩ := writeBufferAtOffset_ok hg hhas hok
  have hset : (F.set id j).inode id = j := Files.set_inode_same ..
  rw [← hset] at hfail
  obtain ⟨i, hleft, hslots⟩ := getOrAllocBlock_error hwrites.grown.good hhas hfail
  obtain ⟨hgrown, hmeta, hpay⟩ := hleft
  rw [hset] at hslots hmeta hpay
  rw [Files.set_set] at hgrown
  have hkept := writeBufferAtOffset_slots hg hhas hok
  rw [List.length_take, Nat.min_eq_left hn.le] at hkept
  refine ⟨n, w, i, hn, hstop, ⟨hwrites.grown.trans rawExtent_zero hgrown,
    hwrites.sameMeta.trans hmeta, hpay.trans hwrites.payload⟩, ?_⟩
  rw [kept_trans hwrites.grown.toAdds hgrown.toAdds hhas, hslots, hkept]
  refine and_congr_right fun hways => ?_
  rw [wayRoot_congr (hkept.mpr hways)]

end Oifs
