import Oifs.BlockTree

namespace Oifs

open PointerForest

variable {ext : Nat × Nat → Nat → Set Nat} {t : Place (Nat × Nat)} {F F' : Files} {v v' : Volume}

/-- The child is there afterwards, and only the way to it has grown. -/
theorem getOrAllocIndirectChild_ok (hext : ∀ r, ext r 0 = ∅) {r : Nat × Nat} {q : List Nat}
    {i parent child : Nat} {inter : Bool} (hg : Good ext F v) (hin : treeShape.Inner ⟨r, q⟩)
    (hi : i < ptrsPerBlock) (hp : (v.cells F).get ⟨r, q⟩ = parent) (hne : parent ≠ 0)
    (hclaims : ∀ n, n ≠ 0 → ∀ b, b ∈ claims treeShape ext ⟨r, i :: q⟩ n ↔ b = n)
    (hroot : r = t.root) (hpath : (i :: q) <:+ t.path)
    (h : Volume.getOrAllocIndirectChild parent i true inter v = .ok child v') :
    Grows ext t F v F v' ∧ (v'.cells F).get ⟨r, i :: q⟩ = child ∧ child ≠ 0 := by
  unfold Volume.getOrAllocIndirectChild at h
  rw [DiskM.get_bind] at h
  split at h
  next => simp at h
  next =>
    split at h
    next => simp at h
    next =>
      split at h
      next hzero =>
        have hex : ∃ n v₁, v.Allocates n v₁ ∧ n = child ∧ v₁.writeBlockPtr parent i n = v' := by
          cases inter with
          | true =>
            simp only [if_true, DiskM.bind_ok, DiskM.modify_ok, DiskM.pure_ok] at h
            obtain ⟨n, v₁, halloc, _, _, rfl, rfl, rfl⟩ := h
            exact ⟨n, v₁, Volume.allocAndZeroBlock_ok hg.sound halloc, rfl, rfl⟩
          | false =>
            simp only [Bool.false_eq_true, if_false, DiskM.bind_ok, DiskM.modify_ok,
              DiskM.pure_ok] at h
            obtain ⟨n, v₁, halloc, _, _, rfl, rfl, rfl⟩ := h
            exact ⟨n, v₁, Volume.allocateBlock_ok hg.sound halloc, rfl, rfl⟩
        obtain ⟨n, v₁, ha, rfl, rfl⟩ := hex
        have hn := (Volume.isDataBlock_iff.mp ha.data).1
        subst hp
        obtain ⟨hgrow, hget⟩ :=
          Grows.link_child hext hg ha hin hi hne hzero.1 (hclaims n hn) hroot hpath
        exact ⟨hgrow, hget, hn⟩
      next hsome =>
        rw [DiskM.pure_ok] at h
        obtain ⟨rfl, rfl⟩ := h
        have hchild : v.readBlockPtr parent i ≠ 0 := by
          intro hz
          exact hsome ⟨hz, rfl⟩
        refine ⟨Grows.refl hg, ?_, hchild⟩
        rw [Cells.get_cons, hp, if_neg hne]
        rfl

theorem inner_mk {id s : Nat} {q : List Nat} (hlen : q.length < s - 9)
    (hq : ∀ i ∈ q, i < ptrsPerBlock) : treeShape.Inner ⟨(id, s), q⟩ := ⟨⟨hlen.le, hq⟩, hlen⟩

theorem takeSlot_ok (hext : ∀ r, ext r 0 = ∅) {id s blk : Nat} {i : Inode} {alloc : DiskM Nat}
    (error : Nat → DiskError) (hg : Good ext F v) (hhas : F.has id = true) (hs : s ≤ 12)
    (ht : t.root = (id, s)) (halloc : ∀ {n v₁}, alloc v = .ok n v₁ → v.Allocates n v₁)
    (hclaims : ∀ n, n ≠ 0 → ∀ b, b ∈ claims treeShape ext ⟨(id, s), []⟩ n ↔ b = n)
    (h : (do
      let inode ←
        if (F.inode id).slot s = 0 ∧ true then do
          let blk ← alloc
          pure ((F.inode id).setSlot s blk)
        else pure (F.inode id)
      let v ← get
      let blk := inode.slot s
      if blk ≠ 0 ∧ !v.isDataBlock blk then throw (error blk)
      else return (blk, inode) : DiskM (Nat × Inode)) v = .ok (blk, i) v') :
    Grows ext t F v (F.set id i) v' ∧ (v'.cells (F.set id i)).get ⟨(id, s), []⟩ = blk ∧
      blk ≠ 0 ∧ SameMeta (F.inode id) i := by
  by_cases hzero : (F.inode id).slot s = 0
  · simp only [hzero, true_and, if_true, DiskM.bind_ok, DiskM.get_ok, DiskM.pure_ok] at h
    obtain ⟨n, v₁, hok, _, _, ⟨rfl, rfl⟩, _, _, ⟨rfl, rfl⟩, h⟩ := h
    have ha := halloc hok
    have hn := (Volume.isDataBlock_iff.mp ha.data).1
    rw [Inode.slot_setSlot_same _ hs] at h
    split at h
    next => simp at h
    next =>
      simp only [DiskM.pure_ok, Prod.mk.injEq] at h
      obtain ⟨⟨rfl, rfl⟩, rfl⟩ := h
      obtain ⟨hgrow, hget⟩ := Grows.link_root hext hg ha hhas hs hzero (hclaims n hn) ht
      exact ⟨hgrow, hget, hn, sameMeta_setSlot _ _ _⟩
  · simp only [hzero, false_and, if_false, DiskM.bind_ok, DiskM.get_ok, DiskM.pure_ok] at h
    obtain ⟨_, _, ⟨rfl, rfl⟩, _, _, ⟨rfl, rfl⟩, h⟩ := h
    split at h
    next => simp at h
    next =>
      simp only [DiskM.pure_ok, Prod.mk.injEq] at h
      obtain ⟨⟨rfl, rfl⟩, rfl⟩ := h
      rw [Files.set_self]
      exact ⟨Grows.refl hg, v.cells_root hhas s, hzero, SameMeta.refl _⟩

theorem ensureRoot_ok (hext : ∀ r, ext r 0 = ∅) {id s root : Nat} {i : Inode} (hg : Good ext F v)
    (hhas : F.has id = true) (hlo : 10 ≤ s) (hhi : s ≤ 12) (ht : t.root = (id, s))
    (h : Volume.ensureRoot (F.inode id) s true v = .ok (root, i) v') :
    Grows ext t F v (F.set id i) v' ∧ (v'.cells (F.set id i)).get ⟨(id, s), []⟩ = root ∧
      root ≠ 0 ∧ SameMeta (F.inode id) i := by
  have hin : treeShape.Inner ⟨(id, s), []⟩ := inner_mk (by simp; omega) (by simp)
  exact takeSlot_ok hext (fun root => .io s!"Indirect root {root} is outside the data area") hg
    hhas hhi ht (Volume.allocAndZeroBlock_ok hg.sound) (fun n hn => claims_inner hin hn) h

def BlockPath.place (id : Nat) : BlockPath → Place (Nat × Nat)
  | direct i => ⟨(id, i), []⟩
  | single i => ⟨(id, 10), [i]⟩
  | double a b => ⟨(id, 11), [b, a]⟩
  | triple a b c => ⟨(id, 12), [c, b, a]⟩

theorem BlockPath.place_valid {id : Nat} {path : BlockPath} (h : path.SlotsInBounds) :
    treeShape.Valid (path.place id) ∧ ¬treeShape.Inner (path.place id) ∧
      (path.place id).root.1 = id ∧ (path.place id).root.2 ≤ 12 := by
  cases path with
  | direct i =>
    have hi : i < 10 := h
    refine ⟨⟨Nat.zero_le _, by simp [place]⟩, fun hin => ?_, rfl, ?_⟩
    · have hlt : 0 < i - 9 := hin.2
      omega
    · change i ≤ 12
      omega
  | single i =>
    exact ⟨⟨le_rfl, by simpa [place, treeShape, SlotsInBounds] using h⟩,
      fun hin => Nat.lt_irrefl _ hin.2, rfl, (by decide : 10 ≤ 12)⟩
  | double a b =>
    exact ⟨⟨le_rfl, by simpa [place, treeShape, SlotsInBounds] using h.symm⟩,
      fun hin => Nat.lt_irrefl _ hin.2, rfl, (by decide : 11 ≤ 12)⟩
  | triple a b c =>
    obtain ⟨ha, hb, hc⟩ := h
    exact ⟨⟨le_rfl, by simpa [place, treeShape, SlotsInBounds] using ⟨hc, hb, ha⟩⟩,
      fun hin => Nat.lt_irrefl _ hin.2, rfl, le_rfl⟩

theorem BlockPath.place_inj {id j : Nat} {path path' : BlockPath}
    (h : path.place id = path'.place j) : id = j ∧ path = path' := by
  cases path <;> cases path' <;> simp_all [place]

def leafPlace (id idx : Nat) : Option (Place (Nat × Nat)) :=
  (BlockPath.fromLogical idx).map (BlockPath.place id)

theorem leafPlace_valid {id idx : Nat} {l : Place (Nat × Nat)} (h : leafPlace id idx = some l) :
    treeShape.Valid l ∧ ¬treeShape.Inner l ∧ l.root.1 = id ∧ l.root.2 ≤ 12 := by
  obtain ⟨path, hpath, rfl⟩ := Option.map_eq_some_iff.mp h
  exact BlockPath.place_valid (BlockPath.fromLogical_some hpath).1

theorem leafPlace_inj {id j idx idx' : Nat} {l : Place (Nat × Nat)} (h : leafPlace id idx = some l)
    (h' : leafPlace j idx' = some l) : id = j ∧ idx = idx' := by
  obtain ⟨path, hpath, rfl⟩ := Option.map_eq_some_iff.mp h
  obtain ⟨path', hpath', heq⟩ := Option.map_eq_some_iff.mp h'
  obtain ⟨rfl, rfl⟩ := BlockPath.place_inj heq
  exact ⟨rfl, (BlockPath.fromLogical_some hpath).2.symm.trans (BlockPath.fromLogical_some hpath').2⟩

theorem leafPlace_of_leaf {id s : Nat} {q : List Nat} (hs : s ≤ 12)
    (hvalid : treeShape.Valid ⟨(id, s), q⟩) (hleaf : ¬treeShape.Inner ⟨(id, s), q⟩) :
    ∃ idx, leafPlace id idx = some ⟨(id, s), q⟩ := by
  have hlen : q.length = s - 9 := by
    have hle : q.length ≤ s - 9 := hvalid.1
    have hge : ¬q.length < s - 9 := fun hlt => hleaf ⟨hvalid, hlt⟩
    omega
  have hbound : ∀ k ∈ q, k < ptrsPerBlock := hvalid.2
  have hplace : ∃ path : BlockPath, path.SlotsInBounds ∧ path.place id = ⟨(id, s), q⟩ := by
    rcases Nat.lt_or_ge s 10 with hlow | hhigh
    · have hnil : q = [] := List.eq_nil_of_length_eq_zero (by omega)
      rw [hnil]
      exact ⟨.direct s, hlow, rfl⟩
    · obtain rfl | rfl | rfl : s = 10 ∨ s = 11 ∨ s = 12 := by omega
      · obtain ⟨a, rfl⟩ := List.length_eq_one_iff.mp hlen
        exact ⟨.single a, by simpa [BlockPath.SlotsInBounds] using hbound, rfl⟩
      · obtain ⟨b, a, rfl⟩ := List.length_eq_two.mp hlen
        exact ⟨.double a b, by simpa [BlockPath.SlotsInBounds, and_comm] using hbound, rfl⟩
      · obtain ⟨c, b, a, rfl⟩ := List.length_eq_three.mp hlen
        refine ⟨.triple a b c, ⟨hbound a ?_, hbound b ?_, hbound c ?_⟩, rfl⟩ <;> simp
  obtain ⟨path, hslots, hpath⟩ := hplace
  exact ⟨path.toLogical, by rw [leafPlace, BlockPath.fromLogical_toLogical hslots, Option.map_some, hpath]⟩

theorem resolveLogicalBlockId_eq {id : Nat} (hhas : F.has id = true) (idx : Nat) :
    v.resolveLogicalBlockId (F.inode id) idx = ((leafPlace id idx).map (v.cells F).get).getD 0 := by
  unfold Volume.resolveLogicalBlockId leafPlace
  cases BlockPath.fromLogical idx with
  | none => rfl
  | some path =>
    cases path <;> simp only [Option.map_some, Option.getD_some, BlockPath.place, Cells.get_cons,
      Cells.get_root, v.cells_root hhas] <;> rfl

/-- The block found is the leaf at its place, and only the way to it has grown. -/
theorem getOrAllocBlock_ok {id idx blk : Nat} {i : Inode} (hg : Good rawExtent F v)
    (hhas : F.has id = true)
    (h : Volume.getOrAllocBlock (F.inode id) idx true v = .ok (blk, i) v') :
    ∃ l, leafPlace id idx = some l ∧ Grows rawExtent l F v (F.set id i) v' ∧
      (v'.cells (F.set id i)).get l = blk ∧ blk ≠ 0 ∧ SameMeta (F.inode id) i := by
  unfold Volume.getOrAllocBlock at h
  unfold leafPlace
  cases hp : BlockPath.fromLogical idx with
  | none => simp [hp] at h
  | some path =>
    have hslots := (BlockPath.fromLogical_some hp).1
    refine ⟨path.place id, rfl, ?_⟩
    rw [hp] at h
    cases path with
    | direct s =>
      have hs : s < 10 := hslots
      exact takeSlot_ok rawExtent_zero
        (fun blk => .io s!"Block pointer {blk} is outside the data area") hg hhas (by omega) rfl
        (Volume.allocateBlock_ok hg.sound) (fun n hn => claims_raw hn) h
    | single a =>
      simp only [DiskM.bind_ok] at h
      obtain ⟨⟨sib, i₁⟩, v₁, hroot, h⟩ := h
      obtain ⟨hgrow, hget, hne, hmeta⟩ := ensureRoot_ok (t := BlockPath.place id (.single a))
        rawExtent_zero hg hhas (by decide) (by decide) rfl hroot
      simp only [hne, if_false, DiskM.bind_ok, DiskM.pure_ok, Prod.mk.injEq] at h
      obtain ⟨_, _, hleaf, ⟨rfl, rfl⟩, rfl⟩ := h
      obtain ⟨hgrow', hget', hne'⟩ := getOrAllocIndirectChild_ok
        (t := BlockPath.place id (.single a)) rawExtent_zero hgrow.good
        (inner_mk (by decide) (by simp)) hslots hget hne (fun n hn => claims_raw hn) rfl
        List.suffix_rfl hleaf
      exact ⟨hgrow.trans rawExtent_zero hgrow', hget', hne', hmeta⟩
    | double a b =>
      obtain ⟨ha, hb⟩ := hslots
      simp only [DiskM.bind_ok] at h
      obtain ⟨⟨dib, i₁⟩, v₁, hroot, h⟩ := h
      obtain ⟨hgrow, hget, hne, hmeta⟩ := ensureRoot_ok (t := BlockPath.place id (.double a b))
        rawExtent_zero hg hhas (by decide) (by decide) rfl hroot
      simp only [hne, if_false, DiskM.bind_ok] at h
      obtain ⟨sib, v₂, hmid, h⟩ := h
      obtain ⟨hgrow₂, hget₂, hne₂⟩ := getOrAllocIndirectChild_ok
        (t := BlockPath.place id (.double a b)) rawExtent_zero hgrow.good
        (inner_mk (by decide) (by simp)) ha hget hne (fun n hn => claims_raw hn) rfl
        (List.suffix_cons ..) hmid
      simp only [hne₂, if_false, DiskM.bind_ok, DiskM.pure_ok, Prod.mk.injEq] at h
      obtain ⟨_, _, hleaf, ⟨rfl, rfl⟩, rfl⟩ := h
      obtain ⟨hgrow₃, hget₃, hne₃⟩ := getOrAllocIndirectChild_ok
        (t := BlockPath.place id (.double a b)) rawExtent_zero hgrow₂.good
        (inner_mk (by simp) (by simpa using ha)) hb hget₂ hne₂ (fun n hn => claims_raw hn) rfl
        List.suffix_rfl hleaf
      exact ⟨(hgrow.trans rawExtent_zero hgrow₂).trans rawExtent_zero hgrow₃, hget₃, hne₃, hmeta⟩
    | triple a b c =>
      obtain ⟨ha, hb, hc⟩ := hslots
      simp only [DiskM.bind_ok] at h
      obtain ⟨⟨tib, i₁⟩, v₁, hroot, h⟩ := h
      obtain ⟨hgrow, hget, hne, hmeta⟩ := ensureRoot_ok (t := BlockPath.place id (.triple a b c))
        rawExtent_zero hg hhas (by decide) (by decide) rfl hroot
      simp only [hne, if_false, DiskM.bind_ok] at h
      obtain ⟨dib, v₂, hmid, h⟩ := h
      obtain ⟨hgrow₂, hget₂, hne₂⟩ := getOrAllocIndirectChild_ok
        (t := BlockPath.place id (.triple a b c)) rawExtent_zero hgrow.good
        (inner_mk (by decide) (by simp)) ha hget hne (fun n hn => claims_raw hn) rfl
        ((List.suffix_cons _ _).trans (List.suffix_cons ..)) hmid
      simp only [hne₂, if_false, DiskM.bind_ok] at h
      obtain ⟨sib, v₃, hlow, h⟩ := h
      obtain ⟨hgrow₃, hget₃, hne₃⟩ := getOrAllocIndirectChild_ok
        (t := BlockPath.place id (.triple a b c)) rawExtent_zero hgrow₂.good
        (inner_mk (by simp) (by simpa using ha)) hb hget₂ hne₂ (fun n hn => claims_raw hn) rfl
        (List.suffix_cons ..) hlow
      simp only [hne₃, if_false, DiskM.bind_ok, DiskM.pure_ok, Prod.mk.injEq] at h
      obtain ⟨_, _, hleaf, ⟨rfl, rfl⟩, rfl⟩ := h
      obtain ⟨hgrow₄, hget₄, hne₄⟩ := getOrAllocIndirectChild_ok
        (t := BlockPath.place id (.triple a b c)) rawExtent_zero hgrow₃.good
        (inner_mk (by simp) (by simp [ha, hb])) hc hget₃ hne₃ (fun n hn => claims_raw hn) rfl
        List.suffix_rfl hleaf
      exact ⟨((hgrow.trans rawExtent_zero hgrow₂).trans rawExtent_zero hgrow₃).trans rawExtent_zero
        hgrow₄, hget₄, hne₄, hmeta⟩

end Oifs
