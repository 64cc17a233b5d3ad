import Oifs.PointerOverlay
import Oifs.AllocSim
import Oifs.WriteStages

namespace Oifs

open PointerForest LittleEndian

namespace Staging

variable {v : Volume} {s s' : Staging} {i i' : Inode}

def getOrAllocBlocks (v : Volume) (s : Staging) (inode : Inode) :
    List Nat → Except DiskError (List Nat × Inode × Staging)
  | [] => .ok ([], inode, s)
  | idx :: idxs => do
    let (blk, inode, s) ← s.getOrAllocBlock v inode idx
    let (blks, inode, s) ← getOrAllocBlocks v s inode idxs
    return (blk :: blks, inode, s)

theorem takeBlock_ok {blk : Nat} (hs : v.Sound) (hrun : s.takeBlock v = .ok (blk, s')) :
    v.isDataBlock blk = true ∧ blk < v.superblock.dataBlockStart + bitmapBits ∧
      s.dataBitmap (blk - v.superblock.dataBlockStart) = false ∧
      s'.dataBitmap = Function.update s.dataBitmap (blk - v.superblock.dataBlockStart) true ∧
      s'.freshBlocks = blk :: s.freshBlocks ∧ s'.pointers = s.pointers ∧
      s'.ops = s.ops ++ [.setDataBitmap blk true] := by
  unfold takeBlock at hrun
  obtain ⟨⟨blk', s₁⟩, halloc, hrun⟩ := except_bind_ok.mp hrun
  cases hrun
  unfold allocBlock at halloc
  split at halloc
  next => cases halloc
  next bit hbit =>
    dsimp only at halloc
    split at halloc
    next => cases halloc
    next hin =>
      cases halloc
      obtain ⟨hfree, hlt⟩ := findNextFreeWrapped_some hbit
      have hpos := hs.start_pos
      rw [Nat.add_sub_cancel_left]
      exact ⟨Volume.isDataBlock_iff.mpr ⟨by omega, by omega, by omega⟩, by omega, hfree, rfl, rfl, rfl,
        rfl⟩

theorem apply_mark {w u : Volume} {blk : Nat} {val : Bool}
    (h : w.applyOp (.setDataBitmap blk val) = .ok u) : w.SameTables u ∧ u.block = w.block := by
  unfold Volume.applyOp at h
  dsimp only at h
  split at h
  next => cases h
  next =>
    cases h
    exact ⟨⟨rfl, rfl, rfl, rfl, rfl⟩, rfl⟩

theorem apply_pointer {w u : Volume} {parent k c : Nat} (hc : c < 2 ^ 64)
    (h : w.applyOp (.writeBlockSlice parent (k * 8) (encode 8 c)) = .ok u) :
    w.SameTables u ∧ u.dataBit = w.dataBit ∧ (∀ b, b ≠ parent → u.block b = w.block b) ∧
      ∀ p j, u.readBlockPtr p j = if p = parent ∧ j = k then c else w.readBlockPtr p j := by
  unfold Volume.applyOp at h
  dsimp only at h
  split at h
  next => cases h
  next hok =>
    cases h
    have hmap : parent < w.mapBlocks := by
      by_contra hge
      exact hok (Or.inr (Or.inl (by omega)))
    have hfit : k * 8 + 8 ≤ blockSize := by
      by_contra hge
      rw [encode_length] at hok
      exact hok (Or.inr (Or.inr (by omega)))
    refine ⟨Volume.sameTables_setBlock .., Volume.setBlock_dataBit ..,
      fun b hb => Volume.setBlock_block_other hb, fun p j => ?_⟩
    by_cases hp : p = parent
    · subst hp
      rw [Volume.readBlockPtr, Volume.setBlock_mapBlocks, Volume.setBlock_block_same hmap]
      by_cases hj : j = k
      · rw [if_pos ⟨hmap, by rw [hj]; exact hfit⟩, hj, cell_patch_same hc, if_pos ⟨rfl, rfl⟩]
      · have hother : ¬(p = p ∧ j = k) := fun h => hj h.2
        rw [cell_patch_other (encode_length ..) hj, if_neg hother, Volume.readBlockPtr]
    · rw [if_neg fun h => hp h.1]
      exact Volume.readBlockPtr_congr (Volume.setBlock_mapBlocks ..) (Volume.setBlock_block_other hp) j

/-- What the operations staged so far do when they are applied. -/
structure Records (v : Volume) (s : Staging) : Prop where
  taken : ∀ b ∈ s.freshBlocks, v.isDataBlock b = true ∧
    b < v.superblock.dataBlockStart + bitmapBits ∧
    s.dataBitmap (b - v.superblock.dataBlockStart) = true
  ops : ∀ op ∈ s.ops, (∃ b ∈ s.freshBlocks, op = .setDataBitmap b true) ∨
    ∃ p k c, s.pointers p k ≠ none ∧ k < ptrsPerBlock ∧ op = .writeBlockSlice p (k * 8) (encode 8 c)
  written : ∀ u, Volume.applyJournalOps s.ops v = .ok () u →
    ∀ p k, u.readBlockPtr p k = (s.pointers p k).getD (v.readBlockPtr p k)

theorem Records.takeBlock {blk : Nat} (hs : v.Sound) (h : s.Records v)
    (hrun : s.takeBlock v = .ok (blk, s')) : s'.Records v ∧ blk ∉ s.freshBlocks := by
  obtain ⟨hdata, hrange, hfree, hbits, hfresh, hptr, hops⟩ := takeBlock_ok hs hrun
  refine ⟨⟨fun b hb => ?_, fun op hop => ?_, fun u hu p k => ?_⟩, fun hmem => ?_⟩
  · rw [hfresh] at hb
    rw [hbits]
    rcases List.mem_cons.mp hb with rfl | hb
    · exact ⟨hdata, hrange, Function.update_self ..⟩
    · obtain ⟨hb₁, hb₂, hset⟩ := h.taken b hb
      refine ⟨hb₁, hb₂, ?_⟩
      rw [Function.update_of_ne, hset]
      intro heq
      rw [heq, hfree] at hset
      cases hset
  · rw [hops] at hop
    rw [hfresh, hptr]
    rcases List.mem_append.mp hop with hop | hop
    · refine (h.ops op hop).imp_left ?_
      rintro ⟨b, hb, heq⟩
      exact ⟨b, List.mem_cons_of_mem _ hb, heq⟩
    · exact .inl ⟨blk, List.mem_cons_self, List.mem_singleton.mp hop⟩
  · rw [hops] at hu
    obtain ⟨w, hw, hop⟩ := Volume.applyJournalOps_append.mp hu
    obtain ⟨htables, hblock⟩ := apply_mark (Volume.applyJournalOps_singleton.mp hop)
    rw [hptr, ← h.written w hw p k]
    exact Volume.readBlockPtr_congr htables.mapBlocks (congrFun hblock p) k
  · have hset := (h.taken blk hmem).2.2
    rw [hfree] at hset
    cases hset

theorem Records.writePointer {parent k c : Nat} (h : s.Records v) (hk : k < ptrsPerBlock)
    (hc : c < 2 ^ 64) : (s.writePointer parent k c).Records v where
  taken := h.taken
  ops op hop := by
    have hkept : ∀ p j, s.pointers p j ≠ none → (s.writePointer parent k c).pointers p j ≠ none := by
      intro p j hne
      change (if p = parent ∧ j = k then some c else s.pointers p j) ≠ none
      split
      next => exact Option.some_ne_none c
      next => exact hne
    rcases List.mem_append.mp hop with hop | hop
    · refine (h.ops op hop).imp_right ?_
      rintro ⟨p, j, c', hne, hrest⟩
      exact ⟨p, j, c', hkept p j hne, hrest⟩
    · refine .inr ⟨parent, k, c, ?_, hk, List.mem_singleton.mp hop⟩
      change (if parent = parent ∧ k = k then some c else s.pointers parent k) ≠ none
      simp
  written u hu p j := by
    obtain ⟨w, hw, hop⟩ := Volume.applyJournalOps_append.mp hu
    obtain ⟨-, -, -, hcell⟩ := apply_pointer hc (Volume.applyJournalOps_singleton.mp hop)
    change _ = (if p = parent ∧ j = k then some c else s.pointers p j).getD _
    rw [hcell]
    split
    next => rfl
    next => exact h.written w hw p j

/-- The simulation's pointers over those of the image. -/
def overlay (v : Volume) (id : Nat) (i : Inode) (s : Staging) : Overlay (Nat × Nat) :=
  ⟨(v.cells (Files.single id i)).root, s.pointers, s.freshBlocks⟩

end Staging

theorem Volume.cells_setSlot (v : Volume) (id : Nat) (i : Inode) {k : Nat} (hk : k ≤ 12) (b : Nat) :
    (v.cells (Files.single id (i.setSlot k b))).root =
      Function.update (v.cells (Files.single id i)).root (id, k) b := by
  funext ⟨j, t⟩
  by_cases hj : j = id
  · subst hj
    rw [v.cells_root (Files.single_has j _), Files.single_inode]
    by_cases ht : t = k
    · subst ht
      rw [Function.update_self, Inode.slot_setSlot_same i hk]
    · rw [Function.update_of_ne (by simp [ht]), v.cells_root (Files.single_has j _), Files.single_inode,
        Inode.slot_setSlot_other i hk ht]
  · rw [Function.update_of_ne (by simp [hj])]
    simp [Volume.cells, Files.single, hj]

def asked (id : Nat) (idxs : List Nat) (t : Place (Nat × Nat)) : Prop :=
  ∃ idx ∈ idxs, leafPlace id idx = some t

/-- A run of the simulator, started with the inode `i₀`. -/
structure StagedRun (v : Volume) (id : Nat) (i₀ : Inode) (idxs : List Nat) (i : Inode)
    (s : Staging) : Prop where
  records : s.Records v
  grown : Overlay.Grown treeShape (v.cells (Files.single id i₀)) (Overlay.Ways (asked id idxs))
    (s.overlay v id i)

namespace StagedRun

variable {v : Volume} {id : Nat} {i₀ i i' : Inode} {idxs : List Nat} {s s' : Staging}

theorem ensureRoot (hs : v.Sound) {slot root : Nat} (h : StagedRun v id i₀ idxs i s)
    (hslot : slot ≤ 12) (ht : Overlay.Ways (asked id idxs) ⟨(id, slot), []⟩)
    (hrun : s.ensureRoot v i slot = .ok (root, i', s')) :
    StagedRun v id i₀ idxs i' s' ∧ Overlay.Le (s.overlay v id i) (s'.overlay v id i') ∧
      Overlay.Leads (v.cells (Files.single id i₀)) (s'.overlay v id i') (id, slot) [] root := by
  have hroot : ∀ j : Inode, (v.cells (Files.single id j)).root (id, slot) = j.slot slot := by
    intro j
    rw [v.cells_root (Files.single_has id j), Files.single_inode]
  unfold Staging.ensureRoot at hrun
  split at hrun
  next hzero =>
    obtain ⟨⟨blk, s₁⟩, htake, hrun⟩ := except_bind_ok.mp hrun
    cases hrun
    obtain ⟨hdata, -, -, -, hfresh, hptr, -⟩ := Staging.takeBlock_ok hs htake
    obtain ⟨hrec, hnew⟩ := h.records.takeBlock hs htake
    have hne := (Volume.isDataBlock_iff.mp hdata).1
    have hempty : (s.overlay v id i).root (id, slot) = 0 := (hroot i).trans hzero
    have hover : s'.overlay v id (i.setSlot slot root) =
        (s.overlay v id i).linkRoot (id, slot) root := by
      unfold Staging.overlay Overlay.linkRoot
      rw [v.cells_setSlot id i hslot, hptr, hfresh]
    rw [hover]
    refine ⟨⟨hrec, hover ▸ h.grown.linkRoot hempty hnew hne ht⟩, Overlay.le_linkRoot hempty root,
      Function.update_self .., hne⟩
  next hsome =>
    cases hrun
    exact ⟨h, Overlay.Le.refl _, hroot i, hsome⟩

theorem child (hs : v.Sound) {r : Nat × Nat} {q : List Nat} {p k blk : Nat}
    (h : StagedRun v id i₀ idxs i s) (hin : treeShape.Inner ⟨r, q⟩)
    (hlead : Overlay.Leads (v.cells (Files.single id i₀)) (s.overlay v id i) r q p)
    (hk : k < ptrsPerBlock) (ht : Overlay.Ways (asked id idxs) ⟨r, k :: q⟩)
    (hrun : s.child v p k = .ok (blk, s')) :
    StagedRun v id i₀ idxs i s' ∧ Overlay.Le (s.overlay v id i) (s'.overlay v id i) ∧
      Overlay.Leads (v.cells (Files.single id i₀)) (s'.overlay v id i) r (k :: q) blk := by
  unfold Staging.child at hrun
  split at hrun
  next hsome =>
    cases hrun
    refine ⟨h, Overlay.Le.refl _, h.grown.leads_seen hlead ?_⟩
    rcases hsome with hsome | hne
    · obtain ⟨b, hb⟩ := Option.isSome_iff_exists.mp hsome
      have hseen : (s.overlay v id i).seen (v.cells (Files.single id i₀)) p k = b := by
        unfold Overlay.seen
        change (s.pointers p k).getD _ = b
        rw [hb, Option.getD_some]
      rw [hseen]
      exact (h.grown.link p k b hb).2.1
    · exact hne
  next hnone =>
    obtain ⟨⟨b, s₁⟩, htake, hrun⟩ := except_bind_ok.mp hrun
    cases hrun
    obtain ⟨hdata, -, -, -, hfresh, hptr, -⟩ := Staging.takeBlock_ok hs htake
    obtain ⟨hrec, hnew⟩ := h.records.takeBlock hs htake
    obtain ⟨hne, -, hlt⟩ := Volume.isDataBlock_iff.mp hdata
    rw [not_or, not_not, Option.not_isSome_iff_eq_none] at hnone
    have hover : (s₁.writePointer p k blk).overlay v id i = (s.overlay v id i).linkCell p k blk := by
      unfold Staging.overlay Overlay.linkCell
      rw [← hptr, ← hfresh]
      rfl
    have hle := Overlay.le_linkCell (o := s.overlay v id i) hnone.1 blk
    rw [hover]
    refine ⟨⟨hrec.writePointer hk (Nat.lt_trans hlt hs.count_lt), hover ▸ ?_⟩, hle, hne, p,
      hlead.mono hle, .inl (if_pos ⟨rfl, rfl⟩)⟩
    exact h.grown.linkCell hin hlead hnone.1 hnone.2 hnew hne ht

theorem getOrAllocBlock (hs : v.Sound) {idx blk : Nat} (h : StagedRun v id i₀ idxs i s)
    (hidx : idx ∈ idxs) (hrun : s.getOrAllocBlock v i idx = .ok (blk, i', s')) :
    StagedRun v id i₀ idxs i' s' ∧ Overlay.Le (s.overlay v id i) (s'.overlay v id i') ∧
      ∃ t, leafPlace id idx = some t ∧
        Overlay.Leads (v.cells (Files.single id i₀)) (s'.overlay v id i') t.root t.path blk := by
  unfold Staging.getOrAllocBlock at hrun
  cases hpath : BlockPath.fromLogical idx with
  | none => simp [hpath] at hrun
  | some path =>
    rw [hpath] at hrun
    have hleaf : leafPlace id idx = some (path.place id) := by rw [leafPlace, hpath, Option.map_some]
    have hway : ∀ l : Place (Nat × Nat), l.root = (path.place id).root → l.path <:+ (path.place id).path →
        Overlay.Ways (asked id idxs) l :=
      fun l hroot hsuffix => ⟨_, ⟨idx, hidx, hleaf⟩, hroot, hsuffix⟩
    have hslots := (BlockPath.fromLogical_some hpath).1
    cases path with
    | direct a =>
      have ha : a < 10 := hslots
      obtain ⟨h₁, hle, hlead⟩ := h.ensureRoot hs (by omega) (hway _ rfl List.suffix_rfl) hrun
      exact ⟨h₁, hle, _, hleaf, hlead⟩
    | single a =>
      obtain ⟨⟨sib, i₁, s₁⟩, htop, hrun⟩ := except_bind_ok.mp hrun
      obtain ⟨h₁, hle₁, hlead₁⟩ := h.ensureRoot hs (by decide) (hway _ rfl (List.nil_suffix ..)) htop
      dsimp only at hrun
      rw [if_neg hlead₁.ne_zero] at hrun
      obtain ⟨⟨c, s₂⟩, hlow, hrun⟩ := except_bind_ok.mp hrun
      cases hrun
      obtain ⟨h₂, hle₂, hlead₂⟩ := h₁.child hs (inner_mk (by simp) (by simp)) hlead₁ hslots
        (hway _ rfl List.suffix_rfl) hlow
      exact ⟨h₂, hle₁.trans hle₂, _, hleaf, hlead₂⟩
    | double a b =>
      obtain ⟨ha, hb⟩ := hslots
      obtain ⟨⟨dib, i₁, s₁⟩, htop, hrun⟩ := except_bind_ok.mp hrun
      obtain ⟨h₁, hle₁, hlead₁⟩ := h.ensureRoot hs (by decide) (hway _ rfl (List.nil_suffix ..)) htop
      dsimp only at hrun
      rw [if_neg hlead₁.ne_zero] at hrun
      obtain ⟨⟨sib, s₂⟩, hmid, hrun⟩ := except_bind_ok.mp hrun
      obtain ⟨h₂, hle₂, hlead₂⟩ := h₁.child hs (inner_mk (by simp) (by simp)) hlead₁ ha
        (hway _ rfl (List.suffix_cons ..)) hmid
      dsimp only at hrun
      rw [if_neg hlead₂.ne_zero] at hrun
      obtain ⟨⟨c, s₃⟩, hlow, hrun⟩ := except_bind_ok.mp hrun
      cases hrun
      obtain ⟨h₃, hle₃, hlead₃⟩ := h₂.child hs (inner_mk (by simp) (by simpa using ha)) hlead₂ hb
        (hway _ rfl List.suffix_rfl) hlow
      exact ⟨h₃, (hle₁.trans hle₂).trans hle₃, _, hleaf, hlead₃⟩
    | triple a b c =>
      obtain ⟨ha, hb, hc⟩ := hslots
      obtain ⟨⟨tib, i₁, s₁⟩, htop, hrun⟩ := except_bind_ok.mp hrun
      obtain ⟨h₁, hle₁, hlead₁⟩ := h.ensureRoot hs (by decide) (hway _ rfl (List.nil_suffix ..)) htop
      dsimp only at hrun
      rw [if_neg hlead₁.ne_zero] at hrun
      obtain ⟨⟨dib, s₂⟩, hhigh, hrun⟩ := except_bind_ok.mp hrun
      obtain ⟨h₂, hle₂, hlead₂⟩ := h₁.child hs (inner_mk (by simp) (by simp)) hlead₁ ha
        (hway _ rfl ⟨[c, b], rfl⟩) hhigh
      dsimp only at hrun
      rw [if_neg hlead₂.ne_zero] at hrun
      obtain ⟨⟨sib, s₃⟩, hmid, hrun⟩ := except_bind_ok.mp hrun
      obtain ⟨h₃, hle₃, hlead₃⟩ := h₂.child hs (inner_mk (by simp) (by simpa using ha)) hlead₂ hb
        (hway _ rfl (List.suffix_cons ..)) hmid
      dsimp only at hrun
      rw [if_neg hlead₃.ne_zero] at hrun
      obtain ⟨⟨d, s₄⟩, hlow, hrun⟩ := except_bind_ok.mp hrun
      cases hrun
      obtain ⟨h₄, hle₄, hlead₄⟩ := h₃.child hs (inner_mk (by simp) (by simp [ha, hb])) hlead₃ hc
        (hway _ rfl List.suffix_rfl) hlow
      exact ⟨h₄, ((hle₁.trans hle₂).trans hle₃).trans hle₄, _, hleaf, hlead₄⟩

theorem getOrAllocBlocks (hs : v.Sound) {asked blks : List Nat} (h : StagedRun v id i₀ idxs i s)
    (hasked : ∀ idx ∈ asked, idx ∈ idxs)
    (hrun : Staging.getOrAllocBlocks v s i asked = .ok (blks, i', s')) :
    StagedRun v id i₀ idxs i' s' ∧ Overlay.Le (s.overlay v id i) (s'.overlay v id i') ∧
      List.Forall₂ (fun idx blk => ∃ t, leafPlace id idx = some t ∧
        Overlay.Leads (v.cells (Files.single id i₀)) (s'.overlay v id i') t.root t.path blk)
        asked blks := by
  induction asked generalizing i s blks with
  | nil =>
    cases hrun
    exact ⟨h, Overlay.Le.refl _, List.Forall₂.nil⟩
  | cons idx asked ih =>
    unfold Staging.getOrAllocBlocks at hrun
    obtain ⟨⟨blk, i₁, s₁⟩, hone, hrun⟩ := except_bind_ok.mp hrun
    obtain ⟨⟨blks', i₂, s₂⟩, hrest, hrun⟩ := except_bind_ok.mp hrun
    cases hrun
    obtain ⟨h₁, hle, t, hleaf, hlead⟩ := h.getOrAllocBlock hs (hasked idx List.mem_cons_self) hone
    obtain ⟨h₂, hle', hleads⟩ := ih h₁ (fun j hj => hasked j (List.mem_cons_of_mem _ hj)) hrest
    exact ⟨h₂, hle.trans hle', List.Forall₂.cons ⟨t, hleaf, hlead.mono hle'⟩ hleads⟩

theorem start (hnew : Staging.newDataOnly v = .ok s) : StagedRun v id i idxs i s := by
  unfold Staging.newDataOnly at hnew
  split at hnew
  next => cases hnew
  next =>
    cases hnew
    refine ⟨⟨fun b hb => ?_, fun op hop => ?_, fun u hu p k => ?_⟩, Overlay.Grown.start rfl fun _ _ => rfl⟩
    · cases hb
    · cases hop
    · cases hu
      rfl

end StagedRun

section Apply

variable {v : Volume}

theorem Volume.Mountable.applies_mark (hm : v.Mountable) {blk : Nat} (hdata : v.isDataBlock blk = true)
    (hrange : blk < v.superblock.dataBlockStart + bitmapBits) :
    ∃ w, v.applyOp (.setDataBitmap blk true) = .ok w ∧ v.SameTables w := by
  obtain ⟨-, -, hinside⟩ := hm.bitmaps_inside
  have hspan := dataBitmapBlocks_pos v.superblock
  have hstart := (Volume.isDataBlock_iff.mp hdata).2.1
  have hbit : v.HasBit v.superblock.dataBitmapBlock v.superblock.dataBitmapBlocks
      (blk - v.superblock.dataBlockStart) := by
    refine ⟨hinside, ?_⟩
    simp only [bitmapBits, show blockSize = 4096 from rfl] at hrange ⊢
    omega
  refine ⟨_, if_neg ?_, ⟨rfl, rfl, rfl, rfl, rfl⟩⟩
  rintro (hno | hno)
  · simp [hdata] at hno
  · exact hno hbit

theorem Volume.Mountable.applies_pointer (hm : v.Mountable) {parent k : Nat}
    (hdata : v.isDataBlock parent = true) (hk : k < ptrsPerBlock) (c : Nat) :
    ∃ w, v.applyOp (.writeBlockSlice parent (k * 8) (encode 8 c)) = .ok w ∧ v.SameTables w := by
  have hcount := hm.count_le
  have hend := (Volume.isDataBlock_iff.mp hdata).2.2
  refine ⟨_, if_neg ?_, Volume.sameTables_setBlock ..⟩
  rintro (hno | hno | hno)
  · simp [hdata] at hno
  · omega
  · rw [encode_length] at hno
    simp only [ptrsPerBlock, show blockSize = 4096 from rfl] at hk hno
    omega

theorem applyJournalOps_total {ops : List VolumeOp}
    (h : ∀ op ∈ ops, ∀ w, v.SameTables w → ∃ u, w.applyOp op = .ok u ∧ w.SameTables u) :
    ∃ u, Volume.applyJournalOps ops v = .ok () u := by
  induction ops generalizing v with
  | nil => exact ⟨v, rfl⟩
  | cons op ops ih =>
    obtain ⟨w, hop, hw⟩ := h op List.mem_cons_self v (Volume.SameTables.refl v)
    obtain ⟨u, hu⟩ := ih fun op' hmem w' hw' => h op' (List.mem_cons_of_mem _ hmem) w' (hw.trans hw')
    exact ⟨u, Volume.applyJournalOps_cons.mpr ⟨w, hop, hu⟩⟩

theorem Staging.Records.applies {s : Staging} (h : s.Records v) (hm : v.Mountable)
    (hinside : ∀ p k, s.pointers p k ≠ none → v.isDataBlock p = true) :
    ∃ u, Volume.applyJournalOps s.ops v = .ok () u := by
  refine applyJournalOps_total fun op hop w hw => ?_
  have hmount : w.Mountable := by
    obtain ⟨len, hvalid, hmap⟩ := hm
    exact ⟨len, by rw [hw.superblock, hvalid], by rw [hw.mapBlocks, hmap]⟩
  have hdata : ∀ b, w.isDataBlock b = v.isDataBlock b := fun b => by
    rw [Volume.isDataBlock, Volume.isDataBlock, hw.superblock]
  rcases h.ops op hop with ⟨b, hb, rfl⟩ | ⟨p, k, c, hptr, hk, rfl⟩
  · obtain ⟨hblock, hrange, -⟩ := h.taken b hb
    exact hmount.applies_mark (by rwa [hdata]) (by rwa [hw.superblock])
  · exact hmount.applies_pointer (by rw [hdata, hinside p k hptr]) hk c

end Apply

theorem root_of_ne_zero {v : Volume} {id j slot : Nat} {i : Inode}
    (h : (v.cells (Files.single id i)).get ⟨(j, slot), []⟩ ≠ 0) : j = id ∧ slot ≤ 12 := by
  rw [Cells.get_root] at h
  have hj : j = id := by
    by_contra hne
    simp [Volume.cells, Files.single, hne] at h
  subst hj
  rw [v.cells_root (Files.single_has j i), Files.single_inode] at h
  refine ⟨rfl, ?_⟩
  by_contra hgt
  refine h ?_
  unfold Inode.slot
  rw [dif_neg (by omega), if_neg (by omega)]

section Resolve

variable {v u : Volume} {id : Nat} {i i' : Inode} {s s' : Staging} {idxs blks : List Nat}

/-- What is asked of the file's tree: the blocks that get pointers are data blocks, those among them
that the run takes are no pointer blocks of the file before, and each of the others stands at one
place. -/
structure Tidy (v : Volume) (id : Nat) (i : Inode) (s : Staging) : Prop where
  inside : ∀ p k, s.pointers p k ≠ none → v.isDataBlock p = true
  fresh : ∀ p k, s.pointers p k ≠ none → p ∈ s.freshBlocks → ∀ l, treeShape.Inner l →
    (v.cells (Files.single id i)).get l ≠ p
  once : ∀ p k, s.pointers p k ≠ none → p ∉ s.freshBlocks → ∀ l l', treeShape.Inner l →
    treeShape.Inner l' → (v.cells (Files.single id i)).get l = p →
    (v.cells (Files.single id i)).get l' = p → l = l'

/-- A block that the run put on the way to one of `idxs` as a pointer block: its cells without a
pointer of the run, with what they held in `v`, lead to no block. -/
def Settled (v u : Volume) (id : Nat) (i i' : Inode) (s' : Staging) (idxs : List Nat) : Prop :=
  ∀ l, treeShape.Inner l → Overlay.Ways (asked id idxs) l → (v.cells (Files.single id i)).get l = 0 →
    ∀ k, k < ptrsPerBlock → s'.pointers ((u.cells (Files.single id i')).get l) k = none →
      Overlay.Barren (u.cells (Files.single id i')) ptrsPerBlock
        (treeShape.depth l.root - (l.path.length + 1))
        (v.readBlockPtr ((u.cells (Files.single id i')).get l) k)

theorem StagedRun.cells (h : StagedRun v id i idxs i' s')
    (hu : Volume.applyJournalOps s'.ops v = .ok () u) :
    u.cells (Files.single id i') = (s'.overlay v id i').cells (v.cells (Files.single id i)) := by
  unfold Volume.cells Overlay.cells
  congr 1
  funext p k
  exact h.records.written u hu p k

/-- The simulator over any indices of a file, and its operations applied: each index leads to its
block, what led somewhere leads there, and nothing else leads anywhere exactly if the pointer blocks
that were taken are settled. -/
theorem staged_blocks_resolve (hm : v.Mountable) (hs : v.Sound) (hnew : Staging.newDataOnly v = .ok s)
    (hrun : Staging.getOrAllocBlocks v s i idxs = .ok (blks, i', s')) (htidy : Tidy v id i s') :
    ∃ u, Volume.applyJournalOps s'.ops v = .ok () u ∧
      idxs.map (u.resolveLogicalBlockId i') = blks ∧
      (∀ idx, v.resolveLogicalBlockId i idx ≠ 0 →
        u.resolveLogicalBlockId i' idx = v.resolveLogicalBlockId i idx) ∧
      ((∀ idx, v.resolveLogicalBlockId i idx = 0 → idx ∉ idxs → u.resolveLogicalBlockId i' idx = 0) ↔
        Settled v u id i i' s' idxs) := by
  have hstart : StagedRun v id i idxs i s := StagedRun.start hnew
  obtain ⟨h, -, hleads⟩ := hstart.getOrAllocBlocks hs (fun _ hidx => hidx) hrun
  obtain ⟨u, hu⟩ := h.records.applies hm htidy.inside
  have hcells := h.cells hu
  have hclean : Overlay.Clean treeShape (v.cells (Files.single id i)) (s'.overlay v id i') :=
    ⟨htidy.fresh, htidy.once⟩
  have hleaf : ∀ {w : Volume} {j : Inode} {idx : Nat} {t : Place (Nat × Nat)}, leafPlace id idx = some t →
      w.resolveLogicalBlockId j idx = (w.cells (Files.single id j)).get t := by
    intro w j idx t ht
    rw [resolve_single w id, ht, Option.map_some, Option.getD_some]
  refine ⟨u, hu, ?_, fun idx hne => ?_, ?_⟩
  · have hblocks : List.Forall₂ (· = ·) (idxs.map (u.resolveLogicalBlockId i')) blks := by
      refine List.forall₂_map_left_iff.mpr (hleads.imp fun idx blk hblk => ?_)
      obtain ⟨t, ht, hlead⟩ := hblk
      rw [hleaf ht, hcells]
      exact h.grown.get_of_leads hclean hlead (leafPlace_valid ht).1
    rwa [List.forall₂_eq_eq_eq] at hblocks
  · obtain ⟨t, ht, heq⟩ := resolve_leaf id hne
    rw [hleaf ht, hcells, ← heq]
    exact h.grown.get_old hclean (leafPlace_valid ht).1 (by rwa [heq])
  · have haway := h.grown.away_iff hclean fun t ht => by
      obtain ⟨idx, hidx, ht⟩ := ht
      obtain ⟨n, rfl⟩ := List.mem_iff_get.mp hidx
      obtain ⟨hlen, heach⟩ := List.forall₂_iff_get.mp hleads
      obtain ⟨t', ht', hlead⟩ := heach n.val n.isLt (hlen ▸ n.isLt)
      obtain rfl : t = t' := Option.some.inj (ht.symm.trans ht')
      obtain ⟨hvalid, hnot, -⟩ := leafPlace_valid ht
      exact ⟨hvalid, hnot, _, hlead⟩
    refine Iff.trans ⟨fun hzero t hvalid hnot hempty hout => ?_, fun hzero idx hempty hout => ?_⟩
      (haway.trans (by unfold Settled; rw [hcells]; rfl))
    · obtain ⟨⟨j, slot⟩, q⟩ := t
      by_cases hroot : (u.cells (Files.single id i')).get ⟨(j, slot), []⟩ = 0
      · rw [← hcells, ← List.append_nil q]
        exact Cells.get_below_zero hroot q
      · obtain ⟨rfl, hslot⟩ := root_of_ne_zero hroot
        obtain ⟨idx, ht⟩ := leafPlace_of_leaf hslot hvalid hnot
        rw [← hcells, ← hleaf ht]
        refine hzero idx ((hleaf ht).trans hempty) fun hidx => hout ⟨idx, hidx, ht⟩
    · rw [resolve_single u id]
      cases ht : leafPlace id idx with
      | none => rfl
      | some t =>
        obtain ⟨hvalid, hnot, -⟩ := leafPlace_valid ht
        rw [Option.map_some, Option.getD_some, hcells]
        refine hzero t hvalid hnot ((hleaf ht).symm.trans hempty) ?_
        rintro ⟨idx', hidx, ht'⟩
        exact hout ((leafPlace_inj ht ht').2 ▸ hidx)

/-- A run on a file without blocks asks nothing more of the image. -/
theorem StagedRun.tidy_new (h : StagedRun v id i idxs i' s') (hempty : ∀ slot, i.slot slot = 0) :
    Tidy v id i s' := by
  have hget : ∀ l, (v.cells (Files.single id i)).get l = 0 := get_single_empty hempty
  have htaken : ∀ p k, s'.pointers p k ≠ none → p ∈ s'.freshBlocks := by
    intro p k hne
    obtain ⟨b, hb⟩ := Option.ne_none_iff_exists'.mp hne
    obtain ⟨-, -, -, r, q, -, hlead, -⟩ := h.grown.link p k b hb
    by_contra hout
    exact hlead.ne_zero ((h.grown.old hlead hout).symm.trans (hget _))
  refine ⟨fun p k hne => ?_, fun p k hne hmem l _ heq => ?_, fun p k hne hout => ?_⟩
  · exact (h.records.taken p (htaken p k hne)).1
  · have hdata := (h.records.taken p hmem).1
    rw [hget] at heq
    exact (Volume.isDataBlock_iff.mp hdata).1 heq.symm
  · exact absurd (htaken p k hne) hout

def stagedBlocks (v : Volume) (i : Inode) (idxs : List Nat) : Option (List Nat × Inode × Staging) :=
  ((Staging.newDataOnly v).toOption).bind fun s => (Staging.getOrAllocBlocks v s i idxs).toOption

theorem stagedBlocks_some {v : Volume} {i i' : Inode} {idxs blks : List Nat} {s' : Staging}
    (h : stagedBlocks v i idxs = some (blks, i', s')) : ∃ s, Staging.newDataOnly v = .ok s ∧
      Staging.getOrAllocBlocks v s i idxs = .ok (blks, i', s') := by
  obtain ⟨s, hs, hrun⟩ := Option.bind_eq_some_iff.mp h
  exact ⟨s, toOption_eq_some.mp hs, toOption_eq_some.mp hrun⟩

def staleVolume : Volume :=
  (Session.journaledVolume (Inode.new .file)).setBlock 38 (patch (fun _ => 0) 8 (encode 8 40))

/-- Block 38 keeps its old bytes and is block 0 of the file; the pointer blocks are 39, 41 and 42. -/
theorem staged_blocks_resolve_new : ∃ s i' s' u,
    Staging.newDataOnly staleVolume = .ok s ∧
    Staging.getOrAllocBlocks staleVolume s (Inode.new .file) [0, 10, 523] = .ok ([38, 40, 43], i', s') ∧
    Volume.applyJournalOps s'.ops staleVolume = .ok () u ∧
    [0, 10, 523].map (u.resolveLogicalBlockId i') = [38, 40, 43] ∧
    ∀ idx, idx ∉ [0, 10, 523] → u.resolveLogicalBlockId i' idx = 0 := by
  obtain ⟨⟨blks, i', s'⟩, hrun, hrest⟩ := Option.map_eq_some_iff.mp (by decide +kernel :
    (stagedBlocks staleVolume (Inode.new .file) [0, 10, 523]).map (fun r => (r.1, r.2.1.slot 10,
      r.2.1.slot 11, (outcome (Volume.applyJournalOps r.2.2.ops) staleVolume).map fun u =>
        u.readBlockPtr 41 0)) = some ([38, 40, 43], 39, 41, some 42))
  obtain ⟨s, hnew, hrun⟩ := stagedBlocks_some hrun
  simp only [Prod.mk.injEq] at hrest
  obtain ⟨rfl, hten, heleven, hafter⟩ := hrest
  have hsound : staleVolume.Sound := ⟨by decide, by decide, by decide⟩
  have hstart : StagedRun staleVolume 0 (Inode.new .file) [0, 10, 523] (Inode.new .file) s :=
    StagedRun.start hnew
  have hrun' := (hstart.getOrAllocBlocks hsound (fun _ hidx => hidx) hrun).1
  obtain ⟨u, hu, hmap, -, hiff⟩ := staged_blocks_resolve ⟨48 * blockSize, by decide, rfl⟩ hsound hnew hrun
    (hrun'.tidy_new (Inode.slot_new .file))
  obtain ⟨u', hu', hcell⟩ := outcome_map_some hafter
  obtain rfl : u = u' := by
    rw [hu] at hu'
    cases hu'
    rfl
  refine ⟨s, i', s', u, hnew, hrun, hu, hmap, fun idx hout => hiff.mpr ?_ idx ?_ hout⟩
  · intro l hin hways _ k hk _
    have hzero : ∀ p ∈ [39, 41, 42], ∀ k < ptrsPerBlock, staleVolume.readBlockPtr p k = 0 := by
      decide +kernel
    have hblock : (u.cells (Files.single 0 i')).get l ∈ [39, 41, 42] := by
      obtain ⟨lr, lp⟩ := l
      obtain ⟨t, ⟨idx, hidx, ht⟩, hroot, hpath⟩ := hways
      simp only [List.mem_cons, List.not_mem_nil, or_false] at hidx
      rcases hidx with rfl | rfl | rfl
      · obtain rfl : t = ⟨(0, 0), []⟩ := Option.some.inj (ht.symm.trans rfl)
        cases hroot
        exact absurd hin.2 (Nat.not_lt_zero _)
      · obtain rfl : t = ⟨(0, 10), [0]⟩ := Option.some.inj (ht.symm.trans rfl)
        cases hroot
        have hnil : lp = [] := List.eq_nil_of_length_eq_zero (Nat.lt_one_iff.mp hin.2)
        rw [hnil, cells_single_root, hten]
        decide
      · obtain rfl : t = ⟨(0, 11), [1, 0]⟩ := Option.some.inj (ht.symm.trans rfl)
        cases hroot
        rcases List.suffix_cons_iff.mp hpath with rfl | hpath
        · exact absurd hin.2 (Nat.lt_irrefl 2)
        rcases List.suffix_cons_iff.mp hpath with rfl | hpath
        · rw [cells_single_cons, cells_single_root, heleven]
          change u.readBlockPtr 41 0 ∈ [39, 41, 42]
          rw [hcell]
          decide
        · have hnil : lp = [] := List.suffix_nil.mp hpath
          rw [hnil, cells_single_root, heleven]
          decide
    rw [hzero _ hblock k hk]
    exact Overlay.barren_zero ..
  · rw [resolve_single staleVolume 0]
    cases leafPlace 0 idx with
    | none => rfl
    | some t => exact get_single_empty (Inode.slot_new .file) t

/-- Block 38 becomes the single indirect block and keeps its old pointer to block 40, which is free.
-/
theorem stale_pointer_resolved : staleVolume.Mountable ∧
    (∀ id, Good rawExtent (Files.single id (Inode.new .file)) staleVolume) ∧
    staleVolume.resolveLogicalBlockId (Inode.new .file) 11 = 0 ∧
    ∃ s i' s' u, Staging.newDataOnly staleVolume = .ok s ∧
      Staging.getOrAllocBlocks staleVolume s (Inode.new .file) [10] = .ok ([39], i', s') ∧
      Volume.applyJournalOps s'.ops staleVolume = .ok () u ∧
      u.marked 40 = false ∧ u.resolveLogicalBlockId i' 11 = 40 := by
  refine ⟨⟨48 * blockSize, by decide, rfl⟩, fun id => good_empty rawExtent_zero
    ⟨by decide, by decide, by decide⟩ (Inode.slot_new .file), by decide, ?_⟩
  obtain ⟨⟨blks, i', s'⟩, hrun, hrest⟩ := Option.map_eq_some_iff.mp (by decide +kernel :
    (stagedBlocks staleVolume (Inode.new .file) [10]).map (fun r => (r.1,
      (outcome (Volume.applyJournalOps r.2.2.ops) staleVolume).map fun u =>
        (u.marked 40, u.resolveLogicalBlockId r.2.1 11))) = some ([39], some (false, 40)))
  obtain ⟨s, hnew, hrun⟩ := stagedBlocks_some hrun
  obtain ⟨rfl, hafter⟩ := Prod.mk.inj hrest
  obtain ⟨u, hu, hpair⟩ := outcome_map_some hafter
  obtain ⟨hmark, hresolve⟩ := Prod.mk.inj hpair
  exact ⟨s, i', s', u, hnew, hrun, hu, hmark, hresolve⟩

end Resolve

end Oifs
