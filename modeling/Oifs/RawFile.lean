import Oifs.RawTruncate
import Oifs.ReadBytes
import Oifs.WriteContent

namespace Oifs

open PointerForest

/-- A file stored as it is: not chunked, compressed, encrypted or filtered. -/
structure RawFile (v : Volume) (id : Nat) (i : Inode) : Prop where
  record : v.readInodeInternal id = .ok i
  mode : i.mode = .file
  whole : i.isSeekable = false
  plain : i.compressedSize = 0
  clear : i.encrypted = false
  unfiltered : i.filterTypesize = 0
  good : Good rawExtent (Files.single id i) v

def Volume.content (v : Volume) (i : Inode) : List UInt8 := (List.range i.size).map (v.payload i)

def Session.Reads (S : Session) (v : Volume) (id : Nat) (content : List UInt8) : Prop :=
  S.readData v id = .ok content ∧
    ∀ offset len, S.readAt v id offset len = .ok ((content.drop offset).take len)

section Reading

variable {v : Volume} {id : Nat} {i : Inode}

theorem Good.resolve_lt (hg : Good rawExtent (Files.single id i) v) {k : Nat}
    (hne : v.resolveLogicalBlockId i k ≠ 0) : v.resolveLogicalBlockId i k < v.mapBlocks := by
  obtain ⟨l, hl, hget⟩ := resolve_leaf id hne
  rw [← hget] at hne ⊢
  have hdata := hg.data _ ⟨l, (leafPlace_valid hl).1, mem_owns_raw hne⟩
  exact Nat.lt_of_lt_of_le (Volume.isDataBlock_iff.mp hdata).2.2 hg.sound.count_le

theorem readAtRawLoop_eq (hg : Good rawExtent (Files.single id i) v) (curr rest : Nat) :
    Session.readAtRawLoop v i curr rest = (List.range' curr rest).map (v.payload i) := by
  rw [Volume.readAtRawLoop_bytes]
  refine List.map_congr_left fun j _ => ?_
  simp only [Volume.mappedByte, Volume.payload, Volume.blockByte]
  by_cases hzero : v.resolveLogicalBlockId i (j / blockSize) = 0
  · simp [hzero]
  · simp [hzero, hg.resolve_lt hzero]

/-- A raw file is read as its blocks hold it. -/
theorem RawFile.reads (S : Session) (h : RawFile v id i) : S.Reads v id (v.content i) := by
  have hsize : i.physicalSize = i.size := by simp [Inode.physicalSize, h.plain]
  constructor
  · have hraw := rawData_eq (F := Files.single id i) h.good (Files.single_has id i) i.size
    rw [Files.single_inode] at hraw
    have hactive : i.filter.isActive = false := by
      simp [Inode.filter, FilterConfig.isActive, h.unfiltered]
    have hdecode : S.decodePayload v.superblock.encryptionVersion id i (v.content i) =
        .ok (v.content i) := by
      simp [Session.decodePayload, Session.decryptPayload, Session.decompressPayload,
        Session.unfilterPayload, h.clear, h.plain, hactive, bind, Except.bind, pure, Except.pure]
    unfold Session.readData Session.readDataInternal
    rw [h.record]
    simp only [bind, Except.bind]
    rw [h.whole, if_neg (by simp), hsize, hraw]
    by_cases hz : i.size = 0
    · rw [if_pos hz, Volume.content, hz]
      rfl
    · rw [if_neg hz]
      exact hdecode
  · intro offset len
    have hfile : Session.requireFile i "Cannot read non-file inode" = .ok () := by
      simp [Session.requireFile, h.mode]
    unfold Session.readAt
    rw [h.record]
    simp only [bind, Except.bind, hfile]
    by_cases hnone : offset ≥ i.size ∨ len = 0
    · rw [if_pos hnone]
      have hempty : ((v.content i).drop offset).take len = [] := by
        rcases hnone with hoff | hlen
        · rw [List.drop_eq_nil_of_le (by simpa [Volume.content] using hoff), List.take_nil]
        · rw [hlen, List.take_zero]
      rw [hempty]
      rfl
    · rw [if_neg hnone, h.whole, if_neg (by simp), if_neg (by simp [h.plain, h.clear]),
        readAtRawLoop_eq h.good]
      refine congrArg Except.ok ?_
      apply List.ext_getElem
      · simp [Volume.content]
      · intro k hk hk'
        simp [Volume.content]

end Reading

section Resizing

variable {v v' w : Volume} {id n : Nat} {i j : Inode}

/-- The bytes that a growth from `size` zeroes: those of the last block from `size % blockSize` on.
-/
def SlackByte (size k : Nat) : Prop :=
  0 < size ∧ k / blockSize = (size - 1) / blockSize ∧ size % blockSize ≤ k % blockSize

instance (size k : Nat) : Decidable (SlackByte size k) :=
  inferInstanceAs (Decidable (0 < size ∧ k / blockSize = (size - 1) / blockSize ∧
    size % blockSize ≤ k % blockSize))

structure Resized (v : Volume) (i : Inode) (n : Nat) (v' : Volume) (id : Nat) (i' : Inode) : Prop where
  superblock : v'.superblock = v.superblock
  mapBlocks : v'.mapBlocks = v.mapBlocks
  file : RawFile v' id i'
  size : i'.size = n
  payload : ∀ k < n, v'.payload i' k = if i.size < n ∧ SlackByte i.size k then 0 else v.payload i k

theorem zeroSlack_sameTables (v : Volume) (i : Inode) (idx size : Nat) :
    v.SameTables (v.zeroSlack i idx size) := by
  unfold Volume.zeroSlack
  dsimp only
  split
  next => exact Volume.sameTables_setBlock ..
  next => exact Volume.SameTables.refl v

theorem Good.zeroSlack (hg : Good rawExtent (Files.single id i) v) (idx size : Nat) :
    Good rawExtent (Files.single id i) (v.zeroSlack i idx size) := by
  unfold Volume.zeroSlack
  dsimp only
  split
  next hne =>
    obtain ⟨l, hl, hget⟩ := resolve_leaf id hne
    obtain ⟨hvalid, hleaf, -, -⟩ := leafPlace_valid hl
    have hown : v.resolveLogicalBlockId i idx ∈
        owns treeShape rawExtent (v.cells (Files.single id i)) l := by
      rw [← hget] at hne ⊢
      exact mem_owns_raw hne
    exact hg.setBlock fun l' hin hne' => hg.leaf_not_inner hvalid hleaf hown hin hne'
  next => exact hg

theorem payload_zeroSlack (hg : Good rawExtent (Files.single id i) v) (idx size k : Nat) :
    (v.zeroSlack i idx size).payload i k =
      if k / blockSize = idx ∧ size % blockSize ≤ k % blockSize then 0 else v.payload i k := by
  unfold Volume.zeroSlack
  dsimp only
  split
  next hne =>
    obtain ⟨l, hl, hget⟩ := resolve_leaf id hne
    have hset := payload_setBlock (f := zeroFrom (v.block (v.resolveLogicalBlockId i idx))
      (size % blockSize)) hg (Files.single_has id i) hl hget hne k
    rw [Files.single_inode] at hset
    rw [hset]
    by_cases hk : k / blockSize = idx
    · subst hk
      simp only [if_true, true_and, zeroFrom, Volume.payload, Volume.blockByte, if_neg hne]
    · rw [if_neg hk, if_neg fun h => hk h.1]
  next hz =>
    split
    next hk =>
      rw [Volume.payload, hk.1, not_not.mp hz]
      rfl
    next => rfl

theorem RawFile.stored (h : RawFile v id i) (hg : Good rawExtent (Files.single id j) w)
    (hmeta : SameMeta i j) {now : Nat} (hv : v' = { w with
      inode := Function.update w.inode id (.ok { j with size := n, modifiedAt := now }) })
    (hrecord : v'.readInodeInternal id = .ok { j with size := n, modifiedAt := now }) :
    RawFile v' id { j with size := n, modifiedAt := now } ∧
      v'.payload { j with size := n, modifiedAt := now } = w.payload j := by
  have hslots : ∀ s, ({ j with size := n, modifiedAt := now } : Inode).slot s = j.slot s :=
    fun _ => rfl
  unfold SameMeta at hmeta
  subst hv
  refine ⟨⟨hrecord, ?_, ?_, ?_, ?_, ?_, (hg.congr_slots hslots).setInode _⟩, ?_⟩
  · rw [hmeta]
    exact h.mode
  · rw [hmeta]
    exact h.whole
  · rw [hmeta]
    exact h.plain
  · rw [hmeta]
    exact h.clear
  · rw [hmeta]
    exact h.unfiltered
  · exact payload_congr_slots hslots

theorem expandRaw_resized {A : Ambient} (h : RawFile v id i) (hlt : i.size < n)
    (hrun : Session.expandRaw A id i n v = .ok () v') : ∃ i', Resized v i n v' id i' := by
  have hwrite : ∀ w, v.SameTables w → Good rawExtent (Files.single id i) w →
      (∀ k < n, w.payload i k = if i.size < n ∧ SlackByte i.size k then 0 else v.payload i k) →
      Volume.writeInodeInternal id { i with size := n, modifiedAt := A.now } w = .ok () v' →
      ∃ i', Resized v i n v' id i' := by
    intro w htables hg hpay hrun
    obtain ⟨hv, hrecord⟩ := writeInodeInternal_ok hrun
    obtain ⟨hfile, hsame⟩ := h.stored hg (SameMeta.refl i) hv hrecord
    subst hv
    exact ⟨_, htables.superblock, htables.mapBlocks, hfile, rfl, fun k hk => by rw [hsame, hpay k hk]⟩
  unfold Session.expandRaw at hrun
  split at hrun
  next hpos =>
    simp only [DiskM.bind_ok, DiskM.modify_ok] at hrun
    obtain ⟨_, _, rfl, hrun⟩ := hrun
    refine hwrite _ (zeroSlack_sameTables ..) (h.good.zeroSlack _ _) (fun k _ => ?_) hrun
    rw [payload_zeroSlack h.good]
    simp only [SlackByte, hlt, hpos, true_and]
  next hz =>
    refine hwrite v (Volume.SameTables.refl v) h.good (fun k _ => ?_) hrun
    rw [if_neg fun hs => hz hs.2.1]

theorem freeBlocks_block (v : Volume) (blks : List Nat) : (v.freeBlocks blks).block = v.block := by
  have hfold : (blks.foldl Volume.free v).block = v.block := by
    induction blks generalizing v with
    | nil => rfl
    | cons b blks ih =>
      rw [List.foldl_cons, ih]
      unfold Volume.free
      split <;> rfl
  unfold Volume.freeBlocks
  dsimp only
  split
  next =>
    split
    next => exact hfold
    next => exact hfold
  next => exact hfold

theorem freeBlocks_marked (v : Volume) {blks : List Nat} {b : Nat} (h : b ∉ blks) :
    (v.freeBlocks blks).marked b = v.marked b := by
  have hfold : (blks.foldl Volume.free v).marked b = v.marked b := by
    induction blks generalizing v with
    | nil => rfl
    | cons c blks ih =>
      rw [List.foldl_cons, ih _ (fun hb => h (List.mem_cons_of_mem _ hb))]
      have hne : b ≠ c := fun heq => h (heq ▸ List.mem_cons_self)
      unfold Volume.free
      split
      next => rfl
      next hle =>
        unfold Volume.marked Volume.setMark
        dsimp only
        by_cases hlow : v.superblock.dataBlockStart ≤ b
        · rw [Function.update_of_ne (by omega)]
        · simp [hlow]
  unfold Volume.freeBlocks
  dsimp only
  split
  next =>
    split
    next => exact hfold
    next => exact hfold
  next => exact hfold

theorem zeroTail (hg : Good rawExtent (Files.single id i) v) (n : Nat) :
    ∃ w, (if n % blockSize ≠ 0 ∧ 0 < divCeil n blockSize then
        v.zeroSlack i (divCeil n blockSize - 1) n else v) = w ∧ v.SameTables w ∧
      Good rawExtent (Files.single id i) w ∧ ∀ k < n, w.payload i k = v.payload i k := by
  refine ⟨_, rfl, ?_⟩
  split
  next hslack =>
    refine ⟨zeroSlack_sameTables .., hg.zeroSlack _ _, fun k hk => ?_⟩
    rw [payload_zeroSlack hg, if_neg]
    rintro ⟨hdiv, hmod⟩
    simp only [divCeil, show blockSize = 4096 from rfl] at *
    omega
  next => exact ⟨Volume.SameTables.refl v, hg, fun _ _ => rfl⟩

theorem Shrinks.resized {m : Nat} {freed : List Nat} (h : RawFile v id i)
    (hle : n ≤ i.size) (hw : v.SameTables w) (hg : Good rawExtent (Files.single id i) w)
    (hpay : ∀ k < n, w.payload i k = v.payload i k) {w₁ w₂ : Volume}
    (hs : Shrinks (divCeil n blockSize) id i w j w₁ freed) (htables : w₁.SameTables w₂)
    (hblock : w₂.block = w₁.block) (hmark : ∀ b, b ∉ freed → w₂.marked b = w₁.marked b)
    (hv : v' = { w₂ with
      inode := Function.update w₂.inode id (.ok { j with size := n, modifiedAt := m }) })
    (hrecord : v'.readInodeInternal id = .ok { j with size := n, modifiedAt := m }) :
    Resized v i n v' id { j with size := n, modifiedAt := m } := by
  obtain ⟨hfile, hsame⟩ := h.stored (hs.good hg htables hblock hmark) hs.sameMeta hv hrecord
  have hall := (hw.trans hs.tables).trans htables
  subst hv
  refine ⟨hall.superblock, hall.mapBlocks, hfile, rfl, fun k hk => ?_⟩
  have hin : k / blockSize < divCeil n blockSize := by
    simp only [divCeil, show blockSize = 4096 from rfl]
    omega
  rw [hsame, hs.payload hg htables.mapBlocks hblock hin, hpay k hk, if_neg fun hgrow => by omega]

theorem shrinkRaw_resized {A : Ambient} (h : RawFile v id i) (hlt : n < i.size)
    (hrun : Session.shrinkRaw A id i n v = .ok () v') : ∃ i', Resized v i n v' id i' := by
  obtain ⟨j, freed, w₁, j', pruned, w₂, hclear, hprune, hwrite⟩ := shrinkRaw_ok hrun
  obtain ⟨w, hw, htail, hg, hpay⟩ := zeroTail h.good n
  rw [hw] at hclear
  have hidx : ∀ idx ∈ List.range' (divCeil n blockSize)
      (divCeil i.size blockSize - divCeil n blockSize), divCeil n blockSize ≤ idx :=
    fun idx hmem => (List.mem_range'_1.mp hmem).1
  have hs := (Shrinks.clearBlockPtrs hg hidx (Shrinks.refl _ id i _) hclear)
  have hs' := hs.pruneUnusedIndirectBlocks hg hprune
  obtain ⟨hv, hrecord⟩ := writeInodeInternal_ok hwrite
  exact ⟨_, Shrinks.resized h (Nat.le_of_lt hlt) htail hg hpay hs' (sameTables_freeBlocks ..)
    (freeBlocks_block ..) (fun b hb => freeBlocks_marked _ (by simpa using hb)) hv hrecord⟩

/-- A growth to `n` bytes shows zeros only: no block linked behind the end holds another byte. -/
structure GrowsClean (v : Volume) (i : Inode) (n : Nat) : Prop where
  last : i.size % blockSize = 0 → ∀ k < i.size, i.size ≤ k + blockSize → v.payload i k = 0
  behind : ∀ k < n, divCeil i.size blockSize * blockSize ≤ k → v.payload i k = 0

theorem growsClean_iff (v : Volume) (i : Inode) (hlt : i.size < n) :
    (∀ k < n, (if SlackByte i.size k then 0 else v.payload i k) =
      if k < i.size then v.payload i k else 0) ↔ GrowsClean v i n := by
  have hb : blockSize = 4096 := rfl
  constructor
  · intro h
    refine ⟨fun hmod k hk hlast => ?_, fun k hk hbehind => ?_⟩
    · have hslack : SlackByte i.size k := by
        unfold SlackByte
        rw [hb] at *
        omega
      have hbyte := h k (by omega)
      rw [if_pos hslack, if_pos hk] at hbyte
      exact hbyte.symm
    · have hslack : ¬SlackByte i.size k := by
        unfold SlackByte
        simp only [divCeil, hb] at *
        omega
      have hout : ¬k < i.size := by
        simp only [divCeil, hb] at hbehind
        omega
      have hbyte := h k hk
      rwa [if_neg hslack, if_neg hout] at hbyte
  · intro h k hk
    by_cases hslack : SlackByte i.size k
    · rw [if_pos hslack]
      unfold SlackByte at hslack
      split
      next hin =>
        refine (h.last ?_ k hin ?_).symm
        · rw [hb] at *
          omega
        · rw [hb] at *
          omega
      next => rfl
    · rw [if_neg hslack]
      unfold SlackByte at hslack
      split
      next => rfl
      next hout =>
        refine h.behind k hk ?_
        simp only [divCeil, hb] at *
        omega

theorem resize_content (v : Volume) (i : Inode) (n : Nat) :
    resize (v.content i) n =
      (List.range n).map fun k => if k < i.size then v.payload i k else 0 := by
  apply List.ext_getElem
  · simp [resize_length]
  · intro k hk hk'
    simp only [List.length_map, List.length_range] at hk'
    rw [List.getElem_map, List.getElem_range]
    simp only [resize, Volume.content]
    by_cases hin : k < i.size
    · rw [if_pos hin, List.getElem_append_left (by simp; omega)]
      simp
    · rw [if_neg hin, List.getElem_append_right (by simp; omega)]
      simp

theorem Resized.content_iff {i' : Inode} (h : Resized v i n v' id i') :
    v'.content i' = resize (v.content i) n ↔ (i.size < n → GrowsClean v i n) := by
  rw [resize_content, Volume.content, h.size, List.map_inj_left]
  simp only [List.mem_range]
  by_cases hlt : i.size < n
  · rw [← growsClean_iff v i hlt]
    refine ⟨fun heq _ k hk => ?_, fun hclean k hk => ?_⟩
    · rw [← heq k hk, h.payload k hk]
      simp [hlt]
    · rw [← hclean hlt k hk, h.payload k hk]
      simp [hlt]
  · refine iff_of_true (fun k hk => ?_) (fun hgrow => absurd hgrow hlt)
    rw [h.payload k hk, if_neg (fun hgrow => hlt hgrow.1), if_pos (by omega)]

end Resizing

end Oifs
