import Oifs.PartialStore
import Oifs.ChunkContent
import Oifs.ReadBytes

namespace Oifs

open PointerForest

namespace Volume

def extentOf (i : Inode) : Nat × Nat → Nat → Set Nat := if i.isSeekable then chunkExtent else rawExtent

def fileBlocks (v : Volume) (id : Nat) (i : Inode) : Set Nat :=
  owned treeShape (extentOf i) (v.cells (Files.single id i))

/-- The marked blocks are those that the allocated inodes lead to. -/
def MarksExact (v : Volume) : Prop :=
  ∀ b, v.marked b = true ↔
    ∃ id i, v.inodeBit id = true ∧ v.readInodeInternal id = .ok i ∧ b ∈ v.fileBlocks id i

/-- An image without damage: the marks are exact, and no block is used twice. -/
structure Intact (v : Volume) : Prop where
  sound : v.Sound
  exact : v.MarksExact
  inside : ∀ b, v.marked b = true → v.isDataBlock b = true
  once : ∀ id i, v.inodeBit id = true → v.readInodeInternal id = .ok i →
    Separated treeShape (extentOf i) (v.cells (Files.single id i))
  apart : ∀ id j i i', v.inodeBit id = true → v.readInodeInternal id = .ok i → v.inodeBit j = true →
    v.readInodeInternal j = .ok i' → id ≠ j → ∀ b ∈ v.fileBlocks id i, b ∉ v.fileBlocks j i'

end Volume

section Frame

variable {v v' : Volume} {id : Nat} {i : Inode}

theorem fileBlocks_cells (hmap : v'.mapBlocks = v.mapBlocks)
    (hb : ∀ b ∈ v.fileBlocks id i, v'.block b = v.block b) {l : Place (Nat × Nat)}
    (hl : treeShape.Valid l) :
    (v'.cells (Files.single id i)).get l = (v.cells (Files.single id i)).get l := by
  obtain ⟨r, q⟩ := l
  have hroot : (v'.cells (Files.single id i)).root r = (v.cells (Files.single id i)).root r := rfl
  refine Cells.get_congr hroot (fun q hin hne k _ => ?_) hl
  exact Volume.readBlockPtr_congr hmap (hb _ ⟨_, hin.1, owns_inner hin hne⟩) k

theorem fileBlocks_congr (hmap : v'.mapBlocks = v.mapBlocks)
    (hb : ∀ b ∈ v.fileBlocks id i, v'.block b = v.block b) : v'.fileBlocks id i = v.fileBlocks id i := by
  ext b
  exact owned_congr (fun l hl => fileBlocks_cells hmap hb hl) b

theorem resolve_frame (hmap : v'.mapBlocks = v.mapBlocks)
    (hb : ∀ b ∈ v.fileBlocks id i, v'.block b = v.block b) (idx : Nat) :
    v'.resolveLogicalBlockId i idx = v.resolveLogicalBlockId i idx := by
  rw [resolve_single v' id, resolve_single v id]
  cases hl : leafPlace id idx with
  | none => rfl
  | some l =>
    rw [Option.map_some, Option.map_some, fileBlocks_cells hmap hb (leafPlace_valid hl).1]

theorem mem_fileBlocks (idx : Nat) {b : Nat} (hne : v.resolveLogicalBlockId i idx ≠ 0)
    (hb : ∀ r, b ∈ Volume.extentOf i r (v.resolveLogicalBlockId i idx)) : b ∈ v.fileBlocks id i := by
  obtain ⟨l, hl, heq⟩ := resolve_leaf id hne
  obtain ⟨hvalid, hleaf, -, -⟩ := leafPlace_valid hl
  refine ⟨l, hvalid, ?_⟩
  change if l.path.length < treeShape.depth l.root then _ else _
  rw [if_neg (hvalid.leaf hleaf), heq]
  exact hb _

theorem rawData_frame (hsb : v'.superblock = v.superblock) (hmap : v'.mapBlocks = v.mapBlocks)
    (hseek : i.isSeekable = false) (hb : ∀ b ∈ v.fileBlocks id i, v'.block b = v.block b) (n : Nat) :
    v'.rawData i n = v.rawData i n := by
  rw [Volume.rawData_bytes, Volume.rawData_bytes]
  refine List.map_congr_left fun j _ => ?_
  unfold Volume.dataByte
  rw [resolve_frame hmap hb, hmap]
  have hdata : v'.isDataBlock = v.isDataBlock := by
    funext b
    rw [Volume.isDataBlock, Volume.isDataBlock, hsb]
  rw [hdata]
  dsimp only
  split
  next hin =>
    have hne := (Volume.isDataBlock_iff.mp hin.1).1
    rw [hb _ (mem_fileBlocks (j / blockSize) hne fun r => ?_)]
    unfold Volume.extentOf
    rw [hseek, if_neg Bool.false_ne_true]
    exact ⟨rfl, hne⟩
  next => rfl

theorem chunkSlice_frame (hmap : v'.mapBlocks = v.mapBlocks) {entry : ChunkEntry} {n : Nat}
    (hn : n ≤ entry.blockCount * blockSize)
    (hb : ∀ b, entry.startBlock ≤ b → b < entry.startBlock + entry.blockCount → v'.block b = v.block b) :
    Session.chunkSlice v' entry n = Session.chunkSlice v entry n := by
  unfold Session.chunkSlice
  rw [hmap]
  split
  next =>
    refine congrArg Except.ok (List.map_congr_left fun k hk => ?_)
    have hlt := List.mem_range.mp hk
    have hdiv : k / blockSize < entry.blockCount := Nat.div_lt_of_lt_mul (by rw [Nat.mul_comm]; omega)
    rw [hb _ (Nat.le_add_right ..) (Nat.add_lt_add_left hdiv _)]
  next => rfl

theorem readChunk_frame {S : Session} (hsb : v'.superblock = v.superblock)
    (hmap : v'.mapBlocks = v.mapBlocks) (hseek : i.isSeekable = true)
    (hb : ∀ b ∈ v.fileBlocks id i, v'.block b = v.block b) (idx len : Nat) :
    S.readSingleChunkDecompressed v' id i idx len = S.readSingleChunkDecompressed v id i idx len := by
  have hentry : v'.resolveLogicalChunkEntry i idx = v.resolveLogicalChunkEntry i idx :=
    resolve_frame hmap hb idx
  unfold Session.readSingleChunkDecompressed Session.decryptChunk
  rw [hentry, hsb]
  dsimp only
  split
  next => rfl
  next hfull =>
    have hslice : ∀ n, n ≤ (v.resolveLogicalChunkEntry i idx).blockCount * blockSize →
        Session.chunkSlice v' (v.resolveLogicalChunkEntry i idx) n =
          Session.chunkSlice v (v.resolveLogicalChunkEntry i idx) n := by
      intro n hn
      refine chunkSlice_frame hmap hn fun b hlo hhi => hb b ?_
      have hempty : ChunkEntry.isEmpty (v.resolveLogicalChunkEntry i idx) = false := by simpa using hfull
      refine mem_fileBlocks idx ?_ fun r => ?_
      · intro hzero
        have hz : v.resolveLogicalChunkEntry i idx = 0 := hzero
        rw [hz] at hempty
        exact absurd hempty (by decide)
      · unfold Volume.extentOf
        rw [hseek, if_pos rfl]
        exact ⟨hempty, hlo, hhi⟩
    rw [hslice _ (Nat.min_le_right ..), hslice _ (Nat.min_le_right ..)]

/-- What `read_data` returns depends on the record and on the blocks of the file only. -/
theorem readData_frame (S : Session) (hsb : v'.superblock = v.superblock)
    (hmap : v'.mapBlocks = v.mapBlocks) (hrecord : v'.inode id = v.inode id)
    (hb : ∀ i, v.readInodeInternal id = .ok i → ∀ b ∈ v.fileBlocks id i, v'.block b = v.block b) :
    S.readData v' id = S.readData v id := by
  have hread : v'.readInodeInternal id = v.readInodeInternal id := by
    unfold Volume.readInodeInternal
    rw [hsb, hrecord]
  unfold Session.readData
  rw [hread]
  cases hi : v.readInodeInternal id with
  | error e => rfl
  | ok i =>
    change S.readDataInternal v' id i = S.readDataInternal v id i
    unfold Session.readDataInternal
    by_cases hseek : i.isSeekable = true
    · rw [if_pos hseek, if_pos hseek]
      unfold Session.readChunked64kInternal
      simp only [readChunk_frame hsb hmap hseek (hb i hi)]
    · have hwhole : i.isSeekable = false := by simpa using hseek
      rw [if_neg hseek, if_neg hseek, rawData_frame hsb hmap hwhole (hb i hi), hsb]

end Frame

section Failed

variable {v v' : Volume} {id off : Nat} {i i₀ i' : Inode} {data : List UInt8}

/-- A tree that some slots were added to holds the old one. -/
theorem get_of_fewer (h : ∀ k, i.slot k ≠ 0 → i'.slot k = i.slot k) {l : Place (Nat × Nat)}
    (hne : (v.cells (Files.single id i)).get l ≠ 0) :
    (v.cells (Files.single id i')).get l = (v.cells (Files.single id i)).get l := by
  obtain ⟨⟨j, s⟩, q⟩ := l
  induction q with
  | nil =>
    by_cases hj : j = id
    · subst hj
      rw [cells_single_root] at hne ⊢
      rw [cells_single_root]
      exact h s hne
    · exact absurd (by simp [Cells.get_root, Volume.cells, Files.single, hj]) hne
  | cons k q ih =>
    have hparent := Cells.parent_ne_zero hne
    rw [Cells.get_cons_of_ne hparent, Cells.get_cons_of_ne (by rwa [ih hparent]), ih hparent]
    rfl

theorem Volume.Intact.good (hv : v.Intact) (hid : v.inodeBit id = true)
    (hi : v.readInodeInternal id = .ok i) (hseek : i.isSeekable = false) :
    Good rawExtent (Files.single id i) v := by
  have hext : Volume.extentOf i = rawExtent := by
    unfold Volume.extentOf
    rw [hseek, if_neg Bool.false_ne_true]
  have hmark : ∀ b ∈ v.fileBlocks id i, v.marked b = true :=
    fun b hb => (hv.exact b).mpr ⟨id, i, hid, hi, hb⟩
  unfold Volume.fileBlocks at hmark
  rw [hext] at hmark
  exact ⟨hv.sound, hext ▸ hv.once id i hid hi, hmark, fun b hb => hv.inside b (hmark b hb)⟩

/-- The bytes `data` were stored for the whole file `id`, starting from its own blocks or from none,
and its record `i` was not written. -/
structure Interrupted (v : Volume) (id : Nat) (i i₀ : Inode) (v' : Volume) (i' : Inode) (off : Nat)
    (data : List UInt8) : Prop where
  intact : v.Intact
  allocated : v.inodeBit id = true
  record : v.readInodeInternal id = .ok i
  whole : i.isSeekable = false
  start : (∀ k, i₀.slot k = i.slot k) ∨ ∀ k, i₀.slot k = 0
  writes : Writes id (Files.single id i₀) v i' v' off data

namespace Interrupted

variable (h : Interrupted v id i i₀ v' i' off data)

include h

theorem blocks_eq (w : Volume) : w.fileBlocks id i = owned treeShape rawExtent (w.cells (Files.single id i)) := by
  unfold Volume.fileBlocks Volume.extentOf
  rw [h.whole, if_neg Bool.false_ne_true]

theorem tables : v.SameTables v' := h.writes.grown.tables

theorem readInode (j : Nat) : v'.readInodeInternal j = v.readInodeInternal j := by
  unfold Volume.readInodeInternal
  rw [h.tables.superblock, h.tables.inode]

theorem adds : Adds rawExtent (Files.single id i₀) v (Files.single id i') v' := by
  have hadds := h.writes.grown.toAdds
  rwa [Files.single_set] at hadds

theorem slot_keeps {k : Nat} (hne : i₀.slot k ≠ 0) : i'.slot k = i₀.slot k := by
  rw [← Files.single_inode id i₀] at hne ⊢
  exact h.writes.grown.toAdds.slot_keeps (Files.single_has id i₀) hne

theorem owned_start {b : Nat} (hb : b ∈ owned treeShape rawExtent (v.cells (Files.single id i₀))) :
    (∀ k, i₀.slot k = i.slot k) ∧ b ∈ v.fileBlocks id i := by
  rcases h.start with hsame | hnone
  · refine ⟨hsame, ?_⟩
    rwa [h.blocks_eq, ← cells_congr_slots hsame]
  · obtain ⟨l, -, hb⟩ := hb
    exact absurd (get_single_empty hnone l) (get_ne_zero_of_owns rawExtent_zero hb)

theorem block_kept {b : Nat} (hmark : v.marked b = true)
    (hout : b ∉ owned treeShape rawExtent (v.cells (Files.single id i₀))) : v'.block b = v.block b :=
  h.writes.grown.bytes b hmark fun l hl _ hb => hout ⟨l, hl, hb⟩

theorem others_kept {j : Nat} {ij : Inode} (hj : v.inodeBit j = true)
    (hij : v.readInodeInternal j = .ok ij) (hne : j ≠ id) {b : Nat} (hb : b ∈ v.fileBlocks j ij) :
    v'.block b = v.block b := by
  refine h.block_kept ((h.intact.exact b).mpr ⟨j, ij, hj, hij, hb⟩) fun hin => ?_
  exact h.intact.apart j id ij i hj hij h.allocated h.record hne b hb (h.owned_start hin).2

/-- The file itself, if the store started from no blocks. -/
theorem own_kept (hnone : ∀ k, i₀.slot k = 0) {b : Nat} (hb : b ∈ v.fileBlocks id i) :
    v'.block b = v.block b := by
  refine h.block_kept ((h.intact.exact b).mpr ⟨id, i, h.allocated, h.record, hb⟩) ?_
  rintro ⟨l, -, hin⟩
  exact get_ne_zero_of_owns rawExtent_zero hin (get_single_empty hnone l)

theorem readData_other (S : Session) {j : Nat} (hj : v.inodeBit j = true) (hne : j ≠ id) :
    S.readData v' j = S.readData v j :=
  readData_frame S h.tables.superblock h.tables.mapBlocks (congrFun h.tables.inode j)
    fun _ hij _ hb => h.others_kept hj hij hne hb

theorem reached_split {B : Nat → Inode → Set Nat} {b : Nat} :
    (∃ j ij, v.inodeBit j = true ∧ v.readInodeInternal j = .ok ij ∧ b ∈ B j ij) ↔
      (∃ j ij, j ≠ id ∧ v.inodeBit j = true ∧ v.readInodeInternal j = .ok ij ∧ b ∈ B j ij) ∨
        b ∈ B id i := by
  constructor
  · rintro ⟨j, ij, hj, hij, hb⟩
    by_cases hne : j = id
    · subst hne
      cases h.record.symm.trans hij
      exact .inr hb
    · exact .inl ⟨j, ij, hne, hj, hij, hb⟩
  · rintro (⟨j, ij, -, hj, hij, hb⟩ | hb)
    · exact ⟨j, ij, hj, hij, hb⟩
    · exact ⟨id, i, h.allocated, h.record, hb⟩

theorem marked_iff {b : Nat} : v.marked b = true ↔
    (∃ j ij, j ≠ id ∧ v.inodeBit j = true ∧ v.readInodeInternal j = .ok ij ∧ b ∈ v.fileBlocks j ij) ∨
      b ∈ v.fileBlocks id i := by
  rw [h.intact.exact b, h.reached_split]

/-- The blocks that the records lead to afterwards. -/
theorem reached_iff {b : Nat} : (∃ j ij, v'.inodeBit j = true ∧ v'.readInodeInternal j = .ok ij ∧
      b ∈ v'.fileBlocks j ij) ↔
    (∃ j ij, j ≠ id ∧ v.inodeBit j = true ∧ v.readInodeInternal j = .ok ij ∧ b ∈ v.fileBlocks j ij) ∨
      b ∈ v'.fileBlocks id i := by
  simp only [h.readInode, h.tables.inodeBit]
  rw [h.reached_split]
  refine or_congr_left (exists₂_congr fun j ij => and_congr_right fun hne => and_congr_right fun hj =>
    and_congr_right fun hij => ?_)
  rw [fileBlocks_congr h.tables.mapBlocks fun b hb => h.others_kept hj hij hne hb]

theorem exact_of_kept (hkept : ∀ k, i'.slot k = i₀.slot k) : v'.MarksExact := by
  intro b
  rw [h.reached_iff, h.adds.marked b, h.marked_iff]
  rcases h.start with hsame | hnone
  · have hall : ∀ k, i'.slot k = i.slot k := fun k => (hkept k).trans (hsame k)
    rw [h.blocks_eq, h.blocks_eq, cells_congr_slots hsame, ← cells_congr_slots (v := v') hall]
    constructor
    · rintro ((hother | hb) | ⟨hb, -⟩)
      · exact .inl hother
      · refine .inr (h.adds.owned_mono rawExtent_zero ?_)
        rwa [cells_congr_slots hsame]
      · exact .inr hb
    · rintro (hother | hb)
      · exact .inl (.inl hother)
      · by_cases hold : b ∈ owned treeShape rawExtent (v.cells (Files.single id i))
        · exact .inl (.inr hold)
        · exact .inr ⟨hb, hold⟩
  · have hempty : ∀ b, b ∉ owned treeShape rawExtent (v'.cells (Files.single id i')) := by
      rintro b ⟨l, -, hb⟩
      refine get_ne_zero_of_owns rawExtent_zero hb (get_single_empty (fun k => ?_) l)
      rw [hkept, hnone]
    rw [fileBlocks_congr h.tables.mapBlocks fun b hb => h.own_kept hnone hb]
    simp only [hempty, false_and, or_false]

theorem kept_of_exact (hexact : v'.MarksExact) : ∀ k, i'.slot k = i₀.slot k := by
  intro k
  by_contra hdiff
  have hzero : i₀.slot k = 0 := by
    by_contra hne
    exact hdiff (h.slot_keeps hne)
  have hvalid : treeShape.Valid ⟨(id, k), []⟩ := ⟨Nat.zero_le _, by simp⟩
  -- the block in the new slot was free and is marked
  have hnew : (v'.cells (Files.single id i')).get ⟨(id, k), []⟩ ≠ 0 := by
    rw [cells_single_root]
    rwa [hzero] at hdiff
  have hown := mem_owns_raw hnew
  have hout := h.adds.not_owned rawExtent_zero hvalid ((cells_single_root ..).trans hzero) hown
  have hfree := h.adds.fresh _ ⟨_, hvalid, hown⟩ hout
  have hmark := h.adds.good.marked _ ⟨_, hvalid, hown⟩
  obtain hother | hmine := h.reached_iff.mp ((hexact _).mp hmark)
  · rw [h.marked_iff.mpr (.inl hother)] at hfree
    cases hfree
  · rcases h.start with hsame | hnone
    · rw [h.blocks_eq] at hmine
      obtain ⟨l, hl, hb⟩ := hmine
      have hne := get_ne_zero_of_owns rawExtent_zero hb
      have hmore : ∀ k, i.slot k ≠ 0 → i'.slot k = i.slot k := by
        intro k hk
        rw [← hsame] at hk
        rw [h.slot_keeps hk, hsame]
      rw [owns, ← get_of_fewer hmore hne] at hb
      obtain rfl := h.adds.good.separated l _ hl hvalid _ hb hown
      rw [cells_single_root, ← hsame, hzero] at hne
      exact hne rfl
    · rw [fileBlocks_congr h.tables.mapBlocks fun b hb => h.own_kept hnone hb] at hmine
      rw [h.marked_iff.mpr (.inr hmine)] at hfree
      cases hfree

end Interrupted

theorem patch_range_iff {f : Nat → UInt8} {n : Nat} :
    (List.range n).map (patch f off data) = (List.range n).map f ↔
      ∀ k, k < data.length → off + k < n → data.getD k 0 = f (off + k) := by
  simp only [List.map_inj_left, List.mem_range]
  constructor
  · intro h k hk hn
    have heq := h (off + k) hn
    rw [patch_in hk] at heq
    rw [← heq]
    simp [hk]
  · intro h j hj
    by_cases hin : off ≤ j ∧ j < off + data.length
    · obtain ⟨k, rfl⟩ := Nat.exists_eq_add_of_le hin.1
      have hk : k < data.length := by omega
      rw [patch_in hk, ← h k hk hj]
      simp [hk]
    · exact patch_out (by omega)

namespace Interrupted

variable (h : Interrupted v id i i₀ v' i' off data)

include h

/-- With no slot taken, the file is read as before exactly if the bytes stored before its end are the
old ones. -/
theorem readData_iff (S : Session) (hsame : ∀ k, i₀.slot k = i.slot k)
    (hkept : ∀ k, i'.slot k = i₀.slot k)
    (hplain : i.physicalSize ≤ off ∨
      ∀ raw, S.decodePayload v.superblock.encryptionVersion id i raw = .ok raw) :
    S.readData v' id = S.readData v id ↔
      ∀ k, k < data.length → off + k < i.physicalSize → data.getD k 0 = v.payload i (off + k) := by
  have hall : ∀ k, i.slot k = i'.slot k := fun k => ((hkept k).trans (hsame k)).symm
  have hold := rawData_eq (h.intact.good h.allocated h.record h.whole) (Files.single_has id i) i.physicalSize
  have hnew := rawData_eq (h.adds.good.congr_slots hall) (Files.single_has id i) i.physicalSize
  have hpay := h.writes.payload
  rw [Files.single_inode] at hold hnew hpay
  rw [payload_congr_slots hall, hpay, payload_congr_slots hsame] at hnew
  have hraw : v'.rawData i i.physicalSize = v.rawData i i.physicalSize ↔
      ∀ k, k < data.length → off + k < i.physicalSize → data.getD k 0 = v.payload i (off + k) := by
    rw [hold, hnew]
    exact patch_range_iff
  rw [← hraw]
  unfold Session.readData
  rw [h.readInode, h.record]
  change S.readDataInternal v' id i = S.readDataInternal v id i ↔ _
  unfold Session.readDataInternal
  rw [h.whole, if_neg Bool.false_ne_true, if_neg Bool.false_ne_true, h.tables.superblock]
  split
  next hzero =>
    rw [hzero]
    exact ⟨fun _ => rfl, fun _ => rfl⟩
  next =>
    refine ⟨fun heq => ?_, fun heq => by rw [heq]⟩
    rcases hplain with hbehind | hid
    · exact hraw.mpr fun k _ hk => absurd hk (by omega)
    · rw [hid, hid] at heq
      exact Except.ok.inj heq

theorem kept_iff (S : Session)
    (hplain : ¬(∀ k, i₀.slot k = 0) → i.physicalSize ≤ off ∨
      ∀ raw, S.decodePayload v.superblock.encryptionVersion id i raw = .ok raw)
    (hnone : (∀ k, i₀.slot k = 0) → (∀ k, i'.slot k = i₀.slot k) → data = []) :
    ((∀ j, v.inodeBit j = true → S.readData v' j = S.readData v j) ∧ v'.MarksExact) ↔
      (∀ k, i'.slot k = i₀.slot k) ∧ ∀ k, k < data.length → off + k < i.physicalSize →
        data.getD k 0 = v.payload i₀ (off + k) := by
  have hown (hkept : ∀ k, i'.slot k = i₀.slot k) : S.readData v' id = S.readData v id ↔
      ∀ k, k < data.length → off + k < i.physicalSize → data.getD k 0 = v.payload i₀ (off + k) := by
    by_cases hempty : ∀ k, i₀.slot k = 0
    · rw [hnone hempty hkept]
      refine ⟨fun _ k hk => absurd hk (Nat.not_lt_zero k), fun _ => ?_⟩
      refine readData_frame S h.tables.superblock h.tables.mapBlocks (congrFun h.tables.inode id) ?_
      intro ij hij b hb
      cases h.record.symm.trans hij
      exact h.own_kept hempty hb
    · have hsame := h.start.resolve_right hempty
      rw [payload_congr_slots hsame]
      exact h.readData_iff S hsame hkept (hplain hempty)
  constructor
  · rintro ⟨hreads, hexact⟩
    have hkept := h.kept_of_exact hexact
    exact ⟨hkept, (hown hkept).mp (hreads id h.allocated)⟩
  · rintro ⟨hkept, hbytes⟩
    refine ⟨fun j hj => ?_, h.exact_of_kept hkept⟩
    by_cases hne : j = id
    · rw [hne]
      exact (hown hkept).mpr hbytes
    · exact h.readData_other S hj hne

end Interrupted

end Failed

end Oifs
