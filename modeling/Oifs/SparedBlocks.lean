import Oifs.StartWrite

namespace Oifs

open PointerForest

/-- What the reader of one inode relies on: superblock, record, and the bytes of the marked blocks.
-/
structure Leaves (id : Nat) (v v' : Volume) : Prop where
  superblock : v'.superblock = v.superblock
  mapBlocks : v'.mapBlocks = v.mapBlocks
  inode : v'.inode id = v.inode id
  marked : ∀ b, v.marked b = true → v'.marked b = true
  block : ∀ b, v.marked b = true → v'.block b = v.block b

structure Spares (id : Nat) (v v' : Volume) : Prop where
  superblock : v'.superblock = v.superblock
  mapBlocks : v'.mapBlocks = v.mapBlocks
  inodeBit : v'.inodeBit = v.inodeBit
  inode : ∀ j, j ≠ id → v'.inode j = v.inode j
  marked : ∀ b, v.marked b = true → v'.marked b = true
  block : ∀ b, v.marked b = true → v'.block b = v.block b

/-- A fact about an inode that no change to the rest of the image can undo. -/
def Firm (id : Nat) (v : Volume) (P : Volume → Prop) : Prop := ∀ v', Leaves id v v' → P v'

section Frame

variable {id j : Nat} {v v' v'' : Volume} {P : Volume → Prop}

theorem Leaves.refl (id : Nat) (v : Volume) : Leaves id v v :=
  ⟨rfl, rfl, rfl, fun _ hb => hb, fun _ _ => rfl⟩

theorem Leaves.trans (h : Leaves id v v') (h' : Leaves id v' v'') : Leaves id v v'' where
  superblock := h'.superblock.trans h.superblock
  mapBlocks := h'.mapBlocks.trans h.mapBlocks
  inode := h'.inode.trans h.inode
  marked b hb := h'.marked b (h.marked b hb)
  block b hb := (h'.block b (h.marked b hb)).trans (h.block b hb)

theorem Leaves.record (h : Leaves id v v') : v'.readInodeInternal id = v.readInodeInternal id := by
  unfold Volume.readInodeInternal
  rw [h.superblock, h.inode]

theorem Spares.leaves (h : Spares id v v') (hne : j ≠ id) : Leaves j v v' :=
  ⟨h.superblock, h.mapBlocks, h.inode j hne, h.marked, h.block⟩

theorem Spares.sound (h : Spares id v v') (hs : v.Sound) : v'.Sound := by
  obtain ⟨hpos, hle, hlt⟩ := hs
  rw [← h.superblock] at hpos hle hlt
  rw [← h.mapBlocks] at hle
  exact ⟨hpos, hle, hlt⟩

theorem Firm.here (h : Firm id v P) : P v := h v (Leaves.refl id v)

theorem Firm.step (h : Firm id v P) (hv : Leaves id v v') : Firm id v' P :=
  fun w hw => h w (hv.trans hw)

theorem Good.leaves {ext : Nat × Nat → Nat → Set Nat} {i : Inode}
    (hg : Good ext (Files.single id i) v) (h : Leaves id v v') :
    Good ext (Files.single id i) v' ∧ ∀ l, treeShape.Valid l →
      (v'.cells (Files.single id i)).get l = (v.cells (Files.single id i)).get l := by
  -- the records and the hints are no part of the tree
  let w : Volume := { v' with
    inodeBit := v.inodeBit
    inode := v.inode
    freeInodeHint := v.freeInodeHint }
  have htables : v.SameTables w := ⟨h.superblock, h.mapBlocks, rfl, rfl, rfl⟩
  obtain ⟨hgood, hget⟩ := hg.frame htables (fun b hb => h.marked b (hg.marked b hb))
    (fun l hin hne => h.block _ (hg.marked _ ⟨l, hin.1, owns_inner hin hne⟩))
  exact ⟨⟨⟨hgood.sound.start_pos, hgood.sound.count_le, hgood.sound.count_lt⟩, hgood.separated,
    hgood.marked, hgood.data⟩, hget⟩

theorem rawData_leaves {i : Inode} (hg : Good rawExtent (Files.single id i) v) (h : Leaves id v v')
    (n : Nat) : v'.rawData i n = v.rawData i n := by
  obtain ⟨hg', hget⟩ := hg.leaves h
  have hold := rawData_eq hg (Files.single_has id i) n
  have hnew := rawData_eq hg' (Files.single_has id i) n
  rw [Files.single_inode] at hold hnew
  rw [hold, hnew]
  refine List.map_congr_left fun j _ => ?_
  have hblocks : ∀ idx l, leafPlace id idx = some l → ∀ k,
      v'.blockByte ((v'.cells (Files.single id i)).get l) k =
        v.blockByte ((v.cells (Files.single id i)).get l) k := by
    intro idx l hl k
    obtain ⟨hvalid, -, -, -⟩ := leafPlace_valid hl
    rw [hget l hvalid]
    unfold Volume.blockByte
    split
    next => rfl
    next hne =>
      have hmark := hg.marked _ ⟨l, hvalid, mem_owns_raw hne⟩
      rw [h.block _ hmark]
  have hpay := payload_congr (Files.single_has id i) (Files.single_has id i) hblocks j
  rwa [Files.single_inode] at hpay

theorem Stores.leaves {i i' : Inode} {plan : WritePlan} {effective : FilterConfig}
    {base : Nat → UInt8} (hs : Stores v id i plan effective base v' i')
    (hg : Good rawExtent (Files.single id i') v') (h : Leaves id v' v'') :
    Stores v id i plan effective base v'' i' where
  record := h.record.trans hs.record
  superblock := h.superblock.trans hs.superblock
  raw n hn := (rawData_leaves hg h n).trans (hs.raw n hn)
  mode := hs.mode
  flags := hs.flags
  size := hs.size
  compressedSize := hs.compressedSize
  encrypted := hs.encrypted
  nonce := hs.nonce
  filter := hs.filter

end Frame

namespace Session

variable {S : Session} {v v' w : Volume} {id : Nat} {i i' : Inode} {data : List UInt8}

def Serves (S : Session) (id : Nat) (data : List UInt8) (v : Volume) : Prop :=
  (∃ i, v.readInodeInternal id = .ok i ∧ i.mode = .file) ∧ S.readData v id = .ok data

theorem collectInodeBlocks_empty (hslots : ∀ s, i.slot s = 0) : v.collectInodeBlocks i = [] := by
  unfold Volume.collectInodeBlocks
  simp [hslots, Volume.leafBlocks, Volume.treeBlocks]

theorem storePlan_spares {A : Ambient} {plan : WritePlan} {effective : FilterConfig}
    (hs : v.Sound) (hslots : ∀ s, i.slot s = 0)
    (h : storePlan A id i plan effective v = .ok () v') : Spares id v v' := by
  unfold storePlan at h
  simp only [DiskM.bind_ok] at h
  obtain ⟨i₀, v₀, hrelease, ⟨e, i₁⟩, v₁, hwrite, hinode⟩ := h
  obtain ⟨rfl, hslots₀⟩ : v₀ = v ∧ ∀ s, i₀.slot s = 0 := by
    by_cases hfree : plan.case.freesPreviousBlocks = true
    · rw [if_pos hfree] at hrelease
      unfold releaseBlocks at hrelease
      simp only [DiskM.bind_ok, DiskM.modify_ok, DiskM.pure_ok] at hrelease
      obtain ⟨_, _, rfl, rfl, rfl⟩ := hrelease
      rw [collectInodeBlocks_empty hslots]
      exact ⟨rfl, slot_cleared i⟩
    · rw [if_neg hfree] at hrelease
      obtain ⟨rfl, rfl⟩ := DiskM.pure_ok.mp hrelease
      exact ⟨rfl, hslots⟩
  have hg : Good rawExtent (Files.single id i₀) v₀ := good_empty rawExtent_zero hs hslots₀
  obtain ⟨-, hgrown, -, -⟩ := writeBufferAtOffset_ok hg (Files.single_has id i₀)
    (by rw [Files.single_inode]; exact hwrite)
  obtain ⟨rfl, -⟩ := writeInodeInternal_ok hinode
  refine ⟨hgrown.tables.superblock, hgrown.tables.mapBlocks, hgrown.tables.inodeBit, ?_, ?_, ?_⟩
  · intro j hj
    exact (Function.update_of_ne hj _ _).trans (congrFun hgrown.tables.inode j)
  · intro b hb
    exact (hgrown.marked b).mpr (.inl hb)
  · intro b hb
    refine hgrown.bytes b hb fun l hl _ hown => ?_
    exact get_ne_zero_of_owns rawExtent_zero hown (get_single_empty hslots₀ l)

theorem write_whole_firm {A : Ambient} {mode : CompressionMode} {config : FilterConfig}
    (hC : S.codec.Lawful) (hs : v.Sound) (hj : v.superblock.hasJournalLayout = false)
    (hrecord : v.readInodeInternal id = .ok i) (hmode : i.mode = .file) (hwhole : i.isSeekable = false)
    (hsize : i.size = 0) (hslots : ∀ s, i.slot s = 0)
    (hkey : S.encryptionKey = none → i.encrypted = false) (hcall : mode.isSeekable = false)
    (h : S.writeDataWithFilters A id 0 data mode config v = .ok () v') :
    Spares id v v' ∧ Firm id v' (S.Serves id data) := by
  obtain ⟨existing, plan, -, hplan, hstore⟩ := writeDataWithFilters_ok hrecord hwhole hcall hj h
  refine ⟨storePlan_spares hs hslots hstore, ?_⟩
  obtain ⟨i', hrewritten⟩ := storePlan_ok (good_empty rawExtent_zero hs hslots) hstore
  intro w hw
  have hstores := hrewritten.stores.leaves hrewritten.good hw
  cases planWritePrepared_start hplan with
  | raw _ hshort => exact absurd hshort (by omega)
  | @full payload _ hbuild =>
    have hmax : max i.size payload.buffer.length = payload.buffer.length := by omega
    rw [hmax, ite_self] at hstores
    exact ⟨⟨i', hstores.record, hstores.mode.trans hmode⟩,
      hstores.read_full hC hbuild hmode hwhole hkey⟩

theorem entries_leaves {P : Nat → Volume → ChunkEntry → Prop} (hP : ∀ idx, LocalTo (P idx))
    (hg : Good chunkExtent (Files.single id i) v) (h : Entries v i P) (hw : Leaves id v w) :
    Entries w i P := by
  obtain ⟨-, hget⟩ := hg.leaves hw
  intro idx
  have hold := h idx
  cases hl : leafPlace id idx with
  | none =>
    rw [resolveLogicalChunkEntry_none _ hl] at hold ⊢
    refine hP idx (r := (0, 0)) hold hw.superblock hw.mapBlocks fun b hb => ?_
    rw [chunkExtent_zero] at hb
    exact hb.elim
  | some l =>
    obtain ⟨hvalid, hleaf, -, -⟩ := leafPlace_valid hl
    rw [resolveLogicalChunkEntry_single _ hl] at hold ⊢
    rw [hget l hvalid]
    refine hP idx (r := l.root) hold hw.superblock hw.mapBlocks fun b hb => hw.block b (hg.marked b ?_)
    exact ⟨l, hvalid, (mem_claims_leaf (hvalid.leaf hleaf)).mpr hb⟩

theorem ChunkView.leaves {c : Nat → UInt8} (h : S.ChunkView v id i c) (hw : Leaves id v w) :
    S.ChunkView w id i c :=
  ⟨hw.record.trans h.record, h.mode, h.plain, hw.superblock ▸ h.journal, (h.good.leaves hw).1,
    entries_leaves (P := fun idx => S.HoldsBytes fun k => c (idx * chunkSize64k + k))
      (fun _ => holdsBytes_local _) h.good h.chunks hw, h.zero⟩

theorem SealedFile.leaves {c : Nat → UInt8} (h : S.SealedFile v id i c) (hw : Leaves id v w) :
    S.SealedFile w id i c :=
  ⟨hw.record.trans h.record, h.mode, h.encrypted, h.seekable, (h.good.leaves hw).1,
    entries_leaves (fun idx => sealedChunk_local _ _ _ idx) h.good h.chunks hw⟩

theorem readData_empty (hrecord : v.readInodeInternal id = .ok i) (hsize : i.size = 0)
    (hcomp : i.isSeekable = false → i.compressedSize = 0) : S.readData v id = .ok [] := by
  unfold readData
  rw [hrecord]
  change S.readDataInternal v id i = _
  cases hseek : i.isSeekable with
  | true =>
    rw [readDataInternal, if_pos hseek, readChunked64kInternal_eq_loop, hsize, readAtChunkedLoop,
      if_pos rfl]
  | false =>
    rw [readDataInternal, hseek, if_neg Bool.false_ne_true, Inode.physicalSize, hcomp hseek, hsize]
    rfl

/-- A seekable call on an empty file spares everything else, and what it wrote stays readable. -/
theorem write_chunked_firm {A : Ambient} {mode : CompressionMode} {config : FilterConfig}
    (hC : S.codec.Lawful) (hs : v.Sound) (hj : v.superblock.hasJournalLayout = false)
    (hrecord : v.readInodeInternal id = .ok i) (hmode : i.mode = .file) (hsize : i.size = 0)
    (hslots : ∀ s, i.slot s = 0) (hplain : S.encryptionKey = none → i.encrypted = false)
    (hseek : (i.isSeekable || mode.isSeekable) = true)
    (htag : S.encryptionKey.isSome = true → S.codec.Tagged)
    (hcomp : data = [] → i.isSeekable = false → i.compressedSize = 0)
    (hfits : S.FitsImage A v id ⟨0, data, mode, config⟩)
    (h : S.writeDataWithFilters A id 0 data mode config v = .ok () v') :
    Spares id v v' ∧ Firm id v' (S.Serves id data) := by
  have hcall : isSeekableWrite v id mode = .ok true := by
    unfold isSeekableWrite
    rw [hrecord]
    exact congrArg Except.ok hseek
  have hwrite : S.write id A ⟨0, data, mode, config⟩ v = .ok () v' := h
  by_cases hdata : data = []
  · obtain rfl := write_nil hcall hdata hwrite
    refine ⟨⟨rfl, rfl, rfl, fun _ _ => rfl, fun _ hb => hb, fun _ _ => rfl⟩, fun w hw => ?_⟩
    have hrecord' := hw.record.trans hrecord
    rw [hdata]
    exact ⟨⟨i, hrecord', hmode⟩, readData_empty hrecord' hsize (hcomp hdata)⟩
  have hgood : Good chunkExtent (Files.single id i) v := good_empty chunkExtent_zero hs hslots
  have hspares : ∀ {u : Volume}, SparesOthers id i v u → Spares id v u := by
    intro u hu
    have hnone : ∀ b, b ∉ owned treeShape chunkExtent (v.cells (Files.single id i)) := by
      rintro b ⟨l, -, hb⟩
      exact get_ne_zero_of_owns chunkExtent_zero hb (get_single_empty hslots l)
    exact ⟨hu.superblock, hu.mapBlocks, hu.inodeBit, hu.inode, fun b hb => (hu.rest b hb (hnone b)).1,
      fun b hb => (hu.rest b hb (hnone b)).2⟩
  have hbytes : ∀ {n : Nat}, n = max i.size (0 + data.length) →
      (List.range n).map (patch (fun _ => 0) 0 data) = data := by
    intro n hn
    rw [hn, hsize, Nat.max_eq_right (Nat.zero_le _), map_range_patch]
    rfl
  cases hkey : S.encryptionKey with
  | none =>
    have hview : S.ChunkView v id i fun _ => 0 :=
      ⟨hrecord, hmode, hplain hkey, hj, hgood, chunks_empty hslots fun _ _ => rfl, fun _ _ => rfl⟩
    obtain ⟨hothers, i', hsize', hseek', h'⟩ := hview.write hC hkey hdata hcall hfits hwrite
    refine ⟨hspares hothers, fun w hw => ?_⟩
    have hw' := h'.leaves hw
    have hread := readData_parts hw'.record hseek' (hw'.parts hC)
    rw [hbytes hsize'] at hread
    exact ⟨⟨i', hw'.record, hw'.mode⟩, hread⟩
  | some key =>
    have htagged : S.codec.Tagged := htag (by rw [hkey]; rfl)
    have hblank : Blank v i := fun idx => by
      rw [resolveLogicalChunkEntry_empty v idx hslots]
      rfl
    obtain ⟨hothers, i', hsize', h'⟩ := write_sealed htagged hkey hrecord hmode hj hgood hblank hdata
      hcall hfits hwrite
    refine ⟨hspares hothers, fun w hw => ?_⟩
    have hw' := h'.leaves hw
    have hread := hw'.read hC htagged hkey
    rw [hbytes hsize'] at hread
    exact ⟨⟨i', hw'.record, hw'.mode⟩, hread⟩

/-- A write of a whole content to an empty file. -/
structure FirstWrite where
  id : Nat
  ambient : Ambient
  data : List UInt8
  mode : CompressionMode
  config : FilterConfig

def firstWrites (S : Session) : List FirstWrite → DiskM Unit
  | [] => return ()
  | c :: cs => do
    S.writeDataWithFilters c.ambient c.id 0 c.data c.mode c.config
    S.firstWrites cs

def FirstWrite.call (c : FirstWrite) : WriteCall := ⟨0, c.data, c.mode, c.config⟩

/-- The file is empty, not marked as encrypted without a key, and a call of no bytes finds no stale
compressed size. -/
def FirstWrite.Ready (S : Session) (v : Volume) (c : FirstWrite) : Prop :=
  ∃ i, v.readInodeInternal c.id = .ok i ∧ i.mode = .file ∧ i.size = 0 ∧ (∀ s, i.slot s = 0) ∧
    (S.encryptionKey = none → i.encrypted = false) ∧
    ((i.isSeekable || c.mode.isSeekable) = true → c.data = [] → i.isSeekable = false →
      i.compressedSize = 0)

/-- When its turn comes, each seekable call is given runs that end inside the image. -/
def FirstWritesFit (S : Session) : List FirstWrite → Volume → Prop
  | [], _ => True
  | c :: cs, v => (isSeekableWrite v c.id c.mode = .ok true → S.FitsImage c.ambient v c.id c.call) ∧
    ∀ w, w.superblock = v.superblock →
      S.writeDataWithFilters c.ambient c.id 0 c.data c.mode c.config v = .ok () w → S.FirstWritesFit cs w

theorem ChunkImage.firstWritesFit (S : Session) (calls : List FirstWrite) (h : ChunkImage v) :
    S.FirstWritesFit calls v := by
  induction calls generalizing v with
  | nil => trivial
  | cons c cs ih => exact ⟨fun _ => h.fits S c.ambient c.id c.call, fun w hsb _ => ih (h.congr hsb)⟩

theorem firstWrite_firm {c : FirstWrite} (hC : S.codec.Lawful)
    (htag : S.encryptionKey.isSome = true → S.codec.Tagged) (hs : v.Sound)
    (hj : v.superblock.hasJournalLayout = false) (hready : c.Ready S v)
    (hfits : isSeekableWrite v c.id c.mode = .ok true → S.FitsImage c.ambient v c.id c.call)
    (h : S.writeDataWithFilters c.ambient c.id 0 c.data c.mode c.config v = .ok () v') :
    Spares c.id v v' ∧ Firm c.id v' (S.Serves c.id c.data) := by
  obtain ⟨i, hrecord, hmode, hsize, hslots, hplain, hcomp⟩ := hready
  have hkind : isSeekableWrite v c.id c.mode = .ok (i.isSeekable || c.mode.isSeekable) := by
    unfold isSeekableWrite
    rw [hrecord]
    rfl
  cases hseek : i.isSeekable || c.mode.isSeekable with
  | true =>
    exact write_chunked_firm hC hs hj hrecord hmode hsize hslots hplain hseek htag (hcomp hseek)
      (hfits (hseek ▸ hkind)) h
  | false =>
    obtain ⟨hwhole, hcall⟩ := Bool.or_eq_false_iff.mp hseek
    exact write_whole_firm hC hs hj hrecord hmode hwhole hsize hslots hplain hcall h

theorem FirstWrite.Ready.leaves {c : FirstWrite} (h : c.Ready S v) (hw : Leaves c.id v w) :
    c.Ready S w := by
  obtain ⟨i, hrecord, hrest⟩ := h
  exact ⟨i, hw.record.trans hrecord, hrest⟩

/-- When its turn comes, each call stores what it is given and spares the other files. -/
def WritesServe (S : Session) : List FirstWrite → Volume → Prop
  | [], _ => True
  | c :: cs, v => ∀ w, S.writeDataWithFilters c.ambient c.id 0 c.data c.mode c.config v = .ok () w →
    (Spares c.id v w ∧ Firm c.id w (S.Serves c.id c.data)) ∧ S.WritesServe cs w

theorem writesServe_ready {calls : List FirstWrite} (hC : S.codec.Lawful)
    (htag : S.encryptionKey.isSome = true → S.codec.Tagged) (hs : v.Sound)
    (hj : v.superblock.hasJournalLayout = false) (hnodup : (calls.map (·.id)).Nodup)
    (hready : ∀ c ∈ calls, c.Ready S v) (hfit : S.FirstWritesFit calls v) : S.WritesServe calls v := by
  induction calls generalizing v with
  | nil => trivial
  | cons c cs ih =>
    intro w hwrite
    have hfirm := firstWrite_firm hC htag hs hj (hready c List.mem_cons_self) hfit.1 hwrite
    have hspares := hfirm.1
    obtain ⟨hnew, hcs⟩ := List.nodup_cons.mp hnodup
    refine ⟨hfirm, ih (hspares.sound hs) (hspares.superblock ▸ hj) hcs (fun d hd => ?_)
      (hfit.2 w hspares.superblock hwrite)⟩
    exact (hready d (List.mem_cons_of_mem c hd)).leaves (hspares.leaves fun heq =>
      hnew (List.mem_map.mpr ⟨d, hd, heq⟩))

theorem firstWrites_firm {calls : List FirstWrite} (hnodup : (calls.map (·.id)).Nodup)
    (hserve : S.WritesServe calls v) (h : S.firstWrites calls v = .ok () v') :
    v'.superblock = v.superblock ∧ v'.mapBlocks = v.mapBlocks ∧ v'.inodeBit = v.inodeBit ∧
      (∀ c ∈ calls, Firm c.id v' (S.Serves c.id c.data)) ∧
      ∀ j, j ∉ calls.map (·.id) → Leaves j v v' := by
  induction calls generalizing v with
  | nil =>
    obtain ⟨-, rfl⟩ := DiskM.pure_ok.mp h
    exact ⟨rfl, rfl, rfl, fun c hc => absurd hc List.not_mem_nil, fun j _ => Leaves.refl j v⟩
  | cons c cs ih =>
    obtain ⟨_, w, hwrite, hrest⟩ := DiskM.bind_ok.mp h
    obtain ⟨⟨hspares, hserves⟩, hrestServe⟩ := hserve w hwrite
    obtain ⟨hnew, hcs⟩ := List.nodup_cons.mp hnodup
    obtain ⟨hsuper, hmap, hbits, hfiles, hothers⟩ := ih hcs hrestServe hrest
    refine ⟨hsuper.trans hspares.superblock, hmap.trans hspares.mapBlocks,
      hbits.trans hspares.inodeBit, fun d hd => ?_, fun j hjs => ?_⟩
    · rcases List.mem_cons.mp hd with rfl | hd
      · exact hserves.step (hothers d.id hnew)
      · exact hfiles d hd
    · rw [List.map_cons, List.mem_cons, not_or] at hjs
      exact (hspares.leaves hjs.1).trans (hothers j hjs.2)

/-- Empty files are filled one after another: in the end each of them reads as what was written to
it, and the records and blocks of the others are as before. -/
theorem firstWrites_served {calls : List FirstWrite} (hC : S.codec.Lawful)
    (htag : S.encryptionKey.isSome = true → S.codec.Tagged) (hs : v.Sound)
    (hj : v.superblock.hasJournalLayout = false) (hnodup : (calls.map (·.id)).Nodup)
    (hready : ∀ c ∈ calls, c.Ready S v) (hfit : S.FirstWritesFit calls v)
    (h : S.firstWrites calls v = .ok () v') :
    (∀ c ∈ calls, S.readData v' c.id = .ok c.data) ∧
      ∀ j, j ∉ calls.map (·.id) → Leaves j v v' := by
  obtain ⟨-, -, -, hfirm, hothers⟩ :=
    firstWrites_firm hnodup (writesServe_ready hC htag hs hj hnodup hready hfit) h
  exact ⟨fun c hc => (hfirm c hc).here.2, hothers⟩

/-- One file filled in seekable mode and two stored whole. -/
def threeFirstWrites : List FirstWrite :=
  [⟨1, epoch, [3], .seekable 65536 1, .none⟩, ⟨0, epoch, [1, 2], .never, .none⟩,
    ⟨2, epoch, [4], .always, .none⟩]

theorem isSeekableWrite_after {x : DiskM Unit} {mode : CompressionMode} {b : Bool}
    (hx : x v = .ok () w)
    (h : (outcome x v).map (fun u => (isSeekableWrite u id mode).toOption) = some (some b)) :
    isSeekableWrite w id mode = .ok b := by
  obtain ⟨_, hw, hkind⟩ := outcome_map_some h
  cases hx.symm.trans hw
  cases hrun : isSeekableWrite w id mode with
  | error e =>
    rw [hrun] at hkind
    cases hkind
  | ok a =>
    rw [hrun] at hkind
    exact congrArg Except.ok (Option.some.inj hkind)

theorem firstWrites_served_three : ∃ v',
    (clearSession none).firstWrites threeFirstWrites newFiles = .ok () v' ∧
      (clearSession none).readData v' 1 = .ok [3] ∧
      (clearSession none).readData v' 0 = .ok [1, 2] ∧ (clearSession none).readData v' 2 = .ok [4] := by
  have hdone : ((clearSession none).firstWrites threeFirstWrites).run' newFiles = some () := by
    decide +kernel
  unfold EStateM.run' EStateM.run at hdone
  cases h : (clearSession none).firstWrites threeFirstWrites newFiles with
  | error e v' =>
    rw [h] at hdone
    cases hdone
  | ok u v' =>
    have hready : ∀ c ∈ threeFirstWrites, c.Ready (clearSession none) newFiles := by
      intro c hc
      simp only [threeFirstWrites, List.mem_cons, List.not_mem_nil, or_false] at hc
      rcases hc with rfl | rfl | rfl <;>
        exact ⟨_, rfl, rfl, rfl, Inode.slot_new .file, fun _ => rfl, fun _ _ _ => rfl⟩
    have hfit : (clearSession none).FirstWritesFit threeFirstWrites newFiles := by
      refine ⟨fun _ => newFiles_fits (by decide +kernel), fun w _ hw => ⟨fun hseek => ?_, fun w' _ hw' =>
        ⟨fun hseek => ?_, fun _ _ _ => trivial⟩⟩⟩
      · cases hseek.symm.trans (isSeekableWrite_after hw (b := false) (by decide +kernel))
      · have hboth : (clearSession none).firstWrites (threeFirstWrites.take 2) newFiles = .ok () w' :=
          DiskM.bind_ok.mpr ⟨_, _, hw, DiskM.bind_ok.mpr ⟨_, _, hw', rfl⟩⟩
        cases hseek.symm.trans (isSeekableWrite_after hboth (b := false) (by decide +kernel))
    have hserved := (firstWrites_served Codec.clearCodec_lawful (fun h => absurd h (by decide))
      ⟨by decide, by decide, by decide⟩ rfl (by decide) hready hfit h).1
    exact ⟨v', rfl, hserved _ List.mem_cons_self,
      hserved _ (List.mem_cons_of_mem _ List.mem_cons_self),
      hserved _ (List.mem_cons_of_mem _ (List.mem_cons_of_mem _ List.mem_cons_self))⟩

end Session

end Oifs
