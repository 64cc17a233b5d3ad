import Oifs.FileContent

namespace Oifs

open PointerForest

section Frame

variable {ext : Nat × Nat → Nat → Set Nat} {v v' : Volume} {i i' : Inode} {id : Nat}

theorem resolve_congr (hmap : v'.mapBlocks = v.mapBlocks) (hblock : v'.block = v.block)
    (h : ∀ s, i'.slot s = i.slot s) (k : Nat) :
    v'.resolveLogicalBlockId i' k = v.resolveLogicalBlockId i k := by
  have hptr : ∀ b j, v'.readBlockPtr b j = v.readBlockPtr b j := fun b j =>
    Volume.readBlockPtr_congr hmap (congrFun hblock b) j
  unfold Volume.resolveLogicalBlockId Volume.follow
  simp only [h, hptr]

theorem payload_congr_slots (h : ∀ s, i'.slot s = i.slot s) : v.payload i' = v.payload i := by
  funext j
  rw [Volume.payload, Volume.payload, resolve_congr rfl rfl h]

theorem cells_congr_slots (h : ∀ s, i'.slot s = i.slot s) :
    v.cells (Files.single id i') = v.cells (Files.single id i) := by
  unfold Volume.cells
  congr 1
  funext r
  by_cases hr : r.1 = id
  · rw [hr, Files.single_inode, Files.single_inode, h]
    rfl
  · simp [Files.single, hr]

theorem Good.congr_slots (hg : Good ext (Files.single id i) v) (h : ∀ s, i'.slot s = i.slot s) :
    Good ext (Files.single id i') v := by
  obtain ⟨hs, hsep, hmark, hdata⟩ := hg
  rw [← cells_congr_slots h] at hsep hmark hdata
  exact ⟨hs, hsep, hmark, hdata⟩

theorem Good.setInode {F : Files} (hg : Good ext F v) (table : Nat → Except InodeFormatError Inode) :
    Good ext F { v with inode := table } :=
  ⟨⟨hg.sound.start_pos, hg.sound.count_le, hg.sound.count_lt⟩, hg.separated, hg.marked, hg.data⟩

theorem get_single_empty (h : ∀ s, i.slot s = 0) (l : Place (Nat × Nat)) :
    (v.cells (Files.single id i)).get l = 0 := by
  obtain ⟨r, p⟩ := l
  have hroot : (v.cells (Files.single id i)).get ⟨r, []⟩ = 0 := by
    rw [Cells.get_root]
    by_cases hr : r.1 = id
    · have hcell := v.cells_root (Files.single_has id i) r.2
      rw [Files.single_inode, h] at hcell
      rw [show r = (id, r.2) from Prod.ext hr rfl]
      exact hcell
    · simp [Volume.cells, Files.single, hr]
  simpa using Cells.get_below_zero hroot p

theorem good_empty (hext : ∀ r, ext r 0 = ∅) (hs : v.Sound) (h : ∀ s, i.slot s = 0) :
    Good ext (Files.single id i) v := by
  have howned : ∀ b, b ∉ owned treeShape ext (v.cells (Files.single id i)) := by
    rintro b ⟨l, -, hb⟩
    exact get_ne_zero_of_owns hext hb (get_single_empty h l)
  refine ⟨hs, ?_, fun b hb => absurd hb (howned b), fun b hb => absurd hb (howned b)⟩
  intro l l' hl _ b hb _
  exact absurd ⟨l, hl, hb⟩ (howned b)

theorem payload_empty (h : ∀ s, i.slot s = 0) : v.payload i = fun _ => 0 := by
  funext j
  have hzero : v.resolveLogicalBlockId i (j / blockSize) = 0 := by
    rw [resolve_single v 0]
    cases leafPlace 0 (j / blockSize) with
    | none => rfl
    | some l => exact get_single_empty h l
  rw [Volume.payload, hzero]
  rfl

theorem sameTables_free (v : Volume) (b : Nat) : v.SameTables (v.free b) := by
  unfold Volume.free
  split
  next => exact Volume.SameTables.refl v
  next => exact ⟨rfl, rfl, rfl, rfl, rfl⟩

theorem sameTables_freeBlocks (v : Volume) (blks : List Nat) : v.SameTables (v.freeBlocks blks) := by
  have hfold : ∀ (blks : List Nat) (v : Volume), v.SameTables (blks.foldl Volume.free v) := by
    intro blks
    induction blks with
    | nil => exact Volume.SameTables.refl
    | cons b blks ih => exact fun v => (sameTables_free v b).trans (ih _)
  unfold Volume.freeBlocks
  dsimp only
  split
  next =>
    split
    next => exact (hfold blks v).trans ⟨rfl, rfl, rfl, rfl, rfl⟩
    next => exact hfold blks v
  next => exact hfold blks v

theorem slot_congr {i i' : Inode} (hb : i'.blocks = i.blocks)
    (ht : i'.tripleIndirect = i.tripleIndirect) (s : Nat) : i'.slot s = i.slot s := by
  unfold Inode.slot
  rw [hb, ht]

theorem slot_cleared (i : Inode) (s : Nat) :
    ({ i with blocks := fun _ => 0, tripleIndirect := 0 } : Inode).slot s = 0 := by
  unfold Inode.slot
  split
  next => rfl
  next =>
    split
    next => rfl
    next => rfl

theorem markSeekable_slot (S : Session) (A : Ambient) (i : Inode) (s : Nat) :
    (S.markSeekable A i).slot s = i.slot s := by
  unfold Session.markSeekable
  split <;> split <;> rfl

theorem writeInodeInternal_ok {v v' : Volume} {id : Nat} {i : Inode}
    (h : Volume.writeInodeInternal id i v = .ok () v') :
    v' = { v with inode := Function.update v.inode id (.ok i) } ∧
      v'.readInodeInternal id = .ok i := by
  unfold Volume.writeInodeInternal at h
  rw [DiskM.get_bind] at h
  split at h
  next => exact absurd h (by simp)
  next hid =>
    rw [DiskM.set_ok] at h
    subst h
    refine ⟨rfl, ?_⟩
    unfold Volume.readInodeInternal
    rw [if_neg hid]
    simp

end Frame

namespace Session

variable {S : Session} {v v' : Volume} {id : Nat}
  {i : Inode} {offset : Nat} {content data : List UInt8}
  {mode : CompressionMode} {config : FilterConfig} {effective : FilterConfig}

theorem readDataInternal_of_raw {raw content : List UInt8} (hC : S.codec.Lawful)
    (hmode : i.mode = .file) (hwhole : i.isSeekable = false)
    (hraw : v.rawData i i.physicalSize = raw)
    (henc : S.Encodes v.superblock.encryptionVersion id i raw content) :
    S.readDataInternal v id i = .ok content := by
  unfold readDataInternal
  rw [hwhole, if_neg (by simp)]
  by_cases hzero : i.physicalSize = 0
  · have hsize : i.size = 0 := by
      unfold Inode.physicalSize at hzero
      split at hzero <;> omega
    rw [if_pos hzero, henc.nil_of_size hC hsize]
  · rw [if_neg hzero, hraw]
    exact henc.decode hC hmode

/-- A file that is stored whole: its tree is its own, and its payload encodes `content`. -/
structure StoredFile (S : Session) (v : Volume) (id : Nat) (i : Inode) (content : List UInt8) :
    Prop where
  record : v.readInodeInternal id = .ok i
  mode : i.mode = .file
  whole : i.isSeekable = false
  good : Good rawExtent (Files.single id i) v
  encodes : S.Encodes v.superblock.encryptionVersion id i
    ((List.range i.physicalSize).map (v.payload i)) content

theorem StoredFile.readInternal {content : List UInt8} (hC : S.codec.Lawful)
    (h : S.StoredFile v id i content) : S.readDataInternal v id i = .ok content := by
  have hraw := rawData_eq (F := Files.single id i) h.good (Files.single_has id i) i.physicalSize
  rw [Files.single_inode] at hraw
  exact readDataInternal_of_raw hC h.mode h.whole hraw h.encodes

theorem StoredFile.read {content : List UInt8} (hC : S.codec.Lawful)
    (h : S.StoredFile v id i content) : S.readData v id = .ok content := by
  unfold readData
  rw [h.record]
  exact h.readInternal hC

structure Rewritten (v : Volume) (id : Nat) (i : Inode) (plan : WritePlan) (effective : FilterConfig)
    (v' : Volume) (i' : Inode) : Prop where
  record : v'.readInodeInternal id = .ok i'
  tables : v'.superblock = v.superblock
  good : Good rawExtent (Files.single id i') v'
  payload : v'.payload i' = patch
    (if plan.case.freesPreviousBlocks then fun _ => 0 else v.payload i) plan.physOff plan.buffer
  mode : i'.mode = i.mode
  flags : i'.flags = i.flags
  size : i'.size = plan.newSize
  compressedSize : i'.compressedSize = plan.newCompressedSize
  encrypted : i'.encrypted = (plan.encryptionNonce.isSome || i.encrypted)
  nonce : i'.encryptionNonce = plan.encryptionNonce.getD i.encryptionNonce
  filter : i'.filter = if plan.case.rewritesFilterMetadata then effective else i.filter

theorem releaseBlocks_ok {i i' : Inode} (hs : v.Sound) (h : releaseBlocks i v = .ok i' v') :
    v.SameTables v' ∧ SameMeta i i' ∧ Good rawExtent (Files.single id i') v' ∧
      v'.payload i' = fun _ => 0 := by
  unfold releaseBlocks at h
  simp only [DiskM.bind_ok, DiskM.modify_ok, DiskM.pure_ok] at h
  obtain ⟨_, _, rfl, rfl, rfl⟩ := h
  have htables := sameTables_freeBlocks v (v.collectInodeBlocks i)
  exact ⟨htables, rfl, good_empty rawExtent_zero (htables.sound hs) (slot_cleared i),
    payload_empty (slot_cleared i)⟩

theorem storePlan_ok {A : Ambient} {plan : WritePlan} (hg : Good rawExtent (Files.single id i) v)
    (h : storePlan A id i plan effective v = .ok () v') :
    ∃ i', Rewritten v id i plan effective v' i' := by
  unfold storePlan at h
  simp only [DiskM.bind_ok] at h
  obtain ⟨i₀, v₀, hrelease, ⟨e, i₁⟩, v₁, hwrite, hinode⟩ := h
  obtain ⟨htab, hmeta₀, hg₀, hpay₀⟩ : v.SameTables v₀ ∧ SameMeta i i₀ ∧
      Good rawExtent (Files.single id i₀) v₀ ∧
      v₀.payload i₀ = if plan.case.freesPreviousBlocks then fun _ => 0 else v.payload i := by
    by_cases hfree : plan.case.freesPreviousBlocks = true
    · rw [if_pos hfree] at hrelease ⊢
      exact releaseBlocks_ok hg.sound hrelease
    · rw [if_neg hfree] at hrelease ⊢
      obtain ⟨rfl, rfl⟩ := DiskM.pure_ok.mp hrelease
      exact ⟨Volume.SameTables.refl v, SameMeta.refl i, hg, rfl⟩
  obtain ⟨-, hgrown, hmeta₁, hpay₁⟩ := writeBufferAtOffset_ok (F := Files.single id i₀) hg₀
    (Files.single_has id i₀) (by rw [Files.single_inode]; exact hwrite)
  rw [Files.single_inode] at hmeta₁ hpay₁
  rw [Files.single_set] at hgrown
  obtain ⟨rfl, hrecord⟩ := writeInodeInternal_ok hinode
  have hslots : ∀ s, (updateInode plan effective A.now i₁).slot s = i₁.slot s := slot_congr rfl rfl
  refine ⟨_, hrecord, ?_, ?_, ?_, ?_, ?_, rfl, rfl, ?_, ?_, ?_⟩
  · exact hgrown.tables.superblock.trans htab.superblock
  · exact (hgrown.good.setInode _).congr_slots hslots
  · rw [payload_congr_slots hslots]
    exact hpay₁.trans (by rw [hpay₀])
  all_goals
    rw [hmeta₁, hmeta₀]
    rfl

theorem compressPayload_ok {working final : List UInt8} {isCompressed : Bool}
    (h : S.compressPayload working mode = .ok (final, isCompressed)) :
    if isCompressed then ∃ level, S.codec.compressFrame working level = .ok final
    else final = working := by
  cases mode with
  | always | stream level | seekable _ level =>
    simp only [compressPayload, except_bind_ok, except_pure_ok] at h
    obtain ⟨f, hf, h⟩ := h
    cases h
    exact ⟨_, hf⟩
  | never =>
    cases h
    rfl
  | auto =>
    dsimp only [compressPayload] at h
    by_cases hlong : working.length ≥ 8192
    · simp only [if_pos hlong, except_bind_ok, except_pure_ok] at h
      obtain ⟨f, hf, h⟩ := h
      by_cases hless : f.length < working.length
      · rw [if_pos hless] at h
        cases h
        exact ⟨0, hf⟩
      · rw [if_neg hless] at h
        cases h
        rfl
    · rw [if_neg hlong] at h
      cases h
      rfl

variable {nonce : Nonce} {payload : FullOverwritePayload}

theorem build_ok {full aad : List UInt8}
    (h : S.buildFullOverwriteBufferPure full mode effective nonce aad = .ok payload) :
    ∃ final, S.compressPayload (S.codec.applyFilters full effective) mode =
        .ok (final, payload.isCompressed) ∧
      ((∃ key, S.encryptionKey = some key ∧ S.codec.encryptData final key nonce aad =
          .ok payload.buffer ∧ payload.encryptionNonce = some nonce) ∨
        (S.encryptionKey = none ∧ payload.buffer = final ∧ payload.encryptionNonce = none)) := by
  unfold buildFullOverwriteBufferPure at h
  simp only [except_bind_ok] at h
  obtain ⟨⟨final, isCompressed⟩, hc, h⟩ := h
  cases hkey : S.encryptionKey with
  | some key =>
    rw [hkey] at h
    simp only [except_bind_ok, except_pure_ok] at h
    obtain ⟨cipher, hcipher, rfl⟩ := h
    exact ⟨final, hc, Or.inl ⟨key, rfl, hcipher, rfl⟩⟩
  | none =>
    rw [hkey] at h
    cases h
    exact ⟨final, hc, Or.inr ⟨rfl, rfl, rfl⟩⟩

theorem build_encodes {full : List UInt8} {scheme : Nat} (hC : S.codec.Lawful)
    (h : S.buildFullOverwriteBufferPure full mode effective nonce (fileAadForScheme id scheme) =
      .ok payload)
    (hfilter : i.filter = effective) (hencrypted : i.encrypted = payload.encryptionNonce.isSome)
    (hnonce : ∀ n, payload.encryptionNonce = some n → i.encryptionNonce = n)
    (hcomp : i.compressedSize = if payload.isCompressed then payload.buffer.length else 0)
    (hsize : i.size = if payload.isCompressed then full.length else payload.buffer.length) :
    S.Encodes scheme id i payload.buffer full := by
  obtain ⟨final, hfinal, hlayer⟩ := build_ok h
  have hfinal := compressPayload_ok hfinal
  have henc : S.Encrypts scheme id i final payload.buffer := by
    unfold Encrypts
    rcases hlayer with ⟨key, hkey, hcipher, hn⟩ | ⟨-, hbuf, hn⟩
    · rw [hencrypted, hn, if_pos (show (some nonce).isSome = true from rfl), hnonce _ hn]
      exact ⟨key, hkey, hcipher⟩
    · rw [hencrypted, hn, if_neg (by simp)]
      exact hbuf
  by_cases hc : payload.isCompressed = true
  · rw [if_pos hc] at hcomp hsize hfinal
    obtain ⟨level, hframe⟩ := hfinal
    have hpos : 0 < payload.buffer.length := by
      rw [List.length_pos_iff]
      rcases hlayer with ⟨key, -, hcipher, -⟩ | ⟨-, hbuf, -⟩
      · exact hC.cipher_ne_nil hcipher
      · rw [hbuf]
        exact hC.frame_ne_nil hframe
    refine ⟨⟨final, henc, ?_⟩, ?_, fun _ => hsize⟩
    · rw [Compresses, if_pos (by omega), hfilter]
      refine ⟨[(S.codec.applyFilters full effective, final)], by simp, ?_, by simp, by simp⟩
      intro p hp
      rw [List.mem_singleton.mp hp]
      exact ⟨level, hframe⟩
    · rw [Inode.physicalSize, if_pos (by omega), hcomp]
  · rw [if_neg hc] at hcomp hsize hfinal
    refine ⟨⟨final, henc, ?_⟩, ?_, fun hpos => absurd hpos (by omega)⟩
    · rw [Compresses, if_neg (by omega), hfilter, hfinal]
    · rw [Inode.physicalSize, if_neg (by omega), hsize]

/-- The three plans of a write behind the start of the file. -/
inductive PlanCase (S : Session) (i : Inode) (offset : Nat) (data : List UInt8)
    (mode : CompressionMode) (config : FilterConfig) (existing : Option (List UInt8)) (nonce : Nonce)
    (aad : List UInt8) : WritePlan → Prop
  | raw (h : S.payloadIsTransformed i config = false) : PlanCase S i offset data mode config existing
      nonce aad ⟨.raw, offset, data, max i.size (offset + data.length), 0, none⟩
  | append {frame : List UInt8} (h : S.payloadIsTransformed i config = true)
      (happend : S.mayAppendZstdFrame i offset config = true)
      (hframe : S.codec.compressFrame data 0 = .ok frame) : PlanCase S i offset data mode config
        existing nonce aad ⟨.compressedAppend, i.compressedSize, frame, i.size + data.length,
          i.compressedSize + frame.length, none⟩
  | rebuild {old : List UInt8} {payload : FullOverwritePayload}
      (h : S.payloadIsTransformed i config = true)
      (happend : S.mayAppendZstdFrame i offset config = false)
      (hold : existing = some old ∨ existing = none ∧ i.size = 0 ∧ old = [])
      (hbuild : S.buildFullOverwriteBufferPure (splice old offset data) mode
        (effectiveFilter i config) nonce aad = .ok payload) :
      PlanCase S i offset data mode config existing nonce aad
        ⟨.recompress, 0, payload.buffer,
          if payload.isCompressed then (splice old offset data).length else payload.buffer.length,
          if payload.isCompressed then payload.buffer.length else 0, payload.encryptionNonce⟩

theorem planWritePrepared_case {existing : Option (List UInt8)}
    {aad : List UInt8} {plan : WritePlan} (hpos : 0 < offset)
    (h : S.planWritePrepared i offset data mode config existing nonce aad = .ok plan) :
    PlanCase S i offset data mode config existing nonce aad plan := by
  have hfull : S.isFullOverwrite i offset data config = false := by
    have hne : offset ≠ 0 := by omega
    simp [isFullOverwrite, hne]
  unfold planWritePrepared at h
  rw [hfull, if_neg (by simp)] at h
  by_cases htrans : S.payloadIsTransformed i config = true
  · rw [if_pos htrans] at h
    by_cases happend : S.mayAppendZstdFrame i offset config = true
    · simp only [if_pos happend, except_bind_ok, except_pure_ok] at h
      obtain ⟨frame, hframe, rfl⟩ := h
      exact .append htrans happend hframe
    · rw [if_neg happend] at h
      have happend' : S.mayAppendZstdFrame i offset config = false := by simpa using happend
      cases hex : existing with
      | some old =>
        rw [hex] at h
        simp only [except_bind_ok, except_pure_ok, copyFromSlice_resize] at h
        obtain ⟨_, rfl, payload, hbuild, rfl⟩ := h
        exact .rebuild htrans happend' (Or.inl rfl) hbuild
      | none =>
        rw [hex] at h
        by_cases hsize : i.size = 0
        · simp only [if_pos hsize, except_bind_ok, except_pure_ok, copyFromSlice_resize] at h
          obtain ⟨_, rfl, payload, hbuild, rfl⟩ := h
          exact .rebuild htrans happend' (Or.inr ⟨rfl, hsize, rfl⟩) hbuild
        · simp only [if_neg hsize, except_bind_ok] at h
          obtain ⟨_, h, -⟩ := h
          cases h
  · rw [if_neg htrans] at h
    cases h
    exact .raw (by simpa using htrans)

theorem map_range_patch (f : Nat → UInt8) (n : Nat) (data : List UInt8) :
    (List.range (n + data.length)).map (patch f n data) = (List.range n).map f ++ data := by
  apply List.ext_getElem
  · simp
  · intro j hj hj'
    rw [List.getElem_map, List.getElem_range]
    by_cases hlt : j < n
    · rw [List.getElem_append_left (by simpa using hlt), patch_out (Or.inl hlt)]
      simp
    · obtain ⟨k, rfl⟩ := Nat.exists_eq_add_of_le (Nat.not_lt.mp hlt)
      have hk : k < data.length := by simpa using hj
      rw [List.getElem_append_right (by simp), patch_in hk]
      simp

theorem writeDataWithFilters_stages {A : Ambient} (hrecord : v.readInodeInternal id = .ok i)
    (hwhole : i.isSeekable = false) (hmode : mode.isSeekable = false)
    (h : S.writeDataWithFilters A id offset data mode config v = .ok () v') :
    ∃ existing plan, S.readExisting v id i offset data config = .ok existing ∧
      S.planWritePrepared i offset data mode config existing A.nonce
        (fileAadForScheme id v.superblock.encryptionVersion) = .ok plan ∧
      (if v.superblock.hasJournalLayout then
        S.writeDataJournaled A.now id offset plan (effectiveFilter i config)
      else storePlan A id i plan (effectiveFilter i config)) v = .ok () v' := by
  have hseek : isSeekableWrite v id mode = .ok false := by
    unfold isSeekableWrite
    rw [hrecord]
    exact congrArg Except.ok (by simp [hwhole, hmode])
  unfold writeDataWithFilters at h
  simp only [DiskM.bind_ok, DiskM.get_ok, liftExcept_ok] at h
  obtain ⟨_, _, ⟨rfl, rfl⟩, seekable, _, ⟨hfalse, rfl⟩, h⟩ := h
  rw [hseek] at hfalse
  cases hfalse
  simp only [Bool.false_eq_true, if_false, DiskM.bind_ok, liftExcept_ok] at h
  obtain ⟨⟨initial, existing⟩, _, ⟨hinspect, rfl⟩, plan, _, ⟨hplan, rfl⟩, h⟩ := h
  simp only [inspectWrite, hrecord, except_bind_ok, except_pure_ok] at hinspect
  obtain ⟨_, hi, _, hfile, existing', hexisting, hpair⟩ := hinspect
  cases hi
  cases hpair
  simp only [commitWrite, DiskM.bind_ok, DiskM.get_ok, liftExcept_ok] at h
  obtain ⟨_, _, ⟨rfl, rfl⟩, _, _, ⟨hi, rfl⟩, _, _, ⟨-, rfl⟩, plan', _, ⟨huse, rfl⟩, h⟩ := h
  rw [hrecord] at hi
  cases hi
  have hcan : canUsePrepared i i = true := by simp [canUsePrepared]
  rw [if_pos hcan] at huse
  cases huse
  exact ⟨existing, plan, hexisting, hplan, h⟩

theorem writeDataWithFilters_ok {A : Ambient} (hrecord : v.readInodeInternal id = .ok i)
    (hwhole : i.isSeekable = false) (hmode : mode.isSeekable = false)
    (hjournal : v.superblock.hasJournalLayout = false)
    (h : S.writeDataWithFilters A id offset data mode config v = .ok () v') :
    ∃ existing plan, S.readExisting v id i offset data config = .ok existing ∧
      S.planWritePrepared i offset data mode config existing A.nonce
        (fileAadForScheme id v.superblock.encryptionVersion) = .ok plan ∧
      storePlan A id i plan (effectiveFilter i config) v = .ok () v' := by
  obtain ⟨existing, plan, hexisting, hplan, hstore⟩ := writeDataWithFilters_stages hrecord hwhole hmode h
  rw [hjournal, if_neg Bool.false_ne_true] at hstore
  exact ⟨existing, plan, hexisting, hplan, hstore⟩

theorem isSeekable_of_flags {i i' : Inode} (h : i'.flags = i.flags) :
    i'.isSeekable = i.isSeekable := by
  rw [Inode.isSeekable, Inode.isSeekable, h]

theorem filter_inactive {c : FilterConfig} (h : c.typesize = 0) : c.isActive = false := by
  simp [FilterConfig.isActive, h]

theorem applyFilters_inactive {C : Codec} {c : FilterConfig} (h : c.isActive = false)
    (data : List UInt8) : C.applyFilters data c = data := by
  rw [Codec.applyFilters, if_pos]
  simp [FilterConfig.isSupported, h]

theorem not_transformed (h : S.payloadIsTransformed i config = false) :
    i.compressedSize = 0 ∧ i.encrypted = false ∧ S.encryptionKey = none ∧ i.filterTypesize = 0 := by
  simp only [payloadIsTransformed, Bool.or_eq_false_iff, decide_eq_false_iff_not, Nat.not_lt,
    Option.isSome_eq_false_iff, Option.isNone_iff_eq_none] at h
  obtain ⟨⟨⟨⟨hcomp, henc⟩, hkey⟩, -⟩, htype⟩ := h
  refine ⟨by omega, henc, hkey, ?_⟩
  rw [← UInt8.toNat_inj]
  simp only [UInt8.lt_iff_toNat_lt] at htype
  simpa using htype

theorem may_append (h : S.mayAppendZstdFrame i offset config = true) :
    0 < i.compressedSize ∧ offset = i.size ∧ i.encrypted = false ∧ i.filterTypesize = 0 := by
  unfold mayAppendZstdFrame at h
  split at h
  next => cases h
  next hcond =>
    simp only [not_or] at hcond
    obtain ⟨hcomp, hoff, henc, -, htype, -⟩ := hcond
    exact ⟨by omega, by simpa using hoff, by simpa using henc, by simpa using htype⟩

theorem stored_raw {i i' : Inode} (hs : S.StoredFile v id i content)
    (htrans : S.payloadIsTransformed i config = false)
    (hr : Rewritten v id i ⟨.raw, offset, data, max i.size (offset + data.length), 0, none⟩ effective
      v' i') :
    S.StoredFile v' id i'
      ((List.range (max i.size (offset + data.length))).map (patch (v.payload i) offset data)) := by
  obtain ⟨hcomp, henc, hkey, htype⟩ := not_transformed htrans
  have hcomp' : ¬0 < i'.compressedSize := by
    rw [hr.compressedSize]
    simp
  have henc' : ¬i'.encrypted = true := by
    rw [hr.encrypted, henc]
    simp
  have hfilter : i'.filter.isActive = false := by
    rw [hr.filter]
    exact filter_inactive htype
  have hphys : i'.physicalSize = max i.size (offset + data.length) := by
    rw [Inode.physicalSize, if_neg hcomp', hr.size]
  refine ⟨hr.record, hr.mode.trans hs.mode, (isSeekable_of_flags hr.flags).trans hs.whole, hr.good,
    ⟨(List.range i'.physicalSize).map (v'.payload i'), ?_, ?_⟩, ?_, fun hpos => absurd hpos hcomp'⟩
  · rw [Encrypts, if_neg henc']
  · rw [Compresses, if_neg hcomp', applyFilters_inactive hfilter, hphys, hr.payload]
    rfl
  · simp

theorem stored_append {i i' : Inode} {content data frame : List UInt8}
    (hs : S.StoredFile v id i content) (happend : S.mayAppendZstdFrame i offset config = true)
    (hframe : S.codec.compressFrame data 0 = .ok frame)
    (hr : Rewritten v id i ⟨.compressedAppend, i.compressedSize, frame, i.size + data.length,
      i.compressedSize + frame.length, none⟩ effective v' i') :
    S.StoredFile v' id i' (splice content offset data) := by
  obtain ⟨hcomp, hoff, henc, htype⟩ := may_append happend
  obtain ⟨⟨plain, hplain, hframes⟩, -, hsize⟩ := hs.encodes
  have hlen := hsize hcomp
  rw [Encrypts, henc, if_neg (by simp)] at hplain
  rw [Compresses, if_pos hcomp, applyFilters_inactive (filter_inactive htype)] at hframes
  obtain ⟨parts, -, hparts, hcontent, hraw⟩ := hframes
  have hcomp' : 0 < i'.compressedSize := by
    rw [hr.compressedSize]
    exact Nat.lt_of_lt_of_le hcomp (Nat.le_add_right _ _)
  have hphys : i'.physicalSize = i.compressedSize + frame.length := by
    rw [Inode.physicalSize, if_pos hcomp', hr.compressedSize]
  have hsplice : splice content offset data = content ++ data := by
    rw [splice, hoff, hlen, resize_of_le (Nat.le_refl _), List.take_length,
      List.drop_eq_nil_of_le (by omega), List.append_nil]
  have hraw' : (List.range i'.physicalSize).map (v'.payload i') =
      (List.range i.physicalSize).map (v.payload i) ++ frame := by
    rw [hphys, hr.payload, Inode.physicalSize, if_pos hcomp]
    exact map_range_patch _ _ _
  refine ⟨hr.record, hr.mode.trans hs.mode, (isSeekable_of_flags hr.flags).trans hs.whole, hr.good,
    ⟨(List.range i'.physicalSize).map (v'.payload i'), ?_, ?_⟩, by simp, fun _ => ?_⟩
  · rw [Encrypts, hr.encrypted, henc, if_neg (by simp)]
  · rw [Compresses, if_pos hcomp', hr.filter]
    refine ⟨parts ++ [(data, frame)], by simp, ?_, ?_, ?_⟩
    · intro p hp
      rcases List.mem_append.mp hp with hp | hp
      · exact hparts p hp
      · rw [List.mem_singleton.mp hp]
        exact ⟨0, hframe⟩
    · rw [hsplice, hcontent]
      exact (applyFilters_inactive (filter_inactive htype) _).trans (by simp)
    · rw [hraw', hplain, hraw]
      simp
  · rw [hr.size, hsplice, List.length_append, hlen]

theorem stored_rebuild {i i' : Inode} {content full : List UInt8}
    (hC : S.codec.Lawful) (hs : S.StoredFile v id i content)
    (hbuild : S.buildFullOverwriteBufferPure full mode effective nonce
      (fileAadForScheme id v.superblock.encryptionVersion) = .ok payload)
    (hr : Rewritten v id i ⟨.recompress, 0, payload.buffer,
      if payload.isCompressed then full.length else payload.buffer.length,
      if payload.isCompressed then payload.buffer.length else 0, payload.encryptionNonce⟩ effective
      v' i') :
    S.StoredFile v' id i' full := by
  -- without a key the file was not encrypted before either
  have henc : i'.encrypted = payload.encryptionNonce.isSome := by
    rw [hr.encrypted]
    obtain ⟨final, -, hlayer⟩ := build_ok hbuild
    rcases hlayer with ⟨key, -, -, hn⟩ | ⟨hkey, -, hn⟩
    · simp [hn]
    · obtain ⟨plain, hplain, -⟩ := hs.encodes.layers
      unfold Encrypts at hplain
      split at hplain
      next =>
        obtain ⟨key, hsome, -⟩ := hplain
        rw [hkey] at hsome
        cases hsome
      next hfalse => simp [hn, hfalse]
  have hencodes := build_encodes (i := i') hC hbuild hr.filter henc
    (fun n hn => by rw [hr.nonce]; simp [hn]) hr.compressedSize hr.size
  refine ⟨hr.record, hr.mode.trans hs.mode, (isSeekable_of_flags hr.flags).trans hs.whole, hr.good, ?_⟩
  have hraw : (List.range i'.physicalSize).map (v'.payload i') = payload.buffer := by
    rw [← hencodes.length, hr.payload]
    have hmap := map_range_patch (fun _ => 0) 0 payload.buffer
    rw [Nat.zero_add] at hmap
    exact hmap
  rw [hraw, hr.tables]
  exact hencodes

theorem readExisting_ok {existing : Option (List UInt8)} (hC : S.codec.Lawful)
    (hs : S.StoredFile v id i content)
    (h : S.readExisting v id i offset data config = .ok existing) :
    existing = some content ∨ existing = none := by
  unfold readExisting at h
  split at h
  next =>
    simp only [except_bind_ok, except_pure_ok, hs.readInternal hC] at h
    obtain ⟨_, hcontent, rfl⟩ := h
    cases hcontent
    exact Or.inl rfl
  next =>
    cases h
    exact Or.inr rfl

/-- The content after a write behind the start of a whole file: a splice, except that a plain file
shows its payload between the end and the offset. -/
def contentAfter (S : Session) (v : Volume) (i : Inode) (content : List UInt8) (offset : Nat)
    (data : List UInt8) (config : FilterConfig) : List UInt8 :=
  if S.payloadIsTransformed i config then splice content offset data
  else (List.range (max i.size (offset + data.length))).map (patch (v.payload i) offset data)

theorem write_stored {A : Ambient} (hC : S.codec.Lawful)
    (hs : S.StoredFile v id i content) (hpos : 0 < offset) (hmode : mode.isSeekable = false)
    (hjournal : v.superblock.hasJournalLayout = false)
    (h : S.writeDataWithFilters A id offset data mode config v = .ok () v') :
    ∃ i', S.StoredFile v' id i' (S.contentAfter v i content offset data config) := by
  obtain ⟨existing, plan, hexisting, hplan, hstore⟩ :=
    writeDataWithFilters_ok hs.record hs.whole hmode hjournal h
  obtain ⟨i', hr⟩ := storePlan_ok hs.good hstore
  refine ⟨i', ?_⟩
  unfold contentAfter
  cases planWritePrepared_case hpos hplan with
  | raw htrans =>
    rw [htrans, if_neg (by simp)]
    exact stored_raw hs htrans hr
  | append htrans happend hframe =>
    rw [htrans, if_pos rfl]
    exact stored_append hs happend hframe hr
  | @rebuild old payload htrans happend hold hbuild =>
    have hcontent : old = content := by
      rcases hold with rfl | ⟨-, hsize, rfl⟩
      · rcases readExisting_ok hC hs hexisting with heq | heq
        · exact Option.some.inj heq
        · cases heq
      · exact (hs.encodes.nil_of_size hC hsize).symm
    subst hcontent
    rw [htrans, if_pos rfl]
    exact stored_rebuild hC hs hbuild hr

theorem StoredFile.content_eq {content : List UInt8}
    (hs : S.StoredFile v id i content) (htrans : S.payloadIsTransformed i config = false) :
    content = (List.range i.size).map (v.payload i) := by
  obtain ⟨hcomp, henc, -, htype⟩ := not_transformed htrans
  obtain ⟨plain, hplain, hfiltered⟩ := hs.encodes.layers
  rw [Encrypts, henc, if_neg (by simp)] at hplain
  rw [Compresses, if_neg (by omega), applyFilters_inactive (filter_inactive htype)] at hfiltered
  rw [← hfiltered, ← hplain, Inode.physicalSize, if_neg (by omega)]

theorem contentAfter_eq_iff (hs : S.StoredFile v id i content) :
    S.contentAfter v i content offset data config = splice content offset data ↔
      S.payloadIsTransformed i config = true ∨
        ∀ j, i.size ≤ j → j < offset → v.payload i j = 0 := by
  unfold contentAfter
  by_cases htrans : S.payloadIsTransformed i config = true
  · simp [htrans]
  · have hfalse : S.payloadIsTransformed i config = false := by simpa using htrans
    rw [if_neg htrans, hs.content_eq hfalse, splice_map_range]
    constructor
    · refine fun h => Or.inr fun j hj hlt => ?_
      have hbyte := List.map_inj_left.mp h j (List.mem_range.mpr (by omega))
      rw [patch_out (Or.inl hlt), patch_out (Or.inl hlt), if_neg (by omega)] at hbyte
      exact hbyte
    · rintro (h | h)
      · exact absurd h htrans
      · refine List.map_congr_left fun j hj => ?_
        have hlt := List.mem_range.mp hj
        by_cases hin : j < offset ∨ offset + data.length ≤ j
        · rw [patch_out hin, patch_out hin]
          by_cases hsize : j < i.size
          · rw [if_pos hsize]
          · rw [if_neg hsize, h j (by omega) (by omega)]
        · obtain ⟨k, rfl⟩ := Nat.exists_eq_add_of_le (show offset ≤ j by omega)
          rw [patch_in (by omega), patch_in (by omega)]

theorem good_direct {b : Nat} (hs : v.Sound) (hb : i.slot 0 = b)
    (hz : ∀ s, s ≠ 0 → i.slot s = 0) (hmark : v.marked b = true) (hdata : v.isDataBlock b = true) :
    Good rawExtent (Files.single id i) v := by
  -- the only cell that is not empty is the first slot of the inode
  have hplace : ∀ l, treeShape.Valid l → (v.cells (Files.single id i)).get l ≠ 0 →
      l = ⟨(id, 0), []⟩ ∧ (v.cells (Files.single id i)).get l = b := by
    rintro ⟨⟨j, s⟩, p⟩ hl hne
    have hroot : (v.cells (Files.single id i)).get ⟨(j, s), []⟩ ≠ 0 := by
      intro hzero
      exact hne (by simpa using Cells.get_below_zero hzero p)
    rw [Cells.get_root] at hroot
    have hj : j = id := by
      by_contra hj
      exact hroot (by simp [Volume.cells, Files.single, hj])
    subst hj
    rw [v.cells_root (Files.single_has j i), Files.single_inode] at hroot
    have hslot : s = 0 := by
      by_contra hslot
      exact hroot (hz s hslot)
    subst hslot
    have hlen : p.length ≤ 0 := hl.1
    have hnil : p = [] := List.length_eq_zero_iff.mp (by omega)
    subst hnil
    rw [Cells.get_root, v.cells_root (Files.single_has j i), Files.single_inode]
    exact ⟨rfl, hb⟩
  have howned : ∀ c ∈ owned treeShape rawExtent (v.cells (Files.single id i)), c = b := by
    rintro c ⟨l, hl, hc⟩
    have hne := get_ne_zero_of_owns rawExtent_zero hc
    rw [← (hplace l hl hne).2]
    exact (claims_raw hne c).mp hc
  refine ⟨hs, ?_, fun c hc => howned c hc ▸ hmark, fun c hc => howned c hc ▸ hdata⟩
  intro l l' hl hl' c hc hc'
  rw [(hplace l hl (get_ne_zero_of_owns rawExtent_zero hc)).1,
    (hplace l' hl' (get_ne_zero_of_owns rawExtent_zero hc')).1]

def readsAfter (S : Session) (x : DiskM Unit) (v : Volume) (id : Nat) : Option (List UInt8) :=
  match x v with
  | .ok _ v' => (S.readData v' id).toOption
  | .error _ _ => none

theorem readsAfter_some {x : DiskM Unit} {bytes : List UInt8}
    (h : S.readsAfter x v id = some bytes) :
    ∃ v', x v = .ok () v' ∧ S.readData v' id = .ok bytes := by
  unfold readsAfter at h
  split at h
  next u v' hx =>
    refine ⟨v', hx, ?_⟩
    cases hread : S.readData v' id with
    | error e =>
      rw [hread] at h
      cases h
    | ok a =>
      rw [hread] at h
      exact congrArg Except.ok (Option.some.inj h)
  next => cases h

def tinyVolume (i : Inode) (first : Nat → UInt8) : Volume where
  superblock := {
    magic := SuperBlock.magicWord
    blockSize := 4096
    blockCount := 24
    inodeBitmapBlock := 1
    dataBitmapBlock := 2
    inodeTableBlock := 3
    inodeCount := 16
    dataBlockStart := 4
    rootInode := 0
    encrypted := false
    encryptionVersion := 0
    formatVersion := SuperBlock.formatVersionFixedInode
    migrationCursor := 0 }
  mapBlocks := 24
  inodeBit k := k = 0
  dataBit k := k = 0
  inode _ := .ok i
  block b := if b = 4 then first else fun _ => 0
  freeBlockHint := 4
  freeInodeHint := 0

def tailInode : Inode :=
  { Inode.new .file with size := 1, blocks := fun k => if k = 0 then 4 else 0 }

def tailVolume : Volume := tinyVolume tailInode fun k => if k < 3 then 1 else 0

def newFiles : Volume := tinyVolume (Inode.new .file) fun _ => 0

def epoch : Ambient := ⟨0, fun _ => 0, fun _ _ _ => 0⟩

theorem tailVolume_stored : (clearSession none).StoredFile tailVolume 0 tailInode [1] := by
  refine ⟨rfl, rfl, rfl, ?_, ⟨[1], rfl, rfl⟩, rfl, fun h => absurd h (by decide)⟩
  refine good_direct (b := 4) ⟨by decide, by decide, by decide⟩ rfl ?_ (by decide) (by decide)
  intro s hs
  unfold Inode.slot
  split
  next hlt => exact if_neg fun h => hs (congrArg Fin.val h)
  next =>
    split
    next => rfl
    next => rfl

end Session

end Oifs
