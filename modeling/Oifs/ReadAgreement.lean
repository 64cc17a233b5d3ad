import Oifs.ChunkContent
import Oifs.FilterInverse
import Oifs.JournaledVolume
import Oifs.RawFile
import Oifs.WriteStages

namespace Oifs

namespace Session

variable {S : Session} {v : Volume} {id : Nat} {i : Inode}

theorem readAt_eq (hi : v.readInodeInternal id = .ok i) (hmode : i.mode = .file) (offset len : Nat) :
    S.readAt v id offset len =
      if offset ≥ i.size ∨ len = 0 then .ok []
      else if i.isSeekable then S.readAtChunkedLoop v id i offset (min len (i.size - offset))
      else if 0 < i.compressedSize ∨ i.encrypted then
        (S.readDataInternal v id i).map fun full =>
          (full.take (offset + min len (i.size - offset))).drop offset
      else .ok ((List.range' offset (min len (i.size - offset))).map (v.mappedByte i)) := by
  have hfile : requireFile i "Cannot read non-file inode" = .ok () := by simp [requireFile, hmode]
  unfold readAt
  rw [hi]
  simp only [bind, Except.bind, hfile, Volume.readAtRawLoop_bytes, pure, Except.pure]
  by_cases hnone : offset ≥ i.size ∨ len = 0
  · rw [if_pos hnone, if_pos hnone]
  · rw [if_neg hnone, if_neg hnone, readAtChunked64k, if_neg hnone]
    rfl

theorem readAt_seekable {full : List UInt8} (hi : v.readInodeInternal id = .ok i)
    (hmode : i.mode = .file) (hseek : i.isSeekable = true) (hfull : S.readData v id = .ok full)
    (offset len : Nat) : S.readAt v id offset len = .ok ((full.drop offset).take len) := by
  have hall : S.readAtChunkedLoop v id i 0 i.size = .ok full := by
    rw [← readChunked64kInternal_eq_loop]
    unfold readData at hfull
    rw [hi] at hfull
    simpa [bind, Except.bind, readDataInternal, hseek] using hfull
  obtain ⟨hlen, hbytes⟩ := (readAtChunkedLoop_ok (Or.inr (by omega))).mp hall
  rw [readAt_eq hi hmode, if_pos hseek]
  by_cases hnone : offset ≥ i.size ∨ len = 0
  · rw [if_pos hnone]
    rcases hnone with hoff | hzero
    · rw [List.drop_eq_nil_of_le (by omega), List.take_nil]
    · rw [hzero, List.take_zero]
  · rw [if_neg hnone, readAtChunkedLoop_ok (Or.inr (by omega))]
    refine ⟨by rw [List.length_take, List.length_drop]; omega, fun k x hx => ?_⟩
    obtain ⟨hk, -⟩ := List.getElem?_eq_some_iff.mp hx
    rw [List.length_take] at hk
    rw [List.getElem?_take_of_lt (by omega), List.getElem?_drop] at hx
    have hbyte := hbytes (offset + k) x hx
    rwa [Nat.zero_add] at hbyte

theorem take_drop_slice {full : List UInt8} {size offset : Nat} (h : full.length ≤ size) (len : Nat) :
    (full.take (offset + min len (size - offset))).drop offset = (full.drop offset).take len := by
  refine List.ext_getElem? fun k => ?_
  rw [List.getElem?_drop]
  by_cases hin : offset + k < full.length
  · by_cases hk : k < len
    · rw [List.getElem?_take_of_lt (by omega), List.getElem?_take_of_lt hk, List.getElem?_drop]
    · rw [List.getElem?_eq_none (by rw [List.length_take]; omega),
        List.getElem?_eq_none (by rw [List.length_take]; omega)]
  · rw [List.getElem?_eq_none (by rw [List.length_take]; omega),
      List.getElem?_eq_none (by rw [List.length_take, List.length_drop]; omega)]

theorem StoredFile.length_le {content : List UInt8} (hC : S.codec.Lawful)
    (hgrow : ∀ {d key nonce aad c}, S.codec.encryptData d key nonce aad = .ok c → d.length ≤ c.length)
    (h : S.StoredFile v id i content) : content.length ≤ i.size := by
  by_cases hcomp : 0 < i.compressedSize
  · exact Nat.le_of_eq (h.encodes.size hcomp).symm
  · obtain ⟨plain, hencrypts, hcompresses⟩ := h.encodes.layers
    have hlen := h.encodes.length
    have hphys : i.physicalSize = i.size := if_neg hcomp
    unfold Compresses at hcompresses
    rw [if_neg hcomp] at hcompresses
    have hplain : plain.length = content.length := by
      rw [hcompresses, hC.applyFilters_length]
    unfold Encrypts at hencrypts
    split at hencrypts
    next =>
      obtain ⟨key, -, henc⟩ := hencrypts
      have hle := hgrow henc
      omega
    next =>
      rw [hencrypts] at hlen
      omega

theorem StoredFile.readAt_raw {content : List UInt8} (h : S.StoredFile v id i content)
    (hcomp : i.compressedSize = 0) (hplain : i.encrypted = false) (offset len : Nat) :
    S.readAt v id offset len =
      .ok (((S.codec.applyFilters content i.filter).drop offset).take len) := by
  have hstored : S.codec.applyFilters content i.filter = (List.range i.size).map (v.payload i) := by
    obtain ⟨plain, hencrypts, hcompresses⟩ := h.encodes.layers
    have hphys : i.physicalSize = i.size := by simp [Inode.physicalSize, hcomp]
    rw [Encrypts, hplain, if_neg (by simp), hphys] at hencrypts
    rw [Compresses, hcomp, if_neg (by simp)] at hcompresses
    rw [← hcompresses, hencrypts]
  have hseek : ¬i.isSeekable = true := by simp [h.whole]
  have htransformed : ¬(0 < i.compressedSize ∨ i.encrypted = true) := by simp [hcomp, hplain]
  rw [readAt_eq h.record h.mode, if_neg hseek, if_neg htransformed, ← Volume.readAtRawLoop_bytes,
    readAtRawLoop_eq h.good, hstored]
  have hslice : (List.range' offset (min len (i.size - offset))).map (v.payload i) =
      (((List.range i.size).map (v.payload i)).drop offset).take len := by
    apply List.ext_getElem
    · simp
    · intro k hk hk'
      simp
  split
  next hnone =>
    rw [← hslice, show min len (i.size - offset) = 0 by omega]
    rfl
  next => rw [hslice]

/-- `read_at` gives slices of `read_data` exactly for seekable, compressed or encrypted files, and
for the others when their filter changes nothing. -/
theorem read_at_slices_read_data_iff {full : List UInt8} (hC : S.codec.Lawful)
    (hgrow : ∀ {d key nonce aad c}, S.codec.encryptData d key nonce aad = .ok c → d.length ≤ c.length)
    (hi : v.readInodeInternal id = .ok i) (hmode : i.mode = .file)
    (hstored : i.isSeekable = true ∨ ∃ content, S.StoredFile v id i content)
    (hfull : S.readData v id = .ok full) :
    (∀ offset len, S.readAt v id offset len = .ok ((full.drop offset).take len)) ↔
      i.isSeekable = true ∨ 0 < i.compressedSize ∨ i.encrypted = true ∨
        S.codec.applyFilters full i.filter = full := by
  by_cases hseek : i.isSeekable = true
  · exact ⟨fun _ => Or.inl hseek, fun _ => readAt_seekable hi hmode hseek hfull⟩
  obtain ⟨content, hfile⟩ := hstored.resolve_left hseek
  have hcontent : content = full := Except.ok.inj ((hfile.read hC).symm.trans hfull)
  subst hcontent
  by_cases hwhole : 0 < i.compressedSize ∨ i.encrypted = true
  · refine ⟨fun _ => Or.inr (hwhole.imp_right Or.inl), fun _ offset len => ?_⟩
    have hle := hfile.length_le hC hgrow
    rw [readAt_eq hi hmode, if_neg hseek, if_pos hwhole, hfile.readInternal hC]
    split
    next hnone =>
      rcases hnone with hoff | hzero
      · rw [List.drop_eq_nil_of_le (by omega), List.take_nil]
      · rw [hzero, List.take_zero]
    next => exact congrArg Except.ok (take_drop_slice hle len)
  · obtain ⟨hcomp, hplain⟩ := not_or.mp hwhole
    have hraw := hfile.readAt_raw (Nat.eq_zero_of_not_pos hcomp) (by simpa using hplain)
    constructor
    · intro h
      have hall := Except.ok.inj ((hraw 0 content.length).symm.trans (h 0 content.length))
      have hlen := hC.applyFilters_length content i.filter
      rw [List.drop_zero, List.drop_zero, List.take_length, List.take_of_length_le (by omega)] at hall
      exact Or.inr (Or.inr (Or.inr hall))
    · rintro (h | h | h | h) offset len
      · exact absurd h hseek
      · exact absurd h hcomp
      · exact absurd h hplain
      · rw [hraw, h]

def deltaOnly : FilterConfig := ⟨1, true, false, false⟩

def filteredSession : Session :=
  { clearSession none with codec := Codec.clearCodec.withPipelines (fun _ _ _ => true) fun _ _ _ => true }

theorem filteredSession_lawful : filteredSession.codec.Lawful := Codec.clearCodec_lawful.withPipelines _ _

/-- A write behind the first byte of a raw file makes it a filtered and compressed one. -/
theorem read_at_slices_compressed : ∃ v',
    filteredSession.writeDataWithFilters epoch 0 1 [5, 7, 9] .always deltaOnly tailVolume = .ok () v' ∧
      filteredSession.readAt v' 0 2 2 = .ok [7, 9] := by
  have hold : filteredSession.StoredFile tailVolume 0 tailInode [1] :=
    ⟨rfl, rfl, rfl, tailVolume_stored.good, ⟨[1], rfl, rfl⟩, rfl, fun h => absurd h (by decide)⟩
  obtain ⟨v', hw, hcomp⟩ := outcome_map_some (a := some 9)
    (f := fun v' => (v'.readInodeInternal 0).toOption.map (·.compressedSize))
    (x := filteredSession.writeDataWithFilters epoch 0 1 [5, 7, 9] .always deltaOnly)
    (v := tailVolume) (by decide +kernel)
  obtain ⟨i', hnew⟩ := write_stored filteredSession_lawful hold (by decide) rfl rfl hw
  rw [hnew.record] at hcomp
  have hnine : i'.compressedSize = 9 := Option.some.inj hcomp
  refine ⟨v', hw, ?_⟩
  have hslices := (read_at_slices_read_data_iff filteredSession_lawful (fun h => by cases h; simp)
    hnew.record hnew.mode (Or.inr ⟨_, hnew⟩) (hnew.read filteredSession_lawful)).mpr
      (Or.inr (Or.inl (by omega)))
  exact (hslices 2 2).trans (by decide +kernel)

/-- Two bytes are stored with a delta filter and without compression. -/
theorem read_at_of_filtered_file :
    let S := filteredSession
    ∃ v', S.writeDataWithFilters epoch 0 0 [1, 2] .never deltaOnly
        (tinyVolume (Inode.new .file) fun _ => 0) = .ok () v' ∧
      S.readData v' 0 = .ok [1, 2] ∧ S.readAt v' 0 0 2 = .ok [1, 1] := by
  intro S
  obtain ⟨v', hw, hreads⟩ := outcome_map_some (a := (some [1, 2], some [1, 1]))
    (f := fun v' => ((S.readData v' 0).toOption, (S.readAt v' 0 0 2).toOption))
    (x := S.writeDataWithFilters epoch 0 0 [1, 2] .never deltaOnly)
    (v := tinyVolume (Inode.new .file) fun _ => 0) (by decide +kernel)
  obtain ⟨hdata, hat⟩ := Prod.mk.inj hreads
  exact ⟨v', hw, toOption_eq_some.mp hdata, toOption_eq_some.mp hat⟩

end Session

namespace Volume

/-- Neither encrypted nor compressed; a filter may be active. -/
def StoredPlain (v : Volume) (i : Inode) : Prop :=
  i.encrypted = false ∧
    if i.isSeekable then
      ∀ idx, ChunkEntry.flags (v.resolveLogicalChunkEntry i idx) ≠ ChunkEntry.flagCompressed
    else i.compressedSize = 0

/-- The block that the pointers of such a file name for byte `j`. -/
def byteBlock (v : Volume) (i : Inode) (j : Nat) : Option Nat :=
  if i.isSeekable then
    let e := v.resolveLogicalChunkEntry i (j / chunkSize64k)
    if e.flags = ChunkEntry.flagRaw ∧ j % chunkSize64k < e.blockCount * blockSize then
      some (e.startBlock + j % chunkSize64k / blockSize)
    else none
  else
    let blk := v.resolveLogicalBlockId i (j / blockSize)
    if blk = 0 then none else some blk

def plainByte (v : Volume) (i : Inode) (j : Nat) : UInt8 :=
  match v.byteBlock i j with
  | some b => if b < v.mapBlocks then v.block b (j % blockSize) else 0
  | none => 0

/-- The byte `x` at position `j` is zero or comes from its place in the data area. -/
def FromDataArea (v : Volume) (i : Inode) (j : Nat) (x : UInt8) : Prop :=
  x = 0 ∨ ∃ b, v.byteBlock i j = some b ∧ v.isDataBlock b = true ∧ x = v.block b (j % blockSize)

/-- The pointer of position `j` leads out of the data area, to the mapped block `b`. -/
def Astray (v : Volume) (i : Inode) (j b : Nat) : Prop :=
  v.byteBlock i j = some b ∧ b < v.mapBlocks ∧ v.isDataBlock b = false

theorem fromDataArea_plainByte {v : Volume} {i : Inode} {j : Nat} (h : ∀ b, ¬v.Astray i j b) :
    v.FromDataArea i j (v.plainByte i j) := by
  unfold FromDataArea plainByte
  cases hb : v.byteBlock i j with
  | none => exact .inl rfl
  | some b =>
    by_cases hmap : b < v.mapBlocks
    · have hdata : v.isDataBlock b = true := by
        by_contra hno
        exact h b ⟨hb, hmap, Bool.eq_false_iff.mpr hno⟩
      exact .inr ⟨b, rfl, hdata, if_pos hmap⟩
    · exact .inl (if_neg hmap)

theorem Astray.plainByte {v : Volume} {i : Inode} {j b : Nat} (h : v.Astray i j b) :
    v.plainByte i j = v.block b (j % blockSize) := by
  unfold Volume.plainByte
  rw [h.1]
  exact if_pos h.2.1

/-- What a read of `n` bytes returns: a byte of the data area, or zero, wherever the pointer does not
lead out of it, and elsewhere the byte of the block that it leads to. -/
structure ReadFrom (v : Volume) (i : Inode) (offset n : Nat) (bytes : List UInt8) : Prop where
  length : bytes.length = n
  inside : ∀ k x, bytes[k]? = some x → (∀ b, ¬v.Astray i (offset + k) b) →
    v.FromDataArea i (offset + k) x
  astray : ∀ k x b, bytes[k]? = some x → v.Astray i (offset + k) b →
    x = v.block b ((offset + k) % blockSize)

theorem ReadFrom.of_plain {v : Volume} {i : Inode} {offset n : Nat} {bytes : List UInt8}
    (hlen : bytes.length = n) (h : ∀ k x, bytes[k]? = some x → x = v.plainByte i (offset + k)) :
    v.ReadFrom i offset n bytes where
  length := hlen
  inside k x hx hin := h k x hx ▸ fromDataArea_plainByte hin
  astray k x _ hx hb := (h k x hx).trans hb.plainByte

theorem plainByte_whole {v : Volume} {i : Inode} (h : i.isSeekable = false) (j : Nat) :
    v.mappedByte i j = v.plainByte i j := by
  unfold mappedByte plainByte byteBlock
  by_cases hzero : v.resolveLogicalBlockId i (j / blockSize) = 0
  · simp [h, hzero]
  · simp [h, hzero]

theorem fromDataArea_dataByte {v : Volume} {i : Inode} (h : i.isSeekable = false) (j : Nat) :
    v.FromDataArea i j (v.dataByte i j) := by
  unfold dataByte
  dsimp only
  split
  next hdata =>
    have hne := (isDataBlock_iff.mp hdata.1).1
    refine Or.inr ⟨_, ?_, hdata.1, rfl⟩
    simp [byteBlock, h, hne]
  next => exact Or.inl rfl

end Volume

namespace Session

variable {S : Session} {v : Volume} {id : Nat} {i : Inode}

theorem ByteAt.plain {j : Nat} {x : UInt8} (hplain : v.StoredPlain i) (hseek : i.isSeekable = true)
    (h : S.ByteAt v id i j x) : x = v.plainByte i j := by
  obtain ⟨hclear, hraw⟩ := hplain
  rw [if_pos hseek] at hraw
  obtain ⟨chunk, hread, hx⟩ := h
  have hflag := hraw (j / chunkSize64k)
  obtain ⟨hlt, hget⟩ := List.getElem?_eq_some_iff.mp hx
  have hvalid : j % chunkSize64k < chunkValidLen i.size (j / chunkSize64k) := by
    rwa [← readSingle_length hread]
  unfold Volume.plainByte Volume.byteBlock
  rw [if_pos hseek]
  unfold readSingleChunkDecompressed at hread
  dsimp only at hread ⊢
  generalize v.resolveLogicalChunkEntry i (j / chunkSize64k) = e at *
  have hzeros : ∀ n, chunk = List.replicate n 0 → x = 0 := by
    rintro n rfl
    rw [List.getElem_replicate] at hget
    exact hget.symm
  by_cases hempty : e.isEmpty = true
  · have hno : ¬(e.flags = ChunkEntry.flagRaw ∧ j % chunkSize64k < e.blockCount * blockSize) := by
      rintro ⟨hf, -⟩
      simp only [ChunkEntry.isEmpty, hf, Bool.or_eq_true, beq_iff_eq] at hempty
      rcases hempty with hzero | hzero
      · rw [hzero] at hf
        cases hf
      · cases hzero
    rw [if_neg hno]
    rw [if_pos hempty] at hread
    cases hread
    exact hzeros _ rfl
  rw [if_neg hempty] at hread
  by_cases hf : e.flags = ChunkEntry.flagRaw
  · rw [if_pos hf, hclear] at hread
    obtain ⟨raw, hslice, hread⟩ := except_bind_ok.mp hread
    simp only [Bool.false_eq_true, if_false] at hslice hread
    cases hread
    unfold chunkSlice at hslice
    split at hslice
    next hmapped =>
      cases hslice
      have hmod : j % chunkSize64k % blockSize = j % blockSize :=
        Nat.mod_mod_of_dvd j (by decide)
      rw [resize_eq_map, List.getElem?_map, List.getElem?_range hvalid, Option.map_some] at hx
      have hbyte := Option.some.inj hx
      rw [Volume.extentBytes, getD_map_range] at hbyte
      rw [← hbyte]
      by_cases hin : j % chunkSize64k < e.blockCount * blockSize
      · have hb : e.startBlock + j % chunkSize64k / blockSize < v.mapBlocks := by
          refine Nat.lt_of_lt_of_le (Nat.add_lt_add_left ?_ _) hmapped
          simp only [divCeil, show blockSize = 4096 from rfl] at hin ⊢
          omega
        rw [if_pos (by omega), if_pos ⟨hf, hin⟩]
        dsimp only
        rw [if_pos hb, hmod]
      · rw [if_neg (by omega), if_neg fun hno => hin hno.2]
    next => cases hslice
  · rw [if_neg hf, if_neg hflag] at hread
    rw [if_neg fun hno => hf hno.1]
    cases hread
    exact hzeros _ rfl

theorem readDataInternal_plain (hseek : i.isSeekable = false) (hplain : v.StoredPlain i) :
    S.readDataInternal v id i = .ok (if i.size = 0 then []
      else S.unfilterPayload i ((List.range i.size).map (v.dataByte i))) := by
  obtain ⟨hclear, hwhole⟩ := hplain
  rw [hseek, if_neg (by simp)] at hwhole
  have hsize : i.physicalSize = i.size := by simp [Inode.physicalSize, hwhole]
  unfold readDataInternal
  rw [hseek, if_neg (by simp), hsize, Volume.rawData_bytes]
  split
  next => rfl
  next =>
    simp [decodePayload, decryptPayload, decompressPayload, hclear, hwhole, bind, Except.bind, pure,
      Except.pure]

theorem chunkedLoop_readFrom {offset n : Nat} {bytes : List UInt8} (hplain : v.StoredPlain i)
    (hseek : i.isSeekable = true) (hin : n = 0 ∨ offset + n ≤ i.size)
    (h : S.readAtChunkedLoop v id i offset n = .ok bytes) : v.ReadFrom i offset n bytes := by
  obtain ⟨hlen, hbytes⟩ := (readAtChunkedLoop_ok hin).mp h
  exact .of_plain hlen fun k x hx => (hbytes k x hx).plain hplain hseek

theorem readAt_plain {offset len : Nat} {bytes : List UInt8} (hi : v.readInodeInternal id = .ok i)
    (hmode : i.mode = .file) (hplain : v.StoredPlain i) (h : S.readAt v id offset len = .ok bytes) :
    v.ReadFrom i offset (min len (i.size - offset)) bytes := by
  rw [readAt_eq hi hmode] at h
  split at h
  next hnone =>
    cases h
    exact .of_plain (by rw [List.length_nil]; omega) fun k x hx => absurd hx (by simp)
  next hsome =>
    split at h
    next hseek => exact chunkedLoop_readFrom hplain hseek (.inr (by omega)) h
    next hseek =>
      obtain ⟨hclear, hwhole⟩ := hplain
      rw [if_neg hseek] at hwhole
      rw [if_neg (by simp [hclear, hwhole])] at h
      cases h
      refine .of_plain (by simp) fun k x hx => ?_
      rw [← Volume.plainByte_whole (by simpa using hseek)]
      obtain ⟨hk, hget⟩ := List.getElem?_eq_some_iff.mp hx
      rw [← hget]
      simp

/-- `read_at`, and `read_data` of a seekable file, follow the pointers of the range wherever they lead;
`read_data` of a whole file decodes bytes of the data area only. -/
theorem reads_follow_pointers (hi : v.readInodeInternal id = .ok i) (hmode : i.mode = .file)
    (hplain : v.StoredPlain i) :
    (∀ offset len bytes, S.readAt v id offset len = .ok bytes →
      v.ReadFrom i offset (min len (i.size - offset)) bytes) ∧
    ∀ bytes, S.readData v id = .ok bytes →
      if i.isSeekable then v.ReadFrom i 0 i.size bytes
      else ∃ stored : List UInt8, stored.length = i.size ∧
        (∀ k x, stored[k]? = some x → v.FromDataArea i k x) ∧
        bytes = if i.size = 0 then [] else S.unfilterPayload i stored := by
  refine ⟨fun offset len bytes h => readAt_plain hi hmode hplain h, fun bytes h => ?_⟩
  have hread : S.readDataInternal v id i = .ok bytes := by
    unfold readData at h
    rwa [hi] at h
  cases hseek : i.isSeekable with
  | true =>
    rw [readDataInternal, if_pos hseek, readChunked64kInternal_eq_loop] at hread
    exact chunkedLoop_readFrom hplain hseek (.inr (Nat.zero_add _).le) hread
  | false =>
    rw [readDataInternal_plain hseek hplain] at hread
    refine ⟨(List.range i.size).map (v.dataByte i), by simp, fun k x hx => ?_,
      (Except.ok.inj hread).symm⟩
    obtain ⟨hk, hget⟩ := List.getElem?_eq_some_iff.mp hx
    rw [← hget, List.getElem_map, List.getElem_range]
    exact Volume.fromDataArea_dataByte hseek k

/-- A block of the data area and behind it the header of the journal. -/
def straddlingFile : Inode :=
  { ((Inode.new .file).setSlot 0 37).setSlot 1 journalHeaderBlock with size := 4100 }

theorem reads_follow_pointers_straddling :
    (clearSession none).readAt (journaledVolume straddlingFile) 0 4095 3 = .ok [0, 0x4C, 0x4E] ∧
    (journaledVolume straddlingFile).ReadFrom straddlingFile 4095 3 [0, 0x4C, 0x4E] ∧
    (journaledVolume straddlingFile).FromDataArea straddlingFile 4095 0 := by
  have hread : (clearSession none).readAt (journaledVolume straddlingFile) 0 4095 3 =
      .ok [0, 0x4C, 0x4E] := toOption_eq_some.mp (by decide +kernel)
  have hfrom : (journaledVolume straddlingFile).ReadFrom straddlingFile 4095 3 [0, 0x4C, 0x4E] := by
    have hall := (reads_follow_pointers (S := clearSession none) (i := straddlingFile) rfl rfl
      ⟨rfl, rfl⟩).1 4095 3 _ hread
    rwa [show min 3 (straddlingFile.size - 4095) = 3 by decide] at hall
  have hblock : (journaledVolume straddlingFile).byteBlock straddlingFile 4095 = some 37 := by
    decide +kernel
  refine ⟨hread, hfrom, hfrom.inside 0 0 rfl fun b hb => ?_⟩
  obtain rfl := Option.some.inj (hblock.symm.trans hb.1)
  exact absurd hb.2.2 (by decide)

def headerFile : Inode := { (Inode.new .file).setSlot 0 journalHeaderBlock with size := 4 }

def headerChunk : Inode :=
  { (Inode.new .file).setSlot 0 (ChunkEntry.new journalHeaderBlock 1 ChunkEntry.flagRaw 4) with
    size := 4, flags := 1 }

/-- Three reads that return the magic word of the journal, on a valid image without a byte in its data
area. -/
theorem journal_header_read_as_file :
    (journaledVolume headerFile).Mountable ∧
    (∀ b, (journaledVolume headerFile).isDataBlock b = true →
      (journaledVolume headerFile).block b = fun _ => 0) ∧
    (journaledVolume headerFile).StoredPlain headerFile ∧
    (clearSession none).readAt (journaledVolume headerFile) 0 0 4 = .ok [0x4C, 0x4E, 0x52, 0x4A] ∧
    (clearSession none).readData (journaledVolume headerFile) 0 = .ok [0, 0, 0, 0] ∧
    (clearSession none).readAt (journaledVolume headerChunk) 0 0 4 = .ok [0x4C, 0x4E, 0x52, 0x4A] ∧
    (clearSession none).readData (journaledVolume headerChunk) 0 = .ok [0x4C, 0x4E, 0x52, 0x4A] := by
  refine ⟨⟨48 * blockSize, by decide, rfl⟩, fun b hb => ?_, ⟨rfl, rfl⟩, ?_, ?_, ?_, ?_⟩
  · have hstart := (Volume.isDataBlock_iff.mp hb).2.1
    have hne : b ≠ journalHeaderBlock := by
      rintro rfl
      exact absurd hstart (by decide)
    exact funext fun k => if_neg hne
  all_goals exact toOption_eq_some.mp (by decide +kernel)

end Session

end Oifs
