import Oifs.ChunkedTruncate

namespace Oifs

open PointerForest

/-- A call on one file that may be seekable, with the clock and the nonces it sees. -/
inductive SeekableCall
  | write (A : Ambient) (call : WriteCall)
  | truncate (A : Ambient) (newSize : Nat)
  | readAt (offset len : Nat)

namespace SeekableCall

variable (S : Session) (id : Nat)

def run : SeekableCall → Volume → Option (List UInt8 × Volume)
  | .write A call, v =>
    if (Session.isSeekableWrite v id call.mode).toOption = some true then
      (outcome (S.write id A call) v).map fun v' => ([], v')
    else none
  | .truncate A newSize, v => (outcome (S.truncateInternal A id newSize) v).map fun v' => ([], v')
  | .readAt offset len, v => (S.readAt v id offset len).toOption.map fun bytes => (bytes, v)

def onBytes : SeekableCall → List UInt8 → List UInt8 × List UInt8
  | .write _ call, l => ([], if call.data.isEmpty then l else splice l call.offset call.data)
  | .truncate _ newSize, l => ([], resize l newSize)
  | .readAt offset len, l => ((l.drop offset).take len, l)

def runs : List SeekableCall → Volume → Option (List (List UInt8) × Volume)
  | [], v => some ([], v)
  | call :: calls, v => do
    let (bytes, v) ← call.run S id v
    let (rest, v) ← runs calls v
    return (bytes :: rest, v)

def runsOnBytes : List SeekableCall → List UInt8 → List (List UInt8)
  | [], _ => []
  | call :: calls, l => (call.onBytes l).1 :: runsOnBytes calls (call.onBytes l).2

end SeekableCall

namespace Session

variable {S : Session} {v v' : Volume} {id : Nat} {i : Inode} {c : Nat → UInt8}

structure NewFile (v : Volume) (id : Nat) (i : Inode) : Prop where
  record : v.readInodeInternal id = .ok i
  mode : i.mode = .file
  plain : i.encrypted = false
  size : i.size = 0
  compressedSize : i.compressedSize = 0
  filter : i.filterTypesize = 0
  slots : ∀ s, i.slot s = 0

theorem NewFile.chunkedFile (h : NewFile v id i) (hs : v.Sound) (himage : ChunkImage v)
    (hjournal : v.superblock.hasJournalLayout = false) : S.ChunkedFile v id i fun _ => 0 :=
  ⟨h.record, h.mode, h.plain, hjournal, himage, good_empty chunkExtent_zero hs h.slots,
    Or.inr ⟨h.slots, h.compressedSize, h.filter⟩, chunks_empty h.slots fun _ _ => rfl,
    fun _ _ => rfl⟩

/-- A call on a chunked file does what the same call does on its bytes. -/
theorem ChunkedFile.step {call : SeekableCall} {bytes : List UInt8} (hC : S.codec.Lawful)
    (hkey : S.encryptionKey = none) (h : S.ChunkedFile v id i c)
    (hrun : call.run S id v = some (bytes, v')) :
    (call.onBytes ((List.range i.size).map c)).1 = bytes ∧
      ∃ i' c', S.ChunkedFile v' id i' c' ∧
        (call.onBytes ((List.range i.size).map c)).2 = (List.range i'.size).map c' := by
  cases call with
  | write A call =>
    rw [SeekableCall.run] at hrun
    split at hrun
    next hseek =>
      obtain ⟨w, hw, hpair⟩ := Option.map_eq_some_iff.mp hrun
      cases hpair
      have hwrite := outcome_eq_some.mp hw
      refine ⟨rfl, ?_⟩
      by_cases hempty : call.data = []
      · obtain rfl := write_nil (toOption_eq_some.mp hseek) hempty hwrite
        exact ⟨i, c, h, by simp [SeekableCall.onBytes, hempty]⟩
      · obtain ⟨hspares, i', hsize, hseek', h'⟩ := h.view.write hC hkey hempty
          (toOption_eq_some.mp hseek) (h.image.fits S A id call) hwrite
        refine ⟨i', _, h'.chunkedFile (h.image.congr hspares.superblock) hseek', ?_⟩
        have hcut : (fun j => if j < i.size then c j else 0) = c := cut_of_zero h.zero
        have hfalse : call.data.isEmpty = false := by simpa using hempty
        rw [SeekableCall.onBytes, hfalse, if_neg Bool.false_ne_true, splice_map_range, hcut, hsize]
    next => cases hrun
  | truncate A newSize =>
    rw [SeekableCall.run] at hrun
    obtain ⟨w, hw, hpair⟩ := Option.map_eq_some_iff.mp hrun
    cases hpair
    obtain ⟨i', hsize, h'⟩ := h.truncate hC hkey (outcome_eq_some.mp hw)
    refine ⟨rfl, i', _, h', ?_⟩
    rw [SeekableCall.onBytes, resize_eq_map, hsize]
    refine List.map_congr_left fun k hk => ?_
    rw [getD_map_range, cut, if_pos (List.mem_range.mp hk)]
    split
    next => rfl
    next hout => exact (h.zero k (Nat.not_lt.mp hout)).symm
  | readAt offset len =>
    rw [SeekableCall.run, h.readAt hC] at hrun
    cases hrun
    refine ⟨?_, i, c, h, rfl⟩
    apply List.ext_getElem
    · simp [SeekableCall.onBytes]
    · intro k hk hk'
      simp [SeekableCall.onBytes]

theorem ChunkedFile.runs {calls : List SeekableCall} {results : List (List UInt8)}
    (hC : S.codec.Lawful) (hkey : S.encryptionKey = none) (h : S.ChunkedFile v id i c)
    (hrun : SeekableCall.runs S id calls v = some (results, v')) :
    results = SeekableCall.runsOnBytes calls ((List.range i.size).map c) := by
  induction calls generalizing v i c results with
  | nil =>
    cases hrun
    rfl
  | cons call calls ih =>
    rw [SeekableCall.runs] at hrun
    obtain ⟨⟨bytes, v₁⟩, hone, hrun⟩ := Option.bind_eq_some_iff.mp hrun
    obtain ⟨⟨rest, v₂⟩, hrest, hrun⟩ := Option.bind_eq_some_iff.mp hrun
    cases hrun
    obtain ⟨hbytes, i', c', h', hl⟩ := h.step hC hkey hone
    rw [SeekableCall.runsOnBytes, hbytes, hl, ih h' hrest]

/-- Every read in a run of seekable calls on a new file returns what a byte array does, if entries
can name every block. -/
theorem seekable_runs_refine {calls : List SeekableCall} {results : List (List UInt8)}
    (hC : S.codec.Lawful) (hkey : S.encryptionKey = none)
    (hjournal : v.superblock.hasJournalLayout = false) (hs : v.Sound) (hwhole : v.WholeBitmap)
    (hnarrow : v.superblock.dataBlockStart + bitmapBits ≤ 2 ^ 32) (hnew : NewFile v id i)
    (hrun : SeekableCall.runs S id calls v = some (results, v')) :
    results = SeekableCall.runsOnBytes calls [] := by
  have hfile : S.ChunkedFile v id i fun _ => 0 := hnew.chunkedFile hs ⟨hwhole, hnarrow⟩ hjournal
  have hnil : (List.range i.size).map (fun _ => (0 : UInt8)) = [] := by
    rw [hnew.size]
    rfl
  rw [hfile.runs hC hkey hrun, hnil]

def wideVolume (start : Nat) : Volume :=
  { tinyVolume (Inode.new .file) fun _ => 0 with
    superblock := { (tinyVolume (Inode.new .file) fun _ => 0).superblock with
      blockCount := start + bitmapBits, dataBlockStart := start }
    mapBlocks := start + bitmapBits
    dataBit := fun _ => false
    freeBlockHint := start }

theorem wideVolume_new {start : Nat} (h : 3 < start) :
    NewFile (wideVolume start) 0 (Inode.new .file) := by
  refine ⟨?_, rfl, rfl, rfl, rfl, rfl, Inode.slot_new .file⟩
  have hcapacity : ¬0 ≥ (wideVolume start).superblock.usableInodeCount := by
    simp [wideVolume, tinyVolume, SuperBlock.usableInodeCount, SuperBlock.inodeTableCapacity,
      SuperBlock.inodeSlotsPerBlock, SuperBlock.maxTrackedInodes, blockSize, inodeSlotSize]
    omega
  unfold Volume.readInodeInternal
  rw [if_neg hcapacity]
  rfl

def gapCalls : List SeekableCall :=
  [.write epoch ⟨2, [7, 8], .seekable 65536 1, .none⟩, .readAt 0 9, .truncate epoch 3,
    .truncate epoch 5, .readAt 1 9]

theorem seekable_runs_refine_gap : ∃ results v',
    SeekableCall.runs (clearSession none) 0 gapCalls (wideVolume 4) = some (results, v') ∧
      results = SeekableCall.runsOnBytes gapCalls [] := by
  obtain ⟨⟨results, v'⟩, hrun, -⟩ := Option.map_eq_some_iff.mp (by decide +kernel :
    (SeekableCall.runs (clearSession none) 0 gapCalls (wideVolume 4)).map (·.1) =
      some [[], [0, 0, 7, 8], [], [], [0, 7, 0, 0]])
  exact ⟨results, v', hrun, seekable_runs_refine Codec.clearCodec_lawful rfl (by decide)
    ⟨by decide, by decide, by decide⟩ (Nat.le_refl _) (by decide) (wideVolume_new (by decide)) hrun⟩

/-- A chunk at block `2 ^ 32` of an image that `validate` accepts: its entry names block 0. -/
theorem chunk_entry_truncated :
    (wideVolume (2 ^ 32)).superblock.validate ((2 ^ 32 + bitmapBits) * blockSize) = .ok () ∧
    (wideVolume (2 ^ 32)).superblock.hasJournalLayout = false ∧
    (wideVolume (2 ^ 32)).WholeBitmap ∧
    NewFile (wideVolume (2 ^ 32)) 0 (Inode.new .file) ∧
    ∃ v', SeekableCall.runs (clearSession none) 0
        [.write epoch ⟨0, [7], .seekable 65536 1, .none⟩, .readAt 0 1] (wideVolume (2 ^ 32)) =
          some ([[], [0]], v') ∧
      SeekableCall.runsOnBytes
        [.write epoch ⟨0, [7], .seekable 65536 1, .none⟩, .readAt 0 1] [] = [[], [7]] := by
  refine ⟨?_, by decide, Nat.le_refl _, wideVolume_new (by decide), ?_⟩
  · decide +kernel
  · obtain ⟨⟨results, v'⟩, hrun, hresults⟩ := Option.map_eq_some_iff.mp (by decide +kernel :
      (SeekableCall.runs (clearSession none) 0
        [.write epoch ⟨0, [7], .seekable 65536 1, .none⟩, .readAt 0 1] (wideVolume (2 ^ 32))).map
          (·.1) = some [[], [0]])
    cases hresults
    exact ⟨v', hrun, rfl⟩

end Session

end Oifs
