import Oifs.ChunkRuns
import Oifs.WriteStages

namespace Oifs

/-- What the cipher promises for one message: its ciphertext opens, and nothing else does. -/
structure Codec.Sealed (C : Codec) (key : EncryptionKey) (nonce : Nonce) (aad plain cipher : List UInt8) :
    Prop where
  opens : C.decryptData cipher key nonce aad = some plain
  rejects : ∀ other, other ≠ cipher → C.decryptData other key nonce aad = none

theorem nonceBytes_length (nonce : Nonce) : (nonceBytes nonce).length = 24 := List.length_ofFn

theorem leadingNonce_append (nonce : Nonce) (rest : List UInt8) :
    leadingNonce (nonceBytes nonce ++ rest) = nonce := by
  funext k
  have hk : k.val < (nonceBytes nonce).length := by
    rw [nonceBytes_length]
    exact k.isLt
  unfold leadingNonce
  rw [List.getD_eq_getElem?_getD, List.getElem?_append_left hk, List.getElem?_eq_getElem hk,
    Option.getD_some]
  exact List.getElem_ofFn ..

theorem resize_nonce_append (nonce : Nonce) (cipher : List UInt8) {n : Nat} (hn : 24 ≤ n) :
    resize (nonceBytes nonce ++ cipher) n = nonceBytes nonce ++ resize cipher (n - 24) := by
  have hlen := nonceBytes_length nonce
  rw [resize_eq_map, resize_eq_map]
  apply List.ext_getElem?
  intro k
  by_cases hk : k < n
  · rw [List.getElem?_map, List.getElem?_range hk, Option.map_some]
    by_cases hlow : k < 24
    · rw [List.getElem?_append_left (by omega), List.getD_eq_getElem?_getD,
        List.getElem?_append_left (by omega), List.getElem?_eq_getElem (by omega), Option.getD_some]
    · rw [List.getElem?_append_right (by omega), hlen, List.getElem?_map,
        List.getElem?_range (by omega), Option.map_some, List.getD_eq_getElem?_getD,
        List.getElem?_append_right (by omega), hlen, List.getD_eq_getElem?_getD]
  · rw [List.getElem?_eq_none (by simpa using hk), List.getElem?_eq_none (by simp; omega)]

namespace Session

variable {S : Session} {v : Volume}

/-- How a chunk is stored under encryption: as its frame if nonce, tag and frame are shorter than it,
else as it is. -/
def sealedForm (frame d : List UInt8) : Nat × List UInt8 :=
  if frame.length + 40 < d.length then (ChunkEntry.flagCompressed, frame) else (ChunkEntry.flagRaw, d)

/-- A prepared chunk under encryption: the nonce and the ciphertext of `plain`. -/
structure SealedPayload (S : Session) (key : EncryptionKey) (nonce : Nonce) (aad plain : List UInt8)
    (p : PreparedChunkPayload) : Prop where
  blocks : p.blocksNeeded = divCeil p.payload.length blockSize
  compLen : p.flag = ChunkEntry.flagCompressed → p.compLen = p.payload.length
  payload : ∃ c, S.codec.encryptData plain key nonce aad = .ok c ∧ p.payload = nonceBytes nonce ++ c

variable {key : EncryptionKey}

/-- Under a key, a prepared chunk is its sealed form. -/
theorem prepareChunkPayload_sealed {d frame : List UInt8} {level : Int}
    {draw : Nat → Nat → Nonce} {ctx : ChunkAadContext} {p : PreparedChunkPayload}
    (hkey : S.encryptionKey = some key)
    (htag : ∀ {plain nonce aad c}, S.codec.encryptData plain key nonce aad = .ok c →
      c.length = plain.length + 16)
    (hframe : S.codec.compressFrame d (if level ≤ 0 then 1 else level) = .ok frame)
    (hlen : d.length ≤ chunkSize64k) (h : S.prepareChunkPayload d d.length level draw ctx = .ok p) :
    p.chunkIdx = ctx.chunkIdx ∧ p.flag = (sealedForm frame d).1 ∧
      S.SealedPayload key (draw ctx.chunkIdx p.flag)
        (chunkAadForScheme ctx.inodeId ctx.chunkIdx (UInt8.ofNat p.flag) ctx.scheme)
        (sealedForm frame d).2 p := by
  have hsize : chunkSize64k = 65536 := rfl
  unfold prepareChunkPayload at h
  rw [List.take_length] at h
  simp only [hframe, hkey, except_bind_ok] at h
  obtain ⟨_, hsome, h⟩ := h
  cases hsome
  -- without a shorter ciphertext of the frame both branches end here
  have hraw : ¬frame.length + 40 < d.length → (do
      let payload ← (do
        let enc ← S.codec.encryptData d key (draw ctx.chunkIdx ChunkEntry.flagRaw)
          (chunkAadForScheme ctx.inodeId ctx.chunkIdx (UInt8.ofNat ChunkEntry.flagRaw) ctx.scheme)
        pure (nonceBytes (draw ctx.chunkIdx ChunkEntry.flagRaw) ++ enc))
      pure (⟨ctx.chunkIdx, payload, ChunkEntry.flagRaw, min payload.length 65535,
        divCeil payload.length blockSize⟩ : PreparedChunkPayload)) = .ok p →
      p.chunkIdx = ctx.chunkIdx ∧ p.flag = (sealedForm frame d).1 ∧
        S.SealedPayload key (draw ctx.chunkIdx p.flag)
          (chunkAadForScheme ctx.inodeId ctx.chunkIdx (UInt8.ofNat p.flag) ctx.scheme)
          (sealedForm frame d).2 p := by
    intro hlong h
    obtain ⟨payload, hpayload, h⟩ := except_bind_ok.mp h
    obtain ⟨c, hc, hpayload⟩ := except_bind_ok.mp hpayload
    cases hpayload
    cases h
    rw [sealedForm, if_neg hlong]
    exact ⟨rfl, rfl, rfl, fun hflag => absurd hflag (show ChunkEntry.flagRaw ≠ ChunkEntry.flagCompressed by decide),
      c, hc, rfl⟩
  split at h
  next hsmaller =>
    obtain ⟨payload, hpayload, h⟩ := except_bind_ok.mp h
    obtain ⟨c, hc, hpayload⟩ := except_bind_ok.mp hpayload
    cases hpayload
    have htotal : (nonceBytes (draw ctx.chunkIdx ChunkEntry.flagCompressed) ++ c).length =
        frame.length + 40 := by
      rw [List.length_append, nonceBytes_length, htag hc]
      omega
    obtain ⟨small, hsmall, h⟩ := except_bind_ok.mp h
    cases hsmall
    rw [htotal] at h
    by_cases hshort : frame.length + 40 < d.length
    · rw [if_pos ⟨hshort, by omega⟩] at h
      cases h
      rw [sealedForm, if_pos hshort]
      exact ⟨rfl, rfl, by rw [htotal], fun _ => by rw [htotal], c, hc, rfl⟩
    · rw [if_neg fun hno => hshort hno.1] at h
      exact hraw hshort h
  next hlonger => exact hraw (by omega) h

theorem decryptChunk_append {id idx flag : Nat} {nonce : Nonce}
    {c : List UInt8} (hkey : S.encryptionKey = some key) (hc : 16 ≤ c.length) :
    S.decryptChunk v id idx flag (nonceBytes nonce ++ c) =
      match S.codec.decryptData c key nonce
        (chunkAadForScheme id idx (UInt8.ofNat flag) v.superblock.encryptionVersion) with
      | some plain => .ok plain
      | none => .error .decryptionFailed := by
  have hlen := nonceBytes_length nonce
  have hlong : ¬(nonceBytes nonce ++ c).length < 40 := by
    rw [List.length_append]
    omega
  have hdrop : (nonceBytes nonce ++ c).drop 24 = c := by
    rw [← hlen, List.drop_left]
  cases hopen : S.codec.decryptData c key nonce
      (chunkAadForScheme id idx (UInt8.ofNat flag) v.superblock.encryptionVersion) with
  | none => simp only [decryptChunk, hlong, if_false, hkey, leadingNonce_append, hdrop, hopen]
  | some plain => simp only [decryptChunk, hlong, if_false, hkey, leadingNonce_append, hdrop, hopen]

theorem readSingle_sealed_frame {id idx n : Nat} {i : Inode} {e : ChunkEntry}
    {nonce : Nonce} {c d frame : List UInt8} (hkey : S.encryptionKey = some key)
    (hencrypted : i.encrypted = true) (hentry : v.resolveLogicalChunkEntry i idx = e)
    (hflag : e.flags = ChunkEntry.flagCompressed) (hcomp : e.compressedLen = 24 + c.length)
    (hstored : Stored v e (nonceBytes nonce ++ c)) (hc : 16 ≤ c.length)
    (hopens : S.codec.decryptData c key nonce (chunkAadForScheme id idx
      (UInt8.ofNat ChunkEntry.flagCompressed) v.superblock.encryptionVersion) = some frame)
    (hframe : S.codec.decompressFrame frame chunkSize64k = .ok d) :
    S.readSingleChunkDecompressed v id i idx n = .ok (resize d n) := by
  have hne : e.isEmpty = false := ChunkEntry.isEmpty_eq_false (by rw [hflag]; decide)
  have hraw : e.flags ≠ ChunkEntry.flagRaw := by rw [hflag]; decide
  have hlen : (nonceBytes nonce ++ c).length = 24 + c.length := by
    rw [List.length_append, nonceBytes_length]
  have hmin : min e.compressedLen (e.blockCount * blockSize) = (nonceBytes nonce ++ c).length := by
    have hfits := hstored.fits
    omega
  unfold readSingleChunkDecompressed
  dsimp only
  rw [hentry, hne, if_neg Bool.false_ne_true, if_neg hraw, if_pos hflag, hmin,
    hstored.chunkSlice hstored.fits, resize_length_self]
  simp only [hencrypted, if_true]
  change (S.decryptChunk v id idx ChunkEntry.flagCompressed (nonceBytes nonce ++ c) >>= fun frame => do
    let result ← S.codec.decompressFrame frame chunkSize64k
    Except.ok (resize result n)) = _
  rw [decryptChunk_append hkey hc, hopens]
  change (S.codec.decompressFrame frame chunkSize64k >>= fun result => Except.ok (resize result n)) = _
  rw [hframe]
  rfl

theorem readSingle_sealed_raw {id idx n : Nat} {i : Inode} {e : ChunkEntry}
    {nonce : Nonce} {c : List UInt8} (hkey : S.encryptionKey = some key)
    (hencrypted : i.encrypted = true) (hentry : v.resolveLogicalChunkEntry i idx = e)
    (hflag : e.flags = ChunkEntry.flagRaw) (hstored : Stored v e (nonceBytes nonce ++ c))
    (hblocks : 0 < e.blockCount) :
    S.readSingleChunkDecompressed v id i idx n =
      match S.codec.decryptData (resize c (min (n + 40) (e.blockCount * blockSize) - 24)) key nonce
        (chunkAadForScheme id idx (UInt8.ofNat ChunkEntry.flagRaw) v.superblock.encryptionVersion) with
      | some plain => .ok (resize plain n)
      | none => .error .decryptionFailed := by
  have hne : e.isEmpty = false := ChunkEntry.isEmpty_eq_false (by rw [hflag]; decide)
  have htotal : 4096 ≤ e.blockCount * blockSize := Nat.le_mul_of_pos_left _ hblocks
  have hcut : 16 ≤ (resize c (min (n + 40) (e.blockCount * blockSize) - 24)).length := by
    rw [resize_length]
    omega
  unfold readSingleChunkDecompressed
  dsimp only
  rw [hentry, hne, if_neg Bool.false_ne_true, if_pos hflag, if_pos hencrypted,
    hstored.chunkSlice (Nat.min_le_right ..), resize_nonce_append nonce c (by omega)]
  simp only [hencrypted, if_true]
  change (S.decryptChunk v id idx ChunkEntry.flagRaw _ >>= fun plain => Except.ok (resize plain n)) = _
  rw [decryptChunk_append hkey hcut]
  cases S.codec.decryptData (resize c (min (n + 40) (e.blockCount * blockSize) - 24)) key nonce
    (chunkAadForScheme id idx (UInt8.ofNat ChunkEntry.flagRaw) v.superblock.encryptionVersion) with
  | none => rfl
  | some plain => rfl

/-- How an encrypted chunk reads at the length `n`: a frame is taken by its own length, raw bytes by
the length asked for. -/
theorem readSingle_placed {d frame : List UInt8} {level : Int}
    {draw : Nat → Nat → Nonce} {id idx start : Nat} {i : Inode} {p : PreparedChunkPayload}
    (hzstd : S.codec.decompressFrame frame chunkSize64k = .ok d)
    (htag : ∀ {plain nonce aad c}, S.codec.encryptData plain key nonce aad = .ok c →
      c.length = plain.length + 16)
    (hopens : ∀ c, S.codec.encryptData (sealedForm frame d).2 key (draw idx p.flag)
        (chunkAadForScheme id idx (UInt8.ofNat p.flag) v.superblock.encryptionVersion) = .ok c →
      S.codec.decryptData c key (draw idx p.flag) (chunkAadForScheme id idx (UInt8.ofNat p.flag)
        v.superblock.encryptionVersion) = some (sealedForm frame d).2)
    (hkey : S.encryptionKey = some key) (hlen : d.length ≤ chunkSize64k)
    (hframe : S.codec.compressFrame d (if level ≤ 0 then 1 else level) = .ok frame)
    (hp : S.prepareChunkPayload d d.length level draw ⟨id, idx, v.superblock.encryptionVersion⟩ = .ok p)
    (hstart : start < 2 ^ 32) (hencrypted : i.encrypted = true)
    (hentry : v.resolveLogicalChunkEntry i idx =
      ChunkEntry.new start p.blocksNeeded p.flag p.compLen)
    (hstored : Stored v (ChunkEntry.new start p.blocksNeeded p.flag p.compLen) p.payload) :
    if frame.length + 40 < d.length then
      ∀ n, S.readSingleChunkDecompressed v id i idx n = .ok (resize d n)
    else ∃ c, S.codec.encryptData d key (draw idx p.flag) (chunkAadForScheme id idx
        (UInt8.ofNat p.flag) v.superblock.encryptionVersion) = .ok c ∧ c.length = d.length + 16 ∧
      ∀ n, S.readSingleChunkDecompressed v id i idx n =
        match S.codec.decryptData (resize c (min (n + 40)
            (divCeil (d.length + 40) blockSize * blockSize) - 24)) key (draw idx p.flag)
          (chunkAadForScheme id idx (UInt8.ofNat p.flag) v.superblock.encryptionVersion) with
        | some plain => .ok (resize plain n)
        | none => .error .decryptionFailed := by
  have hsize : chunkSize64k = 65536 := rfl
  obtain ⟨-, hflag, hblocks, hcompLen, c, hc, hpayload⟩ :=
    prepareChunkPayload_sealed hkey htag hframe hlen hp
  have hcipher := htag hc
  have hpayloadLen : p.payload.length = 24 + c.length := by
    rw [hpayload, List.length_append, nonceBytes_length]
  have hopen := hopens c hc
  rw [hpayload] at hstored
  split
  next hshort =>
    rw [sealedForm, if_pos hshort] at hflag hcipher hopen
    dsimp only at hflag hcipher
    rw [hflag] at hentry hstored hopen
    intro n
    apply readSingle_sealed_frame hkey hencrypted hentry _ _ hstored (by omega) hopen hzstd
    · exact ChunkEntry.flags_new hstart (by decide)
    · rw [ChunkEntry.compressedLen_new hstart (by rw [hcompLen hflag]; omega), hcompLen hflag]
      omega
  next hshort =>
    rw [sealedForm, if_neg hshort] at hflag hcipher hc
    dsimp only at hflag hcipher hc
    refine ⟨c, hc, hcipher, fun n => ?_⟩
    rw [hflag] at hentry hstored ⊢
    have hcount : ChunkEntry.blockCount (ChunkEntry.new start p.blocksNeeded ChunkEntry.flagRaw
        p.compLen) = divCeil (d.length + 40) blockSize := by
      rw [ChunkEntry.blockCount_new hstart]
      · rw [hblocks, hpayloadLen, hcipher]
        congr 1
        omega
      · rw [hblocks, hpayloadLen, hcipher]
        unfold divCeil blockSize
        omega
    rw [readSingle_sealed_raw hkey hencrypted hentry (ChunkEntry.flags_new hstart (by decide)) hstored
      (by rw [hcount]; unfold divCeil blockSize; omega), hcount]

/-- A compressed encrypted chunk is read back at every later size; a raw one exactly if the reader
still takes the whole payload. -/
theorem encrypted_chunk_read_iff {d frame : List UInt8} {level : Int} {key : EncryptionKey}
    {draw : Nat → Nat → Nonce} {id idx start : Nat} {i : Inode} {p : PreparedChunkPayload}
    (hzstd : ∀ {d level f cap}, S.codec.compressFrame d level = .ok f → d.length ≤ cap →
      S.codec.decompressFrame f cap = .ok d)
    (htag : ∀ {plain nonce aad c}, S.codec.encryptData plain key nonce aad = .ok c →
      c.length = plain.length + 16)
    (hsealed : ∀ c, S.codec.encryptData (sealedForm frame d).2 key (draw idx p.flag)
        (chunkAadForScheme id idx (UInt8.ofNat p.flag) v.superblock.encryptionVersion) = .ok c →
      S.codec.Sealed key (draw idx p.flag)
        (chunkAadForScheme id idx (UInt8.ofNat p.flag) v.superblock.encryptionVersion)
        (sealedForm frame d).2 c)
    (hkey : S.encryptionKey = some key) (hpos : 1 ≤ d.length) (hlen : d.length ≤ chunkSize64k)
    (hframe : S.codec.compressFrame d (if level ≤ 0 then 1 else level) = .ok frame)
    (hp : S.prepareChunkPayload d d.length level draw ⟨id, idx, v.superblock.encryptionVersion⟩ = .ok p)
    (hstart : start < 2 ^ 32) (hencrypted : i.encrypted = true)
    (hentry : v.resolveLogicalChunkEntry i idx =
      ChunkEntry.new start p.blocksNeeded p.flag p.compLen)
    (hstored : Stored v (ChunkEntry.new start p.blocksNeeded p.flag p.compLen) p.payload) :
    S.readSingleChunkDecompressed v id i idx (chunkValidLen i.size idx) =
        .ok (resize d (chunkValidLen i.size idx)) ↔
      frame.length + 40 < d.length ∨
        min (chunkValidLen i.size idx + 40) (divCeil (d.length + 40) blockSize * blockSize) =
          d.length + 40 := by
  have hread := readSingle_placed (hzstd hframe hlen) htag (fun c hc => (hsealed c hc).opens) hkey hlen
    hframe hp hstart hencrypted hentry hstored
  split at hread
  next hshort => exact iff_of_true (hread _) (.inl hshort)
  next hshort =>
    obtain ⟨c, hc, hcipher, hread⟩ := hread
    have hraw : (sealedForm frame d).2 = d := by rw [sealedForm, if_neg hshort]
    rw [hraw] at hsealed
    obtain ⟨hopens, hrejects⟩ := hsealed c hc
    rw [hread, or_iff_right hshort]
    generalize min (chunkValidLen i.size idx + 40) (divCeil (d.length + 40) blockSize * blockSize) = m
    by_cases hm : m = d.length + 40
    · refine iff_of_true ?_ hm
      have hwhole : resize c (m - 24) = c := by
        rw [show m - 24 = c.length by omega, resize_length_self]
      rw [hwhole, hopens]
    · refine iff_of_false ?_ hm
      have hother : resize c (m - 24) ≠ c := by
        intro heq
        have hlen' := congrArg List.length heq
        rw [resize_length] at hlen'
        omega
      rw [hrejects _ hother]
      exact fun heq => by cases heq

/-- A cipher under which only the message of one byte 7 has been sealed. -/
def sealCodec : Codec :=
  { Codec.clearCodec with
    encryptData := fun plain _ _ _ => .ok (plain ++ List.replicate 16 0)
    decryptData := fun c _ _ _ => if c = 7 :: List.replicate 16 0 then some [7] else none }

def sealSession : Session := { clearSession (some ⟨[]⟩) with codec := sealCodec }

def sealedByte : PreparedChunkPayload :=
  ⟨0, List.replicate 24 0 ++ 7 :: List.replicate 16 0, ChunkEntry.flagRaw, 41, 1⟩

def sealedChunkInode (size : Nat) : Inode :=
  { (Inode.new .file).setSlot 0 (ChunkEntry.new 4 1 ChunkEntry.flagRaw 41) with
    size := size, flags := 1, encrypted := true }

def sealedChunkVolume (size : Nat) : Volume :=
  tinyVolume (sealedChunkInode size) fun k => sealedByte.payload.getD k 0

theorem sealedChunkVolume_stored (size : Nat) :
    Stored (sealedChunkVolume size) (ChunkEntry.new 4 1 ChunkEntry.flagRaw 41) sealedByte.payload := by
  refine ⟨by decide, show ChunkEntry.startBlock _ + ChunkEntry.blockCount _ ≤ 24 by decide,
    fun k hk => ?_⟩
  have hcount : ChunkEntry.blockCount (ChunkEntry.new 4 1 ChunkEntry.flagRaw 41) * blockSize = 4096 := by
    decide
  have hk' : k < blockSize := by rwa [hcount] at hk
  rw [Nat.div_eq_of_lt hk', Nat.mod_eq_of_lt hk']
  rfl

theorem encrypted_chunk_read_byte :
    sealSession.prepareChunkPayload [7] 1 1 (fun _ _ _ => 0) ⟨0, 0, 0⟩ = .ok sealedByte ∧
      sealSession.readSingleChunkDecompressed (sealedChunkVolume 1) 0 (sealedChunkInode 1) 0 1 = .ok [7] := by
  have hp : sealSession.prepareChunkPayload [7] 1 1 (fun _ _ _ => 0) ⟨0, 0, 0⟩ = .ok sealedByte := by
    rfl
  have hzstd : ∀ {d level f cap}, sealSession.codec.compressFrame d level = .ok f →
      d.length ≤ cap → sealSession.codec.decompressFrame f cap = .ok d := by
    intro d level f cap h hcap
    exact @Codec.Lawful.frame _ Codec.clearCodec_lawful d level f cap h hcap
  have hentry : (sealedChunkVolume 1).resolveLogicalChunkEntry (sealedChunkInode 1) 0 =
      ChunkEntry.new 4 sealedByte.blocksNeeded sealedByte.flag sealedByte.compLen := by decide +kernel
  have htag : ∀ {plain nonce aad c}, sealSession.codec.encryptData plain ⟨[]⟩ nonce aad = .ok c →
      c.length = plain.length + 16 := by
    intro plain nonce aad c h
    cases h
    simp
  have hiff := encrypted_chunk_read_iff (S := sealSession) (v := sealedChunkVolume 1) (i := sealedChunkInode 1)
    (p := sealedByte) (d := [7]) hzstd htag (fun c h => by
      cases h
      exact ⟨rfl, fun other hother => if_neg hother⟩) rfl (by decide) (by decide) rfl hp (by decide)
    rfl hentry (sealedChunkVolume_stored 1)
  have hlen : chunkValidLen (sealedChunkInode 1).size 0 = 1 := by decide
  rw [hlen] at hiff
  exact ⟨hp, hiff.mpr (.inr (by decide))⟩

/-- The chunk that reads well at size 1 is refused at size 2. -/
theorem encrypted_chunk_lost_by_growth :
    sealSession.readSingleChunkDecompressed (sealedChunkVolume 1) 0 (sealedChunkInode 1) 0 1 = .ok [7] ∧
    sealSession.readSingleChunkDecompressed (sealedChunkVolume 2) 0 (sealedChunkInode 2) 0 2 =
      .error .decryptionFailed ∧
    ∃ v₁ v₂, sealSession.writeDataWithFilters epoch 0 0 [7] (.seekable 65536 1) .none
        (tinyVolume (Inode.new .file) fun _ => 0) = .ok () v₁ ∧
      sealSession.readAt v₁ 0 0 1 = .ok [7] ∧
      sealSession.writeDataWithFilters epoch 0 65536 [7] (.seekable 65536 1) .none v₁ = .ok () v₂ ∧
      sealSession.readAt v₂ 0 0 1 = .error .decryptionFailed := by
  refine ⟨by decide +kernel, by decide +kernel, ?_⟩
  obtain ⟨v₁, hfirst, hrest⟩ := outcome_map_some
    (a := (.ok [7], some (.error .decryptionFailed)))
    (f := fun v₁ => (sealSession.readAt v₁ 0 0 1, (outcome (sealSession.writeDataWithFilters epoch 0
      65536 [7] (.seekable 65536 1) .none) v₁).map (sealSession.readAt · 0 0 1)))
    (x := sealSession.writeDataWithFilters epoch 0 0 [7] (.seekable 65536 1) .none)
    (v := tinyVolume (Inode.new .file) fun _ => 0) (by decide +kernel)
  obtain ⟨hbefore, hsecond⟩ := Prod.mk.inj hrest
  obtain ⟨v₂, hsecond, hafter⟩ := outcome_map_some hsecond
  exact ⟨v₁, v₂, hfirst, hbefore, hsecond, hafter⟩

end Session

end Oifs
