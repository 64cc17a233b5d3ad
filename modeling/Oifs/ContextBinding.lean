import Oifs.EncryptedChunk
import Oifs.JournaledCalls
import Oifs.Mountable
import Oifs.WriteContent
import Oifs.TruncateRuns

namespace Oifs

open LittleEndian Outcome

/-- What a ciphertext is for: a whole file, or one chunk of a file stored with these flags. -/
inductive SealContext where
  | file (inode : UInt64)
  | chunk (inode idx : UInt64) (flags : UInt8)
  deriving DecidableEq

namespace SealContext

def inode : SealContext → UInt64
  | file i => i
  | chunk i _ _ => i

def aad (scheme : Nat) : SealContext → List UInt8
  | file i => fileAadForScheme i.toNat scheme
  | chunk i idx flags => chunkAadForScheme i.toNat idx.toNat flags scheme

end SealContext

section Contexts

theorem encode_mod (w n : Nat) : encode w (n % 256 ^ w) = encode w n := by
  induction w generalizing n with
  | zero => rfl
  | succ w ih =>
    have hlow : UInt8.ofNat (n % 256 ^ (w + 1)) = UInt8.ofNat n := by
      apply UInt8.toNat.inj
      rw [UInt8.toNat_ofNat', UInt8.toNat_ofNat']
      exact Nat.mod_mod_of_dvd n (Dvd.intro_left (256 ^ w) rfl)
    have hhigh : n % 256 ^ (w + 1) / 256 = n / 256 % 256 ^ w := by
      rw [Nat.pow_succ, Nat.mul_comm, Nat.mod_mul_right_div_self]
    rw [encode, encode, hlow, hhigh, ih]

theorem encode_toNat (n : Nat) : encode 8 (UInt64.ofNat n).toNat = encode 8 n := by
  rw [UInt64.toNat_ofNat']
  exact encode_mod 8 n

theorem encode_toNat_inj {a b : UInt64} (h : encode 8 a.toNat = encode 8 b.toNat) : a = b := by
  have hdecode := congrArg decode h
  rw [decode_encode, decode_encode] at hdecode
  have ha := a.toNat_lt
  have hb := b.toNat_lt
  exact UInt64.toNat.inj (by omega)

theorem fileAadForScheme_eq (id scheme : Nat) :
    fileAadForScheme id scheme = (SealContext.file (UInt64.ofNat id)).aad scheme := by
  rw [SealContext.aad, fileAadForScheme, fileAadForScheme, fileAad, fileAad, encode_toNat]

theorem chunkAadForScheme_eq (id idx scheme : Nat) (flags : UInt8) :
    chunkAadForScheme id idx flags scheme =
      (SealContext.chunk (UInt64.ofNat id) (UInt64.ofNat idx) flags).aad scheme := by
  rw [SealContext.aad, chunkAadForScheme, chunkAadForScheme, chunkAad, chunkAad, encode_toNat, encode_toNat]

theorem SealContext.aad_injective {scheme : Nat} (hscheme : encryptionSchemeContextBound ≤ scheme)
    {a b : SealContext} (h : a.aad scheme = b.aad scheme) : a = b := by
  cases a with
  | file i =>
    cases b with
    | file j =>
      simp only [aad, fileAadForScheme, if_pos hscheme, fileAad] at h
      have hid := List.append_cancel_left h
      rw [encode_toNat_inj hid]
    | chunk j k flags =>
      simp only [aad, fileAadForScheme, chunkAadForScheme, if_pos hscheme, fileAad, chunkAad] at h
      exact absurd (List.cons.inj h).1 (by decide)
  | chunk i idx flags =>
    cases b with
    | file j =>
      simp only [aad, fileAadForScheme, chunkAadForScheme, if_pos hscheme, fileAad, chunkAad] at h
      exact absurd (List.cons.inj h).1 (by decide)
    | chunk j k flags' =>
      simp only [aad, chunkAadForScheme, if_pos hscheme, chunkAad] at h
      obtain ⟨hhead, hflags⟩ := List.append_inj h (by simp)
      obtain ⟨hids, hidx⟩ := List.append_inj hhead (by simp)
      have hid := List.append_cancel_left hids
      rw [encode_toNat_inj hid, encode_toNat_inj hidx, (List.cons.inj hflags).1]

end Contexts

/-- An encryption that took place, and what it was for. -/
structure Sealing where
  context : SealContext
  plain : List UInt8
  key : EncryptionKey
  nonce : Nonce
  cipher : List UInt8

/-- The AEAD opens nothing but these ciphertexts, each under its own key, nonce and associated data. -/
def Codec.OpensOnly (C : Codec) (scheme : Nat) (H : Set Sealing) : Prop :=
  ∀ cipher key nonce aad plain, C.decryptData cipher key nonce aad = some plain →
    ∃ s ∈ H, s.cipher = cipher ∧ s.key = key ∧ s.nonce = nonce ∧ s.context.aad scheme = aad ∧
      s.plain = plain

namespace Session

variable {S : Session} {v : Volume} {H : Set Sealing} {id : Nat} {inode : Inode} {r : List UInt8}

def finishPayload (S : Session) (inode : Inode) (plain : List UInt8) : Except DiskError (List UInt8) := do
  let decoded ← S.decompressPayload inode plain
  return S.unfilterPayload inode decoded

def finishChunk (S : Session) (flag validLen : Nat) (plain : List UInt8) : Except DiskError (List UInt8) := do
  let bytes ← if flag = ChunkEntry.flagRaw then pure plain else S.codec.decompressFrame plain chunkSize64k
  return resize bytes validLen

/-- Where the bytes of a file that is stored as a whole come from. -/
def WholeFrom (S : Session) (H : Set Sealing) (id : Nat) (inode : Inode) (full : List UInt8) : Prop :=
  (inode.physicalSize = 0 ∧ full = []) ∨
    ∃ s ∈ H, s.context = .file (UInt64.ofNat id) ∧ S.finishPayload inode s.plain = .ok full

def ChunkFrom (S : Session) (H : Set Sealing) (id idx validLen : Nat) (entry : ChunkEntry)
    (part : List UInt8) : Prop :=
  ((entry.isEmpty = true ∨ entry.flags ≠ ChunkEntry.flagRaw ∧ entry.flags ≠ ChunkEntry.flagCompressed) ∧
      part = List.replicate validLen 0) ∨
    ∃ s ∈ H, s.context = .chunk (UInt64.ofNat id) (UInt64.ofNat idx) (UInt8.ofNat entry.flags) ∧
      S.finishChunk entry.flags validLen s.plain = .ok part

theorem readDataInternal_from (hscheme : encryptionSchemeContextBound ≤ v.superblock.encryptionVersion)
    (hopens : S.codec.OpensOnly v.superblock.encryptionVersion H) (henc : inode.encrypted = true)
    (hwhole : inode.isSeekable = false) (h : S.readDataInternal v id inode = .ok r) :
    S.WholeFrom H id inode r := by
  rw [readDataInternal, hwhole, if_neg Bool.false_ne_true] at h
  by_cases hstored : inode.physicalSize = 0
  · rw [if_pos hstored] at h
    exact Or.inl ⟨hstored, (Except.ok.inj h).symm⟩
  · rw [if_neg hstored, decodePayload] at h
    obtain ⟨plain, hplain, hrest⟩ := except_bind_ok.mp h
    rw [decryptPayload, if_pos henc] at hplain
    split at hplain
    next => cases hplain
    next key _ =>
      split at hplain
      next plain' hdecrypt =>
        cases hplain
        obtain ⟨s, hs, -, -, -, haad, rfl⟩ := hopens _ _ _ _ _ hdecrypt
        rw [fileAadForScheme_eq] at haad
        exact Or.inr ⟨s, hs, SealContext.aad_injective hscheme haad, hrest⟩
      next => cases hplain

theorem decryptChunk_sealed (hscheme : encryptionSchemeContextBound ≤ v.superblock.encryptionVersion)
    (hopens : S.codec.OpensOnly v.superblock.encryptionVersion H) {idx flag : Nat}
    {bytes plain : List UInt8} (h : S.decryptChunk v id idx flag bytes = .ok plain) :
    ∃ s ∈ H, s.context = .chunk (UInt64.ofNat id) (UInt64.ofNat idx) (UInt8.ofNat flag) ∧
      s.plain = plain := by
  unfold decryptChunk at h
  split at h
  next => cases h
  next =>
    split at h
    next => cases h
    next key _ =>
      split at h
      next plain' hdecrypt =>
        cases h
        obtain ⟨s, hs, -, -, -, haad, hplain⟩ := hopens _ _ _ _ _ hdecrypt
        rw [chunkAadForScheme_eq] at haad
        exact ⟨s, hs, SealContext.aad_injective hscheme haad, hplain⟩
      next => cases h

theorem readSingleChunkDecompressed_from
    (hscheme : encryptionSchemeContextBound ≤ v.superblock.encryptionVersion)
    (hopens : S.codec.OpensOnly v.superblock.encryptionVersion H) (henc : inode.encrypted = true)
    {idx validLen : Nat} (h : S.readSingleChunkDecompressed v id inode idx validLen = .ok r) :
    S.ChunkFrom H id idx validLen (v.resolveLogicalChunkEntry inode idx) r := by
  unfold readSingleChunkDecompressed at h
  generalize v.resolveLogicalChunkEntry inode idx = entry at *
  simp only [henc, if_true] at h
  split at h
  next hempty => exact Or.inl ⟨Or.inl hempty, (except_pure_ok.mp h).symm⟩
  next =>
    split at h
    next hraw =>
      simp only [except_bind_ok, except_pure_ok] at h
      obtain ⟨bytes, -, plain, hplain, rfl⟩ := h
      obtain ⟨s, hs, hcontext, rfl⟩ := decryptChunk_sealed hscheme hopens hplain
      refine Or.inr ⟨s, hs, hraw ▸ hcontext, ?_⟩
      rw [finishChunk, if_pos hraw]
      rfl
    next hraw =>
      split at h
      next hcomp =>
        simp only [except_bind_ok, except_pure_ok] at h
        obtain ⟨bytes, -, plain, hplain, frame, hframe, rfl⟩ := h
        obtain ⟨s, hs, hcontext, rfl⟩ := decryptChunk_sealed hscheme hopens hplain
        refine Or.inr ⟨s, hs, hcomp ▸ hcontext, ?_⟩
        rw [finishChunk, if_neg hraw]
        exact except_bind_ok.mpr ⟨frame, hframe, rfl⟩
      next hcomp => exact Or.inl ⟨Or.inr ⟨hraw, hcomp⟩, (except_pure_ok.mp h).symm⟩

end Session

open Classical in
noncomputable def Codec.only (C : Codec) (scheme : Nat) (N : Set Sealing) : Codec :=
  { C with
    encryptData := fun plain key nonce aad =>
      match C.encryptData plain key nonce aad with
      | .error e => .error e
      | .ok cipher =>
        if ∃ s ∈ N, s.plain = plain ∧ s.key = key ∧ s.nonce = nonce ∧ s.context.aad scheme = aad ∧
            s.cipher = cipher then .ok cipher
        else .error .decryptionFailed }

def Codec.sealings (C : Codec) (scheme : Nat) (inode : UInt64) : Set Sealing :=
  { s | s.context.inode = inode ∧
    C.encryptData s.plain s.key s.nonce (s.context.aad scheme) = .ok s.cipher }

theorem Codec.only_encryptData (C : Codec) (scheme : Nat) {context : SealContext} {inode : UInt64}
    (hinode : context.inode = inode) (plain : List UInt8) (key : EncryptionKey) (nonce : Nonce) :
    (C.only scheme (C.sealings scheme inode)).encryptData plain key nonce (context.aad scheme) =
      C.encryptData plain key nonce (context.aad scheme) := by
  unfold only
  dsimp only
  split
  next e he => exact he.symm
  next cipher hcipher =>
    rw [if_pos ⟨⟨context, plain, key, nonce, cipher⟩, ⟨hinode, hcipher⟩, rfl, rfl, rfl, rfl, rfl⟩, hcipher]

/-- The same session with another encryption. Journaled truncations come with a session of their own. -/
def Session.encryptingWith (S : Session)
    (encrypt : List UInt8 → EncryptionKey → Nonce → List UInt8 → Except DiskError (List UInt8))
    (truncate : Ambient → Nat → Nat → DiskM Unit) : Session :=
  { S with
    codec := { S.codec with encryptData := encrypt }
    truncateJournaled := truncate }

section Congruence

variable {α β : Type} {v : Volume}

theorem DiskM.bind_congr {x : DiskM α} {f g : α → DiskM β}
    (h : ∀ a w, x v = .ok a w → f a w = g a w) : (x >>= f) v = (x >>= g) v := by
  change EStateM.bind x f v = EStateM.bind x g v
  unfold EStateM.bind
  cases hx : x v with
  | ok a w => exact h a w hx
  | error e w => rfl

theorem DiskM.bind_left {x y : DiskM α} (h : x v = y v) (f : α → DiskM β) : (x >>= f) v = (y >>= f) v := by
  change EStateM.bind x f v = EStateM.bind y f v
  unfold EStateM.bind
  rw [h]

theorem DiskM.get_congr {f g : Volume → DiskM β} (h : f v v = g v v) : (get >>= f) v = (get >>= g) v := h

theorem DiskM.lift_congr {r : Except DiskError α} {f g : α → DiskM β} (h : ∀ a, f a v = g a v) :
    (liftExcept r >>= f) v = (liftExcept r >>= g) v := by
  refine DiskM.bind_congr fun a w hw => ?_
  obtain ⟨-, rfl⟩ := liftExcept_ok.mp hw
  exact h a

end Congruence

section Superblock

variable {v w : Volume} {inode i : Inode}

theorem clearLogicalChunkEntry_superblock {idx : Nat}
    (h : Volume.clearLogicalChunkEntry inode idx v = .ok i w) : w.superblock = v.superblock := by
  unfold Volume.clearLogicalChunkEntry at h
  obtain ⟨_, _, hget, h⟩ := DiskM.bind_ok.mp h
  obtain ⟨rfl, rfl⟩ := DiskM.get_ok.mp hget
  have hstore : ∀ parent slot : Nat, (do
      if parent ≠ 0 then set (v.writeBlockPtr parent slot 0)
      return inode : DiskM Inode) v = .ok i w → w.superblock = v.superblock := by
    intro parent slot hrun
    by_cases hzero : parent = 0
    · rw [if_neg (by simpa using hzero)] at hrun
      obtain ⟨-, rfl⟩ := DiskM.pure_ok.mp hrun
      rfl
    · rw [if_pos hzero] at hrun
      obtain ⟨_, _, hset, hrun⟩ := DiskM.bind_ok.mp hrun
      obtain ⟨-, rfl⟩ := DiskM.pure_ok.mp hrun
      rw [← DiskM.set_ok.mp hset, Volume.writeBlockPtr, Volume.setBlock_superblock]
  cases hpath : BlockPath.fromLogical idx with
  | none =>
    rw [hpath] at h
    obtain ⟨-, rfl⟩ := DiskM.pure_ok.mp h
    rfl
  | some path =>
    rw [hpath] at h
    cases path with
    | direct k =>
      obtain ⟨-, rfl⟩ := DiskM.pure_ok.mp h
      rfl
    | single k => exact hstore _ _ h
    | double a b => exact hstore _ _ h
    | triple a b c => exact hstore _ _ h

theorem freeContiguousBlocksInternal_superblock {n count : Nat}
    (h : Volume.freeContiguousBlocksInternal n count v = .ok () w) :
    w.superblock = v.superblock := by
  unfold Volume.freeContiguousBlocksInternal at h
  rw [DiskM.get_bind] at h
  split at h
  next =>
    obtain ⟨-, rfl⟩ := DiskM.pure_ok.mp h
    rfl
  next =>
    simp only [DiskM.set_ok] at h
    subst h
    split <;> split <;> rfl

theorem dropChunks_superblock {idxs : List Nat} (h : Session.dropChunks inode idxs v = .ok i w) :
    w.superblock = v.superblock := by
  induction idxs generalizing inode v with
  | nil =>
    obtain ⟨-, rfl⟩ := DiskM.pure_ok.mp h
    rfl
  | cons idx idxs ih =>
    obtain ⟨_, _, hget, h⟩ := DiskM.bind_ok.mp h
    obtain ⟨rfl, rfl⟩ := DiskM.get_ok.mp hget
    obtain ⟨j, w₁, hdrop, h⟩ := DiskM.bind_ok.mp h
    rw [ih h]
    split at hdrop
    next =>
      obtain ⟨-, rfl⟩ := DiskM.pure_ok.mp hdrop
      rfl
    next =>
      obtain ⟨_, w₂, hfree, hclear⟩ := DiskM.bind_ok.mp hdrop
      rw [clearLogicalChunkEntry_superblock hclear]
      exact freeContiguousBlocksInternal_superblock hfree

end Superblock

namespace Session

variable {S : Session} {v : Volume} {id scheme : Nat}
  {encrypt : List UInt8 → EncryptionKey → Nonce → List UInt8 → Except DiskError (List UInt8)}
  {truncate : Ambient → Nat → Nat → DiskM Unit}
  (hsame : ∀ context : SealContext, context.inode = UInt64.ofNat id → ∀ plain key nonce,
    encrypt plain key nonce (context.aad scheme) =
      S.codec.encryptData plain key nonce (context.aad scheme))

include hsame

theorem buildFullOverwriteBufferPure_own (data : List UInt8) (mode : CompressionMode)
    (config : FilterConfig) (nonce : Nonce) :
    (S.encryptingWith encrypt truncate).buildFullOverwriteBufferPure data mode config nonce
        (fileAadForScheme id scheme) =
      S.buildFullOverwriteBufferPure data mode config nonce (fileAadForScheme id scheme) := by
  have hencrypt := hsame (.file (UInt64.ofNat id)) rfl
  rw [← fileAadForScheme_eq] at hencrypt
  unfold buildFullOverwriteBufferPure
  simp only [encryptingWith, hencrypt]
  rfl

theorem planWritePrepared_own (inode : Inode) (offset : Nat) (data : List UInt8)
    (mode : CompressionMode) (config : FilterConfig) (existing : Option (List UInt8)) (nonce : Nonce) :
    (S.encryptingWith encrypt truncate).planWritePrepared inode offset data mode config existing nonce
        (fileAadForScheme id scheme) =
      S.planWritePrepared inode offset data mode config existing nonce (fileAadForScheme id scheme) := by
  unfold planWritePrepared
  simp only [buildFullOverwriteBufferPure_own hsame]
  rfl

theorem prepareChunkPayload_own (buf : List UInt8) (validLen : Nat) (level : Int)
    (draw : Nat → Nat → Nonce) (idx : Nat) :
    (S.encryptingWith encrypt truncate).prepareChunkPayload buf validLen level draw ⟨id, idx, scheme⟩ =
      S.prepareChunkPayload buf validLen level draw ⟨id, idx, scheme⟩ := by
  have hencrypt : ∀ flags plain key nonce, encrypt plain key nonce (chunkAadForScheme id idx flags scheme) =
      S.codec.encryptData plain key nonce (chunkAadForScheme id idx flags scheme) := by
    intro flags plain key nonce
    rw [chunkAadForScheme_eq]
    exact hsame (.chunk _ _ flags) rfl plain key nonce
  unfold prepareChunkPayload
  simp only [encryptingWith, hencrypt]

theorem prepareChunks_own (level : Int) (A : Ambient) (chunks : List (Nat × List UInt8 × Nat)) :
    (S.encryptingWith encrypt truncate).prepareChunks scheme id level A chunks =
      S.prepareChunks scheme id level A chunks := by
  unfold prepareChunks
  simp only [prepareChunkPayload_own hsame]

section Calls

variable (hv : v.superblock.encryptionVersion = scheme)

include hv

theorem planWrite_own (inode : Inode) (offset : Nat) (data : List UInt8) (mode : CompressionMode)
    (config : FilterConfig) (nonce : Nonce) :
    (S.encryptingWith encrypt truncate).planWrite v id inode offset data mode config nonce =
      S.planWrite v id inode offset data mode config nonce := by
  unfold planWrite
  rw [hv]
  simp only [planWritePrepared_own hsame]
  rfl

theorem commitWrite_own (A : Ambient) (offset : Nat) (data : List UInt8) (mode : CompressionMode)
    (config : FilterConfig) (initial : Inode) (prepared : WritePlan) :
    (S.encryptingWith encrypt truncate).commitWrite A id offset data mode config initial prepared v =
      S.commitWrite A id offset data mode config initial prepared v := by
  unfold commitWrite
  apply DiskM.get_congr
  simp only [planWrite_own hsame hv]
  rfl

theorem writeChunked64kInternal_own (A : Ambient) (offset : Nat) (data : List UInt8) (level : Int) :
    (S.encryptingWith encrypt truncate).writeChunked64kInternal A id offset data level v =
      S.writeChunked64kInternal A id offset data level v := by
  unfold writeChunked64kInternal
  apply DiskM.get_congr
  rw [hv]
  simp only [prepareChunks_own hsame]
  rfl

theorem commitChunkedWrite_own (A : Ambient) (offset : Nat) (data : List UInt8) (level : Int)
    (initial : Inode) (prepared : List PreparedChunkPayload) :
    (S.encryptingWith encrypt truncate).commitChunkedWrite A id offset data level initial prepared v =
      S.commitChunkedWrite A id offset data level initial prepared v := by
  unfold commitChunkedWrite
  apply DiskM.get_congr
  apply DiskM.lift_congr
  intro inode
  apply DiskM.lift_congr
  intro _
  split
  next => rfl
  next => exact writeChunked64kInternal_own hsame hv A offset data level

theorem writeChunked64kPipeline_own (A : Ambient) (offset : Nat) (data : List UInt8) (level : Int) :
    (S.encryptingWith encrypt truncate).writeChunked64kPipeline A id offset data level v =
      S.writeChunked64kPipeline A id offset data level v := by
  unfold writeChunked64kPipeline
  split
  next => rfl
  next =>
    apply DiskM.get_congr
    apply DiskM.lift_congr
    intro plan
    rw [hv, prepareChunks_own hsame]
    apply DiskM.lift_congr
    intro prepared
    exact commitChunkedWrite_own hsame hv A offset data level plan.initialInode prepared

theorem write_own (A : Ambient) (c : WriteCall) :
    (S.encryptingWith encrypt truncate).write id A c v = S.write id A c v := by
  unfold write writeDataWithFilters
  apply DiskM.get_congr
  apply DiskM.lift_congr
  intro seekable
  split
  next => exact writeChunked64kPipeline_own hsame hv A c.offset c.data c.mode.chunkLevel
  next =>
    apply DiskM.lift_congr
    rintro ⟨initial, existing⟩
    dsimp only
    rw [hv, planWritePrepared_own hsame]
    apply DiskM.lift_congr
    intro plan
    exact commitWrite_own hsame hv A c.offset c.data c.mode c.config initial plan

theorem truncateRebuild_own (A : Ambient) (inode : Inode) (newSize : Nat) :
    (S.encryptingWith encrypt truncate).truncateRebuild A id inode newSize v =
      S.truncateRebuild A id inode newSize v := by
  unfold truncateRebuild
  apply DiskM.get_congr
  rw [hv]
  simp only [planWritePrepared_own hsame]
  rfl

theorem shortenLastChunk_own (A : Ambient) (inode : Inode) (newSize : Nat) :
    (S.encryptingWith encrypt truncate).shortenLastChunk A id inode newSize v =
      S.shortenLastChunk A id inode newSize v := by
  unfold shortenLastChunk
  apply DiskM.get_congr
  rw [hv]
  simp only [prepareChunkPayload_own hsame]
  rfl

end Calls

section Truncations

variable (hv : v.superblock.encryptionVersion = scheme)

include hv

theorem truncateChunked64k_own (A : Ambient) (newSize : Nat) :
    (S.encryptingWith encrypt truncate).truncateChunked64k A id newSize v =
      S.truncateChunked64k A id newSize v := by
  unfold truncateChunked64k
  apply DiskM.get_congr
  apply DiskM.lift_congr
  intro inode
  split
  next => rfl
  next =>
    split
    next => rfl
    next =>
      apply DiskM.bind_congr
      intro dropped w hdrop
      have hw : w.superblock.encryptionVersion = scheme := by rw [dropChunks_superblock hdrop, hv]
      split
      next => rfl
      next =>
        exact DiskM.bind_left (shortenLastChunk_own hsame hw A dropped newSize) _

theorem truncateInternal_own (A : Ambient) (newSize : Nat)
    (hjournal : truncate A id newSize v = S.truncateJournaled A id newSize v) :
    (S.encryptingWith encrypt truncate).truncateInternal A id newSize v =
      S.truncateInternal A id newSize v := by
  unfold truncateInternal
  apply DiskM.get_congr
  apply DiskM.lift_congr
  intro inode
  apply DiskM.lift_congr
  intro _
  split
  next => rfl
  next =>
    split
    next => exact hjournal
    next =>
      split
      next => exact truncateChunked64k_own hsame hv A newSize
      next =>
        split
        next => exact truncateRebuild_own hsame hv A inode newSize
        next => rfl

end Truncations

end Session

namespace Journal

variable (J : Journal) {S : Session} {v : Volume} {id scheme : Nat}
  {encrypt : List UInt8 → EncryptionKey → Nonce → List UInt8 → Except DiskError (List UInt8)}
  {truncate : Ambient → Nat → Nat → DiskM Unit}

theorem stageDrops_state {inode : Inode} {s : Staging} {idxs : List Nat} {r : Inode × Staging} {w : Volume}
    (h : stageDrops inode s idxs v = .ok r w) : w = v := by
  induction idxs generalizing inode s with
  | nil =>
    obtain ⟨-, rfl⟩ := DiskM.pure_ok.mp h
    rfl
  | cons idx idxs ih =>
    obtain ⟨_, _, hget, h⟩ := DiskM.bind_ok.mp h
    obtain ⟨rfl, rfl⟩ := DiskM.get_ok.mp hget
    dsimp only at h
    split at h
    next => exact ih h
    next =>
      obtain ⟨_, _, hstage, h⟩ := DiskM.bind_ok.mp h
      obtain ⟨-, rfl⟩ := liftExcept_ok.mp hstage
      exact ih h

section Truncations

variable (hsame : ∀ context : SealContext, context.inode = UInt64.ofNat id → ∀ plain key nonce,
    encrypt plain key nonce (context.aad scheme) =
      S.codec.encryptData plain key nonce (context.aad scheme))
  (hv : v.superblock.encryptionVersion = scheme)

include hsame hv

theorem stageLastChunk_own (A : Ambient) (inode : Inode) (s : Staging) (newSize : Nat) :
    stageLastChunk (S.encryptingWith encrypt truncate) A id inode s newSize v =
      stageLastChunk S A id inode s newSize v := by
  unfold stageLastChunk
  apply DiskM.get_congr
  rw [hv]
  simp only [Session.prepareChunkPayload_own hsame]
  rfl

theorem truncateChunked64k_own (A : Ambient) (newSize : Nat) :
    J.truncateChunked64k (S.encryptingWith encrypt truncate) A id newSize v =
      J.truncateChunked64k S A id newSize v := by
  unfold truncateChunked64k
  apply DiskM.get_congr
  apply DiskM.lift_congr
  intro inode
  split
  next => rfl
  next =>
    split
    next => rfl
    next =>
      apply DiskM.lift_congr
      intro s
      apply DiskM.bind_congr
      rintro ⟨dropped, s⟩ w hdrop
      obtain rfl := stageDrops_state hdrop
      dsimp only
      refine DiskM.bind_left ?_ _
      split
      next => rfl
      next => exact DiskM.bind_left (stageLastChunk_own hsame hv A dropped s newSize) _

theorem truncateRebuild_own (A : Ambient) (newSize : Nat) :
    J.truncateRebuild (S.encryptingWith encrypt truncate) A id newSize v =
      J.truncateRebuild S A id newSize v := by
  unfold truncateRebuild
  apply DiskM.get_congr
  rw [hv]
  simp only [Session.planWritePrepared_own hsame]
  rfl

theorem truncateInternal_own (A : Ambient) (newSize : Nat) :
    J.truncateInternal (J.truncateChunked64k (S.encryptingWith encrypt truncate))
        (J.truncateRebuild (S.encryptingWith encrypt truncate)) A id newSize v =
      J.truncateInternal (J.truncateChunked64k S) (J.truncateRebuild S) A id newSize v := by
  unfold truncateInternal
  apply DiskM.get_congr
  apply DiskM.lift_congr
  intro inode
  split
  next => exact truncateChunked64k_own J hsame hv A newSize
  next =>
    split
    next => exact truncateRebuild_own J hsame hv A newSize
    next => rfl

end Truncations

end Journal

/-- The calls that store file contents. -/
inductive FileCall where
  | write (id : Nat) (c : WriteCall)
  | truncate (id newSize : Nat)

namespace FileCall

def inode : FileCall → Nat
  | write id _ | truncate id _ => id

def run (J : Journal) (S : DirSession) (A : Ambient) : FileCall → DiskM Unit
  | write id c => (J.session S).toSession.write id A c
  | truncate id newSize => (J.session S).toSession.truncateInternal A id newSize

end FileCall

/-- The session with a codec that encrypts only what is on record. -/
noncomputable def DirSession.only (S : DirSession) (scheme : Nat) (N : Set Sealing) : DirSession :=
  { S with toSession := { S.toSession with codec := S.codec.only scheme N } }

theorem FileCall.run_only (J : Journal) (S : DirSession) (A : Ambient) (k : FileCall) {v : Volume}
    {scheme : Nat} (hv : v.superblock.encryptionVersion = scheme) :
    k.run J (S.only scheme (S.codec.sealings scheme (UInt64.ofNat k.inode))) A v = k.run J S A v := by
  obtain ⟨encrypt, hencrypt⟩ : ∃ encrypt,
    (S.codec.only scheme (S.codec.sealings scheme (UInt64.ofNat k.inode))).encryptData = encrypt := ⟨_, rfl⟩
  have hsame : ∀ context : SealContext, context.inode = UInt64.ofNat k.inode → ∀ plain key nonce,
      encrypt plain key nonce (context.aad scheme) =
        S.codec.encryptData plain key nonce (context.aad scheme) := by
    intro context hinode plain key nonce
    rw [← hencrypt]
    exact S.codec.only_encryptData scheme hinode plain key nonce
  have hsession : S.only scheme (S.codec.sealings scheme (UInt64.ofNat k.inode)) =
      { S with toSession := S.encryptingWith encrypt S.truncateJournaled } := by
    rw [← hencrypt]
    rfl
  rw [hsession]
  cases k with
  | write id c => exact Session.write_own (S := (J.session S).toSession) hsame hv A c
  | truncate id newSize =>
    exact Session.truncateInternal_own (S := (J.session S).toSession) hsame hv A newSize
      (Journal.truncateInternal_own J hsame hv A newSize)

/-- Calls on an image, with the encryptions made so far, while others do to the image what they
like. -/
inductive SealedRun (J : Journal) (S : DirSession) (scheme : Nat) : Volume → Set Sealing → Prop
  | start (v : Volume) : SealedRun J S scheme v ∅
  | call {v w : Volume} {H N : Set Sealing} {A : Ambient} {k : FileCall} :
      SealedRun J S scheme v H → v.superblock.encryptionVersion = scheme →
      N ⊆ S.codec.sealings scheme (UInt64.ofNat k.inode) →
      k.run J (S.only scheme N) A v = k.run J S A v → finalState (k.run J S A v) = w →
      SealedRun J S scheme w (H ∪ N)
  | tamper {v : Volume} {H : Set Sealing} (w : Volume) :
      SealedRun J S scheme v H → SealedRun J S scheme w H

section Reads

variable {J : Journal} {S : DirSession} {scheme : Nat} {v : Volume} {H : Set Sealing}

theorem SealedRun.made (h : SealedRun J S scheme v H) : ∀ s ∈ H,
    S.codec.encryptData s.plain s.key s.nonce (s.context.aad scheme) = .ok s.cipher := by
  induction h with
  | start => simp
  | call _ _ hN _ _ ih =>
    rintro s (hs | hs)
    · exact ih s hs
    · exact (hN hs).2
  | tamper _ _ ih => exact ih

/-- Whatever was done to the image, a read fails or gives a payload that a call has encrypted for
this inode, chunk index and flags. -/
theorem context_bound_reads (hrun : SealedRun J S scheme v H)
    (hscheme : encryptionSchemeContextBound ≤ scheme) (hv : v.superblock.encryptionVersion = scheme)
    (hopens : S.codec.OpensOnly scheme H) {id : Nat} {inode : Inode}
    (hinode : v.readInodeInternal id = .ok inode) (henc : inode.encrypted = true) :
    (inode.isSeekable = false → ∀ r, S.readData v id = .ok r → S.WholeFrom H id inode r) ∧
    (inode.isSeekable = false → ∀ offset len r, S.readAt v id offset len = .ok r →
      r = [] ∨ ∃ full, S.WholeFrom H id inode full ∧
        r = (full.take (offset + min len (inode.size - offset))).drop offset) ∧
    (inode.isSeekable = true → ∀ r, S.readData v id = .ok r → ∃ parts, r = parts.flatten ∧
      List.Forall₂ (fun idx part => S.ChunkFrom H id idx (Session.chunkValidLen inode.size idx)
        (v.resolveLogicalChunkEntry inode idx) part) (List.range (divCeil inode.size chunkSize64k)) parts) ∧
    (∀ idx validLen r, S.readSingleChunkDecompressed v id inode idx validLen = .ok r →
      S.ChunkFrom H id idx validLen (v.resolveLogicalChunkEntry inode idx) r) ∧
    (∀ s ∈ H, S.codec.encryptData s.plain s.key s.nonce (s.context.aad scheme) = .ok s.cipher) ∧
    ∀ (k : FileCall) (A : Ambient) (w : Volume), w.superblock.encryptionVersion = scheme →
      k.run J (S.only scheme (S.codec.sealings scheme (UInt64.ofNat k.inode))) A w = k.run J S A w := by
  subst hv
  have hread : ∀ r, S.readData v id = .ok r ↔ S.readDataInternal v id inode = .ok r := by
    intro r
    rw [Session.readData, hinode]
    rfl
  have hchunk : ∀ idx validLen r, S.readSingleChunkDecompressed v id inode idx validLen = .ok r →
      S.ChunkFrom H id idx validLen (v.resolveLogicalChunkEntry inode idx) r :=
    fun idx validLen r h => Session.readSingleChunkDecompressed_from hscheme hopens henc h
  refine ⟨fun hwhole r h => ?_, fun hwhole offset len r h => ?_, fun hseek r h => ?_, hchunk, hrun.made,
    fun k A w hw => k.run_only J S A hw⟩
  · exact Session.readDataInternal_from hscheme hopens henc hwhole ((hread r).mp h)
  · obtain ⟨i, hi, h⟩ := except_bind_ok.mp h
    obtain rfl := Except.ok.inj (hinode.symm.trans hi)
    obtain ⟨_, -, h⟩ := except_bind_ok.mp h
    split at h
    next => exact Or.inl (except_pure_ok.mp h).symm
    next =>
      simp only [hwhole, henc, Bool.false_eq_true, or_true, if_true, if_false] at h
      obtain ⟨full, hfull, h⟩ := except_bind_ok.mp h
      refine Or.inr ⟨full, Session.readDataInternal_from hscheme hopens henc hwhole hfull, ?_⟩
      exact (except_pure_ok.mp h).symm
  · have hparts := (hread r).mp h
    rw [Session.readDataInternal, hseek, if_pos rfl, Session.readChunked64kInternal] at hparts
    obtain ⟨parts, hmap, hflat⟩ := except_bind_ok.mp hparts
    refine ⟨parts, (except_pure_ok.mp hflat).symm, ?_⟩
    exact (mapM_ok.mp hmap).imp fun idx part => hchunk idx _ part

end Reads

section Restored

def recorded (plain : List UInt8) (nonce : Nonce) (aad : List UInt8) : Bool :=
  (aad = fileAad 5 ∧ (plain = [1, 7, 0] ∧ nonce = (fun _ => 1) ∨ plain = [1, 9, 0] ∧ nonce = fun _ => 2)) ∨
    (aad = fileAad 6 ∧ plain = [0, 0, 0] ∧ nonce = fun _ => 3)

/-- A cipher that has made these ciphertexts and opens nothing else. -/
def recordedCodec : Codec :=
  { Codec.clearCodec with
    encryptData := fun plain _ nonce aad =>
      if recorded plain nonce aad then .ok (1 :: plain) else .error .decryptionFailed
    decryptData := fun cipher _ nonce aad =>
      if cipher = 1 :: cipher.tail ∧ recorded cipher.tail nonce aad then some cipher.tail else none }

def recordedSession : DirSession :=
  { plainDirSession with toSession := { clearSession (some ⟨[]⟩) with codec := recordedCodec } }

def recordedSealings : Set Sealing := recordedCodec.sealings 2 6 ∪ recordedCodec.sealings 2 5

theorem recordedCodec_opensOnly : recordedCodec.OpensOnly 2 recordedSealings := by
  intro cipher key nonce aad plain h
  obtain ⟨⟨hcipher, hrecorded⟩, hplain⟩ := Option.ite_none_right_eq_some.mp h
  obtain rfl := Option.some.inj hplain
  have hencrypt : recordedCodec.encryptData cipher.tail key nonce aad = .ok cipher := by
    rw [hcipher]
    exact if_pos hrecorded
  have hmade : ∀ i : UInt64, aad = (SealContext.file i).aad 2 →
      ⟨.file i, cipher.tail, key, nonce, cipher⟩ ∈ recordedCodec.sealings 2 i := by
    rintro i rfl
    exact ⟨rfl, hencrypt⟩
  rcases of_decide_eq_true hrecorded with ⟨haad, -⟩ | ⟨haad, -⟩
  · exact ⟨_, Or.inr (hmade 5 haad), rfl, rfl, rfl, haad.symm, rfl⟩
  · exact ⟨_, Or.inl (hmade 6 haad), rfl, rfl, rfl, haad.symm, rfl⟩

def contextVolume : Volume :=
  let v := Session.tinyVolume (Inode.new .file) fun _ => 0
  { v with superblock := { v.superblock with encryptionVersion := 2 } }

def copyPayload (source target : Nat) (v : Volume) : Volume :=
  match v.inode source, v.inode target with
  | .ok i, .ok j =>
    { v with
      block := Function.update v.block (j.slot 0) (v.block (i.slot 0))
      inode := Function.update v.inode target (.ok { j with encryptionNonce := i.encryptionNonce }) }
  | _, _ => v

def storeOther : DiskM Unit :=
  (FileCall.write 6 ⟨0, [0, 0, 0], .never, .none⟩).run zeroSlots recordedSession
    ⟨1, fun _ => 3, fun _ _ _ => 0⟩

def storeFrame : DiskM Unit :=
  (FileCall.write 5 ⟨0, [1, 7, 0], .never, .none⟩).run zeroSlots recordedSession
    ⟨1, fun _ => 1, fun _ _ _ => 0⟩

def storeByte : DiskM Unit :=
  (FileCall.write 5 ⟨0, [9], .always, .none⟩).run zeroSlots recordedSession
    ⟨2, fun _ => 2, fun _ _ _ => 0⟩

def RestoredReads (v₂ v₃ : Volume) : Prop :=
  recordedSession.readData v₂ 5 = .ok [1, 7, 0] ∧ recordedSession.readData v₃ 5 = .ok [9] ∧
    recordedSession.readData (copyPayload 6 5 v₃) 5 = .ok [7]

instance (v₂ v₃ : Volume) : Decidable (RestoredReads v₂ v₃) := inferInstanceAs (Decidable (_ ∧ _ ∧ _))

def storedWhole (v : Volume) : Bool :=
  match v.readInodeInternal 5 with
  | .ok i => i.encrypted = true ∧ i.isSeekable = false
  | .error _ => false

theorem storedWhole_iff {v : Volume} : storedWhole v = true ↔
    ∃ i, v.readInodeInternal 5 = .ok i ∧ i.encrypted = true ∧ i.isSeekable = false := by
  unfold storedWhole
  cases v.readInodeInternal 5 with
  | ok i => simp
  | error e => simp

theorem restored_reads : ∃ v₁ v₂ v₃, storeOther contextVolume = .ok () v₁ ∧ storeFrame v₁ = .ok () v₂ ∧
    storeByte (copyPayload 5 6 v₂) = .ok () v₃ ∧ RestoredReads v₂ v₃ ∧
    v₁.superblock.encryptionVersion = 2 ∧ (copyPayload 5 6 v₂).superblock.encryptionVersion = 2 ∧
    v₂.superblock.encryptionVersion = 2 ∧ storedWhole v₂ = true := by
  have hrun : ((outcome storeOther contextVolume).bind fun v₁ => (outcome storeFrame v₁).bind fun v₂ =>
      (outcome storeByte (copyPayload 5 6 v₂)).filter fun v₃ => RestoredReads v₂ v₃ ∧
        v₁.superblock.encryptionVersion = 2 ∧ (copyPayload 5 6 v₂).superblock.encryptionVersion = 2 ∧
        v₂.superblock.encryptionVersion = 2 ∧ storedWhole v₂ = true).isSome = true := by
    decide +kernel
  obtain ⟨v₃, hv₃⟩ := Option.isSome_iff_exists.mp hrun
  obtain ⟨v₁, hother, hv₃⟩ := Option.bind_eq_some_iff.mp hv₃
  obtain ⟨v₂, hfirst, hv₃⟩ := Option.bind_eq_some_iff.mp hv₃
  obtain ⟨hsecond, hreads⟩ := Option.filter_eq_some_iff.mp hv₃
  exact ⟨v₁, v₂, v₃, outcome_eq_some.mp hother, outcome_eq_some.mp hfirst, outcome_eq_some.mp hsecond,
    of_decide_eq_true hreads⟩

theorem SealedRun.recorded {J : Journal} {S : DirSession} {scheme : Nat} {v w : Volume} {H : Set Sealing}
    {A : Ambient} {k : FileCall} (h : SealedRun J S scheme v H)
    (hv : v.superblock.encryptionVersion = scheme) (hrun : k.run J S A v = .ok () w) :
    SealedRun J S scheme w (H ∪ S.codec.sealings scheme (UInt64.ofNat k.inode)) :=
  h.call hv subset_rfl (k.run_only J S A hv) (congrArg finalState hrun)

/-- File 5 has had two contents, and with the ciphertext of the first one back it reads as neither. -/
theorem restored_payload : ∃ v₁ v₂ v₃, storeOther contextVolume = .ok () v₁ ∧ storeFrame v₁ = .ok () v₂ ∧
    storeByte (copyPayload 5 6 v₂) = .ok () v₃ ∧
    SealedRun zeroSlots recordedSession 2 (copyPayload 6 5 v₃) recordedSealings ∧
    recordedSession.codec.OpensOnly 2 recordedSealings ∧ RestoredReads v₂ v₃ := by
  obtain ⟨v₁, v₂, v₃, hother, hfirst, hsecond, hreads, hv₁, hcopied, -, -⟩ := restored_reads
  have hstored := ((SealedRun.start contextVolume).recorded rfl hother).recorded hv₁ hfirst
  have hrun := (hstored.tamper (copyPayload 5 6 v₂)).recorded hcopied hsecond
  rw [Set.empty_union, Set.union_assoc] at hrun
  have hrecord : (recordedSession.codec.sealings 2 6 ∪ (recordedSession.codec.sealings 2 5 ∪
      recordedSession.codec.sealings 2 5)) = recordedSealings := by
    rw [Set.union_self]
    rfl
  exact ⟨v₁, v₂, v₃, hother, hfirst, hsecond, (hrecord ▸ hrun).tamper _, recordedCodec_opensOnly, hreads⟩

theorem context_bound_reads_recorded : ∃ v inode, SealedRun zeroSlots recordedSession 2 v recordedSealings ∧
    v.readInodeInternal 5 = .ok inode ∧ recordedSession.WholeFrom recordedSealings 5 inode [1, 7, 0] := by
  obtain ⟨v₁, v₂, v₃, hother, hfirst, -, hreads, hv₁, -, hv₂, hwhole⟩ := restored_reads
  obtain ⟨i, hstored, henc, hseek⟩ := storedWhole_iff.mp hwhole
  have hrun := ((SealedRun.start contextVolume).recorded rfl hother).recorded hv₁ hfirst
  rw [Set.empty_union] at hrun
  have hfrom := (context_bound_reads hrun (by decide) hv₂ recordedCodec_opensOnly hstored henc).1
  exact ⟨v₂, i, hrun, hstored, hfrom hseek _ hreads.1⟩

end Restored

end Oifs
