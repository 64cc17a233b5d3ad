import Oifs.Volume

namespace Oifs

open LittleEndian

inductive CompressionMode where
  | always
  | never
  | auto
  | stream (level : Int)
  | seekable (chunkSize : Nat) (level : Int)
  deriving DecidableEq, Repr

def CompressionMode.isSeekable : CompressionMode → Bool
  | .seekable .. => true
  | _ => false

def CompressionMode.chunkLevel : CompressionMode → Int
  | .seekable _ level | .stream level => level
  | _ => 1

structure FilterConfig where
  typesize : UInt8
  delta : Bool
  shuffle : Bool
  bitshuffle : Bool
  deriving DecidableEq, Repr

namespace FilterConfig

def none : FilterConfig := ⟨0, false, false, false⟩

def isActive (c : FilterConfig) : Bool :=
  0 < c.typesize && (c.delta || c.shuffle || c.bitshuffle)

def isSupported (c : FilterConfig) : Bool := c.isActive && c.typesize ∈ ([1, 2, 4, 8] : List UInt8)

end FilterConfig

structure EncryptionKey where
  bytes : List UInt8
  deriving DecidableEq, Repr

abbrev Nonce := Fin 24 → UInt8

/-- What the source takes from its libraries: zstd, the AEAD and the numeric filters. -/
structure Codec where
  /-- `zstd_pool::compress_frame`, with its level. -/
  compressFrame : List UInt8 → Int → Except DiskError (List UInt8)
  /-- `zstd::stream::Decoder`, read to its end through `take`. -/
  decodeStream : List UInt8 → Nat → Except DiskError (List UInt8)
  /-- `zstd_pool::decompress_frame_into`, with the size of the destination. -/
  decompressFrame : List UInt8 → Nat → Except DiskError (List UInt8)
  encryptData : List UInt8 → EncryptionKey → Nonce → List UInt8 → Except DiskError (List UInt8)
  decryptData : List UInt8 → EncryptionKey → Nonce → List UInt8 → Option (List UInt8)
  /-- `FilterPipeline::apply` and `FilterPipeline::unapply` on the pipeline of a configuration. -/
  pipelineApply : FilterConfig → List UInt8 → List UInt8
  pipelineUnapply : FilterConfig → List UInt8 → List UInt8

namespace Codec

def applyFilters (C : Codec) (data : List UInt8) (config : FilterConfig) : List UInt8 :=
  if data.isEmpty ∨ !config.isSupported then data else C.pipelineApply config data

def unapplyFilters (C : Codec) (data : List UInt8) (config : FilterConfig) : List UInt8 :=
  if data.isEmpty ∨ !config.isSupported then data else C.pipelineUnapply config data

/-- The documented behaviour: frames decode to what was compressed, a ciphertext decrypts under its
own inputs, the filters are lossless. -/
structure Lawful (C : Codec) : Prop where
  frame_ne_nil : ∀ {d level f}, C.compressFrame d level = .ok f → f ≠ []
  stream : ∀ (parts : List (List UInt8 × List UInt8)), parts ≠ [] →
    (∀ p ∈ parts, ∃ level, C.compressFrame p.1 level = .ok p.2) →
    ∀ limit, C.decodeStream (parts.flatMap (·.2)) limit = .ok ((parts.flatMap (·.1)).take limit)
  frame : ∀ {d level f cap}, C.compressFrame d level = .ok f → d.length ≤ cap →
    C.decompressFrame f cap = .ok d
  decrypt : ∀ {d key nonce aad c}, C.encryptData d key nonce aad = .ok c →
    C.decryptData c key nonce aad = some d
  cipher_ne_nil : ∀ {d key nonce aad c}, C.encryptData d key nonce aad = .ok c → c ≠ []
  filter : ∀ {config d}, config.isSupported = true → C.pipelineUnapply config (C.pipelineApply config d) = d
  filter_length : ∀ {config d}, config.isSupported = true →
    (C.pipelineApply config d).length = d.length

theorem Lawful.applyFilters_length {C : Codec} (h : C.Lawful) (data : List UInt8)
    (config : FilterConfig) : (C.applyFilters data config).length = data.length := by
  unfold applyFilters
  split
  next => rfl
  next hc => exact h.filter_length (by simpa using (not_or.mp hc).2)

theorem Lawful.unapplyFilters_applyFilters {C : Codec} (h : C.Lawful) (data : List UInt8)
    (config : FilterConfig) : C.unapplyFilters (C.applyFilters data config) config = data := by
  have hlen := h.applyFilters_length data config
  by_cases hc : data.isEmpty = true ∨ (!config.isSupported) = true
  · rw [applyFilters, if_pos hc, unapplyFilters, if_pos hc]
  · have hempty : (C.applyFilters data config).isEmpty = data.isEmpty := by
      rw [Bool.eq_iff_iff, List.isEmpty_iff, List.isEmpty_iff, ← List.length_eq_zero_iff, hlen,
        List.length_eq_zero_iff]
    rw [unapplyFilters, hempty, if_neg hc, applyFilters, if_neg hc]
    exact h.filter (by simpa using (not_or.mp hc).2)

def decodeMarked : List UInt8 → List UInt8
  | [] | [_] => []
  | mark :: b :: rest => if mark = 0 then decodeMarked (b :: rest) else b :: decodeMarked rest

def encodeMarked (data : List UInt8) : List UInt8 := data.flatMap (fun b => [1, b]) ++ [0]

theorem decodeMarked_append (data rest : List UInt8) :
    decodeMarked (encodeMarked data ++ rest) = data ++ decodeMarked rest := by
  induction data with
  | nil =>
    cases rest with
    | nil => rfl
    | cons b rest => exact if_pos rfl
  | cons b data ih =>
    have hcons : encodeMarked (b :: data) ++ rest = 1 :: b :: (encodeMarked data ++ rest) := by
      simp [encodeMarked]
    rw [hcons, decodeMarked, if_neg (by decide)]
    exact congrArg (b :: ·) ih

def clearCodec : Codec where
  compressFrame d _ := .ok (encodeMarked d)
  decodeStream d limit := .ok ((decodeMarked d).take limit)
  decompressFrame d cap := .ok ((decodeMarked d).take cap)
  encryptData d _ _ _ := .ok (1 :: d)
  decryptData d _ _ _ := some (d.drop 1)
  pipelineApply _ d := d
  pipelineUnapply _ d := d

theorem clearCodec_lawful : clearCodec.Lawful where
  frame_ne_nil h := by
    cases h
    simp [encodeMarked]
  stream parts hne hparts limit := by
    clear hne
    have hdecode : decodeMarked (parts.flatMap (·.2)) = parts.flatMap (·.1) := by
      induction parts with
      | nil => rfl
      | cons p parts ih =>
        obtain ⟨level, hp⟩ := hparts p (List.mem_cons_self ..)
        have hframe : p.2 = encodeMarked p.1 := (Except.ok.inj hp).symm
        rw [List.flatMap_cons, List.flatMap_cons, hframe, decodeMarked_append,
          ih fun q hq => hparts q (List.mem_cons_of_mem _ hq)]
    change Except.ok ((decodeMarked (parts.flatMap (·.2))).take limit) = _
    rw [hdecode]
  frame {d level f cap} h hcap := by
    cases h
    have hdecode := decodeMarked_append d []
    rw [List.append_nil, decodeMarked, List.append_nil] at hdecode
    change Except.ok ((decodeMarked (encodeMarked d)).take cap) = _
    rw [hdecode, List.take_of_length_le hcap]
  decrypt h := by
    cases h
    rfl
  cipher_ne_nil h := by
    cases h
    simp
  filter _ := rfl
  filter_length _ := rfl

end Codec

def aadDomain : List UInt8 := [0x4F, 0x49, 0x46, 0x53, 0x2D, 0x41, 0x41, 0x44, 0x2D, 0x76, 0x31]

def encryptionSchemeContextBound : Nat := 2

def fileAad (inodeId : Nat) : List UInt8 := 0x01 :: aadDomain ++ encode 8 inodeId

def chunkAad (inodeId chunkIdx : Nat) (flags : UInt8) : List UInt8 :=
  0x02 :: aadDomain ++ encode 8 inodeId ++ encode 8 chunkIdx ++ [flags]

def fileAadForScheme (inodeId scheme : Nat) : List UInt8 :=
  if scheme ≥ encryptionSchemeContextBound then fileAad inodeId else []

def chunkAadForScheme (inodeId chunkIdx : Nat) (flags : UInt8) (scheme : Nat) : List UInt8 :=
  if scheme ≥ encryptionSchemeContextBound then chunkAad inodeId chunkIdx flags else []

inductive WriteCase where
  | fullOverwrite
  | compressedAppend
  | recompress
  | raw
  deriving DecidableEq, Repr

/-- `WritePlan`: the bytes that a write stores, where, and what the inode becomes. -/
structure WritePlan where
  case : WriteCase
  physOff : Nat
  buffer : List UInt8
  newSize : Nat
  newCompressedSize : Nat
  encryptionNonce : Option Nonce

structure PreparedChunkPayload where
  chunkIdx : Nat
  payload : List UInt8
  flag : Nat
  compLen : Nat
  blocksNeeded : Nat

/-- What one call takes from outside: the second, a nonce, and for chunks a nonce by index and kind.
-/
structure Ambient where
  now : Nat
  nonce : Nonce
  draw : Nat → Nat → Nonce

/-- What a mounted image works with besides its bytes. -/
structure Session where
  codec : Codec
  encryptionKey : Option EncryptionKey
  writeDataJournaled : Nat → Nat → Nat → WritePlan → FilterConfig → DiskM Unit
  commitChunksJournaled : Nat → Nonce → Nat → Nat → List PreparedChunkPayload → DiskM Unit
  truncateJournaled : Ambient → Nat → Nat → DiskM Unit

theorem mapM_ok {ε α β : Type} {f : α → Except ε β} {xs : List α} {ys : List β} :
    xs.mapM f = .ok ys ↔ List.Forall₂ (fun x y => f x = .ok y) xs ys := by
  induction xs generalizing ys with
  | nil =>
    rw [List.mapM_nil, except_pure_ok]
    constructor
    · rintro rfl
      exact .nil
    · intro h
      cases h
      rfl
  | cons x xs ih =>
    rw [List.mapM_cons]
    simp only [except_bind_ok, except_pure_ok]
    constructor
    · rintro ⟨y, hy, ys', hys, rfl⟩
      exact .cons hy (ih.mp hys)
    · intro h
      cases h with
      | cons hy hys => exact ⟨_, hy, _, ih.mpr hys, rfl⟩

def clearSession (key : Option EncryptionKey) : Session where
  codec := Codec.clearCodec
  encryptionKey := key
  writeDataJournaled _ _ _ _ _ := pure ()
  commitChunksJournaled _ _ _ _ _ := pure ()
  truncateJournaled _ _ _ := pure ()

def liftExcept {α : Type} (r : Except DiskError α) : DiskM α :=
  match r with
  | .ok a => pure a
  | .error e => throw e

@[simp] theorem liftExcept_ok {α : Type} {r : Except DiskError α} {a : α} {v v' : Volume} :
    liftExcept r v = .ok a v' ↔ r = .ok a ∧ v = v' := by
  cases r with
  | ok b => simp [liftExcept]
  | error e => simp [liftExcept]

end Oifs
