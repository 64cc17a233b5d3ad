import Oifs.Codec
import Oifs.Directory

namespace Oifs

/-- What names are encrypted with: the hash that gives the nonce, the AEAD and the text encoding. -/
structure NameCipher where
  /-- The first twelve bytes of the hash of the key, the parent and the name. -/
  syntheticNonce : EncryptionKey → Nat → List UInt8 → List UInt8
  aeadEncrypt : EncryptionKey → List UInt8 → List UInt8 → Option (List UInt8)
  aeadDecrypt : EncryptionKey → List UInt8 → List UInt8 → Option (List UInt8)
  encodeBase64 : List UInt8 → String
  decodeBase64 : String → Option (List UInt8)

structure NameCipher.Lawful (N : NameCipher) : Prop where
  nonce_length : ∀ key parent name, (N.syntheticNonce key parent name).length = 12
  /-- A short text is always encrypted. -/
  encrypt_ok : ∀ key nonce plain, plain.length ≤ maxFilenameLen → ∃ cipher, N.aeadEncrypt key nonce plain = some cipher
  encrypt_length : ∀ {key nonce plain cipher}, N.aeadEncrypt key nonce plain = some cipher →
    cipher.length = plain.length + 16
  decrypt_encrypt : ∀ {key nonce plain cipher}, N.aeadEncrypt key nonce plain = some cipher →
    N.aeadDecrypt key nonce cipher = some plain
  decode_encode : ∀ bytes, N.decodeBase64 (N.encodeBase64 bytes) = some bytes

/-- `FILENAME_ENC_PREFIX`. -/
def filenameMark : String := "_e_"

def isMarked (name : String) : Bool := decide (filenameMark.toList <+: name.toList)

def NameCipher.encryptFilename (N : NameCipher) (key : EncryptionKey) (parent : Nat) (name : String) :
    Option String :=
  if name.isEmpty ∨ name = "." ∨ name = ".." then some name
  else if isMarked name then some name
  else
    let nonce := N.syntheticNonce key parent (nameBytes name)
    match N.aeadEncrypt key nonce (nameBytes name) with
    | none => none
    | some cipher => some (filenameMark ++ N.encodeBase64 (nonce ++ cipher))

/-- `decrypt_filename`: a name that does not decrypt is returned as it is. -/
def NameCipher.decryptFilename (N : NameCipher) (key : EncryptionKey) (parent : Nat) (name : String) :
    String :=
  if !isMarked name then name
  else
    match N.decodeBase64 (String.ofList (name.toList.drop filenameMark.length)) with
    | none => name
    | some payload =>
      if payload.length < 12 + 16 then name
      else
        match N.aeadDecrypt key (payload.take 12) (payload.drop 12) with
        | none => name
        | some plain =>
          match String.fromUTF8? ⟨plain.toArray⟩ with
          | none => name
          | some text =>
            if N.syntheticNonce key parent (nameBytes text) ≠ payload.take 12 then name else text

theorem fromUTF8_nameBytes (name : String) : String.fromUTF8? ⟨(nameBytes name).toArray⟩ = some name :=
  dif_pos name.isValidUTF8

theorem nameBytes_of_fromUTF8 {bytes : List UInt8} {text : String}
    (h : String.fromUTF8? ⟨bytes.toArray⟩ = some text) : nameBytes text = bytes := by
  unfold String.fromUTF8? at h
  split at h
  next hvalid =>
    cases h
    simp [nameBytes, String.fromUTF8]
  next => cases h

theorem nameBytes_injective {a b : String} (h : nameBytes a = nameBytes b) : a = b := by
  have hsome := fromUTF8_nameBytes a
  rw [h, fromUTF8_nameBytes] at hsome
  exact (Option.some.inj hsome).symm

theorem isMarked_append (text : String) : isMarked (filenameMark ++ text) = true := by
  rw [isMarked, String.toList_append]
  exact decide_eq_true (List.prefix_append _ _)

theorem validateFilename_proper {name : String} (h : validateFilename name = .ok ()) :
    ¬(name.isEmpty ∨ name = "." ∨ name = "..") ∧ (nameBytes name).length ≤ maxFilenameLen := by
  unfold validateFilename at h
  simp only [ite_error_eq_ok] at h
  obtain ⟨hempty, hdots, -, -, hlen, -⟩ := h
  exact ⟨not_or.mpr ⟨hempty, hdots⟩, Nat.not_lt.mp hlen⟩

namespace NameCipher

variable {N : NameCipher}

theorem encryptFilename_marked (key : EncryptionKey) (parent : Nat) {name : String}
    (hmarked : isMarked name = true) : N.encryptFilename key parent name = some name := by
  rw [encryptFilename, if_pos hmarked, ite_self]

/-- The text behind the mark is a nonce and a ciphertext that opens to `text`, a name with just this
nonce in the directory. -/
def Opens (N : NameCipher) (key : EncryptionKey) (parent : Nat) (name text : String) : Prop :=
  ∃ payload, N.decodeBase64 (String.ofList (name.toList.drop filenameMark.length)) = some payload ∧
    12 + 16 ≤ payload.length ∧
    N.aeadDecrypt key (payload.take 12) (payload.drop 12) = some (nameBytes text) ∧
    N.syntheticNonce key parent (nameBytes text) = payload.take 12

theorem decryptFilename_opens {key : EncryptionKey} {parent : Nat} {name text : String}
    (hmarked : isMarked name = true) (h : N.Opens key parent name text) :
    N.decryptFilename key parent name = text := by
  obtain ⟨payload, hdecode, hlong, hopen, hnonce⟩ := h
  rw [decryptFilename, if_neg (by simp [hmarked]), hdecode]
  dsimp only
  rw [if_neg (Nat.not_lt.mpr hlong), hopen]
  dsimp only
  rw [fromUTF8_nameBytes]
  exact if_neg (not_not.mpr hnonce)

theorem decryptFilename_closed {key : EncryptionKey} {parent : Nat} {name : String}
    (h : ∀ text, ¬N.Opens key parent name text) : N.decryptFilename key parent name = name := by
  unfold decryptFilename
  split
  next => rfl
  next =>
    split
    next => rfl
    next payload hdecode =>
      split
      next => rfl
      next hlong =>
        split
        next => rfl
        next plain hopen =>
          split
          next => rfl
          next text htext =>
            have hplain := nameBytes_of_fromUTF8 htext
            by_cases hnonce : N.syntheticNonce key parent (nameBytes text) = payload.take 12
            · rw [← hplain] at hopen
              exact absurd ⟨payload, hdecode, Nat.not_lt.mp hlong, hopen, hnonce⟩ (h text)
            · exact if_pos hnonce

variable (hN : N.Lawful) (key : EncryptionKey) (parent : Nat)
include hN

section Name

variable {name : String} (hvalid : validateFilename name = .ok ())
include hvalid

theorem encryptFilename_unmarked (hmarked : isMarked name = false) :
    ∃ cipher, N.aeadEncrypt key (N.syntheticNonce key parent (nameBytes name)) (nameBytes name) = some cipher ∧
      N.encryptFilename key parent name = some (filenameMark ++
        N.encodeBase64 (N.syntheticNonce key parent (nameBytes name) ++ cipher)) := by
  obtain ⟨hproper, hlen⟩ := validateFilename_proper hvalid
  obtain ⟨cipher, hcipher⟩ := hN.encrypt_ok key (N.syntheticNonce key parent (nameBytes name)) _ hlen
  refine ⟨cipher, hcipher, ?_⟩
  rw [encryptFilename, if_neg hproper, if_neg (by simp [hmarked])]
  simp only [hcipher]

theorem decryptFilename_encryptFilename (hmarked : isMarked name = false) {stored : String}
    (hstored : N.encryptFilename key parent name = some stored) :
    N.decryptFilename key parent stored = name := by
  obtain ⟨cipher, hcipher, hencrypt⟩ := encryptFilename_unmarked hN key parent hvalid hmarked
  obtain rfl := Option.some.inj (hencrypt.symm.trans hstored)
  have hnonce := hN.nonce_length key parent (nameBytes name)
  have htext : String.ofList ((filenameMark ++ N.encodeBase64
      (N.syntheticNonce key parent (nameBytes name) ++ cipher)).toList.drop filenameMark.length) =
      N.encodeBase64 (N.syntheticNonce key parent (nameBytes name) ++ cipher) := by
    rw [String.toList_append, List.drop_left' (by decide), String.ofList_toList]
  have hlong : ¬(N.syntheticNonce key parent (nameBytes name) ++ cipher).length < 12 + 16 := by
    rw [List.length_append, hnonce, hN.encrypt_length hcipher]
    omega
  rw [decryptFilename, if_neg (by simp [isMarked_append]), htext, hN.decode_encode]
  dsimp only
  rw [if_neg hlong, List.take_left' hnonce, List.drop_left' hnonce, hN.decrypt_encrypt hcipher]
  dsimp only
  rw [fromUTF8_nameBytes]
  exact if_neg (not_not.mpr rfl)

end Name

theorem encryptFilename_eq_iff {a b : String} (ha : validateFilename a = .ok ())
    (hb : validateFilename b = .ok ()) (hne : a ≠ b) :
    N.encryptFilename key parent a = N.encryptFilename key parent b ↔
      isMarked a = true ∧ isMarked b = false ∧ N.encryptFilename key parent b = some a ∨
      isMarked b = true ∧ isMarked a = false ∧ N.encryptFilename key parent a = some b := by
  cases hma : isMarked a with
  | true =>
    rw [encryptFilename_marked key parent hma]
    cases hmb : isMarked b with
    | true =>
      rw [encryptFilename_marked key parent hmb]
      simp [hne]
    | false => simp [eq_comm]
  | false =>
    cases hmb : isMarked b with
    | true =>
      rw [encryptFilename_marked key parent hmb]
      simp
    | false =>
      obtain ⟨cipher, hcipher, hencrypt⟩ := encryptFilename_unmarked hN key parent ha hma
      refine iff_of_false ?_ (by simp)
      intro heq
      have hback := decryptFilename_encryptFilename hN key parent hb hmb (heq.symm.trans hencrypt)
      rw [decryptFilename_encryptFilename hN key parent ha hma hencrypt] at hback
      exact hne hback

/-- Unmarked names come back and are told apart; a marked one is stored as it is, and comes back
unless it opens to another name. -/
theorem stored_names {a b : String} (ha : validateFilename a = .ok ())
    (hb : validateFilename b = .ok ()) (hne : a ≠ b) :
    ∃ storedA storedB, N.encryptFilename key parent a = some storedA ∧
      N.encryptFilename key parent b = some storedB ∧
      (isMarked a = false → N.decryptFilename key parent storedA = a) ∧
      (isMarked a = true → storedA = a ∧
        ((∀ text, ¬N.Opens key parent a text) → N.decryptFilename key parent storedA = a) ∧
        ∀ text, N.Opens key parent a text → N.decryptFilename key parent storedA = text) ∧
      (storedA = storedB ↔ isMarked a = true ∧ isMarked b = false ∧ storedB = a ∨
        isMarked b = true ∧ isMarked a = false ∧ storedA = b) := by
  have hsome : ∀ {name : String}, validateFilename name = .ok () →
      ∃ stored, N.encryptFilename key parent name = some stored := by
    intro name hvalid
    cases hmarked : isMarked name with
    | true => exact ⟨name, encryptFilename_marked key parent hmarked⟩
    | false =>
      obtain ⟨cipher, -, hencrypt⟩ := encryptFilename_unmarked hN key parent hvalid hmarked
      exact ⟨_, hencrypt⟩
  obtain ⟨storedA, hstoredA⟩ := hsome ha
  obtain ⟨storedB, hstoredB⟩ := hsome hb
  have hiff := encryptFilename_eq_iff hN key parent ha hb hne
  rw [hstoredA, hstoredB] at hiff
  simp only [Option.some.injEq] at hiff
  refine ⟨storedA, storedB, hstoredA, hstoredB, ?_, ?_, hiff⟩
  · exact fun hmarked => decryptFilename_encryptFilename hN key parent ha hmarked hstoredA
  · intro hmarked
    obtain rfl := Option.some.inj (hstoredA.symm.trans (encryptFilename_marked key parent hmarked))
    exact ⟨rfl, decryptFilename_closed, fun _ => decryptFilename_opens hmarked⟩

omit hN

def clearNames : NameCipher where
  syntheticNonce _ _ _ := List.replicate 12 0
  aeadEncrypt _ _ plain := some (plain ++ List.replicate 16 0)
  aeadDecrypt _ _ cipher := some (cipher.take (cipher.length - 16))
  encodeBase64 bytes := String.ofList (bytes.map fun b => Char.ofNat (48 + b.toNat))
  decodeBase64 text := some (text.toList.map fun c => UInt8.ofNat (c.toNat - 48))

theorem clearNames_lawful : clearNames.Lawful where
  nonce_length _ _ _ := rfl
  encrypt_ok _ _ _ _ := ⟨_, rfl⟩
  encrypt_length h := by
    cases h
    simp
  decrypt_encrypt h := by
    cases h
    simp [clearNames]
  decode_encode bytes := by
    have hbyte : ∀ n : Fin 256, (Char.ofNat (48 + n.val)).toNat - 48 = n.val := by
      decide +kernel
    have hback : ∀ b : UInt8, UInt8.ofNat ((Char.ofNat (48 + b.toNat)).toNat - 48) = b := by
      intro b
      rw [hbyte ⟨b.toNat, b.toNat_lt⟩]
      exact UInt8.ofNat_toNat
    simp only [clearNames, String.toList_ofList, List.map_map]
    exact congrArg some ((List.map_congr_left fun b _ => hback b).trans (List.map_id _))

theorem stored_names_ab : (∃ storedA storedB, clearNames.encryptFilename ⟨[]⟩ 0 "a" = some storedA ∧
    clearNames.encryptFilename ⟨[]⟩ 0 "b" = some storedB ∧
    clearNames.decryptFilename ⟨[]⟩ 0 storedA = "a" ∧ storedA ≠ storedB) ∧
    clearNames.encryptFilename ⟨[]⟩ 0 "_e_x" = some "_e_x" ∧
    clearNames.decryptFilename ⟨[]⟩ 0 "_e_x" = "_e_x" := by
  have hvalidB : validateFilename "b" = .ok () := by decide
  constructor
  · obtain ⟨storedA, storedB, hA, hB, hback, -, hiff⟩ := stored_names clearNames_lawful ⟨[]⟩ 0
      (show validateFilename "a" = .ok () by decide) hvalidB (by decide)
    refine ⟨storedA, storedB, hA, hB, hback (by decide), ?_⟩
    intro heq
    have hmarked : isMarked "a" = false ∧ isMarked "b" = false := by decide
    simpa [hmarked] using hiff.mp heq
  · obtain ⟨stored, _, hstored, -, -, hmark, -⟩ := stored_names clearNames_lawful ⟨[]⟩ 0
      (show validateFilename "_e_x" = .ok () by decide) hvalidB (by decide)
    obtain ⟨rfl, hclosed, -⟩ := hmark (by decide)
    refine ⟨hstored, hclosed ?_⟩
    rintro text ⟨payload, hdecode, hlong, -⟩
    cases hdecode
    exact absurd hlong (by decide)

/-- The name `a` and the name that it is stored under share an entry, and listing it gives `a`. -/
theorem stored_name_taken : ∃ other, validateFilename "a" = .ok () ∧ validateFilename other = .ok () ∧
    other ≠ "a" ∧ clearNames.encryptFilename ⟨[]⟩ 0 "a" = some other ∧
    clearNames.encryptFilename ⟨[]⟩ 0 other = some other ∧
    clearNames.decryptFilename ⟨[]⟩ 0 other = "a" :=
  ⟨"_e_000000000000\x910000000000000000", by decide⟩

end NameCipher

end Oifs
