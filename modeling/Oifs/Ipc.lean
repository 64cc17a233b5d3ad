import Oifs.Directory
import Oifs.ReadPath

namespace Oifs

def FixedBytes (n : Nat) : Type := { l : List UInt8 // l.length = n }

instance (n : Nat) : DecidableEq (FixedBytes n) :=
  inferInstanceAs (DecidableEq { l : List UInt8 // l.length = n })

def authNonceLen : Nat := 32

abbrev AuthNonce := FixedBytes authNonceLen

abbrev Salt := FixedBytes 16

inductive DefragMode where
  | safe
  | inPlace
  deriving DecidableEq

inductive IpcRequest where
  | ping
  | authChallenge (clientNonce : AuthNonce) (hasPassword : Bool)
  | authResponse (clientMac : List UInt8)
  | createFile (parentInodeId : Nat) (name : String)
  | createDirectory (parentInodeId : Nat) (name : String)
  | lookup (parentInodeId : Nat) (name : String)
  | readData (inodeId : Nat)
  | readAt (inodeId fileOffset len : Nat)
  | writeData (inodeId fileOffset : Nat) (data : List UInt8) (compressionMode : CompressionMode)
      (filterConfig : FilterConfig)
  | deleteFile (parentInodeId : Nat) (name : String)
  | resolvePath (path : String)
  | resolveParent (path : String)
  | readInode (inodeId : Nat)
  | listDir (dirInodeId : Nat)
  | getSuperblock
  | flush
  | analyzeFragmentation
  | defragment (sourcePath : String) (mode : DefragMode) (outputPath : Option String)
  | verifyIntegrity
  | migrate
  | getBlockCopy (blockId : Nat)
  | truncate (inodeId newSize : Nat)
  deriving DecidableEq

def IpcRequest.isHandshake : IpcRequest → Bool
  | .ping | .authChallenge .. | .authResponse .. => true
  | _ => false

/-- The replies that no modelled caller opens are a `report`. -/
inductive IpcResponseData (ρ : Type) where
  | pong
  | inodeId (id : Nat)
  | data (bytes : List UInt8)
  | unit
  | resolveParent (parentId : Nat) (name : String)
  | inode (inode : Inode)
  | directoryEntries (entries : List DirectoryEntry)
  | report (r : ρ)
  | authChallenge (serverNonce : AuthNonce) (salt : Salt) (encrypted : Bool)
  | authVerify (serverMac : List UInt8)

inductive IpcResponse (ρ : Type) where
  | success (data : IpcResponseData ρ)
  | error (text : String)

def ctEq (a b : List UInt8) : Bool :=
  if a.length ≠ b.length then false
  else (List.zipWith (· ^^^ ·) a b).foldl (· ||| ·) 0 == 0

theorem foldl_or_eq_zero {xs : List UInt8} {d : UInt8} :
    xs.foldl (· ||| ·) d = 0 ↔ d = 0 ∧ ∀ x ∈ xs, x = 0 := by
  induction xs generalizing d with
  | nil => simp
  | cons x xs ih =>
    rw [List.foldl_cons, ih, UInt8.or_eq_zero_iff]
    simp [and_assoc]

theorem ctEq_iff {a b : List UInt8} : ctEq a b = true ↔ a = b := by
  unfold ctEq
  by_cases hlen : a.length = b.length
  · rw [if_neg (not_not.mpr hlen), beq_iff_eq, foldl_or_eq_zero]
    constructor
    · rintro ⟨-, hzero⟩
      refine List.ext_getElem hlen fun k hk hk' => ?_
      have hmem : a[k] ^^^ b[k] ∈ List.zipWith (· ^^^ ·) a b :=
        List.mem_iff_getElem.mpr ⟨k, by simpa using ⟨hk, hk'⟩, List.getElem_zipWith⟩
      exact UInt8.xor_eq_zero_iff.mp (hzero _ hmem)
    · rintro rfl
      refine ⟨rfl, fun x hx => ?_⟩
      rw [List.zipWith_self] at hx
      obtain ⟨y, -, rfl⟩ := List.mem_map.mp hx
      exact UInt8.xor_self
  · rw [if_pos hlen]
    constructor
    · intro h
      cases h
    · rintro rfl
      exact absurd rfl hlen

def authTranscript (direction : UInt8) (clientNonce serverNonce : AuthNonce) (salt : Salt) :
    List UInt8 :=
  direction :: (clientNonce.1 ++ serverNonce.1 ++ salt.1)

theorem authTranscript_inj {d d' : UInt8} {cn cn' sn sn' : AuthNonce} {salt salt' : Salt}
    (h : authTranscript d cn sn salt = authTranscript d' cn' sn' salt') :
    d = d' ∧ cn = cn' ∧ sn = sn' ∧ salt = salt' := by
  obtain ⟨hd, hrest⟩ := List.cons_eq_cons.mp h
  obtain ⟨hnonces, hsalt⟩ := List.append_inj' hrest (by rw [salt.2, salt'.2])
  obtain ⟨hc, hs⟩ := List.append_inj hnonces (by rw [cn.2, cn'.2])
  exact ⟨hd, Subtype.ext hc, Subtype.ext hs, Subtype.ext hsalt⟩

end Oifs
