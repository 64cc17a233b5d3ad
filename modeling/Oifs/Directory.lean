import Oifs.Volume

namespace Oifs

open LittleEndian

structure DirectoryEntry where
  inode : Nat
  hash : Nat
  name : String
  deriving DecidableEq

inductive DirectoryError where
  | io (text : String)
  | utf8Error
  | entryTooLarge
  | invalidFilename (text : String)
  deriving DecidableEq

def DirectoryError.display : DirectoryError → String
  | io text => "IO error: " ++ text
  | utf8Error => "Encoding error"
  | entryTooLarge => "Entry too large"
  | invalidFilename text => "Invalid filename: " ++ text

def maxFilenameLen : Nat := 255

/-- `str::as_bytes`. -/
def nameBytes (name : String) : List UInt8 := name.toUTF8.data.toList

def validateFilename (name : String) : Except DirectoryError Unit :=
  if name.isEmpty then .error (.invalidFilename "Filename cannot be empty")
  else if name = "." ∨ name = ".." then
    .error (.invalidFilename s!"Filename cannot be '{name}' (path traversal prohibited)")
  else if '/' ∈ name.toList ∨ '\\' ∈ name.toList then
    .error (.invalidFilename "Filename cannot contain path separators ('/' or '\\')")
  else if '\x00' ∈ name.toList then
    .error (.invalidFilename "Filename cannot contain null bytes ('\\0')")
  else if (nameBytes name).length > maxFilenameLen then .error .entryTooLarge
  else .ok ()

namespace SipHash

structure State where
  v0 : UInt64
  v1 : UInt64
  v2 : UInt64
  v3 : UInt64

def rotateLeft (x n : UInt64) : UInt64 := (x <<< n) ||| (x >>> (64 - n))

def sipRound (s : State) : State :=
  let v0 := s.v0 + s.v1
  let v1 := rotateLeft s.v1 13 ^^^ v0
  let v0 := rotateLeft v0 32
  let v2 := s.v2 + s.v3
  let v3 := rotateLeft s.v3 16 ^^^ v2
  let v0 := v0 + v3
  let v3 := rotateLeft v3 21 ^^^ v0
  let v2 := v2 + v1
  let v1 := rotateLeft v1 17 ^^^ v2
  let v2 := rotateLeft v2 32
  ⟨v0, v1, v2, v3⟩

def absorb (s : State) (m : UInt64) : State :=
  let s := sipRound (sipRound { s with v3 := s.v3 ^^^ m })
  { s with v0 := s.v0 ^^^ m }

def absorbChunks (s : State) : Nat → List UInt8 → State × List UInt8
  | 0, rest => (s, rest)
  | n + 1, rest => absorbChunks (absorb s (readU64 (rest.take 8))) n (rest.drop 8)

end SipHash

open SipHash in
def hashFilenameBytes (bytes : List UInt8) : Nat :=
  let k0 : UInt64 := 0x0706050403020100
  let k1 : UInt64 := 0x0f0e0d0c0b0a0908
  let start : State := ⟨k0 ^^^ 0x736f6d6570736575, k1 ^^^ 0x646f72616e646f6d,
    k0 ^^^ 0x6c7967656e657261, k1 ^^^ 0x7465646279746573⟩
  let (s, remainder) := absorbChunks start (bytes.length / 8) bytes
  let last := UInt64.ofNat (bytes.length % 2 ^ 8 * 2 ^ 56 + decode remainder)
  let s := absorb s last
  let s := { s with v2 := s.v2 ^^^ 0xff }
  let s := sipRound (sipRound (sipRound (sipRound s)))
  (s.v0 ^^^ s.v1 ^^^ s.v2 ^^^ s.v3).toNat

def hashFilename (name : String) : Nat := hashFilenameBytes (nameBytes name)

def bytesOf (f : Nat → UInt8) (off n : Nat) : List UInt8 := (List.range n).map fun k => f (off + k)

def recordHeader : Nat := 18

def recordInode (f : Nat → UInt8) (off : Nat) : Nat := decode (bytesOf f off 8)

def recordHash (f : Nat → UInt8) (off : Nat) : Nat := decode (bytesOf f (off + 8) 8)

def recordLen (f : Nat → UInt8) (off : Nat) : Nat := decode (bytesOf f (off + 16) 2)

def recordName (f : Nat → UInt8) (off : Nat) : List UInt8 :=
  bytesOf f (off + recordHeader) (recordLen f off)

def recordEnd (f : Nat → UInt8) (off : Nat) : Option Nat :=
  if off + recordHeader ≤ blockSize ∧ recordLen f off ≠ 0 ∧
      off + recordHeader + recordLen f off ≤ blockSize then
    some (off + recordHeader + recordLen f off)
  else none

def findEntryLoop (f : Nat → UInt8) (target : List UInt8) (hash : Nat) : Nat → Nat → Option Nat
  | 0, _ => none
  | fuel + 1, off =>
    match recordEnd f off with
    | none => none
    | some next =>
      if (recordHash f off = 0 ∨ hash = 0 ∨ recordHash f off = hash) ∧ recordName f off = target then
        some (recordInode f off)
      else findEntryLoop f target hash fuel next

def findEntryInBlockWithHash (f : Nat → UInt8) (name : String) (hash : Nat) : Option Nat :=
  findEntryLoop f (nameBytes name) hash blockSize 0

def findInsertLoop (f : Nat → UInt8) : Nat → Nat → Nat
  | 0, off => off
  | fuel + 1, off =>
    match recordEnd f off with
    | none => off
    | some next => findInsertLoop f fuel next

def findInsertOffsetInBlock (f : Nat → UInt8) : Nat := findInsertLoop f blockSize 0

def decodeRecord (f : Nat → UInt8) (off : Nat) : Except DirectoryError DirectoryEntry :=
  match String.fromUTF8? ⟨(recordName f off).toArray⟩ with
  | none => .error .utf8Error
  | some name =>
    match validateFilename name with
    | .error e => .error e
    | .ok () => .ok ⟨recordInode f off, recordHash f off, name⟩

/-- The items of `DirectoryIterator`. A name that is cut off takes the cursor to the end. -/
def iterLoop (f : Nat → UInt8) : Nat → Nat → List (Except DirectoryError DirectoryEntry)
  | 0, _ => []
  | fuel + 1, off =>
    if off + recordHeader > blockSize ∨ recordLen f off = 0 then []
    else if recordLen f off > maxFilenameLen then
      .error .entryTooLarge :: iterLoop f fuel (off + recordHeader)
    else if off + recordHeader + recordLen f off > blockSize then
      [.error (.io "failed to fill whole buffer")]
    else decodeRecord f off :: iterLoop f fuel (off + recordHeader + recordLen f off)

def directoryItems (f : Nat → UInt8) : List (Except DirectoryError DirectoryEntry) :=
  iterLoop f blockSize 0

def collectItems : List (Except DirectoryError DirectoryEntry) →
    Except DirectoryError (List DirectoryEntry)
  | [] => .ok []
  | .error e :: _ => .error e
  | .ok entry :: items =>
    match collectItems items with
    | .ok entries => .ok (entry :: entries)
    | .error e => .error e

def DirectoryEntry.bytes (e : DirectoryEntry) : List UInt8 :=
  encode 8 e.inode ++ encode 8 e.hash ++ encode 2 (nameBytes e.name).length ++ nameBytes e.name

/-- `serialize_into` a block at `off`; what fits is stored even when the rest does not. -/
def serializeInto (e : DirectoryEntry) (f : Nat → UInt8) (off : Nat) :
    (Nat → UInt8) × Except DirectoryError Nat :=
  match validateFilename e.name with
  | .error err => (f, .error err)
  | .ok () =>
    (patch f off (e.bytes.take (blockSize - off)),
      if off + e.bytes.length ≤ blockSize then .ok (off + e.bytes.length)
      else .error (.io "failed to write whole buffer"))

def serializeAll : List DirectoryEntry → (Nat → UInt8) → Nat → (Nat → UInt8) × Except DirectoryError Nat
  | [], f, off => (f, .ok off)
  | e :: entries, f, off =>
    match serializeInto e f off with
    | (f, .ok next) => serializeAll entries f next
    | (f, .error err) => (f, .error err)

/-- `MAX_DIR_BLOCKS`. -/
def maxDirBlocks : Nat := 65536

/-- `dir_num_blocks`; a directory of size zero has its first block, if that is there. -/
def dirNumBlocks (inode : Inode) : Nat :=
  if inode.size = 0 then if inode.slot 0 ≠ 0 then 1 else 0
  else min (divCeil inode.size blockSize) maxDirBlocks

end Oifs
