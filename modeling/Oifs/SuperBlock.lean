import Mathlib.Algebra.Group.Nat.Defs
import Mathlib.Tactic.Common
import Mathlib.Data.List.Pairwise

namespace Oifs

theorem except_bind_ok {ε α β : Type} {x : Except ε α} {f : α → Except ε β} {b : β} :
    (x >>= f) = .ok b ↔ ∃ a, x = .ok a ∧ f a = .ok b := by
  cases x with
  | error e =>
    constructor
    · intro h
      cases h
    · rintro ⟨a, h, -⟩
      cases h
  | ok a =>
    constructor
    · exact fun h => ⟨a, rfl, h⟩
    · rintro ⟨a', h, hf⟩
      cases h
      exact hf

theorem except_pure_ok {ε α : Type} {a b : α} : (pure a : Except ε α) = .ok b ↔ a = b :=
  ⟨Except.ok.inj, congrArg Except.ok⟩

theorem ite_error_eq_ok {ε α : Type} {c : Prop} [Decidable c] {e : ε} {k : Except ε α} {a : α} :
    (if c then .error e else k) = Except.ok a ↔ ¬c ∧ k = .ok a := by
  by_cases hc : c <;> simp [hc]

def blockSize : Nat := 4096

theorem mod_blockSize_lt (n : Nat) : n % blockSize < blockSize := Nat.mod_lt n (by decide)

def inodeSlotSize : Nat := 256

def journalHeaderBlock : Nat := 3

def journalRingBlocks : Nat := 32

def journalReservedBlocks : Nat := 1 + journalRingBlocks

def journalInodeTableBlock : Nat := journalHeaderBlock + journalReservedBlocks

def divCeil (a b : Nat) : Nat := (a + b - 1) / b

/-- The superblock. The salt of the key derivation is left out: nothing here reads it. -/
structure SuperBlock where
  magic : Nat
  blockSize : Nat
  blockCount : Nat
  inodeBitmapBlock : Nat
  dataBitmapBlock : Nat
  inodeTableBlock : Nat
  inodeCount : Nat
  dataBlockStart : Nat
  rootInode : Nat
  encrypted : Bool
  encryptionVersion : Nat
  formatVersion : Nat
  migrationCursor : Nat
  deriving DecidableEq, Repr

namespace SuperBlock

def magicWord : Nat := 0x4F494653

def formatVersionLegacy : Nat := 1

def formatVersionFixedInode : Nat := 2

def formatVersionV3Layout : Nat := 3

def maxTrackedInodes : Nat := 4096 * 8

def bitmapBlockBits : Nat := 4096 * 8

def inodeSlotsPerBlock : Nat := Oifs.blockSize / inodeSlotSize

def isLegacyInodeFormat (sb : SuperBlock) : Bool := sb.formatVersion < formatVersionFixedInode

def inodeRecordVersion (sb : SuperBlock) : Nat :=
  if sb.isLegacyInodeFormat then formatVersionLegacy else formatVersionFixedInode

def inodeRecordVersionFor (sb : SuperBlock) (inodeId : Nat) : Nat :=
  if !sb.isLegacyInodeFormat || inodeId < sb.migrationCursor then formatVersionFixedInode
  else formatVersionLegacy

def newV3 (totalBlocks : Nat) (journaled : Bool) : Option SuperBlock :=
  let journalBlocks := if journaled then journalReservedBlocks else 0
  let inodeTableBlocksCap := 1024
  let metadataBlocks := 1 + 1 + 1 + journalBlocks
  let inodeTableBlocks :=
    if totalBlocks > metadataBlocks + inodeTableBlocksCap then inodeTableBlocksCap
    else (totalBlocks - metadataBlocks - 1) / 4
  let inodeCount := inodeTableBlocks * inodeSlotsPerBlock
  let inodeBitmapBlocks := max (divCeil inodeCount bitmapBlockBits) 1
  let dataBlocks :=
    totalBlocks - (1 + inodeBitmapBlocks + 1 + journalBlocks + inodeTableBlocks)
  let dataBitmapBlocks := max (divCeil dataBlocks bitmapBlockBits) 1
  let dataBitmapBlock := 1 + inodeBitmapBlocks
  let inodeTableBlock := dataBitmapBlock + dataBitmapBlocks + journalBlocks
  let dataBlockStart := inodeTableBlock + inodeTableBlocks
  if totalBlocks > dataBlockStart then
    some {
      magic := magicWord
      blockSize := Oifs.blockSize
      blockCount := totalBlocks
      inodeBitmapBlock := 1
      dataBitmapBlock := dataBitmapBlock
      inodeTableBlock := inodeTableBlock
      inodeCount := inodeCount
      dataBlockStart := dataBlockStart
      rootInode := 0
      encrypted := false
      encryptionVersion := 0
      formatVersion := formatVersionV3Layout
      migrationCursor := 0 }
  else none

def new (totalBlocks : Nat) : Option SuperBlock := newV3 totalBlocks false

def newJournaled (totalBlocks : Nat) : Option SuperBlock := newV3 totalBlocks true

def isV3Layout (sb : SuperBlock) : Bool := sb.formatVersion ≥ formatVersionV3Layout

def inodeBitmapBlocks (sb : SuperBlock) : Nat :=
  if sb.isV3Layout then max (divCeil sb.inodeCount bitmapBlockBits) 1 else 1

/-- The span that `data_bitmap_blocks` derives under one assumption about the journal. -/
def dataBitmapSpan (sb : SuperBlock) (journalBlocks : Nat) : Nat :=
  let tableBlocks := sb.dataBlockStart - sb.inodeTableBlock
  max (divCeil (sb.blockCount - (1 + sb.inodeBitmapBlocks + 1 + journalBlocks + tableBlocks))
    bitmapBlockBits) 1

/-- Both journal choices are tried; the first that matches the table offset wins. -/
def dataBitmapBlocks (sb : SuperBlock) : Nat :=
  if !sb.isV3Layout then 1
  else
    match [0, journalReservedBlocks].find? fun journalBlocks =>
      sb.inodeTableBlock =
        1 + sb.inodeBitmapBlocks + sb.dataBitmapSpan journalBlocks + journalBlocks with
    | some journalBlocks => sb.dataBitmapSpan journalBlocks
    | none => 1

def hasJournalLayout (sb : SuperBlock) : Bool :=
  if sb.isV3Layout then
    sb.inodeTableBlock = 1 + sb.inodeBitmapBlocks + sb.dataBitmapBlocks + journalReservedBlocks
  else sb.inodeTableBlock ≥ journalInodeTableBlock

def inodeTableCapacity (sb : SuperBlock) : Nat :=
  min ((sb.dataBlockStart - sb.inodeTableBlock) * inodeSlotsPerBlock) (2 ^ 64 - 1)

def usableInodeCount (sb : SuperBlock) : Nat :=
  min (min sb.inodeCount sb.inodeTableCapacity) maxTrackedInodes

/-- `validate`, test by test, with the texts of the source. -/
def validate (sb : SuperBlock) (mmapLen : Nat) : Except String Unit := do
  if sb.magic ≠ magicWord then throw "Invalid filesystem magic number"
  if sb.blockSize ≠ Oifs.blockSize then throw "Invalid block size (must be 4096)"
  if sb.blockCount < 5 then throw "Total block count too small (minimum 5 blocks)"
  if sb.blockCount * Oifs.blockSize ≥ 2 ^ 64 then throw "Total block count integer overflow"
  if sb.blockCount * Oifs.blockSize > mmapLen then
    throw "Filesystem block count exceeds mapped file image size"
  if sb.inodeBitmapBlock ≠ 1 then throw "Invalid inode bitmap block (must be block 1)"
  if sb.dataBitmapBlock ≠ 2 then throw "Invalid data bitmap block (must be block 2)"
  if sb.inodeTableBlock ≤ sb.dataBitmapBlock then
    throw "Inode table block overlaps bitmaps or superblock"
  if sb.inodeTableBlock > sb.dataBlockStart then
    throw "Inode table block start exceeds data block start"
  if sb.dataBlockStart > sb.blockCount then throw "Data block start exceeds total block count"
  if sb.dataBlockStart = sb.blockCount then throw "No data blocks available in filesystem"
  if sb.inodeCount = 0 then throw "Inode count cannot be zero"
  if sb.inodeCount > maxTrackedInodes then
    throw "Inode count exceeds the capacity of the inode bitmap"
  let tableEnd := sb.inodeTableBlock + divCeil sb.usableInodeCount inodeSlotsPerBlock
  if tableEnd < 2 ^ 64 ∧ tableEnd > sb.dataBlockStart then
    throw "Inode table does not fit before the data area"
  if sb.rootInode ≥ sb.usableInodeCount then throw "Root inode ID exceeds the usable inode count"
  if sb.isV3Layout then
    if sb.dataBitmapBlock ≠ sb.inodeBitmapBlock + sb.inodeBitmapBlocks then
      throw "Data bitmap does not follow the inode bitmap"
    let journalBlocks := if sb.hasJournalLayout then journalReservedBlocks else 0
    if sb.inodeTableBlock ≠ sb.dataBitmapBlock + sb.dataBitmapBlocks + journalBlocks then
      throw "Inode table does not follow the data bitmap"

end SuperBlock

end Oifs
