import Oifs.Bytes
import Mathlib.Data.Fintype.Pi

namespace Oifs

inductive FileType where
  | file
  | directory
  deriving DecidableEq, Repr

/-- `Inode`. The integers are the `u64` and `u32` values. -/
structure Inode where
  mode : FileType
  size : Nat
  compressedSize : Nat
  createdAt : Nat
  modifiedAt : Nat
  blocks : Fin 12 → Nat
  encrypted : Bool
  encryptionNonce : Fin 24 → UInt8
  filterTypesize : UInt8
  filterDelta : Bool
  filterShuffle : Bool
  filterBitshuffle : Bool
  tripleIndirect : Nat
  flags : Nat
  deriving DecidableEq

namespace Inode

def new (mode : FileType) : Inode where
  mode := mode
  size := 0
  compressedSize := 0
  createdAt := 0
  modifiedAt := 0
  blocks := fun _ => 0
  encrypted := false
  encryptionNonce := fun _ => 0
  filterTypesize := 0
  filterDelta := false
  filterShuffle := false
  filterBitshuffle := false
  tripleIndirect := 0
  flags := 0

structure Fits (i : Inode) : Prop where
  size : i.size < 2 ^ 64
  compressedSize : i.compressedSize < 2 ^ 64
  createdAt : i.createdAt < 2 ^ 64
  modifiedAt : i.modifiedAt < 2 ^ 64
  blocks : ∀ k, i.blocks k < 2 ^ 64
  tripleIndirect : i.tripleIndirect < 2 ^ 64
  flags : i.flags < 2 ^ 32

def isSeekable (i : Inode) : Bool := i.flags % 2 = 1

end Inode

def directBlocks : Nat := 10

def ptrsPerBlock : Nat := 512

def singleEnd : Nat := directBlocks + ptrsPerBlock

def doubleEnd : Nat := singleEnd + ptrsPerBlock * ptrsPerBlock

def maxLogicalBlocks : Nat := doubleEnd + ptrsPerBlock * ptrsPerBlock * ptrsPerBlock

inductive BlockPath where
  | direct (i : Nat)
  | single (i : Nat)
  | double (a b : Nat)
  | triple (a b c : Nat)
  deriving DecidableEq, Repr

namespace BlockPath

def fromLogical (idx : Nat) : Option BlockPath :=
  if idx < directBlocks then some (direct idx)
  else if idx < singleEnd then some (single (idx - directBlocks))
  else if idx < doubleEnd then
    let rel := idx - singleEnd
    some (double (rel / ptrsPerBlock) (rel % ptrsPerBlock))
  else if idx < maxLogicalBlocks then
    let rel := idx - doubleEnd
    let rem := rel % (ptrsPerBlock * ptrsPerBlock)
    some (triple (rel / (ptrsPerBlock * ptrsPerBlock)) (rem / ptrsPerBlock) (rem % ptrsPerBlock))
  else none

def toLogical : BlockPath → Nat
  | direct i => i
  | single i => directBlocks + i
  | double a b => singleEnd + a * ptrsPerBlock + b
  | triple a b c => doubleEnd + a * ptrsPerBlock * ptrsPerBlock + b * ptrsPerBlock + c

def SlotsInBounds : BlockPath → Prop
  | direct i => i < directBlocks
  | single i => i < ptrsPerBlock
  | double a b => a < ptrsPerBlock ∧ b < ptrsPerBlock
  | triple a b c => a < ptrsPerBlock ∧ b < ptrsPerBlock ∧ c < ptrsPerBlock

theorem fromLogical_some {idx : Nat} {path : BlockPath} (h : fromLogical idx = some path) :
    path.SlotsInBounds ∧ path.toLogical = idx := by
  unfold fromLogical at h
  split at h
  next hd =>
    cases h
    exact ⟨hd, rfl⟩
  next hd =>
    split at h
    next hs =>
      cases h
      simp only [SlotsInBounds, toLogical, singleEnd, directBlocks, ptrsPerBlock] at *
      omega
    next hs =>
      split at h
      next hdb =>
        cases h
        simp only [SlotsInBounds, toLogical, doubleEnd, singleEnd, directBlocks, ptrsPerBlock] at *
        omega
      next hdb =>
        split at h
        next ht =>
          cases h
          simp only [SlotsInBounds, toLogical, maxLogicalBlocks, doubleEnd, singleEnd, directBlocks,
            ptrsPerBlock] at *
          omega
        next => cases h

theorem toLogical_lt {path : BlockPath} (h : path.SlotsInBounds) :
    path.toLogical < maxLogicalBlocks := by
  cases path with
  | direct | single | double | triple =>
    simp only [SlotsInBounds, toLogical, maxLogicalBlocks, doubleEnd, singleEnd, directBlocks,
      ptrsPerBlock] at *
    omega

theorem fromLogical_none_iff {idx : Nat} : fromLogical idx = none ↔ maxLogicalBlocks ≤ idx := by
  constructor
  · intro h
    unfold fromLogical at h
    split at h
    next => cases h
    next =>
      split at h
      next => cases h
      next =>
        split at h
        next => cases h
        next =>
          split at h
          next => cases h
          next ht => exact Nat.not_lt.mp ht
  · intro h
    cases hp : fromLogical idx with
    | none => rfl
    | some path =>
      obtain ⟨hslots, heq⟩ := fromLogical_some hp
      have hlt := toLogical_lt hslots
      omega

theorem fromLogical_toLogical {path : BlockPath} (h : path.SlotsInBounds) :
    fromLogical path.toLogical = some path := by
  cases hp : fromLogical path.toLogical with
  | none => exact absurd (toLogical_lt h) (Nat.not_lt.mpr (fromLogical_none_iff.mp hp))
  | some path' =>
    obtain ⟨hslots, heq⟩ := fromLogical_some hp
    cases path <;> cases path' <;>
      simp only [SlotsInBounds, toLogical, doubleEnd, singleEnd, directBlocks, ptrsPerBlock,
        Option.some.injEq, direct.injEq, single.injEq, double.injEq, triple.injEq, reduceCtorEq] at * <;>
      omega

end BlockPath

end Oifs
