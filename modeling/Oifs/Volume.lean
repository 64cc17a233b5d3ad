import Oifs.DiskJournal

namespace Oifs

open LittleEndian

/-- A mounted image as its accessors show it: the first block of each bitmap, the inode of each slot
and the bytes of each block. -/
structure Volume where
  superblock : SuperBlock
  /-- The whole blocks of the mapping. -/
  mapBlocks : Nat
  inodeBit : Nat → Bool
  dataBit : Nat → Bool
  inode : Nat → Except InodeFormatError Inode
  block : Nat → Nat → UInt8
  freeBlockHint : Nat
  freeInodeHint : Nat

/-- An action on the image; what it has stored stays when it fails. -/
abbrev DiskM := EStateM DiskError Volume

namespace DiskM

variable {ε σ α β : Type} {v v' : σ}

theorem get_bind (f : σ → EStateM ε σ α) (v : σ) : (get >>= f) v = f v v := rfl

theorem bind_ok {x : EStateM ε σ α} {f : α → EStateM ε σ β} {b : β} :
    (x >>= f) v = .ok b v' ↔ ∃ a v₁, x v = .ok a v₁ ∧ f a v₁ = .ok b v' := by
  change EStateM.bind x f v = .ok b v' ↔ _
  unfold EStateM.bind
  cases hx : x v with
  | ok a v₁ =>
    constructor
    · intro h
      exact ⟨a, v₁, rfl, h⟩
    · rintro ⟨a', v₁', h, hf⟩
      cases h
      exact hf
  | error e v₁ =>
    constructor
    · intro h
      cases h
    · rintro ⟨a', v₁', h, _⟩
      cases h

@[simp] theorem pure_ok {a b : α} : (pure a : EStateM ε σ α) v = .ok b v' ↔ a = b ∧ v = v' := by
  change EStateM.Result.ok a v = .ok b v' ↔ _
  simp

@[simp] theorem throw_ok {e : ε} {b : α} : (throw e : EStateM ε σ α) v = .ok b v' ↔ False := by
  change EStateM.Result.error e v = .ok b v' ↔ _
  simp

@[simp] theorem get_ok {b : σ} : (get : EStateM ε σ σ) v = .ok b v' ↔ v = b ∧ v = v' := by
  change EStateM.Result.ok v v = .ok b v' ↔ _
  simp

@[simp] theorem set_ok {w : σ} {b : PUnit} : (set w : EStateM ε σ PUnit) v = .ok b v' ↔ w = v' := by
  change EStateM.Result.ok PUnit.unit w = .ok b v' ↔ _
  simp

@[simp] theorem modify_ok {f : σ → σ} {b : PUnit} :
    (modify f : EStateM ε σ PUnit) v = .ok b v' ↔ f v = v' := by
  change EStateM.Result.ok PUnit.unit (f v) = .ok b v' ↔ _
  simp

end DiskM

theorem toOption_eq_some {α : Type} {x : Except DiskError α} {a : α} :
    x.toOption = some a ↔ x = .ok a := by
  cases x with
  | error e => simp [Except.toOption]
  | ok b => simp [Except.toOption]

def bitmapBits : Nat := 8 * blockSize

def findFirstFreeFrom (bit : Nat → Bool) (len start : Nat) : Option Nat :=
  (List.range' start (len - start)).find? fun i => !bit i

def findNextFreeWrapped (bit : Nat → Bool) (len hint : Nat) : Option Nat :=
  match findFirstFreeFrom bit len hint with
  | some idx => some idx
  | none => if hint > 0 then (findFirstFreeFrom bit len 0).filter (· < hint) else none

theorem findFirstFreeFrom_some {bit : Nat → Bool} {len start i : Nat}
    (h : findFirstFreeFrom bit len start = some i) : bit i = false ∧ i < len := by
  have hbit := List.find?_some h
  have hmem := List.mem_of_find?_eq_some h
  rw [List.mem_range'_1] at hmem
  refine ⟨by simpa using hbit, by omega⟩

theorem findFirstFreeFrom_ge {bit : Nat → Bool} {len start i : Nat}
    (h : findFirstFreeFrom bit len start = some i) : start ≤ i := by
  have hmem := List.mem_of_find?_eq_some h
  rw [List.mem_range'_1] at hmem
  exact hmem.1

theorem findNextFreeWrapped_some {bit : Nat → Bool} {len hint i : Nat}
    (h : findNextFreeWrapped bit len hint = some i) : bit i = false ∧ i < len := by
  unfold findNextFreeWrapped at h
  split at h
  next idx hfirst =>
    cases h
    exact findFirstFreeFrom_some hfirst
  next =>
    split at h
    next =>
      obtain ⟨hsome, -⟩ := Option.filter_eq_some_iff.mp h
      exact findFirstFreeFrom_some hsome
    next => cases h

def patch (f : Nat → UInt8) (off : Nat) (data : List UInt8) (j : Nat) : UInt8 :=
  if off ≤ j then (data[j - off]?).getD (f j) else f j

variable {f : Nat → UInt8}

theorem patch_in {off j : Nat} {data : List UInt8} (h : j < data.length) :
    patch f off data (off + j) = data[j] := by
  simp [patch, h]

theorem patch_out {off j : Nat} {data : List UInt8}
    (h : j < off ∨ off + data.length ≤ j) : patch f off data j = f j := by
  unfold patch
  split
  next hle => rw [List.getElem?_eq_none (by omega), Option.getD_none]
  next => rfl

def cell (f : Nat → UInt8) (i : Nat) : Nat := decode ((List.range 8).map fun k => f (i * 8 + k))

theorem cell_zero {i : Nat} (h : ∀ j, f j = 0) : cell f i = 0 := by
  unfold cell
  have hbytes : ((List.range 8).map fun k => f (i * 8 + k)) = List.replicate 8 0 := by
    rw [List.eq_replicate_iff]
    refine ⟨by simp, ?_⟩
    intro b hb
    obtain ⟨k, -, rfl⟩ := List.mem_map.mp hb
    exact h _
  rw [hbytes, decode_replicate_zero]

theorem cell_patch_same {i p : Nat} (hp : p < 2 ^ 64) :
    cell (patch f (i * 8) (encode 8 p)) i = p := by
  have hbytes : ((List.range 8).map fun k => patch f (i * 8) (encode 8 p) (i * 8 + k)) =
      encode 8 p := by
    apply List.ext_getElem
    · simp
    · intro k hk hk'
      rw [List.getElem_map, List.getElem_range, patch_in hk']
  rw [cell, hbytes, decode_encode]
  exact Nat.mod_eq_of_lt hp

theorem cell_patch_other {i j : Nat} {data : List UInt8} (hlen : data.length = 8)
    (hne : j ≠ i) : cell (patch f (i * 8) data) j = cell f j := by
  unfold cell
  congr 1
  apply List.map_congr_left
  intro k hk
  have hlt := List.mem_range.mp hk
  exact patch_out (by omega)

namespace Inode

/-- The twelve pointers of `blocks`, then `triple_indirect`. -/
def slot (i : Inode) (s : Nat) : Nat :=
  if h : s < 12 then i.blocks ⟨s, h⟩ else if s = 12 then i.tripleIndirect else 0

def setSlot (i : Inode) (s p : Nat) : Inode :=
  if h : s < 12 then { i with blocks := Function.update i.blocks ⟨s, h⟩ p }
  else { i with tripleIndirect := p }

theorem slot_new (mode : FileType) (s : Nat) : (Inode.new mode).slot s = 0 := by
  unfold slot
  split
  next => rfl
  next =>
    split
    next => rfl
    next => rfl

theorem slot_setSlot_same (i : Inode) {s : Nat} (h : s ≤ 12) (p : Nat) : (i.setSlot s p).slot s = p := by
  unfold setSlot slot
  by_cases hs : s < 12
  · simp [hs]
  · have heq : s = 12 := by omega
    simp [heq]

theorem slot_setSlot_other (i : Inode) {s t : Nat} (hs : s ≤ 12) (h : t ≠ s) (p : Nat) :
    (i.setSlot s p).slot t = i.slot t := by
  unfold setSlot slot
  by_cases hs' : s < 12
  · by_cases ht : t < 12
    · simp [hs', ht, h]
    · simp [hs', ht]
  · have heq : s = 12 := by omega
    subst heq
    simp [h]

end Inode

namespace Volume

def isDataBlock (v : Volume) (b : Nat) : Bool :=
  b != 0 && v.superblock.dataBlockStart ≤ b && b < v.superblock.blockCount

/-- New contents for a block, through `get_block_mut_from_map`: nothing outside the mapping. -/
def setBlock (v : Volume) (b : Nat) (f : Nat → UInt8) : Volume :=
  if b < v.mapBlocks then { v with block := Function.update v.block b f } else v

def readBlockPtr (v : Volume) (b i : Nat) : Nat :=
  if b < v.mapBlocks ∧ i * 8 + 8 ≤ blockSize then cell (v.block b) i else 0

def writeBlockPtr (v : Volume) (b i p : Nat) : Volume :=
  v.setBlock b (patch (v.block b) (i * 8) (encode 8 p))

def marked (v : Volume) (b : Nat) : Bool :=
  v.superblock.dataBlockStart ≤ b && b - v.superblock.dataBlockStart < bitmapBits &&
    v.dataBit (b - v.superblock.dataBlockStart)

def setMark (v : Volume) (b : Nat) (val : Bool) : Volume :=
  { v with dataBit := Function.update v.dataBit (b - v.superblock.dataBlockStart) val }

def free (v : Volume) (b : Nat) : Volume :=
  if b < v.superblock.dataBlockStart then v else v.setMark b false

/-- `allocate_block`. A block past the end of the image is released again. -/
def allocateBlock : DiskM Nat := fun v =>
  match findNextFreeWrapped v.dataBit bitmapBits
      (v.freeBlockHint - v.superblock.dataBlockStart) with
  | none => .error .noSpace v
  | some bit =>
    let blk := v.superblock.dataBlockStart + bit
    if blk ≥ v.superblock.blockCount then .error .noSpace v
    else
      .ok blk ({ v.setMark blk true with freeBlockHint := blk + 1 }.setBlock blk fun _ => 0)

def allocAndZeroBlock : DiskM Nat := do
  let blk ← allocateBlock
  modify (·.setBlock blk fun _ => 0)
  return blk

def getOrAllocIndirectChild (parent idx : Nat) (allocate isIntermediate : Bool) : DiskM Nat := do
  let v ← get
  let child := v.readBlockPtr parent idx
  if !v.isDataBlock parent then
    throw (.io s!"Indirect block {parent} is outside the data area")
  else if child ≠ 0 ∧ !v.isDataBlock child then
    throw (.io s!"Block pointer {child} is outside the data area")
  else if child = 0 ∧ allocate then do
    let child ← if isIntermediate then allocAndZeroBlock else allocateBlock
    modify (·.writeBlockPtr parent idx child)
    return child
  else return child

def ensureRoot (inode : Inode) (s : Nat) (allocate : Bool) : DiskM (Nat × Inode) := do
  let inode ←
    if inode.slot s = 0 ∧ allocate then do
      let blk ← allocAndZeroBlock
      pure (inode.setSlot s blk)
    else pure inode
  let v ← get
  let root := inode.slot s
  if root ≠ 0 ∧ !v.isDataBlock root then
    throw (.io s!"Indirect root {root} is outside the data area")
  else return (root, inode)

def getOrAllocBlock (inode : Inode) (idx : Nat) (allocate : Bool) : DiskM (Nat × Inode) :=
  match BlockPath.fromLogical idx with
  | some (.direct i) => do
    let inode ←
      if inode.slot i = 0 ∧ allocate then do
        let blk ← allocateBlock
        pure (inode.setSlot i blk)
      else pure inode
    let v ← get
    let blk := inode.slot i
    if blk ≠ 0 ∧ !v.isDataBlock blk then
      throw (.io s!"Block pointer {blk} is outside the data area")
    else return (blk, inode)
  | some (.single i) => do
    let (sib, inode) ← ensureRoot inode 10 allocate
    if sib = 0 then return (0, inode)
    else return (← getOrAllocIndirectChild sib i allocate false, inode)
  | some (.double a b) => do
    let (dib, inode) ← ensureRoot inode 11 allocate
    if dib = 0 then return (0, inode)
    else do
      let sib ← getOrAllocIndirectChild dib a allocate true
      if sib = 0 then return (0, inode)
      else return (← getOrAllocIndirectChild sib b allocate false, inode)
  | some (.triple a b c) => do
    let (tib, inode) ← ensureRoot inode 12 allocate
    if tib = 0 then return (0, inode)
    else do
      let dib ← getOrAllocIndirectChild tib a allocate true
      if dib = 0 then return (0, inode)
      else do
        let sib ← getOrAllocIndirectChild dib b allocate true
        if sib = 0 then return (0, inode)
        else return (← getOrAllocIndirectChild sib c allocate false, inode)
  | none => throw (.io "File too large (max 513GB)")

def follow (v : Volume) (parent slot : Nat) : Nat :=
  if parent = 0 then 0 else v.readBlockPtr parent slot

def resolveLogicalBlockId (v : Volume) (inode : Inode) (idx : Nat) : Nat :=
  match BlockPath.fromLogical idx with
  | some (.direct i) => inode.slot i
  | some (.single i) => v.follow (inode.slot 10) i
  | some (.double a b) => v.follow (v.follow (inode.slot 11) a) b
  | some (.triple a b c) => v.follow (v.follow (v.follow (inode.slot 12) a) b) c
  | none => 0

end Volume

end Oifs
