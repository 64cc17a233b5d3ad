import Oifs.Chunk
import Oifs.InPlace
import Oifs.XorLinear

namespace Oifs

open LittleEndian

inductive FilterType where
  | delta
  | byteShuffle
  | bitShuffle
  | truncPrecision (precBits : Int)
  deriving DecidableEq, Repr

structure FilterPipeline where
  typesize : UInt8
  filters : List FilterType
  deriving DecidableEq, Repr

namespace Filters

def wordAt (w : Nat) (data : List UInt8) (i : Nat) : Nat := decode (bytesAt data (i * w) w)

def setWord (w : Nat) (data : List UInt8) (i x : Nat) : List UInt8 :=
  copyFromSlice data (i * w) (encode w x)

def wrappingSub (w cur prev : Nat) : Nat := (cur + (256 ^ w - prev)) % 256 ^ w

def wrappingAdd (w cur prev : Nat) : Nat := (prev + cur) % 256 ^ w

/-- A loop over the elements `indices` of a slice of words. -/
def wordLoop (step : Nat → Nat → Nat) (indices : List Nat) (words : List Nat) : List Nat :=
  indices.foldl (fun words i => words.set i (step (words.getD i 0) (words.getD (i - 1) 0))) words

def byteLoop (w : Nat) (step : Nat → Nat → Nat) (indices : List Nat) (data : List UInt8) : List UInt8 :=
  indices.foldl (fun data i => setWord w data i (step (wordAt w data i) (wordAt w data (i - 1)))) data

/-- The first `n` elements as words: `from_raw_parts_mut` on a little-endian machine. -/
def typedSlice (w n : Nat) (data : List UInt8) : List Nat := (List.range n).map (wordAt w data)

def writeBack (w : Nat) (words : List Nat) (data : List UInt8) : List UInt8 :=
  words.flatMap (encode w) ++ data.drop (words.length * w)

/-- A loop over the `n` elements of `data`, through a typed slice where the pointer is aligned. -/
def inPlaceLoop (aligned : Bool) (w n : Nat) (step : Nat → Nat → Nat) (indices : List Nat)
    (data : List UInt8) : List UInt8 :=
  if aligned then writeBack w (wordLoop step indices (typedSlice w n data)) data
  else byteLoop w step indices data

/-- What both delta functions do around their loop: element sizes but 1, 2, 4 and 8 are left alone.
-/
def deltaInPlace (step : Nat → Nat → Nat → Nat) (order : List Nat → List Nat) (aligned : Bool)
    (data : List UInt8) (typesize : Nat) : List UInt8 :=
  if typesize = 0 then data
  else
    let n := data.length / typesize
    if n ≤ 1 then data
    else if typesize = 1 then byteLoop 1 (step 1) (order (List.range' 1 (n - 1))) data
    else if typesize = 2 ∨ typesize = 4 ∨ typesize = 8 then
      inPlaceLoop aligned typesize n (step typesize) (order (List.range' 1 (n - 1))) data
    else data

def deltaEncodeInplace : Bool → List UInt8 → Nat → List UInt8 := deltaInPlace wrappingSub List.reverse

def deltaDecodeInplace : Bool → List UInt8 → Nat → List UInt8 := deltaInPlace wrappingAdd id

/-- The assignments of a shuffle in the order of its loops. -/
def shuffleAssignments (data : List UInt8) (n typesize : Nat) (target source : Nat → Nat → Nat) :
    List (Nat × UInt8) :=
  (List.range n).flatMap fun i =>
    (List.range typesize).map fun j => (target i j, data.getD (source i j) 0)

def shuffleWith (target source : Nat → Nat → Nat → Nat → Nat) (data : List UInt8) (typesize : Nat) :
    List UInt8 :=
  if typesize ≤ 1 ∨ data.isEmpty then data
  else
    let n := data.length / typesize
    let out := InPlace.scatter
      (shuffleAssignments data n typesize (target n typesize) (source n typesize))
      (List.replicate data.length 0)
    let tailStart := n * typesize
    if tailStart < data.length then copyFromSlice out tailStart (data.drop tailStart) else out

def planeIndex (n _ i j : Nat) : Nat := j * n + i

def elementIndex (_ typesize i j : Nat) : Nat := i * typesize + j

def shuffleEncode : List UInt8 → Nat → List UInt8 := shuffleWith planeIndex elementIndex

def shuffleDecode : List UInt8 → Nat → List UInt8 := shuffleWith elementIndex planeIndex

/-- One delta swap: the bits under the mask trade places with those `d` above them. -/
def deltaSwap (mask : UInt64) (d : UInt64) (x : UInt64) : UInt64 :=
  let t := (x ^^^ (x >>> d)) &&& mask
  x ^^^ t ^^^ (t <<< d)

/-- `transpose_8x8_u64`. -/
def transpose8x8 (x : UInt64) : UInt64 :=
  if x = 0 ∨ x = 0xFFFFFFFFFFFFFFFF then x
  else
    let x := deltaSwap 0x00AA00AA00AA00AA 7 x
    let x := deltaSwap 0x0000CCCC0000CCCC 14 x
    deltaSwap 0x00000000F0F0F0F0 28 x

def transposeBlock (src : List UInt8) : List UInt8 := u64 (transpose8x8 (readU64 src))

def transposeBlocks (src : List UInt8) : List UInt8 :=
  if _h : 16 ≤ src.length then
    transposeBlock (bytesAt src 0 8) ++ transposeBlock (bytesAt src 8 8) ++ transposeBlocks (src.drop 16)
  else if src.length = 8 then transposeBlock src
  else []
termination_by src.length
decreasing_by
  rw [List.length_drop]
  omega

def transposeBytes (data : List UInt8) : List UInt8 :=
  let blockBytes := data.length / 8 * 8
  transposeBlocks (data.take blockBytes) ++ data.drop blockBytes

def bitshuffleEncode (data : List UInt8) (typesize : Nat) : List UInt8 :=
  if data.isEmpty ∨ typesize = 0 then data else transposeBytes (shuffleEncode data typesize)

def bitshuffleDecode (data : List UInt8) (typesize : Nat) : List UInt8 :=
  if data.isEmpty ∨ typesize = 0 then data else shuffleDecode (transposeBytes data) typesize

/-- `trunc_precision_encode_inplace`: the low mantissa bits of each element are cleared. -/
def truncPrecisionEncodeInplace (aligned : Bool) (data : List UInt8) (typesize : Nat) (precBits : Int) :
    List UInt8 :=
  if data.isEmpty ∨ precBits ≤ 0 then data
  else
    let truncWith (w mantissa : Nat) : List UInt8 :=
      let bitsToZero := mantissa - min precBits.toNat mantissa
      if 0 < bitsToZero then
        let n := data.length / w
        inPlaceLoop aligned w n (fun cur _ => cur &&& (256 ^ w - 2 ^ bitsToZero)) (List.range n) data
      else data
    if typesize = 4 then truncWith 4 23
    else if typesize = 8 then truncWith 8 52
    else data

end Filters

namespace FilterPipeline

open Filters

/-- One round of `apply`; `aligned` is how the allocator placed the buffer. -/
def applyFilter (aligned : Bool) (typesize : Nat) (cur : List UInt8) : FilterType → List UInt8
  | .delta => deltaEncodeInplace aligned cur typesize
  | .byteShuffle => shuffleEncode cur typesize
  | .bitShuffle => bitshuffleEncode cur typesize
  | .truncPrecision precBits => truncPrecisionEncodeInplace aligned cur typesize precBits

/-- One round of `unapply_in_place`; truncation is not undone. -/
def unapplyFilter (aligned : Bool) (typesize : Nat) (cur : List UInt8) : FilterType → List UInt8
  | .delta => deltaDecodeInplace aligned cur typesize
  | .byteShuffle => shuffleDecode cur typesize
  | .bitShuffle => bitshuffleDecode cur typesize
  | .truncPrecision _ => cur

def apply (p : FilterPipeline) (aligned : Nat → Bool) (data : List UInt8) : List UInt8 :=
  p.filters.zipIdx.foldl (fun cur f => applyFilter (aligned f.2) p.typesize.toNat cur f.1) data

/-- `unapply_in_place`. -/
def unapply (p : FilterPipeline) (aligned : Nat → Bool) (data : List UInt8) : List UInt8 :=
  p.filters.reverse.zipIdx.foldl
    (fun cur f => unapplyFilter (aligned f.2) p.typesize.toNat cur f.1) data

end FilterPipeline

def FilterConfig.toPipeline (c : FilterConfig) : FilterPipeline where
  typesize := c.typesize
  filters := (if c.delta then [.delta] else []) ++ (if c.shuffle then [.byteShuffle] else []) ++
    if c.bitshuffle then [.bitShuffle] else []

/-- The codec with the pipelines of its configurations, for a placement of each buffer that is
filtered and of each that is restored. -/
def Codec.withPipelines (C : Codec) (aligned aligned' : FilterConfig → List UInt8 → Nat → Bool) :
    Codec :=
  { C with
    pipelineApply := fun c data => c.toPipeline.apply (aligned c data) data
    pipelineUnapply := fun c data => c.toPipeline.unapply (aligned' c data) data }

end Oifs
