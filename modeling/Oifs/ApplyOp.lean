import Oifs.Bitmap
import Oifs.JournalRing

namespace Oifs

/-! Redo of one metadata operation. An image is shorter than `2 ^ 63` bytes, so an offset that
overflows in the source lies past its end. -/

def bitmapSpanRange (image : ByteStore) (bs bitmapStart bitmapBlocks : Nat) :
    Except JournalError (Nat × Nat) :=
  let start := bitmapStart * bs
  let len := bitmapBlocks * bs
  if start + len > image.len then .error (.blockOutOfRange bitmapStart)
  else .ok (start, start + len)

def setSpanBit (image : ByteStore) (bs bitmapStart bitmapBlocks id bit : Nat) (allocated : Bool) :
    Except JournalError ByteStore := do
  let (start, stop) ← bitmapSpanRange image bs bitmapStart bitmapBlocks
  let bitmap := image.sub start (stop - start)
  if bit / 8 ≥ bitmap.len then throw (.blockOutOfRange id)
  return image.overlay start (Bitmap.put allocated bitmap bit)

def applyOpInPlace (sb : SuperBlock) (image : ByteStore) : MetadataOp → Except JournalError ByteStore
  | .setInodeBitmap inodeId allocated => do
    if inodeId.toNat ≥ sb.inodeCount then throw (.blockOutOfRange inodeId.toNat)
    setSpanBit image sb.blockSize sb.inodeBitmapBlock sb.inodeBitmapBlocks inodeId.toNat
      inodeId.toNat allocated
  | .setDataBitmap blockId allocated => do
    if blockId.toNat < sb.dataBlockStart ∨ blockId.toNat ≥ sb.blockCount then
      throw (.blockOutOfRange blockId.toNat)
    setSpanBit image sb.blockSize sb.dataBitmapBlock sb.dataBitmapBlocks blockId.toNat
      (blockId.toNat - sb.dataBlockStart) allocated
  | .setDataBitmapRange startBlock count allocated => do
    let endBlock := min (startBlock.toNat + count.toNat) (2 ^ 64 - 1)
    if startBlock.toNat < sb.dataBlockStart ∨ endBlock > sb.blockCount then
      throw (.blockOutOfRange startBlock.toNat)
    let (start, stop) ← bitmapSpanRange image sb.blockSize sb.dataBitmapBlock sb.dataBitmapBlocks
    let bitmap := image.sub start (stop - start)
    -- a range that leaves the span is cut off at its end, without an error
    return image.overlay start
      (Bitmap.putRange allocated bitmap (startBlock.toNat - sb.dataBlockStart) count.toNat)
  | .writeInode inodeId inodeBytes => do
    if inodeId.toNat ≥ sb.inodeCount then throw (.blockOutOfRange inodeId.toNat)
    let base := sb.inodeTableBlock * sb.blockSize + inodeId.toNat * inodeBytesLen
    if base + inodeBytesLen > image.len then throw (.blockOutOfRange inodeId.toNat)
    return image.write base inodeBytes.val
  | .writeBlockSlice blockId offset data => do
    if blockId.toNat < sb.dataBlockStart ∨ blockId.toNat ≥ sb.blockCount then
      throw (.blockOutOfRange blockId.toNat)
    let start := blockId.toNat * sb.blockSize
    if start + sb.blockSize > image.len then throw (.blockOutOfRange blockId.toNat)
    if offset.toNat + data.length > sb.blockSize then throw (.blockOutOfRange blockId.toNat)
    return image.write (start + offset.toNat) data

end Oifs
