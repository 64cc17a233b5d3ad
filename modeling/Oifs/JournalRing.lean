import Oifs.CircularLog
import Oifs.Frame
import Oifs.SuperBlock

namespace Oifs

open LittleEndian

/-- The errors of the journal. `panicked` stands for a slice index out of range. -/
inductive JournalError where
  | badMagic
  | regionTooSmall (needed available : Nat)
  | transactionTooLarge (len ring : Nat)
  | blockOutOfRange (blockId : Nat)
  | panicked
  deriving DecidableEq

def journalHeaderMagic : UInt32 := 0x4A524E4C

def journalFormatVersion : UInt32 := 1

def journalHeaderLen : Nat := 40

/-- `journal_ring_bytes`; the product wraps. -/
def journalRingBytes (blockSize : Nat) : Nat := journalRingBlocks * blockSize % 2 ^ 64

/-- The persistent ring state. The cursors are `u64` byte offsets into the record ring. -/
structure JournalState where
  head : Nat
  tail : Nat
  txSeq : UInt64
  cleanlyUnmounted : Bool
  deriving DecidableEq

namespace JournalState

def encode (s : JournalState) : List UInt8 :=
  u32 journalHeaderMagic ++ (u32 journalFormatVersion ++ (u32 (UInt32.ofNat journalRingBlocks) ++
    (u64 (UInt64.ofNat s.head) ++ (u64 (UInt64.ofNat s.tail) ++ (u64 s.txSeq ++
      [boolByte s.cleanlyUnmounted, 0, 0, 0])))))

def decode (bytes : List UInt8) : Option JournalState :=
  if bytes.length < journalHeaderLen then none
  else if readU32 (bytesAt bytes 0 4) ≠ journalHeaderMagic then none
  else if readU32 (bytesAt bytes 4 4) ≠ journalFormatVersion then none
  else if (readU32 (bytesAt bytes 8 4)).toNat ≠ journalRingBlocks then none
  else some {
    head := (readU64 (bytesAt bytes 12 8)).toNat
    tail := (readU64 (bytesAt bytes 20 8)).toNat
    txSeq := readU64 (bytesAt bytes 28 8)
    cleanlyUnmounted := bytes.getD 36 0 != 0 }

@[simp] theorem encode_length (s : JournalState) : s.encode.length = journalHeaderLen := by
  simp [encode, journalHeaderLen]

theorem decode_encode {s : JournalState} (rest : List UInt8) (hh : s.head < 2 ^ 64)
    (ht : s.tail < 2 ^ 64) : decode (s.encode ++ rest) = some s := by
  have hlen : ¬(s.encode ++ rest).length < journalHeaderLen := by simp
  have hmagic : bytesAt (s.encode ++ rest) 0 4 = u32 journalHeaderMagic := rfl
  have hver : bytesAt (s.encode ++ rest) 4 4 = u32 journalFormatVersion := rfl
  have hblocks : bytesAt (s.encode ++ rest) 8 4 = u32 (UInt32.ofNat journalRingBlocks) := rfl
  have hhead : bytesAt (s.encode ++ rest) 12 8 = u64 (UInt64.ofNat s.head) := rfl
  have htail : bytesAt (s.encode ++ rest) 20 8 = u64 (UInt64.ofNat s.tail) := rfl
  have hseq : bytesAt (s.encode ++ rest) 28 8 = u64 s.txSeq := rfl
  have hflag : (s.encode ++ rest)[36]? = some (boolByte s.cleanlyUnmounted) := rfl
  generalize s.encode ++ rest = bytes at *
  have hring : (UInt32.ofNat journalRingBlocks).toNat = journalRingBlocks := rfl
  simp [-Nat.not_lt, decode, hlen, hmagic, hver, hblocks, hring, hhead, htail, hseq, hflag,
    Nat.mod_eq_of_lt (show s.head < 18446744073709551616 from hh),
    Nat.mod_eq_of_lt (show s.tail < 18446744073709551616 from ht)]

end JournalState

/-- A view over the journal region: a header block, then the record ring. -/
structure JournalRing where
  region : ByteStore
  blockSize : Nat
  ringBytes : Nat
  state : JournalState
  lastWrite : Option (Nat × Nat)

namespace JournalRing

/-- `JournalRing::open`. -/
def attach (region : ByteStore) (blockSize : Nat) : Except JournalError JournalRing :=
  if region.len < blockSize then .error (.regionTooSmall blockSize region.len)
  else
    match JournalState.decode (region.read 0 blockSize) with
    | none => .error .badMagic
    | some state =>
      let ringBytes := journalRingBytes blockSize
      if 2 ^ 64 ≤ blockSize + ringBytes then .error (.regionTooSmall (2 ^ 64 - 1) region.len)
      else if region.len < blockSize + ringBytes then
        .error (.regionTooSmall (blockSize + ringBytes) region.len)
      else .ok ⟨region, blockSize, ringBytes, state, none⟩

def create (region : ByteStore) (blockSize : Nat) : Except JournalError JournalRing :=
  let ringBytes := journalRingBytes blockSize
  if 2 ^ 64 ≤ blockSize + ringBytes then .error (.regionTooSmall (2 ^ 64 - 1) region.len)
  else if region.len < blockSize + ringBytes then
    .error (.regionTooSmall (blockSize + ringBytes) region.len)
  -- the header does not fit its block
  else if blockSize < journalHeaderLen then .error .panicked
  else
    let state : JournalState := ⟨0, 0, 0, false⟩
    .ok ⟨(region.fill 0).write 0 state.encode, blockSize, ringBytes, state, none⟩

def frameAt (r : JournalRing) (off : Nat) : Option (Transaction × Nat) :=
  decodeFrame (r.region.read (r.blockSize + off) (r.ringBytes - off))

def setHead (r : JournalRing) (head : Nat) : JournalRing :=
  { r with state := { r.state with head := head } }

def setTail (r : JournalRing) (tail : Nat) : JournalRing :=
  { r with state := { r.state with tail := tail } }

/-- `used`, in `u64` arithmetic that wraps. -/
def used (r : JournalRing) : Nat :=
  (r.state.head + r.ringBytes + 2 ^ 64 - r.state.tail) % 2 ^ 64 % r.ringBytes

def persist (r : JournalRing) : JournalRing :=
  if r.blockSize ≥ journalHeaderLen then { r with region := r.region.write 0 r.state.encode } else r

@[simp] theorem persist_state (r : JournalRing) : r.persist.state = r.state := by
  unfold persist
  split <;> rfl

@[simp] theorem persist_ringBytes (r : JournalRing) : r.persist.ringBytes = r.ringBytes := by
  unfold persist
  split <;> rfl

@[simp] theorem persist_blockSize (r : JournalRing) : r.persist.blockSize = r.blockSize := by
  unfold persist
  split <;> rfl

@[simp] theorem persist_region_len (r : JournalRing) : r.persist.region.len = r.region.len := by
  unfold persist
  split <;> rfl

/-- A frame that would cross the end of the ring starts at zero. -/
def wrap (r : JournalRing) (len : Nat) : JournalRing :=
  if r.state.head + len > r.ringBytes then r.setHead 0 else r

/-- The cursors before the frame is stored: the tail gives way to a frame that would overwrite it.
-/
def place (r : JournalRing) (len : Nat) : JournalRing :=
  let r := r.wrap len
  if r.used + len > r.ringBytes then r.setTail r.state.head else r

def store (r : JournalRing) (txSeq : UInt64) (frame : List UInt8) : JournalRing :=
  { r with
    region := r.region.write (r.blockSize + r.state.head) frame
    lastWrite := some (r.state.head, r.state.head + frame.length)
    state := { r.state with
      head := (r.state.head + frame.length) % r.ringBytes
      txSeq := txSeq
      cleanlyUnmounted := false } }

@[simp] theorem store_blockSize (r : JournalRing) (txSeq : UInt64) (frame : List UInt8) :
    (r.store txSeq frame).blockSize = r.blockSize := rfl

@[simp] theorem store_ringBytes (r : JournalRing) (txSeq : UInt64) (frame : List UInt8) :
    (r.store txSeq frame).ringBytes = r.ringBytes := rfl

@[simp] theorem store_region (r : JournalRing) (txSeq : UInt64) (frame : List UInt8) :
    (r.store txSeq frame).region = r.region.write (r.blockSize + r.state.head) frame := rfl

@[simp] theorem store_tail (r : JournalRing) (txSeq : UInt64) (frame : List UInt8) :
    (r.store txSeq frame).state.tail = r.state.tail := rfl

@[simp] theorem store_head (r : JournalRing) (txSeq : UInt64) (frame : List UInt8) :
    (r.store txSeq frame).state.head = (r.state.head + frame.length) % r.ringBytes := rfl

def append (rs : RunSort) (r : JournalRing) (ops : List MetadataOp) :
    Except JournalError (UInt64 × JournalRing) :=
  let txSeq := r.state.txSeq + 1
  let frame := encodeFrame rs txSeq ops
  if frame.length > r.ringBytes then .error (.transactionTooLarge frame.length r.ringBytes)
  else .ok (txSeq, ((r.place frame.length).store txSeq frame).persist)

def recoverLoop {σ : Type} (r : JournalRing) (apply : σ → MetadataOp → Except JournalError σ)
    (targetHead cursor bytesTraversed replayed : Nat) (s : σ) : Except JournalError (σ × Nat) :=
  if cursor ≠ targetHead ∧ bytesTraversed < r.ringBytes then
    if cursor ≥ r.ringBytes then .ok (s, replayed)
    else
      match r.frameAt cursor with
      | none => .ok (s, replayed)
      | some (tx, total) =>
        if total = 0 then .ok (s, replayed)
        else
          match tx.ops.foldlM apply s with
          | .error e => .error e
          | .ok s' =>
            recoverLoop r apply targetHead ((cursor + total) % r.ringBytes) (bytesTraversed + total)
              (replayed + 1) s'
  else .ok (s, replayed)
termination_by r.ringBytes - bytesTraversed

def markCleanShutdown (r : JournalRing) : JournalRing :=
  persist { r with state := { r.state with head := 0, tail := 0, cleanlyUnmounted := true } }

def recover {σ : Type} (r : JournalRing) (apply : σ → MetadataOp → Except JournalError σ) (s : σ) :
    Except JournalError (σ × JournalRing × Nat) :=
  if r.ringBytes = 0 then .ok (s, r.markCleanShutdown, 0)
  else
    match recoverLoop r apply (r.state.head % r.ringBytes) (r.state.tail % r.ringBytes) 0 0 s with
    | .error e => .error e
    | .ok (s', replayed) => .ok (s', r.markCleanShutdown, replayed)

def checkpointTo (r : JournalRing) (cursor : Nat) : JournalRing :=
  if r.ringBytes = 0 then r
  else
    let head := r.state.head % r.ringBytes
    let tail := r.state.tail % r.ringBytes
    let target := cursor % r.ringBytes
    if target = tail then r
    else
      let distToHead := fun a => (head + r.ringBytes - a % r.ringBytes) % r.ringBytes
      if distToHead target ≤ distToHead tail then
        (r.setTail target).persist
      else r

def checkpoint (r : JournalRing) : JournalRing := r.checkpointTo r.state.head

end JournalRing

end Oifs
