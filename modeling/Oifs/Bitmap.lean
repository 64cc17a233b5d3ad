import Oifs.BitStore

namespace Oifs

open ByteStore

/-! The bitmap operations on a slice of bytes. -/

namespace Bitmap

/-- `get`; past the end a bit reads as clear. -/
def get (d : ByteStore) (index : Nat) : Bool := decide (index / 8 < d.len) && d.bit index

def put (v : Bool) (d : ByteStore) (index : Nat) : ByteStore :=
  if index / 8 < d.len then d.modify (index / 8) (putMask v · (1 <<< UInt8.ofNat (index % 8)))
  else d

def set (d : ByteStore) (index : Nat) : ByteStore := put true d index

def clear (d : ByteStore) (index : Nat) : ByteStore := put false d index

def putHead (v : Bool) (d : ByteStore) (bit : Nat) : ByteStore :=
  if bit % 8 ≠ 0 then d.modify (bit / 8) (putMask v · (255 <<< UInt8.ofNat (bit % 8))) else d

def putTail (v : Bool) (d : ByteStore) (bit : Nat) : ByteStore :=
  if bit % 8 ≠ 0 ∧ bit / 8 < d.len then
    d.modify (bit / 8) (putMask v · ((1 <<< UInt8.ofNat (bit % 8)) - 1))
  else d

/-- `set_range` and `clear_range`: the bits of the first byte, whole bytes, the bits of the last. -/
def putRange (v : Bool) (d : ByteStore) (startBit count : Nat) : ByteStore :=
  let endBit := min (startBit + count) (d.len * 8)
  if startBit ≥ endBit then d
  else
    let startByte := startBit / 8
    let endByte := endBit / 8
    if startByte = endByte then
      d.modify startByte (putMask v · (rangeMask (endBit - startBit) (startBit % 8)))
    else
      let midStart := if startBit % 8 ≠ 0 then startByte + 1 else startByte
      putTail v ((putHead v d startBit).fillRange midStart endByte (if v then 255 else 0)) endBit

def setRange (d : ByteStore) (startBit count : Nat) : ByteStore := putRange true d startBit count

def clearRange (d : ByteStore) (startBit count : Nat) : ByteStore := putRange false d startBit count

@[simp] theorem put_len (v : Bool) (d : ByteStore) (index : Nat) : (put v d index).len = d.len := by
  unfold put
  split <;> rfl

@[simp] theorem putHead_len (v : Bool) (d : ByteStore) (bit : Nat) :
    (putHead v d bit).len = d.len := by
  unfold putHead
  split <;> rfl

@[simp] theorem putTail_len (v : Bool) (d : ByteStore) (bit : Nat) :
    (putTail v d bit).len = d.len := by
  unfold putTail
  split <;> rfl

@[simp] theorem putRange_len (v : Bool) (d : ByteStore) (startBit count : Nat) :
    (putRange v d startBit count).len = d.len := by
  unfold putRange
  dsimp only
  split
  next => rfl
  next =>
    split
    next => rfl
    next => rw [putTail_len, fillRange_len, putHead_len]

theorem one_shift_eq (k : Nat) : (1 : UInt8) <<< UInt8.ofNat k = rangeMask 1 k := rfl

theorem all_shift_eq (k : Nat) : (255 : UInt8) <<< UInt8.ofNat k = rangeMask 8 k := rfl

theorem low_mask_eq {k : Nat} (h : k < 8) :
    ((1 : UInt8) <<< UInt8.ofNat k) - 1 = rangeMask k 0 := by
  revert k
  decide

theorem bit_put (v : Bool) (d : ByteStore) {index : Nat} (h : index / 8 < d.len) (j : Nat) :
    (put v d index).bit j = if j = index then v else d.bit j := by
  have hr : index % 8 < 8 := Nat.mod_lt _ (by decide)
  have hj : j % 8 < 8 := Nat.mod_lt _ (by decide)
  rw [put, if_pos h, bit_modify_putMask, one_shift_eq, testBit_rangeMask (by decide) hr hj]
  congr 1
  simp only [decide_eq_true_eq, eq_iff_iff]
  omega

theorem bit_putHead (v : Bool) (d : ByteStore) (bit j : Nat) :
    (putHead v d bit).bit j = if bit % 8 ≠ 0 ∧ j / 8 = bit / 8 ∧ bit ≤ j then v else d.bit j := by
  have hj : j % 8 < 8 := Nat.mod_lt _ (by decide)
  have hb : bit % 8 < 8 := Nat.mod_lt _ (by decide)
  unfold putHead
  split
  next hne =>
    rw [bit_modify_putMask, all_shift_eq, testBit_rangeMask (by decide) hb hj]
    congr 1
    simp only [decide_eq_true_eq, eq_iff_iff]
    omega
  next heq => rw [if_neg (fun h => heq h.1)]

theorem bit_putTail (v : Bool) (d : ByteStore) (bit j : Nat) (h : bit ≤ d.len * 8) :
    (putTail v d bit).bit j = if j / 8 = bit / 8 ∧ j < bit then v else d.bit j := by
  have hj : j % 8 < 8 := Nat.mod_lt _ (by decide)
  have hb : bit % 8 < 8 := Nat.mod_lt _ (by decide)
  unfold putTail
  split
  next hne =>
    rw [bit_modify_putMask, low_mask_eq hb, testBit_rangeMask (by omega) (by decide) hj]
    congr 1
    simp only [decide_eq_true_eq, eq_iff_iff]
    omega
  next heq => rw [if_neg (by omega)]

theorem bit_putRange (v : Bool) (d : ByteStore) (startBit count j : Nat) :
    (putRange v d startBit count).bit j =
      if startBit ≤ j ∧ j < startBit + count ∧ j < d.len * 8 then v else d.bit j := by
  have hj : j % 8 < 8 := Nat.mod_lt _ (by decide)
  have hs : startBit % 8 < 8 := Nat.mod_lt _ (by decide)
  unfold putRange
  dsimp only
  generalize hend : min (startBit + count) (d.len * 8) = endBit
  split
  next hge => rw [if_neg (by omega)]
  next hlt =>
    split
    next hsame =>
      rw [bit_modify_putMask, testBit_rangeMask (by omega) hs hj]
      congr 1
      simp only [decide_eq_true_eq, eq_iff_iff]
      omega
    next hdiff =>
      rw [bit_putTail _ _ _ _ (by rw [fillRange_len, putHead_len]; omega), bit_fillRange,
        bit_putHead]
      by_cases hin : startBit ≤ j ∧ j < startBit + count ∧ j < d.len * 8
      · rw [if_pos hin]
        by_cases htail : j / 8 = endBit / 8 ∧ j < endBit
        · rw [if_pos htail]
        · rw [if_neg htail]
          by_cases hhead : startBit % 8 ≠ 0 ∧ j / 8 = startBit / 8
          · rw [if_neg (by rw [if_pos hhead.1]; omega), if_pos (by omega)]
          · rw [if_pos (by split <;> omega)]
      · rw [if_neg hin, if_neg (by omega), if_neg (by split <;> omega), if_neg (by omega)]

end Bitmap

end Oifs
