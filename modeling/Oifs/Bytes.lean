import Mathlib.Tactic.Ring
import Mathlib.Data.List.Basic

/-! Little-endian integers and byte stores of a fixed length. -/

namespace LittleEndian

def encode : Nat → Nat → List UInt8
  | 0, _ => []
  | w + 1, n => UInt8.ofNat n :: encode w (n / 256)

def decode : List UInt8 → Nat
  | [] => 0
  | b :: bs => b.toNat + 256 * decode bs

@[simp] theorem encode_length (w n : Nat) : (encode w n).length = w := by
  induction w generalizing n with
  | zero => rfl
  | succ w ih => simp [encode, ih]

theorem decode_encode (w n : Nat) : decode (encode w n) = n % 256 ^ w := by
  induction w generalizing n with
  | zero => simp [encode, decode, Nat.mod_one]
  | succ w ih =>
    rw [encode, decode, ih, UInt8.toNat_ofNat', pow_succ' 256 w, Nat.mod_mul]

theorem decode_lt (l : List UInt8) : decode l < 256 ^ l.length := by
  induction l with
  | nil => simp [decode]
  | cons b bs ih =>
    have hb : b.toNat < 256 := b.toNat_lt
    rw [decode, List.length_cons, pow_succ]
    omega

theorem decode_append (a b : List UInt8) : decode (a ++ b) = decode a + 256 ^ a.length * decode b := by
  induction a with
  | nil => simp [decode]
  | cons x a ih =>
    rw [List.cons_append, decode, decode, ih, List.length_cons]
    ring

@[simp] theorem decode_replicate_zero (n : Nat) : decode (List.replicate n 0) = 0 := by
  induction n with
  | zero => rfl
  | succ n ih => simp [List.replicate_succ, decode, ih]

/-- `u64::to_le_bytes`. -/
def u64 (x : UInt64) : List UInt8 := encode 8 x.toNat

/-- `u32::to_le_bytes`. -/
def u32 (x : UInt32) : List UInt8 := encode 4 x.toNat

def readU64 (l : List UInt8) : UInt64 := UInt64.ofNat (decode l)

def readU32 (l : List UInt8) : UInt32 := UInt32.ofNat (decode l)

@[simp] theorem u64_length (x : UInt64) : (u64 x).length = 8 := encode_length 8 _

@[simp] theorem u32_length (x : UInt32) : (u32 x).length = 4 := encode_length 4 _

@[simp] theorem readU64_u64 (x : UInt64) : readU64 (u64 x) = x := by
  rw [readU64, u64, decode_encode, Nat.mod_eq_of_lt (show x.toNat < 256 ^ 8 from x.toNat_lt)]
  exact UInt64.ofNat_toNat

@[simp] theorem readU32_u32 (x : UInt32) : readU32 (u32 x) = x := by
  rw [readU32, u32, decode_encode, Nat.mod_eq_of_lt (show x.toNat < 256 ^ 4 from x.toNat_lt)]
  exact UInt32.ofNat_toNat

def bytesAt (l : List UInt8) (start n : Nat) : List UInt8 := (l.drop start).take n

theorem bytesAt_append {a b c : List UInt8} {start n : Nat} (ha : a.length = start)
    (hb : b.length = n) : bytesAt (a ++ (b ++ c)) start n = b := by
  rw [bytesAt, List.drop_left' ha, List.take_left' hb]

theorem bytesAt_append_left {a b : List UInt8} {start n : Nat} (h : start + n ≤ a.length) :
    bytesAt (a ++ b) start n = bytesAt a start n := by
  rw [bytesAt, bytesAt, List.drop_append_of_le_length (by omega),
    List.take_append_of_le_length (by rw [List.length_drop]; omega)]

end LittleEndian

/-- A byte buffer of fixed length, at most what a slice can hold. -/
structure ByteStore where
  len : Nat
  byte : Nat → UInt8
  len_lt : len < 2 ^ 63

namespace ByteStore

def read (s : ByteStore) (start n : Nat) : List UInt8 :=
  (List.range n).map fun i => s.byte (start + i)

def write (s : ByteStore) (start : Nat) (data : List UInt8) : ByteStore :=
  { s with byte := fun i => if start ≤ i then (data[i - start]?).getD (s.byte i) else s.byte i }

def fill (s : ByteStore) (b : UInt8) : ByteStore :=
  { s with byte := fun i => if i < s.len then b else s.byte i }

@[simp] theorem write_len (s : ByteStore) (start : Nat) (data : List UInt8) :
    (s.write start data).len = s.len := rfl

@[simp] theorem read_length (s : ByteStore) (start n : Nat) : (s.read start n).length = n := by
  simp [read]

theorem read_getElem? (s : ByteStore) {start n i : Nat} (h : i < n) :
    (s.read start n)[i]? = some (s.byte (start + i)) := by
  simp [read, h]

@[ext] theorem ext_byte {s t : ByteStore} (hlen : s.len = t.len) (hbyte : ∀ i, s.byte i = t.byte i) :
    s = t := by
  cases s
  cases t
  cases hlen
  cases funext hbyte
  rfl

theorem write_byte_in {s : ByteStore} {start i : Nat} {data : List UInt8} (h : i < data.length) :
    (s.write start data).byte (start + i) = data[i] := by
  simp [write, h]

theorem write_byte_out {s : ByteStore} {start i : Nat} {data : List UInt8}
    (h : i < start ∨ start + data.length ≤ i) : (s.write start data).byte i = s.byte i := by
  simp only [write]
  split
  next hle => rw [List.getElem?_eq_none (by omega), Option.getD_none]
  next => rfl

theorem read_congr {s t : ByteStore} {start n : Nat}
    (h : ∀ i, start ≤ i → i < start + n → s.byte i = t.byte i) : s.read start n = t.read start n := by
  apply List.map_congr_left
  intro i hi
  have hlt := List.mem_range.mp hi
  exact h (start + i) (by omega) (by omega)

theorem read_add (s : ByteStore) (start m n : Nat) :
    s.read start (m + n) = s.read start m ++ s.read (start + m) n := by
  simp [read, List.range_add, Nat.add_assoc]

theorem read_write_self (s : ByteStore) (start : Nat) (data : List UInt8) :
    (s.write start data).read start data.length = data := by
  apply List.ext_getElem?
  intro i
  by_cases hi : i < data.length
  · rw [read_getElem? _ hi, write_byte_in hi, List.getElem?_eq_getElem hi]
  · rw [List.getElem?_eq_none (by simp; omega), List.getElem?_eq_none (by omega)]

theorem read_write_disjoint {s : ByteStore} {start n wstart : Nat} {data : List UInt8}
    (h : start + n ≤ wstart ∨ wstart + data.length ≤ start) :
    (s.write wstart data).read start n = s.read start n := by
  apply read_congr
  intro i hlo hhi
  exact write_byte_out (by omega)

end ByteStore
