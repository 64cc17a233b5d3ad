import Oifs.Bytes

/-! Bits and parts of a byte store. -/

namespace ByteStore

def bit (s : ByteStore) (i : Nat) : Bool := (s.byte (i / 8)).toNat.testBit (i % 8)

def sub (s : ByteStore) (start n : Nat) : ByteStore where
  len := min n s.len
  byte i := s.byte (start + i)
  len_lt := Nat.lt_of_le_of_lt (Nat.min_le_right _ _) s.len_lt

def overlay (s : ByteStore) (start : Nat) (t : ByteStore) : ByteStore :=
  { s with byte := fun i => if start ≤ i ∧ i < start + t.len then t.byte (i - start) else s.byte i }

def modify (s : ByteStore) (i : Nat) (f : UInt8 → UInt8) : ByteStore :=
  { s with byte := fun j => if j = i then f (s.byte i) else s.byte j }

def fillRange (s : ByteStore) (a b : Nat) (v : UInt8) : ByteStore :=
  { s with byte := fun j => if a ≤ j ∧ j < b then v else s.byte j }

theorem sub_len {s : ByteStore} {start n : Nat} (h : n ≤ s.len) : (s.sub start n).len = n :=
  Nat.min_eq_left h

@[simp] theorem sub_byte (s : ByteStore) (start n i : Nat) :
    (s.sub start n).byte i = s.byte (start + i) := rfl

@[simp] theorem overlay_len (s : ByteStore) (start : Nat) (t : ByteStore) :
    (s.overlay start t).len = s.len := rfl

@[simp] theorem fillRange_len (s : ByteStore) (a b : Nat) (v : UInt8) :
    (s.fillRange a b v).len = s.len := rfl

theorem overlay_byte_in {s t : ByteStore} {start i : Nat} (h : i < t.len) :
    (s.overlay start t).byte (start + i) = t.byte i := by
  simp [overlay, h]

theorem overlay_byte_out {s t : ByteStore} {start i : Nat}
    (h : i < start ∨ start + t.len ≤ i) : (s.overlay start t).byte i = s.byte i := by
  simp only [overlay]
  rw [if_neg (by omega)]

theorem sub_overlay {s t : ByteStore} {start : Nat} (h : t.len ≤ s.len)
    (htail : ∀ i, t.len ≤ i → t.byte i = s.byte (start + i)) :
    (s.overlay start t).sub start t.len = t := by
  apply ext_byte
  · exact sub_len h
  · intro i
    by_cases hi : i < t.len
    · exact overlay_byte_in hi
    · rw [sub_byte, overlay_byte_out (by omega), htail i (Nat.not_lt.mp hi)]

theorem overlay_sub {s : ByteStore} {start n : Nat} : s.overlay start (s.sub start n) = s := by
  refine ext_byte (overlay_len ..) fun i => ?_
  simp only [overlay]
  split
  next h => rw [sub_byte, Nat.add_sub_cancel' h.1]
  next => rfl

theorem overlay_sub_write {s : ByteStore} {start n off : Nat} {data : List UInt8} (h : n ≤ s.len)
    (hd : off + data.length ≤ n) :
    s.overlay start ((s.sub start n).write off data) = s.write (start + off) data := by
  have hlen : ((s.sub start n).write off data).len = n := by
    rw [write_len]
    exact sub_len h
  refine ext_byte (overlay_len ..) fun i => ?_
  by_cases hin : start ≤ i ∧ i < start + n
  · obtain ⟨j, rfl⟩ := Nat.exists_eq_add_of_le hin.1
    rw [overlay_byte_in (by omega)]
    by_cases hj : off ≤ j ∧ j < off + data.length
    · obtain ⟨k, rfl⟩ := Nat.exists_eq_add_of_le hj.1
      have hk : k < data.length := by omega
      rw [write_byte_in hk, ← Nat.add_assoc, write_byte_in hk]
    · rw [write_byte_out (by omega), write_byte_out (by omega), sub_byte]
  · rw [overlay_byte_out (by omega), write_byte_out (by omega)]

def putMask (v : Bool) (b mask : UInt8) : UInt8 := if v then b ||| mask else b &&& ~~~mask

def rangeMask (n r : Nat) : UInt8 := UInt8.ofNat (2 ^ n - 1) <<< UInt8.ofNat r

theorem testBit_complement (m : UInt8) {j : Nat} (hj : j < 8) :
    (~~~m).toNat.testBit j = !m.toNat.testBit j := by
  have hlt : m.toNat < 2 ^ 8 := m.toNat_lt
  rw [UInt8.toNat_not]
  have heq : UInt8.size - 1 - m.toNat = 2 ^ 8 - (m.toNat + 1) := by
    simp only [UInt8.size]
    omega
  rw [heq, Nat.testBit_two_pow_sub_succ hlt]
  simp [hj]

theorem testBit_putMask (v : Bool) (b mask : UInt8) {j : Nat} (hj : j < 8) :
    (putMask v b mask).toNat.testBit j = if mask.toNat.testBit j then v else b.toNat.testBit j := by
  unfold putMask
  cases v with
  | true =>
    rw [if_pos rfl, UInt8.toNat_or, Nat.testBit_or]
    cases mask.toNat.testBit j <;> simp
  | false =>
    rw [if_neg (by simp), UInt8.toNat_and, Nat.testBit_and, testBit_complement mask hj]
    cases mask.toNat.testBit j <;> simp

theorem testBit_rangeMask {n r j : Nat} (hn : n ≤ 8) (hr : r < 8) (hj : j < 8) :
    (rangeMask n r).toNat.testBit j = decide (r ≤ j ∧ j < r + n) := by
  have hpow := Nat.pow_le_pow_right (show 0 < 2 by decide) hn
  have hbase : (UInt8.ofNat (2 ^ n - 1)).toNat = 2 ^ n - 1 := by
    rw [UInt8.toNat_ofNat']
    exact Nat.mod_eq_of_lt (by have hpos := Nat.two_pow_pos n; omega)
  have hshift : (UInt8.ofNat r).toNat % 8 = r := by
    rw [UInt8.toNat_ofNat']
    omega
  rw [rangeMask, UInt8.toNat_shiftLeft, hbase, hshift, Nat.testBit_mod_two_pow,
    Nat.testBit_shiftLeft, Nat.testBit_two_pow_sub_one, decide_eq_true hj, Bool.true_and]
  by_cases hle : r ≤ j
  · simp only [hle, decide_true, Bool.true_and, true_and, decide_eq_decide]
    omega
  · simp [hle]

theorem bit_modify_putMask (s : ByteStore) (i : Nat) (v : Bool) (mask : UInt8) (j : Nat) :
    (s.modify i (putMask v · mask)).bit j =
      if j / 8 = i ∧ mask.toNat.testBit (j % 8) then v else s.bit j := by
  have hj : j % 8 < 8 := Nat.mod_lt _ (by decide)
  unfold bit modify
  dsimp only
  by_cases h : j / 8 = i
  · rw [if_pos h, testBit_putMask v _ mask hj, h]
    simp
  · rw [if_neg h, if_neg (by simp [h])]

theorem bit_fillRange (s : ByteStore) (a b : Nat) (v : Bool) (j : Nat) :
    (s.fillRange a b (if v then 255 else 0)).bit j =
      if a ≤ j / 8 ∧ j / 8 < b then v else s.bit j := by
  have hj : j % 8 < 8 := Nat.mod_lt _ (by decide)
  unfold bit fillRange
  dsimp only
  split
  next =>
    cases v with
    | true =>
      rw [if_pos rfl, show (255 : UInt8).toNat = 2 ^ 8 - 1 from rfl, Nat.testBit_two_pow_sub_one]
      exact decide_eq_true hj
    | false => simp
  next => rfl

/-- `t` is `s` with bytes changed at places of `P` only. -/
def ChangesOnly (s t : ByteStore) (P : Nat → Prop) : Prop :=
  t.len = s.len ∧ ∀ i, t.byte i ≠ s.byte i → P i

theorem ChangesOnly.mono {s t : ByteStore} {P Q : Nat → Prop} (h : s.ChangesOnly t P)
    (hPQ : ∀ i, P i → Q i) : s.ChangesOnly t Q :=
  ⟨h.1, fun i hi => hPQ i (h.2 i hi)⟩

theorem ChangesOnly.refl (s : ByteStore) (P : Nat → Prop) : s.ChangesOnly s P :=
  ⟨rfl, fun _ hi => absurd rfl hi⟩

theorem ChangesOnly.trans {s t u : ByteStore} {P : Nat → Prop} (h : s.ChangesOnly t P)
    (h' : t.ChangesOnly u P) : s.ChangesOnly u P := by
  refine ⟨h'.1.trans h.1, ?_⟩
  intro i hi
  by_cases hmid : u.byte i = t.byte i
  · exact h.2 i (by rwa [← hmid])
  · exact h'.2 i hmid

theorem changesOnly_write {s : ByteStore} {start : Nat} {data : List UInt8} {P : Nat → Prop}
    (h : ∀ i, start ≤ i → i < start + data.length → P i) : s.ChangesOnly (s.write start data) P := by
  refine ⟨rfl, ?_⟩
  intro i hi
  by_contra hP
  exact hi (write_byte_out (by by_contra hin; exact hP (h i (by omega) (by omega))))

theorem changesOnly_overlay {s t : ByteStore} {start : Nat} {P : Nat → Prop}
    (h : ∀ i, start ≤ i → i < start + t.len → P i) : s.ChangesOnly (s.overlay start t) P := by
  refine ⟨rfl, ?_⟩
  intro i hi
  by_contra hP
  exact hi (overlay_byte_out (by by_contra hin; exact hP (h i (by omega) (by omega))))

end ByteStore
