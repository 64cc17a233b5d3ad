import Mathlib.Data.List.Range
import Mathlib.Data.Nat.Bitwise
import Oifs.BitStore

/-! Words of bits, scanned from the low end. -/

namespace BitScan

variable {w : Nat} {σ : Type*}

def lowestClear (x : BitVec w) : Option Nat :=
  if x = BitVec.allOnes w then none else some (~~~x).ctz.toNat

def lowMask (w k : Nat) : BitVec w := (1#w <<< k) - 1#w

theorem eq_of_lowest {n t : Nat} (hset : n.testBit t = true)
    (hlow : ∀ j, j < t → n.testBit j = false) : n = 2 ^ (t + 1) * (n / 2 ^ (t + 1)) + 2 ^ t := by
  have hmod : n % 2 ^ (t + 1) = 2 ^ t := by
    apply Nat.eq_of_testBit_eq
    intro j
    rw [Nat.testBit_mod_two_pow, Nat.testBit_two_pow]
    rcases Nat.lt_trichotomy j t with hlt | rfl | hgt
    · simp [hlow j hlt, Nat.ne_of_gt hlt]
    · simp [hset]
    · have hout : ¬j < t + 1 := by omega
      simp [hout, Nat.ne_of_lt hgt]
  have hdiv := Nat.div_add_mod n (2 ^ (t + 1))
  omega

theorem testBit_pred {n t : Nat} (hset : n.testBit t = true)
    (hlow : ∀ j, j < t → n.testBit j = false) {j : Nat} (hj : t ≤ j) :
    (n - 1).testBit j = (n.testBit j && decide (j ≠ t)) := by
  have hsplit := eq_of_lowest hset hlow
  generalize n / 2 ^ (t + 1) = q at hsplit
  have hpos := Nat.two_pow_pos t
  have hpow : 2 ^ (t + 1) = 2 ^ t * 2 := Nat.pow_succ 2 t
  have hpred : n - 1 = 2 ^ (t + 1) * q + (2 ^ t - 1) := by omega
  rw [hpred, Nat.testBit_two_pow_mul_add q (by omega)]
  by_cases heq : j = t
  · rw [if_pos (by omega), Nat.testBit_two_pow_sub_one]
    simp [heq]
  · rw [hsplit, Nat.testBit_two_pow_mul_add q (by omega), if_neg (by omega), if_neg (by omega)]
    simp [heq]

theorem toNat_pred {x : BitVec w} (hx : x ≠ 0) : (x - 1).toNat = x.toNat - 1 := by
  have hpos : x.toNat ≠ 0 := fun hzero => hx (BitVec.eq_of_toNat_eq (by simpa using hzero))
  have hlt := x.isLt
  have hone : (1 : BitVec w).toNat = 1 := by
    simp [Nat.mod_eq_of_lt (show 1 < 2 ^ w by omega)]
  rw [BitVec.toNat_sub, hone, show 2 ^ w - 1 + x.toNat = x.toNat - 1 + 2 ^ w by omega,
    Nat.add_mod_right, Nat.mod_eq_of_lt (by omega)]

theorem getLsbD_clear_lowest {x : BitVec w} (hx : x ≠ 0) (j : Nat) :
    (x &&& (x - 1)).getLsbD j = (x.getLsbD j && decide (j ≠ x.ctz.toNat)) := by
  have hset : x.toNat.testBit x.ctz.toNat = true := BitVec.getLsbD_true_ctz_of_ne_zero hx
  have hlow : ∀ k, k < x.ctz.toNat → x.toNat.testBit k = false := fun k hk =>
    BitVec.getLsbD_false_of_lt_ctz hk
  rw [BitVec.getLsbD_and]
  unfold BitVec.getLsbD
  rw [toNat_pred hx]
  by_cases hj : j < x.ctz.toNat
  · rw [hlow j hj]
    rfl
  · rw [testBit_pred hset hlow (Nat.not_lt.mp hj), ← Bool.and_assoc, Bool.and_self]

theorem toNat_clear_lowest_lt {x : BitVec w} (hx : x ≠ 0) : (x &&& (x - 1)).toNat < x.toNat := by
  have hle : (x &&& (x - 1)).toNat ≤ x.toNat := by
    rw [BitVec.toNat_and]
    exact Nat.and_le_left
  apply Nat.lt_of_le_of_ne hle
  intro heq
  have hbit := getLsbD_clear_lowest hx x.ctz.toNat
  rw [BitVec.eq_of_toNat_eq heq, BitVec.getLsbD_true_ctz_of_ne_zero hx] at hbit
  simp at hbit

def visit (f : σ → Nat → σ) (x : BitVec w) (s : σ) : σ :=
  if hx : x = 0 then s else visit f (x &&& (x - 1)) (f s x.ctz.toNat)
termination_by x.toNat
decreasing_by exact toNat_clear_lowest_lt hx

theorem lowestClear_eq (x : BitVec w) :
    lowestClear x = (List.range w).find? fun j => !x.getLsbD j := by
  unfold lowestClear
  split
  next hall =>
    symm
    rw [List.find?_eq_none]
    intro j hj
    simp [hall, List.mem_range.mp hj]
  next hne =>
    have hx : ~~~x ≠ 0 := fun hzero => hne (by rw [← BitVec.not_not (b := x), hzero]; simp)
    have hset := BitVec.getLsbD_true_ctz_of_ne_zero hx
    have hlt := BitVec.lt_of_getLsbD hset
    symm
    rw [List.find?_range_eq_some, List.mem_range]
    refine ⟨by simpa [hlt] using hset, hlt, fun j hj => ?_⟩
    have hlow := BitVec.getLsbD_false_of_lt_ctz hj
    simpa [Nat.lt_trans hj hlt] using hlow

theorem filter_clear_lowest {x : BitVec w} (hx : x ≠ 0) :
    (List.range w).filter x.getLsbD =
      x.ctz.toNat :: (List.range w).filter (x &&& (x - 1)).getLsbD := by
  have hset := BitVec.getLsbD_true_ctz_of_ne_zero hx
  have hlt := BitVec.lt_of_getLsbD hset
  have hlow : ∀ k, k < x.ctz.toNat → x.getLsbD k = false := fun k hk =>
    BitVec.getLsbD_false_of_lt_ctz hk
  have hrest := getLsbD_clear_lowest hx
  generalize x.ctz.toNat = t at hset hlt hlow hrest ⊢
  have hsplit : List.range w = List.range t ++ t :: List.range' (t + 1) (w - (t + 1)) := by
    rw [List.range_eq_range', List.range_eq_range', ← List.range'_succ]
    have happend := List.range'_append_1 (s := 0) (m := t) (n := w - (t + 1) + 1)
    rw [Nat.zero_add] at happend
    rw [happend]
    congr 1
    omega
  have hbelow : ∀ y : BitVec w, (∀ k, k < t → y.getLsbD k = false) →
      (List.range t).filter y.getLsbD = [] := fun y hy =>
    List.filter_eq_nil_iff.mpr fun k hk => by simp [hy k (List.mem_range.mp hk)]
  have habove : (List.range' (t + 1) (w - (t + 1))).filter (x &&& (x - 1)).getLsbD =
      (List.range' (t + 1) (w - (t + 1))).filter x.getLsbD := by
    apply List.filter_congr
    intro k hk
    have hge := (List.mem_range'_1.mp hk).1
    rw [hrest]
    simp [show k ≠ t by omega]
  rw [hsplit, List.filter_append, List.filter_append, hbelow x hlow,
    hbelow _ fun k hk => by rw [hrest, hlow k hk, Bool.false_and], List.filter_cons_of_pos hset,
    List.filter_cons_of_neg (by rw [hrest]; simp), habove]
  rfl

theorem visit_eq (f : σ → Nat → σ) (x : BitVec w) (s : σ) :
    visit f x s = ((List.range w).filter x.getLsbD).foldl f s := by
  fun_induction visit f x s with
  | case1 s =>
    have hnone : (List.range w).filter (0#w).getLsbD = [] := by simp [List.filter_eq_nil_iff]
    exact (congrArg (List.foldl f s) hnone).symm
  | case2 x s hx ih => rw [ih, filter_clear_lowest hx, List.foldl_cons]

theorem getLsbD_lowMask {k j : Nat} (hk : k < w) : (lowMask w k).getLsbD j = decide (j < k) := by
  have hpow : 2 ^ k < 2 ^ w := Nat.pow_lt_pow_right (by decide) hk
  have hpos := Nat.two_pow_pos k
  have hone : (1#w).toNat = 1 := by simp [Nat.mod_eq_of_lt (show 1 < 2 ^ w by omega)]
  have hshift : (1#w <<< k).toNat = 2 ^ k := by
    rw [BitVec.toNat_shiftLeft, hone, Nat.one_shiftLeft, Nat.mod_eq_of_lt hpow]
  have hmask : (lowMask w k).toNat = 2 ^ k - 1 := by
    rw [lowMask, BitVec.toNat_sub, hone, hshift,
      show 2 ^ w - 1 + 2 ^ k = 2 ^ k - 1 + 2 ^ w by omega, Nat.add_mod_right,
      Nat.mod_eq_of_lt (by omega)]
  rw [BitVec.getLsbD, hmask, Nat.testBit_two_pow_sub_one]

theorem and_bit_beq_zero (x : BitVec w) {k : Nat} (hk : k < w) :
    ((x &&& 1#w <<< k) == 0) = !x.getLsbD k := by
  have hmask := BitVec.and_twoPow x k
  unfold BitVec.twoPow at hmask
  rw [hmask]
  cases x.getLsbD k with
  | false => simp
  | true =>
    have hne : (1#w <<< k) ≠ 0#w := by
      intro hzero
      have hbit := congrArg (fun y : BitVec w => y.getLsbD k) hzero
      simp [hk] at hbit
    simpa using hne

/-! Indices in stretches of one length. -/

theorem countP_range_succ (p : Nat → Bool) (n : Nat) :
    (List.range (n + 1)).countP p = (List.range n).countP p + if p n then 1 else 0 := by
  rw [List.range_succ, List.countP_append, List.countP_singleton]

theorem cpopNatRec_eq (x : BitVec w) (n acc : Nat) :
    x.cpopNatRec n acc = acc + (List.range n).countP x.getLsbD := by
  induction n generalizing acc with
  | zero => rfl
  | succ n ih =>
    rw [BitVec.cpopNatRec_succ, ih, countP_range_succ]
    cases x.getLsbD n with
    | true => rw [if_pos rfl, Bool.toNat_true, Nat.add_assoc, Nat.add_comm 1]
    | false => rw [if_neg (by decide), Bool.toNat_false, Nat.add_zero, Nat.add_zero]

theorem cpop_eq (x : BitVec w) : x.cpop.toNat = (List.range w).countP x.getLsbD := by
  rw [BitVec.toNat_cpop, cpopNatRec_eq, Nat.zero_add]

section Stretches

variable {p : Nat → Bool}

theorem find?_range'_or {a b c : Nat} (hab : a ≤ b) (hbc : b ≤ c) :
    ((List.range' a (b - a)).find? p).or ((List.range' b (c - b)).find? p) =
      (List.range' a (c - a)).find? p := by
  rw [← List.find?_append]
  have happend := List.range'_append_1 (s := a) (m := b - a) (n := c - b)
  rw [Nat.add_sub_cancel' hab] at happend
  rw [happend, show b - a + (c - b) = c - a by omega]

theorem findSome?_congr {α : Type*} {f g : Nat → Option α} {l : List Nat}
    (h : ∀ i ∈ l, f i = g i) : l.findSome? f = l.findSome? g := by
  induction l with
  | nil => rfl
  | cons a l ih =>
    rw [List.findSome?_cons, List.findSome?_cons, h a List.mem_cons_self,
      ih fun i hi => h i (List.mem_cons_of_mem a hi)]

theorem findSome?_stretches (base a n : Nat) :
    ((List.range' a n).findSome? fun c => (List.range' (base + c * w) w).find? p) =
      (List.range' (base + a * w) (n * w)).find? p := by
  induction n generalizing a with
  | zero => simp
  | succ n ih =>
    have hnext : base + (a + 1) * w = base + a * w + w := by rw [Nat.succ_mul]; omega
    rw [List.range'_succ, List.findSome?_cons, ih, hnext, Nat.succ_mul, Nat.add_comm (n * w),
      ← List.range'_append_1, List.find?_append]
    cases (List.range' (base + a * w) w).find? p <;> rfl

theorem foldl_stretches (f : σ → Nat → σ) (base n : Nat) (s : σ) :
    ((List.range n).foldl (fun s c => ((List.range' (base + c * w) w).filter p).foldl f s) s) =
      ((List.range' base (n * w)).filter p).foldl f s := by
  induction n with
  | zero => simp
  | succ n ih =>
    rw [List.range_succ, List.foldl_append, ih, Nat.succ_mul, ← List.range'_append_1,
      List.filter_append, List.foldl_append]
    rfl

theorem lowestClear_stretch {x : BitVec w} {base : Nat}
    (hx : ∀ j, j < w → x.getLsbD j = p (base + j)) :
    (lowestClear x).map (base + ·) = (List.range' base w).find? fun i => !p i := by
  rw [lowestClear_eq, List.range'_eq_map_range, List.find?_map, ← List.head?_filter,
    ← List.head?_filter]
  congr 2
  apply List.filter_congr
  intro j hj
  exact congrArg _ (hx j (List.mem_range.mp hj))

theorem visit_stretch {x : BitVec w} {base : Nat}
    (hx : ∀ j, j < w → x.getLsbD j = p (base + j)) (f : σ → Nat → σ) (s : σ) :
    visit (fun s j => f s (base + j)) x s = ((List.range' base w).filter p).foldl f s := by
  rw [visit_eq, List.range'_eq_map_range, List.filter_map, List.foldl_map]
  congr 1
  apply List.filter_congr
  intro j hj
  exact hx j (List.mem_range.mp hj)

end Stretches

end BitScan

namespace LittleEndian

theorem testBit_decode (l : List UInt8) (j : Nat) :
    (decode l).testBit j = ((l[j / 8]?).getD 0).toNat.testBit (j % 8) := by
  induction l generalizing j with
  | nil => simp [decode]
  | cons b bs ih =>
    have hb : b.toNat < 2 ^ 8 := b.toNat_lt
    rw [decode, Nat.add_comm, show (256 : Nat) = 2 ^ 8 from rfl, Nat.testBit_two_pow_mul_add _ hb]
    split
    next hlow => simp [Nat.div_eq_of_lt hlow, Nat.mod_eq_of_lt hlow]
    next hhigh =>
      obtain ⟨k, rfl⟩ := Nat.exists_eq_add_of_le (Nat.not_lt.mp hhigh)
      rw [Nat.add_sub_cancel_left, ih, show (8 + k) / 8 = k / 8 + 1 by omega, Nat.add_mod_left]
      rfl

end LittleEndian

namespace ByteStore

def word (s : ByteStore) (c : Nat) : BitVec 64 :=
  BitVec.ofNat 64 (LittleEndian.decode (s.read (8 * c) 8))

theorem getLsbD_word (s : ByteStore) (c : Nat) {j : Nat} (hj : j < 64) :
    (s.word c).getLsbD j = s.bit (c * 64 + j) := by
  have hread : (s.read (8 * c) 8)[j / 8]? = some (s.byte (8 * c + j / 8)) := by
    simp [read, show j / 8 < 8 by omega]
  rw [word, BitVec.getLsbD_ofNat, decide_eq_true hj, Bool.true_and, LittleEndian.testBit_decode,
    hread, bit, show (c * 64 + j) / 8 = 8 * c + j / 8 by omega,
    show (c * 64 + j) % 8 = j % 8 by omega]
  rfl

theorem getLsbD_byte (s : ByteStore) (i : Nat) {j : Nat} (hj : j < 8) :
    (s.byte i).toBitVec.getLsbD j = s.bit (i * 8 + j) := by
  rw [bit, show (i * 8 + j) / 8 = i by omega, show (i * 8 + j) % 8 = j by omega]
  rfl

end ByteStore
