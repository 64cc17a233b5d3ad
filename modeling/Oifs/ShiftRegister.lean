import Mathlib.Algebra.CharP.Two
import Mathlib.Algebra.Field.ZMod
import Mathlib.Algebra.Polynomial.Div
import Oifs.XorLinear

/-! The division of a bit string by a polynomial over two elements, in a register whose lowest bit is the
highest coefficient. `poly` is the polynomial without its leading term. -/

open Polynomial

namespace ShiftRegister

variable {w : Nat}

section Register

variable (poly : BitVec w)

def shift (r : BitVec w) : BitVec w := if r.getLsbD 0 then (r >>> 1) ^^^ poly else r >>> 1

def bit (b : Bool) : BitVec w := if b then 1#w else 0#w

/-- One bit after another is added to the highest coefficient and shifted out. -/
def feed (r : BitVec w) (bits : List Bool) : BitVec w :=
  bits.foldl (fun r b => shift poly (r ^^^ bit b)) r

@[simp] theorem feed_nil (r : BitVec w) : feed poly r [] = r := rfl

@[simp] theorem feed_cons (r : BitVec w) (b : Bool) (bits : List Bool) :
    feed poly r (b :: bits) = feed poly (shift poly (r ^^^ bit b)) bits := rfl

theorem feed_append (r : BitVec w) (bits bits' : List Bool) :
    feed poly r (bits ++ bits') = feed poly (feed poly r bits) bits' := List.foldl_append

theorem shift_eq (r : BitVec w) :
    shift poly r = (r >>> 1) ^^^ if r.getLsbD 0 then poly else 0#w := by
  unfold shift
  cases r.getLsbD 0 <;> simp

theorem shift_linear : XorLinear (shift poly) := by
  have h : shift poly = fun r : BitVec w => (r >>> 1) ^^^ if r.getLsbD 0 then poly else 0#w :=
    funext (shift_eq poly)
  rw [h]
  exact (XorLinear.ushiftRight 1).xor (XorLinear.ite_bit 0 poly)

def word : List Bool → BitVec w
  | [] => 0#w
  | b :: bits => bit b ^^^ (word bits <<< 1)

theorem word_getLsbD (bits : List Bool) (i : Nat) :
    (word bits : BitVec w).getLsbD i = (decide (i < w) && bits.getD i false) := by
  induction bits generalizing i with
  | nil => simp [word]
  | cons b bits ih =>
    rw [word, BitVec.getLsbD_xor, BitVec.getLsbD_shiftLeft]
    cases i with
    | zero => cases b <;> simp [bit]
    | succ i =>
      have hone : (bit b : BitVec w).getLsbD (i + 1) = false := by
        cases b <;> simp [bit, BitVec.getLsbD_one]
      rw [hone, ih]
      by_cases hi : i + 1 < w
      · simp [hi, Nat.lt_of_succ_lt hi]
      · simp [hi]

theorem word_injective {bits bits' : List Bool} (hlen : bits.length = bits'.length)
    (hle : bits.length ≤ w) (h : (word bits : BitVec w) = word bits') : bits = bits' := by
  apply List.ext_getElem hlen
  intro i hi hi'
  have hbit := congrArg (fun r => BitVec.getLsbD r i) h
  simp only [word_getLsbD, Nat.lt_of_lt_of_le hi hle, decide_true, Bool.true_and] at hbit
  simpa [List.getD_eq_getElem?_getD, hi, hi'] using hbit

theorem shift_word {bits : List Bool} (hlt : bits.length < w) :
    shift poly (word bits <<< 1) = word bits := by
  rw [shift_eq]
  apply BitVec.eq_of_getLsbD_eq
  intro i hi
  simp only [BitVec.getLsbD_xor, BitVec.getLsbD_ushiftRight, BitVec.getLsbD_shiftLeft, word_getLsbD]
  by_cases hnext : 1 + i < w
  · simp [hnext, hi]
  · have hout : bits[i]? = none := List.getElem?_eq_none (by omega)
    simp [hnext, hi, hout]

theorem feed_eq {bits : List Bool} (hle : bits.length ≤ w) (r : BitVec w) :
    feed poly r bits = (shift poly)^[bits.length] (r ^^^ word bits) := by
  induction bits generalizing r with
  | nil => simp [word]
  | cons b bits ih =>
    have hlt : bits.length < w := hle
    rw [feed_cons, ih (Nat.le_of_lt hlt), List.length_cons, Function.iterate_succ_apply, word,
      ← BitVec.xor_assoc, (shift_linear poly).map_xor (r ^^^ bit b), shift_word poly hlt]

end Register

section Burst

variable {poly : BitVec w} (hpoly : poly.msb = true)
include hpoly

theorem shift_eq_zero {r : BitVec w} (h : shift poly r = 0#w) : r = 0#w := by
  unfold shift at h
  have hw : 0 < w := by
    by_contra hzero
    obtain rfl : w = 0 := by omega
    exact absurd hpoly (by simp [BitVec.eq_nil poly])
  split at h
  next =>
    -- the shifted register has no highest bit, the polynomial has one
    have hmsb := congrArg BitVec.msb h
    simp [BitVec.msb_xor, hpoly, BitVec.msb_ushiftRight] at hmsb
  next hlow =>
    apply BitVec.eq_of_getLsbD_eq
    intro i hi
    rw [BitVec.getLsbD_zero]
    cases i with
    | zero => simpa using hlow
    | succ i =>
      have hbit := congrArg (fun r => BitVec.getLsbD r i) h
      simpa [BitVec.getLsbD_ushiftRight, Nat.add_comm 1 i] using hbit

theorem shift_injective : Function.Injective (shift poly) := by
  intro a b h
  have hzero : shift poly (a ^^^ b) = 0#w := by rw [(shift_linear poly).map_xor, h, BitVec.xor_self]
  exact BitVec.xor_eq_zero_iff.mp (shift_eq_zero hpoly hzero)

theorem feed_injective (bits : List Bool) : Function.Injective fun r => feed poly r bits := by
  induction bits with
  | nil => exact Function.injective_id
  | cons b bits ih =>
    intro a c h
    have hshift := shift_injective hpoly (ih h)
    exact (BitVec.xor_left_inj _).mp hshift

theorem feed_burst_ne {before burst burst' after : List Bool} (r : BitVec w)
    (hlen : burst.length = burst'.length) (hle : burst.length ≤ w) (hne : burst ≠ burst') :
    feed poly r (before ++ burst ++ after) ≠ feed poly r (before ++ burst' ++ after) := by
  intro h
  simp only [feed_append] at h
  have hmid := feed_injective hpoly after h
  generalize feed poly r before = start at hmid
  rw [feed_eq poly hle, feed_eq poly (Nat.le_trans (Nat.le_of_eq hlen.symm) hle), ← hlen] at hmid
  have hword := (shift_injective hpoly).iterate burst.length hmid
  exact hne (word_injective hlen hle ((BitVec.xor_right_inj _).mp hword))

end Burst

section Remainder

noncomputable def toPoly (r : BitVec w) : (ZMod 2)[X] :=
  ∑ i ∈ Finset.range w, if r.getLsbD i then X ^ (w - 1 - i) else 0

noncomputable def modulus (poly : BitVec w) : (ZMod 2)[X] := X ^ w + toPoly poly

noncomputable def message : List Bool → (ZMod 2)[X]
  | [] => 0
  | b :: bits => (if b then X ^ bits.length else 0) + message bits

theorem toPoly_xor (a b : BitVec w) : toPoly (a ^^^ b) = toPoly a + toPoly b := by
  rw [toPoly, toPoly, toPoly, ← Finset.sum_add_distrib]
  apply Finset.sum_congr rfl
  intro i _
  rw [BitVec.getLsbD_xor]
  cases a.getLsbD i <;> cases b.getLsbD i <;> simp [CharTwo.add_self_eq_zero]

theorem toPoly_zero : toPoly (0#w) = 0 := by
  simp [toPoly]

theorem degree_toPoly_lt (r : BitVec w) : (toPoly r).degree < w := by
  refine (degree_sum_le _ _).trans_lt ((Finset.sup_lt_iff (WithBot.bot_lt_coe w)).mpr ?_)
  intro i hi
  have hi := Finset.mem_range.mp hi
  split
  · have hlt : w - 1 - i < w := by omega
    rw [degree_X_pow]
    exact Nat.cast_lt.mpr hlt
  · rw [degree_zero]
    exact WithBot.bot_lt_coe w

theorem modulus_monic (poly : BitVec w) : (modulus poly).Monic :=
  monic_X_pow_add (degree_toPoly_lt poly)

theorem toPoly_bit (hw : 0 < w) (b : Bool) :
    toPoly (bit b : BitVec w) = if b then X ^ (w - 1) else 0 := by
  cases b with
  | false => exact toPoly_zero
  | true =>
    rw [toPoly, Finset.sum_eq_single 0]
    · simp [bit, hw]
    · intro i _ hi
      simp [bit, BitVec.getLsbD_one, hi]
    · simp [hw.ne']

theorem X_mul_toPoly (hw : 0 < w) (r : BitVec w) :
    X * toPoly r = toPoly (r >>> 1) + if r.getLsbD 0 then X ^ w else 0 := by
  obtain ⟨n, rfl⟩ : ∃ n, w = n + 1 := ⟨w - 1, by omega⟩
  have hlast : (r >>> 1).getLsbD n = false := by
    rw [BitVec.getLsbD_ushiftRight]
    exact BitVec.getLsbD_of_ge r _ (by omega)
  rw [toPoly, toPoly, Finset.sum_range_succ', Finset.sum_range_succ, hlast, mul_add, Finset.mul_sum]
  congr 1
  · simp only [Bool.false_eq_true, if_false, add_zero]
    apply Finset.sum_congr rfl
    intro i hi
    have hi := Finset.mem_range.mp hi
    rw [BitVec.getLsbD_ushiftRight, Nat.add_comm 1 i, mul_ite, mul_zero, ← pow_succ']
    congr 2
    omega
  · rw [mul_ite, mul_zero, ← pow_succ']
    congr 2

theorem toPoly_shift (hw : 0 < w) (poly r : BitVec w) :
    toPoly (shift poly r) = X * toPoly r + if r.getLsbD 0 then modulus poly else 0 := by
  rw [shift_eq, toPoly_xor, X_mul_toPoly hw]
  cases r.getLsbD 0 with
  | false => simp [toPoly_zero]
  | true =>
    have hcancel : (X : (ZMod 2)[X]) ^ w + X ^ w = 0 := CharTwo.add_self_eq_zero _
    simp only [if_true, modulus]
    rw [add_assoc, ← add_assoc (X ^ w), hcancel, zero_add]

theorem modulus_dvd_feed (hw : 0 < w) (poly r : BitVec w) (bits : List Bool) :
    modulus poly ∣ toPoly r * X ^ bits.length + message bits * X ^ w - toPoly (feed poly r bits) := by
  induction bits generalizing r with
  | nil => simp [message]
  | cons b bits ih =>
    have hstep := ih (shift poly (r ^^^ bit b))
    rw [toPoly_shift hw, toPoly_xor, toPoly_bit hw] at hstep
    generalize hcarry : (if (r ^^^ bit b).getLsbD 0 = true then modulus poly else 0) = carry at hstep
    have hdvd : modulus poly ∣ carry * X ^ bits.length := by
      subst hcarry
      split
      · exact dvd_mul_right _ _
      · rw [zero_mul]
        exact dvd_zero _
    have hpow : (X : (ZMod 2)[X]) * X ^ (w - 1) = X ^ w := by rw [← pow_succ', Nat.sub_add_cancel hw]
    have hhead : X * (if b then X ^ (w - 1) else 0) * X ^ bits.length =
        (if b then X ^ bits.length else 0) * (X : (ZMod 2)[X]) ^ w := by
      cases b with
      | false => simp
      | true => simp only [if_true, hpow, mul_comm]
    have hsame : toPoly r * X ^ (b :: bits).length + message (b :: bits) * X ^ w -
          toPoly (feed poly r (b :: bits)) =
        (X * (toPoly r + if b then X ^ (w - 1) else 0) + carry) * X ^ bits.length +
          message bits * X ^ w - toPoly (feed poly (shift poly (r ^^^ bit b)) bits) -
          carry * X ^ bits.length := by
      rw [message, add_mul, ← hhead, feed_cons, List.length_cons]
      ring
    rw [hsame]
    exact dvd_sub hstep hdvd

theorem toPoly_feed (hw : 0 < w) (poly r : BitVec w) (bits : List Bool) :
    toPoly (feed poly r bits) =
      (toPoly r * X ^ bits.length + message bits * X ^ w) %ₘ modulus poly := by
  rw [modByMonic_eq_of_dvd_sub (modulus_monic poly) (modulus_dvd_feed hw poly r bits)]
  refine ((modByMonic_eq_self_iff (modulus_monic poly)).mpr ?_).symm
  have hdegree : (modulus poly).degree = w := by
    rw [modulus, degree_add_eq_left_of_degree_lt, degree_X_pow]
    rw [degree_X_pow]
    exact degree_toPoly_lt poly
  rw [hdegree]
  exact degree_toPoly_lt _

end Remainder

end ShiftRegister
