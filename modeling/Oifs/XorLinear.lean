import Mathlib.Logic.Function.Iterate
import Mathlib.Tactic.Common

/-- A function of bit vectors that distributes over exclusive or. -/
structure XorLinear {v w : Nat} (f : BitVec v → BitVec w) : Prop where
  map_xor : ∀ x y, f (x ^^^ y) = f x ^^^ f y

namespace XorLinear

variable {u v w : Nat}

theorem map_zero {f : BitVec v → BitVec w} (hf : XorLinear f) : f 0#v = 0#w := by
  have h := hf.map_xor 0#v 0#v
  rw [BitVec.xor_self] at h
  rw [h, BitVec.xor_self]

theorem id : XorLinear (fun x : BitVec w => x) := ⟨fun _ _ => rfl⟩

theorem comp {f : BitVec u → BitVec v} {g : BitVec v → BitVec w} (hg : XorLinear g)
    (hf : XorLinear f) : XorLinear fun x => g (f x) :=
  ⟨fun x y => by rw [hf.map_xor, hg.map_xor]⟩

theorem xor {f g : BitVec v → BitVec w} (hf : XorLinear f) (hg : XorLinear g) :
    XorLinear fun x => f x ^^^ g x := by
  constructor
  intro x y
  rw [hf.map_xor, hg.map_xor]
  ac_rfl

theorem ushiftRight (n : Nat) : XorLinear fun x : BitVec w => x >>> n :=
  ⟨fun _ _ => BitVec.ushiftRight_xor_distrib ..⟩

theorem shiftLeft (n : Nat) : XorLinear fun x : BitVec w => x <<< n :=
  ⟨fun _ _ => BitVec.shiftLeft_xor_distrib ..⟩

theorem and_const (m : BitVec w) : XorLinear fun x => x &&& m := by
  constructor
  intro x y
  ext i hi
  simp only [BitVec.getElem_and, BitVec.getElem_xor]
  cases x[i] <;> cases y[i] <;> cases m[i] <;> rfl

theorem ite_bit (i : Nat) (c : BitVec w) :
    XorLinear fun x : BitVec v => if x.getLsbD i then c else 0#w := by
  constructor
  intro x y
  rw [BitVec.getLsbD_xor]
  cases x.getLsbD i <;> cases y.getLsbD i <;> simp

theorem iterate {f : BitVec w → BitVec w} (hf : XorLinear f) (n : Nat) : XorLinear (f^[n]) := by
  induction n with
  | zero => exact id
  | succ n ih => exact ih.comp hf

theorem low_succ (x : BitVec w) (k : Nat) :
    (x.setWidth (k + 1)).setWidth w =
      (x.setWidth k).setWidth w ^^^ if x.getLsbD k then BitVec.twoPow w k else 0#w := by
  apply BitVec.eq_of_getLsbD_eq
  intro i hi
  rw [BitVec.getLsbD_xor]
  simp only [BitVec.getLsbD_setWidth]
  rcases Nat.lt_trichotomy i k with hlt | rfl | hgt
  · have hne : i ≠ k := Nat.ne_of_lt hlt
    cases x.getLsbD k <;> simp [hi, hlt, Nat.lt_succ_of_lt hlt, hne]
  · cases hbit : x.getLsbD i <;> simp [hi]
  · have hne : i ≠ k := Nat.ne_of_gt hgt
    cases x.getLsbD k <;> simp [hi, Nat.not_lt.mpr hgt, Nat.not_lt_of_gt hgt, hne]

theorem ext_twoPow {f g : BitVec v → BitVec w} (hf : XorLinear f) (hg : XorLinear g)
    (h : ∀ i < v, f (BitVec.twoPow v i) = g (BitVec.twoPow v i)) (x : BitVec v) : f x = g x := by
  have hlow : ∀ k, k ≤ v → f ((x.setWidth k).setWidth v) = g ((x.setWidth k).setWidth v) := by
    intro k
    induction k with
    | zero =>
      intro _
      have hzero : (x.setWidth 0).setWidth v = 0#v := by
        rw [BitVec.eq_nil (x.setWidth 0)]
        exact BitVec.setWidth_zero v 0
      rw [hzero, hf.map_zero, hg.map_zero]
    | succ k ih =>
      intro hk
      rw [low_succ, hf.map_xor, hg.map_xor, ih (by omega)]
      cases x.getLsbD k with
      | false => simp [hf.map_zero, hg.map_zero]
      | true => simp [h k (by omega)]
  have hfull := hlow v (Nat.le_refl v)
  rwa [BitVec.setWidth_eq, BitVec.setWidth_eq] at hfull

end XorLinear
