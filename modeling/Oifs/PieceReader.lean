import Mathlib.Tactic.Common

/-- What one call of a reader brings. No items at all are the end of the input. -/
inductive Delivery (α ε : Type) where
  | items (xs : List α)
  | interrupted
  | failed (e : ε)

namespace Delivery

variable {α ε : Type}

def pending : List (Delivery α ε) → List α
  | [] => []
  | items xs :: ds => xs ++ pending ds
  | interrupted :: ds => pending ds
  | failed _ :: ds => pending ds

def Steady (ds : List (Delivery α ε)) : Prop :=
  ∀ d ∈ ds, d = interrupted ∨ ∃ xs, d = items xs ∧ xs ≠ []

theorem Steady.tail {d : Delivery α ε} {ds : List (Delivery α ε)} (h : Steady (d :: ds)) : Steady ds :=
  fun x hx => h x (List.mem_cons_of_mem d hx)

theorem Steady.cons_items {xs : List α} {ds : List (Delivery α ε)} (hne : xs ≠ []) (h : Steady ds) :
    Steady (items xs :: ds) := by
  intro d hd
  rcases List.mem_cons.mp hd with rfl | hd
  · exact Or.inr ⟨xs, rfl, hne⟩
  · exact h d hd

/-- What a call that fills a buffer leaves: the items it got, its error, the rest of the reader. -/
structure Filled (α ε : Type) where
  got : List α
  error : Option ε
  rest : List (Delivery α ε)

/-- Fill a buffer of `n` items, call by call. Interruptions are tried again. -/
def fill (eof : ε) : Nat → List (Delivery α ε) → Filled α ε
  | 0, ds => ⟨[], none, ds⟩
  | _ + 1, [] => ⟨[], some eof, []⟩
  | n + 1, interrupted :: ds => fill eof (n + 1) ds
  | _ + 1, failed e :: ds => ⟨[], some e, ds⟩
  | n + 1, items xs :: ds =>
    if xs.isEmpty then ⟨[], some eof, ds⟩
    else if n + 1 < xs.length then ⟨xs.take (n + 1), none, items (xs.drop (n + 1)) :: ds⟩
    else
      let filled := fill eof (n + 1 - xs.length) ds
      { filled with got := xs ++ filled.got }

theorem fill_takes (eof : ε) (n : Nat) (ds : List (Delivery α ε)) :
    pending ds = (fill eof n ds).got ++ pending (fill eof n ds).rest ∧
      (fill eof n ds).got.length ≤ n ∧
      ((fill eof n ds).error = none → (fill eof n ds).got.length = n) := by
  induction ds generalizing n with
  | nil => cases n <;> simp [fill, pending]
  | cons d ds ih =>
    cases n with
    | zero => simp [fill]
    | succ n =>
      cases d with
      | interrupted => simpa only [fill, pending] using ih (n + 1)
      | failed e => simp [fill, pending]
      | items xs =>
        rw [fill]
        split
        next hempty => simp [pending, List.isEmpty_iff.mp hempty]
        next =>
          split
          next hlong =>
            refine ⟨?_, ?_, ?_⟩
            · rw [pending, pending, ← List.append_assoc, List.take_append_drop]
            · exact List.length_take_le _ _
            · exact fun _ => List.length_take_of_le (by omega)
          next hshort =>
            obtain ⟨htakes, hle, hfull⟩ := ih (n + 1 - xs.length)
            refine ⟨?_, ?_, ?_⟩
            · rw [pending, htakes, List.append_assoc]
            · rw [List.length_append]
              omega
            · intro hnone
              rw [List.length_append, hfull hnone]
              omega

theorem fill_steady (eof : ε) {n : Nat} {ds : List (Delivery α ε)} (hds : Steady ds)
    (hn : n ≤ (pending ds).length) :
    (fill eof n ds).error = none ∧ Steady (fill eof n ds).rest := by
  induction ds generalizing n with
  | nil =>
    obtain rfl : n = 0 := Nat.le_zero.mp hn
    exact ⟨rfl, hds⟩
  | cons d ds ih =>
    cases n with
    | zero => exact ⟨rfl, hds⟩
    | succ n =>
      rcases hds d (by simp) with rfl | ⟨xs, rfl, hne⟩
      · exact ih hds.tail hn
      · rw [fill, if_neg (by simpa using hne)]
        split
        next hlong => exact ⟨rfl, hds.tail.cons_items (by simpa using hlong)⟩
        next hshort =>
          rw [pending, List.length_append] at hn
          exact ih hds.tail (by omega)

theorem fill_eq (eof : ε) {xs ys : List α} {ds : List (Delivery α ε)} (hds : Steady ds)
    (hpending : pending ds = xs ++ ys) :
    ∃ rest, fill eof xs.length ds = ⟨xs, none, rest⟩ ∧ pending rest = ys ∧ Steady rest := by
  obtain ⟨hnone, hrest⟩ := fill_steady eof hds (n := xs.length) (by simp [hpending])
  obtain ⟨htakes, -, hfull⟩ := fill_takes eof xs.length ds
  obtain ⟨hgot, hys⟩ := List.append_inj (hpending.symm.trans htakes) (hfull hnone).symm
  refine ⟨(fill eof xs.length ds).rest, ?_, hys.symm, hrest⟩
  rw [← hnone]
  exact congrArg (fun got => Filled.mk got _ _) hgot.symm

end Delivery
