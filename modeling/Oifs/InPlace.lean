import Mathlib.Data.List.Basic
import Mathlib.Tactic.Common

/-! Loops that assign to a buffer in place. -/

namespace InPlace

section Undo

variable {σ ι : Type}

theorem foldl_undo {f g : σ → ι → σ} {P : σ → Prop} {l : List ι}
    (hkeep : ∀ s, P s → ∀ i ∈ l, P (f s i)) (hundo : ∀ s, P s → ∀ i ∈ l, g (f s i) i = s) {s : σ}
    (hs : P s) : l.reverse.foldl g (l.foldl f s) = s := by
  induction l generalizing s with
  | nil => rfl
  | cons i l ih =>
    have hnext : P (f s i) := hkeep s hs i (by simp)
    have hrest := ih (fun t ht j hj => hkeep t ht j (by simp [hj]))
      (fun t ht j hj => hundo t ht j (by simp [hj])) hnext
    rw [List.reverse_cons, List.foldl_append, List.foldl_cons (l := l), hrest]
    exact hundo s hs i (by simp)

end Undo

section Scatter

variable {α : Type}

def scatter (assignments : List (Nat × α)) (out : List α) : List α :=
  assignments.foldl (fun out a => out.set a.1 a.2) out

@[simp] theorem scatter_length (assignments : List (Nat × α)) (out : List α) :
    (scatter assignments out).length = out.length := by
  induction assignments generalizing out with
  | nil => rfl
  | cons a assignments ih =>
    rw [scatter, List.foldl_cons]
    exact (ih _).trans (List.length_set ..)

theorem scatter_untouched {assignments : List (Nat × α)} {out : List α} {k : Nat}
    (h : ∀ a ∈ assignments, a.1 ≠ k) : (scatter assignments out)[k]? = out[k]? := by
  induction assignments generalizing out with
  | nil => rfl
  | cons a assignments ih =>
    rw [scatter, List.foldl_cons]
    refine (ih fun b hb => h b (by simp [hb])).trans ?_
    exact List.getElem?_set_ne (h a (by simp))

theorem scatter_assigned {assignments : List (Nat × α)} {out : List α} {k : Nat} {x : α}
    (hmem : (k, x) ∈ assignments) (honly : ∀ a ∈ assignments, a.1 = k → a.2 = x)
    (hk : k < out.length) : (scatter assignments out)[k]? = some x := by
  induction assignments generalizing out with
  | nil => simp at hmem
  | cons a assignments ih =>
    have honly' : ∀ b ∈ assignments, b.1 = k → b.2 = x := fun b hb => honly b (by simp [hb])
    rw [scatter, List.foldl_cons]
    by_cases hlater : (k, x) ∈ assignments
    · exact ih hlater honly' (by rwa [List.length_set])
    · -- the first assignment is the one, and no later one touches the position
      obtain rfl : (k, x) = a := (List.mem_cons.mp hmem).resolve_right hlater
      have huntouched : ∀ b ∈ assignments, b.1 ≠ k := by
        rintro ⟨l, y⟩ hb rfl
        exact hlater (honly' _ hb rfl ▸ hb)
      exact (scatter_untouched huntouched).trans (List.getElem?_set_self hk)

end Scatter

end InPlace
