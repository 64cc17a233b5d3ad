import Mathlib.Data.List.Basic

namespace Oifs

/-- Every event of a history, newest first, is justified by what came before it. -/
def Justified {ε : Type} (P : ε → List ε → Prop) : List ε → Prop
  | [] => True
  | e :: before => P e before ∧ Justified P before

namespace Justified

variable {ε : Type} {P : ε → List ε → Prop} {log new : List ε} {e : ε}

theorem suffix {after before : List ε} (h : Justified P (after ++ before)) : Justified P before := by
  induction after with
  | nil => exact h
  | cons _ _ ih => exact ih h.2

theorem at_split {after before : List ε} (h : Justified P (after ++ e :: before)) : P e before :=
  h.suffix.1

theorem exists_split (h : Justified P log) (he : e ∈ log) :
    ∃ after before, log = after ++ e :: before ∧ P e before := by
  obtain ⟨after, before, rfl⟩ := List.append_of_mem he
  exact ⟨after, before, rfl, h.at_split⟩

theorem order {e' : ε} (h : Justified P log) (he : e ∈ log) (he' : e' ∈ log) (hne : e ≠ e') :
    (∃ before, P e before ∧ e' ∈ before) ∨ ∃ before, P e' before ∧ e ∈ before := by
  obtain ⟨after, before, rfl, hP⟩ := h.exists_split he
  rcases List.mem_append.mp he' with hin | hin
  · obtain ⟨after', mid, rfl⟩ := List.append_of_mem hin
    rw [List.append_assoc, List.cons_append] at h
    exact Or.inr ⟨_, h.at_split, List.mem_append_right _ List.mem_cons_self⟩
  · exact Or.inl ⟨before, hP, (List.mem_cons.mp hin).resolve_left (Ne.symm hne)⟩

end Justified

end Oifs
