import Mathlib.Logic.Function.Basic

/-! Threads that take turns at lock granularity: a partial step for every event, and what holds after
any sequence of events. -/

namespace Interleaving

variable {σ ε : Type} {step : σ → ε → Option σ} {s t u : σ} {e : ε} {es : List ε}

def run (step : σ → ε → Option σ) : σ → List ε → Option σ
  | s, [] => some s
  | s, e :: es => (step s e).bind fun t => run step t es

/-- Every event of the run meets `C` in the state in which it happens. -/
def Meets (step : σ → ε → Option σ) (C : σ → ε → Prop) : σ → List ε → Prop
  | _, [] => True
  | s, e :: es => C s e ∧ ∀ t, step s e = some t → Meets step C t es

theorem run_cons_some : run step s (e :: es) = some u ↔
    ∃ t, step s e = some t ∧ run step t es = some u :=
  Option.bind_eq_some_iff

theorem run_keeps {C : σ → ε → Prop} {I : σ → Prop}
    (hstep : ∀ {s e t}, I s → C s e → step s e = some t → I t) (hinv : I s)
    (hmeets : Meets step C s es) (hrun : run step s es = some u) : I u := by
  induction es generalizing s with
  | nil =>
    cases hrun
    exact hinv
  | cons e es ih =>
    obtain ⟨t, he, hrest⟩ := run_cons_some.mp hrun
    exact ih (hstep hinv hmeets.1 he) (hmeets.2 t he) hrest

theorem Meets.cons {C : σ → ε → Prop} (he : C s e) (hstep : step s e = some t)
    (hrest : Meets step C t es) : Meets step C s (e :: es) := by
  refine ⟨he, fun t' ht' => ?_⟩
  cases hstep.symm.trans ht'
  exact hrest

theorem meets_of_forall {C : σ → ε → Prop} (h : ∀ e ∈ es, ∀ s, C s e) (s : σ) :
    Meets step C s es := by
  induction es generalizing s with
  | nil => trivial
  | cons e es ih =>
    refine ⟨h e List.mem_cons_self s, ?_⟩
    intro t _
    exact ih (fun e' he' => h e' (List.mem_cons_of_mem e he')) t

/-! One thread moves. -/

section Move

variable {ι τ : Type} [DecidableEq ι] {f : ι → τ} {i : ι} {a : τ} {P : τ → Prop}

theorem exists_move_new (h : P a) : ∃ j, P (Function.update f i a j) :=
  ⟨i, by rwa [Function.update_self]⟩

theorem exists_move_old (h : ∃ j, P (f j)) (hi : ¬P (f i)) : ∃ j, P (Function.update f i a j) := by
  obtain ⟨j, hj⟩ := h
  have hne : j ≠ i := by
    rintro rfl
    exact hi hj
  exact ⟨j, by rwa [Function.update_of_ne hne]⟩

theorem forall_move (h : ∀ j, P (f j)) (ha : P a) (j : ι) : P (Function.update f i a j) := by
  by_cases hj : j = i
  · subst hj
    rwa [Function.update_self]
  · rw [Function.update_of_ne hj]
    exact h j

end Move

end Interleaving
