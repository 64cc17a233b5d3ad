import Mathlib.Tactic.Common

/-! Stateful actions that may fail and keep what they have stored. `Runs R x s Q`: the action ends
in a state of `R`, and `Q` holds besides when it succeeds. -/

namespace Outcome

variable {ε σ α β : Type}

def Ends (R : σ → Prop) (Q : α → σ → Prop) : EStateM.Result ε σ α → Prop
  | .ok a s => R s ∧ Q a s
  | .error _ s => R s

def Runs (R : σ → Prop) (x : EStateM ε σ α) (s : σ) (Q : α → σ → Prop) : Prop := Ends R Q (x s)

def finalState : EStateM.Result ε σ α → σ
  | .ok _ s => s
  | .error _ s => s

theorem bind_error {x : EStateM ε σ α} {f : α → EStateM ε σ β} {e : ε} {s s' : σ} :
    (x >>= f) s = .error e s' ↔
      x s = .error e s' ∨ ∃ a s₁, x s = .ok a s₁ ∧ f a s₁ = .error e s' := by
  change EStateM.bind x f s = .error e s' ↔ _
  unfold EStateM.bind
  cases hx : x s with
  | ok a s₁ =>
    constructor
    · intro h
      exact .inr ⟨a, s₁, rfl, h⟩
    · rintro (h | ⟨a', s₁', h, hf⟩)
      · cases h
      · cases h
        exact hf
  | error e₁ s₁ =>
    constructor
    · intro h
      cases h
      exact .inl rfl
    · rintro (h | ⟨a', s₁', h, _⟩)
      · cases h
        rfl
      · cases h

namespace Runs

variable {R : σ → Prop} {x : EStateM ε σ α} {f : α → EStateM ε σ β} {s : σ}
  {Q Q' : α → σ → Prop} {P : β → σ → Prop}

theorem final (h : Runs R x s Q) : R (finalState (x s)) := by
  unfold Runs at h
  cases hx : x s with
  | ok a s' =>
    rw [hx] at h
    exact h.1
  | error e s' =>
    rw [hx] at h
    exact h

theorem bind (hx : Runs R x s Q) (hf : ∀ a s', R s' → Q a s' → Runs R (f a) s' P) :
    Runs R (x >>= f) s P := by
  unfold Runs at hx ⊢
  change Ends R P (EStateM.bind x f s)
  unfold EStateM.bind
  cases h : x s with
  | ok a s' =>
    rw [h] at hx
    exact hf a s' hx.1 hx.2
  | error e s' =>
    rw [h] at hx
    exact hx

theorem mono (h : Runs R x s Q) (hQ : ∀ a s', R s' → Q a s' → Q' a s') : Runs R x s Q' := by
  unfold Runs at h ⊢
  cases hx : x s with
  | ok a s' =>
    rw [hx] at h
    exact ⟨h.1, hQ a s' h.1 h.2⟩
  | error e s' =>
    rw [hx] at h
    exact h

theorem pure {a : α} (hR : R s) (hQ : Q a s) : Runs R (Pure.pure a : EStateM ε σ α) s Q := ⟨hR, hQ⟩

theorem throw {e : ε} (hR : R s) : Runs R (MonadExcept.throw e : EStateM ε σ α) s Q := hR

theorem get_bind {g : σ → EStateM ε σ β} (h : Runs R (g s) s P) :
    Runs R (MonadState.get >>= g) s P := h

theorem read {q : α → Prop} (hx : Runs R x s fun a s' => q a ∧ s = s')
    (hf : ∀ a, q a → Runs R (f a) s P) : Runs R (x >>= f) s P := by
  refine hx.bind ?_
  rintro a _ - ⟨ha, rfl⟩
  exact hf a ha

theorem set {t : σ} (hR : R t) :
    Runs R (MonadStateOf.set t : EStateM ε σ PUnit) s fun _ s' => s' = t := ⟨hR, rfl⟩

theorem modify {g : σ → σ} (hR : R (g s)) :
    Runs R (modify g : EStateM ε σ PUnit) s fun _ s' => s' = g s := ⟨hR, rfl⟩

end Runs

/-- Where an action ends when success and failure have conditions of their own. -/
def Yields (E : σ → Prop) (x : EStateM ε σ α) (s : σ) (Q : α → σ → Prop) : Prop :=
  match x s with
  | .ok a s' => Q a s'
  | .error _ s' => E s'

namespace Yields

variable {E : σ → Prop} {x : EStateM ε σ α} {f : α → EStateM ε σ β} {s : σ}
  {Q Q' : α → σ → Prop} {P : β → σ → Prop}

theorem bind (hx : Yields E x s Q) (hf : ∀ a s', Q a s' → Yields E (f a) s' P) :
    Yields E (x >>= f) s P := by
  unfold Yields at hx ⊢
  change match EStateM.bind x f s with
    | .ok b s' => P b s'
    | .error _ s' => E s'
  unfold EStateM.bind
  cases h : x s with
  | ok a s' =>
    rw [h] at hx
    exact hf a s' hx
  | error e s' =>
    rw [h] at hx
    exact hx

theorem mono (h : Yields E x s Q) (hQ : ∀ a s', Q a s' → Q' a s') : Yields E x s Q' := by
  unfold Yields at h ⊢
  cases hx : x s with
  | ok a s' =>
    rw [hx] at h
    exact hQ a s' h
  | error e s' =>
    rw [hx] at h
    exact h

theorem of_runs {R : σ → Prop} (h : Runs R x s Q) : Yields R x s fun a s' => R s' ∧ Q a s' := by
  unfold Runs at h
  unfold Yields
  cases hx : x s with
  | ok a s' =>
    rw [hx] at h
    exact h
  | error e s' =>
    rw [hx] at h
    exact h

theorem final (h : Yields E x s fun _ => E) : E (finalState (x s)) := by
  unfold Yields at h
  cases hx : x s with
  | ok a s' =>
    rw [hx] at h
    exact h
  | error e s' =>
    rw [hx] at h
    exact h

theorem pure {a : α} (hQ : Q a s) : Yields E (Pure.pure a : EStateM ε σ α) s Q := hQ

theorem throw {e : ε} (hE : E s) : Yields E (MonadExcept.throw e : EStateM ε σ α) s Q := hE

end Yields

/-- The action never leaves `R`, whatever its outcome. -/
def Keeps (R : σ → Prop) (x : EStateM ε σ α) : Prop := ∀ s, R s → R (finalState (x s))

namespace Keeps

variable {R : σ → Prop} {x : EStateM ε σ α} {f : α → EStateM ε σ β}

theorem bind (hx : Keeps R x) (hf : ∀ a, Keeps R (f a)) : Keeps R (x >>= f) := by
  intro s hs
  have hmid := hx s hs
  change R (finalState (EStateM.bind x f s))
  unfold EStateM.bind
  cases h : x s with
  | ok a s' =>
    rw [h] at hmid
    exact hf a s' hmid
  | error e s' =>
    rw [h] at hmid
    exact hmid

theorem pure (a : α) : Keeps R (Pure.pure a : EStateM ε σ α) := fun _ hs => hs

theorem throw (e : ε) : Keeps R (MonadExcept.throw e : EStateM ε σ α) := fun _ hs => hs

theorem get : Keeps R (MonadState.get : EStateM ε σ σ) := fun _ hs => hs

theorem modify {g : σ → σ} (hg : ∀ s, R s → R (g s)) :
    Keeps R (modify g : EStateM ε σ PUnit) := fun s hs => hg s hs

theorem of_ok (h : Keeps R x) {s s' : σ} {a : α} (hs : R s) (hx : x s = .ok a s') : R s' := by
  have hend := h s hs
  rwa [hx] at hend

theorem of_error (h : Keeps R x) {s s' : σ} {e : ε} (hs : R s) (hx : x s = .error e s') : R s' := by
  have hend := h s hs
  rwa [hx] at hend

end Keeps

end Outcome
