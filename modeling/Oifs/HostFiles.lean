import Mathlib.Logic.Function.Basic

/-- The paths of a host and the files they name. A file without a path keeps its content. -/
structure HostFiles (P α : Type) where
  entry : P → Option Nat
  content : Nat → α
  next : Nat
  named : ∀ p f, entry p = some f → f < next

namespace HostFiles

variable {P α : Type} [DecidableEq P]

def setContent (h : HostFiles P α) (f : Nat) (a : α) : HostFiles P α :=
  { h with content := Function.update h.content f a }

def create (h : HostFiles P α) (p : P) (a : α) : HostFiles P α where
  entry := Function.update h.entry p (some h.next)
  content := Function.update h.content h.next a
  next := h.next + 1
  named q f hf := by
    by_cases hq : q = p
    · subst hq
      rw [Function.update_self] at hf
      cases hf
      exact Nat.lt_succ_self _
    · rw [Function.update_of_ne hq] at hf
      exact Nat.lt_succ_of_lt (h.named q f hf)

/-- Replaces what stands at a path; where there is no file a new one is made. -/
def put (h : HostFiles P α) (p : P) (a : α) : HostFiles P α :=
  match h.entry p with
  | some f => h.setContent f a
  | none => h.create p a

def unlink (h : HostFiles P α) (p : P) : HostFiles P α where
  entry := Function.update h.entry p none
  content := h.content
  next := h.next
  named q f hf := by
    by_cases hq : q = p
    · subst hq
      rw [Function.update_self] at hf
      cases hf
    · rw [Function.update_of_ne hq] at hf
      exact h.named q f hf

def link (h : HostFiles P α) (p : P) (f : Nat) (hf : f < h.next) : HostFiles P α where
  entry := Function.update h.entry p (some f)
  content := h.content
  next := h.next
  named q g hg := by
    by_cases hq : q = p
    · subst hq
      rw [Function.update_self] at hg
      cases hg
      exact hf
    · rw [Function.update_of_ne hq] at hg
      exact h.named q g hg

/-- `rename(2)`: nothing happens if both paths name one file already. -/
def rename (h : HostFiles P α) (p q : P) : Option (HostFiles P α) :=
  match hp : h.entry p with
  | none => none
  | some f => some (if h.entry q = some f then h else (h.unlink p).link q f (h.named p f hp))

def remove (h : HostFiles P α) (p : P) : Option (HostFiles P α) :=
  (h.entry p).map fun _ => h.unlink p

section Rename

variable {h h' : HostFiles P α} {p q : P} {f : Nat}

/-- A renaming puts the file of the first path at the second. -/
structure Renamed (h : HostFiles P α) (p q : P) (f : Nat) (h' : HostFiles P α) : Prop where
  target : h'.entry q = some f
  source : h'.entry p = none ∨ h'.entry p = some f
  others : ∀ r, r ≠ p → r ≠ q → h'.entry r = h.entry r
  content : h'.content = h.content
  next : h'.next = h.next

theorem rename_ok (hr : h.rename p q = some h') : ∃ f, h.entry p = some f ∧ Renamed h p q f h' := by
  unfold rename at hr
  split at hr
  next => cases hr
  next f hp =>
    refine ⟨f, hp, ?_⟩
    cases hr
    split
    next hq => exact ⟨hq, .inr hp, fun _ _ _ => rfl, rfl, rfl⟩
    next hq =>
      have hpq : p ≠ q := by
        rintro rfl
        exact hq hp
      refine ⟨Function.update_self .., .inl ?_, ?_, rfl, rfl⟩
      · change Function.update (Function.update h.entry p none) q (some f) p = none
        rw [Function.update_of_ne hpq, Function.update_self]
      · intro r hrp hrq
        change Function.update (Function.update h.entry p none) q (some f) r = h.entry r
        rw [Function.update_of_ne hrq, Function.update_of_ne hrp]

theorem rename_next (hr : h.rename p q = some h') : h'.next = h.next := by
  obtain ⟨f, -, hrenamed⟩ := rename_ok hr
  exact hrenamed.next

theorem rename_some (hp : h.entry p = some f) : ∃ h', h.rename p q = some h' := by
  unfold rename
  split
  next hnone =>
    rw [hp] at hnone
    cases hnone
  next => exact ⟨_, rfl⟩

theorem remove_ok (hr : h.remove p = some h') :
    (∀ r, r ≠ p → h'.entry r = h.entry r) ∧ h'.content = h.content ∧ h'.next = h.next := by
  obtain ⟨f, -, rfl⟩ := Option.map_eq_some_iff.mp hr
  exact ⟨fun r hr => Function.update_of_ne hr _ _, rfl, rfl⟩

end Rename

structure Replaced (h : HostFiles P α) (p : P) (a : α) (f : Nat) (h' : HostFiles P α) : Prop where
  entry : h'.entry p = some f
  new : h.entry p = some f ∨ f = h.next
  others : ∀ r, r ≠ p → h'.entry r = h.entry r
  content : h'.content = Function.update h.content f a
  next : h.next ≤ h'.next

theorem put_replaced (h : HostFiles P α) (p : P) (a : α) : ∃ f, Replaced h p a f (h.put p a) := by
  unfold put
  cases hp : h.entry p with
  | some f => exact ⟨f, hp, .inl hp, fun _ _ => rfl, rfl, Nat.le_refl _⟩
  | none =>
    exact ⟨h.next, Function.update_self .., .inr rfl, fun r hr => Function.update_of_ne hr _ _, rfl,
      Nat.le_succ _⟩

end HostFiles
