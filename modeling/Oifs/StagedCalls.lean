import Mathlib.Data.List.Nodup
import Mathlib.Logic.Function.Basic

namespace StagedCalls

/-- Calls that run in stages on a shared state `σ`: a stage moves on the local state or ends the
call. `ω` is what it takes from outside. -/
structure System (σ ι τ ω : Type) where
  start : ι → τ
  stage : ι → τ → ω → σ → Option (τ ⊕ σ)

structure Thread (τ : Type) where
  state : τ
  /-- The number of calls that had ended when this one took its first stage. -/
  since : Option Nat
  ended : Bool

structure World (σ τ : Type) where
  shared : σ
  thread : Nat → Thread τ
  /-- The calls that have ended, in this order. -/
  order : List Nat

section

variable {σ ι τ ω : Type} (sys : System σ ι τ ω) (calls : Nat → ι)

def init (s : σ) : World σ τ where
  shared := s
  thread k := ⟨sys.start (calls k), none, false⟩
  order := []

def World.move (w : World σ τ) (k : Nat) (t : τ) : World σ τ :=
  ⟨w.shared, Function.update w.thread k
    ⟨t, some ((w.thread k).since.getD w.order.length), false⟩, w.order⟩

def World.finish (w : World σ τ) (k : Nat) (s : σ) : World σ τ :=
  ⟨s, Function.update w.thread k ⟨(w.thread k).state, (w.thread k).since, true⟩, w.order ++ [k]⟩

def step (w : World σ τ) (k : Nat) (x : ω) : Option (World σ τ) :=
  if (w.thread k).ended then none
  else
    match sys.stage (calls k) (w.thread k).state x w.shared with
    | none => none
    | some (.inl t) => some (w.move k t)
    | some (.inr s) => some (w.finish k s)

def run (w : World σ τ) : List (Nat × ω) → Option (World σ τ)
  | [] => some w
  | (k, x) :: events => (step sys calls w k x).bind fun w => run w events

def alone (c : ι) (t : τ) (s : σ) : List ω → Option σ
  | [] => none
  | x :: xs =>
    match sys.stage c t x s with
    | none => none
    | some (.inl t) => alone c t s xs
    | some (.inr s) => some s

def serial (s : σ) : List (Nat × List ω) → Option σ
  | [] => some s
  | (k, xs) :: rest => (alone sys (calls k) (sys.start (calls k)) s xs).bind fun s => serial s rest

def Untouched (w : World σ τ) (k : Nat) : Prop :=
  (w.thread k).since = none ∨ (w.thread k).since = some w.order.length

def SafeRun (R : ι → τ → σ → Prop) (w : World σ τ) : List (Nat × ω) → Prop
  | [] => True
  | (k, x) :: events =>
    ((∃ s, sys.stage (calls k) (w.thread k).state x w.shared = some (.inr s)) →
      Untouched w k ∨ R (calls k) (w.thread k).state w.shared) ∧
    ∀ w', step sys calls w k x = some w' → SafeRun R w' events

instance (w : World σ τ) (k : Nat) : Decidable (Untouched w k) :=
  inferInstanceAs (Decidable (_ ∨ _))

def checkRun (check : ι → τ → σ → Bool) (w : World σ τ) : List (Nat × ω) → Bool
  | [] => true
  | (k, x) :: events =>
    (match sys.stage (calls k) (w.thread k).state x w.shared with
      | some (.inr _) => decide (Untouched w k) || check (calls k) (w.thread k).state w.shared
      | _ => true) &&
    match step sys calls w k x with
    | some w' => checkRun check w' events
    | none => true

def Reaches (c : ι) (s : σ) (xs : List ω) (t : τ) : Prop :=
  ∀ ys, alone sys c (sys.start c) s (xs ++ ys) = alone sys c t s ys

/-- The stages that an untouched call has taken are those it would take on the present state. -/
structure Inv (s₀ : σ) (w : World σ τ) : Prop where
  fresh : ∀ k, (w.thread k).since = none → (w.thread k).ended = false →
    (w.thread k).state = sys.start (calls k)
  bound : ∀ k n, (w.thread k).since = some n → n ≤ w.order.length
  reaches : ∀ k, (w.thread k).since = some w.order.length → (w.thread k).ended = false →
    ∃ xs, Reaches sys (calls k) w.shared xs (w.thread k).state
  ended : ∀ k, (w.thread k).ended = true ↔ k ∈ w.order
  nodup : w.order.Nodup
  serial : ∃ plan : List (Nat × List ω), plan.map (·.1) = w.order ∧
    serial sys calls s₀ plan = some w.shared

variable {sys calls}

variable {events : List (Nat × ω)} {w w' : World σ τ} {s₀ : σ} {k : Nat} {x : ω}

theorem alone_cases {c : ι} {t : τ} {s s' : σ} {xs : List ω} (h : alone sys c t s xs = some s') :
    ∃ x rest, xs = x :: rest ∧ (sys.stage c t x s = some (.inr s') ∨
      ∃ t', sys.stage c t x s = some (.inl t') ∧ alone sys c t' s rest = some s') := by
  cases xs with
  | nil => cases h
  | cons x rest =>
    refine ⟨x, rest, rfl, ?_⟩
    rw [alone] at h
    cases hstage : sys.stage c t x s with
    | none =>
      rw [hstage] at h
      cases h
    | some r =>
      rw [hstage] at h
      cases r with
      | inl t' => exact Or.inr ⟨t', rfl, h⟩
      | inr s'' =>
        cases h
        exact Or.inl rfl

theorem safeRun_of_checkRun {R : ι → τ → σ → Prop} {check : ι → τ → σ → Bool}
    (hcheck : ∀ c t s, check c t s = true → R c t s) {w : World σ τ}
    (h : checkRun sys calls check w events = true) : SafeRun sys calls R w events := by
  induction events generalizing w with
  | nil => trivial
  | cons e events ih =>
    obtain ⟨k, x⟩ := e
    rw [checkRun, Bool.and_eq_true] at h
    obtain ⟨hone, hrest⟩ := h
    refine ⟨?_, ?_⟩
    · rintro ⟨s, hs⟩
      rw [hs] at hone
      rcases Bool.or_eq_true_iff.mp hone with hun | hre
      · exact Or.inl (of_decide_eq_true hun)
      · exact Or.inr (hcheck _ _ _ hre)
    · intro w' hstep
      rw [hstep] at hrest
      exact ih hrest

theorem inv_init (sys : System σ ι τ ω) (calls : Nat → ι) (s : σ) :
    Inv sys calls s (init sys calls s) where
  fresh _ _ _ := rfl
  bound _ _ h := by cases h
  reaches _ h := by cases h
  ended _ := by simp [init]
  nodup := List.nodup_nil
  serial := ⟨[], rfl, rfl⟩

theorem serial_append (s s' : σ) (plan : List (Nat × List ω)) (k : Nat) (xs : List ω)
    (h : serial sys calls s plan = some s') :
    serial sys calls s (plan ++ [(k, xs)]) = alone sys (calls k) (sys.start (calls k)) s' xs := by
  induction plan generalizing s with
  | nil =>
    cases h
    simp [serial]
  | cons p plan ih =>
    obtain ⟨s₁, hone, hrest⟩ := Option.bind_eq_some_iff.mp h
    rw [List.cons_append, serial, hone]
    exact ih s₁ hrest

theorem Inv.move {w : World σ τ} {t : τ} (hi : Inv sys calls s₀ w)
    (hrun : (w.thread k).ended = false)
    (h : sys.stage (calls k) (w.thread k).state x w.shared = some (.inl t)) :
    Inv sys calls s₀ (w.move k t) := by
  unfold World.move
  refine ⟨fun j => ?_, fun j n => ?_, fun j => ?_, fun j => ?_, hi.nodup, hi.serial⟩
  · by_cases hj : j = k
    · subst hj
      simp
    · simpa [hj] using hi.fresh j
  · by_cases hj : j = k
    · subst hj
      intro hsince
      simp only [Function.update_self, Option.some.injEq] at hsince
      cases hs : (w.thread j).since with
      | none =>
        rw [hs] at hsince
        exact Nat.le_of_eq hsince.symm
      | some m =>
        rw [hs] at hsince
        exact hsince ▸ hi.bound j m hs
    · simpa [hj] using hi.bound j n
  · by_cases hj : j = k
    · subst hj
      intro hsince _
      simp only [Function.update_self, Option.some.injEq] at hsince ⊢
      obtain ⟨xs, hxs⟩ : ∃ xs, Reaches sys (calls j) w.shared xs (w.thread j).state := by
        cases hs : (w.thread j).since with
        | none =>
          refine ⟨[], fun ys => ?_⟩
          rw [List.nil_append, hi.fresh j hs hrun]
        | some m =>
          rw [hs] at hsince
          exact hi.reaches j (by rw [hs, ← hsince]; rfl) hrun
      refine ⟨xs ++ [x], fun ys => ?_⟩
      rw [List.append_assoc, hxs, List.singleton_append, alone, h]
    · simpa [hj] using hi.reaches j
  · by_cases hj : j = k
    · subst hj
      have hnot := hi.ended j
      rw [hrun] at hnot
      simpa using hnot
    · simpa [hj] using hi.ended j

theorem Inv.finish {s₀ s : σ} {w : World σ τ} {xs : List ω} (hi : Inv sys calls s₀ w)
    (hrun : (w.thread k).ended = false)
    (h : alone sys (calls k) (sys.start (calls k)) w.shared xs = some s) :
    Inv sys calls s₀ (w.finish k s) := by
  unfold World.finish
  have hlen : (w.order ++ [k]).length = w.order.length + 1 := by simp
  refine ⟨fun j => ?_, fun j n => ?_, fun j hsince hended => ?_, fun j => ?_, ?_, ?_⟩
  · by_cases hj : j = k
    · subst hj
      simp
    · simpa [hj] using hi.fresh j
  · have hbound := hi.bound j n
    by_cases hj : j = k
    · subst hj
      simp only [Function.update_self, hlen]
      exact fun hs => Nat.le_succ_of_le (hbound hs)
    · simp only [Function.update_of_ne hj, hlen]
      exact fun hs => Nat.le_succ_of_le (hbound hs)
  · -- every other call has been overtaken
    by_cases hj : j = k
    · subst hj
      simp at hended
    · simp only [Function.update_of_ne hj, hlen] at hsince
      have hbound := hi.bound j _ hsince
      omega
  · by_cases hj : j = k
    · subst hj
      simp
    · simpa [hj] using hi.ended j
  · rw [List.nodup_append]
    refine ⟨hi.nodup, by simp, ?_⟩
    rintro a ha b hb rfl
    rw [List.mem_singleton.mp hb] at ha
    have hended := (hi.ended k).mpr ha
    rw [hrun] at hended
    cases hended
  · obtain ⟨plan, hplan, hserial⟩ := hi.serial
    refine ⟨plan ++ [(k, xs)], by simp [hplan], ?_⟩
    rw [serial_append s₀ w.shared plan k xs hserial, h]

section Runs

/-- `J` holds of the shared state and `L` of the local ones throughout. -/
structure Keeps (sys : System σ ι τ ω) (calls : Nat → ι) (J : σ → Prop) (L : ι → τ → Prop) :
    Prop where
  start : ∀ k, L (calls k) (sys.start (calls k))
  move : ∀ k t x s t', J s → L (calls k) t → sys.stage (calls k) t x s = some (.inl t') →
    L (calls k) t'
  finish : ∀ k t x s s', J s → L (calls k) t → sys.stage (calls k) t x s = some (.inr s') → J s'

variable {R : ι → τ → σ → Prop} {J : σ → Prop} {L : ι → τ → Prop} (hK : Keeps sys calls J L)
  (hR : ∀ k t x s s', J s → L (calls k) t → R (calls k) t s →
    sys.stage (calls k) t x s = some (.inr s') →
    ∃ xs, alone sys (calls k) (sys.start (calls k)) s xs = some s')

include hR in
theorem Inv.step (hi : Inv sys calls s₀ w) (hj : J w.shared) (hl : L (calls k) (w.thread k).state)
    (hsafe : (∃ s, sys.stage (calls k) (w.thread k).state x w.shared = some (.inr s)) →
      Untouched w k ∨ R (calls k) (w.thread k).state w.shared)
    (h : step sys calls w k x = some w') : Inv sys calls s₀ w' := by
  unfold StagedCalls.step at h
  by_cases hended : (w.thread k).ended = true
  · rw [if_pos hended] at h
    cases h
  rw [if_neg hended] at h
  have hrun : (w.thread k).ended = false := by simpa using hended
  cases hstage : sys.stage (calls k) (w.thread k).state x w.shared with
  | none =>
    rw [hstage] at h
    cases h
  | some r =>
    rw [hstage] at h
    cases r with
    | inl t =>
      cases h
      exact hi.move hrun hstage
    | inr s =>
      cases h
      rcases hsafe ⟨s, hstage⟩ with hun | hre
      · obtain ⟨xs, hxs⟩ : ∃ xs, Reaches sys (calls k) w.shared xs (w.thread k).state := by
          rcases hun with hnone | hsome
          · refine ⟨[], fun ys => ?_⟩
            rw [List.nil_append, hi.fresh k hnone hrun]
          · exact hi.reaches k hsome hrun
        have halone : alone sys (calls k) (sys.start (calls k)) w.shared (xs ++ [x]) = some s := by
          rw [hxs, alone, hstage]
        exact hi.finish hrun halone
      · obtain ⟨xs, hxs⟩ := hR _ _ x _ s hj hl hre hstage
        exact hi.finish hrun hxs

include hK in
theorem step_keeps (hj : J w.shared)
    (hl : ∀ k, L (calls k) (w.thread k).state) (h : step sys calls w k x = some w') :
    J w'.shared ∧ ∀ k, L (calls k) (w'.thread k).state := by
  unfold step at h
  split at h
  next => cases h
  next =>
    cases hstage : sys.stage (calls k) (w.thread k).state x w.shared with
    | none =>
      rw [hstage] at h
      cases h
    | some r =>
      rw [hstage] at h
      cases r with
      | inl t =>
        cases h
        refine ⟨hj, fun j => ?_⟩
        by_cases hjk : j = k
        · subst hjk
          simpa [World.move] using hK.move _ _ x _ t hj (hl j) hstage
        · simpa [World.move, hjk] using hl j
      | inr s =>
        cases h
        refine ⟨hK.finish _ _ x _ s hj (hl k) hstage, fun j => ?_⟩
        by_cases hjk : j = k
        · subst hjk
          simpa [World.finish] using hl j
        · simpa [World.finish, hjk] using hl j

include hK hR in
theorem Inv.run (hi : Inv sys calls s₀ w)
    (hj : J w.shared) (hl : ∀ k, L (calls k) (w.thread k).state)
    (hsafe : SafeRun sys calls R w events)
    (h : run sys calls w events = some w') : Inv sys calls s₀ w' := by
  induction events generalizing w with
  | nil =>
    cases h
    exact hi
  | cons e events ih =>
    obtain ⟨k, x⟩ := e
    obtain ⟨w₁, hstep, hrest⟩ := Option.bind_eq_some_iff.mp h
    obtain ⟨hone, hsafe⟩ := hsafe
    obtain ⟨hj', hl'⟩ := step_keeps hK hj hl hstep
    exact ih (hi.step hR hj (hl k) hone hstep) hj' hl' (hsafe w₁ hstep) hrest

theorem step_order {k j : Nat} (h : step sys calls w k x = some w')
    (hj : j ∈ w'.order) : j ∈ w.order ∨ j = k := by
  unfold step at h
  split at h
  next => cases h
  next =>
    split at h
    next => cases h
    next =>
      cases h
      exact Or.inl hj
    next =>
      cases h
      simpa [World.finish] using hj

theorem run_order {j : Nat} (h : run sys calls w events = some w') (hj : j ∈ w'.order) :
    j ∈ w.order ∨ j ∈ events.map (·.1) := by
  induction events generalizing w with
  | nil =>
    cases h
    exact Or.inl hj
  | cons e events ih =>
    obtain ⟨w₁, hstep, hrest⟩ := Option.bind_eq_some_iff.mp h
    rcases ih hrest with hin | hin
    · rcases step_order hstep hin with hw | rfl
      · exact Or.inl hw
      · exact Or.inr (by simp)
    · exact Or.inr (List.mem_cons_of_mem _ hin)

include hK hR in
/-- If every call is untouched at its last stage, or put right by it, the shared state is that of
the ended calls in the order of their ends. -/
theorem run_serial {w : World σ τ} (h₀ : J s₀)
    (hsafe : SafeRun sys calls R (init sys calls s₀) events)
    (h : run sys calls (init sys calls s₀) events = some w) :
    w.order.Nodup ∧ (∀ k, (w.thread k).ended = true ↔ k ∈ w.order) ∧
      ∃ plan : List (Nat × List ω), plan.map (·.1) = w.order ∧
        serial sys calls s₀ plan = some w.shared := by
  have hi := (inv_init sys calls s₀).run hK hR h₀ hK.start hsafe h
  exact ⟨hi.nodup, hi.ended, hi.serial⟩

theorem order_perm {n : Nat} {w : World σ τ}
    (hnames : ∀ e ∈ events, e.1 < n) (h : run sys calls (init sys calls s₀) events = some w)
    (hnodup : w.order.Nodup) (hended : ∀ k, (w.thread k).ended = true ↔ k ∈ w.order)
    (hall : ∀ k, k < n → (w.thread k).ended = true) : w.order.Perm (List.range n) := by
  refine (List.perm_ext_iff_of_nodup hnodup List.nodup_range).mpr fun k => ?_
  rw [List.mem_range]
  constructor
  · intro hk
    rcases run_order h hk with hk | hk
    · cases hk
    · obtain ⟨e, he, rfl⟩ := List.mem_map.mp hk
      exact hnames e he
  · intro hk
    exact (hended k).mp (hall k hk)

end Runs

end

end StagedCalls
