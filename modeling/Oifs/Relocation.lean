import Mathlib.Data.Set.Finite.Basic
import Mathlib.Data.Fintype.Card
import Mathlib.Logic.Function.Basic

/-! Moving the contents of places to other places, one after another and with one spare copy. -/

namespace Relocation

variable {ι β : Type*} [DecidableEq ι]

def Distinct (moves : ι → Option ι) : Prop :=
  ∀ s s' d, moves s = some d → moves s' = some d → s = s'

def drop (moves : ι → Option ι) (s : ι) : ι → Option ι := Function.update moves s none

variable {moves pending : ι → Option ι} {start now : ι → β} {saved : Option ι} {s d b L c : ι}

theorem drop_eq_some : drop pending s b = some d ↔ b ≠ s ∧ pending b = some d := by
  unfold drop
  by_cases h : b = s
  · simp [h]
  · simp [h]

theorem drop_eq_none : drop pending s b = none ↔ b = s ∨ pending b = none := by
  unfold drop
  by_cases h : b = s
  · simp [h]
  · simp [h]

/-- With `pending` still to be done: its sources are intact, all but the saved one, and the other
moves are done. -/
structure Relocated (moves : ι → Option ι) (start : ι → β) (pending : ι → Option ι)
    (saved : Option ι) (now : ι → β) : Prop where
  sub : ∀ s d, pending s = some d → moves s = some d
  kept : ∀ s d, pending s = some d → saved ≠ some s → now s = start s
  done : ∀ s d, moves s = some d → pending s = none → now d = start s
  rest : ∀ b, (∀ s, moves s ≠ some b) → now b = start b

namespace Relocated

omit [DecidableEq ι] in
theorem refl (moves : ι → Option ι) (start : ι → β) : Relocated moves start moves none start where
  sub _ _ h := h
  kept _ _ _ _ := rfl
  done s d h hnone := by
    rw [h] at hnone
    cases hnone
  rest _ _ := rfl

omit [DecidableEq ι] in
theorem save (h : Relocated moves start pending none now) (L : ι) :
    Relocated moves start pending (some L) now where
  sub := h.sub
  kept s d hs _ := h.kept s d hs (by simp)
  done := h.done
  rest := h.rest

theorem put (hd : Distinct moves) (h : Relocated moves start pending saved now)
    (hs : pending s = some d) (hfree : pending d = none ∨ saved = some d ∨ d = s) :
    Relocated moves start (drop pending s) saved (Function.update now d (start s)) where
  sub b t hb := h.sub b t (drop_eq_some.mp hb).2
  kept b t hb hne := by
    obtain ⟨hbs, hb⟩ := drop_eq_some.mp hb
    have hbd : b ≠ d := by
      rintro rfl
      rcases hfree with hnone | hsaved | heq
      · rw [hnone] at hb
        cases hb
      · exact hne hsaved
      · exact hbs heq
    rw [Function.update_of_ne hbd]
    exact h.kept b t hb hne
  done b t hb hnone := by
    by_cases hbs : b = s
    · subst hbs
      have htd : t = d := Option.some.inj (hb.symm.trans (h.sub b d hs))
      rw [htd, Function.update_self]
    · have hpending : pending b = none := by
        rcases drop_eq_none.mp hnone with heq | hnone
        · exact (hbs heq).elim
        · exact hnone
      have htd : t ≠ d := by
        rintro rfl
        exact hbs (hd b s t hb (h.sub s t hs))
      rw [Function.update_of_ne htd]
      exact h.done b t hb hpending
  rest b hb := by
    have hbd : b ≠ d := by
      rintro rfl
      exact hb s (h.sub s b hs)
    rw [Function.update_of_ne hbd]
    exact h.rest b hb

theorem copy (hd : Distinct moves) (h : Relocated moves start pending saved now)
    (hs : pending s = some d) (hsaved : saved ≠ some s)
    (hfree : pending d = none ∨ saved = some d) :
    Relocated moves start (drop pending s) saved (Function.update now d (now s)) := by
  rw [h.kept s d hs hsaved]
  exact h.put hd hs (hfree.imp_right Or.inl)

theorem restore (hd : Distinct moves) (h : Relocated moves start pending (some L) now)
    (hL : pending L = some c) (hfree : pending c = none ∨ c = L) :
    Relocated moves start (drop pending L) none (Function.update now c (start L)) := by
  have hput := h.put hd hL (hfree.imp_right Or.inr)
  refine ⟨hput.sub, fun b t hb _ => hput.kept b t hb ?_, hput.done, hput.rest⟩
  intro heq
  exact (drop_eq_some.mp hb).1 (Option.some.inj heq).symm

end Relocated

/-! Cycles. -/

def Closed (pending : ι → Option ι) : Prop := ∀ s d, pending s = some d → (pending d).isSome

structure OnCycle (pending : ι → Option ι) (L c : ι) : Prop where
  leader : (pending L).isSome
  hole : c = L ∨ pending c = none
  enters : ∃ p, pending p = some c
  entered : ∀ s, (pending s).isSome → s ≠ L → ∃ p, pending p = some s
  leads : ∀ s d, pending s = some d → d = c ∨ d ≠ L ∧ (pending d).isSome

omit [DecidableEq ι] in
theorem Closed.entered (hc : Closed pending) (hd : Distinct pending)
    (hfin : {s | (pending s).isSome}.Finite) (hs : (pending s).isSome) :
    ∃ p, pending p = some s := by
  have hfinite : Finite {s | (pending s).isSome} := hfin
  let next : {s | (pending s).isSome} → {s | (pending s).isSome} := fun x =>
    ⟨(pending x.1).get x.2, hc x.1 _ (Option.some_get x.2).symm⟩
  have hinj : Function.Injective next := by
    intro x y hxy
    have heq : (pending x.1).get x.2 = (pending y.1).get y.2 := congrArg Subtype.val hxy
    apply Subtype.ext
    apply hd x.1 y.1 _ (Option.some_get x.2).symm
    rw [heq, Option.some_get]
  obtain ⟨p, hp⟩ := Finite.surjective_of_injective hinj ⟨s, hs⟩
  refine ⟨p.1, ?_⟩
  have hval : (pending p.1).get p.2 = s := congrArg Subtype.val hp
  rw [← hval, Option.some_get]

namespace OnCycle

theorem start_cycle (hc : Closed pending) (hd : Distinct pending)
    (hfin : {s | (pending s).isSome}.Finite) (hL : (pending L).isSome) : OnCycle pending L L where
  leader := hL
  hole := .inl rfl
  enters := hc.entered hd hfin hL
  entered _ hs _ := hc.entered hd hfin hs
  leads s d hs := by
    by_cases h : d = L
    · exact .inl h
    · exact .inr ⟨h, hc s d hs⟩

theorem step (hd : Distinct pending) (h : OnCycle pending L c) (hs : pending s = some c)
    (hne : s ≠ L) : OnCycle (drop pending s) L s := by
  have hsome : (pending s).isSome := by rw [hs]; rfl
  have hsc : s ≠ c := by
    rintro rfl
    rcases h.hole with heq | hnone
    · exact hne heq
    · rw [hnone] at hs
      cases hs
  refine ⟨?_, .inr (drop_eq_none.mpr (.inl rfl)), ?_, fun b hb hbL => ?_, fun b t hb => ?_⟩
  · obtain ⟨d, hL⟩ := Option.isSome_iff_exists.mp h.leader
    rw [drop_eq_some.mpr ⟨fun heq => hne heq.symm, hL⟩]
    rfl
  · obtain ⟨p, hp⟩ := h.entered s hsome hne
    refine ⟨p, drop_eq_some.mpr ⟨?_, hp⟩⟩
    rintro rfl
    exact hsc (Option.some.inj (hp.symm.trans hs))
  · obtain ⟨t, ht⟩ := Option.isSome_iff_exists.mp hb
    obtain ⟨hbs, hb⟩ := drop_eq_some.mp ht
    have hbsome : (pending b).isSome := by rw [hb]; rfl
    obtain ⟨p, hp⟩ := h.entered b hbsome hbL
    refine ⟨p, drop_eq_some.mpr ⟨?_, hp⟩⟩
    rintro rfl
    -- the move into the hole starts at `s`, and the hole is no source but the leader
    have hbc : b = c := Option.some.inj (hp.symm.trans hs)
    rcases h.hole with heq | hnone
    · exact hbL (hbc.trans heq)
    · rw [hbc, hnone] at hbsome
      cases hbsome
  · obtain ⟨hbs, hb⟩ := drop_eq_some.mp hb
    rcases h.leads b t hb with rfl | ⟨htL, htsome⟩
    · exact (hbs (hd b s t hb hs)).elim
    · by_cases hts : t = s
      · exact .inl hts
      · obtain ⟨u, hu⟩ := Option.isSome_iff_exists.mp htsome
        rw [drop_eq_some.mpr ⟨hts, hu⟩]
        exact .inr ⟨htL, rfl⟩

theorem finish (hd : Distinct pending) (h : OnCycle pending L c) (hL : pending L = some c) :
    Closed (drop pending L) := by
  intro s d hs
  obtain ⟨hsL, hs⟩ := drop_eq_some.mp hs
  rcases h.leads s d hs with rfl | ⟨hdL, hdsome⟩
  · exact (hsL (hd s L d hs hL)).elim
  · obtain ⟨u, hu⟩ := Option.isSome_iff_exists.mp hdsome
    rw [drop_eq_some.mpr ⟨hdL, hu⟩]
    rfl

end OnCycle

end Relocation
