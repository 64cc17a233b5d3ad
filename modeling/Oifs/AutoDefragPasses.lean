import Oifs.AutoDefragStops

namespace Oifs

/-! What a pass is begun under. -/

namespace AutoDefrag

open Interleaving

def Config.Clamped (cfg : Config) : Prop :=
  minCheckInterval ≤ cfg.checkInterval ∧
    ∃ t, cfg.fragmentationThreshold = some t ∧ 0 ≤ t ∧ t ≤ 1

theorem Config.sanitized_clamped (cfg : Config) : cfg.sanitized.Clamped :=
  ⟨le_max_right _ _, _, rfl, le_max_left _ _, max_le zero_le_one (min_le_left _ _)⟩

/-- The configuration that `run_once` has taken. -/
def WorkerPc.taken : WorkerPc → Option Config
  | .measuring cfg | .deciding cfg _ => some cfg
  | _ => none

structure Clamped (journaled : Bool) (s : System) : Prop where
  image : s.journaled = journaled
  stored : s.config.Clamped
  taken : ∀ w cfg, (s.workers w).taken = some cfg → cfg.enabled = true ∧ cfg.Clamped

@[simp] theorem WorkerPc.notify_taken (p : WorkerPc) : p.notify.taken = p.taken := by
  cases p <;> rfl

theorem Clamped.init (journaled : Bool) : Clamped journaled (.init journaled) where
  image := rfl
  stored := by
    change Config.default.Clamped
    rw [show Config.default = Config.default.sanitized by decide +kernel]
    exact Config.sanitized_clamped _
  taken w cfg h := by cases h

theorem Clamped.step {journaled : Bool} {s s' : System} {e : Event} (h : Clamped journaled s)
    (hstep : s.step e = some s') : Clamped journaled s' := by
  cases e with
  | enter c call =>
    obtain ⟨-, ⟨cfg, -, rfl⟩ | ⟨-, rfl⟩⟩ := System.enterCall_enters hstep <;>
      exact ⟨h.image, h.stored, h.taken⟩
  | call c canSpawn =>
    cases System.callStep_moves hstep with
    | store cfg _ => exact ⟨h.image, cfg.sanitized_clamped, h.taken⟩
    | spawn =>
      refine ⟨h.image, h.stored, fun w cfg hw => ?_⟩
      by_cases hnew : w = s.spawned
      · subst hnew
        simp [WorkerPc.taken] at hw
      · exact h.taken w cfg (by simpa [hnew] using hw)
    | notify | notifyStop => exact ⟨h.image, h.stored, by simpa using h.taken⟩
    | _ => exact ⟨h.image, h.stored, h.taken⟩
  | worker w input =>
    obtain ⟨q, stats, hnext, rfl⟩ := System.workerStep_next hstep
    refine ⟨h.image, h.stored, fun w' cfg hw => ?_⟩
    by_cases hsame : w' = w
    · subst hsame
      have htaken := h.taken w'
      simp only [System.setWorker_workers, Function.update_self] at hw
      generalize s.workers w' = p at hnext htaken
      cases hnext with
      | measure hon =>
        cases hw
        exact ⟨hon, h.stored⟩
      | measured cfg' frag => exact htaken cfg hw
      | _ => cases hw
    · exact h.taken w' cfg (by simpa [hsame] using hw)

/-- No pass begins but under an enabled configuration that asks for it: the ratio has reached a
threshold between 0 and 1, the free blocks suffice, and a journaled image is allowed. -/
theorem pass_begins_asked {journaled : Bool} {events : List Event} {s s' : System} {w : Nat}
    {input : WorkerInput} (hrun : run System.step (.init journaled) events = some s)
    (hstep : s.step (.worker w input) = some s') (hpass : s'.workers w = .passing) :
    ∃ cfg frag t, s.workers w = .deciding cfg frag ∧ cfg.enabled = true ∧
      cfg.fragmentationThreshold = some t ∧ 0 ≤ t ∧ t ≤ 1 ∧ t ≤ frag.fragmentationRatio ∧
      cfg.minFreeBlocks ≤ frag.freeBlocks ∧ (journaled = true → cfg.allowJournaled = true) := by
  have hclamped : Clamped journaled s := run_keeps (C := fun _ _ => True)
    (fun h _ hstep => h.step hstep) (Clamped.init journaled)
    (meets_of_forall (fun _ _ _ => trivial) _) hrun
  have hpc : ∃ cfg frag, s.workers w = .deciding cfg frag := by
    obtain ⟨q, stats, hnext, rfl⟩ := System.workerStep_next hstep
    rw [show q = .passing by simpa using hpass] at hnext
    generalize s.workers w = p at hnext
    cases hnext with
    | pass cfg frag => exact ⟨cfg, frag, rfl⟩
  obtain ⟨cfg, frag, hpc⟩ := hpc
  obtain ⟨hon, -, t, ht, hlow, hhigh⟩ := hclamped.taken w cfg (by rw [hpc]; rfl)
  have hskip : skipReason cfg frag journaled = none := by
    by_contra hne
    obtain ⟨reason, hreason⟩ := Option.ne_none_iff_exists'.mp hne
    simp only [System.step, System.workerStep, hpc, hclamped.image, hreason] at hstep
    cases hstep
    simp at hpass
  refine ⟨cfg, frag, t, hpc, hon, ht, hlow, hhigh, ?_⟩
  unfold skipReason at hskip
  split_ifs at hskip with hratio hfree hjournal
  simp_all

theorem pass_begins_asked_first : ∃ s s' cfg frag,
    run System.step (.init false) (enableEvents 0 ++ List.replicate 6 (.worker 0 plainInput)) =
      some s ∧ s.step (.worker 0 plainInput) = some s' ∧ s'.workers 0 = .passing ∧
      s.workers 0 = .deciding cfg frag ∧ cfg.enabled = true := by
  have hrun : ∃ s s', run System.step (.init false)
      (enableEvents 0 ++ List.replicate 6 (.worker 0 plainInput)) = some s ∧
      s.step (.worker 0 plainInput) = some s' ∧ s'.workers 0 = .passing := ⟨_, _, rfl, rfl, rfl⟩
  obtain ⟨s, s', hrun, hstep, hpass⟩ := hrun
  obtain ⟨cfg, frag, t, hpc, hon, -⟩ := pass_begins_asked hrun hstep hpass
  exact ⟨s, s', cfg, frag, hrun, hstep, hpass, hpc, hon⟩

end AutoDefrag

end Oifs
