import Oifs.AutoDefragCalls

namespace Oifs

/-! Waits that begin after a request to stop. -/

namespace AutoDefrag

open Interleaving

def WorkerPc.asleep : WorkerPc → Bool
  | .waiting _ _ | .ended => true
  | _ => false

/-- The worker looks at the flag, or at a disabled configuration, before it waits. -/
def System.AtRest (s : System) (w : Nat) : Prop :=
  (s.workers w).asleep = true ∨ s.config.enabled = false ∧ ∀ interval, s.workers w ≠ .sleepy interval

/-- The flag is set only while all workers are at rest; as long as it is set, they stay so. -/
def Careful (s : System) : Event → Prop
  | .call c _ =>
    (s.calls c = .setStop → ∀ w, s.AtRest w) ∧
    (∀ cfg, s.calls c = .store cfg → s.stop = true → cfg.enabled = true →
      ∀ w, (s.workers w).asleep = true) ∧
    (s.calls c = .ensureWorker → s.stop = true → s.handle = none → s.config.enabled = false)
  | _ => True

def Rested (s : System) : Prop := s.stop = true → ∀ w, s.AtRest w

@[simp] theorem WorkerPc.notify_asleep (p : WorkerPc) : p.notify.asleep = p.asleep := by
  cases p <;> rfl

namespace Rested

variable {s s' : System} {c : Nat}

theorem notifyAll (h : Rested s) : Rested s.notifyAll := by
  intro hstop w
  simpa [System.AtRest] using h hstop w

theorem spawn (h : Rested s) (hoff : s.stop = true → s.config.enabled = false) :
    Rested { s.setWorker s.spawned .head with
      handle := some s.spawned, spawned := s.spawned + 1 } := by
  intro hstop w
  by_cases hnew : w = s.spawned
  · exact .inr ⟨hoff hstop, by simp [hnew]⟩
  · simpa [System.AtRest, hnew] using h hstop w

theorem callStep (h : Rested s) {canSpawn : Bool} (hcareful : Careful s (.call c canSpawn))
    (hstep : s.callStep c canSpawn = some s') : Rested s' := by
  obtain ⟨hset, hstore, hensure⟩ := hcareful
  cases System.callStep_moves hstep with
  | store cfg hpc =>
    intro hstop w
    by_cases hon : cfg.enabled = true
    · exact .inl (hstore cfg hpc hstop hon w)
    · exact (h hstop w).imp_right fun hrest => ⟨Bool.eq_false_iff.mpr hon, hrest.2⟩
  | notify _ => exact h.notifyAll
  | rereadOn _ _ => exact h
  | rereadOff _ _ => exact h
  | registered w _ _ => exact h
  | spawn hpc hhandle => exact h.spawn fun hstop => hensure hpc hstop hhandle
  | noThread _ _ => exact h
  | setStop hpc => exact fun _ => hset hpc
  | notifyStop _ => exact h.notifyAll
  | take w _ _ => exact h
  | takeNone _ _ => exact h
  | joined w _ _ => exact h
  | clearStop _ => exact nofun

theorem workerStep (h : Rested s) {w : Nat} {input : WorkerInput}
    (hstep : s.workerStep w input = some s') : Rested s' := by
  obtain ⟨q, stats, hnext, rfl⟩ := System.workerStep_next hstep
  intro hstop w'
  have hrest := h hstop w'
  by_cases hsame : w' = w
  · subst hsame
    unfold System.AtRest at hrest
    generalize s.workers w' = old at hnext hrest
    have hoff : old.asleep = false → s.config.enabled = false :=
      fun hawake => (hrest.resolve_left (by simp [hawake])).1
    simp only [System.AtRest, System.setWorker_workers, Function.update_self,
      System.setWorker_config]
    cases hnext with
    | exit _ => exact .inl rfl
    | tick hon => exact absurd (hon.symm.trans (hoff rfl)) (by decide)
    | wait interval => exact .inl rfl
    | stopped _ => exact .inl rfl
    | woken hclear => exact absurd (hstop.symm.trans hclear) (by decide)
    | dropped _ => exact .inl rfl
    | entered _ => exact .inr ⟨hoff rfl, nofun⟩
    | disabled _ => exact .inr ⟨hoff rfl, nofun⟩
    | measure _ => exact .inr ⟨hoff rfl, nofun⟩
    | unmeasured cfg => exact .inr ⟨hoff rfl, nofun⟩
    | measured cfg frag => exact .inr ⟨hoff rfl, nofun⟩
    | skipped cfg frag => exact .inr ⟨hoff rfl, nofun⟩
    | pass cfg frag => exact .inr ⟨hoff rfl, nofun⟩
    | passed => exact .inr ⟨hoff rfl, nofun⟩
  · simpa [System.AtRest, hsame] using hrest

theorem step (h : Rested s) {e : Event} (hcareful : Careful s e) (hstep : s.step e = some s') :
    Rested s' := by
  cases e with
  | enter c call =>
    obtain ⟨-, ⟨cfg, -, rfl⟩ | ⟨-, rfl⟩⟩ := System.enterCall_enters hstep
    · exact h
    · exact h
  | call c canSpawn => exact h.callStep hcareful hstep
  | worker w input => exact h.workerStep hstep

end Rested

def System.BeginsWait (s : System) : Event → Prop
  | .worker w _ => ∃ interval, s.workers w = .sleepy interval
  | _ => False

/-- No wait begins while the flag is set. -/
theorem wait_begins_unstopped {journaled : Bool} {events : List Event} {s : System} {e : Event}
    (hrun : run System.step (.init journaled) events = some s)
    (hcareful : Meets System.step Careful (.init journaled) events) (hwait : s.BeginsWait e) :
    s.stop = false := by
  have hrested : Rested s := run_keeps (fun h he hstep => h.step he hstep)
    (fun hstop => absurd hstop Bool.false_ne_true) hcareful hrun
  cases e with
  | enter c call => exact hwait.elim
  | call c canSpawn => exact hwait.elim
  | worker w input =>
    obtain ⟨interval, hw⟩ := hwait
    by_contra hstop
    rcases hrested (Bool.not_eq_false _ ▸ hstop) w with hasleep | ⟨-, hnot⟩
    · rw [hw] at hasleep
      cases hasleep
    · exact hnot interval hw

theorem careful_unstopped {s : System} {c : Nat} {canSpawn : Bool} (hstop : s.stop = false)
    (hcall : s.calls c ≠ .setStop) : Careful s (.call c canSpawn) := by
  refine ⟨fun hpc => absurd hpc hcall, ?_, ?_⟩
  · intro cfg _ hset
    exact absurd (hset.symm.trans hstop) (by decide)
  · intro _ hset
    exact absurd (hset.symm.trans hstop) (by decide)

theorem careful_stopping {s : System} {c : Nat} {canSpawn : Bool} (hset : s.calls c ≠ .setStop)
    (hstops : (s.calls c).stops = true) : Careful s (.call c canSpawn) := by
  refine ⟨fun hpc => absurd hpc hset, fun cfg hpc => ?_, fun hpc => ?_⟩
  · rw [hpc] at hstops
    cases hstops
  · rw [hpc] at hstops
    cases hstops

/-- The thread is in its first wait when it is stopped; the flag is cleared and a second thread is
started. -/
def restartEvents : List Event :=
  enableEvents 0 ++ List.replicate 2 (.worker 0 plainInput) ++
    .enter 1 .stopAutoDefrag :: List.replicate 3 (.call 1 true) ++ .worker 0 plainInput ::
      List.replicate 2 (.call 1 true) ++ enableEvents 2 ++ [.worker 1 plainInput]

theorem restartEvents_careful : Meets System.step Careful (.init false) restartEvents := by
  refine .cons trivial rfl (.cons (careful_unstopped rfl nofun) rfl ?_)
  refine .cons (careful_unstopped rfl nofun) rfl (.cons (careful_unstopped rfl nofun) rfl ?_)
  refine .cons (careful_unstopped rfl nofun) rfl (.cons trivial rfl (.cons trivial rfl ?_))
  -- the flag is set while the only thread waits
  refine .cons trivial rfl (.cons ⟨fun _ w => .inl ?_, nofun, nofun⟩ rfl ?_)
  · match w with
    | 0 => rfl
    | w + 1 => rfl
  refine .cons (careful_stopping nofun rfl) rfl (.cons (careful_stopping nofun rfl) rfl ?_)
  refine .cons trivial rfl (.cons (careful_stopping nofun rfl) rfl ?_)
  refine .cons (careful_stopping nofun rfl) rfl (.cons trivial rfl ?_)
  refine .cons (careful_unstopped rfl nofun) rfl (.cons (careful_unstopped rfl nofun) rfl ?_)
  refine .cons (careful_unstopped rfl nofun) rfl (.cons (careful_unstopped rfl nofun) rfl ?_)
  exact .cons trivial rfl trivial

theorem wait_begins_unstopped_restarted :
    (∃ s, run System.step (.init false) (restartEvents.take 9) = some s ∧ s.stop = true) ∧
    ∃ s, run System.step (.init false) restartEvents = some s ∧ s.workers 0 = .ended ∧
      s.BeginsWait (.worker 1 plainInput) ∧ s.stop = false := by
  have hrun : ∃ s, run System.step (.init false) restartEvents = some s ∧ s.workers 0 = .ended ∧
      s.BeginsWait (.worker 1 plainInput) := ⟨_, rfl, rfl, _, rfl⟩
  obtain ⟨s, hrun, hended, hwait⟩ := hrun
  exact ⟨⟨_, rfl, rfl⟩, s, hrun, hended, hwait,
    wait_begins_unstopped hrun restartEvents_careful hwait⟩

/-- `stop_auto_defrag` during a pass: its notification reaches nobody, and the thread begins a whole
interval of waiting with the flag set. -/
theorem stop_during_pass_missed :
    ∃ events s, run System.step (.init false) events = some s ∧ s.stop = true ∧
      s.BeginsWait (.worker 0 plainInput) ∧ ∃ s', s.step (.worker 0 plainInput) = some s' ∧
        s'.workers 0 = .waiting 300000000000 false ∧ s'.calls 1 = .join 0 ∧
        ∀ c, c ≠ 1 → s'.calls c = .idle := by
  refine ⟨enableEvents 0 ++ List.replicate 7 (.worker 0 plainInput) ++
    .enter 1 .stopAutoDefrag :: List.replicate 3 (.call 1 true) ++
    List.replicate 2 (.worker 0 plainInput), _, rfl, ?_⟩
  refine ⟨rfl, ⟨_, rfl⟩, _, rfl, ?_, ?_, ?_⟩
  · rfl
  · rfl
  · intro c hc
    match c with
    | 0 => rfl
    | 1 => exact absurd rfl hc
    | c + 2 => rfl

/-- No thread is lost: each that runs is registered or waited for, and while no call waits for one
there is at most one. -/
theorem running_worker_accounted {journaled : Bool} {events : List Event} {s : System} {w : Nat}
    (hrun : run System.step (.init journaled) events = some s) (hw : s.workers w ≠ .ended) :
    (s.handle = some w ∨ s.Joins w) ∧
      ∀ w', s.workers w' ≠ .ended → (∀ v, ¬s.Joins v) → w' = w := by
  have howned : Owned s := run_keeps (C := fun _ _ => True) (fun h _ hstep => h.step hstep)
    (Owned.init journaled) (meets_of_forall (fun _ _ _ => trivial) _) hrun
  refine ⟨howned.held w hw, fun w' hw' hnone => ?_⟩
  have hmine := (howned.held w hw).resolve_right (hnone w)
  have hother := (howned.held w' hw').resolve_right (hnone w')
  exact Option.some.inj (hother.symm.trans hmine)

theorem running_worker_accounted_first :
    ∃ s, run System.step (.init false) (enableEvents 0) = some s ∧ s.workers 0 = .head ∧
      (s.handle = some 0 ∨ s.Joins 0) := by
  have hrun : ∃ s, run System.step (.init false) (enableEvents 0) = some s ∧
      s.workers 0 = .head := ⟨_, rfl, rfl⟩
  obtain ⟨s, hrun, hhead⟩ := hrun
  refine ⟨s, hrun, hhead, (running_worker_accounted hrun ?_).1⟩
  rw [hhead]
  decide

end AutoDefrag

end Oifs
