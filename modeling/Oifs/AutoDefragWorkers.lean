import Oifs.AutoDefrag

namespace Oifs

/-! Workers and their handles. -/

namespace AutoDefrag

namespace WorkerPc

@[simp] theorem notify_eq_ended {p : WorkerPc} : p.notify = .ended ↔ p = .ended := by
  cases p <;> simp [notify]

@[simp] theorem notify_eq_head {p : WorkerPc} : p.notify = .head ↔ p = .head := by
  cases p <;> simp [notify]

@[simp] theorem notify_eq_sleepy {p : WorkerPc} {n : Nat} : p.notify = .sleepy n ↔ p = .sleepy n := by
  cases p <;> simp [notify]

end WorkerPc

def CallPc.beforeTake : CallPc → Bool
  | .notify | .reread | .setStop | .notifyStop | .takeHandle => true
  | _ => false

namespace System

def Joins (s : System) (w : Nat) : Prop := ∃ c, s.calls c = .join w

def Takes (s : System) : Prop := ∃ c, (s.calls c).beforeTake = true

variable {s : System} {c w : Nat} {p : CallPc}

theorem Joins.setCall (h : s.Joins w) (hc : s.calls c ≠ .join w) : (s.setCall c p).Joins w :=
  Interleaving.exists_move_old (P := (· = CallPc.join w)) h hc

theorem Takes.setCall (h : s.Takes) (hc : (s.calls c).beforeTake = true → p.beforeTake = true) :
    (s.setCall c p).Takes := by
  by_cases hp : p.beforeTake = true
  · exact Interleaving.exists_move_new (P := (CallPc.beforeTake · = true)) hp
  · exact Interleaving.exists_move_old (P := (CallPc.beforeTake · = true)) h fun hb => hp (hc hb)

end System

/-- Every running thread is registered or waited for. While disabled, a call will take the handle,
or threads nobody waits for end at their next step. -/
structure Owned (s : System) : Prop where
  held : ∀ w, s.workers w ≠ .ended → s.handle = some w ∨ s.Joins w
  drained : s.config.enabled = false → s.Takes ∨
    ∀ w, s.workers w = .ended ∨ s.workers w = .head ∨ s.Joins w

namespace Owned

variable {s s' : System}

theorem init (journaled : Bool) : Owned (.init journaled) where
  held _ h := (h rfl).elim
  drained _ := .inr fun _ => .inl rfl

theorem move (h : Owned s) {c : Nat} {p : CallPc} (hjoin : ∀ w, s.calls c ≠ .join w)
    (htake : (s.calls c).beforeTake = true → p.beforeTake = true) : Owned (s.setCall c p) where
  held w hw := (h.held w hw).imp_right fun hc => hc.setCall (hjoin w)
  drained hoff := by
    refine (h.drained hoff).imp (fun htakes => htakes.setCall htake) ?_
    intro hall w
    exact (hall w).imp_right (Or.imp_right fun hc => hc.setCall (hjoin w))

theorem of_joins (h : ∀ w, s.workers w ≠ .ended → s.Joins w) : Owned s where
  held w hw := .inr (h w hw)
  drained _ := by
    refine .inr fun w => ?_
    by_cases hended : s.workers w = .ended
    · exact .inl hended
    · exact .inr (.inr (h w hended))

theorem notifyAll (h : Owned s) : Owned s.notifyAll where
  held w hw := h.held w fun hended => hw (by simpa using hended)
  drained hoff := by
    refine (h.drained hoff).imp_right ?_
    intro hall w
    simpa [System.Joins] using hall w

theorem spawn (h : Owned s) (hhandle : s.handle = none) :
    Owned { s.setWorker s.spawned .head with
      handle := some s.spawned, spawned := s.spawned + 1 } where
  held w hw := by
    by_cases hnew : w = s.spawned
    · exact .inl (hnew ▸ rfl)
    · refine .inr ((h.held w (by simpa [hnew] using hw)).resolve_left ?_)
      rw [hhandle]
      exact nofun
  drained hoff := by
    refine (h.drained hoff).imp_right ?_
    intro hall w
    by_cases hnew : w = s.spawned
    · exact .inr (.inl (by simp [hnew]))
    · simpa [hnew, System.Joins] using hall w

theorem callStep (h : Owned s) {c : Nat} {canSpawn : Bool}
    (hstep : s.callStep c canSpawn = some s') : Owned s' := by
  cases System.callStep_moves hstep with
  | store cfg hpc =>
    refine ⟨?_, ?_⟩
    · intro w hw
      exact (h.held w hw).imp_right fun hc => hc.setCall (s := s) (by simp [hpc])
    · intro _
      exact .inl ⟨c, by simp [CallPc.beforeTake]⟩
  | notify hpc => exact h.notifyAll.move (by simp [hpc]) fun _ => rfl
  | rereadOn hpc hon =>
    refine ⟨?_, ?_⟩
    · intro w hw
      exact (h.held w hw).imp_right fun hc => hc.setCall (by simp [hpc])
    · intro hoff
      exact absurd (hon.symm.trans hoff) (by decide)
  | rereadOff hpc hoff => exact h.move (by simp [hpc]) fun _ => rfl
  | registered w hpc _ => exact h.move (by simp [hpc]) (by simp [hpc, CallPc.beforeTake])
  | noThread hpc _ => exact h.move (by simp [hpc]) (by simp [hpc, CallPc.beforeTake])
  | spawn hpc hhandle =>
    exact (h.spawn hhandle).move (by simp [hpc]) (by simp [hpc, CallPc.beforeTake])
  | setStop hpc =>
    have hset : Owned { s with stop := true } := ⟨h.held, h.drained⟩
    exact hset.move (by simp [hpc]) fun _ => rfl
  | notifyStop hpc => exact h.notifyAll.move (by simp [hpc]) fun _ => rfl
  | take w hpc hhandle =>
    refine .of_joins fun w' hw' => ?_
    rcases h.held w' hw' with hmine | hother
    · cases hhandle.symm.trans hmine
      exact ⟨c, by simp⟩
    · exact hother.setCall (s := s) (by simp [hpc])
  | takeNone hpc hhandle =>
    refine .of_joins fun w' hw' => ?_
    have hother : s.Joins w' := by
      refine (h.held w' hw').resolve_left ?_
      rw [hhandle]
      exact nofun
    exact hother.setCall (s := s) (by simp [hpc])
  | joined w hpc hended =>
    have hkeep : ∀ w', s.workers w' ≠ .ended → s.Joins w' → (s.setCall c .clearStop).Joins w' := by
      intro w' hw' hc
      refine hc.setCall ?_
      rw [hpc]
      rintro ⟨rfl⟩
      exact hw' hended
    refine ⟨fun w' hw' => (h.held w' hw').imp_right (hkeep w' hw'), fun hoff => ?_⟩
    refine (h.drained hoff).imp (fun ht => ht.setCall (by simp [hpc, CallPc.beforeTake])) ?_
    intro hall w'
    by_cases hended' : s.workers w' = .ended
    · exact .inl hended'
    · exact (hall w').imp_right (Or.imp_right (hkeep w' hended'))
  | clearStop hpc =>
    have hclear : Owned { s with stop := false } := ⟨h.held, h.drained⟩
    exact hclear.move (by simp [hpc]) (by simp [hpc, CallPc.beforeTake])

theorem workerStep (h : Owned s) {w : Nat} {input : WorkerInput}
    (hstep : s.workerStep w input = some s') : Owned s' := by
  obtain ⟨q, stats, hnext, rfl⟩ := System.workerStep_next hstep
  have hlive : s.workers w ≠ .ended := by
    intro hended
    rw [hended] at hnext
    cases hnext
  refine ⟨?_, ?_⟩
  · intro w' hw'
    by_cases hsame : w' = w
    · subst hsame
      exact h.held w' hlive
    · exact h.held w' (by simpa [hsame] using hw')
  · intro hoff
    refine (h.drained hoff).imp_right ?_
    intro hall w'
    by_cases hsame : w' = w
    · subst hsame
      rcases hall w' with hended | hhead | hjoin
      · exact absurd hended hlive
      · rw [hhead] at hnext
        cases hnext with
        | exit _ => exact .inl (by simp)
        | tick hon => exact absurd (hon.symm.trans hoff) (by decide)
      · exact .inr (.inr hjoin)
    · simpa [hsame, System.Joins] using hall w'

theorem enterCall (h : Owned s) {c : Nat} {call : Call} (hstep : s.enterCall c call = some s') :
    Owned s' := by
  obtain ⟨hidle, ⟨cfg, -, rfl⟩ | ⟨-, rfl⟩⟩ := System.enterCall_enters hstep
  · exact h.move (by simp [hidle]) (by simp [hidle, CallPc.beforeTake])
  · exact h.move (by simp [hidle]) fun _ => rfl

theorem step (h : Owned s) {e : Event} (hstep : s.step e = some s') : Owned s' := by
  cases e with
  | enter c call => exact h.enterCall hstep
  | call c canSpawn => exact h.callStep hstep
  | worker w input => exact h.workerStep hstep

end Owned

end AutoDefrag

end Oifs
