import Oifs.AutoDefragWorkers

namespace Oifs

/-! Calls that do not cross. -/

namespace AutoDefrag

namespace CallPc

def underWay : CallPc → Bool
  | .idle | .store _ => false
  | _ => true

def starts : CallPc → Bool
  | .notify | .reread | .ensureWorker => true
  | _ => false

def stops : CallPc → Bool
  | .setStop | .notifyStop | .takeHandle | .join _ | .clearStop => true
  | _ => false

end CallPc

/-- The configuration is switched only while no other call is under way; threads start, the manager
stays and `stop_auto_defrag` is not called. -/
def Orderly (s : System) : Event → Prop
  | .enter _ (.setConfig _) => True
  | .enter _ .stopAutoDefrag => False
  | .call c canSpawn =>
    (∀ cfg, s.calls c = .store cfg → cfg.enabled = s.config.enabled ∨
      ∀ d, d ≠ c → (s.calls d).underWay = false) ∧
    (s.calls c = .ensureWorker → canSpawn = true)
  | .worker _ input => input.alive = true

/-- The calls under way follow the stored configuration. -/
structure Serial (s : System) : Prop where
  calm : s.config.enabled = true → ∀ c, (s.calls c).stops = false
  quiet : s.config.enabled = false → ∀ c, s.calls c ≠ .ensureWorker
  flag : s.stop = true → ∃ c, (s.calls c).stops = true
  off : s.config.enabled = false → s.handle = none ∨ s.Takes
  live : s.config.enabled = true → ∀ w, s.handle = some w → s.workers w ≠ .ended
  on : s.config.enabled = true → s.handle ≠ none ∨ ∃ c, (s.calls c).starts = true

namespace Serial

variable {s s' : System} {c : Nat}

theorem init (journaled : Bool) : Serial (.init journaled) where
  calm h := nomatch h
  quiet _ _ := nofun
  flag h := nomatch h
  off _ := .inl rfl
  live h := nomatch h
  on h := nomatch h

theorem move (h : Serial s) {p : CallPc} (hstops : p.stops = true → s.config.enabled = false)
    (hensure : p = .ensureWorker → s.config.enabled = true)
    (hflag : s.stop = true → (s.calls c).stops = true → p.stops = true)
    (htake : s.config.enabled = false → (s.calls c).beforeTake = true →
      s.handle = none ∨ p.beforeTake = true)
    (hstart : s.config.enabled = true → (s.calls c).starts = true →
      s.handle ≠ none ∨ p.starts = true) : Serial (s.setCall c p) where
  calm hon := by
    apply Interleaving.forall_move (P := (CallPc.stops · = false)) (h.calm hon)
    by_contra hp
    rw [Bool.not_eq_false] at hp
    exact absurd (hon.symm.trans (hstops hp)) (by decide)
  quiet hoff := by
    apply Interleaving.forall_move (P := (· ≠ CallPc.ensureWorker)) (h.quiet hoff)
    intro hp
    exact absurd ((hensure hp).symm.trans hoff) (by decide)
  flag hstop := by
    by_cases hp : p.stops = true
    · exact Interleaving.exists_move_new (P := (CallPc.stops · = true)) hp
    · exact Interleaving.exists_move_old (P := (CallPc.stops · = true)) (h.flag hstop)
        fun hc => hp (hflag hstop hc)
  off hoff := by
    by_cases hnone : s.handle = none
    · exact .inl hnone
    · refine .inr (((h.off hoff).resolve_left hnone).setCall ?_)
      exact fun hc => (htake hoff hc).resolve_left hnone
  live := h.live
  on hon := by
    by_cases hnone : s.handle = none
    · refine .inr ?_
      have hold := (h.on hon).resolve_left (not_not_intro hnone)
      by_cases hp : p.starts = true
      · exact Interleaving.exists_move_new (P := (CallPc.starts · = true)) hp
      · exact Interleaving.exists_move_old (P := (CallPc.starts · = true)) hold
          fun hc => hp ((hstart hon hc).resolve_left (not_not_intro hnone))
    · exact .inl hnone

theorem notifyAll (h : Serial s) : Serial s.notifyAll where
  calm := h.calm
  quiet := h.quiet
  flag := h.flag
  off := h.off
  live hon w hw hended := h.live hon w hw (by simpa using hended)
  on := h.on

theorem store_alone (h : Serial s) {cfg : Config} (hpc : s.calls c = .store cfg)
    (halone : ∀ d, d ≠ c → (s.calls d).underWay = false) :
    Serial ({ s with config := cfg.sanitized }.setCall c .notify) := by
  have hidle : ∀ d, (s.calls d).underWay = false := by
    intro d
    by_cases hd : d = c
    · rw [hd, hpc]
      rfl
    · exact halone d hd
  have hstops : ∀ d, (s.calls d).stops = false := by
    intro d
    have hd := hidle d
    cases hcall : s.calls d <;> simp_all [CallPc.underWay, CallPc.stops]
  have hensure : ∀ d, s.calls d ≠ .ensureWorker := by
    intro d hd
    have hd' := hidle d
    rw [hd] at hd'
    cases hd'
  have htakes : ¬s.Takes := by
    rintro ⟨d, hd⟩
    have hd' := hidle d
    cases hcall : s.calls d <;> simp_all [CallPc.underWay, CallPc.beforeTake]
  refine ⟨?_, ?_, ?_, ?_, ?_, ?_⟩
  · exact fun _ => Interleaving.forall_move (P := (CallPc.stops · = false)) hstops rfl
  · exact fun _ => Interleaving.forall_move (P := (· ≠ CallPc.ensureWorker)) hensure (by simp)
  · intro hstop
    obtain ⟨d, hd⟩ := h.flag hstop
    exact absurd (hd.symm.trans (hstops d)) (by decide)
  · exact fun _ => .inr ⟨c, by simp [CallPc.beforeTake]⟩
  · intro _ w hw
    by_cases hon : s.config.enabled = true
    · exact h.live hon w hw
    · have hnone := (h.off (Bool.eq_false_iff.mpr hon)).resolve_right htakes
      cases hnone.symm.trans hw
  · exact fun _ => .inr ⟨c, by simp [CallPc.starts]⟩

theorem store_same (h : Serial s) {cfg : Config} (hpc : s.calls c = .store cfg)
    (hsame : cfg.enabled = s.config.enabled) :
    Serial ({ s with config := cfg.sanitized }.setCall c .notify) := by
  have hstored : Serial { s with config := cfg.sanitized } := by
    refine ⟨?_, ?_, h.flag, ?_, ?_, ?_⟩
    · exact fun hon => h.calm (hsame ▸ hon)
    · exact fun hoff => h.quiet (hsame ▸ hoff)
    · exact fun hoff => h.off (hsame ▸ hoff)
    · exact fun hon => h.live (hsame ▸ hon)
    · exact fun hon => h.on (hsame ▸ hon)
  apply hstored.move
  · exact nofun
  · exact nofun
  · simp [hpc, CallPc.stops]
  · exact fun _ _ => .inr rfl
  · exact fun _ _ => .inr rfl

theorem spawn (h : Serial s) (hon : s.config.enabled = true) :
    Serial { s.setWorker s.spawned .head with
      handle := some s.spawned, spawned := s.spawned + 1 } where
  calm := h.calm
  quiet := h.quiet
  flag := h.flag
  off hoff := absurd (hon.symm.trans hoff) (by decide)
  live _ w hw := by
    cases hw
    simp
  on _ := .inl nofun

theorem enabled_of_ensure (h : Serial s) (hpc : s.calls c = .ensureWorker) :
    s.config.enabled = true := by
  by_contra hoff
  exact h.quiet (Bool.eq_false_iff.mpr hoff) c hpc

theorem disabled_of_stops (h : Serial s) {p : CallPc} (hpc : s.calls c = p) (hp : p.stops = true) :
    s.config.enabled = false := by
  by_contra hon
  rw [Bool.not_eq_false] at hon
  exact absurd (hp.symm.trans (hpc ▸ h.calm hon c)) (by decide)

theorem take (h : Serial s) {p : CallPc} (hoff : s.config.enabled = false) (hp : p.stops = true) :
    Serial ({ s with handle := none }.setCall c p) := by
  have htaken : Serial { s with handle := none } :=
    ⟨h.calm, h.quiet, h.flag, fun _ => .inl rfl, nofun,
      fun hon => absurd (hon.symm.trans hoff) (by decide)⟩
  apply htaken.move
  · exact fun _ => hoff
  · rintro rfl
    cases hp
  · exact fun _ _ => hp
  · exact fun _ _ => .inl rfl
  · exact fun hon => absurd (hon.symm.trans hoff) (by decide)

theorem callStep (h : Serial s) {canSpawn : Bool} (horderly : Orderly s (.call c canSpawn))
    (hstep : s.callStep c canSpawn = some s') : Serial s' := by
  cases System.callStep_moves hstep with
  | store cfg hpc =>
    rcases horderly.1 cfg hpc with hsame | halone
    · exact h.store_same hpc hsame
    · exact h.store_alone hpc halone
  | notify hpc =>
    apply h.notifyAll.move
    · rintro ⟨⟩
    · rintro ⟨⟩
    · simp [hpc, CallPc.stops]
    · exact fun _ _ => .inr rfl
    · exact fun _ _ => .inr rfl
  | rereadOn hpc hon =>
    apply h.move
    · rintro ⟨⟩
    · exact fun _ => hon
    · simp [hpc, CallPc.stops]
    · exact fun hoff => absurd (hon.symm.trans hoff) (by decide)
    · exact fun _ _ => .inr rfl
  | rereadOff hpc hoff =>
    apply h.move
    · exact fun _ => hoff
    · rintro ⟨⟩
    · exact fun _ _ => rfl
    · exact fun _ _ => .inr rfl
    · exact fun hon => absurd (hon.symm.trans hoff) (by decide)
  | registered w hpc hhandle =>
    apply h.move
    · rintro ⟨⟩
    · rintro ⟨⟩
    · simp [hpc, CallPc.stops]
    · simp [hpc, CallPc.beforeTake]
    · exact fun _ _ => .inl (by simp [hhandle])
  | spawn hpc hhandle =>
    apply (h.spawn (h.enabled_of_ensure hpc)).move
    · rintro ⟨⟩
    · rintro ⟨⟩
    · simp [hpc, CallPc.stops]
    · simp [hpc, CallPc.beforeTake]
    · exact fun _ _ => .inl (by simp)
  | noThread hpc hspawn => exact absurd ((horderly.2 hpc).symm.trans hspawn) (by decide)
  | setStop hpc =>
    have hoff := h.disabled_of_stops hpc rfl
    have hset : Serial { s with stop := true } :=
      ⟨h.calm, h.quiet, fun _ => ⟨c, by simp [hpc, CallPc.stops]⟩, h.off, h.live, h.on⟩
    apply hset.move
    · exact fun _ => hoff
    · rintro ⟨⟩
    · exact fun _ _ => rfl
    · exact fun _ _ => .inr rfl
    · exact fun hon => absurd (hon.symm.trans hoff) (by decide)
  | notifyStop hpc =>
    have hoff := h.disabled_of_stops hpc rfl
    apply h.notifyAll.move
    · exact fun _ => hoff
    · rintro ⟨⟩
    · exact fun _ _ => rfl
    · exact fun _ _ => .inr rfl
    · exact fun hon => absurd (hon.symm.trans hoff) (by decide)
  | take w hpc _ =>
    have hoff := h.disabled_of_stops hpc rfl
    exact h.take hoff rfl
  | takeNone hpc _ =>
    have hoff := h.disabled_of_stops hpc rfl
    exact h.take hoff rfl
  | joined w hpc _ =>
    have hoff := h.disabled_of_stops hpc rfl
    apply h.move
    · exact fun _ => hoff
    · rintro ⟨⟩
    · exact fun _ _ => rfl
    · simp [hpc, CallPc.beforeTake]
    · simp [hpc, CallPc.starts]
  | clearStop hpc =>
    have hclear : Serial { s with stop := false } :=
      ⟨h.calm, h.quiet, by simp, h.off, h.live, h.on⟩
    apply hclear.move
    · rintro ⟨⟩
    · rintro ⟨⟩
    · rintro ⟨⟩
    · simp [hpc, CallPc.beforeTake]
    · simp [hpc, CallPc.starts]

theorem workerStep (h : Serial s) {w : Nat} {input : WorkerInput} (halive : input.alive = true)
    (hstep : s.workerStep w input = some s') : Serial s' := by
  obtain ⟨q, stats, hnext, rfl⟩ := System.workerStep_next hstep
  refine ⟨h.calm, h.quiet, h.flag, h.off, ?_, h.on⟩
  intro hon w' hw'
  by_cases hsame : w' = w
  · subst hsame
    have hq : q ≠ .ended := by
      generalize s.workers w' = old at hnext
      rintro rfl
      cases hnext with
      | exit hoff => exact absurd (hon.symm.trans hoff) (by decide)
      | stopped hstop =>
        obtain ⟨c, hc⟩ := h.flag hstop
        exact absurd (hc.symm.trans (h.calm hon c)) (by decide)
      | dropped hdead => exact absurd (halive.symm.trans hdead) (by decide)
    simpa using hq
  · simpa [hsame] using h.live hon w' hw'

theorem step (h : Serial s) {e : Event} (horderly : Orderly s e) (hstep : s.step e = some s') :
    Serial s' := by
  cases e with
  | enter c call =>
    obtain ⟨hidle, ⟨cfg, -, rfl⟩ | ⟨rfl, -⟩⟩ := System.enterCall_enters hstep
    · apply h.move
      · exact nofun
      · exact nofun
      · simp [hidle, CallPc.stops]
      · simp [hidle, CallPc.beforeTake]
      · simp [hidle, CallPc.starts]
    · exact horderly.elim
  | call c canSpawn => exact h.callStep horderly hstep
  | worker w input => exact h.workerStep horderly hstep

end Serial

namespace Event

def isWorker : Event → Bool
  | .worker _ _ => true
  | _ => false

/-- A call of `set_config` or a step, with threads that start and a live manager. -/
def ordinary : Event → Bool
  | .enter _ (.setConfig _) => true
  | .enter _ .stopAutoDefrag => false
  | .call _ canSpawn => canSpawn
  | .worker _ input => input.alive

def byCaller (c : Nat) : Event → Bool
  | .enter d _ | .call d _ => d = c
  | .worker _ _ => true

end Event

def Leaving (s : System) : Prop :=
  s.config.enabled = false ∧ ∀ w, s.workers w = .ended ∨ s.workers w = .head

theorem Owned.leaving {s : System} (h : Owned s) (hidle : ∀ c, s.calls c = .idle)
    (hoff : s.config.enabled = false) : Leaving s := by
  refine ⟨hoff, fun w => ?_⟩
  have htakes : ¬s.Takes := by
    rintro ⟨c, hc⟩
    rw [hidle c] at hc
    cases hc
  rcases (h.drained hoff).resolve_left htakes w with hended | hhead | ⟨c, hc⟩
  · exact .inl hended
  · exact .inr hhead
  · rw [hidle c] at hc
    cases hc

theorem Leaving.step {s s' : System} (h : Leaving s) {e : Event} (he : e.isWorker = true)
    (hstep : s.step e = some s') : Leaving s' := by
  cases e with
  | enter c call => cases he
  | call c canSpawn => cases he
  | worker w input =>
    obtain ⟨q, stats, hnext, rfl⟩ := System.workerStep_next hstep
    refine ⟨h.1, fun w' => ?_⟩
    by_cases hsame : w' = w
    · subst hsame
      rcases h.2 w' with hended | hhead
      · rw [hended] at hnext
        cases hnext
      · rw [hhead] at hnext
        cases hnext with
        | exit _ => exact .inl (by simp)
        | tick hon => exact absurd (hon.symm.trans h.1) (by decide)
    · simpa [hsame] using h.2 w'

open Interleaving

/-- All calls have returned: disabled, no thread begins a pass any more; enabled by calls that have
not crossed, a thread is running. -/
theorem settled_config {journaled : Bool} {events : List Event} {s : System}
    (hrun : run System.step (.init journaled) events = some s) (hidle : ∀ c, s.calls c = .idle) :
    (s.config.enabled = false → ∀ more s', (∀ e ∈ more, Event.isWorker e = true) →
      run System.step s more = some s' → ∀ w, s'.workers w ≠ .passing) ∧
    (Meets System.step Orderly (.init journaled) events → s.config.enabled = true →
      ∃ w, s.workers w ≠ .ended) := by
  refine ⟨?_, ?_⟩
  · intro hoff more s' hmore hrest w hpass
    have howned : Owned s := run_keeps (C := fun _ _ => True)
      (fun h _ hstep => h.step hstep) (Owned.init journaled)
      (meets_of_forall (fun _ _ _ => trivial) _) hrun
    have hleaving : Leaving s' := run_keeps (C := fun _ e => e.isWorker = true)
      (fun h he hstep => h.step he hstep) (howned.leaving hidle hoff)
      (meets_of_forall (fun e he _ => hmore e he) _) hrest
    rcases hleaving.2 w with hended | hhead
    · exact absurd (hpass.symm.trans hended) nofun
    · exact absurd (hpass.symm.trans hhead) nofun
  · intro horderly hon
    have hserial : Serial s := run_keeps (fun h he hstep => h.step he hstep)
      (Serial.init journaled) horderly hrun
    have hhandle : s.handle ≠ none := by
      refine (hserial.on hon).resolve_right ?_
      rintro ⟨c, hc⟩
      rw [hidle c] at hc
      cases hc
    obtain ⟨w, hw⟩ := Option.ne_none_iff_exists'.mp hhandle
    exact ⟨w, hserial.live hon w hw⟩

def plainInput : WorkerInput := ⟨true, .ok ⟨200, 100, 100, 100, 1, 1, 1⟩, .ok ()⟩

def enableEvents (c : Nat) : List Event :=
  .enter c (.setConfig (.new (some 0))) :: List.replicate 4 (.call c true)

theorem callStep_calls {s s' : System} {c d : Nat} {canSpawn : Bool}
    (h : s.callStep c canSpawn = some s') (hd : d ≠ c) : s'.calls d = s.calls d := by
  cases System.callStep_moves h <;> simp [hd]

theorem orderly_of_single {c : Nat} {s : System} {events : List Event}
    (hidle : ∀ d, d ≠ c → s.calls d = .idle)
    (hevents : ∀ e ∈ events, Event.ordinary e = true ∧ Event.byCaller c e = true) :
    Meets System.step Orderly s events := by
  induction events generalizing s with
  | nil => trivial
  | cons e es ih =>
    obtain ⟨hordinary, hcaller⟩ := hevents e List.mem_cons_self
    have hrest : ∀ e ∈ es, Event.ordinary e = true ∧ Event.byCaller c e = true :=
      fun e' he' => hevents e' (List.mem_cons_of_mem e he')
    cases e with
    | enter d call =>
      cases of_decide_eq_true hcaller
      cases call with
      | stopAutoDefrag => cases hordinary
      | setConfig cfg =>
        refine ⟨trivial, fun t ht => ih ?_ hrest⟩
        change s.enterCall c (.setConfig cfg) = some t at ht
        obtain ⟨-, ⟨cfg, -, rfl⟩ | ⟨hcall, -⟩⟩ := System.enterCall_enters ht
        · intro d hd
          simpa [hd] using hidle d hd
        · cases hcall
    | call d canSpawn =>
      cases of_decide_eq_true hcaller
      refine ⟨⟨?_, fun _ => hordinary⟩, fun t ht => ih ?_ hrest⟩
      · intro cfg _
        refine .inr fun d hd => ?_
        rw [hidle d hd]
        rfl
      · intro d hd
        rw [callStep_calls ht hd]
        exact hidle d hd
    | worker w input =>
      refine ⟨hordinary, fun t ht => ih ?_ hrest⟩
      obtain ⟨q, stats, -, rfl⟩ := System.workerStep_next ht
      exact hidle

theorem settled_config_enabled :
    ∃ s, run System.step (.init false) (enableEvents 0) = some s ∧ (∀ c, s.calls c = .idle) ∧
      s.config.enabled = true ∧ ∃ w, s.workers w ≠ .ended := by
  have hrun : ∃ s, run System.step (.init false) (enableEvents 0) = some s ∧
      (∀ c, s.calls c = .idle) ∧ s.config.enabled = true := by
    refine ⟨_, rfl, ?_, rfl⟩
    intro c
    cases c <;> rfl
  obtain ⟨s, hrun, hidle, hon⟩ := hrun
  refine ⟨s, hrun, hidle, hon, (settled_config hrun hidle).2 ?_ hon⟩
  exact orderly_of_single (c := 0) (fun _ _ => rfl) (by decide)

/-- One thread disables the coordinator, another enables it: the worker has left, its handle is
registered, and neither call starts another. -/
theorem crossing_calls_leave_none :
    ∃ events s, (∀ e ∈ events, Event.ordinary e = true) ∧
      run System.step (.init false) events = some s ∧ (∀ c, s.calls c = .idle) ∧
      s.config.enabled = true ∧ ∀ w, s.workers w = .ended := by
  refine ⟨enableEvents 0 ++ [.enter 0 (.setConfig .default), .call 0 true, .worker 0 plainInput] ++
    enableEvents 1 ++ List.replicate 3 (.call 0 true), _, by decide, rfl, ?_, rfl, ?_⟩
  · intro c
    match c with
    | 0 => rfl
    | 1 => rfl
    | c + 2 => rfl
  · intro w
    match w with
    | 0 => rfl
    | w + 1 => rfl

end AutoDefrag

end Oifs
