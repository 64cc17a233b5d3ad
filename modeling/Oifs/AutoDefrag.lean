import Mathlib.Algebra.Order.Ring.Rat
import Oifs.Fragmentation
import Oifs.Interleaving

namespace Oifs

/-! The background coordinator of automatic defragmentation: calls of `set_config` and
`stop_auto_defrag` against the worker threads they start and stop. -/

namespace AutoDefrag

/-- Times are in nanoseconds; a threshold that is no number is `none`. -/
structure Config where
  enabled : Bool
  fragmentationThreshold : Option ℚ
  checkInterval : Nat
  minFreeBlocks : Nat
  allowJournaled : Bool
  deriving DecidableEq

/-- `DEFAULT_FRAGMENTATION_THRESHOLD`. -/
def defaultFragmentationThreshold : ℚ := 1 / 4

/-- `MIN_CHECK_INTERVAL`. -/
def minCheckInterval : Nat := 10000000

namespace Config

def default : Config where
  enabled := false
  fragmentationThreshold := some defaultFragmentationThreshold
  checkInterval := 300000000000
  minFreeBlocks := 0
  allowJournaled := false

def sanitized (cfg : Config) : Config :=
  { cfg with
    fragmentationThreshold :=
      some (max 0 (min 1 (cfg.fragmentationThreshold.getD defaultFragmentationThreshold)))
    checkInterval := max cfg.checkInterval minCheckInterval }

def new (threshold : Option ℚ) : Config :=
  sanitized { default with enabled := true, fragmentationThreshold := threshold }

@[simp] theorem sanitized_enabled (cfg : Config) : cfg.sanitized.enabled = cfg.enabled := rfl

end Config

inductive SkipReason where
  | belowThreshold (ratio : ℚ) (threshold : Option ℚ)
  | tooFewFree (free minimum : Nat)
  | journaled
  deriving DecidableEq

/-- `skip_reason`; no comparison with a threshold that is no number holds. -/
def skipReason (cfg : Config) (frag : FragmentationStats) (journaled : Bool) : Option SkipReason :=
  if cfg.fragmentationThreshold.any fun t => frag.fragmentationRatio < t then
    some (.belowThreshold frag.fragmentationRatio cfg.fragmentationThreshold)
  else if frag.freeBlocks < cfg.minFreeBlocks then
    some (.tooFewFree frag.freeBlocks cfg.minFreeBlocks)
  else if journaled && !cfg.allowJournaled then some .journaled
  else none

inductive LastError where
  | skipped (reason : SkipReason)
  | failed (error : DiskError)

structure Stats where
  checks : Nat := 0
  passes : Nat := 0
  skipped : Nat := 0
  errors : Nat := 0
  lastFragmentationRatio : ℚ := 0
  lastError : Option LastError := none

/-- Where a worker stands in `run_worker` and `run_once`. -/
inductive WorkerPc where
  /-- In front of the lock on the configuration. -/
  | head
  /-- The interval is read, the wait has not begun. -/
  | sleepy (interval : Nat)
  /-- In `wait_timeout`. -/
  | waiting (interval : Nat) (notified : Bool)
  /-- Awake and not stopped, in front of `upgrade`. -/
  | awake
  | runOnce
  | measuring (cfg : Config)
  | deciding (cfg : Config) (frag : FragmentationStats)
  /-- In `defragment_inplace_on`. -/
  | passing
  /-- Returned; also a thread that has not been started. -/
  | ended
  deriving DecidableEq

/-- Where a thread stands in `set_config` or `stop_auto_defrag`. -/
inductive CallPc where
  /-- In no call. -/
  | idle
  | store (cfg : Config)
  | notify
  | reread
  | ensureWorker
  | setStop
  | notifyStop
  | takeHandle
  | join (worker : Nat)
  | clearStop
  deriving DecidableEq

inductive Call where
  | setConfig (cfg : Config)
  | stopAutoDefrag

structure System where
  config : Config
  /-- The flag under the lock `shutdown`. -/
  stop : Bool
  /-- The handle under the lock `worker`. -/
  handle : Option Nat
  stats : Stats
  workers : Nat → WorkerPc
  /-- The number of threads started so far. -/
  spawned : Nat
  calls : Nat → CallPc
  /-- `has_journal_layout` of the image. -/
  journaled : Bool

/-- What a step of a worker meets. -/
structure WorkerInput where
  alive : Bool
  frag : Except DiskError FragmentationStats
  pass : Except DiskError Unit

inductive Event where
  | enter (c : Nat) (call : Call)
  /-- The next step of a call; a thread can be started or not. -/
  | call (c : Nat) (canSpawn : Bool)
  | worker (w : Nat) (input : WorkerInput)

def WorkerPc.notify : WorkerPc → WorkerPc
  | .waiting interval _ => .waiting interval true
  | p => p

namespace System

def init (journaled : Bool) : System where
  config := .default
  stop := false
  handle := none
  stats := {}
  workers _ := .ended
  spawned := 0
  calls _ := .idle
  journaled := journaled

def setCall (s : System) (c : Nat) (p : CallPc) : System :=
  { s with calls := Function.update s.calls c p }

def setWorker (s : System) (w : Nat) (p : WorkerPc) : System :=
  { s with workers := Function.update s.workers w p }

def notifyAll (s : System) : System := { s with workers := fun w => (s.workers w).notify }

def enterCall (s : System) (c : Nat) : Call → Option System
  | .setConfig cfg => if s.calls c = .idle then some (s.setCall c (.store cfg)) else none
  | .stopAutoDefrag => if s.calls c = .idle then some (s.setCall c .setStop) else none

/-- Under the lock `worker`: a thread is started if no handle is registered. -/
def ensureWorker (s : System) (canSpawn : Bool) : System :=
  match s.handle with
  | some _ => s
  | none =>
    if canSpawn then
      { s.setWorker s.spawned .head with handle := some s.spawned, spawned := s.spawned + 1 }
    else s

def callStep (s : System) (c : Nat) (canSpawn : Bool) : Option System :=
  match s.calls c with
  | .idle => none
  | .store cfg => some ({ s with config := cfg.sanitized }.setCall c .notify)
  | .notify => some (s.notifyAll.setCall c .reread)
  | .reread => some (s.setCall c (if s.config.enabled then .ensureWorker else .setStop))
  | .ensureWorker => some ((s.ensureWorker canSpawn).setCall c .idle)
  | .setStop => some ({ s with stop := true }.setCall c .notifyStop)
  | .notifyStop => some (s.notifyAll.setCall c .takeHandle)
  | .takeHandle =>
    some ({ s with handle := none }.setCall c (s.handle.elim .clearStop .join))
  | .join w => if s.workers w = .ended then some (s.setCall c .clearStop) else none
  | .clearStop => some ({ s with stop := false }.setCall c .idle)

/-- The next step of `run_worker`. The counters are updated together with the step in front. -/
def workerStep (s : System) (w : Nat) (input : WorkerInput) : Option System :=
  match s.workers w with
  | .ended => none
  | .head =>
    some (s.setWorker w (if s.config.enabled then .sleepy s.config.checkInterval else .ended))
  | .sleepy interval => some (s.setWorker w (.waiting interval false))
  | .waiting _ _ => some (s.setWorker w (if s.stop then .ended else .awake))
  | .awake => some (s.setWorker w (if input.alive then .runOnce else .ended))
  | .runOnce => some (s.setWorker w (if s.config.enabled then .measuring s.config else .head))
  | .measuring cfg =>
    match input.frag with
    | .error e =>
      some { s.setWorker w .head with
        stats := { s.stats with errors := s.stats.errors + 1, lastError := some (.failed e) } }
    | .ok frag =>
      some { s.setWorker w (.deciding cfg frag) with
        stats := { s.stats with
          checks := s.stats.checks + 1, lastFragmentationRatio := frag.fragmentationRatio } }
  | .deciding cfg frag =>
    match skipReason cfg frag s.journaled with
    | some reason =>
      some { s.setWorker w .head with
        stats := { s.stats with
          skipped := s.stats.skipped + 1, lastError := some (.skipped reason) } }
    | none => some (s.setWorker w .passing)
  | .passing =>
    match input.pass with
    | .ok () =>
      some { s.setWorker w .head with
        stats := { s.stats with passes := s.stats.passes + 1, lastError := none } }
    | .error e =>
      some { s.setWorker w .head with
        stats := { s.stats with errors := s.stats.errors + 1, lastError := some (.failed e) } }

def step (s : System) : Event → Option System
  | .enter c call => s.enterCall c call
  | .call c canSpawn => s.callStep c canSpawn
  | .worker w input => s.workerStep w input

/-! What the steps do. -/

section Fields

variable (s : System) (c w : Nat) (p : CallPc) (q : WorkerPc)

@[simp] theorem setCall_config : (s.setCall c p).config = s.config := rfl
@[simp] theorem setCall_stop : (s.setCall c p).stop = s.stop := rfl
@[simp] theorem setCall_handle : (s.setCall c p).handle = s.handle := rfl
@[simp] theorem setCall_workers : (s.setCall c p).workers = s.workers := rfl
@[simp] theorem setCall_calls : (s.setCall c p).calls = Function.update s.calls c p := rfl
@[simp] theorem setWorker_config : (s.setWorker w q).config = s.config := rfl
@[simp] theorem setWorker_stop : (s.setWorker w q).stop = s.stop := rfl
@[simp] theorem setWorker_handle : (s.setWorker w q).handle = s.handle := rfl
@[simp] theorem setWorker_workers : (s.setWorker w q).workers = Function.update s.workers w q := rfl
@[simp] theorem setWorker_calls : (s.setWorker w q).calls = s.calls := rfl
@[simp] theorem notifyAll_config : s.notifyAll.config = s.config := rfl
@[simp] theorem notifyAll_stop : s.notifyAll.stop = s.stop := rfl
@[simp] theorem notifyAll_handle : s.notifyAll.handle = s.handle := rfl
@[simp] theorem notifyAll_workers : s.notifyAll.workers w = (s.workers w).notify := rfl
@[simp] theorem notifyAll_calls : s.notifyAll.calls = s.calls := rfl

end Fields

/-- The step of a call, by where it stands. -/
inductive CallMove (s : System) (c : Nat) (canSpawn : Bool) : System → Prop
  | store (cfg : Config) (h : s.calls c = .store cfg) :
      CallMove s c canSpawn ({ s with config := cfg.sanitized }.setCall c .notify)
  | notify (h : s.calls c = .notify) : CallMove s c canSpawn (s.notifyAll.setCall c .reread)
  | rereadOn (h : s.calls c = .reread) (hon : s.config.enabled = true) :
      CallMove s c canSpawn (s.setCall c .ensureWorker)
  | rereadOff (h : s.calls c = .reread) (hoff : s.config.enabled = false) :
      CallMove s c canSpawn (s.setCall c .setStop)
  | registered (w : Nat) (h : s.calls c = .ensureWorker) (hhandle : s.handle = some w) :
      CallMove s c canSpawn (s.setCall c .idle)
  | spawn (h : s.calls c = .ensureWorker) (hhandle : s.handle = none) :
      CallMove s c canSpawn (({ s.setWorker s.spawned .head with
        handle := some s.spawned, spawned := s.spawned + 1 } : System).setCall c .idle)
  | noThread (h : s.calls c = .ensureWorker) (hspawn : canSpawn = false) :
      CallMove s c canSpawn (s.setCall c .idle)
  | setStop (h : s.calls c = .setStop) :
      CallMove s c canSpawn ({ s with stop := true }.setCall c .notifyStop)
  | notifyStop (h : s.calls c = .notifyStop) :
      CallMove s c canSpawn (s.notifyAll.setCall c .takeHandle)
  | take (w : Nat) (h : s.calls c = .takeHandle) (hhandle : s.handle = some w) :
      CallMove s c canSpawn ({ s with handle := none }.setCall c (.join w))
  | takeNone (h : s.calls c = .takeHandle) (hhandle : s.handle = none) :
      CallMove s c canSpawn ({ s with handle := none }.setCall c .clearStop)
  | joined (w : Nat) (h : s.calls c = .join w) (hended : s.workers w = .ended) :
      CallMove s c canSpawn (s.setCall c .clearStop)
  | clearStop (h : s.calls c = .clearStop) :
      CallMove s c canSpawn ({ s with stop := false }.setCall c .idle)

theorem callStep_moves {s s' : System} {c : Nat} {canSpawn : Bool}
    (h : s.callStep c canSpawn = some s') : CallMove s c canSpawn s' := by
  unfold callStep at h
  split at h
  next => cases h
  next cfg hpc => cases h; exact .store cfg hpc
  next hpc => cases h; exact .notify hpc
  next hpc =>
    cases h
    by_cases hon : s.config.enabled = true
    · rw [if_pos hon]
      exact .rereadOn hpc hon
    · rw [if_neg hon]
      exact .rereadOff hpc (Bool.eq_false_iff.mpr hon)
  next hpc =>
    cases h
    unfold ensureWorker
    split
    next w hhandle => exact .registered w hpc hhandle
    next hhandle =>
      by_cases hspawn : canSpawn = true
      · rw [if_pos hspawn]
        exact .spawn hpc hhandle
      · rw [if_neg hspawn]
        exact .noThread hpc (Bool.eq_false_iff.mpr hspawn)
  next hpc => cases h; exact .setStop hpc
  next hpc => cases h; exact .notifyStop hpc
  next hpc =>
    cases h
    cases hhandle : s.handle with
    | none => exact .takeNone hpc hhandle
    | some w => exact .take w hpc hhandle
  next w hpc =>
    split at h
    next hended => cases h; exact .joined w hpc hended
    next => cases h
  next hpc => cases h; exact .clearStop hpc

/-- Where a worker goes next. -/
inductive NextPc (s : System) (input : WorkerInput) : WorkerPc → WorkerPc → Prop
  | exit (hoff : s.config.enabled = false) : NextPc s input .head .ended
  | tick (hon : s.config.enabled = true) : NextPc s input .head (.sleepy s.config.checkInterval)
  | wait (interval : Nat) : NextPc s input (.sleepy interval) (.waiting interval false)
  | stopped {interval : Nat} {notified : Bool} (hstop : s.stop = true) :
      NextPc s input (.waiting interval notified) .ended
  | woken {interval : Nat} {notified : Bool} (hstop : s.stop = false) :
      NextPc s input (.waiting interval notified) .awake
  | dropped (halive : input.alive = false) : NextPc s input .awake .ended
  | entered (halive : input.alive = true) : NextPc s input .awake .runOnce
  | disabled (hoff : s.config.enabled = false) : NextPc s input .runOnce .head
  | measure (hon : s.config.enabled = true) : NextPc s input .runOnce (.measuring s.config)
  | unmeasured (cfg : Config) : NextPc s input (.measuring cfg) .head
  | measured (cfg : Config) (frag : FragmentationStats) :
      NextPc s input (.measuring cfg) (.deciding cfg frag)
  | skipped (cfg : Config) (frag : FragmentationStats) : NextPc s input (.deciding cfg frag) .head
  | pass (cfg : Config) (frag : FragmentationStats) : NextPc s input (.deciding cfg frag) .passing
  | passed : NextPc s input .passing .head

theorem workerStep_next {s s' : System} {w : Nat} {input : WorkerInput}
    (h : s.workerStep w input = some s') : ∃ q stats, NextPc s input (s.workers w) q ∧
      s' = { s.setWorker w q with stats := stats } := by
  unfold workerStep at h
  split at h
  next => cases h
  next hpc =>
    cases h
    rw [hpc]
    by_cases hon : s.config.enabled = true
    · rw [if_pos hon]
      exact ⟨_, _, .tick hon, rfl⟩
    · rw [if_neg hon]
      exact ⟨_, _, .exit (Bool.eq_false_iff.mpr hon), rfl⟩
  next interval hpc => cases h; rw [hpc]; exact ⟨_, _, .wait interval, rfl⟩
  next hpc =>
    cases h
    rw [hpc]
    by_cases hstop : s.stop = true
    · rw [if_pos hstop]
      exact ⟨_, _, .stopped hstop, rfl⟩
    · rw [if_neg hstop]
      exact ⟨_, _, .woken (Bool.eq_false_iff.mpr hstop), rfl⟩
  next hpc =>
    cases h
    rw [hpc]
    by_cases halive : input.alive = true
    · rw [if_pos halive]
      exact ⟨_, _, .entered halive, rfl⟩
    · rw [if_neg halive]
      exact ⟨_, _, .dropped (Bool.eq_false_iff.mpr halive), rfl⟩
  next hpc =>
    cases h
    rw [hpc]
    by_cases hon : s.config.enabled = true
    · rw [if_pos hon]
      exact ⟨_, _, .measure hon, rfl⟩
    · rw [if_neg hon]
      exact ⟨_, _, .disabled (Bool.eq_false_iff.mpr hon), rfl⟩
  next cfg hpc =>
    rw [hpc]
    split at h
    next => cases h; exact ⟨_, _, .unmeasured cfg, rfl⟩
    next frag _ => cases h; exact ⟨_, _, .measured cfg frag, rfl⟩
  next cfg frag hpc =>
    rw [hpc]
    split at h
    next => cases h; exact ⟨_, _, .skipped cfg frag, rfl⟩
    next => cases h; exact ⟨_, _, .pass cfg frag, rfl⟩
  next hpc =>
    rw [hpc]
    split at h
    next => cases h; exact ⟨_, _, .passed, rfl⟩
    next => cases h; exact ⟨_, _, .passed, rfl⟩

theorem enterCall_enters {s s' : System} {c : Nat} {call : Call} (h : s.enterCall c call = some s') :
    s.calls c = .idle ∧
      ((∃ cfg, call = .setConfig cfg ∧ s' = s.setCall c (.store cfg)) ∨
        call = .stopAutoDefrag ∧ s' = s.setCall c .setStop) := by
  cases call with
  | setConfig cfg =>
    obtain ⟨hidle, heq⟩ := Option.ite_none_right_eq_some.mp h
    cases heq
    exact ⟨hidle, .inl ⟨cfg, rfl, rfl⟩⟩
  | stopAutoDefrag =>
    obtain ⟨hidle, heq⟩ := Option.ite_none_right_eq_some.mp h
    cases heq
    exact ⟨hidle, .inr ⟨rfl, rfl⟩⟩

end System

end AutoDefrag

end Oifs
