import Mathlib.Algebra.Order.Ring.Nat
import Mathlib.Data.List.Nodup
import Mathlib.Data.List.Perm.Basic
import Mathlib.Logic.Function.Basic

namespace Oifs

/-! The `io_uring` read driver: the loop of `run` against a kernel that completes its requests in any
order, in full, in part or not at all. -/

namespace Uring

/-- `RING_ENTRIES`. -/
def ringEntries : Nat := 64

structure Op where
  ptr : Nat
  len : Nat
  off : Nat

def Op.advance (op : Op) (k : Nat) : Op := ⟨op.ptr + k, op.len - k, op.off + k⟩

/-- A read request; its length is a `u32`. -/
structure Sqe (n : Nat) where
  idx : Fin n
  ptr : Nat
  len : Nat
  off : Nat

def Sqe.Covers {n : Nat} (q : Sqe n) (a : Nat) : Prop := q.ptr ≤ a ∧ a < q.ptr + q.len

structure Cqe (n : Nat) where
  idx : Fin n
  res : Int

inductive RingError where
  | os (code : Nat)
  | unexpectedEof
deriving DecidableEq

def isTransient (code : Nat) : Bool := code == 4 || code == 11 || code == 16

inductive Phase where
  | top
  | wait
  | reap
  | returned (result : Except RingError Unit)
  | aborted

/-- The loop with its ring: requests, those under way, and posted completions. -/
structure Driver (n : Nat) where
  phase : Phase
  ops : Fin n → Op
  pending : List (Fin n)
  inflight : Nat
  firstErr : Option RingError
  sq : List (Sqe n)
  kernel : List (Sqe n)
  cq : List (Cqe n)
  mem : Nat → UInt8

variable {n : Nat}

def start (ops : Fin n → Op) (mem : Nat → UInt8) : Driver n where
  phase := .top
  ops := ops
  pending := List.finRange n
  inflight := 0
  firstErr := none
  sq := []
  kernel := []
  cq := []
  mem := mem

namespace Driver

def sqe (s : Driver n) (idx : Fin n) : Sqe n :=
  ⟨idx, (s.ops idx).ptr, (s.ops idx).len % 2 ^ 32, (s.ops idx).off⟩

def fill (s : Driver n) : Driver n :=
  match _h : s.pending with
  | [] => s
  | idx :: rest =>
    if s.inflight < ringEntries ∧ s.sq.length < ringEntries then
      fill { s with pending := rest, sq := s.sq ++ [s.sqe idx], inflight := s.inflight + 1 }
    else s
termination_by s.pending.length
decreasing_by
  rw [_h]
  exact Nat.lt_succ_self _

def loopTop (s : Driver n) : Driver n :=
  let s := if s.firstErr.isNone then s.fill else s
  if s.inflight = 0 then
    { s with phase := .returned (match s.firstErr with
      | some e => .error e
      | none => .ok ()) }
  else { s with phase := .wait }

def handle (s : Driver n) (c : Cqe n) : Driver n :=
  let s := { s with inflight := s.inflight - 1 }
  if c.res < 0 then
    if isTransient (-c.res).toNat ∧ s.firstErr.isNone then
      { s with pending := s.pending ++ [c.idx] }
    else if s.firstErr.isNone then { s with firstErr := some (.os (-c.res).toNat) }
    else s
  else if c.res = 0 then
    if s.firstErr.isNone then { s with firstErr := some .unexpectedEof } else s
  else
    let op := s.ops c.idx
    if c.res.toNat < op.len then
      { s with
        ops := Function.update s.ops c.idx (op.advance c.res.toNat)
        pending := if s.firstErr.isNone then s.pending ++ [c.idx] else s.pending }
    else s

end Driver

/-- Bytes of a transfer that a completion reports as read. -/
structure Fill (n : Nat) where
  idx : Fin n
  ptr : Nat
  off : Nat
  count : Nat

def Sqe.fills (q : Sqe n) (res : Int) : List (Fill n) :=
  if 0 < res then [⟨q.idx, q.ptr, q.off, res.toNat⟩] else []

/-- The steps of the driver and of the kernel, with the bytes reported as read. -/
inductive Step (image : Nat → UInt8) : Driver n → List (Fill n) → Driver n → Prop
  | top {s : Driver n} (h : s.phase = .top) : Step image s [] s.loopTop
  /-- `submit_and_wait` hands over a request. -/
  | consume {s : Driver n} {q : Sqe n} {rest : List (Sqe n)} (h : s.phase = .wait)
      (hq : s.sq = q :: rest) : Step image s [] { s with sq := rest, kernel := s.kernel ++ [q] }
  /-- `submit_and_wait` returns, well or with a transient error. -/
  | entered {s : Driver n} (h : s.phase = .wait) : Step image s [] { s with phase := .reap }
  /-- `submit_and_wait` fails hard, and the process is aborted. -/
  | failed {s : Driver n} (h : s.phase = .wait) : Step image s [] { s with phase := .aborted }
  /-- The kernel writes into the buffers it was given. -/
  | touch {s : Driver n} {mem : Nat → UInt8}
      (h : ∀ a, (∀ q ∈ s.kernel, ¬q.Covers a) → mem a = s.mem a) :
      Step image s [] { s with mem := mem }
  /-- The kernel completes a request. What it reports as read has really been read. -/
  | post {s : Driver n} {before after : List (Sqe n)} {q : Sqe n} {res : Int}
      (hk : s.kernel = before ++ q :: after) (hres : res ≤ q.len)
      (hread : ∀ j : Nat, (j : Int) < res → s.mem (q.ptr + j) = image (q.off + j)) :
      Step image s (q.fills res)
        { s with kernel := before ++ after, cq := s.cq ++ [⟨q.idx, res⟩] }
  | reap {s : Driver n} {c : Cqe n} {rest : List (Cqe n)} (h : s.phase = .reap)
      (hc : s.cq = c :: rest) : Step image s [] ({ s with cq := rest }.handle c)
  | reaped {s : Driver n} (h : s.phase = .reap) : Step image s [] { s with phase := .top }

/-- A run with all the bytes reported as read, the oldest first. -/
inductive Runs (image : Nat → UInt8) (s : Driver n) : List (Fill n) → Driver n → Prop
  | refl : Runs image s [] s
  | tail {trace fills : List (Fill n)} {t u : Driver n} (h : Runs image s trace t)
      (hstep : Step image t fills u) : Runs image s (trace ++ fills) u

/-! What is outstanding. -/

/-- Every request counted by `inflight` is somewhere in the ring. -/
def Counted (s : Driver n) : Prop := s.inflight = s.sq.length + s.kernel.length + s.cq.length

theorem Counted.fill {s : Driver n} (h : Counted s) : Counted s.fill := by
  fun_induction Driver.fill s with
  | case1 => exact h
  | case2 s idx rest hp hroom ih =>
    apply ih
    unfold Counted at h ⊢
    simp only [List.length_append, List.length_singleton]
    omega
  | case3 => exact h

theorem Driver.loopTop_cases (s : Driver n) :
    ∃ t : Driver n, (s.firstErr.isSome ∧ t = s ∨ s.firstErr = none ∧ t = s.fill) ∧
      (t.inflight = 0 ∧ s.loopTop = { t with phase := .returned (match t.firstErr with
        | some e => .error e
        | none => .ok ()) } ∨ s.loopTop = { t with phase := .wait }) := by
  refine ⟨if s.firstErr.isNone then s.fill else s, ?_, ?_⟩
  · split
    next hnone => exact .inr ⟨Option.isNone_iff_eq_none.mp hnone, rfl⟩
    next hsome =>
      refine .inl ⟨Option.isSome_iff_ne_none.mpr fun heq => hsome ?_, rfl⟩
      exact Option.isNone_iff_eq_none.mpr heq
  · unfold Driver.loopTop
    dsimp only
    generalize (if s.firstErr.isNone then s.fill else s) = t
    by_cases hzero : t.inflight = 0
    · rw [if_pos hzero]
      exact .inl ⟨hzero, rfl⟩
    · rw [if_neg hzero]
      exact .inr rfl

/-- What the handling of a completion can do, by the result. -/
inductive Handled (s : Driver n) (c : Cqe n) : Driver n → Prop
  | again (h : c.res < 0) (hnone : s.firstErr = none) :
      Handled s c { s with inflight := s.inflight - 1, pending := s.pending ++ [c.idx] }
  | short (h : 0 < c.res) (hlt : c.res.toNat < (s.ops c.idx).len) (hnone : s.firstErr = none) :
      Handled s c { s with
        inflight := s.inflight - 1
        ops := Function.update s.ops c.idx ((s.ops c.idx).advance c.res.toNat)
        pending := s.pending ++ [c.idx] }
  | full (h : (s.ops c.idx).len ≤ c.res.toNat) (hpos : 0 < c.res) :
      Handled s c { s with inflight := s.inflight - 1 }
  | stopped {t : Driver n} (herr : t.firstErr.isSome) (hphase : t.phase = s.phase)
      (hin : t.inflight = s.inflight - 1) (hsq : t.sq = s.sq) (hkernel : t.kernel = s.kernel)
      (hcq : t.cq = s.cq) : Handled s c t

theorem Driver.handle_cases (s : Driver n) (c : Cqe n) : Handled s c (s.handle c) := by
  unfold Driver.handle
  dsimp only
  by_cases hnone : s.firstErr.isNone
  · have herr := Option.isNone_iff_eq_none.mp hnone
    rw [if_pos hnone, if_pos hnone, if_pos hnone]
    by_cases hneg : c.res < 0
    · rw [if_pos hneg]
      split
      next => exact .again hneg herr
      next => exact .stopped rfl rfl rfl rfl rfl rfl
    · rw [if_neg hneg]
      split
      next => exact .stopped rfl rfl rfl rfl rfl rfl
      next hne =>
        have hpos : 0 < c.res := by omega
        split
        next hlt => exact .short hpos hlt herr
        next hge => exact .full (Nat.not_lt.mp hge) hpos
  · -- after an error a completion is only counted
    have herr : s.firstErr.isSome :=
      Option.isSome_iff_ne_none.mpr fun heq => hnone (Option.isNone_iff_eq_none.mpr heq)
    have hretry : ¬(isTransient (-c.res).toNat ∧ s.firstErr.isNone) := fun h => hnone h.2
    rw [if_neg hnone, if_neg hnone, if_neg hnone, if_neg hretry]
    split
    next => exact .stopped herr rfl rfl rfl rfl rfl
    next =>
      split
      next => exact .stopped herr rfl rfl rfl rfl rfl
      next =>
        split
        next => exact .stopped herr rfl rfl rfl rfl rfl
        next => exact .stopped herr rfl rfl rfl rfl rfl

theorem Counted.handle {s : Driver n} {c : Cqe n} {rest : List (Cqe n)} (h : Counted s)
    (hc : s.cq = c :: rest) : Counted ({ s with cq := rest }.handle c) := by
  have hcount : s.inflight - 1 = s.sq.length + s.kernel.length + rest.length := by
    unfold Counted at h
    rw [hc, List.length_cons] at h
    omega
  generalize ht : ({ s with cq := rest }.handle c) = t
  have hcases := Driver.handle_cases { s with cq := rest } c
  rw [ht] at hcases
  cases hcases with
  | again => exact hcount
  | short => exact hcount
  | full => exact hcount
  | stopped _ _ hin hsq hkernel hcq =>
    rw [Counted, hin, hsq, hkernel, hcq]
    exact hcount

theorem Counted.step {image : Nat → UInt8} {s t : Driver n} {fills : List (Fill n)}
    (h : Counted s) (hstep : Step image s fills t) : Counted t := by
  cases hstep with
  | top =>
    obtain ⟨t, ht, hphase⟩ := s.loopTop_cases
    have hcount : Counted t := by
      rcases ht with ⟨-, rfl⟩ | ⟨-, rfl⟩
      · exact h
      · exact h.fill
    rcases hphase with ⟨-, heq⟩ | heq
    · rw [heq]
      exact hcount
    · rw [heq]
      exact hcount
  | consume _ hq =>
    unfold Counted at h ⊢
    rw [hq] at h
    simp only [List.length_cons, List.length_append, List.length_nil] at h ⊢
    omega
  | entered => exact h
  | failed => exact h
  | touch => exact h
  | post hk =>
    unfold Counted at h ⊢
    rw [hk] at h
    simp only [List.length_cons, List.length_append, List.length_nil] at h ⊢
    omega
  | reap _ hc => exact h.handle hc
  | reaped => exact h

theorem Driver.fill_stops (s : Driver n) :
    s.fill.pending = [] ∨ ringEntries ≤ s.fill.inflight ∨ ringEntries ≤ s.fill.sq.length := by
  fun_induction Driver.fill s with
  | case1 s hp => exact .inl hp
  | case2 s idx rest hp hroom ih => exact ih
  | case3 s idx rest hp hfull => exact .inr (by omega)

def Settled (s : Driver n) : Prop :=
  ∀ r, s.phase = .returned r → s.inflight = 0 ∧ (r = .ok () → s.firstErr = none ∧ s.pending = [])

theorem Driver.handle_phase (s : Driver n) (c : Cqe n) : (s.handle c).phase = s.phase := by
  generalize ht : s.handle c = t
  have hcases := s.handle_cases c
  rw [ht] at hcases
  cases hcases with
  | again => rfl
  | short => rfl
  | full => rfl
  | stopped _ hphase => exact hphase

/-- The driver returns with nothing in flight. -/
theorem Settled.step {image : Nat → UInt8} {s t : Driver n} {fills : List (Fill n)}
    (hcount : Counted s) (h : Settled s) (hstep : Step image s fills t) : Settled t := by
  intro r hr
  cases hstep with
  | top =>
    obtain ⟨u, hu, ⟨hzero, heq⟩ | heq⟩ := s.loopTop_cases
    · rw [heq] at hr ⊢
      refine ⟨hzero, fun hok => ?_⟩
      cases hr
      dsimp only
      split at hok
      next => cases hok
      next hnone =>
        refine ⟨hnone, ?_⟩
        have hfill : u = s.fill := by
          rcases hu with ⟨hsome, rfl⟩ | ⟨-, hfill⟩
          · rw [hnone] at hsome
            cases hsome
          · exact hfill
        have hcount' := hcount.fill
        unfold Counted at hcount'
        rw [hfill] at hzero ⊢
        rcases s.fill_stops with hempty | hfull | hfull
        · exact hempty
        · rw [hzero] at hfull
          exact absurd hfull (by decide)
        · have hlen : s.fill.sq.length = 0 := by omega
          rw [hlen] at hfull
          exact absurd hfull (by decide)
    · rw [heq] at hr
      cases hr
  | consume hw => cases hw.symm.trans hr
  | entered => cases hr
  | failed => cases hr
  | touch => exact h r hr
  | post hk => exact h r hr
  | reap hp =>
    rw [Driver.handle_phase] at hr
    cases hp.symm.trans hr
  | reaped => cases hr

end Uring

end Oifs
