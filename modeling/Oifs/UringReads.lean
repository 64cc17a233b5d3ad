import Oifs.UringBytes

namespace Oifs

/-! The memory. -/

namespace Uring

variable {n : Nat}
  {image : Nat → UInt8} {mem : Nat → UInt8}

section Steps

variable {ops : Fin n → Op} {trace : List (Fill n)} {s : Driver n}

def Apart (ops : Fin n → Op) : Prop :=
  ∀ i j, i ≠ j → (ops i).ptr + (ops i).len ≤ (ops j).ptr ∨ (ops j).ptr + (ops j).len ≤ (ops i).ptr

def Held (image : Nat → UInt8) (trace : List (Fill n)) (mem : Nat → UInt8) : Prop :=
  ∀ f ∈ trace, ∀ j, j < f.count → mem (f.ptr + j) = image (f.off + j)

theorem Tiles.bounds {ptr off : Nat} {fs : List (Fill n)} (h : Tiles ptr off fs) {f : Fill n}
    (hf : f ∈ fs) : ∃ k, f.ptr = ptr + k ∧ f.off = off + k ∧
      k + f.count ≤ (fs.map Fill.count).sum := by
  induction fs generalizing ptr off with
  | nil => cases hf
  | cons g gs ih =>
    obtain ⟨hptr, hoff, hrest⟩ := h
    rw [List.map_cons, List.sum_cons]
    rcases List.mem_cons.mp hf with rfl | hf
    · exact ⟨0, hptr, hoff, by omega⟩
    · obtain ⟨k, hp, ho, hk⟩ := ih hrest hf
      exact ⟨g.count + k, by omega, by omega, by omega⟩

theorem Tracked.bounds (h : Tracked ops trace s) {f : Fill n} (hf : f ∈ trace) :
    ∃ k, f.ptr = (ops f.idx).ptr + k ∧ f.off = (ops f.idx).off + k ∧
      k + f.count ≤ reach trace f.idx :=
  (h.tiles f.idx).bounds (List.mem_filter.mpr ⟨hf, by simp⟩)

theorem Tracked.untouched (happart : Apart ops) (h : Tracked ops trace s) {f : Fill n}
    (hf : f ∈ trace) {j : Nat} (hj : j < f.count) {q : Sqe n} (hq : q ∈ s.kernel) :
    ¬q.Covers (f.ptr + j) := by
  rintro ⟨hlo, hhi⟩
  obtain ⟨k, hptr, -, hk⟩ := h.bounds hf
  obtain ⟨hsqe, hops⟩ := h.requested q (.inr hq)
  have hqptr : q.ptr = (ops q.idx).ptr + reach trace q.idx := by
    rw [hsqe]
    exact congrArg Op.ptr hops
  have hqlen : q.len = ((ops q.idx).len - reach trace q.idx) % 2 ^ 32 := by
    rw [hsqe]
    exact congrArg (fun op : Op => op.len % 2 ^ 32) hops
  have hmod := Nat.mod_le ((ops q.idx).len - reach trace q.idx) (2 ^ 32)
  have hwq := h.within q.idx
  have hwf := h.within f.idx
  by_cases hidx : q.idx = f.idx
  · rw [hidx] at hqptr
    omega
  · rcases happart q.idx f.idx hidx with hapart | hapart
    · omega
    · omega

theorem Driver.fill_mem (s : Driver n) : s.fill.mem = s.mem := by
  fun_induction Driver.fill s with
  | case1 => rfl
  | case2 s idx rest hp hroom ih => exact ih
  | case3 => rfl

theorem handle_mem {s : Driver n} {c : Cqe n} (h : (s.handle c).firstErr = none) :
    (s.handle c).mem = s.mem := by
  generalize ht : s.handle c = t at h ⊢
  have hcases := s.handle_cases c
  rw [ht] at hcases
  cases hcases with
  | again => rfl
  | short => rfl
  | full => rfl
  | stopped herr =>
    rw [h] at herr
    cases herr

theorem Held.step {t : Driver n} {fills : List (Fill n)}
    (happart : Apart ops) (htracked : Tracked ops trace s) (h : Held image trace s.mem)
    (hstep : Step image s fills t) (hnone : t.firstErr = none) :
    Held image (trace ++ fills) t.mem := by
  cases hstep with
  | top =>
    rw [List.append_nil]
    obtain ⟨u, hu, hphase⟩ := s.loopTop_cases
    have hmem : u.mem = s.mem := by
      rcases hu with ⟨-, rfl⟩ | ⟨-, rfl⟩
      · rfl
      · exact s.fill_mem
    rcases hphase with ⟨-, heq⟩ | heq
    · rw [heq, hmem]
      exact h
    · rw [heq, hmem]
      exact h
  | consume => rwa [List.append_nil]
  | entered => rwa [List.append_nil]
  | failed => rwa [List.append_nil]
  | touch hmem =>
    rw [List.append_nil]
    intro f hf j hj
    exact (hmem (f.ptr + j) fun q hq => htracked.untouched happart hf hj hq).trans (h f hf j hj)
  | @post before after q res hk hres hread =>
    intro f hf j hj
    rcases List.mem_append.mp hf with hf | hf
    · exact h f hf j hj
    · unfold Sqe.fills at hf
      split at hf
      next hpos =>
        rw [List.mem_singleton.mp hf] at hj ⊢
        exact hread j (by dsimp only at hj; omega)
      next => cases hf
  | @reap c rest =>
    rw [List.append_nil, handle_mem hnone]
    exact h
  | reaped => rwa [List.append_nil]

end Steps

structure Reached (image : Nat → UInt8) (ops : Fin n → Op) (trace : List (Fill n)) (s : Driver n) :
    Prop where
  counted : Counted s
  settled : Settled s
  tracked : s.firstErr = none → Tracked ops trace s
  held : Apart ops → s.firstErr = none → Held image trace s.mem

theorem Runs.reached {ops : Fin n → Op}
    {trace : List (Fill n)} {s : Driver n} (h : Runs image (start ops mem) trace s) :
    Reached image ops trace s := by
  induction h with
  | refl =>
    refine ⟨rfl, fun r hr => (nomatch hr), fun _ => start_tracked ops mem, fun _ _ f hf => ?_⟩
    cases hf
  | tail _ hstep ih =>
    refine ⟨ih.counted.step hstep, ih.settled.step ih.counted hstep, fun hnone => ?_, fun happart hnone => ?_⟩
    · exact (ih.tracked (hstep.firstErr hnone)).step hstep hnone
    · have hbefore := hstep.firstErr hnone
      exact (ih.held happart hbefore).step happart (ih.tracked hbefore) hstep hnone

theorem Tiles.covers {ptr off : Nat} {fs : List (Fill n)} (h : Tiles ptr off fs) {j : Nat}
    (hj : j < (fs.map Fill.count).sum) :
    ∃ f ∈ fs, ∃ k, k < f.count ∧ f.ptr + k = ptr + j ∧ f.off + k = off + j := by
  induction fs generalizing ptr off j with
  | nil => simp at hj
  | cons f fs ih =>
    obtain ⟨hptr, hoff, hrest⟩ := h
    rw [List.map_cons, List.sum_cons] at hj
    by_cases hin : j < f.count
    · exact ⟨f, List.mem_cons_self, j, hin, by omega, by omega⟩
    · obtain ⟨g, hg, k, hk, hp, ho⟩ := ih hrest (show j - f.count < _ by omega)
      exact ⟨g, List.mem_cons_of_mem f hg, k, hk, by omega, by omega⟩

theorem Runs.empty {ops : Fin n → Op}
    {trace : List (Fill n)} {s : Driver n} {r : Except RingError Unit}
    (h : Runs image (start ops mem) trace s) (hret : s.phase = .returned r) :
    s.sq = [] ∧ s.kernel = [] ∧ s.cq = [] := by
  have hzero := (h.reached.settled r hret).1
  have hcount := h.reached.counted
  unfold Counted at hcount
  refine ⟨?_, ?_, ?_⟩
  · exact List.length_eq_zero_iff.mp (by omega)
  · exact List.length_eq_zero_iff.mp (by omega)
  · exact List.length_eq_zero_iff.mp (by omega)

theorem Runs.fills {ops : Fin n → Op}
    {trace : List (Fill n)} {s : Driver n} (h : Runs image (start ops mem) trace s)
    (hret : s.phase = .returned (.ok ())) {i : Fin n} {j : Nat} (hj : j < (ops i).len) :
    ∃ f ∈ trace, f.idx = i ∧ ∃ k, k < f.count ∧ f.ptr + k = (ops i).ptr + j ∧
      f.off + k = (ops i).off + j := by
  obtain ⟨hsq, hkernel, hcq⟩ := h.empty hret
  obtain ⟨hnone, hpending⟩ := (h.reached.settled _ hret).2 rfl
  have htracked := h.reached.tracked hnone
  have hgone : reach trace i = (ops i).len := by
    apply htracked.gone
    simp [Driver.load, hpending, hsq, hkernel, hcq]
  rw [← hgone] at hj
  obtain ⟨f, hf, hbyte⟩ := (htracked.tiles i).covers hj
  obtain ⟨hmem, hidx⟩ := List.mem_filter.mp hf
  exact ⟨f, hmem, by simpa using hidx, hbyte⟩

/-- Returning well, the loop leaves the bytes of the file in the memory of each transfer. -/
theorem Runs.delivers {ops : Fin n → Op}
    {trace : List (Fill n)} {s : Driver n} (h : Runs image (start ops mem) trace s)
    (hret : s.phase = .returned (.ok ())) (happart : Apart ops) {i : Fin n} {j : Nat}
    (hj : j < (ops i).len) : s.mem ((ops i).ptr + j) = image ((ops i).off + j) := by
  obtain ⟨f, hf, -, k, hk, hptr, hoff⟩ := h.fills hret hj
  rw [← hptr, ← hoff]
  exact h.reached.held happart ((h.reached.settled _ hret).2 rfl).1 f hf k hk

/-- The loop returns only with an empty ring; returning well, it has read each byte of each transfer
from its own place. -/
theorem run_reads_exactly (image : Nat → UInt8) (ops : Fin n → Op) (mem : Nat → UInt8)
    (trace : List (Fill n)) (s : Driver n) (r : Except RingError Unit)
    (hrun : Runs image (start ops mem) trace s) (hret : s.phase = .returned r) :
    (s.sq = [] ∧ s.kernel = [] ∧ s.cq = []) ∧
    (r = .ok () →
      (∀ i j, j < (ops i).len → ∃ f ∈ trace, f.idx = i ∧ ∃ k, k < f.count ∧
        f.ptr + k = (ops i).ptr + j ∧ f.off + k = (ops i).off + j) ∧
      (∀ f ∈ trace, ∃ k, f.ptr = (ops f.idx).ptr + k ∧ f.off = (ops f.idx).off + k ∧
        k + f.count ≤ (ops f.idx).len) ∧
      (Apart ops → ∀ i j, j < (ops i).len → s.mem ((ops i).ptr + j) = image ((ops i).off + j))) := by
  refine ⟨hrun.empty hret, fun hr => ?_⟩
  subst hr
  have htracked := hrun.reached.tracked ((hrun.reached.settled _ hret).2 rfl).1
  refine ⟨fun i j hj => hrun.fills hret hj, fun f hf => ?_, fun happart i j hj => ?_⟩
  · obtain ⟨k, hptr, hoff, hk⟩ := htracked.bounds hf
    exact ⟨k, hptr, hoff, Nat.le_trans hk (htracked.within f.idx)⟩
  · exact hrun.delivers hret happart hj

theorem serve_one {s : Driver n} {o : Fin n → Op} {q : Sqe n} {res : Int} {m w : Nat → UInt8}
    (h : ∃ trace, Runs image s trace ⟨.wait, o, [], 1, none, [q], [], [], m⟩) (hres : res ≤ q.len)
    (hout : ∀ a, ¬q.Covers a → w a = m a)
    (hread : ∀ j : Nat, (j : Int) < res → w (q.ptr + j) = image (q.off + j)) :
    ∃ trace, Runs image s trace (Driver.handle ⟨.reap, o, [], 1, none, [], [], [], w⟩ ⟨q.idx, res⟩) := by
  obtain ⟨trace, h⟩ := h
  have htaken : Runs image s _ ⟨.wait, o, [], 1, none, [], [q], [], m⟩ := h.tail (.consume rfl rfl)
  have hwritten : Runs image s _ ⟨.wait, o, [], 1, none, [], [q], [], w⟩ :=
    htaken.tail (.touch fun a ha => hout a (ha q List.mem_cons_self))
  have hposted := hwritten.tail (.post (q := q) (show [q] = [] ++ q :: [] from rfl) hres hread)
  exact ⟨_, (hposted.tail (.entered rfl)).tail (.reap rfl rfl)⟩

/-- One transfer of two bytes, read a byte at a time. -/
theorem run_reads_exactly_bytewise :
    ∃ (trace : List (Fill 1)) (s : Driver 1),
      Runs (fun a => .ofNat a) (start (fun _ => ⟨10, 2, 5⟩) fun _ => 0) trace s ∧
      s.phase = .returned (.ok ()) ∧ s.kernel = [] ∧ s.mem 11 = 6 := by
  let ops : Fin 1 → Op := fun _ => ⟨10, 2, 5⟩
  let rest : Fin 1 → Op := fun _ => ⟨11, 1, 6⟩
  let half : Nat → UInt8 := fun a => if a = 10 then 5 else 0
  let whole : Nat → UInt8 := fun a => if a = 10 then 5 else if a = 11 then 6 else 0
  have hfirst : (start ops fun _ => 0).loopTop =
      ⟨.wait, ops, [], 1, none, [⟨0, 10, 2, 5⟩], [], [], fun _ => 0⟩ := by
    simp [Driver.loopTop, Driver.fill, start, Driver.sqe, ops, ringEntries, List.finRange]
  have hshort : Driver.handle ⟨.reap, ops, [], 1, none, [], [], [], half⟩ ⟨0, 1⟩ =
      ⟨.reap, rest, [0], 0, none, [], [], [], half⟩ := by
    have hops : Function.update ops 0 ⟨11, 1, 6⟩ = rest := by
      funext i
      rw [Subsingleton.elim i 0, Function.update_self]
    simp [Driver.handle, Op.advance, ← hops, ops]
  have hsecond : Driver.loopTop ⟨.top, rest, [0], 0, none, [], [], [], half⟩ =
      ⟨.wait, rest, [], 1, none, [⟨0, 11, 1, 6⟩], [], [], half⟩ := by
    simp [Driver.loopTop, Driver.fill, Driver.sqe, rest, ringEntries]
  have hfull : Driver.handle ⟨.reap, rest, [], 1, none, [], [], [], whole⟩ ⟨0, 1⟩ =
      ⟨.reap, rest, [], 0, none, [], [], [], whole⟩ := by
    simp [Driver.handle, rest]
  have hlast : Driver.loopTop ⟨.top, rest, [], 0, none, [], [], [], whole⟩ =
      ⟨.returned (.ok ()), rest, [], 0, none, [], [], [], whole⟩ := by
    simp [Driver.loopTop, Driver.fill]
  have hwait : Runs (fun a => .ofNat a) (start ops fun _ => 0) _ (start ops fun _ => 0).loopTop :=
    .tail .refl (.top rfl)
  rw [hfirst] at hwait
  have hhalf := serve_one (w := half) ⟨_, hwait⟩ (show (1 : Int) ≤ 2 by decide) ?_ ?_
  · rw [hshort] at hhalf
    obtain ⟨trace, hhalf⟩ := hhalf
    have hagain := (hhalf.tail (.reaped rfl)).tail (.top rfl)
    rw [hsecond] at hagain
    have hwhole := serve_one (w := whole) ⟨_, hagain⟩ (show (1 : Int) ≤ 1 by decide) ?_ ?_
    · rw [hfull] at hwhole
      obtain ⟨trace, hwhole⟩ := hwhole
      have hdone := (hwhole.tail (.reaped rfl)).tail (.top rfl)
      rw [hlast] at hdone
      have hexact := run_reads_exactly _ _ _ _ _ _ hdone rfl
      refine ⟨_, _, hdone, rfl, hexact.1.2.1, ?_⟩
      exact (hexact.2 rfl).2.2 (fun i j hne => (hne (Subsingleton.elim i j)).elim) 0 1 (by decide)
    · intro a ha
      have hne : a ≠ 11 := fun h => ha (by rw [h]; exact ⟨by decide, by decide⟩)
      simp [whole, half, hne]
    · intro j hj
      obtain rfl : j = 0 := by omega
      rfl
  · intro a ha
    have hne : a ≠ 10 := fun h => ha (by rw [h]; exact ⟨by decide, by decide⟩)
    exact if_neg hne
  · intro j hj
    obtain rfl : j = 0 := by omega
    rfl

end Uring

end Oifs
