import Oifs.UringDriver

namespace Oifs

namespace Uring

variable {n : Nat}

/-! The bytes read. -/

def fillsOf (trace : List (Fill n)) (i : Fin n) : List (Fill n) := trace.filter (·.idx = i)

def reach (trace : List (Fill n)) (i : Fin n) : Nat := ((fillsOf trace i).map Fill.count).sum

/-- The parts of a transfer lie one behind the other, in the buffer as in the image. -/
def Tiles (ptr off : Nat) : List (Fill n) → Prop
  | [] => True
  | f :: fs => f.ptr = ptr ∧ f.off = off ∧ Tiles (ptr + f.count) (off + f.count) fs

theorem tiles_append {ptr off : Nat} {fs gs : List (Fill n)} :
    Tiles ptr off (fs ++ gs) ↔ Tiles ptr off fs ∧
      Tiles (ptr + (fs.map Fill.count).sum) (off + (fs.map Fill.count).sum) gs := by
  induction fs generalizing ptr off with
  | nil => simp [Tiles]
  | cons f fs ih => simp [Tiles, ih, and_assoc, Nat.add_assoc]

theorem fillsOf_append (trace fills : List (Fill n)) (i : Fin n) :
    fillsOf (trace ++ fills) i = fillsOf trace i ++ fillsOf fills i := List.filter_append ..

theorem reach_append (trace fills : List (Fill n)) (i : Fin n) :
    reach (trace ++ fills) i = reach trace i + reach fills i := by
  simp [reach, fillsOf_append]

theorem fillsOf_fills_ne {q : Sqe n} {i : Fin n} (hne : i ≠ q.idx) (res : Int) :
    fillsOf (q.fills res) i = [] := by
  unfold Sqe.fills fillsOf
  split
  next => simp [hne.symm]
  next => rfl

theorem fillsOf_fills_self (q : Sqe n) (res : Int) :
    fillsOf (q.fills res) q.idx = q.fills res := by
  unfold Sqe.fills fillsOf
  split
  next => simp
  next => rfl

theorem reach_fills_ne {q : Sqe n} {i : Fin n} (hne : i ≠ q.idx) (res : Int) :
    reach (q.fills res) i = 0 := by
  rw [reach, fillsOf_fills_ne hne]
  rfl

theorem reach_fills_self (q : Sqe n) (res : Int) : reach (q.fills res) q.idx = res.toNat := by
  rw [reach, fillsOf_fills_self]
  unfold Sqe.fills
  split
  next => simp
  next hle =>
    have hzero : res.toNat = 0 := Int.toNat_of_nonpos (by omega)
    simp [hzero]

def Driver.load (s : Driver n) (i : Fin n) : Nat :=
  s.pending.count i + (s.sq.map Sqe.idx).count i + (s.kernel.map Sqe.idx).count i +
    (s.cq.map Cqe.idx).count i

/-- Without an error a transfer is read as far as its remainder says, or to its end. -/
structure Tracked (ops : Fin n → Op) (trace : List (Fill n)) (s : Driver n) : Prop where
  once : ∀ i, s.load i ≤ 1
  tiles : ∀ i, Tiles (ops i).ptr (ops i).off (fillsOf trace i)
  within : ∀ i, reach trace i ≤ (ops i).len
  waiting : ∀ i ∈ s.pending, s.ops i = (ops i).advance (reach trace i)
  requested : ∀ q, q ∈ s.sq ∨ q ∈ s.kernel →
    q = s.sqe q.idx ∧ s.ops q.idx = (ops q.idx).advance (reach trace q.idx)
  posted : ∀ c ∈ s.cq, ∃ k, s.ops c.idx = (ops c.idx).advance k ∧
    reach trace c.idx = k + c.res.toNat
  gone : ∀ i, s.load i = 0 → reach trace i = (ops i).len

theorem Tracked.congr {ops : Fin n → Op} {trace : List (Fill n)} {s t : Driver n}
    (h : Tracked ops trace s) (hops : t.ops = s.ops) (hload : ∀ i, t.load i = s.load i)
    (hpending : ∀ i ∈ t.pending, i ∈ s.pending)
    (hreq : ∀ q, q ∈ t.sq ∨ q ∈ t.kernel → q ∈ s.sq ∨ q ∈ s.kernel ∨ q = s.sqe q.idx ∧ q.idx ∈ s.pending)
    (hcq : ∀ c ∈ t.cq, c ∈ s.cq) : Tracked ops trace t where
  once i := by rw [hload]; exact h.once i
  tiles := h.tiles
  within := h.within
  waiting i hi := by rw [hops]; exact h.waiting i (hpending i hi)
  requested q hq := by
    have hsqe : t.sqe q.idx = s.sqe q.idx := by unfold Driver.sqe; rw [hops]
    rw [hsqe, hops]
    rcases hreq q hq with hq | hq | ⟨heq, hp⟩
    · exact h.requested q (.inl hq)
    · exact h.requested q (.inr hq)
    · exact ⟨heq, h.waiting _ hp⟩
  posted c hc := by rw [hops]; exact h.posted c (hcq c hc)
  gone i hi := h.gone i (by rw [← hload]; exact hi)

section Steps

variable {ops : Fin n → Op} {trace : List (Fill n)} {s : Driver n}

theorem Tracked.fill (h : Tracked ops trace s) : Tracked ops trace s.fill := by
  fun_induction Driver.fill s with
  | case1 => exact h
  | case2 s idx rest hp hroom ih =>
    apply ih
    refine h.congr rfl (fun i => ?_) (fun i hi => ?_) (fun q hq => ?_) fun c hc => hc
    · simp only [Driver.load, hp, List.map_append, List.map_cons, List.map_nil, List.count_append,
        List.count_cons, List.count_nil, Driver.sqe]
      omega
    · rw [hp]
      exact List.mem_cons_of_mem idx hi
    · rcases hq with hq | hq
      · rcases List.mem_append.mp hq with hq | hq
        · exact .inl hq
        · rw [List.mem_singleton.mp hq, hp]
          exact .inr (.inr ⟨rfl, List.mem_cons_self⟩)
      · exact .inr (.inl hq)
  | case3 => exact h

theorem Tracked.consume {q : Sqe n} {rest : List (Sqe n)} (h : Tracked ops trace s)
    (hq : s.sq = q :: rest) :
    Tracked ops trace { s with sq := rest, kernel := s.kernel ++ [q] } := by
  refine h.congr rfl (fun i => ?_) (fun i hi => hi) (fun r hr => ?_) fun c hc => hc
  · simp only [Driver.load, hq, List.map_append, List.map_cons, List.map_nil, List.count_append,
      List.count_cons, List.count_nil]
    omega
  · rw [hq]
    rcases hr with hr | hr
    · exact .inl (List.mem_cons_of_mem q hr)
    · rcases List.mem_append.mp hr with hr | hr
      · exact .inr (.inl hr)
      · rw [List.mem_singleton.mp hr]
        exact .inl List.mem_cons_self

theorem count_idx_pos {α : Type} {f : α → Fin n} {l : List α} {a : α} (ha : a ∈ l) :
    0 < (l.map f).count (f a) := List.count_pos_iff.mpr (List.mem_map_of_mem ha)

theorem Tracked.post {before after : List (Sqe n)} {q : Sqe n} {res : Int}
    (h : Tracked ops trace s) (hk : s.kernel = before ++ q :: after) (hres : res ≤ q.len) :
    Tracked ops (trace ++ q.fills res)
      { s with kernel := before ++ after, cq := s.cq ++ [⟨q.idx, res⟩] } := by
  have hmem : q ∈ s.kernel := by rw [hk]; simp
  obtain ⟨hsqe, hops⟩ := h.requested q (.inr hmem)
  have honce := h.once q.idx
  have hload : s.load q.idx = s.pending.count q.idx + (s.sq.map Sqe.idx).count q.idx +
      ((before.map Sqe.idx).count q.idx + (after.map Sqe.idx).count q.idx + 1) +
      (s.cq.map Cqe.idx).count q.idx := by
    simp only [Driver.load, hk, List.map_append, List.map_cons, List.count_append,
      List.count_cons_self]
    omega
  have hreach : ∀ i, i ≠ q.idx → reach (trace ++ q.fills res) i = reach trace i := by
    intro i hi
    rw [reach_append, reach_fills_ne hi, Nat.add_zero]
  refine ⟨fun i => ?_, fun i => ?_, fun i => ?_, fun i hi => ?_, fun r hr => ?_, fun c hc => ?_,
    fun i hi => ?_⟩
  · have hi := h.once i
    simp only [Driver.load, hk, List.map_append, List.map_cons, List.map_nil, List.count_append,
      List.count_cons, List.count_nil] at hi ⊢
    omega
  · rw [fillsOf_append, tiles_append]
    refine ⟨h.tiles i, ?_⟩
    by_cases hi : i = q.idx
    · subst hi
      rw [fillsOf_fills_self]
      unfold Sqe.fills
      split
      next =>
        refine ⟨?_, ?_, trivial⟩
        · rw [hsqe]
          exact congrArg Op.ptr hops
        · rw [hsqe]
          exact congrArg Op.off hops
      next => trivial
    · rw [fillsOf_fills_ne hi]
      trivial
  · by_cases hi : i = q.idx
    · subst hi
      have hlen : q.len = ((ops q.idx).len - reach trace q.idx) % 2 ^ 32 := by
        rw [hsqe]
        exact congrArg (fun op : Op => op.len % 2 ^ 32) hops
      have hmod := Nat.mod_le ((ops q.idx).len - reach trace q.idx) (2 ^ 32)
      have hwithin := h.within q.idx
      rw [reach_append, reach_fills_self]
      omega
    · rw [hreach i hi]
      exact h.within i
  · have hne : i ≠ q.idx := by
      rintro rfl
      have hpos : 0 < s.pending.count q.idx := List.count_pos_iff.mpr hi
      omega
    rw [hreach i hne]
    exact h.waiting i hi
  · have hne : r.idx ≠ q.idx := by
      intro heq
      rcases hr with hr | hr
      · have hpos : 0 < (s.sq.map Sqe.idx).count r.idx := count_idx_pos hr
        rw [heq] at hpos
        omega
      · have hpos := count_idx_pos (f := Sqe.idx) hr
        rw [heq, List.map_append, List.count_append] at hpos
        omega
    rw [hreach r.idx hne]
    apply h.requested r
    rcases hr with hr | hr
    · exact .inl hr
    · right
      rw [hk]
      rcases List.mem_append.mp hr with hr | hr
      · exact List.mem_append_left _ hr
      · exact List.mem_append_right _ (List.mem_cons_of_mem q hr)
  · rcases List.mem_append.mp hc with hc | hc
    · have hne : c.idx ≠ q.idx := by
        intro heq
        have hpos := count_idx_pos (f := Cqe.idx) hc
        rw [heq] at hpos
        omega
      rw [hreach c.idx hne]
      exact h.posted c hc
    · rw [List.mem_singleton.mp hc]
      refine ⟨reach trace q.idx, hops, ?_⟩
      rw [reach_append, reach_fills_self]
  · have hload' : s.load i = 0 := by
      simp only [Driver.load, hk, List.map_append, List.map_cons, List.map_nil, List.count_append,
        List.count_cons, List.count_nil] at hi ⊢
      omega
    have hne : i ≠ q.idx := by
      rintro rfl
      omega
    rw [hreach i hne]
    exact h.gone i hload'

/-- A completion that is no error keeps the account of the bytes. -/
theorem Tracked.handle {c : Cqe n} {rest : List (Cqe n)} (h : Tracked ops trace s)
    (hc : s.cq = c :: rest) (hnone : ({ s with cq := rest }.handle c).firstErr = none) :
    Tracked ops trace ({ s with cq := rest }.handle c) := by
  have hmem : c ∈ s.cq := by rw [hc]; exact List.mem_cons_self
  obtain ⟨k, hops, hreach⟩ := h.posted c hmem
  have honce := h.once c.idx
  have hload : ∀ i, s.load i = s.pending.count i + (s.sq.map Sqe.idx).count i +
      (s.kernel.map Sqe.idx).count i + ((rest.map Cqe.idx).count i + if c.idx = i then 1 else 0) := by
    intro i
    simp only [Driver.load, hc, List.map_cons, List.count_cons, beq_iff_eq]
  have hself := hload c.idx
  rw [if_pos rfl] at hself
  have hpend : ∀ i ∈ s.pending, i ≠ c.idx := by
    rintro i hi rfl
    have hpos : 0 < s.pending.count c.idx := List.count_pos_iff.mpr hi
    omega
  have hreq : ∀ q, q ∈ s.sq ∨ q ∈ s.kernel → q.idx ≠ c.idx := by
    intro q hq heq
    rcases hq with hq | hq
    · have hpos : 0 < (s.sq.map Sqe.idx).count q.idx := count_idx_pos hq
      rw [heq] at hpos
      omega
    · have hpos : 0 < (s.kernel.map Sqe.idx).count q.idx := count_idx_pos hq
      rw [heq] at hpos
      omega
  have hcqs : ∀ c' ∈ rest, c'.idx ≠ c.idx := by
    intro c' hc' heq
    have hpos : 0 < (rest.map Cqe.idx).count c'.idx := count_idx_pos hc'
    rw [heq] at hpos
    omega
  have hrest : ∀ c' ∈ rest, c' ∈ s.cq := fun c' hc' => by rw [hc]; exact List.mem_cons_of_mem c hc'
  generalize ht : ({ s with cq := rest }.handle c) = t at hnone ⊢
  have hcases := Driver.handle_cases { s with cq := rest } c
  rw [ht] at hcases
  cases hcases with
  | again hneg =>
    have hzero : c.res.toNat = 0 := Int.toNat_of_nonpos (by omega)
    refine ⟨fun i => ?_, h.tiles, h.within, fun i hi => ?_, h.requested,
      fun c' hc' => h.posted c' (hrest c' hc'), fun i hi => h.gone i ?_⟩
    · have hi := h.once i
      rw [hload] at hi
      simp only [Driver.load, List.count_append, List.count_cons, List.count_nil, beq_iff_eq]
      omega
    · rcases List.mem_append.mp hi with hi | hi
      · exact h.waiting i hi
      · rw [List.mem_singleton.mp hi, hreach, hzero]
        exact hops
    · rw [hload]
      simp only [Driver.load, List.count_append, List.count_cons, List.count_nil, beq_iff_eq] at hi
      omega
  | short hpos hlt =>
    have hother : ∀ i, i ≠ c.idx →
        Function.update s.ops c.idx ((s.ops c.idx).advance c.res.toNat) i = s.ops i :=
      fun i hi => Function.update_of_ne hi _ _
    refine ⟨fun i => ?_, h.tiles, h.within, fun i hi => ?_, fun q hq => ?_, fun c' hc' => ?_,
      fun i hi => h.gone i ?_⟩
    · have hi := h.once i
      rw [hload] at hi
      simp only [Driver.load, List.count_append, List.count_cons, List.count_nil, beq_iff_eq]
      omega
    · rcases List.mem_append.mp hi with hi | hi
      · exact (hother i (hpend i hi)).trans (h.waiting i hi)
      · rw [List.mem_singleton.mp hi, hreach]
        dsimp only
        rw [Function.update_self, hops]
        simp only [Op.advance, Op.mk.injEq]
        omega
    · have hne := hreq q hq
      have hq' := h.requested q hq
      simp only [Driver.sqe]
      rw [hother q.idx hne]
      exact hq'
    · dsimp only
      rw [hother c'.idx (hcqs c' hc')]
      exact h.posted c' (hrest c' hc')
    · rw [hload]
      simp only [Driver.load, List.count_append, List.count_cons, List.count_nil, beq_iff_eq] at hi
      omega
  | full hle hpos =>
    refine ⟨fun i => ?_, h.tiles, h.within, h.waiting, h.requested,
      fun c' hc' => h.posted c' (hrest c' hc'), fun i hi => ?_⟩
    · have hi := h.once i
      rw [hload] at hi
      simp only [Driver.load]
      omega
    · by_cases hic : i = c.idx
      · subst hic
        have hwithin := h.within c.idx
        have hlen : (s.ops c.idx).len = (ops c.idx).len - k := congrArg Op.len hops
        dsimp only at hle
        omega
      · apply h.gone
        rw [hload, if_neg fun heq => hic heq.symm]
        exact hi
  | stopped herr =>
    rw [hnone] at herr
    cases herr

theorem start_load (ops : Fin n → Op) (mem : Nat → UInt8) (i : Fin n) :
    (start ops mem).load i = (List.finRange n).count i := by
  simp [Driver.load, start]

theorem start_tracked (ops : Fin n → Op) (mem : Nat → UInt8) : Tracked ops [] (start ops mem) where
  once i := by
    rw [start_load]
    exact List.nodup_iff_count_le_one.mp (List.nodup_finRange n) i
  tiles _ := trivial
  within _ := Nat.zero_le _
  waiting _ _ := rfl
  requested q hq := by rcases hq with hq | hq <;> cases hq
  posted c hc := by cases hc
  gone i hi := by
    rw [start_load] at hi
    exact absurd (List.mem_finRange i) (List.count_eq_zero.mp hi)

theorem handle_firstErr {s : Driver n} {c : Cqe n} (h : (s.handle c).firstErr = none) : s.firstErr = none := by
  generalize ht : s.handle c = t at h
  have hcases := s.handle_cases c
  rw [ht] at hcases
  cases hcases with
  | again _ hnone => exact hnone
  | short _ _ hnone => exact hnone
  | full => exact h
  | stopped herr =>
    rw [h] at herr
    cases herr

theorem Step.firstErr {image : Nat → UInt8} {t : Driver n} {fills : List (Fill n)}
    (hstep : Step image s fills t) (h : t.firstErr = none) : s.firstErr = none := by
  cases hstep with
  | top =>
    obtain ⟨u, hu, hphase⟩ := s.loopTop_cases
    have hnone : u.firstErr = none := by
      rcases hphase with ⟨-, heq⟩ | heq
      · rw [heq] at h
        exact h
      · rw [heq] at h
        exact h
    rcases hu with ⟨-, rfl⟩ | ⟨hbefore, -⟩
    · exact hnone
    · exact hbefore
  | consume => exact h
  | entered => exact h
  | failed => exact h
  | touch => exact h
  | post => exact h
  | @reap c rest => exact handle_firstErr (s := { s with cq := rest }) h
  | reaped => exact h

theorem Tracked.step {image : Nat → UInt8} {t : Driver n} {fills : List (Fill n)}
    (h : Tracked ops trace s) (hstep : Step image s fills t) (hnone : t.firstErr = none) :
    Tracked ops (trace ++ fills) t := by
  have hsame : ∀ u : Driver n, u.ops = s.ops → u.pending = s.pending → u.sq = s.sq →
      u.kernel = s.kernel → u.cq = s.cq → Tracked ops (trace ++ []) u := by
    intro u ho hp hq hk hc
    rw [List.append_nil]
    exact h.congr ho (fun i => by unfold Driver.load; rw [hp, hq, hk, hc]) (by rw [hp]; simp)
      (by rw [hq, hk]; tauto) (by rw [hc]; simp)
  cases hstep with
  | top =>
    rw [List.append_nil]
    obtain ⟨u, hu, hphase⟩ := s.loopTop_cases
    have htracked : Tracked ops trace u := by
      rcases hu with ⟨-, rfl⟩ | ⟨-, rfl⟩
      · exact h
      · exact h.fill
    rcases hphase with ⟨-, heq⟩ | heq
    · rw [heq]
      exact htracked.congr rfl (fun i => rfl) (fun i hi => hi) (by tauto) fun c hc => hc
    · rw [heq]
      exact htracked.congr rfl (fun i => rfl) (fun i hi => hi) (by tauto) fun c hc => hc
  | consume _ hq =>
    rw [List.append_nil]
    exact h.consume hq
  | entered => exact hsame _ rfl rfl rfl rfl rfl
  | failed => exact hsame _ rfl rfl rfl rfl rfl
  | touch => exact hsame _ rfl rfl rfl rfl rfl
  | post hk hres => exact h.post hk hres
  | reap _ hc =>
    rw [List.append_nil]
    exact h.handle hc hnone
  | reaped => exact hsame _ rfl rfl rfl rfl rfl

end Steps

end Uring

end Oifs
