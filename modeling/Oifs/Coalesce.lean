import Oifs.MetadataOp

namespace Oifs

/-- A run of data blocks, as `coalesce_ops` collects it from both bitmap operations. -/
structure DataRun where
  start : UInt64
  count : UInt32
  allocated : Bool
  deriving DecidableEq

namespace DataRun

/-- The order of the sort key `(alloc, blk)`. -/
def KeyLe (a b : DataRun) : Prop :=
  a.allocated < b.allocated ∨ a.allocated = b.allocated ∧ a.start ≤ b.start

instance (a b : DataRun) : Decidable (KeyLe a b) := by unfold KeyLe; infer_instance

def toOp (run : DataRun) : MetadataOp :=
  if run.count = 1 then .setDataBitmap run.start run.allocated
  else .setDataBitmapRange run.start run.count run.allocated

end DataRun

/-- `sort_unstable_by_key` fixes the key order and nothing else; runs with equal keys may come in
any order. -/
structure RunSort where
  sort : List DataRun → List DataRun
  perm : ∀ runs, (sort runs).Perm runs
  sorted : ∀ runs, (sort runs).Pairwise DataRun.KeyLe

theorem DataRun.keyLe_trans {a b c : DataRun} (hab : a.KeyLe b) (hbc : b.KeyLe c) : a.KeyLe c := by
  obtain hlt | ⟨heq, hle⟩ := hab
  · obtain hlt' | ⟨heq', -⟩ := hbc
    · exact Or.inl (lt_trans hlt hlt')
    · exact Or.inl (heq' ▸ hlt)
  · obtain hlt' | ⟨heq', hle'⟩ := hbc
    · exact Or.inl (heq ▸ hlt')
    · exact Or.inr ⟨heq.trans heq', UInt64.le_trans hle hle'⟩

theorem DataRun.keyLe_total (a b : DataRun) : a.KeyLe b ∨ b.KeyLe a := by
  rcases lt_trichotomy a.allocated b.allocated with h | h | h
  · exact Or.inl (Or.inl h)
  · rcases UInt64.le_total a.start b.start with hs | hs
    · exact Or.inl (Or.inr ⟨h, hs⟩)
    · exact Or.inr (Or.inr ⟨h.symm, hs⟩)
  · exact Or.inr (Or.inl h)

def RunSort.stable : RunSort where
  sort runs := runs.mergeSort fun a b => decide (a.KeyLe b)
  perm runs := List.mergeSort_perm runs _
  sorted runs := by
    have h : (runs.mergeSort fun a b => decide (a.KeyLe b)).Pairwise
        fun a b => decide (a.KeyLe b) = true := by
      apply List.pairwise_mergeSort
      · intro a b c hab hbc
        exact decide_eq_true (DataRun.keyLe_trans (of_decide_eq_true hab) (of_decide_eq_true hbc))
      · intro a b
        simpa using DataRun.keyLe_total a b
    simpa using h

/-- What the first loop of `coalesce_ops` collects. -/
structure Buckets where
  inodeBitmapOps : List (UInt64 × Bool)
  dataBitmapOps : List DataRun
  blockSliceOps : List ((UInt64 × UInt32) × List UInt8)
  inodeOps : List (UInt64 × InodeBytes)

/-- The `BTreeMap` orders its keys by block, then offset. -/
def sliceKey (key : UInt64 × UInt32) : Nat := key.1.toNat * 2 ^ 32 + key.2.toNat

/-- `BTreeMap::insert`. -/
def insertSlice (key : UInt64 × UInt32) (data : List UInt8) :
    List ((UInt64 × UInt32) × List UInt8) → List ((UInt64 × UInt32) × List UInt8)
  | [] => [(key, data)]
  | (k, d) :: rest =>
    if sliceKey key < sliceKey k then (key, data) :: (k, d) :: rest
    else if sliceKey key = sliceKey k then (key, data) :: rest
    else (k, d) :: insertSlice key data rest

def upsertInode (inodeId : UInt64) (bytes : InodeBytes) :
    List (UInt64 × InodeBytes) → List (UInt64 × InodeBytes)
  | [] => [(inodeId, bytes)]
  | (id, b) :: rest =>
    if id = inodeId then (id, bytes) :: rest else (id, b) :: upsertInode inodeId bytes rest

namespace Buckets

def empty : Buckets := ⟨[], [], [], []⟩

def add (b : Buckets) : MetadataOp → Buckets
  | .setInodeBitmap inodeId allocated =>
    { b with inodeBitmapOps := b.inodeBitmapOps ++ [(inodeId, allocated)] }
  | .setDataBitmap blockId allocated =>
    { b with dataBitmapOps := b.dataBitmapOps ++ [⟨blockId, 1, allocated⟩] }
  | .setDataBitmapRange startBlock count allocated =>
    { b with dataBitmapOps := b.dataBitmapOps ++ [⟨startBlock, count, allocated⟩] }
  | .writeBlockSlice blockId offset data =>
    { b with blockSliceOps := insertSlice (blockId, offset) data b.blockSliceOps }
  | .writeInode inodeId bytes => { b with inodeOps := upsertInode inodeId bytes b.inodeOps }

end Buckets

/-- The second loop; the additions are `u64` and `u32` additions that wrap. -/
def mergeRuns : DataRun → List DataRun → List MetadataOp
  | cur, [] => [cur.toOp]
  | cur, run :: rest =>
    if cur.allocated = run.allocated ∧ cur.start + cur.count.toUInt64 = run.start then
      mergeRuns ⟨cur.start, cur.count + run.count, cur.allocated⟩ rest
    else cur.toOp :: mergeRuns run rest

def mergeSlices : UInt64 × UInt32 → List UInt8 →
    List ((UInt64 × UInt32) × List UInt8) → List MetadataOp
  | (blk, off), data, [] => [.writeBlockSlice blk off data]
  | (blk, off), data, ((blk', off'), data') :: rest =>
    if blk = blk' ∧ off.toNat + data.length = off'.toNat then
      mergeSlices (blk, off) (data ++ data') rest
    else .writeBlockSlice blk off data :: mergeSlices (blk', off') data' rest

def coalesceRuns : List DataRun → List MetadataOp
  | [] => []
  | run :: rest => mergeRuns run rest

def coalesceSlices : List ((UInt64 × UInt32) × List UInt8) → List MetadataOp
  | [] => []
  | (key, data) :: rest => mergeSlices key data rest

def coalesceOps (rs : RunSort) (ops : List MetadataOp) : List MetadataOp :=
  if ops.length ≤ 1 then ops
  else
    let b := ops.foldl Buckets.add Buckets.empty
    b.inodeBitmapOps.map (fun p => .setInodeBitmap p.1 p.2) ++
      (coalesceRuns (rs.sort b.dataBitmapOps) ++
        (coalesceSlices b.blockSliceOps ++ b.inodeOps.map (fun p => .writeInode p.1 p.2)))

/-- The counters of `is_already_coalesced`. -/
structure ScanState where
  phase : Nat
  dataBitmapCount : Nat
  firstDataAlloc : Bool
  sliceCount : Nat
  inodeCount : Nat
  firstInodeId : UInt64

namespace ScanState

def init : ScanState := ⟨0, 0, false, 0, 0, 0⟩

def scanData (st : ScanState) (allocated : Bool) : Option ScanState :=
  let count := st.dataBitmapCount + 1
  if count = 1 then some { st with dataBitmapCount := count, firstDataAlloc := allocated }
  else if count = 2 then
    if !st.firstDataAlloc && allocated then some { st with dataBitmapCount := count } else none
  else none

def enterPhase (st : ScanState) (opPhase : Nat) : Option ScanState :=
  if opPhase < st.phase then none else some { st with phase := opPhase }

/-- One round of the loop; `none` is `return false`. -/
def scan (st : ScanState) : MetadataOp → Option ScanState
  | .setInodeBitmap .. => st.enterPhase 1
  | .setDataBitmap _ allocated => (st.scanData allocated).bind (·.enterPhase 2)
  | .setDataBitmapRange _ count allocated =>
    if count = 1 then none else (st.scanData allocated).bind (·.enterPhase 2)
  | .writeBlockSlice .. =>
    let count := st.sliceCount + 1
    if count > 1 then none else enterPhase { st with sliceCount := count } 3
  | .writeInode inodeId _ =>
    let count := st.inodeCount + 1
    if count = 1 then enterPhase { st with inodeCount := count, firstInodeId := inodeId } 4
    else if count = 2 then
      if inodeId = st.firstInodeId then none else enterPhase { st with inodeCount := count } 4
    else none

end ScanState

def isAlreadyCoalesced (ops : List MetadataOp) : Bool :=
  ops.length ≤ 1 || (ops.foldlM ScanState.scan ScanState.init).isSome

/-- The operations that `encode_frame` writes. -/
def frameOps (rs : RunSort) (ops : List MetadataOp) : List MetadataOp :=
  if isAlreadyCoalesced ops then ops else coalesceOps rs ops

/-! The lists that the check accepts. -/

/-- What a counter of `is_already_coalesced` lets through, with the key of the first that it keeps. -/
inductive UpToTwo {α κ : Type} (key : α → κ) (apart : α → α → Prop) : Nat → κ → List α → Prop
  | none (k : κ) : UpToTwo key apart 0 k []
  | one (x : α) : UpToTwo key apart 1 (key x) [x]
  | two (k : κ) {x y : α} (h : apart x y) : UpToTwo key apart 2 k [x, y]

/-- The check stands behind `ops`, and the first loop of `coalesce_ops` has filled the buckets. -/
structure Scanned (ops : List MetadataOp) (st : ScanState) (b : Buckets) : Prop where
  ops_eq : ops = b.inodeBitmapOps.map (fun p => .setInodeBitmap p.1 p.2) ++
    (b.dataBitmapOps.map DataRun.toOp ++
      (b.blockSliceOps.map (fun p => .writeBlockSlice p.1.1 p.1.2 p.2) ++
        b.inodeOps.map fun p => .writeInode p.1 p.2))
  data : UpToTwo DataRun.allocated (fun x y => x.allocated = false ∧ y.allocated = true)
    st.dataBitmapCount st.firstDataAlloc b.dataBitmapOps
  slices : b.blockSliceOps.length = st.sliceCount ∧ st.sliceCount ≤ 1
  inodes : UpToTwo Prod.fst (fun _ _ => True) st.inodeCount st.firstInodeId b.inodeOps
  noData : st.phase < 2 → b.dataBitmapOps = []
  noSlices : st.phase < 3 → b.blockSliceOps = []
  noInodes : st.phase < 4 → b.inodeOps = []

namespace Scanned

variable {ops : List MetadataOp} {st st' : ScanState} {b : Buckets}

theorem enterPhase_some {n : Nat} (h : st.enterPhase n = some st') :
    st.phase ≤ n ∧ st' = { st with phase := n } := by
  obtain ⟨hle, heq⟩ := Option.ite_none_left_eq_some.mp h
  cases heq
  exact ⟨Nat.le_of_not_lt hle, rfl⟩

theorem data_step (run : DataRun) (h : Scanned ops st b)
    (hscan : (st.scanData run.allocated).bind (·.enterPhase 2) = some st') :
    Scanned (ops ++ [run.toOp]) st' { b with dataBitmapOps := b.dataBitmapOps ++ [run] } := by
  obtain ⟨heq, hruns, hslices, hinodes, -, hnoSlices, hnoInodes⟩ := h
  obtain ⟨st₁, hdata, hphase⟩ := Option.bind_eq_some_iff.mp hscan
  have hkept : ∃ n v, st₁ = { st with dataBitmapCount := n, firstDataAlloc := v } ∧
      UpToTwo DataRun.allocated (fun x y => x.allocated = false ∧ y.allocated = true) n v
        (b.dataBitmapOps ++ [run]) := by
    unfold ScanState.scanData at hdata
    generalize hn : st.dataBitmapCount = n, hv : st.firstDataAlloc = v, b.dataBitmapOps = runs
      at hruns hdata
    cases hruns with
    | none =>
      cases hdata
      exact ⟨_, _, rfl, .one run⟩
    | one first =>
      have hsplit : first.allocated = false ∧ run.allocated = true := by
        by_contra hne
        simp_all
      simp [hsplit] at hdata
      cases hdata
      exact ⟨_, _, rfl, .two _ hsplit⟩
    | two => cases hdata
  obtain ⟨n, v, rfl, hruns'⟩ := hkept
  obtain ⟨hle, rfl⟩ := enterPhase_some hphase
  have hs := hnoSlices (Nat.lt_succ_of_le hle)
  have hi := hnoInodes (Nat.lt_of_le_of_lt hle (by decide))
  exact ⟨by simp [heq, hs, hi], hruns', hslices, hinodes, nofun, fun _ => hs, fun _ => hi⟩

theorem inode_step {inodeId : UInt64} {bytes : InodeBytes} (h : Scanned ops st b)
    (hscan : st.scan (.writeInode inodeId bytes) = some st') :
    Scanned (ops ++ [.writeInode inodeId bytes]) st' (b.add (.writeInode inodeId bytes)) := by
  obtain ⟨heq, hruns, hslices, hinodes, -, -, -⟩ := h
  have hkept : ∃ n v, st' = { st with inodeCount := n, firstInodeId := v, phase := 4 } ∧
      upsertInode inodeId bytes b.inodeOps = b.inodeOps ++ [(inodeId, bytes)] ∧
      UpToTwo Prod.fst (fun _ _ => True) n v (b.inodeOps ++ [(inodeId, bytes)]) := by
    unfold ScanState.scan at hscan
    generalize hn : st.inodeCount = n, hv : st.firstInodeId = v, b.inodeOps = inodes
      at hinodes hscan
    cases hinodes with
    | none => exact ⟨_, _, (enterPhase_some hscan).2, rfl, .one (inodeId, bytes)⟩
    | one p =>
      obtain ⟨hne, hscan⟩ := Option.ite_none_left_eq_some.mp hscan
      exact ⟨_, _, (enterPhase_some hscan).2, by simp [upsertInode, Ne.symm hne], .two _ trivial⟩
    | two => cases hscan
  obtain ⟨n, v, rfl, hadd, hinodes'⟩ := hkept
  rw [← hadd] at hinodes'
  refine ⟨?_, hruns, hslices, hinodes', nofun, nofun, nofun⟩
  simp [heq, Buckets.add, hadd]

theorem step {op : MetadataOp} (h : Scanned ops st b) (hscan : st.scan op = some st') :
    Scanned (ops ++ [op]) st' (b.add op) := by
  cases op with
  | setInodeBitmap inodeId allocated =>
    obtain ⟨hle, rfl⟩ := enterPhase_some hscan
    have hd := h.noData (by omega)
    have hs := h.noSlices (by omega)
    have hi := h.noInodes (by omega)
    refine ⟨?_, h.data, h.slices, h.inodes, fun _ => hd, fun _ => hs, fun _ => hi⟩
    simp [h.ops_eq, Buckets.add, hd, hs, hi]
  | setDataBitmap blockId allocated => exact h.data_step ⟨blockId, 1, allocated⟩ hscan
  | setDataBitmapRange startBlock count allocated =>
    obtain ⟨hcount, hscan⟩ := Option.ite_none_left_eq_some.mp hscan
    have hstep := h.data_step ⟨startBlock, count, allocated⟩ hscan
    rwa [DataRun.toOp, if_neg hcount] at hstep
  | writeBlockSlice blockId offset data =>
    obtain ⟨hcount, hscan⟩ := Option.ite_none_left_eq_some.mp hscan
    obtain ⟨hle, rfl⟩ := enterPhase_some hscan
    have hi := h.noInodes (Nat.lt_succ_of_le hle)
    have hs : b.blockSliceOps = [] := List.eq_nil_of_length_eq_zero (by have := h.slices.1; omega)
    refine ⟨?_, h.data, ?_, h.inodes, nofun, nofun, fun _ => hi⟩
    · simp [h.ops_eq, Buckets.add, hs, hi, insertSlice]
    · simp [Buckets.add, hs, insertSlice, ← h.slices.1]
  | writeInode inodeId bytes => exact h.inode_step hscan

theorem run {rest : List MetadataOp} (h : Scanned ops st b)
    (hscan : rest.foldlM ScanState.scan st = some st') :
    Scanned (ops ++ rest) st' (rest.foldl Buckets.add b) := by
  induction rest generalizing ops st b with
  | nil =>
    cases hscan
    rwa [List.append_nil]
  | cons op rest ih =>
    obtain ⟨st₁, hop, hrest⟩ := Option.bind_eq_some_iff.mp hscan
    have hall := ih (h.step hop) hrest
    rwa [List.append_assoc] at hall

theorem coalesceRuns_eq (rs : RunSort) (h : Scanned ops st b) :
    coalesceRuns (rs.sort b.dataBitmapOps) = b.dataBitmapOps.map DataRun.toOp := by
  have hruns := h.data
  have hperm := rs.perm b.dataBitmapOps
  have hsorted := rs.sorted b.dataBitmapOps
  generalize st.dataBitmapCount = n, st.firstDataAlloc = v, b.dataBitmapOps = runs at *
  cases hruns with
  | none => rw [List.perm_nil.mp hperm]; rfl
  | one run => rw [List.perm_singleton.mp hperm]; rfl
  | @two _ free taken hkeys =>
    -- no other order is sorted, as the keys differ
    have hsort : rs.sort [free, taken] = [free, taken] := by
      refine hperm.eq_of_pairwise (fun x y hx hy hxy hyx => ?_) hsorted ?_
      · have hx := hperm.mem_iff.mp hx
        have hnot : ¬(true < false) := by decide
        simp only [List.mem_cons, List.not_mem_nil, or_false] at hx hy
        rcases hx with rfl | rfl <;> rcases hy with rfl | rfl <;> simp_all [DataRun.KeyLe]
      · simp [DataRun.KeyLe, hkeys]
    simp [hsort, coalesceRuns, mergeRuns, hkeys]

theorem coalesceSlices_eq (h : Scanned ops st b) : coalesceSlices b.blockSliceOps =
    b.blockSliceOps.map fun p => .writeBlockSlice p.1.1 p.1.2 p.2 := by
  have hlen := h.slices
  cases hs : b.blockSliceOps with
  | nil => rfl
  | cons p rest =>
    rw [hs, List.length_cons] at hlen
    rw [List.eq_nil_of_length_eq_zero (l := rest) (by omega)]
    rfl

end Scanned

/-- The check of `encode_frame` only spares work: the operations of a frame are those that
`coalesce_ops` returns. -/
theorem frameOps_eq_coalesceOps (rs : RunSort) (ops : List MetadataOp) :
    frameOps rs ops = coalesceOps rs ops := by
  unfold frameOps
  split
  next hcheck =>
    unfold coalesceOps
    split
    next => rfl
    next hlong =>
      simp only [isAlreadyCoalesced, hlong, decide_false, Bool.false_or] at hcheck
      obtain ⟨st, hscan⟩ := Option.isSome_iff_exists.mp hcheck
      have hinit : Scanned [] .init .empty :=
        ⟨rfl, .none _, ⟨rfl, Nat.zero_le 1⟩, .none _, fun _ => rfl, fun _ => rfl, fun _ => rfl⟩
      have hall := hinit.run hscan
      dsimp only
      rw [hall.coalesceRuns_eq, hall.coalesceSlices_eq, ← hall.ops_eq, List.nil_append]
  next => rfl

end Oifs
