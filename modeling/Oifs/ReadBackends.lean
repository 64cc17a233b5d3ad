import Oifs.BackendCalls
import Oifs.UringReads

namespace Oifs

/-! Agreement of the backends. -/

namespace IoEngine

/-- The transfers `ops`, each to memory of its own, as the ring driver gets them. -/
def ringOps (ops : List ReadOp) (ptr : Fin ops.length → Nat) (i : Fin ops.length) : Uring.Op :=
  ⟨ptr i, (ops.get i).len, (ops.get i).off⟩

/-- `run ops` is a run of the ring driver that returns well, and hands out what it has left in memory.
-/
def DrivenOn (image : Nat → UInt8) (run : List ReadOp → Except DiskError (ReadOp → List UInt8))
    (ops : List ReadOp) : Prop :=
  ∃ (ptr : Fin ops.length → Nat) (mem : Nat → UInt8) (trace : List (Uring.Fill ops.length))
    (s : Uring.Driver ops.length) (data : ReadOp → List UInt8),
    Uring.Apart (ringOps ops ptr) ∧ Uring.Runs image (Uring.start (ringOps ops ptr) mem) trace s ∧
    s.phase = .returned (.ok ()) ∧ run ops = .ok data ∧
    ∀ i, data (ops.get i) = (List.range (ops.get i).len).map fun j => s.mem (ptr i + j)

/-- An engine on the ring driver is coherent if the driver returns well inside the image. -/
theorem Coherent.of_driver {E : IoEngine} {v : Volume}
    {run : List ReadOp → Except DiskError (ReadOp → List UInt8)} (heff : E.effective = .ioUring run)
    (hmapped : v.mapBlocks = E.imageLen / blockSize)
    (hrun : ∀ ops : List ReadOp, (∀ op ∈ ops, op.off + op.len ≤ E.imageLen) →
      DrivenOn (fun a => v.block (a / blockSize) (a % blockSize)) run ops) : E.Coherent v where
  mapped := hmapped
  pread _ heq := nomatch heff.symm.trans heq
  ioUring run' heq ops hin := by
    cases heff.symm.trans heq
    obtain ⟨ptr, mem, trace, s, data, happart, hruns, hret, hdata, hbytes⟩ := hrun ops hin
    refine ⟨data, hdata, fun op hop => ?_⟩
    obtain ⟨i, rfl⟩ := List.mem_iff_get.mp hop
    rw [hbytes, Volume.imageBytes]
    exact List.map_congr_left fun j hj => hruns.delivers hret happart (i := i) (List.mem_range.mp hj)

end IoEngine

namespace Session

section Agreement

variable {S : Session} {E : IoEngine} {v : Volume} {inode : Inode}

theorem block_onDisk (h : E.Coherent v) {blk i n : Nat} (hblk : blk < v.mapBlocks)
    (hn : i + n ≤ blockSize) : blk * blockSize + i + n ≤ E.imageLen := by
  have hmap := h.mapped
  have hb : blockSize = 4096 := rfl
  rw [hb] at hmap hn ⊢
  omega

theorem fillExtents_comm {l : List ReadExtent} {buf data : List UInt8} {off : Nat}
    (h : Within off E.imageLen l) (hoff : off + data.length ≤ buf.length) :
    fillExtents v.imageBytes l (copyFromSlice buf off data) =
      copyFromSlice (fillExtents v.imageBytes l buf) off data := by
  induction l generalizing buf with
  | nil => rfl
  | cons e l ih =>
    have he := (h e List.mem_cons_self).1
    have hswap : copyExtent v.imageBytes (copyFromSlice buf off data) e =
        copyFromSlice (copyExtent v.imageBytes buf e) off data :=
      copyFromSlice_comm (by rw [imageBytes_length]; exact he) hoff
    have hlen : (copyExtent v.imageBytes buf e).length = buf.length :=
      copyFromSlice_length (by rw [imageBytes_length]; omega)
    change fillExtents v.imageBytes l (copyExtent v.imageBytes (copyFromSlice buf off data) e) = _
    rw [hswap]
    exact ih h.tail (by rw [hlen]; exact hoff)

theorem prepareRaw_planned (h : E.Coherent v) (inode : Inode) (curr : Nat) {rest done : Nat} {buf : List UInt8}
    {extents : List ReadExtent} (hbuf : done + rest ≤ buf.length)
    (hin : Within done E.imageLen extents) :
    (prepareRaw v inode true curr rest done buf extents).1.length = buf.length ∧
    Within buf.length E.imageLen (prepareRaw v inode true curr rest done buf extents).2 ∧
    fillExtents v.imageBytes (prepareRaw v inode true curr rest done buf extents).2
      (prepareRaw v inode true curr rest done buf extents).1 =
      (prepareRaw v inode false curr rest done (fillExtents v.imageBytes extents buf) []).1 := by
  induction rest using Nat.strong_induction_on generalizing curr done buf extents with
  | _ rest ih =>
    rw [prepareRaw, prepareRaw]
    by_cases hzero : rest = 0
    · rw [dif_pos hzero, dif_pos hzero]
      exact ⟨rfl, hin.mono (by omega), rfl⟩
    rw [dif_neg hzero, dif_neg hzero]
    have hmod := mod_blockSize_lt curr
    generalize hlen : min rest (blockSize - curr % blockSize) = len
    generalize v.resolveLogicalBlockId inode (curr / blockSize) = blk
    dsimp only
    have hfilled : (fillExtents v.imageBytes extents buf).length = buf.length :=
      fillExtents_length (hin.mono (by omega))
    by_cases hmap : blk ≠ 0 ∧ blk < v.mapBlocks
    · rw [if_pos hmap, if_pos hmap, if_pos rfl, if_neg Bool.false_ne_true]
      have hpush := fillExtents_push (v := v) (d := blk * blockSize + curr % blockSize) (n := len)
        (hin.mono (show done ≤ buf.length by omega)) (show done + len ≤ buf.length by omega)
      rw [imageBytes_block blk (by omega)] at hpush
      have hnext := ih (rest - len) (by omega) (curr + len)
        (show done + len + (rest - len) ≤ buf.length by omega)
        ((hin.mono (Nat.le_add_right done len)).push (Nat.le_refl _)
          (block_onDisk h hmap.2 (show curr % blockSize + len ≤ blockSize by omega)))
      rw [hpush] at hnext
      exact hnext
    · rw [if_neg hmap, if_neg hmap]
      dsimp only
      have hcopy : (copyFromSlice buf done (List.replicate len 0)).length = buf.length :=
        copyFromSlice_length (by rw [List.length_replicate]; omega)
      have hcomm := fillExtents_comm (v := v) hin
        (show done + (List.replicate len (0 : UInt8)).length ≤ buf.length by
          rw [List.length_replicate]; omega)
      have hnext := ih (rest - len) (by omega) (curr + len) (show done + len + (rest - len) ≤
        (copyFromSlice buf done (List.replicate len 0)).length by omega)
        (hin.mono (Nat.le_add_right done len))
      rw [hcomm, hcopy] at hnext
      exact hnext

theorem foldl_push_copy (h : E.Coherent v) {physicalSize : Nat} (ks : List Nat)
    (hks : ∀ k ∈ ks, k * blockSize < physicalSize) {l : List ReadExtent} {f : Nat → UInt8}
    (hin : Within physicalSize E.imageLen l)
    (hf : fillExtents v.imageBytes l (List.replicate physicalSize 0) =
      (List.range physicalSize).map f) :
    Within physicalSize E.imageLen (ks.foldl (fun l k =>
      if v.resolveLogicalBlockId inode k < v.mapBlocks then
        ExtentList.push l (v.resolveLogicalBlockId inode k * blockSize) (k * blockSize)
          (min (physicalSize - k * blockSize) blockSize)
      else l) l) ∧
    fillExtents v.imageBytes (ks.foldl (fun l k =>
      if v.resolveLogicalBlockId inode k < v.mapBlocks then
        ExtentList.push l (v.resolveLogicalBlockId inode k * blockSize) (k * blockSize)
          (min (physicalSize - k * blockSize) blockSize)
      else l) l) (List.replicate physicalSize 0) =
      (List.range physicalSize).map (ks.foldl (fun f k =>
        v.copyBlock f (v.resolveLogicalBlockId inode k) (k * blockSize)
          (min (physicalSize - k * blockSize) blockSize)) f) := by
  induction ks generalizing l f with
  | nil => exact ⟨hin, hf⟩
  | cons k ks ih =>
    have hk := hks k List.mem_cons_self
    have htail : ∀ k ∈ ks, k * blockSize < physicalSize := fun j hj =>
      hks j (List.mem_cons_of_mem k hj)
    rw [List.foldl_cons, List.foldl_cons]
    generalize v.resolveLogicalBlockId inode k = blk
    generalize hlen : min (physicalSize - k * blockSize) blockSize = len
    by_cases hmap : blk < v.mapBlocks
    · rw [if_pos hmap]
      have hpush := fillExtents_push (v := v) (d := blk * blockSize) (b := k * blockSize) (n := len)
        (show Within (List.replicate physicalSize (0 : UInt8)).length E.imageLen l by
          rw [List.length_replicate]; exact hin)
        (by rw [List.length_replicate]; omega)
      have hbytes := imageBytes_block (v := v) blk (show 0 + len ≤ blockSize by omega)
      rw [Nat.add_zero] at hbytes
      rw [hf, hbytes, copyFromSlice_map_range f (by simp; omega)] at hpush
      simp only [Nat.zero_add] at hpush
      have hdisk := block_onDisk h hmap (show 0 + len ≤ blockSize by omega)
      rw [Nat.add_zero] at hdisk
      have hcopy : v.copyBlock f blk (k * blockSize) len =
          patch f (k * blockSize) ((List.range len).map (v.block blk)) := if_pos hmap
      rw [hcopy]
      exact ih htail (hin.push (by omega) hdisk) hpush
    · rw [if_neg hmap, Volume.copyBlock, if_neg hmap]
      exact ih htail hin hf

theorem gatherPayload_eq (h : E.Coherent v) (inode : Inode) (physicalSize : Nat) :
    gatherPayload E v inode physicalSize = .ok (v.rawData inode physicalSize) := by
  unfold gatherPayload
  split
  next => rfl
  next =>
    have hblocks : ∀ k ∈ (List.range (divCeil physicalSize blockSize)).filter fun k =>
        v.isDataBlock (v.resolveLogicalBlockId inode k), k * blockSize < physicalSize := by
      intro k hk
      have hlt := List.mem_range.mp (List.mem_filter.mp hk).1
      simp only [divCeil, show blockSize = 4096 from rfl] at hlt ⊢
      omega
    have hzero : fillExtents v.imageBytes [] (List.replicate physicalSize 0) =
        (List.range physicalSize).map fun _ => (0 : UInt8) := by
      simp [fillExtents]
    obtain ⟨hin, hfill⟩ := foldl_push_copy h _ hblocks (fun e he => (List.not_mem_nil he).elim) hzero
    dsimp only
    rw [Volume.walk_visits_data_blocks, E.readOne_delivers h (by rw [List.length_replicate]; exact hin)]
    dsimp only
    rw [hfill, Volume.rawData, Volume.walk_visits_data_blocks]

theorem readDataInternalWith_eq (h : E.Coherent v) (id : Nat) (inode : Inode) :
    S.readDataInternalWith E v id inode = S.readDataInternal v id inode := by
  unfold readDataInternalWith readDataInternal
  rw [gatherPayload_eq h]

theorem readDataInternalWith_direct (h : E.isDirect = true) (id : Nat) (inode : Inode) :
    S.readDataInternalWith E v id inode = S.readDataInternal v id inode := by
  unfold readDataInternalWith readDataInternal gatherPayload
  rw [if_pos h]

theorem prepareRaw_direct (curr rest done : Nat) (buf : List UInt8) (extents : List ReadExtent) :
    (prepareRaw v inode false curr rest done buf extents).2 = extents := by
  induction rest using Nat.strong_induction_on generalizing curr done buf extents with
  | _ rest ih =>
    rw [prepareRaw]
    by_cases hzero : rest = 0
    · rw [dif_pos hzero]
    rw [dif_neg hzero]
    have hmod := mod_blockSize_lt curr
    dsimp only
    split
    next =>
      rw [if_neg Bool.false_ne_true]
      exact ih _ (by omega) ..
    next => exact ih _ (by omega) ..

/-- A request planned for an engine and filled is the request served from the mapping. -/
structure Agrees (E : IoEngine) (v : Volume) (p q : PlannedRead) : Prop where
  result : p.result = q.result
  filled : fillExtents v.imageBytes p.extents p.buf = q.buf
  direct : q.extents = []
  within : Within p.buf.length E.imageLen p.extents
  failed : ∀ e, p.result = .error e → p.extents = []

theorem Agrees.same (r : Except DiskError Nat) (buf : List UInt8) :
    Agrees E v ⟨r, buf, []⟩ ⟨r, buf, []⟩ where
  result := rfl
  filled := rfl
  direct := rfl
  within _ he := (List.not_mem_nil he).elim
  failed _ _ := rfl

theorem Agrees.refl {p : PlannedRead} (h : p.extents = []) : Agrees E v p p := by
  obtain ⟨r, buf, extents⟩ := p
  cases h
  exact .same r buf

theorem readAtPrepare_agrees (h : E.Coherent v) {M : IoEngine} (hM : M.isDirect = true)
    (id offset : Nat) (buf : List UInt8) :
    Agrees E v (S.readAtPrepare E v id offset buf true) (S.readAtPrepare M v id offset buf false) := by
  unfold readAtPrepare
  cases v.readInodeInternal id with
  | error e => exact .same _ _
  | ok inode =>
    dsimp only
    split
    next => exact .same _ _
    next =>
      split
      next => exact .same _ _
      next =>
        split
        next => exact .same _ _
        next =>
          split
          next =>
            rw [readDataInternalWith_eq h, readDataInternalWith_direct hM]
            cases S.readDataInternal v id inode with
            | error e => exact .same _ _
            | ok full => exact .same _ _
          next =>
            have hbuf : 0 + min buf.length (inode.size - offset) ≤ buf.length := by omega
            obtain ⟨hlen, hin, hfill⟩ := prepareRaw_planned h inode offset hbuf
              fun e he => (List.not_mem_nil he).elim
            refine ⟨rfl, hfill, prepareRaw_direct .., ?_, fun e he => (nomatch he)⟩
            dsimp only
            rw [hlen]
            exact hin

theorem readAtPrepare_direct {M : IoEngine} (hE : E.isDirect = true) (hM : M.isDirect = true)
    (id offset : Nat) (buf : List UInt8) :
    S.readAtPrepare E v id offset buf false = S.readAtPrepare M v id offset buf false := by
  unfold readAtPrepare
  simp only [readDataInternalWith_direct hE, readDataInternalWith_direct hM]

theorem readAtWith_eq (h : E.Coherent v) {M : IoEngine} (hM : M.isDirect = true) (id offset : Nat)
    (buf : List UInt8) : S.readAtWith E v id offset buf =
      ((S.readAtPrepare M v id offset buf false).result,
        (S.readAtPrepare M v id offset buf false).buf) := by
  unfold readAtWith
  by_cases hE : E.isDirect = true
  · rw [if_pos hE, readAtPrepare_direct hE hM]
  · rw [if_neg hE]
    have hagree := readAtPrepare_agrees (S := S) h hM id offset buf
    generalize S.readAtPrepare E v id offset buf true = p at hagree ⊢
    generalize S.readAtPrepare M v id offset buf false = q at hagree ⊢
    obtain ⟨hresult, hfilled, -, hin, hfailed⟩ := hagree
    rw [← hresult, ← hfilled]
    dsimp only
    cases hp : p.result with
    | error e =>
      rw [hfailed e hp]
      rfl
    | ok n =>
      dsimp only
      split
      next hempty =>
        rw [List.isEmpty_iff.mp hempty]
        rfl
      next => rw [E.readOne_delivers h hin]

theorem scatter_filled (v : Volume) (ps : List PlannedRead) :
    scatter none ps ((batchTargets ps).map fun t => fillExtents v.imageBytes t.extents t.buf) =
      ps.map fun p => (p.result, fillExtents v.imageBytes p.extents p.buf) := by
  induction ps with
  | nil => rfl
  | cons p ps ih =>
    rw [scatter]
    by_cases hempty : p.extents.isEmpty = true
    · have htargets : batchTargets (p :: ps) = batchTargets ps := by
        simp [batchTargets, hempty]
      rw [if_pos hempty, htargets, ih, List.map_cons, List.isEmpty_iff.mp hempty]
      rfl
    · have htargets : batchTargets (p :: ps) = ⟨p.buf, p.extents⟩ :: batchTargets ps := by
        simp [batchTargets, hempty]
      rw [if_neg hempty, htargets, List.map_cons, List.tail_cons, ih]
      rfl

theorem prepareRequest_agrees (h : E.Coherent v) {M : IoEngine} (hM : M.isDirect = true)
    (q : ReadRequest) : Agrees E v (S.prepareRequest E v q)
      (S.readAtPrepare M v q.id q.offset q.buf false) := by
  have hplanned := readAtPrepare_agrees (S := S) h hM q.id q.offset q.buf
  have hagree : Agrees E v (S.readAtPrepare E v q.id q.offset q.buf (!E.isDirect))
      (S.readAtPrepare M v q.id q.offset q.buf false) := by
    by_cases hE : E.isDirect = true
    · rw [hE, Bool.not_true, readAtPrepare_direct hE hM]
      exact .refl hplanned.direct
    · rw [Bool.not_eq_true] at hE
      rw [hE, Bool.not_false]
      exact hplanned
  unfold prepareRequest
  dsimp only
  split
  next e herr =>
    have hnone := hagree.failed e herr
    rw [← hnone]
    exact hagree
  next => exact hagree

theorem readAtBatch_eq (h : E.Coherent v) {M : IoEngine} (hM : M.isDirect = true)
    (requests : List ReadRequest) : S.readAtBatch E v requests =
      requests.map fun q => ((S.readAtPrepare M v q.id q.offset q.buf false).result,
        (S.readAtPrepare M v q.id q.offset q.buf false).buf) := by
  have hagree := fun q => prepareRequest_agrees (S := S) h hM q
  have hresults : (requests.map (S.prepareRequest E v)).map
      (fun p => (p.result, fillExtents v.imageBytes p.extents p.buf)) =
      requests.map fun q => ((S.readAtPrepare M v q.id q.offset q.buf false).result,
        (S.readAtPrepare M v q.id q.offset q.buf false).buf) := by
    rw [List.map_map]
    apply List.map_congr_left
    intro q _
    rw [Function.comp_apply, (hagree q).result, (hagree q).filled]
  have hfits : IoEngine.Fits E.imageLen (batchTargets (requests.map (S.prepareRequest E v))) := by
    intro t ht
    obtain ⟨p, hp, rfl⟩ := List.mem_map.mp ht
    obtain ⟨q, -, rfl⟩ := List.mem_map.mp (List.mem_filter.mp hp).1
    exact (hagree q).within
  have hscatter := scatter_filled v (requests.map (S.prepareRequest E v))
  rw [hresults] at hscatter
  unfold readAtBatch
  dsimp only
  split
  next hempty =>
    rw [← hresults]
    apply List.map_congr_left
    intro p hp
    have hnone : p.extents = [] := by
      by_contra hne
      have hmem : (⟨p.buf, p.extents⟩ : ReadTarget) ∈
          batchTargets (requests.map (S.prepareRequest E v)) :=
        List.mem_map.mpr ⟨p, List.mem_filter.mpr ⟨hp, by simpa using hne⟩, rfl⟩
      rw [List.isEmpty_iff.mp hempty] at hmem
      cases hmem
    rw [hnone]
    rfl
  next =>
    rw [E.read_delivers h hfits]
    exact hscatter

end Agreement

def mappedEngine (E : IoEngine) : IoEngine := { E with effective := .mmap }

theorem mappedEngine_coherent {E : IoEngine} {v : Volume} (h : E.Coherent v) :
    (mappedEngine E).Coherent v where
  mapped := h.mapped
  pread _ heq := nomatch heq
  ioUring _ heq := nomatch heq

/-- Results and buffers do not depend on the backend. -/
theorem backends_agree (S : Session) {E : IoEngine} {v : Volume} (h : E.Coherent v) :
    (∀ id, S.readDataWith E v id = S.readDataWith (mappedEngine E) v id ∧
      S.readDataWith E v id = S.readData v id) ∧
    (∀ id offset buf, S.readAtWith E v id offset buf =
      S.readAtWith (mappedEngine E) v id offset buf) ∧
    ∀ requests, S.readAtBatch E v requests = S.readAtBatch (mappedEngine E) v requests := by
  have hmapped := mappedEngine_coherent h
  have hdirect : (mappedEngine E).isDirect = true := rfl
  have hdata : ∀ {E : IoEngine}, E.Coherent v → ∀ id, S.readDataWith E v id = S.readData v id := by
    intro E h id
    unfold readDataWith readData
    simp only [readDataInternalWith_eq h]
  refine ⟨?_, ?_, ?_⟩
  · intro id
    rw [hdata h, hdata hmapped]
    exact ⟨rfl, rfl⟩
  · intro id offset buf
    rw [readAtWith_eq h hdirect, readAtWith_eq hmapped hdirect]
  · intro requests
    rw [readAtBatch_eq h hdirect, readAtBatch_eq hmapped hdirect]

def preadEngine (v : Volume) : IoEngine :=
  ⟨.pread fun off len => .ok (v.imageBytes off len), v.mapBlocks * blockSize⟩

theorem preadEngine_coherent (v : Volume) : (preadEngine v).Coherent v where
  mapped := (Nat.mul_div_cancel v.mapBlocks (by decide)).symm
  pread readExactAt heq off len _ := by
    cases heq
    rfl
  ioUring _ heq := nomatch heq

def holeVolume : Volume :=
  tinyVolume { tailInode with size := 5000 } fun _ => 7

theorem backends_agree_hole :
    (preadEngine holeVolume).isDirect = false ∧
    ∀ id offset buf, (clearSession none).readAtWith (preadEngine holeVolume) holeVolume id offset buf =
      (clearSession none).readAtWith (mappedEngine (preadEngine holeVolume)) holeVolume id offset buf :=
  ⟨rfl, (backends_agree (clearSession none) (preadEngine_coherent holeVolume)).2.1⟩

end Session

end Oifs
