import Oifs.FailedStore
import Oifs.AllocFrame

namespace Oifs

open PointerForest Outcome

/-- The first `n` bytes of a store were stored in blocks that the record leads to, before its end they
are the old ones, and looking for the next block takes no slot. -/
structure StoreSpares (v w : Volume) (i : Inode) (off : Nat) (data : List UInt8) (n : Nat) : Prop where
  ways : ∀ k, k < n → i.wayRoot ((off + k) / blockSize) ≠ 0
  next : i.wayRoot ((off + n) / blockSize) ≠ 0 ∨ w.Full ∨ maxLogicalBlocks ≤ (off + n) / blockSize
  bytes : ∀ k, k < n → off + k < i.physicalSize → data.getD k 0 = v.payload i (off + k)

namespace Session

variable (S : Session) (id : Nat) (A : Ambient) (c : WriteCall) (v : Volume)

def wholePlan : Except DiskError (Inode × WritePlan) := do
  let (initial, existing) ← S.inspectWrite v id c.offset c.data c.config
  return (initial, ← S.planWritePrepared initial c.offset c.data c.mode c.config existing A.nonce
    (fileAadForScheme id v.superblock.encryptionVersion))

def chunkPayloads : Except DiskError (Inode × List PreparedChunkPayload) := do
  let plan ← S.planChunkedWrite v id c.offset c.data
  return (plan.initialInode,
    ← S.prepareChunks v.superblock.encryptionVersion id c.mode.chunkLevel A plan.chunks)

/-- The inode that a plan is stored with. -/
def storeInode (i : Inode) (plan : WritePlan) : Inode :=
  if plan.case.freesPreviousBlocks then { i with blocks := fun _ => 0, tripleIndirect := 0 } else i

def ReleasesNothing (i : Inode) (plan : WritePlan) : Prop :=
  plan.case.freesPreviousBlocks = true → v.collectInodeBlocks i = []

def PlanSpares (i : Inode) (plan : WritePlan) : Prop :=
  ∀ n w, Volume.storeStop (storeInode i plan) plan.physOff plan.buffer v = some (n, w) →
    StoreSpares v w (storeInode i plan) plan.physOff plan.buffer n

/-- The call fails in its checks or in its preparation, for the run of its first chunk, or where its
store spares the file. -/
def WriteSpares : Prop :=
  match isSeekableWrite v id c.mode with
  | .error _ => True
  | .ok true => ∀ i prepared, S.chunkPayloads id A c v = .ok (i, prepared) →
    ∃ p ps e, prepared = p :: ps ∧
      Volume.allocateContiguousBlocksInternal p.blocksNeeded v = .error e v
  | .ok false => ∀ i plan, S.wholePlan id A c v = .ok (i, plan) →
    ReleasesNothing v i plan ∧ PlanSpares v i plan

/-- Every file is read as before, and the marks are exact. -/
def Undamaged (v' : Volume) : Prop :=
  (∀ j, v.inodeBit j = true → S.readData v' j = S.readData v j) ∧ v'.MarksExact

variable {S id A c v} {v' : Volume} {e : DiskError}

theorem liftExcept_error {α : Type} {r : Except DiskError α} :
    liftExcept r v = .error e v' ↔ r = .error e ∧ v = v' := by
  cases r with
  | ok a =>
    constructor
    · intro h
      cases h
    · rintro ⟨h, -⟩
      cases h
  | error e₁ =>
    constructor
    · intro h
      cases h
      exact ⟨rfl, rfl⟩
    · rintro ⟨h, rfl⟩
      cases h
      rfl

theorem lift_bind_error {α β : Type} {r : Except DiskError α} {f : α → DiskM β} :
    (liftExcept r >>= f) v = .error e v' ↔
      (r = .error e ∧ v = v') ∨ ∃ a, r = .ok a ∧ f a v = .error e v' := by
  rw [bind_error, liftExcept_error]
  constructor
  · rintro (h | ⟨a, v₁, hok, h⟩)
    · exact .inl h
    · obtain ⟨hr, rfl⟩ := liftExcept_ok.mp hok
      exact .inr ⟨a, hr, h⟩
  · rintro (h | ⟨a, hr, h⟩)
    · exact .inl h
    · exact .inr ⟨a, v, liftExcept_ok.mpr ⟨hr, rfl⟩, h⟩

variable {effective : FilterConfig} {i : Inode} {plan : WritePlan}

theorem storePlan_error {j : Inode}
    (hr : ReleasesNothing v i plan) (hread : v.readInodeInternal id = .ok j)
    (h : storePlan A id i plan effective v = .error e v') :
    Volume.writeBufferAtOffset (storeInode i plan) plan.physOff plan.buffer v = .error e v' := by
  have hreset : (if plan.case.freesPreviousBlocks then releaseBlocks i else pure i) v =
      .ok (storeInode i plan) v := by
    unfold storeInode
    by_cases hfrees : plan.case.freesPreviousBlocks = true
    · rw [if_pos hfrees, if_pos hfrees]
      have hkept : v.freeBlocks (v.collectInodeBlocks i) = v := by
        rw [hr hfrees]
        rfl
      change EStateM.Result.ok _ (v.freeBlocks (v.collectInodeBlocks i)) = _
      rw [hkept]
    · rw [if_neg hfrees, if_neg hfrees]
      rfl
  obtain h | ⟨i₁, v₁, hok, h⟩ := bind_error.mp h
  · rw [hreset] at h
    cases h
  rw [hreset] at hok
  cases hok
  obtain h | ⟨⟨n, i₂⟩, v₂, hok, h⟩ := bind_error.mp h
  · exact h
  -- the inode was read, so that it can be written
  have hsb : v₂.superblock = v.superblock := by
    have hkeeps : Keeps (fun w : Volume => w.superblock = v.superblock)
        (Volume.writeBufferAtOffset (storeInode i plan) plan.physOff plan.buffer) := by
      refine writeBufferAtOffset_keeps (fun w b f hw => ?_) (fun w b n hw => hw) _ _ _
      exact (Volume.setBlock_superblock ..).trans hw
    exact hkeeps.of_ok rfl hok
  change Volume.writeInodeInternal id _ v₂ = .error e v' at h
  unfold Volume.writeInodeInternal at h
  rw [DiskM.get_bind, hsb] at h
  unfold Volume.readInodeInternal at hread
  split at hread
  next => cases hread
  next hlt =>
    rw [if_neg hlt] at h
    cases h

theorem decodePayload_plain {config : FilterConfig} {scheme : Nat}
    (h : S.payloadIsTransformed i config = false) (raw : List UInt8) :
    S.decodePayload scheme id i raw = .ok raw := by
  obtain ⟨hcomp, henc, -, htype⟩ := not_transformed h
  have hfilter : i.filter.isActive = false := filter_inactive htype
  unfold decodePayload decryptPayload decompressPayload unfilterPayload
  simp only [henc, hcomp, hfilter, Bool.false_eq_true, Nat.lt_irrefl, and_false, if_false]
  rfl

/-- A plan that keeps the blocks stores plain bytes, or behind the end of the payload. -/
theorem wholePlan_plain (h : S.wholePlan id A c v = .ok (i, plan))
    (hkeeps : plan.case.freesPreviousBlocks = false) : i.physicalSize ≤ plan.physOff ∨
      ∀ raw, S.decodePayload v.superblock.encryptionVersion id i raw = .ok raw := by
  obtain ⟨⟨i', existing⟩, -, h⟩ := except_bind_ok.mp h
  obtain ⟨plan', hplan, hpair⟩ := except_bind_ok.mp h
  cases except_pure_ok.mp hpair
  unfold planWritePrepared at hplan
  dsimp only at hplan
  split at hplan
  next =>
    obtain ⟨payload, -, hplan⟩ := except_bind_ok.mp hplan
    cases except_pure_ok.mp hplan
    cases hkeeps
  next =>
    split at hplan
    next =>
      split at hplan
      next happend =>
        obtain ⟨frame, -, hplan⟩ := except_bind_ok.mp hplan
        cases except_pure_ok.mp hplan
        refine .inl (le_of_eq ?_)
        exact if_pos (may_append happend).1
      next =>
        have hcase : plan.case = .recompress := by
          cases existing with
          | some old =>
            simp only [except_bind_ok, except_pure_ok] at hplan
            obtain ⟨_, -, _, -, rfl⟩ := hplan
            rfl
          | none =>
            dsimp only at hplan
            by_cases hsize : i.size = 0
            · simp only [if_pos hsize, except_bind_ok, except_pure_ok] at hplan
              obtain ⟨_, -, _, -, rfl⟩ := hplan
              rfl
            · rw [if_neg hsize] at hplan
              cases hplan
        rw [hcase] at hkeeps
        cases hkeeps
    next hplain =>
      have htrans : S.payloadIsTransformed i c.config = false := by simpa using hplain
      exact .inr (decodePayload_plain htrans)

theorem wayRoot_zero {idx : Nat} (h : ∀ k, i.slot k = 0) : i.wayRoot idx = 0 := by
  unfold Inode.wayRoot
  split <;> first | exact h _ | rfl

/-- What a failing store leaves is harmless exactly if the plan spares the file. -/
theorem storePlan_undamaged_iff
    (hv : v.Intact) (hid : v.inodeBit id = true) (hi : v.readInodeInternal id = .ok i)
    (hwhole : i.isSeekable = false) (hplan : S.wholePlan id A c v = .ok (i, plan))
    (hr : ReleasesNothing v i plan) (h : storePlan A id i plan effective v = .error e v') :
    S.Undamaged v v' ↔ PlanSpares v i plan := by
  have hstart : (∀ k, (storeInode i plan).slot k = i.slot k) ∨ ∀ k, (storeInode i plan).slot k = 0 := by
    unfold storeInode
    split
    next => exact .inr (slot_cleared i)
    next => exact .inl fun _ => rfl
  have hgood : Good rawExtent (Files.single id (storeInode i plan)) v := by
    rcases hstart with hsame | hnone
    · exact (hv.good hid hi hwhole).congr_slots hsame
    · exact good_empty rawExtent_zero hv.sound hnone
  have hsize : (storeInode i plan).physicalSize = i.physicalSize := by
    unfold storeInode
    split <;> rfl
  have hfail := storePlan_error hr hi h
  rw [← Files.single_inode id (storeInode i plan)] at hfail
  obtain ⟨n, w, i', hn, hstop, hwrites, hslots⟩ :=
    writeBufferAtOffset_error hgood (Files.single_has id _) hfail
  rw [Files.single_inode] at hstop hslots
  have hinter : Interrupted v id i (storeInode i plan) v' i' plan.physOff (plan.buffer.take n) :=
    ⟨hv, hid, hi, hwhole, hstart, hwrites⟩
  have hlen : (plan.buffer.take n).length = n := by
    rw [List.length_take]
    omega
  have hget : ∀ k, k < n → (plan.buffer.take n).getD k 0 = plan.buffer.getD k 0 := by
    intro k hk
    rw [List.getD_eq_getElem?_getD, List.getD_eq_getElem?_getD, List.getElem?_take_of_lt hk]
  have hiff := hinter.kept_iff S (fun hsome => wholePlan_plain hplan ?_) fun hnone hkept => ?_
  · unfold Undamaged
    rw [hiff, hslots, hlen]
    constructor
    · rintro ⟨⟨hways, hnext⟩, hbytes⟩ n' w' hstop'
      cases hstop.symm.trans hstop'
      refine ⟨hways, hnext, fun k hk hlt => ?_⟩
      rw [← hget k hk]
      exact hbytes k hk (by rwa [← hsize])
    · intro hspares
      obtain ⟨hways, hnext, hbytes⟩ := hspares n w hstop
      refine ⟨⟨hways, hnext⟩, fun k hk hlt => ?_⟩
      rw [hget k hk]
      exact hbytes k hk (by rwa [hsize])
  · by_contra hfrees
    refine hsome fun k => ?_
    unfold storeInode
    rw [if_pos (by simpa using hfrees)]
    exact slot_cleared i k
  · have hzero : n = 0 := by
      by_contra hpos
      exact (hslots.mp hkept).1 0 (by omega) (wayRoot_zero hnone)
    rw [hzero, List.take_zero]

theorem commitPreparedChunkedWrite_refused {size : Nat} {p : PreparedChunkPayload}
    {ps : List PreparedChunkPayload} {e₁ : DiskError} (hj : v.superblock.hasJournalLayout = false)
    (hr : Volume.allocateContiguousBlocksInternal p.blocksNeeded v = .error e₁ v)
    (h : S.commitPreparedChunkedWrite A id size (p :: ps) v = .error e v') : v' = v := by
  rw [commitPreparedChunkedWrite, DiskM.get_bind, if_neg (by rw [hj]; exact Bool.false_ne_true)] at h
  obtain ⟨-, rfl⟩ | ⟨old, -, h⟩ := lift_bind_error.mp h
  · rfl
  have hstop (inode : Inode) (delta : Int) : commitChunks inode delta (p :: ps) v = .error e₁ v :=
    bind_error.mpr (.inl (bind_error.mpr (.inl hr)))
  obtain h | ⟨_, _, hok, -⟩ := bind_error.mp h
  · rw [hstop] at h
    cases h
    rfl
  · rw [hstop] at hok
    cases hok

theorem write_whole_error (hj : v.superblock.hasJournalLayout = false)
    (hseek : isSeekableWrite v id c.mode = .ok false) (h : S.write id A c v = .error e v') :
    (v' = v ∧ ∀ r, S.wholePlan id A c v ≠ .ok r) ∨ ∃ i plan, S.wholePlan id A c v = .ok (i, plan) ∧
      storePlan A id i plan (effectiveFilter i c.config) v = .error e v' := by
  rw [write, writeDataWithFilters, DiskM.get_bind, hseek] at h
  obtain ⟨hmode, -⟩ | ⟨_, hmode, h⟩ := lift_bind_error.mp h
  · cases hmode
  cases hmode
  rw [if_neg Bool.false_ne_true] at h
  obtain ⟨hinspect, rfl⟩ | ⟨⟨i, existing⟩, hinspect, h⟩ := lift_bind_error.mp h
  · refine .inl ⟨rfl, fun r hr => ?_⟩
    obtain ⟨_, hok, -⟩ := except_bind_ok.mp hr
    rw [hinspect] at hok
    cases hok
  obtain ⟨hplan, rfl⟩ | ⟨plan, hplan, h⟩ := lift_bind_error.mp h
  · refine .inl ⟨rfl, fun r hr => ?_⟩
    obtain ⟨_, hok, hr⟩ := except_bind_ok.mp hr
    cases hinspect.symm.trans hok
    obtain ⟨_, hok, -⟩ := except_bind_ok.mp hr
    rw [hplan] at hok
    cases hok
  have hwhole : S.wholePlan id A c v = .ok (i, plan) := by
    exact except_bind_ok.mpr ⟨(i, existing), hinspect, except_bind_ok.mpr ⟨plan, hplan, rfl⟩⟩
  obtain ⟨i', hread, hrest⟩ := except_bind_ok.mp hinspect
  obtain ⟨_, hfile, hrest⟩ := except_bind_ok.mp hrest
  obtain ⟨_, -, hpair⟩ := except_bind_ok.mp hrest
  cases except_pure_ok.mp hpair
  rw [commitWrite, DiskM.get_bind, hread] at h
  obtain ⟨hi, -⟩ | ⟨i', hi, h⟩ := lift_bind_error.mp h
  · cases hi
  cases hi
  obtain ⟨hrefused, -⟩ | ⟨_, -, h⟩ := lift_bind_error.mp h
  · rw [hfile] at hrefused
    cases hrefused
  rw [canUsePrepared_self, if_pos rfl] at h
  obtain ⟨hsame, -⟩ | ⟨plan', hsame, h⟩ := lift_bind_error.mp h
  · cases hsame
  cases hsame
  rw [if_neg (by rw [hj]; exact Bool.false_ne_true)] at h
  exact .inr ⟨i, plan, hwhole, h⟩

theorem write_chunked_error (hseek : isSeekableWrite v id c.mode = .ok true)
    (h : S.write id A c v = .error e v') :
    v' = v ∨ ∃ i prepared, S.chunkPayloads id A c v = .ok (i, prepared) ∧
      S.commitPreparedChunkedWrite A id (max i.size (c.offset + c.data.length)) prepared v =
        .error e v' := by
  rw [write, writeDataWithFilters, DiskM.get_bind, hseek] at h
  obtain ⟨-, rfl⟩ | ⟨_, hmode, h⟩ := lift_bind_error.mp h
  · exact .inl rfl
  cases hmode
  rw [if_pos rfl] at h
  unfold writeChunked64kPipeline at h
  split at h
  next => cases h
  next =>
    rw [DiskM.get_bind] at h
    obtain ⟨-, rfl⟩ | ⟨plan, hplan, h⟩ := lift_bind_error.mp h
    · exact .inl rfl
    obtain ⟨-, rfl⟩ | ⟨prepared, hprepared, h⟩ := lift_bind_error.mp h
    · exact .inl rfl
    have hpayloads : S.chunkPayloads id A c v = .ok (plan.initialInode, prepared) := by
      exact except_bind_ok.mpr ⟨plan, hplan, except_bind_ok.mpr ⟨prepared, hprepared, rfl⟩⟩
    rw [commitChunkedWrite, DiskM.get_bind, (planChunkedWrite_ok.mp hplan).1] at h
    obtain ⟨-, rfl⟩ | ⟨i', hi, h⟩ := lift_bind_error.mp h
    · exact .inl rfl
    cases hi
    obtain ⟨-, rfl⟩ | ⟨_, -, h⟩ := lift_bind_error.mp h
    · exact .inl rfl
    rw [canUsePreparedChunks_self, if_pos rfl] at h
    exact .inr ⟨plan.initialInode, prepared, hpayloads, h⟩

theorem undamaged_refl (hv : v.Intact) : S.Undamaged v v := ⟨fun _ _ => rfl, hv.exact⟩

theorem seekable_record (hread : v.readInodeInternal id = .ok i)
    (hseek : isSeekableWrite v id c.mode = .ok false) : i.isSeekable = false := by
  unfold isSeekableWrite at hseek
  rw [hread] at hseek
  have hor : (i.isSeekable || c.mode.isSeekable) = false := Except.ok.inj hseek
  exact (Bool.or_eq_false_iff.mp hor).1

theorem wholePlan_record (h : S.wholePlan id A c v = .ok (i, plan)) :
    v.readInodeInternal id = .ok i := by
  obtain ⟨⟨i', existing⟩, hinspect, h⟩ := except_bind_ok.mp h
  obtain ⟨plan', -, hpair⟩ := except_bind_ok.mp h
  cases except_pure_ok.mp hpair
  obtain ⟨i', hi, hrest⟩ := except_bind_ok.mp hinspect
  obtain ⟨_, -, hrest⟩ := except_bind_ok.mp hrest
  obtain ⟨_, -, hpair⟩ := except_bind_ok.mp hrest
  cases except_pure_ok.mp hpair
  exact hi

/-- A failing call in place damages no file and no mark if it spares them; a store for a whole file
that releases nothing, only then. -/
theorem failed_write_kept (hj : v.superblock.hasJournalLayout = false) (hv : v.Intact)
    (hid : v.inodeBit id = true) (h : S.write id A c v = .error e v') :
    (S.WriteSpares id A c v → S.Undamaged v v') ∧
      (isSeekableWrite v id c.mode = .ok false →
        (∀ i plan, S.wholePlan id A c v = .ok (i, plan) → ReleasesNothing v i plan) →
        S.Undamaged v v' → S.WriteSpares id A c v) := by
  constructor
  · intro hr
    unfold WriteSpares at hr
    split at hr
    next e₁ hseek =>
      rw [write, writeDataWithFilters, DiskM.get_bind, hseek] at h
      cases h
      exact undamaged_refl hv
    next hseek =>
      obtain rfl | ⟨i, prepared, hpayloads, h⟩ := write_chunked_error hseek h
      · exact undamaged_refl hv
      · obtain ⟨p, ps, e₁, rfl, hrun⟩ := hr i prepared hpayloads
        rw [commitPreparedChunkedWrite_refused hj hrun h]
        exact undamaged_refl hv
    next hseek =>
      obtain ⟨rfl, -⟩ | ⟨i, plan, hwhole, h⟩ := write_whole_error hj hseek h
      · exact undamaged_refl hv
      · obtain ⟨hnothing, hspares⟩ := hr i plan hwhole
        have hi := wholePlan_record hwhole
        exact (storePlan_undamaged_iff hv hid hi (seekable_record hi hseek) hwhole hnothing h).mpr hspares
  · intro hseek hnothing hund
    unfold WriteSpares
    rw [hseek]
    intro i plan hwhole
    refine ⟨hnothing i plan hwhole, ?_⟩
    have hi := wholePlan_record hwhole
    obtain ⟨-, hnone⟩ | ⟨i', plan', hwhole', h⟩ := write_whole_error hj hseek h
    · exact absurd hwhole (hnone _)
    · cases hwhole.symm.trans hwhole'
      exact (storePlan_undamaged_iff hv hid hi (seekable_record hi hseek) hwhole
        (hnothing i plan hwhole) h).mp hund

def errorState (x : DiskM Unit) (v : Volume) : Option Volume :=
  match x v with
  | .ok _ _ => none
  | .error _ v' => some v'

theorem errorState_map {α : Type} {x : DiskM Unit} {v : Volume} {f : Volume → α} {a : α}
    (h : (errorState x v).map f = some a) : ∃ e v', x v = .error e v' ∧ f v' = a := by
  unfold errorState at h
  split at h
  next => cases h
  next e v' hx => exact ⟨e, v', hx, Option.some.inj h⟩

def oneBlockVolume (i : Inode) (taken : Bool) : Volume :=
  let tiny := tinyVolume i fun _ => 0
  { tiny with
    superblock := { tiny.superblock with blockCount := 5 }
    mapBlocks := 5
    dataBit := fun k => taken && k = 0 }

theorem intact_of_one (hone : ∀ j, v.inodeBit j = true ↔ j = 0)
    (hread : v.readInodeInternal 0 = .ok i) (hwhole : i.isSeekable = false)
    (hgood : Good rawExtent (Files.single 0 i) v)
    (hmarks : ∀ b, v.marked b = true → b ∈ v.fileBlocks 0 i) : v.Intact := by
  have hblocks : v.fileBlocks 0 i = owned treeShape rawExtent (v.cells (Files.single 0 i)) := by
    unfold Volume.fileBlocks Volume.extentOf
    rw [hwhole, if_neg Bool.false_ne_true]
  have hrecord : ∀ {j ij}, v.inodeBit j = true → v.readInodeInternal j = .ok ij → j = 0 ∧ ij = i := by
    intro j ij hj hij
    obtain rfl := (hone j).mp hj
    exact ⟨rfl, Except.ok.inj (hij.symm.trans hread)⟩
  refine ⟨hgood.sound, fun b => ⟨fun hb => ⟨0, i, (hone 0).mpr rfl, hread, hmarks b hb⟩, ?_⟩,
    fun b hb => hgood.data b (hblocks ▸ hmarks b hb), fun j ij hj hij => ?_, fun j k ij ik hj _ hk _ hne => ?_⟩
  · rintro ⟨j, ij, hj, hij, hb⟩
    obtain ⟨rfl, rfl⟩ := hrecord hj hij
    exact hgood.marked b (hblocks ▸ hb)
  · obtain ⟨rfl, rfl⟩ := hrecord hj hij
    unfold Volume.extentOf
    rw [hwhole, if_neg Bool.false_ne_true]
    exact hgood.separated
  · exact absurd (((hone j).mp hj).trans ((hone k).mp hk).symm) hne

def slackVolume : Volume := oneBlockVolume { tailInode with size := 4000 } true

def slackCall : WriteCall := ⟨4000, List.replicate 97 7, .never, .none⟩

theorem slackVolume_intact : slackVolume.Intact := by
  have hmark : ∀ b, slackVolume.marked b = true → b = 4 := by
    intro b hb
    obtain ⟨hlow, -, hbit⟩ := Volume.marked_iff.mp hb
    have hzero : (true && decide (b - 4 = 0)) = true := hbit
    have hle : 4 ≤ b := hlow
    simp only [Bool.true_and, decide_eq_true_eq] at hzero
    omega
  refine intact_of_one (i := { tailInode with size := 4000 }) (fun j => ?_) rfl rfl ?_ fun b hb => ?_
  · simp [slackVolume, oneBlockVolume, tinyVolume]
  · refine good_direct (b := 4) ⟨by decide, by decide, by decide⟩ rfl ?_ (by decide) (by decide)
    intro s hs
    unfold Inode.slot
    split
    next hlt => exact if_neg fun h => hs (congrArg Fin.val h)
    next => exact ite_self 0
  · rw [hmark b hb]
    exact mem_fileBlocks 0 (by decide) fun r => ⟨rfl, by decide⟩

/-- Only the slack behind the end is stored before the space runs out. -/
theorem failed_write_kept_slack : ∃ e v',
    (clearSession none).write 0 epoch slackCall slackVolume = .error e v' ∧ v'.block 4 4000 = 7 ∧
    (clearSession none).Undamaged slackVolume v' := by
  have hfails : (errorState ((clearSession none).write 0 epoch slackCall) slackVolume).map
      (fun w => w.block 4 4000) = some 7 := by
    decide +kernel
  obtain ⟨e, v', hrun, hbyte⟩ := errorState_map hfails
  refine ⟨e, v', hrun, hbyte, (failed_write_kept rfl slackVolume_intact rfl hrun).1 ?_⟩
  have hseek : isSeekableWrite slackVolume 0 slackCall.mode = .ok false := rfl
  unfold WriteSpares
  rw [hseek]
  intro i plan hplan
  cases hplan
  refine ⟨fun h => ?_, fun n w hstop => ?_⟩
  · cases h
  · have hwhere : (Volume.storeStop { tailInode with size := 4000 } 4000 (List.replicate 97 7)
        slackVolume).map (fun s => (s.1, decide s.2.Full)) = some (96, true) := by
      decide +kernel
    have hstop' : Volume.storeStop { tailInode with size := 4000 } 4000 (List.replicate 97 7)
        slackVolume = some (n, w) := hstop
    rw [hstop', Option.map_some, Option.some.injEq, Prod.mk.injEq] at hwhere
    obtain ⟨rfl, hfull⟩ := hwhere
    refine ⟨fun k hk => ?_, .inr (.inl (of_decide_eq_true hfull)), fun k _ hlt => ?_⟩
    · change Inode.wayRoot { tailInode with size := 4000 } ((4000 + k) / 4096) ≠ 0
      rw [Nat.div_eq_of_lt (by omega)]
      decide
    · exact absurd hlt (Nat.not_lt.mpr (Nat.le_add_right 4000 k))

theorem storePlan_error_tables (h : storePlan A id i plan effective v = .error e v') :
    v'.inode = v.inode ∧ v'.inodeBit = v.inodeBit := by
  have hbuffer (j : Inode) : Keeps (fun w : Volume => w.inode = v.inode ∧ w.inodeBit = v.inodeBit)
      (Volume.writeBufferAtOffset j plan.physOff plan.buffer) := by
    refine writeBufferAtOffset_keeps (fun w b f hw => ?_) (fun w b n hw => hw) j _ _
    have hsame := Volume.sameTables_setBlock w b f
    rw [hsame.inode, hsame.inodeBit]
    exact hw
  have hrelease : Keeps (fun w : Volume => w.inode = v.inode ∧ w.inodeBit = v.inodeBit)
      (if plan.case.freesPreviousBlocks then releaseBlocks i else pure i) := by
    split
    next =>
      refine Keeps.bind (Keeps.modify fun w hw => ?_) fun _ => Keeps.pure _
      have hsame := sameTables_freeBlocks w (w.collectInodeBlocks i)
      rw [hsame.inode, hsame.inodeBit]
      exact hw
    next => exact Keeps.pure _
  obtain h | ⟨j, v₁, hok, h⟩ := bind_error.mp h
  · exact hrelease.of_error ⟨rfl, rfl⟩ h
  have hfirst := hrelease.of_ok ⟨rfl, rfl⟩ hok
  obtain h | ⟨⟨_, j'⟩, v₂, hok, h⟩ := bind_error.mp h
  · exact (hbuffer j).of_error hfirst h
  have hsecond := (hbuffer j).of_ok hfirst hok
  change Volume.writeInodeInternal id (updateInode plan effective A.now j') v₂ = .error e v' at h
  unfold Volume.writeInodeInternal at h
  rw [DiskM.get_bind] at h
  split at h
  next =>
    cases h
    exact hsecond
  next => cases h

def acrossBlocks : WriteCall := ⟨4095, [7, 7], .never, .none⟩

theorem marksExact_of_empty (hempty : v.inode = fun _ => .ok (Inode.new .file)) :
    v.MarksExact ↔ ∀ b, v.marked b = false := by
  have hnone (id : Nat) (i : Inode) (hread : v.readInodeInternal id = .ok i) (b : Nat) :
      b ∉ v.fileBlocks id i := by
    unfold Volume.readInodeInternal at hread
    rw [hempty] at hread
    split at hread
    next => cases hread
    next =>
      cases hread
      rintro ⟨l, -, hb⟩
      exact get_ne_zero_of_owns rawExtent_zero hb (get_single_empty (Inode.slot_new .file) l)
  constructor
  · intro hexact b
    by_contra hmark
    obtain ⟨id, i, -, hread, hb⟩ := (hexact b).mp (by simpa using hmark)
    exact hnone id i hread b hb
  · intro hfree b
    constructor
    · intro hmark
      rw [hfree b] at hmark
      cases hmark
    · rintro ⟨id, i, -, hread, hb⟩
      exact absurd hb (hnone id i hread b)

/-- There is a block for the first byte only: the failing call overwrites a byte, or leaves a block
marked. -/
theorem failed_write_damage :
    (∃ e v', (clearSession none).write 0 epoch acrossBlocks
        (oneBlockVolume { tailInode with size := 4096 } true) = .error e v' ∧
      (clearSession none).readData v' 0 ≠
        (clearSession none).readData (oneBlockVolume { tailInode with size := 4096 } true) 0) ∧
    (oneBlockVolume (Inode.new .file) false).MarksExact ∧
    ∃ e v', (clearSession none).write 0 epoch acrossBlocks
        (oneBlockVolume (Inode.new .file) false) = .error e v' ∧ ¬v'.MarksExact := by
  have hfull : (errorState ((clearSession none).write 0 epoch acrossBlocks)
      (oneBlockVolume { tailInode with size := 4096 } true)).map
        (fun w => ((clearSession none).readData w 0).toOption.map (·.getD 4095 0)) =
      some (some 7) := by
    decide +kernel
  have hbefore : ((clearSession none).readData
      (oneBlockVolume { tailInode with size := 4096 } true) 0).toOption.map (·.getD 4095 0) =
      some 0 := by
    decide +kernel
  have hmarked : (errorState ((clearSession none).write 0 epoch acrossBlocks)
      (oneBlockVolume (Inode.new .file) false)).map (·.marked 4) = some true := by
    decide +kernel
  refine ⟨?_, ?_, ?_⟩
  · obtain ⟨e, v', hrun, hafter⟩ := errorState_map hfull
    refine ⟨e, v', hrun, fun hsame => ?_⟩
    rw [hsame, hbefore] at hafter
    exact absurd hafter (by decide)
  · refine (marksExact_of_empty rfl).mpr fun b => ?_
    simp [Volume.marked, oneBlockVolume]
  · obtain ⟨e, v', hrun, hmark⟩ := errorState_map hmarked
    refine ⟨e, v', hrun, fun hexact => ?_⟩
    have hempty : v'.inode = fun _ => .ok (Inode.new .file) := by
      obtain ⟨rfl, -⟩ | ⟨i, plan, -, hstore⟩ := write_whole_error rfl rfl hrun
      · rfl
      · exact (storePlan_error_tables hstore).1
    rw [(marksExact_of_empty hempty).mp hexact 4] at hmark
    cases hmark

end Session

end Oifs
