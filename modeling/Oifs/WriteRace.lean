import Oifs.JournaledChunks
import Oifs.StagedCalls

namespace Oifs

open StagedCalls

/-- Where a call stands between its locks. -/
inductive WriteStage where
  | start
  | whole
  | planned (initial : Inode) (existing : Option (List UInt8)) (scheme : Nat)
  | prepared (initial : Inode) (plan : WritePlan)
  | chunked
  | chunksPlanned (plan : Session.ChunkPlan) (scheme : Nat)
  | chunksPrepared (initial : Inode) (prepared : List PreparedChunkPayload)

namespace Session

variable (S : Session) (id : Nat)

def writeStage (c : WriteCall) : WriteStage → Ambient → Volume → Option (WriteStage ⊕ Volume)
  | .start, _, v =>
    (isSeekableWrite v id c.mode).toOption.map fun b => .inl (if b then .chunked else .whole)
  | .whole, _, v =>
    (S.inspectWrite v id c.offset c.data c.config).toOption.map fun r =>
      .inl (.planned r.1 r.2 v.superblock.encryptionVersion)
  | .planned initial existing scheme, A, _ =>
    (S.planWritePrepared initial c.offset c.data c.mode c.config existing A.nonce
      (fileAadForScheme id scheme)).toOption.map fun plan => .inl (.prepared initial plan)
  | .prepared initial plan, A, v =>
    (outcome (S.commitWrite A id c.offset c.data c.mode c.config initial plan) v).map .inr
  | .chunked, _, v =>
    if c.data.isEmpty then some (.inr v)
    else
      (S.planChunkedWrite v id c.offset c.data).toOption.map fun plan =>
        .inl (.chunksPlanned plan v.superblock.encryptionVersion)
  | .chunksPlanned plan scheme, A, _ =>
    (S.prepareChunks scheme id c.mode.chunkLevel A plan.chunks).toOption.map fun prepared =>
      .inl (.chunksPrepared plan.initialInode prepared)
  | .chunksPrepared initial prepared, A, v =>
    (outcome (S.commitChunkedWrite A id c.offset c.data c.mode.chunkLevel initial prepared) v).map .inr

def writeSystem : System Volume WriteCall WriteStage Ambient where
  start _ := .start
  stage := S.writeStage id

def serialWrites (calls : Nat → WriteCall) (v : Volume) : List (Nat × Ambient) → Option Volume
  | [] => some v
  | (k, A) :: rest => (outcome (S.write id A (calls k)) v).bind fun v => serialWrites calls v rest

/-- The last stage sees that the inode has changed, and the file is still of the same kind. -/
def Replans (c : WriteCall) (t : WriteStage) (v : Volume) : Prop :=
  match t with
  | .prepared initial _ => isSeekableWrite v id c.mode = .ok false ∧
    ∀ i, v.readInodeInternal id = .ok i → canUsePrepared i initial = false
  | .chunksPrepared initial _ => isSeekableWrite v id c.mode = .ok true ∧
    ∀ i, v.readInodeInternal id = .ok i → canUsePreparedChunks i initial = false
  | _ => False

/-- The same for the chunk path. -/
def ReplansChunks (_ : WriteCall) (t : WriteStage) (v : Volume) : Prop :=
  match t with
  | .chunksPrepared initial _ =>
    ∀ i, v.readInodeInternal id = .ok i → canUsePreparedChunks i initial = false
  | _ => False

def replansCheck (c : WriteCall) (t : WriteStage) (v : Volume) : Bool :=
  match t, v.readInodeInternal id with
  | .prepared initial _, .ok i => !(i.isSeekable || c.mode.isSeekable) && !canUsePrepared i initial
  | .chunksPrepared initial _, .ok i =>
    (i.isSeekable || c.mode.isSeekable) && !canUsePreparedChunks i initial
  | _, _ => false

def replansChunksCheck (_ : WriteCall) (t : WriteStage) (v : Volume) : Bool :=
  match t, v.readInodeInternal id with
  | .chunksPrepared initial _, .ok i => !canUsePreparedChunks i initial
  | _, _ => false

variable {S id}

variable {v v' : Volume} {c : WriteCall} {xs : List Ambient} {A : Ambient}

theorem alone_prepared {initial : Inode} {plan : WritePlan}
    (h : alone (S.writeSystem id) c (.prepared initial plan) v xs = some v') :
    ∃ A, S.commitWrite A id c.offset c.data c.mode c.config initial plan v = .ok () v' := by
  obtain ⟨A, rest, rfl, hstage | ⟨t, hstage, -⟩⟩ := alone_cases h
  · obtain ⟨v₁, hv, heq⟩ := Option.map_eq_some_iff.mp hstage
    cases heq
    exact ⟨A, outcome_eq_some.mp hv⟩
  · obtain ⟨v₁, -, heq⟩ := Option.map_eq_some_iff.mp hstage
    cases heq

theorem alone_whole (hb : isSeekableWrite v id c.mode = .ok false)
    (h : alone (S.writeSystem id) c .whole v xs = some v') : ∃ A, S.write id A c v = .ok () v' := by
  obtain ⟨A₁, rest, rfl, hstage | ⟨t, hstage, h⟩⟩ := alone_cases h
  · obtain ⟨_, -, heq⟩ := Option.map_eq_some_iff.mp hstage
    cases heq
  obtain ⟨⟨initial, existing⟩, hinspect, heq⟩ := Option.map_eq_some_iff.mp hstage
  cases heq
  have hinspect := toOption_eq_some.mp hinspect
  have hi : v.readInodeInternal id = .ok initial := by
    simp only [inspectWrite, except_bind_ok, except_pure_ok] at hinspect
    obtain ⟨i, hi, _, -, _, -, hpair⟩ := hinspect
    cases hpair
    exact hi
  obtain ⟨A₂, rest, rfl, hstage | ⟨t, hstage, h⟩⟩ := alone_cases h
  · obtain ⟨_, -, heq⟩ := Option.map_eq_some_iff.mp hstage
    cases heq
  obtain ⟨plan, hplan, heq⟩ := Option.map_eq_some_iff.mp hstage
  cases heq
  obtain ⟨A₃, hcommit⟩ := alone_prepared h
  refine ⟨⟨A₃.now, A₂.nonce, A₃.draw⟩, write_ok.mpr (Or.inr ⟨hb, initial, existing, plan, hinspect,
    toOption_eq_some.mp hplan, ?_⟩)⟩
  exact commitWrite_planned hi hcommit rfl

theorem alone_chunked (hb : isSeekableWrite v id c.mode = .ok true)
    (h : alone (S.writeSystem id) c .chunked v xs = some v') : ∃ A, S.write id A c v = .ok () v' := by
  suffices hpipe : ∃ A, S.writeChunked64kPipeline A id c.offset c.data c.mode.chunkLevel v =
      .ok () v' from hpipe.imp fun A hA => write_ok.mpr (Or.inl ⟨hb, hA⟩)
  by_cases hempty : c.data.isEmpty = true
  · obtain ⟨A₁, rest, rfl, hstage | ⟨t, hstage, -⟩⟩ := alone_cases h
    · change (if c.data.isEmpty = true then _ else _) = _ at hstage
      rw [if_pos hempty] at hstage
      cases hstage
      exact ⟨A₁, writeChunked64kPipeline_ok.mpr (Or.inl ⟨hempty, rfl⟩)⟩
    · change (if c.data.isEmpty = true then _ else _) = _ at hstage
      rw [if_pos hempty] at hstage
      cases hstage
  · obtain ⟨A₁, rest, rfl, hstage | ⟨t, hstage, h⟩⟩ := alone_cases h <;>
      change (if c.data.isEmpty = true then _ else _) = _ at hstage <;> rw [if_neg hempty] at hstage
    · obtain ⟨_, -, heq⟩ := Option.map_eq_some_iff.mp hstage
      cases heq
    obtain ⟨plan, hplan, heq⟩ := Option.map_eq_some_iff.mp hstage
    cases heq
    have hplan := toOption_eq_some.mp hplan
    obtain ⟨A₂, rest, rfl, hstage | ⟨t, hstage, h⟩⟩ := alone_cases h
    · obtain ⟨_, -, heq⟩ := Option.map_eq_some_iff.mp hstage
      cases heq
    obtain ⟨prepared, hprep, heq⟩ := Option.map_eq_some_iff.mp hstage
    cases heq
    obtain ⟨A₃, rest, rfl, hstage | ⟨t, hstage, -⟩⟩ := alone_cases h
    · obtain ⟨v₁, hv, heq⟩ := Option.map_eq_some_iff.mp hstage
      cases heq
      refine ⟨⟨A₃.now, A₃.nonce, A₂.draw⟩, writeChunked64kPipeline_ok.mpr (Or.inr ⟨by simpa using hempty,
        plan, prepared, hplan, toOption_eq_some.mp hprep, ?_⟩)⟩
      exact commitChunkedWrite_planned (planChunkedWrite_ok.mp hplan).1 (outcome_eq_some.mp hv) rfl rfl
    · obtain ⟨_, -, heq⟩ := Option.map_eq_some_iff.mp hstage
      cases heq

theorem alone_write
    (h : alone (S.writeSystem id) c .start v xs = some v') : ∃ A, S.write id A c v = .ok () v' := by
  obtain ⟨A, rest, rfl, hstage | ⟨t, hstage, h⟩⟩ := alone_cases h
  · obtain ⟨_, -, heq⟩ := Option.map_eq_some_iff.mp hstage
    cases heq
  · obtain ⟨b, hb, heq⟩ := Option.map_eq_some_iff.mp hstage
    cases heq
    have hb := toOption_eq_some.mp hb
    cases b with
    | true => exact alone_chunked hb h
    | false => exact alone_whole hb h

theorem serialWrites_of_serial {calls : Nat → WriteCall}
    {plan : List (Nat × List Ambient)} (h : serial (S.writeSystem id) calls v plan = some v') :
    ∃ plan' : List (Nat × Ambient), plan'.map (·.1) = plan.map (·.1) ∧
      S.serialWrites id calls v plan' = some v' := by
  induction plan generalizing v with
  | nil => exact ⟨[], rfl, h⟩
  | cons p plan ih =>
    obtain ⟨v₁, hone, hrest⟩ := Option.bind_eq_some_iff.mp h
    obtain ⟨A, hA⟩ := alone_write hone
    obtain ⟨plan', hmap, hserial⟩ := ih hrest
    refine ⟨(p.1, A) :: plan', by simp [hmap], ?_⟩
    rw [serialWrites, outcome_eq_some.mpr hA]
    exact hserial

def SeekableFile (id : Nat) (v : Volume) : Prop :=
  ∃ i, v.readInodeInternal id = .ok i ∧ i.isSeekable = true

/-- The journaled store of prepared chunks leaves a seekable file seekable. -/
def JournalKeepsSeekable (S : Session) (id : Nat) : Prop :=
  ∀ now nonce size prepared v v', SeekableFile id v →
    S.commitChunksJournaled now nonce id size prepared v = .ok () v' → SeekableFile id v'

theorem journalKeepsSeekable (J : Journal) (S : DirSession) (id : Nat) :
    (J.session S).JournalKeepsSeekable id :=
  fun _ _ _ _ _ _ _ h => Journal.commitChunksJournaled_record h

theorem commitPreparedChunkedWrite_seekable {newSize : Nat}
    {prepared : List PreparedChunkPayload} (hJ : S.JournalKeepsSeekable id)
    (hv : SeekableFile id v) (h : S.commitPreparedChunkedWrite A id newSize prepared v = .ok () v') :
    SeekableFile id v' := by
  unfold commitPreparedChunkedWrite at h
  rw [DiskM.get_bind] at h
  split at h
  next => exact hJ _ _ _ _ _ _ hv h
  next =>
    simp only [DiskM.bind_ok, liftExcept_ok, DiskM.get_ok] at h
    obtain ⟨old, _, ⟨hold, rfl⟩, ⟨i, delta⟩, v₁, hcommit, _, _, ⟨rfl, rfl⟩, hinode⟩ := h
    refine ⟨_, (writeInodeInternal_ok hinode).2, ?_⟩
    have hflags : i.flags = (S.markSeekable A old).flags := by rw [commitChunks_sameMeta hcommit]
    exact (isSeekable_of_flags hflags).trans (markSeekable_isSeekable A old)

theorem commitChunkedWrite_seekable {offset : Nat} {data : List UInt8} {level : Int}
    {initial : Inode} {prepared : List PreparedChunkPayload}
    (hJ : S.JournalKeepsSeekable id) (hv : SeekableFile id v)
    (h : S.commitChunkedWrite A id offset data level initial prepared v = .ok () v') :
    SeekableFile id v' := by
  obtain ⟨i, -, -, h⟩ := commitChunkedWrite_ok.mp h
  split at h
  next => exact commitPreparedChunkedWrite_seekable hJ hv h
  next =>
    by_cases hempty : data.isEmpty = true
    · rw [(writeChunked64kInternal_empty hempty h).symm]
      exact hv
    · obtain ⟨_, _, _, -, -, -, -, h⟩ := (writeChunked64kInternal_ok (by simpa using hempty)).mp h
      exact commitPreparedChunkedWrite_seekable hJ hv h

/-- A write that plans again under the lock has run alone. -/
theorem replans_alone {t : WriteStage}
    (hR : Replans id c t v) (h : S.writeStage id c t A v = some (.inr v')) :
    ∃ xs, alone (S.writeSystem id) c .start v xs = some v' := by
  cases t with
  | prepared initial plan =>
    obtain ⟨hkind, hdiffers⟩ := hR
    obtain ⟨v₁, hv, heq⟩ := Option.map_eq_some_iff.mp h
    cases heq
    obtain ⟨i, plan', hi, hmode, hplan, hstore⟩ := commitWrite_ok.mp (outcome_eq_some.mp hv)
    rw [hdiffers i hi, if_neg Bool.false_ne_true] at hplan
    obtain ⟨existing, hexisting, hplan⟩ := except_bind_ok.mp hplan
    have hinspect : S.inspectWrite v id c.offset c.data c.config = .ok (i, existing) := by
      simp only [inspectWrite, except_bind_ok, except_pure_ok]
      exact ⟨i, hi, (), requireFile_ok.mpr hmode, existing, hexisting, rfl⟩
    have hcommit : S.commitWrite A id c.offset c.data c.mode c.config i plan' v = .ok () v' :=
      commitWrite_ok.mpr ⟨i, plan', hi, hmode, by rw [canUsePrepared_self, if_pos rfl], hstore⟩
    refine ⟨[A, A, A, A], ?_⟩
    simp only [alone, writeSystem, writeStage, toOption_eq_some.mpr hkind, Option.map_some,
      Bool.false_eq_true, if_false, toOption_eq_some.mpr hinspect, toOption_eq_some.mpr hplan,
      outcome_eq_some.mpr hcommit]
  | chunksPrepared initial prepared =>
    obtain ⟨hkind, hdiffers⟩ := hR
    obtain ⟨v₁, hv, heq⟩ := Option.map_eq_some_iff.mp h
    cases heq
    obtain ⟨i, hi, -, hinternal⟩ := commitChunkedWrite_ok.mp (outcome_eq_some.mp hv)
    rw [hdiffers i hi, if_neg Bool.false_ne_true] at hinternal
    by_cases hempty : c.data.isEmpty = true
    · refine ⟨[A, A], ?_⟩
      rw [← writeChunked64kInternal_empty hempty hinternal]
      simp only [alone, writeSystem, writeStage, toOption_eq_some.mpr hkind, Option.map_some,
        if_true, hempty]
    · obtain ⟨i', chunks, prepared', hi', hmode, hchunks, hprep, hcommit⟩ :=
        (writeChunked64kInternal_ok (by simpa using hempty)).mp hinternal
      have hplan : S.planChunkedWrite v id c.offset c.data = .ok ⟨i', chunks⟩ :=
        planChunkedWrite_ok.mpr ⟨hi', hmode, hchunks⟩
      have hlast : S.commitChunkedWrite A id c.offset c.data c.mode.chunkLevel i' prepared' v =
          .ok () v' :=
        commitChunkedWrite_ok.mpr ⟨i', hi', hmode, by
          rw [canUsePreparedChunks_self, if_pos rfl]
          exact hcommit⟩
      refine ⟨[A, A, A, A], ?_⟩
      simp only [alone, writeSystem, writeStage, toOption_eq_some.mpr hkind, Option.map_some,
        if_true, hempty, Bool.false_eq_true, if_false, toOption_eq_some.mpr hplan,
        toOption_eq_some.mpr hprep, outcome_eq_some.mpr hlast]
  | _ => exact hR.elim

theorem replans_of_check {t : WriteStage} {v : Volume}
    (h : replansCheck id c t v = true) : Replans id c t v := by
  unfold replansCheck at h
  split at h
  next initial plan i hi =>
    simp only [Bool.and_eq_true, Bool.not_eq_true'] at h
    refine ⟨?_, fun i' hi' => ?_⟩
    · simp only [isSeekableWrite, except_bind_ok, except_pure_ok]
      exact ⟨i, hi, h.1⟩
    · rw [hi] at hi'
      cases hi'
      exact h.2
  next initial prepared i hi =>
    simp only [Bool.and_eq_true, Bool.not_eq_true'] at h
    refine ⟨?_, fun i' hi' => ?_⟩
    · simp only [isSeekableWrite, except_bind_ok, except_pure_ok]
      exact ⟨i, hi, h.1⟩
    · rw [hi] at hi'
      cases hi'
      exact h.2
  next => cases h

theorem replansChunks_of_check {t : WriteStage} {v : Volume}
    (h : replansChunksCheck id c t v = true) : ReplansChunks id c t v := by
  unfold replansChunksCheck at h
  split at h
  next initial prepared i hi =>
    intro i' hi'
    rw [hi] at hi'
    cases hi'
    simpa using h
  next => cases h

def OnChunkPath : WriteStage → Prop
  | .start | .chunked | .chunksPlanned _ _ | .chunksPrepared _ _ => True
  | _ => False

theorem isSeekableWrite_of_seekable {v : Volume} {mode : CompressionMode}
    (hv : SeekableFile id v) : isSeekableWrite v id mode = .ok true := by
  obtain ⟨i, hi, hseek⟩ := hv
  simp only [isSeekableWrite, except_bind_ok, except_pure_ok]
  exact ⟨i, hi, by rw [hseek, Bool.true_or]⟩

theorem keeps_seekable (calls : Nat → WriteCall) (hJ : S.JournalKeepsSeekable id) :
    Keeps (S.writeSystem id) calls (SeekableFile id) (fun _ t => OnChunkPath t) where
  start _ := trivial
  move k t A v t' hv ht h := by
    cases t with
    | start =>
      obtain ⟨b, hb, heq⟩ := Option.map_eq_some_iff.mp h
      rw [isSeekableWrite_of_seekable hv] at hb
      cases hb
      cases heq
      trivial
    | chunked =>
      change (if (calls k).data.isEmpty = true then _ else _) = _ at h
      split at h
      next => cases h
      next =>
        obtain ⟨_, -, heq⟩ := Option.map_eq_some_iff.mp h
        cases heq
        trivial
    | chunksPlanned plan scheme =>
      obtain ⟨_, -, heq⟩ := Option.map_eq_some_iff.mp h
      cases heq
      trivial
    | chunksPrepared initial prepared =>
      obtain ⟨_, -, heq⟩ := Option.map_eq_some_iff.mp h
      cases heq
    | _ => exact ht.elim
  finish k t A v v' hv ht h := by
    cases t with
    | start =>
      obtain ⟨_, -, heq⟩ := Option.map_eq_some_iff.mp h
      cases heq
    | chunked =>
      change (if (calls k).data.isEmpty = true then _ else _) = _ at h
      split at h
      next =>
        cases h
        exact hv
      next =>
        obtain ⟨_, -, heq⟩ := Option.map_eq_some_iff.mp h
        cases heq
    | chunksPlanned plan scheme =>
      obtain ⟨_, -, heq⟩ := Option.map_eq_some_iff.mp h
      cases heq
    | chunksPrepared initial prepared =>
      obtain ⟨v₁, hv₁, heq⟩ := Option.map_eq_some_iff.mp h
      cases heq
      exact commitChunkedWrite_seekable hJ hv (outcome_eq_some.mp hv₁)
    | _ => exact ht.elim

/-- Writes to one file act as in some order one after another, when each commit is the first since
its call looked at the file or sees that it is not. -/
theorem writes_serialize (calls : Nat → WriteCall) (n : Nat) (v : Volume)
    (events : List (Nat × Ambient)) (w : World Volume WriteStage)
    (hnames : ∀ e ∈ events, e.1 < n)
    (hrun : run (S.writeSystem id) calls (init (S.writeSystem id) calls v) events = some w)
    (hsafe : SafeRun (S.writeSystem id) calls (Replans id) (init (S.writeSystem id) calls v) events)
    (hall : ∀ k, k < n → (w.thread k).ended = true) :
    ∃ plan : List (Nat × Ambient), (plan.map (·.1)).Perm (List.range n) ∧
      S.serialWrites id calls v plan = some w.shared := by
  have hkeeps : Keeps (S.writeSystem id) calls (fun _ => True) (fun _ _ => True) :=
    ⟨fun _ => trivial, fun _ _ _ _ _ _ _ _ => trivial, fun _ _ _ _ _ _ _ _ => trivial⟩
  obtain ⟨hnodup, hended, plan, hplan, hserial⟩ := run_serial hkeeps
    (fun _ _ _ _ _ _ _ hR hstage => replans_alone hR hstage) trivial hsafe hrun
  obtain ⟨plan', hplan', hserial'⟩ := serialWrites_of_serial hserial
  refine ⟨plan', ?_, hserial'⟩
  rw [hplan', hplan]
  exact order_perm hnames hrun hnodup hended hall

def afterRun (S : Session) (id : Nat) (calls : Nat → WriteCall) (n : Nat) (v : Volume)
    (events : List (Nat × Ambient)) (read : Volume → Except DiskError (List UInt8)) :
    Option (List UInt8) :=
  (run (S.writeSystem id) calls (init (S.writeSystem id) calls v) events).bind fun w =>
    if (List.range n).all (fun k => (w.thread k).ended) then (read w.shared).toOption else none

theorem afterRun_some {calls : Nat → WriteCall} {n : Nat} {v : Volume}
    {events : List (Nat × Ambient)} {read : Volume → Except DiskError (List UInt8)}
    {bytes : List UInt8} (h : S.afterRun id calls n v events read = some bytes) :
    ∃ w, run (S.writeSystem id) calls (init (S.writeSystem id) calls v) events = some w ∧
      (∀ k, k < n → (w.thread k).ended = true) ∧ read w.shared = .ok bytes := by
  obtain ⟨w, hrun, h⟩ := Option.bind_eq_some_iff.mp h
  split at h
  next hall =>
    refine ⟨w, hrun, fun k hk => ?_, toOption_eq_some.mp h⟩
    exact List.all_eq_true.mp hall k (List.mem_range.mpr hk)
  next => cases h

def sealedInode : Inode :=
  { tailInode with size := 4, encrypted := true }

def sealedVolume : Volume :=
  tinyVolume sealedInode fun k => if k = 0 then 1 else if k < 4 then UInt8.ofNat k else 0

def neighbourCalls : Nat → WriteCall
  | 0 => ⟨1, [7], .never, .none⟩
  | _ => ⟨2, [8], .never, .none⟩

def overlapping (now : Nat) : List (Nat × Ambient) :=
  let A : Ambient := ⟨now, fun _ => 0, fun _ _ _ => 0⟩
  [(0, A), (1, A), (0, A), (1, A), (0, A), (1, A), (0, A), (1, A)]

def anyKey : EncryptionKey := ⟨List.replicate 32 0⟩

theorem sealedVolume_stored :
    (clearSession (some anyKey)).StoredFile sealedVolume 0 sealedInode [1, 2, 3] := by
  refine ⟨rfl, rfl, rfl, ?_, ⟨[1, 2, 3], ⟨anyKey, rfl, rfl⟩, rfl⟩, rfl, fun h => absurd h (by decide)⟩
  refine good_direct (b := 4) ⟨by decide, by decide, by decide⟩ rfl ?_ (by decide) (by decide)
  intro s hs
  unfold Inode.slot
  split
  next hlt => exact if_neg fun h => hs (congrArg Fin.val h)
  next =>
    split
    next => rfl
    next => rfl

theorem write_superblock {i : Inode} {content data : List UInt8}
    {offset : Nat} {mode : CompressionMode} {config : FilterConfig}
    (hs : S.StoredFile v id i content) (hmode : mode.isSeekable = false)
    (hjournal : v.superblock.hasJournalLayout = false)
    (h : S.writeDataWithFilters A id offset data mode config v = .ok () v') :
    v'.superblock = v.superblock := by
  obtain ⟨_, _, -, -, hstore⟩ := writeDataWithFilters_ok hs.record hs.whole hmode hjournal h
  obtain ⟨_, hr⟩ := storePlan_ok hs.good hstore
  exact hr.tables

theorem serialWrites_stored {calls : Nat → WriteCall} {i : Inode}
    {content : List UInt8} {plan : List (Nat × Ambient)} (hC : S.codec.Lawful)
    (hkey : S.encryptionKey.isSome = true) (hs : S.StoredFile v id i content)
    (hjournal : v.superblock.hasJournalLayout = false)
    (hcalls : ∀ k, 0 < (calls k).offset ∧ (calls k).mode.isSeekable = false)
    (h : S.serialWrites id calls v plan = some v') :
    ∃ i', S.StoredFile v' id i' ((plan.map (·.1)).foldl
      (fun c k => splice c (calls k).offset (calls k).data) content) := by
  induction plan generalizing v i content with
  | nil =>
    cases h
    exact ⟨i, hs⟩
  | cons p plan ih =>
    obtain ⟨v₁, hone, hrest⟩ := Option.bind_eq_some_iff.mp h
    have hwrite := outcome_eq_some.mp hone
    obtain ⟨hpos, hmode⟩ := hcalls p.1
    obtain ⟨i₁, hs₁⟩ := write_stored hC hs hpos hmode hjournal hwrite
    have htrans : S.payloadIsTransformed i (calls p.1).config = true := by
      simp [payloadIsTransformed, hkey]
    rw [contentAfter, if_pos htrans] at hs₁
    exact ih hs₁ (by rw [write_superblock hs hmode hjournal hwrite, hjournal]) hrest

theorem perm_range_two {l : List Nat} (h : l.Perm (List.range 2)) : l = [0, 1] ∨ l = [1, 0] := by
  obtain ⟨a, b, rfl⟩ := List.length_eq_two.mp h.length_eq
  have ha : a < 2 := List.mem_range.mp (h.mem_iff.mp (by simp))
  have hb : b < 2 := List.mem_range.mp (h.mem_iff.mp (by simp))
  have hne : a ≠ b := by simpa using h.nodup_iff.mpr List.nodup_range
  simp only [List.cons.injEq, and_true]
  omega

theorem writes_serialize_overlapping :
    ∃ w, run ((clearSession (some anyKey)).writeSystem 0) neighbourCalls
        (init ((clearSession (some anyKey)).writeSystem 0) neighbourCalls sealedVolume)
        (overlapping 5) = some w ∧
      ∃ plan : List (Nat × Ambient), (plan.map (·.1)).Perm (List.range 2) ∧
        (clearSession (some anyKey)).serialWrites 0 neighbourCalls sealedVolume plan =
          some w.shared := by
  obtain ⟨w, hrun, hall, -⟩ := afterRun_some (by decide +kernel :
    (clearSession (some anyKey)).afterRun 0 neighbourCalls 2 sealedVolume (overlapping 5)
      (fun v => (clearSession (some anyKey)).readData v 0) = some [1, 7, 8])
  refine ⟨w, hrun, writes_serialize neighbourCalls 2 sealedVolume (overlapping 5) w (by decide) hrun
    (safeRun_of_checkRun (fun _ _ _ => replans_of_check) (by decide +kernel)) hall⟩

/-- Two writes to an encrypted file in one second: the second commit takes a stale payload for a
current one, and a byte is lost. -/
theorem overlapping_write_lost :
    (clearSession (some anyKey)).readData sealedVolume 0 = .ok [1, 2, 3] ∧
    ∃ w, run ((clearSession (some anyKey)).writeSystem 0) neighbourCalls
        (init ((clearSession (some anyKey)).writeSystem 0) neighbourCalls sealedVolume)
        (overlapping 0) = some w ∧
      (∀ k, k < 2 → (w.thread k).ended = true) ∧
      (clearSession (some anyKey)).readData w.shared 0 = .ok [1, 2, 8] ∧
      ∀ (plan : List (Nat × Ambient)) (v' : Volume), (plan.map (·.1)).Perm (List.range 2) →
        (clearSession (some anyKey)).serialWrites 0 neighbourCalls sealedVolume plan = some v' →
        (clearSession (some anyKey)).readData v' 0 = .ok [1, 7, 8] := by
  refine ⟨sealedVolume_stored.read Codec.clearCodec_lawful, ?_⟩
  obtain ⟨w, hrun, hall, hread⟩ := afterRun_some (by decide +kernel :
    (clearSession (some anyKey)).afterRun 0 neighbourCalls 2 sealedVolume (overlapping 0)
      (fun v => (clearSession (some anyKey)).readData v 0) = some [1, 2, 8])
  refine ⟨w, hrun, hall, hread, fun plan v' hperm hserial => ?_⟩
  obtain ⟨i', hs⟩ := serialWrites_stored Codec.clearCodec_lawful rfl sealedVolume_stored rfl
    (fun k => by
      cases k with
      | zero => exact ⟨by decide, rfl⟩
      | succ k => exact ⟨Nat.zero_lt_two, rfl⟩) hserial
  rw [hs.read Codec.clearCodec_lawful]
  rcases perm_range_two hperm with h | h
  · rw [h]
    rfl
  · rw [h]
    rfl

/-- The same for the chunks of a seekable file. -/
theorem chunked_writes_serialize (calls : Nat → WriteCall) (n : Nat) (v : Volume)
    (events : List (Nat × Ambient)) (w : World Volume WriteStage) (hJ : S.JournalKeepsSeekable id)
    (hseek : SeekableFile id v) (hnames : ∀ e ∈ events, e.1 < n)
    (hrun : run (S.writeSystem id) calls (init (S.writeSystem id) calls v) events = some w)
    (hsafe : SafeRun (S.writeSystem id) calls (ReplansChunks id) (init (S.writeSystem id) calls v)
      events)
    (hall : ∀ k, k < n → (w.thread k).ended = true) :
    ∃ plan : List (Nat × Ambient), (plan.map (·.1)).Perm (List.range n) ∧
      S.serialWrites id calls v plan = some w.shared := by
  have hreplans : ∀ k t A v v', SeekableFile id v → OnChunkPath t → ReplansChunks id (calls k) t v →
      (S.writeSystem id).stage (calls k) t A v = some (.inr v') →
      ∃ xs, alone (S.writeSystem id) (calls k) ((S.writeSystem id).start (calls k)) v xs =
        some v' := by
    intro k t A v v' hv _ hR hstage
    refine replans_alone ?_ hstage
    cases t with
    | chunksPrepared initial prepared => exact ⟨isSeekableWrite_of_seekable hv, hR⟩
    | _ => exact hR.elim
  obtain ⟨hnodup, hended, plan, hplan, hserial⟩ :=
    run_serial (keeps_seekable calls hJ) hreplans hseek hsafe hrun
  obtain ⟨plan', hplan', hserial'⟩ := serialWrites_of_serial hserial
  refine ⟨plan', ?_, hserial'⟩
  rw [hplan', hplan]
  exact order_perm hnames hrun hnodup hended hall

def chunkCalls : Nat → WriteCall
  | 0 => ⟨655361, [7], .seekable 65536 1, .none⟩
  | _ => ⟨655362, [8], .seekable 65536 1, .none⟩

/-- A seekable file whose only chunk, chunk 10, holds `[1, 2, 3]`. -/
def chunkInode : Inode :=
  { Inode.new .file with
    size := 655363, blocks := fun k => if k.val = 10 then 4 else 0, flags := 1 }

def chunkVolume : Volume :=
  { tinyVolume chunkInode fun _ => 0 with
    dataBit := fun k => k ≤ 1
    block := fun b => if b = 4 then fun k => if k = 0 then 5 else if k = 4 then 1 else
        if k = 5 then 2 else if k = 6 then 3 else 0
      else if b = 5 then fun k => if k < 3 then UInt8.ofNat (k + 1) else 0
      else fun _ => 0 }

def readTail (v : Volume) : Except DiskError (List UInt8) := do
  (clearSession none).readAtChunked64k v 0 (← v.readInodeInternal 0) 655360 3

def loggedSession : DirSession :=
  (Journal.mk false RunSort.stable fun _ _ _ => .error .noSpace).session plainDirSession

theorem chunked_writes_serialize_overlapping :
    ∃ w, run (loggedSession.writeSystem 0) chunkCalls
        (init (loggedSession.writeSystem 0) chunkCalls chunkVolume) (overlapping 5) = some w ∧
      ∃ plan : List (Nat × Ambient), (plan.map (·.1)).Perm (List.range 2) ∧
        loggedSession.serialWrites 0 chunkCalls chunkVolume plan = some w.shared := by
  obtain ⟨w, hrun, hall, -⟩ := afterRun_some (by decide +kernel :
    loggedSession.afterRun 0 chunkCalls 2 chunkVolume (overlapping 5) readTail =
      some [1, 7, 8])
  refine ⟨w, hrun, chunked_writes_serialize chunkCalls 2 chunkVolume (overlapping 5) w
    (journalKeepsSeekable _ _ _) ⟨chunkInode, rfl, rfl⟩ (by decide) hrun ?_ hall⟩
  exact safeRun_of_checkRun (fun _ _ _ => replansChunks_of_check) (by decide +kernel)

/-- Two writes to one chunk in one second: the inode does not show the first, and its byte is lost.
-/
theorem overlapping_chunk_write_lost :
    readTail chunkVolume = .ok [1, 2, 3] ∧
    (∃ w, run ((clearSession none).writeSystem 0) chunkCalls
        (init ((clearSession none).writeSystem 0) chunkCalls chunkVolume) (overlapping 0) = some w ∧
      (∀ k, k < 2 → (w.thread k).ended = true) ∧ readTail w.shared = .ok [1, 2, 8]) ∧
    ∀ plan : List (Nat × Ambient), (plan.map (·.1)).Perm (List.range 2) →
      (∀ p ∈ plan, p.2 = epoch) →
      ∃ v', (clearSession none).serialWrites 0 chunkCalls chunkVolume plan = some v' ∧
        readTail v' = .ok [1, 7, 8] := by
  refine ⟨toOption_eq_some.mp (by decide +kernel), afterRun_some (by decide +kernel),
    fun plan hperm hambient => ?_⟩
  have hplan : plan = (plan.map (·.1)).map fun k => (k, epoch) := by
    rw [List.map_map]
    refine (List.map_id plan).symm.trans (List.map_congr_left fun p hp => ?_)
    exact Prod.ext rfl (hambient p hp)
  suffices hread : (((clearSession none).serialWrites 0 chunkCalls chunkVolume plan).bind
      fun v => (readTail v).toOption) = some [1, 7, 8] by
    obtain ⟨v', hv', hread⟩ := Option.bind_eq_some_iff.mp hread
    exact ⟨v', hv', toOption_eq_some.mp hread⟩
  rw [hplan]
  rcases perm_range_two hperm with h | h
  · rw [h]
    decide +kernel
  · rw [h]
    decide +kernel

end Session

end Oifs
