import Oifs.WriteContent

namespace Oifs

/-- The arguments of a call of `write_data_with_filters`, apart from the inode. -/
structure WriteCall where
  offset : Nat
  data : List UInt8
  mode : CompressionMode
  config : FilterConfig

def outcome (x : DiskM Unit) (v : Volume) : Option Volume :=
  match x v with
  | .ok _ v' => some v'
  | .error _ _ => none

theorem outcome_eq_some {x : DiskM Unit} {v v' : Volume} : outcome x v = some v' ↔ x v = .ok () v' := by
  unfold outcome
  split
  next hx => simp [hx]
  next hx => simp [hx]

theorem outcome_map_some {α : Type} {x : DiskM Unit} {v : Volume} {f : Volume → α} {a : α}
    (h : (outcome x v).map f = some a) : ∃ v', x v = .ok () v' ∧ f v' = a := by
  obtain ⟨v', hout, rfl⟩ := Option.map_eq_some_iff.mp h
  exact ⟨v', outcome_eq_some.mp hout, rfl⟩

namespace Session

variable (S : Session) (id : Nat)

def write (A : Ambient) (c : WriteCall) : DiskM Unit :=
  S.writeDataWithFilters A id c.offset c.data c.mode c.config

variable {S id}

variable {v v' : Volume} {A : Ambient} {offset : Nat} {data : List UInt8} {level : Int}
  {initial : Inode}

theorem requireFile_ok {i : Inode} {text : String} : requireFile i text = .ok () ↔ i.mode = .file := by
  unfold requireFile
  split
  next h => simpa using h
  next h => simpa using h

theorem commitWrite_ok {mode : CompressionMode} {config : FilterConfig} {prepared : WritePlan} :
    S.commitWrite A id offset data mode config initial prepared v = .ok () v' ↔
      ∃ i plan, v.readInodeInternal id = .ok i ∧ i.mode = .file ∧
        (if canUsePrepared i initial then .ok prepared
          else S.planWrite v id i offset data mode config A.nonce) = .ok plan ∧
        (if v.superblock.hasJournalLayout then
            S.writeDataJournaled A.now id offset plan (effectiveFilter i config)
          else storePlan A id i plan (effectiveFilter i config)) v = .ok () v' := by
  unfold commitWrite
  simp only [DiskM.bind_ok, DiskM.get_ok, liftExcept_ok]
  constructor
  · rintro ⟨_, _, ⟨rfl, rfl⟩, i, _, ⟨hi, rfl⟩, _, _, ⟨hmode, rfl⟩, plan, _, ⟨hplan, rfl⟩, h⟩
    exact ⟨i, plan, hi, requireFile_ok.mp hmode, hplan, h⟩
  · rintro ⟨i, plan, hi, hmode, hplan, h⟩
    exact ⟨v, v, ⟨rfl, rfl⟩, i, v, ⟨hi, rfl⟩, (), v, ⟨requireFile_ok.mpr hmode, rfl⟩, plan, v, ⟨hplan, rfl⟩, h⟩

variable {prepared : List PreparedChunkPayload} {c : WriteCall}

theorem commitChunkedWrite_ok :
    S.commitChunkedWrite A id offset data level initial prepared v = .ok () v' ↔
      ∃ i, v.readInodeInternal id = .ok i ∧ i.mode = .file ∧
        (if canUsePreparedChunks i initial then
          S.commitPreparedChunkedWrite A id (max i.size (offset + data.length)) prepared
        else S.writeChunked64kInternal A id offset data level) v = .ok () v' := by
  unfold commitChunkedWrite
  simp only [DiskM.bind_ok, DiskM.get_ok, liftExcept_ok]
  constructor
  · rintro ⟨_, _, ⟨rfl, rfl⟩, i, _, ⟨hi, rfl⟩, _, _, ⟨hmode, rfl⟩, h⟩
    exact ⟨i, hi, requireFile_ok.mp hmode, h⟩
  · rintro ⟨i, hi, hmode, h⟩
    exact ⟨v, v, ⟨rfl, rfl⟩, i, v, ⟨hi, rfl⟩, (), v, ⟨requireFile_ok.mpr hmode, rfl⟩, h⟩

theorem canUsePrepared_self (i : Inode) : canUsePrepared i i = true := by simp [canUsePrepared]

theorem canUsePreparedChunks_self (i : Inode) : canUsePreparedChunks i i = true := by
  simp [canUsePreparedChunks]

theorem commitWrite_planned {A B : Ambient} {plan : WritePlan}
    (hi : v.readInodeInternal id = .ok initial)
    (h : S.commitWrite A id c.offset c.data c.mode c.config initial plan v = .ok () v')
    (hnow : B.now = A.now) :
    S.commitWrite B id c.offset c.data c.mode c.config initial plan v = .ok () v' := by
  obtain ⟨i, plan', hi', hmode, hplan, hstore⟩ := commitWrite_ok.mp h
  rw [hi] at hi'
  cases hi'
  rw [canUsePrepared_self, if_pos rfl] at hplan
  cases hplan
  refine commitWrite_ok.mpr ⟨initial, plan, hi, hmode, by rw [canUsePrepared_self, if_pos rfl], ?_⟩
  rw [hnow]
  unfold storePlan at hstore ⊢
  rw [hnow]
  exact hstore

theorem write_ok :
    S.write id A c v = .ok () v' ↔
      (isSeekableWrite v id c.mode = .ok true ∧
        S.writeChunked64kPipeline A id c.offset c.data c.mode.chunkLevel v = .ok () v') ∨
      (isSeekableWrite v id c.mode = .ok false ∧
        ∃ initial existing plan,
          S.inspectWrite v id c.offset c.data c.config = .ok (initial, existing) ∧
          S.planWritePrepared initial c.offset c.data c.mode c.config existing A.nonce
            (fileAadForScheme id v.superblock.encryptionVersion) = .ok plan ∧
          S.commitWrite A id c.offset c.data c.mode c.config initial plan v = .ok () v') := by
  unfold write writeDataWithFilters
  simp only [DiskM.bind_ok, DiskM.get_ok, liftExcept_ok]
  constructor
  · rintro ⟨_, _, ⟨rfl, rfl⟩, b, _, ⟨hb, rfl⟩, h⟩
    cases b with
    | true => exact Or.inl ⟨hb, h⟩
    | false =>
      simp only [Bool.false_eq_true, if_false, DiskM.bind_ok, liftExcept_ok] at h
      obtain ⟨⟨initial, existing⟩, _, ⟨hinspect, rfl⟩, plan, _, ⟨hplan, rfl⟩, h⟩ := h
      exact Or.inr ⟨hb, initial, existing, plan, hinspect, hplan, h⟩
  · rintro (⟨hb, h⟩ | ⟨hb, initial, existing, plan, hinspect, hplan, h⟩)
    · exact ⟨v, v, ⟨rfl, rfl⟩, true, v, ⟨hb, rfl⟩, h⟩
    · refine ⟨v, v, ⟨rfl, rfl⟩, false, v, ⟨hb, rfl⟩, ?_⟩
      simp only [Bool.false_eq_true, if_false, DiskM.bind_ok, liftExcept_ok]
      exact ⟨(initial, existing), v, ⟨hinspect, rfl⟩, plan, v, ⟨hplan, rfl⟩, h⟩

theorem writeChunked64kPipeline_ok :
    S.writeChunked64kPipeline A id offset data level v = .ok () v' ↔
      (data.isEmpty = true ∧ v = v') ∨
      (data.isEmpty = false ∧ ∃ plan prepared, S.planChunkedWrite v id offset data = .ok plan ∧
        S.prepareChunks v.superblock.encryptionVersion id level A plan.chunks = .ok prepared ∧
        S.commitChunkedWrite A id offset data level plan.initialInode prepared v = .ok () v') := by
  unfold writeChunked64kPipeline
  by_cases hempty : data.isEmpty = true
  · simp [hempty]
  · have hfalse : data.isEmpty = false := by simpa using hempty
    simp only [hfalse, Bool.false_eq_true, if_false, DiskM.bind_ok, DiskM.get_ok, liftExcept_ok,
      false_and, false_or, true_and]
    constructor
    · rintro ⟨_, _, ⟨rfl, rfl⟩, plan, _, ⟨hplan, rfl⟩, prepared, _, ⟨hprep, rfl⟩, h⟩
      exact ⟨plan, prepared, hplan, hprep, h⟩
    · rintro ⟨plan, prepared, hplan, hprep, h⟩
      exact ⟨v, v, ⟨rfl, rfl⟩, plan, v, ⟨hplan, rfl⟩, prepared, v, ⟨hprep, rfl⟩, h⟩

theorem write_nil (hseek : isSeekableWrite v id c.mode = .ok true) (hempty : c.data = [])
    (h : S.write id A c v = .ok () v') : v = v' := by
  rcases write_ok.mp h with ⟨-, hpipe⟩ | ⟨hfalse, -⟩
  · rcases writeChunked64kPipeline_ok.mp hpipe with ⟨-, heq⟩ | ⟨hsome, -⟩
    · exact heq
    · rw [hempty] at hsome
      cases hsome
  · rw [hseek] at hfalse
    cases hfalse

theorem writeChunked64kInternal_ok (hdata : data.isEmpty = false) :
    S.writeChunked64kInternal A id offset data level v = .ok () v' ↔
      ∃ i chunks prepared, v.readInodeInternal id = .ok i ∧ i.mode = .file ∧
        S.planChunks v id i offset data = .ok chunks ∧
        S.prepareChunks v.superblock.encryptionVersion id level A chunks = .ok prepared ∧
        S.commitPreparedChunkedWrite A id (max i.size (offset + data.length)) prepared v =
          .ok () v' := by
  unfold writeChunked64kInternal
  simp only [hdata, Bool.false_eq_true, if_false, DiskM.bind_ok, DiskM.get_ok, liftExcept_ok]
  constructor
  · rintro ⟨_, _, ⟨rfl, rfl⟩, i, _, ⟨hi, rfl⟩, _, _, ⟨hmode, rfl⟩, chunks, _, ⟨hchunks, rfl⟩,
      prepared, _, ⟨hprep, rfl⟩, h⟩
    exact ⟨i, chunks, prepared, hi, requireFile_ok.mp hmode, hchunks, hprep, h⟩
  · rintro ⟨i, chunks, prepared, hi, hmode, hchunks, hprep, h⟩
    exact ⟨v, v, ⟨rfl, rfl⟩, i, v, ⟨hi, rfl⟩, (), v, ⟨requireFile_ok.mpr hmode, rfl⟩, chunks, v,
      ⟨hchunks, rfl⟩, prepared, v, ⟨hprep, rfl⟩, h⟩

theorem writeChunked64kInternal_empty (hdata : data.isEmpty = true)
    (h : S.writeChunked64kInternal A id offset data level v = .ok () v') : v = v' := by
  unfold writeChunked64kInternal at h
  simp only [hdata, if_true, DiskM.bind_ok, DiskM.get_ok, liftExcept_ok, DiskM.pure_ok] at h
  obtain ⟨_, _, ⟨-, rfl⟩, _, _, ⟨-, rfl⟩, _, _, ⟨-, rfl⟩, -, h⟩ := h
  exact h

theorem planChunkedWrite_ok {v : Volume} {plan : ChunkPlan} :
    S.planChunkedWrite v id offset data = .ok plan ↔
      v.readInodeInternal id = .ok plan.initialInode ∧ plan.initialInode.mode = .file ∧
        S.planChunks v id plan.initialInode offset data = .ok plan.chunks := by
  unfold planChunkedWrite
  simp only [except_bind_ok, except_pure_ok]
  constructor
  · rintro ⟨i, hi, _, hmode, chunks, hchunks, rfl⟩
    exact ⟨hi, requireFile_ok.mp hmode, hchunks⟩
  · rintro ⟨hi, hmode, hchunks⟩
    exact ⟨_, hi, (), requireFile_ok.mpr hmode, _, hchunks, rfl⟩

theorem commitChunkedWrite_planned {A B : Ambient} (hi : v.readInodeInternal id = .ok initial)
    (h : S.commitChunkedWrite A id c.offset c.data level initial prepared v = .ok () v')
    (hnow : B.now = A.now) (hnonce : B.nonce = A.nonce) :
    S.commitChunkedWrite B id c.offset c.data level initial prepared v = .ok () v' := by
  obtain ⟨i, hi', hmode, h⟩ := commitChunkedWrite_ok.mp h
  rw [hi] at hi'
  cases hi'
  rw [canUsePreparedChunks_self, if_pos rfl] at h
  refine commitChunkedWrite_ok.mpr ⟨initial, hi, hmode, ?_⟩
  rw [canUsePreparedChunks_self, if_pos rfl]
  unfold commitPreparedChunkedWrite markSeekable at h ⊢
  rw [hnow, hnonce]
  exact h

theorem commitChunks_sameMeta {inode i : Inode} {delta delta' : Int}
    (h : commitChunks inode delta prepared v = .ok (i, delta') v') : SameMeta inode i := by
  induction prepared generalizing inode delta v with
  | nil =>
    cases (DiskM.pure_ok.mp h).1
    exact SameMeta.refl _
  | cons p prepared ih =>
    rw [commitChunks] at h
    simp only [DiskM.bind_ok] at h
    obtain ⟨⟨i₁, delta₁⟩, v₁, hone, h⟩ := h
    refine SameMeta.trans ?_ (ih h)
    simp only [commitChunk, DiskM.bind_ok, DiskM.get_ok, DiskM.modify_ok] at hone
    obtain ⟨start, _, -, _, _, -, _, _, -, i₂, _, hset, hone⟩ := hone
    have hi : i₂ = i₁ := by
      split at hone
      next =>
        simp only [DiskM.bind_ok, DiskM.pure_ok] at hone
        obtain ⟨_, _, -, hpair, -⟩ := hone
        exact congrArg Prod.fst hpair
      next => exact congrArg Prod.fst (DiskM.pure_ok.mp hone).1
    exact hi ▸ setLogicalChunkEntry_sameMeta hset

theorem markSeekable_isSeekable (A : Ambient) (i : Inode) : (S.markSeekable A i).isSeekable = true := by
  have hodd : (if i.isSeekable then i else { i with flags := i.flags + 1 }).isSeekable = true := by
    by_cases h : i.isSeekable = true
    · rw [if_pos h, h]
    · rw [if_neg h]
      simp only [Inode.isSeekable, decide_eq_true_eq] at h ⊢
      omega
  unfold markSeekable
  dsimp only
  by_cases hkey : S.encryptionKey.isSome = true
  · rw [if_pos hkey]
    exact (isSeekable_of_flags rfl).trans hodd
  · rw [if_neg hkey]
    exact hodd

end Session

end Oifs
