import Oifs.DiskManager
import Oifs.WriteContent

namespace Oifs

namespace Session

variable {S : Session} {v : Volume} {id : Nat} {i : Inode}

theorem readAtChunkedLoop_length {curr rest : Nat} {bytes : List UInt8}
    (h : S.readAtChunkedLoop v id i curr rest = .ok bytes) : bytes.length ≤ rest := by
  induction rest using Nat.strong_induction_on generalizing curr bytes with
  | _ rest ih =>
    rw [readAtChunkedLoop] at h
    dsimp only at h
    split at h
    next => cases h; exact Nat.zero_le _
    next =>
      split at h
      next => cases h; exact Nat.zero_le _
      next =>
        split at h
        next => cases h
        next chunk _ =>
          split at h
          next hpos =>
            split at h
            next => cases h
            next tail htail =>
              cases h
              have hle := ih _ (by omega) htail
              rw [List.length_append, List.length_take, List.length_drop]
              omega
          next => cases h; exact Nat.zero_le _

theorem readAtRawLoop_length (curr rest : Nat) : (readAtRawLoop v i curr rest).length = rest := by
  induction rest using Nat.strong_induction_on generalizing curr with
  | _ rest ih =>
    rw [readAtRawLoop]
    split
    next hzero => rw [hzero, List.length_nil]
    next hpos =>
      have hmod := mod_blockSize_lt curr
      dsimp only
      rw [List.length_append, ih _ (by omega)]
      split
      next => rw [List.length_map, List.length_range]; omega
      next => rw [List.length_replicate]; omega

theorem readAt_length {offset len : Nat} {bytes : List UInt8}
    (h : S.readAt v id offset len = .ok bytes) : bytes.length ≤ len := by
  unfold readAt at h
  obtain ⟨i, -, h⟩ := except_bind_ok.mp h
  obtain ⟨_, -, h⟩ := except_bind_ok.mp h
  split at h
  next =>
    cases h
    exact Nat.zero_le _
  next hsome =>
    dsimp only at h
    split at h
    next =>
      unfold readAtChunked64k at h
      rw [if_neg hsome] at h
      exact (readAtChunkedLoop_length h).trans (Nat.min_le_left ..)
    next =>
      split at h
      next =>
        obtain ⟨full, -, h⟩ := except_bind_ok.mp h
        cases h
        rw [List.length_drop, List.length_take]
        omega
      next =>
        cases h
        rw [readAtRawLoop_length]
        exact Nat.min_le_left ..

theorem readAt_available {offset len : Nat} (hi : v.readInodeInternal id = .ok i) :
    S.readAt v id offset (min len (i.size - offset)) = S.readAt v id offset len := by
  have hmin : min (min len (i.size - offset)) (i.size - offset) = min len (i.size - offset) := by
    omega
  have hnone : (offset ≥ i.size ∨ min len (i.size - offset) = 0) ↔ (offset ≥ i.size ∨ len = 0) := by
    omega
  unfold readAt readAtChunked64k
  simp only [hi, bind, Except.bind, hnone, hmin]

end Session

/-- A call of a session. -/
inductive SessionCall where
  | simple (c : SimpleCall)
  | createOrOpenFile (parentInodeId : Nat) (name : String)

def createOrOpenWith {τ : Type} (create lookup : τ → Except SessionError CallValue × τ) (t : τ) :
    Except SessionError CallValue × τ :=
  match create t with
  | (.ok v, t) => (.ok v, t)
  | (.error (.diskManager e), t) =>
    if e.alreadyExists then lookup t else (.error (.diskManager e), t)
  | (.error e, t) => (.error e, t)

theorem createOrOpenWith_eq {τ : Type} {create lookup : τ → Except SessionError CallValue × τ}
    {t : τ} (h : ∀ e t', create t = (.error (.diskManager e), t') → e.alreadyExists = false) :
    createOrOpenWith create lookup t = create t := by
  unfold createOrOpenWith
  cases hc : create t with
  | mk r t' =>
    cases r with
    | ok v => rfl
    | error e =>
      cases e with
      | diskManager e =>
        dsimp only
        rw [h e t' hc, if_neg Bool.false_ne_true]
      | remote text => rfl
      | unexpectedResponse => rfl

def liveScript : Nat → Attempt := fun _ => ⟨.intact, .remote⟩

section Sessions

variable {σ ρ : Type} (M : Manager σ ρ) (reportLen : ρ → Nat)

def SimpleCall.directSession (c : SimpleCall) (s : σ) : Except SessionError CallValue × σ :=
  match c.direct M s with
  | .ok v s => (.ok v, s)
  | .error e s => (.error (.diskManager e), s)

def SessionCall.direct : SessionCall → σ → Except SessionError CallValue × σ
  | .simple c => c.directSession M
  | .createOrOpenFile parent name =>
    createOrOpenWith (SimpleCall.directSession M (.createFile parent name))
      (SimpleCall.directSession M (.lookup parent name))

def SessionCall.remote : SessionCall → ClientWorld σ →
    Except SessionError CallValue × ClientWorld σ
  | .simple c => c.remote M reportLen liveScript
  | .createOrOpenFile parent name =>
    createOrOpenWith (SimpleCall.remote M reportLen (.createFile parent name) liveScript)
      (SimpleCall.remote M reportLen (.lookup parent name) liveScript)

def directRun : List SessionCall → σ → List (Except SessionError CallValue) × σ
  | [], s => ([], s)
  | c :: cs, s =>
    let (r, s) := c.direct M s
    let (rs, s) := directRun cs s
    (r :: rs, s)

def remoteRun : List SessionCall → ClientWorld σ →
    List (Except SessionError CallValue) × ClientWorld σ
  | [], w => ([], w)
  | c :: cs, w =>
    let (r, w) := c.remote M reportLen w
    let (rs, w) := remoteRun cs w
    (r :: rs, w)

end Sessions

def Agree : Except SessionError CallValue → Except SessionError CallValue → Prop
  | .ok v, .ok v' => v = v'
  | .error _, .error _ => True
  | _, _ => False

def Stands {σ ρ : Type} (c : SimpleCall) : EStateM.Result ManagerError σ CallValue →
    EStateM.Result ManagerError σ (IpcResponseData ρ) → Prop
  | .ok v s, .ok data s' => s = s' ∧ c.decode data = .ok v
  | .error _ s, .error _ s' => s = s'
  | _, _ => False

section Sessions

variable {σ ρ : Type} {M : Manager σ ρ} {reportLen : ρ → Nat}

theorem stands_map {α : Type} {c : SimpleCall} {x : EStateM ManagerError σ α} {f : α → CallValue}
    {g : α → IpcResponseData ρ} {s : σ} (hdecode : ∀ a, c.decode (g a) = .ok (f a)) :
    Stands c ((x >>= fun a => pure (f a)) s) ((x >>= fun a => pure (g a)) s) := by
  change Stands c (EStateM.bind x (fun a => EStateM.pure (f a)) s)
    (EStateM.bind x (fun a => EStateM.pure (g a)) s)
  unfold EStateM.bind
  cases x s with
  | ok a s' => exact ⟨rfl, hdecode a⟩
  | error e s' => exact rfl

/-- The reads at an offset that `handle_request` answers like `read_at`. -/
def PlainReadAt (M : Manager σ ρ) (c : SimpleCall) (s : σ) : Prop :=
  ∀ id offset len i, c = .readAt id offset len → (M.image s).readInodeInternal id = .ok i →
    (i.mode = .file ∨ (0 < len ∧ offset < i.size)) ∧ min len (i.size - offset) ≤ 128 * 1024 * 1024

theorem stands_readAt {id offset len : Nat} {s : σ}
    (h : PlainReadAt M (.readAt id offset len) s) :
    Stands (.readAt id offset len) (SimpleCall.direct M (.readAt id offset len) s)
      (M.handleRequest (.readAt id offset len) s) := by
  cases hi : (M.image s).readInodeInternal id with
  | error e =>
    have hread : M.session.readAt (M.image s) id offset len = .error e := by
      unfold Session.readAt
      rw [hi]
      rfl
    have hdirect : SimpleCall.direct M (.readAt id offset len) s =
        .error ⟨M.display e, false⟩ s := by
      simp only [SimpleCall.direct, Manager.readAt, Manager.read, bind, EStateM.bind, hread]
    have hremote : M.handleRequest (.readAt id offset len) s = .error ⟨M.display e, false⟩ s := by
      simp only [Manager.handleRequest, Manager.readInode, Manager.read, bind, EStateM.bind, hi]
    rw [hdirect, hremote]
    exact rfl
  | ok i =>
    obtain ⟨hmode, hcap⟩ := h id offset len i rfl hi
    have hinode : M.readInode id s = .ok i s := by
      simp only [Manager.readInode, Manager.read, hi]
    have hremote : M.handleRequest (.readAt id offset len) s =
        (if 0 < min (min len (i.size - offset)) (128 * 1024 * 1024) then do
            return .data (← M.readAt id offset (min (min len (i.size - offset))
              (128 * 1024 * 1024)))
          else return .data [] : EStateM ManagerError σ (IpcResponseData ρ)) s := by
      rw [Manager.handleRequest]
      change EStateM.bind (M.readInode id) _ s = _
      unfold EStateM.bind
      rw [hinode]
    rw [hremote, Nat.min_eq_left hcap]
    by_cases hpos : 0 < min len (i.size - offset)
    · have hsame : M.readAt id offset (min len (i.size - offset)) s = M.readAt id offset len s := by
        simp only [Manager.readAt, Manager.read, Session.readAt_available hi]
      rw [if_pos hpos]
      change Stands _ (EStateM.bind (M.readAt id offset len) _ s)
        (EStateM.bind (M.readAt id offset (min len (i.size - offset))) _ s)
      unfold EStateM.bind
      rw [hsame]
      cases hread : M.session.readAt (M.image s) id offset len with
      | error e =>
        have hresult : M.readAt id offset len s = .error ⟨M.display e, false⟩ s := by
          simp only [Manager.readAt, Manager.read, hread]
        rw [hresult]
        exact rfl
      | ok bytes =>
        have hresult : M.readAt id offset len s = .ok bytes s := by
          simp only [Manager.readAt, Manager.read, hread]
        rw [hresult]
        refine ⟨rfl, ?_⟩
        rw [SimpleCall.decode, Nat.min_eq_left (Session.readAt_length hread), List.take_length]
    · -- nothing to read: only a file has nothing to read for `read_at` too
      have hfile : i.mode = .file := hmode.resolve_right (by omega)
      have hread : M.session.readAt (M.image s) id offset len = .ok [] := by
        unfold Session.readAt
        refine except_bind_ok.mpr ⟨i, hi, except_bind_ok.mpr ⟨(), ?_, ?_⟩⟩
        · exact if_neg (not_not.mpr hfile)
        · rw [if_pos (by omega)]
          rfl
      have hdirect : SimpleCall.direct M (.readAt id offset len) s = .ok (.bytes []) s := by
        simp only [SimpleCall.direct, Manager.readAt, Manager.read, bind, EStateM.bind, hread]
        rfl
      rw [if_neg hpos, hdirect]
      exact ⟨rfl, rfl⟩

theorem stands_handle {c : SimpleCall} {s : σ} (h : PlainReadAt M c s) :
    Stands c (c.direct M s) (M.handleRequest c.request s) := by
  cases c with
  | readAt id offset len => exact stands_readAt h
  | _ => exact stands_map fun _ => rfl

/-- A call that the frames can carry and whose errors are not taken for those of the connection. -/
structure Carried (M : Manager σ ρ) (reportLen : ρ → Nat) (c : SimpleCall) (s : σ) : Prop where
  request : c.request.wireLen ≤ maxFrameBytes
  reply : ∀ data s', M.handleRequest c.request s = .ok data s' →
    (IpcResponse.success data).wireLen reportLen ≤ maxFrameBytes
  refusal : ∀ e s', M.handleRequest c.request s = .error e s' →
    (IpcResponse.error (ρ := ρ) e.text).wireLen reportLen ≤ maxFrameBytes ∧
      isConnectionText e.text = false
  readAt : PlainReadAt M c s

theorem Carried.remote {c : SimpleCall} {w : ClientWorld σ} (h : Carried M reportLen c w.image)
    (hfallback : w.fallback = false) :
    Agree (c.directSession M w.image).1 (c.remote M reportLen liveScript w).1 ∧
      (c.remote M reportLen liveScript w).2 = { w with
        image := (c.directSession M w.image).2, executed := c.request :: w.executed } ∧
      ∀ e, (c.remote M reportLen liveScript w).1 ≠ .error (.diskManager e) := by
  have hstands := stands_handle h.readAt
  have hframe : frameLenIsValid c.request.wireLen = true := decide_eq_true h.request
  unfold SimpleCall.remote SimpleCall.directSession Manager.sendRequest
  rw [hfallback, if_neg Bool.false_ne_true, Manager.retryLoop]
  simp only [liveScript, Manager.send, hframe, Bool.not_true, Bool.false_eq_true, if_false,
    Manager.execute]
  cases hdirect : c.direct M w.image with
  | ok v s =>
    cases hhandle : M.handleRequest c.request w.image with
    | error e s' =>
      rw [hdirect, hhandle] at hstands
      exact hstands.elim
    | ok data s' =>
      rw [hdirect, hhandle] at hstands
      obtain ⟨rfl, hdecode⟩ := hstands
      have hreply : frameLenIsValid ((IpcResponse.success data).wireLen reportLen) = true :=
        decide_eq_true (h.reply data s hhandle)
      simp only [hreply, if_true]
      rw [hdecode]
      exact ⟨rfl, by rw [hfallback], fun e he => by cases he⟩
  | error e s =>
    cases hhandle : M.handleRequest c.request w.image with
    | ok data s' =>
      rw [hdirect, hhandle] at hstands
      exact hstands.elim
    | error e' s' =>
      rw [hdirect, hhandle] at hstands
      obtain rfl : s = s' := hstands
      obtain ⟨hlen, htext⟩ := h.refusal e' s hhandle
      have hreply : frameLenIsValid ((IpcResponse.error (ρ := ρ) e'.text).wireLen reportLen) = true :=
        decide_eq_true hlen
      have hother : IoError.isConnectionError ⟨.other, e'.text⟩ = false := htext
      simp only [hreply, if_true, hother, Bool.false_eq_true, if_false]
      exact ⟨trivial, by rw [hfallback], fun e he => by cases he⟩

/-- The same for a call of a session. -/
def SessionCall.Carried (M : Manager σ ρ) (reportLen : ρ → Nat) : SessionCall → σ → Prop
  | .simple c, s => Oifs.Carried M reportLen c s
  | .createOrOpenFile parent name, s => Oifs.Carried M reportLen (.createFile parent name) s ∧
    ∀ e s', M.createFile parent name s = .error e s' → e.alreadyExists = false

theorem SessionCall.Carried.agree {c : SessionCall} {w : ClientWorld σ}
    (h : c.Carried M reportLen w.image) (hfallback : w.fallback = false) :
    Agree (c.direct M w.image).1 (c.remote M reportLen w).1 ∧
      (c.remote M reportLen w).2.image = (c.direct M w.image).2 ∧
      (c.remote M reportLen w).2.fallback = false := by
  cases c with
  | simple c =>
    obtain ⟨hagree, hworld, -⟩ := Oifs.Carried.remote h hfallback
    refine ⟨hagree, ?_, ?_⟩
    · exact congrArg ClientWorld.image hworld
    · exact (congrArg ClientWorld.fallback hworld).trans hfallback
  | createOrOpenFile parent name =>
    obtain ⟨hcreate, hnew⟩ := h
    obtain ⟨hagree, hworld, hremote⟩ := Oifs.Carried.remote hcreate hfallback
    have hdirect : SessionCall.direct M (.createOrOpenFile parent name) w.image =
        SimpleCall.directSession M (.createFile parent name) w.image := by
      refine createOrOpenWith_eq fun e s he => ?_
      cases hc : M.createFile parent name w.image with
      | ok id s' => simp [SimpleCall.directSession, SimpleCall.direct, bind, EStateM.bind, hc,
          pure, EStateM.pure] at he
      | error e' s' =>
        simp only [SimpleCall.directSession, SimpleCall.direct, bind, EStateM.bind, hc] at he
        cases he
        exact hnew e s hc
    have hsame : SessionCall.remote M reportLen (.createOrOpenFile parent name) w =
        SimpleCall.remote M reportLen (.createFile parent name) liveScript w := by
      refine createOrOpenWith_eq fun e t he => ?_
      exact absurd (congrArg Prod.fst he) (hremote e)
    rw [hdirect, hsame]
    refine ⟨hagree, ?_, ?_⟩
    · exact congrArg ClientWorld.image hworld
    · exact (congrArg ClientWorld.fallback hworld).trans hfallback

def RunCarried (M : Manager σ ρ) (reportLen : ρ → Nat) : List SessionCall → σ → Prop
  | [], _ => True
  | c :: cs, s => c.Carried M reportLen s ∧ RunCarried M reportLen cs (c.direct M s).2

instance (c : SimpleCall) (s : σ) : Decidable (PlainReadAt M c s) :=
  match c with
  | .readAt id offset len =>
    match hi : (M.image s).readInodeInternal id with
    | .ok i => decidable_of_iff ((i.mode = .file ∨ (0 < len ∧ offset < i.size)) ∧
        min len (i.size - offset) ≤ 128 * 1024 * 1024) ⟨fun h id' offset' len' i' hc hi' => by
          cases hc
          cases hi.symm.trans hi'
          exact h, fun h => h id offset len i rfl hi⟩
    | .error _ => .isTrue fun id' offset' len' i' hc hi' => by
        cases hc
        cases hi.symm.trans hi'
  | .createFile .. | .createDirectory .. | .lookup .. | .readData .. | .writeDataWithFilters ..
  | .deleteFile .. | .truncate .. | .resolvePath .. | .resolveParent .. | .readInode ..
  | .listDir .. => .isTrue fun _ _ _ _ hc => by cases hc

def Answered (reportLen : ρ → Nat) : EStateM.Result ManagerError σ (IpcResponseData ρ) → Prop
  | .ok data _ => (IpcResponse.success data).wireLen reportLen ≤ maxFrameBytes
  | .error e _ => (IpcResponse.error (ρ := ρ) e.text).wireLen reportLen ≤ maxFrameBytes ∧
    isConnectionText e.text = false

instance (r : EStateM.Result ManagerError σ (IpcResponseData ρ)) : Decidable (Answered reportLen r) :=
  match r with
  | .ok _ _ => inferInstanceAs (Decidable (_ ≤ _))
  | .error _ _ => inferInstanceAs (Decidable (_ ∧ _))

theorem carried_iff {c : SimpleCall} {s : σ} : Carried M reportLen c s ↔
    c.request.wireLen ≤ maxFrameBytes ∧ Answered reportLen (M.handleRequest c.request s) ∧
      PlainReadAt M c s := by
  constructor
  · rintro ⟨hrequest, hreply, hrefusal, hread⟩
    refine ⟨hrequest, ?_, hread⟩
    cases hanswer : M.handleRequest c.request s with
    | ok data s' => exact hreply data s' hanswer
    | error e s' => exact hrefusal e s' hanswer
  · rintro ⟨hrequest, hanswer, hread⟩
    refine ⟨hrequest, fun data s' heq => ?_, fun e s' heq => ?_, hread⟩
    · rwa [heq] at hanswer
    · rwa [heq] at hanswer

instance (c : SimpleCall) (s : σ) : Decidable (Carried M reportLen c s) :=
  decidable_of_iff' _ carried_iff

def NotThere {α : Type} : EStateM.Result ManagerError σ α → Prop
  | .ok _ _ => True
  | .error e _ => e.alreadyExists = false

instance {α : Type} (r : EStateM.Result ManagerError σ α) : Decidable (NotThere r) :=
  match r with
  | .ok _ _ => .isTrue trivial
  | .error e _ => inferInstanceAs (Decidable (e.alreadyExists = false))

theorem notThere_iff {α : Type} {r : EStateM.Result ManagerError σ α} :
    NotThere r ↔ ∀ e s', r = .error e s' → e.alreadyExists = false := by
  cases r with
  | ok a s =>
    refine Iff.intro (fun _ e s' heq => ?_) fun _ => trivial
    cases heq
  | error e s =>
    refine ⟨fun h e' s' heq => ?_, fun h => h e s rfl⟩
    cases heq
    exact h

instance (c : SessionCall) (s : σ) : Decidable (c.Carried M reportLen s) :=
  match c with
  | .simple c => inferInstanceAs (Decidable (Oifs.Carried M reportLen c s))
  | .createOrOpenFile parent name =>
    decidable_of_iff (Oifs.Carried M reportLen (.createFile parent name) s ∧
      NotThere (M.createFile parent name s)) (and_congr_right fun _ => notThere_iff)

instance RunCarried.decide (calls : List SessionCall) (s : σ) :
    Decidable (RunCarried M reportLen calls s) :=
  match calls with
  | [] => .isTrue trivial
  | c :: cs => @instDecidableAnd _ _ inferInstance (RunCarried.decide cs (c.direct M s).2)

/-- Without connection failures a Remote session returns what a Direct session returns and leaves
the same image, if every call is carried. -/
theorem remote_run_agrees {calls : List SessionCall} {s : σ}
    (h : RunCarried M reportLen calls s) :
    List.Forall₂ Agree (directRun M calls s).1 (remoteRun M reportLen calls ⟨s, false, []⟩).1 ∧
      (remoteRun M reportLen calls ⟨s, false, []⟩).2.image = (directRun M calls s).2 := by
  suffices hrun : ∀ w : ClientWorld σ, w.image = s → w.fallback = false →
      List.Forall₂ Agree (directRun M calls s).1 (remoteRun M reportLen calls w).1 ∧
        (remoteRun M reportLen calls w).2.image = (directRun M calls s).2 from
    hrun ⟨s, false, []⟩ rfl rfl
  induction calls generalizing s with
  | nil =>
    intro w hw _
    exact ⟨.nil, hw⟩
  | cons c cs ih =>
    rintro w rfl hfallback
    obtain ⟨hc, hcs⟩ := h
    obtain ⟨hagree, himage, hfallback'⟩ := hc.agree hfallback
    obtain ⟨hrest, hend⟩ := ih hcs _ himage hfallback'
    exact ⟨.cons hagree hrest, hend⟩

def plainManager : Manager Mounted Unit := diskManager plainDirSession Session.epoch

def freshImage : Mounted where
  volume := Session.tinyVolume { (Inode.new .directory).setSlot 0 4 with size := blockSize } fun _ => 0
  dirCache _ := none

def sessionCalls : List SessionCall :=
  [.createOrOpenFile 0 "a", .simple (.writeDataWithFilters 1 0 [7, 8, 9] .never .none),
    .simple (.readAt 1 1 9), .simple (.truncate 1 1), .simple (.readInode 99)]

/-- A file is made, written, read behind its start and cut; the last call fails on both sides. -/
theorem remote_run_agrees_file :
    ((directRun plainManager sessionCalls freshImage).1.map Except.isOk =
      [true, true, true, true, false]) ∧
    List.Forall₂ Agree (directRun plainManager sessionCalls freshImage).1
      (remoteRun plainManager (fun _ => 0) sessionCalls ⟨freshImage, false, []⟩).1 :=
  ⟨by decide +kernel, (remote_run_agrees (by decide +kernel)).1⟩

def openTwice : List SessionCall := [.createOrOpenFile 0 "a", .createOrOpenFile 0 "a"]

/-- A name is opened twice: the Direct session finds the file, the Remote one fails on the error
text. -/
theorem create_or_open_of_existing_diverges :
    (directRun plainManager openTwice freshImage).1.map Except.isOk = [true, true] ∧
    (remoteRun plainManager (fun _ => 0) openTwice ⟨freshImage, false, []⟩).1.map Except.isOk =
      [true, false] := by
  decide +kernel

end Sessions

end Oifs
