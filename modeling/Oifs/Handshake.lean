import Oifs.Ipc
import Oifs.History
import Mathlib.Logic.Relation
import Mathlib.Logic.Function.Basic

namespace Oifs

structure MasterCredential where
  encrypted : Bool
  salt : Salt
  key : List UInt8

/-- The locals of `spawn_client_worker`. -/
structure Worker where
  authenticated : Bool
  challenge : Option (AuthNonce × AuthNonce)

/-- The worker answers a request itself, or hands it to `handle_request`. -/
inductive WorkerReply (ρ : Type) where
  | respond (r : IpcResponse ρ)
  | execute

/-- One round of the loop of `spawn_client_worker`. -/
def Worker.answer {ρ : Type} (mac : List UInt8 → List UInt8 → List UInt8) (m : MasterCredential)
    (w : Worker) (serverNonce : AuthNonce) : IpcRequest → Worker × WorkerReply ρ
  | .ping => (w, .respond (.success .pong))
  | .authChallenge clientNonce hasPassword =>
    if m.encrypted && !hasPassword then
      (w, .respond (.error "Password required to access encrypted filesystem"))
    else
      ({ w with challenge := some (clientNonce, serverNonce) },
        .respond (.success (.authChallenge serverNonce m.salt m.encrypted)))
  | .authResponse clientMac =>
    match w.challenge with
    | some (clientNonce, serverNonce) =>
      if ctEq clientMac (mac m.key (authTranscript 0 clientNonce serverNonce m.salt)) then
        ({ w with authenticated := true }, .respond (.success (.authVerify
          (mac m.key (authTranscript 1 clientNonce serverNonce m.salt)))))
      else if m.encrypted then
        (w, .respond (.error "Decryption failed: invalid password or credentials"))
      else (w, .respond (.error "Authentication failed: invalid credentials"))
    | none => (w, .respond (.error "Unexpected authentication response"))
  | _ =>
    if !w.authenticated then
      (w, .respond (.error "Password required to access encrypted filesystem"))
    else (w, .execute)

inductive AuthCredential where
  | password (text : String)
  | secret (bytes : List UInt8)

def AuthCredential.hasPassword : AuthCredential → Bool
  | .password _ => true
  | .secret _ => false

def AuthCredential.key (deriveKey : String → Salt → Except String (List UInt8)) (salt : Salt)
    (encrypted : Bool) : AuthCredential → Except String (List UInt8)
  | .password text =>
    if !encrypted then
      .error "Master does not accept a password for an unencrypted filesystem"
    else deriveKey text salt
  | .secret bytes =>
    if encrypted then .error "Password required to access encrypted filesystem"
    else .ok bytes

/-- The points at which `authenticate` waits or has returned. -/
inductive ClientState where
  | idle
  | challenged (clientNonce : AuthNonce)
  | responded (key : List UInt8) (clientNonce serverNonce : AuthNonce) (salt : Salt)
  | succeeded
  | failed (text : String)

def ClientState.receive {ρ : Type} (mac : List UInt8 → List UInt8 → List UInt8)
    (deriveKey : String → Salt → Except String (List UInt8)) (credential : AuthCredential) :
    ClientState → IpcResponse ρ → ClientState
  | .challenged clientNonce, .success (.authChallenge serverNonce salt encrypted) =>
    match credential.key deriveKey salt encrypted with
    | .ok key => .responded key clientNonce serverNonce salt
    | .error text => .failed text
  | .responded key clientNonce serverNonce salt, .success (.authVerify serverMac) =>
    if ctEq serverMac (mac key (authTranscript 1 clientNonce serverNonce salt)) then .succeeded
    else .failed "Master failed to prove it holds the filesystem key"
  | .challenged _, .success _ | .responded .., .success _ =>
    .failed "Unexpected authentication response"
  | .challenged _, .error text | .responded .., .error text => .failed text
  | s, _ => s

def ClientState.request (mac : List UInt8 → List UInt8 → List UInt8) (credential : AuthCredential) :
    ClientState → Option IpcRequest
  | .challenged clientNonce => some (.authChallenge clientNonce credential.hasPassword)
  | .responded key clientNonce serverNonce salt =>
    some (.authResponse (mac key (authTranscript 0 clientNonce serverNonce salt)))
  | _ => none

/-- What honest parties have done on the connections of a network. -/
inductive AuthEvent where
  | started (client : Nat) (clientNonce : AuthNonce)
  | issued (conn : Nat) (clientNonce serverNonce : AuthNonce)
  | clientMac (client : Nat) (key : List UInt8) (clientNonce serverNonce : AuthNonce) (salt : Salt)
  | accepted (conn : Nat) (clientNonce serverNonce : AuthNonce)
  | executed (conn : Nat) (req : IpcRequest)
  | authenticated (client : Nat) (key : List UInt8) (clientNonce serverNonce : AuthNonce)
      (salt : Salt)

namespace AuthEvent

def drawn : AuthEvent → List AuthNonce
  | .started _ clientNonce => [clientNonce]
  | .issued _ _ serverNonce => [serverNonce]
  | _ => []

def latestIssued (conn : Nat) : List AuthEvent → Option (AuthNonce × AuthNonce)
  | [] => none
  | .issued c clientNonce serverNonce :: before =>
    if c = conn then some (clientNonce, serverNonce) else latestIssued conn before
  | _ :: before => latestIssued conn before

end AuthEvent

/-- Masters, clients with their credentials, and the keys that the attacker holds. -/
structure AuthNetwork where
  mac : List UInt8 → List UInt8 → List UInt8
  deriveKey : String → Salt → Except String (List UInt8)
  master : Nat → MasterCredential
  credential : Nat → AuthCredential
  known : List UInt8 → Prop

structure AuthWorld where
  worker : Nat → Worker
  client : Nat → ClientState
  /-- Newest first. -/
  log : List AuthEvent

def AuthWorld.init : AuthWorld := ⟨fun _ => ⟨false, none⟩, fun _ => .idle, []⟩

namespace AuthNetwork

variable (N : AuthNetwork)

def Produced (log : List AuthEvent) (key transcript : List UInt8) : Prop :=
  (∃ client clientNonce serverNonce salt,
    .clientMac client key clientNonce serverNonce salt ∈ log ∧
      transcript = authTranscript 0 clientNonce serverNonce salt) ∨
  ∃ conn clientNonce serverNonce, .accepted conn clientNonce serverNonce ∈ log ∧
    (N.master conn).key = key ∧
      transcript = authTranscript 1 clientNonce serverNonce (N.master conn).salt

/-- The tags that the attacker can send: those under its keys, and those seen. -/
def Sendable (log : List AuthEvent) (tag : List UInt8) : Prop :=
  ∀ key transcript, ¬N.known key → tag = N.mac key transcript → N.Produced log key transcript

def SendableRequest (log : List AuthEvent) : IpcRequest → Prop
  | .authResponse clientMac => N.Sendable log clientMac
  | _ => True

def SendableResponse {ρ : Type} (log : List AuthEvent) : IpcResponse ρ → Prop
  | .success (.authVerify serverMac) => N.Sendable log serverMac
  | _ => True

def workerEvents {ρ : Type} (conn : Nat) (w : Worker) :
    IpcRequest → WorkerReply ρ → List AuthEvent
  | .authChallenge clientNonce _, .respond (.success (.authChallenge serverNonce _ _)) =>
    [.issued conn clientNonce serverNonce]
  | .authResponse _, .respond (.success _) =>
    match w.challenge with
    | some (clientNonce, serverNonce) => [.accepted conn clientNonce serverNonce]
    | none => []
  | req, .execute => [.executed conn req]
  | _, _ => []

def clientEvents (client : Nat) : ClientState → ClientState → List AuthEvent
  | _, .responded key clientNonce serverNonce salt =>
    [.clientMac client key clientNonce serverNonce salt]
  | .responded key clientNonce serverNonce salt, .succeeded =>
    [.authenticated client key clientNonce serverNonce salt]
  | _, _ => []

def request (ρ : Type) (w : AuthWorld) (conn : Nat) (req : IpcRequest) (serverNonce : AuthNonce) :
    AuthWorld :=
  let (worker, reply) :=
    (w.worker conn).answer (ρ := ρ) N.mac (N.master conn) serverNonce req
  { w with
    worker := Function.update w.worker conn worker
    log := workerEvents conn (w.worker conn) req reply ++ w.log }

def start (w : AuthWorld) (client : Nat) (clientNonce : AuthNonce) : AuthWorld :=
  { w with
    client := Function.update w.client client (.challenged clientNonce)
    log := .started client clientNonce :: w.log }

def response {ρ : Type} (w : AuthWorld) (client : Nat) (resp : IpcResponse ρ) : AuthWorld :=
  let st := (w.client client).receive N.mac N.deriveKey (N.credential client) resp
  { w with
    client := Function.update w.client client st
    log := clientEvents client (w.client client) st ++ w.log }

/-- A step of the network. Every frame goes through the attacker, who delivers what it can send to
anyone in any order. -/
inductive Step (ρ : Type) : AuthWorld → AuthWorld → Prop
  | request (w : AuthWorld) (conn : Nat) (req : IpcRequest) (serverNonce : AuthNonce)
      (hsend : N.SendableRequest w.log req) (hfresh : serverNonce ∉ w.log.flatMap AuthEvent.drawn) :
      Step ρ w (N.request ρ w conn req serverNonce)
  | start (w : AuthWorld) (client : Nat) (clientNonce : AuthNonce)
      (hidle : w.client client = .idle) (hfresh : clientNonce ∉ w.log.flatMap AuthEvent.drawn) :
      Step ρ w (start w client clientNonce)
  | response (w : AuthWorld) (client : Nat) (resp : IpcResponse ρ)
      (hwait : ∃ req, (w.client client).request N.mac (N.credential client) = some req)
      (hsend : N.SendableResponse w.log resp) : Step ρ w (N.response w client resp)

variable {events : List AuthEvent} {w : AuthWorld}

theorem worker_cases {ρ : Type} {m : MasterCredential} {w : Worker} {nonce : AuthNonce}
    {req : IpcRequest} (conn : Nat) {mac : List UInt8 → List UInt8 → List UInt8} {w' : Worker}
    (hw : (w.answer (ρ := ρ) mac m nonce req).1 = w')
    (hevents : workerEvents conn w req (w.answer (ρ := ρ) mac m nonce req).2 = events) :
    (w' = w ∧ events = []) ∨
    (∃ cn, w' = { w with challenge := some (cn, nonce) } ∧ events = [.issued conn cn nonce]) ∨
    (∃ cn sn, w.challenge = some (cn, sn) ∧
      req = .authResponse (mac m.key (authTranscript 0 cn sn m.salt)) ∧
      w' = { w with authenticated := true } ∧ events = [.accepted conn cn sn]) ∨
    (req.isHandshake = false ∧ w.authenticated = true ∧ w' = w ∧ events = [.executed conn req]) := by
  have hother : req.isHandshake = false → w.answer (ρ := ρ) mac m nonce req =
      (if !w.authenticated then
        (w, .respond (.error "Password required to access encrypted filesystem"))
      else (w, .execute)) → (w' = w ∧ events = []) ∨
        (req.isHandshake = false ∧ w.authenticated = true ∧ w' = w ∧
          events = [.executed conn req]) := by
    intro hreq hanswer
    rw [hanswer] at hw hevents
    cases hauth : w.authenticated with
    | false =>
      rw [hauth] at hw hevents
      refine Or.inl ⟨hw.symm, hevents.symm.trans ?_⟩
      cases req <;> rfl
    | true =>
      rw [hauth] at hw hevents
      refine Or.inr ⟨hreq, rfl, hw.symm, hevents.symm.trans ?_⟩
      cases req <;> rfl
  cases req with
  | ping => exact Or.inl ⟨hw.symm, hevents.symm⟩
  | authChallenge cn hasPassword =>
    rw [Worker.answer] at hw hevents
    split at hw
    next hrefused =>
      rw [if_pos hrefused] at hevents
      exact Or.inl ⟨hw.symm, hevents.symm⟩
    next hok =>
      rw [if_neg hok] at hevents
      exact Or.inr (Or.inl ⟨cn, hw.symm, hevents.symm⟩)
  | authResponse tag =>
    rw [Worker.answer] at hw hevents
    cases hch : w.challenge with
    | none =>
      rw [hch] at hw hevents
      exact Or.inl ⟨hw.symm, hevents.symm⟩
    | some pair =>
      obtain ⟨cn, sn⟩ := pair
      rw [hch] at hw hevents
      dsimp only at hw hevents
      by_cases htag : ctEq tag (mac m.key (authTranscript 0 cn sn m.salt)) = true
      · rw [if_pos htag] at hw hevents
        rw [workerEvents, hch] at hevents
        refine Or.inr (Or.inr (Or.inl ⟨cn, sn, rfl, ?_, hw.symm, hevents.symm⟩))
        rw [ctEq_iff.mp htag]
      · rw [if_neg htag] at hw hevents
        split at hw
        next henc =>
          rw [if_pos henc] at hevents
          exact Or.inl ⟨hw.symm, hevents.symm⟩
        next henc =>
          rw [if_neg henc] at hevents
          exact Or.inl ⟨hw.symm, hevents.symm⟩
  | _ => exact (hother rfl rfl).imp_right fun h => Or.inr (Or.inr h)

theorem client_cases {ρ : Type} {st st' : ClientState} {resp : IpcResponse ρ} (client : Nat)
    {credential : AuthCredential} {mac : List UInt8 → List UInt8 → List UInt8}
    {deriveKey : String → Salt → Except String (List UInt8)}
    (hwait : ∃ req, st.request mac credential = some req)
    (hst : st.receive mac deriveKey credential resp = st')
    (hevents : clientEvents client st st' = events) :
    ((∃ text, st' = .failed text) ∧ events = []) ∨
    (∃ cn key sn salt, st = .challenged cn ∧ st' = .responded key cn sn salt ∧
      events = [.clientMac client key cn sn salt]) ∨
    (∃ key cn sn salt, st = .responded key cn sn salt ∧
      resp = .success (.authVerify (mac key (authTranscript 1 cn sn salt))) ∧ st' = .succeeded ∧
      events = [.authenticated client key cn sn salt]) := by
  have hfailed : (∃ text, st' = .failed text) → (∃ text, st' = .failed text) ∧ events = [] := by
    rintro ⟨text, rfl⟩
    refine ⟨⟨text, rfl⟩, hevents.symm.trans ?_⟩
    cases st <;> rfl
  obtain ⟨req, hreq⟩ := hwait
  cases st with
  | idle | succeeded | failed => cases hreq
  | challenged cn =>
    cases resp with
    | error text => exact Or.inl (hfailed ⟨text, hst.symm⟩)
    | success data =>
      cases data with
      | authChallenge sn salt encrypted =>
        rw [ClientState.receive] at hst
        cases hkey : credential.key deriveKey salt encrypted with
        | error text =>
          rw [hkey] at hst
          exact Or.inl (hfailed ⟨text, hst.symm⟩)
        | ok key =>
          rw [hkey] at hst
          subst hst
          exact Or.inr (Or.inl ⟨cn, key, sn, salt, rfl, rfl, hevents.symm⟩)
      | _ => exact Or.inl (hfailed ⟨_, hst.symm⟩)
  | responded key cn sn salt =>
    cases resp with
    | error text => exact Or.inl (hfailed ⟨text, hst.symm⟩)
    | success data =>
      cases data with
      | authVerify tag =>
        rw [ClientState.receive] at hst
        split at hst
        next htag =>
          subst hst
          refine Or.inr (Or.inr ⟨key, cn, sn, salt, rfl, ?_, rfl, hevents.symm⟩)
          rw [ctEq_iff.mp htag]
        next => exact Or.inl (hfailed ⟨_, hst.symm⟩)
      | _ => exact Or.inl (hfailed ⟨_, hst.symm⟩)

def Cause : AuthEvent → List AuthEvent → Prop
  | .started _ cn, before => cn ∉ before.flatMap AuthEvent.drawn
  | .issued _ _ sn, before => sn ∉ before.flatMap AuthEvent.drawn
  | .clientMac client _ cn _ _, before => .started client cn ∈ before
  | .accepted conn cn sn, before => AuthEvent.latestIssued conn before = some (cn, sn) ∧
    (¬N.known (N.master conn).key →
      ∃ client, .clientMac client (N.master conn).key cn sn (N.master conn).salt ∈ before)
  | .executed conn req, before => req.isHandshake = false ∧ ∃ cn sn, .accepted conn cn sn ∈ before
  | .authenticated client key cn sn salt, before => .started client cn ∈ before ∧
    (¬N.known key → ∃ conn, (N.master conn).key = key ∧ (N.master conn).salt = salt ∧
      .accepted conn cn sn ∈ before)

structure Inv (w : AuthWorld) : Prop where
  justified : Justified N.Cause w.log
  challenge : ∀ conn cn sn, (w.worker conn).challenge = some (cn, sn) →
    AuthEvent.latestIssued conn w.log = some (cn, sn)
  authenticated : ∀ conn, (w.worker conn).authenticated = true →
    ∃ cn sn, .accepted conn cn sn ∈ w.log
  challenged : ∀ client cn, w.client client = .challenged cn → .started client cn ∈ w.log
  responded : ∀ client key cn sn salt, w.client client = .responded key cn sn salt →
    .started client cn ∈ w.log

variable {N}

variable {ρ : Type} {log : List AuthEvent}

theorem inv_init : N.Inv .init := by
  refine ⟨trivial, ?_, ?_, ?_, ?_⟩ <;> simp [AuthWorld.init]

theorem latestIssued_cons {conn : Nat} {e : AuthEvent} (he : ∀ cn sn, e ≠ .issued conn cn sn) :
    AuthEvent.latestIssued conn (e :: log) = AuthEvent.latestIssued conn log := by
  cases e with
  | issued c cn sn =>
    rw [AuthEvent.latestIssued, if_neg]
    rintro rfl
    exact he cn sn rfl
  | _ => rfl

theorem produced_client {key : List UInt8} {cn sn : AuthNonce} {salt : Salt}
    (h : N.Produced log key (authTranscript 0 cn sn salt)) :
    ∃ client, .clientMac client key cn sn salt ∈ log := by
  rcases h with ⟨client, cn', sn', salt', hmem, heq⟩ | ⟨conn, cn', sn', -, -, heq⟩
  · obtain ⟨-, rfl, rfl, rfl⟩ := authTranscript_inj heq
    exact ⟨client, hmem⟩
  · have hdirection := (authTranscript_inj heq).1
    exact absurd hdirection (by decide)

theorem produced_master {key : List UInt8} {cn sn : AuthNonce} {salt : Salt}
    (h : N.Produced log key (authTranscript 1 cn sn salt)) :
    ∃ conn, (N.master conn).key = key ∧ (N.master conn).salt = salt ∧
      .accepted conn cn sn ∈ log := by
  rcases h with ⟨client, cn', sn', salt', -, heq⟩ | ⟨conn, cn', sn', hmem, hkey, heq⟩
  · have hdirection := (authTranscript_inj heq).1
    exact absurd hdirection (by decide)
  · obtain ⟨-, rfl, rfl, hsalt⟩ := authTranscript_inj heq
    exact ⟨conn, hkey, hsalt.symm, hmem⟩

/-- A worker keeps the invariant, whatever request it is sent. -/
theorem inv_worker {conn : Nat} {req : IpcRequest} {nonce : AuthNonce}
    {x : Worker} (h : N.Inv w) (hsend : N.SendableRequest w.log req)
    (hfresh : nonce ∉ w.log.flatMap AuthEvent.drawn)
    (hx : ((w.worker conn).answer (ρ := ρ) N.mac (N.master conn) nonce req).1 = x)
    (hevents : workerEvents conn (w.worker conn) req
      ((w.worker conn).answer (ρ := ρ) N.mac (N.master conn) nonce req).2 = events) :
    N.Inv { w with worker := Function.update w.worker conn x, log := events ++ w.log } := by
  have hclient : ∀ e : AuthEvent, (∀ client cn, w.client client = .challenged cn →
      .started client cn ∈ e :: w.log) ∧ ∀ client key cn sn salt,
      w.client client = .responded key cn sn salt → .started client cn ∈ e :: w.log :=
    fun e => ⟨fun client cn hc => List.mem_cons_of_mem _ (h.challenged client cn hc),
      fun client key cn sn salt hc => List.mem_cons_of_mem _ (h.responded client key cn sn salt hc)⟩
  rcases worker_cases conn hx hevents with ⟨rfl, rfl⟩ | ⟨cn, rfl, rfl⟩ |
    ⟨cn, sn, hch, rfl, rfl, rfl⟩ | ⟨hreq, hauth, rfl, rfl⟩
  · rw [Function.update_eq_self]
    exact h
  · refine ⟨⟨hfresh, h.justified⟩, fun c cn' sn' hc => ?_, fun c hc => ?_, (hclient _).1,
      (hclient _).2⟩
    · dsimp only at hc
      by_cases heq : c = conn
      · subst heq
        rw [Function.update_self] at hc
        cases hc
        exact if_pos rfl
      · rw [Function.update_of_ne heq] at hc
        have hne : ∀ a b, AuthEvent.issued conn cn nonce ≠ .issued c a b := by
          intro a b hissued
          cases hissued
          exact heq rfl
        exact (latestIssued_cons hne).trans (h.challenge c cn' sn' hc)
    · dsimp only at hc
      have hold : (w.worker c).authenticated = true := by
        by_cases heq : c = conn
        · subst heq
          rwa [Function.update_self] at hc
        · rwa [Function.update_of_ne heq] at hc
      obtain ⟨a, b, hmem⟩ := h.authenticated c hold
      exact ⟨a, b, List.mem_cons_of_mem _ hmem⟩
  · have hcause : N.Cause (.accepted conn cn sn) w.log :=
      ⟨h.challenge conn cn sn hch, fun hkey => produced_client (hsend _ _ hkey rfl)⟩
    refine ⟨⟨hcause, h.justified⟩, fun c cn' sn' hc => ?_, fun c hc => ?_, (hclient _).1,
      (hclient _).2⟩
    · dsimp only at hc
      have hold : (w.worker c).challenge = some (cn', sn') := by
        by_cases heq : c = conn
        · subst heq
          rwa [Function.update_self] at hc
        · rwa [Function.update_of_ne heq] at hc
      exact (latestIssued_cons (by simp)).trans (h.challenge c cn' sn' hold)
    · dsimp only at hc
      by_cases heq : c = conn
      · subst heq
        exact ⟨cn, sn, List.mem_cons_self⟩
      · rw [Function.update_of_ne heq] at hc
        obtain ⟨a, b, hmem⟩ := h.authenticated c hc
        exact ⟨a, b, List.mem_cons_of_mem _ hmem⟩
  · rw [Function.update_eq_self]
    refine ⟨⟨⟨hreq, h.authenticated conn hauth⟩, h.justified⟩, fun c cn' sn' hc => ?_,
      fun c hc => ?_, (hclient _).1, (hclient _).2⟩
    · exact (latestIssued_cons (by simp)).trans (h.challenge c cn' sn' hc)
    · obtain ⟨a, b, hmem⟩ := h.authenticated c hc
      exact ⟨a, b, List.mem_cons_of_mem _ hmem⟩

theorem inv_start {client : Nat} {nonce : AuthNonce} (h : N.Inv w)
    (hfresh : nonce ∉ w.log.flatMap AuthEvent.drawn) :
    N.Inv (start w client nonce) := by
  refine ⟨⟨hfresh, h.justified⟩, fun c cn sn hc => ?_, fun c hc => ?_, fun c cn hc => ?_,
    fun c key cn sn salt hc => ?_⟩
  · exact (latestIssued_cons (by simp)).trans (h.challenge c cn sn hc)
  · obtain ⟨a, b, hmem⟩ := h.authenticated c hc
    exact ⟨a, b, List.mem_cons_of_mem _ hmem⟩
  · change Function.update w.client client (.challenged nonce) c = _ at hc
    by_cases heq : c = client
    · subst heq
      rw [Function.update_self] at hc
      cases hc
      exact List.mem_cons_self
    · rw [Function.update_of_ne heq] at hc
      exact List.mem_cons_of_mem _ (h.challenged c cn hc)
  · change Function.update w.client client (.challenged nonce) c = _ at hc
    by_cases heq : c = client
    · subst heq
      rw [Function.update_self] at hc
      cases hc
    · rw [Function.update_of_ne heq] at hc
      exact List.mem_cons_of_mem _ (h.responded c key cn sn salt hc)

/-- A client keeps the invariant, whatever answer it is given. -/
theorem inv_client {client : Nat} {resp : IpcResponse ρ} {st : ClientState} (h : N.Inv w)
    (hwait : ∃ req, (w.client client).request N.mac (N.credential client) = some req)
    (hsend : N.SendableResponse w.log resp)
    (hst : (w.client client).receive N.mac N.deriveKey (N.credential client) resp = st)
    (hevents : clientEvents client (w.client client) st = events) :
    N.Inv { w with client := Function.update w.client client st, log := events ++ w.log } := by
  have hworker : ∀ e : AuthEvent, (∀ conn cn sn, e ≠ .issued conn cn sn) →
      (∀ conn cn sn, (w.worker conn).challenge = some (cn, sn) →
        AuthEvent.latestIssued conn (e :: w.log) = some (cn, sn)) ∧
      ∀ conn, (w.worker conn).authenticated = true → ∃ cn sn, .accepted conn cn sn ∈ e :: w.log := by
    refine fun e he => ⟨fun conn cn sn hc => ?_, fun conn hc => ?_⟩
    · exact (latestIssued_cons (he conn)).trans (h.challenge conn cn sn hc)
    · obtain ⟨a, b, hmem⟩ := h.authenticated conn hc
      exact ⟨a, b, List.mem_cons_of_mem _ hmem⟩
  have hothers : ∀ c, c ≠ client → (∀ cn, Function.update w.client client st c = .challenged cn →
      .started c cn ∈ w.log) ∧ ∀ key cn sn salt,
      Function.update w.client client st c = .responded key cn sn salt → .started c cn ∈ w.log := by
    intro c hc
    rw [Function.update_of_ne hc]
    exact ⟨h.challenged c, h.responded c⟩
  rcases client_cases client hwait hst hevents with ⟨⟨text, rfl⟩, rfl⟩ |
    ⟨cn, key, sn, salt, hold, rfl, rfl⟩ | ⟨key, cn, sn, salt, hold, rfl, rfl, rfl⟩
  · refine ⟨h.justified, h.challenge, h.authenticated, fun c cn hc => ?_,
      fun c key cn sn salt hc => ?_⟩
    · by_cases heq : c = client
      · subst heq
        simp at hc
      · exact (hothers c heq).1 cn hc
    · by_cases heq : c = client
      · subst heq
        simp at hc
      · exact (hothers c heq).2 key cn sn salt hc
  · refine ⟨⟨h.challenged client cn hold, h.justified⟩, (hworker _ (by simp)).1,
      (hworker _ (by simp)).2, fun c cn' hc => ?_, fun c key' cn' sn' salt' hc => ?_⟩
    · by_cases heq : c = client
      · subst heq
        simp at hc
      · exact List.mem_cons_of_mem _ ((hothers c heq).1 cn' hc)
    · by_cases heq : c = client
      · subst heq
        dsimp only at hc
        rw [Function.update_self] at hc
        cases hc
        exact List.mem_cons_of_mem _ (h.challenged c cn hold)
      · exact List.mem_cons_of_mem _ ((hothers c heq).2 key' cn' sn' salt' hc)
  · have hcause : N.Cause (.authenticated client key cn sn salt) w.log :=
      ⟨h.responded client key cn sn salt hold, fun hkey => produced_master (hsend _ _ hkey rfl)⟩
    refine ⟨⟨hcause, h.justified⟩, (hworker _ (by simp)).1, (hworker _ (by simp)).2,
      fun c cn' hc => ?_, fun c key' cn' sn' salt' hc => ?_⟩
    · by_cases heq : c = client
      · subst heq
        simp at hc
      · exact List.mem_cons_of_mem _ ((hothers c heq).1 cn' hc)
    · by_cases heq : c = client
      · subst heq
        simp at hc
      · exact List.mem_cons_of_mem _ ((hothers c heq).2 key' cn' sn' salt' hc)

theorem inv_reachable (h : Relation.ReflTransGen (N.Step ρ) .init w) : N.Inv w := by
  induction h with
  | refl => exact inv_init
  | tail _ hstep ih =>
    cases hstep with
    | request conn req nonce hsend hfresh => exact inv_worker ih hsend hfresh rfl rfl
    | start client nonce _ hfresh => exact inv_start ih hfresh
    | response client resp hwait hsend => exact inv_client ih hwait hsend rfl rfl

theorem issued_of_latest {conn : Nat} {cn sn : AuthNonce}
    (h : AuthEvent.latestIssued conn log = some (cn, sn)) : .issued conn cn sn ∈ log := by
  induction log with
  | nil => cases h
  | cons e log ih =>
    by_cases he : ∃ a b, e = .issued conn a b
    · obtain ⟨a, b, rfl⟩ := he
      rw [AuthEvent.latestIssued, if_pos rfl] at h
      cases h
      exact List.mem_cons_self
    · rw [latestIssued_cons fun a b hab => he ⟨a, b, hab⟩] at h
      exact List.mem_cons_of_mem _ (ih h)

theorem issued_unique (h : Justified N.Cause log) {conn conn' : Nat}
    {cn cn' sn : AuthNonce} (hi : .issued conn cn sn ∈ log) (hi' : .issued conn' cn' sn ∈ log) :
    conn = conn' := by
  by_contra hne
  have hdistinct : AuthEvent.issued conn cn sn ≠ .issued conn' cn' sn := by
    intro heq
    cases heq
    exact hne rfl
  rcases h.order hi hi' hdistinct with ⟨before, hcause, hmem⟩ | ⟨before, hcause, hmem⟩
  · exact hcause (List.mem_flatMap.mpr ⟨_, hmem, List.mem_singleton_self _⟩)
  · exact hcause (List.mem_flatMap.mpr ⟨_, hmem, List.mem_singleton_self _⟩)

theorem started_unique (h : Justified N.Cause log) {client client' : Nat}
    {cn : AuthNonce} (hs : .started client cn ∈ log) (hs' : .started client' cn ∈ log) :
    client = client' := by
  by_contra hne
  have hdistinct : AuthEvent.started client cn ≠ .started client' cn := by
    intro heq
    cases heq
    exact hne rfl
  rcases h.order hs hs' hdistinct with ⟨before, hcause, hmem⟩ | ⟨before, hcause, hmem⟩
  · exact hcause (List.mem_flatMap.mpr ⟨_, hmem, List.mem_singleton_self _⟩)
  · exact hcause (List.mem_flatMap.mpr ⟨_, hmem, List.mem_singleton_self _⟩)

variable (N)

/-- A master executes only behind a client tag for the last challenge of this connection, and a
client succeeds only behind a master that took its tag for the same nonces. -/
theorem handshake_agreement {ρ : Type} {w : AuthWorld}
    (hreach : Relation.ReflTransGen (N.Step ρ) .init w) :
    (∀ after before conn req, w.log = after ++ .executed conn req :: before →
      ¬N.known (N.master conn).key →
      req.isHandshake = false ∧ ∃ cn sn mid pre, before = mid ++ .accepted conn cn sn :: pre ∧
        AuthEvent.latestIssued conn pre = some (cn, sn) ∧
        (∀ conn' cn', .issued conn' cn' sn ∈ w.log → conn' = conn) ∧
        ∃ client, .clientMac client (N.master conn).key cn sn (N.master conn).salt ∈ pre) ∧
    ∀ after before client key cn sn salt,
      w.log = after ++ .authenticated client key cn sn salt :: before → ¬N.known key →
      .started client cn ∈ before ∧ ∃ conn mid pre, (N.master conn).key = key ∧
        (N.master conn).salt = salt ∧ before = mid ++ .accepted conn cn sn :: pre ∧
        .clientMac client key cn sn salt ∈ pre := by
  have hj := (inv_reachable hreach).justified
  refine ⟨fun after before conn req hlog hkey => ?_,
    fun after before client key cn sn salt hlog hkey => ?_⟩
  · rw [hlog] at hj
    obtain ⟨hreq, cn, sn, hmem⟩ := hj.at_split
    obtain ⟨mid, pre, rfl, hlatest, hclient⟩ := Justified.exists_split hj.suffix.2 hmem
    refine ⟨hreq, cn, sn, mid, pre, rfl, hlatest, fun conn' cn' hissued => ?_, hclient hkey⟩
    rw [hlog] at hissued
    exact issued_unique hj hissued (List.mem_append_right _ (List.mem_cons_of_mem _
      (List.mem_append_right _ (List.mem_cons_of_mem _ (issued_of_latest hlatest)))))
  · rw [hlog] at hj
    obtain ⟨hstarted, hmaster⟩ := hj.at_split
    obtain ⟨conn, rfl, rfl, hmem⟩ := hmaster hkey
    have hbefore := hj.suffix.2
    obtain ⟨mid, pre, rfl, -, hclient⟩ := hbefore.exists_split hmem
    obtain ⟨client', hmac⟩ := hclient hkey
    -- the nonce of the client is its own, so the tag is too
    obtain ⟨_, _, rfl, hstarted'⟩ := hbefore.suffix.2.exists_split hmac
    have hsame : client' = client := started_unique hbefore
      (List.mem_append_right _ (List.mem_cons_of_mem _ (List.mem_append_right _
        (List.mem_cons_of_mem _ hstarted')))) hstarted
    subst hsame
    exact ⟨hstarted, conn, mid, _, rfl, rfl, rfl, hmac⟩

def plainNetwork : AuthNetwork where
  mac _ transcript := transcript
  deriveKey _ _ := .error "Key derivation failed"
  master _ := ⟨false, ⟨List.replicate 16 0, rfl⟩, [1]⟩
  credential _ := .secret [1]
  known key := key ≠ [1]

def nonce (b : UInt8) : AuthNonce := ⟨List.replicate authNonceLen b, List.length_replicate⟩

def zeroSalt : Salt := ⟨List.replicate 16 0, rfl⟩

def handshakeLog : List AuthEvent :=
  [.authenticated 0 [1] (nonce 1) (nonce 2) zeroSalt, .accepted 0 (nonce 1) (nonce 2),
    .clientMac 0 [1] (nonce 1) (nonce 2) zeroSalt, .issued 0 (nonce 1) (nonce 2),
    .started 0 (nonce 1)]

theorem handshake_reachable : ∃ w, Relation.ReflTransGen (plainNetwork.Step Unit) .init w ∧
    w.log = handshakeLog ∧ (w.worker 0).authenticated = true := by
  let N := plainNetwork
  let w₁ := start .init 0 (nonce 1)
  have h₁ : N.Step Unit .init w₁ := .start .init 0 (nonce 1) rfl (by decide)
  let w₂ := N.request Unit w₁ 0 (.authChallenge (nonce 1) false) (nonce 2)
  have h₂ : N.Step Unit w₁ w₂ := .request w₁ 0 _ (nonce 2) trivial (by decide)
  let w₃ := N.response w₂ 0 (.success (.authChallenge (nonce 2) zeroSalt false) : IpcResponse Unit)
  have h₃ : N.Step Unit w₂ w₃ := .response w₂ 0 _ ⟨_, rfl⟩ trivial
  let w₄ := N.request Unit w₃ 0 (.authResponse (authTranscript 0 (nonce 1) (nonce 2) zeroSalt))
    (nonce 3)
  have h₄ : N.Step Unit w₃ w₄ := by
    refine .request w₃ 0 _ (nonce 3) ?_ (by decide)
    rintro key transcript hkey rfl
    have hone : key = [1] := not_not.mp hkey
    exact Or.inl ⟨0, nonce 1, nonce 2, zeroSalt, by rw [hone]; exact List.mem_cons_self, rfl⟩
  let w₅ := N.response w₄ 0
    (.success (.authVerify (authTranscript 1 (nonce 1) (nonce 2) zeroSalt)) : IpcResponse Unit)
  have h₅ : N.Step Unit w₄ w₅ := by
    refine .response w₄ 0 _ ⟨_, rfl⟩ ?_
    rintro key transcript hkey rfl
    have hone : key = [1] := not_not.mp hkey
    exact Or.inr ⟨0, nonce 1, nonce 2, List.mem_cons_self, hone.symm, rfl⟩
  exact ⟨w₅, .tail (.tail (.tail (.tail (.single h₁) h₂) h₃) h₄) h₅, rfl, rfl⟩

/-- A request on the authenticated connection. -/
theorem handshake_agreement_plain : ∃ w, Relation.ReflTransGen (plainNetwork.Step Unit) .init w ∧
    w.log = .executed 0 (.readData 3) :: handshakeLog ∧
    (∃ cn sn mid pre, handshakeLog = mid ++ .accepted 0 cn sn :: pre ∧
      AuthEvent.latestIssued 0 pre = some (cn, sn) ∧
      ∃ client, .clientMac client [1] cn sn zeroSalt ∈ pre) ∧
    ∃ conn mid pre, handshakeLog.tail = mid ++ .accepted conn (nonce 1) (nonce 2) :: pre ∧
      .clientMac 0 [1] (nonce 1) (nonce 2) zeroSalt ∈ pre := by
  obtain ⟨w, hreach, hlog, hauth⟩ := handshake_reachable
  have hstep : plainNetwork.Step Unit w (plainNetwork.request Unit w 0 (.readData 3) (nonce 3)) :=
    .request w 0 _ (nonce 3) trivial (by rw [hlog]; decide)
  have hlog' : (plainNetwork.request Unit w 0 (.readData 3) (nonce 3)).log =
      .executed 0 (.readData 3) :: handshakeLog := by
    unfold request Worker.answer
    rw [hauth, hlog]
    rfl
  have hkey : ¬plainNetwork.known [1] := not_not.mpr rfl
  have hagree := plainNetwork.handshake_agreement (.tail hreach hstep)
  obtain ⟨-, cn, sn, mid, pre, hsplit, hlatest, -, hclient⟩ := hagree.1 [] _ 0 _ hlog' hkey
  obtain ⟨-, conn, mid', pre', -, -, hsplit', hclient'⟩ :=
    hagree.2 [.executed 0 (.readData 3)] handshakeLog.tail 0 [1] (nonce 1) (nonce 2) zeroSalt hlog'
      hkey
  exact ⟨_, .tail hreach hstep, hlog', ⟨cn, sn, mid, pre, hsplit, hlatest, hclient⟩,
    conn, mid', pre', hsplit', hclient'⟩

/-- A second challenge, which anyone can send, leaves the connection authenticated: a request is
executed though no client answered the new nonce. -/
theorem executed_after_new_challenge :
    ¬plainNetwork.known (plainNetwork.master 0).key ∧
    ∃ w before, Relation.ReflTransGen (plainNetwork.Step Unit) .init w ∧
      w.log = .executed 0 (.readData 3) :: before ∧
      AuthEvent.latestIssued 0 before = some (nonce 9, nonce 3) ∧
      ∀ client key cn salt, .clientMac client key cn (nonce 3) salt ∉ w.log := by
  obtain ⟨w, hreach, hlog, hauth⟩ := handshake_reachable
  let w₁ := plainNetwork.request Unit w 0 (.authChallenge (nonce 9) false) (nonce 3)
  have h₁ : plainNetwork.Step Unit w w₁ := .request w 0 _ (nonce 3) trivial (by rw [hlog]; decide)
  have hlog₁ : w₁.log = .issued 0 (nonce 9) (nonce 3) :: handshakeLog := by
    rw [← hlog]
    rfl
  have hauth₁ : (w₁.worker 0).authenticated = true := hauth
  have h₂ : plainNetwork.Step Unit w₁ (plainNetwork.request Unit w₁ 0 (.readData 3) (nonce 4)) :=
    .request w₁ 0 _ (nonce 4) trivial (by rw [hlog₁]; decide)
  have hlog₂ : (plainNetwork.request Unit w₁ 0 (.readData 3) (nonce 4)).log =
      .executed 0 (.readData 3) :: .issued 0 (nonce 9) (nonce 3) :: handshakeLog := by
    unfold request Worker.answer
    rw [hauth₁, hlog₁]
    rfl
  refine ⟨not_not.mpr rfl, _, _, .tail (.tail hreach h₁) h₂, hlog₂, rfl, ?_⟩
  intro client key cn salt hmem
  rw [hlog₂] at hmem
  have hnonce : nonce 2 ≠ nonce 3 := by decide
  simp [handshakeLog, hnonce.symm] at hmem

end AuthNetwork

end Oifs
