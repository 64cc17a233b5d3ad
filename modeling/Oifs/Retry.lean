import Oifs.RemoteCalls

namespace Oifs

section Retries

variable {σ ρ : Type} {M : Manager σ ρ} {reportLen : ρ → Nat} {req : IpcRequest}
  {script : Nat → Attempt} {w w' : ClientWorld σ}

/-- A round that leaves the request for another one only if no master has executed it. -/
def SafeRound (M : Manager σ ρ) (reportLen : ρ → Nat) (req : IpcRequest) (w : ClientWorld σ) :
    Transport → Prop
  | .lost true err => err.isConnectionError = false
  | .lost false _ => True
  | .intact => ∀ err, (M.send reportLen req w .intact).1 = .error err →
      err.isConnectionError = false

theorem SafeRound.unchanged {t : Transport} {err : IoError} (h : SafeRound M reportLen req w t)
    (hsend : M.send reportLen req w t = (.error err, w')) (herr : err.isConnectionError = true) :
    w' = w := by
  cases t with
  | intact =>
    rw [h err (congrArg Prod.fst hsend)] at herr
    cases herr
  | lost executed err' =>
    cases executed with
    | false =>
      cases hsend
      rfl
    | true =>
      cases hsend
      rw [show err.isConnectionError = false from h] at herr
      cases herr

/-- The request is sent, or handed to a fallback, as if nobody had seen it: result and image are
those of one attempt. -/
inductive OneAttempt (M : Manager σ ρ) (reportLen : ρ → Nat) (req : IpcRequest)
    (script : Nat → Attempt) (w : ClientWorld σ) :
    Except SessionError (IpcResponseData ρ) × ClientWorld σ → Prop
  | answered (k : Nat) (data : IpcResponseData ρ) (w' : ClientWorld σ)
      (h : M.send reportLen req w (script k).transport = (.ok data, w')) :
      OneAttempt M reportLen req script w (.ok data, w')
  | failed (k : Nat) (err : IoError) (w' : ClientWorld σ)
      (h : M.send reportLen req w (script k).transport = (.error err, w')) :
      OneAttempt M reportLen req script w (.error (.remote err.text), w')
  | executed (data : IpcResponseData ρ) (b : Bool) (w' : ClientWorld σ)
      (h : M.execute req { w with fallback := b } = (.ok data, w')) :
      OneAttempt M reportLen req script w (.ok data, w')
  | refused (e : ManagerError) (b : Bool) (w' : ClientWorld σ)
      (h : M.execute req { w with fallback := b } = (.error e, w')) :
      OneAttempt M reportLen req script w (.error (.diskManager e), w')

theorem retryLoop_one {rounds : Nat} (hpos : 0 < rounds) (hle : rounds ≤ 5)
    (hsafe : ∀ k, k < 4 → SafeRound M reportLen req w (script k).transport) :
    OneAttempt M reportLen req script w (M.retryLoop reportLen req script rounds w) := by
  induction rounds with
  | zero => omega
  | succ rounds ih =>
    rw [Manager.retryLoop]
    cases hsend : M.send reportLen req w (script (4 - rounds)).transport with
    | mk r w' =>
      cases r with
      | ok data => exact .answered _ data w' hsend
      | error err =>
        dsimp only
        by_cases herr : err.isConnectionError = true
        · rw [if_pos herr]
          by_cases hlast : rounds = 0
          · rw [if_pos hlast]
            exact .failed _ err w' hsend
          · -- another round follows, and nothing has happened yet
            rw [if_neg hlast]
            have hsame := (hsafe (4 - rounds) (by omega)).unchanged hsend herr
            subst hsame
            cases (script (4 - rounds)).reopened with
            | failed | remote => exact ih (by omega) (by omega)
            | direct =>
              dsimp only
              cases hexec : M.execute req { w' with fallback := true } with
              | mk r w'' =>
                cases r with
                | ok data => exact .executed data true w'' hexec
                | error e => exact .refused e true w'' hexec
        · rw [if_neg herr]
          exact .failed _ err w' hsend

theorem sendRequest_one
    (hsafe : ∀ k, k < 4 → SafeRound M reportLen req w (script k).transport) :
    OneAttempt M reportLen req script w (M.sendRequest reportLen req script w) := by
  unfold Manager.sendRequest
  split
  next hfallback =>
    have hself : { w with fallback := w.fallback } = w := rfl
    cases hexec : M.execute req w with
    | mk r w' =>
      cases r with
      | ok data => exact .executed data w.fallback w' hexec
      | error e => exact .refused e w.fallback w' hexec
  next => exact retryLoop_one (by decide) (by decide) hsafe

theorem execute_executed (M : Manager σ ρ) (req : IpcRequest) (w : ClientWorld σ) :
    (M.execute req w).2.executed = req :: w.executed := by
  unfold Manager.execute
  split <;> rfl

theorem send_executed (M : Manager σ ρ) (reportLen : ρ → Nat) (req : IpcRequest)
    (w : ClientWorld σ) (t : Transport) :
    (M.send reportLen req w t).2 = w ∨ (M.send reportLen req w t).2 = (M.execute req w).2 := by
  cases t with
  | lost executed err =>
    cases executed with
    | false => exact Or.inl rfl
    | true => exact Or.inr rfl
  | intact =>
    rw [Manager.send]
    split
    next => exact Or.inl rfl
    next =>
      right
      cases M.execute req w with
      | mk r w' =>
        cases r with
        | ok data =>
          dsimp only
          split <;> rfl
        | error e =>
          dsimp only
          split <;> rfl

theorem OneAttempt.executed_le {x : Except SessionError (IpcResponseData ρ) × ClientWorld σ}
    (h : OneAttempt M reportLen req script w x) :
    x.2.executed = w.executed ∨ x.2.executed = req :: w.executed := by
  have hsent : ∀ k r w', M.send reportLen req w (script k).transport = (r, w') →
      w'.executed = w.executed ∨ w'.executed = req :: w.executed := by
    intro k r w' hk
    have hw : w' = (M.send reportLen req w (script k).transport).2 := by rw [hk]
    rcases send_executed M reportLen req w (script k).transport with heq | heq
    · exact Or.inl (by rw [hw, heq])
    · exact Or.inr (by rw [hw, heq, execute_executed])
  have hran : ∀ b r w', M.execute req { w with fallback := b } = (r, w') →
      w'.executed = req :: w.executed := by
    intro b r w' hb
    have hexec := execute_executed M req { w with fallback := b }
    rwa [hb] at hexec
  cases h with
  | answered k data w' hk => exact hsent k _ w' hk
  | failed k err w' hk => exact hsent k _ w' hk
  | executed data b w' hb => exact Or.inr (hran b _ w' hb)
  | refused e b w' hb => exact Or.inr (hran b _ w' hb)

/-- Retrying may execute the request several times, and nothing else. -/
theorem retryLoop_executed (rounds : Nat) (w : ClientWorld σ) :
    ∃ n, (M.retryLoop reportLen req script rounds w).2.executed =
      List.replicate n req ++ w.executed := by
  induction rounds generalizing w with
  | zero => exact ⟨0, rfl⟩
  | succ rounds ih =>
    obtain ⟨n, hn⟩ : ∃ n, (M.send reportLen req w (script (4 - rounds)).transport).2.executed =
        List.replicate n req ++ w.executed := by
      rcases send_executed M reportLen req w (script (4 - rounds)).transport
        with heq | heq
      · exact ⟨0, by rw [heq]; rfl⟩
      · exact ⟨1, by rw [heq, execute_executed]; rfl⟩
    rw [Manager.retryLoop]
    cases hsend : M.send reportLen req w (script (4 - rounds)).transport with
    | mk r w' =>
      rw [hsend] at hn
      cases r with
      | ok data => exact ⟨n, hn⟩
      | error err =>
        dsimp only
        split
        next =>
          split
          next => exact ⟨n, hn⟩
          next =>
            have hagain : ∃ m, (M.retryLoop reportLen req script rounds w').2.executed =
                List.replicate m req ++ w.executed := by
              obtain ⟨m, hm⟩ := ih w'
              refine ⟨m + n, ?_⟩
              rw [hm, hn, ← List.append_assoc, List.replicate_append_replicate]
            cases (script (4 - rounds)).reopened with
            | failed | remote => exact hagain
            | direct =>
              refine ⟨n + 1, ?_⟩
              have hexec := execute_executed M req { w' with fallback := true }
              dsimp only at hexec hn ⊢
              rw [List.replicate_succ, List.cons_append, ← hn, ← hexec]
              cases M.execute req { w' with fallback := true } with
              | mk r w'' =>
                cases r with
                | ok data => rfl
                | error e => rfl
        next => exact ⟨n, hn⟩

def IpcRequest.isMutating : IpcRequest → Bool
  | .createFile .. | .createDirectory .. | .writeData .. | .deleteFile .. | .truncate .. => true
  | _ => false

theorem isMutating_request (c : SimpleCall) : c.request.isMutating = c.isMutating := by
  cases c <;> rfl

def retryRun (M : Manager σ ρ) (reportLen : ρ → Nat) : List (SimpleCall × (Nat → Attempt)) →
    ClientWorld σ → List (Except SessionError CallValue) × ClientWorld σ
  | [], w => ([], w)
  | (c, script) :: calls, w =>
    let (r, w) := c.remote M reportLen script w
    let (rs, w) := retryRun M reportLen calls w
    (r :: rs, w)

/-- Every round but the last one of every mutating call is safe in the world before the call. -/
def SafeRetries (M : Manager σ ρ) (reportLen : ρ → Nat) :
    List (SimpleCall × (Nat → Attempt)) → ClientWorld σ → Prop
  | [], _ => True
  | (c, script) :: calls, w =>
    (c.isMutating = true → ∀ k, k < 4 → SafeRound M reportLen c.request w (script k).transport) ∧
      SafeRetries M reportLen calls (c.remote M reportLen script w).2

/-- Every mutating call ends as one attempt on the image before it. -/
def EachOneAttempt (M : Manager σ ρ) (reportLen : ρ → Nat) :
    List (SimpleCall × (Nat → Attempt)) → ClientWorld σ → Prop
  | [], _ => True
  | (c, script) :: calls, w =>
    (c.isMutating = true →
      OneAttempt M reportLen c.request script w (M.sendRequest reportLen c.request script w)) ∧
      EachOneAttempt M reportLen calls (c.remote M reportLen script w).2

theorem remote_world (c : SimpleCall) :
    (c.remote M reportLen script w).2 = (M.sendRequest reportLen c.request script w).2 := by
  unfold SimpleCall.remote
  cases M.sendRequest reportLen c.request script w with
  | mk r w' =>
    cases r with
    | ok data => rfl
    | error e => rfl

theorem sendRequest_executed :
    ∃ n, (M.sendRequest reportLen req script w).2.executed = List.replicate n req ++ w.executed := by
  unfold Manager.sendRequest
  split
  next =>
    refine ⟨1, ?_⟩
    have hexec := execute_executed M req w
    cases hx : M.execute req w with
    | mk r w' =>
      rw [hx] at hexec
      cases r with
      | ok data => exact hexec
      | error e => exact hexec
  next => exact retryLoop_executed 5 w

/-- In a run with safe rounds every mutating call is executed at most once, in order, and reports
the outcome of a single attempt. -/
theorem mutating_calls_execute_once {calls : List (SimpleCall × (Nat → Attempt))}
    (hsafe : SafeRetries M reportLen calls w) :
    EachOneAttempt M reportLen calls w ∧
      ∃ kept : List IpcRequest, kept.Sublist ((calls.filter (·.1.isMutating)).map (·.1.request)) ∧
        (retryRun M reportLen calls w).2.executed.filter IpcRequest.isMutating =
          kept.reverse ++ w.executed.filter IpcRequest.isMutating := by
  induction calls generalizing w with
  | nil => exact ⟨trivial, [], .slnil, rfl⟩
  | cons call calls ih =>
    obtain ⟨c, script⟩ := call
    obtain ⟨hone, hrest⟩ := hsafe
    obtain ⟨heach, kept, hkept, hexecuted⟩ := ih hrest
    refine ⟨⟨fun hc => sendRequest_one (hone hc), heach⟩, ?_⟩
    rw [remote_world] at hexecuted
    have hlast : (retryRun M reportLen ((c, script) :: calls) w).2 =
        (retryRun M reportLen calls (c.remote M reportLen script w).2).2 := rfl
    rw [hlast, remote_world]
    cases hc : c.isMutating with
    | false =>
      obtain ⟨n, hn⟩ := sendRequest_executed (M := M) (w := w)
      refine ⟨kept, by simpa [hc] using hkept, hexecuted.trans ?_⟩
      rw [hn, List.filter_append, List.filter_replicate, isMutating_request, hc]
      rfl
    | true =>
      have hmutating : c.request.isMutating = true := by rw [isMutating_request, hc]
      rcases (sendRequest_one (hone hc)).executed_le with heq | heq
      · refine ⟨kept, ?_, by rw [hexecuted, heq]⟩
        simpa [hc] using hkept.cons c.request
      · refine ⟨c.request :: kept, by simpa [hc] using hkept, ?_⟩
        rw [hexecuted, heq, List.filter_cons_of_pos hmutating, List.reverse_cons, List.append_assoc]
        rfl

end Retries

def masterLost : Nat → Attempt
  | 0 => ⟨.lost false ⟨.brokenPipe, "Broken pipe"⟩, .remote⟩
  | _ => ⟨.intact, .failed⟩

def createdOnce : List (SimpleCall × (Nat → Attempt)) := [(.createFile 0 "a", masterLost)]

theorem createdOnce_safe :
    SafeRetries plainManager (fun _ => 0) createdOnce ⟨freshImage, false, []⟩ := by
  have hok : (plainManager.send (fun _ => 0) (.createFile 0 "a")
      ⟨freshImage, false, []⟩ .intact).1.isOk = true := by decide +kernel
  refine ⟨?_, trivial⟩
  intro _ k _
  cases k with
  | zero => exact trivial
  | succ k =>
    intro err herr
    dsimp only [SimpleCall.request] at herr
    rw [herr] at hok
    cases hok

theorem mutating_calls_execute_once_created :
    ∃ kept : List IpcRequest,
      kept.Sublist ((createdOnce.filter (·.1.isMutating)).map (·.1.request)) ∧
        (retryRun plainManager (fun _ => 0) createdOnce
          ⟨freshImage, false, []⟩).2.executed.filter IpcRequest.isMutating = kept.reverse ++ [] :=
  (mutating_calls_execute_once createdOnce_safe).2

def replyLost : Nat → Attempt
  | 0 => ⟨.lost true ⟨.unexpectedEof, "failed to fill whole buffer"⟩, .remote⟩
  | _ => ⟨.intact, .failed⟩

def SessionError.text : SessionError → String
  | .remote text => text
  | .diskManager e => e.text
  | .unexpectedResponse => ""

def failureText {α : Type} : Except SessionError α → Option String
  | .error e => some e.text
  | .ok _ => none

/-- The retry of a creation whose reply was lost executes it again, and the caller is told that the
file is there already. -/
theorem create_executed_twice :
    (plainManager.execute (.createFile 0 "a")
      ⟨freshImage, false, []⟩).1.isOk = true ∧
    ((SimpleCall.createFile 0 "a").remote plainManager (fun _ => 0)
      replyLost ⟨freshImage, false, []⟩).2.executed = [.createFile 0 "a", .createFile 0 "a"] ∧
    failureText ((SimpleCall.createFile 0 "a").remote plainManager
      (fun _ => 0) replyLost ⟨freshImage, false, []⟩).1 =
        some "IO error: File 'a' already exists" := by
  decide +kernel

end Oifs
