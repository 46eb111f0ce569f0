/-
Start Hook admission (`start-hook.ts`): the decision for a candidate run, taken inside the
transaction that would create the run.
-/
import WorkflowWorld.Storage.EventLog

namespace WorkflowWorld

open Concurrency

inductive StartHookDecision where
  | accepted (replayed : Bool)
  | rejected (conflictingRunId : RunId)
  | ordinary
  deriving DecidableEq

/-- `START_HOOK_ADMISSION_REJECTED`, by the reason a permanent refusal carries. -/
def startHookAdmissionRejected (message reason : String) : Err := .world message (some 400) (some reason)

/-- `runStartHook` and `admittedStartHook`: the start Hook as the run row and its `run_created` name
it. -/
def Deps.admittedStartHook (D : Deps) (run : RunId) (h : StartHook) : RunStartHook :=
  ⟨h.token, h.tokenRetentionUntil, D.startHookId run⟩

def retentionLimitMessage (D : Deps) : String :=
  "Hook minimum retention cannot exceed " ++ toString (D.hookRetentionLimitMs / 86400000) ++
    " days in the Postgres World."

/-- Throws the permanent refusal of a retention past the World's limit. -/
def assertStartHookAdmissible (D : Deps) (h : StartHook) : P Unit :=
  match h.tokenRetentionUntil with
  | none => return
  | some u => do
    let now ← clock
    if u > now + D.hookRetentionLimitMs then
      throw (startHookAdmissionRejected (retentionLimitMessage D) "invalid")
    else return

def startHookCandidateExpired (run : RunId) : Err :=
  startHookAdmissionRejected
    ("Workflow run \"" ++ run ++ "\" is too old to be admitted with a start Hook") "expired"

/-- The decision recorded for the candidate, if any. -/
def recordedDecision (c : Ctx) (h : StartHook) : P (Option StartHookDecision) := do
  let existing : Option AdmissionRow ← sql (.selectAdmission c.key)
  match existing with
  | none => return none
  | some a =>
    if a.token ≠ h.token then
      throw (startHookAdmissionRejected ("Workflow run \"" ++ c.runId ++
        "\" was already admitted with a different start Hook token") "token_mismatch")
    else match a.decision with
      | .accepted => return some (.accepted true)
      | .rejected r => return some (.rejected r)

/-- The answer of a decision this attempt records itself. -/
def Decision.decided : Decision → StartHookDecision
  | .accepted => .accepted false
  | .rejected r => .rejected r

def decidedByAnotherWrite (run : RunId) : Err :=
  .world ("Workflow run \"" ++ run ++ "\" was decided by another write while being admitted; retry")
    (some 503) none

/-- Records the decision, unless the other copy of this candidate recorded one first. An
acceptance that loses to a refusal must not commit. -/
def recordDecision (c : Ctx) (h : StartHook) (decision : Decision) : P StartHookDecision := do
  let inserted : Bool ← sql (.insertAdmission c.key h.token decision c.me)
  if inserted then return decision.decided
  else
    let recorded ← recordedDecision c h
    match recorded with
    | none => throw (decidedByAnotherWrite c.runId)
    | some r =>
      if decision = .accepted ∧ r ≠ .accepted true then throw (decidedByAnotherWrite c.runId)
      else return r

/-- Deletes a bounded batch of decisions older than every candidate window. -/
def deleteExpiredDecisions (D : Deps) : P Unit := do
  let now ← clock
  sql (.deleteExpiredDecisions (now - D.startHookCandidateMaxAgeMs - 3600000))

/-- Deletes the token's rows whose run ended and whose retention passed. -/
def deleteReleasedHooks (c : Ctx) (token : Token) : P Unit := do
  let released : List HookKey ← sql (.releasedHooks c.tenant token)
  sql (.deleteReleased c.tenant token released)

def Ctx.startHookRow (c : Ctx) (h : StartHook) : HookRow :=
  { runId := c.runId
    token := h.token
    specVersion := c.specVersion
    tokenRetentionUntil := h.tokenRetentionUntil
    createdBy := c.me }

/-- Inserts the start Hook, unless another run still holds the token. -/
def claimStartHook (c : Ctx) (h : StartHook) : P (Option RunId × Bool) := do
  let owner : Option RunId ← sql (.findActiveTokenOwner c.tenant h.token c.runId)
  match owner with
  | some _ => return (owner, false)
  | none =>
    let won : Bool ← sql (.insertHook (c.tenant, c.deps.startHookId c.runId) (c.startHookRow h) .doNothing)
    return (none, won)

/-- The owner found before, or the one that holds the token now. -/
def conflictingRun (c : Ctx) (h : StartHook) : Option RunId → P (Option RunId)
  | some o => return some o
  | none => sql (.findActiveTokenOwner c.tenant h.token c.runId)

/-- Another claim committed first: the other copy of this candidate, or another run. -/
def refuseCandidate (c : Ctx) (h : StartHook) (owner : Option RunId) : P StartHookDecision := do
  let raced ← recordedDecision c h
  match raced with
  | some r => return r
  | none =>
    let conflicting ← conflictingRun c h owner
    match conflicting with
    | none => throw (.world ("The start Hook token of candidate \"" ++ c.runId ++
        "\" changed owner while being admitted; retry") (some 503) none)
    | some o => recordDecision c h (.rejected o)

/-- A candidate with no decision and no run. -/
def admitCandidate (c : Ctx) (h : StartHook) : P StartHookDecision := do
  deleteExpiredDecisions c.deps
  deleteReleasedHooks c h.token
  let claim ← claimStartHook c h
  if claim.2 then recordDecision c h .accepted else refuseCandidate c h claim.1

/-- A candidate with no decision yet. -/
def decideNewCandidate (c : Ctx) (h : StartHook) : P StartHookDecision := do
  let now ← clock
  if (c.deps.ulidToDate c.runId).any fun τ => τ + c.deps.startHookCandidateMaxAgeMs < now then
    throw (startHookCandidateExpired c.runId)
  else
    let run : Option RunRow ← sql (.selectRun c.key)
    if run.isSome then return .ordinary else admitCandidate c h

/-- Decides admission inside the transaction that would create the run. -/
def decideStartHookAdmission (c : Ctx) (h : StartHook) : P StartHookDecision := do
  let recorded ← recordedDecision c h
  match recorded with
  | some r => return r
  | none => decideNewCandidate c h

/-- The run's rows; with a start Hook the candidate is decided first, and only a fresh acceptance
creates it. The decision is returned too. -/
def insertAdmittedRun (c : Ctx) (row : RunRow) (data : EventData) (startHook : Option StartHook) :
    P (Option (RunRow × EventId) × Option StartHookDecision) :=
  match startHook with
  | none => do
    let created ← insertRunRow c row data
    return (created, none)
  | some h => do
    let decision ← decideStartHookAdmission c h
    if decision = .accepted false then
      let created ← insertRunRow c row data
      return (created, some decision)
    else return (none, some decision)

/-- Creates a run together with its `run_created`, in one transaction. -/
def insertRunWithCreatedEvent (c : Ctx) (row : RunRow) (data : EventData) (startHook : Option StartHook) :
    P (Option (RunRow × EventId) × Option StartHookDecision) :=
  transaction (insertAdmittedRun c row data startHook)

end WorkflowWorld
