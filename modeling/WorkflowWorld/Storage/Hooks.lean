/-
The hook branches of `create` (`storage.ts`): creation, fresh or by taking the token over from
another hook, disposal and delivery.
-/
import WorkflowWorld.Storage.StartHook

namespace WorkflowWorld

open Concurrency

/-- The refusal for a `hook_received` addressed to a hook that no longer exists because another
run took its token over, or `none` when it was not taken over. -/
def forceClaimRefusal (c : Ctx) (hook : HookId) (requestToken : Option Token) : P (Option Err) := do
  let disposal : Option EventData ← sql (.selectDisposal c.key hook)
  match disposal with
  | some (.hookDisposed token (some claimedBy)) =>
    match requestToken.or token with
    | none => return some (.hookForceClaimed "" claimedBy.1 claimedBy.2)
    | some tok =>
      let successor : Option (HookKey × HookRow) ← sql (.anyHookByToken c.tenant tok)
      match successor with
      | some (k, r) => return some (.hookForceClaimed tok r.runId k.2)
      | none => return some (.hookForceClaimed tok claimedBy.1 claimedBy.2)
  | _ => return none

/-- Refuses a delivery whose hook is gone. -/
def refuseDelivery {α : Type} (c : Ctx) (hook : HookId) (requestToken : Option Token) : P α := do
  let refusal ← forceClaimRefusal c hook requestToken
  match refusal with
  | some e => throw e
  | none => throw (.hookNotFound hook)

/-! ## Creation -/

/-- `eventData` of a `hook_created` request, with its hook id. -/
structure HookCreation where
  hook : HookId
  token : Token
  force : Bool
  tokenRetentionUntil : Option Nat

namespace HookCreation

variable (c : Ctx) (q : HookCreation)

def key : HookKey := (c.tenant, q.hook)

def hookRow (claimedFrom : Option HookClaimedFrom) : HookRow :=
  { runId := c.runId
    token := q.token
    specVersion := c.specVersion
    tokenRetentionUntil := q.tokenRetentionUntil
    claimedFrom := claimedFrom
    createdBy := c.me }

/-- The `hook_created` event. -/
def created (claimedFrom : Option HookClaimedFrom) : EventValues :=
  ⟨.hookCreated, some q.hook, .hookCreated q.token q.force claimedFrom, c.specVersion⟩

/-- Translates the unique violation of a concurrent duplicate. -/
def journaledHookCreated {α : Type} (write : P α) : P α :=
  tryCatch write fun e =>
    if e = .sql (.raised .correlatedEvent) then
      throw (.entityConflict ("hook_created for correlationId \"" ++ q.hook ++
        "\" already exists in run \"" ++ c.runId ++ "\""))
    else throw e

def couldNotBeCreated (type : String) (run : RunId) : String := type ++ " for run \"" ++ run ++ "\" could not be created"

/-- The hook row and its `hook_created`, in one transaction. `none` when another hook claimed the
token first, in which case nothing was written. -/
def insertFreshHook : P (Option (Option HookRow × EventId)) :=
  tryCatch
    (q.journaledHookCreated c do
      let created ← transaction do
        deleteReleasedHooks c q.token
        let inserted : Bool ← sql (.insertHook (q.key c) (q.hookRow c none) .doNothingOnKey)
        let id ← appendEvent c c.key (q.created c none) (couldNotBeCreated "hook_created" c.runId)
        return (if inserted then some (q.hookRow c none) else none, id)
      return some created)
    fun e => if e = .sql (.raised .hookTokenClaim) then return none else throw e

def alreadyCreated : Err := .entityConflict ("Hook \"" ++ q.hook ++ "\" already created")

/-- How a creation goes on: with the event appended, with the generic insert of an orphaned row's
event, or with a `hook_conflict`. -/
inductive Outcome where
  | appended (row : Option HookRow) (id : EventId)
  | orphaned (row : Option HookRow)
  | conflict (conflictingRunId : RunId) (forceRefusedReason : Option String)

/-- A creation that lost the token's claim to a concurrent one, whose winner is visible now. -/
def answerLostClaim : P Outcome := do
  let owner : Option (HookKey × HookRow) ← sql (.getHookByToken c.tenant q.token)
  match owner with
  | none => throw (.world ("The hook token of run \"" ++ c.runId ++
      "\" changed owner while being claimed; retry") (some 503) none)
  | some (k, r) =>
    if r.runId = c.runId ∧ k.2 = q.hook then throw q.alreadyCreated
    else return .conflict r.runId none

/-- An ordinary creation. -/
def createFresh : P Outcome := do
  let created ← q.insertFreshHook c
  match created with
  | some (row, id) => return .appended row id
  | none => q.answerLostClaim c

/-! ## Takeover -/

inductive Takeover where
  | free
  | owned
  | refused (reason : String) (conflictingRunId : RunId)
  | taken (row : HookRow) (id : EventId)

/-- `select .. for update limit 1` by token: the rows of the snapshot are tried in turn, and one
that is gone when its wait is over is passed by. -/
def lockTokenHook (tenant : TenantId) (token : Token) : List HookId → P (Option (HookId × HookRow × Bool))
  | [] => return none
  | h :: hs => do
    let locked : Option (HookRow × Bool) ← sql (.lockHook (tenant, h) (some token))
    match locked with
    | some (r, retained) => return some (h, r, retained)
    | none => lockTokenHook tenant token hs

/-- The victim a new hook names, with what its wake needs if it is still running. -/
def claimedFrom (hook : HookId) (victim : HookRow) (run : Option RunRow) : HookClaimedFrom :=
  match run.filter RunRow.running with
  | none => { runId := victim.runId, hookId := hook }
  | some r =>
    { runId := victim.runId
      hookId := hook
      workflowName := some r.workflowName
      deploymentId := some r.deploymentId
      runSpecVersion := r.specVersion }

/-- The victim's `hook_disposed`. -/
def disposed (hook : HookId) (run : RunRow) : EventValues :=
  ⟨.hookDisposed, some hook, .hookDisposed (some q.token) (some (c.runId, q.hook)),
    run.specVersion.getD c.specVersion⟩

/-- Journals the end of a running victim; a finished one gets no row. -/
def disposeVictim (hook : HookId) (victim : HookRow) (run : Option RunRow) : P Unit :=
  match run.filter RunRow.running with
  | none => return
  | some r => do
    let _ ← appendEvent c (c.tenant, victim.runId) (q.disposed c hook r)
      (couldNotBeCreated "hook_disposed" victim.runId)
    return

/-- The victim is locked and is taken over: its disposal, its row's delete, our row and our
`hook_created`. -/
def takeFrom (hook : HookId) (victim : HookRow) (run : Option RunRow) : P Takeover := do
  let source := claimedFrom hook victim run
  q.disposeVictim c hook victim run
  let _ ← sql (.deleteHook (c.tenant, hook))
  let _ ← sql (.insertHook (q.key c) (q.hookRow c (some source)) .raise)
  let id ← appendEvent c c.key (q.created c (some source)) (couldNotBeCreated "hook_created" c.runId)
  return .taken (q.hookRow c (some source)) id

/-- What the locked owner of the token allows. -/
def takeLocked (hook : HookId) (victim : HookRow) (retained : Bool) (run : Option RunRow) : P Takeover :=
  if victim.runId = c.runId ∧ hook = q.hook then return .owned
  else match run with
    | some r =>
      if r.running then
        if r.specVersion.getD specVersionLegacy < specVersionSupportsHookForceClaim then
          return .refused "victim-spec-version" victim.runId
        else q.takeFrom c hook victim run
      else if !retained then return .free
      else q.takeFrom c hook victim run
    | none => q.takeFrom c hook victim run

/-- One attempt: the owner is read unlocked to learn which run row to lock, then its run row and
its hook row are locked, in that order. -/
def takeoverAttempt : P Takeover :=
  transaction do
    let candidate : Option (HookKey × HookRow) ← sql (.anyHookByToken c.tenant q.token)
    match candidate with
    | none => return .free
    | some (k, r) =>
      let victimRun : Option RunRow ← sql (.lockRun (c.tenant, r.runId))
      let hooks : List HookId ← sql (.tokenHooks c.tenant q.token)
      let locked ← lockTokenHook c.tenant q.token hooks
      match locked with
      | none => return .free
      | some (hook, victim, retained) =>
        if victim.runId ≠ r.runId ∨ hook ≠ k.2 then throw .ownerChanged
        else q.takeLocked c hook victim retained victimRun

def maxOwnerChanges : Nat := 5

/-- An attempt that is repeated when the token changed hands. -/
def attemptOr (retry : P Takeover) : P Takeover :=
  tryCatch (q.takeoverAttempt c) fun e =>
    if e = .ownerChanged ∨ e = .sql (.raised .hookTokenClaim) then retry else throw e

/-- The attempts, with the given number of owner changes left. -/
def takeover : Nat → P Takeover
  | 0 => q.attemptOr c (throw (.world ("Hook token \"" ++ q.token ++ "\" changed owner " ++
      toString (maxOwnerChanges + 1) ++ " times while being force-claimed; retry") (some 503) none))
  | left + 1 => q.attemptOr c (takeover left)

/-- A forced creation. -/
def createForced : P Outcome := do
  let takeover ← q.journaledHookCreated c (q.takeover c maxOwnerChanges)
  match takeover with
  | .free => q.createFresh c
  | .owned => throw q.alreadyCreated
  | .refused reason run => return .conflict run (some reason)
  | .taken row id => return .appended (some row) id

/-- The row of this same hook is there: a duplicate, or an orphan whose event was never written. -/
def createOwned : P Outcome := do
  let journaled : Bool ← sql (.hasEvent c.key q.hook .hookCreated)
  if journaled then throw q.alreadyCreated
  else
    let row : Option HookRow ← sql (.selectHook (q.key c))
    return .orphaned row

/-- The `hook_created` branch up to its generic insert. -/
def create : P Outcome :=
  if c.deps.isStartHookId c.runId q.hook then
    throw (.world ("Hook \"" ++ q.hook ++ "\" is the start Hook of run \"" ++ c.runId ++
      "\", created by its admission") (some 400) none)
  else do
    let existing : Option (HookKey × HookRow) ← sql (.getHookByToken c.tenant q.token)
    match existing with
    | none => q.createFresh c
    | some (k, r) =>
      if r.runId = c.runId ∧ k.2 = q.hook then q.createOwned c
      else if q.force then q.createForced c
      else return .conflict r.runId none

/-- The `hook_conflict` event. -/
def conflicted (conflictingRunId : RunId) (reason : Option String) : EventValues :=
  ⟨.hookConflict, some q.hook, .hookConflict q.token (some conflictingRunId) reason, c.specVersion⟩

end HookCreation

/-! ## Disposal and delivery -/

/-- Deletes the hook and appends its `hook_disposed`, in one transaction. -/
def disposeHook (c : Ctx) (hook : HookId) (token : Option Token) : P EventId :=
  transaction do
    let deleted : Bool ← sql (.deleteHook (c.tenant, hook))
    if deleted then
      appendEvent c c.key ⟨.hookDisposed, some hook, .hookDisposed token none, c.specVersion⟩
        ("hook_disposed for hook \"" ++ hook ++ "\" could not be created")
    else throw (.entityConflict ("Hook \"" ++ hook ++ "\" already disposed"))

def alreadyTerminal (run : RunId) (status : RunStatus) : Err :=
  .runExpired ("Workflow run \"" ++ run ++ "\" is already in terminal state \"" ++ status.name ++ "\"")

/-- Appends a delivery while the run, locked, is not terminal and the hook, locked, is there. -/
def receiveHook (c : Ctx) (hook : HookId) (token : Option Token) : P EventId :=
  transaction do
    let run : Option RunRow ← sql (.lockRun c.key)
    match run with
    | none => throw (.runNotFound c.runId)
    | some r =>
      if r.status.isTerminal then throw (alreadyTerminal c.runId r.status)
      else
        let live : Option (HookRow × Bool) ← sql (.lockHook (c.tenant, hook) none)
        match live with
        | none => refuseDelivery c hook token
        | some _ =>
          appendEvent c c.key ⟨.hookReceived, some hook, .hookReceived token, c.specVersion⟩
            ("hook_received for hook \"" ++ hook ++ "\" could not be created")

end WorkflowWorld
