/-
`events.create` (`storage.ts`): validation against the run, the entity change of each event type,
the append of its event, and the in-band fence around all of it. Event pages of the response and
payload columns are left out, and so is the resolution of a new run's retention class.
-/
import WorkflowWorld.Storage.Hooks

namespace WorkflowWorld

open Concurrency

/-- What the validation reads of a run. -/
structure CurrentRun where
  status : RunStatus
  specVersion : Option Nat

def getRunForValidation (k : RunKey) : P (Option CurrentRun) := do
  let run : Option RunRow ← sql (.selectRun k)
  return run.map fun r => ⟨r.status, r.specVersion⟩

/-- The insert at the end of `create`. A correlated duplicate is a conflict where the type is
deduplicated. -/
def journal (c : Ctx) (v : EventValues) (dedup : Bool) : P EventId :=
  tryCatch
    (appendEvent c c.key v (HookCreation.couldNotBeCreated v.type.name c.runId))
    fun e =>
      if dedup ∧ e = .sql (.raised .correlatedEvent) then
        throw (.entityConflict (v.type.name ++ " for correlationId \"" ++ v.correlationId.getD "undefined" ++
          "\" already exists in run \"" ++ c.runId ++ "\""))
      else throw e

def validateAttributes (D : Deps) (changes : List AttributeChange) (existing : List String)
    (allowReserved : Bool) : P Unit :=
  match D.validateAttributeChanges changes existing allowReserved with
  | none => return
  | some message => throw (.attributeValidation message)

/-! ## Creating a run -/

namespace RunInput

/-- The creating changes of `attributes`. -/
def changes (i : RunInput) : List AttributeChange := i.attributes.map fun a => ⟨a.1, some a.2⟩

/-- A resilient start carries all that creating the run needs. -/
def complete (i : RunInput) : Bool := i.deploymentId ≠ "" && i.workflowName ≠ "" && i.input.isSome

def row (i : RunInput) (c : Ctx) : RunRow :=
  { deploymentId := i.deploymentId
    workflowName := i.workflowName
    specVersion := some c.specVersion
    status := .pending
    attributes := i.attributes
    startHook := i.startHook.map (c.deps.admittedStartHook c.runId)
    createdBy := c.me }

def created (i : RunInput) (c : Ctx) : EventData :=
  .runCreated i.deploymentId i.workflowName i.attributes (i.startHook.map (c.deps.admittedStartHook c.runId))

/-- The creation shared by `run_created` and a resilient `run_started`; a refusal is thrown only
now, when it has committed. -/
def create (i : RunInput) (c : Ctx) : P (Option (RunRow × EventId)) := do
  validateAttributes c.deps i.changes [] i.allowReservedAttributes
  let inserted ← insertRunWithCreatedEvent c (i.row c) (i.created c) i.startHook
  match i.startHook, inserted.2 with
  | some h, some (.rejected r) => throw (.hookConflict h.token r)
  | _, _ => return inserted.1

end RunInput

/-- The run of a start Hook candidate that was admitted before, or created without one. -/
def answerExistingRun (c : Ctx) : P EventResult := do
  let run : Option RunRow ← sql (.selectRun c.key)
  let event : Option EventRow ← sql (.selectRunCreated c.key)
  match run, event with
  | some r, some e => return { eventId := some e.id, run := some r }
  | _, _ => throw (.runNotFound c.runId)

/-- `run_created`. -/
def createRun (c : Ctx) (i : RunInput) : P EventResult := do
  let created ← i.create c
  match created with
  | some (run, id) => return { eventId := some id, run := some run }
  | none =>
    if i.startHook.isSome then answerExistingRun c
    else throw (.entityConflict ("Workflow run \"" ++ c.runId ++ "\" already exists"))

/-- A `run_started` for a run that does not exist creates it first. -/
def resilientStart (c : Ctx) (i : RunInput) : P (Option CurrentRun) := do
  let created ← i.create c
  match created with
  | some _ => return some ⟨.pending, some c.specVersion⟩
  | none => getRunForValidation c.key

/-- The run the event is validated against. -/
def readCurrentRun (c : Ctx) (e : EventReq) : P (Option CurrentRun) :=
  match e with
  | .runCreated _ | .stepCompleted _ | .stepRetrying _ _ => return none
  | .runStarted (some i) => do
    let run ← getRunForValidation c.key
    match run with
    | some r => return some r
    | none => if i.complete then resilientStart c i else return none
  | _ => getRunForValidation c.key

/-! ## Run transitions -/

/-- The row of a run that was running when it was validated. -/
def readRunning (c : Ctx) (current : Option CurrentRun) : P (Option RunRow) :=
  if current.any fun r => r.status = .running then sql (.selectRun c.key) else return none

/-- `run_started`. A run that is running already is returned as it is. -/
def startRun (c : Ctx) (now : Nat) (current : Option CurrentRun) : P EventResult := do
  let running ← readRunning c current
  match running with
  | some r => return { run := some r }
  | none =>
    let updated : Option RunRow ← sql (.startRun c.key now c.me)
    let id ← journal c ⟨.runStarted, none, .absent, c.specVersion⟩ false
    return { eventId := some id, run := updated }

def cannotTransition (status : RunStatus) : Err :=
  .entityConflict ("Cannot transition run from terminal state \"" ++ status.name ++ "\"")

/-- The guarded update of a terminal event; no row updated is explained by a second read. -/
def settleRun (c : Ctx) (status : RunStatus) (now : Nat) : P (Option RunRow) := do
  let updated : Option RunRow ← sql (.finishRun c.key status now)
  match updated with
  | some r => return some r
  | none =>
    let existing ← getRunForValidation c.key
    match existing with
    | none => throw (.runNotFound c.runId)
    | some r => if r.status.isTerminal then throw (cannotTransition r.status) else return none

/-- Deletes the run's hooks and waits. -/
def releaseRun (c : Ctx) (all : Bool) : P Unit := do
  let hooks : List HookKey ← sql (.runHooks c.key all)
  sql (.deleteRunHooks c.key all hooks)
  let waits : List WaitKey ← sql (.runWaits c.key)
  sql (.deleteWaits c.key waits)

/-- `run_completed`, `run_failed`, `run_cancelled`. -/
def finishRun (c : Ctx) (type : EventType) (status : RunStatus) (now : Nat) : P EventResult := do
  let run ← settleRun c status now
  releaseRun c false
  let id ← journal c ⟨type, none, .absent, c.specVersion⟩ false
  return { eventId := some id, run := run }

/-- `run_cancelled` on a run that is cancelled already still records its event. -/
def cancelAgain (c : Ctx) : P EventResult := do
  let run : Option RunRow ← sql (.selectRun c.key)
  let id ← appendEvent c c.key ⟨.runCancelled, none, .absent, c.specVersion⟩
    (HookCreation.couldNotBeCreated "run_cancelled" c.runId)
  return { eventId := some id, run := run }

/-- A correlated workflow write that is in the log already. -/
def attributesJournaled (c : Ctx) (byWorkflow : Bool) : Option CorrId → P Bool
  | some id => if byWorkflow then sql (.hasEvent c.key id .attrSet) else return false
  | none => return false

/-- `attr_set`. -/
def setAttributes (c : Ctx) (id : Option CorrId) (changes : List AttributeChange)
    (byWorkflow allowReserved : Bool) : P EventResult := do
  let duplicate ← attributesJournaled c byWorkflow id
  if duplicate then throw (.entityConflict ("attr_set for correlationId \"" ++ id.getD "" ++
    "\" already exists in run \"" ++ c.runId ++ "\""))
  else
    let existing : Option RunRow ← sql (.selectRun c.key)
    match existing with
    | none => throw (.runNotFound c.runId)
    | some r =>
      validateAttributes c.deps changes (r.attributes.map (·.1)) allowReserved
      let updated : Option RunRow ← sql (.setAttributes c.key changes c.deps.attributeMaxPerRun)
      match updated with
      | none =>
        let still : Option RunRow ← sql (.selectRun c.key)
        match still with
        | none => throw (.runNotFound c.runId)
        | some _ => throw (.attributeValidation ("Run attribute count would exceed limit " ++
            toString c.deps.attributeMaxPerRun))
      | some run =>
        let event ← journal c ⟨.attrSet, id, .attrSet changes, c.specVersion⟩ byWorkflow
        return { eventId := some event, run := some run }

/-! ## Steps and waits -/

def stepNotFound (step : StepId) : Err := .world ("Step \"" ++ step ++ "\" not found") none none

def stepIsTerminal (status : StepStatus) : Err :=
  .entityConflict ("Cannot modify step in terminal state \"" ++ status.name ++ "\"")

def stepAlreadyCreated (step : StepId) : Err := .entityConflict ("Step \"" ++ step ++ "\" already created")

/-- A guarded step update that changed no row is explained by a second read. -/
def explainStep (c : Ctx) (step : StepId) (updated : Option StepRow) : P (Option StepRow) :=
  match updated with
  | some r => return some r
  | none => do
    let existing : Option StepRow ← sql (.selectStep (c.tenant, step) c.runId)
    match existing with
    | none => throw (stepNotFound step)
    | some r => if r.status.isTerminal then throw (stepIsTerminal r.status) else return none

def newStep (c : Ctx) (name : String) : StepRow := { runId := c.runId, stepName := name, specVersion := c.specVersion }

/-- `step_created`. -/
def createStep (c : Ctx) (step : StepId) (name : String) : P EventResult := do
  let inserted : Bool ← sql (.insertStep (c.tenant, step) (newStep c name))
  let id ← journal c ⟨.stepCreated, some step, .step (some name) none, c.specVersion⟩ true
  return { eventId := some id, step := if inserted then some (newStep c name) else none }

/-- The row of a lazily started step, and its `step_created` unless the start stands for it. A
correlated duplicate of that event is passed over. -/
def createStepLazily (c : Ctx) (step : StepId) (name : String) (startCreatesStep : Bool) : P Unit := do
  let inserted : Bool ← sql (.insertStep (c.tenant, step) (newStep c name))
  if inserted then
    if startCreatesStep then return
    else
      tryCatch
        (do
          let _ ← tryAppend c c.key ⟨.stepCreated, some step, .step (some name) none, c.specVersion⟩
          return)
        fun e => if e = .sql (.raised .correlatedEvent) then return else throw e
  else throw (stepAlreadyCreated step)

/-- `ownerRecheckSeconds`. -/
def ownerRecheckSeconds (startedAt : Option Nat) (now : Nat) : Nat :=
  match startedAt with
  | none => 30
  | some s => min 300 (max 30 ((now - s + 9999) / 10000))

/-- The delivery another message started the step under. -/
def StepRow.ownedByAnother (r : StepRow) (owner : Option MessageId) : Option MessageId :=
  if r.status = .running ∧ r.ownerMessageId ≠ owner then r.ownerMessageId else none

/-- A running step keeps its owner while that delivery is in flight. -/
def awaitOwner (c : Ctx) (step : StepId) (owner : Option MessageId) (now : Nat) : P Unit := do
  let current : Option StepRow ← sql (.lockStep (c.tenant, step) c.runId)
  match current with
  | none => return
  | some r =>
    match r.ownedByAnother owner with
    | none => return
    | some m =>
      let inFlight : Bool ← sql (.deliveryInFlight m)
      if inFlight then
        throw (.tooEarly ("Cannot start step \"" ++ step ++ "\": the delivery running it is still in flight")
          (ownerRecheckSeconds r.startedAt now))
      else return

/-- A retried step may be scheduled for later. -/
def awaitRetry (step : StepId) (retryAfter : Option Nat) : P Unit :=
  match retryAfter with
  | none => return
  | some u => do
    let now ← clock
    if u > now then
      let later ← clock
      throw (.tooEarly ("Cannot start step \"" ++ step ++ "\": retryAfter timestamp has not been reached yet")
        ((u - later + 999) / 1000))
    else return

/-- What comes before a step's start: its lazy creation, or the wait for the owner of a running
step. -/
def prepareStep (c : Ctx) (step : StepId) (createsStep : Option String) (owner : Option MessageId) (now : Nat)
    (startCreatesStep : Bool) : Option StepRow → P Unit
  | some r => if (r.ownedByAnother owner).isSome then awaitOwner c step owner now else return
  | none =>
    match createsStep with
    | some name => createStepLazily c step name startCreatesStep
    | none => return

/-- `step_started`: the step's update and its event, in one transaction. -/
def startStep (c : Ctx) (step : StepId) (createsStep : Option String) (owner : Option MessageId) (now : Nat)
    (startCreatesStep : Bool) (validated : Option StepRow) : P EventResult :=
  transaction do
    prepareStep c step createsStep owner now startCreatesStep validated
    awaitRetry step (validated.bind (·.retryAfter))
    let updated : Option StepRow ← sql (.startStep (c.tenant, step) c.runId owner now)
    let row ← explainStep c step updated
    let id ← appendEvent c c.key ⟨.stepStarted, some step, .step createsStep owner, c.specVersion⟩
      ("step_started for step \"" ++ step ++ "\" could not be created")
    return { eventId := some id, step := row, stepCreated := createsStep.isSome && validated.isNone }

/-- `step_completed` and `step_failed`. -/
def finishStep (c : Ctx) (type : EventType) (step : StepId) (status : StepStatus) (now : Nat) : P EventResult := do
  let updated : Option StepRow ← sql (.finishStep (c.tenant, step) c.runId status now c.me)
  let row ← explainStep c step updated
  let id ← journal c ⟨type, some step, .absent, c.specVersion⟩ false
  return { eventId := some id, step := row }

/-- `step_retrying`. -/
def retryStep (c : Ctx) (step : StepId) (retryAfter : Option Nat) : P EventResult := do
  let updated : Option StepRow ← sql (.retryStep (c.tenant, step) c.runId retryAfter)
  let row ← explainStep c step updated
  let id ← journal c ⟨.stepRetrying, some step, .absent, c.specVersion⟩ false
  return { eventId := some id, step := row }

/-- The step a `step_started` or `step_retrying` is validated against. -/
def validateStep (c : Ctx) (current : Option CurrentRun) (step : StepId) (isLazy : Bool) : P (Option StepRow) := do
  let existing : Option StepRow ← sql (.selectStep (c.tenant, step) c.runId)
  match existing with
  | none => if isLazy then return none else throw (stepNotFound step)
  | some r =>
    if isLazy then throw (stepAlreadyCreated step)
    else if r.status.isTerminal then throw (stepIsTerminal r.status)
    else match current with
      | none => return some r
      | some run =>
        if run.status.isTerminal ∧ r.status ≠ .running then
          throw (.runExpired ("Cannot modify non-running step on run in terminal state \"" ++ run.status.name ++ "\""))
        else return some r

def Ctx.waitKey (c : Ctx) (wait : CorrId) : WaitKey := (c.tenant, c.runId ++ "-" ++ wait)

/-- `wait_created`. -/
def createWait (c : Ctx) (wait : CorrId) (resumeAt : Option Nat) : P EventResult := do
  let row : WaitRow := { runId := c.runId, resumeAt := resumeAt, specVersion := c.specVersion }
  let inserted : Bool ← sql (.insertWait (c.waitKey wait) row)
  if inserted then
    let id ← journal c ⟨.waitCreated, some wait, .wait resumeAt, c.specVersion⟩ true
    return { eventId := some id, wait := some row }
  else throw (.entityConflict ("Wait \"" ++ wait ++ "\" already exists"))

/-- The guarded update of `wait_completed`; no row updated is explained by a second read. -/
def settleWait (c : Ctx) (wait : CorrId) (now : Nat) : P (Option WaitRow) := do
  let updated : Option WaitRow ← sql (.completeWait (c.waitKey wait) now)
  match updated with
  | some r => return some r
  | none =>
    let existing : Option WaitRow ← sql (.selectWait (c.waitKey wait))
    match existing with
    | none => throw (.world ("Wait \"" ++ wait ++ "\" not found") none none)
    | some r =>
      if r.status = .completed then throw (.entityConflict ("Wait \"" ++ wait ++ "\" already completed"))
      else return none

/-- `wait_completed`. -/
def completeWait (c : Ctx) (wait : CorrId) (now : Nat) : P EventResult := do
  let row ← settleWait c wait now
  let id ← journal c ⟨.waitCompleted, some wait, .absent, c.specVersion⟩ false
  return { eventId := some id, wait := row }

/-! ## Hooks -/

/-- `hook_created`. -/
def createHook (c : Ctx) (q : HookCreation) : P EventResult := do
  let outcome ← q.create c
  match outcome with
  | .appended row id => return { eventId := some id, hook := row }
  | .orphaned row =>
    let id ← journal c (q.created c none) true
    return { eventId := some id, hook := row }
  | .conflict run reason =>
    let id ← appendEvent c c.key (q.conflicted c run reason) (HookCreation.couldNotBeCreated "hook_conflict" c.runId)
    return { eventId := some id }

/-- `hook_disposed` and `hook_received` of a hook whose row is gone when the request arrives are
refused; the read is not locked. -/
def assertHookExists (c : Ctx) (hook : HookId) (delivery : Option (Option Token)) : P Unit := do
  let existing : Option HookRow ← sql (.selectHook (c.tenant, hook))
  match existing with
  | some _ => return
  | none =>
    match delivery with
    | some token => refuseDelivery c hook token
    | none => throw (.hookNotFound hook)

/-! ## Legacy runs -/

/-- The append of a legacy run's event, under a ULID whatever the run's log holds. -/
def insertLegacyEvent (c : Ctx) (ulid : Nat) (v : EventValues) : P EventResult := do
  let _ ← sql (.insertEvent c.key (v.insert (.ulid ulid) none c.me) .raise)
  return { eventId := some (.ulid ulid) }

def legacyUnsupported (type : EventType) (specVersion : Option Nat) : Err :=
  .plain ("Event type '" ++ type.name ++ "' not supported for legacy runs (specVersion: " ++
    (match specVersion with
      | none | some 0 => "undefined"
      | some v => toString v) ++ "). Please upgrade @workflow packages.")

/-- `handleLegacyEventPostgres`. -/
def handleLegacyEvent (c : Ctx) (e : EventReq) (now : Nat) (specVersion : Option Nat) : P EventResult := do
  let ulid : Nat ← sql .legacyEventUlid
  match e with
  | .runCancelled =>
    sql (.cancelLegacyRun c.key now)
    releaseRun c true
    let run : Option RunRow ← sql (.selectRun c.key)
    return { run := run }
  | .waitCompleted wait =>
    insertLegacyEvent c ulid ⟨.waitCompleted, some wait, .absent, c.deps.specVersion⟩
  | .hookReceived hook token =>
    transaction do
      let run : Option RunRow ← sql (.lockRun c.key)
      match run with
      | none => throw (.runNotFound c.runId)
      | some r =>
        if r.status.isTerminal then throw (alreadyTerminal c.runId r.status)
        else insertLegacyEvent c ulid ⟨.hookReceived, some hook, .hookReceived token, c.deps.specVersion⟩
  | _ => throw (legacyUnsupported e.type specVersion)

/-! ## `create` -/

/-- On a single-orchestrator run an inline step's creation is its first `step_started`. -/
def startCreatesStep (c : Ctx) (current : Option CurrentRun) (createsStep : Option String) : Bool :=
  createsStep.isSome && specVersionSingleOrchestrator ≤ (current.bind (·.specVersion)).getD c.specVersion

/-- The event of a validated request: its entity change and its append. -/
def apply (c : Ctx) (now : Nat) (current : Option CurrentRun) : EventReq → P EventResult
  | .runCreated i => createRun c i
  | .runStarted _ => startRun c now current
  | .runCompleted => finishRun c .runCompleted .completed now
  | .runFailed => finishRun c .runFailed .failed now
  | .runCancelled => finishRun c .runCancelled .cancelled now
  | .stepCreated step name => createStep c step name
  | .stepStarted step createsStep owner => do
    let validated ← validateStep c current step createsStep.isSome
    startStep c step createsStep owner now (startCreatesStep c current createsStep) validated
  | .stepRetrying step retryAfter => do
    let _ ← validateStep c current step false
    retryStep c step retryAfter
  | .stepCompleted step => finishStep c .stepCompleted step .completed now
  | .stepFailed step => finishStep c .stepFailed step .failed now
  | .hookCreated hook token force tokenRetentionUntil => createHook c ⟨hook, token, force, tokenRetentionUntil⟩
  | .hookReceived hook token => do
    assertHookExists c hook (some token)
    let id ← receiveHook c hook token
    return { eventId := some id }
  | .hookDisposed hook token => do
    assertHookExists c hook none
    let id ← disposeHook c hook token
    return { eventId := some id }
  | .waitCreated wait resumeAt => createWait c wait resumeAt
  | .waitCompleted wait => completeWait c wait now
  | .attrSet id changes byWorkflow allowReserved => setAttributes c id changes byWorkflow allowReserved

/-- What a terminal run still takes. -/
def applyOnTerminal (c : Ctx) (now : Nat) (current : CurrentRun) (e : EventReq) : P EventResult :=
  match e with
  | .runCancelled => if current.status = .cancelled then cancelAgain c else throw (cannotTransition current.status)
  | .runStarted _ => throw (alreadyTerminal c.runId current.status)
  | .runCompleted | .runFailed => throw (cannotTransition current.status)
  | .attrSet _ _ _ _ => throw (.entityConflict
      ("Cannot set attributes on run in terminal state \"" ++ current.status.name ++ "\""))
  | e =>
    if e.createsChildEntity then throw (.entityConflict
      ("Cannot create new entities on run in terminal state \"" ++ current.status.name ++ "\""))
    else apply c now (some current) e

/-- `requiresNewerWorld`. -/
def requiresNewerWorld (D : Deps) (specVersion : Option Nat) : Bool :=
  specVersion.any fun v => D.specVersionMaxSupported < v

/-- The version checks, then the terminal-run checks, then the event itself. -/
def applyToRun (c : Ctx) (now : Nat) (current : CurrentRun) (e : EventReq) : P EventResult :=
  if requiresNewerWorld c.deps current.specVersion then
    throw (.runNotSupported (current.specVersion.getD 0) c.deps.specVersionMaxSupported)
  else if isLegacySpecVersion current.specVersion then handleLegacyEvent c e now current.specVersion
  else if current.status.isTerminal then applyOnTerminal c now current e
  else apply c now (some current) e

/-- `create` under a known run id. -/
def createOnRun (c : Ctx) (e : EventReq) : P EventResult := do
  let now ← clock
  let current ← readCurrentRun c e
  match current with
  | some run => applyToRun c now run e
  | none =>
    match e with
    | .attrSet _ _ _ _ => throw (.runNotFound c.runId)
    | _ => apply c now none e

/-- A `hook_created` may not ask for more retention than the World gives. -/
def assertRetention (D : Deps) : EventReq → P Unit
  | .hookCreated _ _ _ (some u) => do
    let now ← clock
    if u > now + D.hookRetentionLimitMs then throw (.world (retentionLimitMessage D) (some 400) none) else return
  | _ => return

/-- Nor may a start Hook. -/
def assertStartHookOf (D : Deps) (e : EventReq) : P Unit :=
  match e.startHook with
  | some h => assertStartHookAdmissible D h
  | none => return

/-- A client's own run id must carry an acceptable timestamp. -/
def assertRunIdTime (D : Deps) (run : RunId) (startHook : Bool) : P Unit := do
  let now ← clock
  match D.validateUlidTimestamp run now with
  | none => return
  | some message => throw (if startHook then startHookAdmissionRejected message "expired" else .world message none none)

def CreateReq.ctx (D : Deps) (me : Nat) (r : CreateReq) (fence : Option PendingFence) (run : RunId) : Ctx :=
  ⟨D, r.tenant, run, r.specVersion.getD D.specVersion, me, fence⟩

/-- The run id of a request, if it names one. -/
def CreateReq.run (r : CreateReq) : Option RunId := r.runId.filter (· ≠ "")

/-- `create` of the unfenced storage. -/
def createUnfenced (D : Deps) (me : Nat) (fence : Option PendingFence) (r : CreateReq) : P EventResult := do
  assertRetention D r.event
  assertStartHookOf D r.event
  match r.event, r.run with
  | .runCreated _, none => createOnRun (r.ctx D me fence r.ulid) r.event
  | .runCreated i, some run => do
    assertRunIdTime D run i.startHook.isSome
    createOnRun (r.ctx D me fence run) r.event
  | _, none => throw (.plain "runId is required for non-run_created events")
  | _, some run => createOnRun (r.ctx D me fence run) r.event

def maxSafeInteger : Nat := 9007199254740991

/-- The run of an in-band write; `run_created` opens the count and is never fenced itself. -/
def CreateReq.fenced (r : CreateReq) : Option RunId :=
  match r.event with
  | .runCreated _ => none
  | _ => if r.inBand then r.run else none

/-- A stale writer is refused. A run without a slots row predates the fence, or is created by this write. -/
def assertExpected (run : RunId) (expected : Nat) : Option Nat → P Unit
  | some m => if m ≠ expected then throw (.inBandSuperseded (supersededMessage run expected m) m) else return
  | none => return

/-- The whole of an in-band write: the count is compared under its row's lock, then the fence is pending. -/
def createUnderFence (D : Deps) (me : Nat) (r : CreateReq) (run : RunId) (expected : Nat) : P EventResult := do
  let current : Option Nat ← sql (.lockSlots (r.tenant, run))
  assertExpected run expected current
  .op (.store false) fun _ => createUnfenced D me (some ⟨r.tenant, run, expected, r.occurredAt⟩) r

/-- An in-band write, in one transaction. -/
def createFenced (D : Deps) (me : Nat) (r : CreateReq) (run : RunId) (expected : Nat) : P EventResult :=
  transaction (createUnderFence D me r run expected)

/-- `events.create`. -/
def create (D : Deps) (me : Nat) (r : CreateReq) : P EventResult :=
  match r.fenced with
  | none => createUnfenced D me none r
  | some run =>
    match r.expectedSeqInBand.filter (· ≤ maxSafeInteger) with
    | none => throw (.world ("An in-band write to run " ++ run ++
        " must carry a nonnegative integer expectedSeqInBand") (some 400) none)
    | some expected => createFenced D me r run expected

/-- A request's whole life: the call, then its answer. -/
def session (D : Deps) (me : Nat) (r : CreateReq) : P Unit := do
  let answer : Reply ← tryCatch (do let a ← create D me r; return .ok a) fun e => return .error e
  .op (.reply answer) .pure

end WorkflowWorld
