/-
Queue messages and the dispatch contract (`src/message.ts`, `src/dispatch-contract.ts`): which run queue
a message waits in, when it may pass it, how it is keyed, how its deliveries are counted, and the
message that continues it.
-/
import WorkflowWorld.Dispatcher.BootRecovery

namespace WorkflowWorld.Dispatcher

/-! ## Messages -/

/-- The JSON body of a message: the members that the code reads, and the rest of it. A member that is
not of the type the code asks for is not there. -/
structure Body where
  runId : Option RunId := none
  workflowRunId : Option RunId := none
  stepId : Option String := none
  hookInput : Option String := none
  hookResumeTiming : Option String := none
  runSpecVersion : Option Nat := none
  rest : String := ""
  deriving DecidableEq, Repr

/-- `MessageData`, with its body parsed. -/
structure Message where
  attempt : Nat
  deliveryOffset : Option Nat := none
  attemptOffset : Option Nat := none
  messageId : MessageId
  idempotencyKey : Option String := none
  headers : Option (List (String × String)) := none
  id : String
  data : Body
  tenantId : TenantId
  deploymentId : String
  queueNamespace : Option String := none
  deriving DecidableEq, Repr

/-- `readRunId`. -/
def Message.runId (message : Message) : Option RunId := message.data.runId.or message.data.workflowRunId

/-! ## The contract -/

/-- What the code uses of `@workflow/world`: functions of a message's body. -/
structure World where
  messageRunSpecVersion : Body → Option Nat
  singleOrchestratorRunIdOf : Body → Option RunId
  isSingleOrchestratorMessage : Body → Bool
  /-- `WorkflowInvokePayloadSchema.safeParse`, with the run it names. -/
  parseInvoke : Body → Option (RunId × Body)

def specVersionSingleOrchestrator : Nat := 9

def wakeFlag (tenantId : TenantId) : String := "wake:" ++ tenantId

/-- `bodyRunId`. -/
def bodyRunId (body : Body) : Option RunId := body.runId.or body.workflowRunId

def isHookWake (payload : Body) : Bool :=
  payload.stepId.isNone && (payload.hookInput.isSome || payload.hookResumeTiming.isSome)

namespace World

variable (w : World)

def isSingleOrchestratorRunMessage (body : Body) : Bool :=
  decide ((w.messageRunSpecVersion body).getD 0 ≥ specVersionSingleOrchestrator)

/-- The run queue a message waits in, if it waits in one. -/
def runQueueFor (tenantId : TenantId) (body : Body) : Option String :=
  if w.isSingleOrchestratorRunMessage body then (w.singleOrchestratorRunIdOf body).map (runQueueName tenantId)
  else (bodyRunId body).map (runQueueName tenantId)

def mayBypassRunQueue (payload : Body) : Bool := isHookWake payload && !w.isSingleOrchestratorRunMessage payload

inductive JobKeyMode where
  | replace | unsafeDedupe
  deriving DecidableEq, Repr

def jobKeyModeFor (body : Body) (idempotencyKey : Option String) : JobKeyMode :=
  if idempotencyKey.isSome && w.isSingleOrchestratorMessage body then .unsafeDedupe else .replace

end World

/-- One delivery's counts. -/
structure Delivered where
  attempt : Nat
  deliveryCount : Nat
  deriving DecidableEq, Repr

def deliveryAccounting (message : Message) (jobAttempts : Option Nat) : Delivered :=
  match jobAttempts with
  | none => ⟨message.attempt, message.attempt⟩
  | some n => ⟨n + message.attemptOffset.getD 0, n + (message.deliveryOffset.or message.attemptOffset).getD 0⟩

/-- The message that continues one after a `{ timeoutSeconds }` answer. An offset of 0 is left out. -/
def World.continuationOf (w : World) (message : Message) (delivery : Delivered) (timeoutSeconds : Nat) (body : Body) :
    Message :=
  let handoff := timeoutSeconds == 0 && w.isSingleOrchestratorMessage body
  let attemptOffset := if handoff then some (delivery.attempt - 1) else message.attemptOffset
  { message with
    attempt := if handoff then delivery.attempt else delivery.attempt + 1
    attemptOffset := attemptOffset.filter (· ≠ 0)
    deliveryOffset := some delivery.deliveryCount }

/-- What no hop changes of a message. -/
structure SameMessage (message message' : Message) : Prop where
  id : message'.id = message.id
  data : message'.data = message.data
  messageId : message'.messageId = message.messageId
  idempotencyKey : message'.idempotencyKey = message.idempotencyKey
  headers : message'.headers = message.headers
  tenantId : message'.tenantId = message.tenantId
  deploymentId : message'.deploymentId = message.deploymentId

theorem SameMessage.refl (message : Message) : SameMessage message message := ⟨rfl, rfl, rfl, rfl, rfl, rfl, rfl⟩

/-- The message a run is recovered with, and the one in its quarantine letter: the body names the run
and nothing else. -/
def recoveryMessage (messageId : MessageId) (tenantId : TenantId) (runId : RunId) (name deploymentId : String)
    (queueNamespace : Option String) : Message where
  id := name
  data := { runId := some runId }
  attempt := 1
  messageId := messageId
  tenantId := tenantId
  deploymentId := deploymentId
  queueNamespace := queueNamespace.filter (· ≠ "")

end WorkflowWorld.Dispatcher
