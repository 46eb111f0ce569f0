/-
The storage layer's programs: what a request carries, how it can fail, and the two ways it
reaches the database, a statement and a transaction (`drizzle.transaction`, a savepoint inside
another one). Functions of other packages enter as `Deps`.
-/
import WorkflowWorld.Statements
import WorkflowWorld.Concurrency.Sessions

namespace WorkflowWorld

open Concurrency

/-- What the storage layer takes from elsewhere: `@workflow/world` and `ulid` functions and
constants, and the World's own configuration. -/
structure Deps where
  startHookId : RunId → HookId
  /-- `ulidToDate` of a run id without its `wrun_`. -/
  ulidToDate : RunId → Option Nat
  /-- `validateUlidTimestamp` at a time: the text of its error. -/
  validateUlidTimestamp : RunId → Nat → Option String
  /-- `validateAttributeChanges` with the keys that exist: the text of its error. -/
  validateAttributeChanges : List AttributeChange → List String → Bool → Option String
  attributeMaxPerRun : Nat
  hookRetentionLimitMs : Nat
  startHookCandidateMaxAgeMs : Nat
  specVersionMaxSupported : Nat
  /-- The version the World declares. -/
  specVersion : Nat

def specVersionLegacy : Nat := 1
def specVersionSupportsHookForceClaim : Nat := 8
def specVersionSingleOrchestrator : Nat := 9

/-- `isLegacySpecVersion`: before event sourcing, or never recorded. -/
def isLegacySpecVersion (v : Option Nat) : Bool := v.getD specVersionLegacy ≤ specVersionLegacy

/-- `isStartHookId`. -/
def Deps.isStartHookId (D : Deps) (run : RunId) (hook : HookId) : Bool := hook = D.startHookId run

/-! ## Requests -/

/-- `eventData` of a creating request. -/
structure RunInput where
  deploymentId : String
  workflowName : String
  input : Option String := some ""
  attributes : List (String × String) := []
  allowReservedAttributes : Bool := false
  startHook : Option StartHook := none

inductive EventReq where
  | runCreated (input : RunInput)
  | runStarted (input : Option RunInput)
  | runCompleted
  | runFailed
  | runCancelled
  | stepCreated (step : StepId) (stepName : String)
  /-- `createsStep` is the `stepName` of a start that carries the step's creation data. -/
  | stepStarted (step : StepId) (createsStep : Option String) (ownerMessageId : Option MessageId)
  | stepRetrying (step : StepId) (retryAfter : Option Nat)
  | stepCompleted (step : StepId)
  | stepFailed (step : StepId)
  | hookCreated (hook : HookId) (token : Token) (force : Bool) (tokenRetentionUntil : Option Nat)
  | hookReceived (hook : HookId) (token : Option Token)
  | hookDisposed (hook : HookId) (token : Option Token)
  | waitCreated (wait : CorrId) (resumeAt : Option Nat)
  | waitCompleted (wait : CorrId)
  | attrSet (c : Option CorrId) (changes : List AttributeChange) (byWorkflow allowReserved : Bool)

def EventReq.type : EventReq → EventType
  | .runCreated _ => .runCreated
  | .runStarted _ => .runStarted
  | .runCompleted => .runCompleted
  | .runFailed => .runFailed
  | .runCancelled => .runCancelled
  | .stepCreated _ _ => .stepCreated
  | .stepStarted _ _ _ => .stepStarted
  | .stepRetrying _ _ => .stepRetrying
  | .stepCompleted _ => .stepCompleted
  | .stepFailed _ => .stepFailed
  | .hookCreated _ _ _ _ => .hookCreated
  | .hookReceived _ _ => .hookReceived
  | .hookDisposed _ _ => .hookDisposed
  | .waitCreated _ _ => .waitCreated
  | .waitCompleted _ => .waitCompleted
  | .attrSet _ _ _ _ => .attrSet

def EventReq.correlationId : EventReq → Option CorrId
  | .stepCreated c _ | .stepStarted c _ _ | .stepRetrying c _ | .stepCompleted c | .stepFailed c => some c
  | .hookCreated c _ _ _ | .hookReceived c _ | .hookDisposed c _ => some c
  | .waitCreated c _ | .waitCompleted c => some c
  | .attrSet c _ _ _ => c
  | _ => none

/-- `isChildEntityCreationEvent`. -/
def EventReq.createsChildEntity : EventReq → Bool
  | .stepCreated _ _ | .hookCreated _ _ _ _ | .waitCreated _ _ => true
  | .stepStarted _ createsStep _ => createsStep.isSome
  | _ => false

/-- The start Hook of a creating request. -/
def EventReq.startHook : EventReq → Option StartHook
  | .runCreated input => input.startHook
  | .runStarted (some input) => input.startHook
  | _ => none

/-- One `events.create` call of a tenant. `ulid` is the run id the World would mint. -/
structure CreateReq where
  tenant : TenantId
  runId : Option RunId
  ulid : RunId := ""
  event : EventReq
  specVersion : Option Nat := none
  inBand : Bool := false
  expectedSeqInBand : Option Nat := none
  occurredAt : Option Nat := none

/-! ## Results -/

inductive Err where
  | entityConflict (message : String)
  | runExpired (message : String)
  | hookNotFound (hookId : HookId)
  | hookForceClaimed (token : Token) (runId : RunId) (hookId : HookId)
  | hookConflict (token : Token) (conflictingRunId : RunId)
  | inBandSuperseded (message : String) (seqInBand : Nat)
  | runNotFound (runId : RunId)
  | runNotSupported (specVersion maxSupported : Nat)
  | tooEarly (message : String) (retryAfter : Nat)
  | world (message : String) (status : Option Nat) (reason : Option String)
  | attributeValidation (message : String)
  | plain (message : String)
  /-- The takeover's `OWNER_CHANGED` symbol, thrown inside its transaction. -/
  | ownerChanged
  | sql (e : SqlError Violation)
  deriving DecidableEq

/-- The errors that some function of `create` catches to go on: a retried takeover, a lost claim, a
correlated duplicate. -/
instance : Schema.Recoverable Err where
  caught e := e = .ownerChanged ∨ e = .sql (.raised .correlatedEvent) ∨ e = .sql (.raised .hookTokenClaim)

structure EventResult where
  eventId : Option EventId := none
  run : Option RunRow := none
  step : Option StepRow := none
  hook : Option HookRow := none
  wait : Option WaitRow := none
  stepCreated : Bool := false

abbrev Reply := Except Err EventResult

/-- A session's own memory: whether the pending fence is consumed. -/
abbrev Op := schema.Op Bool Reply

abbrev P (α : Type) := Prog Op Schema.Op.Res Err α

/-- A statement; a failure is thrown. -/
abbrev sql (q : Query) : P q.Ans := Schema.statement (S := schema) Err.sql q

/-- `Date.now()`. -/
def clock : P Nat := .op .clock .pure

/-- `drizzle.transaction`. -/
abbrev transaction {α : Type} (body : P α) : P α := Schema.transaction body

/-- The pending in-band fence of a fenced create (`pendingFence`); its `consumed` flag is the
session's memory. -/
structure PendingFence where
  tenant : TenantId
  runId : RunId
  expected : Nat
  occurredAt : Option Nat

/-- What the functions under `create` close over: the tenant, the run, the request's own version
and number, and the fence of the asynchronous context. -/
structure Ctx where
  deps : Deps
  tenant : TenantId
  runId : RunId
  specVersion : Nat
  me : Nat
  fence : Option PendingFence

def Ctx.key (c : Ctx) : RunKey := (c.tenant, c.runId)

end WorkflowWorld
