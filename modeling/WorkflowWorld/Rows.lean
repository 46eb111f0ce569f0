/-
The tables the World keeps its state in (`src/drizzle/schema.ts`): the columns that the storage
layer reads or decides by, keyed by primary key. Every key starts with the tenant. Payload
columns that are only carried through (inputs, outputs, metadata, retention classes) are left
out. Five fields are not columns: `createdBy`, `startedBy`, `finishedBy`, `writer` and `decidedBy` name
the request that wrote the row, started the run or finished the step; nothing in the code reads them.
-/
import Mathlib.Data.List.AList

namespace WorkflowWorld

abbrev TenantId := String
abbrev RunId := String
/-- A correlation id: a step id, a hook id, a wait's own id. -/
abbrev CorrId := String
abbrev HookId := CorrId
abbrev StepId := CorrId
abbrev Token := String
abbrev MessageId := String

abbrev RunKey := TenantId × RunId
abbrev HookKey := TenantId × HookId
abbrev StepKey := TenantId × StepId
abbrev WaitKey := TenantId × String

/-- A table with primary key `κ`. -/
abbrev Table (κ ρ : Type) := AList fun _ : κ => ρ

inductive RunStatus where
  | pending | running | completed | failed | cancelled
  deriving DecidableEq, Repr

/-- `isTerminalWorkflowRunStatus`. -/
def RunStatus.isTerminal : RunStatus → Bool
  | .pending | .running => false
  | .completed | .failed | .cancelled => true

def RunStatus.name : RunStatus → String
  | .pending => "pending"
  | .running => "running"
  | .completed => "completed"
  | .failed => "failed"
  | .cancelled => "cancelled"

inductive StepStatus where
  | pending | running | completed | failed | cancelled
  deriving DecidableEq, Repr

/-- `isTerminalStepStatus`. -/
def StepStatus.isTerminal : StepStatus → Bool
  | .pending | .running => false
  | .completed | .failed | .cancelled => true

def StepStatus.name : StepStatus → String
  | .pending => "pending"
  | .running => "running"
  | .completed => "completed"
  | .failed => "failed"
  | .cancelled => "cancelled"

inductive WaitStatus where
  | waiting | completed
  deriving DecidableEq, Repr

inductive EventType where
  | runCreated | runStarted | runCompleted | runFailed | runCancelled
  | stepCreated | stepStarted | stepRetrying | stepCompleted | stepFailed
  | hookCreated | hookReceived | hookDisposed | hookConflict
  | waitCreated | waitCompleted | attrSet
  deriving DecidableEq, Repr

def EventType.name : EventType → String
  | .runCreated => "run_created"
  | .runStarted => "run_started"
  | .runCompleted => "run_completed"
  | .runFailed => "run_failed"
  | .runCancelled => "run_cancelled"
  | .stepCreated => "step_created"
  | .stepStarted => "step_started"
  | .stepRetrying => "step_retrying"
  | .stepCompleted => "step_completed"
  | .stepFailed => "step_failed"
  | .hookCreated => "hook_created"
  | .hookReceived => "hook_received"
  | .hookDisposed => "hook_disposed"
  | .hookConflict => "hook_conflict"
  | .waitCreated => "wait_created"
  | .waitCompleted => "wait_completed"
  | .attrSet => "attr_set"

/-- The status a terminal run event moves its run to. -/
def EventType.terminalStatus : EventType → Option RunStatus
  | .runCompleted => some .completed
  | .runFailed => some .failed
  | .runCancelled => some .cancelled
  | _ => none

/-- The types `workflow_events_entity_creation_unique` covers. -/
def EventType.deduplicated : EventType → Bool
  | .stepCreated | .hookCreated | .waitCreated | .attrSet => true
  | _ => false

/-- A position of a slot-numbered log (`slotToEventId`), or a legacy `wevt_` ULID. -/
inductive EventId where
  | slot (n : Nat)
  | ulid (u : Nat)
  deriving DecidableEq, Repr

/-- The start Hook a creating request asks for. -/
structure StartHook where
  token : Token
  tokenRetentionUntil : Option Nat := none
  deriving DecidableEq, Repr

/-- The start Hook as the run row and `run_created` keep it (`runStartHook`,
`admittedStartHook`). -/
structure RunStartHook where
  token : Token
  tokenRetentionUntil : Option Nat
  hookId : HookId
  deriving DecidableEq, Repr

structure RunRow where
  deploymentId : String
  workflowName : String
  specVersion : Option Nat
  status : RunStatus
  attributes : List (String × String) := []
  startedAt : Option Nat := none
  completedAt : Option Nat := none
  startHook : Option RunStartHook := none
  createdBy : Nat
  startedBy : Option Nat := none
  deriving DecidableEq, Repr

def RunRow.running (r : RunRow) : Bool := !r.status.isTerminal

/-- Who a hook took its token from; the coordinates to wake the victim, if it was running. -/
structure HookClaimedFrom where
  runId : RunId
  hookId : HookId
  workflowName : Option String := none
  deploymentId : Option String := none
  runSpecVersion : Option Nat := none
  deriving DecidableEq, Repr

structure HookRow where
  runId : RunId
  token : Token
  specVersion : Nat
  tokenRetentionUntil : Option Nat := none
  claimedFrom : Option HookClaimedFrom := none
  claimsToken : Bool := true
  createdBy : Nat
  deriving DecidableEq, Repr

structure StepRow where
  runId : RunId
  stepName : String
  status : StepStatus := .pending
  attempt : Nat := 0
  startedAt : Option Nat := none
  completedAt : Option Nat := none
  retryAfter : Option Nat := none
  ownerMessageId : Option MessageId := none
  specVersion : Nat
  finishedBy : Option Nat := none
  deriving DecidableEq, Repr

structure WaitRow where
  runId : RunId
  status : WaitStatus := .waiting
  resumeAt : Option Nat := none
  completedAt : Option Nat := none
  specVersion : Nat
  deriving DecidableEq, Repr

/-- A start Hook decision. -/
inductive Decision where
  | accepted
  | rejected (conflictingRunId : RunId)
  deriving DecidableEq, Repr

structure AdmissionRow where
  token : Token
  decision : Decision
  createdAt : Nat
  decidedBy : Nat
  deriving DecidableEq, Repr

/-- An attribute change: `none` deletes the key. -/
structure AttributeChange where
  key : String
  value : Option String
  deriving DecidableEq, Repr

/-- What an event stores beside its type (`payload_cbor`), as far as the storage layer reads or
builds it. -/
inductive EventData where
  | absent
  | runCreated (deploymentId workflowName : String) (attributes : List (String × String))
      (startHook : Option RunStartHook)
  | step (stepName : Option String) (ownerMessageId : Option MessageId)
  | hookCreated (token : Token) (force : Bool) (forceClaimedFrom : Option HookClaimedFrom)
  | hookConflict (token : Token) (conflictingRunId : Option RunId) (forceRefusedReason : Option String)
  | hookReceived (token : Option Token)
  | hookDisposed (token : Option Token) (forceClaimedBy : Option (RunId × HookId))
  | wait (resumeAt : Option Nat)
  | attrSet (changes : List AttributeChange)
  deriving DecidableEq, Repr

structure EventRow where
  id : EventId
  type : EventType
  correlationId : Option CorrId := none
  data : EventData := .absent
  specVersion : Nat
  createdAt : Nat
  writer : Nat
  deriving DecidableEq, Repr

/-- The values of an event insert. Without a `createdAt` of its own the row takes the session's
clock. -/
structure EventInsert where
  id : EventId
  type : EventType
  correlationId : Option CorrId := none
  data : EventData := .absent
  specVersion : Nat
  createdAt : Option Nat := none
  writer : Nat
  deriving DecidableEq, Repr

def EventInsert.row (v : EventInsert) (now : Nat) : EventRow :=
  ⟨v.id, v.type, v.correlationId, v.data, v.specVersion, v.createdAt.getD now, v.writer⟩

/-- The data of all tenants. `events` holds each run's rows in the order they were committed.
`decisions` is every start Hook decision ever recorded, the deleted ones included; the code does
not read it. `inFlight` stands for the graphile locks of the deliveries in flight. -/
structure Db where
  runs : Table RunKey RunRow
  events : RunKey → List EventRow
  slots : Table RunKey Nat
  steps : Table StepKey StepRow
  hooks : Table HookKey HookRow
  waits : Table WaitKey WaitRow
  admissions : Table RunKey AdmissionRow
  decisions : List (RunKey × AdmissionRow)
  inFlight : List MessageId

def Db.empty : Db := ⟨∅, fun _ => [], ∅, ∅, ∅, ∅, ∅, [], []⟩

/-! ## Elementary writes -/

inductive Write where
  | insertRun (k : RunKey) (r : RunRow)
  | updateRun (k : RunKey) (r : RunRow)
  | insertSlots (k : RunKey) (seqInBand : Nat)
  | updateSlots (k : RunKey) (seqInBand : Nat)
  | appendEvent (k : RunKey) (e : EventRow)
  | insertStep (k : StepKey) (r : StepRow)
  | updateStep (k : StepKey) (r : StepRow)
  | insertHook (k : HookKey) (r : HookRow)
  | deleteHook (k : HookKey) (r : HookRow)
  | insertWait (k : WaitKey) (r : WaitRow)
  | updateWait (k : WaitKey) (r : WaitRow)
  | deleteWait (k : WaitKey)
  | insertAdmission (k : RunKey) (a : AdmissionRow)
  | deleteAdmission (k : RunKey)
  deriving DecidableEq

def Write.apply : Write → Db → Db
  | .insertRun k r, d | .updateRun k r, d => { d with runs := d.runs.insert k r }
  | .insertSlots k m, d | .updateSlots k m, d => { d with slots := d.slots.insert k m }
  | .appendEvent k e, d => { d with events := Function.update d.events k (d.events k ++ [e]) }
  | .insertStep k r, d | .updateStep k r, d => { d with steps := d.steps.insert k r }
  | .insertHook k r, d => { d with hooks := d.hooks.insert k r }
  | .deleteHook k _, d => { d with hooks := d.hooks.erase k }
  | .insertWait k r, d | .updateWait k r, d => { d with waits := d.waits.insert k r }
  | .deleteWait k, d => { d with waits := d.waits.erase k }
  | .insertAdmission k a, d =>
    { d with admissions := d.admissions.insert k a, decisions := d.decisions ++ [(k, a)] }
  | .deleteAdmission k, d => { d with admissions := d.admissions.erase k }

/-- A row, by its table and primary key. -/
inductive RowRef where
  | run (k : RunKey)
  | slots (k : RunKey)
  | step (k : StepKey)
  | hook (k : HookKey)
  | wait (k : WaitKey)
  | admission (k : RunKey)
  deriving DecidableEq

/-- What a transaction can hold against the others: a row lock; a primary key it inserts or
deletes; the claim of a token (`workflow_hooks_token_claim_unique`); the primary key of an
event; a key of the correlated-event index (`workflow_events_entity_creation_unique`). -/
inductive Key where
  | row (r : RowRef)
  | pk (r : RowRef)
  | claim (tenant : TenantId) (token : Token)
  | event (k : RunKey) (id : EventId)
  | correlated (k : RunKey) (c : CorrId) (type : EventType)
  deriving DecidableEq

/-- The entry of the correlated-event index an event makes, if any: the index skips the other
types, and rows without a correlation id are distinct in it. -/
def EventRow.correlatedKey (k : RunKey) (e : EventRow) : List Key :=
  match e.correlationId with
  | some c => if e.type.deduplicated then [.correlated k c e.type] else []
  | none => []

def HookRow.claimKey (k : HookKey) (r : HookRow) : List Key :=
  if r.claimsToken then [.claim k.1 r.token] else []

def Write.touches : Write → List Key
  | .insertRun k _ => [.row (.run k), .pk (.run k)]
  | .updateRun k _ => [.row (.run k)]
  | .insertSlots k _ => [.row (.slots k), .pk (.slots k)]
  | .updateSlots k _ => [.row (.slots k)]
  | .appendEvent k e => .event k e.id :: e.correlatedKey k
  | .insertStep k _ => [.row (.step k), .pk (.step k)]
  | .updateStep k _ => [.row (.step k)]
  | .insertHook k r | .deleteHook k r => .row (.hook k) :: .pk (.hook k) :: r.claimKey k
  | .insertWait k _ => [.row (.wait k), .pk (.wait k)]
  | .updateWait k _ => [.row (.wait k)]
  | .deleteWait k => [.row (.wait k), .pk (.wait k)]
  | .insertAdmission k _ | .deleteAdmission k => [.row (.admission k), .pk (.admission k)]

/-- The two states hold the same row. -/
def RowRef.Same : RowRef → Db → Db → Prop
  | .run k, d, d' => d.runs.lookup k = d'.runs.lookup k
  | .slots k, d, d' => d.slots.lookup k = d'.slots.lookup k
  | .step k, d, d' => d.steps.lookup k = d'.steps.lookup k
  | .hook k, d, d' => d.hooks.lookup k = d'.hooks.lookup k
  | .wait k, d, d' => d.waits.lookup k = d'.waits.lookup k
  | .admission k, d, d' => d.admissions.lookup k = d'.admissions.lookup k

def Key.Agree : Key → Db → Db → Prop
  | .row r, d, d' => r.Same d d'
  | _, _, _ => True

theorem Key.agree_refl (k : Key) (d : Db) : k.Agree d d := by
  rcases k with r | _ | _ | _ | _ <;> try trivial
  cases r <;> rfl

theorem Key.agree_trans (k : Key) (a b c : Db) (h1 : k.Agree a b) (h2 : k.Agree b c) : k.Agree a c := by
  rcases k with r | _ | _ | _ | _ <;> try trivial
  cases r <;> exact Eq.trans h1 h2

theorem Key.agree_apply (k : Key) (w : Write) (d : Db) (h : k ∉ w.touches) : k.Agree d (w.apply d) := by
  rcases k with r | _ | _ | _ | _ <;> try trivial
  cases r <;> cases w <;>
    simp_all [Write.touches, Key.Agree, RowRef.Same, Write.apply, AList.lookup_insert_ne, AList.lookup_erase_ne]

theorem Key.agree_congr (k : Key) (w : Write) (d d' : Db) (h : k.Agree d d') :
    k.Agree (w.apply d) (w.apply d') := by
  rcases k with r | _ | _ | _ | _ <;> try trivial
  cases r <;> cases w <;> simp only [Key.Agree, RowRef.Same, Write.apply] at h ⊢ <;> first
    | exact h
    | (rename_i k₁ k₂ _; by_cases hk : k₁ = k₂
       · subst hk; simp
       · simp [AList.lookup_insert_ne, hk, h, AList.lookup_erase_ne])
    | (rename_i k₁ k₂; by_cases hk : k₁ = k₂
       · subst hk; simp
       · simp [AList.lookup_erase_ne, hk, h])

end WorkflowWorld
