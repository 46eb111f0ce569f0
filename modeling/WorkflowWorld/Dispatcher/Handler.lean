/-
The dispatcher's handler (`src/dispatcher/dispatcher.ts`, `makeHandler` of `src/dispatcher/runner.ts`):
what one delivery is dispatched to, how it ends, and the dedup of keyed messages, which acknowledges a
delivery whose key has completed and lets one whose key is in flight wait for the delivery that leads.
-/
import WorkflowWorld.Dispatcher.Message
import WorkflowWorld.Concurrency.Machine

namespace WorkflowWorld.Dispatcher

/-! ## One dispatch -/

/-- What `runLookup` answers of a run that exists. -/
structure RunView where
  deploymentId : String
  status : RunStatus
  quarantined : Bool
  deriving DecidableEq, Repr

inductive Affinity where
  | deployment (deploymentId : String) (runId : Option RunId)
  | terminal (reason : String)
  | quarantined (reason : String)
  deriving DecidableEq, Repr

/-- `resolveAffinity`, with what the lookup answers for the message's run. -/
def resolveAffinity (message : Message) (lookup : RunId → Option RunView) : Affinity :=
  match message.runId with
  | none => .deployment message.deploymentId none
  | some runId =>
    match lookup runId with
    | none => .deployment message.deploymentId (some runId)
    | some run =>
      if run.status.isTerminal then
        .terminal ("Run " ++ runId ++ " is already terminal (" ++ run.status.name ++ ").")
      else if run.quarantined then
        .quarantined ("Run " ++ runId ++ " has an unresolved dead letter; " ++
          "delivery stays parked until an operator resolves it.")
      else .deployment run.deploymentId (some runId)

inductive DispatchOutcome where
  | completed
  | rescheduled (timeoutSeconds : Nat)
  | deadLetter (reason : String)
  | retry (reason : String)
  deriving DecidableEq, Repr

inductive ActivationResult where
  | activated
  | notActivatable (message : String)
  | unavailable (status : Nat) (message : String)
  deriving DecidableEq, Repr

/-- The end of a dispatch that has no executor to go to. -/
def ActivationResult.outcome (deploymentId : String) : ActivationResult → Option DispatchOutcome
  | .activated => none
  | .notActivatable message =>
    some (.deadLetter ("Deployment " ++ deploymentId ++ " is not activatable: " ++ message))
  | .unavailable status message =>
    some (.retry ("Activation failed (HTTP " ++ toString status ++ "): " ++ message))

inductive VqsResult where
  | completed
  | reschedule (timeoutSeconds : Nat)
  | failed (status : Nat) (text : String) (retryable : Bool)
  deriving DecidableEq, Repr

/-- The executor has taken the message: it is done with it, or asks for it again later. -/
def VqsResult.accepts : VqsResult → Bool
  | .completed | .reschedule _ => true
  | .failed .. => false

/-- A streak of executor failures that is exhausted: its count, and its span in seconds. -/
structure Streak where
  count : Nat
  seconds : Nat
  deriving DecidableEq, Repr

/-- The end of a dispatch that the executor has answered. `streak` is what the tracker reports for a
5xx of the run, once it is exhausted. -/
def VqsResult.outcome (runId : Option RunId) (streak : Option Streak) : VqsResult → DispatchOutcome
  | .completed => .completed
  | .reschedule timeoutSeconds => .rescheduled timeoutSeconds
  | .failed status text false =>
    .deadLetter (if status = 0 then text
      else "Executor rejected the dispatch with HTTP " ++ toString status ++ ": " ++ text)
  | .failed status text true =>
    match runId, streak with
    | some runId, some streak =>
      if status ≥ 500 then
        .deadLetter ("Executor answered HTTP " ++ toString status ++ " on " ++ toString streak.count ++
          " consecutive deliveries of run " ++ runId ++ " over " ++ toString streak.seconds ++
          "s; last response: " ++ text)
      else .retry ("Dispatch failed (HTTP " ++ toString status ++ "): " ++ text)
    | _, _ => .retry ("Dispatch failed (HTTP " ++ toString status ++ "): " ++ text)

/-! ## Dedup -/

def completedLimit : Nat := 10000

/-- `markCompleted`: the newest key is last, and the oldest one makes room. -/
def markCompleted (completed : List String) (key : String) : List String :=
  let marked := completed.filter (· ≠ key) ++ [key]
  if marked.length > completedLimit then marked.tail else marked

theorem mem_of_mem_markCompleted {completed : List String} {key key' : String} (h : key' ∈ markCompleted completed key) :
    key' ∈ completed ∨ key' = key := by
  unfold markCompleted at h
  have hmem : key' ∈ completed.filter (· ≠ key) ++ [key] := by
    dsimp only at h
    split at h
    · exact List.mem_of_mem_tail h
    · exact h
  rcases List.mem_append.1 hmem with hold | hnew
  · exact .inl (List.mem_of_mem_filter hold)
  · exact .inr (List.mem_singleton.1 hnew)

/-! ## Deliveries -/

/-- A call of the handler, with the job's message. -/
structure Delivery where
  id : Nat
  message : Message
  isFinalAttempt : Bool
  deriving DecidableEq, Repr

/-- The run the message is for. -/
def Delivery.run (d : Delivery) : Option RunKey := d.message.runId.map fun runId => (d.message.tenantId, runId)

/-- Where a call of the handler is. -/
inductive Stage where
  /-- It dispatches its message: it awaits the run lookup, the activation, the executor's answer or the
  job of a reschedule. -/
  | looking
  | activating (deploymentId : String) (runId : Option RunId)
  | posting (runId : Option RunId)
  | reenqueueing (timeoutSeconds : Nat)
  /-- It waits for the delivery that dispatches under its key. -/
  | joined
  /-- It awaits `onDeadLetter`. -/
  | lettering (reason : String)
  deriving DecidableEq, Repr

def Stage.dispatches : Stage → Bool
  | .looking | .activating .. | .posting _ | .reenqueueing _ => true
  | .joined | .lettering _ => false

structure Running where
  delivery : Delivery
  stage : Stage
  /-- The executor has been called. -/
  called : Bool := false
  deriving DecidableEq, Repr

def Running.key (r : Running) : Option String := r.delivery.message.idempotencyKey

/-- How a call of the handler ends: it returns, it returns after it has written a dead letter, or it
throws, and graphile retries the job. -/
inductive Ending where
  | acknowledged
  | deadLettered (reason : String)
  | threw (error : String)
  deriving DecidableEq, Repr

/-- A call that has ended, and what was true at that moment: whether its run had become terminal, was
quarantined, and whether an executor had answered a delivery of its key. -/
structure Ended where
  running : Running
  ending : Ending
  terminal : Bool
  quarantined : Bool
  answered : Bool
  deriving DecidableEq, Repr

/-! ## The handler -/

/-- The dispatcher process and the rows its lookup reads. `inflight` is not kept apart: a key is in flight
while a delivery dispatches under it. -/
structure Handling where
  runs : RunKey → Option RunView := fun _ => none
  completed : List String := []
  deliveries : List Running := []
  /- What has happened: calls that ended, runs that became terminal, keys that an executor answered,
  and keys under which a message was dropped, with its run. -/
  ended : List Ended := []
  terminal : List RunKey := []
  answered : List String := []
  dropped : List (String × Option RunKey) := []

namespace Handling

def isTerminal (s : Handling) (run : Option RunKey) : Bool := run.any (s.terminal.contains ·)

def isQuarantined (s : Handling) (run : Option RunKey) : Bool :=
  run.any fun k => (s.runs k).any (·.quarantined)

def isAnswered (s : Handling) (key : Option String) : Bool := key.any (s.answered.contains ·)

def find (s : Handling) (id : Nat) : Option Running := s.deliveries.find? (·.delivery.id == id)

/-- The calls that wait for a dispatch under the key. -/
def waiting (s : Handling) (key : Option String) : List Running :=
  s.deliveries.filter fun r => r.stage == .joined && key.isSome && r.key == key

/-- The call ends now. -/
def entry (s : Handling) (r : Running) (ending : Ending) : Ended where
  running := r
  ending := ending
  terminal := s.isTerminal r.delivery.run
  quarantined := s.isQuarantined r.delivery.run
  answered := s.isAnswered r.key

def record (s : Handling) (r : Running) (ending : Ending) : Handling :=
  { s with ended := s.ended ++ [s.entry r ending] }

def push (s : Handling) (r : Running) : Handling := { s with deliveries := s.deliveries ++ [r] }

def remove (s : Handling) (id : Nat) : Handling := { s with deliveries := s.deliveries.filter (·.delivery.id != id) }

def advance (s : Handling) (r : Running) (stage : Stage) : Handling :=
  (s.remove r.delivery.id).push { r with stage, called := r.called || stage matches .posting _ }

/-- What a call does with the answer of `dedup.run`: `none` means that the message was swallowed. -/
def close (s : Handling) (r : Running) : Option DispatchOutcome → Handling
  | none | some .completed | some (.rescheduled _) => s.record r .acknowledged
  | some (.deadLetter reason) => s.push { r with stage := .lettering reason }
  | some (.retry reason) =>
    if r.delivery.isFinalAttempt then
      s.push { r with stage := .lettering ("Retries exhausted. Last failure: " ++ reason) }
    else s.record r (.threw reason)

def dispatchThrew (error : String) : DispatchOutcome := .retry ("Dispatch threw: " ++ error)

/-- `markCompleted` when the dispatch of a keyed message completed. -/
def mark (s : Handling) (key : Option String) (result : Except String DispatchOutcome) : Handling :=
  match key, result with
  | some key, .ok .completed => { s with completed := markCompleted s.completed key }
  | _, _ => s

/-- What `dedup.run` answers the call that dispatched, and a call that waited for it. -/
def ofDispatch : Except String DispatchOutcome → Option DispatchOutcome
  | .ok outcome => some outcome
  | .error error => some (dispatchThrew error)

def ofWait : Except String DispatchOutcome → Option DispatchOutcome
  | .ok _ => none
  | .error error => some (dispatchThrew error)

/-- A dispatch ends with an outcome or an exception. The calls that wait for it see whether it threw and
nothing else. -/
def settle (s : Handling) (r : Running) (result : Except String DispatchOutcome) : Handling :=
  let waiting := s.waiting r.key
  let rest := s.deliveries.filter fun r' => r'.delivery.id != r.delivery.id && !waiting.contains r'
  let s₁ := ({ s with deliveries := rest }.mark r.key result).close r (ofDispatch result)
  waiting.foldl (fun s r' => s.close r' (ofWait result)) s₁

/-- What the lookup answers the delivery. -/
def affinity (s : Handling) (d : Delivery) : Affinity :=
  resolveAffinity d.message fun runId => s.runs (d.message.tenantId, runId)

/-- The message is dropped, which counts as completed. -/
def drop (s : Handling) (r : Running) : Handling :=
  { s with dropped := (r.key.toList.map (·, r.delivery.run)) ++ s.dropped }.settle r (.ok .completed)

def answer (s : Handling) (key : Option String) (result : VqsResult) : Handling :=
  if result.accepts then { s with answered := key.toList ++ s.answered } else s

end Handling

inductive HandlerEvent where
  /-- The row of a run is written or deleted, or its quarantine begins or is resolved. -/
  | write (k : RunKey) (view : Option RunView)
  /-- Graphile calls the handler. -/
  | receive (d : Delivery)
  /-- What a call awaits is there. -/
  | lookup (id : Nat)
  | activate (id : Nat) (result : ActivationResult)
  | post (id : Nat) (result : VqsResult) (streak : Option Streak)
  | reenqueue (id : Nat)
  | throw_ (id : Nat) (error : String)
  | onDeadLetter (id : Nat) (result : Except String Unit)
  /-- The process dies and another takes its place. -/
  | restart

namespace Handling

def step : HandlerEvent → Handling → Option Handling
  | .write k view, s =>
    -- a terminal run stays terminal until its row is deleted, and its id is not used again
    if !s.terminal.contains k || view.all (·.status.isTerminal) then
      some { s with
        runs := Function.update s.runs k view
        terminal := if view.any (·.status.isTerminal) then k :: s.terminal else s.terminal }
    else none
  | .receive d, s =>
    if (s.find d.id).isNone then
      match d.message.idempotencyKey with
      | none => some (s.push ⟨d, .looking, false⟩)
      | some key =>
        if s.completed.contains key then some (s.close ⟨d, .joined, false⟩ none)
        else if s.deliveries.any (fun r => r.stage.dispatches && r.key == some key) then some (s.push ⟨d, .joined, false⟩)
        else some (s.push ⟨d, .looking, false⟩)
    else none
  | .lookup id, s =>
    match s.find id with
    | some r =>
      match r.stage with
      | .looking =>
        match s.affinity r.delivery with
        | .deployment deploymentId runId => some (s.advance r (.activating deploymentId runId))
        | .terminal _ | .quarantined _ => some (s.drop r)
      | _ => none
    | none => none
  | .activate id result, s =>
    match s.find id with
    | some r =>
      match r.stage with
      | .activating deploymentId runId =>
        match result.outcome deploymentId with
        | none => some (s.advance r (.posting runId))
        | some outcome => some (s.settle r (.ok outcome))
      | _ => none
    | none => none
  | .post id result streak, s =>
    match s.find id with
    | some r =>
      match r.stage with
      | .posting runId =>
        match result.outcome runId streak with
        | .rescheduled timeoutSeconds => some ((s.answer r.key result).advance r (.reenqueueing timeoutSeconds))
        | outcome => some ((s.answer r.key result).settle r (.ok outcome))
      | _ => none
    | none => none
  | .reenqueue id, s =>
    match s.find id with
    | some r =>
      match r.stage with
      | .reenqueueing timeoutSeconds => some (s.settle r (.ok (.rescheduled timeoutSeconds)))
      | _ => none
    | none => none
  | .throw_ id error, s =>
    match s.find id with
    | some r => if r.stage.dispatches then some (s.settle r (.error error)) else none
    | none => none
  | .onDeadLetter id result, s =>
    match s.find id with
    | some r =>
      match r.stage, result with
      | .lettering reason, .ok () => some ((s.remove id).record r (.deadLettered reason))
      | .lettering _, .error error => some ((s.remove id).record r (.threw error))
      | _, _ => none
    | none => none
  | .restart, s => some { s with completed := [], deliveries := [] }

end Handling

end WorkflowWorld.Dispatcher
