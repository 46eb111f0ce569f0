/-
One claimed job, start to finish (`dispatchMessage` of `src/dispatcher/dispatcher.ts`, `makeHandler` of
`src/dispatcher/runner.ts`): the calls that a handler makes of what it depends on, each of which may
answer or throw, and what it comes to. The dedup and the deliveries under way at the same time are in
`Handler`; here they are what a handler finds.
-/
import WorkflowWorld.Dispatcher.Handler
import WorkflowWorld.Dispatcher.Accounting

namespace WorkflowWorld.Dispatcher

/-! ## Fairness -/

/-- `wake` holds only hook wakes that bypassed a run queue. -/
inductive FairnessLane where
  | delivery | wake
  deriving DecidableEq, Repr

/-- The two maps of `createFairness`. -/
abbrev Lanes := FairnessLane → TenantId → Option Nat

namespace Lanes

def empty : Lanes := fun _ _ => none

def set (f : Lanes) (tenantId : TenantId) (lane : FairnessLane) (value : Option Nat) : Lanes := fun l t =>
  if l = lane ∧ t = tenantId then value else f l t

def acquire (f : Lanes) (tenantId : TenantId) (lane : FairnessLane) : Lanes :=
  f.set tenantId lane (some ((f lane tenantId).getD 0 + 1))

/-- A count that comes to 0 is deleted. -/
def release (f : Lanes) (tenantId : TenantId) (lane : FairnessLane) : Lanes :=
  let next := (f lane tenantId).getD 1 - 1
  f.set tenantId lane (if next = 0 then none else some next)

end Lanes

/-- What a call does to the counts. -/
inductive FairnessOp where
  | acquire (tenantId : TenantId) (lane : FairnessLane)
  | release (tenantId : TenantId) (lane : FairnessLane)
  deriving DecidableEq, Repr

def FairnessOp.apply (f : Lanes) : FairnessOp → Lanes
  | .acquire tenantId lane => f.acquire tenantId lane
  | .release tenantId lane => f.release tenantId lane

/-- Every release is of something that is held. -/
def Lanes.Holds (f : Lanes) : List FairnessOp → Prop
  | [] => True
  | op :: ops =>
    (∀ tenantId lane, op = .release tenantId lane → (f lane tenantId).getD 0 ≠ 0) ∧ (op.apply f).Holds ops

/-! ## Calls -/

/-- What a handler reads of its job. -/
structure JobHelpers where
  attempts : Nat
  max_attempts : Nat
  flags : List String := []
  deriving DecidableEq, Repr

/-- `readIsFinalAttempt`. -/
def JobHelpers.isFinalAttempt (job : JobHelpers) : Bool := decide (job.attempts ≥ job.max_attempts)

/-- `readFairnessLane`. -/
def JobHelpers.fairnessLane (job : JobHelpers) (tenantId : TenantId) : FairnessLane :=
  if job.flags.contains (wakeFlag tenantId) then .wake else .delivery

/-- What `dedup.run` finds of a key: nothing, that it completed, or that it is in flight, with what comes
of awaiting that. -/
inductive DedupFinds where
  | free
  | completed
  | inflight (existing : Except String Unit)
  deriving DecidableEq, Repr

structure VqsRequest where
  queueName : String
  messageId : MessageId
  attempt : Nat
  deliveryCount : Nat
  body : Body
  headers : Option (List (String × String))
  tenantId : TenantId
  deploymentId : String
  runId : Option RunId
  deriving DecidableEq, Repr

/-- A call of something the handler depends on, with its answer. -/
inductive DepCall where
  | dedup (key : String) (finds : DedupFinds)
  | runLookup (tenantId : TenantId) (runId : RunId) (answer : Except String (Option RunView))
  | activate (deploymentId ownerId : String) (answer : Except String ActivationResult)
  | post (request : VqsRequest) (answer : Except String VqsResult)
  | releaseLease (answer : Except String Unit)
  | reenqueue (jobName : String) (message : Message) (delaySeconds : Nat) (answer : Except String Unit)
  | onDeadLetter (message : Message) (reason jobName queueName : String) (answer : Except String Unit)
  deriving DecidableEq, Repr

/-- How the dependencies of one handler behave. `exhausted` is what the failure tracker reports for a 5xx
of a run, once its streak is exhausted. -/
structure Deps where
  getQueueTopicPrefix : Option String → Except String String
  finds : String → DedupFinds
  runLookup : TenantId → RunId → Except String (Option RunView)
  activate : String → Except String ActivationResult
  post : VqsRequest → Except String VqsResult
  releaseLease : Except String Unit
  exhausted : Option Streak
  reenqueue : Message → Nat → Except String Unit
  onDeadLetter : String → Except String Unit

/-- What a piece of the handler comes to, and the calls it made. -/
@[ext]
structure Traced (α : Type) where
  result : Except String α
  calls : List DepCall

namespace Traced

variable {α β : Type}

def pure (a : α) : Traced α := ⟨.ok a, []⟩

def throw_ (error : String) : Traced α := ⟨.error error, []⟩

def bind (x : Traced α) (f : α → Traced β) : Traced β :=
  match x.result with
  | .ok a => ⟨(f a).result, x.calls ++ (f a).calls⟩
  | .error error => ⟨.error error, x.calls⟩

/-- `await` of a call. -/
def call (answer : Except String α) (call : Except String α → DepCall) : Traced α := ⟨answer, [call answer]⟩

/-- `try { x } catch (error) { handler(error) }`. -/
def catch_ (x : Traced α) (handler : String → Traced α) : Traced α :=
  match x.result with
  | .ok _ => x
  | .error error => ⟨(handler error).result, x.calls ++ (handler error).calls⟩

/-- `try { x } finally { y }`: what `y` throws takes the place of what came of `x`. -/
def finally_ (x : Traced α) (y : Traced Unit) : Traced α :=
  match y.result with
  | .ok _ => ⟨x.result, x.calls ++ y.calls⟩
  | .error error => ⟨.error error, x.calls ++ y.calls⟩

end Traced

instance : Monad Traced where
  pure := Traced.pure
  bind := Traced.bind

@[simp] theorem Traced.pure_eq {α : Type} (a : α) : (Pure.pure a : Traced α) = ⟨.ok a, []⟩ := rfl

theorem Traced.bind_ok {α β : Type} {x : Traced α} {f : α → Traced β} {a : α} (h : x.result = .ok a) :
    (x >>= f) = ⟨(f a).result, x.calls ++ (f a).calls⟩ := by
  show Traced.bind x f = _
  rw [Traced.bind, h]

theorem Traced.bind_error {α β : Type} {x : Traced α} {f : α → Traced β} {error : String}
    (h : x.result = .error error) : (x >>= f) = ⟨.error error, x.calls⟩ := by
  show Traced.bind x f = _
  rw [Traced.bind, h]

/-! ## The handler -/

section Handler

variable (w : World) (deps : Deps)

/-- `resolveAffinity`: the run is looked up when the message names one. -/
def Deps.resolveAffinity (message : Message) : Traced Affinity :=
  match message.runId with
  | none => pure (Dispatcher.resolveAffinity message fun _ => none)
  | some runId => do
    let run ← Traced.call (deps.runLookup message.tenantId runId) (.runLookup message.tenantId runId)
    pure (Dispatcher.resolveAffinity message fun _ => run)

/-- `withRenewedLease` around `postVqsMessage`. Renewals that fail abort the request, which is a way for it
to end. -/
def Deps.postWithLease (request : VqsRequest) : Traced VqsResult :=
  Traced.finally_ (.call (deps.post request) (.post request)) (.call deps.releaseLease .releaseLease)

/-- The request of a dispatch. -/
def vqsRequest (message : Message) (queueName : String) (delivery : Delivered) (deploymentId : String)
    (runId : Option RunId) : VqsRequest where
  queueName := queueName
  messageId := message.messageId
  attempt := delivery.attempt
  deliveryCount := delivery.deliveryCount
  body := message.data
  headers := message.headers
  tenantId := message.tenantId
  deploymentId := deploymentId
  runId := runId

/-- The end of `dispatchMessage`, with an executor to go to. -/
def Deps.postMessage (message : Message) (jobName queueName : String) (delivery : Delivered) (deploymentId : String)
    (runId : Option RunId) : Traced DispatchOutcome := do
  let result ← deps.postWithLease (vqsRequest message queueName delivery deploymentId runId)
  match result with
  | .reschedule timeoutSeconds =>
    let next := w.continuationOf message delivery timeoutSeconds message.data
    Traced.call (deps.reenqueue next timeoutSeconds) (.reenqueue jobName next timeoutSeconds)
    pure (.rescheduled timeoutSeconds)
  | _ => pure (result.outcome runId deps.exhausted)

/-- `dispatchMessage`. -/
def Deps.dispatchMessage (message : Message) (jobName queueName : String) (delivery : Delivered) :
    Traced DispatchOutcome := do
  let affinity ← deps.resolveAffinity message
  match affinity with
  | .terminal _ | .quarantined _ => pure .completed
  | .deployment deploymentId runId =>
    let activation ← Traced.call (deps.activate deploymentId)
      (.activate deploymentId ("workflow-dispatcher:" ++ message.messageId))
    match activation.outcome deploymentId with
    | some outcome => pure outcome
    | none => deps.postMessage w message jobName queueName delivery deploymentId runId

/-- `dedup.run`: `none` means that the message was swallowed. -/
def Deps.dedupRun (idempotencyKey : Option String) (execute : Traced DispatchOutcome) :
    Traced (Option DispatchOutcome) :=
  match idempotencyKey with
  | none => do
    let outcome ← execute
    pure (some outcome)
  | some key => do
    Traced.call (.ok ()) fun _ => .dedup key (deps.finds key)
    match deps.finds key with
    | .completed => pure none
    | .inflight existing =>
      Traced.mk existing []
      pure none
    | .free =>
      let outcome ← execute
      pure (some outcome)

/-- The body of the outer `try`. -/
def Deps.deliver (job : JobHelpers) (message : Message) (jobName queueName : String) : Traced Unit := do
  let deduped ← Traced.catch_
    (deps.dedupRun message.idempotencyKey
      (deps.dispatchMessage w message jobName queueName (deliveryAccounting message (some job.attempts))))
    fun error => pure (some (Handling.dispatchThrew error))
  let onDeadLetter (reason : String) : Traced Unit :=
    Traced.call (deps.onDeadLetter reason) (.onDeadLetter message reason jobName queueName)
  match deduped with
  | none | some .completed | some (.rescheduled _) => pure ()
  | some (.deadLetter reason) => onDeadLetter reason
  | some (.retry reason) =>
    if job.isFinalAttempt then onDeadLetter ("Retries exhausted. Last failure: " ++ reason)
    else Traced.throw_ reason

/-- What a call of the handler comes to, the calls it made, and the counts it leaves; `others` is what
other calls do to the counts while this one awaits. -/
structure Handled where
  result : Except String Unit
  calls : List DepCall
  fairness : Lanes

/-- `makeHandler(jobName)`. -/
def Deps.handle (jobName : String) (job : JobHelpers) (message : Message) (others : List FairnessOp)
    (fairness : Lanes) : Handled :=
  match deps.getQueueTopicPrefix message.queueNamespace with
  | .error error => ⟨.error error, [], others.foldl FairnessOp.apply fairness⟩
  | .ok topicPrefix =>
    let lane := job.fairnessLane message.tenantId
    let acquired := fairness.acquire message.tenantId lane
    let delivered := deps.deliver w job message jobName (topicPrefix ++ message.id)
    ⟨delivered.result, delivered.calls,
      (others.foldl FairnessOp.apply acquired).release message.tenantId lane⟩

end Handler

/-! ## What a handler comes to -/

namespace DepCall

/-- The executor completed the message. -/
def executes : DepCall → Bool
  | .post _ (.ok .completed) => true
  | _ => false

/-- A follow-up job was enqueued. -/
def followsUp : DepCall → Bool
  | .reenqueue _ _ _ (.ok ()) => true
  | _ => false

/-- The run turned out to be terminal or quarantined. -/
def drops : DepCall → Bool
  | .runLookup _ _ (.ok (some run)) => run.status.isTerminal || run.quarantined
  | _ => false

/-- An earlier delivery of the key has completed, or a concurrent one has been waited for. -/
def suppresses : DepCall → Bool
  | .dedup _ .completed | .dedup _ (.inflight (.ok ())) => true
  | _ => false

/-- A dead letter was to be inserted. -/
def letters : DepCall → Bool
  | .onDeadLetter .. => true
  | _ => false

/-- A dead letter was inserted. -/
def inserts : DepCall → Bool
  | .onDeadLetter _ _ _ _ (.ok ()) => true
  | _ => false

end DepCall

/-- The ways for a handler to end. -/
inductive HandlerEnd where
  | executed | followedUp | deadLettered | dropped | suppressed | threw
  deriving DecidableEq, Repr

/-- A handler that returned, or threw, ended in this way. What it returned after is the last of what it
did: a dead letter, if it inserted one. -/
def Handled.Ends (h : Handled) : HandlerEnd → Prop
  | .executed => h.result = .ok () ∧ h.calls.any (·.executes) ∧ ¬ h.calls.any (·.letters)
  | .followedUp => h.result = .ok () ∧ h.calls.any (·.followsUp) ∧ ¬ h.calls.any (·.letters)
  | .deadLettered => h.result = .ok () ∧ h.calls.any (·.inserts)
  | .dropped => h.result = .ok () ∧ h.calls.any (·.drops) ∧ ¬ h.calls.any (·.letters)
  | .suppressed => h.result = .ok () ∧ h.calls.any (·.suppresses) ∧ ¬ h.calls.any (·.letters)
  | .threw => ∃ error, h.result = .error error

/-- A call that none of the ends is about. -/
def DepCall.quiet (c : DepCall) : Bool := !(c.executes || c.followsUp || c.drops || c.suppresses || c.letters)

/-- What the calls of a dispatch say of what it comes to. -/
structure Accounts (calls : List DepCall) (result : Except String DispatchOutcome) : Prop where
  noLetter : calls.any (·.letters) = false
  noSuppression : calls.any (·.suppresses) = false
  completed : result = .ok .completed → calls.any (·.followsUp) = false ∧
    calls.any (·.executes) = !calls.any (·.drops)
  rescheduled : ∀ timeoutSeconds, result = .ok (.rescheduled timeoutSeconds) →
    calls.any (·.followsUp) = true ∧ calls.any (·.executes) = false ∧ calls.any (·.drops) = false

section Proofs

variable {w : World} {deps : Deps} {message : Message} {jobName queueName : String} {delivery : Delivered}

theorem Accounts.quiet_cons {c : DepCall} (hc : c.quiet) {calls : List DepCall}
    {result : Except String DispatchOutcome} (h : Accounts calls result) : Accounts (c :: calls) result := by
  simp only [DepCall.quiet, Bool.not_eq_true', Bool.or_eq_false_iff] at hc
  obtain ⟨⟨⟨⟨h₁, h₂⟩, h₃⟩, h₄⟩, h₅⟩ := hc
  refine ⟨?_, ?_, fun hr => ?_, fun timeoutSeconds hr => ?_⟩
  · rw [List.any_cons, h₅, h.noLetter]
    rfl
  · rw [List.any_cons, h₄, h.noSuppression]
    rfl
  · simpa only [List.any_cons, h₁, h₂, h₃, Bool.false_or] using h.completed hr
  · simpa only [List.any_cons, h₁, h₂, h₃, Bool.false_or] using h.rescheduled timeoutSeconds hr

/-- A dispatch that ends in a dead letter, a retry or an exception, with quiet calls only. -/
theorem Accounts.of_quiet {calls : List DepCall} (hc : ∀ c ∈ calls, c.quiet)
    {result : Except String DispatchOutcome} (h₁ : result ≠ .ok .completed)
    (h₂ : ∀ timeoutSeconds, result ≠ .ok (.rescheduled timeoutSeconds)) : Accounts calls result := by
  induction calls with
  | nil => exact ⟨rfl, rfl, fun h => absurd h h₁, fun n h => absurd h (h₂ n)⟩
  | cons c calls ih => exact (ih fun c' h' => hc c' (List.mem_cons_of_mem _ h')).quiet_cons (hc c List.mem_cons_self)

theorem VqsResult.outcome_failed (runId : Option RunId) (streak : Option Streak) (status : Nat) (text : String)
    (retryable : Bool) : (VqsResult.failed status text retryable).outcome runId streak ≠ .completed ∧
      ∀ timeoutSeconds, (VqsResult.failed status text retryable).outcome runId streak ≠ .rescheduled timeoutSeconds := by
  unfold VqsResult.outcome
  split
  · rename_i h
    cases h
  · rename_i h
    cases h
  · exact ⟨by rintro ⟨⟩, by rintro _ ⟨⟩⟩
  · split
    · split
      · exact ⟨by rintro ⟨⟩, by rintro _ ⟨⟩⟩
      · exact ⟨by rintro ⟨⟩, by rintro _ ⟨⟩⟩
    · exact ⟨by rintro ⟨⟩, by rintro _ ⟨⟩⟩

theorem postMessage_accounts (deploymentId : String) (runId : Option RunId) :
    Accounts (deps.postMessage w message jobName queueName delivery deploymentId runId).calls
      (deps.postMessage w message jobName queueName delivery deploymentId runId).result := by
  unfold Deps.postMessage
  generalize vqsRequest message queueName delivery deploymentId runId = request
  have hcalls : (deps.postWithLease request).calls =
      [.post request (deps.post request), .releaseLease deps.releaseLease] := by
    unfold Deps.postWithLease Traced.finally_ Traced.call
    cases deps.releaseLease <;> rfl
  cases hlease : (deps.postWithLease request).result with
  | error error =>
    rw [Traced.bind_error hlease, hcalls]
    exact ⟨rfl, rfl, by rintro ⟨⟩, by rintro _ ⟨⟩⟩
  | ok result =>
    -- The lease was released, and the answer is the executor's.
    obtain ⟨hrelease, hpost⟩ : deps.releaseLease = .ok () ∧ deps.post request = .ok result := by
      unfold Deps.postWithLease Traced.finally_ Traced.call at hlease
      cases hr : deps.releaseLease with
      | error error =>
        rw [hr] at hlease
        cases hlease
      | ok _ =>
        rw [hr] at hlease
        exact ⟨rfl, hlease⟩
    rw [Traced.bind_ok hlease, hcalls, hrelease, hpost]
    cases result with
    | completed => exact ⟨rfl, rfl, fun _ => ⟨rfl, rfl⟩, by rintro _ ⟨⟩⟩
    | failed status text retryable =>
      obtain ⟨h₁, h₂⟩ := VqsResult.outcome_failed runId deps.exhausted status text retryable
      refine .quiet_cons rfl (.quiet_cons rfl (.of_quiet (List.forall_mem_nil _) ?_ ?_))
      · simpa using h₁
      · simpa using h₂
    | reschedule timeoutSeconds =>
      simp only
      generalize w.continuationOf message delivery timeoutSeconds message.data = next
      cases hnext : deps.reenqueue next timeoutSeconds with
      | error error => exact ⟨rfl, rfl, by rintro ⟨⟩, by rintro _ ⟨⟩⟩
      | ok _ => exact ⟨rfl, rfl, by rintro ⟨⟩, fun _ _ => ⟨rfl, rfl, rfl⟩⟩

/-- What the lookup is asked, and whether it drops the message. -/
theorem resolveAffinity_calls (deps : Deps) (message : Message) :
    (∃ error, (deps.resolveAffinity message).result = .error error) ∧
      (∀ c ∈ (deps.resolveAffinity message).calls, c.quiet) ∨
    (∃ deploymentId runId, (deps.resolveAffinity message).result = .ok (.deployment deploymentId runId)) ∧
      (∀ c ∈ (deps.resolveAffinity message).calls, c.quiet) ∨
    (∃ reason, (deps.resolveAffinity message).result = .ok (.terminal reason) ∨
      (deps.resolveAffinity message).result = .ok (.quarantined reason)) ∧
      ∃ runId run, (deps.resolveAffinity message).calls = [.runLookup message.tenantId runId (.ok (some run))] ∧
        (run.status.isTerminal || run.quarantined) = true := by
  unfold Deps.resolveAffinity
  cases hrun : message.runId with
  | none =>
    refine .inr (.inl ⟨⟨message.deploymentId, none, ?_⟩, List.forall_mem_nil _⟩)
    simp [resolveAffinity, hrun]
  | some runId =>
    simp only
    cases hanswer : deps.runLookup message.tenantId runId with
    | error error =>
      refine .inl ⟨⟨error, rfl⟩, fun c hc => ?_⟩
      obtain rfl := List.mem_singleton.1 hc
      rfl
    | ok answer =>
      rw [Traced.bind_ok rfl]
      simp only [Traced.call, Traced.pure_eq, List.append_nil, resolveAffinity, hrun]
      cases answer with
      | none =>
        refine .inr (.inl ⟨⟨_, _, rfl⟩, fun c hc => ?_⟩)
        obtain rfl := List.mem_singleton.1 hc
        rfl
      | some run =>
        by_cases ht : run.status.isTerminal
        · simp only [if_pos ht]
          exact .inr (.inr ⟨⟨_, .inl rfl⟩, runId, run, rfl, by simp [ht]⟩)
        · by_cases hq : run.quarantined
          · simp only [if_neg ht, if_pos hq]
            exact .inr (.inr ⟨⟨_, .inr rfl⟩, runId, run, rfl, by simp [hq]⟩)
          · refine .inr (.inl ⟨⟨run.deploymentId, some runId, ?_⟩, fun c hc => ?_⟩)
            · simp only [if_neg ht, if_neg hq]
            · obtain rfl := List.mem_singleton.1 hc
              simp [DepCall.quiet, DepCall.executes, DepCall.followsUp, DepCall.drops, DepCall.suppresses,
                DepCall.letters, ht, hq]

theorem Accounts.quiet_append {pre calls : List DepCall} (hpre : ∀ c ∈ pre, c.quiet)
    {result : Except String DispatchOutcome} (h : Accounts calls result) : Accounts (pre ++ calls) result := by
  induction pre with
  | nil => exact h
  | cons c pre ih => exact (ih fun c' h' => hpre c' (List.mem_cons_of_mem _ h')).quiet_cons (hpre c List.mem_cons_self)

theorem dispatchMessage_accounts (deps : Deps) (message : Message) (jobName queueName : String) (delivery : Delivered) :
    Accounts (deps.dispatchMessage w message jobName queueName delivery).calls
      (deps.dispatchMessage w message jobName queueName delivery).result := by
  unfold Deps.dispatchMessage
  rcases resolveAffinity_calls deps message with ⟨⟨error, hr⟩, hq⟩ |
    ⟨⟨deploymentId, runId, hr⟩, hq⟩ | ⟨⟨reason, hr⟩, runId, run, hc, hd⟩
  · rw [Traced.bind_error hr]
    exact .of_quiet hq (by rintro ⟨⟩) (by rintro _ ⟨⟩)
  · rw [Traced.bind_ok hr]
    refine .quiet_append hq ?_
    simp only
    cases ha : deps.activate deploymentId with
    | error error =>
      rw [Traced.bind_error rfl]
      exact .quiet_cons rfl (.of_quiet (List.forall_mem_nil _) (by rintro ⟨⟩) (by rintro _ ⟨⟩))
    | ok activation =>
      rw [Traced.bind_ok rfl]
      refine .quiet_cons rfl ?_
      cases activation with
      | activated => exact postMessage_accounts deploymentId runId
      | notActivatable text => exact .of_quiet (List.forall_mem_nil _) (by rintro ⟨⟩) (by rintro _ ⟨⟩)
      | unavailable status text => exact .of_quiet (List.forall_mem_nil _) (by rintro ⟨⟩) (by rintro _ ⟨⟩)
  · -- The message is dropped: nothing but the lookup has been asked.
    have hdropped : Accounts [.runLookup message.tenantId runId (.ok (some run))] (.ok .completed) :=
      ⟨rfl, rfl, fun _ => ⟨rfl, by simp [DepCall.executes, DepCall.drops, hd]⟩, by rintro _ ⟨⟩⟩
    rcases hr with hr | hr
    · rw [Traced.bind_ok hr, hc]
      exact hdropped
    · rw [Traced.bind_ok hr, hc]
      exact hdropped

/-- The answer of the dedup, with what the calls so far say of it. -/
inductive Deduped (calls : List DepCall) : Except String (Option DispatchOutcome) → Prop where
  | swallowed : calls.any (·.letters) = false → calls.any (·.suppresses) = true →
      calls.any (·.executes) = false → calls.any (·.followsUp) = false → calls.any (·.drops) = false →
      Deduped calls (.ok none)
  | dispatched {outcome : DispatchOutcome} : Accounts calls (.ok outcome) → Deduped calls (.ok (some outcome))
  | threw {error : String} : calls.any (·.letters) = false → Deduped calls (.error error)

theorem dedupRun_deduped (deps : Deps) {execute : Traced DispatchOutcome}
    (h : Accounts execute.calls execute.result) (idempotencyKey : Option String) :
    Deduped (deps.dedupRun idempotencyKey execute).calls (deps.dedupRun idempotencyKey execute).result := by
  have hexec : ∀ pre : List DepCall, (∀ c ∈ pre, c.quiet) →
      Deduped (pre ++ (execute >>= fun outcome => pure (some outcome)).calls)
        (execute >>= fun outcome => pure (some outcome)).result := by
    intro pre hpre
    cases hr : execute.result with
    | error error =>
      rw [Traced.bind_error hr]
      exact .threw (Accounts.quiet_append hpre h).noLetter
    | ok outcome =>
      rw [Traced.bind_ok hr]
      rw [hr] at h
      simpa using Deduped.dispatched (Accounts.quiet_append hpre h)
  unfold Deps.dedupRun
  cases idempotencyKey with
  | none => exact hexec [] (List.forall_mem_nil _)
  | some key =>
    simp only
    rw [Traced.bind_ok rfl]
    cases hfinds : deps.finds key with
    | free =>
      refine hexec [.dedup key .free] fun c hc => ?_
      obtain rfl := List.mem_singleton.1 hc
      rfl
    | completed => exact .swallowed rfl rfl rfl rfl rfl
    | inflight existing =>
      cases existing with
      | error error => exact .threw rfl
      | ok _ => exact .swallowed rfl rfl rfl rfl rfl

/-- What a handler that has called the dead letter comes to. -/
theorem Handled.ends_letter (pre : List DepCall) (reason : String) (answer : Except String Unit) (fairness : Lanes) :
    ∃! ending, (Handled.mk answer (pre ++ [.onDeadLetter message reason jobName queueName answer]) fairness).Ends
      ending := by
  cases answer with
  | error error =>
    refine ⟨.threw, ⟨error, rfl⟩, fun ending' h' => ?_⟩
    cases ending' with
    | threw => rfl
    | _ => exact absurd h'.1 (by simp)
  | ok _ =>
    refine ⟨.deadLettered, ⟨rfl, by simp [DepCall.inserts]⟩, fun ending' h' => ?_⟩
    cases ending' with
    | deadLettered => rfl
    | threw => exact absurd h'.choose_spec (by simp)
    | _ => exact absurd h'.2.2 (by simp [DepCall.letters])

/-- What a handler that has called no dead letter returned after. -/
def returnedAfter (calls : List DepCall) : HandlerEnd → Bool
  | .executed => calls.any (·.executes)
  | .followedUp => calls.any (·.followsUp)
  | .dropped => calls.any (·.drops)
  | .suppressed => calls.any (·.suppresses)
  | .deadLettered | .threw => false

theorem Handled.ends_iff {calls : List DepCall} (hl : calls.any (·.letters) = false) (fairness : Lanes)
    (ending : HandlerEnd) :
    (Handled.mk (.ok ()) calls fairness).Ends ending ↔ returnedAfter calls ending = true := by
  have hins : calls.any (·.inserts) = false := by
    rw [List.any_eq_false] at hl ⊢
    intro c hc hi
    refine hl c hc ?_
    cases c with
    | onDeadLetter => rfl
    | _ => cases hi
  cases ending <;> simp [Handled.Ends, returnedAfter, hl, hins]

theorem Handled.ends_returned {calls : List DepCall} (fairness : Lanes) {answer : Option DispatchOutcome}
    (h : Deduped calls (.ok answer)) (h₁ : ∀ reason, answer ≠ some (.deadLetter reason))
    (h₂ : ∀ reason, answer ≠ some (.retry reason)) :
    ∃! ending, (Handled.mk (.ok ()) calls fairness).Ends ending := by
  cases h with
  | swallowed hl hs he hf hd =>
    simp only [Handled.ends_iff hl]
    refine ⟨.suppressed, hs, fun ending h' => ?_⟩
    cases ending <;> simp only [returnedAfter, he, hf, hd, Bool.false_eq_true] at h' ⊢
  | @dispatched outcome h =>
    have hl := h.noLetter
    have hs := h.noSuppression
    simp only [Handled.ends_iff hl]
    cases outcome with
    | completed =>
      obtain ⟨hf, he⟩ := h.completed rfl
      cases hd : calls.any (·.drops) with
      | true =>
        rw [hd] at he
        refine ⟨.dropped, hd, fun ending h' => ?_⟩
        cases ending <;> simp only [returnedAfter, he, hf, hs, Bool.not_true, Bool.false_eq_true] at h' ⊢
      | false =>
        rw [hd] at he
        refine ⟨.executed, he, fun ending h' => ?_⟩
        cases ending <;> simp only [returnedAfter, hd, hf, hs, Bool.false_eq_true] at h' ⊢
    | rescheduled timeoutSeconds =>
      obtain ⟨hf, he, hd⟩ := h.rescheduled timeoutSeconds rfl
      refine ⟨.followedUp, hf, fun ending h' => ?_⟩
      cases ending <;> simp only [returnedAfter, he, hd, hs, Bool.false_eq_true] at h' ⊢
    | deadLetter reason => exact absurd rfl (h₁ reason)
    | retry reason => exact absurd rfl (h₂ reason)

theorem Deduped.noLetter {calls : List DepCall} {answer : Except String (Option DispatchOutcome)}
    (h : Deduped calls answer) : calls.any (·.letters) = false := by
  cases h with
  | swallowed hl => exact hl
  | dispatched h => exact h.noLetter
  | threw hl => exact hl

/-- What the inner `try` leaves: the answer of the dedup, or the exception as a retry. -/
theorem catch_deduped {x : Traced (Option DispatchOutcome)} (h : Deduped x.calls x.result) :
    ∃ answer, x.catch_ (fun error => pure (some (Handling.dispatchThrew error))) = ⟨.ok answer, x.calls⟩ ∧
      (Deduped x.calls (.ok answer) ∨ ∃ error, answer = some (Handling.dispatchThrew error)) := by
  unfold Traced.catch_
  cases hr : x.result with
  | ok answer =>
    refine ⟨answer, ?_, .inl (hr ▸ h)⟩
    ext1
    · exact hr
    · rfl
  | error error => exact ⟨some (Handling.dispatchThrew error), by simp, .inr ⟨error, rfl⟩⟩

/-- What the body of the handler comes to. -/
theorem deliver_ends (deps : Deps) (message : Message) (jobName queueName : String) (job : JobHelpers)
    (fairness : Lanes) :
    (∃! ending, (Handled.mk (deps.deliver w job message jobName queueName).result
      (deps.deliver w job message jobName queueName).calls fairness).Ends ending) ∧
    ∀ error, (deps.deliver w job message jobName queueName).result = .error error →
      job.attempts < job.max_attempts ∨
        ∃ reason, .onDeadLetter message reason jobName queueName (.error error) ∈
          (deps.deliver w job message jobName queueName).calls := by
  have hdispatch := dispatchMessage_accounts (w := w) deps message jobName queueName
    (deliveryAccounting message (some job.attempts))
  obtain ⟨answer, hcatch, hanswer⟩ := catch_deduped (dedupRun_deduped deps hdispatch message.idempotencyKey)
  unfold Deps.deliver
  rw [hcatch, Traced.bind_ok rfl]
  generalize (deps.dedupRun message.idempotencyKey _).calls = calls at hanswer
  -- A letter ends the handler as its insert does.
  have hletter : ∀ reason, (∃! ending, (Handled.mk (deps.onDeadLetter reason)
      (calls ++ [.onDeadLetter message reason jobName queueName (deps.onDeadLetter reason)]) fairness).Ends ending) ∧
      ∀ error, deps.onDeadLetter reason = .error error → job.attempts < job.max_attempts ∨
        ∃ reason', .onDeadLetter message reason' jobName queueName (.error error) ∈
          calls ++ [.onDeadLetter message reason jobName queueName (deps.onDeadLetter reason)] := by
    intro reason
    refine ⟨Handled.ends_letter calls reason (deps.onDeadLetter reason) fairness, fun error herror => .inr ⟨reason, ?_⟩⟩
    rw [herror]
    simp
  have hreturned : (∀ reason, answer ≠ some (.deadLetter reason)) → (∀ reason, answer ≠ some (.retry reason)) →
      (∃! ending, (Handled.mk (.ok ()) (calls ++ []) fairness).Ends ending) := by
    intro h₁ h₂
    rw [List.append_nil]
    rcases hanswer with hanswer | ⟨error, rfl⟩
    · exact Handled.ends_returned fairness hanswer h₁ h₂
    · exact absurd rfl (h₂ _)
  match answer with
  | none => exact ⟨hreturned (by simp) (by simp), by rintro _ ⟨⟩⟩
  | some .completed => exact ⟨hreturned (by simp) (by simp), by rintro _ ⟨⟩⟩
  | some (.rescheduled _) => exact ⟨hreturned (by simp) (by simp), by rintro _ ⟨⟩⟩
  | some (.deadLetter reason) => exact hletter reason
  | some (.retry reason) =>
    cases hfinal : job.isFinalAttempt with
    | true =>
      simp only [if_true]
      exact hletter _
    | false =>
      have hless : job.attempts < job.max_attempts := by simpa [JobHelpers.isFinalAttempt] using hfinal
      simp only [Bool.false_eq_true, if_false]
      refine ⟨⟨.threw, ⟨reason, rfl⟩, fun ending h' => ?_⟩, fun _ _ => .inl hless⟩
      cases ending with
      | threw => rfl
      | _ => exact absurd h'.1 (by simp [Traced.throw_])

end Proofs

/-! ## The counts -/

namespace Lanes

/-- No count is 0: it would have been deleted. -/
def Positive (f : Lanes) : Prop := ∀ lane tenantId, f lane tenantId ≠ some 0

theorem Positive.apply {f : Lanes} (h : f.Positive) (op : FairnessOp) : (op.apply f).Positive := by
  intro l t
  cases op with
  | acquire tenantId lane =>
    simp only [FairnessOp.apply, acquire, set]
    split
    · simp
    · exact h l t
  | release tenantId lane =>
    simp only [FairnessOp.apply, release, set]
    split
    · split
      · simp
      · simpa using ‹_›
    · exact h l t

theorem Positive.foldl {f : Lanes} (h : f.Positive) (ops : List FairnessOp) :
    (ops.foldl FairnessOp.apply f).Positive := by
  induction ops generalizing f with
  | nil => exact h
  | cons op ops ih => exact ih (h.apply op)

@[simp] theorem set_self (f : Lanes) (tenantId : TenantId) (lane : FairnessLane) (value : Option Nat) :
    f.set tenantId lane value lane tenantId = value := by
  simp [set]

theorem set_of_ne (f : Lanes) {tenantId t : TenantId} {lane l : FairnessLane} (h : ¬ (l = lane ∧ t = tenantId))
    (value : Option Nat) : f.set tenantId lane value l t = f l t := by
  simp only [set, if_neg h]

@[simp] theorem set_set (f : Lanes) (tenantId : TenantId) (lane : FairnessLane) (v v' : Option Nat) :
    (f.set tenantId lane v).set tenantId lane v' = f.set tenantId lane v' := by
  funext l t
  simp only [set]
  split <;> rfl

theorem set_comm (f : Lanes) {tenantId tenantId' : TenantId} {lane lane' : FairnessLane}
    (h : ¬ (lane = lane' ∧ tenantId = tenantId')) (v v' : Option Nat) :
    (f.set tenantId lane v).set tenantId' lane' v' = (f.set tenantId' lane' v').set tenantId lane v := by
  funext l t
  simp only [set]
  split
  · rename_i h'
    rw [if_neg]
    rintro ⟨rfl, rfl⟩
    exact h h'
  · rfl

theorem set_eq_self {f : Lanes} {tenantId : TenantId} {lane : FairnessLane} {value : Option Nat}
    (h : f lane tenantId = value) : f.set tenantId lane value = f := by
  funext l t
  simp only [set]
  split
  · rename_i h'
    rw [h'.1, h'.2, h]
  · rfl

/-- A release undoes an acquire. -/
theorem release_acquire {f : Lanes} (h : f.Positive) (tenantId : TenantId) (lane : FairnessLane) :
    (f.acquire tenantId lane).release tenantId lane = f := by
  simp only [release, acquire, set_self, set_set, Option.getD_some, Nat.add_sub_cancel]
  refine set_eq_self ?_
  cases hf : f lane tenantId with
  | none => rfl
  | some n =>
    have hn : n ≠ 0 := fun h₀ => h lane tenantId (by rw [hf, h₀])
    simp [hn]

/-- An acquire commutes with what other calls do, as long as they release what they hold. -/
theorem apply_acquire {f : Lanes} (h : f.Positive) {op : FairnessOp}
    (hop : ∀ tenantId lane, op = .release tenantId lane → (f lane tenantId).getD 0 ≠ 0)
    (tenantId : TenantId) (lane : FairnessLane) :
    op.apply (f.acquire tenantId lane) = (op.apply f).acquire tenantId lane := by
  cases op with
  | acquire tenantId' lane' =>
    by_cases hsame : lane' = lane ∧ tenantId' = tenantId
    · obtain ⟨rfl, rfl⟩ := hsame
      rfl
    · have hsame' : ¬ (lane = lane' ∧ tenantId = tenantId') := fun h' => hsame ⟨h'.1.symm, h'.2.symm⟩
      simp only [FairnessOp.apply, acquire, set_of_ne _ hsame, set_of_ne _ hsame']
      exact set_comm f hsame' _ _
  | release tenantId' lane' =>
    by_cases hsame : lane' = lane ∧ tenantId' = tenantId
    · obtain ⟨rfl, rfl⟩ := hsame
      -- The count is held, so that it is there when it is acquired again.
      have hheld := hop tenantId' lane' rfl
      rw [FairnessOp.apply, release_acquire h]
      simp only [FairnessOp.apply, acquire, release, set_self, set_set]
      refine (set_eq_self ?_).symm
      cases hf : f lane' tenantId' with
      | none =>
        rw [hf] at hheld
        exact absurd rfl hheld
      | some n =>
        rw [hf] at hheld
        simp only [Option.getD_some] at hheld ⊢
        split
        · rw [Option.getD_none]
          congr 1
          omega
        · rw [Option.getD_some]
          congr 1
          omega
    · have hsame' : ¬ (lane = lane' ∧ tenantId = tenantId') := fun h' => hsame ⟨h'.1.symm, h'.2.symm⟩
      simp only [FairnessOp.apply, acquire, release, set_of_ne _ hsame, set_of_ne _ hsame']
      exact set_comm f hsame' _ _

/-- What a call acquires and releases around what other calls do leaves what those leave. -/
theorem release_foldl_acquire {f : Lanes} (h : f.Positive) {others : List FairnessOp} (hothers : f.Holds others)
    (tenantId : TenantId) (lane : FairnessLane) :
    (others.foldl FairnessOp.apply (f.acquire tenantId lane)).release tenantId lane =
      others.foldl FairnessOp.apply f := by
  induction others generalizing f with
  | nil => exact release_acquire h tenantId lane
  | cons op others ih =>
    rw [List.foldl_cons, List.foldl_cons, apply_acquire h hothers.1]
    exact ih (h.apply op) hothers.2

end Lanes

/-! ## No delivery vanishes -/

/-- A namespace as upstream requires it: `^[a-z][a-z0-9]*$`. -/
def validNamespace (namespace_ : String) : Bool :=
  match namespace_.toList with
  | [] => false
  | c :: cs => c.isLower && cs.all fun c => c.isLower || c.isDigit

/-- The lookup of the run throws, and everything else answers. -/
def lookupDown : Deps where
  getQueueTopicPrefix
    | none => .ok "__wkf_workflow_"
    | some ns => if validNamespace ns then .ok ("__" ++ ns ++ "_wkf_workflow_") else .error "Invalid queue namespace"
  finds _ := .free
  runLookup _ _ := .error "connection refused"
  activate _ := .ok .activated
  post _ := .ok .completed
  releaseLease := .ok ()
  exhausted := none
  reenqueue _ _ := .ok ()
  onDeadLetter _ := .ok ()

end WorkflowWorld.Dispatcher
