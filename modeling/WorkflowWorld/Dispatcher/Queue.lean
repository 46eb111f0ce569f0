/-
The job table that messages wait in and the handlers that take them out: sends by a World (`placeInvoke`
and `addGraphileJob` of `src/queue.ts`), reschedules by the dispatcher and by embedded runners, timers
and the sweep that makes them (`src/timers.ts`), recovery messages (`src/dispatcher/boot-recovery.ts`),
the dedup of keyed deliveries, and graphile's claims, completions, failures and lock reclaims. Each event
is at most one statement on the table, so a crash may come between any two of them. What graphile does
with a job key follows its documentation: adding a job replaces an unlocked job under its key, while a
locked one, or one whose attempts are spent, loses the key and its attempts.
-/
import WorkflowWorld.Dispatcher.Handler

namespace WorkflowWorld.Dispatcher

/-! ## Jobs -/

/-- Who claims a job: the dispatcher, or the runner in the World of a tenant. -/
inductive Runner where
  | dispatcher
  | embedded (tenantId : TenantId)
  deriving DecidableEq, Repr

/-- A graphile task. An embedded runner's tasks have names of their own. -/
structure Task where
  timer : Bool
  runner : Runner
  deriving DecidableEq, Repr

/-- A hook input in the log of a run. -/
structure HookInput where
  run : RunKey
  n : Nat
  deriving DecidableEq, Repr

/-- A job is named by the tenant of its message and a number. -/
abbrev JobRef := TenantId × Nat

/-- Where the handler of a locked job is. -/
inductive LockStage where
  /-- It has not looked at the dedup; a timer's handler has none. -/
  | claimed
  /-- It dispatches the message, or has dispatched it and added the job of a reschedule. -/
  | leading
  | rescheduled
  /-- It waits for the delivery that dispatches under its key. -/
  | joined (leader : JobRef)
  /-- The dedup answered that there is nothing to do, or the dispatch it waited for threw. -/
  | swallowed
  | rejected
  /-- It has returned, or is gone with its process. -/
  | done
  | dead
  deriving DecidableEq, Repr

/-- The handler is through with the job: what remains is that graphile deletes it. -/
def LockStage.over (stage : LockStage) : Bool := stage == .rescheduled || stage == .done

/-- A claim of a job: what graphile handed to the handler. `committed` is not in the table: the hook
inputs of the message's run that were in its log when the job was claimed. -/
structure Lock where
  key : Option String
  attempts : Nat
  stage : LockStage := .claimed
  committed : List HookInput := []
  deriving DecidableEq, Repr

/-- A job. `runQueue` is the payload's field of that name. The last four fields are not in the table:
which send the job stems from, the message as it was sent, when the delivery is due, and whether the job
is the first one of a wake that passes its run's queue. -/
structure QueueJob where
  task : Task
  key : Option String
  queueName : Option String
  flags : List String
  runAt : Nat
  attempts : Nat := 0
  message : Message
  runQueue : Option String := none
  lock : Option Lock := none
  origin : JobRef
  sent : Message
  due : Nat
  bypassing : Bool := false
  deriving DecidableEq, Repr

def Message.run (message : Message) : Option RunKey := message.runId.map fun runId => (message.tenantId, runId)

namespace QueueJob

def spent (job : QueueJob) : Bool := decide (maxGraphileJobAttempts ≤ job.attempts)

/-- Graphile may still deliver the job: it has attempts left, and its handler, if it has one, is not
through with it. -/
def willDeliver (job : QueueJob) : Bool := !job.spent && job.lock.all fun l => !l.stage.over

/-- The job waits for its claim, now or when it is due. -/
def pending (job : QueueJob) : Bool := !job.spent && job.lock.isNone

def holds (key : Option String) (job : QueueJob) : Bool := key.isSome && job.key == key

/-- What is left of a job when another is added under the key. -/
def displaced (key : Option String) (job : QueueJob) : Option QueueJob :=
  if job.holds key then
    if job.pending then none else some { job with key := none, attempts := maxGraphileJobAttempts }
  else some job

def atStage (stage : LockStage) (job : QueueJob) : QueueJob :=
  { job with lock := job.lock.map ({ · with stage }) }

/-- A handler that waits for the leader learns how its dispatch ended. -/
def released (leader : JobRef) (stage : LockStage) (job : QueueJob) : QueueJob :=
  if job.lock.any (·.stage == .joined leader) then job.atStage stage else job

/-- The key that the dedup of the job's runner goes by; an embedded runner takes an empty key for none. -/
def dedupKey (job : QueueJob) : Option String :=
  match job.task.runner with
  | .dispatcher => job.message.idempotencyKey
  | .embedded _ => job.message.idempotencyKey.filter (· ≠ "")

/-- Its handler dispatches. -/
def dispatches (job : QueueJob) : Bool := job.lock.any fun l => l.stage == .leading || l.stage == .rescheduled

end QueueJob

/-! ## Enqueueing -/

def timerHorizonSeconds : Nat := 60

def holdsAsTimer (runQueue : Option String) (delaySeconds : Option Nat) : Bool :=
  runQueue.isSome && delaySeconds.any (timerHorizonSeconds ≤ ·)

def wakeKey (tenantId : TenantId) (runId : RunId) : String := "wfwake:" ++ tenantId ++ ":" ++ runId

/-- Where `placeInvoke` puts a message. -/
structure Placed where
  jobKey : String
  runQueue : Option String
  bypassingWake : Bool
  jobKeyMode : World.JobKeyMode
  deriving DecidableEq, Repr

def Message.jobKey (message : Message) : String := message.idempotencyKey.getD message.messageId

/-- `jobKey ? { jobKey } : {}`. -/
def specKey (jobKey : String) : Option String := if jobKey = "" then none else some jobKey

namespace World

variable (w : World)

/-- `placeInvoke`; `held` is what the read of the run queue's lock answers. -/
def placeInvoke (tenantId : TenantId) (message : Message) (delaySeconds : Option Nat) (held : Bool) : Placed :=
  let placed : Placed :=
    { jobKey := message.jobKey
      runQueue := w.runQueueFor tenantId message.data
      bypassingWake := false
      jobKeyMode := w.jobKeyModeFor message.data message.idempotencyKey }
  match w.parseInvoke message.data with
  | none => placed
  | some (runId, invoke) =>
    let delayed := decide (delaySeconds.getD 0 > 0)
    if delayed || !(w.mayBypassRunQueue invoke && held) then placed
    else
      let wakeKey := if invoke.hookInput.isNone then wakeKey tenantId runId else message.messageId
      { jobKey := message.idempotencyKey.getD wakeKey, runQueue := none, bypassingWake := true, jobKeyMode := .replace }

/-- The job that `addGraphileJob` adds. In external mode a delayed job waits in its run's queue until
the dispatcher sweeps it. -/
def graphileJob (embedded : Bool) (ref : JobRef) (message : Message) (delaySeconds : Option Nat) (placed : Placed)
    (now : Nat) : QueueJob :=
  let timer := embedded && holdsAsTimer placed.runQueue delaySeconds
  let flag := if placed.bypassingWake then wakeFlag message.tenantId else tenantFlag message.tenantId
  { task := ⟨timer, if embedded then .embedded message.tenantId else .dispatcher⟩
    key := specKey placed.jobKey
    queueName := if timer then none else placed.runQueue
    flags := if timer then [] else [flag]
    runAt := now + delaySeconds.getD 0
    message := message
    runQueue := if timer then placed.runQueue else none
    origin := ref
    sent := message
    due := now + delaySeconds.getD 0
    bypassing := placed.bypassingWake }

/-- The job of a reschedule: `addDelayedDelivery` of the dispatcher, `addGraphileJob` of an embedded
runner, which both hold a far delivery as a timer. -/
def rescheduledJob (job : QueueJob) (lock : Lock) (timeoutSeconds : Nat) (now : Nat) : QueueJob :=
  let message := w.continuationOf job.message (deliveryAccounting job.message (some lock.attempts)) timeoutSeconds
    job.message.data
  let tenantId := match job.task.runner with
    | .dispatcher => message.tenantId
    | .embedded tenantId => tenantId
  let message := { message with tenantId }
  let runQueue := w.runQueueFor tenantId message.data
  let timer := holdsAsTimer runQueue (some timeoutSeconds)
  { task := ⟨timer, job.task.runner⟩
    key := specKey message.jobKey
    queueName := if timer then none else runQueue
    flags := if timer then [] else [tenantFlag message.tenantId]
    runAt := now + timeoutSeconds
    message := message
    runQueue := if timer then runQueue else none
    origin := job.origin
    sent := job.sent
    due := now + timeoutSeconds }

/-- The flow job that `createTimerHandler` adds, under the key the timer had when it was claimed. -/
def promotedJob (job : QueueJob) (lock : Lock) (now : Nat) : QueueJob where
  task := ⟨false, job.task.runner⟩
  key := lock.key
  queueName := job.runQueue.or (w.runQueueFor job.message.tenantId job.message.data)
  flags := [tenantFlag job.message.tenantId]
  runAt := now
  message := job.message
  origin := job.origin
  sent := job.sent
  due := job.due

/-- The job that boot recovery adds for a run. -/
def recoveredJob (ref : JobRef) (runId : RunId) (name deploymentId : String) (queueNamespace : Option String)
    (runAt : Nat) : QueueJob :=
  let message := recoveryMessage ("msg_recover_" ++ runId) ref.1 runId name deploymentId queueNamespace
  { task := ⟨false, .dispatcher⟩
    key := some message.messageId
    queueName := some (runQueueName ref.1 runId)
    flags := [tenantFlag ref.1]
    runAt := runAt
    message := message
    origin := ref
    sent := message
    due := runAt }

end World

/-! ## The table -/

/-- How a message is done with: the executor accepted it, it was dropped for a terminal or quarantined
run, dead-lettered, claimed for its last attempt, swallowed by the dedup, or another message's job took
its key. -/
inductive Settlement where
  | accepted | dropped | deadLettered | lastAttempt | swallowed | replaced
  deriving DecidableEq, Repr

/-- What a handler acknowledges its message with. A dead letter may follow an exception. -/
inductive Verdict where
  | accepted
  | dropped
  | deadLettered (threw : Bool)
  deriving DecidableEq, Repr

namespace Verdict

def settlement : Verdict → Settlement
  | .accepted => .accepted
  | .dropped => .dropped
  | .deadLettered _ => .deadLettered

/-- The outcome of the dispatch is `completed`. -/
def completes : Verdict → Bool
  | .accepted | .dropped => true
  | .deadLettered _ => false

/-- What the handlers that wait for the dispatch learn of it. -/
def release : Verdict → LockStage
  | .deadLettered true => .rejected
  | _ => .swallowed

end Verdict

/-- A claim that has happened. -/
structure Claim where
  job : QueueJob
  at_ : Nat
  deriving DecidableEq, Repr

@[ext]
structure Queue where
  now : Nat := 0
  jobs : JobRef → Option QueueJob := fun _ => none
  /-- The names of all jobs so far. -/
  refs : List JobRef := []
  /-- The completed keys that each runner remembers. -/
  completed : Runner → List String := fun _ => []
  /- What has happened: messages that were sent, those of them whose send added no job, messages that are
  done with, claims, inputs in their logs, inputs whose wake's send has returned, and, for deliveries that
  were accepted, dropped, dead-lettered or at their last attempt, their run and the inputs they came
  after. -/
  sent : List JobRef := []
  deduplicated : List JobRef := []
  settled : List (JobRef × Settlement) := []
  claims : List Claim := []
  committed : List HookInput := []
  woken : List HookInput := []
  ended : List (RunKey × List HookInput) := []

inductive QueueEvent where
  | tick (seconds : Nat)
  /-- A hook input is committed to its run's log. -/
  | commit (input : HookInput)
  /-- A World sends a message; `wakes` names the input whose wake it is. -/
  | send (ref : JobRef) (embedded : Bool) (message : Message) (delaySeconds : Option Nat) (held : Bool)
      (wakes : Option HookInput)
  | recover (ref : JobRef) (runId : RunId) (name deploymentId : String) (queueNamespace : Option String) (delay : Nat)
  | claim (ref : JobRef)
  /-- The handler of a flow job looks at the dedup. -/
  | begin_ (ref : JobRef)
  /-- It is done with its message, adds the job that continues it, or returns after that; or it returns
  because the dedup has swallowed the message. -/
  | acknowledge (ref : JobRef) (verdict : Verdict)
  | reschedule (ref : JobRef) (next : Nat) (timeoutSeconds : Nat)
  | return_ (ref : JobRef)
  | swallow (ref : JobRef)
  /-- The handler of a timer has added the flow job. -/
  | promote (ref : JobRef) (next : Nat)
  | complete (ref : JobRef)
  /-- The handler fails; `threw` says that its dispatch did, rather than answer with a retry. -/
  | fail (ref : JobRef) (backoff : Nat) (threw : Bool)
  /-- A runner's process dies; later a lock of it is reclaimed. -/
  | crash (runner : Runner)
  | reclaim (ref : JobRef)
  /-- `moveDelayedJobsToTimers`. -/
  | sweep (runner : Runner)
  deriving DecidableEq, Repr

namespace Queue

def holder (s : Queue) (key : Option String) : Bool := s.refs.any fun r => (s.jobs r).any (·.holds key)

/-- The messages whose jobs a new job of `origin` under the key takes the place of. -/
def replacedBy (s : Queue) (key : Option String) (origin : JobRef) : List (JobRef × Settlement) :=
  s.refs.filterMap fun r => (s.jobs r).bind fun j =>
    if j.holds key && j.origin != origin then some (j.origin, .replaced) else none

/-- Graphile's `add_job` in its default mode. -/
def addJob (s : Queue) (ref : JobRef) (job : QueueJob) : Queue :=
  { s with
    jobs := Function.update (fun r => (s.jobs r).bind (QueueJob.displaced job.key)) ref (some job)
    refs := ref :: s.refs
    settled := s.replacedBy job.key job.origin ++ s.settled }

def setJob (s : Queue) (ref : JobRef) (job : Option QueueJob) : Queue := { s with jobs := Function.update s.jobs ref job }

/-- The job's queue has no locked job. -/
def queueFree (s : Queue) (job : QueueJob) : Bool :=
  job.queueName.isNone || s.refs.all fun r => (s.jobs r).all fun j => j.queueName != job.queueName || j.lock.isNone

/-- `like 'wfrun:%'`. -/
def isRunQueue (name : String) : Bool := "wfrun:".toList.isPrefixOf name.toList

/-- What the sweep's UPDATE does to a job of the runner. -/
def swept (now : Nat) (runner : Runner) (job : QueueJob) : QueueJob :=
  match job.queueName with
  | some queue =>
    if job.task = ⟨false, runner⟩ ∧ isRunQueue queue = true ∧ job.lock = none ∧ job.attempts = 0 ∧
        now + timerHorizonSeconds < job.runAt then
      { job with task := ⟨true, runner⟩, queueName := none, flags := [], runQueue := some queue }
    else job
  | none => job

/-- A handler, with the job it was called for. -/
def handler (s : Queue) (ref : JobRef) : Option (QueueJob × Lock) :=
  (s.jobs ref).bind fun job => job.lock.map (job, ·)

def settle (s : Queue) (job : QueueJob) (how : Settlement) : Queue := { s with settled := (job.origin, how) :: s.settled }

def finish (s : Queue) (job : QueueJob) (lock : Lock) : Queue :=
  { s with ended := job.message.run.toList.map (·, lock.committed) ++ s.ended }

/-- The hook inputs in the log of the message's run. -/
def inputs (s : Queue) (message : Message) : List HookInput := s.committed.filter fun i => message.run == some i.run

/-- The delivery that dispatches under the key, which the runner's `inflight` has. -/
def leader (s : Queue) (runner : Runner) (key : String) : Option JobRef :=
  s.refs.find? fun r => (s.jobs r).any fun j => j.task.runner == runner && j.dispatches && j.dedupKey == some key

/-- `dedup.run`: where the handler goes from it. -/
def enter (s : Queue) (job : QueueJob) : LockStage :=
  match job.dedupKey with
  | none => .leading
  | some key =>
    if (s.completed job.task.runner).contains key then .swallowed
    else match s.leader job.task.runner key with
      | some leader => .joined leader
      | none => .leading

/-- A dispatch ends: the handlers that wait for it go on. -/
def release (s : Queue) (leader : JobRef) (stage : LockStage) : Queue :=
  { s with jobs := fun r => (s.jobs r).map (QueueJob.released leader stage) }

/-- `markCompleted` when the dispatch of a keyed message completed. -/
def mark (s : Queue) (job : QueueJob) (completes : Bool) : Queue :=
  match job.dedupKey with
  | some key =>
    if completes then
      { s with completed := Function.update s.completed job.task.runner (markCompleted (s.completed job.task.runner) key) }
    else s
  | none => s

/-- The locks of a runner whose process has died. -/
def bury (runner : Runner) (job : QueueJob) : QueueJob := if job.task.runner = runner then job.atStage .dead else job

end Queue

/-- What the stage of a handler allows it to answer: a waiting one whose leader threw has its own dead
letter to write on its last attempt, and an embedded runner writes none and drops nothing. -/
def Verdict.allowed (verdict : Verdict) (runner : Runner) (lock : Lock) : Bool :=
  match runner, lock.stage, verdict with
  | .embedded _, .leading, .accepted => true
  | .dispatcher, .leading, .deadLettered true => decide (maxGraphileJobAttempts ≤ lock.attempts)
  | .dispatcher, .leading, _ => true
  | .dispatcher, .rejected, .deadLettered _ => decide (maxGraphileJobAttempts ≤ lock.attempts)
  | _, _, _ => false

/-- One event of the table, with the functions of `@workflow/world`. -/
def World.step (w : World) : QueueEvent → Queue → Option Queue
  | .tick seconds, s => some { s with now := s.now + seconds }
  | .commit input, s => some { s with committed := input :: s.committed }
  | .send ref embedded message delaySeconds held wakes, s =>
    let placed := w.placeInvoke ref.1 message delaySeconds held
    let job := World.graphileJob embedded ref message delaySeconds placed s.now
    -- a World stamps its own tenant, and a wake is sent after its input is committed
    if ref ∉ s.refs ∧ message.tenantId = ref.1 ∧
        wakes.all (fun input => s.committed.contains input && message.run == some input.run) then
      let s := { s with sent := ref :: s.sent, woken := wakes.toList ++ s.woken }
      if placed.jobKeyMode = .unsafeDedupe && s.holder job.key then
        some { s with refs := ref :: s.refs, deduplicated := ref :: s.deduplicated }
      else some (s.addJob ref job)
    else none
  | .recover ref runId name deploymentId queueNamespace delay, s =>
    if ref ∉ s.refs then
      some ({ s with sent := ref :: s.sent }.addJob ref
        (World.recoveredJob ref runId name deploymentId queueNamespace (s.now + delay)))
    else none
  | .claim ref, s =>
    match s.jobs ref with
    | some job =>
      if job.pending && decide (job.runAt ≤ s.now) && s.queueFree job then
        let lock : Lock := { key := job.key, attempts := job.attempts + 1, committed := s.inputs job.message }
        let claimed := { job with attempts := job.attempts + 1, lock := some lock }
        let s := { s.setJob ref (some claimed) with claims := ⟨job, s.now⟩ :: s.claims }
        some (if claimed.spent then (s.settle job .lastAttempt).finish job lock else s)
      else none
    | none => none
  | .begin_ ref, s =>
    match s.handler ref with
    | some (job, lock) =>
      if job.task.timer = false ∧ lock.stage = .claimed then some (s.setJob ref (some (job.atStage (s.enter job))))
      else none
    | none => none
  | .acknowledge ref verdict, s =>
    match s.handler ref with
    | some (job, lock) =>
      if verdict.allowed job.task.runner lock then
        some (((((s.setJob ref (some (job.atStage .done))).release ref verdict.release).mark job verdict.completes).settle job
          verdict.settlement).finish job lock)
      else none
    | none => none
  | .reschedule ref next timeoutSeconds, s =>
    match s.handler ref with
    | some (job, lock) =>
      -- graphile refuses an empty key, which the dispatcher would pass on
      if lock.stage = .leading ∧ (ref.1, next) ∉ s.refs ∧ (job.task.runner = .dispatcher → job.message.jobKey ≠ "") then
        some ((s.setJob ref (some (job.atStage .rescheduled))).addJob (ref.1, next)
          (w.rescheduledJob job lock timeoutSeconds s.now))
      else none
    | none => none
  | .return_ ref, s =>
    match s.handler ref with
    | some (job, lock) =>
      if lock.stage = .rescheduled then some ((s.setJob ref (some (job.atStage .done))).release ref .swallowed) else none
    | none => none
  | .swallow ref, s =>
    match s.handler ref with
    | some (job, lock) =>
      if lock.stage = .swallowed then some ((s.setJob ref (some (job.atStage .done))).settle job .swallowed) else none
    | none => none
  | .promote ref next, s =>
    match s.handler ref with
    | some (job, lock) =>
      if job.task.timer = true ∧ lock.stage = .claimed ∧ (ref.1, next) ∉ s.refs then
        some ((s.setJob ref (some (job.atStage .done))).addJob (ref.1, next) (w.promotedJob job lock s.now))
      else none
    | none => none
  | .complete ref, s =>
    match s.handler ref with
    | some (_, lock) => if lock.stage = .done then some (s.setJob ref none) else none
    | none => none
  | .fail ref backoff threw, s =>
    match s.handler ref with
    | some (job, lock) =>
      if lock.stage = .claimed ∨ lock.stage = .leading ∨ lock.stage = .rejected then
        some ((s.setJob ref (some { job with lock := none, runAt := s.now + backoff })).release ref
          (if threw || job.task.runner != .dispatcher then .rejected else .swallowed))
      else none
    | none => none
  | .crash runner, s =>
    some { s with
      jobs := fun r => (s.jobs r).map (Queue.bury runner)
      completed := Function.update s.completed runner [] }
  | .reclaim ref, s =>
    match s.handler ref with
    | some (job, lock) => if lock.stage = .dead then some (s.setJob ref (some { job with lock := none })) else none
    | none => none
  | .sweep runner, s => some { s with jobs := fun r => (s.jobs r).map (Queue.swept s.now runner) }

/-- `@workflow/world` as far as the members that a body is stamped with say it. -/
def stampWorld : World where
  messageRunSpecVersion body := body.runSpecVersion
  singleOrchestratorRunIdOf body := if body.stepId.isNone then bodyRunId body else none
  isSingleOrchestratorMessage body := decide (body.runSpecVersion.getD 0 ≥ specVersionSingleOrchestrator)
  parseInvoke body := body.runId.map (·, body)

/-- The wake of a hook input that is in the log already. -/
def hookWake : Message where
  attempt := 1
  messageId := "m"
  id := "flow"
  data := { runId := some "r", hookResumeTiming := some "now" }
  tenantId := "t"
  deploymentId := "d"

/-! ## What an event does -/

/-- The handler of the job at the name. -/
structure Queue.Handles (s : Queue) (ref : JobRef) (job : QueueJob) (lock : Lock) : Prop where
  found : s.jobs ref = some job
  locked : job.lock = some lock

open Queue in
/-- The events of the table, each with what it finds and what it leaves. -/
inductive World.Steps (w : World) (s : Queue) : QueueEvent → Queue → Prop where
  | tick (seconds : Nat) : Steps w s (.tick seconds) { s with now := s.now + seconds }
  | commit (input : HookInput) : Steps w s (.commit input) { s with committed := input :: s.committed }
  | deduplicate {ref : JobRef} {embedded : Bool} {message : Message} {delaySeconds : Option Nat} {held : Bool}
      {wakes : Option HookInput} (hfresh : ref ∉ s.refs) (htenant : message.tenantId = ref.1)
      (hwakes : ∀ input ∈ wakes, input ∈ s.committed ∧ message.run = some input.run)
      (hmode : (w.placeInvoke ref.1 message delaySeconds held).jobKeyMode = .unsafeDedupe)
      (hheld : s.holder (specKey (w.placeInvoke ref.1 message delaySeconds held).jobKey) = true) :
      Steps w s (.send ref embedded message delaySeconds held wakes)
        { s with
          refs := ref :: s.refs, sent := ref :: s.sent, deduplicated := ref :: s.deduplicated
          woken := wakes.toList ++ s.woken }
  | send {ref : JobRef} {embedded : Bool} {message : Message} {delaySeconds : Option Nat} {held : Bool}
      {wakes : Option HookInput} (hfresh : ref ∉ s.refs) (htenant : message.tenantId = ref.1)
      (hwakes : ∀ input ∈ wakes, input ∈ s.committed ∧ message.run = some input.run)
      (hmode : (w.placeInvoke ref.1 message delaySeconds held).jobKeyMode = .unsafeDedupe →
        s.holder (specKey (w.placeInvoke ref.1 message delaySeconds held).jobKey) = false) :
      Steps w s (.send ref embedded message delaySeconds held wakes)
        ({ s with sent := ref :: s.sent, woken := wakes.toList ++ s.woken }.addJob ref
          (World.graphileJob embedded ref message delaySeconds (w.placeInvoke ref.1 message delaySeconds held) s.now))
  | recover {ref : JobRef} {runId : RunId} {name deploymentId : String} {queueNamespace : Option String} {delay : Nat}
      (hfresh : ref ∉ s.refs) :
      Steps w s (.recover ref runId name deploymentId queueNamespace delay)
        ({ s with sent := ref :: s.sent }.addJob ref
          (World.recoveredJob ref runId name deploymentId queueNamespace (s.now + delay)))
  | claim {ref : JobRef} {job claimed : QueueJob} {lock : Lock} (hj : s.jobs ref = some job) (hp : job.pending = true)
      (hdue : job.runAt ≤ s.now) (hfree : s.queueFree job = true)
      (hlock : lock = { key := job.key, attempts := job.attempts + 1, committed := s.inputs job.message })
      (hclaimed : claimed = { job with attempts := job.attempts + 1, lock := some lock }) :
      Steps w s (.claim ref)
        (if claimed.spent then
          ({ s.setJob ref (some claimed) with claims := ⟨job, s.now⟩ :: s.claims }.settle job .lastAttempt).finish job lock
        else { s.setJob ref (some claimed) with claims := ⟨job, s.now⟩ :: s.claims })
  | begin_ {ref : JobRef} {job : QueueJob} {lock : Lock} (hh : s.Handles ref job lock) (htimer : job.task.timer = false)
      (hst : lock.stage = .claimed) : Steps w s (.begin_ ref) (s.setJob ref (some (job.atStage (s.enter job))))
  | acknowledge {ref : JobRef} {job : QueueJob} {lock : Lock} {verdict : Verdict} (hh : s.Handles ref job lock)
      (hallowed : verdict.allowed job.task.runner lock = true) :
      Steps w s (.acknowledge ref verdict)
        (((((s.setJob ref (some (job.atStage .done))).release ref verdict.release).mark job verdict.completes).settle job
          verdict.settlement).finish job lock)
  | reschedule {ref : JobRef} {job : QueueJob} {lock : Lock} {next timeoutSeconds : Nat} (hh : s.Handles ref job lock)
      (hst : lock.stage = .leading) (hfresh : (ref.1, next) ∉ s.refs)
      (hkey : job.task.runner = .dispatcher → job.message.jobKey ≠ "") :
      Steps w s (.reschedule ref next timeoutSeconds)
        ((s.setJob ref (some (job.atStage .rescheduled))).addJob (ref.1, next)
          (w.rescheduledJob job lock timeoutSeconds s.now))
  | return_ {ref : JobRef} {job : QueueJob} {lock : Lock} (hh : s.Handles ref job lock) (hst : lock.stage = .rescheduled) :
      Steps w s (.return_ ref) ((s.setJob ref (some (job.atStage .done))).release ref .swallowed)
  | swallow {ref : JobRef} {job : QueueJob} {lock : Lock} (hh : s.Handles ref job lock) (hst : lock.stage = .swallowed) :
      Steps w s (.swallow ref) ((s.setJob ref (some (job.atStage .done))).settle job .swallowed)
  | promote {ref : JobRef} {job : QueueJob} {lock : Lock} {next : Nat} (hh : s.Handles ref job lock)
      (htimer : job.task.timer = true) (hst : lock.stage = .claimed) (hfresh : (ref.1, next) ∉ s.refs) :
      Steps w s (.promote ref next)
        ((s.setJob ref (some (job.atStage .done))).addJob (ref.1, next) (w.promotedJob job lock s.now))
  | complete {ref : JobRef} {job : QueueJob} {lock : Lock} (hh : s.Handles ref job lock) (hst : lock.stage = .done) :
      Steps w s (.complete ref) (s.setJob ref none)
  | fail {ref : JobRef} {job : QueueJob} {lock : Lock} {backoff : Nat} {threw : Bool} (hh : s.Handles ref job lock)
      (hst : lock.stage = .claimed ∨ lock.stage = .leading ∨ lock.stage = .rejected) :
      Steps w s (.fail ref backoff threw)
        ((s.setJob ref (some { job with lock := none, runAt := s.now + backoff })).release ref
          (if threw || job.task.runner != .dispatcher then .rejected else .swallowed))
  | crash (runner : Runner) :
      Steps w s (.crash runner)
        { s with
          jobs := fun r => (s.jobs r).map (bury runner)
          completed := Function.update s.completed runner [] }
  | reclaim {ref : JobRef} {job : QueueJob} {lock : Lock} (hh : s.Handles ref job lock) (hst : lock.stage = .dead) :
      Steps w s (.reclaim ref) (s.setJob ref (some { job with lock := none }))
  | sweep (runner : Runner) :
      Steps w s (.sweep runner) { s with jobs := fun r => (s.jobs r).map (swept s.now runner) }

theorem Queue.handles_of_handler {s : Queue} {ref : JobRef} {job : QueueJob} {lock : Lock}
    (h : s.handler ref = some (job, lock)) : s.Handles ref job lock := by
  unfold Queue.handler at h
  obtain ⟨j, hj, h⟩ := Option.bind_eq_some_iff.1 h
  obtain ⟨l, hl, heq⟩ := Option.map_eq_some_iff.1 h
  cases heq
  exact ⟨hj, hl⟩

theorem World.steps_of_step {w : World} {e : QueueEvent} {s s' : Queue} (h : w.step e s = some s') : w.Steps s e s' := by
  cases e with
  | tick seconds => cases h; exact .tick seconds
  | commit input => cases h; exact .commit input
  | send ref embedded message delaySeconds held wakes =>
    simp only [World.step] at h
    split at h
    · rename_i hg
      obtain ⟨hfresh, htenant, hwakes⟩ := hg
      have hw : ∀ input ∈ wakes, input ∈ s.committed ∧ message.run = some input.run := by
        rintro input hin
        cases hin
        simpa using hwakes
      split at h
      · rename_i hded
        cases h
        simp only [Bool.and_eq_true, decide_eq_true_eq] at hded
        exact .deduplicate hfresh htenant hw hded.1 hded.2
      · rename_i hnew
        cases h
        refine .send hfresh htenant hw fun hmode => ?_
        simp only [Bool.and_eq_true, decide_eq_true_eq, not_and, Bool.not_eq_true] at hnew
        exact hnew hmode
    · cases h
  | recover ref runId name deploymentId queueNamespace delay =>
    simp only [World.step] at h
    split at h
    · rename_i hfresh
      cases h
      exact .recover hfresh
    · cases h
  | claim ref =>
    simp only [World.step] at h
    split at h
    · rename_i job hj
      split at h
      · rename_i hg
        cases h
        simp only [Bool.and_eq_true, decide_eq_true_eq] at hg
        exact .claim hj hg.1.1 hg.1.2 hg.2 rfl rfl
      · cases h
    · cases h
  | crash runner => cases h; exact .crash runner
  | sweep runner => cases h; exact .sweep runner
  | _ =>
    -- The handler of the job, and then the guard.
    simp only [World.step] at h
    split at h
    · rename_i hh
      replace hh := Queue.handles_of_handler hh
      split at h
      · rename_i hg
        cases h
        first
          | exact .begin_ hh hg.1 hg.2
          | exact .acknowledge hh hg
          | exact .reschedule hh hg.1 hg.2.1 hg.2.2
          | exact .return_ hh hg
          | exact .swallow hh hg
          | exact .promote hh hg.1 hg.2.1 hg.2.2
          | exact .complete hh hg
          | exact .fail hh hg
          | exact .reclaim hh hg
      · cases h
    · cases h

/-- The relation says all of `step`. -/
theorem World.step_of_steps {w : World} {e : QueueEvent} {s s' : Queue} (h : w.Steps s e s') : w.step e s = some s' := by
  have hhandler : ∀ {ref : JobRef} {job : QueueJob} {lock : Lock}, s.Handles ref job lock →
      s.handler ref = some (job, lock) := fun hh => by
    simp [Queue.handler, hh.found, hh.locked]
  have hwakes : ∀ {wakes : Option HookInput} {message : Message},
      (∀ input ∈ wakes, input ∈ s.committed ∧ message.run = some input.run) →
      wakes.all (fun input => s.committed.contains input && message.run == some input.run) = true := by
    intro wakes message hw
    cases wakes with
    | none => rfl
    | some input => simpa using hw input rfl
  cases h with
  | tick | commit | crash | sweep => rfl
  | deduplicate hfresh htenant hw hmode hheld =>
    simp only [World.step]
    rw [if_pos ⟨hfresh, htenant, hwakes hw⟩, if_pos]
    simp only [Bool.and_eq_true, decide_eq_true_eq]
    exact ⟨hmode, hheld⟩
  | send hfresh htenant hw hmode =>
    simp only [World.step]
    rw [if_pos ⟨hfresh, htenant, hwakes hw⟩, if_neg]
    intro hg
    simp only [Bool.and_eq_true, decide_eq_true_eq] at hg
    exact absurd (hmode hg.1) (by rw [Bool.not_eq_false]; exact hg.2)
  | recover hfresh => simp only [World.step, if_pos hfresh]
  | claim hj hp hdue hfree hlock hclaimed =>
    subst hclaimed hlock
    simp only [World.step, hj]
    rw [if_pos]
    simp only [Bool.and_eq_true, decide_eq_true_eq]
    exact ⟨⟨hp, hdue⟩, hfree⟩
  | begin_ hh htimer hst => simp only [World.step, hhandler hh, if_pos (And.intro htimer hst)]
  | acknowledge hh hallowed => simp only [World.step, hhandler hh, if_pos hallowed]
  | reschedule hh hst hfresh hkey => simp only [World.step, hhandler hh, if_pos (And.intro hst (And.intro hfresh hkey))]
  | return_ hh hst => simp only [World.step, hhandler hh, if_pos hst]
  | swallow hh hst => simp only [World.step, hhandler hh, if_pos hst]
  | promote hh htimer hst hfresh =>
    simp only [World.step, hhandler hh, if_pos (And.intro htimer (And.intro hst hfresh))]
  | complete hh hst => simp only [World.step, hhandler hh, if_pos hst]
  | fail hh hst => simp only [World.step, hhandler hh, if_pos hst]
  | reclaim hh hst => simp only [World.step, hhandler hh, if_pos hst]

/-! ## The jobs after an event -/

/-- What happens to a job that stays: claims, failures and reclaims, the end of another handler's dispatch,
or the loss of its key. -/
structure QueueJob.Touched (j j' : QueueJob) : Prop where
  rest : j' = { j with key := j'.key, attempts := j'.attempts, runAt := j'.runAt, lock := j'.lock }
  key : j'.key = j.key ∧ j.attempts ≤ j'.attempts ∨ j'.key = none ∧ maxGraphileJobAttempts ≤ j'.attempts
  lock : ∀ l ∈ j'.lock, ∀ key, l.key = some key → j.key = some key ∨ ∃ l₀ ∈ j.lock, l₀.key = some key

namespace QueueJob

theorem Touched.refl (j : QueueJob) : Touched j j :=
  ⟨rfl, .inl ⟨rfl, Nat.le_refl _⟩, fun l hl _ hk => .inr ⟨l, hl, hk⟩⟩

theorem Touched.trans {a b c : QueueJob} (h : Touched a b) (h' : Touched b c) : Touched a c := by
  refine ⟨?_, ?_, fun l hl key hk => ?_⟩
  · rw [h'.rest, h.rest]
  · rcases h'.key with ⟨hk', ha'⟩ | hspent
    · rcases h.key with ⟨hk, ha⟩ | ⟨hk, ha⟩
      · exact .inl ⟨hk'.trans hk, Nat.le_trans ha ha'⟩
      · exact .inr ⟨hk'.trans hk, Nat.le_trans ha ha'⟩
    · exact .inr hspent
  · rcases h'.lock l hl key hk with hb | ⟨l₁, hl₁, hk₁⟩
    · rcases h.key with ⟨hka, -⟩ | ⟨hnone, -⟩
      · exact .inl (hka ▸ hb)
      · rw [hnone] at hb
        cases hb
    · exact h.lock l₁ hl₁ key hk₁

theorem touched_atStage (j : QueueJob) (stage : LockStage) : Touched j (j.atStage stage) := by
  refine ⟨rfl, .inl ⟨rfl, Nat.le_refl _⟩, fun l hl key hk => ?_⟩
  obtain ⟨l₀, hl₀, rfl⟩ := Option.map_eq_some_iff.1 hl
  exact .inr ⟨l₀, hl₀, hk⟩

theorem touched_released (j : QueueJob) (leader : JobRef) (stage : LockStage) : Touched j (j.released leader stage) := by
  unfold released
  split
  · exact touched_atStage j stage
  · exact .refl j

theorem touched_bury (j : QueueJob) (runner : Runner) : Touched j (Queue.bury runner j) := by
  unfold Queue.bury
  split
  · exact touched_atStage j .dead
  · exact .refl j

theorem touched_unlocked (j : QueueJob) (runAt : Nat) : Touched j { j with lock := none, runAt } :=
  ⟨rfl, .inl ⟨rfl, Nat.le_refl _⟩, (fun l hl => by cases hl)⟩

end QueueJob

namespace Queue

variable {w : World} {s s' : Queue} {e : QueueEvent} {ref r : JobRef} {job j j' : QueueJob}

theorem displaced_cases {key : Option String} {job job' : QueueJob} (h : job.displaced key = some job') :
    job' = job ∧ job.holds key = false ∨
      job' = { job with key := none, attempts := maxGraphileJobAttempts } ∧ job.holds key = true ∧ job.pending = false := by
  unfold QueueJob.displaced at h
  split at h
  · rename_i hheld
    split at h
    · cases h
    · rename_i hp
      cases h
      exact .inr ⟨rfl, hheld, by simpa using hp⟩
  · rename_i hheld
    cases h
    exact .inl ⟨rfl, by simpa using hheld⟩

theorem touched_displaced {key : Option String} (h : j.displaced key = some j') : QueueJob.Touched j j' := by
  rcases displaced_cases h with ⟨rfl, -⟩ | ⟨rfl, -⟩
  · exact .refl j'
  · exact ⟨rfl, .inr ⟨rfl, Nat.le_refl _⟩, fun l hl _ hk => .inr ⟨l, hl, hk⟩⟩

theorem jobs_addJob_self (s : Queue) (ref : JobRef) (job : QueueJob) : (s.addJob ref job).jobs ref = some job := by
  simp only [addJob, Function.update_self]

theorem jobs_addJob_of_ne (s : Queue) (job : QueueJob) (h : r ≠ ref) :
    (s.addJob ref job).jobs r = (s.jobs r).bind (QueueJob.displaced job.key) := by
  simp only [addJob, Function.update_of_ne h]

theorem jobs_addJob (h : (s.addJob ref job).jobs r = some j) :
    r = ref ∧ j = job ∨ r ≠ ref ∧ ∃ j₀, s.jobs r = some j₀ ∧ j₀.displaced job.key = some j := by
  by_cases hr : r = ref
  · subst hr
    rw [jobs_addJob_self] at h
    exact .inl ⟨rfl, (Option.some.inj h).symm⟩
  · rw [jobs_addJob_of_ne s job hr] at h
    exact .inr ⟨hr, Option.bind_eq_some_iff.1 h⟩

theorem jobs_setJob_self (s : Queue) (ref : JobRef) (o : Option QueueJob) : (s.setJob ref o).jobs ref = o :=
  Function.update_self ..

theorem jobs_setJob_of_ne (s : Queue) (o : Option QueueJob) (h : r ≠ ref) : (s.setJob ref o).jobs r = s.jobs r :=
  Function.update_of_ne h ..

theorem jobs_setJob {o : Option QueueJob} (h : (s.setJob ref o).jobs r = some j) :
    r = ref ∧ o = some j ∨ r ≠ ref ∧ s.jobs r = some j := by
  by_cases hr : r = ref
  · subst hr
    rw [jobs_setJob_self] at h
    exact .inl ⟨rfl, h⟩
  · rw [jobs_setJob_of_ne s o hr] at h
    exact .inr ⟨hr, h⟩

theorem jobs_mark (s : Queue) (job : QueueJob) (completes : Bool) : (s.mark job completes).jobs = s.jobs := by
  unfold mark
  split
  · split <;> rfl
  · rfl

/-- The job that an event adds. -/
inductive Adds (w : World) (s : Queue) : QueueEvent → JobRef → QueueJob → Prop where
  | send {ref : JobRef} {embedded : Bool} {message : Message} {delaySeconds : Option Nat} {held : Bool}
      {wakes : Option HookInput} (htenant : message.tenantId = ref.1) :
      Adds w s (.send ref embedded message delaySeconds held wakes) ref
        (World.graphileJob embedded ref message delaySeconds (w.placeInvoke ref.1 message delaySeconds held) s.now)
  | recover {ref : JobRef} {runId : RunId} {name deploymentId : String} {queueNamespace : Option String} {delay : Nat} :
      Adds w s (.recover ref runId name deploymentId queueNamespace delay) ref
        (World.recoveredJob ref runId name deploymentId queueNamespace (s.now + delay))
  | reschedule {ref : JobRef} {job : QueueJob} {lock : Lock} {next timeoutSeconds : Nat} (hh : s.Handles ref job lock) :
      Adds w s (.reschedule ref next timeoutSeconds) (ref.1, next) (w.rescheduledJob job lock timeoutSeconds s.now)
  | promote {ref : JobRef} {job : QueueJob} {lock : Lock} {next : Nat} (hh : s.Handles ref job lock)
      (htimer : job.task.timer = true) : Adds w s (.promote ref next) (ref.1, next) (w.promotedJob job lock s.now)

/-- The job was in the table, and has been touched since. -/
def Stays (s : Queue) (r : JobRef) (j' : QueueJob) : Prop := ∃ j, s.jobs r = some j ∧ j.Touched j'

theorem stays_setJob (hj : s.jobs ref = some job) (ht : job.Touched j) (h : (s.setJob ref (some j)).jobs r = some j') :
    Stays s r j' := by
  rcases jobs_setJob h with ⟨rfl, heq⟩ | ⟨-, hj'⟩
  · exact ⟨job, hj, Option.some.inj heq ▸ ht⟩
  · exact ⟨j', hj', .refl j'⟩

theorem stays_release {stage : LockStage} (h : (s.release ref stage).jobs r = some j') : Stays s r j' := by
  obtain ⟨j, hj, rfl⟩ := Option.map_eq_some_iff.1 h
  exact ⟨j, hj, j.touched_released ref stage⟩

theorem Stays.trans {s₁ : Queue} (h₁ : ∀ r j, s₁.jobs r = some j → Stays s r j) (h : Stays s₁ r j') : Stays s r j' := by
  obtain ⟨j₁, hj₁, ht₁⟩ := h
  obtain ⟨j, hj, ht⟩ := h₁ r j₁ hj₁
  exact ⟨j, hj, ht.trans ht₁⟩

/-- A job after an event is one that the event has added, or was there before, touched or swept. -/
theorem jobs_of_steps (h : w.Steps s e s') (hj : s'.jobs r = some j') :
    Adds w s e r j' ∨ Stays s r j' ∨ ∃ runner j, s.jobs r = some j ∧ j' = swept s.now runner j := by
  -- A job that is added leaves the others touched at most.
  have hadd : ∀ (s₁ : Queue) (ref : JobRef) (new : QueueJob), (∀ r j, s₁.jobs r = some j → Stays s r j) →
      Adds w s e ref new → (s₁.addJob ref new).jobs r = some j' → Adds w s e r j' ∨ Stays s r j' := by
    intro s₁ ref new h₁ hnew hj
    rcases jobs_addJob hj with ⟨rfl, rfl⟩ | ⟨-, j₀, hj₀, hd⟩
    · exact .inl hnew
    · exact .inr (Stays.trans h₁ ⟨j₀, hj₀, touched_displaced hd⟩)
  have hsame : ∀ r j, s.jobs r = some j → Stays s r j := fun r j hj => ⟨j, hj, .refl j⟩
  have hstage : ∀ {ref : JobRef} {job : QueueJob} {lock : Lock} (stage : LockStage), s.Handles ref job lock →
      ∀ r j, (s.setJob ref (some (job.atStage stage))).jobs r = some j → Stays s r j :=
    fun stage hh r j hj => stays_setJob hh.found (QueueJob.touched_atStage _ stage) hj
  cases h with
  | tick | commit | deduplicate => exact .inr (.inl (hsame r j' hj))
  | send _ htenant => exact (hadd _ _ _ hsame (.send htenant) hj).imp_right .inl
  | recover => exact (hadd _ _ _ hsame .recover hj).imp_right .inl
  | @claim ref job claimed lock hfound _ _ _ hlock hclaimed =>
    have ht : job.Touched claimed := by
      subst hclaimed
      refine ⟨rfl, .inl ⟨rfl, Nat.le_succ _⟩, fun l hl key hk => .inl ?_⟩
      cases hl
      rw [hlock] at hk
      exact hk
    refine .inr (.inl (stays_setJob hfound ht ?_))
    split at hj <;> exact hj
  | begin_ hh => exact .inr (.inl (hstage _ hh r j' hj))
  | acknowledge hh =>
    replace hj : ((_ : Queue).mark _ _).jobs r = some j' := hj
    rw [jobs_mark] at hj
    exact .inr (.inl (Stays.trans (hstage .done hh) (stays_release hj)))
  | reschedule hh => exact (hadd _ _ _ (hstage .rescheduled hh) (.reschedule hh) hj).imp_right .inl
  | return_ hh => exact .inr (.inl (Stays.trans (hstage .done hh) (stays_release hj)))
  | swallow hh => exact .inr (.inl (hstage .done hh r j' hj))
  | promote hh htimer => exact (hadd _ _ _ (hstage .done hh) (.promote hh htimer) hj).imp_right .inl
  | complete hh =>
    rcases jobs_setJob hj with ⟨-, heq⟩ | ⟨-, hj⟩
    · cases heq
    · exact .inr (.inl (hsame r j' hj))
  | @fail ref job lock backoff threw hh =>
    refine .inr (.inl (Stays.trans (fun r j hj => ?_) (stays_release hj)))
    exact stays_setJob hh.found (job.touched_unlocked _) hj
  | crash runner =>
    obtain ⟨j, hj₀, rfl⟩ := Option.map_eq_some_iff.1 hj
    exact .inr (.inl ⟨j, hj₀, j.touched_bury runner⟩)
  | @reclaim ref job lock hh => exact .inr (.inl (stays_setJob hh.found (job.touched_unlocked job.runAt) hj))
  | sweep runner =>
    obtain ⟨j, hj₀, rfl⟩ := Option.map_eq_some_iff.1 hj
    exact .inr (.inr ⟨runner, j, hj₀, rfl⟩)

end Queue

end WorkflowWorld.Dispatcher
