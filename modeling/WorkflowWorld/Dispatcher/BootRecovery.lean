/-
Boot recovery (`src/dispatcher/boot-recovery.ts`): what a starting dispatcher reads of the run,
hook, wait and dead letter tables and of graphile's, which worker ids it passes to
`forceUnlockWorkers`, and which jobs it adds for the runs that have nothing left to wake them.
Graphile's own part, the effect of `forceUnlockWorkers` and `addJob` on its tables, follows its
documentation.
-/
import WorkflowWorld.Rows
import Mathlib.Data.List.Sort
import Mathlib.Data.List.Dedup

namespace WorkflowWorld.Dispatcher

/-! ## Tables -/

def flowJobName : String := "eveland_wf_flows"

def timerJobName : String := "eveland_wf_timers"

def maxGraphileJobAttempts : Nat := 49

def runQueueName (tenantId : TenantId) (runId : RunId) : String := "wfrun:" ++ tenantId ++ ":" ++ runId

def tenantFlag (tenantId : TenantId) : String := "project:" ++ tenantId

/-- The message of a recovery job; its body names the run and nothing else. -/
structure MessageData where
  id : String
  data : RunId
  attempt : Nat
  messageId : MessageId
  tenantId : TenantId
  deploymentId : String
  queueNamespace : Option String
  deriving DecidableEq, Repr

/-- A job of `graphile_worker._private_jobs`, with workers `W`. `runQueue` is the payload's field
of that name, which a held timer records. -/
structure Job (W : Type) where
  task : String
  key : Option String := none
  queueName : Option String := none
  lockedBy : Option W := none
  attempts : Nat := 0
  maxAttempts : Nat := 25
  flags : List String := []
  runAt : Option Nat := none
  message : Option MessageData := none
  runQueue : Option String := none
  deriving DecidableEq, Repr

structure JobQueue (W : Type) where
  queueName : String
  lockedBy : Option W := none
  deriving DecidableEq, Repr

/-- What the sweep reads of a run. -/
structure RunEntry where
  tenantId : TenantId
  id : RunId
  name : String
  deploymentId : String
  queueNamespace : Option String
  status : RunStatus
  createdAt : Nat
  deriving DecidableEq, Repr

structure WaitEntry where
  tenantId : TenantId
  runId : RunId
  status : WaitStatus
  resumeAt : Option Nat
  deriving DecidableEq, Repr

structure DeadLetter where
  tenantId : TenantId
  runId : Option RunId
  resolvedAt : Option Nat
  deriving DecidableEq, Repr

/-- The tables boot recovery reads and writes. -/
structure Tables (W : Type) where
  runs : List RunEntry := []
  hooks : List RunKey := []
  waits : List WaitEntry := []
  deadLetters : List DeadLetter := []
  jobs : List (Job W) := []
  queues : List (JobQueue W) := []
  deriving DecidableEq, Repr

variable {W : Type}

namespace Tables

/-- The workers that hold a lock on a queue or a job. -/
def workers (T : Tables W) : List W := T.queues.filterMap (·.lockedBy) ++ T.jobs.filterMap (·.lockedBy)

def unlockedBy [DecidableEq W] (ids : List W) (lockedBy : Option W) : Option W :=
  lockedBy.filter fun w => !ids.contains w

/-- Graphile's `forceUnlockWorkers`: the workers' locks on jobs and queues are gone. -/
def forceUnlockWorkers [DecidableEq W] (ids : List W) (T : Tables W) : Tables W :=
  { T with
    jobs := T.jobs.map fun j => { j with lockedBy := unlockedBy ids j.lockedBy }
    queues := T.queues.map fun q => { q with lockedBy := unlockedBy ids q.lockedBy } }

/-- The queue of a job exists once the job is added. -/
def ensureQueue (name : Option String) (T : Tables W) : List (JobQueue W) :=
  match name with
  | some n => if T.queues.any (·.queueName == n) then T.queues else T.queues ++ [⟨n, none⟩]
  | none => T.queues

/-- Graphile's `addJob` with a job key: an unlocked job of that key is replaced; a locked one loses
its key and its attempts are spent, and the new job is added beside it. -/
def addJob (job : Job W) (T : Tables W) : Tables W :=
  let sameKey (j : Job W) : Bool := job.key.isSome && j.key == job.key
  let kept := T.jobs.filter fun j => !(sameKey j && j.lockedBy.isNone)
  { T with
    jobs := kept.map (fun j => if sameKey j then { j with key := none, attempts := j.maxAttempts } else j) ++ [job]
    queues := T.ensureQueue job.queueName }

end Tables

/-! ## The sweep -/

/-- A row of the sweep's query. -/
structure SweepRow (W : Type) where
  tenantId : TenantId
  id : RunId
  name : String
  deploymentId : String
  queueNamespace : Option String
  lockedBy : Option W
  hasLiveJob : Bool
  hasHook : Bool
  hasTimer : Bool
  deriving DecidableEq, Repr

/-- A candidate as the host's filter sees it. -/
structure BootRecoveryRun where
  tenantId : TenantId
  runId : RunId
  workflowName : String
  deploymentId : String
  queueNamespace : Option String
  deriving DecidableEq, Repr

structure BootRecoveryPacing where
  deploymentsPerWave : Nat
  waveIntervalMs : Nat
  deriving DecidableEq, Repr

namespace Tables

/-- The queues that held timers go back to. -/
def timers (T : Tables W) : List String :=
  (T.jobs.filter fun j => j.task == timerJobName && j.attempts < j.maxAttempts).filterMap (·.runQueue)

def sweepRow (T : Tables W) (r : RunEntry) : SweepRow W :=
  let queueName := runQueueName r.tenantId r.id
  let queue := T.queues.find? (·.queueName == queueName)
  { tenantId := r.tenantId, id := r.id, name := r.name, deploymentId := r.deploymentId
    queueNamespace := r.queueNamespace
    lockedBy := queue.bind (·.lockedBy)
    hasLiveJob :=
      (queue.isSome && T.jobs.any fun j => j.queueName == some queueName && j.attempts < j.maxAttempts)
        || T.timers.contains queueName
    hasHook := T.hooks.contains (r.tenantId, r.id)
    hasTimer := T.waits.any fun w =>
      w.tenantId == r.tenantId && w.runId == r.id && w.status == .waiting && w.resumeAt.isSome }

def active (T : Tables W) (r : RunEntry) : Bool :=
  !r.status.isTerminal && !T.deadLetters.any fun d =>
    d.tenantId == r.tenantId && d.runId == some r.id && d.resolvedAt.isNone

/-- `order by runs.tenant_id, runs.created_at`. -/
def sweepOrder (a b : RunEntry) : Prop := a.tenantId < b.tenantId ∨ a.tenantId = b.tenantId ∧ a.createdAt ≤ b.createdAt

instance : DecidableRel sweepOrder := fun _ _ => inferInstanceAs (Decidable (_ ∨ _))

/-- The sweep's query: every active run without an unresolved dead letter. -/
def sweepRows (T : Tables W) : List (SweepRow W) :=
  ((T.runs.filter T.active).insertionSort sweepOrder).map T.sweepRow

/-- The query for the workers that lock a job in no queue. -/
def unqueuedLocks [DecidableEq W] (T : Tables W) : List W :=
  ((T.jobs.filter fun j => (j.task == flowJobName || j.task == timerJobName) && j.queueName.isNone).filterMap
    (·.lockedBy)).dedup

end Tables

/-- The worker ids the sweep found on the runs' queues and on unqueued jobs. -/
def oldWorkerIds [DecidableEq W] (rows : List (SweepRow W)) (unqueued : List W) : List W :=
  (rows.filterMap (·.lockedBy) ++ unqueued).dedup

/-- A run without a live job is a candidate, unless it is parked on a hook without a timer. -/
def candidates (rows : List (SweepRow W)) : List (SweepRow W) :=
  rows.filter fun row => !row.hasLiveJob && (!row.hasHook || row.hasTimer)

def SweepRow.offered (row : SweepRow W) : BootRecoveryRun :=
  ⟨row.tenantId, row.id, row.name, row.deploymentId, row.queueNamespace⟩

/-- The candidates the host's filter kept; entries it was not offered are ignored. -/
def keptBy (kept : List BootRecoveryRun) (rows : List (SweepRow W)) : List (SweepRow W) :=
  rows.filter fun row => kept.any fun run => run.tenantId == row.tenantId && run.runId == row.id

/-- The deployments in the order the sweep meets them. -/
def deployments (rows : List (SweepRow W)) : List (TenantId × String) :=
  rows.foldl (fun seen row =>
    if seen.contains (row.tenantId, row.deploymentId) then seen else seen ++ [(row.tenantId, row.deploymentId)]) []

/-- Pacing counts only when both of its numbers are positive. -/
def effectivePacing (pacing : Option BootRecoveryPacing) : Option BootRecoveryPacing :=
  pacing.filter fun p => p.waveIntervalMs > 0 && p.deploymentsPerWave > 0

/-- The wave of a deployment: `deploymentsPerWave` deployments share one. -/
def wave (p : BootRecoveryPacing) (rows : List (SweepRow W)) (row : SweepRow W) : Nat :=
  (deployments rows).idxOf (row.tenantId, row.deploymentId) / p.deploymentsPerWave

/-- The job that wakes a recovered run. -/
def recoveryJob (pacing : Option BootRecoveryPacing) (sweepStartedAt : Nat) (rows : List (SweepRow W))
    (row : SweepRow W) : Job W :=
  let messageId := "msg_recover_" ++ row.id
  { task := flowJobName
    key := some messageId
    queueName := some (runQueueName row.tenantId row.id)
    maxAttempts := maxGraphileJobAttempts
    flags := [tenantFlag row.tenantId]
    runAt := (effectivePacing pacing).map fun p => sweepStartedAt + wave p rows row * p.waveIntervalMs
    message := some
      { id := row.name, data := row.id, attempt := 1, messageId := messageId, tenantId := row.tenantId
        deploymentId := row.deploymentId
        -- an empty namespace is absent on the wire, like no namespace
        queueNamespace := row.queueNamespace.filter (· ≠ "") } }

/-! ## Worker ids -/

theorem mem_workers_of_sweep {T : Tables W} {row : SweepRow W} {w : W} (h : row ∈ T.sweepRows)
    (hw : row.lockedBy = some w) : w ∈ T.workers := by
  obtain ⟨r, -, rfl⟩ := List.mem_map.1 h
  obtain ⟨q, hq, hl⟩ := Option.bind_eq_some_iff.1 (show _ = some w from hw)
  exact List.mem_append_left _ (List.mem_filterMap.2 ⟨q, List.mem_of_find?_eq_some hq, hl⟩)

/-- A job that nobody locks adds no lock. -/
theorem workers_addJob {job : Job W} {T : Tables W} (hj : job.lockedBy = none) {w : W}
    (h : w ∈ (T.addJob job).workers) : w ∈ T.workers := by
  simp only [Tables.workers, Tables.addJob, List.mem_append, List.mem_filterMap, List.mem_map, List.mem_filter,
    List.mem_singleton] at h ⊢
  rcases h with ⟨q, hq, hl⟩ | ⟨j, ⟨j', ⟨hm, -⟩, rfl⟩ | rfl, hl⟩
  · refine .inl ⟨q, ?_, hl⟩
    unfold Tables.ensureQueue at hq
    split at hq
    · split at hq
      · exact hq
      · rcases List.mem_append.1 hq with hq | hq
        · exact hq
        · cases List.mem_singleton.1 hq; cases hl
    · exact hq
  · refine .inr ⟨j', hm, ?_⟩
    split at hl <;> exact hl
  · rw [hj] at hl; cases hl

variable [DecidableEq W]

theorem mem_workers_of_unqueued {T : Tables W} {w : W} (h : w ∈ T.unqueuedLocks) : w ∈ T.workers := by
  obtain ⟨j, hj, hl⟩ := List.mem_filterMap.1 (List.mem_dedup.1 h)
  exact List.mem_append_right _ (List.mem_filterMap.2 ⟨j, (List.mem_filter.1 hj).1, hl⟩)

theorem unlockedBy_eq_some {ids : List W} {l : Option W} {w : W} (h : Tables.unlockedBy ids l = some w) :
    l = some w := (Option.filter_eq_some_iff.1 h).1

/-- Unlocking workers locks nothing new. -/
theorem workers_forceUnlockWorkers {ids : List W} {T : Tables W} {w : W}
    (h : w ∈ (T.forceUnlockWorkers ids).workers) : w ∈ T.workers := by
  simp only [Tables.workers, Tables.forceUnlockWorkers, List.mem_append, List.mem_filterMap, List.mem_map] at h ⊢
  rcases h with ⟨_, ⟨q, hq, rfl⟩, hl⟩ | ⟨_, ⟨j, hj, rfl⟩, hl⟩
  · exact .inl ⟨q, hq, unlockedBy_eq_some hl⟩
  · exact .inr ⟨j, hj, unlockedBy_eq_some hl⟩

end WorkflowWorld.Dispatcher
