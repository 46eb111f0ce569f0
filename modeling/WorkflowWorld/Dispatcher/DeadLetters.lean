/-
The dead letter table and who writes it: deliveries that give up (`onDeadLetter` of
`src/dispatcher/runner.ts`), hosts that quarantine runs (`reconcileWorkflowRuns` with that
disposition, `src/reconciliation.ts`), operators that resolve letters, and the trigger of migration
0017, which resolves the letters of a run whose status becomes terminal. Transactions run under READ
COMMITTED: what they wrote is seen by others when they commit, rows they changed or locked wait until
then, and a locking read that had to wait evaluates its predicate again only on a row that was
modified meanwhile.
-/
import WorkflowWorld.Dispatcher.BootRecovery
import WorkflowWorld.Concurrency.Machine
import Mathlib.Algebra.GroupWithZero.Nat

namespace WorkflowWorld.Dispatcher

/-! ## Tables -/

/-- What reconciliation reads of a run. `birth` and `version` are not columns: they say when the row was
inserted and last modified. -/
structure HostRun where
  tenantId : TenantId
  id : RunId
  name : String
  deploymentId : String
  status : RunStatus
  birth : Nat := 0
  version : Nat := 0
  deriving DecidableEq, Repr

def HostRun.key (run : HostRun) : RunKey := (run.tenantId, run.id)

/-- A row of `dispatch_dead_letters`; `resolved` says that `resolved_at` is not null. `insertedBy` is
not a column: it names the quarantine call that inserted the row. -/
structure Letter where
  tenantId : TenantId
  deploymentId : String
  runId : Option RunId
  messageId : MessageId
  jobName : Option String
  queueName : Option String
  attempt : Nat
  reason : String
  resolved : Bool := false
  insertedBy : Option Nat := none
  deriving DecidableEq, Repr

def hostReconciliation : String := "host_reconciliation"

namespace Letter

/-- The letter is about the run. -/
def isOf (k : RunKey) (letter : Letter) : Bool := letter.tenantId == k.1 && letter.runId == some k.2

def outstanding (k : RunKey) (letter : Letter) : Bool := letter.isOf k && !letter.resolved

def byQuarantine (letter : Letter) : Bool := letter.jobName == some hostReconciliation

end Letter

/-! ## Quarantine calls -/

/-- The options of a call with the disposition `quarantine`. -/
structure ReconcileWorkflowRunsOptions where
  tenantId : TenantId
  runIds : Option (List RunId) := none
  deploymentIds : Option (List String) := none
  reason : String
  deriving DecidableEq, Repr

structure ReconciledWorkflowRun where
  runId : RunId
  workflowName : String
  deploymentId : String
  previousStatus : RunStatus
  deriving DecidableEq, Repr

/-- `String.length` of JavaScript. -/
def utf16Length (s : String) : Nat := (s.toList.map fun c => if c.val < 0x10000 then 1 else 2).sum

def assertValidTenantId (tenantId : TenantId) : Except String Unit :=
  if utf16Length tenantId = 0 ∨ utf16Length tenantId > 128 then
    .error ("Invalid tenant id: expected 1-128 characters, received " ++ toString (utf16Length tenantId) ++ ".")
  else if tenantId.toList.all fun c => c.isAlphanum || c == '_' || c == '-' then .ok ()
  else .error "Invalid tenant id: only letters, digits, underscore and hyphen are allowed."

namespace ReconcileWorkflowRunsOptions

/-- What a call does before it has a connection: it throws, returns an empty batch, or goes on. -/
def prepare (o : ReconcileWorkflowRunsOptions) : Except String (Option (List ReconciledWorkflowRun)) := do
  assertValidTenantId o.tenantId
  if o.runIds.isNone && o.deploymentIds.isNone then
    throw ("reconcileWorkflowRuns requires runIds and/or deploymentIds: " ++
      "refusing to settle a tenant's entire active set implicitly.")
  if o.reason = "" then throw "reconcileWorkflowRuns requires a reason."
  if o.runIds == some [] && o.deploymentIds.isNone then return some []
  if o.deploymentIds == some [] && o.runIds.isNone then return some []
  return none

def selects (o : ReconcileWorkflowRunsOptions) (run : HostRun) : Bool :=
  o.runIds.all (·.contains run.id) && o.deploymentIds.all (·.contains run.deploymentId)

/-- The predicate of the locking read: the call's active runs without an unresolved letter. -/
def wants (o : ReconcileWorkflowRunsOptions) (letters : List Letter) (run : HostRun) : Bool :=
  run.tenantId == o.tenantId && !run.status.isTerminal && o.selects run && !letters.any (·.outstanding run.key)

/-- The letter of a quarantined run. -/
def letter (o : ReconcileWorkflowRunsOptions) (call : Nat) (run : HostRun) : Letter where
  tenantId := o.tenantId
  deploymentId := run.deploymentId
  runId := some run.id
  messageId := "msg_reconcile_" ++ run.id
  jobName := some hostReconciliation
  queueName := some (runQueueName o.tenantId run.id)
  attempt := 0
  reason := o.reason
  insertedBy := some call

end ReconcileWorkflowRunsOptions

def HostRun.reconciled (run : HostRun) : ReconciledWorkflowRun := ⟨run.id, run.name, run.deploymentId, run.status⟩

/-- Where a quarantine call is. -/
inductive QuarantineCall where
  | idle
  | reading (o : ReconcileWorkflowRunsOptions)
  /-- The read has its snapshot and locks the rows it found there, one after the other. -/
  | locking (o : ReconcileWorkflowRunsOptions) (left rows : List HostRun)
  | inserting (o : ReconcileWorkflowRunsOptions) (left : List HostRun) (letters : List Letter)
      (reconciled : List ReconciledWorkflowRun)
  | returned (reconciled : List ReconciledWorkflowRun)
  | threw (error : String)
  deriving DecidableEq, Repr

/-! ## Transactions that write run statuses -/

/-- A transaction that writes statuses, by any path. `updates` has the latest write of a run first;
`due` are the runs whose trigger has not fired, `fired` those whose trigger has, with the number of
letters its UPDATE saw. -/
structure Writer where
  updates : List (RunKey × RunStatus) := []
  due : List RunKey := []
  fired : List (RunKey × Nat) := []
  deriving DecidableEq, Repr

inductive Owner where
  | call (i : Nat)
  | writer (j : Nat)
  deriving DecidableEq, Repr

/-! ## The machine -/

structure Host where
  /-- What the next insert or modification of a run's row is stamped with. -/
  stamp : Nat := 0
  runs : List HostRun := []
  letters : List Letter := []
  /-- The transaction that holds the lock of a run's row. -/
  lock : RunKey → Option Owner := fun _ => none
  calls : Nat → QuarantineCall := fun _ => .idle
  writers : Nat → Writer := fun _ => {}

namespace Host

def run (s : Host) (k : RunKey) : Option HostRun := s.runs.find? (·.key == k)

def setCall (s : Host) (i : Nat) (c : QuarantineCall) : Host := { s with calls := Function.update s.calls i c }

def setWriter (s : Host) (j : Nat) (w : Writer) : Host := { s with writers := Function.update s.writers j w }

/-- The row is locked by nobody else. -/
def free (s : Host) (k : RunKey) (owner : Owner) : Bool := (s.lock k).all (· == owner)

def acquire (s : Host) (k : RunKey) (owner : Owner) : Host := { s with lock := Function.update s.lock k (some owner) }

/-- The end of a transaction. -/
def release (s : Host) (owner : Owner) : Host :=
  { s with lock := fun k => if s.lock k = some owner then none else s.lock k }

/-- The run as a transaction leaves it. -/
def applied (stamp : Nat) (updates : List (RunKey × RunStatus)) (run : HostRun) : HostRun :=
  match updates.lookup run.key with
  | some status => { run with status, version := stamp }
  | none => run

/-- The letter, after the triggers of a transaction. -/
def resolvedBy (fired : List (RunKey × Nat)) (n : Nat) (letter : Letter) : Letter :=
  if fired.any fun f => letter.isOf f.1 && decide (n < f.2) then { letter with resolved := true } else letter

end Host

inductive HostEvent where
  /-- The World inserts a run, or retention deletes one. -/
  | create (run : HostRun)
  | delete (k : RunKey)
  /-- A transaction writes a run's status, its trigger fires, and it ends. -/
  | set (j : Nat) (k : RunKey) (status : RunStatus)
  | fire (j : Nat)
  | commit (j : Nat)
  | abort (j : Nat)
  /-- `onDeadLetter`. -/
  | onDeadLetter (letter : Letter)
  /-- An operator resolves the letter at a place of the table. -/
  | resolve (n : Nat)
  /-- A quarantine call, statement by statement. The read may find its rows in any order. -/
  | quarantine (i : Nat) (o : ReconcileWorkflowRunsOptions)
  | read (i : Nat) (found : List HostRun)
  | lockRow (i : Nat)
  | answer (i : Nat)
  | insert (i : Nat)
  | return_ (i : Nat)
  | throw_ (i : Nat) (error : String)
  deriving DecidableEq, Repr

namespace Host

def step : HostEvent → Host → Option Host
  | .create run, s =>
    if !run.status.isTerminal && !s.runs.any (·.key == run.key) then
      some { s with stamp := s.stamp + 1, runs := s.runs ++ [{ run with birth := s.stamp, version := s.stamp }] }
    else none
  | .delete k, s =>
    if s.lock k = none then some { s with runs := s.runs.filter (·.key != k) } else none
  | .set j k status, s =>
    match s.run k with
    | some run =>
      if s.free k (.writer j) then
        let w := s.writers j
        let old := (w.updates.lookup k).getD run.status
        some ((s.acquire k (.writer j)).setWriter j { w with
          updates := (k, status) :: w.updates
          due := if status.isTerminal && old != status then w.due ++ [k] else w.due })
      else none
    | none => none
  | .fire j, s =>
    match (s.writers j).due with
    | k :: rest =>
      some (s.setWriter j { s.writers j with due := rest, fired := (k, s.letters.length) :: (s.writers j).fired })
    | [] => none
  | .commit j, s =>
    let w := s.writers j
    if w.due = [] then
      some (({ s with
        stamp := s.stamp + 1
        runs := s.runs.map (applied s.stamp w.updates)
        letters := s.letters.mapIdx (resolvedBy w.fired) }.release (.writer j)).setWriter j {})
    else none
  | .abort j, s => some ((s.release (.writer j)).setWriter j {})
  | .onDeadLetter letter, s =>
    -- a delivery's letter is new and has the delivery's job name
    if letter.jobName = some flowJobName ∧ letter.resolved = false ∧ letter.insertedBy = none then
      some { s with letters := s.letters ++ [letter] }
    else none
  | .resolve n, s =>
    some { s with letters := s.letters.mapIdx fun m letter => if m = n then { letter with resolved := true } else letter }
  | .quarantine i o, s =>
    match s.calls i with
    | .idle =>
      some (s.setCall i (match o.prepare with
        | .error e => .threw e
        | .ok (some reconciled) => .returned reconciled
        | .ok none => .reading o))
    | _ => none
  | .read i found, s =>
    match s.calls i with
    | .reading o =>
      if found.isPerm (s.runs.filter (o.wants s.letters)) then
        some (s.setCall i (.locking o found []))
      else none
    | _ => none
  | .lockRow i, s =>
    match s.calls i with
    | .locking o (found :: left) rows =>
      if s.free found.key (.call i) then
        match s.run found.key with
        | some run =>
          if run.birth = found.birth then
            -- only a row that was modified since the snapshot is looked at again
            let kept := run.version == found.version || o.wants s.letters run
            some ((s.acquire found.key (.call i)).setCall i (.locking o left (if kept then rows ++ [run] else rows)))
          else some (s.setCall i (.locking o left rows))
        | none => some (s.setCall i (.locking o left rows))
      else none
    | _ => none
  | .answer i, s =>
    match s.calls i with
    | .locking o [] rows => some (s.setCall i (.inserting o rows [] []))
    | _ => none
  | .insert i, s =>
    match s.calls i with
    | .inserting o (run :: left) letters reconciled =>
      some (s.setCall i (.inserting o left (letters ++ [o.letter i run]) (reconciled ++ [run.reconciled])))
    | _ => none
  | .return_ i, s =>
    match s.calls i with
    | .inserting _ [] letters reconciled =>
      some (({ s with letters := s.letters ++ letters }.release (.call i)).setCall i (.returned reconciled))
    | _ => none
  | .throw_ i error, s =>
    match s.calls i with
    | .reading _ | .locking .. | .inserting .. => some ((s.release (.call i)).setCall i (.threw error))
    | _ => none

/-! ## What an event leaves alone -/

section Updates

variable (s : Host) (i j : Nat) (c : QuarantineCall) (w : Writer) (owner : Owner) (k : RunKey)

@[simp] theorem setCall_runs : (s.setCall i c).runs = s.runs := rfl
@[simp] theorem setCall_letters : (s.setCall i c).letters = s.letters := rfl
@[simp] theorem setCall_lock : (s.setCall i c).lock = s.lock := rfl
@[simp] theorem setCall_stamp : (s.setCall i c).stamp = s.stamp := rfl
@[simp] theorem setCall_writers : (s.setCall i c).writers = s.writers := rfl
@[simp] theorem setCall_calls_self : (s.setCall i c).calls i = c := Function.update_self ..
@[simp] theorem setWriter_runs : (s.setWriter j w).runs = s.runs := rfl
@[simp] theorem setWriter_letters : (s.setWriter j w).letters = s.letters := rfl
@[simp] theorem setWriter_lock : (s.setWriter j w).lock = s.lock := rfl
@[simp] theorem setWriter_stamp : (s.setWriter j w).stamp = s.stamp := rfl
@[simp] theorem setWriter_calls : (s.setWriter j w).calls = s.calls := rfl
@[simp] theorem setWriter_writers_self : (s.setWriter j w).writers j = w := Function.update_self ..
@[simp] theorem acquire_runs : (s.acquire k owner).runs = s.runs := rfl
@[simp] theorem acquire_letters : (s.acquire k owner).letters = s.letters := rfl
@[simp] theorem acquire_stamp : (s.acquire k owner).stamp = s.stamp := rfl
@[simp] theorem acquire_calls : (s.acquire k owner).calls = s.calls := rfl
@[simp] theorem acquire_writers : (s.acquire k owner).writers = s.writers := rfl
@[simp] theorem acquire_lock_self : (s.acquire k owner).lock k = some owner := Function.update_self ..
@[simp] theorem release_runs : (s.release owner).runs = s.runs := rfl
@[simp] theorem release_letters : (s.release owner).letters = s.letters := rfl
@[simp] theorem release_stamp : (s.release owner).stamp = s.stamp := rfl
@[simp] theorem release_calls : (s.release owner).calls = s.calls := rfl
@[simp] theorem release_writers : (s.release owner).writers = s.writers := rfl

end Updates

variable {s s' : Host} {e : HostEvent} {k : RunKey} {owner owner' : Owner}

/-- A lock that is held stays with its owner when another row or a free one is locked. -/
theorem lock_acquire (h : s.lock k = some owner) {k' : RunKey} (hf : s.free k' owner') :
    (s.acquire k' owner').lock k = some owner := by
  by_cases hk : k = k'
  · subst hk
    have heq : owner = owner' := by simpa [free, h] using hf
    rw [acquire_lock_self, heq]
  · simp only [acquire, Function.update_of_ne hk, h]

theorem lock_release (h : s.lock k = some owner) (hne : owner ≠ owner') : (s.release owner').lock k = some owner := by
  simp only [release]
  rw [if_neg, h]
  rw [h]
  exact fun heq => hne (Option.some.inj heq)

end Host

/-- The quarantine call, or the writer, whose step the event is. -/
def HostEvent.actor : HostEvent → Option Owner
  | .set j _ _ | .fire j | .commit j | .abort j => some (.writer j)
  | .quarantine i _ | .read i _ | .lockRow i | .answer i | .insert i | .return_ i | .throw_ i _ => some (.call i)
  | _ => none

/-- The transaction that the event ends. -/
def HostEvent.ends : HostEvent → Option Owner
  | .commit j | .abort j => some (.writer j)
  | .return_ i | .throw_ i _ => some (.call i)
  | _ => none

theorem HostEvent.actor_of_ends {e : HostEvent} {owner : Owner} (h : e.ends = some owner) : e.actor = some owner := by
  cases e <;> first | exact h | cases h

end WorkflowWorld.Dispatcher
