/-
The dispatcher service's lifecycle (`startDispatcherService`, `acquireDispatcherOwnership`): any
number of instances on one database, each stepping from await to await through acquisition,
migrations, preflight, boot recovery and claiming to its shutdown. The advisory lock, the sessions
that hold it, the loss reports and the worker pools' claims are moves of their own, at any time.
-/
import WorkflowWorld.Dispatcher.BootRecovery
import Mathlib.Logic.Relation
import Mathlib.Logic.Function.Basic

namespace WorkflowWorld.Dispatcher

/-! ## One instance -/

/-- The parts of a shutdown, each awaited before the next. -/
inductive Cleanup where
  | stopMaintenance | stopRuntime | releaseWorkerUtils | releaseOwnership | endPool
  deriving DecidableEq, Repr

/-- The await an instance is at. A phase that has called `forceUnlockWorkers`, `addJob` or
`startDispatcher` is left when that call answers. -/
inductive Phase (W : Type) where
  | idle
  | acquiring
  | configuring
  | migrating
  | makingWorkerUtils
  | preflight
  | sweeping (sweepStartedAt : Nat)
  | readingUnqueued (sweepStartedAt : Nat) (rows : List (SweepRow W))
  | unlocking (sweepStartedAt : Nat) (rows : List (SweepRow W)) (ids : List W)
  | filtering (sweepStartedAt : Nat) (offered : List (SweepRow W))
  | enqueueing (sweepStartedAt : Nat) (all : List (SweepRow W)) (row : SweepRow W) (left : List (SweepRow W))
  | startingPool
  | ready
  | cleaningUp (left : List Cleanup)
  | gone
  deriving DecidableEq, Repr

namespace Phase

variable {W : Type}

/-- From the lock's acquisition to the end of `startDispatcher`. -/
def starting : Phase W → Bool
  | .idle | .acquiring | .ready | .cleaningUp _ | .gone => false
  | _ => true

/-- `startDispatcher` has not been called. -/
def beforePool : Phase W → Bool
  | .startingPool | .ready | .cleaningUp _ | .gone => false
  | _ => true

/-- A lifecycle action is under way: `forceUnlockWorkers`, a re-enqueue, or the pool's start. -/
def acting : Phase W → Bool
  | .unlocking .. | .enqueueing .. | .startingPool => true
  | _ => false

/-- The worker ids the sweep has read so far. -/
def noted : Phase W → List W
  | .readingUnqueued _ rows => rows.filterMap (·.lockedBy)
  | .unlocking _ _ ids => ids
  | _ => []

end Phase

inductive PoolState where
  | notStarted | running | stopped
  deriving DecidableEq, Repr

/-- One `startDispatcherService` call. -/
structure Instance (W : Type) where
  phase : Phase W := .idle
  /-- The listeners and the heartbeat of the ownership session are installed. -/
  listening : Bool := false
  /-- `onLost` was called: the ownership is `lost` and the service's `lostError` is set. -/
  lost : Bool := false
  stopOnLoss : Bool := false
  released : Bool := false
  /-- The ownership session is open on the server. -/
  session : Bool := false
  pool : PoolState := .notStarted
  deriving DecidableEq, Repr

structure ServiceOptions where
  beforeBootRecovery : Bool := false
  filterBootRecoveryRuns : Bool := false
  pacing : Option BootRecoveryPacing := none
  deriving DecidableEq, Repr

/-- How an await ends: it may throw, before or after its statement took effect. -/
structure Answer where
  threw : Bool := false
  applied : Bool := true
  now : Nat := 0
  kept : List BootRecoveryRun := []
  deriving DecidableEq, Repr

/-- What the end of an await did to what the instances share. -/
inductive Effect (W : Type) where
  | nothing
  | takeLock
  | dropLock
  | unlockWorkers (ids : List W)
  | addJob (job : Job W)
  deriving DecidableEq, Repr

namespace Instance

variable {W : Type}

def goto (x : Instance W) (p : Phase W) : Instance W := { x with phase := p }

/-- `service.stop()`. -/
def stopEverything : List Cleanup := [.stopMaintenance, .stopRuntime, .releaseOwnership, .endPool]

/-- The catch of a failed start, after what it has to stop first. -/
def fail (x : Instance W) (first : List Cleanup) : Instance W :=
  x.goto (.cleaningUp (first ++ [.releaseOwnership, .endPool]))

/-- `startClaiming`: the pool may claim from the moment it is called. -/
def startClaiming (x : Instance W) : Instance W := { x with phase := .startingPool, pool := .running }

/-- The loop over the candidates left to re-enqueue. -/
def reenqueue (x : Instance W) (sweepStartedAt : Nat) (all : List (SweepRow W)) : List (SweepRow W) → Instance W
  | [] => x.startClaiming
  | row :: left => x.goto (.enqueueing sweepStartedAt all row left)

/-- The host filters the candidates, or all of them are re-enqueued. -/
def afterReclaim (o : ServiceOptions) (x : Instance W) (sweepStartedAt : Nat) (rows : List (SweepRow W)) :
    Instance W :=
  if o.filterBootRecoveryRuns then x.goto (.filtering sweepStartedAt (candidates rows))
  else x.reenqueue sweepStartedAt (candidates rows) (candidates rows)

/-- `startDispatcher` answered: a loss that was reported meanwhile is a failed start. -/
def started (x : Instance W) : Instance W :=
  if x.lost then
    { x with stopOnLoss := true
             phase := .cleaningUp (stopEverything ++ [.stopRuntime, .releaseOwnership, .endPool]) }
  else { x with stopOnLoss := true, phase := .ready }

/-- One part of a shutdown. A lost ownership's client is destroyed instead of unlocked. -/
def cleanUp (a : Answer) (x : Instance W) : Cleanup → Instance W × Effect W
  | .stopMaintenance | .releaseWorkerUtils | .endPool => (x, .nothing)
  | .stopRuntime => ({ x with pool := .stopped }, .nothing)
  | .releaseOwnership =>
    if x.released then (x, .nothing)
    else if x.lost || !x.session || !a.applied then ({ x with released := true }, .nothing)
    else ({ x with released := true }, .dropLock)

/-- The instance goes on from the await it is at. `free` says whether `pg_try_advisory_lock` would
succeed. -/
def resume [DecidableEq W] (o : ServiceOptions) (free : Bool) (T : Tables W) (a : Answer) (x : Instance W) :
    Option (Instance W × Effect W) :=
  match x.phase with
  | .idle => some ({ x with phase := .acquiring, session := true }, .nothing)
  | .acquiring =>
    -- a failed query, or `waitMs` has passed
    if a.threw then some (x.goto (.cleaningUp [.endPool]), .nothing)
    else if !x.session then none
    else if free then some (x.goto .configuring, .takeLock)
    else some (x, .nothing)
  | .configuring => some ({ x with phase := .migrating, listening := true }, .nothing)
  | .migrating => some (if a.threw then x.fail [] else x.goto .makingWorkerUtils, .nothing)
  | .makingWorkerUtils =>
    some (if a.threw then x.fail []
      else if o.beforeBootRecovery then x.goto .preflight
      else x.goto (.sweeping a.now), .nothing)
  | .preflight =>
    some (if a.threw then x.fail [.releaseWorkerUtils] else x.goto (.sweeping a.now), .nothing)
  | .sweeping at_ =>
    some (if a.threw then x.fail [.releaseWorkerUtils] else x.goto (.readingUnqueued at_ T.sweepRows), .nothing)
  | .readingUnqueued at_ rows =>
    some (if a.threw then x.fail [.releaseWorkerUtils]
      else match oldWorkerIds rows T.unqueuedLocks with
        | [] => x.afterReclaim o at_ rows
        | ids => x.goto (.unlocking at_ rows ids), .nothing)
  | .unlocking at_ rows ids =>
    some (if a.threw then x.fail [.releaseWorkerUtils] else x.afterReclaim o at_ rows,
      if a.threw && !a.applied then .nothing else .unlockWorkers ids)
  | .filtering at_ offered =>
    some (if a.threw then x.fail [.releaseWorkerUtils]
      else x.reenqueue at_ (keptBy a.kept offered) (keptBy a.kept offered), .nothing)
  | .enqueueing at_ all row left =>
    -- a failed `addJob` is logged and the loop goes on
    some (x.reenqueue at_ all left,
      if a.threw && !a.applied then .nothing else .addJob (recoveryJob o.pacing at_ all row))
  | .startingPool =>
    some (if a.threw then ({ x with pool := .stopped } : Instance W).fail [.releaseWorkerUtils] else x.started,
      .nothing)
  | .ready => none
  | .cleaningUp [] => some (x.goto .gone, .nothing)
  | .cleaningUp (c :: left) => some ((x.cleanUp a c).1.goto (.cleaningUp left), (x.cleanUp a c).2)
  | .gone => none

/-- `service.stop()`, asked for by the host or by a loss. -/
def stop (x : Instance W) : Instance W :=
  if x.phase matches .ready then x.goto (.cleaningUp stopEverything) else x

/-- `onLost`: the session ended, or its heartbeat did not answer. -/
def onLost (x : Instance W) : Option (Instance W) :=
  if x.listening && !x.lost && !x.released then
    some (if x.stopOnLoss then { x.stop with lost := true } else { x with lost := true })
  else none

end Instance

/-! ## The instances together -/

/-- A graphile worker id, minted by one instance's pool. -/
structure Worker (I : Type) where
  owner : I
  no : Nat
  deriving DecidableEq, Repr

/-- The state of the database and of every instance. `holder` is the instance whose session holds
the ownership lock. -/
structure Service (I : Type) where
  holder : Option I := none
  inst : I → Instance (Worker I) := fun _ => {}
  tables : Tables (Worker I) := {}

/-- What happens next: an instance's await ends, an ownership session ends, its end is reported, the
host asks for a stop, a process dies, a pool's worker claims a job, or anything else happens to the
tables that locks nothing. -/
inductive Move (I : Type) where
  | resume (i : I) (a : Answer)
  | sessionEnds (i : I)
  | onLost (i : I)
  | stop (i : I)
  | crash (i : I)
  | claim (w : Worker I) (T : Tables (Worker I))
  | world (T : Tables (Worker I))

namespace Service

variable {I : Type} [DecidableEq I]

def set (s : Service I) (i : I) (x : Instance (Worker I)) : Service I :=
  { s with inst := Function.update s.inst i x }

def free (i : I) (holder : Option I) : Option I := if holder = some i then none else holder

def apply (i : I) : Effect (Worker I) → Service I → Service I
  | .nothing, s => s
  | .takeLock, s => { s with holder := some i }
  | .dropLock, s => { s with holder := free i s.holder }
  | .unlockWorkers ids, s => { s with tables := s.tables.forceUnlockWorkers ids }
  | .addJob job, s => { s with tables := s.tables.addJob job }

def move (o : I → ServiceOptions) : Move I → Service I → Option (Service I)
  | .resume i a, s =>
    ((s.inst i).resume (o i) s.holder.isNone s.tables a).map fun (x, e) => (s.apply i e).set i x
  | .sessionEnds i, s =>
    if (s.inst i).session then
      some ({ s with holder := free i s.holder }.set i { s.inst i with session := false })
    else none
  | .onLost i, s => (s.inst i).onLost.map (s.set i)
  | .stop i, s => some (s.set i (s.inst i).stop)
  | .crash i, s => some (s.set i { s.inst i with phase := .gone, pool := .stopped })
  | .claim w T, s =>
    if (s.inst w.owner).pool = .running ∧ ∀ v ∈ T.workers, v = w ∨ v ∈ s.tables.workers then
      some { s with tables := T }
    else none
  | .world T, s => if ∀ v ∈ T.workers, v ∈ s.tables.workers then some { s with tables := T } else none

/-- A run whose moves all satisfy `cond`. -/
def Reaches (o : I → ServiceOptions) (cond : Move I → Service I → Bool) : Service I → Service I → Prop :=
  Relation.ReflTransGen fun s s' => ∃ m, cond m s = true ∧ move o m s = some s'

/-- A list of moves, each of which satisfies `c`, one after the other. -/
def play (o : I → ServiceOptions) (c : Move I → Service I → Bool) : List (Move I) → Service I → Option (Service I)
  | [], s => some s
  | m :: ms, s => if c m s then (move o m s).bind (play o c ms) else none

theorem reaches_play {o : I → ServiceOptions} {c : Move I → Service I → Bool} :
    ∀ {ms : List (Move I)} {s s' : Service I}, play o c ms s = some s' → Reaches o c s s'
  | [], s, s', h => by cases h; exact .refl
  | m :: ms, s, s', h => by
    unfold play at h
    split at h
    · rename_i hc
      obtain ⟨s₁, h1, h2⟩ := Option.bind_eq_some_iff.1 h
      exact .head ⟨m, hc, h1⟩ (reaches_play h2)
    · cases h

/-- What holds where a list of moves ends holds in a reachable state. -/
theorem exists_of_play {o : I → ServiceOptions} {c : Move I → Service I → Bool} {s : Service I}
    (ms : List (Move I)) (P : Service I → Bool) (h : (play o c ms s).any P = true) :
    ∃ s', Reaches o c s s' ∧ P s' = true := by
  obtain ⟨s', h1, h2⟩ := (Option.any_eq_true _ _).1 h
  exact ⟨s', reaches_play h1, h2⟩

/-- Where runs start: nobody holds the lock, no instance has started, and the locks in the tables
are those of processes that are gone. -/
structure Boot (s : Service I) : Prop where
  holder : s.holder = none
  fresh : ∀ i, s.inst i = {} ∨ (s.inst i).phase = .gone
  workers : ∀ w ∈ s.tables.workers, (s.inst w.owner).pool = .stopped

end Service

end WorkflowWorld.Dispatcher
