/-
The retention passes (`retention.ts`): three pruners that delete in batches, and the two checkpoint
cleaners that follow a pass over streams. A pass runs alone; `now()` is read anew by every batch, so
the times of a pass are a clock that only moves forward. The ages of rows are milliseconds.
-/
import Mathlib.Data.List.Sort
import Mathlib.Data.List.Nodup
import WorkflowWorld.Rows
import Mathlib.Algebra.GroupWithZero.Nat

namespace WorkflowWorld.Retention

/-! ## The tables -/

inductive RetentionClass where
  | scheduled | interactive | persistent
  deriving DecidableEq, Repr

/-- A row of `workflow_runs`: what the passes read of it. -/
structure RunRow where
  key : RunKey
  status : RunStatus
  retentionClass : RetentionClass
  retentionRootRunId : RunId
  completedAt : Option Nat := none
  updatedAt : Nat
  expireAfter : Option Nat := none
  detailExpireAfter : Option Nat := none
  deriving DecidableEq, Repr

/-- A row of `workflow_stream_chunks`. -/
structure ChunkRow where
  tenant : TenantId
  streamId : String
  id : String
  runId : Option RunId
  eof : Bool
  deriving DecidableEq, Repr

/-- A row of `workflow_stream_checkpoints`. -/
structure CheckpointRow where
  tenant : TenantId
  streamId : String
  chunkId : String
  runId : Option RunId
  deriving DecidableEq, Repr

/-- A row of `workflow_hooks`. -/
structure HookRow where
  run : RunKey
  hookId : HookId
  tokenRetentionUntil : Option Nat := none
  deriving DecidableEq, Repr

/-- A row of a table the passes only know by its run: an event, a slots marker, a step or a wait. -/
structure DetailRow where
  run : RunKey
  id : String
  deriving DecidableEq, Repr

structure Tables where
  runs : List RunRow := []
  chunks : List ChunkRow := []
  checkpoints : List CheckpointRow := []
  events : List DetailRow := []
  slots : List DetailRow := []
  steps : List DetailRow := []
  hooks : List HookRow := []
  waits : List DetailRow := []
  /-- The primary key of `workflow_runs`. -/
  keys : (runs.map (·.key)).Nodup := by decide

def RunRow.tenant (r : RunRow) : TenantId := r.key.1

def ChunkRow.ofRun (c : ChunkRow) (k : RunKey) : Bool := c.tenant = k.1 ∧ c.runId = some k.2

def CheckpointRow.ofRun (c : CheckpointRow) (k : RunKey) : Bool := c.tenant = k.1 ∧ c.runId = some k.2

/-! ## Which runs a pass may touch -/

/-- The deadline a pass goes by. -/
inductive Deadline where
  /-- The age since the run ended, `coalesce(completed_at, updated_at)`. -/
  | age (retentionMs : Nat)
  | expireAfter
  | detailExpireAfter
  deriving DecidableEq, Repr

/-- The run is past the deadline. -/
def RunRow.past (r : RunRow) (now : Nat) : Deadline → Bool
  | .age retentionMs => r.completedAt.getD r.updatedAt + retentionMs < now
  | .expireAfter => r.expireAfter.any (· ≤ now)
  | .detailExpireAfter => r.detailExpireAfter.any (· ≤ now)

/-- Two runs of one lineage. -/
def RunRow.sameLineage (l r : RunRow) : Bool := l.tenant = r.tenant ∧ l.retentionRootRunId = r.retentionRootRunId

/-- A member that keeps its lineage: it is active, persistent, or not past the deadline. -/
def RunRow.protects (l : RunRow) (now : Nat) (deadline : Deadline) : Bool :=
  !l.status.isTerminal || l.retentionClass = .persistent || !l.past now deadline

/-- A hook of the lineage keeps its token beyond now. -/
def Tables.tokenRetained (db : Tables) (now : Nat) (r : RunRow) : Bool :=
  db.hooks.any fun h => db.runs.any fun owner =>
    owner.key = h.run && owner.sameLineage r && h.tokenRetentionUntil.any (now < ·)

/-- The predicate that all passes share. -/
def Tables.eligible (db : Tables) (now : Nat) (deadline : Deadline) (r : RunRow) : Bool :=
  r.status.isTerminal && r.past now deadline &&
    !(db.runs.any fun l => l.sameLineage r && l.protects now deadline) && !db.tokenRetained now r

/-! ## Streams -/

/-- The order the chunks are taken in. -/
def RunRow.endedAt (r : RunRow) : Deadline → Nat
  | .age _ => r.completedAt.getD r.updatedAt
  | .expireAfter => r.expireAfter.getD 0
  | .detailExpireAfter => r.detailExpireAfter.getD 0

def lexLe : List String → List String → Bool
  | a :: as, b :: bs => a < b || (a = b && lexLe as bs)
  | [], _ => true
  | _ :: _, [] => false

def firstDue (a b : Nat × List String) : Prop := a.1 < b.1 ∨ a.1 = b.1 ∧ lexLe a.2 b.2

instance : DecidableRel firstDue := fun a b => inferInstanceAs (Decidable (a.1 < b.1 ∨ a.1 = b.1 ∧ lexLe a.2 b.2 = true))

/-- The rows one statement deletes: the chunks of eligible runs, but no EOF. -/
def Tables.victimChunks (db : Tables) (now : Nat) (deadline : Deadline) (batchSize : Nat) : List ChunkRow :=
  let joined := db.chunks.flatMap fun c =>
    (db.runs.filter fun r => !c.eof && c.ofRun r.key && db.eligible now deadline r).map fun r => (r, c)
  let order := fun (x y : RunRow × ChunkRow) =>
    firstDue (x.1.endedAt deadline, [x.2.tenant, x.2.streamId, x.2.id]) (y.1.endedAt deadline, [y.2.tenant, y.2.streamId, y.2.id])
  ((joined.insertionSort order).take batchSize).map (·.2)

/-- One `DELETE` of stream rows, and how many it deleted. -/
def Tables.deleteChunks (db : Tables) (now : Nat) (deadline : Deadline) (batchSize : Nat) : Tables × Nat :=
  let victims := db.victimChunks now deadline batchSize
  ({ db with chunks := db.chunks.filter (· ∉ victims) }, (db.chunks.filter (· ∈ victims)).length)

/-- `deleteExpiredCheckpoints` and `deleteTerminalCheckpointsByAge`. -/
def Tables.deleteCheckpoints (db : Tables) (now : Nat) (deadline : Deadline) : Tables :=
  { db with checkpoints := db.checkpoints.filter fun c =>
      !(db.runs.any fun r => c.ofRun r.key && db.eligible now deadline r) }

structure StreamRetentionResult where
  deletedRows : Nat
  batches : Nat
  hitBatchLimit : Bool
  lockAcquired : Bool
  deriving DecidableEq, Repr

/-- The loop of a pass over streams: `left` batches are left, `batches` is the number of the next. -/
def pruneStreams (deadline : Deadline) (batchSize : Nat) (clock : Nat → Nat) :
    (left batches deletedRows : Nat) → Tables → Tables × StreamRetentionResult
  | 0, batches, deletedRows, db => (db.deleteCheckpoints (clock batches) deadline, ⟨deletedRows, batches - 1, true, true⟩)
  | left + 1, batches, deletedRows, db =>
    let (db', deleted) := db.deleteChunks (clock batches) deadline batchSize
    if deleted < batchSize then
      (db'.deleteCheckpoints (clock (batches + 1)) deadline, ⟨deletedRows + deleted, batches, false, true⟩)
    else pruneStreams deadline batchSize clock left (batches + 1) (deletedRows + deleted) db'

/-! ## Runs -/

/-- The runs one batch deletes. -/
def Tables.victimRuns (db : Tables) (now : Nat) (batchSize : Nat) : List RunKey :=
  let order := fun (x y : RunRow) =>
    firstDue (x.endedAt .detailExpireAfter, [x.key.1, x.key.2]) (y.endedAt .detailExpireAfter, [y.key.1, y.key.2])
  (((db.runs.filter (db.eligible now .detailExpireAfter)).insertionSort order).take batchSize).map (·.key)

/-- The rows of the victims go with them, except EOF. -/
def Tables.deleteRuns (db : Tables) (victims : List RunKey) : Tables where
  runs := db.runs.filter (·.key ∉ victims)
  chunks := db.chunks.filter fun c => c.eof || !(victims.any c.ofRun)
  checkpoints := db.checkpoints.filter fun c => !(victims.any c.ofRun)
  events := db.events.filter (·.run ∉ victims)
  slots := db.slots.filter (·.run ∉ victims)
  steps := db.steps.filter (·.run ∉ victims)
  hooks := db.hooks.filter (·.run ∉ victims)
  waits := db.waits.filter (·.run ∉ victims)
  keys := db.keys.sublist (List.Sublist.map _ List.filter_sublist)

/-- Hooks of runs that are gone, once their token has lapsed, and checkpoints of runs that are gone. -/
def Tables.deleteOrphans (db : Tables) (now : Nat) : Tables :=
  { db with
    hooks := db.hooks.filter fun h => !(h.tokenRetentionUntil.any (· ≤ now) && !(db.runs.any (·.key = h.run)))
    checkpoints := db.checkpoints.filter fun c => db.runs.any fun r => c.ofRun r.key }

structure WorkflowRunRetentionResult where
  deletedRuns : Nat
  batches : Nat
  hitBatchLimit : Bool
  lockAcquired : Bool
  deriving DecidableEq, Repr

/-- The loop of `pruneExpiredWorkflowRuns`, one transaction a batch. -/
def pruneRuns (batchSize : Nat) (clock : Nat → Nat) :
    (left batches deletedRuns : Nat) → Tables → Tables × WorkflowRunRetentionResult
  | 0, batches, deletedRuns, db => (db, ⟨deletedRuns, batches - 1, true, true⟩)
  | left + 1, batches, deletedRuns, db =>
    let now := clock batches
    let victims := db.victimRuns now batchSize
    let db' := (db.deleteRuns victims).deleteOrphans now
    let deleted := (db.runs.filter (·.key ∈ victims)).length
    if victims.length < batchSize then (db', ⟨deletedRuns + deleted, batches, false, true⟩)
    else pruneRuns batchSize clock left (batches + 1) (deletedRuns + deleted) db'

/-! ## The passes -/

/-- `Number.isSafeInteger`. -/
def isSafeInteger (v : Int) : Bool := v.natAbs ≤ 2 ^ 53 - 1

def assertNonNegativeInteger (v : Int) (name : String) : Except String Unit :=
  if !isSafeInteger v || v < 0 then throw (name ++ " must be a non-negative safe integer") else pure ()

def assertPositiveInteger (v : Int) (name : String) : Except String Unit :=
  if !isSafeInteger v || v ≤ 0 then throw (name ++ " must be a positive safe integer") else pure ()

structure StreamRetentionOptions where
  retentionMs : Int
  batchSize : Int
  maxBatches : Int
  deriving DecidableEq, Repr

structure DeadlineRetentionOptions where
  batchSize : Int
  maxBatches : Int
  deriving DecidableEq, Repr

def emptyStreamResult (lockAcquired : Bool) : StreamRetentionResult := ⟨0, 0, false, lockAcquired⟩

def emptyRunResult (lockAcquired : Bool) : WorkflowRunRetentionResult := ⟨0, 0, false, lockAcquired⟩

def pruneTerminalStreamChunks (o : StreamRetentionOptions) (locked : Bool) (clock : Nat → Nat) (db : Tables) :
    Except String (Tables × StreamRetentionResult) := do
  assertNonNegativeInteger o.retentionMs "retentionMs"
  assertPositiveInteger o.batchSize "batchSize"
  assertPositiveInteger o.maxBatches "maxBatches"
  if locked then return pruneStreams (.age o.retentionMs.toNat) o.batchSize.toNat clock o.maxBatches.toNat 1 0 db
  else return (db, emptyStreamResult false)

def pruneExpiredStreamChunks (o : DeadlineRetentionOptions) (locked : Bool) (clock : Nat → Nat) (db : Tables) :
    Except String (Tables × StreamRetentionResult) := do
  assertPositiveInteger o.batchSize "batchSize"
  assertPositiveInteger o.maxBatches "maxBatches"
  if locked then return pruneStreams .expireAfter o.batchSize.toNat clock o.maxBatches.toNat 1 0 db
  else return (db, emptyStreamResult false)

def pruneExpiredWorkflowRuns (o : DeadlineRetentionOptions) (locked : Bool) (clock : Nat → Nat) (db : Tables) :
    Except String (Tables × WorkflowRunRetentionResult) := do
  assertPositiveInteger o.batchSize "batchSize"
  assertPositiveInteger o.maxBatches "maxBatches"
  if locked then return pruneRuns o.batchSize.toNat clock o.maxBatches.toNat 1 0 db
  else return (db, emptyRunResult false)

end WorkflowWorld.Retention
