/-
Repacking of closed streams (`src/stream-block-maintenance.ts`): the data rows of a stream of a
terminal run are rewritten into packed blocks, and its EOF rows are marked as done.
-/
import WorkflowWorld.Rows
import WorkflowWorld.Streams.Layout

namespace WorkflowWorld.Streams

/-! ## Candidates -/

/-- What the rewrite reads of a run. -/
structure StreamRun where
  tenantId : String
  id : String
  status : RunStatus
  compactAfter : Option Nat
  deriving DecidableEq, Repr

structure PackTerminalStreamBlocksOptions where
  maxStreams : Int
  maxChunksPerBlock : Int := DEFAULT_STREAM_BLOCK_CHUNKS
  maxBlockBytes : Int := DEFAULT_STREAM_BLOCK_BYTES
  compactSnapshots : Bool := true
  deriving DecidableEq, Repr

structure PackTerminalStreamBlocksResult where
  streamsCompacted : Nat
  logicalChunks : Nat
  physicalRowsBefore : Nat
  physicalRowsAfter : Nat
  hitStreamLimit : Bool
  lockAcquired : Bool
  deriving DecidableEq, Repr

def emptyResult (lockAcquired : Bool) : PackTerminalStreamBlocksResult := ⟨0, 0, 0, 0, false, lockAcquired⟩

structure Candidate where
  tenantId : String
  streamId : String
  runId : Option String
  compactAfter : Nat
  deriving DecidableEq, Repr

/-- The join of an EOF row that is not packed yet with its run, when that is terminal and due. -/
def dueAt (runs : List StreamRun) (now : Nat) (row : StreamRow) : Option Nat :=
  if row.eof && row.codecVersion != some 2 then do
    let run ← runs.find? fun run => run.tenantId == row.tenantId && some run.id == row.runId
    let compactAfter ← run.compactAfter
    if run.status.isTerminal && decide (compactAfter ≤ now) then some compactAfter else none
  else none

/-- `order by candidates.compact_after, candidates.tenant_id, candidates.stream_id`. -/
def Candidate.le (a b : Candidate) : Bool :=
  if a.compactAfter ≠ b.compactAfter then decide (a.compactAfter < b.compactAfter)
  else if a.tenantId ≠ b.tenantId then decide (a.tenantId < b.tenantId)
  else decide (a.streamId ≤ b.streamId)

/-- `select distinct on (eof.tenant_id, eof.stream_id) ... order by ..., eof.id`: of each stream the
due EOF row with the smallest id. -/
def candidateRows (runs : List StreamRun) (now : Nat) (t : StreamTable) : StreamTable :=
  let due := t.filter fun row => (dueAt runs now row).isSome
  due.filter fun row => !due.any fun row' =>
    row'.tenantId == row.tenantId && row'.streamId == row.streamId && decide (row'.chunkId < row.chunkId)

def candidates (runs : List StreamRun) (now : Nat) (maxStreams : Int) (t : StreamTable) : List Candidate :=
  (((candidateRows runs now t).filterMap fun row =>
    (dueAt runs now row).map fun compactAfter => ⟨row.tenantId, row.streamId, row.runId, compactAfter⟩).insertionSort
      fun a b => a.le b).take maxStreams.toNat

/-! ## The rewrite -/

/-- A row of the candidate's stream. -/
def Candidate.owns (candidate : Candidate) (row : StreamRow) : Bool :=
  row.tenantId == candidate.tenantId && row.streamId == candidate.streamId

/-- A chunk with its data compacted. -/
def LogicalStreamChunk.compacted (compact : Buffer → Buffer) (chunk : LogicalStreamChunk) : LogicalStreamChunk :=
  { chunk with data := compact chunk.data }

/-- An EOF row after the rewrite. -/
def markPacked (lastChunkId : Option String) (row : StreamRow) : StreamRow :=
  { row with codecVersion := some 2, chunkCount := some 0, lastChunkId }

/-- The table after one stream's transaction, with the numbers of its logical chunks and of its rows
before and after. An error rolls the transaction back. -/
def compactOneStream (compact : Buffer → Buffer) (maxChunks maxBytes : Int) (candidate : Candidate) (t : StreamTable) :
    Except StreamError (StreamTable × Nat × Nat × Nat) := do
  let deleted := t.filter fun row => candidate.owns row && !row.eof
  let chunks ← unpackRows (orderById deleted)
  let logical := chunks.map (·.compacted compact)
  let blocks ← packStreamChunks logical maxChunks maxBytes
  let remaining := t.filter fun row => !(candidate.owns row && !row.eof)
  let inserted := remaining ++ blocks.map (blockRow candidate.tenantId candidate.runId candidate.streamId)
  let updated := inserted.map fun row =>
    if candidate.owns row && row.eof then markPacked (logical.getLast?.map (·.id)) row else row
  .ok (updated, logical.length, deleted.length, blocks.length)

/-- The loop over the candidates; what was committed before an error stays. -/
def compactStreams (compact : Buffer → Buffer) (maxChunks maxBytes : Int) :
    List Candidate → StreamTable → PackTerminalStreamBlocksResult →
      StreamTable × Except StreamError PackTerminalStreamBlocksResult
  | [], t, result => (t, .ok result)
  | candidate :: rest, t, result =>
    match compactOneStream compact maxChunks maxBytes candidate t with
    | .error e => (t, .error e)
    | .ok (t', logicalChunks, rowsBefore, rowsAfter) =>
      compactStreams compact maxChunks maxBytes rest t'
        { result with
          streamsCompacted := result.streamsCompacted + 1
          logicalChunks := result.logicalChunks + logicalChunks
          physicalRowsBefore := result.physicalRowsBefore + rowsBefore
          physicalRowsAfter := result.physicalRowsAfter + rowsAfter }

def assertOptions (options : PackTerminalStreamBlocksOptions) : Except StreamError Unit := do
  assertPositiveInteger options.maxStreams "maxStreams"
  assertPositiveInteger options.maxChunksPerBlock "maxChunksPerBlock"
  assertPositiveInteger options.maxBlockBytes "maxBlockBytes"

/-- The table after the call and what it returns; `locked` is the answer of
`pg_try_advisory_lock`. -/
def packTerminalStreamBlocks (C : SnapshotCompaction) (options : PackTerminalStreamBlocksOptions) (locked : Bool)
    (runs : List StreamRun) (now : Nat) (t : StreamTable) :
    StreamTable × Except StreamError PackTerminalStreamBlocksResult :=
  match assertOptions options with
  | .error e => (t, .error e)
  | .ok () =>
    if !locked then (t, .ok (emptyResult false))
    else
      let found := candidates runs now options.maxStreams t
      let (t', result) := compactStreams (C.compact options.compactSnapshots) options.maxChunksPerBlock
        options.maxBlockBytes found t (emptyResult true)
      (t', result.map fun r => { r with hitStreamLimit := decide ((found.length : Int) = options.maxStreams) })

end WorkflowWorld.Streams
