/-
The streamer (`src/streamer.ts`): the rows that `write`, `writeMulti` and `close` append to the
stream table, and what `getChunks`, `getInfo` and `get` read of it. A chunk id is a ULID behind
`chnk_`, so that the order of the strings is the order in which one factory minted them, in
JavaScript's comparisons as in the database's.
-/
import WorkflowWorld.Streams.Blocks
import Mathlib.Data.List.Sort

namespace WorkflowWorld.Streams

/-! ## The stream table -/

/-- A row of `workflow_stream_chunks`. -/
structure StreamRow extends PhysicalStreamRow where
  tenantId : String
  streamId : String
  runId : Option String
  deriving DecidableEq, Repr

abbrev StreamTable := List StreamRow

/-- The rows of one stream. -/
def streamRows (tenantId name : String) (t : StreamTable) : StreamTable :=
  t.filter fun row => row.tenantId == tenantId && row.streamId == name

/-- `order by id`. -/
def orderById (rows : StreamTable) : StreamTable := rows.insertionSort fun a b => a.chunkId ≤ b.chunkId

/-- `compactStreamChunk` (`src/stream-compaction.ts`), as far as the readers can tell: it strips
fields of the frames of a chunk and leaves no chunk empty that was not. -/
structure SnapshotCompaction where
  compactStreamChunk : Buffer → Buffer
  eq_nil_iff : ∀ chunk, compactStreamChunk chunk = [] ↔ chunk = []

def SnapshotCompaction.compact (C : SnapshotCompaction) (compactSnapshots : Bool) (chunk : Buffer) : Buffer :=
  if compactSnapshots then C.compactStreamChunk chunk else chunk

/-! ## Writers -/

/-- The alphabet of a ULID. -/
def ulidAlphabet : List Char := "0123456789ABCDEFGHJKMNPQRSTVWXYZ".toList

/-- What `genChunkId` returns. -/
def isChunkId (id : String) : Bool :=
  id.toList.take 5 == "chnk_".toList && (id.toList.drop 5).length == 26 &&
    (id.toList.drop 5).all fun c => ulidAlphabet.contains c

/-- A call of a producer. `legacyWrite` is the `write` of the releases before packed blocks. -/
inductive Call where
  | write (runId name : String) (chunk : Buffer)
  | writeMulti (runId name : String) (chunks : List Buffer)
  | close (runId name : String)
  | legacyWrite (runId name : String) (chunk : Buffer)
  deriving DecidableEq, Repr

def Call.name : Call → String
  | .write _ name _ | .writeMulti _ name _ | .close _ name | .legacyWrite _ name _ => name

/-- How many chunk ids the call generates. -/
def Call.minted : Call → Nat
  | .write .. | .close .. | .legacyWrite .. => 1
  | .writeMulti _ _ chunks => chunks.length

/-- The row of a packed block. -/
def blockRow (tenantId : String) (runId : Option String) (name : String) (block : PackedStreamBlock) : StreamRow where
  toPhysicalStreamRow := block.row
  tenantId := tenantId
  streamId := name
  runId := runId

/-- The rows a call inserts, with the chunk ids it generated. -/
def Call.rows (compact : Buffer → Buffer) (tenantId : String) : Call → List String → Except StreamError StreamTable
  | .write runId name chunk, chunkIds =>
    .ok (chunkIds.map fun chunkId =>
      { tenantId, chunkId, streamId := name, runId := some runId, data := compact chunk, eof := false,
        codecVersion := some 1, chunkCount := some 1, lastChunkId := some chunkId })
  | .writeMulti runId name chunks, chunkIds =>
    if chunks.length = 0 then .ok []
    else do
      let blocks ← packStreamChunks (chunkIds.zipWith (fun id chunk => ⟨id, compact chunk⟩) chunks)
      .ok (blocks.map (blockRow tenantId (some runId) name))
  | .close runId name, chunkIds =>
    .ok (chunkIds.map fun chunkId =>
      { tenantId, chunkId, streamId := name, runId := some runId, data := [], eof := true,
        codecVersion := none, chunkCount := none, lastChunkId := none })
  | .legacyWrite runId name chunk, chunkIds =>
    .ok (chunkIds.map fun chunkId =>
      { tenantId, chunkId, streamId := name, runId := some runId, data := chunk, eof := false,
        codecVersion := none, chunkCount := none, lastChunkId := none })

/-! ## Readers -/

def unpackRows (rows : StreamTable) : Except StreamError (List LogicalStreamChunk) :=
  (rows.mapM fun row => unpackStreamRow row.toPhysicalStreamRow).map List.flatten

/-- The chunk id of the first EOF row, if one has been written. -/
def findFirstEofChunkId (tenantId name : String) (t : StreamTable) : Option String :=
  ((orderById ((streamRows tenantId name t).filter (·.eof))).head?).map (·.chunkId)

/-- The data rows before the first EOF. -/
def dataRows (tenantId name : String) (t : StreamTable) : StreamTable :=
  (streamRows tenantId name t).filter fun row =>
    !row.eof && (findFirstEofChunkId tenantId name t).all fun eof => decide (row.chunkId < eof)

/-- A cursor after base64 and JSON: the members it has of the expected types. A text that does not
decode has none. -/
structure Cursor where
  c : Option String
  i : Option Int
  deriving DecidableEq, Repr

structure GetChunksOptions where
  limit : Nat := 100
  cursor : Option Cursor := none
  deriving DecidableEq, Repr

structure StreamChunksResponse where
  data : List (Nat × Buffer)
  cursor : Option Cursor
  hasMore : Bool
  done : Bool
  deriving DecidableEq, Repr

def GetChunksOptions.cursorChunkId (options : GetChunksOptions) : Option String :=
  (options.cursor.bind (·.c)).filter (startsWith · "chnk_")

def GetChunksOptions.baseIndex (options : GetChunksOptions) : Nat :=
  (((options.cursor.bind (·.i)).filter fun i => isSafeInteger i && decide (0 ≤ i)).getD 0).toNat

/-- What `getChunks` makes of the logical chunks it has read. -/
def pageOf (options : GetChunksOptions) (done : Bool) (logicalRows : List LogicalStreamChunk) :
    StreamChunksResponse :=
  let hasMore := decide (logicalRows.length > options.limit)
  let pageRows := logicalRows.take options.limit
  { data := pageRows.mapIdx fun index row => (options.baseIndex + index, row.data)
    cursor :=
      if hasMore then
        pageRows.getLast?.map fun row => ⟨some row.id, some (options.baseIndex + pageRows.length : Nat)⟩
      else none
    hasMore
    done }

/-- The chunk is past the cursor. -/
def past (cursorChunkId : Option String) (id : String) : Bool := cursorChunkId.all fun c => decide (c < id)

def getChunks (tenantId name : String) (options : GetChunksOptions) (t : StreamTable) :
    Except StreamError StreamChunksResponse := do
  let rows := (orderById ((dataRows tenantId name t).filter fun row =>
    past options.cursorChunkId (row.lastChunkId.getD row.chunkId))).take (options.limit + 1)
  let chunks ← unpackRows rows
  let logicalRows := chunks.filter fun chunk => past options.cursorChunkId chunk.id
  .ok (pageOf options (findFirstEofChunkId tenantId name t).isSome logicalRows)

structure StreamInfoResponse where
  tailIndex : Int
  done : Bool
  deriving DecidableEq, Repr

def getInfo (tenantId name : String) (t : StreamTable) : StreamInfoResponse :=
  let dataCount := ((dataRows tenantId name t).map fun row => row.chunkCount.getD 1).sum
  { tailIndex := dataCount - 1, done := (findFirstEofChunkId tenantId name t).isSome }

structure StreamChunkEvent where
  id : String
  data : Buffer
  eof : Bool
  deriving DecidableEq, Repr

/-- The variables of `start` in `get`, and what its controller has been given. -/
structure Reader where
  lastChunkId : String := ""
  offset : Int
  closed : Bool := false
  enqueued : List Buffer := []
  deriving DecidableEq, Repr

def Reader.enqueue (reader : Reader) (msg : StreamChunkEvent) : Reader :=
  if reader.closed || decide (reader.lastChunkId ≥ msg.id) then reader
  else if msg.eof then { reader with lastChunkId := msg.id, closed := true }
  else if reader.offset > 0 then { reader with lastChunkId := msg.id, offset := reader.offset - 1 }
  else { reader with
    lastChunkId := msg.id
    enqueued := if msg.data.isEmpty then reader.enqueued else reader.enqueued ++ [msg.data] }

/-- The events of a row. -/
def rowEvents (row : StreamRow) : Except StreamError (List StreamChunkEvent) :=
  if row.eof then .ok [⟨row.chunkId, row.data, true⟩]
  else (unpackStreamRow row.toPhysicalStreamRow).map (·.map fun chunk => ⟨chunk.id, chunk.data, false⟩)

/-- The offset to start from: a negative index counts from the data before the first EOF. -/
def startOffset (startIndex : Option Int) (chunks : List StreamChunkEvent) : Int :=
  let offset := startIndex.getD 0
  if offset < 0 then max 0 (((chunks.takeWhile fun chunk => !chunk.eof).length : Int) + offset) else offset

/-- What a reader has been given when `start` returns. -/
structure Delivery where
  enqueued : List Buffer
  closed : Bool
  deriving DecidableEq, Repr

/-- `get`, with the events that arrived while it was reading the rows. -/
def get (tenantId name : String) (startIndex : Option Int) (buffer : List StreamChunkEvent) (t : StreamTable) :
    Except StreamError Delivery := do
  let events ← (orderById (streamRows tenantId name t)).mapM rowEvents
  let chunks := events.flatten
  let reader := (chunks ++ buffer).foldl Reader.enqueue { offset := startOffset startIndex chunks }
  .ok ⟨reader.enqueued, reader.closed⟩

end WorkflowWorld.Streams
