/-
Appending to a run's log (`storage.ts`, from `nextSlotId` to `openEventSlots`): slot
allocation inside the insert, retried on a collision, the in-band fence's advance, and the
creation of a run row together with its `run_created`.
-/
import WorkflowWorld.Storage.Session

namespace WorkflowWorld

open Concurrency

/-- Maximum slot collisions one insert retries before surfacing a 503. -/
def slotInsertMaxAttempts : Nat := 40

def firstEventSlot : Nat := 1

def supersededMessage (runId : RunId) (expected current : Nat) : String :=
  "In-band write on run " ++ runId ++ " expected seqInBand " ++ toString expected ++
    ", but the run is at " ++ toString current ++
    ". Another orchestrator wrote in-band events this one has not seen; stop writing and redeliver."

/-- A slot expression for a run with a slots row, or a fresh legacy ULID. -/
def allocateEventId (k : RunKey) : P Alloc := sql (.allocateEventId k)

/-- Advances the count for a fenced write's first allocated slot. -/
def advanceFence (f : PendingFence) : P Unit := do
  let advanced : Bool ← sql (.advanceSlots (f.tenant, f.runId) f.expected)
  if advanced then return
  let current : Option Nat ← sql (.selectSlots (f.tenant, f.runId))
  match current with
  | none => return
  | some m => throw (.inBandSuperseded (supersededMessage f.runId f.expected m) m)

/-- The values of an event without its id. -/
structure EventValues where
  type : EventType
  correlationId : Option CorrId := none
  data : EventData := .absent
  specVersion : Nat

def EventValues.insert (v : EventValues) (id : EventId) (createdAt : Option Nat) (writer : Nat) : EventInsert :=
  ⟨id, v.type, v.correlationId, v.data, v.specVersion, createdAt, writer⟩

/-- One insert of a slot-numbered event: the statement computes its slot from a snapshot, and
`retry` follows when that slot turns out taken. -/
def insertAtNextSlot (c : Ctx) (k : RunKey) (v : EventValues) (fence : Option PendingFence)
    (retry : P (Option EventId)) : P (Option EventId) := do
  let m : Nat ← sql (.nextSlot k)
  let inserted : Bool ← sql (.insertEvent k (v.insert (.slot m) (fence.bind (·.occurredAt)) c.me) .doNothingOnKey)
  if inserted then
    match fence with
    | none => return some (.slot m)
    | some f =>
      Prog.op (.store true) fun _ => do
        advanceFence f
        return some (.slot m)
  else retry

/-- The insert, with the given number of retries left. -/
def insertAtSlot (c : Ctx) (k : RunKey) (v : EventValues) (fence : Option PendingFence) : Nat → P (Option EventId)
  | 0 => insertAtNextSlot c k v fence (throw (.world ("Could not allocate an event slot for run \"" ++ k.2 ++
      "\" after " ++ toString slotInsertMaxAttempts ++ " attempts") (some 503) none))
  | attempts + 1 => insertAtNextSlot c k v fence (insertAtSlot c k v fence attempts)

/-- The fence this insert advances: a slot-allocating insert for the fence's own run, while the
fence is not consumed. -/
def Ctx.fenceFor (c : Ctx) (k : RunKey) (consumed : Bool) : Option PendingFence :=
  c.fence.filter fun f => !consumed && f.tenant = k.1 && f.runId = k.2

def insertEventRow (c : Ctx) (k : RunKey) (v : EventValues) (alloc : Alloc) : P (Option EventId) :=
  match alloc with
  | .ulid u => do
    let inserted : Bool ← sql (.insertEvent k (v.insert (.ulid u) none c.me) .doNothingOnKey)
    return if inserted then some (.ulid u) else none
  | .slot =>
    Prog.op .load fun (consumed : Bool) =>
      insertAtSlot c k v (c.fenceFor k consumed) slotInsertMaxAttempts

/-- Allocates an id and appends; `none` when the id turned out taken. -/
def tryAppend (c : Ctx) (k : RunKey) (v : EventValues) : P (Option EventId) := do
  let alloc ← allocateEventId k
  insertEventRow c k v alloc

/-- An append that found its id taken is refused with `message`. -/
def appendEvent (c : Ctx) (k : RunKey) (v : EventValues) (message : String) : P EventId := do
  let inserted ← tryAppend c k v
  match inserted with
  | some id => return id
  | none => throw (.entityConflict message)

/-- The run row, the slot marker and `run_created` at the first slot, or `none` when the run exists. -/
def insertRunRow (c : Ctx) (row : RunRow) (data : EventData) : P (Option (RunRow × EventId)) := do
  let inserted : Bool ← sql (.insertRun c.key row)
  if inserted then
    sql (.insertSlots c.key)
    let _ ← sql (.insertEvent c.key
      ⟨.slot firstEventSlot, .runCreated, none, data, c.specVersion, none, c.me⟩ .raise)
    return some (row, .slot firstEventSlot)
  else return none

end WorkflowWorld
