/-
Reading a run's log (`storage.ts`): `events.list` with the fence snapshot that goes with its page, and the
pages that an `events.create` returns with its event. Each of these is a program of plain selects, and sees
at each of them what is committed then (or, inside a transaction, what that transaction sees). The stripping
of payloads (`resolveData`) is left out.
-/
import WorkflowWorld.Storage.EventLog
import WorkflowWorld.Lists.Pages
import Mathlib.Data.Prod.Lex

namespace WorkflowWorld

open Concurrency Lists

/-! ## Event ids -/

/-- The order of the ids' text: slot bodies are fixed-width, and `evnt_` sorts before `wevt_`. -/
def EventId.rank : EventId → ℕ ×ₗ ℕ
  | .slot n => toLex (0, n)
  | .ulid u => toLex (1, u)

theorem EventId.rank_injective : Function.Injective EventId.rank := by
  intro a b h
  cases a <;> cases b <;> simp_all [EventId.rank]

instance : LinearOrder EventId := LinearOrder.lift' EventId.rank EventId.rank_injective

theorem EventId.slot_lt_slot {m n : Nat} : EventId.slot m < EventId.slot n ↔ m < n := by
  show toLex (0, m) < toLex (0, n) ↔ _
  simp [Prod.Lex.lt_iff]

def slotToEventId (slot : Nat) : EventId := .slot slot

def eventIdToSlot : EventId → Option Nat
  | .slot n => some n
  | .ulid _ => none

/-! ## Selects -/

inductive SortOrder where
  | asc | desc
  deriving DecidableEq

def orderByEventId : SortOrder → List EventRow → List EventRow
  | .asc, rows => rows.insertionSort (·.id ≤ ·.id)
  | .desc, rows => rows.insertionSort (·.id ≥ ·.id)

structure EventLogSnapshot where
  seq : Nat
  seqInBand : Nat
  deriving DecidableEq

inductive LogRead where
  /-- The run's events whose ids are greater than `after` and less than `before`. -/
  | events (k : RunKey) (after before : Option EventId) (order : SortOrder) (limit : Option Nat)
  /-- The select of `readEventLogSnapshot`. -/
  | snapshot (k : RunKey)

def LogRead.Res : LogRead → Type
  | .events _ _ _ _ _ => List EventRow
  | .snapshot _ => Option EventLogSnapshot

def selectEvents (k : RunKey) (after before : Option EventId) (order : SortOrder) (limit : Option Nat) (d : Db) : List EventRow :=
  let rows := orderByEventId order ((d.events k).filter fun e => beyond (·.id) after e && preceding (·.id) before e)
  match limit with
  | none => rows
  | some limit => rows.take limit

/-- The count and the highest slot, in one statement. -/
def readEventLogSnapshot (k : RunKey) (d : Db) : Option EventLogSnapshot :=
  (d.slots.lookup k).map fun seqInBand =>
    let slots := (orderByEventId .desc (d.events k)).filterMap fun e => eventIdToSlot e.id
    { seq := slots.head?.getD 0, seqInBand }

def LogRead.answer (d : Db) : (o : LogRead) → o.Res
  | .events k after before order limit => selectEvents k after before order limit d
  | .snapshot k => readEventLogSnapshot k d

abbrev LogReads (α : Type) := Prog LogRead LogRead.Res Err α

def select (o : LogRead) : LogReads o.Res := Prog.perform o

structure EventPage where
  data : List EventRow
  cursor : Option EventId
  hasMore : Bool
  deriving DecidableEq

/-- The first `limit` of the rows that were asked for, which were one more. -/
def EventPage.of (limit : Nat) (rows : List EventRow) : EventPage :=
  let page := rows.take limit
  { data := page, cursor := page.getLast?.map (·.id), hasMore := rows.length > limit }

/-! ## `events.list` -/

structure ListEventsParams where
  limit : Option Nat := none
  sortOrder : Option SortOrder := none
  cursor : Option EventId := none

/-- `list` of the unfenced storage. -/
def unfencedList (k : RunKey) (p : ListEventsParams) : LogReads EventPage := do
  let limit := p.limit.getD 100
  let all ← match p.sortOrder.getD .asc with
    | .desc => select (.events k none p.cursor .desc (some (limit + 1)))
    | .asc => select (.events k p.cursor none .asc (some (limit + 1)))
  return .of limit all

/-- `events.list`: the snapshot is read before the page, and both again where creation committed between. -/
def listEvents (k : RunKey) (p : ListEventsParams) : LogReads (EventPage × Option EventLogSnapshot) := do
  let snapshot : Option EventLogSnapshot ← select (.snapshot k)
  let page ← unfencedList k p
  if snapshot.isNone && page.data.any fun e => (eventIdToSlot e.id).isSome then
    let snapshot : Option EventLogSnapshot ← select (.snapshot k)
    if snapshot.isSome then
      let page ← unfencedList k p
      return (page, snapshot)
    else return (page, none)
  else return (page, snapshot)

/-! ## The pages of a create -/

/-- What a create asks to be told of the log. -/
structure CreateEventParams where
  eventCount : Option Nat := none
  sinceCursor : Option EventId := none
  skipPreload : Bool := false

/-- The events occupying slots a stale writer skipped over. -/
def reportSkippedSlots (k : RunKey) (committed : EventId) (askedFor : Nat) : LogReads (Option EventPage) :=
  match eventIdToSlot committed with
  | none => return none
  | some committedSlot =>
    if askedFor < firstEventSlot || committedSlot ≤ askedFor + 1 then return none
    else do
      let skipped : List EventRow ← select (.events k (some (slotToEventId askedFor)) (some committed) .asc none)
      return some { data := skipped, cursor := none, hasMore := skipped.length < committedSlot - askedFor - 1 }

/-- All events, for the runtime that starts the run. -/
def preloadEvents (k : RunKey) : LogReads EventPage := do
  let all : List EventRow ← select (.events k none none .asc none)
  return { data := all, cursor := all.getLast?.map (·.id), hasMore := false }

def sinceCursorLimit : Nat := 100

/-- The delta since a cursor. -/
def eventsSince (k : RunKey) (cursor : EventId) : LogReads EventPage := do
  let rows : List EventRow ← select (.events k (some cursor) none .asc (some (sinceCursorLimit + 1)))
  return .of sinceCursorLimit rows

/-- The report that a create with an `eventCount` and no cursor asks for. -/
def skippedPage (k : RunKey) (params : CreateEventParams) (committed : EventId) : LogReads (Option EventPage) :=
  match params.eventCount, params.sinceCursor with
  | some eventCount, none => reportSkippedSlots k committed eventCount
  | _, _ => pure none

/-- A `run_started` returns all events instead. -/
def CreateEventParams.preloads (params : CreateEventParams) (type : EventType) (run : Bool) : Bool :=
  type = .runStarted && run && !params.skipPreload

/-- The `eventPage` of a create of the given type that committed the given event, and has a run to return. -/
def eventPage (k : RunKey) (params : CreateEventParams) (type : EventType) (run : Bool) (committed : EventId) :
    LogReads (Option EventPage) := do
  let report ← skippedPage k params committed
  let preloaded ← (if params.preloads type run then some <$> preloadEvents k else pure report : LogReads (Option EventPage))
  match params.sinceCursor with
  | some cursor => some <$> eventsSince k cursor
  | none => pure preloaded

end WorkflowWorld
