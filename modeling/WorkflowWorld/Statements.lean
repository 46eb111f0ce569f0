/-
The SQL statements of the storage layer, each planned on what its session sees. A statement that
can wait and whose rows are chosen by something else than a primary key is two operations here:
the snapshot it starts from, and its effect on the rows of that snapshot that still qualify when
its wait is over. A statement on a primary key is one: its predicate is evaluated on the row as it
is when the statement takes effect.
-/
import WorkflowWorld.Concurrency.ReadCommitted
import WorkflowWorld.Rows

namespace WorkflowWorld

open Concurrency

/-! ## Predicates of the statements -/

/-- `hookRetentionEnded`. -/
def HookRow.retentionEnded (now : Nat) (r : HookRow) : Bool :=
  match r.tokenRetentionUntil with
  | none => true
  | some u => u ≤ now

/-- The rows a run's end deletes: those of the run whose retention has ended, or `all` of them. -/
def HookRow.ofRun (now : Nat) (k : RunKey) (all : Bool) (h : HookKey) (r : HookRow) : Bool :=
  h.1 = k.1 && r.runId = k.2 && (all || r.retentionEnded now)

/-- `exists(ownerRunIsTerminal)`. -/
def Db.runIsTerminal (d : Db) (k : RunKey) : Bool :=
  match d.runs.lookup k with
  | none => false
  | some r => r.status.isTerminal

/-- The hook still holds its token: it is retained, or its run is not terminal. -/
def Db.holdsToken (d : Db) (now : Nat) (k : HookKey) (r : HookRow) : Bool :=
  !r.retentionEnded now || !d.runIsTerminal (k.1, r.runId)

/-- `hookTokenEquals`, in a tenant: the rows of a token. -/
def Db.hooksByToken (d : Db) (tenant : TenantId) (token : Token) : List (HookKey × HookRow) :=
  d.hooks.entries.filterMap fun ⟨k, r⟩ => if k.1 = tenant ∧ r.token = token then some (k, r) else none

/-- One of the rows a `limit 1` leaves open. -/
def pickFrom {α : Type} (i : Nat) (l : List α) : Option α := l[i % l.length]?

/-- The correlated-event index holds an entry for this type and correlation id. -/
def Db.hasCorrelated (d : Db) (k : RunKey) (c : CorrId) (type : EventType) : Bool :=
  (d.events k).any fun e => e.correlationId == some c && e.type == type

/-- `order by id desc limit 1`, as far as `nextSlotId` needs it: a `wevt_` id sorts after every
`evnt_` id. -/
def lastSlot (log : List EventRow) : Option Nat :=
  log.foldl (fun acc e => match acc, e.id with
    | some m, .slot i => some (max m i)
    | _, _ => none) (some 0)

/-- One attribute change (`jsonb_set`, or `-` for a delete). -/
def AttributeChange.apply (c : AttributeChange) (attrs : List (String × String)) : List (String × String) :=
  match c.value with
  | none => attrs.filter (·.1 ≠ c.key)
  | some v => attrs.filter (·.1 ≠ c.key) ++ [(c.key, v)]

def mergeAttributes (changes : List AttributeChange) (attrs : List (String × String)) :
    List (String × String) := changes.foldl (fun a c => c.apply a) attrs

/-! ## The statements -/

/-- What an `insert` does on a conflict: nothing on the primary key and an error on the other
unique indexes, nothing on any of them, or an error on all. -/
inductive OnConflict where
  | doNothingOnKey
  | doNothing
  | raise
  deriving DecidableEq

/-- Which id the next event of a run gets: a slot computed by the insert, or a legacy ULID. -/
inductive Alloc where
  | slot
  | ulid (u : Nat)
  deriving DecidableEq

inductive Violation where
  | eventKey
  | correlatedEvent
  | hookKey
  | hookTokenClaim
  /-- `cast(substring(..) as bigint)` on a `wevt_` id. -/
  | cast
  deriving DecidableEq

inductive Query where
  -- workflow_runs
  | selectRun (k : RunKey)
  | lockRun (k : RunKey)
  | insertRun (k : RunKey) (r : RunRow)
  | startRun (k : RunKey) (now : Nat) (startedBy : Nat)
  | finishRun (k : RunKey) (status : RunStatus) (now : Nat)
  | cancelLegacyRun (k : RunKey) (now : Nat)
  | setAttributes (k : RunKey) (changes : List AttributeChange) (cap : Nat)
  -- workflow_event_slots
  | allocateEventId (k : RunKey)
  | legacyEventUlid
  | lockSlots (k : RunKey)
  | selectSlots (k : RunKey)
  | insertSlots (k : RunKey)
  | advanceSlots (k : RunKey) (expected : Nat)
  -- workflow_events
  | nextSlot (k : RunKey)
  | insertEvent (k : RunKey) (v : EventInsert) (onConflict : OnConflict)
  | hasEvent (k : RunKey) (c : CorrId) (type : EventType)
  | selectDisposal (k : RunKey) (hook : HookId)
  | selectRunCreated (k : RunKey)
  -- workflow_hooks
  | getHookByToken (tenant : TenantId) (token : Token)
  | anyHookByToken (tenant : TenantId) (token : Token)
  | findActiveTokenOwner (tenant : TenantId) (token : Token) (notRun : RunId)
  | selectHook (k : HookKey)
  | tokenHooks (tenant : TenantId) (token : Token)
  | lockHook (k : HookKey) (token : Option Token)
  | releasedHooks (tenant : TenantId) (token : Token)
  | deleteReleased (tenant : TenantId) (token : Token) (keys : List HookKey)
  | insertHook (k : HookKey) (r : HookRow) (onConflict : OnConflict)
  | deleteHook (k : HookKey)
  | runHooks (k : RunKey) (all : Bool)
  | deleteRunHooks (k : RunKey) (all : Bool) (keys : List HookKey)
  -- workflow_waits
  | selectWait (k : WaitKey)
  | insertWait (k : WaitKey) (r : WaitRow)
  | completeWait (k : WaitKey) (now : Nat)
  | runWaits (k : RunKey)
  | deleteWaits (k : RunKey) (keys : List WaitKey)
  -- workflow_steps
  | selectStep (k : StepKey) (run : RunId)
  | lockStep (k : StepKey) (run : RunId)
  | insertStep (k : StepKey) (r : StepRow)
  | startStep (k : StepKey) (run : RunId) (owner : Option MessageId) (now : Nat)
  | finishStep (k : StepKey) (run : RunId) (status : StepStatus) (now : Nat) (finishedBy : Nat)
  | retryStep (k : StepKey) (run : RunId) (retryAfter : Option Nat)
  | deliveryInFlight (m : MessageId)
  -- workflow_start_hook_admissions
  | selectAdmission (k : RunKey)
  | insertAdmission (k : RunKey) (token : Token) (decision : Decision) (decidedBy : Nat)
  | deleteExpiredDecisions (cutoff : Nat)

/-- The answers: the row read or returned, whether a row was written, the keys of a snapshot. -/
@[reducible] def Query.Ans : Query → Type
  | .selectRun _ | .lockRun _ => Option RunRow
  | .startRun _ _ _ | .finishRun _ _ _ | .setAttributes _ _ _ => Option RunRow
  | .insertRun _ _ | .insertEvent _ _ _ | .insertHook _ _ _ | .insertWait _ _ | .insertStep _ _
  | .insertAdmission _ _ _ _ => Bool
  | .cancelLegacyRun _ _ | .insertSlots _ | .deleteReleased _ _ _ | .deleteRunHooks _ _ _ | .deleteWaits _ _
  | .deleteExpiredDecisions _ => Unit
  | .allocateEventId _ => Alloc
  | .lockSlots _ | .selectSlots _ => Option Nat
  | .advanceSlots _ _ | .hasEvent _ _ _ | .deleteHook _ | .deliveryInFlight _ => Bool
  | .legacyEventUlid | .nextSlot _ => Nat
  | .selectDisposal _ _ => Option EventData
  | .selectRunCreated _ => Option EventRow
  | .getHookByToken _ _ | .anyHookByToken _ _ => Option (HookKey × HookRow)
  | .findActiveTokenOwner _ _ _ => Option RunId
  | .selectHook _ => Option HookRow
  | .lockHook _ _ => Option (HookRow × Bool)
  | .tokenHooks _ _ => List HookId
  | .releasedHooks _ _ | .runHooks _ _ => List HookKey
  | .runWaits _ => List WaitKey
  | .selectWait _ | .completeWait _ _ => Option WaitRow
  | .selectStep _ _ | .lockStep _ _ | .startStep _ _ _ _ | .finishStep _ _ _ _ _ | .retryStep _ _ _ =>
    Option StepRow
  | .selectAdmission _ => Option AdmissionRow

/-- The scheduler's choice: which row of a `limit 1`, which legacy ULID is minted, which expired
decisions a bounded delete takes. -/
structure Pick where
  index : Nat := 0
  ulid : Nat := 0
  keys : List RunKey := []

/-! ## Plans -/

abbrev StmtPlan (α : Type) := Plan Key Write Violation α

/-- A plain read. -/
def read {α : Type} (a : α) : StmtPlan α := { ans := .ok a }

/-- `select .. for update`, by primary key. -/
def lockRead {ρ : Type} (ref : RowRef) (row : Option ρ) : StmtPlan (Option ρ) :=
  match row with
  | none => read none
  | some r => { takes := [.row ref], ans := .ok (some r) }

/-- `update .. where .. returning`, by primary key: `f` is the new row of one that qualifies. -/
def update {ρ : Type} (w : ρ → Write) (row : Option ρ) (f : ρ → Option ρ) : StmtPlan (Option ρ) :=
  match row.bind f with
  | none => read none
  | some r => { writes := [w r], ans := .ok (some r) }

/-- `insert .. on conflict do nothing`, on a table whose only unique key is the primary key. -/
def insert {ρ : Type} (ref : RowRef) (w : Write) (row : Option ρ) : StmtPlan Bool :=
  match row with
  | some _ => { needs := [.pk ref], ans := .ok false }
  | none => { needs := [.pk ref], writes := [w], ans := .ok true }

def insertEventPlan (k : RunKey) (e : EventRow) (onConflict : OnConflict) (d : Db) : StmtPlan Bool :=
  if (d.events k).any fun e' => e'.id == e.id then
    match onConflict with
    | .raise => { needs := [.event k e.id], ans := .error .eventKey }
    | _ => { needs := [.event k e.id], ans := .ok false }
  else if e.type.deduplicated && e.correlationId.any fun c => d.hasCorrelated k c e.type then
    { needs := .event k e.id :: e.correlatedKey k, ans := .error .correlatedEvent }
  else { writes := [.appendEvent k e], ans := .ok true }

def insertHookPlan (k : HookKey) (r : HookRow) (onConflict : OnConflict) (d : Db) : StmtPlan Bool :=
  match d.hooks.lookup k with
  | some _ =>
    match onConflict with
    | .raise => { needs := [.pk (.hook k)], ans := .error .hookKey }
    | _ => { needs := [.pk (.hook k)], ans := .ok false }
  | none =>
    if r.claimsToken && (d.hooksByToken k.1 r.token).any fun p => p.2.claimsToken then
      match onConflict with
      | .doNothing => { needs := [.pk (.hook k), .claim k.1 r.token], ans := .ok false }
      | _ => { needs := [.pk (.hook k), .claim k.1 r.token], ans := .error .hookTokenClaim }
    else { writes := [.insertHook k r], ans := .ok true }

/-- Deletes the given hooks that still qualify. -/
def deleteHooksPlan (keys : List HookKey) (p : HookKey → HookRow → Bool) (d : Db) : StmtPlan Unit :=
  { writes := keys.dedup.filterMap fun k => match d.hooks.lookup k with
      | some r => if p k r then some (.deleteHook k r) else none
      | none => none
    ans := .ok () }

def Db.stepOf (d : Db) (k : StepKey) (run : RunId) : Option StepRow :=
  (d.steps.lookup k).filter fun r => r.runId = run

def plan : (q : Query) → Pick → Nat → Db → StmtPlan q.Ans
  | .selectRun k, _, _, d => read (d.runs.lookup k)
  | .lockRun k, _, _, d => lockRead (.run k) (d.runs.lookup k)
  | .insertRun k r, _, _, d => insert (.run k) (.insertRun k r) (d.runs.lookup k)
  | .startRun k now startedBy, _, _, d => update (.updateRun k) (d.runs.lookup k) fun r =>
      some { r with status := .running, startedAt := some now, startedBy := some startedBy }
  | .finishRun k status now, _, _, d => update (.updateRun k) (d.runs.lookup k) fun r =>
      if r.status.isTerminal then none else some { r with status := status, completedAt := some now }
  | .cancelLegacyRun k now, _, _, d =>
    match d.runs.lookup k with
    | none => read ()
    | some r =>
      { writes := [.updateRun k { r with status := .cancelled, completedAt := some now }], ans := .ok () }
  | .setAttributes k changes cap, _, _, d => update (.updateRun k) (d.runs.lookup k) fun r =>
      let merged := mergeAttributes changes r.attributes
      if merged.length ≤ cap then some { r with attributes := merged } else none
  | .allocateEventId k, ch, _, d =>
    read (match d.slots.lookup k with
      | some _ => .slot
      | none => .ulid ch.ulid)
  | .legacyEventUlid, ch, _, _ => read ch.ulid
  | .lockSlots k, _, _, d => lockRead (.slots k) (d.slots.lookup k)
  | .selectSlots k, _, _, d => read (d.slots.lookup k)
  | .insertSlots k, _, _, d =>
    match d.slots.lookup k with
    | some _ => { needs := [.pk (.slots k)], ans := .ok () }
    | none => { needs := [.pk (.slots k)], writes := [.insertSlots k 1], ans := .ok () }
  | .advanceSlots k expected, _, _, d =>
    match d.slots.lookup k with
    | none => read false
    | some m => if m = expected then { writes := [.updateSlots k (m + 1)], ans := .ok true } else read false
  | .nextSlot k, _, _, d =>
    match lastSlot (d.events k) with
    | none => { ans := .error .cast }
    | some m => read (m + 1)
  | .insertEvent k v oc, _, now, d => insertEventPlan k (v.row now) oc d
  | .hasEvent k c type, _, _, d => read (d.hasCorrelated k c type)
  | .selectDisposal k hook, ch, _, d =>
    read (pickFrom ch.index (((d.events k).filter fun e =>
      e.correlationId == some hook && e.type == .hookDisposed).map (·.data)))
  | .selectRunCreated k, ch, _, d =>
    read (pickFrom ch.index ((d.events k).filter fun e => e.type == .runCreated))
  | .getHookByToken tenant token, ch, now, d =>
    read (pickFrom ch.index ((d.hooksByToken tenant token).filter fun p => d.holdsToken now p.1 p.2))
  | .anyHookByToken tenant token, ch, _, d => read (pickFrom ch.index (d.hooksByToken tenant token))
  | .findActiveTokenOwner tenant token notRun, ch, now, d =>
    read (pickFrom ch.index (((d.hooksByToken tenant token).filter fun p =>
      p.2.runId ≠ notRun && d.holdsToken now p.1 p.2).map fun p => p.2.runId))
  | .selectHook k, _, _, d => read (d.hooks.lookup k)
  | .tokenHooks tenant token, ch, _, d => read (((d.hooksByToken tenant token).map (·.1.2)).rotate ch.index)
  | .lockHook k token, _, now, d =>
    lockRead (.hook k) (((d.hooks.lookup k).filter fun r => token.all fun tok => r.token = tok).map fun r =>
      (r, !r.retentionEnded now))
  | .releasedHooks tenant token, _, now, d =>
    read (((d.hooksByToken tenant token).filter fun p => !d.holdsToken now p.1 p.2).map (·.1))
  | .deleteReleased tenant token keys, _, now, d =>
    deleteHooksPlan keys (fun k r => k.1 = tenant && r.token = token && !d.holdsToken now k r) d
  | .insertHook k r oc, _, _, d => insertHookPlan k r oc d
  | .deleteHook k, _, _, d =>
    match d.hooks.lookup k with
    | none => read false
    | some r => { writes := [.deleteHook k r], ans := .ok true }
  | .runHooks k all, _, now, d =>
    read (d.hooks.entries.filterMap fun ⟨h, r⟩ => if r.ofRun now k all h then some h else none)
  | .deleteRunHooks k all keys, _, now, d => deleteHooksPlan keys (fun h r => r.ofRun now k all h) d
  | .selectWait k, _, _, d => read (d.waits.lookup k)
  | .insertWait k r, _, _, d => insert (.wait k) (.insertWait k r) (d.waits.lookup k)
  | .completeWait k now, _, _, d => update (.updateWait k) (d.waits.lookup k) fun r =>
      if r.status = .waiting then some { r with status := .completed, completedAt := some now } else none
  | .runWaits k, _, _, d =>
    read (d.waits.entries.filterMap fun ⟨w, r⟩ => if w.1 = k.1 ∧ r.runId = k.2 then some w else none)
  | .deleteWaits k keys, _, _, d =>
    { writes := (keys.dedup.filter fun w => (d.waits.lookup w).any fun r => w.1 = k.1 && r.runId = k.2).map .deleteWait
      ans := .ok () }
  | .selectStep k run, _, _, d => read (d.stepOf k run)
  | .lockStep k run, _, _, d => lockRead (.step k) (d.stepOf k run)
  | .insertStep k r, _, _, d => insert (.step k) (.insertStep k r) (d.steps.lookup k)
  | .startStep k run owner now, _, _, d => update (.updateStep k) (d.stepOf k run) fun r =>
      if r.status.isTerminal then none
      else some { r with
        status := .running
        attempt := r.attempt + 1
        startedAt := r.startedAt.or (some now)
        retryAfter := none
        ownerMessageId := owner }
  | .finishStep k run status now finishedBy, _, _, d => update (.updateStep k) (d.stepOf k run) fun r =>
      if r.status.isTerminal then none
      else some { r with status := status, completedAt := some now, finishedBy := some finishedBy }
  | .retryStep k run retryAfter, _, _, d => update (.updateStep k) (d.stepOf k run) fun r =>
      if r.status.isTerminal then none else some { r with status := .pending, retryAfter := retryAfter }
  | .deliveryInFlight m, _, _, d => read (d.inFlight.contains m)
  | .selectAdmission k, _, _, d => read (d.admissions.lookup k)
  | .insertAdmission k token decision decidedBy, _, now, d =>
    insert (.admission k) (.insertAdmission k ⟨token, decision, now, decidedBy⟩) (d.admissions.lookup k)
  | .deleteExpiredDecisions cutoff, ch, _, d =>
    { writes := ((ch.keys.dedup.filter fun k =>
        (d.admissions.lookup k).any fun a => a.createdAt < cutoff).take 100).map .deleteAdmission
      ans := .ok () }

/-- Deliveries start and end outside the storage layer. -/
def Db.Outside (d d' : Db) : Prop := ∃ m, d' = { d with inFlight := m }

/-- The World's database. -/
@[reducible] def schema : Schema where
  Db := Db
  Write := Write
  Key := Key
  Query := Query
  Ans := Query.Ans
  Pick := Pick
  Viol := Violation
  apply := Write.apply
  touches := Write.touches
  plan := plan
  Agree := Key.Agree
  Ext := Db.Outside
  decKey := inferInstance
  agree_refl := Key.agree_refl
  agree_trans := Key.agree_trans
  agree_apply := Key.agree_apply
  agree_congr := Key.agree_congr
  agree_ext := by
    rintro k d d' ⟨m, rfl⟩
    rcases k with r | _ | _ | _ | _ <;> try trivial
    cases r <;> rfl

end WorkflowWorld
