/-
The embedded runner's task handler (`createTaskHandler`, `src/queue.ts`): deliveries that arrive while
others are under way. A delivery without a producer key chains its execution behind the last one of its
run; one with a key joins the execution that is under way for the key, and is acknowledged when the key
has completed. What a promise does when it settles happens later, step by step, with arrivals in between.
-/
import WorkflowWorld.Dispatcher.Handler
import WorkflowWorld.Lists.Recent
import Mathlib.Algebra.GroupWithZero.Nat

namespace WorkflowWorld.Dispatcher

/-! ## One process -/

/-- How the handler treats a delivery. -/
inductive TaskKind where
  | keyed (idempotencyKey : String)
  | serialized (workflowRunSerializationKey : String)
  | plain
  deriving DecidableEq, Repr

/-- An empty key is none. -/
def World.taskKind (w : World) (tenantId : TenantId) (message : Message) : TaskKind :=
  match message.idempotencyKey.filter (· ≠ ""), w.runQueueFor tenantId message.data with
  | some key, _ => .keyed key
  | none, some runQueue => if (w.parseInvoke message.data).any fun p => w.mayBypassRunQueue p.2 then .plain else .serialized runQueue
  | none, none => .plain

inductive TaskResult where
  | completed | rescheduled | failed
  deriving DecidableEq, Repr

/-- Where the handling of a delivery is. Deliveries are known by the number of their arrival. -/
inductive TaskStage where
  /-- Its execution is chained behind that of `previous`. -/
  | chained (previous : Option Nat)
  | executing
  /-- `executeTask` has settled; its `then` and `finally` are to come. -/
  | executed (result : TaskResult)
  /-- The `then` of a keyed execution has run. -/
  | marked (result : TaskResult)
  /-- It awaits the execution that is under way for its key. -/
  | awaiting (existing : Nat)
  /-- The handler has returned or thrown; without a result it executed nothing. -/
  | finished (result : Option TaskResult)
  deriving DecidableEq, Repr

/-- Between the start of an execution and the end of its `finally`. -/
def TaskStage.underway : TaskStage → Bool
  | .executing | .executed _ | .marked _ => true
  | .chained _ | .awaiting _ | .finished _ => false

/-- What is left to do for a delivery. -/
def TaskStage.left : TaskStage → Nat
  | .chained _ => 4
  | .executing => 3
  | .executed _ => 2
  | .marked _ | .awaiting _ => 1
  | .finished _ => 0

structure TaskRun where
  kind : TaskKind
  stage : TaskStage
  deriving DecidableEq, Repr

/-- The process, and the keys that completed in it so far. -/
structure TaskHandler where
  tasks : List TaskRun := []
  inflightWorkflowRuns : String → Option Nat := fun _ => none
  inflightMessages : String → Option Nat := fun _ => none
  completedMessages : List String := []
  completions : List String := []

inductive TaskEvent where
  | arrive (kind : TaskKind)
  | begin_ (id : Nat)
  | settle (id : Nat) (result : TaskResult)
  | mark (id : Nat)
  | release (id : Nat)
  | resume (id : Nat)
  deriving DecidableEq, Repr

namespace TaskHandler

def kind (s : TaskHandler) (id : Nat) : Option TaskKind := s.tasks[id]?.map (·.kind)

def stage (s : TaskHandler) (id : Nat) : Option TaskStage := s.tasks[id]?.map (·.stage)

/-- The promise of a delivery's execution has settled. -/
def isFinished (s : TaskHandler) (id : Nat) : Bool := (s.stage id).any fun | .finished _ => true | _ => false

def advance (s : TaskHandler) (id : Nat) (stage : TaskStage) : TaskHandler :=
  { s with tasks := s.tasks.modify id fun t => { t with stage := stage } }

def push (s : TaskHandler) (kind : TaskKind) (stage : TaskStage) : TaskHandler := { s with tasks := s.tasks ++ [⟨kind, stage⟩] }

/-- The part of the handler between the message's parse and its first await after it. -/
def arrive (s : TaskHandler) : TaskKind → TaskHandler
  | .keyed key =>
    if s.completedMessages.contains key then s.push (.keyed key) (.finished none)
    else match s.inflightMessages key with
      | some existing => s.push (.keyed key) (.awaiting existing)
      | none =>
        { s.push (.keyed key) .executing with
          inflightMessages := Function.update s.inflightMessages key (some s.tasks.length) }
  | .serialized key =>
    { s.push (.serialized key) (.chained (s.inflightWorkflowRuns key)) with
      inflightWorkflowRuns := Function.update s.inflightWorkflowRuns key (some s.tasks.length) }
  | .plain => s.push .plain .executing

/-- `markMessageCompleted`, when a keyed execution completed. -/
def mark (s : TaskHandler) (key : String) (result : TaskResult) : TaskHandler :=
  if result = .completed then
    { s with completedMessages := markCompleted s.completedMessages key, completions := s.completions ++ [key] }
  else s

/-- The `finally` of an execution. -/
def release (s : TaskHandler) (id : Nat) (result : TaskResult) : TaskKind → TaskHandler
  | .keyed key =>
    { s.advance id (.finished (some result)) with inflightMessages := Function.update s.inflightMessages key none }
  | .serialized key =>
    { s.advance id (.finished (some result)) with
      inflightWorkflowRuns := if s.inflightWorkflowRuns key = some id then Function.update s.inflightWorkflowRuns key none
        else s.inflightWorkflowRuns }
  | .plain => s.advance id (.finished (some result))

def step : TaskEvent → TaskHandler → Option TaskHandler
  | .arrive kind, s => some (s.arrive kind)
  | .begin_ id, s =>
    match s.stage id with
    | some (.chained previous) => if previous.all s.isFinished then some (s.advance id .executing) else none
    | _ => none
  | .settle id result, s =>
    match s.stage id with
    | some .executing => some (s.advance id (.executed result))
    | _ => none
  | .mark id, s =>
    match s.kind id, s.stage id with
    | some (.keyed key), some (.executed result) => some ((s.mark key result).advance id (.marked result))
    | _, _ => none
  | .release id, s =>
    match s.kind id, s.stage id with
    | some (.keyed key), some (.marked result) => some (s.release id result (.keyed key))
    | some (.serialized key), some (.executed result) => some (s.release id result (.serialized key))
    | some .plain, some (.executed result) => some (s.release id result .plain)
    | _, _ => none
  | .resume id, s =>
    match s.stage id with
    | some (.awaiting existing) =>
      match s.stage existing with
      | some (.finished result) => some (s.advance id (.finished result))
      | _ => none
    | _ => none

end TaskHandler

namespace TaskHandler

/-! ## Steps -/

section Access

variable (s : TaskHandler) (id j : Nat) (k : TaskKind) (st : TaskStage)

@[simp] theorem kind_advance : (s.advance id st).kind j = s.kind j := by
  unfold kind advance
  rw [List.getElem?_modify]
  cases s.tasks[j]? with
  | none => rfl
  | some t => by_cases h : id = j <;> simp [h]

@[simp] theorem stage_advance : (s.advance id st).stage j = if j = id then (s.stage j).map fun _ => st else s.stage j := by
  unfold stage advance
  rw [List.getElem?_modify]
  cases s.tasks[j]? with
  | none => simp
  | some t =>
    by_cases h : j = id
    · simp [h]
    · simp [h, Ne.symm h]

theorem kind_push : (s.push k st).kind j = if j = s.tasks.length then some k else s.kind j := by
  unfold kind push
  by_cases h : j = s.tasks.length
  · subst h; simp
  · rw [if_neg h]
    by_cases hlt : j < s.tasks.length
    · rw [List.getElem?_append_left hlt]
    · rw [List.getElem?_eq_none (by simp; omega), List.getElem?_eq_none (by omega)]

theorem stage_push : (s.push k st).stage j = if j = s.tasks.length then some st else s.stage j := by
  unfold stage push
  by_cases h : j = s.tasks.length
  · subst h; simp
  · rw [if_neg h]
    by_cases hlt : j < s.tasks.length
    · rw [List.getElem?_append_left hlt]
    · rw [List.getElem?_eq_none (by simp; omega), List.getElem?_eq_none (by omega)]

end Access

variable {s s' : TaskHandler} {e : TaskEvent} {id : Nat} {kind' : TaskKind} {st : TaskStage}

theorem lt_of_stage (h : s.stage id = some st) : id < s.tasks.length := by
  by_contra hge
  rw [stage, List.getElem?_eq_none (by omega)] at h
  cases h

theorem lt_of_kind (h : s.kind id = some kind') : id < s.tasks.length := by
  by_contra hge
  rw [kind, List.getElem?_eq_none (by omega)] at h
  cases h

/-- What an event does, with what it needs. -/
theorem step_cases (h : step e s = some s') :
    (∃ kind, e = .arrive kind ∧ s' = s.arrive kind) ∨
    (∃ id previous, s.stage id = some (.chained previous) ∧ (∀ p, previous = some p → s.isFinished p = true) ∧ s' = s.advance id .executing) ∨
    (∃ id result, s.stage id = some .executing ∧ s' = s.advance id (.executed result)) ∨
    (∃ id key result, s.kind id = some (.keyed key) ∧ s.stage id = some (.executed result) ∧
      s' = (s.mark key result).advance id (.marked result)) ∨
    (∃ id kind result, s.kind id = some kind ∧
      (s.stage id = some (.executed result) ∧ (∀ key, kind ≠ .keyed key) ∨ s.stage id = some (.marked result) ∧ ∃ key, kind = .keyed key) ∧
      s' = s.release id result kind) ∨
    ∃ id existing result, s.stage id = some (.awaiting existing) ∧ s.stage existing = some (.finished result) ∧
      s' = s.advance id (.finished result) := by
  cases e with
  | arrive kind => cases h; exact .inl ⟨kind, rfl, rfl⟩
  | begin_ id =>
    simp only [step] at h
    split at h
    · rename_i previous hst
      split at h
      · rename_i hall
        cases h
        exact .inr (.inl ⟨id, previous, hst, fun p hp => by subst hp; exact hall, rfl⟩)
      · cases h
    · cases h
  | settle id result =>
    simp only [step] at h
    split at h
    · rename_i hst
      cases h
      exact .inr (.inr (.inl ⟨id, result, hst, rfl⟩))
    · cases h
  | mark id =>
    simp only [step] at h
    split at h
    · rename_i key result hk hst
      cases h
      exact .inr (.inr (.inr (.inl ⟨id, key, result, hk, hst, rfl⟩)))
    · cases h
  | release id =>
    simp only [step] at h
    refine .inr (.inr (.inr (.inr (.inl ?_))))
    split at h
    · rename_i key result hk hst
      cases h
      exact ⟨id, _, result, hk, .inr ⟨hst, key, rfl⟩, rfl⟩
    · rename_i key result hk hst
      cases h
      exact ⟨id, _, result, hk, .inl ⟨hst, fun _ h => by cases h⟩, rfl⟩
    · rename_i result hk hst
      cases h
      exact ⟨id, _, result, hk, .inl ⟨hst, fun _ h => by cases h⟩, rfl⟩
    · cases h
  | resume id =>
    simp only [step] at h
    split at h
    · rename_i existing hst
      split at h
      · rename_i result hst'
        cases h
        exact .inr (.inr (.inr (.inr (.inr ⟨id, existing, result, hst, hst', rfl⟩))))
      · cases h
    · cases h

theorem isFinished_iff : s.isFinished id = true ↔ ∃ result, s.stage id = some (.finished result) := by
  unfold isFinished
  cases hst : s.stage id with
  | none => simp
  | some st => cases st <;> simp

/-! ## Executions of one run, in line -/

/-- The deliveries that are serialized under `key`. -/
def Serialized (s : TaskHandler) (key : String) (id : Nat) : Prop := s.kind id = some (.serialized key)

/-- The invariant of the chains: each delivery waits for the one before it, and the map knows the last. -/
structure InLine (s : TaskHandler) : Prop where
  chained : ∀ b previous, s.stage b = some (.chained previous) → ∃ key, s.Serialized key b
  awaiting : ∀ b existing, s.stage b = some (.awaiting existing) → ∃ key, s.kind b = some (.keyed key)
  begun : ∀ key a b, a < b → s.Serialized key a → s.Serialized key b → (∀ p, s.stage b ≠ some (.chained p)) → s.isFinished a = true
  behind : ∀ key b p, s.Serialized key b → s.stage b = some (.chained (some p)) →
    s.Serialized key p ∧ p < b ∧ ∀ a < b, s.Serialized key a → a ≤ p
  first : ∀ key b, s.Serialized key b → s.stage b = some (.chained none) → ∀ a < b, s.Serialized key a → s.isFinished a = true
  last : ∀ key p, s.inflightWorkflowRuns key = some p →
    s.Serialized key p ∧ s.isFinished p = false ∧ ∀ a, s.Serialized key a → a ≤ p
  free : ∀ key, s.inflightWorkflowRuns key = none → ∀ a, s.Serialized key a → s.isFinished a = true

theorem InLine.empty : InLine {} := by
  have hstage : ∀ b st, ({} : TaskHandler).stage b ≠ some st := fun b st h => by simp [stage] at h
  have hkind : ∀ b k, ({} : TaskHandler).kind b ≠ some k := fun b k h => by simp [kind] at h
  exact ⟨fun b _ h => absurd h (hstage b _), fun b _ h => absurd h (hstage b _), fun _ a _ _ h => absurd h (hkind a _),
    fun _ b _ h => absurd h (hkind b _), fun _ b h => absurd h (hkind b _), fun _ _ h => (by cases h), fun _ _ a h => absurd h (hkind a _)⟩

/-- Another stage of a delivery that has begun; where it is done and the last of its line, the map forgets it. -/
theorem InLine.advance_with (h : InLine s) {runs : String → Option Nat} (hid : s.isFinished id = false) (hchain : ∀ p, st ≠ .chained p) (hawait : ∀ p, st ≠ .awaiting p)
    (hbefore : ∀ key a, s.Serialized key id → s.Serialized key a → a < id → s.isFinished a = true)
    (hruns : ∀ key p, runs key = some p → s.inflightWorkflowRuns key = some p ∧ (p = id → ∀ result, st ≠ .finished result))
    (hfree : ∀ key, runs key = none → s.inflightWorkflowRuns key = none ∨
      s.inflightWorkflowRuns key = some id ∧ ∃ result, st = .finished result) :
    InLine { s.advance id st with inflightWorkflowRuns := runs } := by
  have hmono : ∀ a, s.isFinished a = true → (s.advance id st).isFinished a = true := by
    intro a ha
    have hne : a ≠ id := by rintro rfl; rw [hid] at ha; cases ha
    rw [isFinished_iff] at ha ⊢
    rwa [stage_advance, if_neg hne]
  have hstage : ∀ b st', (s.advance id st).stage b = some st' → b = id ∧ st' = st ∨ b ≠ id ∧ s.stage b = some st' := by
    intro b st' hb
    rw [stage_advance] at hb
    split at hb
    · rename_i hbid
      obtain ⟨_, -, rfl⟩ := Option.map_eq_some_iff.1 hb
      exact .inl ⟨hbid, rfl⟩
    · rename_i hbid
      exact .inr ⟨hbid, hb⟩
  have hser : ∀ {key b}, (s.advance id st).Serialized key b ↔ s.Serialized key b := by
    intro key b
    unfold Serialized
    rw [kind_advance]
  refine ⟨fun b p hb => ?_, fun b p hb => ?_, fun key a b hab ha hb hnot => ?_, fun key b p hb hst => ?_, fun key b hb hst a hab ha => ?_,
    fun key p hp => ?_, fun key hnone a ha => ?_⟩
  · rcases hstage b _ hb with ⟨-, heq⟩ | ⟨-, hb⟩
    · exact absurd heq.symm (hchain p)
    · obtain ⟨key, hk⟩ := h.chained b p hb
      exact ⟨key, hser.2 hk⟩
  · rcases hstage b _ hb with ⟨-, heq⟩ | ⟨-, hb⟩
    · exact absurd heq.symm (hawait p)
    · obtain ⟨key, hk⟩ := h.awaiting b p hb
      exact ⟨key, (kind_advance ..).trans hk⟩
  · by_cases hbid : b = id
    · subst hbid
      exact hmono a (hbefore key a (hser.1 hb) (hser.1 ha) hab)
    · refine hmono a (h.begun key a b hab (hser.1 ha) (hser.1 hb) fun p hp => hnot p ?_)
      exact ((stage_advance ..).trans (if_neg hbid)).trans hp
  · rcases hstage b _ hst with ⟨-, heq⟩ | ⟨-, hst⟩
    · exact absurd heq.symm (hchain _)
    · obtain ⟨hp, hlt, hle⟩ := h.behind key b p (hser.1 hb) hst
      exact ⟨hser.2 hp, hlt, fun a hab ha => hle a hab (hser.1 ha)⟩
  · rcases hstage b _ hst with ⟨-, heq⟩ | ⟨-, hst⟩
    · exact absurd heq.symm (hchain _)
    · exact hmono a (h.first key b (hser.1 hb) hst a hab (hser.1 ha))
  · obtain ⟨hp, hopen⟩ := hruns key p hp
    obtain ⟨hk, hfin, hle⟩ := h.last key p hp
    refine ⟨hser.2 hk, ?_, fun a ha => hle a (hser.1 ha)⟩
    by_contra hne
    obtain ⟨result, hr⟩ := isFinished_iff.1 (Bool.not_eq_false _ ▸ hne)
    rcases hstage p _ hr with ⟨rfl, heq⟩ | ⟨-, hr⟩
    · exact hopen rfl result heq.symm
    · rw [isFinished_iff.2 ⟨result, hr⟩] at hfin
      cases hfin
  · rcases hfree key hnone with hnone | ⟨hid', result, rfl⟩
    · exact hmono a (h.free key hnone a (hser.1 ha))
    · obtain ⟨hk, -, hle⟩ := h.last key id hid'
      rcases Nat.lt_or_eq_of_le (hle a (hser.1 ha)) with hlt | rfl
      · exact hmono a (hbefore key a hk (hser.1 ha) hlt)
      · refine isFinished_iff.2 ⟨result, ?_⟩
        show (s.advance a _).stage a = _
        rw [stage_advance, if_pos rfl]
        obtain ⟨t, ht⟩ := Option.map_eq_some_iff.1 hk
        rw [stage, ht.1]
        rfl

theorem InLine.advance (h : InLine s) (hid : s.isFinished id = false) (hchain : ∀ p, st ≠ .chained p) (hawait : ∀ p, st ≠ .awaiting p)
    (hbefore : ∀ key a, s.Serialized key id → s.Serialized key a → a < id → s.isFinished a = true)
    (hlast : ∀ key, s.inflightWorkflowRuns key = some id → ∀ result, st ≠ .finished result) : InLine (s.advance id st) :=
  h.advance_with hid hchain hawait hbefore (fun key _ hp => ⟨hp, fun hpid => hlast key (hpid ▸ hp)⟩) fun _ hnone => .inl hnone

/-- The chains are a matter of the deliveries and of their own map. -/
theorem InLine.of_same (h : InLine s) (htasks : s'.tasks = s.tasks) (hruns : s'.inflightWorkflowRuns = s.inflightWorkflowRuns) :
    InLine s' := by
  have hkind : ∀ b, s'.kind b = s.kind b := fun b => by unfold kind; rw [htasks]
  have hstage : ∀ b, s'.stage b = s.stage b := fun b => by unfold stage; rw [htasks]
  have hfin : ∀ b, s'.isFinished b = s.isFinished b := fun b => by unfold isFinished; rw [hstage]
  have hser : ∀ key b, s'.Serialized key b ↔ s.Serialized key b := fun key b => by unfold Serialized; rw [hkind]
  constructor <;> simp only [hkind, hstage, hfin, hser, hruns]
  · exact h.chained
  · exact h.awaiting
  · exact h.begun
  · exact h.behind
  · exact h.first
  · exact h.last
  · exact h.free

/-- The next delivery. One that is serialized waits for the last of its line; the ones before stay as they are. -/
theorem InLine.push (h : InLine s) (runs : String → Option Nat) {kind : TaskKind} (hawait : ∀ e, st = .awaiting e → ∃ key, kind = .keyed key)
    (hser : ∀ key, kind = .serialized key → st = .chained (s.inflightWorkflowRuns key))
    (hchain : ∀ p, st = .chained p → ∃ key, kind = .serialized key)
    (hruns : ∀ key, runs key = if kind = .serialized key then some s.tasks.length else s.inflightWorkflowRuns key) :
    InLine { s.push kind st with inflightWorkflowRuns := runs } := by
  generalize hs' : ({ s.push kind st with inflightWorkflowRuns := runs } : TaskHandler) = s'
  have hkind : ∀ b, s'.kind b = if b = s.tasks.length then some kind else s.kind b := fun b => hs' ▸ kind_push ..
  have hstage : ∀ b, s'.stage b = if b = s.tasks.length then some st else s.stage b := fun b => hs' ▸ stage_push ..
  have hruns' : s'.inflightWorkflowRuns = runs := hs' ▸ rfl
  have hold : ∀ {key b}, s.Serialized key b → s'.Serialized key b := by
    intro key b hb
    have hlt := lt_of_kind hb
    exact (hkind b).trans ((if_neg (by omega)).trans hb)
  have hof : ∀ {key b}, s'.Serialized key b → b = s.tasks.length ∧ kind = .serialized key ∨ b < s.tasks.length ∧ s.Serialized key b := by
    intro key b hb
    have hb := (hkind b).symm.trans hb
    split at hb
    · rename_i hbl
      exact .inl ⟨hbl, Option.some.inj hb⟩
    · exact .inr ⟨lt_of_kind hb, hb⟩
  have hmono : ∀ {a}, s.isFinished a = true → s'.isFinished a = true := by
    intro a ha
    obtain ⟨result, ha⟩ := isFinished_iff.1 ha
    have hlt := lt_of_stage ha
    exact isFinished_iff.2 ⟨result, (hstage a).trans ((if_neg (by omega)).trans ha)⟩
  refine ⟨fun b p hb => ?_, fun b e hb => ?_, fun key a b hab ha hb hnot => ?_, fun key b p hb hst => ?_, fun key b hb hst a hab ha => ?_,
    fun key p hp => ?_, fun key hnone a ha => ?_⟩
  · have hb := (hstage b).symm.trans hb
    split at hb
    · rename_i hbl
      obtain ⟨key, rfl⟩ := hchain p (Option.some.inj hb)
      exact ⟨key, (hkind b).trans (if_pos hbl)⟩
    · obtain ⟨key, hk⟩ := h.chained b p hb
      exact ⟨key, hold hk⟩
  · have hb := (hstage b).symm.trans hb
    split at hb
    · rename_i hbl
      obtain ⟨key, rfl⟩ := hawait e (Option.some.inj hb)
      exact ⟨key, (hkind b).trans (if_pos hbl)⟩
    · rename_i hbl
      obtain ⟨key, hk⟩ := h.awaiting b e hb
      exact ⟨key, (hkind b).trans ((if_neg hbl).trans hk)⟩
  · rcases hof hb with ⟨hbl, hk⟩ | ⟨hlt, hb⟩
    · exact absurd ((hstage b).trans ((if_pos hbl).trans (congrArg some (hser key hk)))) (hnot _)
    · rcases hof ha with ⟨hal, -⟩ | ⟨-, ha⟩
      · omega
      · exact hmono (h.begun key a b hab ha hb fun p hp => hnot p ((hstage b).trans ((if_neg (by omega)).trans hp)))
  · have hst := (hstage b).symm.trans hst
    rcases hof hb with ⟨hbl, hk⟩ | ⟨hlt, hb⟩
    · rw [if_pos hbl, hser key hk] at hst
      obtain ⟨hp, -, hle⟩ := h.last key p (by simpa using hst)
      refine ⟨hold hp, hbl ▸ lt_of_kind hp, fun a hab ha => ?_⟩
      rcases hof ha with ⟨hal, -⟩ | ⟨-, ha⟩
      · omega
      · exact hle a ha
    · rw [if_neg (by omega)] at hst
      obtain ⟨hp, hpb, hle⟩ := h.behind key b p hb hst
      refine ⟨hold hp, hpb, fun a hab ha => ?_⟩
      rcases hof ha with ⟨hal, -⟩ | ⟨-, ha⟩
      · omega
      · exact hle a hab ha
  · have hst := (hstage b).symm.trans hst
    have ha : s.Serialized key a := by
      rcases hof ha with ⟨hal, -⟩ | ⟨-, ha⟩
      · rcases hof hb with ⟨hbl, -⟩ | ⟨hlt, -⟩ <;> omega
      · exact ha
    rcases hof hb with ⟨hbl, hk⟩ | ⟨hlt, hb⟩
    · rw [if_pos hbl, hser key hk] at hst
      exact hmono (h.free key (by simpa using hst) a ha)
    · rw [if_neg (by omega)] at hst
      exact hmono (h.first key b hb hst a hab ha)
  · rw [hruns', hruns key] at hp
    split at hp
    · rename_i hk
      cases hp
      refine ⟨(hkind _).trans ((if_pos rfl).trans (congrArg some hk)), ?_, fun a ha => ?_⟩
      · rw [isFinished, hstage, if_pos rfl, hser key hk]
        rfl
      · rcases hof ha with ⟨hal, -⟩ | ⟨hlt, -⟩ <;> omega
    · rename_i hk
      obtain ⟨hp, hfin, hle⟩ := h.last key p hp
      have hlt := lt_of_kind hp
      refine ⟨hold hp, ?_, fun a ha => ?_⟩
      · rw [isFinished, hstage, if_neg (by omega)]
        exact hfin
      · rcases hof ha with ⟨-, hk'⟩ | ⟨-, ha⟩
        · exact absurd hk' hk
        · exact hle a ha
  · rw [hruns', hruns key] at hnone
    split at hnone
    · cases hnone
    · rename_i hk
      rcases hof ha with ⟨-, hk'⟩ | ⟨-, ha⟩
      · exact absurd hk' hk
      · exact hmono (h.free key hnone a ha)

theorem InLine.arrive (h : InLine s) (kind : TaskKind) : InLine (s.arrive kind) := by
  cases kind with
  | keyed key =>
    rw [TaskHandler.arrive]
    have hpush : ∀ st, (∀ p, st ≠ .chained p) → InLine (s.push (.keyed key) st) := fun st hst =>
      h.push s.inflightWorkflowRuns (fun _ _ => ⟨key, rfl⟩) (fun _ h => by cases h) (fun p hp => absurd hp (hst p))
        fun _ => (if_neg (by simp)).symm
    split
    · exact hpush _ fun _ h => by cases h
    · split
      · exact hpush _ fun _ h => by cases h
      · exact (hpush .executing fun _ h => by cases h).of_same rfl rfl
  | serialized key =>
    refine h.push _ (fun _ h => by cases h) (fun key' hk => ?_) (fun _ _ => ⟨key, rfl⟩) fun key' => ?_
    · cases hk; rfl
    · by_cases hkk : key' = key
      · subst hkk; simp
      · rw [Function.update_of_ne hkk, if_neg fun hk => hkk (TaskKind.serialized.inj hk).symm]
  | plain =>
    exact h.push s.inflightWorkflowRuns (fun _ h => by cases h) (fun _ h => by cases h) (fun _ h => by cases h)
      fun _ => (if_neg (by simp)).symm

theorem InLine.step (h : InLine s) (hs : step e s = some s') : InLine s' := by
  rcases step_cases hs with ⟨kind, -, rfl⟩ | ⟨id, previous, hst, hprev, rfl⟩ | ⟨id, result, hst, rfl⟩ | ⟨id, key, result, hk, hst, rfl⟩ |
    ⟨id, kind, result, hk, hst, rfl⟩ | ⟨id, existing, result, hst, hst', rfl⟩
  · exact h.arrive kind
  · -- what it waited for is done, and with it all that came before
    refine h.advance ?_ (fun _ h => by cases h) (fun _ h => by cases h) (fun key a hid ha hlt => ?_) fun _ _ _ h => by cases h
    · unfold isFinished; rw [hst]; rfl
    · cases previous with
      | none => exact h.first key id hid hst a hlt ha
      | some p =>
        obtain ⟨hp, -, hle⟩ := h.behind key id p hid hst
        have hdone := hprev p rfl
        rcases Nat.lt_or_eq_of_le (hle a hlt ha) with hap | rfl
        · refine h.begun key a p hap ha hp fun q hq => ?_
          rw [isFinished, hq] at hdone
          cases hdone
        · exact hdone
  · refine h.advance ?_ (fun _ h => by cases h) (fun _ h => by cases h) (fun key a hid ha hlt => ?_) fun _ _ _ h => by cases h
    · unfold isFinished; rw [hst]; rfl
    · exact h.begun key a id hlt ha hid fun p hp => by rw [hst] at hp; cases hp
  · have hmark : InLine (s.mark key result) := by
      unfold mark
      split
      · exact h.of_same rfl rfl
      · exact h
    have hsame : (s.mark key result).stage = s.stage ∧ (s.mark key result).kind = s.kind := by
      unfold mark
      split <;> exact ⟨rfl, rfl⟩
    refine hmark.advance ?_ (fun _ h => by cases h) (fun _ h => by cases h) (fun key' a hid ha hlt => ?_) fun _ _ _ h => by cases h
    · unfold isFinished; rw [hsame.1, hst]; rfl
    · unfold Serialized at hid
      rw [hsame.2, hk] at hid
      cases hid
  · have hopen : s.isFinished id = false := by
      unfold isFinished
      rcases hst with ⟨hst, -⟩ | ⟨hst, -⟩ <;> rw [hst] <;> rfl
    have hbefore : ∀ key a, s.Serialized key id → s.Serialized key a → a < id → s.isFinished a = true := by
      intro key a hid ha hlt
      refine h.begun key a id hlt ha hid fun p hp => ?_
      rcases hst with ⟨hst, -⟩ | ⟨hst, -⟩ <;> rw [hst] at hp <;> cases hp
    have hother : (∀ key, kind ≠ .serialized key) → InLine (s.advance id (.finished (some result))) := fun hne =>
      h.advance hopen (fun _ h => by cases h) (fun _ h => by cases h) hbefore fun key hlast =>
        absurd (Option.some.inj (hk.symm.trans (h.last key id hlast).1)) (hne key)
    cases kind with
    | keyed key => exact (hother fun _ h => by cases h).of_same rfl rfl
    | plain => exact hother fun _ h => by cases h
    | serialized key =>
      refine h.advance_with hopen (fun _ h => by cases h) (fun _ h => by cases h) hbefore (fun key' p hp => ?_) fun key' hnone => ?_
      · by_cases hlast : s.inflightWorkflowRuns key = some id
        · rw [if_pos hlast] at hp
          by_cases hkk : key' = key
          · rw [hkk, Function.update_self] at hp; cases hp
          · rw [Function.update_of_ne hkk] at hp
            refine ⟨hp, fun hpid => ?_⟩
            obtain ⟨hser, -⟩ := h.last key' p hp
            rw [hpid] at hser
            cases hk.symm.trans hser
            exact absurd rfl hkk
        · rw [if_neg hlast] at hp
          refine ⟨hp, fun hpid => ?_⟩
          obtain ⟨hser, -⟩ := h.last key' p hp
          rw [hpid] at hser hp
          cases hk.symm.trans hser
          exact absurd hp hlast
      · by_cases hlast : s.inflightWorkflowRuns key = some id
        · rw [if_pos hlast] at hnone
          by_cases hkk : key' = key
          · exact .inr ⟨hkk ▸ hlast, _, rfl⟩
          · rw [Function.update_of_ne hkk] at hnone
            exact .inl hnone
        · rw [if_neg hlast] at hnone
          exact .inl hnone
  · refine h.advance ?_ (fun _ h => by cases h) (fun _ h => by cases h) (fun key a hid ha hlt => ?_) fun key hlast => ?_
    · unfold isFinished; rw [hst]; rfl
    · exact h.begun key a id hlt ha hid fun p hp => by rw [hst] at hp; cases hp
    · obtain ⟨hser, -, -⟩ := h.last key id hlast
      obtain ⟨key', hk⟩ := h.awaiting id existing hst
      cases hk.symm.trans hser

/-! ## Executions of one key, one at a time -/

/-- The execution of a delivery is under way. -/
def isUnderway (s : TaskHandler) (id : Nat) : Bool := (s.stage id).any (·.underway)

/-- The invariant of the keys: the map knows the execution that is under way, and those that wait, wait for an
execution of their key. -/
structure Joined (s : TaskHandler) : Prop where
  leads : ∀ key p, s.inflightMessages key = some p → s.kind p = some (.keyed key) ∧ s.isUnderway p = true
  only : ∀ key b, s.kind b = some (.keyed key) → s.isUnderway b = true → s.inflightMessages key = some b
  awaits : ∀ b e, s.stage b = some (.awaiting e) → ∃ key, s.kind b = some (.keyed key) ∧ s.kind e = some (.keyed key) ∧
    (s.isUnderway e = true ∨ ∃ result, s.stage e = some (.finished (some result)))

theorem Joined.empty : Joined {} := by
  refine ⟨fun _ _ h => (by cases h), fun key b h => ?_, fun b e h => ?_⟩
  · simp [kind] at h
  · simp [stage] at h

/-- The keys are a matter of the deliveries and of their own map. -/
theorem Joined.of_same (h : Joined s) (htasks : s'.tasks = s.tasks) (hmessages : s'.inflightMessages = s.inflightMessages) : Joined s' := by
  have hkind : ∀ b, s'.kind b = s.kind b := fun b => by unfold kind; rw [htasks]
  have hstage : ∀ b, s'.stage b = s.stage b := fun b => by unfold stage; rw [htasks]
  have hway : ∀ b, s'.isUnderway b = s.isUnderway b := fun b => by unfold isUnderway; rw [hstage]
  constructor <;> simp only [hkind, hstage, hway, hmessages]
  · exact h.leads
  · exact h.only
  · exact h.awaits

/-- Another stage of a delivery that is not done. What is no longer under way leaves the map, and has a result. -/
theorem Joined.advance (h : Joined s) (messages : String → Option Nat) (hid : s.isFinished id = false) (hawait : ∀ e, st ≠ .awaiting e)
    (hmessages : ∀ key p, messages key = some p ↔ s.inflightMessages key = some p ∧ (p = id → st.underway = true))
    (hkeep : ∀ key, s.kind id = some (.keyed key) → st.underway = true → s.isUnderway id = true)
    (hdone : ∀ key, s.kind id = some (.keyed key) → s.isUnderway id = true → st.underway = true ∨ ∃ result, st = .finished (some result)) :
    Joined { s.advance id st with inflightMessages := messages } := by
  generalize hs' : ({ s.advance id st with inflightMessages := messages } : TaskHandler) = s'
  have hkind : ∀ b, s'.kind b = s.kind b := fun b => hs' ▸ kind_advance ..
  have hstage : ∀ b, s'.stage b = if b = id then (s.stage b).map fun _ => st else s.stage b := fun b => hs' ▸ stage_advance ..
  have hother : ∀ b, b ≠ id → s'.stage b = s.stage b := fun b hb => (hstage b).trans (if_neg hb)
  have hmine : ∀ {k}, s.kind id = some k → s'.stage id = some st := by
    intro k hk
    obtain ⟨t, ht, -⟩ := Option.map_eq_some_iff.1 hk
    rw [hstage, if_pos rfl, stage, ht]
    rfl
  have hmsgs : s'.inflightMessages = messages := hs' ▸ rfl
  refine ⟨fun key p hp => ?_, fun key b hb hway => ?_, fun b e hb => ?_⟩
  · rw [hmsgs, hmessages] at hp
    obtain ⟨hk, hway⟩ := h.leads key p hp.1
    refine ⟨(hkind p).trans hk, ?_⟩
    by_cases hpid : p = id
    · rw [isUnderway, hpid, hmine (hpid ▸ hk)]
      exact hp.2 hpid
    · rw [isUnderway, hother p hpid]
      exact hway
  · rw [hkind] at hb
    rw [hmsgs, hmessages]
    by_cases hbid : b = id
    · subst hbid
      rw [isUnderway, hmine hb] at hway
      exact ⟨h.only key b hb (hkeep key hb hway), fun _ => hway⟩
    · rw [isUnderway, hother b hbid] at hway
      exact ⟨h.only key b hb hway, fun heq => absurd heq hbid⟩
  · have hbid : b ≠ id := by
      rintro rfl
      rw [hstage, if_pos rfl] at hb
      obtain ⟨_, -, hst⟩ := Option.map_eq_some_iff.1 hb
      exact hawait e hst
    rw [hother b hbid] at hb
    obtain ⟨key, hkb, hke, hlead⟩ := h.awaits b e hb
    refine ⟨key, (hkind b).trans hkb, (hkind e).trans hke, ?_⟩
    by_cases heid : e = id
    · subst heid
      rcases hlead with hway | ⟨result, hr⟩
      · rw [isUnderway, hmine hke]
        exact (hdone key hke hway).imp_right fun ⟨result, hst⟩ => ⟨result, congrArg some hst⟩
      · rw [isFinished, hr] at hid
        cases hid
    · rw [isUnderway, hother e heid]
      exact hlead

theorem Joined.push (h : Joined s) (messages : String → Option Nat) {kind : TaskKind}
    (hawait : ∀ e, st = .awaiting e → ∃ key, kind = .keyed key ∧ s.inflightMessages key = some e)
    (hmessages : ∀ key p, messages key = some p ↔ s.inflightMessages key = some p ∨
      p = s.tasks.length ∧ kind = .keyed key ∧ st.underway = true) :
    Joined { s.push kind st with inflightMessages := messages } := by
  generalize hs' : ({ s.push kind st with inflightMessages := messages } : TaskHandler) = s'
  have hkind : ∀ b, s'.kind b = if b = s.tasks.length then some kind else s.kind b := fun b => hs' ▸ kind_push ..
  have hstage : ∀ b, s'.stage b = if b = s.tasks.length then some st else s.stage b := fun b => hs' ▸ stage_push ..
  have hmsgs : s'.inflightMessages = messages := hs' ▸ rfl
  have hold : ∀ {b k}, s.kind b = some k → s'.kind b = some k ∧ s'.stage b = s.stage b := by
    intro b k hb
    have hlt := lt_of_kind hb
    exact ⟨(hkind b).trans ((if_neg (by omega)).trans hb), (hstage b).trans (if_neg (by omega))⟩
  have hlead : ∀ {key e}, s.kind e = some (.keyed key) → (s.isUnderway e = true ∨ ∃ result, s.stage e = some (.finished (some result))) →
      s'.kind e = some (.keyed key) ∧ (s'.isUnderway e = true ∨ ∃ result, s'.stage e = some (.finished (some result))) := by
    intro key e hk hl
    obtain ⟨hk', hst'⟩ := hold hk
    refine ⟨hk', ?_⟩
    rw [isUnderway, hst']
    exact hl
  refine ⟨fun key p hp => ?_, fun key b hb hway => ?_, fun b e hb => ?_⟩
  · rw [hmsgs, hmessages] at hp
    rcases hp with hp | ⟨rfl, rfl, hst⟩
    · obtain ⟨hk, hway⟩ := h.leads key p hp
      obtain ⟨hk', hst'⟩ := hold hk
      exact ⟨hk', by rw [isUnderway, hst']; exact hway⟩
    · exact ⟨(hkind _).trans (if_pos rfl), by rw [isUnderway, hstage, if_pos rfl]; exact hst⟩
  · rw [hmsgs, hmessages]
    by_cases hbl : b = s.tasks.length
    · rw [hkind, if_pos hbl] at hb
      rw [isUnderway, hstage, if_pos hbl] at hway
      exact .inr ⟨hbl, Option.some.inj hb, hway⟩
    · rw [hkind, if_neg hbl] at hb
      rw [isUnderway, hstage, if_neg hbl] at hway
      exact .inl (h.only key b hb hway)
  · by_cases hbl : b = s.tasks.length
    · rw [hstage, if_pos hbl] at hb
      obtain ⟨key, rfl, he⟩ := hawait e (Option.some.inj hb)
      obtain ⟨hk, hway⟩ := h.leads key e he
      exact ⟨key, (hkind b).trans (if_pos hbl), hlead hk (.inl hway)⟩
    · rw [hstage, if_neg hbl] at hb
      obtain ⟨key, hkb, hke, hl⟩ := h.awaits b e hb
      exact ⟨key, (hold hkb).1, hlead hke hl⟩

theorem Joined.arrive (h : Joined s) (kind : TaskKind) : Joined (s.arrive kind) := by
  have hquiet : ∀ {k} st, st.underway = false → (∀ e, st = .awaiting e → ∃ key, k = .keyed key ∧ s.inflightMessages key = some e) →
      Joined (s.push k st) := fun st hst hawait =>
    h.push s.inflightMessages hawait fun _ _ => ⟨.inl, fun hp => hp.elim (fun hp => hp) fun hp => by rw [hst] at hp; cases hp.2.2⟩
  cases kind with
  | keyed key =>
    rw [TaskHandler.arrive]
    split
    · exact hquiet _ rfl fun _ h => by cases h
    · split
      · rename_i existing he
        exact hquiet _ rfl fun e hst => by cases hst; exact ⟨key, rfl, he⟩
      · rename_i hnone
        refine h.push _ (fun _ h => by cases h) fun key' p => ?_
        by_cases hkk : key' = key
        · subst hkk
          rw [Function.update_self, hnone]
          simp [TaskStage.underway, eq_comm]
        · rw [Function.update_of_ne hkk]
          refine ⟨.inl, fun hp => hp.elim (fun hp => hp) fun hp => ?_⟩
          cases hp.2.1
          exact absurd rfl hkk
  | serialized key => exact (hquiet (.chained (s.inflightWorkflowRuns key)) rfl fun _ h => by cases h).of_same rfl rfl
  | plain =>
    exact h.push s.inflightMessages (fun _ h => by cases h) fun _ _ =>
      ⟨.inl, fun hp => hp.elim (fun hp => hp) fun hp => by cases hp.2.1⟩

theorem Joined.step (hline : InLine s) (h : Joined s) (hs : step e s = some s') : Joined s' := by
  rcases step_cases hs with ⟨kind, -, rfl⟩ | ⟨id, previous, hst, hprev, rfl⟩ | ⟨id, result, hst, rfl⟩ | ⟨id, key, result, hk, hst, rfl⟩ |
    ⟨id, kind, result, hk, hst, rfl⟩ | ⟨id, existing, result, hst, hst', rfl⟩
  · exact h.arrive kind
  · refine h.advance s.inflightMessages (by rw [isFinished, hst]; rfl) (fun _ h => by cases h)
      (fun _ _ => ⟨fun hp => ⟨hp, fun _ => rfl⟩, And.left⟩) (fun key hk _ => ?_) fun _ _ _ => .inl rfl
    obtain ⟨key', hk'⟩ := hline.chained id previous hst
    cases hk.symm.trans hk'
  · exact h.advance s.inflightMessages (by rw [isFinished, hst]; rfl) (fun _ h => by cases h)
      (fun _ _ => ⟨fun hp => ⟨hp, fun _ => rfl⟩, And.left⟩) (fun _ _ _ => by rw [isUnderway, hst]; rfl) fun _ _ _ => .inl rfl
  · have hmark : Joined (s.mark key result) ∧ (s.mark key result).stage = s.stage := by
      unfold mark
      split
      · exact ⟨h.of_same rfl rfl, rfl⟩
      · exact ⟨h, rfl⟩
    obtain ⟨hmark, hstage⟩ := hmark
    exact hmark.advance ((s.mark key result).inflightMessages) (by rw [isFinished, hstage, hst]; rfl) (fun _ h => by cases h)
      (fun _ _ => ⟨fun hp => ⟨hp, fun _ => rfl⟩, And.left⟩) (fun _ _ _ => by rw [isUnderway, hstage, hst]; rfl) fun _ _ _ => .inl rfl
  · have hopen : s.isFinished id = false := by
      unfold isFinished
      rcases hst with ⟨hst, -⟩ | ⟨hst, -⟩ <;> rw [hst] <;> rfl
    have hway : s.isUnderway id = true := by
      unfold isUnderway
      rcases hst with ⟨hst, -⟩ | ⟨hst, -⟩ <;> rw [hst] <;> rfl
    have hother : (∀ key, kind ≠ .keyed key) → Joined (s.advance id (.finished (some result))) := fun hne =>
      h.advance s.inflightMessages hopen (fun _ h => by cases h)
        (fun key p => ⟨fun hp => ⟨hp, fun hpid => absurd (Option.some.inj (hk.symm.trans (hpid ▸ (h.leads key p hp).1))) (hne key)⟩, And.left⟩)
        (fun _ _ h => by cases h) fun _ _ _ => .inr ⟨result, rfl⟩
    cases kind with
    | keyed key =>
      refine h.advance _ hopen (fun _ h => by cases h) (fun key' p => ?_) (fun _ _ h => by cases h) fun _ _ _ => .inr ⟨result, rfl⟩
      by_cases hkk : key' = key
      · subst hkk
        rw [Function.update_self]
        refine ⟨fun hp => (by cases hp), fun hp => ?_⟩
        have hlead := h.only key' id hk hway
        cases hp.1.symm.trans hlead
        exact absurd (hp.2 rfl) (by simp [TaskStage.underway])
      · rw [Function.update_of_ne hkk]
        refine ⟨fun hp => ⟨hp, fun hpid => ?_⟩, And.left⟩
        obtain ⟨hk', -⟩ := h.leads key' p hp
        rw [hpid] at hk'
        cases hk.symm.trans hk'
        exact absurd rfl hkk
    | plain => exact hother fun _ h => by cases h
    | serialized key => exact (hother fun _ h => by cases h).of_same rfl rfl
  · obtain ⟨key, hk, -, -⟩ := h.awaits id existing hst
    have hnot : s.isUnderway id = false := by rw [isUnderway, hst]; rfl
    refine h.advance s.inflightMessages (by rw [isFinished, hst]; rfl) (fun _ h => by cases h)
      (fun key p => ⟨fun hp => ⟨hp, fun hpid => ?_⟩, And.left⟩) (fun _ _ h => by cases h) fun _ _ hway => ?_
    · obtain ⟨-, hway⟩ := h.leads key p hp
      rw [hpid, hnot] at hway
      cases hway
    · rw [hnot] at hway
      cases hway

/-! ## What has completed -/

/-- The invariant of the completed keys: the process remembers the last of them, and what it takes for done has
completed. -/
structure Remembers (s : TaskHandler) : Prop where
  memory : s.completedMessages = Lists.remembered completedLimit s.completions
  marked : ∀ b result, s.stage b = some (.marked result) → ∃ key, s.kind b = some (.keyed key) ∧
    (result = .completed → key ∈ s.completions)
  done : ∀ b key, s.kind b = some (.keyed key) →
    s.stage b = some (.finished none) ∨ s.stage b = some (.finished (some .completed)) → key ∈ s.completions

theorem Remembers.empty : Remembers {} := by
  refine ⟨rfl, fun b _ h => ?_, fun b key h => ?_⟩
  · simp [stage] at h
  · simp [kind] at h

/-- Another stage of a delivery, with nothing completed by it. -/
theorem Remembers.advance (h : Remembers s) {runs messages : String → Option Nat}
    (hmarked : ∀ result, st = .marked result → ∃ key, s.kind id = some (.keyed key) ∧ (result = .completed → key ∈ s.completions))
    (hdone : ∀ key, s.kind id = some (.keyed key) → st = .finished none ∨ st = .finished (some .completed) → key ∈ s.completions) :
    Remembers { s.advance id st with inflightWorkflowRuns := runs, inflightMessages := messages } := by
  generalize hs' : ({ s.advance id st with inflightWorkflowRuns := runs, inflightMessages := messages } : TaskHandler) = s'
  have hkind : ∀ b, s'.kind b = s.kind b := fun b => hs' ▸ kind_advance ..
  have hstage : ∀ b st', s'.stage b = some st' → b = id ∧ st' = st ∨ s.stage b = some st' := by
    intro b st' hb
    have hst : s'.stage b = if b = id then (s.stage b).map fun _ => st else s.stage b := hs' ▸ stage_advance ..
    rw [hst] at hb
    split at hb
    · rename_i hbid
      obtain ⟨_, -, rfl⟩ := Option.map_eq_some_iff.1 hb
      exact .inl ⟨hbid, rfl⟩
    · exact .inr hb
  have hcompletions : s'.completions = s.completions ∧ s'.completedMessages = s.completedMessages := hs' ▸ ⟨rfl, rfl⟩
  refine ⟨?_, fun b result hb => ?_, fun b key hk hb => ?_⟩
  · rw [hcompletions.1, hcompletions.2]
    exact h.memory
  · rw [hkind, hcompletions.1]
    rcases hstage b _ hb with ⟨rfl, heq⟩ | hb
    · exact hmarked result heq.symm
    · exact h.marked b result hb
  · rw [hkind] at hk
    rw [hcompletions.1]
    rcases hb with hb | hb
    · rcases hstage b _ hb with ⟨rfl, heq⟩ | hb
      · exact hdone key hk (.inl heq.symm)
      · exact h.done b key hk (.inl hb)
    · rcases hstage b _ hb with ⟨rfl, heq⟩ | hb
      · exact hdone key hk (.inr heq.symm)
      · exact h.done b key hk (.inr hb)

theorem Remembers.push (h : Remembers s) {kind : TaskKind} {runs messages : String → Option Nat} (hmarked : ∀ result, st ≠ .marked result)
    (hdone : ∀ key, kind = .keyed key → st = .finished none ∨ st = .finished (some .completed) → key ∈ s.completions) :
    Remembers { s.push kind st with inflightWorkflowRuns := runs, inflightMessages := messages } := by
  generalize hs' : ({ s.push kind st with inflightWorkflowRuns := runs, inflightMessages := messages } : TaskHandler) = s'
  have hkind : ∀ b, s'.kind b = if b = s.tasks.length then some kind else s.kind b := fun b => hs' ▸ kind_push ..
  have hstage : ∀ b, s'.stage b = if b = s.tasks.length then some st else s.stage b := fun b => hs' ▸ stage_push ..
  have hcompletions : s'.completions = s.completions ∧ s'.completedMessages = s.completedMessages := hs' ▸ ⟨rfl, rfl⟩
  refine ⟨?_, fun b result hb => ?_, fun b key hk hb => ?_⟩
  · rw [hcompletions.1, hcompletions.2]
    exact h.memory
  · rw [hstage] at hb
    split at hb
    · exact absurd (Option.some.inj hb) (hmarked result)
    · rename_i hbl
      rw [hkind, if_neg hbl, hcompletions.1]
      exact h.marked b result hb
  · rw [hcompletions.1]
    rw [hkind] at hk
    rw [hstage] at hb
    split at hk
    · rename_i hbl
      simp only [hbl, if_true, Option.some.injEq] at hb
      exact hdone key (Option.some.inj hk) hb
    · rename_i hbl
      simp only [hbl, if_false] at hb
      exact h.done b key hk hb

theorem Remembers.mem (h : Remembers s) {key : String} (hk : key ∈ s.completedMessages) : key ∈ s.completions := by
  rw [h.memory] at hk
  obtain ⟨l, r, heq, -⟩ := (Lists.mem_remembered 9999).1 hk
  rw [heq]
  exact List.mem_append_right _ (List.mem_cons_self ..)

theorem Remembers.arrive (h : Remembers s) (kind : TaskKind) : Remembers (s.arrive kind) := by
  cases kind with
  | keyed key =>
    rw [TaskHandler.arrive]
    split
    · rename_i hk
      refine h.push (fun _ h => by cases h) fun key' heq _ => ?_
      cases heq
      exact h.mem (List.contains_iff_mem.1 hk)
    · split
      · exact h.push (fun _ h => by cases h) fun _ _ hst => by rcases hst with h | h <;> cases h
      · exact h.push (fun _ h => by cases h) fun _ _ hst => by rcases hst with h | h <;> cases h
  | serialized key => exact h.push (fun _ h => by cases h) fun _ hk => by cases hk
  | plain => exact h.push (fun _ h => by cases h) fun _ hk => by cases hk

theorem Remembers.mark (h : Remembers s) (key : String) (result : TaskResult) : Remembers (s.mark key result) := by
  unfold TaskHandler.mark
  split
  · refine ⟨?_, fun b r hb => ?_, fun b k hk hb => List.mem_append_left _ (h.done b k hk hb)⟩
    · rw [Lists.remembered_concat, ← h.memory]
      rfl
    · obtain ⟨k, hk, hr⟩ := h.marked b r hb
      exact ⟨k, hk, fun hc => List.mem_append_left _ (hr hc)⟩
  · exact h

theorem Remembers.step (hjoin : Joined s) (h : Remembers s) (hs : step e s = some s') : Remembers s' := by
  rcases step_cases hs with ⟨kind, -, rfl⟩ | ⟨id, previous, hst, hprev, rfl⟩ | ⟨id, result, hst, rfl⟩ | ⟨id, key, result, hk, hst, rfl⟩ |
    ⟨id, kind, result, hk, hst, rfl⟩ | ⟨id, existing, result, hst, hst', rfl⟩
  · exact h.arrive kind
  · exact h.advance (fun _ h => by cases h) fun _ _ hst => by rcases hst with h | h <;> cases h
  · exact h.advance (fun _ h => by cases h) fun _ _ hst => by rcases hst with h | h <;> cases h
  · refine (h.mark key result).advance (fun r hr => ?_) fun _ _ hst => by rcases hst with h | h <;> cases h
    cases hr
    have hkind : (s.mark key result).kind = s.kind := by unfold TaskHandler.mark; split <;> rfl
    refine ⟨key, hkind ▸ hk, fun hc => ?_⟩
    unfold TaskHandler.mark
    rw [if_pos hc]
    exact List.mem_append_right _ (List.mem_singleton.2 rfl)
  · have hfin : ∀ key, kind = .keyed key → result = .completed → key ∈ s.completions := by
      rintro key rfl rfl
      rcases hst with ⟨-, hne⟩ | ⟨hst, -⟩
      · exact absurd rfl (hne key)
      · obtain ⟨key', hk', hc⟩ := h.marked id _ hst
        cases hk.symm.trans hk'
        exact hc rfl
    have hdone : ∀ key, s.kind id = some (.keyed key) → TaskStage.finished (some result) = .finished none ∨
        TaskStage.finished (some result) = .finished (some .completed) → key ∈ s.completions := by
      intro key hk' hst
      refine hfin key (Option.some.inj (hk.symm.trans hk')) ?_
      rcases hst with h | h
      · cases h
      · cases h; rfl
    cases kind <;> exact h.advance (fun _ h => by cases h) hdone
  · refine h.advance (fun _ h => by cases h) fun key hk hdone => ?_
    obtain ⟨key', hk', hke, hlead⟩ := hjoin.awaits id existing hst
    cases hk.symm.trans hk'
    refine h.done existing key hke ?_
    rw [hst']
    exact hdone.imp (congrArg some) (congrArg some)

/-! ## Whole runs -/

/-- What is left to do for all of them. -/
def left (s : TaskHandler) : Nat := (s.tasks.map fun t => t.stage.left).sum

/-- The invariant of the process. -/
structure Ok (s : TaskHandler) : Prop where
  inLine : InLine s
  joined : Joined s
  remembers : Remembers s

theorem ok_reaches (h : Machine.Reaches step Machine.always {} s) : Ok s :=
  h.invariant ⟨.empty, .empty, .empty⟩ fun _ _ _ hs _ he =>
    ⟨hs.inLine.step he, hs.joined.step hs.inLine he, hs.remembers.step hs.joined he⟩

/-- Two deliveries of a run, the first of which fails, and a keyed delivery with its duplicate. -/
def twoOfEach : List TaskEvent :=
  [.arrive (.serialized "r"), .arrive (.serialized "r"), .arrive (.keyed "k"), .arrive (.keyed "k"), .begin_ 0, .settle 0 .failed,
    .release 0, .begin_ 1, .settle 2 .completed, .mark 2]

/-- Where it leaves them. -/
def afterTwoOfEach : List TaskRun :=
  [⟨.serialized "r", .finished (some .failed)⟩, ⟨.serialized "r", .executing⟩, ⟨.keyed "k", .marked .completed⟩, ⟨.keyed "k", .awaiting 2⟩]

theorem reaches_twoOfEach : ∃ s : TaskHandler, Machine.Reaches step Machine.always {} s ∧ s.tasks = afterTwoOfEach ∧ s.completions = ["k"] := by
  obtain ⟨s, hs, hend⟩ := @Machine.exists_of_play _ _ step Machine.always {} twoOfEach
    (fun s => s.tasks = afterTwoOfEach ∧ s.completions = ["k"]) (by decide +kernel)
  obtain ⟨htasks, hcompletions⟩ := of_decide_eq_true hend
  exact ⟨s, hs, htasks, hcompletions⟩

/-- How the executions of deliveries that concern each other are kept apart, and what is taken for done. -/
structure Apart (s : TaskHandler) : Prop where
  /-- An execution of a run starts when all deliveries of the run that arrived before are done. -/
  inLine : ∀ key a b, a < b → s.Serialized key a → s.Serialized key b → (∀ p, s.stage b ≠ some (.chained p)) → s.isFinished a = true
  /-- One execution of a key is under way at most. -/
  single : ∀ key a b, s.kind a = some (.keyed key) → s.kind b = some (.keyed key) → s.isUnderway a = true → s.isUnderway b = true → a = b
  /-- A keyed delivery is acknowledged without a result, or as completed, when an execution of its key has completed. -/
  acknowledged : ∀ b key, s.kind b = some (.keyed key) →
    s.stage b = some (.finished none) ∨ s.stage b = some (.finished (some .completed)) → key ∈ s.completions

/-- The key has completed, and since it last did so fewer others than the process remembers. -/
def RecentlyCompleted (s : TaskHandler) (key : String) : Prop :=
  ∃ l r, s.completions = l ++ key :: r ∧ key ∉ r ∧ r.dedup.length < completedLimit

/-- What becomes of a keyed delivery when it arrives: acknowledged exactly when its key completed recently, joined
to the execution that is under way for the key, and executed otherwise. -/
theorem arrival_decided {key : String} (h : Machine.Reaches step Machine.always {} s) (hs : step (.arrive (.keyed key)) s = some s') :
    (s'.stage s.tasks.length = some (.finished none) ↔ s.RecentlyCompleted key) ∧
    (s'.stage s.tasks.length = some .executing ↔ ¬s.RecentlyCompleted key ∧
      ∀ a, s.kind a = some (.keyed key) → s.isUnderway a = false) ∧
    (∀ a, s'.stage s.tasks.length = some (.awaiting a) ↔ ¬s.RecentlyCompleted key ∧ s.kind a = some (.keyed key) ∧ s.isUnderway a = true) := by
  have hok := ok_reaches h
  have hrecent : s.completedMessages.contains key = true ↔ s.RecentlyCompleted key := by
    rw [List.contains_iff_mem, hok.remembers.memory, RecentlyCompleted]
    exact (Lists.mem_remembered 9999).trans (by simp only [completedLimit, Nat.lt_succ_iff])
  have hmap : ∀ a, s.inflightMessages key = some a ↔ s.kind a = some (.keyed key) ∧ s.isUnderway a = true :=
    fun a => ⟨hok.joined.leads key a, fun h => hok.joined.only key a h.1 h.2⟩
  cases hs
  have hnew : ∀ st, (s.push (.keyed key) st).stage s.tasks.length = some st := fun st => by rw [stage_push, if_pos rfl]
  rw [TaskHandler.arrive]
  split
  · rename_i hc
    rw [hnew]
    have hr := hrecent.1 hc
    simp [hr]
  · rename_i hc
    have hr : ¬s.RecentlyCompleted key := fun hr => hc (hrecent.2 hr)
    split
    · rename_i existing he
      rw [hnew]
      have hlead := (hmap existing).1 he
      refine ⟨by simp [hr], iff_of_false (by simp) fun hall => ?_, fun a => ⟨fun ha => ?_, fun ha => ?_⟩⟩
      · rw [hall.2 existing hlead.1] at hlead
        cases hlead.2
      · cases ha
        exact ⟨hr, hlead⟩
      · cases he.symm.trans ((hmap a).2 ha.2)
        rfl
    · rename_i hnone
      have hst : ({ s.push (.keyed key) .executing with
          inflightMessages := Function.update s.inflightMessages key (some s.tasks.length) } : TaskHandler).stage s.tasks.length =
          some .executing := hnew .executing
      rw [hst]
      refine ⟨by simp [hr], iff_of_true rfl ⟨hr, fun a ha => ?_⟩, fun a => iff_of_false (by simp) fun ha => ?_⟩
      · by_contra hway
        cases hnone.symm.trans ((hmap a).2 ⟨ha, by simpa using hway⟩)
      · cases hnone.symm.trans ((hmap a).2 ha.2)

theorem arrival_decided_twoOfEach : ∃ s : TaskHandler, s.tasks = afterTwoOfEach ∧
    ((s.arrive (.keyed "k")).stage s.tasks.length = some (.finished none) ↔ s.RecentlyCompleted "k") := by
  obtain ⟨s, hs, htasks, -⟩ := reaches_twoOfEach
  exact ⟨s, htasks, (arrival_decided hs rfl).1⟩

/-! ## Coming to rest -/

theorem sum_modify_lt {α : Type} (w : α → Nat) (f : α → α) : ∀ {l : List α} {i : Nat} {a : α}, l[i]? = some a → w (f a) < w a →
    ((l.modify i f).map w).sum < (l.map w).sum
  | [], i, a, h, _ => by simp at h
  | b :: l, 0, a, h, hlt => by
    cases h
    rw [List.modify_zero_cons, List.map_cons, List.map_cons, List.sum_cons, List.sum_cons]
    omega
  | b :: l, i + 1, a, h, hlt => by
    have ih := sum_modify_lt w f (l := l) (i := i) (by simpa using h) hlt
    rw [List.modify_succ_cons, List.map_cons, List.map_cons, List.sum_cons, List.sum_cons]
    omega

theorem left_advance {old : TaskStage} (hold : s.stage id = some old) (hlt : st.left < old.left) : (s.advance id st).left < s.left := by
  obtain ⟨t, ht, rfl⟩ := Option.map_eq_some_iff.1 hold
  exact sum_modify_lt _ _ ht hlt

theorem left_step (he : ∀ kind, e ≠ .arrive kind) (hs : step e s = some s') : s'.left < s.left := by
  rcases step_cases hs with ⟨kind, heq, -⟩ | ⟨id, previous, hst, -, rfl⟩ | ⟨id, result, hst, rfl⟩ | ⟨id, key, result, hk, hst, rfl⟩ |
    ⟨id, kind, result, hk, hst, rfl⟩ | ⟨id, existing, result, hst, -, rfl⟩
  · exact absurd heq (he kind)
  · exact left_advance hst (by simp [TaskStage.left])
  · exact left_advance hst (by simp [TaskStage.left])
  · have htasks : (s.mark key result).tasks = s.tasks := by unfold TaskHandler.mark; split <;> rfl
    have hleft : (s.mark key result).left = s.left := by unfold left; rw [htasks]
    rw [← hleft]
    exact left_advance (by rw [stage, htasks]; exact hst) (by simp [TaskStage.left])
  · have hlt : (s.advance id (.finished (some result))).left < s.left := by
      rcases hst with ⟨hst, -⟩ | ⟨hst, -⟩ <;> exact left_advance hst (by simp [TaskStage.left])
    cases kind <;> exact hlt
  · exact left_advance hst (by simp [TaskStage.left])

/-- An execution that is under way can go on. -/
theorem enabled_of_underway (hok : Ok s) (h : s.isUnderway id = true) : ∃ e, (∀ kind, e ≠ .arrive kind) ∧ step e s ≠ none := by
  obtain ⟨st, hst, hway⟩ := (Option.any_eq_true _ _).1 h
  cases st with
  | executing => exact ⟨.settle id .completed, fun _ h => (by cases h), by simp [step, hst]⟩
  | executed result =>
    obtain ⟨t, ht, -⟩ := Option.map_eq_some_iff.1 hst
    have hk : s.kind id = some t.kind := by rw [kind, ht]; rfl
    cases hkind : t.kind with
    | keyed key => exact ⟨.mark id, fun _ h => (by cases h), by simp [step, hk, hkind, hst]⟩
    | serialized key => exact ⟨.release id, fun _ h => (by cases h), by simp [step, hk, hkind, hst]⟩
    | plain => exact ⟨.release id, fun _ h => (by cases h), by simp [step, hk, hkind, hst]⟩
  | marked result =>
    obtain ⟨key, hk, -⟩ := hok.remembers.marked id result hst
    exact ⟨.release id, fun _ h => (by cases h), by simp [step, hk, hst]⟩
  | chained | awaiting | finished => cases hway

/-- A delivery that is not done waits for nothing, or for one that can go on: no cycle, and nobody left behind. -/
theorem finished_of_stuck (hok : Ok s) (hstuck : ∀ e, (∀ kind, e ≠ .arrive kind) → step e s = none) (id : Nat)
    (hid : id < s.tasks.length) : s.isFinished id = true := by
  induction id using Nat.strongRecOn with
  | ind id ih =>
    have hst : s.stage id = some s.tasks[id].stage := by rw [stage, List.getElem?_eq_getElem hid]; rfl
    have hquiet : s.isUnderway id = false := by
      by_contra hway
      obtain ⟨e, he, hne⟩ := enabled_of_underway hok (by simpa using hway)
      exact hne (hstuck e he)
    cases hcase : s.tasks[id].stage with
    | executing | executed | marked =>
      rw [isUnderway, hst, hcase] at hquiet
      cases hquiet
    | finished result =>
      rw [isFinished, hst, hcase]
      rfl
    | chained previous =>
      rw [hcase] at hst
      have hbegin := hstuck (.begin_ id) fun _ h => by cases h
      have hready : previous.all s.isFinished = true := by
        cases previous with
        | none => rfl
        | some p =>
          obtain ⟨key, hser⟩ := hok.inLine.chained id _ hst
          obtain ⟨hp, hlt, -⟩ := hok.inLine.behind key id p hser hst
          exact ih p hlt (lt_of_kind hp)
      simp [step, hst, hready] at hbegin
    | awaiting existing =>
      rw [hcase] at hst
      have hresume := hstuck (.resume id) fun _ h => by cases h
      obtain ⟨key, -, -, hlead⟩ := hok.joined.awaits id existing hst
      rcases hlead with hway | ⟨result, hr⟩
      · obtain ⟨e, he, hne⟩ := enabled_of_underway hok hway
        exact absurd (hstuck e he) hne
      · simp [step, hst, hr] at hresume

/-- Without arrivals the process comes to rest, in whatever order things happen and however executions end: each
event leaves less to do, and when none is possible all deliveries are done and both maps are empty. -/
theorem deliveries_come_to_rest (h : Machine.Reaches step Machine.always {} s) :
    (∀ e s', (∀ kind, e ≠ .arrive kind) → step e s = some s' → s'.left < s.left) ∧
    ((∀ e, (∀ kind, e ≠ .arrive kind) → step e s = none) → (∀ id < s.tasks.length, s.isFinished id = true) ∧
      (∀ key, s.inflightWorkflowRuns key = none) ∧ ∀ key, s.inflightMessages key = none) := by
  have hok := ok_reaches h
  refine ⟨fun e s' he hs => left_step he hs, fun hstuck => ?_⟩
  have hall := finished_of_stuck hok hstuck
  refine ⟨hall, fun key => ?_, fun key => ?_⟩
  · cases hlast : s.inflightWorkflowRuns key with
    | none => rfl
    | some p =>
      obtain ⟨hp, hopen, -⟩ := hok.inLine.last key p hlast
      rw [hall p (lt_of_kind hp)] at hopen
      cases hopen
  · cases hlead : s.inflightMessages key with
    | none => rfl
    | some p =>
      obtain ⟨hp, hway⟩ := hok.joined.leads key p hlead
      obtain ⟨result, hr⟩ := isFinished_iff.1 (hall p (lt_of_kind hp))
      rw [isUnderway, hr] at hway
      cases hway

theorem deliveries_come_to_rest_twoOfEach : ∃ s : TaskHandler, s.tasks = afterTwoOfEach ∧ s.left = 5 ∧
    ∀ e s', (∀ kind, e ≠ .arrive kind) → step e s = some s' → s'.left < s.left := by
  obtain ⟨s, hs, htasks, -⟩ := reaches_twoOfEach
  exact ⟨s, htasks, by rw [left, htasks]; rfl, (deliveries_come_to_rest hs).1⟩

end TaskHandler

end WorkflowWorld.Dispatcher
