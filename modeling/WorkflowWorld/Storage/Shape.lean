/-
What each request can issue: the statements of its program and the blocks that append to a log.
Every later proof about all programs goes through this list.
-/
import WorkflowWorld.Storage.Create
import WorkflowWorld.Effects

namespace WorkflowWorld

open Concurrency Schema

/-- The statement writes nothing. -/
def Query.reads : Query → Bool
  | .selectRun _ | .lockRun _ | .allocateEventId _ | .legacyEventUlid | .lockSlots _ | .selectSlots _ | .nextSlot _
  | .hasEvent _ _ _ | .selectDisposal _ _ | .selectRunCreated _ | .getHookByToken _ _ | .anyHookByToken _ _
  | .findActiveTokenOwner _ _ _ | .selectHook _ | .tokenHooks _ _ | .lockHook _ _ | .releasedHooks _ _
  | .runHooks _ _ | .selectWait _ | .runWaits _ | .selectStep _ _ | .lockStep _ _ | .deliveryInFlight _
  | .selectAdmission _ => true
  | _ => false

theorem Query.reads_tbl {q : Query} (h : q.reads = true) : q.tbl = none := by
  cases q <;> first | rfl | cases h

theorem plan_reads {q : Query} (h : q.reads = true) {pick : Pick} {now : Nat} {d : Db} {w : Write}
    (hw : w ∈ (plan q pick now d).writes) : False := by
  have := plan_tbl hw
  rw [Query.reads_tbl h] at this
  cases this

/-- A statement that writes nothing. -/
def Reading : Op → Prop
  | .query q => q.reads = true
  | _ => False

/-- The creation an event asks for. -/
def EventReq.input : EventReq → Option RunInput
  | .runCreated i => some i
  | .runStarted i => i
  | _ => none

/-- The hook creation an event asks for. -/
def EventReq.hookCreation : EventReq → Option HookCreation
  | .hookCreated hook token force tokenRetentionUntil => some ⟨hook, token, force, tokenRetentionUntil⟩
  | _ => none

/-- The writing statements of a request. `legacy` adds those of the legacy handler. -/
def Query.WrittenBy (c : Ctx) (e : EventReq) (legacy : Bool) : Query → Prop
  | .startRun k _ startedBy => k = c.key ∧ e.type = .runStarted ∧ startedBy = c.me
  | .finishRun k status _ => k = c.key ∧ e.type.terminalStatus = some status
  | .cancelLegacyRun k _ => k = c.key ∧ legacy = true ∧ e.type = .runCancelled
  | .setAttributes k _ _ => k = c.key ∧ e.type = .attrSet
  | .insertHook k r onConflict =>
    (∃ h, e.startHook = some h ∧ k = (c.tenant, c.deps.startHookId c.runId) ∧ r = c.startHookRow h ∧
      onConflict = .doNothing) ∨
    ∃ q source, e.hookCreation = some q ∧ k = q.key c ∧ r = q.hookRow c source
  | .deleteReleased tenant _ _ => tenant = c.tenant ∧ (e.startHook.isSome = true ∨ e.type = .hookCreated)
  | .deleteHook k => k.1 = c.tenant ∧ (e.type = .hookCreated ∨ e.type = .hookDisposed ∧ e.correlationId = some k.2)
  | .deleteRunHooks k _ _ => k = c.key ∧ e.type.terminalStatus.isSome = true
  | .insertAdmission k token _ decidedBy =>
    k = c.key ∧ decidedBy = c.me ∧ ∃ h, e.startHook = some h ∧ token = h.token
  | .deleteExpiredDecisions _ => e.startHook.isSome = true
  | .insertStep k r =>
    k.1 = c.tenant ∧ e.correlationId = some k.2 ∧ (e.type = .stepCreated ∨ e.type = .stepStarted) ∧ ∃ name, r = newStep c name
  | .startStep k run owner _ => ∃ step createsStep, e = .stepStarted step createsStep owner ∧ k = (c.tenant, step) ∧ run = c.runId
  | .finishStep k run status _ finishedBy => ∃ step,
      (e = .stepCompleted step ∧ status = .completed ∨ e = .stepFailed step ∧ status = .failed) ∧
      k = (c.tenant, step) ∧ run = c.runId ∧ finishedBy = c.me
  | .retryStep k run retryAfter => ∃ step, e = .stepRetrying step retryAfter ∧ k = (c.tenant, step) ∧ run = c.runId
  | .insertWait k r => ∃ wait resumeAt, e = .waitCreated wait resumeAt ∧ k = c.waitKey wait ∧ r.runId = c.runId
  | .completeWait k _ => ∃ wait, e = .waitCompleted wait ∧ k = c.waitKey wait
  | .deleteWaits k _ => k = c.key ∧ e.type.terminalStatus.isSome = true
  | _ => False

/-- The statements of a request outside its blocks. -/
def Stmt (c : Ctx) (e : EventReq) (legacy : Bool) : Op → Prop
  | .query q => q.reads = true ∨ q.WrittenBy c e legacy
  | _ => False

/-- The events a request appends: its own; the `step_created` of a lazy start; the `hook_conflict`
of a creation; the `hook_disposed` of the hook a creation takes its token from. -/
inductive Journals (c : Ctx) (e : EventReq) : RunKey → EventValues → Prop
  | own (v : EventValues) (ht : v.type = e.type) (hc : v.correlationId = e.correlationId) (he : e.type ≠ .runCreated) :
      Journals c e c.key v
  | lazily (v : EventValues) (he : e.type = .stepStarted) (ht : v.type = .stepCreated)
      (hc : v.correlationId = e.correlationId) : Journals c e c.key v
  | conflict (v : EventValues) (he : e.type = .hookCreated) (ht : v.type = .hookConflict)
      (hc : v.correlationId = e.correlationId) : Journals c e c.key v
  | takeover (q : HookCreation) (he : e.hookCreation = some q) (hook : HookId) (run : RunId) (r : RunRow) :
      Journals c e (c.tenant, run) (q.disposed c hook r)

/-- The blocks that append: an ordinary append, a new run with its first event, a legacy run's event. -/
inductive Block (c : Ctx) (e : EventReq) (legacy : Bool) : (α : Type) → P α → Prop
  | append {k : RunKey} {v : EventValues} (h : Journals c e k v) : Block c e legacy _ (tryAppend c k v)
  | run {i : RunInput} (h : e.input = some i) :
      Block c e legacy _ (insertRunWithCreatedEvent c (i.row c) (i.created c) i.startHook)
  | legacy (h : legacy = true) (u : Nat) (v : EventValues) (ht : v.type = e.type) (hc : v.correlationId = e.correlationId) :
      Block c e legacy _ (insertLegacyEvent c u v)

/-- One append, as a block. -/
inductive OneAppend (c : Ctx) (k : RunKey) (v : EventValues) : (α : Type) → P α → Prop
  | mk : OneAppend c k v _ (tryAppend c k v)

/-! ## Programs that only read -/

section Reading

variable {c : Ctx} {Q : Op → Prop} {B : (α : Type) → P α → Prop} (hr : ∀ {q : Query}, q.reads = true → Q (.query q))

include hr

theorem built_getRunForValidation (k : RunKey) : Built Q B (getRunForValidation k) :=
  .bind (.statement _ (hr rfl)) fun _ => .pure _

omit hr in
theorem built_validateAttributes (changes : List AttributeChange) (existing : List String) (allowReserved : Bool) :
    Built Q B (validateAttributes c.deps changes existing allowReserved) := by
  unfold validateAttributes
  split
  · exact .pure _
  · exact .throw _

theorem built_explainStep (step : StepId) (updated : Option StepRow) :
    Built Q B (explainStep c step updated) := by
  cases updated with
  | some r => exact .pure _
  | none =>
    refine .bind (.statement _ (hr rfl)) fun existing => ?_
    cases existing with
    | none => exact .throw _
    | some r =>
      simp only
      split
      · exact .throw _
      · exact .pure _

theorem built_awaitOwner (step : StepId) (owner : Option MessageId) (now : Nat) :
    Built Q B (awaitOwner c step owner now) := by
  refine .bind (.statement _ (hr rfl)) fun current => ?_
  cases current with
  | none => exact .pure _
  | some r =>
    simp only
    split
    · exact .pure _
    · refine .bind (.statement _ (hr rfl)) fun inFlight => ?_
      split
      · exact .throw _
      · exact .pure _

omit hr in
theorem built_awaitRetry (step : StepId) (retryAfter : Option Nat) :
    Built Q B (awaitRetry step retryAfter) := by
  cases retryAfter with
  | none => exact .pure _
  | some u =>
    refine .bind (.clock _ fun _ => .pure _) fun now => ?_
    split
    · exact .bind (.clock _ fun _ => .pure _) fun _ => .throw _
    · exact .pure _

theorem built_validateStep (current : Option CurrentRun) (step : StepId) (isLazy : Bool) :
    Built Q B (validateStep c current step isLazy) := by
  refine .bind (.statement _ (hr rfl)) fun existing => ?_
  cases existing with
  | none =>
    simp only
    split
    · exact .pure _
    · exact .throw _
  | some r =>
    simp only
    split
    · exact .throw _
    · split
      · exact .throw _
      · split
        · exact .pure _
        · split
          · exact .throw _
          · exact .pure _

theorem built_forceClaimRefusal (hook : HookId) (token : Option Token) : Built Q B (forceClaimRefusal c hook token) := by
  refine .bind (.statement _ (hr rfl)) fun disposal => ?_
  split
  · split
    · exact .pure _
    · refine .bind (.statement _ (hr rfl)) fun successor => ?_
      split <;> exact .pure _
  · exact .pure _

theorem built_refuseDelivery {α : Type} (hook : HookId) (token : Option Token) :
    Built Q B (refuseDelivery c hook token : P α) := by
  refine .bind (built_forceClaimRefusal hr hook token) fun refusal => ?_
  cases refusal <;> exact .throw _

theorem built_lockTokenHook (token : Token) : ∀ hooks : List HookId,
    Built Q B (HookCreation.lockTokenHook c.tenant token hooks)
  | [] => .pure _
  | h :: hs => by
    refine .bind (.statement _ (hr rfl)) fun locked => ?_
    cases locked with
    | some p => exact .pure _
    | none => exact built_lockTokenHook token hs

theorem built_assertHookExists (hook : HookId) (delivery : Option (Option Token)) :
    Built Q B (assertHookExists c hook delivery) := by
  refine .bind (.statement _ (hr rfl)) fun existing => ?_
  cases existing with
  | some r => exact .pure _
  | none =>
    cases delivery with
    | some token => exact built_refuseDelivery hr ..
    | none => exact .throw _

/-- What creates a run may be told apart from what is read around it. -/
theorem built_createRun_of {i : RunInput} (hcreate : Built Q B (i.create c)) : Built Q B (createRun c i) := by
  refine .bind hcreate fun created => ?_
  cases created with
  | some p => exact .pure _
  | none =>
    simp only
    split
    · refine .bind (.statement _ (hr rfl)) fun run => .bind (.statement _ (hr rfl)) fun event => ?_
      split
      · exact .pure _
      · exact .throw _
    · exact .throw _

theorem built_resilientRead {i : RunInput} (hcreate : Built Q B (i.create c)) : Built Q B (readCurrentRun c (.runStarted (some i))) := by
  refine .bind (built_getRunForValidation hr _) fun run => ?_
  cases run with
  | some r => exact .pure _
  | none =>
    refine .ite (.bind hcreate fun created => ?_) (.pure _)
    cases created with
    | some p => exact .pure _
    | none => exact built_getRunForValidation hr _

/-- Attributes are written by one statement. -/
theorem built_setAttributes_of {id : Option CorrId} {changes : List AttributeChange} {byWorkflow allowReserved : Bool}
    (hset : Q (.query (.setAttributes c.key changes c.deps.attributeMaxPerRun)))
    (hjournal : Built Q B (journal c ⟨.attrSet, id, .attrSet changes, c.specVersion⟩ byWorkflow)) :
    Built Q B (setAttributes c id changes byWorkflow allowReserved) := by
  have hdup : Built Q B (attributesJournaled c byWorkflow id) := by
    unfold attributesJournaled
    split
    · exact .ite (.statement _ (hr rfl)) (.pure _)
    · exact .pure _
  refine .bind hdup fun duplicate => ?_
  split
  · exact .throw _
  · refine .bind (.statement _ (hr rfl)) fun existing => ?_
    cases existing with
    | none => exact .throw _
    | some r =>
      refine .bind (built_validateAttributes ..) fun _ => .bind (.statement _ hset) fun updated => ?_
      cases updated with
      | none =>
        refine .bind (.statement _ (hr rfl)) fun still => ?_
        cases still <;> exact .throw _
      | some run => exact .bind hjournal fun _ => .pure _

end Reading

/-! ## A candidate's decision -/

section Candidate

variable {c : Ctx} {h : StartHook} {Q : Op → Prop} (hr : ∀ {q : Query}, q.reads = true → Q (.query q))
  (hclaim : Q (.query (.insertHook (c.tenant, c.deps.startHookId c.runId) (c.startHookRow h) .doNothing)))
  (hrecord : ∀ decision, Q (.query (.insertAdmission c.key h.token decision c.me)))
  (hreleased : ∀ keys, Q (.query (.deleteReleased c.tenant h.token keys)))
  (hexpired : ∀ cutoff, Q (.query (.deleteExpiredDecisions cutoff)))

theorem plain_recordedDecision (hq : Q (.query (.selectAdmission c.key))) : (recordedDecision c h).All (Op.Plain Q) := by
  refine .bind (plain_statement _ hq) fun existing => ?_
  cases existing with
  | none => trivial
  | some a =>
    refine .ite trivial ?_
    split <;> trivial

include hr

theorem plain_deleteReleasedHooks (hreleased : ∀ keys, Q (.query (.deleteReleased c.tenant h.token keys))) :
    (deleteReleasedHooks c h.token).All (Op.Plain Q) :=
  .bind (plain_statement _ (hr rfl)) fun _ => plain_statement _ (hreleased _)

include hclaim in
theorem plain_claimStartHook : (claimStartHook c h).All (Op.Plain Q) := by
  refine .bind (plain_statement _ (hr rfl)) fun owner => ?_
  cases owner with
  | some o => trivial
  | none => exact .bind (plain_statement _ hclaim) fun _ => trivial

include hrecord

theorem plain_recordDecision (decision : Decision) : (recordDecision c h decision).All (Op.Plain Q) := by
  refine .bind (plain_statement _ (hrecord decision)) fun inserted => .ite trivial ?_
  refine .bind (plain_recordedDecision (hr rfl)) fun recorded => ?_
  cases recorded with
  | none => trivial
  | some r => exact .ite trivial trivial

theorem plain_refuseCandidate (owner : Option RunId) : (refuseCandidate c h owner).All (Op.Plain Q) := by
  refine .bind (plain_recordedDecision (hr rfl)) fun raced => ?_
  cases raced with
  | some r => trivial
  | none =>
    have hfound : (conflictingRun c h owner).All (Op.Plain Q) := by
      cases owner with
      | some o => trivial
      | none => exact plain_statement _ (hr rfl)
    refine .bind hfound fun conflicting => ?_
    cases conflicting with
    | none => trivial
    | some o => exact plain_recordDecision hr hrecord _

include hclaim hreleased hexpired

/-- An attempt is a sequence of statements. -/
theorem plain_decideStartHookAdmission : (decideStartHookAdmission c h).All (Op.Plain Q) := by
  have hadmit : (admitCandidate c h).All (Op.Plain Q) := by
    refine .bind ⟨trivial, fun _ => plain_statement _ (hexpired _)⟩ fun _ => .bind (plain_deleteReleasedHooks hr hreleased) fun _ => ?_
    refine .bind (plain_claimStartHook hr hclaim) fun claim => ?_
    exact .ite (plain_recordDecision hr hrecord _) (plain_refuseCandidate hr hrecord _)
  refine .bind (plain_recordedDecision (hr rfl)) fun recorded => ?_
  cases recorded with
  | some r => trivial
  | none =>
    refine ⟨trivial, fun now => .ite trivial (.bind (plain_statement _ (hr rfl)) fun run => ?_)⟩
    exact .ite trivial hadmit

end Candidate

section Shape

variable {c : Ctx} {e : EventReq} {l : Bool} {B : (α : Type) → P α → Prop}

/-- A request may read. -/
theorem stmt_read {q : Query} (h : q.reads = true) : Stmt c e l (.query q) := .inl h

theorem built_read {q : Query} (h : q.reads = true) : Built (Stmt c e l) B (sql q) := .statement _ (.inl h)

theorem built_write {q : Query} (h : q.WrittenBy c e l) : Built (Stmt c e l) B (sql q) := .statement _ (.inr h)

theorem built_clock : Built (Stmt c e l) B clock := .clock _ fun _ => .pure _

theorem built_appendEvent_block {Q : Op → Prop} {k : RunKey} {v : EventValues} (h : B _ (tryAppend c k v)) (message : String) :
    Built Q B (appendEvent c k v message) := by
  refine .bind (.block h) fun id => ?_
  cases id with
  | some id => exact .pure _
  | none => exact .throw _

theorem built_journal_block {Q : Op → Prop} {v : EventValues} (h : B _ (tryAppend c c.key v)) (dedup : Bool) :
    Built Q B (journal c v dedup) := by
  refine .tryCatch (built_appendEvent_block h _) (fun err _ => .ite (.throw _) (.throw _)) fun err hc => if_neg fun h => hc ?_
  exact .inr (.inl h.2)

theorem built_appendEvent {k : RunKey} {v : EventValues} (h : Journals c e k v) (message : String) :
    Built (Stmt c e l) (Block c e l) (appendEvent c k v message) := built_appendEvent_block (.append h) message

theorem built_journal {v : EventValues} (h : Journals c e c.key v) (dedup : Bool) :
    Built (Stmt c e l) (Block c e l) (journal c v dedup) := built_journal_block (.append h) dedup

/-! ## Creating a run -/

theorem built_deleteReleasedHooks {token : Token} (h : e.startHook.isSome = true ∨ e.type = .hookCreated) :
    Built (Stmt c e l) B (deleteReleasedHooks c token) :=
  .bind (built_read rfl) fun _ => built_write ⟨rfl, h⟩

theorem built_decideStartHookAdmission {h : StartHook} (he : e.startHook = some h) :
    Built (Stmt c e l) B (decideStartHookAdmission c h) := by
  have hs : e.startHook.isSome = true := by rw [he]; rfl
  refine .of_plain (plain_decideStartHookAdmission stmt_read (.inr (.inl ⟨h, he, rfl, rfl, rfl⟩)) (fun _ => .inr ⟨rfl, rfl, h, he, rfl⟩)
    (fun _ => .inr ⟨rfl, .inl hs⟩) fun _ => .inr hs)

theorem EventReq.startHook_eq {i : RunInput} (h : e.input = some i) : e.startHook = i.startHook := by
  cases e <;> simp only [EventReq.input] at h <;> cases h <;> rfl

theorem built_runInput_create {i : RunInput} (h : e.input = some i) : Built (Stmt c e l) (Block c e l) (i.create c) := by
  refine .bind (built_validateAttributes ..) fun _ => .bind (.block (.run h)) fun inserted => ?_
  split
  · exact .throw _
  · exact .pure _

theorem built_createRun {i : RunInput} (h : e.input = some i) : Built (Stmt c e l) (Block c e l) (createRun c i) :=
  built_createRun_of stmt_read (built_runInput_create h)

theorem built_readCurrentRun : Built (Stmt c e l) (Block c e l) (readCurrentRun c e) := by
  unfold readCurrentRun
  split
  · exact .pure _
  · exact .pure _
  · exact .pure _
  · exact built_resilientRead stmt_read (built_runInput_create rfl)
  · exact built_getRunForValidation stmt_read _

/-! ## Runs, steps and waits -/

theorem built_startRun (he : e.type = .runStarted) (hc : e.correlationId = none) (now : Nat) (current : Option CurrentRun) :
    Built (Stmt c e l) (Block c e l) (startRun c now current) := by
  have hread : Built (Stmt c e l) (Block c e l) (readRunning c current) := by
    exact .ite (built_read rfl) (.pure _)
  refine .bind hread fun running => ?_
  cases running with
  | some r => exact .pure _
  | none =>
    refine .bind (built_write ⟨rfl, he, rfl⟩) fun updated => ?_
    exact .bind (built_journal (.own _ he.symm hc.symm (by rw [he]; decide)) _) fun _ => .pure _

theorem built_settleRun {status : RunStatus} (he : e.type.terminalStatus = some status) (now : Nat) :
    Built (Stmt c e l) (Block c e l) (settleRun c status now) := by
  refine .bind (built_write ⟨rfl, he⟩) fun updated => ?_
  cases updated with
  | some r => exact .pure _
  | none =>
    refine .bind (built_getRunForValidation stmt_read _) fun existing => ?_
    cases existing with
    | none => exact .throw _
    | some r =>
      simp only
      split
      · exact .throw _
      · exact .pure _

theorem built_releaseRun (he : e.type.terminalStatus.isSome = true) (all : Bool) :
    Built (Stmt c e l) (Block c e l) (releaseRun c all) := by
  refine .bind (built_read rfl) fun hooks => .bind (built_write ⟨rfl, he⟩) fun _ => ?_
  exact .bind (built_read rfl) fun waits => built_write ⟨rfl, he⟩

theorem built_finishRun {status : RunStatus} (he : e.type.terminalStatus = some status) (hc : e.correlationId = none)
    (now : Nat) : Built (Stmt c e l) (Block c e l) (finishRun c e.type status now) := by
  refine .bind (built_settleRun he now) fun run => .bind (built_releaseRun (by rw [he]; rfl) _) fun _ => ?_
  exact .bind (built_journal (.own _ rfl hc.symm (by rintro h; rw [h] at he; cases he)) _) fun _ => .pure _

theorem built_cancelAgain (he : e.type = .runCancelled) (hc : e.correlationId = none) :
    Built (Stmt c e l) (Block c e l) (cancelAgain c) := by
  refine .bind (built_read rfl) fun run => ?_
  exact .bind (built_appendEvent (.own _ he.symm hc.symm (by rw [he]; decide)) _) fun _ => .pure _

theorem built_setAttributes (id : Option CorrId) (changes : List AttributeChange) (byWorkflow allowReserved : Bool)
    (he : e.type = .attrSet) (hc : e.correlationId = id) :
    Built (Stmt c e l) (Block c e l) (setAttributes c id changes byWorkflow allowReserved) :=
  built_setAttributes_of stmt_read (.inr ⟨rfl, he⟩) (built_journal (.own _ he.symm hc.symm (by rw [he]; decide)) _)

theorem built_createStepLazily {step : StepId} (he : e.type = .stepStarted) (hc : e.correlationId = some step)
    (name : String) (starts : Bool) : Built (Stmt c e l) (Block c e l) (createStepLazily c step name starts) := by
  refine .bind (built_write ⟨rfl, hc, .inr he, name, rfl⟩) fun inserted => ?_
  split
  · split
    · exact .pure _
    · exact .tryCatch (.bind (.block (.append (.lazily _ he rfl hc.symm))) fun _ => .pure _)
        (fun err _ => .ite (.pure _) (.throw _)) fun err hc => if_neg fun h => hc (.inr (.inl h))
  · exact .throw _

theorem built_prepareStep {step : StepId} (he : e.type = .stepStarted) (hc : e.correlationId = some step)
    (createsStep : Option String) (owner : Option MessageId) (now : Nat) (starts : Bool) (validated : Option StepRow) :
    Built (Stmt c e l) (Block c e l) (prepareStep c step createsStep owner now starts validated) := by
  unfold prepareStep
  split
  · split
    · exact built_awaitOwner stmt_read ..
    · exact .pure _
  · split
    · exact built_createStepLazily he hc ..
    · exact .pure _

theorem built_startStep {step : StepId} (createsStep : Option String) (owner : Option MessageId) (now : Nat) (starts : Bool)
    (validated : Option StepRow) (he : e = .stepStarted step createsStep owner) :
    Built (Stmt c e l) (Block c e l) (startStep c step createsStep owner now starts validated) := by
  have ht : e.type = .stepStarted := by rw [he]; rfl
  have hc : e.correlationId = some step := by rw [he]; rfl
  refine .transaction (.bind (built_prepareStep ht hc ..) fun _ => .bind (built_awaitRetry ..) fun _ => ?_)
  refine .bind (built_write ⟨step, createsStep, he, rfl, rfl⟩) fun updated => .bind (built_explainStep stmt_read ..) fun row => ?_
  exact .bind (built_appendEvent (.own _ ht.symm hc.symm (by rw [ht]; decide)) _) fun _ => .pure _

theorem built_settleWait {wait : CorrId} (he : e = .waitCompleted wait) (now : Nat) :
    Built (Stmt c e l) (Block c e l) (settleWait c wait now) := by
  refine .bind (built_write ⟨wait, he, rfl⟩) fun updated => ?_
  cases updated with
  | some r => exact .pure _
  | none =>
    refine .bind (built_read rfl) fun existing => ?_
    cases existing with
    | none => exact .throw _
    | some r =>
      simp only
      split
      · exact .throw _
      · exact .pure _

/-! ## Hooks -/

section HookCreation

variable {q : HookCreation}

theorem EventReq.hookCreation_spec (h : e.hookCreation = some q) : e.type = .hookCreated ∧ e.correlationId = some q.hook := by
  cases e <;> simp only [EventReq.hookCreation] at h <;> cases h
  exact ⟨rfl, rfl⟩

/-- The transaction of an ordinary creation. -/
def HookCreation.fresh (c : Ctx) (q : HookCreation) : P (Option HookRow × EventId) :=
  transaction do
    deleteReleasedHooks c q.token
    let inserted : Bool ← sql (.insertHook (q.key c) (q.hookRow c none) .doNothingOnKey)
    let id ← appendEvent c c.key (q.created c none) (HookCreation.couldNotBeCreated "hook_created" c.runId)
    return (if inserted then some (q.hookRow c none) else none, id)

/-- What a creation writes, up to the event of an orphaned row or of a conflict. -/
inductive HookWork (c : Ctx) (q : HookCreation) : (α : Type) → P α → Prop
  | fresh : HookWork c q _ (q.fresh c)
  | take (hook : HookId) (victim : HookRow) (run : Option RunRow) : HookWork c q _ (q.takeFrom c hook victim run)

section Reading

variable {Q : Op → Prop} (hr : ∀ {q : Query}, q.reads = true → Q (.query q))

theorem built_journaledHookCreated {α : Type} {p : P α} (hp : Built Q B p) : Built Q B (q.journaledHookCreated c p) :=
  .tryCatch hp (fun _ _ => .ite (.throw _) (.throw _)) fun _ hc => if_neg fun h => hc (.inr (.inl h))

theorem built_insertFreshHook : Built Q (HookWork c q) (q.insertFreshHook c) :=
  .tryCatch (built_journaledHookCreated (.bind (.block .fresh) fun _ => .pure _)) (fun _ _ => .ite (.pure _) (.throw _))
    fun _ hc => if_neg fun h => hc (.inr (.inr h))

include hr

theorem built_createFresh : Built Q (HookWork c q) (q.createFresh c) := by
  refine .bind built_insertFreshHook fun created => ?_
  cases created with
  | some p => exact .pure _
  | none =>
    refine .bind (.statement _ (hr rfl)) fun owner => ?_
    cases owner with
    | none => exact .throw _
    | some p =>
      simp only
      split
      · exact .throw _
      · exact .pure _

theorem built_takeoverAttempt : Built Q (HookWork c q) (q.takeoverAttempt c) := by
  refine .transaction (.bind (.statement _ (hr rfl)) fun candidate => ?_)
  cases candidate with
  | none => exact .pure _
  | some p =>
    refine .bind (.statement _ (hr rfl)) fun victimRun => .bind (.statement _ (hr rfl)) fun hooks => ?_
    refine .bind (built_lockTokenHook hr ..) fun locked => ?_
    cases locked with
    | none => exact .pure _
    | some v =>
      refine .ite (.throw _) ?_
      unfold HookCreation.takeLocked
      refine .ite (.pure _) ?_
      split
      · exact .ite (.ite (.pure _) (.block (.take ..))) (.ite (.pure _) (.block (.take ..)))
      · exact .block (.take ..)

theorem built_attemptOr {retry : P HookCreation.Takeover} (hretry : Built Q (HookWork c q) retry) :
    Built Q (HookWork c q) (q.attemptOr c retry) :=
  .tryCatch (built_takeoverAttempt hr) (fun _ _ => .ite hretry (.throw _)) fun _ hc => if_neg fun h => hc (h.imp_right .inr)

theorem built_takeover : ∀ left, Built Q (HookWork c q) (q.takeover c left)
  | 0 => built_attemptOr hr (.throw _)
  | left + 1 => built_attemptOr hr (built_takeover left)

theorem built_createForced : Built Q (HookWork c q) (q.createForced c) := by
  refine .bind (built_journaledHookCreated (built_takeover hr _)) fun takeover => ?_
  cases takeover with
  | free => exact built_createFresh hr
  | owned => exact .throw _
  | refused => exact .pure _
  | taken => exact .pure _

theorem built_hookWork : Built Q (HookWork c q) (q.create c) := by
  refine .ite (.throw _) (.bind (.statement _ (hr rfl)) fun existing => ?_)
  cases existing with
  | none => exact built_createFresh hr
  | some p =>
    refine .ite (.bind (.statement _ (hr rfl)) fun journaled => ?_) (.ite (built_createForced hr) (.pure _))
    exact .ite (.throw _) (.bind (.statement _ (hr rfl)) fun _ => .pure _)

end Reading

theorem built_fresh (h : e.hookCreation = some q) : Built (Stmt c e l) (Block c e l) (q.fresh c) := by
  obtain ⟨ht, hc⟩ := EventReq.hookCreation_spec h
  refine .transaction (.bind (built_deleteReleasedHooks (.inr ht)) fun _ => ?_)
  refine .bind (built_write (.inr ⟨q, none, h, rfl, rfl⟩)) fun inserted => ?_
  exact .bind (built_appendEvent (.own _ ht.symm hc.symm (by rw [ht]; decide)) _) fun _ => .pure _

theorem built_takeFrom (h : e.hookCreation = some q) (hook : HookId) (victim : HookRow) (run : Option RunRow) :
    Built (Stmt c e l) (Block c e l) (q.takeFrom c hook victim run) := by
  obtain ⟨ht, hc⟩ := EventReq.hookCreation_spec h
  have hdispose : Built (Stmt c e l) (Block c e l) (q.disposeVictim c hook victim run) := by
    unfold HookCreation.disposeVictim
    split
    · exact .pure _
    · exact .bind (built_appendEvent (.takeover q h ..) _) fun _ => .pure _
  refine .bind hdispose fun _ => .bind (built_write ⟨rfl, .inl ht⟩) fun _ => ?_
  refine .bind (built_write (.inr ⟨q, _, h, rfl, rfl⟩)) fun _ => ?_
  exact .bind (built_appendEvent (.own _ ht.symm hc.symm (by rw [ht]; decide)) _) fun _ => .pure _

theorem built_hookCreation_create (h : e.hookCreation = some q) : Built (Stmt c e l) (Block c e l) (q.create c) := by
  refine (built_hookWork stmt_read).expand (fun _ ho => ho) fun α p hp => ?_
  cases hp with
  | fresh => exact built_fresh h
  | take hook victim run => exact built_takeFrom h hook victim run

theorem built_createHook (h : e.hookCreation = some q) : Built (Stmt c e l) (Block c e l) (createHook c q) := by
  obtain ⟨ht, hc⟩ := EventReq.hookCreation_spec h
  refine .bind (built_hookCreation_create h) fun outcome => ?_
  cases outcome with
  | appended => exact .pure _
  | orphaned => exact .bind (built_journal (.own _ ht.symm hc.symm (by rw [ht]; decide)) _) fun _ => .pure _
  | conflict => exact .bind (built_appendEvent (.conflict _ ht rfl hc.symm) _) fun _ => .pure _

end HookCreation

theorem built_disposeHook {hook : HookId} (he : e.type = .hookDisposed) (hc : e.correlationId = some hook)
    (token : Option Token) : Built (Stmt c e l) (Block c e l) (disposeHook c hook token) := by
  refine .transaction (.bind (built_write ⟨rfl, .inr ⟨he, hc⟩⟩) fun deleted => ?_)
  exact .ite (built_appendEvent (.own _ he.symm hc.symm (by rw [he]; decide)) _) (.throw _)

theorem built_receiveHook {hook : HookId} (he : e.type = .hookReceived) (hc : e.correlationId = some hook)
    (token : Option Token) : Built (Stmt c e l) (Block c e l) (receiveHook c hook token) := by
  refine .transaction (.bind (built_read rfl) fun run => ?_)
  cases run with
  | none => exact .throw _
  | some r =>
    refine .ite (.throw _) (.bind (built_read rfl) fun live => ?_)
    cases live with
    | none => exact built_refuseDelivery stmt_read ..
    | some p => exact built_appendEvent (.own _ he.symm hc.symm (by rw [he]; decide)) _

/-! ## `create` -/

theorem built_apply (now : Nat) (current : Option CurrentRun) : Built (Stmt c e l) (Block c e l) (apply c now current e) := by
  cases e with
  | runCreated i => exact built_createRun rfl
  | runStarted i => exact built_startRun rfl rfl now current
  | runCompleted => exact built_finishRun rfl rfl now
  | runFailed => exact built_finishRun rfl rfl now
  | runCancelled => exact built_finishRun rfl rfl now
  | stepCreated step name =>
    exact .bind (built_write ⟨rfl, rfl, .inl rfl, name, rfl⟩) fun _ => .bind (built_journal (.own _ rfl rfl (by simp [EventReq.type])) _) fun _ => .pure _
  | stepStarted step createsStep owner =>
    exact .bind (built_validateStep stmt_read ..) fun _ => built_startStep _ _ _ _ _ rfl
  | stepRetrying step retryAfter =>
    refine .bind (built_validateStep stmt_read ..) fun _ => .bind (built_write ⟨step, rfl, rfl, rfl⟩) fun _ => ?_
    refine .bind (built_explainStep stmt_read ..) fun _ => ?_
    exact .bind (built_journal (.own _ rfl rfl (by simp [EventReq.type])) _) fun _ => .pure _
  | stepCompleted step =>
    refine .bind (built_write ⟨step, .inl ⟨rfl, rfl⟩, rfl, rfl, rfl⟩) fun _ => .bind (built_explainStep stmt_read ..) fun _ => ?_
    exact .bind (built_journal (.own _ rfl rfl (by simp [EventReq.type])) _) fun _ => .pure _
  | stepFailed step =>
    refine .bind (built_write ⟨step, .inr ⟨rfl, rfl⟩, rfl, rfl, rfl⟩) fun _ => .bind (built_explainStep stmt_read ..) fun _ => ?_
    exact .bind (built_journal (.own _ rfl rfl (by simp [EventReq.type])) _) fun _ => .pure _
  | hookCreated hook token force retention => exact built_createHook rfl
  | hookReceived hook token =>
    exact .bind (built_assertHookExists stmt_read ..) fun _ => .bind (built_receiveHook rfl rfl _) fun _ => .pure _
  | hookDisposed hook token =>
    exact .bind (built_assertHookExists stmt_read ..) fun _ => .bind (built_disposeHook rfl rfl _) fun _ => .pure _
  | waitCreated wait resumeAt =>
    refine .bind (built_write ⟨wait, resumeAt, rfl, rfl, rfl⟩) fun _ => .ite ?_ (.throw _)
    exact .bind (built_journal (.own _ rfl rfl (by simp [EventReq.type])) _) fun _ => .pure _
  | waitCompleted wait =>
    exact .bind (built_settleWait rfl now) fun _ => .bind (built_journal (.own _ rfl rfl (by simp [EventReq.type])) _) fun _ => .pure _
  | attrSet id changes byWorkflow allowReserved => exact built_setAttributes _ _ _ _ rfl rfl

theorem built_applyOnTerminal (now : Nat) (current : CurrentRun) :
    Built (Stmt c e l) (Block c e l) (applyOnTerminal c now current e) := by
  unfold applyOnTerminal
  split
  · exact .ite (built_cancelAgain rfl rfl) (.throw _)
  · exact .throw _
  · exact .throw _
  · exact .throw _
  · exact .throw _
  · exact .ite (.throw _) (built_apply now _)

theorem built_handleLegacyEvent (now : Nat) (specVersion : Option Nat) :
    Built (Stmt c e true) (Block c e true) (handleLegacyEvent c e now specVersion) := by
  refine .bind (built_read rfl) fun ulid => ?_
  split
  · refine .bind (built_write ⟨rfl, rfl, rfl⟩) fun _ => .bind (built_releaseRun rfl _) fun _ => ?_
    exact .bind (built_read rfl) fun _ => .pure _
  · exact .block (.legacy rfl _ _ rfl rfl)
  · refine .transaction (.bind (built_read rfl) fun run => ?_)
    cases run with
    | none => exact .throw _
    | some r => exact .ite (.throw _) (.block (.legacy rfl _ _ rfl rfl))
  · exact .throw _

theorem built_createOnRun : Built (Stmt c e true) (Block c e true) (createOnRun c e) := by
  refine .bind built_clock fun now => .bind built_readCurrentRun fun current => ?_
  cases current with
  | some run =>
    refine .ite (.throw _) (.ite (built_handleLegacyEvent ..) (.ite (built_applyOnTerminal ..) (built_apply ..)))
  | none =>
    simp only
    split
    · exact .throw _
    · exact built_apply ..

/-- The parts of a request's work on its run: what it reads the run for, and what it does on it. -/
inductive Work (c : Ctx) (e : EventReq) : (α : Type) → P α → Prop
  | current : Work c e _ (readCurrentRun c e)
  | legacy (now : Nat) (specVersion : Option Nat) : Work c e _ (handleLegacyEvent c e now specVersion)
  | terminal (now : Nat) (current : CurrentRun) : Work c e _ (applyOnTerminal c now current e)
  | apply (now : Nat) (current : Option CurrentRun) : Work c e _ (apply c now current e)

theorem built_work {Q : Op → Prop} : Built Q (Work c e) (createOnRun c e) := by
  refine .bind (.clock _ fun _ => .pure _) fun now => .bind (.block .current) fun current => ?_
  cases current with
  | some run => exact .ite (.throw _) (.ite (.block (.legacy ..)) (.ite (.block (.terminal ..)) (.block (.apply ..))))
  | none =>
    simp only
    split
    · exact .throw _
    · exact .block (.apply ..)

end Shape

/-! ## The blocks -/

/-- The `run_created` of a new run. -/
def RunInput.firstEvent (i : RunInput) (c : Ctx) : EventInsert :=
  ⟨.slot firstEventSlot, .runCreated, none, i.created c, c.specVersion, none, c.me⟩

/-- The statements of an append. -/
def AppendStmt (c : Ctx) (k : RunKey) (v : EventValues) : Op → Prop
  | .query q => q.reads = true ∨ (∃ id occurredAt, q = .insertEvent k (v.insert id occurredAt c.me) .doNothingOnKey) ∨
      ∃ f, c.fence = some f ∧ k = (f.tenant, f.runId) ∧ q = .advanceSlots k f.expected
  | .store _ => ∃ f, c.fence = some f ∧ k = (f.tenant, f.runId)
  | _ => False

/-- The statements of a new run's rows. -/
def CreationStmt (c : Ctx) (i : RunInput) : Op → Prop
  | .query q => q = .insertRun c.key (i.row c) ∨ q = .insertSlots c.key ∨ q = .insertEvent c.key (i.firstEvent c) .raise
  | _ => False

/-- No blocks. -/
abbrev NoBlock : (α : Type) → P α → Prop := fun _ _ => False

section Blocks

variable {c : Ctx} {k : RunKey} {v : EventValues}

theorem fenceFor_spec {consumed : Bool} {f : PendingFence} (h : c.fenceFor k consumed = some f) :
    c.fence = some f ∧ k = (f.tenant, f.runId) ∧ consumed = false := by
  unfold Ctx.fenceFor at h
  rw [Option.filter_eq_some_iff] at h
  obtain ⟨h1, h2⟩ := h
  simp only [Bool.and_eq_true, decide_eq_true_eq, Bool.not_eq_true'] at h2
  exact ⟨h1, Prod.ext h2.1.2.symm h2.2.symm, h2.1.1⟩

theorem plain_advanceFence {f : PendingFence} (h : c.fence = some f) (hk : k = (f.tenant, f.runId)) :
    (advanceFence f).All (Op.Plain (AppendStmt c k v)) := by
  refine .bind (plain_statement _ (.inr (.inr ⟨f, h, hk, by rw [hk]⟩))) fun advanced => .ite trivial ?_
  refine .bind (plain_statement _ (.inl rfl)) fun current => ?_
  cases current <;> trivial

theorem plain_insertAtNextSlot {consumed : Bool} {retry : P (Option EventId)}
    (hr : retry.All (Op.Plain (AppendStmt c k v))) :
    (insertAtNextSlot c k v (c.fenceFor k consumed) retry).All (Op.Plain (AppendStmt c k v)) := by
  refine .bind (plain_statement _ (.inl rfl)) fun m => .bind (plain_statement _ (.inr (.inl ⟨_, _, rfl⟩))) fun inserted => ?_
  refine .ite ?_ hr
  cases hf : c.fenceFor k consumed with
  | none => trivial
  | some f =>
    obtain ⟨h1, h2, -⟩ := fenceFor_spec hf
    exact ⟨⟨f, h1, h2⟩, fun _ => .bind (plain_advanceFence h1 h2) fun _ => trivial⟩

theorem plain_insertAtSlot {consumed : Bool} : ∀ attempts,
    (insertAtSlot c k v (c.fenceFor k consumed) attempts).All (Op.Plain (AppendStmt c k v))
  | 0 => plain_insertAtNextSlot trivial
  | attempts + 1 => plain_insertAtNextSlot (plain_insertAtSlot attempts)

theorem plain_insertEventRow (alloc : Alloc) : (insertEventRow c k v alloc).All (Op.Plain (AppendStmt c k v)) := by
  cases alloc with
  | ulid u => exact .bind (plain_statement _ (.inr (.inl ⟨_, _, rfl⟩))) fun _ => trivial
  | slot => exact ⟨trivial, fun consumed => plain_insertAtSlot _⟩

/-- An append is a sequence of statements, without a savepoint of its own. -/
theorem plain_tryAppend : (tryAppend c k v).All (Op.Plain (AppendStmt c k v)) :=
  .bind (plain_statement _ (.inl rfl)) fun alloc => plain_insertEventRow alloc

theorem built_tryAppend : Built (AppendStmt c k v) NoBlock (tryAppend c k v) := .of_plain plain_tryAppend

theorem built_insertRunRow (i : RunInput) :
    Built (CreationStmt c i) NoBlock (insertRunRow c (i.row c) (i.created c)) := by
  refine .bind (.statement _ (.inl rfl)) fun inserted => .ite ?_ (.pure _)
  refine .bind (.statement _ (.inr (.inl rfl))) fun _ => ?_
  exact .bind (.statement _ (.inr (.inr rfl))) fun _ => .pure _

/-- The transaction of a new run, around its rows. -/
inductive RowsBlock (c : Ctx) (i : RunInput) : (α : Type) → P α → Prop
  | mk : RowsBlock c i _ (insertRunRow c (i.row c) (i.created c))

theorem built_insertAdmittedRun {e : EventReq} {l : Bool} {i : RunInput} (h : e.input = some i) :
    Built (Stmt c e l) (RowsBlock c i) (insertAdmittedRun c (i.row c) (i.created c) i.startHook) := by
  cases hs : i.startHook with
  | none => exact .bind (.block .mk) fun _ => .pure _
  | some hook =>
    refine .bind (built_decideStartHookAdmission (by rw [EventReq.startHook_eq h, hs])) fun decision => ?_
    exact .ite (.bind (.block .mk) fun _ => .pure _) (.pure _)

end Blocks

/-! ## All of it, with the blocks opened -/

/-- The writing statements of the blocks. -/
def Query.AppendedBy (c : Ctx) (e : EventReq) (legacy : Bool) : Query → Prop
  | .insertRun k r => ∃ i, e.input = some i ∧ k = c.key ∧ r = i.row c
  | .insertSlots k => k = c.key ∧ e.input.isSome = true
  | .insertEvent k v onConflict =>
    (∃ v' id occurredAt, Journals c e k v' ∧ v = v'.insert id occurredAt c.me ∧ onConflict = .doNothingOnKey) ∨
    (∃ i, e.input = some i ∧ k = c.key ∧ v = i.firstEvent c ∧ onConflict = .raise) ∨
    (legacy = true ∧ k = c.key ∧ v.type = e.type ∧ v.correlationId = e.correlationId ∧ v.writer = c.me)
  | .advanceSlots k expected => ∃ f, c.fence = some f ∧ k = (f.tenant, f.runId) ∧ expected = f.expected
  | _ => False

/-- The type of an event that a request appends. -/
theorem Query.AppendedBy.type {c : Ctx} {e : EventReq} {l : Bool} {k : RunKey} {v : EventInsert} {oc : OnConflict}
    (h : (Query.insertEvent k v oc).AppendedBy c e l) : v.type = e.type ∨ v.type = .stepCreated ∧ e.type = .stepStarted ∨
      v.type = .hookConflict ∧ e.type = .hookCreated ∨ v.type = .hookDisposed ∧ e.type = .hookCreated ∨
      v.type = .runCreated ∧ e.input.isSome = true := by
  rcases h with ⟨v', id, at', hj, rfl, -⟩ | ⟨i, hi, -, rfl, -⟩ | ⟨-, -, ht, -⟩
  · cases hj with
    | own _ ht => exact .inl ht
    | lazily _ he ht => exact .inr (.inl ⟨ht, he⟩)
    | conflict _ he ht => exact .inr (.inr (.inl ⟨ht, he⟩))
    | takeover q he hook run r =>
      refine .inr (.inr (.inr (.inl ⟨rfl, ?_⟩)))
      cases e <;> first | rfl | cases he
  · exact .inr (.inr (.inr (.inr ⟨rfl, by rw [hi]; rfl⟩)))
  · exact .inl ht

/-- Every operation of a request's work on its run. -/
def Issued (c : Ctx) (e : EventReq) (legacy : Bool) : Op → Prop
  | .query q => q.reads = true ∨ q.WrittenBy c e legacy ∨ q.AppendedBy c e legacy
  | .store _ => c.fence.isSome = true
  | _ => False

section Issued

variable {c : Ctx} {e : EventReq} {l : Bool}

theorem issued_stmt {o : Op} (h : Stmt c e l o) : Issued c e l o := by
  cases o with
  | query q => exact h.elim .inl fun h => .inr (.inl h)
  | _ => exact h.elim

theorem issued_block {α : Type} {p : P α} (h : Block c e l α p) : Built (Issued c e l) NoBlock p := by
  cases h with
  | @append k v hj =>
    refine built_tryAppend.expand (fun o ho => ?_) fun _ _ h => h.elim
    cases o with
    | query q =>
      rcases ho with h | ⟨id, at', rfl⟩ | ⟨f, h1, h2, rfl⟩
      · exact .inl h
      · exact .inr (.inr (.inl ⟨v, id, at', hj, rfl, rfl⟩))
      · exact .inr (.inr ⟨f, h1, h2, rfl⟩)
    | store m =>
      obtain ⟨f, hf, -⟩ := ho
      show c.fence.isSome = true
      rw [hf]; rfl
    | _ => exact ho.elim
  | @run i hi =>
    refine .transaction ((built_insertAdmittedRun (l := l) hi).expand ?_ ?_)
    · exact fun o ho => issued_stmt ho
    · rintro _ _ ⟨⟩
      refine (built_insertRunRow i).expand (fun o ho => ?_) fun _ _ h => h.elim
      cases o with
      | query q =>
        rcases ho with rfl | rfl | rfl
        · exact .inr (.inr ⟨i, hi, rfl, rfl⟩)
        · exact .inr (.inr ⟨rfl, by rw [hi]; rfl⟩)
        · exact .inr (.inr (.inr (.inl ⟨i, hi, rfl, rfl, rfl⟩)))
      | _ => exact ho.elim
  | legacy hl u v ht hc =>
    exact .bind (.statement _ (.inr (.inr (.inr (.inr ⟨hl, rfl, ht, hc, rfl⟩))))) fun _ => .pure _

/-- A shape with its blocks opened. -/
theorem issued {α : Type} {p : P α} (h : Built (Stmt c e l) (Block c e l) p) : Built (Issued c e l) NoBlock p :=
  h.expand (fun _ => issued_stmt) fun _ _ => issued_block

/-! ## Candidates -/

/-- The transaction that creates a run, and decides its candidate first. -/
inductive Creates (c : Ctx) : (α : Type) → P α → Prop
  | mk (i : RunInput) : Creates c _ (insertRunWithCreatedEvent c (i.row c) (i.created c) i.startHook)

theorem built_runInput_creates {Q : Op → Prop} (i : RunInput) : Built Q (Creates c) (i.create c) := by
  refine .bind (built_validateAttributes ..) fun _ => .bind (.block (.mk i)) fun inserted => ?_
  split
  · exact .throw _
  · exact .pure _

section Candidates

variable {Q : Op → Prop} {B : (α : Type) → P α → Prop} (hr : ∀ {q : Query}, q.reads = true → Q (.query q))

include hr

/-- A request that can create its run: the creation, and then a start that carries nothing. -/
theorem built_createOnRun_creating {i : RunInput} (hi : e.input = some i) (hcreate : Built Q B (i.create c))
    (hstart : ∀ o, Issued c (.runStarted none) true o → Q o) : Built Q B (createOnRun c e) := by
  cases e with
  | runCreated i =>
    cases hi
    show Built Q B (clock >>= fun _ => createRun c i)
    exact .bind (.clock _ fun _ => .pure _) fun _ => built_createRun_of hr hcreate
  | runStarted i =>
    cases hi
    have hstart : ∀ now current, Built Q B (startRun c now current) := fun now current =>
      (issued (built_startRun (e := .runStarted none) rfl rfl now current)).expand hstart fun _ _ h => h.elim
    refine .bind (.clock _ fun _ => .pure _) fun now => .bind (built_resilientRead hr hcreate) fun current => ?_
    cases current with
    | none => exact hstart now none
    | some run =>
      have hlegacy : Built Q B (handleLegacyEvent c (.runStarted (some i)) now run.specVersion) :=
        .bind (.statement _ (hr rfl)) fun _ => .throw _
      exact .ite (.throw _) (.ite hlegacy (.ite (.throw _) (hstart now (some run))))
  | _ => cases hi

/-- A request decides a candidate, and writes its start Hook, in the transaction that creates its run, if at all. -/
theorem built_createOnRun_creates (e : EventReq) (hq : ∀ (e : EventReq) (o : Op), e.startHook = none →
      (∀ q, e.hookCreation = some q → c.deps.isStartHookId c.runId q.hook = false) → Issued c e true o → Q o) :
    Built Q (Creates c) (createOnRun c e) := by
  have hother : e.startHook = none → (∀ q, e.hookCreation = some q → c.deps.isStartHookId c.runId q.hook = false) →
      Built Q (Creates c) (createOnRun c e) :=
    fun hs hid => (issued built_createOnRun).expand (fun o => hq e o hs hid) fun _ _ h => h.elim
  have hcreating : ∀ {i}, e.input = some i → Built Q (Creates c) (createOnRun c e) := fun hi =>
    built_createOnRun_creating hr hi (built_runInput_creates _) fun o => hq _ o rfl fun _ h => by cases h
  cases e with
  | runCreated i => exact hcreating rfl
  | runStarted i =>
    cases i with
    | none => exact hother rfl fun _ h => by cases h
    | some i => exact hcreating rfl
  | hookCreated hook token force retention =>
    by_cases hid : c.deps.isStartHookId c.runId hook = true
    · -- refused before anything is written
      have hrefused : Built Q (Creates c) (createHook c ⟨hook, token, force, retention⟩) := by
        unfold createHook HookCreation.create
        rw [if_pos hid]
        exact .throw _
      refine .bind (.clock _ fun _ => .pure _) fun now => .bind (built_getRunForValidation hr _) fun current => ?_
      cases current with
      | none => exact hrefused
      | some run =>
        have hlegacy : Built Q (Creates c) (handleLegacyEvent c (.hookCreated hook token force retention) now run.specVersion) :=
          .bind (.statement _ (hr rfl)) fun _ => .throw _
        exact .ite (.throw _) (.ite hlegacy (.ite (.throw _) hrefused))
    · exact hother rfl fun q hq' => by cases hq'; exact Bool.eq_false_iff.2 hid
  | _ => exact hother rfl fun _ h => by cases h

end Candidates

end Issued

end WorkflowWorld
