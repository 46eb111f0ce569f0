/-
Every statement of a request names the request's tenant, whatever the statements before it answered; the
delete of old decisions, which names none, takes only those that have reached the age.
-/
import WorkflowWorld.Storage.Tenants

namespace WorkflowWorld

open Concurrency Schema

/-- What the program issues stays with the context's tenant. -/
abbrev Ctx.Keeps (c : Ctx) {α : Type} (p : P α) : Prop := Issues (S := schema) (fun now q => Query.Scoped c.deps c.tenant now q) p

variable {c : Ctx}

theorem keeps_sql {q : Query} (hq : q.tenant = some c.tenant) : c.Keeps (sql q) := by
  refine .statement _ fun now => ⟨fun T hT => ?_, fun cutoff h => ?_⟩
  · exact Option.some.inj (hT.symm.trans hq)
  · subst h
    cases hq

theorem keeps_unnamed {q : Query} (hq : q = .legacyEventUlid ∨ ∃ m, q = .deliveryInFlight m) : c.Keeps (sql q) := by
  refine .statement _ fun now => ⟨fun T hT => ?_, fun cutoff h => ?_⟩ <;> rcases hq with rfl | ⟨m, rfl⟩
  · cases hT
  · cases hT
  · cases h
  · cases h

theorem keeps_clock : c.Keeps clock := .clock fun _ => trivial

/-! ## The log -/

section Log

variable (hf : ∀ f, c.fence = some f → f.tenant = c.tenant) {k : RunKey} (hk : k.1 = c.tenant)

theorem keeps_advanceFence {f : PendingFence} (h : f.tenant = c.tenant) : c.Keeps (advanceFence f) := by
  refine .bind (keeps_sql (congrArg some h)) fun advanced => .ite (.pure _) ?_
  refine .bind (keeps_sql (congrArg some h)) fun current => ?_
  cases current with
  | none => exact .pure _
  | some m => exact .throw _

include hk

theorem keeps_insertAtNextSlot {v : EventValues} {fence : Option PendingFence} (h : ∀ f, fence = some f → f.tenant = c.tenant)
    {retry : P (Option EventId)} (hretry : c.Keeps retry) : c.Keeps (insertAtNextSlot c k v fence retry) := by
  refine .bind (keeps_sql (congrArg some hk)) fun m => .bind (keeps_sql (congrArg some hk)) fun inserted => .ite ?_ hretry
  cases fence with
  | none => exact .pure _
  | some f => exact .store (.bind (keeps_advanceFence (h f rfl)) fun _ => .pure _)

theorem keeps_insertAtSlot {v : EventValues} {fence : Option PendingFence} (h : ∀ f, fence = some f → f.tenant = c.tenant) :
    ∀ attempts, c.Keeps (insertAtSlot c k v fence attempts)
  | 0 => keeps_insertAtNextSlot hk h (.throw _)
  | attempts + 1 => keeps_insertAtNextSlot hk h (keeps_insertAtSlot h attempts)

include hf

theorem keeps_tryAppend (v : EventValues) : c.Keeps (tryAppend c k v) := by
  refine .bind (keeps_sql (congrArg some hk)) fun alloc => ?_
  cases alloc with
  | ulid u => exact .bind (keeps_sql (congrArg some hk)) fun _ => .pure _
  | slot =>
    refine .load fun consumed => keeps_insertAtSlot hk (fun f h => hf f ?_) _
    exact (Option.filter_eq_some_iff.1 h).1

theorem keeps_appendEvent (v : EventValues) (message : String) : c.Keeps (appendEvent c k v message) := by
  refine .bind (keeps_tryAppend hf hk v) fun inserted => ?_
  cases inserted with
  | some id => exact .pure _
  | none => exact .throw _

omit hk

theorem keeps_journal (v : EventValues) (dedup : Bool) : c.Keeps (journal c v dedup) :=
  .tryCatch (keeps_appendEvent hf rfl v _) fun _ => .ite (.throw _) (.throw _)

end Log

/-! ## Admission and creation of runs -/

section Creation

variable {h : StartHook}

theorem keeps_recordedDecision : c.Keeps (recordedDecision c h) := by
  refine .bind (keeps_sql rfl) fun existing => ?_
  cases existing with
  | none => exact .pure _
  | some a =>
    refine .ite (.throw _) ?_
    split <;> exact .pure _

theorem keeps_recordDecision (decision : Decision) : c.Keeps (recordDecision c h decision) := by
  refine .bind (keeps_sql rfl) fun inserted => .ite (.pure _) (.bind keeps_recordedDecision fun recorded => ?_)
  cases recorded with
  | none => exact .throw _
  | some r => exact .ite (.throw _) (.pure _)

/-- The age of what is deleted is counted back from the clock's reading. -/
theorem keeps_deleteExpiredDecisions : c.Keeps (deleteExpiredDecisions c.deps) := by
  refine .clock fun now => ⟨⟨nofun, fun cutoff h => ?_⟩, fun r => ?_⟩
  · exact (Query.deleteExpiredDecisions.inj h).ge
  · cases r <;> trivial

theorem keeps_deleteReleasedHooks (token : Token) : c.Keeps (deleteReleasedHooks c token) :=
  .bind (keeps_sql rfl) fun _ => keeps_sql rfl

theorem keeps_claimStartHook : c.Keeps (claimStartHook c h) := by
  refine .bind (keeps_sql rfl) fun owner => ?_
  cases owner with
  | some o => exact .pure _
  | none => exact .bind (keeps_sql rfl) fun _ => .pure _

theorem keeps_refuseCandidate (owner : Option RunId) : c.Keeps (refuseCandidate c h owner) := by
  refine .bind keeps_recordedDecision fun raced => ?_
  cases raced with
  | some r => exact .pure _
  | none =>
    have hfound : c.Keeps (conflictingRun c h owner) := by
      cases owner with
      | some o => exact .pure _
      | none => exact keeps_sql rfl
    refine .bind hfound fun conflicting => ?_
    cases conflicting with
    | none => exact .throw _
    | some o => exact keeps_recordDecision _

theorem keeps_decideStartHookAdmission : c.Keeps (decideStartHookAdmission c h) := by
  have hadmit : c.Keeps (admitCandidate c h) := by
    refine .bind keeps_deleteExpiredDecisions fun _ => .bind (keeps_deleteReleasedHooks _) fun _ => ?_
    exact .bind keeps_claimStartHook fun claim => .ite (keeps_recordDecision _) (keeps_refuseCandidate _)
  refine .bind keeps_recordedDecision fun recorded => ?_
  cases recorded with
  | some r => exact .pure _
  | none =>
    refine .bind keeps_clock fun now => .ite (.throw _) (.bind (keeps_sql rfl) fun run => ?_)
    exact .ite (.pure _) hadmit

theorem keeps_insertRunRow (row : RunRow) (data : EventData) : c.Keeps (insertRunRow c row data) := by
  refine .bind (keeps_sql rfl) fun inserted => .ite ?_ (.pure _)
  exact .bind (keeps_sql rfl) fun _ => .bind (keeps_sql rfl) fun _ => .pure _

theorem keeps_insertRunWithCreatedEvent (row : RunRow) (data : EventData) (startHook : Option StartHook) :
    c.Keeps (insertRunWithCreatedEvent c row data startHook) := by
  refine .transaction ?_
  cases startHook with
  | none => exact .bind (keeps_insertRunRow ..) fun _ => .pure _
  | some h =>
    refine .bind keeps_decideStartHookAdmission fun decision => .ite ?_ (.pure _)
    exact .bind (keeps_insertRunRow ..) fun _ => .pure _

theorem keeps_getRunForValidation : c.Keeps (getRunForValidation c.key) := .bind (keeps_sql rfl) fun _ => .pure _

theorem keeps_validateAttributes (changes : List AttributeChange) (existing : List String) (allowReserved : Bool) :
    c.Keeps (validateAttributes c.deps changes existing allowReserved) := by
  unfold validateAttributes
  split
  · exact .pure _
  · exact .throw _

theorem keeps_runInput (i : RunInput) : c.Keeps (i.create c) := by
  refine .bind (keeps_validateAttributes ..) fun _ => .bind (keeps_insertRunWithCreatedEvent ..) fun inserted => ?_
  split
  · exact .throw _
  · exact .pure _

theorem keeps_createRun (i : RunInput) : c.Keeps (createRun c i) := by
  refine .bind (keeps_runInput i) fun created => ?_
  cases created with
  | some p => exact .pure _
  | none =>
    refine .ite (.bind (keeps_sql rfl) fun run => .bind (keeps_sql rfl) fun event => ?_) (.throw _)
    split
    · exact .pure _
    · exact .throw _

theorem keeps_readCurrentRun (e : EventReq) : c.Keeps (readCurrentRun c e) := by
  unfold readCurrentRun
  split
  · exact .pure _
  · exact .pure _
  · exact .pure _
  · refine .bind keeps_getRunForValidation fun run => ?_
    cases run with
    | some r => exact .pure _
    | none =>
      refine .ite (.bind (keeps_runInput _) fun created => ?_) (.pure _)
      cases created with
      | some p => exact .pure _
      | none => exact keeps_getRunForValidation
  · exact keeps_getRunForValidation

end Creation

section Apply

variable (hf : ∀ f, c.fence = some f → f.tenant = c.tenant)

/-! ## Run transitions -/

theorem keeps_releaseRun (all : Bool) : c.Keeps (releaseRun c all) := by
  refine .bind (keeps_sql rfl) fun hooks => .bind (keeps_sql rfl) fun _ => ?_
  exact .bind (keeps_sql rfl) fun waits => keeps_sql rfl

theorem keeps_settleRun (status : RunStatus) (now : Nat) : c.Keeps (settleRun c status now) := by
  refine .bind (keeps_sql rfl) fun updated => ?_
  cases updated with
  | some r => exact .pure _
  | none =>
    refine .bind keeps_getRunForValidation fun existing => ?_
    cases existing with
    | none => exact .throw _
    | some r => exact .ite (.throw _) (.pure _)

include hf

theorem keeps_startRun (now : Nat) (current : Option CurrentRun) : c.Keeps (startRun c now current) := by
  have hread : c.Keeps (readRunning c current) := .ite (keeps_sql rfl) (.pure _)
  refine .bind hread fun running => ?_
  cases running with
  | some r => exact .pure _
  | none => exact .bind (keeps_sql rfl) fun _ => .bind (keeps_journal hf ..) fun _ => .pure _

theorem keeps_finishRun (type : EventType) (status : RunStatus) (now : Nat) : c.Keeps (finishRun c type status now) := by
  refine .bind (keeps_settleRun ..) fun run => .bind (keeps_releaseRun _) fun _ => ?_
  exact .bind (keeps_journal hf ..) fun _ => .pure _

theorem keeps_cancelAgain : c.Keeps (cancelAgain c) :=
  .bind (keeps_sql rfl) fun _ => .bind (keeps_appendEvent hf rfl ..) fun _ => .pure _

theorem keeps_setAttributes (id : Option CorrId) (changes : List AttributeChange) (byWorkflow allowReserved : Bool) :
    c.Keeps (setAttributes c id changes byWorkflow allowReserved) := by
  have hdup : c.Keeps (attributesJournaled c byWorkflow id) := by
    cases id with
    | none => exact .pure _
    | some id => exact .ite (keeps_sql rfl) (.pure _)
  refine .bind hdup fun duplicate => .ite (.throw _) (.bind (keeps_sql rfl) fun existing => ?_)
  cases existing with
  | none => exact .throw _
  | some r =>
    refine .bind (keeps_validateAttributes ..) fun _ => .bind (keeps_sql rfl) fun updated => ?_
    cases updated with
    | some run => exact .bind (keeps_journal hf ..) fun _ => .pure _
    | none =>
      refine .bind (keeps_sql rfl) fun still => ?_
      cases still <;> exact .throw _

/-! ## Steps and waits -/

omit hf in
theorem keeps_explainStep (step : StepId) (updated : Option StepRow) : c.Keeps (explainStep c step updated) := by
  cases updated with
  | some r => exact .pure _
  | none =>
    refine .bind (keeps_sql rfl) fun existing => ?_
    cases existing with
    | none => exact .throw _
    | some r => exact .ite (.throw _) (.pure _)

theorem keeps_createStep (step : StepId) (name : String) : c.Keeps (createStep c step name) :=
  .bind (keeps_sql rfl) fun _ => .bind (keeps_journal hf ..) fun _ => .pure _

theorem keeps_createStepLazily (step : StepId) (name : String) (startCreatesStep : Bool) :
    c.Keeps (createStepLazily c step name startCreatesStep) := by
  refine .bind (keeps_sql rfl) fun inserted => .ite (.ite (.pure _) ?_) (.throw _)
  exact .tryCatch (.bind (keeps_tryAppend hf rfl _) fun _ => .pure _) fun _ => .ite (.pure _) (.throw _)

omit hf in
theorem keeps_awaitOwner (step : StepId) (owner : Option MessageId) (now : Nat) : c.Keeps (awaitOwner c step owner now) := by
  refine .bind (keeps_sql rfl) fun current => ?_
  cases current with
  | none => exact .pure _
  | some r =>
    simp only
    split
    · exact .pure _
    · exact .bind (keeps_unnamed (.inr ⟨_, rfl⟩)) fun inFlight => .ite (.throw _) (.pure _)

omit hf in
theorem keeps_awaitRetry (step : StepId) (retryAfter : Option Nat) : c.Keeps (awaitRetry step retryAfter) := by
  cases retryAfter with
  | none => exact .pure _
  | some u => exact .bind keeps_clock fun _ => .ite (.bind keeps_clock fun _ => .throw _) (.pure _)

theorem keeps_startStep (step : StepId) (createsStep : Option String) (owner : Option MessageId) (now : Nat)
    (startCreatesStep : Bool) (validated : Option StepRow) :
    c.Keeps (startStep c step createsStep owner now startCreatesStep validated) := by
  have hprepare : c.Keeps (prepareStep c step createsStep owner now startCreatesStep validated) := by
    cases validated with
    | some r => exact .ite (keeps_awaitOwner ..) (.pure _)
    | none =>
      cases createsStep with
      | some name => exact keeps_createStepLazily hf ..
      | none => exact .pure _
  refine .transaction (.bind hprepare fun _ => .bind (keeps_awaitRetry ..) fun _ => .bind (keeps_sql rfl) fun updated => ?_)
  exact .bind (keeps_explainStep ..) fun row => .bind (keeps_appendEvent hf rfl ..) fun _ => .pure _

theorem keeps_finishStep (type : EventType) (step : StepId) (status : StepStatus) (now : Nat) :
    c.Keeps (finishStep c type step status now) := by
  refine .bind (keeps_sql rfl) fun _ => .bind (keeps_explainStep ..) fun _ => ?_
  exact .bind (keeps_journal hf ..) fun _ => .pure _

theorem keeps_retryStep (step : StepId) (retryAfter : Option Nat) : c.Keeps (retryStep c step retryAfter) := by
  refine .bind (keeps_sql rfl) fun _ => .bind (keeps_explainStep ..) fun _ => ?_
  exact .bind (keeps_journal hf ..) fun _ => .pure _

omit hf in
theorem keeps_validateStep (current : Option CurrentRun) (step : StepId) (isLazy : Bool) :
    c.Keeps (validateStep c current step isLazy) := by
  refine .bind (keeps_sql rfl) fun existing => ?_
  cases existing with
  | none => exact .ite (.pure _) (.throw _)
  | some r =>
    refine .ite (.throw _) (.ite (.throw _) ?_)
    cases current with
    | none => exact .pure _
    | some run => exact .ite (.throw _) (.pure _)

theorem keeps_createWait (wait : CorrId) (resumeAt : Option Nat) : c.Keeps (createWait c wait resumeAt) := by
  refine .bind (keeps_sql rfl) fun inserted => .ite ?_ (.throw _)
  exact .bind (keeps_journal hf ..) fun _ => .pure _

theorem keeps_completeWait (wait : CorrId) (now : Nat) : c.Keeps (completeWait c wait now) := by
  have hsettle : c.Keeps (settleWait c wait now) := by
    refine .bind (keeps_sql rfl) fun updated => ?_
    cases updated with
    | some r => exact .pure _
    | none =>
      refine .bind (keeps_sql rfl) fun existing => ?_
      cases existing with
      | none => exact .throw _
      | some r => exact .ite (.throw _) (.pure _)
  exact .bind hsettle fun _ => .bind (keeps_journal hf ..) fun _ => .pure _

/-! ## Hooks -/

omit hf in
theorem keeps_refuseDelivery {α : Type} (hook : HookId) (token : Option Token) : c.Keeps (refuseDelivery c hook token : P α) := by
  have hrefusal : c.Keeps (forceClaimRefusal c hook token) := by
    refine .bind (keeps_sql rfl) fun disposal => ?_
    split
    · split
      · exact .pure _
      · refine .bind (keeps_sql rfl) fun successor => ?_
        split <;> exact .pure _
    · exact .pure _
  refine .bind hrefusal fun refusal => ?_
  cases refusal <;> exact .throw _

section HookCreation

variable {q : HookCreation}

omit hf in
theorem keeps_journaledHookCreated {α : Type} {write : P α} (h : c.Keeps write) : c.Keeps (q.journaledHookCreated c write) :=
  .tryCatch h fun _ => .ite (.throw _) (.throw _)

theorem keeps_createFresh : c.Keeps (q.createFresh c) := by
  have hinsert : c.Keeps (q.insertFreshHook c) := by
    refine .tryCatch (keeps_journaledHookCreated ?_) fun _ => .ite (.pure _) (.throw _)
    refine .bind (.transaction ?_) fun _ => .pure _
    refine .bind (keeps_deleteReleasedHooks _) fun _ => .bind (keeps_sql rfl) fun inserted => ?_
    exact .bind (keeps_appendEvent hf rfl ..) fun _ => .pure _
  refine .bind hinsert fun created => ?_
  cases created with
  | some p => exact .pure _
  | none =>
    refine .bind (keeps_sql rfl) fun owner => ?_
    cases owner with
    | none => exact .throw _
    | some p => exact .ite (.throw _) (.pure _)

omit hf in
theorem keeps_lockTokenHook (token : Token) : ∀ hooks, c.Keeps (HookCreation.lockTokenHook c.tenant token hooks)
  | [] => .pure _
  | h :: hs => by
    refine .bind (keeps_sql rfl) fun locked => ?_
    cases locked with
    | some p => exact .pure _
    | none => exact keeps_lockTokenHook token hs

theorem keeps_takeFrom (hook : HookId) (victim : HookRow) (run : Option RunRow) : c.Keeps (q.takeFrom c hook victim run) := by
  have hdispose : c.Keeps (q.disposeVictim c hook victim run) := by
    unfold HookCreation.disposeVictim
    split
    · exact .pure _
    · exact .bind (keeps_appendEvent hf rfl ..) fun _ => .pure _
  refine .bind hdispose fun _ => .bind (keeps_sql rfl) fun _ => .bind (keeps_sql rfl) fun _ => ?_
  exact .bind (keeps_appendEvent hf rfl ..) fun _ => .pure _

theorem keeps_takeLocked (hook : HookId) (victim : HookRow) (retained : Bool) (run : Option RunRow) :
    c.Keeps (q.takeLocked c hook victim retained run) := by
  refine .ite (.pure _) ?_
  cases run with
  | none => exact keeps_takeFrom hf ..
  | some r => exact .ite (.ite (.pure _) (keeps_takeFrom hf ..)) (.ite (.pure _) (keeps_takeFrom hf ..))

theorem keeps_takeoverAttempt : c.Keeps (q.takeoverAttempt c) := by
  refine .transaction (.bind (keeps_sql rfl) fun candidate => ?_)
  cases candidate with
  | none => exact .pure _
  | some p =>
    refine .bind (keeps_sql rfl) fun victimRun => .bind (keeps_sql rfl) fun hooks => .bind (keeps_lockTokenHook ..) fun locked => ?_
    cases locked with
    | none => exact .pure _
    | some l => exact .ite (.throw _) (keeps_takeLocked hf ..)

theorem keeps_takeover : ∀ left, c.Keeps (q.takeover c left)
  | 0 => .tryCatch (keeps_takeoverAttempt hf) fun _ => .ite (.throw _) (.throw _)
  | left + 1 => .tryCatch (keeps_takeoverAttempt hf) fun _ => .ite (keeps_takeover left) (.throw _)

theorem keeps_createForced : c.Keeps (q.createForced c) := by
  refine .bind (keeps_journaledHookCreated (keeps_takeover hf _)) fun takeover => ?_
  cases takeover with
  | free => exact keeps_createFresh hf
  | owned => exact .throw _
  | refused reason run => exact .pure _
  | taken row id => exact .pure _

theorem keeps_hookCreation : c.Keeps (q.create c) := by
  refine .ite (.throw _) (.bind (keeps_sql rfl) fun existing => ?_)
  cases existing with
  | none => exact keeps_createFresh hf
  | some p =>
    refine .ite ?_ (.ite (keeps_createForced hf) (.pure _))
    exact .bind (keeps_sql rfl) fun _ => .ite (.throw _) (.bind (keeps_sql rfl) fun _ => .pure _)

theorem keeps_createHook : c.Keeps (createHook c q) := by
  refine .bind (keeps_hookCreation hf) fun outcome => ?_
  cases outcome with
  | appended row id => exact .pure _
  | orphaned row => exact .bind (keeps_journal hf ..) fun _ => .pure _
  | conflict run reason => exact .bind (keeps_appendEvent hf rfl ..) fun _ => .pure _

end HookCreation

theorem keeps_disposeHook (hook : HookId) (token : Option Token) : c.Keeps (disposeHook c hook token) :=
  .transaction (.bind (keeps_sql rfl) fun _ => .ite (keeps_appendEvent hf rfl ..) (.throw _))

theorem keeps_receiveHook (hook : HookId) (token : Option Token) : c.Keeps (receiveHook c hook token) := by
  refine .transaction (.bind (keeps_sql rfl) fun run => ?_)
  cases run with
  | none => exact .throw _
  | some r =>
    refine .ite (.throw _) (.bind (keeps_sql rfl) fun live => ?_)
    cases live with
    | none => exact keeps_refuseDelivery ..
    | some p => exact keeps_appendEvent hf rfl ..

omit hf in
theorem keeps_assertHookExists (hook : HookId) (delivery : Option (Option Token)) : c.Keeps (assertHookExists c hook delivery) := by
  refine .bind (keeps_sql rfl) fun existing => ?_
  cases existing with
  | some r => exact .pure _
  | none =>
    cases delivery with
    | some token => exact keeps_refuseDelivery ..
    | none => exact .throw _

/-! ## The whole of a request -/

omit hf in
theorem keeps_insertLegacyEvent (ulid : Nat) (v : EventValues) : c.Keeps (insertLegacyEvent c ulid v) :=
  .bind (keeps_sql rfl) fun _ => .pure _

omit hf in
theorem keeps_handleLegacyEvent (e : EventReq) (now : Nat) (specVersion : Option Nat) :
    c.Keeps (handleLegacyEvent c e now specVersion) := by
  refine .bind (keeps_unnamed (.inl rfl)) fun ulid => ?_
  split
  · refine .bind (keeps_sql rfl) fun _ => .bind (keeps_releaseRun _) fun _ => ?_
    exact .bind (keeps_sql rfl) fun _ => .pure _
  · exact keeps_insertLegacyEvent ..
  · refine .transaction (.bind (keeps_sql rfl) fun run => ?_)
    cases run with
    | none => exact .throw _
    | some r => exact .ite (.throw _) (keeps_insertLegacyEvent ..)
  · exact .throw _

theorem keeps_apply (now : Nat) (current : Option CurrentRun) (e : EventReq) : c.Keeps (apply c now current e) := by
  cases e with
  | runCreated i => exact keeps_createRun i
  | runStarted i => exact keeps_startRun hf ..
  | runCompleted => exact keeps_finishRun hf ..
  | runFailed => exact keeps_finishRun hf ..
  | runCancelled => exact keeps_finishRun hf ..
  | stepCreated step name => exact keeps_createStep hf ..
  | stepStarted step createsStep owner => exact .bind (keeps_validateStep ..) fun _ => keeps_startStep hf ..
  | stepRetrying step retryAfter => exact .bind (keeps_validateStep ..) fun _ => keeps_retryStep hf ..
  | stepCompleted step => exact keeps_finishStep hf ..
  | stepFailed step => exact keeps_finishStep hf ..
  | hookCreated hook token force retention => exact keeps_createHook hf
  | hookReceived hook token => exact .bind (keeps_assertHookExists ..) fun _ => .bind (keeps_receiveHook hf ..) fun _ => .pure _
  | hookDisposed hook token => exact .bind (keeps_assertHookExists ..) fun _ => .bind (keeps_disposeHook hf ..) fun _ => .pure _
  | waitCreated wait resumeAt => exact keeps_createWait hf ..
  | waitCompleted wait => exact keeps_completeWait hf ..
  | attrSet id changes byWorkflow allowReserved => exact keeps_setAttributes hf ..

theorem keeps_createOnRun (e : EventReq) : c.Keeps (createOnRun c e) := by
  have hterminal : ∀ now current, c.Keeps (applyOnTerminal c now current e) := by
    intro now current
    unfold applyOnTerminal
    split
    · exact .ite (keeps_cancelAgain hf) (.throw _)
    · exact .throw _
    · exact .throw _
    · exact .throw _
    · exact .throw _
    · exact .ite (.throw _) (keeps_apply hf ..)
  refine .bind keeps_clock fun now => .bind (keeps_readCurrentRun e) fun current => ?_
  cases current with
  | some run => exact .ite (.throw _) (.ite (keeps_handleLegacyEvent ..) (.ite (hterminal ..) (keeps_apply hf ..)))
  | none =>
    simp only
    split
    · exact .throw _
    · exact keeps_apply hf ..

end Apply

section Session

variable (D : Deps) (me : Nat) (r : CreateReq)

/-- What a program of the tenant issues. -/
abbrev Deps.Keeps {α : Type} (p : P α) : Prop := Issues (S := schema) (fun now q => Query.Scoped D r.tenant now q) p

theorem keeps_assertions : D.Keeps r (assertRetention D r.event) ∧ D.Keeps r (assertStartHookOf D r.event) ∧
    ∀ run b, D.Keeps r (assertRunIdTime D run b) := by
  have hclock : D.Keeps r clock := .clock fun _ => trivial
  refine ⟨?_, ?_, fun run b => ?_⟩
  · unfold assertRetention
    split
    · exact .bind hclock fun _ => .ite (.throw _) (.pure _)
    · exact .pure _
  · unfold assertStartHookOf
    split
    · unfold assertStartHookAdmissible
      split
      · exact .pure _
      · exact .bind hclock fun _ => .ite (.throw _) (.pure _)
    · exact .pure _
  · refine .bind hclock fun now => ?_
    split
    · exact .pure _
    · exact .throw _

theorem keeps_createUnfenced (fence : Option PendingFence) (hf : ∀ f, fence = some f → f.tenant = r.tenant) :
    D.Keeps r (createUnfenced D me fence r) := by
  obtain ⟨hretention, hhook, htime⟩ := keeps_assertions D r
  have hrun : ∀ run, D.Keeps r (createOnRun (r.ctx D me fence run) r.event) :=
    fun run => keeps_createOnRun (c := r.ctx D me fence run) hf r.event
  refine .bind hretention fun _ => .bind hhook fun _ => ?_
  split
  · exact hrun _
  · exact .bind (htime ..) fun _ => hrun _
  · exact .throw _
  · exact hrun _

/-- All that a request issues stays with its tenant. -/
theorem keeps_session : D.Keeps r (session D me r) := by
  have hfenced : ∀ run expected, D.Keeps r (createFenced D me r run expected) := by
    intro run expected
    have hlock : D.Keeps r (sql (.lockSlots (r.tenant, run))) :=
      keeps_sql (c := r.ctx D me none run) (q := .lockSlots (r.tenant, run)) rfl
    have hexpected : ∀ current, D.Keeps r (assertExpected run expected current) := by
      intro current
      cases current with
      | some m => exact .ite (.throw _) (.pure _)
      | none => exact .pure _
    refine .transaction (.bind hlock fun current => .bind (hexpected current) fun _ => .store ?_)
    exact keeps_createUnfenced D me r _ fun f h => by cases h; rfl
  have hcreate : D.Keeps r (create D me r) := by
    unfold create
    split
    · exact keeps_createUnfenced D me r none nofun
    · split
      · exact .throw _
      · exact hfenced ..
  exact .bind (.tryCatch (.bind hcreate fun _ => .pure _) fun _ => .pure _) fun answer => .reply (.pure _)

end Session

end WorkflowWorld
