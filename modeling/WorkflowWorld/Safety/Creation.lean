/-
A creation event and the entity it creates. The tables of steps and hooks are keyed by tenant and
id, without the run, and an insert that finds its id taken is passed over: the event is appended all
the same. Where a run's creations find no other run's row under their id (nor, for a hook, a row of
another token), every creation event in the run's log has the entity it names, until something
removes the hook.
-/
import WorkflowWorld.Concurrency.Facts
import WorkflowWorld.Storage.Flow

namespace WorkflowWorld

open Concurrency Schema

/-! ## Entities and the events that create them -/

/-- What a creation event creates under its correlation id. -/
inductive Entity where
  | step
  | hook (token : Token)

/-- The entity a creation event names. -/
def Entity.ofEvent : EventType → EventData → Option Entity
  | .stepCreated, _ => some .step
  | .hookCreated, .hookCreated token _ _ => some (.hook token)
  | _, _ => none

def EventRow.creates (e : EventRow) : Option Entity := Entity.ofEvent e.type e.data

/-- The entity is there, and is the run's. -/
def Db.HasEntity (d : Db) (K : RunKey) (id : CorrId) : Entity → Prop
  | .step => ∃ r, d.steps.lookup (K.1, id) = some r ∧ r.runId = K.2
  | .hook token => ∃ r, d.hooks.lookup (K.1, id) = some r ∧ r.runId = K.2 ∧ r.token = token

/-- Every creation event of the id in the run's log has its entity. -/
def Db.CreationsBacked (K : RunKey) (id : CorrId) (d : Db) : Prop :=
  ∀ e ∈ d.events K, e.correlationId = some id → ∀ x, e.creates = some x → d.HasEntity K id x

/-- The write removes the run's hook of the id. -/
def Write.removesHook (K : RunKey) (id : CorrId) : Write → Bool
  | .deleteHook k r => k = (K.1, id) && r.runId = K.2
  | _ => false

/-- The write appends a creation event of the id. -/
def Write.Journals (K : RunKey) (id : CorrId) (w : Write) (x : Entity) : Prop :=
  ∃ e, w = .appendEvent K e ∧ e.correlationId = some id ∧ e.creates = some x

def Entity.key (K : RunKey) (id : CorrId) : Entity → Key
  | .step => .row (.step (K.1, id))
  | .hook _ => .row (.hook (K.1, id))

def creation (K : RunKey) (id : CorrId) : Facts schema where
  Fact := Entity
  holds x d := d.HasEntity K id x
  key := Entity.key K id
  cited x d := ∃ e ∈ d.events K, e.correlationId = some id ∧ e.creates = some x
  cites w x := w.Journals K id x
  undoes w := w.removesHook K id = true
  holds_agree x d d' h := by
    cases x with
    | step =>
      have h : d.steps.lookup (K.1, id) = d'.steps.lookup (K.1, id) := h
      simp only [Db.HasEntity, h]
    | hook token =>
      have h : d.hooks.lookup (K.1, id) = d'.hooks.lookup (K.1, id) := h
      simp only [Db.HasEntity, h]
  cited_apply x w d := by
    show (∃ e ∈ (w.apply d).events K, _) ↔ _
    simp only [events_apply, List.mem_append, mem_appended, List.mem_singleton, Write.Journals]
    constructor
    · rintro ⟨e, he | he, hx⟩
      · exact .inl ⟨e, he, hx⟩
      · exact .inr ⟨e, he.symm, hx⟩
    · rintro (⟨e, he, hx⟩ | ⟨e, he, hx⟩)
      · exact ⟨e, .inl he, hx⟩
      · exact ⟨e, .inr he.symm, hx⟩
  cited_ext x d d' h := by obtain ⟨m, rfl⟩ := h; rfl

theorem backed_iff {K : RunKey} {id : CorrId} {d : Db} : (creation K id).Backed d ↔ d.CreationsBacked K id :=
  ⟨fun h e he hc x hx => h x ⟨e, he, hc, hx⟩, fun h x ⟨e, he, hc, hx⟩ => h e he hc x hx⟩

/-! ## The statements -/

section Statements

variable {K : RunKey} {id : CorrId} {q : Query} {pick : Pick} {now : Nat} {d : Db}

/-- A statement keeps the entities, unless it removes the run's hook. -/
theorem plan_keeps_entity (hno : ∀ w ∈ (plan q pick now d).writes, w.removesHook K id = false) (x : Entity) (h : d.HasEntity K id x) :
    Db.HasEntity (schema.applyAll (plan q pick now d).writes d) K id x := by
  by_cases htouch : x.key K id ∈ schema.touchesAll (plan q pick now d).writes
  swap
  · exact (Facts.holds_applyAll (F := creation K id) (f := x) htouch d).2 h
  obtain ⟨w, hw, hkey⟩ := List.mem_flatMap.1 htouch
  cases x with
  | step =>
    obtain ⟨r, hr, hrun⟩ := h
    obtain ⟨r', rfl | rfl⟩ := Write.touches_step hkey
    · rcases plan_step hw rfl with ⟨_, _, -, h', hnone⟩ | ⟨_, _, _, h', -⟩ <;> cases h'
      rw [hnone] at hr
      cases hr
    · rcases plan_step hw rfl with ⟨_, _, -, h', -⟩ | ⟨_, r₁, _, h', hrow, -, hkind⟩ <;> cases h'
      rw [hr] at hrow
      cases hrow
      have hsame : r'.runId = r.runId := by
        rcases hkind with ⟨_, _, -, rfl⟩ | ⟨_, _, _, -, rfl⟩ | ⟨_, -, rfl⟩ <;> rfl
      rw [plan_single hw rfl]
      exact ⟨r', AList.lookup_insert _, hsame.trans hrun⟩
  | hook token =>
    obtain ⟨r, hr, hrun, -⟩ := h
    obtain ⟨r', rfl | rfl⟩ := Write.touches_hook hkey
    · rcases plan_hook hw rfl with ⟨_, _, _, -, h', hnone⟩ | ⟨_, _, h', -⟩ <;> cases h'
      rw [hnone] at hr
      cases hr
    · rcases plan_hook hw rfl with ⟨_, _, _, -, h', -⟩ | ⟨_, _, h', hrow⟩ <;> cases h'
      rw [hr] at hrow
      cases hrow
      have := hno _ hw
      simp [Write.removesHook, hrun] at this

/-- The statement removes the run's hook, or fits: it keeps the entities, and what it journals is there. -/
theorem plan_fits_entity (hback : ∀ v oc, q = .insertEvent K v oc → v.correlationId = some id →
      ∀ x, Entity.ofEvent v.type v.data = some x → d.HasEntity K id x) :
    (creation K id).Undone (plan q pick now d).writes ∨ (creation K id).Fits d (plan q pick now d).writes := by
  by_cases hno : ∀ w ∈ (plan q pick now d).writes, w.removesHook K id = false
  · refine .inr ⟨fun x h => plan_keeps_entity hno x h, ?_⟩
    rintro x w hw ⟨e, rfl, hc, hx⟩
    obtain ⟨k, v, oc, hq, hev, -⟩ := plan_event hw rfl
    cases hev
    exact plan_keeps_entity hno x (hback v oc hq hc x hx)
  · push Not at hno
    obtain ⟨w, hw, h⟩ := hno
    exact .inl ⟨w, hw, Bool.eq_true_of_not_eq_false h⟩

/-- Which rows a statement deletes is not left open. -/
theorem plan_removes {w : Write} (hw : w ∈ (plan q pick now d).writes) (h : w.removesHook K id = true) :
    w ∈ (plan q {} now d).writes := by
  cases w with
  | deleteHook k r =>
    have hq := plan_tbl hw
    cases q with
    | deleteReleased | deleteRunHooks | deleteHook => exact hw
    | insertHook k' r' oc =>
      obtain ⟨h', -⟩ := insertHookPlan_writes hw
      cases h'
    | _ => cases hq
  | _ => cases h

end Statements

/-! ## The condition -/

/-- A creation of the run's entity finds no row of another run under the id, nor a hook of another token. -/
def ownId {n : Nat} (K : RunKey) (id : CorrId) (t : Fin n) : Op → State n → Bool
  | .query (.insertStep k r), s => k ≠ (K.1, id) || r.runId ≠ K.2 || ((s.view t).steps.lookup k).all fun r' => r'.runId = K.2
  | .query (.insertHook k r _), s => k ≠ (K.1, id) || r.runId ≠ K.2 ||
      ((s.view t).hooks.lookup k).all fun r' => r'.runId = K.2 && r'.token = r.token
  | _, _ => true

/-- No statement and no transaction that removes the run's hook takes effect. -/
def hookKept {n : Nat} (K : RunKey) (id : CorrId) (t : Fin n) : Op → State n → Bool
  | .query q, s => (s.tx t).isSome || (plan q {} (s.clock t) (s.view t)).writes.all fun w => !w.removesHook K id
  | .commit, s => (s.tx t).all fun x => !x.saves.isEmpty || x.writes.all fun w => !w.removesHook K id
  | _, _ => true

/-- Its creations take no other's id, and nothing removes the run's hook. -/
abbrev Undisturbed {n : Nat} (K : RunKey) (id : CorrId) : Fin n → Op → State n → Prop :=
  fun t o s => ownId K id t o s = true ∧ hookKept K id t o s = true

namespace Creation

variable {n : Nat} {K : RunKey} {id : CorrId} {t : Fin n} {s s' : State n} {x : Entity}

abbrev creationRules (n : Nat) (K : RunKey) (id : CorrId) : Rules n := (creation K id).rules (Undisturbed K id)

theorem creation_kept : (creation K id).Kept (Undisturbed (n := n) K id) := by
  rintro t s c ⟨-, hc⟩ hn ⟨w, hw, hu⟩
  obtain ⟨x, hx, hsaves, -⟩ := TxRules.nest_some hn
  rw [State.pend_of_tx hx] at hw
  simp only [hookKept, hx, Option.all_some, hsaves, List.isEmpty_nil, Bool.not_true, Bool.false_or, List.all_eq_true] at hc
  have := hc w hw
  rw [show w.removesHook K id = true from hu] at this
  cases this

theorem creation_frame : (creationRules n K id).Frame t (fun _ => True) ((creation K id).Knows t) :=
  Facts.knows_frame creation_kept fun _ _ _ _ => trivial

theorem known_frame (x : Entity) : (creationRules n K id).Frame t ((creation K id).Known t x) ((creation K id).Knows t) :=
  Facts.knows_frame creation_kept fun _ _ h hk => hk x h

/-- A statement, whose event, if it is a creation of the id, has its entity. -/
theorem admits_creation {A : State n → Prop} {q : Query}
    (hback : ∀ v oc, q = .insertEvent K v oc → v.correlationId = some id → ∀ x, Entity.ofEvent v.type v.data = some x →
      ∀ s, A s → (creation K id).Known t x s) :
    (creationRules n K id).Admits t A ((creation K id).Knows t) q := by
  refine Facts.admits_of_fits fun s pick hb hi ha hc => ⟨fun hx => ?_, ?_⟩
  · rintro ⟨w, hw, hu⟩
    have hkept := hc.2
    simp only [hookKept, hx, Option.isSome_none, Bool.false_or, List.all_eq_true] at hkept
    have := hkept w (plan_removes hw hu)
    rw [show w.removesHook K id = true from hu] at this
    cases this
  · by_cases hun : (creation K id).Undone (s.pend t)
    · exact .inl (hun.append _)
    · refine (plan_fits_entity fun v oc hq hcor x hx => ?_).imp_left fun ⟨w, hw, hu⟩ => ⟨w, List.mem_append_right _ hw, hu⟩
      exact ((hback v oc hq hcor x hx s ha).view hi).resolve_left hun

variable {c : Ctx} {e : EventReq}

theorem admits_creation_read {A : State n → Prop} {q : Query} (hq : q.reads = true) :
    (creationRules n K id).Admits t A ((creation K id).Knows t) q :=
  admits_read hq fun s takes _ => Facts.Knows.read s t takes

/-- The append of an event whose entity, if it creates one, is known. -/
theorem runs_tryAppend {A : State n → Prop} (hframe : (creationRules n K id).Frame t A ((creation K id).Knows t)) {k : RunKey}
    {v : EventValues} (hv : k = K → v.correlationId = some id → ∀ x, Entity.ofEvent v.type v.data = some x →
      ∀ s, A s → (creation K id).Known t x s) :
    (creationRules n K id).Runs t A ((creation K id).Knows t) (tryAppend c k v) := by
  refine .of_built hframe (fun q hq => ?_) (fun m _ s _ => Facts.knows_store m s) (fun _ _ h => h.elim) built_tryAppend
  rcases hq with h | ⟨id', at', rfl⟩ | ⟨f, -, -, rfl⟩
  · exact admits_creation_read h
  · refine admits_creation fun v' oc hq hcor x hx s ha => ?_
    cases hq
    exact hv rfl hcor x hx s ha
  · exact admits_creation fun v oc hq => by cases hq

/-- A program of reads and of blocks that run. -/
theorem runs_reading {A : State n → Prop} (hframe : (creationRules n K id).Frame t A ((creation K id).Knows t)) {α : Type}
    {B : (α : Type) → P α → Prop} (hB : ∀ (α : Type) (p : P α), B α p → (creationRules n K id).Runs t A ((creation K id).Knows t) p)
    {p : P α} (hp : Built Reading B p) : (creationRules n K id).Runs t A ((creation K id).Knows t) p :=
  .of_built hframe (fun _ hq => admits_creation_read hq) (fun _ h => h.elim) hB hp

/-- A request that creates no entity of the run under the id. -/
theorem runs_no_creation (hno : c.key = K → e.correlationId = some id →
      e.type ≠ .stepCreated ∧ e.type ≠ .stepStarted ∧ e.type ≠ .hookCreated) :
    (creationRules n K id).Runs t (fun _ => True) ((creation K id).Knows t) (createOnRun c e) := by
  have hown : ∀ (type : EventType) (data : EventData) x, type = e.type → c.key = K → e.correlationId = some id →
      Entity.ofEvent type data = some x → False := by
    intro type data x ht hk hc hx
    obtain ⟨h1, -, h3⟩ := hno hk hc
    subst ht
    cases htype : e.type with
    | stepCreated => exact h1 htype
    | hookCreated => exact h3 htype
    | _ => rw [htype] at hx; cases hx
  refine .of_built creation_frame (fun q hq => admits_creation fun v oc heq hcor x hx => ?_) (fun m _ s _ => Facts.knows_store m s)
    (fun _ _ h => h.elim) (issued built_createOnRun)
  subst heq
  rcases hq with h | h | ⟨v', id', at', hj, rfl, -⟩ | ⟨i, -, -, rfl, -⟩ | ⟨-, hk, ht, hc, -⟩
  · cases h
  · exact h.elim
  · cases hj with
    | own _ ht hc => exact (hown _ _ _ ht rfl (hc ▸ hcor) hx).elim
    | lazily _ he ht hc => exact absurd he (hno rfl (hc ▸ hcor)).2.1
    | conflict _ he ht =>
      have hx : Entity.ofEvent v'.type v'.data = some x := hx
      rw [ht] at hx
      cases hx
    | takeover => cases hx
  · cases hx
  · exact (hown _ _ _ ht hk.symm (hc ▸ hcor) hx).elim

/-! ## Steps -/

/-- After a step's insert its row is known: the session's own, or one of the run. -/
theorem gives_insertStep {name : String} {step : StepId} (hk : c.key = K) (hid : step = id) :
    (creationRules n K id).Gives t (fun _ => True) ((creation K id).Knows t) (sql (.insertStep (c.tenant, step) (newStep c name)))
      fun _ => (creation K id).Known t .step := by
  subst hk hid
  refine gives_sql creation_frame (admits_creation fun _ _ h => by cases h) fun s pick a hb _ _ _ hc _ _ => ?_
  cases hrow : (s.view t).steps.lookup (c.tenant, step) with
  | none =>
    have hw : (plan (.insertStep (c.tenant, step) (newStep c name)) pick (s.clock t) (s.view t)).writes =
        [.insertStep (c.tenant, step) (newStep c name)] := by simp only [plan, hrow, insert]
    rw [hw]
    refine Facts.known_write (s := s.see t) ?_ ⟨newStep c name, AList.lookup_insert _, rfl⟩
    simp [Schema.touchesAll, Write.touches, creation, Entity.key, Ctx.key]
  | some r =>
    have hw : (plan (.insertStep (c.tenant, step) (newStep c name)) pick (s.clock t) (s.view t)).writes = [] := by
      simp only [plan, hrow, insert]
    have hown := hc.1
    simp [ownId, Ctx.key, newStep, hrow] at hown
    have hknown : (creation c.key step).Known t Entity.step s := Facts.known_of_view hb ⟨r, hrow, of_decide_eq_true hown⟩
    rw [hw]
    exact Facts.Knows.read s t _ _ hknown

theorem runs_createStep {step : StepId} (name : String) (hk : c.key = K) (hid : step = id) :
    (creationRules n K id).Runs t (fun _ => True) ((creation K id).Knows t) (createStep c step name) := by
  refine .bind_gives creation_frame (gives_insertStep hk hid) fun inserted => ?_
  refine runs_reading (known_frame .step) (B := OneAppend c c.key ⟨.stepCreated, some step, .step (some name) none, c.specVersion⟩)
    ?_ (.bind (built_journal_block .mk _) fun _ => .pure _)
  rintro _ _ ⟨⟩
  exact runs_tryAppend (known_frame .step) fun _ _ x hx s h => by cases hx; exact h

theorem runs_createStepLazily {step : StepId} (name : String) (starts : Bool) (hk : c.key = K) (hid : step = id) :
    (creationRules n K id).Runs t (fun _ => True) ((creation K id).Knows t) (createStepLazily c step name starts) := by
  refine .bind_gives creation_frame (gives_insertStep hk hid) fun inserted => ?_
  refine runs_reading (known_frame .step) (B := OneAppend c c.key ⟨.stepCreated, some step, .step (some name) none, c.specVersion⟩)
    ?_ (.ite (.ite (.pure _) ?_) (.throw _))
  · rintro _ _ ⟨⟩
    exact runs_tryAppend (known_frame .step) fun _ _ x hx s h => by cases hx; exact h
  · exact .tryCatch (.bind (.block .mk) fun _ => .pure _) (fun _ _ => .ite (.pure _) (.throw _))
      fun _ hc => if_neg fun h => hc (.inr (.inl h))

theorem runs_startStep {step : StepId} (createsStep : Option String) (owner : Option MessageId) (now : Nat) (starts : Bool)
    (validated : Option StepRow) (hk : c.key = K) (hid : step = id) :
    (creationRules n K id).Runs t (fun _ => True) ((creation K id).Knows t)
      (startStep c step createsStep owner now starts validated) := by
  have hprepare : (creationRules n K id).Runs t (fun _ => True) ((creation K id).Knows t)
      (prepareStep c step createsStep owner now starts validated) := by
    unfold prepareStep
    split
    · split
      · exact runs_reading creation_frame (B := NoBlock) (fun _ _ h => h.elim) (built_awaitOwner (fun h => h) ..)
      · exact TxRules.runs_pure creation_frame _
    · split
      · exact runs_createStepLazily _ starts hk hid
      · exact TxRules.runs_pure creation_frame _
  refine .transaction creation_frame creation_frame (fun _ _ => trivial) (.bind creation_frame hprepare fun _ => ?_)
  refine .bind creation_frame (runs_reading creation_frame (B := NoBlock) (fun _ _ h => h.elim) (built_awaitRetry ..)) fun _ => ?_
  refine .bind creation_frame (runs_sql creation_frame (admits_creation fun _ _ h => by cases h)) fun updated => ?_
  refine runs_reading creation_frame (B := OneAppend c c.key ⟨.stepStarted, some step, .step createsStep owner, c.specVersion⟩)
    ?_ (.bind (built_explainStep (fun h => h) ..) fun row => .bind (built_appendEvent_block .mk _) fun _ => .pure _)
  rintro _ _ ⟨⟩
  exact runs_tryAppend creation_frame fun _ _ x hx => by cases hx

/-! ## Hooks -/

section Hooks

variable {q : HookCreation} (hk : c.key = K) (hid : q.hook = id)

include hk hid

/-- After a hook's insert its row is known. -/
theorem gives_insertHook {source : Option HookClaimedFrom} {oc : OnConflict} (hoc : oc ≠ .doNothing) :
    (creationRules n K id).Gives t (fun _ => True) ((creation K id).Knows t) (sql (.insertHook (q.key c) (q.hookRow c source) oc))
      fun _ => (creation K id).Known t (.hook q.token) := by
  subst hk hid
  refine gives_sql creation_frame (admits_creation fun _ _ h => by cases h) fun s pick a hb _ _ _ hc hans _ => ?_
  cases hrow : (s.view t).hooks.lookup (q.key c) with
  | none =>
    have hw : (plan (.insertHook (q.key c) (q.hookRow c source) oc) pick (s.clock t) (s.view t)).writes =
        [.insertHook (q.key c) (q.hookRow c source)] := by
      simp only [plan, insertHookPlan, hrow] at hans ⊢
      split
      · rename_i hclaim
        rw [if_pos hclaim] at hans
        cases oc <;> cases hans
      · rfl
    rw [hw]
    refine Facts.known_write (s := s.see t) ?_ ⟨q.hookRow c source, AList.lookup_insert _, rfl, rfl⟩
    simp [Schema.touchesAll, Write.touches, creation, Entity.key, Ctx.key, HookCreation.key]
  | some r =>
    have hw : (plan (.insertHook (q.key c) (q.hookRow c source) oc) pick (s.clock t) (s.view t)).writes = [] := by
      simp only [plan, insertHookPlan, hrow]
      split <;> rfl
    have hown := hc.1
    simp only [ownId, Ctx.key, HookCreation.key, HookCreation.hookRow] at hown hrow
    simp [hrow] at hown
    have hknown : (creation c.key q.hook).Known t (Entity.hook q.token) s := Facts.known_of_view hb
      ⟨r, hrow, of_decide_eq_true hown.1, of_decide_eq_true hown.2⟩
    rw [hw]
    exact Facts.Knows.read s t _ _ hknown

omit hk hid in
/-- The event of a hook whose row is known. -/
theorem runs_tryAppend_hook (source : Option HookClaimedFrom) :
    (creationRules n K id).Runs t ((creation K id).Known t (.hook q.token)) ((creation K id).Knows t)
      (tryAppend c c.key (q.created c source)) :=
  runs_tryAppend (known_frame _) fun _ _ x hx s h => by cases hx; exact h

/-- What a creation writes. -/
theorem runs_hookWork {α : Type} {p : P α} (hp : HookWork c q α p) :
    (creationRules n K id).Runs t (fun _ => True) ((creation K id).Knows t) p := by
  have happend : ∀ {β : Type} (source : Option HookClaimedFrom) (f : EventId → P β), (∀ id, ∃ b, f id = pure b) →
      (creationRules n K id).Runs t ((creation K id).Known t (.hook q.token)) ((creation K id).Knows t)
        (appendEvent c c.key (q.created c source) (HookCreation.couldNotBeCreated "hook_created" c.runId) >>= f) := by
    intro β source f hf
    refine runs_reading (known_frame _) (B := OneAppend c c.key (q.created c source)) ?_
      (.bind (built_appendEvent_block .mk _) fun id => ?_)
    · rintro _ _ ⟨⟩
      exact runs_tryAppend_hook source
    · obtain ⟨b, hb⟩ := hf id
      rw [hb]
      exact .pure b
  cases hp with
  | fresh =>
    refine .transaction creation_frame creation_frame (fun _ _ => trivial) (.bind creation_frame ?_ fun _ => ?_)
    · exact .bind creation_frame (runs_sql creation_frame (admits_creation_read rfl)) fun _ =>
        runs_sql creation_frame (admits_creation fun _ _ h => by cases h)
    · exact .bind_gives creation_frame (gives_insertHook hk hid (by decide)) fun inserted => happend none _ fun _ => ⟨_, rfl⟩
  | take hook victim run =>
    have hdispose : (creationRules n K id).Runs t (fun _ => True) ((creation K id).Knows t) (q.disposeVictim c hook victim run) := by
      unfold HookCreation.disposeVictim
      split
      · exact TxRules.runs_pure creation_frame _
      · rename_i r _
        refine runs_reading creation_frame (B := OneAppend c (c.tenant, victim.runId) (q.disposed c hook r)) ?_
          (.bind (built_appendEvent_block .mk _) fun _ => .pure _)
        rintro _ _ ⟨⟩
        exact runs_tryAppend creation_frame fun _ _ x hx => by cases hx
    refine .bind creation_frame hdispose fun _ => ?_
    refine .bind creation_frame (runs_sql creation_frame (admits_creation fun _ _ h => by cases h)) fun _ => ?_
    exact .bind_gives creation_frame (gives_insertHook hk hid (by decide)) fun _ => happend _ _ fun _ => ⟨_, rfl⟩

/-- A creation whose event is still to be appended found its own row. -/
theorem gives_hookCreation_create :
    (creationRules n K id).Gives t (fun _ => True) ((creation K id).Knows t) (q.create c)
      fun o s => ∀ row, o = .orphaned row → (creation K id).Known t (.hook q.token) s := by
  have hany : ∀ s : State n, True → True := fun _ _ => trivial
  have hfresh : (creationRules n K id).Gives t (fun _ => True) ((creation K id).Knows t) (q.createFresh c)
      fun o s => ∀ row, o = .orphaned row → (creation K id).Known t (.hook q.token) s := by
    refine .bind creation_frame (TxRules.Runs.gives creation_frame (runs_reading creation_frame
      (fun _ _ => runs_hookWork hk hid) built_insertFreshHook)) fun created => ?_
    cases created with
    | some p => exact .pure creation_frame hany fun _ _ _ h => by cases h
    | none =>
      refine .bind creation_frame (TxRules.Runs.gives creation_frame (runs_sql creation_frame (admits_creation_read rfl))) fun owner => ?_
      cases owner with
      | none => exact .throw creation_frame hany _
      | some p =>
        simp only
        split
        · exact .throw creation_frame hany _
        · exact .pure creation_frame hany fun _ _ _ h => by cases h
  unfold HookCreation.create
  split
  · exact .throw creation_frame hany _
  refine .bind creation_frame (B := fun existing s => ∀ p, existing = some p → p.2.runId = c.runId ∧ p.1.2 = q.hook →
      (creation K id).Known t (.hook q.token) s)
    (gives_sql creation_frame (admits_creation_read rfl) fun s pick existing hb _ _ _ _ hans _ => ?_) fun existing => ?_
  · cases hans
    rintro p hp ⟨hrun, hhook⟩
    obtain ⟨hrow, htenant, htoken⟩ := mem_hooksByToken.1 (List.mem_of_mem_filter (mem_of_pickFrom hp))
    refine Facts.Knows.read s t _ _ (Facts.known_of_view hb ⟨p.2, ?_, ?_, htoken⟩)
    · rw [← hk, ← hid, ← hhook]
      show (s.view t).hooks.lookup (c.tenant, p.1.2) = some p.2
      rw [← htenant]
      exact hrow
    · rw [← hk]; exact hrun
  · cases existing with
    | none => exact fun s hs _ => hfresh s hs trivial
    | some p =>
      simp only
      split
      · rename_i hown
        -- the row of this same hook, whose event was never written
        refine fun s hs ha => TxRules.Gives.bind (known_frame (.hook q.token)) (TxRules.Runs.gives (known_frame _)
          (runs_sql (known_frame _) (admits_creation_read rfl))) (fun journaled => ?_) s hs (ha p rfl hown)
        split
        · exact .throw (known_frame _) (fun _ h => h) _
        · refine .bind (known_frame (.hook q.token)) (TxRules.Runs.gives (known_frame _)
            (runs_sql (known_frame _) (admits_creation_read rfl))) fun row => ?_
          exact .pure (known_frame (.hook q.token)) (fun _ h => h) fun _ h _ _ => h
      · split
        · refine fun s hs _ => TxRules.Gives.bind creation_frame (TxRules.Runs.gives creation_frame (runs_reading creation_frame
            (fun _ _ => runs_hookWork hk hid) (built_journaledHookCreated (built_takeover (fun h => h) _)))) (fun takeover => ?_) s hs trivial
          cases takeover with
          | free => exact hfresh
          | owned => exact .throw creation_frame hany _
          | refused => exact .pure creation_frame hany fun _ _ _ h => by cases h
          | taken => exact .pure creation_frame hany fun _ _ _ h => by cases h
        · exact .pure creation_frame (fun _ _ => trivial) fun _ _ _ h => by cases h

theorem runs_createHook : (creationRules n K id).Runs t (fun _ => True) ((creation K id).Knows t) (createHook c q) := by
  refine .bind_gives creation_frame (gives_hookCreation_create hk hid) fun outcome => ?_
  cases outcome with
  | appended row id => exact (TxRules.runs_pure creation_frame _).weaken fun _ _ => trivial
  | orphaned row =>
    refine (runs_reading (known_frame (.hook q.token)) (B := OneAppend c c.key (q.created c none)) ?_
      (.bind (built_journal_block .mk _) fun _ => .pure _)).weaken fun s h => h row rfl
    rintro _ _ ⟨⟩
    exact runs_tryAppend_hook none
  | conflict run reason =>
    refine (runs_reading creation_frame (B := OneAppend c c.key (q.conflicted c run reason)) ?_
      (.bind (built_appendEvent_block .mk _) fun _ => .pure _)).weaken fun _ _ => trivial
    rintro _ _ ⟨⟩
    exact runs_tryAppend creation_frame fun _ _ x hx => by cases hx

end Hooks

/-- A request that creates the run's entity under the id. -/
theorem runs_creation (hk : c.key = K) (hid : e.correlationId = some id)
    (he : e.type = .stepCreated ∨ e.type = .stepStarted ∨ e.type = .hookCreated) :
    (creationRules n K id).Runs t (fun _ => True) ((creation K id).Knows t) (createOnRun c e) := by
  have happly : ∀ now current, (creationRules n K id).Runs t (fun _ => True) ((creation K id).Knows t) (apply c now current e) := by
    intro now current
    cases e with
    | stepCreated step name => exact runs_createStep name hk (Option.some.inj hid)
    | stepStarted step createsStep owner =>
      refine .bind creation_frame (runs_reading creation_frame (B := NoBlock) (fun _ _ h => h.elim)
        (built_validateStep (fun h => h) ..)) fun validated => ?_
      exact runs_startStep createsStep owner now _ validated hk (Option.some.inj hid)
    | hookCreated hook token force retention =>
      exact runs_createHook (q := ⟨hook, token, force, retention⟩) hk (Option.some.inj hid)
    | _ => rcases he with h | h | h <;> cases h
  have hread : Built Reading NoBlock (readCurrentRun c e) := by
    cases e with
    | stepCreated | stepStarted | hookCreated => exact built_getRunForValidation (fun h => h) _
    | _ => rcases he with h | h | h <;> cases h
  refine runs_reading creation_frame (fun α p hp => ?_) built_work
  cases hp with
  | current => exact runs_reading creation_frame (fun _ _ h => h.elim) hread
  | legacy now specVersion =>
    refine .bind creation_frame (runs_sql creation_frame (admits_creation_read rfl)) fun ulid => ?_
    cases e with
    | stepCreated | stepStarted | hookCreated => exact TxRules.runs_throw creation_frame _
    | _ => rcases he with h | h | h <;> cases h
  | terminal now current =>
    unfold applyOnTerminal
    split
    · rcases he with h | h | h <;> cases h
    · rcases he with h | h | h <;> cases h
    · rcases he with h | h | h <;> cases h
    · rcases he with h | h | h <;> cases h
    · rcases he with h | h | h <;> cases h
    · split
      · exact TxRules.runs_throw creation_frame _
      · exact happly now _
  | apply now current => exact happly now current

end Creation

/-! ## Whole runs -/

open Creation in
/-- Where the run's creations take no other's id and nothing removes its hook, every creation event in its log has
its entity, in every interleaving. -/
theorem creation_event_has_entity {n : Nat} {D : Deps} {requests : Fin n → CreateReq} {d : Db} {now : Nat} {K : RunKey}
    {id : CorrId} (hd : d.CreationsBacked K id) {C : Configuration n}
    (h : Reaches (World n) (Undisturbed K id) (initial D requests d now) C) : C.st.db.CreationsBacked K id := by
  have hsafe : (creationRules n K id).rules.Safe (initial D requests d now) := by
    refine safe_of_runs (backed_iff.2 hd) (fun _ _ _ _ _ => trivial) (fun _ => creation_frame)
      (fun t s takes => Facts.Knows.read s t takes) (fun t m s => Facts.knows_store m s) fun t c _ => ?_
    by_cases hcreates : c.key = K ∧ (requests t).event.correlationId = some id ∧ ((requests t).event.type = .stepCreated ∨
        (requests t).event.type = .stepStarted ∨ (requests t).event.type = .hookCreated)
    · exact runs_creation hcreates.1 hcreates.2.1 hcreates.2.2
    · refine runs_no_creation fun hk hc => ⟨fun h => hcreates ⟨hk, hc, .inl h⟩, fun h => hcreates ⟨hk, hc, .inr (.inl h)⟩,
        fun h => hcreates ⟨hk, hc, .inr (.inr h)⟩⟩
  exact backed_iff.1 (hsafe.reaches TxRules.tolerates h).1.inv.data

theorem empty_creationsBacked (K : RunKey) (id : CorrId) : Db.empty.CreationsBacked K id := fun e he => by cases he

/-- Two runs, and a step of the same id in each. -/
def sameId : Fin 4 → CreateReq
  | 0 => { tenant := "t", runId := none, ulid := "a", event := .runCreated { deploymentId := "d", workflowName := "w" } }
  | 1 => { tenant := "t", runId := none, ulid := "b", event := .runCreated { deploymentId := "d", workflowName := "w" } }
  | 2 => { tenant := "t", runId := some "a", event := .stepCreated "s" "step" }
  | 3 => { tenant := "t", runId := some "b", event := .stepCreated "s" "step" }

/-- The first of them has its step. -/
theorem creation_event_has_entity_first : ∃ C : Configuration 4,
    Reaches (World 4) (Undisturbed ("t", "a") "s") (initial defaultDeps sameId Db.empty 0) C ∧
    (C.st.db.events ("t", "a")).map (·.type) = [.runCreated, .stepCreated] ∧ C.st.db.CreationsBacked ("t", "a") "s" := by
  have hboth : ∀ (t : Fin 4) (o : Op) (s : State 4), (ownId ("t", "a") "s" t o s && hookKept ("t", "a") "s" t o s) = true →
      Undisturbed ("t", "a") "s" t o s := fun _ _ _ h => by simpa using h
  obtain ⟨C, hC, h⟩ := Sessions.exists_of_play hboth
    (P := fun C : Configuration 4 => (C.st.db.events ("t", "a")).map (·.type) = [.runCreated, .stepCreated])
    (show (Sessions.play (fun t o s => ownId ("t", "a") "s" t o s && hookKept ("t", "a") "s" t o s) [go 0, go 1, go 2, go 3]
      (initial defaultDeps sameId Db.empty 0)).any _ = true by decide +kernel)
  exact ⟨C, hC, by simpa using h, creation_event_has_entity (empty_creationsBacked _ _) hC⟩

/-- The second has its event and no step. -/
theorem creation_event_without_entity : ∃ C : Configuration 4,
    Reaches (World 4) Anything (initial defaultDeps sameId Db.empty 0) C ∧
    (C.st.db.events ("t", "b")).map (·.type) = [.runCreated, .stepCreated] ∧
    (C.st.db.steps.lookup ("t", "s")).map (·.runId) = some "a" ∧ ¬C.st.db.CreationsBacked ("t", "b") "s" := by
  obtain ⟨C, hC, h⟩ := Sessions.exists_of_play (c := Anything) (fun _ _ _ _ => trivial)
    (P := fun C : Configuration 4 => (C.st.db.events ("t", "b")).map (·.type) = [.runCreated, .stepCreated] &&
      (C.st.db.steps.lookup ("t", "s")).map (·.runId) = some "a" &&
      (C.st.db.events ("t", "b")).any fun e => e.type = .stepCreated && e.correlationId = some "s")
    (show (Sessions.play (fun _ _ _ => true) [go 0, go 1, go 2, go 3] (initial defaultDeps sameId Db.empty 0)).any _ = true
      by decide +kernel)
  simp only [Bool.and_eq_true, decide_eq_true_eq, List.any_eq_true] at h
  obtain ⟨⟨htypes, hrow⟩, e, he, htype, hcor⟩ := h
  refine ⟨C, hC, htypes, hrow, fun hback => ?_⟩
  obtain ⟨r, hr, hrun⟩ := hback e he hcor .step (by unfold EventRow.creates; rw [htype]; rfl)
  rw [hr, Option.map_some, Option.some.injEq, hrun] at hrow
  exact absurd hrow (by decide)

end WorkflowWorld
