/-
Which out-of-band creates are atomic. A `run_created` without a start Hook, a `step_started` and the
hook events write their rows and their event in one transaction, or their event alone: such a call
publishes once, with its event, and has published nothing when it throws. The other types update
their row in a statement of its own, and append their event in another.
-/
import WorkflowWorld.Storage.System
import WorkflowWorld.Concurrency.Once

namespace WorkflowWorld

open Concurrency Schema

/-! ## One publication -/

/-- The writes append an event of the session. -/
def Logs (me : Nat) (ws : List Write) : Prop := ∃ K e, Write.appendEvent K e ∈ ws ∧ e.writer = me

/-- The answer is an error. -/
def Thrown (r : Reply) : Prop := ∃ e, r = .error e

/-- Session `t` publishes once, with an event of its own, and nothing when it throws. -/
def atomicRules {n : Nat} (t : Fin n) (cond : Fin n → Op → State n → Prop) : Concurrency.Rules (World n) :=
  once t (Logs t) Thrown cond

section Session

variable {n : Nat} {t : Fin n} {cond : Fin n → Op → State n → Prop} {N : Option (List schema.Mark × Nat)} {s : State n} {α : Type}

/-- Session `t` is outside a transaction and has published nothing. -/
abbrev Idle (t : Fin n) (s : State n) : Prop := Holding (fun _ => False) t none s

/-- Session `t` is at the savepoints `N`, with anything pending, and has published nothing. -/
abbrev Writing (t : Fin n) (N : Option (List schema.Mark × Nat)) (s : State n) : Prop := Holding (fun _ => True) t N s

theorem Writing.idle (h : Writing t none s) : Idle t s := by
  refine ⟨h.nest, h.wrote, fun w hw => ?_⟩
  unfold Schema.State.pend at hw
  rw [TxRules.nest_none.1 h.nest] at hw
  cases hw

theorem writing_of {ok : Write → Prop} (h : Holding ok t N s) : Writing t N s := Once.mono h fun _ _ => trivial

theorem Logs.append {me : Nat} {ws : List Write} (ws' : List Write) (h : Logs me ws) : Logs me (ws' ++ ws) := by
  obtain ⟨K, e, he, hw⟩ := h
  exact ⟨K, e, List.mem_append_right _ he, hw⟩

/-- Programs that only read leave the session where it is. -/
theorem wp_reading {p : P α} (hp : Built Reading NoBlock p) (h : Holding (fun _ => False) t N s) :
    (atomicRules t cond).wp t p (fun _ => Holding (fun _ => False) t N) (fun _ => Holding (fun _ => False) t N) s :=
  Once.wp_of_built (fun _ hq _ _ _ _ hw => plan_reads hq hw) (fun _ _ h => h.elim) hp (.inr fun _ h => h) h

/-- Programs of a request inside its transaction. -/
theorem wp_inside {c : Ctx} {e : EventReq} {l : Bool} {p : P α} (hp : Built (Stmt c e l) (Block c e l) p) (hN : N ≠ none)
    (h : Writing t N s) : (atomicRules t cond).wp t p (fun _ => Writing t N) (fun _ => Writing t N) s :=
  Once.wp_of_built (fun _ _ _ _ _ _ _ => trivial) (fun _ _ h => h.elim) (issued hp) (.inl hN) h

theorem wp_reading_inside {p : P α} (hp : Built Reading NoBlock p) (hN : N ≠ none) (h : Writing t N s) :
    (atomicRules t cond).wp t p (fun _ => Writing t N) (fun _ => Writing t N) s :=
  Once.wp_of_built (fun _ _ _ _ _ _ _ => trivial) (fun _ _ h => h.elim) hp (.inl hN) h

/-- Any statement inside the session's transaction. -/
theorem wp_any {q : Query} (hN : N ≠ none) (h : Writing t N s) :
    (atomicRules t cond).wp t (sql q) (fun _ => Writing t N) (fun _ => Writing t N) s := by
  refine Once.wp_statement (E := fun _ => Writing t N) q h (fun _ _ _ h₁ _ _ => ⟨.inl hN, ?_⟩) fun _ _ h₁ => h₁
  exact (Once.write_holding _ h₁ (.inl hN) fun _ _ => trivial).1

/-- A read, and its answer. -/
theorem wp_read {q : Query} (hq : q.reads = true) {ok : Write → Prop} (h : Holding ok t N s) :
    (atomicRules t cond).wp t (sql q) (fun _ => Holding ok t N) (fun _ => Holding ok t N) s := by
  refine Once.wp_statement (E := fun _ => Holding ok t N) q h (fun s₁ pick a h₁ _ _ => ?_) fun _ _ h₁ => h₁
  have hw : (plan q pick (s₁.clock t) (s₁.view t)).writes = [] := List.eq_nil_iff_forall_not_mem.2 fun w hw => plan_reads hq hw
  show (N ≠ none ∨ (plan q pick (s₁.clock t) (s₁.view t)).writes = [] ∨ _) ∧
    Holding ok t N ((s₁.see t).write t _ (plan q pick (s₁.clock t) (s₁.view t)).writes)
  rw [hw]
  exact ⟨.inr (.inl rfl), (Once.write_holding _ h₁ (.inr rfl) fun _ h => by cases h).1⟩

/-! ## Appending -/

variable {c : Ctx} {k : RunKey} {v : EventValues}

/-- Where an append leaves the session: as it was when it appended nothing, and else with its event
pending, if it is in a transaction. -/
def Appended (t : Fin n) (N : Option (List schema.Mark × Nat)) (id : Option EventId) (s : State n) : Prop :=
  match id with
  | none => Writing t N s
  | some _ => N ≠ none → Writing t N s ∧ Logs t (s.pend t)

theorem wp_insertEvent {e : EventInsert} {oc : OnConflict} (he : e.writer = t) (h : Writing t N s) :
    (atomicRules t cond).wp t (sql (.insertEvent k e oc))
      (fun b s' => Appended t N (if b then some e.id else none) s') (fun _ => Writing t N) s := by
  refine Once.wp_statement (E := fun _ => Writing t N) _ h (fun s₁ pick b h₁ _ hans => ?_) fun _ _ h₁ => h₁
  have hw : (insertEventPlan k (e.row (s₁.clock t)) oc (s₁.view t)).writes = _ := insertEventPlan_ans hans
  show (N ≠ none ∨ (insertEventPlan k (e.row (s₁.clock t)) oc (s₁.view t)).writes = [] ∨
      Logs t (insertEventPlan k (e.row (s₁.clock t)) oc (s₁.view t)).writes) ∧
    Appended t N _ ((s₁.see t).write t _ (insertEventPlan k (e.row (s₁.clock t)) oc (s₁.view t)).writes)
  cases b with
  | false =>
    rw [if_neg (by simp)] at hw
    rw [hw]
    exact ⟨.inr (.inl rfl), (Once.write_holding _ h₁ (.inr rfl) fun _ _ => trivial).1⟩
  | true =>
    rw [if_pos rfl] at hw
    rw [hw]
    have hlogs : Logs t [Write.appendEvent k (e.row (s₁.clock t))] := ⟨k, _, List.mem_singleton.2 rfl, he⟩
    refine ⟨.inr (.inr hlogs), fun hN => ?_⟩
    obtain ⟨h₂, hp, -⟩ := Once.write_holding (plan (.insertEvent k e oc) pick (s₁.clock t) (s₁.view t)).takes h₁
      (.inl hN : N ≠ none ∨ [Write.appendEvent k (e.row (s₁.clock t))] = []) fun _ _ => trivial
    exact ⟨h₂, by rw [hp]; exact hlogs.append _⟩

/-- An insert that must not find its id taken. -/
theorem wp_insertEvent_raise {e : EventInsert} (he : e.writer = t) (hd : e.type.deduplicated = false) (hN : N ≠ none)
    (h : Writing t N s) : (atomicRules t cond).wp t (sql (.insertEvent k e .raise))
      (fun _ s' => Writing t N s' ∧ Logs t (s'.pend t)) (fun _ => Writing t N) s := by
  refine Once.wp_statement (E := fun _ => Writing t N) _ h (fun s₁ pick _ h₁ _ hans => ⟨.inl hN, ?_⟩) fun _ _ h₁ => h₁
  have hw : (plan (.insertEvent k e .raise) pick (s₁.clock t) (s₁.view t)).writes = [.appendEvent k (e.row (s₁.clock t))] :=
    (insertEventPlan_raise hd).1 _ hans
  obtain ⟨h₂, hp, -⟩ := Once.write_holding (plan (.insertEvent k e .raise) pick (s₁.clock t) (s₁.view t)).takes h₁
    (.inl hN : N ≠ none ∨ (plan (.insertEvent k e .raise) pick (s₁.clock t) (s₁.view t)).writes = []) fun _ _ => trivial
  refine ⟨h₂, ?_⟩
  have hlogs : Logs t (plan (.insertEvent k e .raise) pick (s₁.clock t) (s₁.view t)).writes := by
    rw [hw]; exact ⟨k, _, List.mem_singleton.2 rfl, he⟩
  rw [hp]; exact hlogs.append _

variable (hme : c.me = t) (hfence : c.fence = none)

include hme hfence

theorem wp_insertAtSlot (consumed : Bool) : ∀ (attempts : Nat) (s : State n), Writing t N s →
    (atomicRules t cond).wp t (insertAtSlot c k v (c.fenceFor k consumed) attempts) (Appended t N) (fun _ => Writing t N) s := by
  have hnone : c.fenceFor k consumed = none := by unfold Ctx.fenceFor; rw [hfence]; rfl
  have hnext : ∀ (retry : P (Option EventId)),
      (∀ s, Writing t N s → (atomicRules t cond).wp t retry (Appended t N) (fun _ => Writing t N) s) → ∀ s, Writing t N s →
      (atomicRules t cond).wp t (insertAtNextSlot c k v (c.fenceFor k consumed) retry) (Appended t N) (fun _ => Writing t N) s := by
    intro retry hretry s h
    rw [hnone]
    unfold insertAtNextSlot
    rw [Rules.wp_bind]
    refine Rules.wp_mono (fun m s' h' => ?_) (fun _ _ h' => h') _ _ (wp_read rfl h)
    refine (Rules.wp_bind _ _ _ _).2 (Rules.wp_mono (fun inserted s'' h'' => ?_) (fun _ _ h' => h') _ _
      (wp_insertEvent (k := k) (e := v.insert (.slot m) _ c.me) hme h'))
    cases inserted with
    | true => exact h''
    | false => exact hretry s'' h''
  intro attempts
  induction attempts with
  | zero => exact hnext _ fun s h => h
  | succ attempts ih => exact hnext _ ih

theorem wp_tryAppend (h : Writing t N s) :
    (atomicRules t cond).wp t (tryAppend c k v) (Appended t N) (fun _ => Writing t N) s := by
  unfold tryAppend allocateEventId
  rw [Rules.wp_bind]
  refine Rules.wp_mono (fun alloc s' h' => ?_) (fun _ _ h' => h') _ _ (wp_read rfl h)
  cases alloc with
  | ulid u =>
    refine (Rules.wp_bind _ _ _ _).2 (Rules.wp_mono (fun inserted s'' h'' => ?_) (fun _ _ h' => h') _ _
      (wp_insertEvent (k := k) (e := v.insert (.ulid u) none c.me) hme h'))
    exact h''
  | slot =>
    exact Once.wp_op h' (fun _ _ _ _ he => by cases he; exact ⟨rfl, rfl, rfl, rfl⟩)
      fun consumed s'' h'' => wp_insertAtSlot hme hfence consumed _ s'' h''

theorem wp_appendEvent (message : String) (h : Writing t N s) :
    (atomicRules t cond).wp t (appendEvent c k v message) (fun id => Appended t N (some id)) (fun _ => Writing t N) s := by
  unfold appendEvent
  rw [Rules.wp_bind]
  refine Rules.wp_mono (fun id s' h' => ?_) (fun _ _ h' => h') _ _ (wp_tryAppend hme hfence h)
  cases id with
  | some id => exact h'
  | none => exact h'

/-- The generic append at the end of a call, outside a transaction. -/
theorem wp_journal (dedup : Bool) (h : Idle t s) :
    (atomicRules t cond).wp t (journal c v dedup) (fun _ _ => True) (fun _ => Idle t) s := by
  unfold journal
  rw [Rules.wp_tryCatch]
  refine Rules.wp_mono (fun _ _ _ => trivial) (fun e s' h' => ?_) _ _ (wp_appendEvent hme hfence _ (writing_of h))
  split <;> exact h'.idle

/-! ## The calls -/

omit hme hfence in
/-- A transaction that commits with the session's event. -/
theorem wp_logged {body : P α} (hbody : ∀ (τ : Nat) (s : State n), Holding (fun _ => False) t (some ([], τ)) s →
      (atomicRules t cond).wp t body (fun _ s' => Writing t (some ([], τ)) s' ∧ Logs t (s'.pend t))
        (fun _ => Writing t (some ([], τ))) s) (h : Idle t s) :
    (atomicRules t cond).wp t (transaction body) (fun _ _ => True) (fun _ => Idle t) s := by
  refine Rules.wp_mono (fun _ _ _ => trivial) (fun _ _ h' => h') _ _
    (Once.wp_outer (F := fun _ => True) (fun τ s₁ h₁ => ?_) h)
  exact Rules.wp_mono (fun _ _ h' => ⟨h'.1, .inr ⟨trivial, h'.2⟩⟩) (fun _ _ h' => h') _ _ (hbody τ s₁ h₁)

/-- The append at the end of a transaction. -/
theorem wp_append_logged {τ : Nat} (message : String) (f : EventId → α) (h : Writing t (some ([], τ)) s) :
    (atomicRules t cond).wp t (do let id ← appendEvent c k v message; return f id)
      (fun _ s' => Writing t (some ([], τ)) s' ∧ Logs t (s'.pend t)) (fun _ => Writing t (some ([], τ))) s := by
  rw [Rules.wp_bind]
  exact Rules.wp_mono (fun _ _ h' => h' (by simp)) (fun _ _ h' => h') _ _ (wp_appendEvent hme hfence _ h)

theorem wp_startStep (step : StepId) (createsStep : Option String) (owner : Option MessageId) (now : Nat) (starts : Bool)
    (validated : Option StepRow) (h : Idle t s) :
    (atomicRules t cond).wp t (startStep c step createsStep owner now starts validated) (fun _ _ => True) (fun _ => Idle t) s := by
  have hin : ∀ {τ : Nat} {β : Type} {p : P β} {s : State n},
      Built (Stmt c (.stepStarted step createsStep owner) false) (Block c (.stepStarted step createsStep owner) false) p →
      Writing t (some ([], τ)) s → (atomicRules t cond).wp t p (fun _ => Writing t (some ([], τ))) (fun _ => Writing t (some ([], τ))) s :=
    fun hp h => wp_inside hp (by simp) h
  refine wp_logged (fun τ s₁ h₁ => ?_) h
  rw [Rules.wp_bind]
  refine Rules.wp_mono (fun _ s₂ h₂ => ?_) (fun _ _ h' => h') _ _ (hin (built_prepareStep rfl rfl ..) (writing_of h₁))
  rw [Rules.wp_bind]
  refine Rules.wp_mono (fun _ s₃ h₃ => ?_) (fun _ _ h' => h') _ _ (hin (built_awaitRetry ..) h₂)
  refine (Rules.wp_bind _ _ _ _).2 (Rules.wp_mono (fun updated s₄ h₄ => ?_) (fun _ _ h' => h') _ _ (wp_any (by simp) h₃))
  rw [Rules.wp_bind]
  refine Rules.wp_mono (fun _ s₅ h₅ => ?_) (fun _ _ h' => h') _ _ (hin (built_explainStep stmt_read ..) h₄)
  exact wp_append_logged hme hfence _ _ h₅

theorem wp_disposeHook (hook : HookId) (token : Option Token) (h : Idle t s) :
    (atomicRules t cond).wp t (disposeHook c hook token) (fun _ _ => True) (fun _ => Idle t) s := by
  refine wp_logged (fun τ s₁ h₁ => ?_) h
  refine (Rules.wp_bind _ _ _ _).2 (Rules.wp_mono (fun deleted s₂ h₂ => ?_) (fun _ _ h' => h') _ _
    (wp_any (by simp) (writing_of h₁)))
  cases deleted with
  | true => exact Rules.wp_mono (fun _ _ h' => h' (by simp)) (fun _ _ h' => h') _ _ (wp_appendEvent hme hfence _ h₂)
  | false => exact h₂

theorem wp_receiveHook (hook : HookId) (token : Option Token) (h : Idle t s) :
    (atomicRules t cond).wp t (receiveHook c hook token) (fun _ _ => True) (fun _ => Idle t) s := by
  refine wp_logged (fun τ s₁ h₁ => ?_) h
  refine (Rules.wp_bind _ _ _ _).2 (Rules.wp_mono (fun run s₂ h₂ => ?_) (fun _ _ h' => h') _ _ (wp_read rfl (writing_of h₁)))
  cases run with
  | none => exact h₂
  | some r =>
    simp only
    split
    · exact h₂
    · refine (Rules.wp_bind _ _ _ _).2 (Rules.wp_mono (fun live s₃ h₃ => ?_) (fun _ _ h' => h') _ _ (wp_read rfl h₂))
      cases live with
      | none =>
        -- the refusal reads, and throws
        refine (Rules.wp_bind _ _ _ _).2 (Rules.wp_mono (fun refusal s₄ h₄ => ?_) (fun _ _ h' => h') _ _
          (wp_reading_inside (built_forceClaimRefusal (fun h => h) hook token) (by simp) h₃))
        cases refusal <;> exact h₄
      | some live => exact Rules.wp_mono (fun _ _ h' => h' (by simp)) (fun _ _ h' => h') _ _ (wp_appendEvent hme hfence _ h₃)

omit hfence in
/-- The rows and the first event of a new run; nothing is written where the run exists. -/
theorem wp_insertRunRow {τ : Nat} (row : RunRow) (data : EventData) (h : Holding (fun _ => False) t (some ([], τ)) s) :
    (atomicRules t cond).wp t (insertRunRow c row data)
      (fun created s' => Writing t (some ([], τ)) s' ∧ (s'.pend t = [] ∨ created.isSome = true ∧ Logs t (s'.pend t)))
      (fun _ => Writing t (some ([], τ))) s := by
  refine (Rules.wp_bind _ _ _ _).2 (Once.wp_statement (E := fun _ => Writing t (some ([], τ))) _ h
    (fun s₁ pick inserted h₁ _ hans => ⟨.inl (by simp), ?_⟩) fun _ _ h₁ => writing_of h₁)
  have hw := insert_ans hans
  obtain ⟨h₂, hp, -⟩ := Once.write_holding (plan (.insertRun c.key row) pick (s₁.clock t) (s₁.view t)).takes (writing_of h₁)
    (.inl (by simp) : _ ∨ (plan (.insertRun c.key row) pick (s₁.clock t) (s₁.view t)).writes = []) fun _ _ => trivial
  cases inserted with
  | false =>
    refine ⟨h₂, .inl (hp.trans ?_)⟩
    have hnil : s₁.pend t = [] := List.eq_nil_iff_forall_not_mem.2 fun w hw => h₁.pend w hw
    have hw' : (plan (.insertRun c.key row) pick (s₁.clock t) (s₁.view t)).writes = [] := hw
    rw [hnil, hw']; rfl
  | true =>
    refine (Rules.wp_bind _ _ _ _).2 (Rules.wp_mono (fun _ s₃ h₃ => ?_) (fun _ _ h' => h') _ _ (wp_any (by simp) h₂))
    refine (Rules.wp_bind _ _ _ _).2 (Rules.wp_mono (fun _ s₄ h₄ => ?_) (fun _ _ h' => h') _ _
      (wp_insertEvent_raise hme rfl (by simp) h₃))
    exact ⟨h₄.1, .inr ⟨rfl, h₄.2⟩⟩

omit hfence in
/-- `run_created` without a start Hook. -/
theorem wp_createRun {i : RunInput} (hi : i.startHook = none) (h : Idle t s) :
    (atomicRules t cond).wp t (createRun c i) (fun _ _ => True) (fun _ => Idle t) s := by
  have hcreate : (atomicRules t cond).wp t (i.create c) (fun created s' => created = none → Idle t s') (fun _ => Idle t) s := by
    unfold RunInput.create
    rw [hi, Rules.wp_bind]
    refine Rules.wp_mono (fun _ s₁ h₁ => ?_) (fun _ _ h' => h') _ _ (wp_reading (built_validateAttributes ..) h)
    rw [Rules.wp_bind]
    refine Rules.wp_mono (fun inserted s₂ h₂ => ?_) (fun _ _ h' => h') _ _
      (Once.wp_outer (F := fun inserted => inserted.1.isSome = true) (fun τ s₁ h₁ => ?_) h₁)
    · exact fun hnone => h₂ (by rw [hnone]; simp)
    · refine (Rules.wp_bind _ _ _ _).2 (Rules.wp_mono (fun created s₂ h₂ => ?_) (fun _ _ h' => h') _ _
        (wp_insertRunRow hme _ _ h₁))
      exact h₂
  unfold createRun
  rw [Rules.wp_bind]
  refine Rules.wp_mono (fun created s₁ h₁ => ?_) (fun _ _ h' => h') _ _ hcreate
  cases created with
  | some p => trivial
  | none =>
    simp only [hi]
    exact h₁ rfl

section Hooks

variable {q : HookCreation}

theorem wp_insertFreshHook (h : Idle t s) :
    (atomicRules t cond).wp t (q.insertFreshHook c) (fun created s' => created = none → Idle t s') (fun _ => Idle t) s := by
  have htx : (atomicRules t cond).wp t (transaction do
      deleteReleasedHooks c q.token
      let inserted : Bool ← sql (.insertHook (q.key c) (q.hookRow c none) .doNothingOnKey)
      let id ← appendEvent c c.key (q.created c none) (HookCreation.couldNotBeCreated "hook_created" c.runId)
      return (if inserted then some (q.hookRow c none) else none, id)) (fun _ _ => True) (fun _ => Idle t) s := by
    refine wp_logged (fun τ s₁ h₁ => ?_) h
    refine (Rules.wp_bind _ _ _ _).2 ((Rules.wp_bind _ _ _ _).2 (Rules.wp_mono (fun released s₂ h₂ => ?_) (fun _ _ h' => h') _ _
      (wp_any (by simp) (writing_of h₁))))
    refine Rules.wp_mono (fun _ s₃ h₃ => ?_) (fun _ _ h' => h') _ _ (wp_any (by simp) h₂)
    refine (Rules.wp_bind _ _ _ _).2 (Rules.wp_mono (fun inserted s₄ h₄ => ?_) (fun _ _ h' => h') _ _ (wp_any (by simp) h₃))
    exact wp_append_logged hme hfence _ _ h₄
  have hlost : ∀ (e : Err) (s : State n), Idle t s → (atomicRules t cond).wp t
      (if e = .sql (.raised .hookTokenClaim) then pure none else throw e : P (Option (Option HookRow × EventId)))
      (fun created s' => created = none → Idle t s') (fun _ => Idle t) s := by
    intro e s h
    split
    · exact fun _ => h
    · exact h
  unfold HookCreation.insertFreshHook HookCreation.journaledHookCreated
  rw [Rules.wp_tryCatch, Rules.wp_tryCatch, Rules.wp_bind]
  refine Rules.wp_mono (fun _ _ _ hnone => by cases hnone) (fun e s₁ h₁ => ?_) _ _ htx
  split <;> exact hlost _ s₁ h₁

/-- Where a creation goes on to append, it has published nothing. -/
def HookCreation.Outcome.settled : HookCreation.Outcome → Bool
  | .appended _ _ => true
  | _ => false

theorem wp_createFresh (h : Idle t s) :
    (atomicRules t cond).wp t (q.createFresh c) (fun o s' => o.settled = false → Idle t s') (fun _ => Idle t) s := by
  unfold HookCreation.createFresh
  rw [Rules.wp_bind]
  refine Rules.wp_mono (fun created s₁ h₁ => ?_) (fun _ _ h' => h') _ _ (wp_insertFreshHook hme hfence h)
  cases created with
  | some p => exact fun hs => by cases hs
  | none =>
    refine (Rules.wp_bind _ _ _ _).2 (Rules.wp_mono (fun owner s₂ h₂ => ?_) (fun _ _ h' => h') _ _ (wp_read rfl (h₁ rfl)))
    cases owner with
    | none => exact h₂
    | some p =>
      simp only
      split
      · exact h₂
      · exact fun _ => h₂

/-- A takeover attempt that took nothing wrote nothing. -/
def HookCreation.Takeover.took : HookCreation.Takeover → Bool
  | .taken _ _ => true
  | _ => false

theorem wp_takeFrom {τ : Nat} (hook : HookId) (victim : HookRow) (run : Option RunRow) (h : Writing t (some ([], τ)) s) :
    (atomicRules t cond).wp t (q.takeFrom c hook victim run)
      (fun r s' => Writing t (some ([], τ)) s' ∧ r.took = true ∧ Logs t (s'.pend t)) (fun _ => Writing t (some ([], τ))) s := by
  have hdispose : (atomicRules t cond).wp t (q.disposeVictim c hook victim run) (fun _ => Writing t (some ([], τ)))
      (fun _ => Writing t (some ([], τ))) s := by
    unfold HookCreation.disposeVictim
    split
    · exact h
    · rw [Rules.wp_bind]
      exact Rules.wp_mono (fun _ _ h' => (h' (by simp)).1) (fun _ _ h' => h') _ _ (wp_appendEvent hme hfence _ h)
  unfold HookCreation.takeFrom
  rw [Rules.wp_bind]
  refine Rules.wp_mono (fun _ s₁ h₁ => ?_) (fun _ _ h' => h') _ _ hdispose
  refine (Rules.wp_bind _ _ _ _).2 (Rules.wp_mono (fun _ s₂ h₂ => ?_) (fun _ _ h' => h') _ _ (wp_any (by simp) h₁))
  refine (Rules.wp_bind _ _ _ _).2 (Rules.wp_mono (fun _ s₃ h₃ => ?_) (fun _ _ h' => h') _ _ (wp_any (by simp) h₂))
  rw [Rules.wp_bind]
  refine Rules.wp_mono (fun _ s₄ h₄ => ?_) (fun _ _ h' => h') _ _ (wp_appendEvent hme hfence _ h₃)
  exact ⟨(h₄ (by simp)).1, rfl, (h₄ (by simp)).2⟩

theorem wp_takeoverAttempt (h : Idle t s) :
    (atomicRules t cond).wp t (q.takeoverAttempt c) (fun r s' => r.took = false → Idle t s') (fun _ => Idle t) s := by
  have hnil : ∀ {τ : Nat} {s : State n}, Holding (fun _ => False) t (some ([], τ)) s → s.pend t = [] :=
    fun h => List.eq_nil_iff_forall_not_mem.2 fun w hw => h.pend w hw
  refine Rules.wp_mono (fun r s₁ h₁ hr => h₁ (by rw [hr]; simp)) (fun _ _ h' => h') _ _
    (Once.wp_outer (F := fun r => HookCreation.Takeover.took r = true) (fun τ s₁ h₁ => ?_) h)
  -- up to the takeover itself, the attempt only reads
  have hnone : ∀ {r : HookCreation.Takeover} {s : State n}, Holding (fun _ => False) t (some ([], τ)) s →
      Writing t (some ([], τ)) s ∧ (s.pend t = [] ∨ r.took = true ∧ Logs t (s.pend t)) :=
    fun h => ⟨writing_of h, .inl (hnil h)⟩
  have htake : ∀ hook victim run (s : State n), Holding (fun _ => False) t (some ([], τ)) s →
      (atomicRules t cond).wp t (q.takeFrom c hook victim run) (fun r s' => Writing t (some ([], τ)) s' ∧
        (s'.pend t = [] ∨ r.took = true ∧ Logs t (s'.pend t))) (fun _ => Writing t (some ([], τ))) s :=
    fun hook victim run s h => Rules.wp_mono (fun _ _ h' => ⟨h'.1, .inr h'.2⟩) (fun _ _ h' => h') _ _
      (wp_takeFrom hme hfence hook victim run (writing_of h))
  refine (Rules.wp_bind _ _ _ _).2 (Rules.wp_mono (fun candidate s₂ h₂ => ?_) (fun _ _ h' => writing_of h') _ _ (wp_read rfl h₁))
  cases candidate with
  | none => exact hnone h₂
  | some p =>
    refine (Rules.wp_bind _ _ _ _).2 (Rules.wp_mono (fun victimRun s₃ h₃ => ?_) (fun _ _ h' => writing_of h') _ _ (wp_read rfl h₂))
    refine (Rules.wp_bind _ _ _ _).2 (Rules.wp_mono (fun hooks s₄ h₄ => ?_) (fun _ _ h' => writing_of h') _ _ (wp_read rfl h₃))
    refine (Rules.wp_bind _ _ _ _).2 (Rules.wp_mono (fun locked s₅ h₅ => ?_) (fun _ _ h' => writing_of h') _ _
      (wp_reading (built_lockTokenHook (fun h => h) ..) h₄))
    cases locked with
    | none => exact hnone h₅
    | some v =>
      simp only
      split
      · exact writing_of h₅
      · unfold HookCreation.takeLocked
        split
        · exact hnone h₅
        · split
          · split
            · split
              · exact hnone h₅
              · exact htake _ _ _ _ h₅
            · split
              · exact hnone h₅
              · exact htake _ _ _ _ h₅
          · exact htake _ _ _ _ h₅

theorem wp_takeover : ∀ (left : Nat) (s : State n), Idle t s →
    (atomicRules t cond).wp t (q.takeover c left) (fun r s' => r.took = false → Idle t s') (fun _ => Idle t) s := by
  have hattempt : ∀ (retry : P HookCreation.Takeover),
      (∀ s, Idle t s → (atomicRules t cond).wp t retry (fun r s' => r.took = false → Idle t s') (fun _ => Idle t) s) →
      ∀ s, Idle t s → (atomicRules t cond).wp t (q.attemptOr c retry) (fun r s' => r.took = false → Idle t s') (fun _ => Idle t) s := by
    intro retry hretry s h
    unfold HookCreation.attemptOr
    rw [Rules.wp_tryCatch]
    refine Rules.wp_mono (fun _ _ h' => h') (fun e s₁ h₁ => ?_) _ _ (wp_takeoverAttempt hme hfence h)
    split
    · exact hretry s₁ h₁
    · exact h₁
  intro left
  induction left with
  | zero => exact hattempt _ fun s h => h
  | succ left ih => exact hattempt _ ih

theorem wp_hookCreation_create (h : Idle t s) :
    (atomicRules t cond).wp t (q.create c) (fun o s' => o.settled = false → Idle t s') (fun _ => Idle t) s := by
  unfold HookCreation.create
  split
  · exact h
  · refine (Rules.wp_bind _ _ _ _).2 (Rules.wp_mono (fun existing s₁ h₁ => ?_) (fun _ _ h' => h') _ _ (wp_read rfl h))
    cases existing with
    | none => exact wp_createFresh hme hfence h₁
    | some p =>
      simp only
      split
      · -- this hook's own row
        refine (Rules.wp_bind _ _ _ _).2 (Rules.wp_mono (fun journaled s₂ h₂ => ?_) (fun _ _ h' => h') _ _ (wp_read rfl h₁))
        split
        · exact h₂
        · refine (Rules.wp_bind _ _ _ _).2 (Rules.wp_mono (fun _ s₃ h₃ => ?_) (fun _ _ h' => h') _ _ (wp_read rfl h₂))
          exact fun _ => h₃
      · split
        · unfold HookCreation.createForced HookCreation.journaledHookCreated
          rw [Rules.wp_bind, Rules.wp_tryCatch]
          refine Rules.wp_mono (fun r s₂ h₂ => ?_) (fun e s₂ h₂ => ?_) _ _ (wp_takeover hme hfence _ s₁ h₁)
          · cases r with
            | free => exact wp_createFresh hme hfence (h₂ rfl)
            | owned => exact h₂ rfl
            | refused reason run => exact fun _ => h₂ rfl
            | taken row id => exact fun hs => by cases hs
          · split <;> exact h₂
        · exact fun _ => h₁

theorem wp_createHook (h : Idle t s) :
    (atomicRules t cond).wp t (createHook c q) (fun _ _ => True) (fun _ => Idle t) s := by
  unfold createHook
  rw [Rules.wp_bind]
  refine Rules.wp_mono (fun o s₁ h₁ => ?_) (fun _ _ h' => h') _ _ (wp_hookCreation_create hme hfence h)
  cases o with
  | appended row id => trivial
  | orphaned row =>
    rw [Rules.wp_bind]
    exact Rules.wp_mono (fun _ _ _ => trivial) (fun _ _ h' => h') _ _ (wp_journal hme hfence true (h₁ rfl))
  | conflict run reason =>
    rw [Rules.wp_bind]
    exact Rules.wp_mono (fun _ _ _ => trivial) (fun _ _ h' => h'.idle) _ _ (wp_appendEvent hme hfence _ (writing_of (h₁ rfl)))

end Hooks

/-- The request writes its rows and its event in one transaction. -/
def EventReq.oneTransaction : EventReq → Bool
  | .runCreated i => i.startHook.isNone
  | .stepStarted _ _ _ | .hookCreated _ _ _ _ | .hookReceived _ _ | .hookDisposed _ _ => true
  | _ => false

variable {e : EventReq} (he : e.oneTransaction = true)

include he

theorem wp_apply (now : Nat) (current : Option CurrentRun) (h : Idle t s) :
    (atomicRules t cond).wp t (apply c now current e) (fun _ _ => True) (fun _ => Idle t) s := by
  cases e with
  | runCreated i => exact wp_createRun hme (Option.isNone_iff_eq_none.1 he) h
  | stepStarted step createsStep owner =>
    refine (Rules.wp_bind _ _ _ _).2 (Rules.wp_mono (fun validated s₁ h₁ => ?_) (fun _ _ h' => h') _ _
      (wp_reading (built_validateStep (fun h => h) ..) h))
    exact wp_startStep hme hfence _ _ _ _ _ _ h₁
  | hookCreated hook token force retention => exact wp_createHook hme hfence h
  | hookReceived hook token =>
    refine (Rules.wp_bind _ _ _ _).2 (Rules.wp_mono (fun _ s₁ h₁ => ?_) (fun _ _ h' => h') _ _
      (wp_reading (built_assertHookExists (fun h => h) ..) h))
    refine (Rules.wp_bind _ _ _ _).2 (Rules.wp_mono (fun _ _ _ => ?_) (fun _ _ h' => h') _ _ (wp_receiveHook hme hfence hook token h₁))
    trivial
  | hookDisposed hook token =>
    refine (Rules.wp_bind _ _ _ _).2 (Rules.wp_mono (fun _ s₁ h₁ => ?_) (fun _ _ h' => h') _ _
      (wp_reading (built_assertHookExists (fun h => h) ..) h))
    refine (Rules.wp_bind _ _ _ _).2 (Rules.wp_mono (fun _ _ _ => ?_) (fun _ _ h' => h') _ _ (wp_disposeHook hme hfence hook token h₁))
    trivial
  | _ => cases he

omit hfence in
theorem wp_handleLegacyEvent (now : Nat) (specVersion : Option Nat) (h : Idle t s) :
    (atomicRules t cond).wp t (handleLegacyEvent c e now specVersion) (fun _ _ => True) (fun _ => Idle t) s := by
  refine (Rules.wp_bind _ _ _ _).2 (Rules.wp_mono (fun ulid s₁ h₁ => ?_) (fun _ _ h' => h') _ _ (wp_read rfl h))
  cases e with
  | hookReceived hook token =>
    refine wp_logged (fun τ s₂ h₂ => ?_) h₁
    refine (Rules.wp_bind _ _ _ _).2 (Rules.wp_mono (fun run s₃ h₃ => ?_) (fun _ _ h' => h') _ _ (wp_read rfl (writing_of h₂)))
    cases run with
    | none => exact h₃
    | some r =>
      simp only
      split
      · exact h₃
      · refine (Rules.wp_bind _ _ _ _).2 (Rules.wp_mono (fun _ s₄ h₄ => ?_) (fun _ _ h' => h') _ _
          (wp_insertEvent_raise hme rfl (by simp) h₃))
        exact h₄
  | runCreated i => exact h₁
  | stepStarted step createsStep owner => exact h₁
  | hookCreated hook token force retention => exact h₁
  | hookDisposed hook token => exact h₁
  | _ => cases he

theorem wp_createOnRun (h : Idle t s) :
    (atomicRules t cond).wp t (createOnRun c e) (fun _ _ => True) (fun _ => Idle t) s := by
  have hread : Built Reading NoBlock (readCurrentRun c e) := by
    cases e with
    | runCreated i => exact .pure _
    | stepStarted | hookCreated | hookReceived | hookDisposed => exact built_getRunForValidation (fun h => h) _
    | _ => cases he
  refine (Rules.wp_bind _ _ _ _).2 (Rules.wp_mono (fun now s₁ h₁ => ?_) (fun _ _ h' => h') _ _
    (wp_reading (.clock _ fun _ => .pure _) h))
  refine (Rules.wp_bind _ _ _ _).2 (Rules.wp_mono (fun current s₂ h₂ => ?_) (fun _ _ h' => h') _ _ (wp_reading hread h₁))
  cases current with
  | none =>
    simp only
    split
    · exact h₂
    · exact wp_apply hme hfence he now none h₂
  | some r =>
    simp only [applyToRun]
    split
    · exact h₂
    · split
      · exact wp_handleLegacyEvent hme he now _ h₂
      · split
        · unfold applyOnTerminal
          split
          · cases he
          · cases he
          · cases he
          · cases he
          · cases he
          · split
            · exact h₂
            · exact wp_apply hme hfence he now (some r) h₂
        · exact wp_apply hme hfence he now (some r) h₂

end Session

/-! ## Whole runs -/

/-- An out-of-band call, to its answer. -/
theorem wp_session_atomic {n : Nat} {D : Deps} {t : Fin n} {cond : Fin n → Op → State n → Prop} {r : CreateReq} {s : State n}
    (hout : r.fenced = none) (he : r.event.oneTransaction = true) (h : Idle t s) :
    (atomicRules t cond).wp t (session D t r) (fun _ _ => True) (fun _ _ => True) s := by
  have hon : ∀ run (s : State n), Idle t s →
      (atomicRules t cond).wp t (createOnRun (r.ctx D t none run) r.event) (fun _ _ => True) (fun _ => Idle t) s :=
    fun run s h => wp_createOnRun rfl rfl he h
  have hcreate : (atomicRules t cond).wp t (create D t r) (fun _ _ => True) (fun _ => Idle t) s := by
    obtain ⟨h1, h2, h3⟩ := built_assertions (D := D) (r := r) (P := Reading) (B := NoBlock)
    unfold create
    rw [hout]
    refine (Rules.wp_bind _ _ _ _).2 (Rules.wp_mono (fun _ s₁ h₁ => ?_) (fun _ _ h' => h') _ _ (wp_reading h1 h))
    refine (Rules.wp_bind _ _ _ _).2 (Rules.wp_mono (fun _ s₂ h₂ => ?_) (fun _ _ h' => h') _ _ (wp_reading h2 h₁))
    split
    · exact hon _ _ h₂
    · refine (Rules.wp_bind _ _ _ _).2 (Rules.wp_mono (fun _ s₃ h₃ => ?_) (fun _ _ h' => h') _ _ (wp_reading (h3 _ _) h₂))
      exact hon _ _ h₃
    · exact h₂
    · exact hon _ _ h₂
  have hreply : ∀ (a : Reply) (s' : State n), (Thrown a → s'.wrote t = false) →
      (atomicRules t cond).wp t (.op (.reply a) .pure : P Unit) (fun _ _ => True) (fun _ _ => True) s' := by
    intro a s' ha s₁ _ hi hr _ _ r₁ s₂ hexec
    cases hexec
    refine ⟨⟨fun b hb hwho hthrown => ?_, trivial, fun _ => .inl rfl⟩, trivial⟩
    rcases List.mem_append.1 hb with hb | hb
    · exact hi b hb hwho hthrown
    · cases List.mem_singleton.1 hb
      show s₁.wrote t = false
      rw [hr.keep.wrote]
      exact ha hthrown
  unfold session
  rw [Rules.wp_bind, Rules.wp_tryCatch, Rules.wp_bind]
  refine Rules.wp_mono (fun a s' _ => hreply (.ok a) s' fun ⟨e, he⟩ => by cases he) (fun e s' h' => ?_) _ _ hcreate
  exact hreply (.error e) s' fun _ => h'.wrote

/-- The call of session `t` is all or nothing, at each of its steps from a configuration. -/
structure AllOrNothing {n : Nat} (cond : Fin n → Op → State n → Prop) (t : Fin n) (C : Configuration n) : Prop where
  /-- What the call changes it changes in one step, together with an event of its own. -/
  together : ∀ C₁, Step (World n) cond (some t) C C₁ → C₁.st.db = C.st.db ∨
    C.st.wrote t = false ∧ ∃ K l e, C₁.st.db.events K = C.st.db.events K ++ l ∧ e ∈ l ∧ e.writer = t
  /-- A call that is going to throw changes nothing. -/
  thrown : ∀ C₁ C', Step (World n) cond (some t) C C₁ → Reaches (World n) cond C₁ C' → (∀ a ∈ C.st.replies, a.who ≠ t) →
    (∃ a ∈ C'.st.replies, a.who = t ∧ Thrown a.reply) → C₁.st.db = C.st.db

/-- A run is created and its step is started, lazily. -/
def lazyStart : Fin 2 → CreateReq
  | 0 => { tenant := "t", runId := none, ulid := "r", event := .runCreated { deploymentId := "d", workflowName := "w" } }
  | 1 => { tenant := "t", runId := some "r", event := .stepStarted "s" (some "step") none }

/-- A run is created and completed. -/
def completion : Fin 2 → CreateReq
  | 0 => { tenant := "t", runId := none, ulid := "r", event := .runCreated { deploymentId := "d", workflowName := "w" } }
  | 1 => { tenant := "t", runId := some "r", event := .runCompleted }

end WorkflowWorld
