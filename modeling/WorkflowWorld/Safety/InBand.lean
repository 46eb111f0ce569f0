/-
The requests under the in-band fence. An out-of-band request never writes the count; an in-band one
pays for its first event by the advance, inside the one transaction it is.
-/
import WorkflowWorld.Safety.Fence
import WorkflowWorld.Concurrency.Record

namespace WorkflowWorld

open Concurrency Schema

/-! ## Out-of-band requests -/

/-- A fence that is found consumed has its advance pending. -/
def advanceKept {n : Nat} (requests : Fin n → CreateReq) (K : RunKey) (t : Fin n) : Op → State n → Bool
  | .load, s => !(requests t).inBandOn K || !s.mem t || (s.pend t).any fun w => match w with
    | .updateSlots k _ => k = K
    | _ => false
  | _, _ => true

section Requests

variable {n : Nat} {cond : Fin n → Op → State n → Prop} {requests : Fin n → CreateReq} {K : RunKey} {base : Nat} {t : Fin n}
  {s s' : State n} {A : State n → Prop} {c : Ctx} {k : RunKey} {v : EventValues}

theorem slotted_of_fence (hi : (fenceRules cond requests K base).Inv s) (h : (s.view t).slotted K = true) : Slotted K t s := by
  rw [Schema.State.view_eq] at h
  exact FenceDraft.slotted (hi.draft_pend t) h

theorem fence_slotted_frame (hx : (requests t).expectedOn K = none) :
    (fenceRules cond requests K base).Frame t (Slotted K t) (fun _ _ => True) :=
  TxRules.went_frame (fun _ _ _ _ _ hs => by rw [hx] at hs; cases hs) (fun _ _ h hw => h.mono hw.grows hw.pend)
    fun _ h => h.beginTx

theorem fence_frame (hx : (requests t).expectedOn K = none) :
    (fenceRules cond requests K base).Frame t (fun _ => True) (fun _ _ => True) :=
  TxRules.any_frame fun _ _ hs => by rw [hx] at hs; cases hs

/-- A statement beside the log. -/
theorem fence_admits_offLog {q : Query} (h : q.OffLog K) : (fenceRules cond requests K base).Admits t A (fun _ _ => True) q :=
  .mono (fun _ h => h) (fun _ _ _ _ => trivial) (.of_inert fun _ _ _ _ _ => h.writes)

/-- What an insert into the run's log writes. -/
theorem insertEvent_writes (K : RunKey) (w : EventInsert) (oc : OnConflict) (pick : Pick) (now : Nat) (d : Db) :
    (∀ w' ∈ (plan (.insertEvent K w oc) pick now d).writes, ¬w'.Marks K) ∧
      ∀ e ∈ appended K (plan (.insertEvent K w oc) pick now d).writes, e = w.row now := by
  refine ⟨fun w' hw => ?_, fun e he => ?_⟩
  · obtain ⟨rfl, -⟩ := insertEventPlan_writes hw
    rintro ⟨m, h | h⟩ <;> cases h
  · obtain ⟨heq, -⟩ := insertEventPlan_writes (mem_appended.1 he)
    cases heq; rfl

/-- An append to the run's log by a session that expects no count. -/
theorem fence_admits_insertEvent (hx : (requests t).expectedOn K = none) {w : EventInsert} (hw : w.writer = t) (oc : OnConflict) :
    (fenceRules cond requests K base).Admits t (Slotted K t) (fun _ _ => True) (.insertEvent K w oc) := by
  intro s pick a _ hi _ ha _ _ _
  have hd : FenceDraft requests K t (s.pend t) s.db := hi.draft_pend t
  obtain ⟨hm, he⟩ := insertEvent_writes K w oc pick (s.clock t) (s.view t)
  refine ⟨⟨hd.append hm (fun e h => by rw [he e h]; exact hw) (fun _ => ha) fun hs => ?_, fun _ hs => ?_⟩, trivial, trivial⟩ <;>
    rw [hx] at hs <;> cases hs

/-- The session opens the run's slots. -/
theorem fence_admits_insertSlots {k : RunKey} :
    (fenceRules cond requests K base).Admits t A (fun _ _ => True) (.insertSlots k) := by
  by_cases hk : k = K
  · subst hk
    intro s pick a _ hi _ _ _ _ _
    have hd : FenceDraft requests k t (s.pend t) s.db := hi.draft_pend t
    cases hs : (s.view t).slots.lookup k with
    | some m =>
      have hw : (plan (.insertSlots k) pick (s.clock t) (s.view t)).writes = [] := by simp only [plan, hs]
      refine ⟨⟨?_, fun _ _ hne => ?_⟩, trivial, trivial⟩
      · show FenceDraft requests k t (s.pend t ++ (plan (.insertSlots k) pick (s.clock t) (s.view t)).writes) s.db
        rw [hw, List.append_nil]; exact hd
      · exact absurd (by rw [show Plan.writes _ = _ from hw]; rfl) hne
    | none =>
      have hw : (plan (.insertSlots k) pick (s.clock t) (s.view t)).writes = [.insertSlots k 1] := by simp only [plan, hs]
      refine ⟨⟨?_, fun _ _ hne => ?_⟩, trivial, trivial⟩
      · show FenceDraft requests k t (s.pend t ++ (plan (.insertSlots k) pick (s.clock t) (s.view t)).writes) s.db
        rw [hw]; exact hd.open (Schema.State.view_eq s t ▸ hs)
      · exact absurd (by rw [show Plan.writes _ = _ from hw]; rfl) hne
  · exact fence_admits_offLog (Query.offLog_insertSlots hk)

/-- What the request's own fence is. -/
theorem expectedOn_of_fence {D : Deps} {r : CreateReq} {me : Nat} (hc : r.Under D me c) {f : PendingFence} (hf : c.fence = some f)
    (hk : K = (f.tenant, f.runId)) : r.expectedOn K = some f.expected := by
  rw [hc.fence, Option.bind_eq_some_iff] at hf
  obtain ⟨run, hrun, hf⟩ := hf
  obtain ⟨x, hx, rfl⟩ := Option.map_eq_some_iff.1 hf
  subst hk
  simp [CreateReq.expectedOn, CreateReq.inBandOn, hrun, hx]

variable {D : Deps}

/-- An append, by a session that expects no count of the run. -/
theorem fence_runs_tryAppend (hcond : ∀ t o s, cond t o s → markerFound K t o s = true) (hx : (requests t).expectedOn K = none)
    (hc : (requests t).Under D t c) (k : RunKey) (v : EventValues) :
    (fenceRules cond requests K base).Runs t (fun _ => True) (fun _ _ => True) (tryAppend c k v) := by
  have hfence : ∀ f, c.fence = some f → k = (f.tenant, f.runId) → k ≠ K := by
    rintro f hf hkf rfl
    rw [expectedOn_of_fence hc hf hkf] at hx; cases hx
  by_cases hk : k = K
  · subst hk
    refine .bind_gives (fence_frame hx) (B := fun _ => Slotted k t) (gives_sql (fence_frame hx) (admits_read rfl fun _ _ _ => trivial)
      fun s pick a _ hi _ _ hc' hans hw => ?_) fun alloc => ?_
    · have hfound : (s.view t).slotted k = true := by simpa [markerFound] using hcond _ _ _ hc'
      exact (slotted_of_fence hi hfound).mono hw.grows hw.pend
    · refine .of_built (fence_slotted_frame hx) (fun q hq => ?_) (fun _ _ _ _ => trivial) (fun _ _ h => h.elim)
        (Built.of_plain (B := NoBlock) (plain_insertEventRow alloc))
      rcases hq with h | ⟨id, at', rfl⟩ | ⟨f, hf, hkf, -⟩
      · exact admits_read h fun _ _ _ => trivial
      · exact fence_admits_insertEvent hx hc.me _
      · exact absurd rfl (hfence f hf hkf)
  · refine .of_built (fence_frame hx) (fun q hq => ?_) (fun _ _ _ _ => trivial) (fun _ _ h => h.elim) built_tryAppend
    rcases hq with h | ⟨id, at', rfl⟩ | ⟨f, hf, hkf, rfl⟩
    · exact admits_read h fun _ _ _ => trivial
    · exact fence_admits_offLog (Query.offLog_insertEvent hk ..)
    · exact fence_admits_offLog (Query.offLog_advanceSlots hk _)

/-- The marker is there once the session has opened the slots. -/
theorem slotted_insertSlots (hi : (fenceRules cond requests K base).Inv s) {pick : Pick}
    (hw : (fenceRules cond requests K base).Went t s ((s.see t).write t (plan (.insertSlots K) pick (s.clock t) (s.view t)).takes
      (plan (.insertSlots K) pick (s.clock t) (s.view t)).writes)) :
    Slotted K t ((s.see t).write t (plan (.insertSlots K) pick (s.clock t) (s.view t)).takes
      (plan (.insertSlots K) pick (s.clock t) (s.view t)).writes) := by
  cases hs : (s.view t).slots.lookup K with
  | some m => exact (slotted_of_fence hi (by unfold Db.slotted; rw [hs]; rfl)).mono hw.grows hw.pend
  | none =>
    have hwr : (plan (.insertSlots K) pick (s.clock t) (s.view t)).writes = [.insertSlots K 1] := by simp only [plan, hs]
    cases hx : s.tx t with
    | none =>
      refine .inl ?_
      rw [TxRules.write_tx_none (s := s.see t) hx, hwr]
      exact (slotted_applyAll _ _).2 (.inr ⟨_, List.mem_singleton_self _, 1, .inl rfl⟩)
    | some x =>
      refine .inr ⟨1, ?_⟩
      rw [TxRules.write_pend (s := s.see t) hx, hwr]
      exact List.mem_append_right _ (List.mem_singleton_self _)

/-- A new run's rows, by a session that expects no count of it. -/
theorem fence_runs_insertRunRow (hx : (requests t).expectedOn K = none) (hc : (requests t).Under D t c) (i : RunInput) :
    (fenceRules cond requests K base).Runs t (fun _ => True) (fun _ _ => True) (insertRunRow c (i.row c) (i.created c)) := by
  by_cases hk : c.key = K
  · refine .bind (fence_frame hx) (runs_sql (fence_frame hx) (fence_admits_offLog
      (Query.offLog_of_tbl (by simp [Query.tbl]) (by simp [Query.tbl])))) fun inserted => ?_
    cases inserted with
    | false => exact TxRules.runs_pure (fence_frame hx) _
    | true =>
      refine .bind_gives (fence_frame hx) (B := fun _ => Slotted K t) (gives_sql (fence_frame hx) fence_admits_insertSlots
        fun s pick a _ hi _ _ _ _ hw => ?_) fun _ => ?_
      · rw [hk] at hw ⊢; exact slotted_insertSlots hi hw
      · refine .bind (fence_slotted_frame hx) (runs_sql (fence_slotted_frame hx) ?_) fun _ =>
          TxRules.runs_pure (fence_slotted_frame hx) _
        rw [hk]; exact fence_admits_insertEvent hx hc.me _
  · refine .of_built (fence_frame hx) (fun q hq => ?_) (fun _ h => h.elim) (fun _ _ h => h.elim) (built_insertRunRow i)
    rcases hq with rfl | rfl | rfl
    · exact fence_admits_offLog (Query.offLog_of_tbl (by simp [Query.tbl]) (by simp [Query.tbl]))
    · exact fence_admits_insertSlots
    · exact fence_admits_offLog (Query.offLog_insertEvent hk ..)

/-- The blocks of a request that expects no count of the run. -/
theorem fence_runs_block (hcond : ∀ t o s, cond t o s → markerFound K t o s = true) (hx : (requests t).expectedOn K = none)
    (hc : (requests t).Under D t c) {l : Bool} (hl : l = true → c.key ≠ K) {α : Type} {p : P α}
    (h : Block c (requests t).event l α p) : (fenceRules cond requests K base).Runs t (fun _ => True) (fun _ _ => True) p := by
  cases h with
  | append _ => exact fence_runs_tryAppend hcond hx hc _ _
  | @run i hi =>
    refine .transaction (fence_frame hx) (fence_frame hx) (fun _ _ => trivial) ?_
    refine .of_built (fence_frame hx) (fun q hq => fence_admits_offLog hq.offLog) (fun _ h => h.elim) ?_
      (built_insertAdmittedRun (l := false) hi)
    rintro _ _ ⟨⟩
    exact fence_runs_insertRunRow hx hc i
  | legacy h =>
    exact .bind (fence_frame hx) (runs_sql (fence_frame hx) (fence_admits_offLog (Query.offLog_insertEvent (hl h) ..)))
      fun _ => TxRules.runs_pure (fence_frame hx) _

/-- A request that expects no count of the run. -/
theorem fence_runs_outOfBand (hcond : ∀ t o s, cond t o s → markerFound K t o s = true ∧ ∀ u, (s.view u).ModernRun K)
    (hreq : CreatedModern D requests K) (hx : (requests t).expectedOn K = none) (hc : (requests t).Under D t c) :
    (fenceRules cond requests K base).Runs t (fun _ => True) (fun _ _ => True) (createOnRun c (requests t).event) := by
  have hmark : ∀ t o s, cond t o s → markerFound K t o s = true := fun t o s h => (hcond t o s h).1
  by_cases hk : c.key = K
  · refine runs_createOnModernRun (fence_frame hx) (fun _ _ _ => trivial) (fun s h => hk ▸ (hcond _ _ _ h).2 t)
      (hreq.spec hc hk) fun α p hp => ?_
    exact .of_built (fence_frame hx) (fun q hq => fence_admits_offLog hq.offLog) (fun _ h => h.elim)
      (fun _ _ hb => fence_runs_block hmark hx hc (fun h => by cases h) hb) hp
  · exact .of_built (fence_frame hx) (fun q hq => fence_admits_offLog hq.offLog) (fun _ h => h.elim)
      (fun _ _ hb => fence_runs_block hmark hx hc (fun _ => hk) hb) built_createOnRun

end Requests

/-! ## In-band requests -/

section InBand

variable {n : Nat} {cond : Fin n → Op → State n → Prop} {requests : Fin n → CreateReq} {K : RunKey} {base : Nat} {t : Fin n}
  {s s' : State n} {c : Ctx} {k : RunKey} {v : EventValues} {D : Deps} {p : Prop}

/-- The session has committed nothing to the run's log. -/
def NoOwn (K : RunKey) (t : Fin n) (s : State n) : Prop := ∀ e ∈ s.db.events K, e.writer ≠ t

/-- The session's pending events are paid for. -/
def Paid (K : RunKey) (t : Fin n) (s : State n) : Prop := appended K (s.pend t) ≠ [] → Advances K (s.pend t)

/-- The session is inside its one transaction. -/
structure Fenced (K : RunKey) (t : Fin n) (s : State n) : Prop where
  inside : s.nest t ≠ none
  noOwn : NoOwn K t s

/-- The session goes on with nothing committed and, where `p`, with its events paid for. -/
structure Pays (p : Prop) (K : RunKey) (t : Fin n) (s s' : State n) : Prop where
  noOwn : NoOwn K t s → NoOwn K t s'
  paid : p → Paid K t s → Paid K t s'

theorem Pays.of_eq (hdb : s'.db = s.db) (hp : s'.pend t = s.pend t) : Pays p K t s s' :=
  ⟨fun h => by unfold NoOwn; rw [hdb]; exact h, fun _ h => by unfold Paid; rw [hp]; exact h⟩

theorem NoOwn.rely (h : NoOwn K t s) (hr : (fenceRules cond requests K base).rules.Rely t s s') : NoOwn K t s' :=
  fun e he hw => h e (hr.spares e he hw) hw

theorem Paid.rely (h : Paid K t s) (hr : (fenceRules cond requests K base).rules.Rely t s s') : Paid K t s' := by
  unfold Paid; rw [hr.keep.pend]; exact h

theorem Fenced.rely (h : Fenced K t s) (hr : (fenceRules cond requests K base).rules.Rely t s s') : Fenced K t s' :=
  ⟨by rw [TxRules.nest_of_tx hr.keep.tx]; exact h.inside, h.noOwn.rely hr⟩

theorem Fenced.tx (h : Fenced K t s) : ∃ x, s.tx t = some x :=
  Option.ne_none_iff_exists'.1 fun hx => h.inside (TxRules.nest_none.2 hx)

theorem Fenced.write (h : Fenced K t s) (takes : List Key) (ws : List Write) : Fenced K t ((s.see t).write t takes ws) := by
  obtain ⟨x, hx⟩ := h.tx
  refine ⟨by rw [TxRules.write_nest]; exact h.inside, ?_⟩
  unfold NoOwn
  rw [TxRules.write_db (s := s.see t) hx]
  exact h.noOwn

theorem Fenced.write_pend (h : Fenced K t s) (takes : List Key) (ws : List Write) :
    ((s.see t).write t takes ws).pend t = s.pend t ++ ws := by
  obtain ⟨x, hx⟩ := h.tx
  exact TxRules.write_pend (s := s.see t) hx takes ws

/-- Writes that are no events leave what is owed. -/
theorem Pays.write (h : Fenced K t s) {takes : List Key} {ws : List Write} (hno : appended K ws = []) :
    Pays p K t s ((s.see t).write t takes ws) := by
  refine ⟨fun _ => (h.write takes ws).noOwn, fun _ hp => ?_⟩
  unfold Paid
  rw [h.write_pend, appended_append, hno, List.append_nil, advances_append]
  exact fun hne => .inl (hp hne)

theorem Fenced.beginTx (h : Fenced K t s) : Fenced K t (s.beginTx t) :=
  ⟨by rw [TxRules.beginTx_nest]; simp, by unfold NoOwn; rw [TxRules.beginTx_db]; exact h.noOwn⟩

theorem Pays.beginTx (s : State n) (t : Fin n) : Pays p K t s (s.beginTx t) := by
  obtain ⟨-, -, -, hp, -⟩ := TxRules.beginTx_tx s t
  exact .of_eq (TxRules.beginTx_db s t) hp

/-- The end of a savepoint. -/
theorem Fenced.commitTx {s₁ s₃ : State n} (h : Fenced K t s₁) (hw : (fenceRules cond requests K base).Went t (s₁.beginTx t) s₃) :
    (s₃.commitTx t).db = s₃.db ∧ (s₃.commitTx t).pend t = s₃.pend t ∧ (s₃.commitTx t).nest t ≠ none := by
  obtain ⟨x, hx⟩ := h.tx
  obtain ⟨x₃, hx₃, hc, -⟩ := TxRules.commitTx_inner hx hw.nest
  refine ⟨by rw [hc]; rfl, ?_, by rw [TxRules.commitTx_nest hw.nest]; exact h.inside⟩
  rw [hc]; unfold Schema.State.pend; rw [Schema.State.setTx_tx_self, hx₃]

theorem pays_frame : (fenceRules cond requests K base).Frame t (Fenced K t) (Pays p K t) where
  refl _ _ := .of_eq rfl rfl
  trans _ _ _ h1 h2 := ⟨fun h => h2.noOwn (h1.noOwn h), fun hp h => h2.paid hp (h1.paid hp h)⟩
  rely s s' _ _ hr := ⟨fun h => h.rely hr, fun _ h => h.rely hr⟩
  failed s s' _ hf := by
    rcases hf with rfl | rfl | rfl
    · exact .of_eq rfl rfl
    · exact .of_eq (Schema.State.fail_db ..) (Schema.State.fail_pend ..)
    · exact .of_eq (Schema.State.fail_db ..) (Schema.State.fail_pend ..)
  keeps s s' h hw hg := ⟨by rw [hw.nest]; exact h.inside, hg.noOwn h.noOwn⟩
  enter s h := h.beginTx
  ready s₁ _ h hx _ _ _ _ := absurd (TxRules.nest_none.2 hx) h.inside
  commit s₁ s₃ h _ _ hw hg := by
    obtain ⟨hdb, hp, -⟩ := h.commitTx hw
    have hb := Pays.beginTx (p := p) (K := K) s₁ t
    exact ⟨fun h' => by unfold NoOwn; rw [hdb]; exact hg.noOwn (hb.noOwn h'),
      fun hp' h' => by unfold Paid; rw [hp]; exact hg.paid hp' (hb.paid hp' h')⟩
  rollback s₁ s₃ _ _ hw hg := by
    have htx := TxRules.rollbackTx_tx hw.nest
    refine ⟨fun h' => ?_, fun _ h' => ?_⟩
    · unfold NoOwn; rw [TxRules.rollbackTx_db]; exact hg.noOwn ((Pays.beginTx (p := p) s₁ t).noOwn h')
    · unfold Paid Schema.State.pend; rw [htx]; exact h'

/-- Where every event is paid for at the start, it is at the end. -/
theorem gives_paid {α : Type} {prog : P α} {B : α → State n → Prop}
    (h : (fenceRules cond requests K base).Gives t (Fenced K t) (Pays True K t) prog B) :
    (fenceRules cond requests K base).Gives t (fun s => Fenced K t s ∧ Paid K t s) (Pays p K t) prog
      fun a s => B a s ∧ Fenced K t s ∧ Paid K t s := by
  intro s hs ha
  have hup : ∀ s', (fenceRules cond requests K base).Upto t (Pays True K t) s s' →
      (fenceRules cond requests K base).Upto t (Pays p K t) s s' :=
    fun s' h => ⟨h.sound, h.went, h.frame.noOwn, fun _ => h.frame.paid trivial⟩
  exact Rules.wp_mono (fun a s' h' => ⟨hup s' h'.1, h'.2, h'.1.keeps pays_frame ha.1, h'.1.frame.paid trivial ha.2⟩)
    (fun e s' h' => ⟨h'.went, fun hc => hup s' (h'.upto hc)⟩) _ _ (h s hs ha.1)

theorem gives_paid_of_runs {α : Type} {prog : P α} (h : (fenceRules cond requests K base).Runs t (Fenced K t) (Pays True K t) prog) :
    (fenceRules cond requests K base).Gives t (fun s => Fenced K t s ∧ Paid K t s) (Pays p K t) prog
      fun _ s => Fenced K t s ∧ Paid K t s := by
  intro s hs ha
  exact Rules.wp_mono (fun _ _ h' => ⟨h'.1, h'.2.2⟩) (fun _ _ h' => h') _ _ (gives_paid (h.gives pays_frame) s hs ha)

/-- A statement beside the log. -/
theorem pays_admits_offLog {q : Query} (h : q.OffLog K) :
    (fenceRules cond requests K base).Admits t (Fenced K t) (Pays p K t) q := by
  intro s pick a hb hi hs ha hc hans hf
  obtain ⟨h1, h2, -⟩ := fence_admits_offLog (A := fun _ => True) h s pick a hb hi hs trivial hc hans hf
  exact ⟨h1, h2, .write ha (appended_offLog h.writes)⟩

theorem pays_admits_insertSlots {k : RunKey} : (fenceRules cond requests K base).Admits t (Fenced K t) (Pays p K t) (.insertSlots k) := by
  intro s pick a hb hi hs ha hc hans hf
  obtain ⟨h1, h2, -⟩ := fence_admits_insertSlots (A := fun _ => True) s pick a hb hi hs trivial hc hans hf
  refine ⟨h1, h2, .write ha (List.eq_nil_iff_forall_not_mem.2 fun e he => ?_)⟩
  cases plan_tbl (mem_appended.1 he)

/-- An event of the session's own, which is paid for already or will be. -/
theorem pays_extends_insertEvent (hi : (fenceRules cond requests K base).Inv s) (ha : Fenced K t s) (hsl : Slotted K t s)
    {w : EventInsert} (hw : w.writer = t) (oc : OnConflict) (pick : Pick) :
    (fenceRules cond requests K base).Extends t s (plan (.insertEvent K w oc) pick (s.clock t) (s.view t)).takes
      (plan (.insertEvent K w oc) pick (s.clock t) (s.view t)).writes := by
  have hd : FenceDraft requests K t (s.pend t) s.db := hi.draft_pend t
  obtain ⟨hm, he⟩ := insertEvent_writes K w oc pick (s.clock t) (s.view t)
  exact ⟨hd.append hm (fun e h => by rw [he e h]; exact hw) (fun _ => hsl) fun _ _ => ha.noOwn,
    fun hx => absurd (TxRules.nest_none.2 hx) ha.inside⟩

theorem pays_slotted_frame : (fenceRules cond requests K base).Frame t (fun s => Fenced K t s ∧ Slotted K t s) (Pays p K t) :=
  pays_frame.and (fun _ _ h hw => h.mono hw.grows hw.pend) fun _ h => h.beginTx

/-- The count is advanced already. -/
theorem pays_advanced_frame : (fenceRules cond requests K base).Frame t
    (fun s => (Fenced K t s ∧ Slotted K t s) ∧ Advances K (s.pend t)) (Pays p K t) := by
  refine pays_slotted_frame.and (fun _ _ h hw => h.imp fun m hm => hw.pend.subset hm) fun s h => ?_
  obtain ⟨-, -, -, hp, -⟩ := TxRules.beginTx_tx s t
  rw [hp]; exact h

/-- An append after the advance owes nothing. -/
theorem pays_admits_insertEvent {w : EventInsert} (hw : w.writer = t) (oc : OnConflict) :
    (fenceRules cond requests K base).Admits t (fun s => (Fenced K t s ∧ Slotted K t s) ∧ Advances K (s.pend t)) (Pays p K t)
      (.insertEvent K w oc) := by
  intro s pick a _ hi _ ha _ _ _
  refine ⟨pays_extends_insertEvent hi ha.1.1 ha.1.2 hw oc pick, trivial, fun _ => (ha.1.1.write _ _).noOwn, fun _ _ _ => ?_⟩
  rw [ha.1.1.write_pend, advances_append]
  exact .inl ha.2

theorem gives_insertAtSlot_advanced (hme : c.me = t) : ∀ attempts, (fenceRules cond requests K base).Gives t
    (fun s => (Fenced K t s ∧ Slotted K t s) ∧ Advances K (s.pend t)) (Pays p K t) (insertAtSlot c K v none attempts)
    fun _ s => (Fenced K t s ∧ Slotted K t s) ∧ Advances K (s.pend t) := by
  have hstep : ∀ retry, (fenceRules cond requests K base).Runs t
      (fun s => (Fenced K t s ∧ Slotted K t s) ∧ Advances K (s.pend t)) (Pays p K t) retry →
      (fenceRules cond requests K base).Runs t
        (fun s => (Fenced K t s ∧ Slotted K t s) ∧ Advances K (s.pend t)) (Pays p K t) (insertAtNextSlot c K v none retry) := by
    intro retry hretry
    refine .bind pays_advanced_frame (runs_sql pays_advanced_frame (admits_read rfl fun s takes h => .write h.1.1 rfl)) fun m => ?_
    refine .bind pays_advanced_frame (runs_sql pays_advanced_frame (pays_admits_insertEvent hme _)) fun inserted => ?_
    cases inserted with
    | true => exact TxRules.runs_pure pays_advanced_frame _
    | false => exact hretry
  intro attempts
  induction attempts with
  | zero => exact (hstep _ (TxRules.runs_throw pays_advanced_frame _)).gives pays_advanced_frame
  | succ attempts ih => exact (hstep _ ih.runs).gives pays_advanced_frame

/-- The advance that pays for an event, or an error that nothing catches. -/
theorem wp_advanceFence {f : PendingFence} (hx : (requests t).expectedOn K = some f.expected) (hk : K = (f.tenant, f.runId))
    {s : State n} (ha : Fenced K t s) (hsl : Slotted K t s) (hne : appended K (s.pend t) ≠ []) :
    (fenceRules cond requests K base).rules.wp t (advanceFence f)
      (fun _ s' => (fenceRules cond requests K base).Went t s s' ∧ Fenced K t s' ∧ Advances K (s'.pend t))
      (fun e s' => (fenceRules cond requests K base).Went t s s' ∧ ¬caught e) s := by
  unfold advanceFence
  rw [← hk]
  refine (Rules.wp_bind _ _ _ _).2 (wp_sql_open (fun s₁ pick a _ hi hr _ hans => ?_) fun s₁ e hw he => ⟨hw, not_caught_sql fun v hv => ?_⟩)
  · have ha₁ := ha.rely hr
    have hd : FenceDraft requests K t (s₁.pend t) s₁.db := hi.draft_pend t
    have hne₁ : appended K (s₁.pend t) ≠ [] := by rw [hr.keep.pend]; exact hne
    have hw₁ := (TxRules.Still.of_rely hr).went
    have hsl₁ : Slotted K t s₁ := hsl.mono hw₁.grows hw₁.pend
    by_cases hv : (s₁.view t).slots.lookup K = some f.expected
    · -- the count is the expected one: it is advanced
      simp only [plan, hv, if_true] at hans ⊢
      cases hans
      refine ⟨⟨hd.advance hx (Schema.State.view_eq s₁ t ▸ hv) hne₁, fun h => absurd (TxRules.nest_none.2 h) ha₁.inside⟩,
        fun hw₂ => ⟨hw₂, ha₁.write _ _, ?_⟩⟩
      rw [ha₁.write_pend, advances_append]
      exact .inr ⟨_, List.mem_singleton_self _⟩
    · -- it has moved: the session is superseded, and the marker it saw is still there
      have hplan : plan (.advanceSlots K f.expected) pick (s₁.clock t) (s₁.view t) = read false := by
        simp only [plan]
        cases hs : (s₁.view t).slots.lookup K with
        | none => rfl
        | some m => exact if_neg fun h => hv (by rw [hs, h])
      rw [hplan] at hans ⊢
      cases hans
      refine ⟨TxRules.extends_inert hi (by simp [read]), fun hw₂ => ?_⟩
      have ha₂ := ha₁.write [] []
      have hsl₂ : Slotted K t ((s₁.see t).write t [] []) := hsl.mono hw₂.grows hw₂.pend
      refine (Rules.wp_bind _ _ _ _).2 (wp_sql_open (fun s₃ pick₃ current _ hi₃ hr₃ _ hans₃ => ?_) fun s₃ e hw he =>
        ⟨hw₂.trans hw, not_caught_sql fun v hv => ?_⟩)
      · have hw₃ := (TxRules.Still.of_rely hr₃).went
        cases hans₃
        refine ⟨TxRules.extends_inert hi₃ (by simp [plan, read]), fun hw₄ => ?_⟩
        obtain ⟨m, hm⟩ := Option.isSome_iff_exists.1 (hsl₂.mono hw₃.grows hw₃.pend).view
        rw [show AList.lookup K (Db.slots (s₃.view t)) = some m from hm]
        exact ⟨hw₂.trans hw₄, by rintro (h | h | h) <;> cases h⟩
      · obtain ⟨pick, now, d, h⟩ := he v hv
        cases h
  · obtain ⟨pick, now, d, h⟩ := he v hv
    simp only [plan] at h
    split at h
    · cases h
    · split at h <;> cases h

/-- One insert under the fence: its event is paid for by the advance that follows it. -/
theorem gives_paidInsert {f : PendingFence} (hx : (requests t).expectedOn K = some f.expected) (hk : K = (f.tenant, f.runId))
    {w : EventInsert} (hme : w.writer = t) (id : EventId) {retry : P (Option EventId)}
    (hretry : (fenceRules cond requests K base).Gives t (fun s => Fenced K t s ∧ Slotted K t s) (Pays p K t) retry
      fun _ s => Fenced K t s ∧ Paid K t s) :
    (fenceRules cond requests K base).Gives t (fun s => Fenced K t s ∧ Slotted K t s) (Pays p K t)
      (do
        let inserted : Bool ← sql (.insertEvent K w .doNothingOnKey)
        if inserted then Prog.op (.store true) fun _ => do
          advanceFence f
          return some id
        else retry)
      fun _ s => Fenced K t s ∧ Paid K t s := by
  intro s hs ha
  refine (Rules.wp_bind _ _ _ _).2 (TxRules.wp_query (S := schema) _ _ (fun s₁ pick inserted _ hi hr _ hans _ _ => ?_)
    fun s₁ s₂ e _ hi hr _ hf _ => ?_)
  · have h₁ : (fenceRules cond requests K base).Upto t (Pays p K t) s s₁ := .of_rely pays_slotted_frame hs ha hi hr
    have ha₁ := h₁.keeps pays_slotted_frame ha
    have hwrites : (plan (.insertEvent K w .doNothingOnKey) pick (s₁.clock t) (s₁.view t)).writes = _ := insertEventPlan_ans hans
    have hx₁ := pays_extends_insertEvent hi ha₁.1 ha₁.2 hme .doNothingOnKey pick
    have hw₂ := (TxRules.Still.see (R := fenceRules cond requests K base) s₁ t).went.trans
      (TxRules.Went.write (s := s₁.see t) (TxRules.Inv.see hi) hx₁)
    have ha₂ := ha₁.1.write (plan (.insertEvent K w .doNothingOnKey) pick (s₁.clock t) (s₁.view t)).takes
      (plan (.insertEvent K w .doNothingOnKey) pick (s₁.clock t) (s₁.view t)).writes
    have hsl₂ := ha₁.2.mono hw₂.grows hw₂.pend
    refine ⟨hx₁, ?_⟩
    cases inserted with
    | false =>
      have h₂ : (fenceRules cond requests K base).Upto t (Pays p K t) s _ :=
        h₁.trans pays_slotted_frame ⟨fun _ _ => trivial, hw₂, .write ha₁.1 (by rw [hwrites]; rfl)⟩
      exact Rules.wp_mono (fun _ _ h => ⟨h₂.trans pays_slotted_frame h.1, h.2⟩) (fun _ _ h => h₂.trans_left pays_slotted_frame h) _ _
        (hretry _ h₂.sound ⟨ha₂, hsl₂⟩)
    | true =>
      -- an event is owed until the advance, whose failures end the transaction
      intro s₃ hb₃ hi₃ hr₃ _ _ r₃ s₄ he₃
      cases he₃
      refine ⟨TxRules.ok_of_db rfl (TxRules.Inv.of_eq hi₃ rfl rfl rfl), ?_⟩
      have hw₃ := (TxRules.Still.of_rely hr₃).went
      have hw₄ : (fenceRules cond requests K base).Went t s { s₃ with mem := Function.update s₃.mem t true } :=
        h₁.went.trans (hw₂.trans (hw₃.trans (.store s₃ t true)))
      have hne : appended K (s₃.pend t) ≠ [] := by
        rw [hr₃.keep.pend, ha₁.1.write_pend, appended_append, show Plan.writes _ = _ from hwrites]
        simp [appended]
      have ha₃ : Fenced K t s₃ := ha₂.rely hr₃
      refine (Rules.wp_bind _ _ _ _).2 (Rules.wp_mono (fun _ s₅ h => ?_) (fun _ _ h => ?_) _ _ (wp_advanceFence hx hk
        (s := { s₃ with mem := Function.update s₃.mem t true }) ⟨ha₃.inside, ha₃.noOwn⟩ (hsl₂.mono hw₃.grows hw₃.pend) hne))
      · exact ⟨⟨fun _ _ => trivial, hw₄.trans h.1, fun _ => h.2.1.noOwn, fun _ _ _ => h.2.2⟩, h.2.1, fun _ => h.2.2⟩
      · exact ⟨hw₄.trans h.1, fun hc => absurd hc h.2⟩
  · have h₁ : (fenceRules cond requests K base).Upto t (Pays p K t) s s₁ := .of_rely pays_slotted_frame hs ha hi hr
    exact (h₁.trans pays_slotted_frame (.of_failed pays_slotted_frame h₁.sound (h₁.keeps pays_slotted_frame ha) hf)).left _

theorem gives_insertAtNextSlot_fenced {f : PendingFence} (hx : (requests t).expectedOn K = some f.expected)
    (hk : K = (f.tenant, f.runId)) (hme : c.me = t) {retry : P (Option EventId)}
    (hretry : (fenceRules cond requests K base).Gives t (fun s => Fenced K t s ∧ Slotted K t s) (Pays p K t) retry
      fun _ s => Fenced K t s ∧ Paid K t s) :
    (fenceRules cond requests K base).Gives t (fun s => Fenced K t s ∧ Slotted K t s) (Pays p K t)
      (insertAtNextSlot c K v (some f) retry) fun _ s => Fenced K t s ∧ Paid K t s :=
  .bind pays_slotted_frame (TxRules.Runs.gives pays_slotted_frame (runs_sql pays_slotted_frame
    (admits_read rfl fun _ _ h => .write h.1 rfl))) fun m => gives_paidInsert hx hk hme (.slot m) hretry

theorem gives_insertAtSlot_fenced {f : PendingFence} (hx : (requests t).expectedOn K = some f.expected)
    (hk : K = (f.tenant, f.runId)) (hme : c.me = t) : ∀ attempts,
    (fenceRules cond requests K base).Gives t (fun s => Fenced K t s ∧ Slotted K t s) (Pays p K t)
      (insertAtSlot c K v (some f) attempts) fun _ s => Fenced K t s ∧ Paid K t s
  | 0 => gives_insertAtNextSlot_fenced hx hk hme fun _ hs ha => (TxRules.Upto.refl pays_slotted_frame hs ha).left _
  | attempts + 1 => gives_insertAtNextSlot_fenced hx hk hme (gives_insertAtSlot_fenced hx hk hme attempts)

section Request

variable (hcond : ∀ t o s, cond t o s → markerFound K t o s = true ∧ advanceKept requests K t o s = true ∧
    ∀ u, (s.view u).ModernRun K) (hx : ((requests t).expectedOn K).isSome = true) (hc : (requests t).Under D t c)

include hx hc

/-- An in-band write's fence is for its run. -/
theorem fence_of_inBand : c.key = K ∧ ∃ f, c.fence = some f ∧ K = (f.tenant, f.runId) ∧ (requests t).expectedOn K = some f.expected := by
  obtain ⟨x, hx⟩ := Option.isSome_iff_exists.1 hx
  unfold CreateReq.expectedOn at hx
  split at hx
  · rename_i hin
    rw [CreateReq.inBandOn, Bool.and_eq_true, decide_eq_true_eq, decide_eq_true_eq] at hin
    have hrun : (requests t).run = some K.2 := by
      have hf := hin.2
      unfold CreateReq.fenced at hf
      split at hf
      · cases hf
      · split at hf
        · exact hf
        · cases hf
    have hkey : c.runId = K.2 := by
      rcases hc.run with h | ⟨h, -⟩
      · rw [hrun] at h; exact (Option.some.inj h).symm
      · rw [hrun] at h; cases h
    have hf := hc.fence
    rw [hin.2, Option.bind_some, hx, Option.map_some] at hf
    refine ⟨Prod.ext (hc.tenant.trans hin.1) hkey, _, hf, Prod.ext hin.1.symm rfl, ?_⟩
    unfold CreateReq.expectedOn
    rw [if_pos (by rw [CreateReq.inBandOn, hin.1, hin.2]; simp), hx]
  · cases hx

include hcond

/-- An append to the run itself leaves nothing owed. -/
theorem gives_tryAppend_fenced (v : EventValues) :
    (fenceRules cond requests K base).Gives t (Fenced K t) (Pays p K t) (tryAppend c K v) fun _ s => Fenced K t s ∧ Paid K t s := by
  obtain ⟨-, f, hf, hkf, hxf⟩ := fence_of_inBand hx hc
  refine .bind pays_frame (B := fun alloc s => alloc = .slot ∧ Fenced K t s ∧ Slotted K t s)
    (gives_sql pays_frame (admits_read rfl fun s takes h => .write h rfl) fun s pick a _ hi _ ha hc' hans hw => ?_) fun alloc => ?_
  · have hfound : (s.view t).slotted K = true := by simpa [markerFound] using (hcond _ _ _ hc').1
    obtain ⟨m, hm⟩ := Option.isSome_iff_exists.1 hfound
    simp only [plan, hm, read, Except.ok.injEq] at hans
    exact ⟨hans.symm, ha.write _ _, (slotted_of_fence hi hfound).mono hw.grows hw.pend⟩
  · cases alloc with
    | ulid u => exact fun s hs ha => by cases ha.1
    | slot =>
      intro s hs ha
      refine TxRules.Gives.load (A := fun s => Fenced K t s ∧ Slotted K t s) pays_slotted_frame
        (B := fun consumed s => (Fenced K t s ∧ Slotted K t s) ∧ (consumed = true → Advances K (s.pend t)))
        (fun s _ _ ha hc' => ⟨ha, fun hm => ?_⟩) (fun consumed => ?_) s hs ha.2
      · have hkept := (hcond _ _ _ hc').2.1
        have hin : (requests t).inBandOn K = true := by
          by_contra hnot
          rw [CreateReq.expectedOn, if_neg hnot] at hx; cases hx
        simp only [advanceKept, hin, hm, Bool.not_true, Bool.false_or, List.any_eq_true] at hkept
        obtain ⟨w, hw, hk⟩ := hkept
        split at hk
        · rename_i k m; rw [decide_eq_true_eq] at hk; exact ⟨m, hk ▸ hw⟩
        · cases hk
      · cases consumed with
        | true =>
          have hnone : c.fenceFor K true = none := by unfold Ctx.fenceFor; rw [hf]; simp
          simp only [hnone]
          intro s hs ha
          exact Rules.wp_mono (fun _ _ h => ⟨h.1, h.2.1.1, fun _ => h.2.2⟩) (fun _ _ h => h) _ _
            (gives_insertAtSlot_advanced hc.me _ s hs ⟨ha.1, ha.2 trivial⟩)
        | false =>
          have hsome : c.fenceFor K false = some f := by
            unfold Ctx.fenceFor; rw [hf, hkf]; simp
          simp only [hsome]
          exact fun s hs ha => gives_insertAtSlot_fenced hxf hkf hc.me _ s hs ha.1

/-- An append to any log leaves nothing owed that was not. -/
theorem pays_runs_tryAppend (k : RunKey) (v : EventValues) :
    (fenceRules cond requests K base).Runs t (Fenced K t) (Pays p K t) (tryAppend c k v) := by
  by_cases hk : k = K
  · subst hk; exact (gives_tryAppend_fenced hcond hx hc v).runs
  · refine .of_built pays_frame (fun q hq => ?_) (fun _ _ _ _ => .of_eq rfl rfl) (fun _ _ h => h.elim) built_tryAppend
    rcases hq with h | ⟨id, at', rfl⟩ | ⟨f, -, -, rfl⟩
    · exact admits_read h fun _ _ h => .write h rfl
    · exact pays_admits_offLog (Query.offLog_insertEvent hk ..)
    · exact pays_admits_offLog (Query.offLog_advanceSlots hk _)

/-- Whatever creates no run. -/
theorem pays_runs_built {e : EventReq} (he : e.input = none) {α : Type} {prog : P α}
    (h : Built (Stmt c e false) (Block c e false) prog) : (fenceRules cond requests K base).Runs t (Fenced K t) (Pays p K t) prog := by
  refine .of_built pays_frame (fun q hq => pays_admits_offLog hq.offLog) (fun _ h => h.elim) (fun _ _ hb => ?_) h
  cases hb with
  | append _ => exact pays_runs_tryAppend hcond hx hc _ _
  | run hi => rw [he] at hi; cases hi
  | legacy h => cases h

omit hcond in
/-- A new run's rows: nothing is owed where the run was there. -/
theorem gives_insertRunRow_fenced (i : RunInput) :
    (fenceRules cond requests K base).Gives t (fun s => Fenced K t s ∧ Paid K t s) (Pays False K t)
      (insertRunRow c (i.row c) (i.created c)) fun created s => Fenced K t s ∧ (created = none → Paid K t s) := by
  obtain ⟨hk, -⟩ := fence_of_inBand hx hc
  refine .bind (F := Fenced K t) pays_frame (gives_paid_of_runs (runs_sql pays_frame (pays_admits_offLog
    (Query.offLog_of_tbl (by simp [Query.tbl]) (by simp [Query.tbl]))))) fun inserted => ?_
  cases inserted with
  | false => exact fun s hs ha => ⟨.refl pays_frame hs ha.1, ha.1, fun _ => ha.2⟩
  | true =>
    refine .bind (F := Fenced K t) pays_frame (B := fun _ s => Fenced K t s ∧ Slotted K t s) (fun s hs ha => ?_) fun _ => ?_
    · refine gives_sql pays_frame pays_admits_insertSlots (fun s pick a _ hi _ ha _ _ hw => ⟨ha.write _ _, ?_⟩) s hs ha.1
      rw [hk] at hw ⊢; exact slotted_insertSlots hi hw
    · refine .bind pays_slotted_frame (TxRules.Runs.gives pays_slotted_frame (runs_sql pays_slotted_frame ?_))
        fun _ s hs ha => ⟨.refl pays_slotted_frame hs ha, ha.1, fun h => by cases h⟩
      rw [hk]
      intro s pick a _ hi _ ha _ _ _
      exact ⟨pays_extends_insertEvent hi ha.1 ha.2 hc.me _ pick, trivial, fun _ => (ha.1.write _ _).noOwn, fun h => h.elim⟩

omit hcond in
/-- The creation of a resilient start, inside its savepoint. -/
theorem gives_insertRunWithCreatedEvent_fenced (i : RunInput) :
    (fenceRules cond requests K base).Gives t (fun s => Fenced K t s ∧ Paid K t s) (Pays False K t)
      (insertRunWithCreatedEvent c (i.row c) (i.created c) i.startHook)
      fun r s => Fenced K t s ∧ (r.1 = none → Paid K t s) := by
  refine .transaction (F := Fenced K t) (D := fun s => Fenced K t s ∧ Paid K t s) (H := Fenced K t)
    (B := fun r s => Fenced K t s ∧ (r.1 = none → Paid K t s)) pays_frame pays_frame (fun _ h => h.1) (fun _ h => h.1)
    (fun s s₁ ha _ hr => ?_) (fun r s₁ s₂ s₃ ha₁ hB _ hr hw => ?_) ?_
  · exact ⟨(ha.1.rely hr).beginTx, (Pays.beginTx s₁ t).paid trivial (ha.2.rely hr)⟩
  · obtain ⟨hdb, hp, hin⟩ := ha₁.commitTx hw
    refine ⟨⟨hin, by unfold NoOwn; rw [hdb]; exact hB.1.noOwn.rely hr⟩, fun h => ?_⟩
    unfold Paid; rw [hp, hr.keep.pend]; exact hB.2 h
  · have hrow : (fenceRules cond requests K base).Gives t _ (Pays False K t) _ _ := gives_insertRunRow_fenced hx hc i
    unfold insertAdmittedRun
    split
    · exact .bind (F := Fenced K t) pays_frame hrow fun created s hs ha => ⟨.refl pays_frame hs ha.1, ha⟩
    · rename_i h hs
      refine .bind (F := Fenced K t) pays_frame (gives_paid_of_runs (.of_built pays_frame (P := Stmt c (.runStarted (some i)) false)
        (B := NoBlock) (fun q hq => pays_admits_offLog hq.offLog) (fun _ h => h.elim) (fun _ _ h => h.elim)
        (built_decideStartHookAdmission hs))) fun decision => ?_
      by_cases hd : decision = .accepted false
      · rw [if_pos hd]
        exact .bind (F := Fenced K t) pays_frame hrow fun created s hs ha => ⟨.refl pays_frame hs ha.1, ha⟩
      · rw [if_neg hd]
        exact fun s hs ha => ⟨.refl pays_frame hs ha.1, ha.1, fun _ => ha.2⟩

omit hcond in
theorem gives_runInput_create_fenced (i : RunInput) :
    (fenceRules cond requests K base).Gives t (fun s => Fenced K t s ∧ Paid K t s) (Pays False K t) (i.create c)
      fun created s => Fenced K t s ∧ (created = none → Paid K t s) := by
  refine .bind (F := Fenced K t) pays_frame (gives_paid_of_runs (.of_built pays_frame (P := Stmt c (.runStarted (some i)) false)
    (B := NoBlock) (fun q hq => pays_admits_offLog hq.offLog) (fun _ h => h.elim) (fun _ _ h => h.elim)
    (built_validateAttributes ..))) fun _ => ?_
  refine .bind (F := Fenced K t) pays_frame (gives_insertRunWithCreatedEvent_fenced hx hc i) fun inserted s hs ha => ?_
  split
  · exact (TxRules.Upto.refl pays_frame hs ha.1).left _
  · exact ⟨.refl pays_frame hs ha.1, ha⟩

/-- The start of a run that was just created pays for its creation too. -/
theorem gives_startRun_created (now : Nat) (specVersion : Option Nat) :
    (fenceRules cond requests K base).Gives t (Fenced K t) (Pays False K t) (startRun c now (some ⟨.pending, specVersion⟩))
      fun _ s => Fenced K t s ∧ Paid K t s := by
  obtain ⟨hk, -⟩ := fence_of_inBand hx hc
  refine .bind pays_frame (B := fun running s => running = none ∧ Fenced K t s) (fun s hs ha => ⟨.refl pays_frame hs ha, rfl, ha⟩)
    fun running => ?_
  cases running with
  | some r => exact fun s hs ha => by cases ha.1
  | none =>
    intro s hs ha
    refine TxRules.Gives.bind pays_frame (TxRules.Runs.gives pays_frame (runs_sql pays_frame (pays_admits_offLog
      (Query.offLog_of_tbl (by simp [Query.tbl]) (by simp [Query.tbl]))))) (fun updated => ?_) s hs ha.2
    refine .bind pays_frame (B := fun _ s => Fenced K t s ∧ Paid K t s) ?_ fun id s hs ha => ⟨.refl pays_frame hs ha.1, ha⟩
    intro s hs ha
    unfold journal appendEvent
    rw [Rules.wp_tryCatch, hk]
    refine TxRules.Gives.bind pays_frame (gives_tryAppend_fenced hcond hx hc _) (fun inserted s hs ha => ?_) s hs ha
    cases inserted with
    | some id => exact ⟨.refl pays_frame hs ha.1, ha⟩
    | none => exact (TxRules.Upto.refl pays_frame hs ha.1).left _

/-- The run that a resilient start is validated against: where it created the run, it still owes. -/
theorem gives_readCurrentRun_fenced (i : RunInput) (hspec : isLegacySpecVersion (some c.specVersion) = false) :
    (fenceRules cond requests K base).Gives t (fun s => Fenced K t s ∧ Paid K t s) (Pays False K t)
      (readCurrentRun c (.runStarted (some i))) fun cur s => Fenced K t s ∧
        (∀ r, cur = some r → isLegacySpecVersion r.specVersion = false) ∧
        (Paid K t s ∨ cur = some ⟨.pending, some c.specVersion⟩) := by
  obtain ⟨hk, -⟩ := fence_of_inBand hx hc
  have hget := gives_paid (p := False) (gives_getRunForValidation (R := fenceRules cond requests K base) (t := t) (c := c)
    (N := fun r _ => isLegacySpecVersion r.specVersion = false) pays_frame (fun _ _ h => .write h rfl) (fun _ _ _ h _ _ => h)
    fun s r _ _ _ hc' hr => (hcond _ _ _ hc').2.2 t r (hk ▸ hr))
  have hgot : ∀ cur s, ((Fenced K t s ∧ ∀ r, cur = some r → isLegacySpecVersion r.specVersion = false) ∧
      Fenced K t s ∧ Paid K t s) → Fenced K t s ∧ (∀ r : CurrentRun, cur = some r → isLegacySpecVersion r.specVersion = false) ∧
        (Paid K t s ∨ cur = some ⟨.pending, some c.specVersion⟩) := fun _ _ h => ⟨h.2.1, h.1.2, .inl h.2.2⟩
  refine .bind (F := Fenced K t) pays_frame hget fun cur s hs ha => ?_
  cases cur with
  | some r => exact ⟨.refl pays_frame hs ha.2.1, hgot _ _ ha⟩
  | none =>
    simp only
    by_cases hcomplete : i.complete = true
    · rw [if_pos hcomplete]
      refine TxRules.Gives.bind (F := Fenced K t) pays_frame (gives_runInput_create_fenced hx hc i) (fun created s hs ha => ?_) s hs ha.2
      cases created with
      | some r => exact ⟨.refl pays_frame hs ha.1, ha.1, fun r hr => by cases hr; exact hspec, .inr rfl⟩
      | none => exact Rules.wp_mono (fun _ _ h => ⟨h.1, hgot _ _ h.2⟩) (fun _ _ h => h) _ _ (hget s hs ⟨ha.1, ha.2 rfl⟩)
    · rw [if_neg hcomplete]
      exact ⟨.refl pays_frame hs ha.2.1, ha.2.1, fun r hr => (by cases hr), .inl ha.2.2⟩

/-- A resilient start. -/
theorem gives_resilientStart (i : RunInput) (hspec : isLegacySpecVersion (some c.specVersion) = false) :
    (fenceRules cond requests K base).Gives t (fun s => Fenced K t s ∧ Paid K t s) (Pays False K t)
      (createOnRun c (.runStarted (some i))) fun _ s => Fenced K t s ∧ Paid K t s := by
  have hstart : ∀ now cur, (fenceRules cond requests K base).Gives t (fun s => Fenced K t s ∧ Paid K t s) (Pays False K t)
      (startRun c now cur) fun _ s => Fenced K t s ∧ Paid K t s :=
    fun now cur => gives_paid_of_runs (pays_runs_built hcond hx hc (e := .runStarted none) rfl (built_startRun rfl rfl now cur))
  refine .bind (F := Fenced K t) pays_frame (gives_paid_of_runs (.of_built pays_frame (P := fun _ => False) (B := NoBlock)
    (fun _ h => h.elim) (fun _ h => h.elim) (fun _ _ h => h.elim) (.clock _ fun _ => .pure _))) fun now => ?_
  refine .bind (F := Fenced K t) pays_frame (gives_readCurrentRun_fenced hcond hx hc i hspec) fun cur s hs ha => ?_
  have hupto : (fenceRules cond requests K base).Upto t (Pays False K t) s s := .refl pays_frame hs ha.1
  cases cur with
  | none => exact hstart now none s hs ⟨ha.1, ha.2.2.resolve_right fun h => by cases h⟩
  | some r =>
    simp only [applyToRun]
    split
    · exact hupto.left _
    · rw [ha.2.1 r rfl, if_neg (by simp)]
      split
      · exact hupto.left _
      · rcases ha.2.2 with hp | hr
        · exact hstart now (some r) s hs ⟨ha.1, hp⟩
        · cases hr
          exact gives_startRun_created hcond hx hc now _ s hs ha.1

/-- An in-band request's work leaves nothing owed. -/
theorem gives_createOnRun_fenced (hreq : CreatedModern D requests K) :
    (fenceRules cond requests K base).Gives t (fun s => Fenced K t s ∧ Paid K t s) (Pays False K t)
      (createOnRun c (requests t).event) fun _ s => Fenced K t s ∧ Paid K t s := by
  obtain ⟨hk, f, hf, -, -⟩ := fence_of_inBand hx hc
  cases hi : (requests t).event.input with
  | none =>
    refine gives_paid_of_runs (runs_createOnModernRun pays_frame (fun _ _ h => .write h rfl)
      (fun s h => hk ▸ (hcond _ _ _ h).2.2 t) (hreq.spec hc hk) fun α prog hp => pays_runs_built hcond hx hc hi hp)
  | some i =>
    have he : (requests t).event = .runStarted (some i) := by
      cases he : (requests t).event with
      | runCreated j =>
        have := hc.fence
        rw [hf, CreateReq.fenced, he] at this
        cases this
      | runStarted j => rw [he] at hi; rw [show j = some i from hi]
      | _ => rw [he] at hi; cases hi
    rw [he]
    exact gives_resilientStart hcond hx hc i (hreq.spec hc hk (by rw [hi]; rfl))

end Request

/-- An in-band call: its transaction commits with nothing owed, or leaves nothing behind. -/
theorem wp_create_inBand (hcond : ∀ t o s, cond t o s → markerFound K t o s = true ∧ advanceKept requests K t o s = true ∧
      ∀ u, (s.view u).ModernRun K) (hreq : CreatedModern D requests K) (hin : (requests t).inBandOn K = true)
    (htx : s.tx t = none) (hno : NoOwn K t s) (hwrote : s.wrote t = false) :
    (fenceRules cond requests K base).rules.wp t (create D t (requests t))
      (fun a s' => (fenceRules cond requests K base).answer t (.ok a) (s'.seen t) (s'.wrote t) s'.db)
      (fun e s' => (fenceRules cond requests K base).answer t (.error e) (s'.seen t) (s'.wrote t) s'.db) s := by
  have hfenced : (requests t).tenant = K.1 ∧ (requests t).fenced = some K.2 := by
    simpa [CreateReq.inBandOn] using hin
  unfold create
  rw [hfenced.2]
  cases hexp : (requests t).expectedSeqInBand.filter (· ≤ maxSafeInteger) with
  | none => exact fun _ _ => hwrote
  | some x =>
    have hx : ((requests t).expectedOn K).isSome = true := by rw [CreateReq.expectedOn, if_pos hin, hexp]; rfl
    have hfence : some (⟨(requests t).tenant, K.2, x, (requests t).occurredAt⟩ : PendingFence) =
        (requests t).fenced.bind fun run => ((requests t).expectedSeqInBand.filter (· ≤ maxSafeInteger)).map fun expected =>
          ⟨(requests t).tenant, run, expected, (requests t).occurredAt⟩ := by rw [hfenced.2, Option.bind_some, hexp]; rfl
    have hbody : (fenceRules cond requests K base).Gives t (fun s => Fenced K t s ∧ Paid K t s) (Pays False K t)
        (createUnderFence D t (requests t) K.2 x) fun _ s => Fenced K t s ∧ Paid K t s := by
      have hpure : ∀ {α : Type} {prog : P α}, Built (fun _ => False) NoBlock prog → (fenceRules cond requests K base).Gives t
          (fun s => Fenced K t s ∧ Paid K t s) (Pays False K t) prog fun _ s => Fenced K t s ∧ Paid K t s :=
        fun hp => gives_paid_of_runs (.of_built pays_frame (fun _ h => h.elim) (fun _ h => h.elim) (fun _ _ h => h.elim) hp)
      refine .bind (F := Fenced K t) pays_frame (gives_paid_of_runs (runs_sql pays_frame (admits_read rfl fun _ _ h => .write h rfl)))
        fun current => .bind (F := Fenced K t) pays_frame (hpure ?_) fun _ => ?_
      · cases current with
        | some m => exact .ite (.throw _) (.pure _)
        | none => exact .pure _
      · refine .bind (F := Fenced K t) (p := Prog.op (.store false) Prog.pure) pays_frame (gives_paid_of_runs (.store pays_frame
          (fun _ _ => .of_eq rfl rfl) fun _ => TxRules.runs_pure pays_frame _)) fun _ => ?_
        exact gives_createUnfenced (F := Fenced K t) pays_frame (fun _ h => h.1) hpure hfence
          fun c hc => gives_createOnRun_fenced hcond hx hc hreq
    refine TxRules.wp_transaction (U := fun _ _ => True) (V := fun _ s₂ => s₂.wrote t = false) s (fun s₁ _ _ hr => ?_)
      (fun a s₂ s₃ _ _ _ _ _ h => by obtain ⟨e, h⟩ := h; cases h) fun e s₂ s₃ h₂ _ _ hr _ _ => ?_
    · have hb : Fenced K t (s₁.beginTx t) := ⟨by rw [TxRules.beginTx_nest]; simp, by
        unfold NoOwn; rw [TxRules.beginTx_db]; exact hno.rely hr⟩
      have hp : Paid K t (s₁.beginTx t) := by
        have hpend : s₁.pend t = [] := by unfold Schema.State.pend; rw [hr.keep.tx, htx]
        obtain ⟨-, -, -, h, -⟩ := TxRules.beginTx_tx s₁ t
        unfold Paid; rw [h, hpend]; exact fun hne => absurd rfl hne
      refine Rules.wp_mono (fun a s₂ h => ⟨fun _ _ _ hne => h.2.2 hne, trivial⟩) (fun e s₂ h => ?_) _ _
        (hbody (s₁.beginTx t) (fun _ _ => trivial) ⟨hb, hp⟩)
      rw [h.went.wrote hb.inside, (TxRules.beginTx_rest s₁ t).2.2, hr.keep.wrote]; exact hwrote
    · rw [(TxRules.rollbackTx_rest s₃ t).2.2, hr.keep.wrote]; exact h₂

theorem fence_safe {d : Db} {now : Nat} (hd : FenceOk requests K base d) (hown : ∀ e ∈ d.events K, n ≤ e.writer)
    (hreq : CreatedModern D requests K)
    (hcond : ∀ t o s, cond t o s → markerFound K t o s = true ∧ advanceKept requests K t o s = true ∧ ∀ u, (s.view u).ModernRun K) :
    (fenceRules cond requests K base).rules.Safe (initial D requests d now) := by
  refine safe_initial hd fun t => ?_
  by_cases hin : (requests t).inBandOn K = true
  · refine wp_session (wp_create_inBand hcond hreq hin rfl (fun e he hw => ?_) rfl)
    have := hown e he
    omega
  · have hx : (requests t).expectedOn K = none := by rw [CreateReq.expectedOn, if_neg hin]
    refine Runs.session (fun _ _ _ _ h => absurd h hin) (.of_built (fence_frame hx) ?_ (fun _ _ _ _ => trivial) ?_ built_create) _
      (sound_initial D requests d now) trivial
    · rintro q ⟨run, -, rfl⟩
      exact admits_read rfl fun _ _ _ => trivial
    · rintro _ _ ⟨hc⟩
      exact fence_runs_outOfBand (fun t o s h => ⟨(hcond t o s h).1, (hcond t o s h).2.2⟩) hreq hx hc

end InBand

/-- Before any of the requests has written, the count is the one the run had, or starts with. -/
theorem fenceOk_initial {n : Nat} {requests : Fin n → CreateReq} {d : Db} {K : RunKey} (hd : d.slots.lookup K = none → d.events K = [])
    (hown : ∀ e ∈ d.events K, n ≤ e.writer) : FenceOk requests K ((d.slots.lookup K).getD 1) d := by
  have hempty : inBandWriters requests K d = ∅ := by
    refine Finset.eq_empty_of_forall_notMem fun t ht => ?_
    obtain ⟨-, e, he, hw⟩ := mem_inBandWriters.1 ht
    have := hown e he
    omega
  refine ⟨fun hn => ⟨hd hn, by rw [hn]; rfl⟩, fun m hm => by rw [hm, hempty]; rfl, fun m _ t ht => ?_, fun t ht => ?_⟩ <;>
    rw [hempty] at ht <;> cases ht

/-- The in-band fence of run `K`, in a configuration and at each step from it. `base` is the count the run
had, or 1. -/
structure InBandFence {n : Nat} (cond : Fin n → Op → State n → Prop) (requests : Fin n → CreateReq) (K : RunKey) (base : Nat)
    (C : Configuration n) : Prop where
  count : ∀ m, C.st.db.slots.lookup K = some m → m = base + (inBandWriters requests K C.st.db).card
  once : ∀ t ∈ inBandWriters requests K C.st.db, ∀ u ∈ inBandWriters requests K C.st.db,
    (requests t).expectedOn K = (requests u).expectedOn K → t = u
  /-- A step of an in-band create that is going to be refused, or to throw, leaves the data. -/
  refused : ∀ t C₁ C', (requests t).inBandOn K = true → Step (World n) cond (some t) C C₁ → Reaches (World n) cond C₁ C' →
    (∀ a ∈ C.st.replies, a.who ≠ t) → (∃ a ∈ C'.st.replies, a.who = t ∧ ∃ e, a.reply = .error e) → C₁.st.db = C.st.db
  outOfBand : ∀ t C₁, (requests t).inBandOn K = false → Step (World n) cond (some t) C C₁ → ∀ m,
    C.st.db.slots.lookup K = some m → C₁.st.db.slots.lookup K = some m

/-- Every append to the run finds its slot marker, and a fence found consumed has its advance pending. -/
def fenceKept {n : Nat} (requests : Fin n → CreateReq) (K : RunKey) (t : Fin n) (o : Op) (s : State n) : Bool :=
  markerFound K t o s && advanceKept requests K t o s

/-- The in-band fence holds in every interleaving in which each append to the run finds its slot marker
and no rollback to a savepoint drops the count's advance from a write that goes on. -/
theorem in_band_fence {n : Nat} {D : Deps} {requests : Fin n → CreateReq} {d : Db} {now : Nat} {K : RunKey}
    (hd : d.slots.lookup K = none → d.events K = []) (hown : ∀ e ∈ d.events K, n ≤ e.writer) (hmodern : d.ModernRun K)
    (hreq : CreatedModern D requests K) {C : Configuration n}
    (h : Reaches (World n) (fun t o s => fenceKept requests K t o s) (initial D requests d now) C) :
    InBandFence (fun t o s => fenceKept requests K t o s) requests K ((d.slots.lookup K).getD 1) C := by
  have hcond : ∀ (t : Fin n) (o : Op) (s : State n), (fenceKept requests K t o s = true ∧ ∀ u, (s.view u).ModernRun K) →
      markerFound K t o s = true ∧ advanceKept requests K t o s = true ∧ ∀ u, (s.view u).ModernRun K := by
    intro t o s hc
    rw [fenceKept, Bool.and_eq_true] at hc
    exact ⟨hc.1.1, hc.1.2, hc.2⟩
  obtain ⟨hsafe, -⟩ := (fence_safe (fenceOk_initial hd hown) hown hreq hcond).reaches TxRules.tolerates (modern_reaches hmodern hreq .refl h)
  have hdata : FenceOk requests K ((d.slots.lookup K).getD 1) C.st.db := hsafe.inv.data
  refine ⟨hdata.count, hdata.once, fun t C₁ C' hin hs hr hnew ⟨a, ha, hwho, herr⟩ => ?_, fun t C₁ hin hs m hm => ?_⟩
  · have hr₁ := h.trans (Relation.ReflTransGen.head ⟨_, hs⟩ hr)
    obtain ⟨hsafe', -⟩ := (fence_safe (fenceOk_initial hd hown) hown hreq hcond).reaches TxRules.tolerates (modern_reaches hmodern hreq .refl hr₁)
    refine db_of_not_wrote hs hr hnew ha hwho (hsafe'.inv.answers a ha ?_ herr)
    rw [hwho]; exact hin
  · have hx : (requests t).expectedOn K = none := by rw [CreateReq.expectedOn, hin]; rfl
    obtain ⟨-, -, heffect⟩ := hsafe.step TxRules.tolerates
      (hs.strengthen (P := fun s : State n => ∀ u, (s.view u).ModernRun K) (modern_views hmodern hreq h))
    exact (heffect t rfl).count hx m hm

/-- A run's creation, two in-band writes that expect the same count, and one that follows. -/
def inBandWrites : Fin 4 → CreateReq
  | 0 => { tenant := "t", runId := none, ulid := "r", event := .runCreated { deploymentId := "d", workflowName := "w" } }
  | 1 => { tenant := "t", runId := some "r", event := .runStarted none, inBand := true, expectedSeqInBand := some 1 }
  | 2 => { tenant := "t", runId := some "r", event := .stepCreated "s" "step", inBand := true, expectedSeqInBand := some 1 }
  | 3 => { tenant := "t", runId := some "r", event := .stepCreated "s" "step", inBand := true, expectedSeqInBand := some 2 }

/-- One after the other, two of the three in-band writes are taken. -/
theorem in_band_fence_writes : ∃ C : Configuration 4,
    Reaches (World 4) (fun t o s => fenceKept inBandWrites ("t", "r") t o s) (initial defaultDeps inBandWrites Db.empty 0) C ∧
    C.st.db.slots.lookup ("t", "r") = some 3 ∧
    InBandFence (fun t o s => fenceKept inBandWrites ("t", "r") t o s) inBandWrites ("t", "r") 1 C := by
  have hmodern : ∀ t, 2 ≤ (inBandWrites t).effectiveSpecVersion defaultDeps := by decide
  obtain ⟨C, hC, hcount⟩ := Sessions.exists_of_play (fun t o s h => h)
    (P := fun C : Configuration 4 => C.st.db.slots.lookup ("t", "r") = some 3)
    (show (Sessions.play (fenceKept inBandWrites ("t", "r")) [go 0, go 1, go 2, go 3]
      (initial defaultDeps inBandWrites Db.empty 0)).any _ = true by decide +kernel)
  exact ⟨C, hC, by simpa using hcount, in_band_fence (d := Db.empty) (fun _ => rfl) (fun e he => by cases he) (empty_modern _)
    (fun t _ _ => hmodern t) hC⟩

/-- An in-band step creation, while its run is created. -/
def earlyInBand : Fin 2 → CreateReq
  | 0 => { tenant := "t", runId := some "r", event := .stepCreated "s" "step", inBand := true, expectedSeqInBand := some 1 }
  | 1 => { tenant := "t", runId := none, ulid := "r", event := .runCreated { deploymentId := "d", workflowName := "w" } }

/-- The in-band write was given a ULID before the run had its slots row, and is in its log without having
been counted. -/
theorem in_band_not_counted : CreatedModern defaultDeps earlyInBand ("t", "r") ∧ ∃ C : Configuration 2,
    Reaches (World 2) Anything (initial defaultDeps earlyInBand Db.empty 0) C ∧ C.st.db.slots.lookup ("t", "r") = some 1 ∧
    (inBandWriters earlyInBand ("t", "r") C.st.db).card = 1 ∧ ¬InBandFence Anything earlyInBand ("t", "r") 1 C := by
  have hmodern : ∀ t, 2 ≤ (earlyInBand t).effectiveSpecVersion defaultDeps := by decide
  obtain ⟨C, hC, h⟩ := Sessions.exists_of_play (c := Anything) (fun _ _ _ _ => trivial)
    (P := fun C : Configuration 2 => C.st.db.slots.lookup ("t", "r") = some 1 &&
      (inBandWriters earlyInBand ("t", "r") C.st.db).card = 1)
    (show (Sessions.play (fun _ _ _ => true) [goFor 0 7, go 1, go 0] (initial defaultDeps earlyInBand Db.empty 0)).any _ = true
      by decide +kernel)
  rw [Bool.and_eq_true, decide_eq_true_eq, decide_eq_true_eq] at h
  refine ⟨fun t _ _ => hmodern t, C, hC, h.1, h.2, fun hfence => ?_⟩
  have := hfence.count 1 h.1
  omega

end WorkflowWorld
