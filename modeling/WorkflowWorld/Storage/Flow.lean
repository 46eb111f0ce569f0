/-
How a request's work on its run proceeds, for proofs that follow it: what was read of the run is
known to what comes after, and a run of spec version 2 or later never enters the legacy handler.
-/
import WorkflowWorld.Concurrency.Licence
import WorkflowWorld.Safety.Modern

namespace WorkflowWorld

open Concurrency Schema

variable {n : Nat} {R : Rules n} {t : Fin n} {A : State n → Prop} {G : State n → State n → Prop}

/-- A statement that may leave the session's writes unsteady. -/
theorem wp_sql_open {q : Query} {s : State n} {Q : q.Ans → State n → Prop} {E : Err → State n → Prop}
    (hok : ∀ s₁ pick a, Schema.State.Base s₁ → R.Inv s₁ → R.rules.Rely t s s₁ → R.cond t (.query q) s₁ →
      (plan q pick (s₁.clock t) (s₁.view t)).ans = .ok a →
      R.Extends t s₁ (plan q pick (s₁.clock t) (s₁.view t)).takes (plan q pick (s₁.clock t) (s₁.view t)).writes ∧
      (R.Went t s ((s₁.see t).write t (plan q pick (s₁.clock t) (s₁.view t)).takes
        (plan q pick (s₁.clock t) (s₁.view t)).writes) →
        Q a ((s₁.see t).write t (plan q pick (s₁.clock t) (s₁.view t)).takes
          (plan q pick (s₁.clock t) (s₁.view t)).writes)))
    (herr : ∀ s₁ e, R.Went t s s₁ → (∀ v, e = .raised v → ∃ pick now d, (plan q pick now d).ans = .error v) →
      E (.sql e) s₁) : R.rules.wp t (sql q) Q E s := by
  refine TxRules.wp_query (S := schema) q s (fun s₁ pick a hb hi hr hc hans _ hf => ?_)
    fun s₁ s₂ e hb hi hr hc hfail hraised => herr s₂ e ?_ fun v hv => ?_
  · have h₁ := (TxRules.Still.of_rely hr).went
    obtain ⟨hx, hQ⟩ := hok s₁ pick a hb hi hr hc hans
    exact ⟨hx, hQ (h₁.trans ((TxRules.Still.see s₁ t).went.trans
      (TxRules.Went.write (s := s₁.see t) (TxRules.Inv.see hi) hx)))⟩
  · exact (TxRules.Still.of_rely hr).went.trans (hfail.still (R := R)).went
  · obtain ⟨pick, h, -⟩ := hraised v hv
    exact ⟨pick, _, _, h⟩

/-- The failures of a statement that nothing in `create` catches. -/
theorem not_caught_sql {e : SqlError Violation} (h : ∀ v, e = .raised v → v ≠ .correlatedEvent ∧ v ≠ .hookTokenClaim) :
    ¬caught (Err.sql e) := by
  rintro (h' | h' | h') <;> cases h'
  · exact (h _ rfl).1 rfl
  · exact (h _ rfl).2 rfl

/-- A statement, and what its answer tells of the state it leaves. What is known before it need only
outlast what the others do. -/
theorem gives_sql_from {F : State n → Prop} (hG : R.Frame t F G) (hF : ∀ s, A s → F s)
    (hrely : ∀ s s', A s → R.Inv s' → R.rules.Rely t s s' → A s') {q : Query} (hq : R.Admits t A G q)
    {B : q.Ans → State n → Prop}
    (hB : ∀ s pick a, Schema.State.Base s → R.Inv s → R.Sound t s → A s → R.cond t (.query q) s →
      (plan q pick (s.clock t) (s.view t)).ans = .ok a →
      (R.Went t s ((s.see t).write t (plan q pick (s.clock t) (s.view t)).takes
        (plan q pick (s.clock t) (s.view t)).writes)) →
      B a ((s.see t).write t (plan q pick (s.clock t) (s.view t)).takes
        (plan q pick (s.clock t) (s.view t)).writes)) : R.Gives t A G (sql q) B := by
  intro s hs ha
  refine TxRules.wp_query (S := schema) q s (fun s₁ pick a hb hi hr hc hans _ hf => ?_)
    fun s₁ s₂ e hb hi hr hc hfail _ => ?_
  · have h₁ := TxRules.Upto.of_rely hG hs (hF s ha) hi hr
    have ha₁ := hrely s s₁ ha hi hr
    obtain ⟨hx, hready, hg⟩ := hq s₁ pick a hb hi h₁.sound ha₁ hc hans hf
    have hw := (TxRules.Still.see (R := R) s₁ t).went.trans (TxRules.Went.write (s := s₁.see t) (TxRules.Inv.see hi) hx)
    exact ⟨hx, h₁.trans hG ⟨TxRules.SoundBelow.write (s := s₁.see t) h₁.sound.below hready, hw, hg⟩,
      hB s₁ pick a hb hi h₁.sound ha₁ hc hans hw⟩
  · have h₁ := TxRules.Upto.of_rely hG hs (hF s ha) hi hr
    exact (h₁.trans hG (.of_failed hG h₁.sound (h₁.keeps hG (hF s ha)) hfail)).left _

/-- A statement where what is known lasts. -/
theorem gives_sql (hG : R.Frame t A G) {q : Query} (hq : R.Admits t A G q) {B : q.Ans → State n → Prop}
    (hB : ∀ s pick a, Schema.State.Base s → R.Inv s → R.Sound t s → A s → R.cond t (.query q) s →
      (plan q pick (s.clock t) (s.view t)).ans = .ok a →
      (R.Went t s ((s.see t).write t (plan q pick (s.clock t) (s.view t)).takes
        (plan q pick (s.clock t) (s.view t)).writes)) →
      B a ((s.see t).write t (plan q pick (s.clock t) (s.view t)).takes
        (plan q pick (s.clock t) (s.view t)).writes)) : R.Gives t A G (sql q) B :=
  gives_sql_from hG (fun _ h => h)
    (fun s s' ha hi hr => hG.keeps s s' ha (TxRules.Still.of_rely hr).went (hG.rely s s' ha hi hr)) hq hB

theorem runs_sql (hG : R.Frame t A G) {q : Query} (hq : R.Admits t A G q) : R.Runs t A G (sql q) :=
  (gives_sql hG hq (B := fun _ _ => True) fun _ _ _ _ _ _ _ _ _ _ => trivial).runs

/-! ## An append under what it uses up -/

section Once

variable {c : Ctx} {k : RunKey} {v : EventValues}
  (hG : R.Frame t (fun _ => True) (fun _ _ => True)) (hrely : ∀ s s', A s → R.Inv s' → R.rules.Rely t s s' → A s')
  (hread : ∀ s takes, A s → A ((s.see t).write t takes []))
  (hinsert : ∀ id at', R.Admits t A (fun _ _ => True) (.insertEvent k (v.insert id at' c.me) .doNothingOnKey))
  (hslots : ∀ k x, R.Admits t (fun _ => True) (fun _ _ => True) (.advanceSlots k x))

include hG hrely hread

/-- A read keeps what is known. -/
theorem gives_read_from {q : Query} (hq : q.reads = true) : R.Gives t A (fun _ _ => True) (sql q) fun _ => A := by
  refine gives_sql_from hG (fun _ _ => trivial) hrely (admits_read hq fun _ _ _ => trivial) fun s pick a _ _ _ ha _ _ _ => ?_
  have hw : (plan q pick (s.clock t) (s.view t)).writes = [] :=
    List.eq_nil_iff_forall_not_mem.2 fun w hw => plan_reads hq hw
  rw [hw]
  exact hread s _ ha

include hinsert

/-- The insert, which leaves what is known where it finds the id taken. -/
theorem gives_insertEvent_from (id : EventId) (at' : Option Nat) :
    R.Gives t A (fun _ _ => True) (sql (.insertEvent k (v.insert id at' c.me) .doNothingOnKey))
      fun inserted s => inserted = false → A s := by
  refine gives_sql_from hG (fun _ _ => trivial) hrely (hinsert id at') fun s pick inserted _ _ _ ha _ hans _ hno => ?_
  subst hno
  have hw : (plan (.insertEvent k (v.insert id at' c.me) .doNothingOnKey) pick (s.clock t) (s.view t)).writes = [] :=
    insertEventPlan_ans hans
  rw [hw]
  exact hread s _ ha

include hslots

theorem runs_insertAtSlot_from (fence : Option PendingFence) : ∀ attempts,
    R.Runs t A (fun _ _ => True) (insertAtSlot c k v fence attempts) := by
  have hfence : ∀ f, R.Runs t (fun _ => True) (fun _ _ => True) (advanceFence f) := by
    intro f
    refine .bind hG (runs_sql hG (hslots _ _)) fun advanced => ?_
    split
    · exact TxRules.runs_pure hG _
    · refine .bind hG (runs_sql hG (admits_read rfl fun _ _ _ => trivial)) fun current => ?_
      cases current with
      | none => exact TxRules.runs_pure hG _
      | some m => exact TxRules.runs_throw hG _
  have hnext : ∀ {retry : P (Option EventId)}, R.Runs t A (fun _ _ => True) retry →
      R.Runs t A (fun _ _ => True) (insertAtNextSlot c k v fence retry) := by
    intro retry hretry
    have hany : ∀ {p : P (Option EventId)}, R.Runs t A (fun _ _ => True) p → R.Gives t A (fun _ _ => True) p fun _ _ => True :=
      fun hp s hs ha => Rules.wp_mono (fun _ _ h => ⟨h, trivial⟩) (fun _ _ h => h) _ _ (hp s hs ha)
    have hgives : R.Gives t A (fun _ _ => True) (insertAtNextSlot c k v fence retry) fun _ _ => True := by
      refine .bind hG (gives_read_from hG hrely hread rfl) fun m => ?_
      refine .bind hG (gives_insertEvent_from hG hrely hread hinsert _ _) fun inserted => ?_
      cases inserted with
      | false => exact fun s hs ha => hany hretry s hs (ha rfl)
      | true =>
        cases fence with
        | none => exact .pure hG (fun _ _ => trivial) fun _ _ => trivial
        | some f =>
          have hrest : R.Runs t (fun _ => True) (fun _ _ => True)
              (Prog.op (.store true) fun _ => do advanceFence f; return some (.slot m) : P (Option EventId)) :=
            TxRules.Runs.store hG (fun _ _ => trivial) fun _ => .bind hG (hfence f) fun _ => TxRules.runs_pure hG _
          exact fun s hs _ => Rules.wp_mono (fun _ _ h => ⟨h, trivial⟩) (fun _ _ h => h) _ _ (hrest s hs trivial)
    exact hgives.runs
  intro attempts
  induction attempts with
  | zero => exact hnext fun s hs _ => (TxRules.Upto.refl hG hs trivial).left _
  | succ attempts ih => exact hnext ih

/-- An append that is made at most once, and uses up what is known before it. -/
theorem runs_tryAppend_from : R.Runs t A (fun _ _ => True) (tryAppend c k v) := by
  refine TxRules.Gives.runs (B := fun _ _ => True) (.bind hG (gives_read_from hG hrely hread rfl) fun alloc => ?_)
  cases alloc with
  | ulid u =>
    refine .bind hG (gives_insertEvent_from hG hrely hread hinsert _ _) fun inserted => ?_
    exact .pure hG (fun _ _ => trivial) fun _ _ => trivial
  | slot =>
    intro s hs ha s₁ hb hi hr _ ch consumed s₂ he
    cases he
    have h₁ := TxRules.Upto.of_rely hG hs trivial hi hr
    refine ⟨TxRules.ok_of_db rfl hi, ?_⟩
    exact Rules.wp_mono (fun _ _ h => ⟨h₁.trans hG h, trivial⟩) (fun _ _ h => h₁.trans_left hG h) _ _
      (runs_insertAtSlot_from hG hrely hread hinsert hslots _ _ s₁ h₁.sound (hrely s s₁ ha hi hr))

omit hG hrely hread hinsert hslots in
/-- The journal of an event, whose append uses up what is known. -/
theorem runs_journal_from (h : R.Runs t A (fun _ _ => True) (tryAppend c c.key v)) (dedup : Bool) :
    R.Runs t A (fun _ _ => True) (journal c v dedup) := by
  intro s hs ha
  refine (Rules.wp_tryCatch _ _ _).2 ((Rules.wp_bind _ _ _ _).2 (Rules.wp_mono (fun id s₁ h₁ => ?_) (fun e s₁ h₁ => ?_) _ _ (h s hs ha)))
  · cases id with
    | some id => exact h₁
    | none =>
      show R.rules.wp t (if _ then throw _ else throw _) _ _ s₁
      split
      · exact h₁.left _
      · exact h₁.left _
  · show R.rules.wp t (if _ then throw _ else throw _) _ _ s₁
    split
    · refine ⟨h₁.went, fun hc => ?_⟩
      rcases hc with hc | hc | hc <;> cases hc
    · exact h₁

end Once

/-! ## An append under a licence -/

section Licence

variable {L : Licences schema} {cond : Fin n → Op → State n → Prop} {c : Ctx} {k : RunKey} {v : EventValues}

/-- The event that uses a licence is appended at most once. -/
theorem runs_tryAppend_licensed (hrow : ∀ w : Write, w.tbl = .event ∨ w.tbl = .slots → L.key ∉ Write.touches w)
    (huse : ∀ id at' now, L.uses (.appendEvent k ((v.insert id at' c.me).row now)) = some (t : Nat))
    (hslots : ∀ k m, L.uses (.updateSlots k m) = none) :
    (L.rules cond).Runs t (L.Licensed t) (fun _ _ => True) (tryAppend c k v) := by
  refine runs_tryAppend_from Licences.frame (fun s s' h hi hr => h.rely hi hr) (fun s takes h => h.read takes) (fun id at' => ?_)
    fun k x => ?_
  · intro s pick a _ hi _ h _ hans _
    have hw : (plan (.insertEvent k (v.insert id at' c.me) .doNothingOnKey) pick (s.clock t) (s.view t)).writes = _ := insertEventPlan_ans hans
    refine ⟨?_, trivial, trivial⟩
    rw [hw]
    cases a with
    | false => exact Licences.extends_of_fits hi (.of_inert (fun _ hw => by cases hw) _)
    | true =>
      refine Licences.extends_of_use hi h (fun hin => ?_) (by simp [Licences.usesAll, huse])
      obtain ⟨w, hmem, hkey⟩ := List.mem_flatMap.1 hin
      cases List.mem_singleton.1 hmem
      exact hrow (.appendEvent k _) (.inl rfl) hkey
  · intro s pick a _ hi _ _ _ _ _
    refine ⟨Licences.extends_of_fits hi (.of_inert (fun w hw => ?_) _), trivial, trivial⟩
    have htbl : w.tbl = .slots := (Option.some.inj (plan_tbl hw)).symm
    refine ⟨hrow w (.inr htbl), ?_⟩
    rcases plan_slots hw htbl with ⟨_, h, -⟩ | ⟨_, _, -, rfl, -⟩
    · cases h
    · exact hslots ..

end Licence

/-! ## An append that makes a transaction steady again -/

/-- A statement of a program that may be unsteady. -/
theorem owes_sql (hrely : ∀ s s', A s → R.Inv s' → R.rules.Rely t s s' → A s') {q : Query} {B : q.Ans → State n → Prop}
    (hraise : ∀ pick now d v, (plan q pick now d).ans = .error v → v ≠ .correlatedEvent ∧ v ≠ .hookTokenClaim)
    (hq : ∀ s pick a, Schema.State.Base s → R.Inv s → A s → R.cond t (.query q) s →
      (plan q pick (s.clock t) (s.view t)).ans = .ok a → s.aborted t = false →
      R.Extends t s (plan q pick (s.clock t) (s.view t)).takes (plan q pick (s.clock t) (s.view t)).writes ∧
      (R.Went t s ((s.see t).write t (plan q pick (s.clock t) (s.view t)).takes (plan q pick (s.clock t) (s.view t)).writes) →
        B a ((s.see t).write t (plan q pick (s.clock t) (s.view t)).takes (plan q pick (s.clock t) (s.view t)).writes))) :
    R.Owes t A (sql q) B := by
  intro s hs ha
  refine TxRules.wp_query (S := schema) q s (fun s₁ pick a hb hi hr hc hans hab hf => ?_)
    fun s₁ s₂ e hb hi hr hc hfail hraised => ⟨?_, not_caught_sql fun v hv => ?_⟩
  · have hw := (TxRules.Still.of_rely hr).went
    obtain ⟨hx, hB⟩ := hq s₁ pick a hb hi (hrely s s₁ ha hi hr) hc hans hab
    have hw' := (TxRules.Still.see s₁ t).went.trans (TxRules.Went.write (s := s₁.see t) (TxRules.Inv.see hi) hx)
    exact ⟨hx, hw.trans hw', hB hw'⟩
  · exact (TxRules.Still.of_rely hr).went.trans (hfail.still (R := R)).went
  · obtain ⟨pick, h, -⟩ := hraised v hv
    exact hraise pick _ _ v h

section Debt

variable {c : Ctx} {k : RunKey} {v : EventValues} {B : State n → Prop}

/-- A read. -/
theorem owes_read (hrely : ∀ s s', A s → R.Inv s' → R.rules.Rely t s s' → A s') (hread : ∀ s takes, A s → A ((s.see t).write t takes []))
    {q : Query} (hq : q.reads = true) : R.Owes t A (sql q) fun _ => A := by
  refine owes_sql hrely (fun pick now d v hv => ?_) fun s pick a _ hi ha _ _ _ => ?_
  · cases q with
    | nextSlot k =>
      simp only [plan] at hv
      split at hv
      · cases hv; exact ⟨by decide, by decide⟩
      · cases hv
    | lockRun | lockSlots | lockStep | lockHook => cases (lockRead_ans ..).symm.trans hv
    | _ => first | (cases hq; done) | cases hv
  · have hw : (plan q pick (s.clock t) (s.view t)).writes = [] :=
      List.eq_nil_iff_forall_not_mem.2 fun w hw => plan_reads hq hw
    rw [hw]
    exact ⟨TxRules.extends_inert hi (by simp), fun _ => hread s _ ha⟩

variable (hrely : ∀ s s', A s → R.Inv s' → R.rules.Rely t s s' → A s') (hread : ∀ s takes, A s → A ((s.see t).write t takes []))
  (hrelyB : ∀ s s', B s → R.Inv s' → R.rules.Rely t s s' → B s') (hreadB : ∀ s takes, B s → B ((s.see t).write t takes []))
  (hstoreB : ∀ s m, B s → B { s with mem := Function.update s.mem t m })
  (hinsert : ∀ id at' s pick, Schema.State.Base s → R.Inv s → A s → s.aborted t = false →
    R.Extends t s [] [.appendEvent k ((v.insert id at' c.me).row (s.clock t))] ∧
    B ((s.see t).write t pick [.appendEvent k ((v.insert id at' c.me).row (s.clock t))]))
  (hslots : ∀ s k m, R.Inv s → B s → R.Extends t s [] [.updateSlots k m] ∧ B ((s.see t).write t [] [.updateSlots k m]))
  (hdedup : v.type.deduplicated = false)

include hrely hread hinsert hdedup

/-- The insert, and its retry where the id is taken. -/
theorem owes_insertEvent (id : EventId) (at' : Option Nat) :
    R.Owes t A (sql (.insertEvent k (v.insert id at' c.me) .doNothingOnKey)) fun inserted s => if inserted then B s else A s := by
  have hplan : ∀ now (d : Db), (insertEventPlan k ((v.insert id at' c.me).row now) .doNothingOnKey d).takes = [] ∧
      ∀ w, (insertEventPlan k ((v.insert id at' c.me).row now) .doNothingOnKey d).ans ≠ .error w := by
    intro now d
    unfold insertEventPlan
    rw [show ((v.insert id at' c.me).row now).type.deduplicated = false from hdedup, Bool.false_and]
    split
    · exact ⟨rfl, fun w h => by cases h⟩
    · exact ⟨rfl, fun w h => by cases h⟩
  refine owes_sql hrely (fun pick now d v hv => absurd hv ((hplan now d).2 v)) fun s pick a hb hi ha _ hans hab => ?_
  have hw : (plan (.insertEvent k (v.insert id at' c.me) .doNothingOnKey) pick (s.clock t) (s.view t)).writes =
      if a then [.appendEvent k ((v.insert id at' c.me).row (s.clock t))] else [] := insertEventPlan_ans hans
  have ht : (plan (.insertEvent k (v.insert id at' c.me) .doNothingOnKey) pick (s.clock t) (s.view t)).takes = [] := (hplan _ _).1
  rw [hw, ht]
  cases a with
  | false => exact ⟨TxRules.extends_inert hi (by simp), fun _ => hread s [] ha⟩
  | true =>
    obtain ⟨hx, hB⟩ := hinsert id at' s [] hb hi ha hab
    exact ⟨hx, fun _ => hB⟩

include hrelyB hreadB hstoreB hslots

theorem owes_insertAtSlot (fence : Option PendingFence) : ∀ attempts,
    R.Owes t A (insertAtSlot c k v fence attempts) fun _ => B := by
  have hfence : ∀ f, R.Owes t B (advanceFence f) fun _ => B := by
    intro f
    refine .bind (B := fun _ => B) (owes_sql hrelyB (fun pick now d v hv => ?_) fun s pick a _ hi hB _ hans _ => ?_) fun advanced => ?_
    · simp only [plan] at hv
      split at hv
      · cases hv
      · split at hv <;> cases hv
    · have hnothing : R.Extends t s [] [] ∧ (R.Went t s ((s.see t).write t [] []) → B ((s.see t).write t [] [])) :=
        ⟨TxRules.extends_inert hi (by simp), fun _ => hreadB s [] hB⟩
      simp only [plan]
      split
      · exact hnothing
      · split
        · obtain ⟨hx, hB'⟩ := hslots s (f.tenant, f.runId) (_ + 1) hi hB
          exact ⟨hx, fun _ => hB'⟩
        · exact hnothing
    · split
      · exact .pure fun _ h => h
      · refine .bind (owes_read hrelyB hreadB rfl) fun current => ?_
        cases current with
        | none => exact .pure fun _ h => h
        | some m => exact .throw (by rintro (h | h | h) <;> cases h)
  have hnext : ∀ {retry : P (Option EventId)}, R.Owes t A retry (fun _ => B) →
      R.Owes t A (insertAtNextSlot c k v fence retry) fun _ => B := by
    intro retry hretry
    refine .bind (owes_read hrely hread rfl) fun m => .bind (owes_insertEvent hrely hread hinsert hdedup _ _) fun inserted => ?_
    cases inserted with
    | false => exact hretry
    | true =>
      cases fence with
      | none => exact .pure fun _ h => h
      | some f =>
        exact TxRules.Owes.store (A := B) hrelyB (fun s h => hstoreB s true h) (.bind (hfence f) fun _ => .pure fun _ h => h)
  intro attempts
  induction attempts with
  | zero => exact hnext (.throw (by rintro (h | h | h) <;> cases h))
  | succ attempts ih => exact hnext ih

/-- An append from an unsteady state. -/
theorem owes_appendEvent (message : String) : R.Owes t A (appendEvent c k v message) fun _ => B := by
  refine .bind (B := fun id s => id.isSome = true → B s) (.bind (owes_read hrely hread rfl) fun alloc => ?_) fun id => ?_
  · cases alloc with
    | ulid u =>
      refine .bind (owes_insertEvent hrely hread hinsert hdedup _ _) fun inserted => ?_
      cases inserted with
      | false => exact .pure fun _ _ h => by cases h
      | true => exact .pure fun _ h _ => h
    | slot =>
      refine TxRules.Owes.load hrely fun consumed s hs ha => ?_
      exact Rules.wp_mono (fun _ _ h => ⟨h.1, fun _ => h.2⟩) (fun _ _ h => h) _ _
        (owes_insertAtSlot hrely hread hrelyB hreadB hstoreB hinsert hslots hdedup (c.fenceFor k consumed) slotInsertMaxAttempts s hs ha)
  · cases id with
    | some id => exact .pure fun _ h => h rfl
    | none => exact .throw (by rintro (h | h | h) <;> cases h)

end Debt

section CreateOnRun

variable {c : Ctx} {e : EventReq} {N : CurrentRun → State n → Prop}

/-- Reading the run to validate against. -/
theorem gives_getRunForValidation (hG : R.Frame t A G) (hread : ∀ s takes, A s → G s ((s.see t).write t takes []))
    (hstable : ∀ r s s', N r s → R.Went t s s' → G s s' → N r s')
    (hknown : ∀ s r, Schema.State.Base s → R.Inv s → A s → R.cond t (.query (.selectRun c.key)) s →
      (s.view t).runs.lookup c.key = some r → N ⟨r.status, r.specVersion⟩ s) :
    R.Gives t A G (getRunForValidation c.key) fun cur s => A s ∧ ∀ r, cur = some r → N r s := by
  refine .bind hG (B := fun run s => A s ∧ ∀ r : RunRow, run = some r → N ⟨r.status, r.specVersion⟩ s)
    (gives_sql hG (admits_read rfl hread) fun s pick a hb hi _ ha hc hans hw => ?_) fun run s hs ha => ?_
  · cases hans
    exact ⟨hG.keeps _ _ ha hw (hread _ _ ha), fun r hr => hstable _ _ _ (hknown s r hb hi ha hc hr) hw (hread _ _ ha)⟩
  · refine ⟨.refl hG hs ha.1, ha.1, fun r hr => ?_⟩
    obtain ⟨row, hrow, rfl⟩ := Option.map_eq_some_iff.1 hr
    exact ha.2 row hrow

theorem gives_readCurrentRun (hG : R.Frame t A G) (hread : ∀ s takes, A s → G s ((s.see t).write t takes []))
    (hstable : ∀ r s s', N r s → R.Went t s s' → G s s' → N r s')
    (hknown : ∀ s r, Schema.State.Base s → R.Inv s → A s → R.cond t (.query (.selectRun c.key)) s →
      (s.view t).runs.lookup c.key = some r → N ⟨r.status, r.specVersion⟩ s)
    (hpending : e.input.isSome = true → ∀ s, N ⟨.pending, some c.specVersion⟩ s)
    (hcreate : ∀ i, e.input = some i → R.Runs t A G (i.create c)) :
    R.Gives t A G (readCurrentRun c e) fun cur s => A s ∧ ∀ r, cur = some r → N r s := by
  have hget := gives_getRunForValidation hG hread hstable hknown
  have hnone : R.Gives t A G (pure none : P (Option CurrentRun)) fun cur s => A s ∧ ∀ r, cur = some r → N r s :=
    fun s hs ha => ⟨.refl hG hs ha, ha, fun r hr => by cases hr⟩
  unfold readCurrentRun
  split
  · exact hnone
  · exact hnone
  · exact hnone
  · rename_i i
    refine .bind hG hget fun cur => ?_
    cases cur with
    | some r => exact fun s hs ha => ⟨.refl hG hs ha.1, ha⟩
    | none =>
      intro s hs ha
      simp only
      by_cases hc : i.complete = true
      · rw [if_pos hc]
        refine TxRules.Gives.bind hG (TxRules.Runs.gives hG (hcreate i rfl)) (fun created => ?_) s hs ha.1
        cases created with
        | some p =>
          exact fun s hs ha => ⟨.refl hG hs ha, ha, fun r hr => by cases hr; exact hpending rfl s⟩
        | none => exact hget
      · rw [if_neg hc]
        exact hnone s hs ha.1
  · exact hget

/-- The work on a run that no legacy version is known of. -/
theorem runs_createOnRun (hG : R.Frame t A G) (hread : ∀ s takes, A s → G s ((s.see t).write t takes []))
    (hstable : ∀ r s s', N r s → R.Went t s s' → G s s' → N r s')
    (hknown : ∀ s r, Schema.State.Base s → R.Inv s → A s → R.cond t (.query (.selectRun c.key)) s →
      (s.view t).runs.lookup c.key = some r → N ⟨r.status, r.specVersion⟩ s)
    (hpending : e.input.isSome = true → ∀ s, N ⟨.pending, some c.specVersion⟩ s)
    (hmodern : ∀ r s, N r s → isLegacySpecVersion r.specVersion = false)
    (hcreate : ∀ i, e.input = some i → R.Runs t A G (i.create c))
    (happly : ∀ now cur, R.Runs t A G (apply c now cur e))
    (hterminal : ∀ now r s, R.Sound t s → A s → N r s →
      R.rules.wp t (applyOnTerminal c now r e) (fun _ => R.Upto t G s) (R.Left t G s) s) :
    R.Runs t A G (createOnRun c e) := by
  have hclock : R.Runs t A G clock := .of_built (P := fun _ => False) (B := NoBlock) hG (fun _ h => h.elim) (fun _ h => h.elim)
    (fun _ _ h => h.elim) (.clock _ fun _ => .pure _)
  refine .bind hG hclock fun now => .bind_gives hG (gives_readCurrentRun hG hread hstable hknown hpending hcreate) fun cur => ?_
  intro s hs ha
  have h : R.Upto t G s s := .refl hG hs ha.1
  cases cur with
  | none =>
    simp only
    split
    · exact h.left _
    · exact happly now none s hs ha.1
  | some r =>
    have hk := ha.2 r rfl
    simp only [applyToRun]
    split
    · exact h.left _
    · rw [hmodern r s hk, if_neg (by simp)]
      split
      · exact hterminal now r s hs ha.1 hk
      · exact happly now (some r) s hs ha.1

/-- The work of a request that creates no run, by its application to the run. -/
theorem gives_of_apply (hG : R.Frame t (fun _ => True) (fun _ _ => True)) (hi : e.input = none) (hcancel : e.type ≠ .runCancelled)
    {B : EventResult → State n → Prop}
    (hlegacy : ∀ now v, R.Gives t (fun _ => True) (fun _ _ => True) (handleLegacyEvent c e now v) B)
    (happly : ∀ now cur, R.Gives t (fun _ => True) (fun _ _ => True) (apply c now cur e) B) :
    R.Gives t (fun _ => True) (fun _ _ => True) (createOnRun c e) B := by
  have hreads : ∀ {α : Type} {p : P α}, Built Reading NoBlock p → R.Gives t (fun _ => True) (fun _ _ => True) p fun _ _ => True :=
    fun hp => TxRules.Runs.gives hG (.of_built hG (fun q hq => admits_read hq fun _ _ _ => trivial) (fun _ h => h.elim) (fun _ _ h => h.elim) hp)
  have hcurrent : Built Reading NoBlock (readCurrentRun c e) := by
    unfold readCurrentRun
    split
    · exact .pure _
    · exact .pure _
    · exact .pure _
    · cases hi
    · exact built_getRunForValidation (fun h => h) _
  have hthrow : ∀ err : Err, R.Gives t (fun _ => True) (fun _ _ => True) (throw err : P EventResult) B :=
    fun err => .throw hG (fun _ h => h) err
  refine .bind hG (hreads (.clock _ fun _ => .pure _)) fun now => .bind hG (hreads hcurrent) fun cur => ?_
  cases cur with
  | none =>
    simp only
    split
    · exact hthrow _
    · exact happly now none
  | some r =>
    simp only [applyToRun]
    split
    · exact hthrow _
    · split
      · exact hlegacy now _
      · split
        · unfold applyOnTerminal
          split
          · exact absurd rfl hcancel
          · exact hthrow _
          · exact hthrow _
          · exact hthrow _
          · exact hthrow _
          · split
            · exact hthrow _
            · exact happly now _
        · exact happly now (some r)

/-- The work on a run of spec version 2 or later, whose pieces run by themselves. -/
theorem runs_createOnModernRun (hG : R.Frame t A G) (hread : ∀ s takes, A s → G s ((s.see t).write t takes []))
    (hmodern : ∀ s, R.cond t (.query (.selectRun c.key)) s → (s.view t).ModernRun c.key)
    (hspec : e.input.isSome = true → isLegacySpecVersion (some c.specVersion) = false)
    (hbuilt : ∀ (α : Type) (p : P α), Built (Stmt c e false) (Block c e false) p → R.Runs t A G p) :
    R.Runs t A G (createOnRun c e) :=
  runs_createOnRun (N := fun r _ => isLegacySpecVersion r.specVersion = false) hG hread (fun _ _ _ h _ _ => h)
    (fun s r _ _ _ hc hr => hmodern s hc r hr) (fun hi _ => hspec hi) (fun _ _ h => h)
    (fun _ hi => hbuilt _ _ (built_runInput_create hi)) (fun now cur => hbuilt _ _ (built_apply now cur))
    fun now r s hs ha _ => hbuilt _ _ (built_applyOnTerminal now r) s hs ha

end CreateOnRun

end WorkflowWorld
