/-
The start of a run. `run_started` updates the run's row, whatever it holds, and then appends its
event; that it is running already is read before. Where each such update finds the row there, and not
started, the log holds one `run_started`, after the `run_created`, and the time of the start stays.
-/
import WorkflowWorld.Concurrency.Licence
import WorkflowWorld.Concurrency.Order
import WorkflowWorld.Storage.Flow

namespace WorkflowWorld

open Concurrency Schema

/-! ## The row's start and the event -/

/-- The run's row is the licence for its `run_started`: granted by the update that sets the time. -/
def startLicence (K : RunKey) : Licences schema where
  Grant := Nat × Option Nat
  owner g := g.2
  key := .row (.run K)
  grant d := (d.runs.lookup K).bind fun r => r.startedAt.map fun τ => (τ, r.startedBy)
  records d := d.writers K fun e => e.type = .runStarted
  uses w := w.writerIn K fun e => e.type = .runStarted
  grant_agree d d' h := by
    have h : d.runs.lookup K = d'.runs.lookup K := h
    simp only [h]
  records_apply w d := writers_apply K _ w d
  records_ext d d' h := by obtain ⟨m, rfl⟩ := h; rfl

/-- A run comes with its `run_created`, and is started after it. -/
def startOrder (K : RunKey) : Order schema where
  Entry := EventRow
  log d := d.events K
  appends
    | .appendEvent k e => if k = K then some e else none
    | _ => none
  first e := e.type = .runCreated
  later e := e.type = .runStarted
  begun d := (d.runs.lookup K).isSome = true
  makes w := ∃ r, w = .insertRun K r ∨ w = .updateRun K r
  begins w := ∃ r, w = .insertRun K r
  makes_of_begins w h := h.imp fun _ => .inl
  log_apply w d := by
    refine (events_apply w d K).trans ?_
    cases w with
    | appendEvent k e => by_cases hk : k = K <;> simp [appended, hk]
    | _ => simp [appended]
  begun_apply w d := by
    show ((Db.runs (w.apply d)).lookup K).isSome = true ↔ _
    cases w with
    | insertRun k r | updateRun k r =>
      by_cases hk : k = K
      · subst hk; simp [Write.apply]
      · simp [Write.apply, AList.lookup_insert_ne (Ne.symm hk), hk]
    | _ => simp [Write.apply]
  log_ext d d' h := by obtain ⟨m, rfl⟩ := h; rfl
  begun_ext d d' h := by obtain ⟨m, rfl⟩ := h; rfl

/-- The update of a start finds the run there, and not started. -/
def startsFresh {n : Nat} (K : RunKey) (t : Fin n) : Op → State n → Bool
  | .query (.startRun k _ _), s => k ≠ K || ((s.view t).runs.lookup K).any fun r => r.startedAt.isNone
  | _, _ => true

namespace Started

/-! ## The statements -/

section Statements

variable {K : RunKey} {q : Query} {pick : Pick} {now : Nat} {d : Db}

/-- The statement starts the run. -/
def Starting (K : RunKey) (q : Query) : Prop := ∃ τ m, q = .startRun K τ m

/-- The statement appends a `run_started` to the run's log. -/
def Journaling (K : RunKey) (q : Query) : Prop := ∃ v oc, q = .insertEvent K v oc ∧ v.type = .runStarted

theorem uses_none (hj : ¬Journaling K q) : ∀ w ∈ (plan q pick now d).writes, (startLicence K).uses w = none :=
  writerIn_eq_none fun v oc _ hq => decide_eq_false fun ht => hj ⟨v, oc, hq, ht⟩

/-- Any statement but the two keeps the time of the start and journals none. -/
theorem fits_other (hs : ¬Starting K q) (hj : ¬Journaling K q) : (startLicence K).Fits d (plan q pick now d).writes := by
  refine ⟨fun g hg => ?_, List.filterMap_eq_nil_iff.2 (uses_none hj)⟩
  by_cases htouch : Key.row (.run K) ∈ schema.touchesAll (plan q pick now d).writes
  swap
  · rw [Licences.grant_applyAll (L := startLicence K) htouch d]; exact hg
  obtain ⟨w, hw, hkey⟩ := List.mem_flatMap.1 htouch
  obtain ⟨r, hr, hgr⟩ := Option.bind_eq_some_iff.1 hg
  obtain ⟨r', rfl | rfl⟩ := Write.touches_run hkey
  · rcases plan_run_cases hw rfl with ⟨_, _, -, h, hnone⟩ | ⟨_, _, _, h, -⟩ <;> cases h
    rw [hnone] at hr
    cases hr
  · rcases plan_run_cases hw rfl with ⟨_, _, -, h, -⟩ | ⟨_, r₁, _, h, hrow, hkind⟩ <;> cases h
    rw [hr] at hrow
    cases hrow
    rw [plan_single hw rfl]
    refine Option.bind_eq_some_iff.2 ⟨r', AList.lookup_insert _, ?_⟩
    rcases hkind with ⟨τ, m, rfl, -⟩ | ⟨_, _, -, -, rfl⟩ | ⟨_, -, rfl⟩ | ⟨_, _, -, rfl⟩
    · exact absurd ⟨τ, m, rfl⟩ hs
    · exact hgr
    · exact hgr
    · exact hgr

/-- A statement that inserts no run changes the rows of runs that are there. -/
theorem order_fits (hins : ∀ r, q ≠ .insertRun K r) (h : Journaling K q → (startOrder K).Opened d) :
    (startOrder K).Fits d (plan q pick now d).writes ∧ ¬(startOrder K).Begins (plan q pick now d).writes := by
  refine ⟨⟨?_, ?_⟩, ?_⟩
  · by_cases hj : Journaling K q
    · exact .inl (h hj)
    · refine .inr fun e he hl => ?_
      obtain ⟨k, v, oc, hq, he, -⟩ := plan_event (mem_appended.1 he) rfl
      cases he
      exact hj ⟨v, oc, hq, hl⟩
  · rintro w hw ⟨r, rfl | rfl⟩
    · rcases plan_run_cases hw rfl with ⟨_, _, hq, h, -⟩ | ⟨_, _, _, h, -⟩ <;> cases h
      exact absurd hq (hins r)
    · rcases plan_run_cases hw rfl with ⟨_, _, -, h, -⟩ | ⟨_, r₁, _, h, hrow, -⟩ <;> cases h
      refine .inl ?_
      show (d.runs.lookup K).isSome = true
      rw [hrow]; rfl
  · rintro ⟨w, hw, r, rfl⟩
    rcases plan_run_cases hw rfl with ⟨_, _, hq, h, -⟩ | ⟨_, _, _, h, -⟩ <;> cases h
    exact hins r hq

end Statements

/-! ## The requests -/

section Requests

variable {n : Nat} {K : RunKey} {t : Fin n} {c : Ctx} {e : EventReq}

/-- Another request neither starts the run nor journals a start. -/
theorem issued_other {l : Bool} {q : Query} (he : e.type ≠ .runStarted) (h : Issued c e l (.query q)) :
    ¬Starting K q ∧ ¬Journaling K q := by
  refine ⟨?_, ?_⟩
  · rintro ⟨τ, m, rfl⟩
    rcases h with h | h | h
    · cases h
    · exact he h.2.1
    · exact h.elim
  · rintro ⟨v, oc, rfl, hv⟩
    rcases h with h | h | h
    · cases h
    · exact h.elim
    · have ht := h.type
      rw [hv] at ht
      rcases ht with h | ⟨h, -⟩ | ⟨h, -⟩ | ⟨h, -⟩ | ⟨h, -⟩
      · exact he h.symm
      all_goals cases h

variable {R : Rules n} (hG : R.Frame t (fun _ => True) (fun _ _ => True))
  (hother : ∀ {α : Type} {p : P α} {e : EventReq} {l : Bool}, e.type ≠ .runStarted → Built (Stmt c e l) (Block c e l) p →
    R.Runs t (fun _ => True) (fun _ _ => True) p)
  (hstart : ∀ now, R.Runs t (fun _ => True) (fun _ _ => True) (do
    let updated : Option RunRow ← sql (.startRun c.key now c.me)
    let id ← journal c ⟨.runStarted, none, .absent, c.specVersion⟩ false
    return ({ eventId := some id, run := updated } : EventResult)))

include hG hother hstart

/-- A request's work, by what it does beside a start, and the start itself. -/
theorem runs_request : R.Runs t (fun _ => True) (fun _ _ => True) (createOnRun c e) := by
  by_cases he : e.type = .runStarted
  swap
  · exact hother he built_createOnRun
  cases e with
  | runStarted i =>
    refine .of_built hG (P := fun _ => False) (fun _ h => h.elim) (fun _ h => h.elim) (fun α p hp => ?_) built_work
    cases hp with
    | current =>
      cases i with
      | none => exact hother (e := .runCompleted) (l := false) (by decide) (built_getRunForValidation stmt_read _)
      | some i =>
        refine hother (e := .runCreated i) (l := false) (by simp [EventReq.type]) (.bind (built_getRunForValidation stmt_read _) fun run => ?_)
        cases run with
        | some r => exact .pure _
        | none =>
          refine .ite (.bind (built_runInput_create rfl) fun created => ?_) (.pure _)
          cases created with
          | some p => exact .pure _
          | none => exact built_getRunForValidation stmt_read _
    | legacy now specVersion =>
      exact hother (e := .runCompleted) (l := false) (by decide) (.bind (built_read rfl) fun _ => .throw _)
    | terminal now current => exact TxRules.runs_throw hG _
    | apply now current =>
      refine .bind hG ?_ fun running => ?_
      · refine hother (e := .runCompleted) (l := false) (by decide) ?_
        unfold readRunning
        exact .ite (built_read rfl) (.pure _)
      · cases running with
        | some r => exact TxRules.runs_pure hG _
        | none => exact hstart now
  | _ => cases he

end Requests

/-! ## One start -/

section Licence

variable {n : Nat} {K : RunKey} {t : Fin n} {c : Ctx}

abbrev licenceRules (n : Nat) (K : RunKey) : Rules n := (startLicence K).rules fun t o s => startsFresh K t o s

theorem admits_fits {A : State n → Prop} {q : Query} (h : ∀ s pick, A s → startsFresh K t (.query q) s = true →
    (startLicence K).Fits (s.view t) (plan q pick (s.clock t) (s.view t)).writes) :
    (licenceRules n K).Admits t A (fun _ _ => True) q :=
  fun s pick _ _ hi _ ha hc _ _ => ⟨Licences.extends_of_fits hi (h s pick ha hc), trivial, trivial⟩

theorem runs_other_licence {α : Type} {p : P α} {e : EventReq} {l : Bool} (he : e.type ≠ .runStarted)
    (hp : Built (Stmt c e l) (Block c e l) p) : (licenceRules n K).Runs t (fun _ => True) (fun _ _ => True) p := by
  refine .of_built Licences.frame (fun q hq => admits_fits fun s pick _ _ => ?_) (fun _ _ _ _ => trivial) (fun _ _ h => h.elim) (issued hp)
  obtain ⟨hs, hj⟩ := issued_other (K := K) he hq
  exact fits_other hs hj

/-- The append under the licence. -/
theorem runs_tryAppend_started (hk : c.key = K) (hme : c.me = t) :
    (licenceRules n K).Runs t ((startLicence K).Licensed t) (fun _ _ => True)
      (tryAppend c c.key ⟨.runStarted, none, .absent, c.specVersion⟩) := by
  refine runs_tryAppend_licensed (fun w hw hkey => ?_) (fun id at' now => ?_) fun _ _ => rfl
  · obtain ⟨r, rfl | rfl⟩ := Write.touches_run hkey <;> rcases hw with h | h <;> cases h
  · simp [startLicence, Write.writerIn, hk, EventValues.insert, EventInsert.row, hme]

/-- The update grants the licence, and the event uses it. -/
theorem runs_start_licence (hme : c.me = t) (now : Nat) :
    (licenceRules n K).Runs t (fun _ => True) (fun _ _ => True) (do
      let updated : Option RunRow ← sql (.startRun c.key now c.me)
      let id ← journal c ⟨.runStarted, none, .absent, c.specVersion⟩ false
      return ({ eventId := some id, run := updated } : EventResult)) := by
  by_cases hk : c.key = K
  swap
  · -- another run's start
    refine .bind Licences.frame (runs_sql Licences.frame (admits_fits fun s pick _ _ => fits_other ?_ ?_)) fun updated =>
      .bind Licences.frame (runs_journal_from ?_ _) fun _ => TxRules.runs_pure Licences.frame _
    · rintro ⟨_, _, h⟩; cases h; exact hk rfl
    · rintro ⟨_, _, h, -⟩; cases h
    · refine .of_built Licences.frame (fun q hq => admits_fits fun s pick _ _ => fits_other ?_ ?_) (fun _ _ _ _ => trivial)
        (fun _ _ h => h.elim) built_tryAppend
      · rintro ⟨τ, m, rfl⟩
        rcases hq with h | ⟨_, _, h⟩ | ⟨_, -, -, h⟩ <;> cases h
      · rintro ⟨v, oc, rfl, -⟩
        rcases hq with h | ⟨_, _, h⟩ | ⟨_, -, -, h⟩ <;> cases h
        exact hk rfl
  have hrow : ∀ s : State n, startsFresh K t (.query (.startRun c.key now c.me)) s = true →
      ∃ r, (s.view t).runs.lookup K = some r ∧ r.startedAt = none := by
    intro s hc
    simp only [startsFresh, hk, ne_eq, not_true_eq_false, decide_false, Bool.false_or, Option.any_eq_true,
      Option.isNone_iff_eq_none] at hc
    exact hc
  have hnone : ∀ s : State n, startsFresh K t (.query (.startRun c.key now c.me)) s = true → (startLicence K).grant (s.view t) = none := by
    intro s hc
    obtain ⟨r, hr, hnone⟩ := hrow s hc
    simp [startLicence, hr, hnone]
  have huses : ∀ (s : State n) (pick : Pick), (startLicence K).usesAll (plan (.startRun c.key now c.me) pick (s.clock t) (s.view t)).writes = [] :=
    fun s pick => List.filterMap_eq_nil_iff.2 (uses_none fun ⟨_, _, h, _⟩ => by cases h)
  refine .bind_gives Licences.frame (B := fun _ s => (startLicence K).Licensed t s)
    (gives_sql Licences.frame (admits_fits fun s pick _ hc => ⟨fun g hg => ?_, huses s pick⟩) fun s pick a _ hi _ _ hc hans _ => ?_) fun updated =>
      .bind_any Licences.frame (fun _ => trivial) (runs_journal_from (runs_tryAppend_started hk hme) _) fun _ =>
        TxRules.runs_pure Licences.frame _
  · rw [hnone s hc] at hg; cases hg
  · obtain ⟨r, hr, -⟩ := hrow s hc
    have hw : (plan (.startRun c.key now c.me) pick (s.clock t) (s.view t)).writes =
        [.updateRun K { r with status := .running, startedAt := some now, startedBy := some c.me }] := by
      rw [hk]; exact update_hit hr rfl
    have hgrant := Licences.licensed_grant (s := s.see t) (TxRules.Inv.see hi) (hnone s hc)
      ?_ (huses s pick) (g := (now, some c.me)) ?_ ?_
    · exact hgrant _
    · rw [hw]; simp [Schema.touchesAll, Write.touches, startLicence]
    · show some c.me = _
      rw [hme]
    · rw [hw]; simp [startLicence, Schema.applyAll, Write.apply]

end Licence

/-! ## After its creation -/

section Order

variable {n : Nat} {K : RunKey} {t : Fin n} {c : Ctx} {s : State n}

abbrev orderRules (n : Nat) (K : RunKey) : Rules n := (startOrder K).rules fun t o s => startsFresh K t o s

theorem admits_order {A : State n → Prop} {q : Query} (hins : ∀ r, q ≠ .insertRun K r)
    (h : Journaling K q → ∀ s, A s → (startOrder K).Opened (s.view t)) : (orderRules n K).Admits t A (fun _ _ => True) q :=
  Order.admits_of_fits fun s _ _ _ _ ha _ => order_fits hins fun hj => h hj s ha

/-- A statement inside a transaction, steady or not. -/
theorem extends_inside_order (hi : (orderRules n K).Inv s) (hin : s.nest t ≠ none) {takes : List Key} {ws : List Write}
    (hf : (startOrder K).Fits (s.view t) ws) : (orderRules n K).Extends t s takes ws := by
  have hdraft : (startOrder K).Draft (s.pend t) s.db := hi.draft_pend t
  exact ⟨hdraft.append (Schema.State.view_eq s t ▸ hf), fun h => absurd (TxRules.nest_none.2 h) hin⟩

/-- The `run_created` of a new run makes its rows steady. -/
theorem wp_firstEvent_order (i : RunInput) (hk : c.key = K) (hs : (orderRules n K).SoundBelow t s) (hin : s.nest t ≠ none) :
    (orderRules n K).rules.wp t (sql (.insertEvent c.key (i.firstEvent c) .raise))
      (fun _ => (orderRules n K).Upto t (fun _ _ => True) s) ((orderRules n K).Left t (fun _ _ => True) s) s := by
  refine wp_sql_open (fun s₁ pick a _ hi hr _ hans => ?_) fun s₁ e hw he => ⟨hw, fun h => absurd h (not_caught_sql fun v hv => ?_)⟩
  · have hw := (TxRules.Still.of_rely hr).went
    have hwrites : (plan (.insertEvent c.key (i.firstEvent c) .raise) pick (s₁.clock t) (s₁.view t)).writes = _ :=
      (insertEventPlan_raise (e := (i.firstEvent c).row (s₁.clock t)) rfl).1 a hans
    have hfits : (startOrder K).Fits (s₁.view t)
        (plan (.insertEvent c.key (i.firstEvent c) .raise) pick (s₁.clock t) (s₁.view t)).writes :=
      (order_fits (fun r h => by cases h) fun ⟨v, oc, h, ht⟩ => by cases h; cases ht).1
    refine ⟨extends_inside_order hi (by rw [hw.nest]; exact hin) hfits, fun hw₂ => ⟨?_, hw₂, trivial⟩⟩
    refine TxRules.SoundBelow.write (s := s₁.see t) ((hs.went hw).went (TxRules.Still.see s₁ t).went) fun _ => ?_
    refine ⟨(i.firstEvent c).row (s₁.clock t), ?_, rfl⟩
    rw [Order.appended_append]
    refine List.mem_append_right _ (mem_appended.2 ?_)
    rw [hwrites, hk]
    exact List.mem_singleton.2 rfl
  · obtain ⟨pick, now, d, h⟩ := he v hv
    rw [(insertEventPlan_raise (e := (i.firstEvent c).row now) rfl).2 v h]
    exact ⟨by decide, by decide⟩

/-- A new run's rows, inside their transaction: the run is there without its `run_created` until the first slot is
taken, and a failure in between is not one the program goes on from. -/
theorem runs_insertRunRow_order (i : RunInput) :
    (orderRules n K).Runs t (fun s => s.nest t ≠ none) (fun _ _ => True) (insertRunRow c (i.row c) (i.created c)) := by
  by_cases hk : c.key = K
  swap
  · refine .of_built TxRules.inside_frame (fun q hq => ?_) (fun _ h => h.elim) (fun _ _ h => h.elim) (built_insertRunRow i)
    refine admits_order ?_ ?_
    · rintro r rfl
      rcases hq with h | h | h <;> cases h
      exact hk rfl
    · rintro ⟨v, oc, rfl, ht⟩
      rcases hq with h | h | h <;> cases h
      cases ht
  intro s hs hin
  refine (Rules.wp_bind _ _ _ _).2 (wp_sql_open (fun s₁ pick inserted _ hi hr _ hans => ?_) fun s₁ e hw he => ?_)
  · have hw₁ := (TxRules.Still.of_rely hr).went
    have hin₁ : s₁.nest t ≠ none := by rw [hw₁.nest]; exact hin
    have hw : (plan (.insertRun c.key (i.row c)) pick (s₁.clock t) (s₁.view t)).writes = _ := insert_ans hans
    rw [hw]
    cases inserted with
    | false =>
      refine ⟨extends_inside_order hi hin₁ (.of_aside (fun _ h => by cases h) _), fun hw₂ => ⟨?_, hw₂, trivial⟩⟩
      refine TxRules.SoundBelow.write (s := s₁.see t) ((hs.below.went hw₁).went (TxRules.Still.see s₁ t).went) ?_
      rw [if_neg (by simp), List.append_nil]
      exact TxRules.Sound.steady_pend (s := s₁) (hs.of_rely hr)
    | true =>
      rw [if_pos rfl]
      refine ⟨extends_inside_order hi hin₁ ⟨.inr fun e he => (by cases he), fun w hw _ => .inr ⟨_, List.mem_singleton.2 rfl, _, by rw [hk]⟩⟩,
        fun hw₂ => ?_⟩
      refine (Rules.wp_bind _ _ _ _).2 (wp_sql_open (fun s₃ pick a _ hi₃ hr₃ _ _ => ⟨?_, fun hw₃ => ?_⟩) fun s₃ e hw₃ he => ?_)
      · have hfits : (startOrder K).Fits (s₃.view t) (plan (.insertSlots c.key) pick (s₃.clock t) (s₃.view t)).writes :=
          (order_fits (fun r h => by cases h) fun ⟨v, oc, h, _⟩ => by cases h).1
        refine extends_inside_order hi₃ ?_ hfits
        rw [TxRules.nest_of_tx hr₃.keep.tx, hw₂.nest]; exact hin
      · have hw' := hw₂.trans hw₃
        refine (Rules.wp_bind _ _ _ _).2 (Rules.wp_mono (fun _ s₄ h₄ => ?_) (fun _ _ h₄ => ?_) _ _
          (wp_firstEvent_order i hk (hs.below.went hw') (by rw [hw'.nest]; exact hin)))
        · exact ⟨h₄.sound, hw'.trans h₄.went, trivial⟩
        · exact ⟨hw'.trans h₄.went, fun hc => ⟨(h₄.upto hc).sound, hw'.trans h₄.went, trivial⟩⟩
      · refine ⟨hw₂.trans hw₃, fun h => absurd h (not_caught_sql fun v hv => ?_)⟩
        obtain ⟨pick, now, d, h⟩ := he v hv
        simp only [plan] at h
        split at h <;> cases h
  · refine ⟨hw, fun h => absurd h (not_caught_sql fun v hv => ?_)⟩
    obtain ⟨pick, now, d, h⟩ := he v hv
    simp only [plan, WorkflowWorld.insert] at h
    split at h <;> cases h

theorem runs_other_order {α : Type} {p : P α} {e : EventReq} {l : Bool} (he : e.type ≠ .runStarted)
    (hp : Built (Stmt c e l) (Block c e l) p) : (orderRules n K).Runs t (fun _ => True) (fun _ _ => True) p := by
  have hplain : ∀ {A : State n → Prop} {q : Query}, Issued c e l (.query q) → (∀ r, q ≠ .insertRun K r) →
      (orderRules n K).Admits t A (fun _ _ => True) q :=
    fun hq hins => admits_order hins fun hj => absurd hj (issued_other he hq).2
  have hstmt : ∀ {A : State n → Prop} {q : Query}, Stmt c e l (.query q) → (orderRules n K).Admits t A (fun _ _ => True) q :=
    fun hq => hplain (issued_stmt hq) fun r h => by subst h; rcases hq with h | h <;> cases h
  refine .of_built Order.frame (fun q hq => hstmt hq) (fun _ h => h.elim) (fun α p hb => ?_) hp
  cases hb with
  | @append k v hj =>
    refine .of_built Order.frame (fun q hq => ?_) (fun _ _ _ _ => trivial) (fun _ _ h => h.elim) built_tryAppend
    rcases hq with h | ⟨id, at', rfl⟩ | ⟨f, h1, h2, rfl⟩
    · exact admits_read h fun _ _ _ => trivial
    · exact hplain (.inr (.inr (.inl ⟨v, id, at', hj, rfl, rfl⟩))) fun r h => by cases h
    · exact hplain (.inr (.inr ⟨f, h1, h2, rfl⟩)) fun r h => by cases h
  | @run i hi =>
    refine .transaction Order.frame TxRules.inside_frame (fun s _ => by rw [TxRules.beginTx_nest]; simp) ?_
    refine .of_built TxRules.inside_frame (fun q hq => hstmt hq) (fun _ h => h.elim) ?_ (built_insertAdmittedRun (l := l) hi)
    rintro _ _ ⟨⟩
    exact runs_insertRunRow_order i
  | legacy hl u v ht hc =>
    refine .bind Order.frame (runs_sql Order.frame (hplain (.inr (.inr (.inr (.inr ⟨hl, rfl, ht, hc, rfl⟩)))) fun r h => by cases h)) fun _ => ?_
    exact TxRules.runs_pure Order.frame _

/-- The update finds the run, and with it the `run_created` before the event. -/
theorem runs_start_order (now : Nat) :
    (orderRules n K).Runs t (fun _ => True) (fun _ _ => True) (do
      let updated : Option RunRow ← sql (.startRun c.key now c.me)
      let id ← journal c ⟨.runStarted, none, .absent, c.specVersion⟩ false
      return ({ eventId := some id, run := updated } : EventResult)) := by
  refine .bind_gives Order.frame (B := fun _ s => c.key = K → (startOrder K).Opened (s.view t))
    (gives_sql Order.frame (admits_order (fun r h => by cases h) fun ⟨_, _, h, _⟩ => by cases h) fun s pick a _ hi hs _ hc _ hw hk => ?_)
    fun updated => .bind_any Order.frame (fun _ => trivial) (runs_journal_from ?_ _) fun _ => TxRules.runs_pure Order.frame _
  · have hrow := hc
    simp only [Order.rules, startsFresh, hk, ne_eq, not_true_eq_false, decide_false, Bool.false_or, Option.any_eq_true] at hrow
    obtain ⟨r, hr, -⟩ := hrow
    refine Order.opened_went (Order.opened_of_begun hi hs ?_) hw
    show ((s.view t).runs.lookup K).isSome = true
    rw [hr]; rfl
  · have happend : ∀ {A : State n → Prop}, (orderRules n K).Frame t A (fun _ _ => True) → (∀ s, A s → c.key = K → (startOrder K).Opened (s.view t)) →
        (orderRules n K).Runs t A (fun _ _ => True) (tryAppend c c.key ⟨.runStarted, none, .absent, c.specVersion⟩) := by
      intro A hG hA
      refine .of_built hG (fun q hq => admits_order ?_ ?_) (fun _ _ _ _ => trivial) (fun _ _ h => h.elim) built_tryAppend
      · rintro r rfl
        rcases hq with h | ⟨_, _, h⟩ | ⟨_, -, -, h⟩ <;> cases h
      · rintro ⟨v, oc, rfl, -⟩ s ha
        rcases hq with h | ⟨_, _, h⟩ | ⟨_, -, -, h⟩ <;> cases h
        exact hA s ha rfl
    by_cases hk : c.key = K
    · exact (happend Order.opened_frame fun s h _ => h).weaken fun s h => h hk
    · exact (happend Order.frame fun _ _ h => absurd h hk).weaken fun _ _ => trivial

end Order

end Started

/-! ## Whole runs -/

/-- Of the run in the data at the start: one `run_started` at most, by the session that set the time; a `run_created`
where the run is, and before its `run_started`. -/
structure Db.StartOk (K : RunKey) (d : Db) : Prop where
  once : (startLicence K).Valid d
  ordered : (startOrder K).Ordered d

/-- The log holds one `run_started` at most, after a `run_created`; the time of the start is still there later. -/
structure StartedOnce (K : RunKey) (d d' : Db) : Prop where
  once : ((d.events K).filter fun e => e.type = .runStarted).length ≤ 1
  ordered : Lists.Precedes (fun e => e.type = .runCreated) (fun e => e.type = .runStarted) (d.events K)
  kept : ∀ r τ, d.runs.lookup K = some r → r.startedAt = some τ → ∃ r', d'.runs.lookup K = some r' ∧ r'.startedAt = some τ

/-- In every run in which each start's update finds the run there and not started, the run starts once. -/
theorem run_starts_once {n : Nat} {D : Deps} {requests : Fin n → CreateReq} {d : Db} {now : Nat} {K : RunKey} (hd : d.StartOk K)
    {C C' : Configuration n} (h : Reaches (World n) (fun t o s => startsFresh K t o s) (initial D requests d now) C)
    (h' : Reaches (World n) (fun t o s => startsFresh K t o s) C C') : StartedOnce K C.st.db C'.st.db := by
  have hlicence : (Started.licenceRules n K).rules.Safe (initial D requests d now) :=
    safe_of_runs hd.once (fun _ _ _ _ _ => trivial) (fun _ => Licences.frame) (fun _ _ _ => trivial) (fun _ _ _ => trivial)
      fun t c hc => Started.runs_request Licences.frame Started.runs_other_licence (Started.runs_start_licence hc.me)
  have horder : (Started.orderRules n K).rules.Safe (initial D requests d now) :=
    safe_of_runs hd.ordered (fun _ _ _ _ _ => trivial) (fun _ => Order.frame) (fun _ _ _ => trivial) (fun _ _ _ => trivial)
      fun t c _ => Started.runs_request Order.frame Started.runs_other_order Started.runs_start_order
  obtain ⟨hC, -⟩ := hlicence.reaches TxRules.tolerates h
  obtain ⟨hO, -⟩ := horder.reaches TxRules.tolerates h
  have hvalid : (startLicence K).Valid C.st.db := hC.inv.data
  have hordered : (startOrder K).Ordered C.st.db := hO.inv.data
  have hgrows : (startLicence K).Grows C.st.db C'.st.db := (hC.reaches TxRules.tolerates h').2
  refine ⟨?_, hordered.order, fun r τ hr hτ => ?_⟩
  · rw [← List.length_map (f := EventRow.writer)]
    show ((startLicence K).records C.st.db).length ≤ 1
    rcases hvalid with h | ⟨_, _, -, -, h⟩ <;> simp [h]
  · have hgrant := hgrows (τ, r.startedBy) (by simp [startLicence, hr, hτ])
    obtain ⟨r', hr', hg⟩ := Option.bind_eq_some_iff.1 hgrant
    obtain ⟨τ', hτ', heq⟩ := Option.map_eq_some_iff.1 hg
    exact ⟨r', hr', hτ'.trans (congrArg some (congrArg Prod.fst heq))⟩

theorem empty_startOk (K : RunKey) : Db.empty.StartOk K :=
  ⟨.inl rfl, ⟨fun _ _ h => (by cases h), fun h => by cases h⟩⟩

/-- A run that is created, started and completed, one request after the other. -/
theorem run_starts_once_lifecycle : ∃ C : Configuration 3,
    Reaches (World 3) (fun t o s => startsFresh ("t", "r") t o s) (initial defaultDeps lifecycle Db.empty 0) C ∧
    (C.st.db.events ("t", "r")).map (·.type) = [.runCreated, .runStarted, .runCompleted] ∧ StartedOnce ("t", "r") C.st.db C.st.db := by
  obtain ⟨C, hC, htypes⟩ := Sessions.exists_of_play (fun t o s h => h)
    (P := fun C : Configuration 3 => (C.st.db.events ("t", "r")).map (·.type) = [.runCreated, .runStarted, .runCompleted])
    (show (Sessions.play (startsFresh ("t", "r")) [go 0, go 1, go 2] (initial defaultDeps lifecycle Db.empty 0)).any _ = true
      by decide +kernel)
  exact ⟨C, hC, by simpa using htypes, run_starts_once (empty_startOk _) hC .refl⟩

/-- A run, and two deliveries that start it. -/
def twoStarts : Fin 3 → CreateReq
  | 0 => { tenant := "t", runId := none, ulid := "r", event := .runCreated { deploymentId := "d", workflowName := "w" } }
  | 1 => { tenant := "t", runId := some "r", event := .runStarted none }
  | 2 => { tenant := "t", runId := some "r", event := .runStarted none }

/-- Both read the run while it was pending, so that neither took the short cut: the log holds two starts. -/
theorem run_starts_twice : ∃ C : Configuration 3, Reaches (World 3) Anything (initial defaultDeps twoStarts Db.empty 0) C ∧
    ¬StartedOnce ("t", "r") C.st.db C.st.db := by
  obtain ⟨C, hC, h⟩ := Sessions.exists_of_play (c := Anything) (fun _ _ _ _ => trivial)
    (P := fun C : Configuration 3 => ((C.st.db.events ("t", "r")).filter fun e => e.type = .runStarted).length = 2)
    (show (Sessions.play (fun _ _ _ => true) [go 0, goFor 1 2, go 2, go 1] (initial defaultDeps twoStarts Db.empty 0)).any _ = true
      by decide +kernel)
  refine ⟨C, hC, fun hone => ?_⟩
  have hlength := hone.once
  rw [of_decide_eq_true h] at hlength
  omega

end WorkflowWorld
