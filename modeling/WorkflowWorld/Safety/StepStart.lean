/-
The start of a step against the deliveries that run it. A start looks at the step's row before its
transaction, asks for the delivery of an owner that copy shows, and then updates whatever row is
there. Where nothing happened to the row in between, nor to the owner's delivery, no start takes a
running step from a delivery in flight, or starts one before its retry is due.
-/
import WorkflowWorld.Storage.System

namespace WorkflowWorld

open Concurrency Schema Schema.State

section Rules

variable {n : Nat}

/-- The row may be started under `owner`: it is not running under another delivery that is in flight,
and its retry is due. -/
structure Startable (s : State n) (r : StepRow) (owner : Option MessageId) : Prop where
  free : ∀ m, r.status = .running → r.ownerMessageId = some m → owner ≠ some m → m ∉ s.db.inFlight
  due : ∀ u, r.retryAfter = some u → u ≤ s.now

/-- A step of session `t` applies a start: it writes a higher attempt over the row it found. -/
structure Starts (t : Fin n) (k : StepKey) (r r' : StepRow) (s s' : State n) : Prop where
  found : (s.view t).steps.lookup k = some r
  attempt : r.attempt < r'.attempt
  written : s'.pend t = s.pend t ++ [.updateStep k r']

/-- Every start finds a row that may be started. -/
def startRules (cond : Fin n → Op → State n → Prop) : Concurrency.Rules (World n) where
  inv _ := True
  cond := cond
  rel _ _ := True
  guar t s s' := ∀ k r r', Starts t k r r' s s' → Startable s r r'.ownerMessageId
  spares _ _ _ := True
  rel_refl _ := trivial
  rel_trans _ _ _ _ _ := trivial
  spares_refl _ _ := trivial
  spares_trans _ _ _ _ _ _ := trivial
  guar_spares _ _ _ _ _ _ := trivial

def Query.startsStep : Query → Bool
  | .startStep _ _ _ _ => true
  | _ => false

variable {cond : Fin n → Op → State n → Prop} {t : Fin n} {s s' : State n}

theorem Starts.query {k : StepKey} {r r' : StepRow} (h : Starts t k r r' s s') (hb : Base s) {ch : schema.Choice} {o : Op} {a : o.Res}
    (he : Schema.State.exec t ch o s = some (a, s')) : ∃ owner τ, o = .query (.startStep k r.runId owner τ) ∧ r' = r.started owner τ := by
  rcases TxRules.exec_pend hb he with hle | ⟨q, rfl, hp⟩
  · rw [h.written, List.length_append, List.length_singleton] at hle
    omega
  · have hw : Write.updateStep k r' ∈ (plan q ch.pick (s.clock t) (s.view t)).writes := by
      rw [show (plan q ch.pick (s.clock t) (s.view t)).writes = [.updateStep k r'] from
        List.append_cancel_left (hp.symm.trans h.written)]
      exact List.mem_singleton.2 rfl
    have hfound := h.found
    have hattempt := h.attempt
    rcases plan_step hw rfl with ⟨_, _, -, h', -⟩ | ⟨k₁, r₁, r₂, h', hrow, -, hkind⟩
    · cases h'
    · cases h'
      rw [hrow] at hfound
      cases hfound
      rcases hkind with ⟨owner, τ, rfl, h''⟩ | ⟨status, τ, m, -, rfl⟩ | ⟨u, -, rfl⟩
      · exact ⟨owner, τ, rfl, h''⟩
      · exact absurd hattempt (lt_irrefl _)
      · exact absurd hattempt (lt_irrefl _)

theorem Starts.moves {k : StepKey} {r r' : StepRow} (h : Starts t k r r' s s') : s' ≠ s := by
  rintro rfl
  have hlen := congrArg List.length h.written
  simp at hlen

/-- An operation that starts no step. -/
theorem ok_of_no_start {o : Op} (ho : ∀ q, o = .query q → q.startsStep = false) (hb : Base s) (ch : schema.Choice) {a : o.Res}
    (he : Schema.State.exec t ch o s = some (a, s')) : (startRules cond).Ok t s s' := by
  refine ⟨trivial, trivial, fun k r r' h => ?_⟩
  obtain ⟨owner, τ, rfl, -⟩ := h.query hb he
  cases ho _ rfl

theorem start_tolerates : (startRules cond).Tolerates where
  crash t s _ _ := by
    refine ⟨trivial, trivial, fun k r r' h => ?_⟩
    have hnil : (s.crash t).pend t = [] := by unfold Schema.State.crash Schema.State.pend; rw [setTx_tx_self]
    have hlen := congrArg List.length (h.written)
    rw [show ((World n).crash t s).pend t = [] from hnil] at hlen
    simp at hlen
  env _ _ _ _ _ := ⟨trivial, trivial, fun _ => trivial⟩

/-! ## Statements -/

theorem write_seen (s : State n) (t : Fin n) (takes : List Key) (ws : List Write) :
    ((s.see t).write t takes ws).seen t = some (s.view t) := by
  unfold Schema.State.write
  cases hx : (s.see t).tx t <;> simp [see, publish, setTx]

theorem wp_sql_any {q : Query} (hq : q.startsStep = false) {Q : q.Ans → State n → Prop}
    (hQ : ∀ s₁ pick a, Base s₁ → Keep t s s₁ → cond t (.query q) s₁ → (plan q pick (s₁.clock t) (s₁.view t)).ans = .ok a →
      Q a ((s₁.see t).write t (plan q pick (s₁.clock t) (s₁.view t)).takes (plan q pick (s₁.clock t) (s₁.view t)).writes)) :
    (startRules cond).wp t (sql q) Q (fun _ _ => True) s := by
  intro s₁ hb _ hr hc ch a s₂ he
  refine ⟨ok_of_no_start (o := .query q) (fun q' h => by cases h; exact hq) hb ch he, ?_⟩
  rcases runQuery_cases he with ⟨e, rfl, -, -⟩ | ⟨a, rfl, hans, -, -, rfl⟩
  · trivial
  · exact hQ s₁ ch.pick a hb hr.keep hc hans

end Rules

/-! ## The flow of a start -/

/-- The statements of a start that ask for the step's row, for its owner's delivery, and update the row. -/
def Query.checksStep : Query → Bool
  | .lockStep _ _ | .deliveryInFlight _ | .startStep _ _ _ _ => true
  | _ => false

/-- Of the step's row in `d₀`, if it is there: it is in `d` as it was, and the delivery of its owner has not
started since. -/
def unmoved (k : StepKey) (d₀ d : Db) : Bool :=
  (d₀.steps.lookup k).all fun r =>
    d.steps.lookup k = some r && r.ownerMessageId.all fun m => !d.inFlight.contains m || d₀.inFlight.contains m

/-- A start finds the step's row as its previous statement found it. -/
def stepUnmoved {n : Nat} (requests : Fin n → CreateReq) (t : Fin n) (o : Op) (s : State n) : Bool :=
  match (requests t).event, o, s.seen t with
  | .stepStarted step _ _, .query q, some d₀ => !q.checksStep || unmoved ((requests t).tenant, step) d₀ (s.view t)
  | _, _, _ => true

theorem unmoved_spec {k : StepKey} {d₀ d : Db} {r : StepRow} (h : unmoved k d₀ d = true) (hr : d₀.steps.lookup k = some r) :
    d.steps.lookup k = some r ∧ ∀ m, r.ownerMessageId = some m → m ∈ d.inFlight → m ∈ d₀.inFlight := by
  unfold unmoved at h
  rw [hr, Option.all_some, Bool.and_eq_true, decide_eq_true_eq] at h
  refine ⟨h.1, fun m hm hin => ?_⟩
  have hall := h.2
  rw [hm, Option.all_some] at hall
  simpa [hin] using hall

theorem inFlight_applyAll : ∀ (ws : List Write) (d : Db), Db.inFlight (schema.applyAll ws d) = d.inFlight
  | [], _ => rfl
  | w :: ws, d => by
    show Db.inFlight (schema.applyAll ws (w.apply d)) = _
    rw [inFlight_applyAll ws]
    cases w <;> rfl

theorem view_inFlight {n : Nat} (s : State n) (t : Fin n) : (s.view t).inFlight = s.db.inFlight := by
  rw [view_eq]; exact inFlight_applyAll ..

section Flow

variable {n : Nat} {D : Deps} {requests : Fin n → CreateReq} {t : Fin n} {c : Ctx} {step : StepId} {createsStep : Option String}
  {owner : Option MessageId} {s : State n} {r : StepRow}

/-- The session's last statement found the row `r`, and no delivery in flight that owns it against `owner`. -/
def Clear (t : Fin n) (k : StepKey) (r : StepRow) (owner : Option MessageId) (s : State n) : Prop :=
  ∃ d, s.seen t = some d ∧ d.steps.lookup k = some r ∧ ∀ m, r.ownedByAnother owner = some m → m ∉ d.inFlight

/-- The session's last statement found the run's row `r`. -/
def Found (t : Fin n) (c : Ctx) (step : StepId) (r : StepRow) (s : State n) : Prop :=
  ∃ d, s.seen t = some d ∧ d.stepOf (c.tenant, step) c.runId = some r

/-- The step's row is the one the session inserted. -/
structure Mine (t : Fin n) (k : StepKey) (r : StepRow) (s : State n) : Prop where
  row : (s.view t).steps.lookup k = some r
  held : Key.row (.step k) ∈ s.locks t
  inside : s.nest t ≠ none

theorem Mine.keep {k : StepKey} {s' : State n} (h : Mine t k r s) (hk : Keep t s s') : Mine t k r s' := by
  have hrow : (s.view t).steps.lookup k = (s'.view t).steps.lookup k := hk.view h.held
  exact ⟨by rw [← hrow]; exact h.row, by rw [hk.locks]; exact h.held, by rw [TxRules.nest_of_tx hk.tx]; exact h.inside⟩

theorem Mine.fail {k : StepKey} (h : Mine t k r s) : Mine t k r (s.fail t) := by
  refine ⟨?_, by rw [fail_locks]; exact h.held, fun hn => h.inside ?_⟩
  · rw [view_eq, fail_pend, fail_db, ← view_eq]; exact h.row
  · rw [TxRules.nest_none] at hn ⊢
    unfold Schema.State.fail at hn
    cases hx : s.tx t with
    | none => rfl
    | some x => rw [hx] at hn; simp at hn

/-- A statement inside the transaction, that leaves the steps. -/
theorem Mine.write {k : StepKey} (h : Mine t k r s) (takes : List Key) {ws : List Write} (hws : ∀ w ∈ ws, w.tbl ≠ .step) :
    Mine t k r ((s.see t).write t takes ws) := by
  obtain ⟨x, hx⟩ : ∃ x, s.tx t = some x := Option.ne_none_iff_exists'.1 fun hn => h.inside (TxRules.nest_none.2 hn)
  refine ⟨?_, ?_, by rw [TxRules.write_nest]; exact h.inside⟩
  · rw [write_view, see_view, steps_applyAll _ _ hws]; exact h.row
  · rw [TxRules.write_locks (s := s.see t) hx]; exact List.mem_append_left _ h.held

/-- The rules of a start under the condition. -/
abbrev exclusive (requests : Fin n → CreateReq) : Concurrency.Rules (World n) := startRules fun t o s => stepUnmoved requests t o s

variable (hreq : (requests t).event = .stepStarted step createsStep owner) (htenant : c.tenant = (requests t).tenant)

include hreq htenant in
/-- What the condition says of a row that was found. -/
theorem unmoved_of_cond {q : Query} (hq : q.checksStep = true) (hc : stepUnmoved requests t (.query q) s = true) {d : Db}
    (hseen : s.seen t = some d) (hr : d.steps.lookup (c.tenant, step) = some r) :
    (s.view t).steps.lookup (c.tenant, step) = some r ∧ ∀ m, r.ownerMessageId = some m → m ∈ (s.view t).inFlight → m ∈ d.inFlight := by
  unfold stepUnmoved at hc
  rw [hreq, hseen] at hc
  simp only [hq, Bool.not_true, Bool.false_or] at hc
  rw [htenant] at hr ⊢
  exact unmoved_spec hc hr

/-- The row the start is validated against. -/
theorem wp_validateStep_found (current : Option CurrentRun) (isLazy : Bool) :
    (exclusive requests).wp t (validateStep c current step isLazy)
      (fun v s' => (∀ r, v = some r → Found t c step r s') ∧ (v = none → isLazy = true)) (fun _ _ => True) s := by
  refine (Rules.wp_bind _ _ _ _).2 (Rules.wp_mono (fun existing s₁ h₁ => ?_) (fun _ _ h => h) _ _
    (wp_sql_any (Q := fun existing s₁ => ∀ r, existing = some r → Found t c step r s₁) rfl fun s₁ pick existing _ _ _ hans r hr => ?_))
  · have hthrow : ∀ e : Err, (exclusive requests).wp t (throw e : P (Option StepRow))
        (fun v s' => (∀ r, v = some r → Found t c step r s') ∧ (v = none → isLazy = true)) (fun _ _ => True) s₁ := fun _ => trivial
    cases existing with
    | none =>
      simp only
      split
      · exact ⟨fun r hr => (by cases hr), fun _ => ‹_›⟩
      · exact hthrow _
    | some r =>
      simp only
      split
      · exact hthrow _
      · split
        · exact hthrow _
        · split
          · exact ⟨h₁, fun h => by cases h⟩
          · split
            · exact hthrow _
            · exact ⟨h₁, fun h => by cases h⟩
  · cases hans
    exact ⟨_, write_seen .., hr⟩

include hreq htenant in
/-- The wait for the owner of a running step ends with none in flight. -/
theorem wp_prepareStep_found (now : Nat) (starts : Bool) (h : Found t c step r s) :
    (exclusive requests).wp t (prepareStep c step createsStep owner now starts (some r))
      (fun _ s' => Clear t (c.tenant, step) r owner s') (fun _ _ => True) s := by
  unfold prepareStep
  simp only
  split
  · have hfound : ∀ {q : Query} {s s₁ : State n}, q.checksStep = true → Found t c step r s → Keep t s s₁ →
        stepUnmoved requests t (.query q) s₁ = true → (s₁.view t).stepOf (c.tenant, step) c.runId = some r := by
      rintro q s s₁ hq ⟨d, hseen, hr⟩ hk hc
      obtain ⟨hr, hrun⟩ := stepOf_eq_some.1 hr
      have hrow := (unmoved_of_cond hreq htenant hq hc (hk.seen.trans hseen) hr).1
      exact stepOf_eq_some.2 ⟨hrow, hrun⟩
    refine (Rules.wp_bind _ _ _ _).2 (Rules.wp_mono (fun cur s₁ h₁ => ?_) (fun _ _ h => h) _ _
      (wp_sql_any (Q := fun cur s₁ => cur = some r ∧ Found t c step r s₁) rfl fun s₁ pick cur _ hk hc hans => ?_))
    · obtain ⟨rfl, h₁⟩ := h₁
      simp only
      split
      · rename_i hnone _ hother
        rw [hother] at hnone
        cases hnone
      · rename_i m hm
        refine (Rules.wp_bind _ _ _ _).2 (Rules.wp_mono (fun inFlight s₂ h₂ => ?_) (fun _ _ h => h) _ _
          (wp_sql_any (Q := fun inFlight s₂ => inFlight = false → Clear t (c.tenant, step) r owner s₂) rfl
            fun s₂ pick inFlight _ hk hc hans => ?_))
        · cases inFlight with
          | true => trivial
          | false => exact h₂ rfl
        · have hrow := hfound rfl h₁ hk hc
          cases hans
          intro hfalse
          refine ⟨_, write_seen .., (stepOf_eq_some.1 hrow).1, fun m' hm' => ?_⟩
          rw [hm] at hm'
          cases hm'
          simpa using hfalse
    · have hrow := hfound rfl h hk hc
      have hcur : cur = some r := by
        have := hans.symm.trans (lockRead_ans ..)
        rw [Except.ok.injEq] at this
        rw [this, hrow]
      exact ⟨hcur, _, write_seen .., hrow⟩
  · rename_i hnone
    obtain ⟨d, hseen, hr⟩ := h
    refine ⟨d, hseen, (stepOf_eq_some.1 hr).1, fun m hm => ?_⟩
    rw [hm] at hnone
    exact absurd rfl hnone

/-- The row a lazy start inserts stays the session's own while it appends the step's creation. -/
theorem wp_createStepLazily_mine (name : String) (starts : Bool) (h : s.nest t ≠ none) :
    (exclusive requests).wp t (createStepLazily c step name starts)
      (fun _ s' => Mine t (c.tenant, step) (newStep c name) s') (fun _ _ => True) s := by
  refine (Rules.wp_bind _ _ _ _).2 (Rules.wp_mono (fun inserted s₁ h₁ => ?_) (fun _ _ h => h) _ _
    (wp_sql_any (Q := fun inserted s₁ => inserted = true → Mine t (c.tenant, step) (newStep c name) s₁) rfl
      fun s₁ pick inserted _ hk _ hans hins => ?_))
  · cases inserted with
    | false => trivial
    | true =>
      simp only [if_true]
      split
      · exact h₁ rfl
      · refine (Rules.wp_tryCatch _ _ _).2 ((Rules.wp_bind _ _ _ _).2 (Rules.wp_mono (fun _ _ h₂ => h₂) (fun e s₂ h₂ => ?_) _ _
          (Rules.wp_all (A := Mine t (c.tenant, step) (newStep c name)) (fun _ _ h hr => h.keep hr.keep) (fun o s ch a s' ho hb _ h _ he => ?_)
            plain_tryAppend s₁ (h₁ rfl))))
        · split
          · exact h₂
          · trivial
        · have hok : (exclusive requests).Ok t s s' := by
            refine ok_of_no_start (fun q hq => ?_) hb ch he
            subst hq
            rcases ho with h | ⟨id, at', rfl⟩ | ⟨f, -, -, rfl⟩
            · cases q <;> first | rfl | cases h
            · rfl
            · rfl
          refine ⟨hok, ?_⟩
          cases o with
          | query q =>
            rcases runQuery_cases he with ⟨e, -, hs, -⟩ | ⟨b, -, -, -, -, rfl⟩
            · rcases hs with rfl | rfl | rfl
              · exact h
              · exact h.fail
              · exact Mine.fail (s := s.see t) ⟨h.row, h.held, h.inside⟩
            · refine h.write _ fun w hw htbl => ?_
              have hq := plan_tbl hw
              rw [htbl] at hq
              rcases ho with h | ⟨id, at', rfl⟩ | ⟨f, -, -, rfl⟩
              · exact plan_reads h hw
              · cases hq
              · cases hq
          | store m => cases he; exact ⟨h.row, h.held, h.inside⟩
          | clock => cases he; exact h
          | load => cases he; exact h
          | _ => exact ho.elim
  · subst hins
    have hw : (plan (.insertStep (c.tenant, step) (newStep c name)) pick (s₁.clock t) (s₁.view t)).writes =
        [.insertStep (c.tenant, step) (newStep c name)] := insert_ans hans
    rw [← TxRules.nest_of_tx hk.tx] at h
    obtain ⟨x, hx⟩ : ∃ x, s₁.tx t = some x := Option.ne_none_iff_exists'.1 fun hn => h (TxRules.nest_none.2 hn)
    refine ⟨?_, ?_, by rw [TxRules.write_nest]; exact h⟩
    · rw [write_view, hw]; exact AList.lookup_insert _
    · rw [TxRules.write_locks (s := s₁.see t) hx, hw]
      simp [Schema.touchesAll, Write.touches]

theorem wp_awaitRetry_due {A : State n → Prop} (hA : ∀ s s', A s → Keep t s s' → A s') (retryAfter : Option Nat) (h : A s) :
    (exclusive requests).wp t (awaitRetry step retryAfter) (fun _ s' => A s' ∧ ∀ u, retryAfter = some u → u ≤ s'.now)
      (fun _ _ => True) s := by
  cases retryAfter with
  | none => exact ⟨h, fun u hu => by cases hu⟩
  | some u =>
    intro s₁ hb _ hr _ ch now s₂ he
    refine ⟨ok_of_no_start (o := .clock) (fun q hq => by cases hq) hb ch he, ?_⟩
    cases he
    show (exclusive requests).wp t (if u > s₁.now then _ else _) _ _ s₁
    split
    · intro s₃ hb₃ _ hr₃ _ ch₃ later s₄ he₃
      exact ⟨ok_of_no_start (o := .clock) (fun q hq => by cases hq) hb₃ ch₃ he₃, trivial⟩
    · rename_i hdue
      exact ⟨hA s s₁ h hr.keep, fun u' hu => by cases hu; omega⟩

/-- The start's update, and what follows it. -/
theorem wp_startStep_update {now : Nat}
    (h : ∀ s₁ : State n, Keep t s s₁ → stepUnmoved requests t (.query (.startStep (c.tenant, step) c.runId owner now)) s₁ = true →
      ∀ r, (s₁.view t).steps.lookup (c.tenant, step) = some r → Startable s₁ r owner)
    {α : Type} {rest : Option StepRow → P α} (hrest : ∀ u s, (exclusive requests).wp t (rest u) (fun _ _ => True) (fun _ _ => True) s) :
    (exclusive requests).wp t (do
      let updated : Option StepRow ← sql (.startStep (c.tenant, step) c.runId owner now)
      rest updated) (fun _ _ => True) (fun _ _ => True) s := by
  refine (Rules.wp_bind _ _ _ _).2 fun s₁ hb _ hr hc ch a s₂ he => ⟨⟨trivial, trivial, fun k r r' hs => ?_⟩, ?_⟩
  · obtain ⟨owner', τ, ho, rfl⟩ := hs.query (o := .query (.startStep (c.tenant, step) c.runId owner now)) hb he
    simp only [Op.query.injEq, Query.startStep.injEq] at ho
    obtain ⟨rfl, -, rfl, rfl⟩ := ho
    exact h s₁ hr.keep hc r hs.found
  · cases a with
    | ok u => exact hrest u s₂
    | error e => trivial

/-- An operation that starts no step. -/
def NoStart : Op → Prop
  | .query q => q.startsStep = false
  | _ => True

theorem noStart_of_reads {q : Query} (h : q.reads = true) : NoStart (.query q) := by
  cases q <;> first | rfl | cases h

theorem built_appendEvent_noStart {k : RunKey} {v : EventValues} (message : String) :
    Built NoStart NoBlock (appendEvent c k v message) := by
  refine .bind (built_tryAppend.expand (fun o ho => ?_) fun _ _ h => h.elim) fun id => ?_
  · cases o with
    | query q =>
      rcases ho with h | ⟨id, at', rfl⟩ | ⟨f, -, -, rfl⟩
      · exact noStart_of_reads h
      · rfl
      · rfl
    | _ => trivial
  · cases id with
    | some id => exact .pure _
    | none => exact .throw _

/-- Any other program of the request. -/
theorem wp_no_start {cond : Fin n → Op → State n → Prop} {α : Type} {B : (α : Type) → P α → Prop}
    (hB : ∀ (α : Type) (p : P α), B α p → ∀ s, (startRules cond).wp t p (fun _ _ => True) (fun _ _ => True) s)
    {p : P α} (hp : Built NoStart B p) (s : State n) : (startRules cond).wp t p (fun _ _ => True) (fun _ _ => True) s := by
  refine wp_of_built (fun o s ch a s' ho hb _ _ he => ok_of_no_start (fun q hq => ?_) hb ch he) hB hp s
  subst hq
  exact ho.elim (fun h => h) fun h => h.elim

include hreq htenant in
theorem wp_startStep_exclusive (now : Nat) (starts : Bool) (validated : Option StepRow)
    (h : ∀ r, validated = some r → Found t c step r s) (hlazy : validated = none → createsStep.isSome = true) :
    (exclusive requests).wp t (startStep c step createsStep owner now starts validated) (fun _ _ => True) (fun _ _ => True) s := by
  -- the row that the update finds may be started, where it is known from before or the session's own
  have hupdate : ∀ (r : StepRow) (s₁ : State n), (Clear t (c.tenant, step) r owner s₁ ∨
      Mine t (c.tenant, step) r s₁ ∧ r.status = .pending) → (∀ u, r.retryAfter = some u → u ≤ s₁.now) → ∀ s₂ : State n, Keep t s₁ s₂ →
      stepUnmoved requests t (.query (.startStep (c.tenant, step) c.runId owner now)) s₂ = true →
      ∀ r', (s₂.view t).steps.lookup (c.tenant, step) = some r' → Startable s₂ r' owner := by
    rintro r s₁ hrow hdue s₂ hk hc r' hr'
    have hdue₂ : ∀ u, r.retryAfter = some u → u ≤ s₂.now := fun u hu => le_trans (hdue u hu) hk.now
    rcases hrow with ⟨d, hseen, hr, hfree⟩ | ⟨hmine, hpending⟩
    · obtain ⟨hsame, hflight⟩ := unmoved_of_cond hreq htenant (q := .startStep (c.tenant, step) c.runId owner now) rfl hc
        (hk.seen.trans hseen) hr
      rw [hsame] at hr'
      cases hr'
      refine ⟨fun m hrun howner hother hin => ?_, hdue₂⟩
      have hanother : r.ownedByAnother owner = some m := by
        unfold StepRow.ownedByAnother
        rw [if_pos ⟨hrun, by rw [howner]; exact fun h => hother h.symm⟩, howner]
      exact hfree m hanother (hflight m howner (by rw [view_inFlight]; exact hin))
    · rw [(hmine.keep hk).row] at hr'
      cases hr'
      exact ⟨fun m hrun => (by rw [hpending] at hrun; cases hrun), hdue₂⟩
  have hrest : ∀ (u : Option StepRow) (s : State n), (exclusive requests).wp t (do
      let row ← explainStep c step u
      let id ← appendEvent c c.key ⟨.stepStarted, some step, .step createsStep owner, c.specVersion⟩
        ("step_started for step \"" ++ step ++ "\" could not be created")
      return ({ eventId := some id, step := row, stepCreated := createsStep.isSome && validated.isNone } : EventResult))
      (fun _ _ => True) (fun _ _ => True) s := by
    intro u s
    refine wp_no_start (B := NoBlock) (fun _ _ h => h.elim) (.bind (built_explainStep noStart_of_reads step u) fun row => ?_) s
    exact .bind (built_appendEvent_noStart _) fun _ => .pure _
  have hbody : ∀ s : State n, (∀ r, validated = some r → Found t c step r s) → s.nest t ≠ none → (exclusive requests).wp t (do
      prepareStep c step createsStep owner now starts validated
      awaitRetry step (validated.bind (·.retryAfter))
      let updated : Option StepRow ← sql (.startStep (c.tenant, step) c.runId owner now)
      let row ← explainStep c step updated
      let id ← appendEvent c c.key ⟨.stepStarted, some step, .step createsStep owner, c.specVersion⟩
        ("step_started for step \"" ++ step ++ "\" could not be created")
      return ({ eventId := some id, step := row, stepCreated := createsStep.isSome && validated.isNone } : EventResult))
      (fun _ _ => True) (fun _ _ => True) s := by
    intro s h hin
    cases validated with
    | some r =>
      refine (Rules.wp_bind _ _ _ _).2 (Rules.wp_mono (fun _ s₁ h₁ => ?_) (fun _ _ h => h) _ _
        (wp_prepareStep_found hreq htenant now starts (h r rfl)))
      refine (Rules.wp_bind _ _ _ _).2 (Rules.wp_mono (fun _ s₂ h₂ => ?_) (fun _ _ h => h) _ _ (wp_awaitRetry_due
        (A := Clear t (c.tenant, step) r owner) (fun s s' ⟨d, hd⟩ hk => ⟨d, hk.seen.trans hd.1, hd.2⟩) r.retryAfter h₁))
      exact wp_startStep_update (hupdate r s₂ (.inl h₂.1) h₂.2) hrest
    | none =>
      obtain ⟨name, hname⟩ := Option.isSome_iff_exists.1 (hlazy rfl)
      subst hname
      refine (Rules.wp_bind _ _ _ _).2 (Rules.wp_mono (fun _ s₁ h₁ => ?_) (fun _ _ h => h) _ _
        (wp_createStepLazily_mine name starts hin))
      exact wp_startStep_update (hupdate _ s₁ (.inr ⟨h₁, rfl⟩) fun u hu => by cases hu) hrest
  intro s₁ hb _ hr _ ch a s₂ he
  refine ⟨ok_of_no_start (o := .begin) (fun q hq => by cases hq) hb ch he, ?_⟩
  cases he
  rw [Rules.wp_bind, Rules.wp_tryCatch]
  refine Rules.wp_mono (fun _ s₃ _ => ?_) (fun _ s₃ _ => ?_) _ _ (hbody (s₁.beginTx t) (fun r hv => ?_) ?_)
  · exact fun s₄ hb₄ _ _ _ ch₄ a₄ s₅ he₄ => ⟨ok_of_no_start (o := .commit) (fun q hq => by cases hq) hb₄ ch₄ he₄, trivial⟩
  · exact fun s₄ hb₄ _ _ _ ch₄ a₄ s₅ he₄ => ⟨ok_of_no_start (o := .rollback) (fun q hq => by cases hq) hb₄ ch₄ he₄, trivial⟩
  · obtain ⟨d, hseen, hd⟩ := h r hv
    refine ⟨d, ?_, hd⟩
    have : (s₁.beginTx t).seen = s₁.seen := by unfold Schema.State.beginTx; cases s₁.tx t <;> rfl
    rw [this, hr.keep.seen]; exact hseen
  · rw [TxRules.beginTx_nest]; simp

include hreq htenant in
theorem wp_apply_exclusive (now : Nat) (current : Option CurrentRun) (s : State n) :
    (exclusive requests).wp t (apply c now current (.stepStarted step createsStep owner)) (fun _ _ => True) (fun _ _ => True) s := by
  refine (Rules.wp_bind _ _ _ _).2 (Rules.wp_mono (fun validated s₁ h₁ => ?_) (fun _ _ h => h) _ _ (wp_validateStep_found current _))
  exact wp_startStep_exclusive hreq htenant now _ validated h₁.1 h₁.2

include htenant in
/-- The work of a request on its run. -/
theorem wp_createOnRun_exclusive (s : State n) :
    (exclusive requests).wp t (createOnRun c (requests t).event) (fun _ _ => True) (fun _ _ => True) s := by
  by_cases hstart : (requests t).event.type = .stepStarted
  · cases hreq : (requests t).event with
    | stepStarted step createsStep owner =>
      refine wp_no_start (fun α p hp s => ?_) built_work s
      cases hp with
      | current => exact wp_no_start (B := NoBlock) (fun _ _ h => h.elim) (built_getRunForValidation noStart_of_reads _) s
      | legacy now specVersion =>
        have hbuilt : Built NoStart NoBlock (handleLegacyEvent c (.stepStarted step createsStep owner) now specVersion) := by
          unfold handleLegacyEvent
          exact .bind (.statement _ rfl) fun _ => .throw _
        exact wp_no_start (fun _ _ h => h.elim) hbuilt s
      | terminal now current =>
        unfold applyOnTerminal
        simp only
        split
        · trivial
        · exact wp_apply_exclusive hreq htenant now _ s
      | apply now current => exact wp_apply_exclusive hreq htenant now current s
    | _ => rw [hreq] at hstart; cases hstart
  · refine wp_no_start (B := NoBlock) (fun _ _ h => h.elim) ((issued built_createOnRun).expand (fun o ho => ?_) fun _ _ h => h.elim) s
    cases o with
    | query q =>
      rcases ho with h | h | h
      · exact noStart_of_reads h
      · cases q with
        | startStep k run owner now =>
          obtain ⟨step, createsStep, he, -⟩ := h
          exact absurd (by rw [he]; rfl) hstart
        | _ => rfl
      · cases q <;> first | rfl | exact h.elim
    | _ => trivial

theorem wp_session_exclusive (s : State n) :
    (exclusive requests).wp t (session D t (requests t)) (fun _ _ => True) (fun _ _ => True) s := by
  have hcreate : (exclusive requests).wp t (create D t (requests t)) (fun _ _ => True) (fun _ _ => True) s := by
    refine wp_no_start (fun α p hp s => ?_) (built_create.expand (fun o ho => ?_) fun _ _ h => .block h) s
    · obtain ⟨hu⟩ := hp
      exact wp_createOnRun_exclusive hu.tenant s
    · cases o with
      | query q =>
        obtain ⟨run, -, rfl⟩ := ho
        rfl
      | _ => trivial
  have hreply : ∀ (a : Reply) (s : State n),
      (exclusive requests).wp t (.op (.reply a) .pure : P Unit) (fun _ _ => True) (fun _ _ => True) s :=
    fun a s s₁ hb _ _ _ ch r s₂ he => ⟨ok_of_no_start (o := .reply a) (fun q hq => by cases hq) hb ch he, trivial⟩
  unfold session
  rw [Rules.wp_bind, Rules.wp_tryCatch, Rules.wp_bind]
  exact Rules.wp_mono (fun a s' _ => hreply (.ok a) s') (fun e s' _ => hreply (.error e) s') _ _ hcreate

end Flow

/-! ## Whole runs -/

/-- In every run in which each start finds the step's row, and the delivery of its owner, as its previous
statement found them: no start is applied to a row that runs under another delivery in flight, nor to one
whose retry is not due. -/
theorem step_start_exclusive {n : Nat} {D : Deps} {requests : Fin n → CreateReq} {d : Db} {now : Nat} {t : Fin n}
    {C C' : Configuration n} (h : Reaches (World n) (fun t o s => stepUnmoved requests t o s) (initial D requests d now) C)
    (hs : Step (World n) (fun t o s => stepUnmoved requests t o s) (some t) C C') {k : StepKey} {r r' : StepRow}
    (happlied : Starts t k r r' C.st C'.st) : Startable C.st r r'.ownerMessageId := by
  have hsafe : (exclusive requests).Safe (initial D requests d now) :=
    ⟨base_initial .., trivial, fun t => wp_session_exclusive _⟩
  obtain ⟨hC, -⟩ := hsafe.reaches start_tolerates h
  exact (hC.step start_tolerates hs).2.2 t rfl k r r' happlied

/-- The row of the step that the operation writes, under a higher attempt than it found. -/
def startedRow {n : Nat} (t : Fin n) (k : StepKey) (C C' : Configuration n) : Option (StepRow × StepRow) := do
  let r ← (C.st.view t).steps.lookup k
  let r' ← (C'.st.view t).steps.lookup k
  if r.attempt < r'.attempt ∧ C'.st.pend t = C.st.pend t ++ [.updateStep k r'] then some (r, r') else none

theorem starts_of_startedRow {n : Nat} {t : Fin n} {k : StepKey} {C C' : Configuration n} {r r' : StepRow}
    (h : startedRow t k C C' = some (r, r')) : Starts t k r r' C.st C'.st := by
  unfold startedRow at h
  obtain ⟨r₁, h₁, h⟩ := Option.bind_eq_some_iff.1 h
  obtain ⟨r₂, h₂, h⟩ := Option.bind_eq_some_iff.1 h
  split at h
  · rename_i hif
    cases h
    exact ⟨h₁, hif.1, hif.2⟩
  · cases h

/-- A run, a step of it, and two deliveries that start the step. -/
def twoDeliveries : Fin 4 → CreateReq
  | 0 => { tenant := "t", runId := none, ulid := "r", event := .runCreated { deploymentId := "d", workflowName := "w" } }
  | 1 => { tenant := "t", runId := some "r", event := .stepCreated "s" "step" }
  | 2 => { tenant := "t", runId := some "r", event := .stepStarted "s" none (some "m1") }
  | 3 => { tenant := "t", runId := some "r", event := .stepStarted "s" none (some "m2") }

/-- One delivery ended before the other starts the step again. -/
theorem step_start_exclusive_afterDelivery : ∃ (C C' : Configuration 4) (r r' : StepRow),
    Reaches (World 4) (fun t o s => stepUnmoved twoDeliveries t o s)
      (initial defaultDeps twoDeliveries { Db.empty with inFlight := ["m2"] } 0) C ∧
    Step (World 4) (fun t o s => stepUnmoved twoDeliveries t o s) (some 3) C C' ∧ Starts 3 ("t", "s") r r' C.st C'.st ∧
    r.ownerMessageId = some "m1" ∧ r'.attempt = 2 ∧ Startable C.st r r'.ownerMessageId := by
  obtain ⟨C, hC, h⟩ := Sessions.exists_of_play (c := fun t o s => stepUnmoved twoDeliveries t o s) (fun _ _ _ h => h)
    (P := fun C : Configuration 4 =>
      (Sessions.advance (stepUnmoved twoDeliveries) 3 (⟨false, {}⟩ : schema.Choice) 1 C).any fun C' =>
        (startedRow 3 ("t", "s") C C').any fun p => p.1.ownerMessageId = some "m1" && p.2.attempt = 2)
    (show (Sessions.play (stepUnmoved twoDeliveries) [go 0, go 1, go 2, goFor 3 6]
      (initial defaultDeps twoDeliveries { Db.empty with inFlight := ["m2"] } 0)).any _ = true by decide +kernel)
  obtain ⟨C', hstep, h⟩ := (Option.any_eq_true _ _).1 h
  obtain ⟨⟨r, r'⟩, hrow, h⟩ := (Option.any_eq_true _ _).1 h
  rw [Bool.and_eq_true, decide_eq_true_eq, decide_eq_true_eq] at h
  have hstarts := starts_of_startedRow hrow
  have hs : Step (World 4) (fun t o s => stepUnmoved twoDeliveries t o s) (some 3) C C' :=
    Sessions.step_of_advance (fun _ _ _ h => h) hstep hstarts.moves
  exact ⟨C, C', r, r', hC, hs, hstarts, h.1, h.2, step_start_exclusive hC hs hstarts⟩

/-- The second delivery read the step while it was pending. The first started it since, and is in flight; the
second starts it over. -/
theorem step_start_not_exclusive : ∃ (C C' : Configuration 4) (r r' : StepRow),
    Reaches (World 4) Anything (initial defaultDeps twoDeliveries { Db.empty with inFlight := ["m1", "m2"] } 0) C ∧
    Step (World 4) Anything (some 3) C C' ∧ Starts 3 ("t", "s") r r' C.st C'.st ∧ ¬Startable C.st r r'.ownerMessageId := by
  obtain ⟨C, hC, h⟩ := Sessions.exists_of_play (c := Anything) (fun _ _ _ _ => trivial)
    (P := fun C : Configuration 4 =>
      (Sessions.advance (fun _ _ _ => true) 3 (⟨false, {}⟩ : schema.Choice) 1 C).any fun C' =>
        (startedRow 3 ("t", "s") C C').any fun p => p.1.status = .running && p.1.ownerMessageId = some "m1" &&
          p.2.ownerMessageId = some "m2" && C.st.db.inFlight.contains "m1")
    (show (Sessions.play (fun _ _ _ => true) [go 0, go 1, goFor 3 3, go 2, goFor 3 1]
      (initial defaultDeps twoDeliveries { Db.empty with inFlight := ["m1", "m2"] } 0)).any _ = true by decide +kernel)
  obtain ⟨C', hstep, h⟩ := (Option.any_eq_true _ _).1 h
  obtain ⟨⟨r, r'⟩, hrow, h⟩ := (Option.any_eq_true _ _).1 h
  simp only [Bool.and_eq_true, decide_eq_true_eq] at h
  obtain ⟨⟨⟨hrunning, howner⟩, hother⟩, hin⟩ := h
  have hstarts := starts_of_startedRow hrow
  have hs : Step (World 4) Anything (some 3) C C' := Sessions.step_of_advance (fun _ _ _ _ => trivial) hstep hstarts.moves
  refine ⟨C, C', r, r', hC, hs, hstarts, fun hfree => hfree.free "m1" hrunning howner ?_ (by simpa using hin)⟩
  rw [hother]
  decide

end WorkflowWorld
