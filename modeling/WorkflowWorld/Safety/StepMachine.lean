/-
The state machine of a step. Its row is written by the five step requests, guarded by its terminal
states; a start raises `attempt` and appends its event in one transaction, a completion or failure
appends its event after the guarded update. That update, where it finds no row, is explained by a
second read, and a row that came in between lets the request go on to its event. Where this does not
happen, a step has one terminal event.
-/
import WorkflowWorld.Concurrency.Licence
import WorkflowWorld.Concurrency.Tally
import WorkflowWorld.Storage.Flow

namespace WorkflowWorld

open Concurrency Schema

/-! ## The row and the log -/

/-- A start of the step. -/
def EventRow.startsStep (id : StepId) (e : EventRow) : Bool := e.type = .stepStarted && e.correlationId = some id

/-- The end of the step. -/
def EventRow.endsStep (id : StepId) (e : EventRow) : Bool :=
  (e.type = .stepCompleted || e.type = .stepFailed) && e.correlationId = some id

/-- Where the row of a step can go: a terminal row stays as it is, and so does the time of the first start. -/
def StepRow.Le (r r' : StepRow) : Prop :=
  (r.status.isTerminal = true → r' = r) ∧ ∀ τ, r.startedAt = some τ → r'.startedAt = some τ

/-- The run's row of the step counts its starts. -/
def stepTally (K : RunKey) (id : StepId) : Tally schema where
  key := .row (.step (K.1, id))
  Row := Option StepRow
  row d := d.stepOf (K.1, id) K.2
  le a b := ∀ r, a = some r → ∃ r', b = some r' ∧ r.Le r'
  value r := (r.map (·.attempt)).getD 0
  bumps
    | .updateStep k r => if k = (K.1, id) ∧ r.runId = K.2 ∧ r.status = .running then 1 else 0
    | _ => 0
  log d := d.writers K (·.startsStep id)
  records w := w.writerIn K (·.startsStep id)
  le_refl _ r h := ⟨r, h, fun _ => rfl, fun _ h => h⟩
  le_trans a b c h1 h2 r hr := by
    obtain ⟨r₁, hr₁, ht₁, hs₁⟩ := h1 r hr
    obtain ⟨r₂, hr₂, ht₂, hs₂⟩ := h2 r₁ hr₁
    refine ⟨r₂, hr₂, fun ht => ?_, fun τ hτ => hs₂ τ (hs₁ τ hτ)⟩
    have h := ht₁ ht
    subst h
    exact ht₂ ht
  row_agree d d' h := by
    have h : d.steps.lookup (K.1, id) = d'.steps.lookup (K.1, id) := h
    simp only [Db.stepOf, h]
  bumps_touches w h := by
    cases w with
    | updateStep k r =>
      by_cases hk : k = (K.1, id)
      · subst hk; simp [Write.touches]
      · simp [hk] at h
    | _ => simp at h
  log_apply w d := writers_apply K _ w d
  log_ext d d' h := by obtain ⟨m, rfl⟩ := h; rfl

/-- The end of the run's step is granted to the session that finished it. -/
def endLicence (K : RunKey) (id : StepId) : Licences schema where
  Grant := Option Nat
  owner g := g
  key := .row (.step (K.1, id))
  grant d := (d.stepOf (K.1, id) K.2).bind fun r => if r.status.isTerminal then some r.finishedBy else none
  records d := d.writers K (·.endsStep id)
  uses w := w.writerIn K (·.endsStep id)
  grant_agree d d' h := by
    have h : d.steps.lookup (K.1, id) = d'.steps.lookup (K.1, id) := h
    simp only [Db.stepOf, h]
  records_apply w d := writers_apply K _ w d
  records_ext d d' h := by obtain ⟨m, rfl⟩ := h; rfl

/-- A request that finishes the step finds it finished already, or not there, when it looks why its update found
nothing to finish. -/
def endsExplained {n : Nat} (requests : Fin n → CreateReq) (K : RunKey) (id : StepId) (t : Fin n) : Op → State n → Bool
  | .query (.selectStep k run), s =>
    !((requests t).event.type = .stepCompleted || (requests t).event.type = .stepFailed) || (k, run) ≠ ((K.1, id), K.2) ||
      ((s.view t).stepOf k run).all (·.status.isTerminal)
  | _, _ => true

/-- The answer to a creation or start of the step that says it created the step. -/
structure ClaimsStep {n : Nat} (requests : Fin n → CreateReq) (K : RunKey) (id : StepId) (t : Fin n) (r : Reply) : Prop where
  run : (requests t).tenant = K.1 ∧ (requests t).run = some K.2
  step : (requests t).event.correlationId = some id
  type : (requests t).event.type = .stepCreated ∨ (requests t).event.type = .stepStarted
  created : ∃ a, r = .ok a ∧ a.stepCreated = true

namespace StepMachine

/-! ## The statements -/

section Statements

variable {K : RunKey} {id : StepId} {q : Query} {pick : Pick} {now : Nat} {d : Db}

/-- What the requests keep to: steps are inserted without attempts, and finished in a terminal state. -/
structure Regular (q : Query) : Prop where
  fresh : ∀ k r, q = .insertStep k r → r.attempt = 0
  terminal : ∀ k run status τ m, q = .finishStep k run status τ m → status.isTerminal = true

/-- Every statement moves the row upwards, and raises the counter where it starts the step. -/
theorem step_draft (hq : Regular q) : (stepTally K id).Draft (plan q pick now d).writes d := by
  by_cases htouch : Key.row (.step (K.1, id)) ∈ schema.touchesAll (plan q pick now d).writes
  swap
  · exact .of_aside (T := stepTally K id) htouch d
  obtain ⟨w, hw, hkey⟩ := List.mem_flatMap.1 htouch
  obtain ⟨r', rfl | rfl⟩ := Write.touches_step hkey
  · rcases plan_step hw rfl with ⟨_, _, hins, h, hnone⟩ | ⟨_, _, _, h, -⟩ <;> cases h
    have hrow : d.stepOf (K.1, id) K.2 = none := by simp [Db.stepOf, hnone]
    rw [plan_single hw rfl]
    refine ⟨fun r hr => (by rw [show d.stepOf (K.1, id) K.2 = some r from hr] at hrow; cases hrow), ?_⟩
    have hnew : Db.stepOf (schema.applyAll [.insertStep (K.1, id) r'] d) (K.1, id) K.2 = (some r').filter (·.runId = K.2) := by
      simp [Db.stepOf, Schema.applyAll, Write.apply]
    show ((Db.stepOf (schema.applyAll [.insertStep (K.1, id) r'] d) (K.1, id) K.2).map (·.attempt)).getD 0 =
      ((d.stepOf (K.1, id) K.2).map (·.attempt)).getD 0 + 0
    rw [hnew, hrow]
    have hzero := hq.fresh _ _ hins
    by_cases hrun : r'.runId = K.2 <;> simp [Option.filter, hrun, hzero]
  · rcases plan_step hw rfl with ⟨_, _, -, h, -⟩ | ⟨_, r, _, h, hr, hnt, hkind⟩ <;> cases h
    have hsame : r'.runId = r.runId := by rcases hkind with ⟨_, _, -, rfl⟩ | ⟨_, _, _, -, rfl⟩ | ⟨_, -, rfl⟩ <;> rfl
    have hnew : Db.stepOf (schema.applyAll [.updateStep (K.1, id) r'] d) (K.1, id) K.2 = (some r').filter (·.runId = K.2) := by
      simp [Db.stepOf, Schema.applyAll, Write.apply]
    have hold : d.stepOf (K.1, id) K.2 = (some r).filter (·.runId = K.2) := by simp [Db.stepOf, hr]
    have hbump : (stepTally K id).bumpsAll [.updateStep (K.1, id) r'] = if r'.runId = K.2 ∧ r'.status = .running then 1 else 0 := by
      simp [Tally.bumpsAll, stepTally]
    rw [plan_single hw rfl]
    by_cases hrun : r.runId = K.2
    · have hold' : d.stepOf (K.1, id) K.2 = some r := by rw [hold]; simp [Option.filter, hrun]
      have hnew' : Db.stepOf (schema.applyAll [.updateStep (K.1, id) r'] d) (K.1, id) K.2 = some r' := by
        rw [hnew]; simp [Option.filter, hsame, hrun]
      refine ⟨fun r₁ hr₁ => ⟨r', hnew', ?_⟩, ?_⟩
      · rw [show d.stepOf (K.1, id) K.2 = some r₁ from hr₁] at hold'
        cases hold'
        refine ⟨fun ht => (by rw [hnt] at ht; cases ht), fun τ hτ => ?_⟩
        rcases hkind with ⟨_, _, -, rfl⟩ | ⟨_, _, _, -, rfl⟩ | ⟨_, -, rfl⟩
        · simp [StepRow.started, hτ]
        · exact hτ
        · exact hτ
      · rw [hbump]
        show ((Db.stepOf (schema.applyAll [.updateStep (K.1, id) r'] d) (K.1, id) K.2).map (·.attempt)).getD 0 =
          ((d.stepOf (K.1, id) K.2).map (·.attempt)).getD 0 + _
        rw [hnew', hold']
        rcases hkind with ⟨_, _, -, rfl⟩ | ⟨status, τ, m, hfin, rfl⟩ | ⟨_, -, rfl⟩
        · simp [StepRow.started, hrun]
        · have hterm := hq.terminal _ _ _ _ _ hfin
          have hne : status ≠ .running := by rintro rfl; cases hterm
          simp [hne]
        · simp
    · have hrun' : r'.runId ≠ K.2 := by rw [hsame]; exact hrun
      refine ⟨fun r₁ hr₁ => ?_, ?_⟩
      · rw [show d.stepOf (K.1, id) K.2 = some r₁ from hr₁] at hold
        simp [Option.filter, hrun] at hold
      · rw [hbump, if_neg fun h => hrun' h.1]
        show ((Db.stepOf (schema.applyAll [.updateStep (K.1, id) r'] d) (K.1, id) K.2).map (·.attempt)).getD 0 =
          ((d.stepOf (K.1, id) K.2).map (·.attempt)).getD 0 + 0
        rw [hnew, hold]
        simp [Option.filter, hrun, hrun']

/-- The statement starts the step, or journals a start. -/
def Starting (K : RunKey) (id : StepId) (q : Query) : Prop :=
  (∃ owner τ, q = .startStep (K.1, id) K.2 owner τ) ∨
    ∃ v oc, q = .insertEvent K v oc ∧ v.type = .stepStarted ∧ v.correlationId = some id

/-- Any other statement raises nothing and records nothing. -/
theorem step_balanced (hq : Regular q) (hs : ¬Starting K id q) : (stepTally K id).Balanced (plan q pick now d).writes := by
  have hrec : (stepTally K id).recordsAll (plan q pick now d).writes = [] := by
    refine List.filterMap_eq_nil_iff.2 (writerIn_eq_none fun v oc τ heq => Bool.eq_false_iff.2 fun h => hs (.inr ⟨v, oc, heq, ?_⟩))
    rw [EventRow.startsStep, Bool.and_eq_true] at h
    exact ⟨of_decide_eq_true h.1, of_decide_eq_true h.2⟩
  have hzero : (stepTally K id).bumpsAll (plan q pick now d).writes = 0 := by
    rw [Tally.bumpsAll, List.sum_eq_zero_iff_forall_eq_nat]
    intro x hx
    obtain ⟨w, hw, rfl⟩ := List.mem_map.1 hx
    cases w with
    | updateStep k r' =>
      refine if_neg ?_
      rintro ⟨rfl, hrun, hst⟩
      rcases plan_step hw rfl with ⟨_, _, -, h, -⟩ | ⟨_, r, _, h, hr, -, hkind⟩ <;> cases h
      rcases hkind with ⟨owner, τ, heq, rfl⟩ | ⟨status, τ, m, heq, rfl⟩ | ⟨_, -, rfl⟩
      · exact hs (.inl ⟨owner, τ, by rw [heq, ← hrun]; rfl⟩)
      · have hterm := hq.terminal _ _ _ _ _ heq
        rw [show status = .running from hst] at hterm
        cases hterm
      · cases hst
    | _ => rfl
  unfold Tally.Balanced
  rw [hrec, hzero]
  rfl

end Statements

/-! ## The counter and the first start -/

section Tally

variable {n : Nat} {K : RunKey} {id : StepId} {claims : Fin n → Reply → Prop} {cond : Fin n → Op → State n → Prop} {t : Fin n}
  {c : Ctx} {e : EventReq} {s s' : State n}

theorem regular_of_issued {l : Bool} {q : Query} (h : Issued c e l (.query q)) : Regular q := by
  refine ⟨?_, ?_⟩
  · rintro k r rfl
    rcases h with h | h | h
    · cases h
    · obtain ⟨-, -, -, name, rfl⟩ := h; rfl
    · exact h.elim
  · rintro k run status τ m rfl
    rcases h with h | h | h
    · cases h
    · obtain ⟨step, ⟨-, rfl⟩ | ⟨-, rfl⟩, -⟩ := h <;> rfl
    · exact h.elim

abbrev tallyRules (K : RunKey) (id : StepId) (claims : Fin n → Reply → Prop) (cond : Fin n → Op → State n → Prop) : Rules n :=
  (stepTally K id).rules claims cond

theorem tally_frame : (tallyRules K id claims cond).Frame t (fun _ => True) (fun _ _ => True) := TxRules.any_frame fun _ h => h

theorem extends_tally {q : Query} {pick : Pick} {takes : List Key} (hi : (tallyRules K id claims cond).Inv s) (hq : Regular q)
    (hs : ¬Starting K id q) : (tallyRules K id claims cond).Extends t s takes (plan q pick (s.clock t) (s.view t)).writes := by
  refine ⟨(Tally.draft_of_inv hi).append ?_, fun _ => step_balanced hq hs⟩
  rw [← Schema.State.view_eq]
  exact step_draft hq

theorem admits_tally {A : State n → Prop} {q : Query} (hq : Regular q) (hs : ¬Starting K id q) :
    (tallyRules K id claims cond).Admits t A (fun _ _ => True) q :=
  fun _ _ _ _ hi hsound _ _ _ _ => ⟨extends_tally hi hq hs, hsound.steady_pend.append (step_balanced hq hs), trivial⟩

/-- A request that starts another step, or none. -/
theorem runs_other {α : Type} {p : P α} {l : Bool} (he : ¬(e.type = .stepStarted ∧ c.key = K ∧ e.correlationId = some id))
    (hp : Built (Stmt c e l) (Block c e l) p) : (tallyRules K id claims cond).Runs t (fun _ => True) (fun _ _ => True) p := by
  refine .of_built tally_frame (fun q hq => admits_tally (regular_of_issued hq) ?_) (fun _ _ _ _ => trivial) (fun _ _ h => h.elim) (issued hp)
  rintro (⟨owner, τ, rfl⟩ | ⟨v, oc, rfl, ht, hc⟩)
  · rcases hq with h | h | h
    · cases h
    · obtain ⟨step, cs, rfl, hk, hrun⟩ := h
      obtain ⟨htenant, rfl⟩ := Prod.mk.inj hk
      exact he ⟨rfl, Prod.ext htenant.symm hrun.symm, rfl⟩
    · exact h.elim
  · rcases hq with h | h | h
    · cases h
    · exact h.elim
    · rcases h with ⟨v', i, at', hj, rfl, -⟩ | ⟨i, hi, -, rfl, -⟩ | ⟨-, hk, ht', hc', -⟩
      · cases hj with
        | own _ ht' hc' => exact he ⟨ht'.symm.trans ht, rfl, hc'.symm.trans hc⟩
        | lazily _ _ ht' => cases ht.symm.trans ht'
        | conflict _ _ ht' => cases ht.symm.trans ht'
        | takeover => cases ht
      · cases ht
      · exact he ⟨ht'.symm.trans ht, hk.symm, hc'.symm.trans hc⟩

/-- The run's row of the step is there. -/
def There (r : Option StepRow) : Prop := r.isSome = true

/-- It is terminal. -/
def Ended (r : Option StepRow) : Prop := ∃ r', r = some r' ∧ r'.status.isTerminal = true

theorem there_up : ∀ a b, (stepTally K id).le a b → There a → There b := by
  intro a b h ha
  obtain ⟨r, rfl⟩ := Option.isSome_iff_exists.1 ha
  obtain ⟨r', rfl, -⟩ := h r rfl
  rfl

theorem ended_up : ∀ a b, (stepTally K id).le a b → Ended a → Ended b := by
  rintro a b h ⟨r, rfl, hterm⟩
  obtain ⟨r', rfl, hsame, -⟩ := h r rfl
  exact ⟨r', rfl, by rw [hsame hterm]; exact hterm⟩

/-- The session waits for the record of a start it has made. -/
structure Owing (K : RunKey) (id : StepId) (isLazy : Bool) (t : Fin n) (s : State n) : Prop where
  debt : (stepTally K id).bumpsAll (s.pend t) = ((stepTally K id).recordsAll (s.pend t)).length + 1
  inside : s.nest t ≠ none
  alone : isLazy = true → (stepTally K id).Alone t s ∧ (stepTally K id).recordsAll (s.pend t) = []

/-- The session may start the step: its row is there, and a row of its own has no start before it. -/
structure Ready (K : RunKey) (id : StepId) (isLazy : Bool) (t : Fin n) (s : State n) : Prop where
  there : (stepTally K id).Sees t There s
  inside : s.nest t ≠ none
  alone : isLazy = true → (stepTally K id).Alone t s ∧ (stepTally K id).recordsAll (s.pend t) = []

theorem Ready.rely {isLazy : Bool} (h : Ready K id isLazy t s) (hr : (tallyRules K id claims cond).rules.Rely t s s') :
    Ready K id isLazy t s' :=
  ⟨h.there.rely there_up hr, by rw [TxRules.nest_of_tx hr.keep.tx]; exact h.inside,
    fun hl => ⟨(h.alone hl).1.rely hr.keep, by rw [hr.keep.pend]; exact (h.alone hl).2⟩⟩

theorem write_pend_inside (hin : s.nest t ≠ none) (takes : List Key) (ws : List Write) :
    ((s.see t).write t takes ws).pend t = s.pend t ++ ws := by
  obtain ⟨x, hx⟩ : ∃ x, s.tx t = some x := Option.ne_none_iff_exists'.1 fun hn => hin (TxRules.nest_none.2 hn)
  exact TxRules.write_pend (s := s.see t) hx takes ws

theorem Ready.of_eq {isLazy : Bool} (h : Ready K id isLazy t s) (hdb : s'.db = s.db) (hpend : s'.pend t = s.pend t)
    (hlocks : s'.locks t = s.locks t) (hnest : s'.nest t = s.nest t) : Ready K id isLazy t s' :=
  ⟨h.there.of_eq hdb hpend hlocks, by rw [hnest]; exact h.inside,
    fun hl => ⟨(h.alone hl).1.of_eq hdb hlocks, by rw [hpend]; exact (h.alone hl).2⟩⟩

/-- Writes beside the step's row and its starts. -/
theorem Ready.aside {isLazy : Bool} (h : Ready K id isLazy t s) (takes : List Key) {ws : List Write}
    (hw : (stepTally K id).key ∉ schema.touchesAll ws) (hr : (stepTally K id).recordsAll ws = []) :
    Ready K id isLazy t ((s.see t).write t takes ws) := by
  refine ⟨h.there.aside takes hw, by rw [TxRules.write_nest]; exact h.inside, fun hl => ⟨(h.alone hl).1.write takes ws, ?_⟩⟩
  rw [write_pend_inside h.inside, Tally.recordsAll_append, (h.alone hl).2, hr]
  rfl

theorem Ready.read {isLazy : Bool} (h : Ready K id isLazy t s) (takes : List Key) : Ready K id isLazy t ((s.see t).write t takes []) :=
  h.aside takes (by simp [Schema.touchesAll]) rfl

theorem Owing.rely {isLazy : Bool} (h : Owing K id isLazy t s) (hr : (tallyRules K id claims cond).rules.Rely t s s') :
    Owing K id isLazy t s' :=
  ⟨by rw [hr.keep.pend]; exact h.debt, by rw [TxRules.nest_of_tx hr.keep.tx]; exact h.inside,
    fun hl => ⟨(h.alone hl).1.rely hr.keep, by rw [hr.keep.pend]; exact (h.alone hl).2⟩⟩

theorem Owing.read {isLazy : Bool} (h : Owing K id isLazy t s) (takes : List Key) : Owing K id isLazy t ((s.see t).write t takes []) := by
  refine ⟨?_, by rw [TxRules.write_nest]; exact h.inside, fun hl => ⟨(h.alone hl).1.write takes [], ?_⟩⟩
  · rw [write_pend_inside h.inside, List.append_nil]; exact h.debt
  · rw [write_pend_inside h.inside, List.append_nil]; exact (h.alone hl).2

/-- The record is made. -/
structure Settled (K : RunKey) (id : StepId) (isLazy : Bool) (t : Fin n) (s : State n) : Prop where
  balanced : (stepTally K id).Balanced (s.pend t)
  inside : s.nest t ≠ none
  claimed : isLazy = true → (stepTally K id).Claimed t s

theorem Settled.rely {isLazy : Bool} (h : Settled K id isLazy t s) (hr : (tallyRules K id claims cond).rules.Rely t s s') :
    Settled K id isLazy t s' :=
  ⟨by rw [hr.keep.pend]; exact h.balanced, by rw [TxRules.nest_of_tx hr.keep.tx]; exact h.inside, fun hl => (h.claimed hl).rely hr⟩

/-- A statement beside the step's row and its starts. -/
theorem Settled.write {isLazy : Bool} (h : Settled K id isLazy t s) (takes : List Key) {ws : List Write}
    (hw : (stepTally K id).Balanced ws) : Settled K id isLazy t ((s.see t).write t takes ws) := by
  refine ⟨?_, by rw [TxRules.write_nest]; exact h.inside, fun hl => (h.claimed hl).write takes ws⟩
  rw [write_pend_inside h.inside]
  exact h.balanced.append hw

theorem Settled.store {isLazy : Bool} (h : Settled K id isLazy t s) (m : Bool) :
    Settled K id isLazy t { s with mem := Function.update s.mem t m } :=
  ⟨h.balanced, h.inside, fun hl => (h.claimed hl).imp (fun h => h) fun ⟨h, hab, hrec⟩ => ⟨⟨h.held, h.none⟩, hab, hrec⟩⟩

theorem regular_startStep {k : StepKey} {run : RunId} {owner : Option MessageId} {now : Nat} : Regular (.startStep k run owner now) :=
  ⟨fun _ _ h => (by cases h), fun _ _ _ _ _ h => by cases h⟩

/-- A write to another table leaves the step's row. -/
theorem key_notMem {w : Write} (h : w.tbl ≠ .step) : (stepTally K id).key ∉ Write.touches w := by
  intro hkey
  obtain ⟨r, rfl | rfl⟩ := Write.touches_step hkey <;> exact h rfl

/-- The guarded update finds the row: it starts the step, or the row is terminal. -/
theorem owes_update {isLazy : Bool} (hk : c.key = K) (owner : Option MessageId) (now : Nat) :
    (tallyRules K id claims cond).Owes t (fun s => Ready K id isLazy t s ∧ (stepTally K id).Balanced (s.pend t))
      (sql (.startStep (c.tenant, id) c.runId owner now))
      fun updated s => if updated.isSome then Owing K id isLazy t s else (stepTally K id).Sees t Ended s := by
  subst hk
  refine owes_sql (fun s s' h hi hr => ⟨h.1.rely hr, by rw [hr.keep.pend]; exact h.2⟩) (fun pick now d v hv => ?_)
    fun s pick a hb hi ⟨h, hbal⟩ _ hans _ => ?_
  · simp only [plan, update] at hv
    split at hv <;> cases hv
  obtain ⟨r, hr⟩ := Option.isSome_iff_exists.1 (h.there.view there_up hi)
  have hr : (s.view t).stepOf (c.tenant, id) c.runId = some r := hr
  cases hterm : r.status.isTerminal with
  | true =>
    have hplan : plan (.startStep (c.tenant, id) c.runId owner now) pick (s.clock t) (s.view t) = read none := by
      simp [plan, update, hr, hterm]
    rw [hplan] at hans ⊢
    cases hans
    refine ⟨TxRules.extends_inert hi (by simp [read]), fun _ => ?_⟩
    have hended : Ended ((stepTally c.key id).row (s.view t)) := ⟨r, hr, hterm⟩
    exact (Tally.sees_of_view hb hended).read _
  | false =>
    have hw : (plan (.startStep (c.tenant, id) c.runId owner now) pick (s.clock t) (s.view t)).writes =
        [.updateStep (c.tenant, id) (r.started owner now)] := update_hit hr (by simp [hterm, StepRow.started])
    have hrun : r.runId = c.runId := (stepOf_eq_some.1 hr).2
    have ha : a.isSome = true := by
      simp only [plan, update, hr, Option.bind_some, hterm] at hans
      cases hans; rfl
    have hdraft : (stepTally c.key id).Draft
        (plan (.startStep (c.tenant, id) c.runId owner now) pick (s.clock t) (s.view t)).writes (s.view t) :=
      step_draft regular_startStep
    rw [hw] at hdraft ⊢
    have hbump : (stepTally c.key id).bumpsAll [.updateStep (c.tenant, id) (r.started owner now)] = 1 := by
      simp [Tally.bumpsAll, stepTally, Ctx.key, StepRow.started, hrun]
    refine ⟨⟨(Tally.draft_of_inv hi).append (by rw [← Schema.State.view_eq]; exact hdraft),
      fun hx => absurd (TxRules.nest_none.2 hx) h.inside⟩, fun _ => ?_⟩
    rw [if_pos ha]
    refine ⟨?_, by rw [TxRules.write_nest]; exact h.inside, fun hl => ⟨(h.alone hl).1.write _ _, ?_⟩⟩
    · rw [write_pend_inside h.inside, Tally.bumpsAll_append, Tally.recordsAll_append, hbump, hbal, List.length_append]
      rfl
    · rw [write_pend_inside h.inside, Tally.recordsAll_append, (h.alone hl).2]
      rfl

/-- An update that found a terminal row is explained as that. -/
theorem owes_explainStep {isLazy : Bool} (hk : c.key = K) (updated : Option StepRow) :
    (tallyRules K id claims cond).Owes t
      (fun s => if updated.isSome then Owing K id isLazy t s else (stepTally K id).Sees t Ended s) (explainStep c id updated)
      fun _ => Owing K id isLazy t := by
  subst hk
  cases updated with
  | some r => exact .pure fun _ h => h
  | none =>
    refine .bind (B := fun existing _ => Ended existing) (owes_sql (fun s s' h _ hr => h.rely ended_up hr)
      (fun pick now d v hv => by cases hv) fun s pick a _ hi h _ hans _ => ⟨TxRules.extends_inert hi (by simp [plan, read]), fun _ => ?_⟩)
      fun existing => ?_
    · cases hans
      exact h.view ended_up hi
    · cases existing with
      | none =>
        rintro s - ⟨_, h, -⟩
        cases h
      | some r =>
        rintro s hs ⟨r', h, hterm⟩
        cases h
        simp only [hterm, if_true]
        exact TxRules.Owes.throw (A := fun _ => True) (by rintro (h | h | h) <;> cases h) s hs trivial

/-- The start's event. -/
theorem owes_started {isLazy : Bool} (hk : c.key = K) (hme : c.me = t) (data : EventData) (message : String) :
    (tallyRules K id claims cond).Owes t (Owing K id isLazy t)
      (appendEvent c c.key ⟨.stepStarted, some id, data, c.specVersion⟩ message) fun _ => Settled K id isLazy t := by
  subst hk
  have hbal : ∀ k m, (stepTally c.key id).Balanced [.updateSlots k m] := fun _ _ => rfl
  refine owes_appendEvent (fun s s' h _ hr => h.rely hr) (fun s takes h => h.read takes) (fun s s' h _ hr => h.rely hr)
    (fun s takes h => h.write takes rfl) (fun s m h => h.store m) (fun i at' s pick _ hi h hab => ?_)
    (fun s k m hi h => ⟨?_, h.write [] (hbal k m)⟩) rfl message
  · have hrec : (stepTally c.key id).recordsAll
        [.appendEvent c.key ((EventValues.insert ⟨.stepStarted, some id, data, c.specVersion⟩ i at' c.me).row (s.clock t))] = [(t : Nat)] := by
      simp [Tally.recordsAll, stepTally, Write.writerIn, EventRow.startsStep, EventValues.insert, EventInsert.row, hme]
    refine ⟨⟨(Tally.draft_of_inv hi).append (.of_aside (fun hin => ?_) _), fun hx => absurd (TxRules.nest_none.2 hx) h.inside⟩,
      ⟨?_, by rw [TxRules.write_nest]; exact h.inside, fun hl => .inr ⟨(h.alone hl).1.write _ _, by rw [TxRules.write_aborted]; exact hab, ?_⟩⟩⟩
    · obtain ⟨w, hw, hkey⟩ := List.mem_flatMap.1 hin
      cases List.mem_singleton.1 hw
      exact key_notMem (w := .appendEvent _ _) (by simp [Write.tbl]) hkey
    · unfold Tally.Balanced
      rw [write_pend_inside h.inside, Tally.bumpsAll_append, Tally.recordsAll_append, hrec, h.debt, List.length_append]
      rfl
    · rw [write_pend_inside h.inside, Tally.recordsAll_append, (h.alone hl).2, hrec]
      rfl
  · refine TxRules.extends_inert hi fun w hw => ?_
    cases List.mem_singleton.1 hw
    exact ⟨key_notMem (w := .updateSlots k m) (by simp [Write.tbl]), rfl⟩

/-- A wait before the start keeps what is known. -/
theorem gives_awaitRetry {isLazy : Bool} (retryAfter : Option Nat) :
    (tallyRules K id claims cond).Gives t (Ready K id isLazy t) (fun _ _ => True) (awaitRetry id retryAfter) fun _ => Ready K id isLazy t := by
  have hany : ∀ s : State n, Ready K id isLazy t s → True := fun _ _ => trivial
  have hrely : ∀ s s' : State n, Ready K id isLazy t s → (tallyRules K id claims cond).Inv s' →
      (tallyRules K id claims cond).rules.Rely t s s' → Ready K id isLazy t s' := fun _ _ h _ hr => h.rely hr
  cases retryAfter with
  | none => exact .pure tally_frame hany fun _ h => h
  | some u =>
    refine TxRules.Gives.clock tally_frame hany hrely fun now => ?_
    show (tallyRules K id claims cond).Gives t _ _ (if _ then _ else _) _
    split
    · exact TxRules.Gives.clock tally_frame hany hrely fun later => .throw tally_frame hany _
    · exact .pure tally_frame hany fun _ h => h

/-- The wait for the owner of a running step. -/
theorem gives_prepareStep_found {r : StepRow} (createsStep : Option String) (owner : Option MessageId) (now : Nat) (starts : Bool) :
    (tallyRules K id claims cond).Gives t (Ready K id false t) (fun _ _ => True)
      (prepareStep c id createsStep owner now starts (some r)) fun _ => Ready K id false t := by
  have hany : ∀ s : State n, Ready K id false t s → True := fun _ _ => trivial
  have hread : ∀ {q : Query}, q.reads = true → (tallyRules K id claims cond).Gives t (Ready K id false t) (fun _ _ => True) (sql q)
      fun _ => Ready K id false t :=
    fun hq => gives_read_from tally_frame (fun _ _ h _ hr => h.rely hr) (fun _ takes h => h.read takes) hq
  unfold prepareStep
  simp only
  split
  · refine .bind tally_frame (hread rfl) fun current => ?_
    cases current with
    | none => exact .pure tally_frame hany fun _ h => h
    | some r' =>
      simp only
      split
      · exact .pure tally_frame hany fun _ h => h
      · refine .bind tally_frame (hread rfl) fun inFlight => ?_
        cases inFlight with
        | true => exact .throw tally_frame hany _
        | false => exact .pure tally_frame hany fun _ h => h
  · exact .pure tally_frame hany fun _ h => h

/-- The statements of the append of a step's creation leave a row that is ready. -/
theorem admits_creation {isLazy : Bool} {k : RunKey} {v : EventValues} {q : Query} (hv : v.type = .stepCreated)
    (hq : AppendStmt c k v (.query q)) :
    (tallyRules K id claims cond).Admits t (Ready K id isLazy t) (fun _ s' => Ready K id isLazy t s') q := by
  have hreg : Regular q := by
    refine ⟨?_, ?_⟩
    · rintro k' r rfl
      rcases hq with h | ⟨_, _, h⟩ | ⟨_, _, _, h⟩ <;> cases h
    · rintro k' run status τ m rfl
      rcases hq with h | ⟨_, _, h⟩ | ⟨_, _, _, h⟩ <;> cases h
  have hnot : ¬Starting K id q := by
    rintro (⟨_, _, rfl⟩ | ⟨v', oc, rfl, ht, -⟩)
    · rcases hq with h | ⟨_, _, h⟩ | ⟨_, _, _, h⟩ <;> cases h
    · rcases hq with h | ⟨_, _, h⟩ | ⟨_, _, _, h⟩ <;> cases h
      cases hv.symm.trans ht
  intro s pick a hb hi hs ha hc hans hf
  refine ⟨extends_tally hi hreg hnot, hs.steady_pend.append (step_balanced hreg hnot), ?_⟩
  have haside : (stepTally K id).key ∉ schema.touchesAll (plan q pick (s.clock t) (s.view t)).writes := by
    intro hin
    obtain ⟨w, hw, hkey⟩ := List.mem_flatMap.1 hin
    refine key_notMem (w := w) (fun ht => ?_) hkey
    have htbl := plan_tbl hw
    rw [ht] at htbl
    rcases hq with h | ⟨_, _, rfl⟩ | ⟨_, _, _, rfl⟩
    · exact plan_reads h hw
    · cases htbl
    · cases htbl
  refine ha.aside _ haside ?_
  have hbal : (stepTally K id).Balanced (plan q pick (s.clock t) (s.view t)).writes := step_balanced hreg hnot
  unfold Tally.Balanced at hbal
  rw [Tally.bumpsAll_eq_zero haside] at hbal
  exact List.eq_nil_of_length_eq_zero hbal.symm

/-- A row the session inserts has no start before it, and stays the session's own while it appends the step's creation. -/
theorem gives_prepareStep_lazy (hk : c.key = K) (name : String) (owner : Option MessageId) (now : Nat) (starts : Bool) :
    (tallyRules K id claims cond).Gives t (fun s => s.nest t ≠ none) (fun _ _ => True)
      (prepareStep c id (some name) owner now starts none) fun _ => Ready K id true t := by
  subst hk
  have hinsert : (tallyRules c.key id claims cond).Gives t (fun s => s.nest t ≠ none) (fun _ _ => True)
      (sql (.insertStep (c.tenant, id) (newStep c name))) fun inserted s => inserted = true → Ready c.key id true t s := by
    have hreg : Regular (.insertStep (c.tenant, id) (newStep c name)) :=
      ⟨fun k r h => (by cases h; rfl), fun _ _ _ _ _ h => by cases h⟩
    have hnot : ¬Starting c.key id (.insertStep (c.tenant, id) (newStep c name)) := by
      rintro (⟨_, _, h⟩ | ⟨_, _, h, -⟩) <;> cases h
    refine gives_sql TxRules.inside_frame (admits_tally hreg hnot) fun s pick a hb hi hs hin _ hans _ ha => ?_
    subst ha
    have hw : (plan (.insertStep (c.tenant, id) (newStep c name)) pick (s.clock t) (s.view t)).writes =
        [.insertStep (c.tenant, id) (newStep c name)] := insert_ans hans
    have hnone : (s.view t).steps.lookup (c.tenant, id) = none := by
      obtain ⟨-, h⟩ := insert_writes (show Write.insertStep (c.tenant, id) (newStep c name) ∈ (plan (.insertStep (c.tenant, id)
        (newStep c name)) pick (s.clock t) (s.view t)).writes by rw [hw]; exact List.mem_singleton.2 rfl)
      exact h
    -- no attempt is committed, and none is pending
    have hzero : (stepTally c.key id).value ((stepTally c.key id).row (s.view t)) = 0 := by
      show (((s.view t).stepOf (c.tenant, id) c.runId).map (·.attempt)).getD 0 = 0
      simp [Db.stepOf, hnone]
    have hvalue := (Tally.draft_of_inv (t := t) hi).value
    rw [← Schema.State.view_eq, hzero] at hvalue
    have hbal : (stepTally c.key id).Balanced (s.pend t) := hs.steady_pend
    have hrec : (stepTally c.key id).recordsAll (s.pend t) = [] := by
      unfold Tally.Balanced at hbal
      exact List.eq_nil_of_length_eq_zero (by omega)
    obtain ⟨x, hx⟩ : ∃ x, s.tx t = some x := Option.ne_none_iff_exists'.1 fun hn => hin (TxRules.nest_none.2 hn)
    have hkey : (stepTally c.key id).key ∈ ((s.see t).write t (plan (.insertStep (c.tenant, id) (newStep c name)) pick
        (s.clock t) (s.view t)).takes (plan (.insertStep (c.tenant, id) (newStep c name)) pick (s.clock t) (s.view t)).writes).locks t := by
      rw [TxRules.write_locks (s := s.see t) hx, hw]
      simp [Schema.touchesAll, Write.touches, stepTally, Ctx.key]
    refine ⟨.inr ⟨hkey, ?_⟩, by rw [TxRules.write_nest]; exact hin, fun _ => ⟨⟨hkey, ?_⟩, ?_⟩⟩
    · rw [Schema.State.write_view, hw]
      show (Db.stepOf (schema.applyAll [.insertStep (c.tenant, id) (newStep c name)] (s.view t)) (c.tenant, id) c.runId).isSome = true
      simp [Db.stepOf, Schema.applyAll, Write.apply, newStep]
    · rw [TxRules.write_db (s := s.see t) hx]
      show (stepTally c.key id).value ((stepTally c.key id).row s.db) = 0
      omega
    · rw [write_pend_inside hin, hw, Tally.recordsAll_append, hrec]
      rfl
  refine .bind tally_frame hinsert fun inserted => ?_
  cases inserted with
  | false => exact .throw tally_frame (fun _ _ => trivial) _
  | true =>
    simp only [if_true]
    by_cases hstarts : starts = true
    · rw [if_pos hstarts]
      exact .pure tally_frame (fun _ _ => trivial) fun _ h => h trivial
    · rw [if_neg hstarts]
      intro s hs h
      have hplain := TxRules.wp_plain (R := tallyRules c.key id claims cond) (A := Ready c.key id true t) tally_frame
        (fun _ _ h _ hr => h.rely hr) (fun _ _ h hf => h.of_eq hf.same.1 hf.same.2.1 hf.same.2.2.1 hf.same.2.2.2)
        (fun _ _ _ h => h.of_eq rfl rfl rfl rfl) (fun q hq => admits_creation rfl hq)
        (plain_tryAppend (c := c) (k := c.key) (v := ⟨.stepCreated, some id, .step (some name) none, c.specVersion⟩)) hs (h trivial)
      refine (Rules.wp_tryCatch _ _ _).2 ((Rules.wp_bind _ _ _ _).2 (Rules.wp_mono (fun _ _ h => h) (fun e s₂ h₂ => ?_) _ _ hplain))
      split
      · exact h₂
      · exact h₂.1.left _

/-- The step a start is validated against, which stays there. -/
theorem gives_validateStep (hk : c.key = K) (current : Option CurrentRun) (isLazy : Bool) :
    (tallyRules K id claims cond).Gives t (fun _ => True) (fun _ _ => True) (validateStep c current id isLazy) fun validated s =>
      (validated = none → isLazy = true) ∧ (validated.isSome = true → (stepTally K id).Sees t There s) := by
  subst hk
  have hread : (tallyRules c.key id claims cond).Gives t (fun _ => True) (fun _ _ => True) (sql (.selectStep (c.tenant, id) c.runId))
      fun existing s => existing.isSome = true → (stepTally c.key id).Sees t There s := by
    refine gives_sql tally_frame (admits_read rfl fun _ _ _ => trivial) fun s pick a hb _ _ _ _ hans _ ha => ?_
    cases hans
    exact (Tally.sees_of_view (T := stepTally c.key id) (P := There) hb ha).read _
  refine .bind tally_frame hread fun existing => ?_
  have hthrow : ∀ err : Err, (tallyRules c.key id claims cond).Gives t
      (fun s => existing.isSome = true → (stepTally c.key id).Sees t There s) (fun _ _ => True) (throw err : P (Option StepRow))
      fun validated s => (validated = none → isLazy = true) ∧ (validated.isSome = true → (stepTally c.key id).Sees t There s) :=
    fun err => .throw tally_frame (fun _ _ => trivial) err
  cases existing with
  | none =>
    cases isLazy with
    | false => exact hthrow _
    | true => exact .pure tally_frame (fun _ _ => trivial) fun _ _ => ⟨fun _ => rfl, fun h => by cases h⟩
  | some r =>
    have hsome : (tallyRules c.key id claims cond).Gives t (fun s => (some r).isSome = true → (stepTally c.key id).Sees t There s)
        (fun _ _ => True) (pure (some r) : P (Option StepRow))
        fun validated s => (validated = none → isLazy = true) ∧ (validated.isSome = true → (stepTally c.key id).Sees t There s) :=
      .pure tally_frame (fun _ _ => trivial) fun _ h => ⟨fun h => (by cases h), h⟩
    simp only
    split
    · exact hthrow _
    · split
      · exact hthrow _
      · cases current with
        | none => exact hsome
        | some run =>
          simp only
          split
          · exact hthrow _
          · exact hsome

/-- The body of a start's transaction. A start that creates the step has its row to itself. -/
theorem gives_startStep (hk : c.key = K) (hme : c.me = t) (createsStep : Option String) (owner : Option MessageId) (now : Nat)
    (starts : Bool) {validated : Option StepRow} (hv : validated = none → createsStep.isSome = true) :
    (tallyRules K id claims cond).Gives t (fun s => validated.isSome = true → (stepTally K id).Sees t There s) (fun _ _ => True)
      (startStep c id createsStep owner now starts validated) fun a s => a.stepCreated = true → (stepTally K id).Claimed t s := by
  have hbody : (tallyRules K id claims cond).Gives t
      (fun s => s.nest t ≠ none ∧ (validated.isSome = true → (stepTally K id).Sees t There s)) (fun _ _ => True) (do
        prepareStep c id createsStep owner now starts validated
        awaitRetry id (validated.bind (·.retryAfter))
        let updated : Option StepRow ← sql (.startStep (c.tenant, id) c.runId owner now)
        let row ← explainStep c id updated
        let event ← appendEvent c c.key ⟨.stepStarted, some id, .step createsStep owner, c.specVersion⟩
          ("step_started for step \"" ++ id ++ "\" could not be created")
        return ({ eventId := some event, step := row, stepCreated := createsStep.isSome && validated.isNone } : EventResult))
      fun a s => Settled K id validated.isNone t s ∧ a.stepCreated = validated.isNone := by
    have hprepare : (tallyRules K id claims cond).Gives t
        (fun s => s.nest t ≠ none ∧ (validated.isSome = true → (stepTally K id).Sees t There s)) (fun _ _ => True)
        (prepareStep c id createsStep owner now starts validated) fun _ => Ready K id validated.isNone t := by
      cases validated with
      | none =>
        obtain ⟨name, rfl⟩ := Option.isSome_iff_exists.1 (hv rfl)
        exact fun s hs h => gives_prepareStep_lazy hk name owner now starts s hs h.1
      | some r =>
        exact fun s hs h => gives_prepareStep_found createsStep owner now starts s hs ⟨h.2 rfl, h.1, fun h => by cases h⟩
    refine .bind tally_frame hprepare fun _ => .bind tally_frame (gives_awaitRetry _) fun _ s hs h => ?_
    refine TxRules.Owes.gives (A := fun s => Ready K id validated.isNone t s ∧ (stepTally K id).Balanced (s.pend t))
      (.bind (owes_update hk owner now) fun updated => .bind (owes_explainStep hk updated) fun row =>
        .bind (owes_started hk hme _ _) fun event => .pure fun _ h => ⟨h, ?_⟩) (fun _ _ h => h.1.balanced) s hs ⟨h, hs.steady_pend⟩
    cases validated with
    | none => simp [hv rfl]
    | some r => simp
  refine .transaction tally_frame tally_frame (fun _ _ => trivial) (fun _ _ => trivial) (fun s s₁ h _ hr => ⟨?_, fun hs => ?_⟩)
    (fun a s₁ s₂ s₃ _ h hi hr hw ha => ?_) hbody
  · rw [h.2] at ha
    exact ((h.1.claimed ha).rely hr).commitTx hi hw.nest
  · rw [TxRules.beginTx_nest]; simp
  · obtain ⟨-, -, -, hpend, hlocks⟩ := TxRules.beginTx_tx s₁ t
    exact ((h hs).rely there_up hr).of_eq (TxRules.beginTx_db ..) hpend hlocks

/-- A request that starts the step, and what its result says. -/
theorem gives_started (hk : c.key = K) (hme : c.me = t) (createsStep : Option String) (owner : Option MessageId) :
    (tallyRules K id claims cond).Gives t (fun _ => True) (fun _ _ => True) (createOnRun c (.stepStarted id createsStep owner))
      fun a s => a.stepCreated = true → (stepTally K id).Claimed t s := by
  refine gives_of_apply tally_frame rfl (by simp [EventReq.type]) (fun now v => ?_) fun now current => ?_
  · refine .bind tally_frame (B := fun _ _ => True) (TxRules.Runs.gives tally_frame (runs_sql tally_frame
      (admits_read rfl fun _ _ _ => trivial))) fun _ => .throw tally_frame (fun _ h => h) _
  · refine .bind tally_frame (gives_validateStep hk current createsStep.isSome) fun validated s hs h => ?_
    exact gives_startStep hk hme createsStep owner now _ h.1 s hs h.2

/-- A request that creates the step claims nothing. -/
theorem gives_created (name : String) :
    (tallyRules K id claims cond).Gives t (fun _ => True) (fun _ _ => True) (createOnRun c (.stepCreated id name))
      fun a s => a.stepCreated = true → (stepTally K id).Claimed t s := by
  have hruns : ∀ {α : Type} {p : P α}, Built (Stmt c (.stepCreated id name) false) (Block c (.stepCreated id name) false) p →
      (tallyRules K id claims cond).Gives t (fun _ => True) (fun _ _ => True) p fun _ _ => True :=
    fun hp => TxRules.Runs.gives tally_frame (runs_other (by rintro ⟨h, -⟩; cases h) hp)
  refine gives_of_apply tally_frame rfl (by simp [EventReq.type]) (fun now v => ?_) fun now current => ?_
  · exact .bind tally_frame (hruns (built_read rfl)) fun _ => .throw tally_frame (fun _ h => h) _
  · refine .bind tally_frame (hruns (built_write ⟨rfl, rfl, .inl rfl, name, rfl⟩)) fun inserted => .bind tally_frame
      (hruns (built_journal (.own _ rfl rfl (by simp [EventReq.type])) _)) fun event => .pure tally_frame (fun _ h => h) fun _ _ h => by cases h

end Tally

/-! ## One end -/

section Licence

variable {n : Nat} {K : RunKey} {id : StepId} {cond : Fin n → Op → State n → Prop} {t : Fin n} {c : Ctx} {e : EventReq}

abbrev endRules (K : RunKey) (id : StepId) (cond : Fin n → Op → State n → Prop) : Rules n := (endLicence K id).rules cond

/-- The statement journals an end of the step. -/
def Ending (K : RunKey) (id : StepId) (q : Query) : Prop :=
  ∃ v oc, q = .insertEvent K v oc ∧ (v.type = .stepCompleted ∨ v.type = .stepFailed) ∧ v.correlationId = some id

theorem uses_none {q : Query} {pick : Pick} {now : Nat} {d : Db} (he : ¬Ending K id q) :
    ∀ w ∈ (plan q pick now d).writes, (endLicence K id).uses w = none := by
  refine writerIn_eq_none fun v oc _ hq => Bool.eq_false_iff.2 fun h => he ⟨v, oc, hq, ?_⟩
  rw [EventRow.endsStep, Bool.and_eq_true, Bool.or_eq_true] at h
  exact ⟨h.1.imp of_decide_eq_true of_decide_eq_true, of_decide_eq_true h.2⟩

/-- Any other statement leaves a terminal row, and journals no end. -/
theorem fits_other {q : Query} {pick : Pick} {now : Nat} {d : Db} (hq : Regular q) (he : ¬Ending K id q) :
    (endLicence K id).Fits d (plan q pick now d).writes := by
  refine ⟨fun g hg => ?_, List.filterMap_eq_nil_iff.2 (uses_none he)⟩
  obtain ⟨r, hr, hgr⟩ := Option.bind_eq_some_iff.1 hg
  have hterm : r.status.isTerminal = true := by
    by_contra hn
    rw [if_neg hn] at hgr
    cases hgr
  have hdraft : (stepTally K id).Draft (plan q pick now d).writes d := step_draft hq
  obtain ⟨r', hr', hle⟩ := hdraft.le r hr
  have hsame := hle.1 hterm
  subst hsame
  exact Option.bind_eq_some_iff.2 ⟨r', hr', hgr⟩

theorem admits_end {A : State n → Prop} {q : Query} (hq : Regular q) (he : ¬Ending K id q) :
    (endRules K id cond).Admits t A (fun _ _ => True) q :=
  fun _ _ _ _ hi _ _ _ _ _ => ⟨Licences.extends_of_fits hi (fits_other hq he), trivial, trivial⟩

/-- A request that ends another step, or none. -/
theorem runs_other_end {α : Type} {p : P α} {l : Bool}
    (he : ¬((e.type = .stepCompleted ∨ e.type = .stepFailed) ∧ c.key = K ∧ e.correlationId = some id))
    (hp : Built (Stmt c e l) (Block c e l) p) : (endRules K id cond).Runs t (fun _ => True) (fun _ _ => True) p := by
  refine .of_built Licences.frame (fun q hq => admits_end (regular_of_issued hq) ?_) (fun _ _ _ _ => trivial) (fun _ _ h => h.elim) (issued hp)
  rintro ⟨v, oc, rfl, ht, hc⟩
  rcases hq with h | h | h
  · cases h
  · exact h.elim
  · rcases h with ⟨v', i, at', hj, rfl, -⟩ | ⟨i, hi, -, rfl, -⟩ | ⟨-, hk, ht', hc', -⟩
    · cases hj with
      | own _ ht' hc' => exact he ⟨by rw [← ht']; exact ht, rfl, hc'.symm.trans hc⟩
      | lazily _ _ ht' => rcases ht with ht | ht <;> cases ht.symm.trans ht'
      | conflict _ _ ht' => rcases ht with ht | ht <;> cases ht.symm.trans ht'
      | takeover => rcases ht with ht | ht <;> cases ht
    · rcases ht with ht | ht <;> cases ht
    · exact he ⟨by rw [← ht']; exact ht, hk.symm, hc'.symm.trans hc⟩

/-- The event of a finished step. -/
theorem runs_tryAppend_end (hk : c.key = K) (hme : c.me = t) {type : EventType} (htype : type = .stepCompleted ∨ type = .stepFailed) :
    (endRules K id cond).Runs t ((endLicence K id).Licensed t) (fun _ _ => True) (tryAppend c c.key ⟨type, some id, .absent, c.specVersion⟩) := by
  refine runs_tryAppend_licensed (fun w hw hkey => ?_) (fun i at' now => ?_) fun _ _ => rfl
  · obtain ⟨r, rfl | rfl⟩ := Write.touches_step hkey <;> rcases hw with h | h <;> cases h
  · have hends : ((EventValues.insert ⟨type, some id, .absent, c.specVersion⟩ i at' c.me).row now).endsStep id = true := by
      rcases htype with rfl | rfl <;> simp [EventRow.endsStep, EventValues.insert, EventInsert.row]
    simp only [endLicence, Write.writerIn, hk, hends]
    simp [EventValues.insert, EventInsert.row, hme]

/-- The guarded update is granted the end where it finds the step running or pending. -/
theorem gives_finish (hk : c.key = K) (hme : c.me = t) {status : StepStatus} (hterm : status.isTerminal = true) (now : Nat) :
    (endRules K id cond).Gives t (fun _ => True) (fun _ _ => True) (sql (.finishStep (c.tenant, id) c.runId status now c.me))
      fun updated s => updated.isSome = true → (endLicence K id).Licensed t s := by
  subst hk
  have hreg : Regular (.finishStep (c.tenant, id) c.runId status now c.me) :=
    ⟨fun _ _ h => (by cases h), fun _ _ _ _ _ h => by cases h; exact hterm⟩
  have hnot : ¬Ending c.key id (.finishStep (c.tenant, id) c.runId status now c.me) := by
    rintro ⟨_, _, h, -⟩
    cases h
  refine gives_sql Licences.frame (admits_end hreg hnot) fun s pick a _ hi _ _ _ hans _ ha => ?_
  obtain ⟨r', rfl⟩ := Option.isSome_iff_exists.1 ha
  obtain ⟨hrow, hw⟩ := update_ans hans
  have hw : (plan (.finishStep (c.tenant, id) c.runId status now c.me) pick (s.clock t) (s.view t)).writes =
      [.updateStep (c.tenant, id) r'] := hw
  obtain ⟨r, hr, hkind⟩ := Option.bind_eq_some_iff.1 hrow.symm
  split at hkind
  · cases hkind
  rename_i hnt
  cases hkind
  have hnone : (endLicence c.key id).grant (s.view t) = none := by
    show ((s.view t).stepOf (c.tenant, id) c.runId).bind _ = none
    rw [hr, Option.bind_some, if_neg hnt]
  have htouch : (endLicence c.key id).key ∈
      schema.touchesAll (plan (.finishStep (c.tenant, id) c.runId status now c.me) pick (s.clock t) (s.view t)).writes := by
    rw [hw]; simp [Schema.touchesAll, Write.touches, endLicence, Ctx.key]
  refine Licences.licensed_grant (s := s.see t) (g := some c.me) (TxRules.Inv.see hi) hnone htouch
    (List.filterMap_eq_nil_iff.2 (uses_none hnot)) ?_ ?_ _
  · show some c.me = _
    rw [hme]
  · have hrun : r.runId = c.runId := (stepOf_eq_some.1 hr).2
    rw [hw]
    refine Option.bind_eq_some_iff.2 ⟨_, stepOf_eq_some.2 ⟨AList.lookup_insert _, hrun⟩, if_pos hterm⟩

/-- A request that finishes the step. Where the update finds nothing, the second read finds why. -/
theorem runs_finishStep (hk : c.key = K) (hme : c.me = t) {type : EventType} (htype : type = .stepCompleted ∨ type = .stepFailed)
    {status : StepStatus} (hterm : status.isTerminal = true)
    (hc : ∀ s, cond t (.query (.selectStep (c.tenant, id) c.runId)) s → ((s.view t).stepOf (c.tenant, id) c.runId).all (·.status.isTerminal) = true)
    (now : Nat) : (endRules K id cond).Runs t (fun _ => True) (fun _ _ => True) (finishStep c type id status now) := by
  refine .bind_gives Licences.frame (gives_finish hk hme hterm now) fun updated => ?_
  have hexplain : (endRules K id cond).Gives t (fun s => updated.isSome = true → (endLicence K id).Licensed t s) (fun _ _ => True)
      (explainStep c id updated) fun _ s => (endLicence K id).Licensed t s := by
    cases updated with
    | some r => exact .pure Licences.frame (fun _ _ => trivial) fun _ h => h rfl
    | none =>
      intro s hs _
      have hread : (endRules K id cond).Gives t (fun _ => True) (fun _ _ => True) (sql (.selectStep (c.tenant, id) c.runId))
          fun existing _ => existing.all (·.status.isTerminal) = true :=
        gives_sql Licences.frame (admits_read rfl fun _ _ _ => trivial) fun s pick a _ _ _ _ hcond hans _ => by
          cases hans
          exact hc s hcond
      refine TxRules.Gives.bind Licences.frame hread (fun existing s hs hall => ?_) s hs trivial
      cases existing with
      | none => exact TxRules.Gives.throw (A := fun _ => True) Licences.frame (fun _ h => h) _ s hs trivial
      | some r =>
        rw [Option.all_some] at hall
        simp only [hall, if_true]
        exact TxRules.Gives.throw (A := fun _ => True) Licences.frame (fun _ h => h) _ s hs trivial
  refine .bind_gives Licences.frame hexplain fun row =>
    .bind_any Licences.frame (fun _ => trivial) (runs_journal_from (runs_tryAppend_end hk hme htype) _) fun _ => TxRules.runs_pure Licences.frame _

/-- A request that finishes the step, on any run it finds. -/
theorem runs_finish (hk : c.key = K) (hme : c.me = t) (he : e = .stepCompleted id ∨ e = .stepFailed id)
    (hc : ∀ s, cond t (.query (.selectStep (c.tenant, id) c.runId)) s → ((s.view t).stepOf (c.tenant, id) c.runId).all (·.status.isTerminal) = true) :
    (endRules K id cond).Runs t (fun _ => True) (fun _ _ => True) (createOnRun c e) := by
  refine TxRules.Gives.runs (B := fun _ _ => True) (gives_of_apply Licences.frame (by rcases he with rfl | rfl <;> rfl)
    (by rcases he with rfl | rfl <;> simp [EventReq.type]) (fun now v => ?_) fun now current => TxRules.Runs.gives Licences.frame ?_)
  · refine .bind Licences.frame (B := fun _ _ => True) (TxRules.Runs.gives Licences.frame (runs_sql Licences.frame
      (admits_read rfl fun _ _ _ => trivial))) fun _ => ?_
    rcases he with rfl | rfl
    · exact .throw Licences.frame (fun _ h => h) _
    · exact .throw Licences.frame (fun _ h => h) _
  · rcases he with rfl | rfl
    · exact runs_finishStep hk hme (.inl rfl) rfl hc now
    · exact runs_finishStep hk hme (.inr rfl) rfl hc now

end Licence

end StepMachine

/-! ## Whole runs -/

/-- Of the step in the data at the start: its row counts the starts, and its end, if it is in the log, is by the session
that finished the row. -/
structure Db.StepOk (K : RunKey) (id : StepId) (d : Db) : Prop where
  counted : (((d.stepOf (K.1, id) K.2).map (·.attempt)).getD 0) = ((d.events K).filter (·.startsStep id)).length
  ended : (endLicence K id).Valid d

/-- The state machine of the step, in a state and at any later one. -/
structure StepMachineOk {n : Nat} (requests : Fin n → CreateReq) (K : RunKey) (id : StepId) (s s' : State n) : Prop where
  terminal : ∀ r, s.db.stepOf (K.1, id) K.2 = some r → r.status.isTerminal = true → s'.db.stepOf (K.1, id) K.2 = some r
  startedAt : ∀ r τ, s.db.stepOf (K.1, id) K.2 = some r → r.startedAt = some τ →
    ∃ r', s'.db.stepOf (K.1, id) K.2 = some r' ∧ r'.startedAt = some τ
  ended : ((s.db.events K).filter (·.endsStep id)).length ≤ 1
  attempt : ((s.db.stepOf (K.1, id) K.2).map (·.attempt)).getD 0 = ((s.db.events K).filter (·.startsStep id)).length
  first : ∀ a ∈ s.replies, ClaimsStep requests K id a.who a.reply →
    ((s.db.events K).find? (·.startsStep id)).map (·.writer) = some (a.who : Nat)
  one : ∀ a ∈ s.replies, ∀ b ∈ s.replies, ClaimsStep requests K id a.who a.reply → ClaimsStep requests K id b.who b.reply → a.who = b.who

section Runs

variable {n : Nat} {D : Deps} {requests : Fin n → CreateReq} {d : Db} {now : Nat} {K : RunKey} {id : StepId}

/-- The context of a request on the run. -/
theorem CreateReq.Under.key_of {r : CreateReq} {m : Nat} {c : Ctx} (hc : r.Under D m c) (hrun : r.tenant = K.1 ∧ r.run = some K.2) : c.key = K := by
  refine Prod.ext (hc.tenant.trans hrun.1) ?_
  rcases hc.run with h | ⟨h, -⟩
  · exact Option.some.inj (h.symm.trans hrun.2)
  · cases h.symm.trans hrun.2

open StepMachine in
/-- The counter and the first start need no condition. -/
theorem StepMachine.safe_tally (cond : Fin n → Op → State n → Prop) (hd : d.StepOk K id) :
    (tallyRules K id (ClaimsStep requests K id) cond).rules.Safe (initial D requests d now) := by
  refine safe_of_gives (B := fun t a s => ClaimsStep requests K id t (.ok a) → (stepTally K id).Claimed t s) ?_ (fun _ => tally_frame)
    (fun t a s hn hB hc => (hB hc).first hn) (fun t e o b d hc => ?_) (fun t a s₁ s₂ s₃ hB hi hr hw hc => ((hB hc).rely hr).commitTx hi hw.nest)
    fun t c hc => ?_
  · show _ = (d.writers K (·.startsStep id)).length
    rw [Db.writers, List.length_map]
    exact hd.counted
  · obtain ⟨a, ha, -⟩ := hc.created
    cases ha
  by_cases hclaim : ((requests t).tenant = K.1 ∧ (requests t).run = some K.2) ∧ (requests t).event.correlationId = some id ∧
      ((requests t).event.type = .stepCreated ∨ (requests t).event.type = .stepStarted)
  · obtain ⟨hrun, hstep, htype⟩ := hclaim
    have hk := hc.key_of hrun
    have hweak : ∀ {e : EventReq}, e = (requests t).event → (tallyRules K id (ClaimsStep requests K id) cond).Gives t (fun _ => True)
        (fun _ _ => True) (createOnRun c e) (fun a s => a.stepCreated = true → (stepTally K id).Claimed t s) →
        (tallyRules K id (ClaimsStep requests K id) cond).Gives t (fun _ => True) (fun _ _ => True) (createOnRun c (requests t).event)
          fun a s => ClaimsStep requests K id t (.ok a) → (stepTally K id).Claimed t s := by
      rintro e rfl h s hs ha
      refine Rules.wp_mono (fun a s' h => ⟨h.1, fun hclaims => h.2 ?_⟩) (fun _ _ h => h) _ _ (h s hs ha)
      obtain ⟨a', ha', hcreated⟩ := hclaims.created
      cases ha'
      exact hcreated
    cases he : (requests t).event with
    | stepCreated step name =>
      rw [he] at hstep
      cases hstep
      exact he ▸ hweak he.symm (gives_created name)
    | stepStarted step createsStep owner =>
      rw [he] at hstep
      cases hstep
      exact he ▸ hweak he.symm (gives_started hk hc.me createsStep owner)
    | _ => rw [he] at htype; rcases htype with h | h <;> cases h
  · intro s hs ha
    refine Rules.wp_mono (fun a s' h => ⟨h, fun hclaims => absurd ⟨hclaims.run, hclaims.step, hclaims.type⟩ hclaim⟩) (fun _ _ h => h) _ _
      (runs_other ?_ built_createOnRun s hs ha)
    rintro ⟨ht, hk, hstep⟩
    refine hclaim ⟨?_, hstep, .inr ht⟩
    subst hk
    refine ⟨hc.tenant.symm, ?_⟩
    rcases hc.run with h | ⟨-, -, h⟩
    · exact h
    · cases ht.symm.trans h

open StepMachine in
theorem StepMachine.safe_end (hd : d.StepOk K id) :
    (endRules K id fun t o s => endsExplained requests K id t o s).rules.Safe (initial D requests d now) := by
  refine safe_of_runs hd.ended (fun _ _ _ _ _ => trivial) (fun _ => Licences.frame) (fun _ _ _ => trivial) (fun _ _ _ => trivial)
    fun t c hc => ?_
  by_cases hends : ((requests t).event.type = .stepCompleted ∨ (requests t).event.type = .stepFailed) ∧ c.key = K ∧
      (requests t).event.correlationId = some id
  swap
  · exact runs_other_end hends built_createOnRun
  obtain ⟨htype, hk, hstep⟩ := hends
  refine runs_finish hk hc.me ?_ fun s hcond => ?_
  · cases he : (requests t).event with
    | stepCompleted step => rw [he] at hstep; cases hstep; exact .inl rfl
    | stepFailed step => rw [he] at hstep; cases hstep; exact .inr rfl
    | _ => rw [he] at htype; rcases htype with h | h <;> cases h
  · subst hk
    have htypes : (decide ((requests t).event.type = .stepCompleted) || decide ((requests t).event.type = .stepFailed)) = true := by
      rcases htype with h | h <;> simp [h]
    simp only [endsExplained, htypes, Bool.not_true, Bool.false_or, Ctx.key] at hcond
    simpa using hcond

/-- Where each request that finishes the step finds it finished, or not there, when its update found nothing to finish,
the row and the log of the step go through its state machine, in every interleaving. -/
theorem step_machine (hd : d.StepOk K id) {C C' : Configuration n}
    (h : Reaches (World n) (fun t o s => endsExplained requests K id t o s) (initial D requests d now) C)
    (h' : Reaches (World n) (fun t o s => endsExplained requests K id t o s) C C') : StepMachineOk requests K id C.st C'.st := by
  have hsafe : (StepMachine.tallyRules K id (ClaimsStep requests K id) fun t o s => endsExplained requests K id t o s).rules.Safe
      (initial D requests d now) := StepMachine.safe_tally _ hd
  have hsafe' : (StepMachine.endRules K id fun t o s => endsExplained requests K id t o s).rules.Safe (initial D requests d now) :=
    StepMachine.safe_end hd
  obtain ⟨hT, -⟩ := hsafe.reaches TxRules.tolerates h
  obtain ⟨hE, -⟩ := hsafe'.reaches TxRules.tolerates h
  have hcount : (stepTally K id).value ((stepTally K id).row C.st.db) = ((stepTally K id).log C.st.db).length := hT.inv.data
  have hgrew : (stepTally K id).Grew C.st.db C'.st.db := (hT.reaches TxRules.tolerates h').2
  have hvalid : (endLicence K id).Valid C.st.db := hE.inv.data
  have hfirst : ∀ a ∈ C.st.replies, ClaimsStep requests K id a.who a.reply →
      ((C.st.db.events K).find? (·.startsStep id)).map (·.writer) = some (a.who : Nat) := by
    intro a ha hc
    have hhead : (C.st.db.writers K (·.startsStep id)).head? = some (a.who : Nat) := hT.inv.answers a ha hc
    rw [← hhead, Db.writers, List.head?_map, List.head?_filter]
  refine ⟨fun r hr hterm => ?_, fun r τ hr hτ => ?_, ?_, ?_, hfirst, fun a ha b hb hca hcb => ?_⟩
  · obtain ⟨r', hr', hle⟩ := hgrew.row r hr
    rw [hle.1 hterm] at hr'
    exact hr'
  · obtain ⟨r', hr', hle⟩ := hgrew.row r hr
    exact ⟨r', hr', hle.2 τ hτ⟩
  · rw [← List.length_map (f := EventRow.writer)]
    show ((endLicence K id).records C.st.db).length ≤ 1
    rcases hvalid with h | ⟨_, _, -, -, h⟩ <;> simp [h]
  · rw [← List.length_map (f := EventRow.writer)]
    exact hcount
  · have hwho := (hfirst a ha hca).symm.trans (hfirst b hb hcb)
    exact Fin.ext (Option.some.inj hwho)

end Runs

theorem empty_stepOk (K : RunKey) (id : StepId) : Db.empty.StepOk K id := ⟨rfl, .inl rfl⟩

/-- A step that is started lazily twice, retried, started again and completed. -/
def stepLife : Fin 6 → CreateReq
  | 0 => { tenant := "t", runId := none, ulid := "r", event := .runCreated { deploymentId := "d", workflowName := "w" } }
  | 1 => { tenant := "t", runId := some "r", event := .stepStarted "s" (some "step") none }
  | 2 => { tenant := "t", runId := some "r", event := .stepStarted "s" (some "step") none }
  | 3 => { tenant := "t", runId := some "r", event := .stepRetrying "s" none }
  | 4 => { tenant := "t", runId := some "r", event := .stepStarted "s" none none }
  | 5 => { tenant := "t", runId := some "r", event := .stepCompleted "s" }

/-- The second start arrives before the first has its row, and is refused. -/
theorem step_machine_life : ∃ C : Configuration 6,
    Reaches (World 6) (fun t o s => endsExplained stepLife ("t", "r") "s" t o s) (initial defaultDeps stepLife Db.empty 0) C ∧
    (C.st.db.stepOf ("t", "s") "r").map (fun r => (r.status, r.attempt)) = some (.completed, 2) ∧
    StepMachineOk stepLife ("t", "r") "s" C.st C.st := by
  obtain ⟨C, hC, h⟩ := Sessions.exists_of_play (fun t o s h => h)
    (P := fun C : Configuration 6 => (C.st.db.stepOf ("t", "s") "r").map (fun r => (r.status, r.attempt)) = some (.completed, 2))
    (show (Sessions.play (endsExplained stepLife ("t", "r") "s") [go 0, goFor 2 2, go 1, go 2, go 3, go 4, go 5]
      (initial defaultDeps stepLife Db.empty 0)).any _ = true by decide +kernel)
  exact ⟨C, hC, by simpa using h, step_machine (empty_stepOk _ _) hC .refl⟩

/-- A step that two deliveries complete, one of them before it is created. -/
def completedEarly : Fin 4 → CreateReq
  | 0 => { tenant := "t", runId := none, ulid := "r", event := .runCreated { deploymentId := "d", workflowName := "w" } }
  | 1 => { tenant := "t", runId := some "r", event := .stepCreated "s" "step" }
  | 2 => { tenant := "t", runId := some "r", event := .stepCompleted "s" }
  | 3 => { tenant := "t", runId := some "r", event := .stepCompleted "s" }

/-- The first of them updates nothing, finds the step created since, and appends its event; the second completes the
step: the log holds two ends. -/
theorem step_ends_twice : ∃ C : Configuration 4, Reaches (World 4) Anything (initial defaultDeps completedEarly Db.empty 0) C ∧
    ¬StepMachineOk completedEarly ("t", "r") "s" C.st C.st := by
  obtain ⟨C, hC, h⟩ := Sessions.exists_of_play (c := Anything) (fun _ _ _ _ => trivial)
    (P := fun C : Configuration 4 => ((C.st.db.events ("t", "r")).filter (·.endsStep "s")).length = 2)
    (show (Sessions.play (fun _ _ _ => true) [go 0, goFor 2 2, go 1, go 2, go 3] (initial defaultDeps completedEarly Db.empty 0)).any _ = true
      by decide +kernel)
  refine ⟨C, hC, fun hok => ?_⟩
  have hlength := hok.ended
  rw [of_decide_eq_true h] at hlength
  omega

end WorkflowWorld
