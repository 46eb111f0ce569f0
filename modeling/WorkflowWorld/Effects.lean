/-
What the statements can write, by table, and what a list of writes does to one row or one log.
-/
import WorkflowWorld.Statements
import Mathlib.Data.List.Dedup

namespace WorkflowWorld

open Concurrency

/-- The tables that statements write. -/
inductive Tbl where
  | run | slots | event | step | hook | wait | admission
  deriving DecidableEq

def Write.tbl : Write → Tbl
  | .insertRun _ _ | .updateRun _ _ => .run
  | .insertSlots _ _ | .updateSlots _ _ => .slots
  | .appendEvent _ _ => .event
  | .insertStep _ _ | .updateStep _ _ => .step
  | .insertHook _ _ | .deleteHook _ _ => .hook
  | .insertWait _ _ | .updateWait _ _ | .deleteWait _ => .wait
  | .insertAdmission _ _ | .deleteAdmission _ => .admission

/-- The table a statement writes, if it writes. -/
def Query.tbl : Query → Option Tbl
  | .insertRun _ _ | .startRun _ _ _ | .finishRun _ _ _ | .cancelLegacyRun _ _ | .setAttributes _ _ _ => some .run
  | .insertSlots _ | .advanceSlots _ _ => some .slots
  | .insertEvent _ _ _ => some .event
  | .insertStep _ _ | .startStep _ _ _ _ | .finishStep _ _ _ _ _ | .retryStep _ _ _ => some .step
  | .deleteReleased _ _ _ | .insertHook _ _ _ | .deleteHook _ | .deleteRunHooks _ _ _ => some .hook
  | .insertWait _ _ | .completeWait _ _ | .deleteWaits _ _ => some .wait
  | .insertAdmission _ _ _ _ | .deleteExpiredDecisions _ => some .admission
  | _ => none

section Plans

variable {ρ : Type} {w : Write}

theorem update_writes {f : ρ → Write} {row : Option ρ} {g : ρ → Option ρ} (h : w ∈ (update f row g).writes) :
    ∃ r r', row = some r ∧ g r = some r' ∧ w = f r' := by
  unfold update at h
  split at h
  · cases h
  · rename_i r' hr'
    obtain ⟨r, h1, h2⟩ := Option.bind_eq_some_iff.1 hr'
    exact ⟨r, r', h1, h2, List.mem_singleton.1 h⟩

/-- An update of a row that qualifies. -/
theorem update_hit {f : ρ → Write} {row : Option ρ} {g : ρ → Option ρ} {r r' : ρ} (hr : row = some r) (hg : g r = some r') :
    (update f row g).writes = [f r'] := by
  subst hr
  simp only [update, Option.bind_some, hg]

theorem update_ans {f : ρ → Write} {row : Option ρ} {g : ρ → Option ρ} {a : Option ρ} (h : (update f row g).ans = .ok a) :
    a = row.bind g ∧ (update f row g).writes = (a.map f).toList := by
  simp only [update] at h ⊢
  split at h <;> rename_i hr <;> cases h <;> simp [hr, read]

theorem insert_writes {ref : RowRef} {w' : Write} {row : Option ρ} (h : w ∈ (insert ref w' row).writes) :
    w = w' ∧ row = none := by
  cases row with
  | none => exact ⟨List.mem_singleton.1 h, rfl⟩
  | some r => cases h

/-- An insert answers whether it wrote. -/
theorem insert_ans {ref : RowRef} {w' : Write} {row : Option ρ} {b : Bool} (h : (insert ref w' row).ans = .ok b) :
    (insert ref w' row).writes = if b then [w'] else [] := by
  cases row <;> cases h <;> rfl

theorem update_length (f : ρ → Write) (row : Option ρ) (g : ρ → Option ρ) : (update f row g).writes.length ≤ 1 := by
  unfold update; split <;> simp [read]

theorem insert_length (ref : RowRef) (w : Write) (row : Option ρ) : (insert ref w row).writes.length ≤ 1 := by
  cases row <;> simp [insert]

theorem lockRead_writes (ref : RowRef) (row : Option ρ) : (lockRead ref row).writes = [] := by
  cases row <;> rfl

theorem lockRead_ans (ref : RowRef) (row : Option ρ) : (lockRead ref row).ans = .ok row := by
  cases row <;> rfl

theorem insertEventPlan_writes {k : RunKey} {e : EventRow} {oc : OnConflict} {d : Db}
    (h : w ∈ (insertEventPlan k e oc d).writes) : w = .appendEvent k e ∧
      (∀ e' ∈ d.events k, e'.id ≠ e.id) ∧
      (e.type.deduplicated = true → ∀ c, e.correlationId = some c → d.hasCorrelated k c e.type = false) := by
  unfold insertEventPlan at h
  split at h
  · split at h <;> cases h
  · rename_i hid
    split at h
    · cases h
    · rename_i hcor
      refine ⟨List.mem_singleton.1 h, fun e' he' hne => hid ?_, fun hd c hc => ?_⟩
      · rw [List.any_eq_true]; exact ⟨e', he', by simpa using hne⟩
      · by_contra hne
        exact hcor (by rw [hd, hc]; simpa using hne)

theorem insertEventPlan_ans {k : RunKey} {e : EventRow} {oc : OnConflict} {d : Db} {b : Bool}
    (h : (insertEventPlan k e oc d).ans = .ok b) : (insertEventPlan k e oc d).writes = if b then [.appendEvent k e] else [] := by
  unfold insertEventPlan at h ⊢
  split
  · rename_i hid
    rw [if_pos hid] at h
    cases oc <;> cases h <;> rfl
  · rename_i hid
    rw [if_neg hid] at h
    split
    · rename_i hcor
      rw [if_pos hcor] at h; cases h
    · rename_i hcor
      rw [if_neg hcor] at h; cases h; rfl

/-- An insert that must not find its id taken. -/
theorem insertEventPlan_raise {k : RunKey} {e : EventRow} {d : Db} (hd : e.type.deduplicated = false) :
    (∀ a, (insertEventPlan k e .raise d).ans = .ok a → (insertEventPlan k e .raise d).writes = [.appendEvent k e]) ∧
      ∀ v, (insertEventPlan k e .raise d).ans = .error v → v = .eventKey := by
  unfold insertEventPlan
  rw [hd, Bool.false_and]
  split
  · exact ⟨fun a h => (by cases h), fun v h => by cases h; rfl⟩
  · exact ⟨fun a h => rfl, fun v h => by cases h⟩

theorem insertHookPlan_writes {k : HookKey} {r : HookRow} {oc : OnConflict} {d : Db}
    (h : w ∈ (insertHookPlan k r oc d).writes) : w = .insertHook k r ∧ d.hooks.lookup k = none ∧
      (r.claimsToken = true → ∀ p ∈ d.hooksByToken k.1 r.token, p.2.claimsToken = false) := by
  unfold insertHookPlan at h
  split at h
  · split at h <;> cases h
  · rename_i hk
    split at h
    · split at h <;> cases h
    · rename_i hcl
      refine ⟨List.mem_singleton.1 h, hk, fun hr p hp => ?_⟩
      by_contra hne
      exact hcl (by rw [hr, Bool.true_and, List.any_eq_true]; exact ⟨p, hp, by simpa using hne⟩)

theorem insertHookPlan_ans {k : HookKey} {r : HookRow} {oc : OnConflict} {d : Db} {b : Bool}
    (h : (insertHookPlan k r oc d).ans = .ok b) : (insertHookPlan k r oc d).writes = if b then [.insertHook k r] else [] := by
  unfold insertHookPlan at h ⊢
  cases hk : d.hooks.lookup k with
  | some _ =>
    simp only [hk] at h ⊢
    cases oc <;> cases h <;> rfl
  | none =>
    simp only [hk] at h ⊢
    split
    · rename_i hclaim
      rw [if_pos hclaim] at h
      cases oc <;> cases h
      rfl
    · rename_i hclaim
      rw [if_neg hclaim] at h
      cases h
      rfl

theorem deleteHooksPlan_writes {keys : List HookKey} {p : HookKey → HookRow → Bool} {d : Db}
    (h : w ∈ (deleteHooksPlan keys p d).writes) :
    ∃ k r, w = .deleteHook k r ∧ k ∈ keys ∧ d.hooks.lookup k = some r ∧ p k r = true := by
  obtain ⟨k, hk, hw⟩ := List.mem_filterMap.1 h
  split at hw
  · rename_i r hr
    split at hw
    · rename_i hp
      exact ⟨k, r, (Option.some.inj hw).symm, List.mem_dedup.1 hk, hr, hp⟩
    · cases hw
  · cases hw

end Plans

/-- A statement writes only its table. -/
theorem plan_tbl {q : Query} {pick : Pick} {now : Nat} {d : Db} {w : Write} (h : w ∈ (plan q pick now d).writes) :
    q.tbl = some w.tbl := by
  cases q with
  | insertRun | insertWait | insertStep | insertAdmission => obtain ⟨rfl, -⟩ := insert_writes h; rfl
  | startRun | finishRun | setAttributes | completeWait | startStep | finishStep | retryStep =>
    obtain ⟨r, r', -, -, rfl⟩ := update_writes h; rfl
  | lockRun | lockSlots | lockStep | lockHook => simp only [plan, lockRead_writes] at h; cases h
  | cancelLegacyRun k now =>
    simp only [plan] at h
    split at h
    · cases h
    · cases List.mem_singleton.1 h; rfl
  | insertSlots k =>
    simp only [plan] at h
    split at h
    · cases h
    · cases List.mem_singleton.1 h; rfl
  | advanceSlots k x =>
    simp only [plan] at h
    split at h
    · cases h
    · split at h
      · cases List.mem_singleton.1 h; rfl
      · cases h
  | nextSlot k =>
    simp only [plan] at h
    split at h <;> cases h
  | insertEvent k v oc => obtain ⟨rfl, -⟩ := insertEventPlan_writes h; rfl
  | insertHook k r oc => obtain ⟨rfl, -⟩ := insertHookPlan_writes h; rfl
  | deleteReleased | deleteRunHooks => obtain ⟨k, r, rfl, -⟩ := deleteHooksPlan_writes h; rfl
  | deleteHook k =>
    simp only [plan] at h
    split at h
    · cases h
    · cases List.mem_singleton.1 h; rfl
  | deleteWaits k keys => obtain ⟨x, -, rfl⟩ := List.mem_map.1 h; rfl
  | deleteExpiredDecisions cutoff => obtain ⟨x, -, rfl⟩ := List.mem_map.1 h; rfl
  | _ => cases h

/-- The tables that a statement writes one row of. -/
def Tbl.single : Tbl → Bool
  | .run | .slots | .event | .step => true
  | .hook | .wait | .admission => false

theorem plan_single {q : Query} {pick : Pick} {now : Nat} {d : Db} {w : Write} (h : w ∈ (plan q pick now d).writes)
    (ht : w.tbl.single = true) : (plan q pick now d).writes = [w] := by
  have hlen : (plan q pick now d).writes.length ≤ 1 := by
    have hq := plan_tbl h
    cases q with
    | insertRun | insertStep => exact insert_length ..
    | startRun | finishRun | setAttributes | startStep | finishStep | retryStep => exact update_length ..
    | cancelLegacyRun k now => simp only [plan]; split <;> simp [read]
    | insertSlots k => simp only [plan]; split <;> simp
    | advanceSlots k x =>
      simp only [plan]
      split
      · simp [read]
      · split <;> simp [read]
    | insertEvent k v oc =>
      simp only [plan, insertEventPlan]
      split
      · split <;> simp
      · split <;> simp
    | deleteReleased | insertHook | deleteHook | deleteRunHooks | insertWait | completeWait | deleteWaits
    | insertAdmission | deleteExpiredDecisions => rw [← Option.some.inj hq] at ht; cases ht
    | _ => cases hq
  cases hws : (plan q pick now d).writes with
  | nil => rw [hws] at h; cases h
  | cons w' rest =>
    rw [hws] at h hlen
    cases rest with
    | nil => rw [List.mem_singleton.1 h]
    | cons _ _ => simp at hlen

section Tables

variable {q : Query} {pick : Pick} {now : Nat} {d : Db} {w : Write}

/-- Events are appended under an id that the statement sees free, and once in the correlated-event
index. -/
theorem plan_event (h : w ∈ (plan q pick now d).writes) (ht : w.tbl = .event) : ∃ k v oc, q = .insertEvent k v oc ∧
    w = .appendEvent k (v.row now) ∧ (∀ e ∈ d.events k, e.id ≠ v.id) ∧
    (v.type.deduplicated = true → ∀ c, v.correlationId = some c → d.hasCorrelated k c v.type = false) := by
  have hq := plan_tbl h
  rw [ht] at hq
  cases q with
  | insertEvent k v oc =>
    obtain ⟨hw, h1, h2⟩ := insertEventPlan_writes h
    exact ⟨k, v, oc, rfl, hw, h1, h2⟩
  | _ => cases hq

/-- A slot marker is inserted once, and then counts up. -/
theorem plan_slots (h : w ∈ (plan q pick now d).writes) (ht : w.tbl = .slots) :
    (∃ k, q = .insertSlots k ∧ w = .insertSlots k 1 ∧ d.slots.lookup k = none) ∨
      ∃ k m, q = .advanceSlots k m ∧ w = .updateSlots k (m + 1) ∧ d.slots.lookup k = some m := by
  have hq := plan_tbl h
  rw [ht] at hq
  cases q with
  | insertSlots k =>
    simp only [plan] at h
    split at h
    · cases h
    · rename_i hn
      exact .inl ⟨k, rfl, List.mem_singleton.1 h, hn⟩
  | advanceSlots k x =>
    simp only [plan] at h
    split at h
    · cases h
    · rename_i m hm
      split at h
      · rename_i hx
        subst hx
        exact .inr ⟨k, m, rfl, List.mem_singleton.1 h, hm⟩
      · cases h
  | _ => cases hq

end Tables

/-! ## Run rows -/

/-- The columns of a run that no statement changes. -/
structure RunRow.SameRun (r r' : RunRow) : Prop where
  specVersion : r'.specVersion = r.specVersion
  startHook : r'.startHook = r.startHook
  createdBy : r'.createdBy = r.createdBy
  workflowName : r'.workflowName = r.workflowName
  deploymentId : r'.deploymentId = r.deploymentId

theorem RunRow.SameRun.refl (r : RunRow) : r.SameRun r := ⟨rfl, rfl, rfl, rfl, rfl⟩

theorem RunRow.SameRun.trans {a b c : RunRow} (h1 : a.SameRun b) (h2 : b.SameRun c) : a.SameRun c :=
  ⟨h2.specVersion.trans h1.specVersion, h2.startHook.trans h1.startHook, h2.createdBy.trans h1.createdBy,
    h2.workflowName.trans h1.workflowName, h2.deploymentId.trans h1.deploymentId⟩

/-- A statement on a run row inserts the run, or changes it in place. -/
theorem plan_run_cases {q : Query} {pick : Pick} {now : Nat} {d : Db} {w : Write} (h : w ∈ (plan q pick now d).writes)
    (ht : w.tbl = .run) : (∃ k r, q = .insertRun k r ∧ w = .insertRun k r ∧ d.runs.lookup k = none) ∨
      ∃ k r r', w = .updateRun k r' ∧ d.runs.lookup k = some r ∧
        ((∃ τ m, q = .startRun k τ m ∧ r' = { r with status := .running, startedAt := some τ, startedBy := some m }) ∨
          (∃ status τ, q = .finishRun k status τ ∧ r.status.isTerminal = false ∧
            r' = { r with status := status, completedAt := some τ }) ∨
          (∃ τ, q = .cancelLegacyRun k τ ∧ r' = { r with status := .cancelled, completedAt := some τ }) ∨
          ∃ changes cap, q = .setAttributes k changes cap ∧ r' = { r with attributes := mergeAttributes changes r.attributes }) := by
  have hq := plan_tbl h
  rw [ht] at hq
  cases q with
  | insertRun k r =>
    obtain ⟨rfl, hn⟩ := insert_writes h
    exact .inl ⟨k, r, rfl, rfl, hn⟩
  | startRun k τ m =>
    obtain ⟨r, r', hr, hr', rfl⟩ := update_writes h
    cases hr'
    exact .inr ⟨k, r, _, rfl, hr, .inl ⟨τ, m, rfl, rfl⟩⟩
  | finishRun k status τ =>
    obtain ⟨r, r', hr, hr', rfl⟩ := update_writes h
    split at hr'
    · cases hr'
    · rename_i hnt
      cases hr'
      exact .inr ⟨k, r, _, rfl, hr, .inr (.inl ⟨status, τ, rfl, by simpa using hnt, rfl⟩)⟩
  | setAttributes k changes cap =>
    obtain ⟨r, r', hr, hr', rfl⟩ := update_writes h
    simp only at hr'
    split at hr'
    · cases hr'
      exact .inr ⟨k, r, _, rfl, hr, .inr (.inr (.inr ⟨changes, cap, rfl, rfl⟩))⟩
    · cases hr'
  | cancelLegacyRun k τ =>
    simp only [plan] at h
    split at h
    · cases h
    · rename_i r hr
      cases List.mem_singleton.1 h
      exact .inr ⟨k, r, _, rfl, hr, .inr (.inr (.inl ⟨τ, rfl, rfl⟩))⟩
  | _ => cases hq

/-- Of a run's row, what no statement changes. A terminal status is written over only by a start and by a
legacy run's cancellation. -/
theorem plan_run {q : Query} {pick : Pick} {now : Nat} {d : Db} {w : Write} (h : w ∈ (plan q pick now d).writes)
    (ht : w.tbl = .run) : (∃ k r, q = .insertRun k r ∧ w = .insertRun k r ∧ d.runs.lookup k = none) ∨
      ∃ k r r', w = .updateRun k r' ∧ d.runs.lookup k = some r ∧ r.SameRun r' ∧
        (r.status.isTerminal = true → r'.status = r.status ∨ ∃ at', (∃ by', q = .startRun k at' by') ∨ q = .cancelLegacyRun k at') := by
  refine (plan_run_cases h ht).imp_right ?_
  rintro ⟨k, r, r', rfl, hr, hkind⟩
  refine ⟨k, r, r', rfl, hr, ?_⟩
  rcases hkind with ⟨τ, m, rfl, rfl⟩ | ⟨status, τ, rfl, hnt, rfl⟩ | ⟨τ, rfl, rfl⟩ | ⟨changes, cap, rfl, rfl⟩
  · exact ⟨⟨rfl, rfl, rfl, rfl, rfl⟩, fun _ => .inr ⟨τ, .inl ⟨m, rfl⟩⟩⟩
  · exact ⟨⟨rfl, rfl, rfl, rfl, rfl⟩, fun ht => by rw [hnt] at ht; cases ht⟩
  · exact ⟨⟨rfl, rfl, rfl, rfl, rfl⟩, fun _ => .inr ⟨τ, .inr rfl⟩⟩
  · exact ⟨⟨rfl, rfl, rfl, rfl, rfl⟩, fun _ => .inl rfl⟩

/-- The writes that hold a run's row. -/
theorem Write.touches_run {k : RunKey} {w : Write} (h : Key.row (.run k) ∈ w.touches) :
    ∃ r, w = .insertRun k r ∨ w = .updateRun k r := by
  cases w with
  | insertRun k' r => exact ⟨r, .inl (by simp [Write.touches] at h; rw [h])⟩
  | updateRun k' r => exact ⟨r, .inr (by simp [Write.touches] at h; rw [h])⟩
  | appendEvent k' e => simp only [Write.touches, EventRow.correlatedKey] at h; split at h <;> (try split at h) <;> simp at h
  | insertHook k' r | deleteHook k' r => simp only [Write.touches, HookRow.claimKey] at h; split at h <;> simp at h
  | _ => simp [Write.touches] at h

/-! ## Step rows -/

/-- The row a start leaves. -/
def StepRow.started (r : StepRow) (owner : Option MessageId) (now : Nat) : StepRow :=
  { r with
    status := .running
    attempt := r.attempt + 1
    startedAt := r.startedAt.or (some now)
    retryAfter := none
    ownerMessageId := owner }

theorem stepOf_eq_some {d : Db} {k : StepKey} {run : RunId} {r : StepRow} :
    d.stepOf k run = some r ↔ d.steps.lookup k = some r ∧ r.runId = run := by
  unfold Db.stepOf; rw [Option.filter_eq_some_iff]; simp

/-- A statement on a step row inserts the step, or changes in place a row that is not terminal. -/
theorem plan_step {q : Query} {pick : Pick} {now : Nat} {d : Db} {w : Write} (h : w ∈ (plan q pick now d).writes)
    (ht : w.tbl = .step) : (∃ k r, q = .insertStep k r ∧ w = .insertStep k r ∧ d.steps.lookup k = none) ∨
      ∃ k r r', w = .updateStep k r' ∧ d.steps.lookup k = some r ∧ r.status.isTerminal = false ∧
        ((∃ owner τ, q = .startStep k r.runId owner τ ∧ r' = r.started owner τ) ∨
          (∃ status τ m, q = .finishStep k r.runId status τ m ∧
            r' = { r with status := status, completedAt := some τ, finishedBy := some m }) ∨
          ∃ u, q = .retryStep k r.runId u ∧ r' = { r with status := .pending, retryAfter := u }) := by
  have hq := plan_tbl h
  rw [ht] at hq
  cases q with
  | insertStep k r =>
    obtain ⟨rfl, hn⟩ := insert_writes h
    exact .inl ⟨k, r, rfl, rfl, hn⟩
  | startStep k run owner τ =>
    obtain ⟨r, r', hrow, hr', rfl⟩ := update_writes h
    obtain ⟨hr, rfl⟩ := stepOf_eq_some.1 hrow
    split at hr'
    · cases hr'
    · rename_i hnt
      cases hr'
      exact .inr ⟨k, r, _, rfl, hr, by simpa using hnt, .inl ⟨owner, τ, rfl, rfl⟩⟩
  | finishStep k run status τ m =>
    obtain ⟨r, r', hrow, hr', rfl⟩ := update_writes h
    obtain ⟨hr, rfl⟩ := stepOf_eq_some.1 hrow
    split at hr'
    · cases hr'
    · rename_i hnt
      cases hr'
      exact .inr ⟨k, r, _, rfl, hr, by simpa using hnt, .inr (.inl ⟨status, τ, m, rfl, rfl⟩)⟩
  | retryStep k run u =>
    obtain ⟨r, r', hrow, hr', rfl⟩ := update_writes h
    obtain ⟨hr, rfl⟩ := stepOf_eq_some.1 hrow
    split at hr'
    · cases hr'
    · rename_i hnt
      cases hr'
      exact .inr ⟨k, r, _, rfl, hr, by simpa using hnt, .inr (.inr ⟨u, rfl, rfl⟩)⟩
  | _ => cases hq

/-- The writes that hold a step's row. -/
theorem Write.touches_step {k : StepKey} {w : Write} (h : Key.row (.step k) ∈ w.touches) :
    ∃ r, w = .insertStep k r ∨ w = .updateStep k r := by
  cases w with
  | insertStep k' r => exact ⟨r, .inl (by simp [Write.touches] at h; rw [h])⟩
  | updateStep k' r => exact ⟨r, .inr (by simp [Write.touches] at h; rw [h])⟩
  | appendEvent k' e => simp only [Write.touches, EventRow.correlatedKey] at h; split at h <;> (try split at h) <;> simp at h
  | insertHook k' r | deleteHook k' r => simp only [Write.touches, HookRow.claimKey] at h; split at h <;> simp at h
  | _ => simp [Write.touches] at h

/-- Writes to other tables leave the steps. -/
theorem steps_applyAll : ∀ (ws : List Write) (d : Db), (∀ w ∈ ws, w.tbl ≠ .step) → Db.steps (schema.applyAll ws d) = d.steps
  | [], _, _ => rfl
  | w :: ws, d, h => by
    show Db.steps (schema.applyAll ws (w.apply d)) = _
    rw [steps_applyAll ws _ fun w' hw' => h w' (List.mem_cons_of_mem _ hw')]
    have hw := h w (List.mem_cons_self ..)
    cases w <;> first | rfl | exact absurd rfl hw

/-! ## Hook rows -/

/-- The writes that hold a hook's row. -/
theorem Write.touches_hook {k : HookKey} {w : Write} (h : Key.row (.hook k) ∈ w.touches) :
    ∃ r, w = .insertHook k r ∨ w = .deleteHook k r := by
  cases w with
  | insertHook k' r =>
    refine ⟨r, .inl ?_⟩
    simp only [Write.touches, HookRow.claimKey] at h
    split at h <;> simp at h <;> rw [h]
  | deleteHook k' r =>
    refine ⟨r, .inr ?_⟩
    simp only [Write.touches, HookRow.claimKey] at h
    split at h <;> simp at h <;> rw [h]
  | appendEvent k' e => simp only [Write.touches, EventRow.correlatedKey] at h; split at h <;> (try split at h) <;> simp at h
  | _ => simp [Write.touches] at h

/-- A statement on hooks inserts one under an id that is free, or deletes rows as its session sees them. -/
theorem plan_hook {q : Query} {pick : Pick} {now : Nat} {d : Db} {w : Write} (h : w ∈ (plan q pick now d).writes)
    (ht : w.tbl = .hook) : (∃ k r oc, q = .insertHook k r oc ∧ w = .insertHook k r ∧ d.hooks.lookup k = none) ∨
      ∃ k r, w = .deleteHook k r ∧ d.hooks.lookup k = some r := by
  have hq := plan_tbl h
  rw [ht] at hq
  cases q with
  | insertHook k r oc =>
    obtain ⟨rfl, hnone, -⟩ := insertHookPlan_writes h
    exact .inl ⟨k, r, oc, rfl, rfl, hnone⟩
  | deleteReleased tenant token keys =>
    obtain ⟨k, r, rfl, -, hr, -⟩ := deleteHooksPlan_writes h
    exact .inr ⟨k, r, rfl, hr⟩
  | deleteRunHooks k all keys =>
    obtain ⟨k, r, rfl, -, hr, -⟩ := deleteHooksPlan_writes h
    exact .inr ⟨k, r, rfl, hr⟩
  | deleteHook k =>
    simp only [plan] at h
    split at h
    · cases h
    · rename_i r hr
      exact .inr ⟨k, r, List.mem_singleton.1 h, hr⟩
  | _ => cases hq

/-- The hooks of a token. -/
theorem mem_hooksByToken {d : Db} {tenant : TenantId} {token : Token} {p : HookKey × HookRow} :
    p ∈ d.hooksByToken tenant token ↔ d.hooks.lookup p.1 = some p.2 ∧ p.1.1 = tenant ∧ p.2.token = token := by
  rw [Db.hooksByToken, List.mem_filterMap]
  constructor
  · rintro ⟨⟨k, r⟩, hmem, h⟩
    simp only at h
    split at h
    · rename_i hif
      cases h
      exact ⟨AList.mem_lookup_iff.2 hmem, hif⟩
    · cases h
  · rintro ⟨hr, hif⟩
    exact ⟨⟨p.1, p.2⟩, AList.mem_lookup_iff.1 hr, by simp [hif]⟩

theorem mem_of_pickFrom {α : Type} {i : Nat} {l : List α} {a : α} (h : pickFrom i l = some a) : a ∈ l :=
  List.mem_of_getElem? h

/-! ## Logs -/

/-- The events a list of writes appends to a run's log. -/
def appended (k : RunKey) (ws : List Write) : List EventRow :=
  ws.filterMap fun
    | .appendEvent k' e => if k' = k then some e else none
    | _ => none

theorem appended_append (k : RunKey) (ws ws' : List Write) : appended k (ws ++ ws') = appended k ws ++ appended k ws' :=
  List.filterMap_append

theorem mem_appended {k : RunKey} {ws : List Write} {e : EventRow} : e ∈ appended k ws ↔ .appendEvent k e ∈ ws := by
  rw [appended, List.mem_filterMap]
  constructor
  · rintro ⟨w, hw, he⟩
    cases w with
    | appendEvent k' e' =>
      simp only at he
      split at he
      · rename_i hk; cases he; rw [← hk]; exact hw
      · cases he
    | _ => cases he
  · intro h
    exact ⟨_, h, by simp⟩

theorem events_apply (w : Write) (d : Db) (k : RunKey) : (w.apply d).events k = d.events k ++ appended k [w] := by
  cases w with
  | appendEvent k' e =>
    by_cases h : k' = k
    · subst h; simp [Write.apply, appended]
    · simp [Write.apply, appended, h, Function.update_of_ne (Ne.symm h)]
  | _ => simp [Write.apply, appended]

/-- Logs only grow. -/
theorem events_applyAll (k : RunKey) : ∀ (ws : List Write) (d : Db),
    (schema.applyAll ws d).events k = d.events k ++ appended k ws
  | [], d => by rw [appended, List.filterMap_nil, List.append_nil]; rfl
  | w :: ws, d => by
    show (schema.applyAll ws (w.apply d)).events k = _
    rw [events_applyAll k ws, events_apply, List.append_assoc, ← appended_append]
    rfl

/-- The requests that wrote the events of a kind, in order. -/
def Db.writers (d : Db) (K : RunKey) (p : EventRow → Bool) : List Nat := ((d.events K).filter p).map (·.writer)

/-- The request of the event of that kind that a write appends. -/
def Write.writerIn (K : RunKey) (p : EventRow → Bool) : Write → Option Nat
  | .appendEvent k e => if k = K ∧ p e then some e.writer else none
  | _ => none

theorem writers_apply (K : RunKey) (p : EventRow → Bool) (w : Write) (d : Db) :
    (w.apply d).writers K p = d.writers K p ++ (w.writerIn K p).toList := by
  unfold Db.writers
  rw [events_apply, List.filter_append, List.map_append]
  cases w with
  | appendEvent k e =>
    by_cases hk : k = K
    · by_cases hp : p e = true <;> simp [appended, Write.writerIn, hk, hp]
    · simp [appended, Write.writerIn, hk]
  | _ => simp [appended, Write.writerIn]

theorem writerIn_eq_none {K : RunKey} {p : EventRow → Bool} {q : Query} (h : ∀ v oc now, q = .insertEvent K v oc → p (v.row now) = false)
    {pick : Pick} {now : Nat} {d : Db} : ∀ w ∈ (plan q pick now d).writes, w.writerIn K p = none := by
  intro w hw
  cases w with
  | appendEvent k e =>
    obtain ⟨k', v, oc, rfl, he, -⟩ := plan_event hw rfl
    cases he
    refine if_neg fun hp => ?_
    obtain ⟨rfl, hp⟩ := hp
    rw [h v oc now rfl] at hp
    cases hp
  | _ => rfl

end WorkflowWorld
