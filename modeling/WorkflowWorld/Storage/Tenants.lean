/-
What belongs to a tenant: its rows, the writes to them and the statements about them. A statement that
names a tenant reads and writes rows of that tenant only; three name none: the clock of legacy ids, the
look at the deliveries in flight, and the delete of old start Hook decisions, which goes over all tenants.
-/
import WorkflowWorld.Storage.System
import WorkflowWorld.Concurrency.Slices
import WorkflowWorld.Lists.Restrict

namespace WorkflowWorld

open Concurrency Schema

/-- The tenant whose row is written. -/
def Write.tenant : Write → TenantId
  | .insertRun k _ | .updateRun k _ | .insertSlots k _ | .updateSlots k _ | .appendEvent k _ | .insertStep k _ | .updateStep k _
  | .insertHook k _ | .deleteHook k _ | .insertWait k _ | .updateWait k _ | .deleteWait k | .insertAdmission k _
  | .deleteAdmission k => k.1

/-- The tenant the statement names. -/
def Query.tenant : Query → Option TenantId
  | .selectRun k | .lockRun k | .insertRun k _ | .startRun k _ _ | .finishRun k _ _ | .cancelLegacyRun k _ | .setAttributes k _ _
  | .allocateEventId k | .lockSlots k | .selectSlots k | .insertSlots k | .advanceSlots k _ | .nextSlot k | .insertEvent k _ _
  | .hasEvent k _ _ | .selectDisposal k _ | .selectRunCreated k | .selectHook k | .lockHook k _ | .insertHook k _ _ | .deleteHook k
  | .runHooks k _ | .deleteRunHooks k _ _ | .selectWait k | .insertWait k _ | .completeWait k _ | .runWaits k | .deleteWaits k _
  | .selectStep k _ | .lockStep k _ | .insertStep k _ | .startStep k _ _ _ | .finishStep k _ _ _ _ | .retryStep k _ _
  | .selectAdmission k | .insertAdmission k _ _ _ => some k.1
  | .getHookByToken tenant _ | .anyHookByToken tenant _ | .findActiveTokenOwner tenant _ _ | .tokenHooks tenant _
  | .releasedHooks tenant _ | .deleteReleased tenant _ _ => some tenant
  | .legacyEventUlid | .deliveryInFlight _ | .deleteExpiredDecisions _ => none

/-- The rows of a tenant. The deliveries in flight are not told apart. -/
def Db.of (d : Db) (T : TenantId) : Db where
  runs := Lists.restrict (·.1 = T) d.runs
  events K := if K.1 = T then d.events K else []
  slots := Lists.restrict (·.1 = T) d.slots
  steps := Lists.restrict (·.1 = T) d.steps
  hooks := Lists.restrict (·.1 = T) d.hooks
  waits := Lists.restrict (·.1 = T) d.waits
  admissions := Lists.restrict (·.1 = T) d.admissions
  decisions := d.decisions.filter (·.1.1 = T)
  inFlight := d.inFlight

section Rows

variable {d : Db} {T : TenantId} {w : Write}

theorem Db.apply_of (hw : w.tenant = T) : (w.apply d).of T = w.apply (d.of T) := by
  cases w <;> simp only [Write.tenant] at hw <;> subst hw <;> simp only [Write.apply, Db.of, Lists.restrict_insert, Lists.restrict_erase, decide_true, List.filter_append,
    List.filter_cons, List.filter_nil, if_true]
  rename_i K e
  congr 1
  funext K'
  by_cases hK : K' = K
  · subst hK
    rw [if_pos rfl, Function.update_self, Function.update_self]
  · rw [Function.update_of_ne hK, Function.update_of_ne hK]

theorem Db.apply_of_ne (hw : w.tenant ≠ T) : (w.apply d).of T = d.of T := by
  cases w <;> simp only [Write.tenant] at hw <;> simp [Write.apply, Db.of, Lists.restrict_insert_of_not, Lists.restrict_erase_of_not, hw]
  rename_i K e
  funext K'
  by_cases hK : K' = K
  · subst hK
    simp [hw]
  · simp [Function.update_of_ne hK]

end Rows

/-! ## Statements read their tenant's rows -/

section Reads

variable (d : Db) {T : TenantId}

theorem Db.runs_of {k : RunKey} (hk : k.1 = T) : (d.of T).runs.lookup k = d.runs.lookup k := Lists.lookup_restrict _ (by simpa using hk)
theorem Db.slots_of {k : RunKey} (hk : k.1 = T) : (d.of T).slots.lookup k = d.slots.lookup k := Lists.lookup_restrict _ (by simpa using hk)
theorem Db.steps_of {k : StepKey} (hk : k.1 = T) : (d.of T).steps.lookup k = d.steps.lookup k := Lists.lookup_restrict _ (by simpa using hk)
theorem Db.hooks_of {k : HookKey} (hk : k.1 = T) : (d.of T).hooks.lookup k = d.hooks.lookup k := Lists.lookup_restrict _ (by simpa using hk)
theorem Db.waits_of {k : WaitKey} (hk : k.1 = T) : (d.of T).waits.lookup k = d.waits.lookup k := Lists.lookup_restrict _ (by simpa using hk)
theorem Db.admissions_of {k : RunKey} (hk : k.1 = T) : (d.of T).admissions.lookup k = d.admissions.lookup k :=
  Lists.lookup_restrict _ (by simpa using hk)
theorem Db.events_of {k : RunKey} (hk : k.1 = T) : (d.of T).events k = d.events k := if_pos hk

theorem Db.stepOf_of {k : StepKey} (hk : k.1 = T) (run : RunId) : (d.of T).stepOf k run = d.stepOf k run := by
  unfold Db.stepOf
  rw [d.steps_of hk]

theorem Db.hasCorrelated_of {k : RunKey} (hk : k.1 = T) (c : CorrId) (type : EventType) :
    (d.of T).hasCorrelated k c type = d.hasCorrelated k c type := by
  unfold Db.hasCorrelated
  rw [d.events_of hk]

theorem Db.holdsToken_of {k : HookKey} (hk : k.1 = T) (now : Nat) (r : HookRow) :
    (d.of T).holdsToken now k r = d.holdsToken now k r := by
  unfold Db.holdsToken Db.runIsTerminal
  rw [d.runs_of (k := (k.1, r.runId)) hk]

/-- A choice among a tenant's rows is made on the tenant's rows. -/
theorem filterMap_of {ρ α : Type} (t : Table (TenantId × String) ρ) {f : (_ : TenantId × String) × ρ → Option α}
    (hf : ∀ e, f e ≠ none → e.1.1 = T) : (Lists.restrict (·.1 = T) t).entries.filterMap f = t.entries.filterMap f := by
  rw [Lists.entries_restrict, List.filterMap_filter]
  refine List.filterMap_congr fun e _ => ?_
  split
  · rfl
  · rename_i he
    by_contra hne
    exact he (by simpa using hf e fun h => hne h.symm)

theorem Db.hooksByToken_of (token : Token) : (d.of T).hooksByToken T token = d.hooksByToken T token := by
  refine filterMap_of _ fun e he => ?_
  by_contra hne
  exact he (if_neg fun h => hne h.1)

theorem Db.filter_hooksByToken_of (now : Nat) (token : Token) (b : HookKey × HookRow → Bool → Bool) :
    (d.hooksByToken T token).filter (fun p => b p ((d.of T).holdsToken now p.1 p.2)) =
      (d.hooksByToken T token).filter fun p => b p (d.holdsToken now p.1 p.2) :=
  List.filter_congr fun p hp => by rw [d.holdsToken_of (mem_hooksByToken.1 hp).2.1]

theorem HookRow.ofRun_tenant {now : Nat} {k : RunKey} {all : Bool} {h : HookKey} {r : HookRow} (hr : r.ofRun now k all h = true) :
    h.1 = k.1 := by
  unfold HookRow.ofRun at hr
  simp only [Bool.and_eq_true, decide_eq_true_eq] at hr
  exact hr.1.1

theorem insertEventPlan_of {k : RunKey} (hk : k.1 = T) (e : EventRow) (oc : OnConflict) :
    insertEventPlan k e oc (d.of T) = insertEventPlan k e oc d := by
  unfold insertEventPlan
  simp only [d.events_of hk, d.hasCorrelated_of hk]

theorem insertHookPlan_of {k : HookKey} (hk : k.1 = T) (r : HookRow) (oc : OnConflict) :
    insertHookPlan k r oc (d.of T) = insertHookPlan k r oc d := by
  subst hk
  unfold insertHookPlan
  rw [d.hooks_of rfl, d.hooksByToken_of]

theorem deleteHooksPlan_of {p p' : HookKey → HookRow → Bool} (keys : List HookKey) (hp : ∀ k r, p k r = true → k.1 = T)
    (hp' : ∀ k r, k.1 = T → p' k r = p k r) : deleteHooksPlan keys p' (d.of T) = deleteHooksPlan keys p d := by
  unfold deleteHooksPlan
  congr 1
  refine List.filterMap_congr fun k _ => ?_
  by_cases hk : k.1 = T
  · rw [d.hooks_of hk]
    simp only [hp' _ _ hk]
  · rw [show (d.of T).hooks.lookup k = none from Lists.lookup_restrict_of_not _ (by simpa using hk)]
    cases d.hooks.lookup k with
    | none => rfl
    | some r => exact (if_neg fun h => hk (hp k r h)).symm

/-- A statement of the tenant is planned on the tenant's rows. -/
theorem plan_of {q : Query} (hq : q.tenant = some T) (pick : Pick) (now : Nat) : plan q pick now (d.of T) = plan q pick now d := by
  cases q <;> simp only [Query.tenant, Option.some.injEq, reduceCtorEq] at hq <;> subst hq <;>
    simp only [plan, d.runs_of rfl, d.slots_of rfl, d.steps_of rfl, d.hooks_of rfl, d.waits_of rfl, d.admissions_of rfl, d.events_of rfl,
      d.stepOf_of rfl, d.hasCorrelated_of rfl, d.hooksByToken_of, insertEventPlan_of d rfl, insertHookPlan_of d rfl]
  case getHookByToken tenant token => rw [d.filter_hooksByToken_of now token fun _ b => b]
  case findActiveTokenOwner tenant token notRun => rw [d.filter_hooksByToken_of now token fun p b => p.2.runId ≠ notRun && b]
  case releasedHooks tenant token => rw [d.filter_hooksByToken_of now token fun _ b => !b]
  case deleteReleased tenant token keys =>
    refine deleteHooksPlan_of d keys (fun k r h => ?_) fun k r hk => by rw [d.holdsToken_of hk]
    simp only [Bool.and_eq_true, decide_eq_true_eq] at h
    exact h.1.1
  case runHooks k all =>
    congr 1
    refine filterMap_of _ fun e he => ?_
    by_contra hne
    exact he (if_neg fun h => hne (HookRow.ofRun_tenant h))
  case deleteRunHooks k all keys => exact deleteHooksPlan_of d keys (fun _ _ h => HookRow.ofRun_tenant h) fun _ _ _ => rfl
  case runWaits k =>
    congr 1
    refine filterMap_of _ fun e he => ?_
    by_contra hne
    exact he (if_neg fun h => hne h.1)
  case deleteWaits k keys =>
    congr 2
    refine List.filter_congr fun w _ => ?_
    by_cases hw : w.1 = k.1
    · rw [d.waits_of hw]
    · simp [hw]

end Reads

/-- It writes rows of the tenant. -/
theorem plan_tenant {q : Query} {T : TenantId} (hq : q.tenant = some T) {pick : Pick} {now : Nat} {d : Db} {w : Write}
    (h : w ∈ (plan q pick now d).writes) : w.tenant = T := by
  cases q <;> simp only [Query.tenant, Option.some.injEq, reduceCtorEq] at hq <;> subst hq
  case insertRun | insertWait | insertStep | insertAdmission => obtain ⟨rfl, -⟩ := insert_writes h; rfl
  case startRun | finishRun | setAttributes | completeWait | startStep | finishStep | retryStep =>
    obtain ⟨r, r', -, -, rfl⟩ := update_writes h; rfl
  case lockRun | lockSlots | lockStep | lockHook => simp only [plan, lockRead_writes] at h; cases h
  case cancelLegacyRun k now =>
    simp only [plan] at h
    split at h
    · cases h
    · cases List.mem_singleton.1 h; rfl
  case insertSlots k =>
    simp only [plan] at h
    split at h
    · cases h
    · cases List.mem_singleton.1 h; rfl
  case advanceSlots k x =>
    simp only [plan] at h
    split at h
    · cases h
    · split at h
      · cases List.mem_singleton.1 h; rfl
      · cases h
  case nextSlot k =>
    simp only [plan] at h
    split at h <;> cases h
  case insertEvent k v oc => obtain ⟨rfl, -⟩ := insertEventPlan_writes h; rfl
  case insertHook k r oc => obtain ⟨rfl, -⟩ := insertHookPlan_writes h; rfl
  case deleteReleased tenant token keys =>
    obtain ⟨k, r, rfl, -, -, hp⟩ := deleteHooksPlan_writes h
    simp only [Bool.and_eq_true, decide_eq_true_eq] at hp
    exact hp.1.1
  case deleteRunHooks k all keys =>
    obtain ⟨k', r, rfl, -, -, hp⟩ := deleteHooksPlan_writes h
    exact HookRow.ofRun_tenant hp
  case deleteHook k =>
    simp only [plan] at h
    split at h
    · cases h
    · cases List.mem_singleton.1 h; rfl
  case deleteWaits k keys =>
    obtain ⟨x, hx, rfl⟩ := List.mem_map.1 h
    obtain ⟨r, -, hr⟩ := (Option.any_eq_true _ _).1 (List.mem_filter.1 hx).2
    simp only [Bool.and_eq_true, decide_eq_true_eq] at hr
    exact hr.1
  all_goals cases h

/-! ## A tenant's part of the database -/

/-- The age at which any request may delete a decision. -/
def Deps.decisionAge (D : Deps) : Nat := D.startHookCandidateMaxAgeMs + 3600000

/-- The write deletes a decision of that age. -/
def Write.Expires (D : Deps) (now : Nat) (d : Db) (w : Write) : Prop :=
  ∃ k a, w = .deleteAdmission k ∧ d.admissions.lookup k = some a ∧ a.createdAt + D.decisionAge < now

/-- The rows of a tenant; of its rows the others delete decisions that are old enough, and nothing else. -/
def tenantSlice (D : Deps) (T : TenantId) : Slice schema where
  part d := Db.of d T
  mine w := Write.tenant w = T
  lapsed now d w := Write.Expires D now d w
  part_mine d hw := Db.apply_of (of_decide_eq_true hw)
  part_other d hw := Db.apply_of_ne (of_decide_eq_false hw)
  part_ext := by
    rintro d d' ⟨m, rfl⟩
    exact ⟨m, rfl⟩
  lapsed_part := by
    rintro now d w hw ⟨k, a, rfl, ha, hage⟩
    exact ⟨k, a, rfl, (Db.admissions_of d (of_decide_eq_true hw)).trans ha, hage⟩
  lapsed_later := by
    rintro now now' d w hle ⟨k, a, rfl, ha, hage⟩
    exact ⟨k, a, rfl, ha, hage.trans_le hle⟩
  lapsed_agree := by
    rintro now d d' w hagree ⟨k, a, rfl, ha, hage⟩
    exact ⟨k, a, rfl, (hagree (.row (.admission k)) List.mem_cons_self).symm.trans ha, hage⟩
  lapsed_back := by
    rintro now d w w' hw' hw ⟨k, a, rfl, ha, hage⟩
    refine ⟨k, a, rfl, ?_, hage⟩
    cases w' with
    | insertAdmission k' a' =>
      by_cases hk : k' = k
      · subst hk
        obtain ⟨_, _, _, _, h, -⟩ := hw' hw
        cases h
      · exact (AList.lookup_insert_ne (Ne.symm hk)).symm.trans ha
    | deleteAdmission k' =>
      by_cases hk : k' = k
      · subst hk
        cases (AList.lookup_erase _ _).symm.trans ha
      · exact (AList.lookup_erase_ne (Ne.symm hk)).symm.trans ha
    | _ => exact ha

/-- The statement names no other tenant, and deletes only decisions that are old enough. -/
structure Query.Scoped (D : Deps) (T : TenantId) (now : Nat) (q : Query) : Prop where
  tenant : ∀ T', q.tenant = some T' → T' = T
  cutoff : ∀ cutoff, q = .deleteExpiredDecisions cutoff → cutoff ≤ now - D.startHookCandidateMaxAgeMs - 3600000

section Slice

variable {D : Deps} {T T' : TenantId} {now : Nat} {q : Query}

/-- Old decisions of other tenants are deleted along with the tenant's. -/
theorem inside_deleteExpiredDecisions (cutoff : Nat) : (tenantSlice D T).Inside (.deleteExpiredDecisions cutoff) := by
  intro pick now d
  let old : RunKey → Bool := fun k => (d.admissions.lookup k).any fun a => a.createdAt < cutoff
  let taken := (pick.keys.dedup.filter old).take 100
  refine ⟨{ pick with keys := taken.filter fun k => k.1 = T }, ?_⟩
  have hnodup : (taken.filter fun k => k.1 = T).Nodup :=
    (((List.nodup_dedup _).filter _).sublist (List.take_sublist ..)).filter _
  have hold : (taken.filter fun k => k.1 = T).filter (fun k => ((d.of T).admissions.lookup k).any fun a => a.createdAt < cutoff) =
      taken.filter fun k => k.1 = T := by
    refine List.filter_eq_self.2 fun k hk => ?_
    obtain ⟨hk, hT⟩ := List.mem_filter.1 hk
    rw [d.admissions_of (of_decide_eq_true hT)]
    exact (List.mem_filter.1 ((List.take_subset ..) hk)).2
  have hlength : (taken.filter fun k => k.1 = T).length ≤ 100 :=
    (List.length_filter_le ..).trans (List.length_take_le ..)
  show (⟨[], [], (((taken.filter fun k => k.1 = T).dedup.filter fun k => ((d.of T).admissions.lookup k).any fun a =>
      a.createdAt < cutoff).take 100).map .deleteAdmission, .ok ()⟩ : StmtPlan Unit) =
    ⟨[], [], (taken.map .deleteAdmission).filter fun w => w.tenant = T, .ok ()⟩
  rw [hnodup.dedup, hold, List.take_of_length_le hlength, List.filter_map]
  rfl

theorem inside_of_scoped (hq : q.Scoped D T now) : (tenantSlice D T).Inside q := by
  intro pick now d
  cases hT : q.tenant with
  | some T' =>
    obtain rfl := hq.tenant T' hT
    refine ⟨pick, ?_⟩
    have hmine : (plan q pick now d).writes.filter (tenantSlice D T').mine = (plan q pick now d).writes :=
      List.filter_eq_self.2 fun w hw => decide_eq_true (plan_tenant hT hw)
    show plan q pick now (d.of T') = Plan.within _ (plan q pick now d)
    rw [Plan.within, hmine, plan_of d hT]
  | none =>
    cases q <;> simp only [Query.tenant, reduceCtorEq] at hT
    case legacyEventUlid | deliveryInFlight => exact ⟨pick, rfl⟩
    case deleteExpiredDecisions cutoff => exact inside_deleteExpiredDecisions cutoff pick now d

theorem outside_of_scoped (hne : T' ≠ T) (hq : q.Scoped D T' now) : (tenantSlice D T).Outside now q := by
  intro pick clock d w hw hm
  cases hT : q.tenant with
  | some T'' =>
    obtain rfl := hq.tenant T'' hT
    exact absurd ((plan_tenant hT hw).symm.trans (of_decide_eq_true hm)) hne
  | none =>
    cases q <;> simp only [Query.tenant, reduceCtorEq] at hT
    case legacyEventUlid | deliveryInFlight => cases hw
    case deleteExpiredDecisions cutoff =>
      obtain ⟨k, hk, rfl⟩ := List.mem_map.1 hw
      obtain ⟨a, ha, hage⟩ := (Option.any_eq_true _ _).1 (List.mem_filter.1 ((List.take_subset ..) hk)).2
      refine ⟨k, a, rfl, ha, ?_⟩
      have hcutoff := hq.cutoff cutoff rfl
      have hage := of_decide_eq_true hage
      unfold Deps.decisionAge
      omega

end Slice

end WorkflowWorld
