/-
The unique indexes of the World's tables, in every interleaving: a token is claimed by one hook, an event id is
given once in a run's log, and so is the creation of a step, a hook, a wait or an attribute change.
-/
import WorkflowWorld.Concurrency.Unique
import WorkflowWorld.Lists.Restrict
import WorkflowWorld.Storage.System

namespace WorkflowWorld

open Concurrency Schema

variable {n : Nat} {D : Deps} {requests : Fin n → CreateReq} {d : Db} {now : Nat} {C : Configuration n}

/-- What a unique index makes of a database, every session sees, whatever the sessions interleave. -/
theorem unique_views {ι α : Type} (X : UniqueIndex schema ι α) (hd : X.Unique d)
    (h : Reaches (World n) Anything (initial D requests d now) C) : X.Unique C.st.db ∧ ∀ t, X.Unique (C.st.view t) := by
  have hsafe : (X.rules Anything : TxRules schema n Bool Reply).rules.Safe (initial D requests d now) :=
    safe_of_admits hd (fun _ _ _ _ _ => trivial) (fun _ _ _ => trivial) fun t _ _ q _ => UniqueIndex.admits t q
  have hinv := (hsafe.reaches TxRules.tolerates h).1.inv
  exact ⟨hinv.data, fun t => UniqueIndex.unique_view hinv t⟩

/-! ## Token claims -/

/-- The hook claims the token for its tenant. -/
def Db.claims (d : Db) (i : TenantId × Token) (k : HookKey) : Bool :=
  decide (k.1 = i.1) && (d.hooks.lookup k).any fun r => decide (r.token = i.2) && r.claimsToken

def Db.claimants (d : Db) (i : TenantId × Token) : List HookKey := d.hooks.keys.filter (d.claims i)

theorem mem_claimants {i : TenantId × Token} {k : HookKey} :
    k ∈ d.claimants i ↔ k.1 = i.1 ∧ ∃ r, d.hooks.lookup k = some r ∧ r.token = i.2 ∧ r.claimsToken = true := by
  unfold Db.claimants Db.claims
  rw [List.mem_filter, Bool.and_eq_true, decide_eq_true_eq, Option.any_eq_true]
  simp only [Bool.and_eq_true, decide_eq_true_eq]
  refine ⟨fun h => h.2, fun h => ⟨?_, h⟩⟩
  obtain ⟨-, r, hr, -⟩ := h
  exact AList.mem_keys.1 (AList.lookup_isSome.1 (by rw [hr]; rfl))

/-- Where a table differs at one key at most, the others claim what they did. -/
theorem filter_claims {d' : Db} {i : TenantId × Token} {k : HookKey} (h : ∀ k', k' ≠ k → d'.hooks.lookup k' = d.hooks.lookup k') :
    (d.hooks.keys.filter (d'.claims i)).filter (fun k' => decide (k' ≠ k)) = (d.claimants i).filter fun k' => decide (k' ≠ k) := by
  rw [Db.claimants, List.filter_filter, List.filter_filter]
  refine List.filter_congr fun k' _ => ?_
  by_cases hk : k' = k
  · simp [hk]
  · rw [Db.claims, Db.claims, h k' hk]

theorem claimants_insertHook (k : HookKey) (r : HookRow) (i : TenantId × Token) :
    ((Write.insertHook k r).apply d).claimants i =
      (if k.1 = i.1 ∧ r.token = i.2 ∧ r.claimsToken = true then [k] else []) ++
        (d.claimants i).filter fun k' => decide (k' ≠ k) := by
  have hself : ((Write.insertHook k r).apply d).claims i k = true ↔ k.1 = i.1 ∧ r.token = i.2 ∧ r.claimsToken = true := by
    simp [Db.claims, Write.apply, AList.lookup_insert]
  have hkeys := Lists.filter_keys_insert d.hooks (k := k) r (((Write.insertHook k r).apply d).claims i)
  rw [filter_claims fun k' hk => AList.lookup_insert_ne hk] at hkeys
  simp only [hself] at hkeys
  exact hkeys

theorem claimants_deleteHook (k : HookKey) (r : HookRow) (i : TenantId × Token) :
    ((Write.deleteHook k r).apply d).claimants i = (d.claimants i).filter fun k' => decide (k' ≠ k) := by
  have hkeys := Lists.filter_keys_erase d.hooks k (((Write.deleteHook k r).apply d).claims i)
  rw [filter_claims fun k' hk => AList.lookup_erase_ne hk] at hkeys
  exact hkeys

/-- A write to another table leaves the hooks. -/
theorem claimants_of_tbl {w : Write} (h : w.tbl ≠ .hook) (i : TenantId × Token) : (w.apply d).claimants i = d.claimants i := by
  cases w with
  | insertHook | deleteHook => exact absurd rfl h
  | _ => rfl

/-- An insert is made where no hook of the token claims it. -/
theorem claimants_insertHookPlan {k : HookKey} {r : HookRow} {oc : OnConflict} {i : TenantId × Token}
    (h : (d.claimants i).length ≤ 1) : (Db.claimants (schema.applyAll (insertHookPlan k r oc d).writes d) i).length ≤ 1 := by
  unfold insertHookPlan
  split
  · split <;> exact h
  · split
    · split <;> exact h
    · rename_i hnone
      show (((Write.insertHook k r).apply d).claimants i).length ≤ 1
      rw [claimants_insertHook]
      by_cases hc : k.1 = i.1 ∧ r.token = i.2 ∧ r.claimsToken = true
      · have hempty : d.claimants i = [] := by
          refine List.eq_nil_iff_forall_not_mem.2 fun k' hk' => hnone ?_
          obtain ⟨htenant, r', hr', htok, hcl⟩ := mem_claimants.1 hk'
          rw [hc.2.2, Bool.true_and, List.any_eq_true]
          exact ⟨(k', r'), mem_hooksByToken.2 ⟨hr', htenant.trans hc.1.symm, htok.trans hc.2.1.symm⟩, hcl⟩
        rw [if_pos hc, hempty]
        exact Nat.le_refl 1
      · rw [if_neg hc, List.nil_append]
        exact (List.length_filter_le ..).trans h

/-- `workflow_hooks_token_claim_unique`. -/
def tokenClaims : UniqueIndex schema (TenantId × Token) HookKey where
  key i := .claim i.1 i.2
  entries := Db.claimants
  frame w d i h := by
    show ((w.apply d).claimants i).Sublist (d.claimants i)
    cases w with
    | insertHook k r =>
      rw [claimants_insertHook, if_neg, List.nil_append]
      · exact List.filter_sublist
      · rintro ⟨hk, htok, hcl⟩
        refine h (List.mem_cons_of_mem _ (List.mem_cons_of_mem _ ?_))
        rw [HookRow.claimKey, if_pos hcl, List.mem_singleton, hk, htok]
    | deleteHook k r =>
      rw [claimants_deleteHook]
      exact List.filter_sublist
    | _ => exact List.Sublist.refl _
  mono w d d' i h := by
    show ((w.apply d).claimants i).Sublist ((w.apply d').claimants i)
    cases w with
    | insertHook k r =>
      rw [claimants_insertHook, claimants_insertHook]
      exact (List.Sublist.refl _).append (h.filter _)
    | deleteHook k r =>
      rw [claimants_deleteHook, claimants_deleteHook]
      exact h.filter _
    | _ => exact h
  ext := by
    rintro d d' i ⟨m, rfl⟩
    rfl
  checked q pick now d hd i := by
    show (Db.claimants (schema.applyAll (plan q pick now d).writes d) i).length ≤ 1
    by_cases hins : ∃ k r oc, q = .insertHook k r oc
    · obtain ⟨k, r, oc, rfl⟩ := hins
      exact claimants_insertHookPlan (hd i)
    · -- other statements delete hooks, or write other tables
      refine (sublist_applyAll (S := schema) (f := fun d => d.claimants i) (fun w hw d' => ?_) d).length_le.trans (hd i)
      show ((w.apply d').claimants i).Sublist (d'.claimants i)
      by_cases ht : w.tbl = .hook
      · rcases plan_hook hw ht with ⟨k, r, oc, rfl, -⟩ | ⟨k, r, rfl, -⟩
        · exact absurd ⟨k, r, oc, rfl⟩ hins
        · rw [claimants_deleteHook]
          exact List.filter_sublist
      · rw [claimants_of_tbl ht]

/-- No two hooks of a tenant claim one token. -/
def Db.ClaimedOnce (d : Db) : Prop :=
  ∀ k k' r r', d.hooks.lookup k = some r → d.hooks.lookup k' = some r' → k.1 = k'.1 → r.token = r'.token →
    r.claimsToken = true → r'.claimsToken = true → k = k'

theorem claimedOnce_iff : d.ClaimedOnce ↔ tokenClaims.Unique d := by
  constructor
  · intro h i
    show (d.claimants i).length ≤ 1
    have hnodup : (d.claimants i).Nodup := d.hooks.keys_nodup.filter _
    refine length_le_one hnodup fun k hk k' hk' => ?_
    obtain ⟨ht, r, hr, htok, hcl⟩ := mem_claimants.1 hk
    obtain ⟨ht', r', hr', htok', hcl'⟩ := mem_claimants.1 hk'
    exact h k k' r r' hr hr' (ht.trans ht'.symm) (htok.trans htok'.symm) hcl hcl'
  · rintro h k k' r r' hr hr' ht htok hcl hcl'
    have hone : (d.claimants (k.1, r.token)).length ≤ 1 := h (k.1, r.token)
    exact eq_of_length_le_one hone (mem_claimants.2 ⟨rfl, r, hr, rfl, hcl⟩) (mem_claimants.2 ⟨ht.symm, r', hr', htok.symm, hcl'⟩)

/-! ## The log -/

/-- The events of a run that are entered under a value of an index over the log. -/
def entered {ι : Type} (run : ι → RunKey) (under : ι → EventRow → Bool) (d : Db) (i : ι) : List EventRow :=
  (d.events (run i)).filter (under i)

section Logs

variable {ι : Type} {run : ι → RunKey} {under : ι → EventRow → Bool} {i : ι}

theorem entered_appendEvent (k : RunKey) (e : EventRow) :
    entered run under ((Write.appendEvent k e).apply d) i =
      entered run under d i ++ if run i = k ∧ under i e = true then [e] else [] := by
  unfold entered
  by_cases hk : run i = k
  · subst hk
    simp only [Write.apply, Function.update_self, List.filter_append]
    congr 1
    by_cases hu : under i e = true
    · simp [hu]
    · simp [hu]
  · rw [if_neg fun h => hk h.1, List.append_nil]
    simp only [Write.apply, Function.update_of_ne hk]

theorem entered_of_tbl {w : Write} (h : w.tbl ≠ .event) : entered run under (w.apply d) i = entered run under d i := by
  cases w with
  | appendEvent => exact absurd rfl h
  | _ => rfl

/-- An event is appended where none is entered under what it is to be entered under. -/
theorem entered_insertEventPlan {k : RunKey} {e : EventRow} {oc : OnConflict}
    (checks : ∀ i e d, under i e = true → (∀ e' ∈ d.events (run i), e'.id ≠ e.id) →
      (e.type.deduplicated = true → ∀ c, e.correlationId = some c → d.hasCorrelated (run i) c e.type = false) →
      entered run under d i = [])
    (h : (entered run under d i).length ≤ 1) :
    (entered run under (schema.applyAll (insertEventPlan k e oc d).writes d) i).length ≤ 1 := by
  cases hws : (insertEventPlan k e oc d).writes with
  | nil => exact h
  | cons w ws =>
    have hone : ws = [] := by
      unfold insertEventPlan at hws
      split at hws
      · split at hws <;> cases hws
      · split at hws
        · cases hws
        · exact (List.cons.inj hws).2.symm
    have hw : w ∈ (insertEventPlan k e oc d).writes := by
      rw [hws]
      exact List.mem_cons_self ..
    obtain ⟨rfl, hid, hcor⟩ := insertEventPlan_writes hw
    rw [hone]
    show (entered run under ((Write.appendEvent k e).apply d) i).length ≤ 1
    rw [entered_appendEvent]
    by_cases hu : run i = k ∧ under i e = true
    · obtain ⟨rfl, hu⟩ := hu
      rw [checks i e d hu hid hcor, if_pos ⟨rfl, hu⟩]
      exact Nat.le_refl 1
    · rw [if_neg hu, List.append_nil]
      exact h

/-- An index over the log, of the events that hold its key when they are appended. -/
def logIndex (run : ι → RunKey) (under : ι → EventRow → Bool) (key : ι → Key)
    (holds : ∀ i e, under i e = true → key i ∈ (Write.appendEvent (run i) e).touches)
    (checks : ∀ i e d, under i e = true → (∀ e' ∈ d.events (run i), e'.id ≠ e.id) →
      (e.type.deduplicated = true → ∀ c, e.correlationId = some c → d.hasCorrelated (run i) c e.type = false) →
      entered run under d i = []) : UniqueIndex schema ι EventRow where
  key := key
  entries := entered run under
  frame w d i h := by
    show (entered run under (w.apply d) i).Sublist (entered run under d i)
    by_cases ht : w.tbl = .event
    · cases w with
      | appendEvent k e =>
        rw [entered_appendEvent, if_neg, List.append_nil]
        rintro ⟨rfl, hu⟩
        exact h (holds i e hu)
      | _ => cases ht
    · rw [entered_of_tbl ht]
  mono w d d' i h := by
    show (entered run under (w.apply d) i).Sublist (entered run under (w.apply d') i)
    by_cases ht : w.tbl = .event
    · cases w with
      | appendEvent k e =>
        rw [entered_appendEvent, entered_appendEvent]
        exact h.append (.refl _)
      | _ => cases ht
    · rw [entered_of_tbl ht, entered_of_tbl ht]
      exact h
  ext := by
    rintro d d' i ⟨m, rfl⟩
    rfl
  checked q pick now d hd i := by
    show (entered run under (schema.applyAll (plan q pick now d).writes d) i).length ≤ 1
    by_cases hins : ∃ k v oc, q = .insertEvent k v oc
    · obtain ⟨k, v, oc, rfl⟩ := hins
      exact entered_insertEventPlan checks (hd i)
    · refine (sublist_applyAll (S := schema) (f := fun d => entered run under d i) (fun w hw d' => ?_) d).length_le.trans (hd i)
      show (entered run under (w.apply d') i).Sublist (entered run under d' i)
      by_cases ht : w.tbl = .event
      · obtain ⟨k, v, oc, rfl, -⟩ := plan_event hw ht
        exact absurd ⟨k, v, oc, rfl⟩ hins
      · rw [entered_of_tbl ht]

end Logs

/-- The primary key of `workflow_events`. -/
def eventIds : UniqueIndex schema (RunKey × EventId) EventRow :=
  logIndex (·.1) (fun i e => decide (e.id = i.2)) (fun i => .event i.1 i.2)
    (by
      intro i e hu
      rw [← of_decide_eq_true hu]
      exact List.mem_cons_self ..)
    (by
      intro i e d hu hid _
      refine List.filter_eq_nil_iff.2 fun e' he' heq => hid e' he' ?_
      rw [of_decide_eq_true heq, of_decide_eq_true hu])

/-- `workflow_events_entity_creation_unique`. -/
def entityCreations : UniqueIndex schema (RunKey × CorrId × EventType) EventRow :=
  logIndex (·.1) (fun i e => i.2.2.deduplicated && decide (e.correlationId = some i.2.1 ∧ e.type = i.2.2))
    (fun i => .correlated i.1 i.2.1 i.2.2)
    (by
      intro i e hu
      rw [Bool.and_eq_true, decide_eq_true_eq] at hu
      obtain ⟨hd, hc, ht⟩ := hu
      refine List.mem_cons_of_mem _ ?_
      rw [EventRow.correlatedKey, hc]
      simp [ht, hd])
    (by
      intro i e d hu _ hcor
      rw [Bool.and_eq_true, decide_eq_true_eq] at hu
      obtain ⟨hd, hc, ht⟩ := hu
      have hno := hcor (by rw [ht]; exact hd) _ hc
      refine List.filter_eq_nil_iff.2 fun e' he' heq => ?_
      rw [Bool.and_eq_true, decide_eq_true_eq] at heq
      rw [Db.hasCorrelated, List.any_eq_false] at hno
      exact hno e' he' (by rw [heq.2.1, heq.2.2, ht]; simp))

/-- No two events of a run's log have one id, or create the same entity. -/
def Db.LoggedOnce (d : Db) : Prop :=
  ∀ K, (d.events K).Pairwise fun e e' => e.id ≠ e'.id ∧
    (e.type.deduplicated = true → e'.type = e.type → e.correlationId.isSome = true → e'.correlationId ≠ e.correlationId)

theorem loggedOnce_iff : d.LoggedOnce ↔ eventIds.Unique d ∧ entityCreations.Unique d := by
  have hids : eventIds.Unique d ↔ ∀ K, (d.events K).Pairwise fun e e' => e.id ≠ e'.id := by
    refine ⟨fun h K => ?_, fun h i => ?_⟩
    · refine ((length_filter_le_one_iff (l := d.events K) (p := fun id (e : EventRow) => decide (e.id = id))).1 fun id => h (K, id)).imp ?_
      intro e e' hab heq
      exact of_decide_eq_false (hab _ (decide_eq_true rfl)) heq.symm
    · refine (length_filter_le_one_iff (p := fun id (e : EventRow) => decide (e.id = id))).2 ((h i.1).imp fun hab id ha => ?_) i.2
      exact decide_eq_false fun hb => hab ((of_decide_eq_true ha).trans hb.symm)
  have hcreations : entityCreations.Unique d ↔ ∀ K, (d.events K).Pairwise fun e e' =>
      e.type.deduplicated = true → e'.type = e.type → e.correlationId.isSome = true → e'.correlationId ≠ e.correlationId := by
    refine ⟨fun h K => ?_, fun h i => ?_⟩
    · refine ((length_filter_le_one_iff (l := d.events K) (p := fun (i : CorrId × EventType) (e : EventRow) =>
        i.2.deduplicated && decide (e.correlationId = some i.1 ∧ e.type = i.2))).1 fun i => h (K, i)).imp ?_
      intro e e' hab hd ht hc heq
      obtain ⟨c, hc⟩ := Option.isSome_iff_exists.1 hc
      have hno := hab (c, e.type) (by simp [hd, hc])
      simp [hd, ht, heq, hc] at hno
    · refine (length_filter_le_one_iff (p := fun (i : CorrId × EventType) (e : EventRow) =>
        i.2.deduplicated && decide (e.correlationId = some i.1 ∧ e.type = i.2))).2 ((h i.1).imp ?_) i.2
      intro e e' hab i ha
      simp only [Bool.and_eq_true, decide_eq_true_eq] at ha
      obtain ⟨hd, hc, ht⟩ := ha
      simp only [Bool.and_eq_false_imp, decide_eq_false_iff_not]
      rintro - ⟨hc', ht'⟩
      exact hab (by rw [ht]; exact hd) (ht'.trans ht.symm) (by rw [hc]; rfl) (hc'.trans hc.symm)
  rw [← hids.symm.and hcreations.symm]
  exact ⟨fun h => ⟨fun K => (h K).imp And.left, fun K => (h K).imp And.right⟩, fun h K => (h.1 K).and (h.2 K)⟩

/-! ## Runs -/

/-- Every hook claims its token, as those do that this version writes. -/
def Db.AllClaim (d : Db) : Prop := ∀ k r, d.hooks.lookup k = some r → r.claimsToken = true

def Write.Claims : Write → Prop
  | .insertHook _ r => r.claimsToken = true
  | _ => True

theorem Write.Claims.apply (w : Write) (d : Db) (hw : w.Claims) (hd : d.AllClaim) : (w.apply d).AllClaim := by
  intro k r hr
  cases w with
  | insertHook k' r' =>
    by_cases hk : k = k'
    · subst hk
      rw [Write.apply, AList.lookup_insert] at hr
      cases hr
      exact hw
    · rw [Write.apply, AList.lookup_insert_ne hk] at hr
      exact hd k r hr
  | deleteHook k' r' =>
    by_cases hk : k = k'
    · subst hk
      rw [Write.apply, AList.lookup_erase] at hr
      cases hr
    · rw [Write.apply, AList.lookup_erase_ne hk] at hr
      exact hd k r hr
  | _ => exact hd k r hr

theorem allClaim_views (hd : d.AllClaim) (h : Reaches (World n) Anything (initial D requests d now) C) :
    C.st.db.AllClaim ∧ ∀ t, (C.st.view t).AllClaim := by
  have hsafe : (TxRules.pointwise (S := schema) n Bool Reply Db.AllClaim Write.Claims Anything Write.Claims.apply
      (by rintro d d' hd ⟨m, rfl⟩; exact hd)).rules.Safe (initial D requests d now) := by
    refine safe_of_admits hd (fun _ _ _ _ _ => trivial) (fun _ _ _ => trivial) fun t c _ q hq => ?_
    refine .mono (fun _ h => h) (fun _ _ _ _ => trivial) (.of_inert fun s pick _ _ _ w hw => ?_)
    by_cases ht : w.tbl = .hook
    · rcases plan_hook hw ht with ⟨k, r, oc, rfl, rfl, -⟩ | ⟨k, r, rfl, -⟩
      · -- the rows of start Hooks and of created hooks claim
        rcases hq with hreads | hwritten | happended
        · cases hreads
        · rcases hwritten with ⟨h, -, -, rfl, -⟩ | ⟨q, source, -, -, rfl⟩ <;> rfl
        · exact happended.elim
      · trivial
    · cases w <;> trivial
  have hinv := (hsafe.reaches TxRules.tolerates h).1.inv
  exact ⟨hinv.data, TxRules.pointwise_view hinv⟩

/-- The rows of a token are one at most, where each claims it. -/
theorem length_hooksByToken (hd : d.AllClaim) (h : d.ClaimedOnce) (tenant : TenantId) (token : Token) :
    (d.hooksByToken tenant token).length ≤ 1 := by
  have hnodup : (d.hooksByToken tenant token).Nodup := by
    refine d.hooks.nodupKeys.nodup.filterMap ?_
    rintro ⟨k, r⟩ ⟨k', r'⟩ p hp hp'
    simp only [Option.mem_def, Option.ite_none_right_eq_some, Option.some.injEq] at hp hp'
    obtain ⟨hk, hr⟩ := Prod.mk.inj (hp.2.trans hp'.2.symm)
    rw [hk, hr]
  refine length_le_one hnodup fun p hp p' hp' => ?_
  obtain ⟨hr, ht, htok⟩ := mem_hooksByToken.1 hp
  obtain ⟨hr', ht', htok'⟩ := mem_hooksByToken.1 hp'
  have hk := h p.1 p'.1 p.2 p'.2 hr hr' (ht.trans ht'.symm) (htok.trans htok'.symm) (hd _ _ hr) (hd _ _ hr')
  rw [hk, hr'] at hr
  exact Prod.ext hk (Option.some.inj hr).symm

/-- In every state that any interleaving of `events.create` calls leads to, with any sessions failing or ending at any
point, a token is claimed by one hook of its tenant at most, in what is committed and in what each session sees; and
where no hook is left from before claims, a token has one hook at most, whoever looks. -/
theorem token_claimed_once (hd : d.ClaimedOnce) (h : Reaches (World n) Anything (initial D requests d now) C) :
    (C.st.db.ClaimedOnce ∧ ∀ t, (C.st.view t).ClaimedOnce) ∧
    (d.AllClaim → ∀ tenant token, (C.st.db.hooksByToken tenant token).length ≤ 1 ∧
      ∀ t, ((C.st.view t).hooksByToken tenant token).length ≤ 1) := by
  obtain ⟨hdb, hviews⟩ := unique_views tokenClaims (claimedOnce_iff.1 hd) h
  refine ⟨⟨claimedOnce_iff.2 hdb, fun t => claimedOnce_iff.2 (hviews t)⟩, fun hall tenant token => ?_⟩
  obtain ⟨hall', hallViews⟩ := allClaim_views hall h
  exact ⟨length_hooksByToken hall' (claimedOnce_iff.2 hdb) tenant token,
    fun t => length_hooksByToken (hallViews t) (claimedOnce_iff.2 (hviews t)) tenant token⟩

/-- Two runs are created with the same start Hook token; the second has found it free before the first takes it. -/
def claimants : Fin 2 → CreateReq
  | 0 => { tenant := "t", runId := some "r", event := .runCreated (asking "tok") }
  | 1 => { tenant := "t", runId := some "s", event := .runCreated (asking "tok") }

theorem token_claimed_once_claimants : ∃ C : Configuration 2,
    Reaches (World 2) Anything (initial defaultDeps claimants Db.empty 0) C ∧ C.st.replies.length = 2 ∧
      (C.st.db.hooksByToken "t" "tok").length = 1 := by
  obtain ⟨C, hC, hruns⟩ := Sessions.exists_of_play (c := Anything) (fun _ _ _ _ => trivial)
    (P := fun C : Configuration 2 => C.st.replies.length = 2 ∧ (C.st.db.hooksByToken "t" "tok") ≠ [])
    (show (Sessions.play (fun _ _ _ => true) [goFor 1 9, go 0, go 1] (initial defaultDeps claimants Db.empty 0)).any _ = true
      by decide +kernel)
  obtain ⟨hreplies, hne⟩ := of_decide_eq_true hruns
  have hempty : Db.empty.ClaimedOnce := fun k k' r r' hr => by cases hr
  have hall : Db.empty.AllClaim := fun k r hr => by cases hr
  have hle := ((token_claimed_once hempty hC).2 hall "t" "tok").1
  refine ⟨C, hC, hreplies, Nat.le_antisymm hle (List.length_pos_iff.2 hne)⟩

/-- So are ids given once in a run's log, and entities created once: the indexes hold in what is committed and in what
each session sees. -/
theorem logged_once (hd : d.LoggedOnce) (h : Reaches (World n) Anything (initial D requests d now) C) :
    C.st.db.LoggedOnce ∧ ∀ t, (C.st.view t).LoggedOnce := by
  obtain ⟨hids, hcreations⟩ := loggedOnce_iff.1 hd
  obtain ⟨hdb, hviews⟩ := unique_views eventIds hids h
  obtain ⟨hdb', hviews'⟩ := unique_views entityCreations hcreations h
  exact ⟨loggedOnce_iff.2 ⟨hdb, hdb'⟩, fun t => loggedOnce_iff.2 ⟨hviews t, hviews' t⟩⟩

/-- A wait is created twice at once. -/
def waitTwice : Fin 3 → CreateReq
  | 0 => { tenant := "t", runId := none, ulid := "r", event := .runCreated { deploymentId := "d", workflowName := "w" } }
  | _ => { tenant := "t", runId := some "r", event := .waitCreated "wait" none }

theorem logged_once_waitTwice : ∃ C : Configuration 3,
    Reaches (World 3) Anything (initial defaultDeps waitTwice Db.empty 0) C ∧ C.st.replies.length = 3 ∧
      (C.st.db.events ("t", "r")).length = 2 ∧ C.st.db.LoggedOnce := by
  obtain ⟨C, hC, hruns⟩ := Sessions.exists_of_play (c := Anything) (fun _ _ _ _ => trivial)
    (P := fun C : Configuration 3 => C.st.replies.length = 3 ∧ (C.st.db.events ("t", "r")).length = 2)
    (show (Sessions.play (fun _ _ _ => true) [go 0, goFor 2 3, go 1, go 2] (initial defaultDeps waitTwice Db.empty 0)).any _ = true
      by decide +kernel)
  obtain ⟨hreplies, hlog⟩ := of_decide_eq_true hruns
  exact ⟨C, hC, hreplies, hlog, (logged_once (fun K => .nil) hC).1⟩

end WorkflowWorld
