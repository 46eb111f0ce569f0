/-
Tenants on one database: a tenant's requests go on as if there were no others, but for the decisions that
have reached the age at which any request may delete them.
-/
import WorkflowWorld.Storage.Scoped
import WorkflowWorld.Concurrency.HeldKeys

namespace WorkflowWorld

open Concurrency Schema

variable {n : Nat} {D : Deps} {requests : Fin n → CreateReq} {d : Db} {now : Nat} {C : Configuration n}

/-- The World of one tenant, where decisions of that age may go at any time. -/
abbrev Alone (D : Deps) (T : TenantId) (n : Nat) := (tenantSlice D T).alone n Bool Reply

/-- The requests of one tenant on its rows; the other sessions have nothing to do. -/
def initialOf (T : TenantId) (D : Deps) (requests : Fin n → CreateReq) (d : Db) (now : Nat) : Configuration n :=
  ⟨Schema.State.init (d.of T) false now, fun t => if (requests t).tenant = T then session D t (requests t) else .pure ()⟩

theorem simulates_initial (T : TenantId) :
    (tenantSlice D T).Simulates (fun t => (requests t).tenant = T) (initial D requests d now) (initialOf T D requests d now) := by
  refine ⟨base_initial D requests d now, ⟨rfl, rfl, fun t _ => .none, fun t _ => rfl, fun t _ => rfl, rfl⟩, ?_, fun t ht => if_pos ht, ?_, ?_⟩
  · intro t _ w hw
    cases hw
  · intro t ht
    exact ((keeps_session D t (requests t)).timely now).mono fun now' _ q hq => inside_of_scoped (ht ▸ hq)
  · intro t ht
    exact ((keeps_session D t (requests t)).timely now).mono fun now' _ q hq => outside_of_scoped ht hq

/-- Whatever the requests of other tenants do, and whenever their sessions fail or end, a tenant's requests come to what they
can come to without them: the same rows committed and pending, the same answers, the same that is left to do. -/
theorem tenant_alone (T : TenantId) (h : Reaches (World n) Anything (initial D requests d now) C) :
    ∃ A : Configuration n, Reaches (Alone D T n) Anything (initialOf T D requests d now) A ∧
      A.st.db = C.st.db.of T ∧
      (∀ t, (requests t).tenant = T → A.st.view t = (C.st.view t).of T ∧ A.prog t = C.prog t) ∧
      A.st.replies.map (fun r => (r.who, r.reply)) =
        (C.st.replies.filter fun r => (requests r.who).tenant = T).map fun r => (r.who, r.reply) := by
  obtain ⟨A, hA, hs⟩ := (simulates_initial T).reaches h
  exact ⟨A, hA, hs.sliced.db, fun t ht => ⟨hs.sliced.view ht, hs.same t ht⟩, hs.sliced.replies⟩

/-- Two tenants create a run of the same id with the same start Hook, one inside the other. -/
def namesakes : Fin 2 → CreateReq
  | 0 => { tenant := "t", runId := none, ulid := "r", event := .runCreated (asking "tok") }
  | 1 => { tenant := "u", runId := none, ulid := "r", event := .runCreated (asking "tok") }

theorem tenant_alone_namesakes : ∃ C A : Configuration 2, Reaches (World 2) Anything (initial defaultDeps namesakes Db.empty 0) C ∧
    C.st.replies.length = 2 ∧ (C.st.db.runs.lookup ("t", "r")).isSome = true ∧ (C.st.db.runs.lookup ("u", "r")).isSome = true ∧
    Reaches (Alone defaultDeps "t" 2) Anything (initialOf "t" defaultDeps namesakes Db.empty 0) A ∧ A.st.db = C.st.db.of "t" := by
  obtain ⟨C, hC, hruns⟩ := Sessions.exists_of_play (c := Anything) (fun _ _ _ _ => trivial)
    (P := fun C : Configuration 2 => C.st.replies.length = 2 ∧ (C.st.db.runs.lookup ("t", "r")).isSome = true ∧
      (C.st.db.runs.lookup ("u", "r")).isSome = true)
    (show (Sessions.play (fun _ _ _ => true) [goFor 0 8, go 1, go 0] (initial defaultDeps namesakes Db.empty 0)).any _ = true
      by decide +kernel)
  obtain ⟨hreplies, ht, hu⟩ := of_decide_eq_true hruns
  obtain ⟨A, hA, hdb, -⟩ := tenant_alone "t" hC
  exact ⟨C, A, hC, hreplies, ht, hu, hA, hdb⟩

/-! ## Whom a tenant's statements wait for -/

def RowRef.tenant : RowRef → TenantId
  | .run k | .slots k | .step k | .hook k | .wait k | .admission k => k.1

def Key.tenant : Key → TenantId
  | .row r | .pk r => r.tenant
  | .claim tenant _ => tenant
  | .event k _ | .correlated k _ _ => k.1

/-- A key of a start Hook decision. -/
def Key.ofDecision : Key → Bool
  | .row (.admission _) | .pk (.admission _) => true
  | _ => false

/-- A write holds keys of its tenant, and keys of decisions exactly if it is to one. -/
theorem Write.touches_kind {w : Write} {key : Key} (h : key ∈ w.touches) :
    key.tenant = w.tenant ∧ key.ofDecision = decide (w.tbl = .admission) := by
  cases w <;> simp only [Write.touches, EventRow.correlatedKey, HookRow.claimKey, List.mem_cons, List.not_mem_nil, or_false] at h
  case appendEvent k e =>
    rcases h with rfl | h
    · exact ⟨rfl, rfl⟩
    · split at h
      · split at h
        · obtain rfl := List.mem_singleton.1 h
          exact ⟨rfl, rfl⟩
        · cases h
      · cases h
  case insertHook k r | deleteHook k r =>
    rcases h with rfl | rfl | h
    · exact ⟨rfl, rfl⟩
    · exact ⟨rfl, rfl⟩
    · split at h
      · obtain rfl := List.mem_singleton.1 h
        exact ⟨rfl, rfl⟩
      · cases h
  all_goals rcases h with rfl | rfl <;> exact ⟨rfl, rfl⟩

section Plans

variable {ρ : Type} {key : Key}

theorem lockRead_takes {ref : RowRef} {row : Option ρ} (h : key ∈ (lockRead ref row).needs ++ (lockRead ref row).takes) :
    key = .row ref := by
  cases row with
  | none => cases h
  | some r => exact List.mem_singleton.1 h

theorem insert_needs {ref : RowRef} {w : Write} {row : Option ρ} (h : key ∈ (insert ref w row).needs ++ (insert ref w row).takes) :
    key = .pk ref := by
  cases row <;> exact List.mem_singleton.1 h

theorem update_needs {f : ρ → Write} {row : Option ρ} {g : ρ → Option ρ} :
    (update f row g).needs ++ (update f row g).takes = [] := by
  unfold update
  split <;> rfl

theorem insertEventPlan_needs {k : RunKey} {e : EventRow} {oc : OnConflict} {d : Db}
    (h : key ∈ (insertEventPlan k e oc d).needs ++ (insertEventPlan k e oc d).takes) : key ∈ Write.touches (.appendEvent k e) := by
  unfold insertEventPlan at h
  split at h
  · cases oc <;> exact List.mem_cons.2 (.inl (List.mem_singleton.1 h))
  · split at h
    · rw [List.append_nil] at h
      exact h
    · cases h

theorem insertHookPlan_needs {k : HookKey} {r : HookRow} {oc : OnConflict} {d : Db}
    (h : key ∈ (insertHookPlan k r oc d).needs ++ (insertHookPlan k r oc d).takes) : key = .pk (.hook k) ∨ key = .claim k.1 r.token := by
  unfold insertHookPlan at h
  split at h
  · cases oc <;> exact .inl (List.mem_singleton.1 h)
  · split at h
    · cases oc <;> simpa using h
    · cases h

end Plans

/-- What a statement waits for beside the rows it writes is its tenant's, and a decision only where it records one. -/
theorem plan_needs {q : Query} {T : TenantId} (hq : q.tenant = some T) {pick : Pick} {now : Nat} {d : Db} {key : Key}
    (h : key ∈ (plan q pick now d).needs ++ (plan q pick now d).takes) :
    key.tenant = T ∧ (key.ofDecision = true → q.tbl = some .admission) := by
  cases q <;> simp only [Query.tenant, Option.some.injEq, reduceCtorEq] at hq <;> subst hq
  case lockRun | lockSlots | lockStep | lockHook => obtain rfl := lockRead_takes h; exact ⟨rfl, fun h => by cases h⟩
  case insertRun | insertWait | insertStep => obtain rfl := insert_needs h; exact ⟨rfl, fun h => by cases h⟩
  case insertAdmission => obtain rfl := insert_needs h; exact ⟨rfl, fun _ => rfl⟩
  case startRun | finishRun | setAttributes | completeWait | startStep | finishStep | retryStep =>
    simp only [plan, update_needs] at h
    cases h
  case insertEvent k v oc =>
    obtain ⟨htenant, hkind⟩ := Write.touches_kind (insertEventPlan_needs h)
    exact ⟨htenant, fun hd => by rw [hkind] at hd; cases hd⟩
  case insertHook k r oc => rcases insertHookPlan_needs h with rfl | rfl <;> exact ⟨rfl, fun h => by cases h⟩
  case insertSlots k =>
    simp only [plan] at h
    split at h <;> obtain rfl := List.mem_singleton.1 h <;> exact ⟨rfl, fun h => by cases h⟩
  case cancelLegacyRun | deleteHook => simp only [plan] at h; split at h <;> cases h
  case advanceSlots =>
    simp only [plan] at h
    split at h
    · cases h
    · split at h <;> cases h
  case nextSlot => simp only [plan] at h; split at h <;> cases h
  all_goals cases h

theorem Query.Scoped.later {T : TenantId} {now now' : Nat} {q : Query} (hle : now ≤ now') (h : q.Scoped D T now) : q.Scoped D T now' := by
  refine ⟨h.tenant, fun cutoff hq => (h.cutoff cutoff hq).trans ?_⟩
  omega

/-- A statement that names a tenant holds keys of that tenant; one that names none, of decisions. -/
theorem holds_of_scoped {T : TenantId} {now : Nat} {q : Query} (hq : q.Scoped D T now) :
    HoldsOnly (S := schema) (fun key => Key.tenant key = T ∨ Key.ofDecision key = true) q := by
  intro pick clock d key hkey
  have hwrites : ∀ w ∈ (plan q pick clock d).writes, key ∈ w.touches → key.tenant = T ∨ key.ofDecision = true := by
    intro w hw hk
    obtain ⟨htenant, hkind⟩ := Write.touches_kind hk
    cases hT : q.tenant with
    | some T' =>
      obtain rfl := hq.tenant T' hT
      exact .inl (htenant.trans (plan_tenant hT hw))
    | none =>
      have htbl := plan_tbl hw
      cases q <;> simp only [Query.tenant, reduceCtorEq] at hT
      case legacyEventUlid | deliveryInFlight => cases hw
      case deleteExpiredDecisions => exact .inr (hkind.trans (decide_eq_true (Option.some.inj htbl).symm))
  rcases List.mem_append.1 hkey with hkey | hkey
  · cases hT : q.tenant with
    | some T' =>
      obtain rfl := hq.tenant T' hT
      exact .inl (plan_needs hT (List.mem_append_right _ hkey)).1
    | none =>
      cases q <;> simp only [Query.tenant, reduceCtorEq] at hT <;> cases hkey
  · obtain ⟨w, hw, hk⟩ := List.mem_flatMap.1 hkey
    exact hwrites w hw hk

/-- Two requests for the same run. -/
def twins : Fin 2 → CreateReq := fun _ =>
  { tenant := "t", runId := none, ulid := "r", event := .runCreated { deploymentId := "d", workflowName := "w" } }

/-- The session's next operation is a statement that has to wait, not to the start Hook decisions. -/
def waitsNext {n : Nat} (t : Fin n) (C : Configuration n) : Bool :=
  match C.prog t with
  | .op (.query q) _ => (Schema.State.exec (S := schema) t ⟨false, {}⟩ (.query q) C.st).isNone && q.tbl ≠ some .admission
  | _ => false

end WorkflowWorld
