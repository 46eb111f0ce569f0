/-
A run that ended stays ended, with the status it ended with, and its log names one end. The
update of `run_started` carries no guard against a run that ended since it was validated, and a
terminal event whose update finds no row goes on if the run exists by its second read; where
neither happens, every interleaving keeps both.
-/
import WorkflowWorld.Storage.Flow

namespace WorkflowWorld

open Concurrency Schema

def Db.status (d : Db) (K : RunKey) : Option RunStatus := (d.runs.lookup K).map (·.status)

/-- The terminal events of the log are of the kind the run ended with. -/
def Db.Settled (K : RunKey) (d : Db) : Prop :=
  ∀ e ∈ d.events K, ∀ st, e.type.terminalStatus = some st → d.status K = some st

/-- A terminal status stays. -/
def Absorbed (K : RunKey) (d d' : Db) : Prop :=
  ∀ st, st.isTerminal = true → d.status K = some st → d'.status K = some st

theorem EventType.terminalStatus_isTerminal {type : EventType} {st : RunStatus} (h : type.terminalStatus = some st) :
    st.isTerminal = true := by
  cases type <;> simp only [EventType.terminalStatus] at h <;> cases h <;> rfl

/-! ## Writes and a run's status -/

section Status

variable {K : RunKey} {w : Write} {ws : List Write} {d d' : Db}

theorem Absorbed.refl (K : RunKey) (d : Db) : Absorbed K d d := fun _ _ h => h

theorem Absorbed.trans {a b c : Db} (h1 : Absorbed K a b) (h2 : Absorbed K b c) : Absorbed K a c :=
  fun st ht h => h2 st ht (h1 st ht h)

theorem Absorbed.of_eq (h : d'.status K = d.status K) : Absorbed K d d' := fun _ _ hs => h.trans hs

theorem status_of_agree (h : schema.Agree (.row (.run K)) d d') : d'.status K = d.status K := by
  unfold Db.status; rw [show d'.runs.lookup K = d.runs.lookup K from Eq.symm h]

/-- Writes that do not touch the run's row leave its status. -/
theorem status_applyAll (h : Key.row (.run K) ∉ schema.touchesAll ws) (d : Db) :
    Db.status (schema.applyAll ws d) K = d.status K :=
  status_of_agree (Schema.State.agree_applyAll (S := schema) ws d h)

/-- The write neither touches the run's row nor journals an end of it. -/
def Write.Quiet (K : RunKey) (w : Write) : Prop :=
  Key.row (.run K) ∉ w.touches ∧ ∀ e, w = .appendEvent K e → e.type.terminalStatus = none

theorem Write.quiet_of_tbl (h1 : w.tbl ≠ .run) (h2 : w.tbl ≠ .event) : w.Quiet K := by
  refine ⟨?_, fun e he => by subst he; exact absurd rfl h2⟩
  cases w with
  | insertRun | updateRun => exact absurd rfl h1
  | appendEvent => exact absurd rfl h2
  | insertHook k r | deleteHook k r => simp only [Write.touches, HookRow.claimKey]; split <;> simp
  | _ => simp [Write.touches]

/-- An append holds no row. -/
theorem Write.append_touches (k : RunKey) (e : EventRow) (r : RowRef) : Key.row r ∉ (Write.appendEvent k e).touches := by
  simp only [Write.touches, EventRow.correlatedKey]
  split
  · split <;> simp
  · simp

theorem Write.quiet_append {k : RunKey} {e : EventRow} (h : k = K → e.type.terminalStatus = none) :
    (Write.appendEvent k e).Quiet K :=
  ⟨append_touches k e _, fun e' he' => by cases he'; exact h rfl⟩

theorem Write.quiet_run {k : RunKey} {r : RunRow} (h : k ≠ K) :
    (Write.insertRun k r).Quiet K ∧ (Write.updateRun k r).Quiet K :=
  ⟨⟨by simpa [Write.touches] using Ne.symm h, fun e he => by cases he⟩,
    ⟨by simpa [Write.touches] using Ne.symm h, fun e he => by cases he⟩⟩

end Status

/-! ## The invariant -/

/-- The writes keep the end the session sees, and journal no other. -/
structure Fits (K : RunKey) (d : Db) (new : List Write) : Prop where
  absorbed : Absorbed K d (schema.applyAll new d)
  ends : ∀ e ∈ appended K new, ∀ st, e.type.terminalStatus = some st → d.status K = some st

theorem Fits.of_quiet {K : RunKey} {new : List Write} (d : Db) (h : ∀ w ∈ new, w.Quiet K) : Fits K d new := by
  refine ⟨.of_eq (status_applyAll (fun hin => ?_) d), fun e he st hst => ?_⟩
  · obtain ⟨w, hw, hk⟩ := List.mem_flatMap.1 hin
    exact (h w hw).1 hk
  · rw [(h _ (mem_appended.1 he)).2 e rfl] at hst; cases hst

/-- The pending writes, on top of the committed data, leave the run settled and keep its end. -/
structure SettledDraft (K : RunKey) (ws : List Write) (d : Db) : Prop where
  settled : Db.Settled K (schema.applyAll ws d)
  absorbed : Absorbed K d (schema.applyAll ws d)

section Draft

variable {K : RunKey} {ws ws' : List Write} {d : Db}

/-- More writes, that fit what the session sees. -/
theorem SettledDraft.append (h : SettledDraft K ws d) {new : List Write} (hf : Fits K (schema.applyAll ws d) new) :
    SettledDraft K (ws ++ new) d := by
  have happ := Schema.State.applyAll_append (S := schema) ws new d
  refine ⟨?_, by rw [happ]; exact h.absorbed.trans hf.absorbed⟩
  rw [happ]
  intro e hmem st hst
  rw [events_applyAll, List.mem_append] at hmem
  have ht := EventType.terminalStatus_isTerminal hst
  rcases hmem with hmem | hmem
  · exact hf.absorbed st ht (h.settled e hmem st hst)
  · exact hf.absorbed st ht (hf.ends e hmem st hst)

/-- Another session's commit leaves a pending transaction's draft as good as it was: at most one of
the two touches the run's row. -/
theorem SettledDraft.others (h : SettledDraft K ws d) (h' : SettledDraft K ws' d)
    (hex : Key.row (.run K) ∈ schema.touchesAll ws → Key.row (.run K) ∉ schema.touchesAll ws') :
    SettledDraft K ws' (schema.applyAll ws d) := by
  have hev := events_applyAll K ws' (schema.applyAll ws d)
  by_cases htouch : Key.row (.run K) ∈ schema.touchesAll ws'
  · -- the row is the pending transaction's: the commit did not move it
    have hst := status_applyAll (fun hin => hex hin htouch) d
    have hst' : Db.status (schema.applyAll ws' (schema.applyAll ws d)) K = Db.status (schema.applyAll ws' d) K :=
      status_of_agree (Schema.State.agree_applyAll_congr (S := schema) ws' _ _
        (Schema.State.agree_applyAll (S := schema) ws d fun hin => hex hin htouch))
    refine ⟨fun e he st hs => ?_, fun st ht hs => ?_⟩
    · rw [hev, List.mem_append] at he
      rw [hst']
      rcases he with he | he
      · exact h'.absorbed st (EventType.terminalStatus_isTerminal hs) (hst ▸ h.settled e he st hs)
      · exact h'.settled e (by rw [events_applyAll]; exact List.mem_append_right _ he) st hs
    · rw [hst']; exact h'.absorbed st ht (hst ▸ hs)
  · -- the pending transaction only journals: its view of the row moves with the commit
    have hst' := status_applyAll htouch (schema.applyAll ws d)
    refine ⟨fun e he st hs => ?_, .of_eq hst'⟩
    rw [hev, List.mem_append] at he
    rw [hst']
    rcases he with he | he
    · exact h.settled e he st hs
    · have hsees := h'.settled e (by rw [events_applyAll]; exact List.mem_append_right _ he) st hs
      rw [status_applyAll htouch] at hsees
      exact h.absorbed st (EventType.terminalStatus_isTerminal hs) hsees

end Draft

section Rules

variable {n : Nat} (cond : Fin n → Op → State n → Prop) (K : RunKey)

def terminalRules : Rules n where
  data := Db.Settled K
  draft _ ws _ d := SettledDraft K ws d
  steady _ _ := True
  ready _ _ := True
  inert w := w.Quiet K
  grows := Absorbed K
  spares _ _ _ := True
  effect _ _ _ := True
  answer _ _ _ _ _ := True
  cond := cond
  recalls := False
  grows_refl := Absorbed.refl K
  grows_trans _ _ _ := .trans
  spares_refl _ _ := trivial
  spares_trans _ _ _ _ _ _ := trivial
  effect_refl _ _ := trivial
  effect_spares _ _ _ _ _ _ := trivial
  draft_nil _ d hd := ⟨hd, .refl K d⟩
  draft_inert _ _ _ _ _ _ h hn := h.append (.of_quiet _ hn)
  steady_nil _ := trivial
  steady_inert _ _ _ _ _ := trivial
  ready_inert _ _ _ := trivial
  spares_inert _ _ _ _ := trivial
  publish _ _ _ _ _ h _ := ⟨h.settled, h.absorbed, trivial⟩
  others _ _ _ _ _ _ _ _ h _ _ h' hks hw hw' := h.others h' fun hin hin' => hks _ (hw _ hin) (hw' _ hin')
  ext d d' hd he := by
    obtain ⟨m, rfl⟩ := he
    exact ⟨hd, .refl K d, fun _ => trivial⟩
  ext_draft t ws ks d d' h he := by
    have hag := schema.agree_ext (.row (.run K)) d d' he
    have hst := status_of_agree hag
    have hst' := status_of_agree (Schema.State.agree_applyAll_congr (S := schema) ws _ _ hag)
    have hev : (schema.applyAll ws d').events K = (schema.applyAll ws d).events K := by
      obtain ⟨m, rfl⟩ := he
      rw [events_applyAll, events_applyAll]
    refine ⟨fun e hmem st hs => ?_, fun st ht hs => ?_⟩
    · rw [hst']; exact h.settled e (hev ▸ hmem) st hs
    · rw [hst']; exact h.absorbed st ht (hst ▸ hs)
  answer_grows _ _ _ _ _ _ h _ := h

end Rules

/-! ## What a session knows of the run's end -/

section Held

variable {n : Nat} {cond : Fin n → Op → State n → Prop} {K : RunKey} {t : Fin n} {s s' : State n} {st : RunStatus}

/-- The run ended with `st`, for good as session `t` goes on: by a commit, or under the session's own
lock. -/
def Held (K : RunKey) (t : Fin n) (st : RunStatus) (s : State n) : Prop :=
  s.db.status K = some st ∨ Key.row (.run K) ∈ s.locks t ∧ (s.view t).status K = some st

theorem held_of_view (hb : Schema.State.Base s) (h : (s.view t).status K = some st) : Held K t st s := by
  by_cases hl : Key.row (.run K) ∈ s.locks t
  · exact .inr ⟨hl, h⟩
  · refine .inl ?_
    have hnot : Key.row (.run K) ∉ schema.touchesAll (s.pend t) := by
      intro hin
      cases hx : s.tx t with
      | none => simp [Schema.State.pend, hx, Schema.touchesAll] at hin
      | some x =>
        rw [Schema.State.pend_of_tx hx] at hin
        exact hl (by rw [Schema.State.locks_of_tx hx]; exact (hb.txOk t x hx).top.touchesAll _ hin)
    rw [Schema.State.view_eq, status_applyAll hnot] at h
    exact h

theorem Held.view (hi : (terminalRules cond K).Inv s) (ht : st.isTerminal = true) (h : Held K t st s) :
    (s.view t).status K = some st := by
  rcases h with h | ⟨-, h⟩
  · rw [Schema.State.view_eq]
    cases hx : s.tx t with
    | none => simpa [Schema.State.pend, hx, Schema.applyAll] using h
    | some x =>
      rw [Schema.State.pend_of_tx hx]
      exact (hi.drafts t x.toMark ((TxRules.mem_marks hx).2 (.inl rfl))).absorbed st ht h
  · exact h

/-- An end is known for good. -/
def Holds (K : RunKey) (t : Fin n) (s s' : State n) : Prop := ∀ st, st.isTerminal = true → Held K t st s → Held K t st s'

/-- Where the session's own writes and locks stayed. -/
theorem Holds.of_same (hg : Absorbed K s.db s'.db) (hp : s'.pend t = s.pend t) (hl : s.locks t ⊆ s'.locks t)
    (hag : ∀ k ∈ s.locks t, schema.Agree k s.db s'.db) : Holds K t s s' := by
  intro st ht h
  rcases h with h | ⟨h1, h2⟩
  · exact .inl (hg st ht h)
  · refine .inr ⟨hl h1, ?_⟩
    rw [Schema.State.view_eq] at h2 ⊢
    rw [hp, status_of_agree (Schema.State.agree_applyAll_congr (S := schema) _ _ _ (hag _ h1))]
    exact h2

theorem Holds.trans {a b c : State n} (h1 : Holds K t a b) (h2 : Holds K t b c) : Holds K t a c :=
  fun st ht h => h2 st ht (h1 st ht h)

/-- A write that keeps the end the session sees. -/
theorem Holds.write {takes : List Key} {ws : List Write} (h : Absorbed K (s.view t) (schema.applyAll ws (s.view t))) :
    Holds K t s (s.write t takes ws) := by
  intro st ht hs
  cases hx : s.tx t with
  | none =>
    have hv : s.view t = s.db := by unfold Schema.State.view; rw [hx]
    rw [hv] at h
    rw [TxRules.write_tx_none hx]
    rcases hs with hs | ⟨-, hs⟩
    · exact .inl (h st ht hs)
    · exact .inl (h st ht (hv ▸ hs))
  | some x =>
    rcases hs with hs | ⟨hl, hs⟩
    · exact .inl (by rw [TxRules.write_db hx]; exact hs)
    · refine .inr ⟨?_, by rw [Schema.State.write_view]; exact h st ht hs⟩
      rw [TxRules.write_locks hx]; exact List.mem_append_left _ hl

/-- The session's own end of the run. -/
theorem held_write {takes : List Key} {ws : List Write} (hk : Key.row (.run K) ∈ schema.touchesAll ws)
    (h : Db.status (schema.applyAll ws (s.view t)) K = some st) : Held K t st (s.write t takes ws) := by
  cases hx : s.tx t with
  | none =>
    rw [TxRules.write_tx_none hx]
    unfold Schema.State.view at h; rw [hx] at h
    exact .inl h
  | some x =>
    refine .inr ⟨?_, by rw [Schema.State.write_view]; exact h⟩
    rw [TxRules.write_locks hx]
    exact List.mem_append_right _ (List.mem_append_right _ hk)

theorem Holds.read (s : State n) (t : Fin n) (takes : List Key) : Holds K t s ((s.see t).write t takes []) :=
  Holds.write (s := s.see t) (.refl K _)

theorem holds_frame {A : State n → Prop} (hkeep : ∀ s s', A s → Holds K t s s' → A s') :
    (terminalRules cond K).Frame t A (Holds K t) := by
  have henter : ∀ s, Holds K t s (s.beginTx t) := by
    intro s
    obtain ⟨-, -, -, hp, hl⟩ := TxRules.beginTx_tx s t
    have hdb := TxRules.beginTx_db s t
    exact .of_same (by rw [hdb]; exact .refl K _) hp (by rw [hl]; exact fun _ h => h)
      fun k _ => by rw [hdb]; exact schema.agree_refl k _
  refine
    { refl := fun s _ st _ h => h
      trans := fun a b c h1 h2 st ht h => h2 st ht (h1 st ht h)
      rely := fun s s' _ _ hr => .of_same hr.rel hr.keep.pend (by rw [hr.keep.locks]; exact fun _ h => h) hr.keep.agree
      failed := fun s s' _ hf => ?_
      keeps := fun s s' ha _ h => hkeep s s' ha h
      enter := fun s ha => hkeep s _ ha (henter s)
      ready := fun _ _ _ _ _ _ _ _ _ => trivial
      commit := fun s₁ s₃ _ hi hr hw hg => ?_
      rollback := fun s₁ s₃ _ hi hw hg => ?_ }
  · have hst := hf.still (R := terminalRules cond K)
    have hp : s'.pend t = s.pend t := by
      rcases hf with rfl | rfl | rfl
      · rfl
      · exact Schema.State.fail_pend ..
      · exact Schema.State.fail_pend ..
    exact .of_same hst.grows hp hst.locks hst.agree
  · intro st ht h
    cases hx : s₁.tx t with
    | none =>
      rcases h with h | ⟨h, -⟩
      · exact .inl ((hw.commitTx hi hr).grows st ht h)
      · simp [Schema.State.locks, hx] at h
    | some x =>
      obtain ⟨x₃, hx₃, hc, -⟩ := TxRules.commitTx_inner hx hw.nest
      have h₃ := hg st ht (henter s₁ st ht h)
      rw [hc]
      rcases h₃ with h₃ | ⟨h₃, h₄⟩
      · exact .inl h₃
      · refine .inr ⟨?_, ?_⟩
        · unfold Schema.State.locks at h₃ ⊢; rw [Schema.State.setTx_tx_self]; rw [hx₃] at h₃; exact h₃
        · unfold Schema.State.view at h₄ ⊢; rw [Schema.State.setTx_tx_self]; rw [hx₃] at h₄; exact h₄
  · have hback := hw.rollbackTx
    have htx := TxRules.rollbackTx_tx hw.nest
    exact .of_same hback.grows (by unfold Schema.State.pend; rw [htx]) hback.locks hback.agree

end Held

/-! ## The requests -/

/-- The run's start finds it not ended, and its end finds it there. -/
def endsOnce {n : Nat} (K : RunKey) (t : Fin n) : Op → State n → Bool
  | .query (.startRun k _ _), s => k ≠ K || !(s.view t).runIsTerminal K
  | .query (.finishRun k _ _), s => k ≠ K || ((s.view t).runs.lookup K).isSome
  | _, _ => true

section Requests

variable {n : Nat} {cond : Fin n → Op → State n → Prop} {K : RunKey} {t : Fin n} {s s' : State n} {st : RunStatus}

/-- A statement whose writes fit. -/
theorem admits_of_fits {A : State n → Prop} {q : Query}
    (hq : ∀ s pick, (terminalRules cond K).Inv s → A s → cond t (.query q) s →
      Fits K (s.view t) (plan q pick (s.clock t) (s.view t)).writes) :
    (terminalRules cond K).Admits t A (Holds K t) q := by
  intro s pick a _ hi _ ha hc _ _
  have hf := hq s pick hi ha hc
  have hd : SettledDraft K (s.pend t) s.db := hi.draft_pend t
  rw [Schema.State.view_eq] at hf
  refine ⟨⟨hd.append (Schema.State.view_eq s t ▸ hf), fun _ => trivial⟩, trivial, ?_⟩
  exact Holds.write (s := s.see t) (hq s pick hi ha hc).absorbed

/-- A statement that starts no ended run, cancels no legacy one and journals no end. -/
theorem terminal_admits (hcond : ∀ t o s, cond t o s → endsOnce K t o s = true) {q : Query}
    (hend : ∀ v oc, q = .insertEvent K v oc → v.type.terminalStatus = none)
    (hlegacy : ∀ now, q ≠ .cancelLegacyRun K now) :
    (terminalRules cond K).Admits t (fun _ => True) (Holds K t) q := by
  refine admits_of_fits fun s pick _ _ hc => ?_
  by_cases hrun : ∃ w ∈ (plan q pick (s.clock t) (s.view t)).writes, w.tbl = .run
  · obtain ⟨w, hw, htbl⟩ := hrun
    rw [plan_single hw (by rw [htbl]; rfl)]
    rcases plan_run hw htbl with ⟨k, r, -, rfl, hnone⟩ | ⟨k, r, r', rfl, hr, -, hover⟩
    · by_cases hk : k = K
      · subst hk
        refine ⟨fun st _ hs => ?_, fun e he => ?_⟩
        · unfold Db.status at hs; rw [hnone] at hs; cases hs
        · simp [appended] at he
      · exact .of_quiet _ fun w hw => by rw [List.mem_singleton.1 hw]; exact (Write.quiet_run hk).1
    · by_cases hk : k = K
      · subst hk
        refine ⟨fun st ht hs => ?_, fun e he => ?_⟩
        · unfold Db.status at hs
          rw [hr, Option.map_some, Option.some.injEq] at hs
          subst hs
          rcases hover ht with h | ⟨at', ⟨_, rfl⟩ | rfl⟩
          · simp [Schema.applyAll, Write.apply, Db.status, h]
          · have := hcond _ _ _ hc
            simp [endsOnce, Db.runIsTerminal, hr, ht] at this
          · exact absurd rfl (hlegacy at')
        · simp [appended] at he
      · exact .of_quiet _ fun w hw => by rw [List.mem_singleton.1 hw]; exact (Write.quiet_run hk).2
  · refine .of_quiet _ fun w hw => ?_
    by_cases hev : w.tbl = .event
    · have htbl := plan_tbl hw
      rw [hev] at htbl
      cases q with
      | insertEvent k v oc =>
        obtain ⟨rfl, -⟩ := insertEventPlan_writes hw
        exact Write.quiet_append fun hk => hend v oc (by rw [hk])
      | _ => cases htbl
    · exact Write.quiet_of_tbl (fun h => hrun ⟨w, hw, h⟩) hev

variable {c : Ctx} {e : EventReq}

theorem holds_store (m : Bool) (s : State n) : Holds K t s { s with mem := Function.update s.mem t m } := fun _ _ h => h

/-- A request on another run, or one that is not about an end. -/
theorem runs_elsewhere (hcond : ∀ t o s, cond t o s → endsOnce K t o s = true) (hne : c.key = K → e.type.terminalStatus = none) :
    (terminalRules cond K).Runs t (fun _ => True) (Holds K t) (createOnRun c e) := by
  refine .of_built (holds_frame fun _ _ _ _ => trivial) (fun q hq => terminal_admits hcond ?_ ?_)
    (fun m _ s _ => holds_store m s) (fun _ _ h => h.elim) (issued built_createOnRun)
  · rintro v oc rfl
    rcases hq with h | h | ⟨v', id, at', hj, rfl, -⟩ | ⟨i, hi, hk, rfl, -⟩ | ⟨-, hk, ht, -, -⟩
    · cases h
    · exact h.elim
    · cases hj with
      | own _ ht hc => show v'.type.terminalStatus = none; rw [ht]; exact hne rfl
      | lazily _ _ ht => show v'.type.terminalStatus = none; rw [ht]; rfl
      | conflict _ _ ht => show v'.type.terminalStatus = none; rw [ht]; rfl
      | takeover => rfl
    · rfl
    · rw [ht]; exact hne hk.symm
  · rintro now rfl
    rcases hq with h | ⟨hk, -, ht⟩ | h
    · cases h
    · have := hne hk.symm; rw [ht] at this; cases this
    · exact h.elim

section Ends

variable (hcond : ∀ t o s, cond t o s → endsOnce K t o s = true ∧ ∀ u, (s.view u).ModernRun K) (hk : c.key = K)
  (hst : e.type.terminalStatus = some st)

include hcond hk hst

/-- What a terminal request does once the run's end is known: it journals that end. -/
theorem runs_journal {α : Type} {p : P α} (hp : Built (Stmt c e false) (Block c e false) p) :
    (terminalRules cond K).Runs t (Held K t st) (Holds K t) p := by
  have ht := EventType.terminalStatus_isTerminal hst
  have hframe : (terminalRules cond K).Frame t (Held K t st) (Holds K t) := holds_frame fun s s' h hh => hh st ht h
  have hany : ∀ {q : Query}, (terminalRules cond K).Admits t (fun _ => True) (Holds K t) q →
      (terminalRules cond K).Admits t (Held K t st) (Holds K t) q :=
    fun h => h.mono (fun _ _ => trivial) fun _ _ _ h => h
  refine .of_built hframe (fun q hq => hany (terminal_admits (fun t o s h => (hcond t o s h).1) ?_ ?_)) (fun m h => h.elim)
    (fun α p hb => ?_) hp
  · rintro v oc rfl
    rcases hq with h | h
    · cases h
    · exact h.elim
  · rintro now rfl
    rcases hq with h | ⟨-, h, -⟩
    · cases h
    · cases h
  · cases hb with
    | run h => cases e <;> simp only [EventReq.input] at h <;> cases hst <;> cases h
    | legacy h => cases h
    | @append k v hj =>
      have hv : k = K ∧ v.type = e.type := by
        cases hj with
        | own _ ht => exact ⟨hk, ht⟩
        | lazily _ he => rw [he] at hst; cases hst
        | conflict _ he => rw [he] at hst; cases hst
        | takeover q he =>
          cases e with
          | hookCreated => cases hst
          | _ => cases he
      refine .of_built hframe (fun q hq => ?_) (fun m _ s _ => holds_store m s) (fun _ _ h => h.elim) built_tryAppend
      rcases hq with h | ⟨id, at', rfl⟩ | ⟨f, -, -, rfl⟩
      · exact admits_read h fun s takes _ => Holds.read s t takes
      · refine admits_of_fits fun s pick hi ha _ => ?_
        refine ⟨.of_eq (status_applyAll (fun hin => ?_) _), fun e' he' st' hst' => ?_⟩
        · obtain ⟨w, hw, hin⟩ := List.mem_flatMap.1 hin
          obtain ⟨rfl, -⟩ := insertEventPlan_writes hw
          exact Write.append_touches _ _ _ hin
        · obtain ⟨heq, -⟩ := insertEventPlan_writes (mem_appended.1 he')
          cases heq
          have h' : v.type.terminalStatus = some st' := hst'
          rw [hv.2, hst] at h'
          cases h'
          exact ha.view hi ht
      · exact hany (terminal_admits (fun t o s h => (hcond t o s h).1) (fun _ _ h => by cases h) fun _ h => by cases h)

omit hst in
/-- The guarded update: it ends the run, or throws. -/
theorem gives_settleRun (now : Nat) :
    (terminalRules cond K).Gives t (fun _ => True) (Holds K t) (settleRun c st now) fun _ => Held K t st := by
  have hframe : (terminalRules cond K).Frame t (fun _ => True) (Holds K t) := holds_frame fun _ _ _ _ => trivial
  -- where it updates nothing, the run had ended before
  refine .bind hframe (B := fun updated s => (updated.isSome = true → Held K t st s) ∧
      (updated = none → ∃ st', st'.isTerminal = true ∧ Held K t st' s))
    (gives_sql hframe (terminal_admits (fun t o s h => (hcond t o s h).1) (fun _ _ h => by cases h) fun _ h => by cases h)
      fun s pick a hb hi _ _ hc hans _ => ?_) fun updated => ?_
  · obtain ⟨r, hr⟩ := Option.isSome_iff_exists.1 (by simpa [endsOnce, hk] using (hcond _ _ _ hc).1)
    have hrow : (s.view t).runs.lookup c.key = some r := by rw [hk]; exact hr
    simp only [plan, update, hrow, Option.bind_some] at hans ⊢
    by_cases hterm : r.status.isTerminal = true
    · simp only [if_pos hterm] at hans ⊢
      cases hans
      have hheld : Held K t r.status s := held_of_view hb (by unfold Db.status; rw [hr]; rfl)
      exact ⟨fun h => (by cases h), fun _ => ⟨r.status, hterm, Holds.read s t _ _ hterm hheld⟩⟩
    · simp only [if_neg hterm] at hans ⊢
      cases hans
      refine ⟨fun _ => held_write (s := s.see t) (by simp [Schema.touchesAll, Write.touches, hk]) ?_, fun h => by cases h⟩
      simp [Schema.applyAll, Write.apply, Db.status, hk]
  · cases updated with
    | some r => exact fun s hs ha => ⟨.refl hframe hs trivial, ha.1 rfl⟩
    | none =>
      intro s hs ha
      obtain ⟨st', hterm, hheld⟩ := ha.2 rfl
      have hframe' : (terminalRules cond K).Frame t (Held K t st') (Holds K t) := holds_frame fun _ _ h hh => hh _ hterm h
      refine TxRules.Gives.bind hframe' (gives_getRunForValidation (c := c) (N := fun r _ => r.status.isTerminal = true)
        hframe' (fun s takes _ => Holds.read s t takes) (fun _ _ _ h _ _ => h) fun s₁ r₁ _ hi₁ ha₁ _ hr₁ => ?_)
        (fun cur s₁ hs₁ ha₁ => ?_) s hs hheld
      · have hv := ha₁.view hi₁ hterm
        unfold Db.status at hv
        rw [← hk, hr₁, Option.map_some, Option.some.injEq] at hv
        simp only [hv, hterm]
      · have h : (terminalRules cond K).Upto t (Holds K t) s₁ s₁ := .refl hframe hs₁ trivial
        cases cur with
        | none => exact h.left _
        | some r₁ =>
          simp only [ha₁.2 r₁ rfl, if_true]
          exact h.left _

/-- The end of a run: its update, then what journals it. -/
theorem runs_finishRun (now : Nat) (hc : e.correlationId = none) :
    (terminalRules cond K).Runs t (fun _ => True) (Holds K t) (finishRun c e.type st now) := by
  refine .bind_gives (holds_frame fun _ _ _ _ => trivial) (gives_settleRun hcond hk now) fun run => runs_journal hcond hk hst ?_
  refine .bind (built_releaseRun (by rw [hst]; rfl) _) fun _ => ?_
  exact .bind (built_journal (.own _ rfl hc.symm (by rintro h; rw [h] at hst; cases hst)) _) fun _ => .pure _

theorem runs_apply (now : Nat) (current : Option CurrentRun) :
    (terminalRules cond K).Runs t (fun _ => True) (Holds K t) (apply c now current e) := by
  cases e with
  | runCompleted => cases hst; exact runs_finishRun (e := .runCompleted) hcond hk rfl now rfl
  | runFailed => cases hst; exact runs_finishRun (e := .runFailed) hcond hk rfl now rfl
  | runCancelled => cases hst; exact runs_finishRun (e := .runCancelled) hcond hk rfl now rfl
  | _ => cases hst

/-- A request for an end of the run. -/
theorem runs_ending : (terminalRules cond K).Runs t (fun _ => True) (Holds K t) (createOnRun c e) := by
  have hframe : (terminalRules cond K).Frame t (fun _ => True) (Holds K t) := holds_frame fun _ _ _ _ => trivial
  have hno : e.input = none := by
    cases e with
    | runCompleted | runFailed | runCancelled => rfl
    | _ => cases hst
  refine runs_createOnRun hframe (N := fun r s => isLegacySpecVersion r.specVersion = false ∧
      (r.status.isTerminal = true → Held K t r.status s)) (fun s takes _ => Holds.read s t takes)
    (fun r s s' h _ hh => ⟨h.1, fun ht => hh _ ht (h.2 ht)⟩) (fun s r hb _ _ hc hr => ⟨?_, fun _ => held_of_view hb ?_⟩)
    (by simp [hno]) (fun r s h => h.1) (fun i hi => by rw [hno] at hi; cases hi) (fun now cur => runs_apply hcond hk hst now cur)
    fun now r s hs _ hknown => ?_
  · exact (hcond _ _ _ hc).2 t r (hk ▸ hr)
  · unfold Db.status; rw [← hk, hr]; rfl
  · have hupto : (terminalRules cond K).Upto t (Holds K t) s s := .refl hframe hs trivial
    cases e with
    | runCancelled =>
      cases hst
      unfold applyOnTerminal
      simp only
      by_cases hcancelled : r.status = .cancelled
      · rw [if_pos hcancelled]
        have hheld := hknown.2 (by rw [hcancelled]; rfl)
        rw [hcancelled] at hheld
        exact runs_journal (e := .runCancelled) hcond hk rfl (built_cancelAgain rfl rfl) s hs hheld
      · rw [if_neg hcancelled]
        exact hupto.left _
    | runCompleted | runFailed => exact hupto.left _
    | _ => cases hst

end Ends

/-- The run is settled in every state, whatever the schedule. -/
theorem terminal_safe {D : Deps} {requests : Fin n → CreateReq} {d : Db} {now : Nat} (hd : d.Settled K)
    (hcond : ∀ t o s, cond t o s → endsOnce K t o s = true ∧ ∀ u, (s.view u).ModernRun K) :
    (terminalRules cond K).rules.Safe (initial D requests d now) := by
  refine safe_of_runs hd (fun _ _ _ _ _ => trivial) (fun _ => holds_frame fun _ _ _ _ => trivial)
    (fun t s takes => Holds.read s t takes) (fun t m s => holds_store m s) fun t c _ => ?_
  by_cases hk : c.key = K
  · cases hst : (requests t).event.type.terminalStatus with
    | none => exact runs_elsewhere (fun t o s h => (hcond t o s h).1) fun _ => hst
    | some st => exact runs_ending hcond hk hst
  · exact runs_elsewhere (fun t o s h => (hcond t o s h).1) fun h => absurd h hk

end Requests

/-- The run ends once: a terminal status stays, and the log names one end. -/
structure EndsForGood (K : RunKey) (d d' : Db) : Prop where
  absorbed : Absorbed K d d'
  oneEnd : ∀ e ∈ d'.events K, ∀ e' ∈ d'.events K, ∀ st st', e.type.terminalStatus = some st →
    e'.type.terminalStatus = some st' → st = st'

/-- A terminal status is absorbing and the log names one end, in every interleaving in which no start
takes effect on an ended run and no end is tried on a run that is not there. -/
theorem terminal_status_absorbing {n : Nat} {D : Deps} {requests : Fin n → CreateReq} {d : Db} {now : Nat} {K : RunKey}
    (hd : d.Settled K) (hmodern : d.ModernRun K) (hreq : CreatedModern D requests K) {C C' : Configuration n}
    (h : Reaches (World n) (fun t o s => endsOnce K t o s) (initial D requests d now) C)
    (h' : Reaches (World n) (fun t o s => endsOnce K t o s) C C') : EndsForGood K C.st.db C'.st.db := by
  have hsafe := (terminal_safe hd fun _ _ _ h => h).reaches TxRules.tolerates (modern_reaches hmodern hreq .refl h)
  obtain ⟨hend, habsorbed⟩ := hsafe.1.reaches TxRules.tolerates (modern_reaches hmodern hreq h h')
  refine ⟨fun st ht hs => habsorbed st ht hs, fun e he e' he' st st' hs hs' => ?_⟩
  have h1 : C'.st.db.status K = some st := hend.inv.data e he st hs
  have h2 : C'.st.db.status K = some st' := hend.inv.data e' he' st' hs'
  rw [h1] at h2
  exact Option.some.inj h2

theorem empty_settled (K : RunKey) : Db.empty.Settled K := fun e he => by cases he

/-- One after the other, they leave a run that stays completed. -/
theorem terminal_status_absorbing_lifecycle : ∃ C C' : Configuration 3,
    Reaches (World 3) (fun t o s => endsOnce ("t", "r") t o s) (initial defaultDeps lifecycle Db.empty 0) C ∧
    Reaches (World 3) (fun t o s => endsOnce ("t", "r") t o s) C C' ∧ C.st.db.status ("t", "r") = some .completed ∧
    EndsForGood ("t", "r") C.st.db C'.st.db := by
  obtain ⟨C, hC, hcompleted⟩ := Sessions.exists_of_play (fun t o s h => h)
    (P := fun C : Configuration 3 => C.st.db.status ("t", "r") = some .completed)
    (show (Sessions.play (endsOnce ("t", "r")) [go 0, go 1, go 2] (initial defaultDeps lifecycle Db.empty 0)).any _ = true
      by decide +kernel)
  exact ⟨C, C, hC, .refl, by simpa using hcompleted,
    terminal_status_absorbing (empty_settled _) (empty_modern _) lifecycle_modern hC .refl⟩

/-- A start that was validated before the run completed takes effect after it: the completed run is
running again. -/
theorem terminal_status_lost : CreatedModern defaultDeps lifecycle ("t", "r") ∧ ∃ C C' : Configuration 3,
    Reaches (World 3) Anything (initial defaultDeps lifecycle Db.empty 0) C ∧ Reaches (World 3) Anything C C' ∧
    C.st.db.status ("t", "r") = some .completed ∧ C'.st.db.status ("t", "r") = some .running ∧
    ¬EndsForGood ("t", "r") C.st.db C'.st.db := by
  obtain ⟨C, hC, h⟩ := Sessions.exists_of_play (c := Anything) (fun _ _ _ _ => trivial)
    (P := fun C : Configuration 3 => C.st.db.status ("t", "r") = some .completed &&
      (Sessions.play (fun _ _ _ => true) [go 1] C).any fun C' => C'.st.db.status ("t", "r") = some .running)
    (show (Sessions.play (fun _ _ _ => true) [go 0, goFor 1 2, go 2] (initial defaultDeps lifecycle Db.empty 0)).any _ = true
      by decide +kernel)
  rw [Bool.and_eq_true, decide_eq_true_eq] at h
  obtain ⟨C', hC', hrunning⟩ := Sessions.exists_of_play (c := Anything) (fun _ _ _ _ => trivial) h.2
  rw [decide_eq_true_eq] at hrunning
  refine ⟨lifecycle_modern, C, C', hC, hC', h.1, hrunning, fun hgood => ?_⟩
  have := hgood.absorbed _ rfl h.1
  rw [hrunning] at this
  cases this

end WorkflowWorld
