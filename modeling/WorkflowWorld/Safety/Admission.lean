/-
A start Hook's admission and the run it admits. The start Hook row, the acceptance, the run row and its
`run_created` are four inserts of one transaction, and what each does on a conflict differs: a hook row that is
there refuses the candidate, an acceptance that is there is answered again, and a run row that is there is passed
by. Where no run of a candidate's id is there at the third insert, and no acceptance at the second, a candidate
is admitted with all four or with none.
-/
import WorkflowWorld.Storage.Flow

namespace WorkflowWorld

open Concurrency Schema

/-! ## All of an admission -/

/-- The run row and the first event of an admitted candidate. -/
structure AdmittedRun (D : Deps) (K : RunKey) (a : AdmissionRow) (r : RunRow) (e : EventRow) (s : RunStartHook) : Prop where
  createdBy : r.createdBy = a.decidedBy
  startHook : r.startHook = some s
  token : s.token = a.token
  hookId : s.hookId = D.startHookId K.2
  slot : e.id = .slot firstEventSlot
  type : e.type = .runCreated
  writer : e.writer = a.decidedBy
  data : ∃ deploymentId workflowName attributes, e.data = .runCreated deploymentId workflowName attributes (some s)

/-- An admission is recorded only with its run, and a start Hook row or a run with a start Hook only with its admission,
all three by one request. A start Hook row is one of the id that the candidate of its own run gets. -/
structure Whole (D : Deps) (d : Db) : Prop where
  recorded : ∀ K a, d.admissions.lookup K = some a → (K, a) ∈ d.decisions
  accepted : ∀ K a, (K, a) ∈ d.decisions → a.decision = .accepted → ∃ r e s, d.runs.lookup K = some r ∧ e ∈ d.events K ∧
    AdmittedRun D K a r e s
  hooks : ∀ k h, d.hooks.lookup k = some h → k.2 = D.startHookId h.runId →
    ∃ a, ((k.1, h.runId), a) ∈ d.decisions ∧ a.decision = .accepted ∧ a.decidedBy = h.createdBy
  runs : ∀ K r, d.runs.lookup K = some r → r.startHook.isSome = true →
    ∃ a, (K, a) ∈ d.decisions ∧ a.decision = .accepted ∧ a.decidedBy = r.createdBy

/-- The writes of one transaction of request `m` hold all of each admission, or nothing of it. -/
structure Complete (D : Deps) (m : Nat) (ws : List Write) : Prop where
  accepted : ∀ K a, .insertAdmission K a ∈ ws → a.decision = .accepted → a.decidedBy = m ∧
    (∃ h, .insertHook (K.1, D.startHookId K.2) h ∈ ws ∧ h.runId = K.2 ∧ h.token = a.token) ∧
    ∃ r e s, .insertRun K r ∈ ws ∧ .appendEvent K e ∈ ws ∧ AdmittedRun D K a r e s
  hooks : ∀ k h, .insertHook k h ∈ ws → k.2 = D.startHookId h.runId →
    h.createdBy = m ∧ ∃ a, .insertAdmission (k.1, h.runId) a ∈ ws ∧ a.decision = .accepted
  runs : ∀ K r, .insertRun K r ∈ ws → r.startHook.isSome = true →
    r.createdBy = m ∧ ∃ a, .insertAdmission K a ∈ ws ∧ a.decision = .accepted

/-- The write is of an admission: its start Hook row, its acceptance or its run. -/
def Write.admits (D : Deps) : Write → Bool
  | .insertHook k h => k.2 = D.startHookId h.runId
  | .insertAdmission _ a => a.decision = .accepted
  | .insertRun _ r => r.startHook.isSome
  | _ => false

section Writes

variable {D : Deps} {m : Nat} {K : RunKey} {ws new : List Write} {d : Db}

/-- Writes of no admission. -/
theorem Complete.of_idle (hn : ∀ w ∈ new, w.admits D = false) : Complete D m new := by
  have hno : ∀ {w : Write}, w.admits D = true → w ∉ new := fun hw hmem => by rw [hn _ hmem] at hw; cases hw
  exact ⟨fun K a hmem ha => absurd hmem (hno (by simp [Write.admits, ha])),
    fun k h hmem hk => absurd hmem (hno (by simp [Write.admits, hk])), fun K r hmem hr => absurd hmem (hno hr)⟩

/-- Two complete lists of writes. -/
theorem Complete.concat (h : Complete D m ws) (hnew : Complete D m new) : Complete D m (ws ++ new) := by
  refine ⟨fun K a hmem ha => ?_, fun k r hmem hr => ?_, fun K r hmem hr => ?_⟩
  · rcases List.mem_append.1 hmem with hmem | hmem
    · obtain ⟨hm, ⟨r, hhook, hrest⟩, run, e, s, hrun, he, hadmitted⟩ := h.accepted K a hmem ha
      exact ⟨hm, ⟨r, List.mem_append_left _ hhook, hrest⟩, run, e, s, List.mem_append_left _ hrun, List.mem_append_left _ he, hadmitted⟩
    · obtain ⟨hm, ⟨r, hhook, hrest⟩, run, e, s, hrun, he, hadmitted⟩ := hnew.accepted K a hmem ha
      exact ⟨hm, ⟨r, List.mem_append_right _ hhook, hrest⟩, run, e, s, List.mem_append_right _ hrun, List.mem_append_right _ he, hadmitted⟩
  · rcases List.mem_append.1 hmem with hmem | hmem
    · exact (h.hooks k r hmem hr).imp_right fun ⟨a, hmem', ha⟩ => ⟨a, List.mem_append_left _ hmem', ha⟩
    · exact (hnew.hooks k r hmem hr).imp_right fun ⟨a, hmem', ha⟩ => ⟨a, List.mem_append_right _ hmem', ha⟩
  · rcases List.mem_append.1 hmem with hmem | hmem
    · exact (h.runs K r hmem hr).imp_right fun ⟨a, hmem', ha⟩ => ⟨a, List.mem_append_left _ hmem', ha⟩
    · exact (hnew.runs K r hmem hr).imp_right fun ⟨a, hmem', ha⟩ => ⟨a, List.mem_append_right _ hmem', ha⟩

theorem Complete.append (h : Complete D m ws) (hn : ∀ w ∈ new, w.admits D = false) : Complete D m (ws ++ new) :=
  h.concat (.of_idle hn)

/-! ## Run rows -/

/-- What a transaction's writes make of the row of run `K`: it stays the same run's, and one that is inserted was
not there. -/
structure RowKept (ws : List Write) (K : RunKey) (row row' : Option RunRow) : Prop where
  kept : ∀ r, row = some r → ∃ r', row' = some r' ∧ r.SameRun r'
  fresh : ∀ r, .insertRun K r ∈ ws → row = none ∧ ∃ r', row' = some r' ∧ r.SameRun r'
  born : ∀ r', row' = some r' → row = none → ∃ r, .insertRun K r ∈ ws ∧ r.SameRun r'

def RowsKept (ws : List Write) (d : Db) : Prop :=
  ∀ K, RowKept ws K (d.runs.lookup K) (Db.runs (schema.applyAll ws d) |>.lookup K)

theorem RowsKept.nil : RowsKept [] d := fun _ =>
  ⟨fun r hr => ⟨r, hr, rfl, rfl, rfl, rfl, rfl⟩, fun _ h => absurd h List.not_mem_nil, fun _ hr hnone =>
    absurd (hnone.symm.trans hr) (by simp)⟩

/-- Writes to other tables leave the runs. -/
theorem runs_applyAll : ∀ (ws : List Write) (d : Db), (∀ w ∈ ws, w.tbl ≠ .run) → Db.runs (schema.applyAll ws d) = d.runs
  | [], _, _ => rfl
  | w :: ws, d, h => by
    refine (runs_applyAll ws (w.apply d) fun w' hw' => h w' (List.mem_cons_of_mem _ hw')).trans ?_
    have hw := h w (List.mem_cons_self ..)
    cases w <;> first | rfl | exact absurd rfl hw

theorem RowsKept.append_other (h : RowsKept ws d) (hn : ∀ w ∈ new, w.tbl ≠ .run) : RowsKept (ws ++ new) d := by
  have hno : ∀ {K r}, .insertRun K r ∈ ws ++ new → .insertRun K r ∈ ws := fun hmem =>
    (List.mem_append.1 hmem).resolve_right fun hmem => hn _ hmem rfl
  intro K
  rw [State.applyAll_append, runs_applyAll new _ hn]
  exact ⟨(h K).kept, fun r hmem => (h K).fresh r (hno hmem), fun r' hr hnone =>
    ((h K).born r' hr hnone).imp fun _ hr => hr.imp_left (List.mem_append_left _)⟩

/-- A run row is inserted where none is, or changed in place. -/
theorem RowsKept.append_run (h : RowsKept ws d) {w : Write}
    (hw : (∃ k r, w = .insertRun k r ∧ (Db.runs (schema.applyAll ws d)).lookup k = none) ∨
      ∃ k r r', w = .updateRun k r' ∧ (Db.runs (schema.applyAll ws d)).lookup k = some r ∧ r.SameRun r') : RowsKept (ws ++ [w]) d := by
  intro K
  rw [State.applyAll_append]
  obtain ⟨hkept, hfresh, hborn⟩ := h K
  rcases hw with ⟨k, r, rfl, hnone⟩ | ⟨k, r, r', rfl, hr, hsame⟩
  · rw [show Db.runs (schema.applyAll [.insertRun k r] (schema.applyAll ws d)) = (Db.runs (schema.applyAll ws d)).insert k r from rfl]
    by_cases hk : K = k
    · subst hk
      rw [AList.lookup_insert]
      have hmissing : d.runs.lookup K = none := Option.eq_none_iff_forall_ne_some.2 fun r₁ hr₁ => by
        obtain ⟨r', hr', -⟩ := hkept r₁ hr₁
        rw [hnone] at hr'
        cases hr'
      refine ⟨fun r₁ hr₁ => absurd (hmissing.symm.trans hr₁) (by simp), fun r₁ hmem => ?_, fun r' hr' _ => ?_⟩
      · rcases List.mem_append.1 hmem with hmem | hmem
        · obtain ⟨-, r', hr', -⟩ := hfresh r₁ hmem
          rw [hnone] at hr'
          cases hr'
        · cases List.mem_singleton.1 hmem
          exact ⟨hmissing, r, rfl, .refl r⟩
      · cases hr'
        exact ⟨r, List.mem_append_right _ (List.mem_singleton.2 rfl), .refl r⟩
    · rw [AList.lookup_insert_ne hk]
      refine ⟨hkept, fun r₁ hmem => hfresh r₁ ?_, fun r' hr' hn => ?_⟩
      · exact (List.mem_append.1 hmem).resolve_right fun hmem => by cases List.mem_singleton.1 hmem; exact hk rfl
      · exact (hborn r' hr' hn).imp fun _ h => h.imp_left (List.mem_append_left _)
  · rw [show Db.runs (schema.applyAll [.updateRun k r'] (schema.applyAll ws d)) = (Db.runs (schema.applyAll ws d)).insert k r' from rfl]
    have hold : ∀ {r₁}, .insertRun K r₁ ∈ ws ++ [.updateRun k r'] → .insertRun K r₁ ∈ ws := fun hmem =>
      (List.mem_append.1 hmem).resolve_right fun hmem => by cases List.mem_singleton.1 hmem
    by_cases hk : K = k
    · subst hk
      rw [AList.lookup_insert]
      refine ⟨fun r₁ hr₁ => ?_, fun r₁ hmem => ?_, fun r₁ hr₁ hn => ?_⟩
      · obtain ⟨r₂, hr₂, hs⟩ := hkept r₁ hr₁
        cases hr.symm.trans hr₂
        exact ⟨r', rfl, hs.trans hsame⟩
      · obtain ⟨hn, r₂, hr₂, hs⟩ := hfresh r₁ (hold hmem)
        cases hr.symm.trans hr₂
        exact ⟨hn, r', rfl, hs.trans hsame⟩
      · cases hr₁
        obtain ⟨r₂, hmem, hs⟩ := hborn r hr hn
        exact ⟨r₂, List.mem_append_left _ hmem, hs.trans hsame⟩
    · rw [AList.lookup_insert_ne hk]
      refine ⟨hkept, fun r₁ hmem => hfresh r₁ (hold hmem), fun r' hr' hn => ?_⟩
      exact (hborn r' hr' hn).imp fun _ h => h.imp_left (List.mem_append_left _)

/-- Any statement. -/
theorem RowsKept.plan (h : RowsKept ws d) (q : Query) (pick : Pick) (now : Nat) :
    RowsKept (ws ++ (WorkflowWorld.plan q pick now (schema.applyAll ws d)).writes) d := by
  by_cases hrun : ∀ w ∈ (WorkflowWorld.plan q pick now (schema.applyAll ws d)).writes, w.tbl ≠ .run
  · exact h.append_other hrun
  · push Not at hrun
    obtain ⟨w, hw, ht⟩ := hrun
    rw [plan_single hw (by rw [ht]; rfl)]
    refine h.append_run ?_
    rcases plan_run hw ht with ⟨k, r, -, rfl, hnone⟩ | ⟨k, r, r', rfl, hr, hsame, -⟩
    · exact .inl ⟨k, r, rfl, hnone⟩
    · exact .inr ⟨k, r, r', rfl, hr, hsame⟩

/-- Another session's commit leaves the rows that a pending transaction holds. -/
theorem RowsKept.others {ws' : List Write} (h : RowsKept ws' d)
    (hex : ∀ k ∈ schema.touchesAll ws, k ∉ schema.touchesAll ws') : RowsKept ws' (schema.applyAll ws d) := by
  intro K
  by_cases hmine : Key.row (.run K) ∈ schema.touchesAll ws'
  · -- the row is held: the other did not write it
    have hfar : Key.row (.run K) ∉ schema.touchesAll ws := fun hk => hex _ hk hmine
    have hrow : d.runs.lookup K = (Db.runs (schema.applyAll ws d)).lookup K :=
      State.agree_applyAll (S := schema) (k := Key.row (.run K)) ws d hfar
    have hrow' : (Db.runs (schema.applyAll ws' d)).lookup K = (Db.runs (schema.applyAll ws' (schema.applyAll ws d))).lookup K :=
      State.agree_applyAll_congr (S := schema) (k := Key.row (.run K)) ws' d _ hrow
    rw [← hrow, ← hrow']
    exact h K
  · have hrow : (Db.runs (schema.applyAll ws d)).lookup K = (Db.runs (schema.applyAll ws' (schema.applyAll ws d))).lookup K :=
      State.agree_applyAll (S := schema) (k := Key.row (.run K)) ws' _ hmine
    rw [← hrow]
    refine ⟨fun r hr => ⟨r, hr, .refl r⟩, fun r hmem => ?_, fun r hr hnone => absurd (hnone.symm.trans hr) (by simp)⟩
    exact absurd (List.mem_flatMap.2 ⟨_, hmem, List.mem_cons_self ..⟩) hmine

/-! ## What a commit leaves -/

theorem mem_decisions : ∀ (ws : List Write) (d : Db) {p : RunKey × AdmissionRow},
    p ∈ Db.decisions (schema.applyAll ws d) ↔ p ∈ d.decisions ∨ .insertAdmission p.1 p.2 ∈ ws
  | [], _, _ => ⟨.inl, fun h => h.resolve_right List.not_mem_nil⟩
  | w :: ws, d, p => by
    refine (mem_decisions ws (w.apply d)).trans ?_
    rw [List.mem_cons]
    cases w with
    | insertAdmission k a =>
      rw [show (Write.apply (.insertAdmission k a) d).decisions = d.decisions ++ [(k, a)] from rfl, List.mem_append, List.mem_singleton,
        Write.insertAdmission.injEq, or_assoc]
      exact or_congr_right (or_congr_left Prod.ext_iff)
    | _ => exact or_congr_right (by simp)

/-- A row that is there was there, or was inserted. -/
theorem hook_there : ∀ (ws : List Write) {d : Db} {k : HookKey} {h : HookRow}, (Db.hooks (schema.applyAll ws d)).lookup k = some h →
    d.hooks.lookup k = some h ∨ .insertHook k h ∈ ws
  | [], _, _, _, h => .inl h
  | w :: ws, d, k, r, h => by
    rcases hook_there ws (d := w.apply d) h with h | h
    swap
    · exact .inr (List.mem_cons_of_mem _ h)
    cases w with
    | insertHook k' r' =>
      rw [show (Write.apply (.insertHook k' r') d).hooks = d.hooks.insert k' r' from rfl] at h
      by_cases hk : k = k'
      · subst hk
        rw [AList.lookup_insert] at h
        cases h
        exact .inr (List.mem_cons_self ..)
      · rw [AList.lookup_insert_ne hk] at h
        exact .inl h
    | deleteHook k' r' =>
      rw [show (Write.apply (.deleteHook k' r') d).hooks = d.hooks.erase k' from rfl] at h
      by_cases hk : k = k'
      · subst hk
        rw [AList.lookup_erase] at h
        cases h
      · rw [AList.lookup_erase_ne hk] at h
        exact .inl h
    | _ => exact .inl h

theorem admission_there : ∀ (ws : List Write) {d : Db} {a : AdmissionRow}, (Db.admissions (schema.applyAll ws d)).lookup K = some a →
    d.admissions.lookup K = some a ∨ .insertAdmission K a ∈ ws
  | [], _, _, h => .inl h
  | w :: ws, d, a, h => by
    rcases admission_there ws (d := w.apply d) h with h | h
    swap
    · exact .inr (List.mem_cons_of_mem _ h)
    cases w with
    | insertAdmission k a' =>
      rw [show (Write.apply (.insertAdmission k a') d).admissions = d.admissions.insert k a' from rfl] at h
      by_cases hk : K = k
      · rw [← hk, AList.lookup_insert] at h
        cases h
        rw [hk]
        exact .inr (List.mem_cons_self ..)
      · rw [AList.lookup_insert_ne hk] at h
        exact .inl h
    | deleteAdmission k =>
      rw [show (Write.apply (.deleteAdmission k) d).admissions = d.admissions.erase k from rfl] at h
      by_cases hk : K = k
      · rw [← hk, AList.lookup_erase] at h
        cases h
      · rw [AList.lookup_erase_ne hk] at h
        exact .inl h
    | _ => exact .inl h

theorem AdmittedRun.same {a : AdmissionRow} {r r' : RunRow} {e : EventRow} {s : RunStartHook} (h : AdmittedRun D K a r e s)
    (hs : r.SameRun r') : AdmittedRun D K a r' e s :=
  { h with createdBy := hs.createdBy.trans h.createdBy, startHook := hs.startHook.trans h.startHook }

/-- A commit of complete writes. -/
theorem Whole.publish (hd : Whole D d) (hkept : RowsKept ws d) (hc : Complete D m ws) : Whole D (schema.applyAll ws d) := by
  have hmore : ∀ {p : RunKey × AdmissionRow}, p ∈ d.decisions → p ∈ Db.decisions (schema.applyAll ws d) :=
    fun hp => (mem_decisions ws d).2 (.inl hp)
  refine ⟨fun K a ha => ?_, fun K a hmem ha => ?_, fun k h hh hk => ?_, fun K r hr hs => ?_⟩
  · exact (mem_decisions ws d).2 ((admission_there ws ha).imp_left (hd.recorded K a))
  · rcases (mem_decisions ws d).1 hmem with hmem | hmem
    · obtain ⟨r, e, s, hr, he, hadmitted⟩ := hd.accepted K a hmem ha
      obtain ⟨r', hr', hsame⟩ := (hkept K).kept r hr
      exact ⟨r', e, s, hr', by rw [events_applyAll]; exact List.mem_append_left _ he, hadmitted.same hsame⟩
    · obtain ⟨-, -, r, e, s, hr, he, hadmitted⟩ := hc.accepted K a hmem ha
      obtain ⟨-, r', hr', hsame⟩ := (hkept K).fresh r hr
      exact ⟨r', e, s, hr', by rw [events_applyAll]; exact List.mem_append_right _ (mem_appended.2 he), hadmitted.same hsame⟩
  · rcases hook_there ws hh with hh | hh
    · exact (hd.hooks k h hh hk).imp fun _ ha => ha.imp_left hmore
    · obtain ⟨hm, a, hmem, ha⟩ := hc.hooks k h hh hk
      exact ⟨a, (mem_decisions ws d).2 (.inr hmem), ha, (hc.accepted _ a hmem ha).1.trans hm.symm⟩
  · cases hold : d.runs.lookup K with
    | some r₀ =>
      obtain ⟨r', hr', hsame⟩ := (hkept K).kept r₀ hold
      cases hr.symm.trans hr'
      obtain ⟨a, hmem, ha, hby⟩ := hd.runs K r₀ hold (by rw [← hsame.startHook]; exact hs)
      exact ⟨a, hmore hmem, ha, hby.trans hsame.createdBy.symm⟩
    | none =>
      obtain ⟨r₀, hmem, hsame⟩ := (hkept K).born r hr hold
      obtain ⟨hm, a, hmem, ha⟩ := hc.runs K r₀ hmem (by rw [← hsame.startHook]; exact hs)
      exact ⟨a, (mem_decisions ws d).2 (.inr hmem), ha, (hc.accepted K a hmem ha).1.trans (hm.symm.trans hsame.createdBy.symm)⟩

end Writes

/-! ## The rules -/

/-- The write is the start Hook row of the candidate, for the token. -/
def Write.claims (D : Deps) (K : RunKey) (token : Token) : Write → Bool
  | .insertHook k h => k = (K.1, D.startHookId K.2) && h.runId = K.2 && h.token = token
  | _ => false

/-- A candidate's run is inserted where no run has its id, and an attempt that wrote the candidate's start Hook row
finds no acceptance of it recorded. -/
def unraced {n : Nat} (D : Deps) (t : Fin n) : Op → State n → Bool
  | .query (.insertRun k r), s => r.startHook.isNone || ((s.view t).runs.lookup k).isNone
  | .query (.selectAdmission K), s => ((s.view t).admissions.lookup K).all fun a =>
      a.decision ≠ .accepted || !(s.pend t).any (Write.claims D K a.token)
  | _, _ => true

abbrev Unraced {n : Nat} (D : Deps) : Fin n → Op → State n → Prop := fun t o s => unraced D t o s = true

/-- The request was admitted by a decision that is committed. -/
def Db.AdmittedBy (d : Db) (m : Nat) (K : RunKey) (a : AdmissionRow) : Prop :=
  (K, a) ∈ d.decisions ∧ a.decision = .accepted ∧ a.decidedBy = m

def admissionRules (n : Nat) (D : Deps) : Rules n where
  data := Whole D
  draft _ ws _ d := RowsKept ws d
  steady t ws := Complete D t ws
  ready t ws := Complete D t ws
  inert w := w.tbl ≠ .run ∧ w.admits D = false
  grows _ _ := True
  spares t d d' := ∀ K a, d'.AdmittedBy t K a → d.AdmittedBy t K a
  effect t d d' := ∃ ws, d' = schema.applyAll ws d ∧ Complete D t ws
  answer _ _ _ _ _ := True
  cond := Unraced D
  recalls := False
  grows_refl _ := trivial
  grows_trans _ _ _ _ _ := trivial
  spares_refl _ _ _ _ h := h
  spares_trans _ _ _ _ h1 h2 K a h := h1 K a (h2 K a h)
  effect_refl _ d := ⟨[], rfl, .of_idle fun _ h => absurd h List.not_mem_nil⟩
  effect_spares t u d d' hu := by
    rintro ⟨ws, rfl, hc⟩ K a ⟨hmem, ha, hby⟩
    rcases (mem_decisions ws d).1 hmem with hmem | hmem
    · exact ⟨hmem, ha, hby⟩
    · exact absurd (Fin.ext (hby.symm.trans (hc.accepted K a hmem ha).1)) hu
  draft_nil _ _ _ := .nil
  draft_inert _ _ _ _ _ _ h hn := h.append_other fun w hw => (hn w hw).1
  steady_nil _ := .of_idle fun _ h => absurd h List.not_mem_nil
  steady_inert _ _ _ h hn := h.append fun w hw => (hn w hw).2
  ready_inert _ _ hn := .of_idle fun w hw => (hn w hw).2
  spares_inert t ws d hn := by
    rintro K a ⟨hmem, ha, hby⟩
    rcases (mem_decisions ws d).1 hmem with hmem | hmem
    · exact ⟨hmem, ha, hby⟩
    · have hidle := (hn _ hmem).2
      simp [Write.admits, ha] at hidle
  publish t ws _ d hd hkept hc := ⟨hd.publish hkept hc, trivial, ws, rfl, hc⟩
  others _ _ _ _ _ _ _ _ _ _ _ h' hks hw hw' := h'.others fun k hk hk' => hks k (hw k hk) (hw' k hk')
  ext d d' hd he := by
    obtain ⟨m, rfl⟩ := he
    exact ⟨⟨hd.recorded, hd.accepted, hd.hooks, hd.runs⟩, trivial, fun _ _ _ h => h⟩
  ext_draft _ ws _ d d' h he := by
    obtain ⟨m, rfl⟩ := he
    intro K
    have hagree := State.agree_applyAll_congr (S := schema) (k := Key.row (.run K)) ws d { d with inFlight := m } rfl
    rw [← show _ = _ from hagree]
    exact h K
  answer_grows _ _ _ _ _ _ h _ := h

namespace Admission

variable {n : Nat} {D : Deps} {t : Fin n} {s s' : State n}

/-- A statement extends any draft; outside a transaction it must write all of an admission by itself. -/
theorem extends_plan (hi : (admissionRules n D).Inv s) (q : Query) (pick : Pick) (takes : List Key)
    (h : s.tx t = none → Complete D t (plan q pick (s.clock t) (s.view t)).writes) :
    (admissionRules n D).Extends t s takes (plan q pick (s.clock t) (s.view t)).writes := by
  refine ⟨?_, h⟩
  have hkept : RowsKept (s.pend t) s.db := hi.draft_pend t
  rw [State.view_eq]
  exact hkept.plan q pick (s.clock t)

theorem extends_idle (hi : (admissionRules n D).Inv s) {q : Query} {pick : Pick}
    (hq : ∀ w ∈ (plan q pick (s.clock t) (s.view t)).writes, w.admits D = false) (takes : List Key) :
    (admissionRules n D).Extends t s takes (plan q pick (s.clock t) (s.view t)).writes :=
  extends_plan hi q pick takes fun _ => .of_idle hq

/-- A statement of no admission. -/
theorem admits_idle {q : Query} (hq : ∀ pick now d, ∀ w ∈ (plan q pick now d).writes, w.admits D = false) :
    (admissionRules n D).Admits t (fun _ => True) (fun _ _ => True) q :=
  fun _ _ _ _ hi hs _ _ _ _ => ⟨extends_idle hi (hq _ _ _) _, Complete.append hs.steady_pend (hq _ _ _), trivial⟩

theorem any_frame : (admissionRules n D).Frame t (fun _ => True) (fun _ _ => True) := TxRules.any_frame fun _ h => h

/-! ## An attempt -/

/-- Beside the complete writes `base`, the transaction holds these writes of an admission, and no others. -/
structure Owing (D : Deps) (base : List Write) (t : Fin n) (must : List Write) (s : State n) : Prop where
  inside : s.nest t ≠ none
  complete : Complete D t base
  pend : ∃ new, s.pend t = base ++ new ∧ (∀ w ∈ new, w.admits D = true → w ∈ must) ∧ ∀ w ∈ must, w ∈ new

variable {base : List Write}

theorem Owing.rely {must : List Write} {R : Rules n} (h : Owing D base t must s) (hr : R.rules.Rely t s s') : Owing D base t must s' :=
  ⟨by rw [TxRules.nest_of_tx hr.keep.tx]; exact h.inside, h.complete, by rw [hr.keep.pend]; exact h.pend⟩

theorem Owing.write {must must' ws : List Write} (h : Owing D base t must s) (takes : List Key)
    (hws : ∀ w ∈ ws, w.admits D = true → w ∈ must') (hsub : must ⊆ must') (hall : ∀ w ∈ must', w ∈ must ∨ w ∈ ws) :
    Owing D base t must' ((s.see t).write t takes ws) := by
  obtain ⟨hin, hbase, new, hp, hnew, hmust⟩ := h
  obtain ⟨x, hx⟩ : ∃ x, s.tx t = some x := Option.ne_none_iff_exists'.1 fun hx => hin (TxRules.nest_none.2 hx)
  refine ⟨by rw [TxRules.write_nest]; exact hin, hbase, new ++ ws, ?_, fun w hw ha => ?_, fun w hw => ?_⟩
  · rw [TxRules.write_pend (s := s.see t) hx, State.see_pend, hp, List.append_assoc]
  · exact (List.mem_append.1 hw).elim (fun hw => hsub (hnew w hw ha)) fun hw => hws w hw ha
  · exact List.mem_append.2 ((hall w hw).imp_left (hmust w))

theorem Owing.idle {must ws : List Write} (h : Owing D base t must s) (takes : List Key) (hws : ∀ w ∈ ws, w.admits D = false) :
    Owing D base t must ((s.see t).write t takes ws) :=
  h.write takes (fun w hw ha => by rw [hws w hw] at ha; cases ha) (List.Subset.refl _) fun _ hw => .inl hw

/-- A transaction that owes nothing. -/
theorem Owing.steady (h : Owing D base t [] s) : Complete D t (s.pend t) := by
  obtain ⟨-, hbase, new, hp, hnew, -⟩ := h
  rw [hp]
  exact hbase.append fun w hw => Bool.eq_false_iff.2 fun ha => absurd (hnew w hw ha) List.not_mem_nil

theorem Owing.of_complete (hin : s.nest t ≠ none) (h : Complete D t (s.pend t)) : Owing D (s.pend t) t [] s :=
  ⟨hin, h, [], (List.append_nil _).symm, fun _ h => absurd h List.not_mem_nil, fun _ h => absurd h List.not_mem_nil⟩

/-- The queries whose failures nothing catches. -/
theorem owes_plan {A : State n → Prop} {must : List Write} (hA : ∀ s, A s → Owing D base t must s)
    (hrely : ∀ s s', A s → (admissionRules n D).Inv s' → (admissionRules n D).rules.Rely t s s' → A s') {q : Query}
    {B : q.Ans → State n → Prop}
    (hraise : ∀ pick now d v, (plan q pick now d).ans = .error v → v ≠ .correlatedEvent ∧ v ≠ .hookTokenClaim)
    (hB : ∀ s pick a, A s → unraced D t (.query q) s = true → (plan q pick (s.clock t) (s.view t)).ans = .ok a →
      B a ((s.see t).write t (plan q pick (s.clock t) (s.view t)).takes (plan q pick (s.clock t) (s.view t)).writes)) :
    (admissionRules n D).Owes t A (sql q) B :=
  owes_sql hrely hraise fun s pick a _ hi ha hc hans _ =>
    ⟨extends_plan hi q pick _ fun hx => absurd (TxRules.nest_none.2 hx) (hA s ha).inside, fun _ => hB s pick a ha hc hans⟩

/-- A statement of no admission. -/
theorem owes_idle {must : List Write} {q : Query}
    (hraise : ∀ pick now d v, (plan q pick now d).ans = .error v → v ≠ .correlatedEvent ∧ v ≠ .hookTokenClaim)
    (hq : ∀ pick now d, ∀ w ∈ (plan q pick now d).writes, w.admits D = false) :
    (admissionRules n D).Owes t (Owing D base t must) (sql q) fun _ => Owing D base t must :=
  owes_plan (fun _ h => h) (fun _ _ h _ hr => h.rely hr) hraise fun _ _ _ h _ _ => h.idle _ (hq _ _ _)

section Attempt

variable {c : Ctx} {h : StartHook}

/-- The start Hook row of an attempt. -/
abbrev claim (c : Ctx) (h : StartHook) : Write := .insertHook (c.tenant, c.deps.startHookId c.runId) (c.startHookRow h)

/-- The acceptance of an attempt, recorded under the clock `now`. -/
abbrev acceptance (c : Ctx) (h : StartHook) (now : Nat) : Write := .insertAdmission c.key ⟨h.token, .accepted, now, c.me⟩

theorem owes_owing_read {must : List Write} {q : Query} (hq : q.reads = true) :
    (admissionRules n D).Owes t (Owing D base t must) (sql q) fun _ => Owing D base t must :=
  owes_read (fun _ _ h _ hr => h.rely hr) (fun _ takes h => h.idle takes fun _ hw => absurd hw List.not_mem_nil) hq

/-- What is recorded is never a fresh acceptance, and where the attempt has claimed the token, no acceptance. -/
theorem owes_recordedDecision (hD : c.deps = D) {must : List Write} :
    (admissionRules n D).Owes t (Owing D base t must) (recordedDecision c h) fun r s => Owing D base t must s ∧
      r ≠ some (.accepted false) ∧ (claim c h ∈ must → r ≠ some (.accepted true)) := by
  subst hD
  refine .bind (B := fun a s => Owing c.deps base t must s ∧
      (claim c h ∈ must → ∀ row : AdmissionRow, a = some row → row.token = h.token → row.decision ≠ .accepted))
    (owes_plan (fun _ h => h) (fun _ _ h _ hr => h.rely hr) (fun _ _ _ _ h => by cases h) fun s pick a hs hc hans => ?_)
    fun existing => ?_
  · cases hans
    refine ⟨hs.idle _ fun _ hw => absurd hw List.not_mem_nil, fun hclaim row hrow htoken hacc => ?_⟩
    obtain ⟨-, -, new, hp, -, hmust⟩ := hs
    have hmine : ¬(s.pend t).any (Write.claims c.deps c.key row.token) = true := by
      have hc := hc
      rw [unraced, hrow, Option.all_some, hacc] at hc
      simpa using hc
    refine hmine (List.any_eq_true.2 ⟨claim c h, by rw [hp]; exact List.mem_append_right _ (hmust _ hclaim), ?_⟩)
    simp [Write.claims, Ctx.key, Ctx.startHookRow, htoken]
  · cases existing with
    | none => exact .pure fun s hs => ⟨hs.1, by simp, by simp⟩
    | some row =>
      show (admissionRules n c.deps).Owes t _ (if _ then throw _ else _) _
      split
      · exact .throw (by rintro (h | h | h) <;> cases h)
      · rename_i htoken
        rw [not_not] at htoken
        cases hd : row.decision with
        | accepted => exact .pure fun s hs => ⟨hs.1, by simp, fun hclaim => absurd hd (hs.2 hclaim row rfl htoken)⟩
        | rejected r => exact .pure fun s hs => ⟨hs.1, by simp, by simp⟩

/-- The acceptance is recorded, or the transaction is undone. -/
theorem owes_recordAcceptance (hD : c.deps = D) :
    (admissionRules n D).Owes t (Owing D base t [claim c h]) (recordDecision c h .accepted) fun r s =>
      r = .accepted false ∧ ∃ now, Owing D base t [claim c h, acceptance c h now] s := by
  refine .bind (B := fun inserted s =>
      if inserted then ∃ now, Owing D base t [claim c h, acceptance c h now] s else Owing D base t [claim c h] s)
    (owes_plan (fun _ h => h) (fun _ _ h _ hr => h.rely hr) (fun pick now d v hv => ?_) fun s pick a hs _ hans => ?_) fun inserted => ?_
  · simp only [plan, insert] at hv
    split at hv <;> cases hv
  · have hw := insert_ans hans
    simp only [plan] at hw ⊢
    rw [hw]
    cases a with
    | false => exact hs.idle _ fun _ hw => absurd hw List.not_mem_nil
    | true =>
      refine ⟨s.clock t, hs.write _ (fun w hw _ => ?_) (List.cons_subset_cons _ (List.nil_subset _)) fun w hw => ?_⟩
      · rw [List.mem_singleton.1 hw]
        exact List.mem_cons_of_mem _ (List.mem_cons_self ..)
      · rcases List.mem_cons.1 hw with rfl | hw
        · exact .inl (List.mem_cons_self ..)
        · exact .inr hw
  · cases inserted with
    | true => exact .pure fun s hs => ⟨rfl, hs⟩
    | false =>
      refine .bind (B := fun r s => Owing D base t [claim c h] s ∧ r ≠ some (.accepted false) ∧ r ≠ some (.accepted true))
        (fun s hs ho => ?_) fun recorded => ?_
      · exact Rules.wp_mono (fun r s hs => ⟨hs.1, hs.2.1, hs.2.2.1, hs.2.2.2 (List.mem_cons_self ..)⟩) (fun _ _ h => h) _ _
          (owes_recordedDecision hD s hs ho)
      · cases recorded with
        | none => exact .throw (by rintro (h | h | h) <;> cases h)
        | some r =>
          show (admissionRules n D).Owes t _ (if _ then throw _ else _) _
          split
          · exact .throw (by rintro (h | h | h) <;> cases h)
          · rename_i hr
            exact .pure fun s hs => absurd ⟨rfl, fun hr => hs.2.2 (congrArg some hr)⟩ hr

/-- A refusal, or what was recorded before it. -/
theorem owes_recordRefusal (hD : c.deps = D) (o : RunId) :
    (admissionRules n D).Owes t (Owing D base t []) (recordDecision c h (.rejected o)) fun r s =>
      r ≠ .accepted false ∧ Owing D base t [] s := by
  refine .bind (owes_idle (fun pick now d v hv => ?_) fun pick now d w hw => ?_) fun inserted => ?_
  · simp only [plan, insert] at hv
    split at hv <;> cases hv
  · obtain ⟨rfl, -⟩ := insert_writes hw
    rfl
  · cases inserted with
    | true => exact .pure fun s hs => ⟨by simp [Decision.decided], hs⟩
    | false =>
      refine .bind (owes_recordedDecision hD) fun recorded => ?_
      cases recorded with
      | none => exact .throw (by rintro (h | h | h) <;> cases h)
      | some r =>
        show (admissionRules n D).Owes t _ (if _ then throw _ else pure r) _
        rw [if_neg (by simp)]
        exact .pure fun s hs => ⟨fun hr => hs.2.1 (congrArg some hr), hs.1⟩

/-- What a decision leaves to the transaction: a fresh acceptance owes the run. -/
def Decided (D : Deps) (base : List Write) (c : Ctx) (h : StartHook) (t : Fin n) (r : StartHookDecision) (s : State n) : Prop :=
  r ≠ .accepted false ∧ Owing D base t [] s ∨ r = .accepted false ∧ ∃ now, Owing D base t [claim c h, acceptance c h now] s

theorem owes_deleteReleasedHooks {must : List Write} (token : Token) :
    (admissionRules n D).Owes t (Owing D base t must) (deleteReleasedHooks c token) fun _ => Owing D base t must := by
  refine .bind (owes_owing_read rfl) fun released => owes_idle (fun _ _ _ v hv => by cases hv) fun pick now d w hw => ?_
  obtain ⟨k, r, rfl, -⟩ := deleteHooksPlan_writes hw
  rfl

theorem owes_deleteExpiredDecisions {must : List Write} :
    (admissionRules n D).Owes t (Owing D base t must) (deleteExpiredDecisions c.deps) fun _ => Owing D base t must := by
  refine TxRules.Owes.clock (fun _ _ h _ hr => h.rely hr) fun now => owes_idle (fun _ _ _ v hv => by cases hv) fun pick now d w hw => ?_
  obtain ⟨k, -, rfl⟩ := List.mem_map.1 hw
  rfl

/-- The claim writes the start Hook row, or nothing. -/
theorem owes_claimStartHook (hD : c.deps = D) : (admissionRules n D).Owes t (Owing D base t []) (claimStartHook c h) fun r s =>
    if r.2 then Owing D base t [claim c h] s else Owing D base t [] s := by
  subst hD
  refine .bind (owes_owing_read rfl) fun owner => ?_
  cases owner with
  | some o => exact .pure fun _ hs => hs
  | none =>
    refine .bind (B := fun won s => if won then Owing c.deps base t [claim c h] s else Owing c.deps base t [] s)
      (owes_plan (fun _ h => h) (fun _ _ h _ hr => h.rely hr) (fun pick now d v hv => ?_) fun s pick a hs _ hans => ?_)
      fun won => .pure fun _ hs => hs
    · simp only [plan, insertHookPlan] at hv
      split at hv
      · cases hv
      · split at hv <;> cases hv
    · have hw : (plan (.insertHook (c.tenant, c.deps.startHookId c.runId) (c.startHookRow h) .doNothing) pick (s.clock t)
          (s.view t)).writes = if a then [claim c h] else [] := insertHookPlan_ans hans
      rw [hw]
      cases a with
      | false => exact hs.idle _ fun _ hw => absurd hw List.not_mem_nil
      | true => exact hs.write _ (fun w hw _ => hw) (List.nil_subset _) fun w hw => .inr hw

theorem owes_refuseCandidate (hD : c.deps = D) (owner : Option RunId) :
    (admissionRules n D).Owes t (Owing D base t []) (refuseCandidate c h owner) fun r s =>
      r ≠ .accepted false ∧ Owing D base t [] s := by
  refine .bind (owes_recordedDecision hD) fun raced => ?_
  cases raced with
  | some r => exact .pure fun s hs => ⟨fun hr => hs.2.1 (congrArg some hr), hs.1⟩
  | none =>
    have hfound : (admissionRules n D).Owes t (Owing D base t []) (conflictingRun c h owner) fun _ => Owing D base t [] := by
      cases owner with
      | some o => exact .pure fun _ hs => hs
      | none => exact owes_owing_read rfl
    intro s hs ho
    refine TxRules.Owes.bind hfound (fun conflicting => ?_) s hs ho.1
    cases conflicting with
    | none => exact .throw (by rintro (h | h | h) <;> cases h)
    | some o => exact owes_recordRefusal hD o

theorem owes_admitCandidate (hD : c.deps = D) :
    (admissionRules n D).Owes t (Owing D base t []) (admitCandidate c h) (Decided D base c h t) := by
  refine .bind owes_deleteExpiredDecisions fun _ => .bind (owes_deleteReleasedHooks _) fun _ =>
    .bind (owes_claimStartHook hD) fun claimed => ?_
  obtain ⟨owner, won⟩ := claimed
  cases won with
  | true => exact fun s hs ho => Rules.wp_mono (fun _ _ h => h.imp_right .inr) (fun _ _ h => h) _ _ (owes_recordAcceptance hD s hs ho)
  | false => exact fun s hs ho => Rules.wp_mono (fun _ _ h => h.imp_right .inl) (fun _ _ h => h) _ _ (owes_refuseCandidate hD owner s hs ho)

theorem owes_decideStartHookAdmission (hD : c.deps = D) :
    (admissionRules n D).Owes t (Owing D base t []) (decideStartHookAdmission c h) (Decided D base c h t) := by
  refine .bind (owes_recordedDecision hD) fun recorded => ?_
  cases recorded with
  | some r => exact .pure fun s hs => .inl ⟨fun hr => hs.2.1 (congrArg some hr), hs.1⟩
  | none =>
    refine TxRules.Owes.clock (fun _ _ h _ hr => ⟨h.1.rely hr, h.2⟩) fun now => ?_
    show (admissionRules n D).Owes t _ (ite _ _ _) _
    split
    · exact .throw (by rintro (h | h | h) <;> cases h)
    · refine .bind (B := fun _ => Owing D base t []) (fun s hs ho => owes_owing_read rfl s hs ho.1) fun run => ?_
      split
      · exact .pure fun s hs => .inl ⟨by simp, hs⟩
      · exact owes_admitCandidate hD

/-- The run and its first event make the admission whole. -/
theorem complete_of_admitted (hD : c.deps = D) (hme : c.me = t) {i : RunInput} (hi : i.startHook = some h) {now at' : Nat}
    (hs : Owing D base t [claim c h, acceptance c h now, .insertRun c.key (i.row c), .appendEvent c.key ((i.firstEvent c).row at')] s) :
    Complete D t (s.pend t) := by
  subst hD
  obtain ⟨-, hbase, new, hp, hnew, hmust⟩ := hs
  simp only [List.forall_mem_cons, List.not_mem_nil, false_implies, implies_true, and_true] at hmust
  obtain ⟨hclaim, haccept, hrun, hevent⟩ := hmust
  have hpart : ∀ {w : Write}, w ∈ new → w.admits c.deps = true →
      w = claim c h ∨ w = acceptance c h now ∨ w = .insertRun c.key (i.row c) := by
    intro w hw ha
    have hmem := hnew w hw ha
    simp only [List.mem_cons, List.not_mem_nil, or_false] at hmem
    rcases hmem with rfl | rfl | rfl | rfl
    · exact .inl rfl
    · exact .inr (.inl rfl)
    · exact .inr (.inr rfl)
    · cases ha
  rw [hp]
  refine hbase.concat ⟨fun K a hw ha => ?_, fun k r hw hk => ?_, fun K r hw hr => ?_⟩
  · rcases hpart hw (by simp [Write.admits, ha]) with h | h | h <;> cases h
    refine ⟨hme, ⟨_, hclaim, rfl, rfl⟩, i.row c, _, c.deps.admittedStartHook c.runId h, hrun, hevent, ?_⟩
    have hdata : ((i.firstEvent c).row at').data =
        .runCreated i.deploymentId i.workflowName i.attributes (some (c.deps.admittedStartHook c.runId h)) := by
      simp [RunInput.firstEvent, EventInsert.row, RunInput.created, hi]
    exact ⟨rfl, by simp [RunInput.row, hi], rfl, rfl, rfl, rfl, rfl, _, _, _, hdata⟩
  · rcases hpart hw (by simp [Write.admits, hk]) with h | h | h <;> cases h
    exact ⟨hme, _, haccept, rfl⟩
  · rcases hpart hw hr with h | h | h <;> cases h
    exact ⟨hme, _, haccept, rfl⟩

theorem owes_insertRunRow (hD : c.deps = D) (hme : c.me = t) {i : RunInput} (hi : i.startHook = some h) {now : Nat} :
    (admissionRules n D).Owes t (Owing D base t [claim c h, acceptance c h now]) (insertRunRow c (i.row c) (i.created c)) fun _ s =>
      s.nest t ≠ none ∧ Complete D t (s.pend t) := by
  refine .bind (B := fun inserted s => inserted = true ∧ Owing D base t [claim c h, acceptance c h now, .insertRun c.key (i.row c)] s)
    (owes_plan (fun _ h => h) (fun _ _ h _ hr => h.rely hr) (fun pick now d v hv => ?_) fun s pick a hs hc hans => ?_) fun inserted => ?_
  · simp only [plan, insert] at hv
    split at hv <;> cases hv
  · -- no run has the id
    have hfree : (s.view t).runs.lookup c.key = none := by
      simpa [unraced, RunInput.row, hi] using hc
    have hw : (plan (.insertRun c.key (i.row c)) pick (s.clock t) (s.view t)).writes = [.insertRun c.key (i.row c)] := by
      simp only [plan, hfree, insert]
    have hyes : a = true := by
      simp only [plan, hfree, insert] at hans
      exact (Except.ok.inj hans).symm
    rw [hw]
    refine ⟨hyes, hs.write _ (fun w hw _ => ?_) (fun w hw => ?_) fun w hw => ?_⟩
    · rw [List.mem_singleton.1 hw]
      simp
    · exact List.mem_append_left [.insertRun c.key (i.row c)] hw
    · exact List.mem_append.1 (show w ∈ [claim c h, acceptance c h now] ++ [.insertRun c.key (i.row c)] from hw)
  · cases inserted with
    | false => exact .pure fun s hs => absurd hs.1 (by simp)
    | true =>
      refine .bind (B := fun _ => Owing D base t [claim c h, acceptance c h now, .insertRun c.key (i.row c)]) (fun s hs ho =>
        owes_idle (fun pick now d v hv => ?_) (fun pick now d w hw => ?_) s hs ho.2) fun _ => ?_
      · simp only [plan] at hv
        split at hv <;> cases hv
      · rcases plan_slots hw (by
          have := plan_tbl hw
          exact (Option.some.inj this).symm) with ⟨_, -, rfl, -⟩ | ⟨_, _, h, -⟩
        · rfl
        · cases h
      · refine .bind (B := fun _ s => ∃ at', Owing D base t [claim c h, acceptance c h now, .insertRun c.key (i.row c),
            .appendEvent c.key ((i.firstEvent c).row at')] s)
          (owes_plan (fun _ h => h) (fun _ _ h _ hr => h.rely hr) (fun pick now d v hv => ?_) fun s pick a hs _ hans => ?_)
          fun _ => .pure fun s hs => by
            obtain ⟨at', hs⟩ := hs
            exact ⟨hs.inside, complete_of_admitted hD hme hi hs⟩
        · rw [(insertEventPlan_raise rfl).2 v hv]
          exact ⟨by decide, by decide⟩
        · have hw : (plan (.insertEvent c.key (i.firstEvent c) .raise) pick (s.clock t) (s.view t)).writes =
              [.appendEvent c.key ((i.firstEvent c).row (s.clock t))] := (insertEventPlan_raise rfl).1 a hans
          refine ⟨s.clock t, ?_⟩
          show Owing D base t _ ((s.see t).write t _ (plan (.insertEvent c.key (i.firstEvent c) .raise) pick (s.clock t) (s.view t)).writes)
          rw [hw]
          refine hs.write _ (fun w hw ha => ?_) (fun w hw => ?_) fun w hw => ?_
          · rw [List.mem_singleton.1 hw] at ha
            cases ha
          · exact List.mem_append_left [.appendEvent c.key ((i.firstEvent c).row (s.clock t))] hw
          · exact List.mem_append.1 (show w ∈ [claim c h, acceptance c h now, .insertRun c.key (i.row c)] ++
              [.appendEvent c.key ((i.firstEvent c).row (s.clock t))] from hw)

/-- A candidate's transaction holds all of its admission, or nothing of it; what it answers is that it was freshly
accepted, or it holds nothing. -/
theorem owes_insertAdmittedRun (hD : c.deps = D) (hme : c.me = t) {i : RunInput} (hi : i.startHook = some h) :
    (admissionRules n D).Owes t (Owing D base t []) (insertAdmittedRun c (i.row c) (i.created c) (some h)) fun r s =>
      Complete D t (s.pend t) ∧ (r.2 ≠ some (.accepted false) → Owing D base t [] s) := by
  refine .bind (owes_decideStartHookAdmission hD) fun decision => ?_
  split
  · rename_i hacc
    intro s hs ho
    obtain ⟨now, ho⟩ := (ho.resolve_left fun ho => ho.1 hacc).2
    refine TxRules.Owes.bind (owes_insertRunRow hD hme hi) (fun created => .pure fun s hs => ⟨hs.2, fun hne => ?_⟩) s hs ho
    exact absurd (congrArg some hacc) hne
  · rename_i hno
    exact .pure fun s hs => ⟨(hs.resolve_right fun h => hno h.1).2.steady, fun _ => (hs.resolve_right fun h => hno h.1).2⟩

/-- The transaction of a new run. -/
theorem runs_creates (hD : c.deps = D) (hme : c.me = t) {α : Type} {p : P α} (hp : Creates c α p) :
    (admissionRules n D).Runs t (fun _ => True) (fun _ _ => True) p := by
  obtain ⟨i⟩ := hp
  cases hi : i.startHook with
  | none =>
    refine .transaction any_frame any_frame (fun _ _ => trivial) (.of_built any_frame (P := CreationStmt c i) (B := NoBlock)
      (fun q hq => admits_idle fun pick now d w hw => ?_) (fun _ h => h.elim) (fun _ _ h => h.elim)
      (.bind (built_insertRunRow i) fun _ => .pure _))
    rcases hq with rfl | rfl | rfl
    · obtain ⟨rfl, -⟩ := insert_writes hw
      simp [Write.admits, RunInput.row, hi]
    · have htbl := plan_tbl hw
      cases w <;> first | rfl | cases htbl
    · obtain ⟨rfl, -⟩ := insertEventPlan_writes hw
      rfl
  | some h =>
    intro s hs _
    have hbody : (admissionRules n D).Gives t (fun s => s.nest t ≠ none ∧ Complete D t (s.pend t)) (fun _ _ => True)
        (insertAdmittedRun c (i.row c) (i.created c) (some h)) fun _ s => Complete D t (s.pend t) := by
      intro s hs ho
      have howes : (admissionRules n D).Owes t (Owing D (s.pend t) t []) (insertAdmittedRun c (i.row c) (i.created c) (some h))
          fun _ s => Complete D t (s.pend t) := fun s₁ hs₁ ho₁ =>
        Rules.wp_mono (fun _ _ h => ⟨h.1, h.2.1⟩) (fun _ _ h => h) _ _ (owes_insertAdmittedRun hD hme hi s₁ hs₁ ho₁)
      exact howes.gives (fun _ _ h => h) s hs (.of_complete ho.1 ho.2)
    have hbegin : ∀ s s₁ : State n, Complete D t (s.pend t) → (admissionRules n D).Inv s₁ → (admissionRules n D).rules.Rely t s s₁ →
        (s₁.beginTx t).nest t ≠ none ∧ Complete D t ((s₁.beginTx t).pend t) := by
      intro s s₁ ha _ hr
      obtain ⟨-, -, -, hp, -⟩ := TxRules.beginTx_tx s₁ t
      rw [hp, hr.keep.pend]
      exact ⟨by rw [TxRules.beginTx_nest]; simp, ha⟩
    have hgives : (admissionRules n D).Gives t (fun s => Complete D t (s.pend t)) (fun _ _ => True)
        (insertRunWithCreatedEvent c (i.row c) (i.created c) (some h)) fun _ _ => True :=
      .transaction any_frame any_frame (fun _ _ => trivial) (fun _ _ => trivial) hbegin (fun _ _ _ _ _ _ _ _ _ => trivial) hbody
    exact hgives.runs s hs hs.steady_pend

end Attempt

/-- Statements of no admission. -/
def Admitless (D : Deps) : Op → Prop
  | .query q => ∀ pick now d, ∀ w ∈ (plan q pick now d).writes, w.admits D = false
  | _ => True

/-- A request without a start Hook, and no hook of a start Hook's id, has no admission. -/
theorem admitless_issued {c : Ctx} {e : EventReq} {l : Bool} (hD : c.deps = D) (he : e.startHook = none)
    (hid : ∀ q, e.hookCreation = some q → c.deps.isStartHookId c.runId q.hook = false) {o : Op} (ho : Issued c e l o) : Admitless D o := by
  cases o with
  | query q =>
    intro pick now d w hw
    cases w with
    | insertRun k r =>
      rcases plan_run hw rfl with ⟨_, _, rfl, h, -⟩ | ⟨_, _, _, h, -⟩ <;> cases h
      obtain h | h | ⟨i, hi, -, rfl⟩ := ho
      · cases h
      · exact h.elim
      · have hnone : i.startHook = none := by rw [← EventReq.startHook_eq hi, he]
        simp [Write.admits, RunInput.row, hnone]
    | insertHook k r =>
      rcases plan_hook hw rfl with ⟨_, _, _, rfl, h, -⟩ | ⟨_, _, h, -⟩ <;> cases h
      obtain h | h | h := ho
      · cases h
      · obtain ⟨hook, hhook, -⟩ | ⟨q, source, hq, rfl, rfl⟩ := h
        · rw [he] at hhook
          cases hhook
        · subst hD
          exact hid q hq
      · exact h.elim
    | insertAdmission k a =>
      have hq := plan_tbl hw
      cases q with
      | insertAdmission =>
        obtain h | ⟨-, -, hook, hhook, -⟩ | h := ho
        · cases h
        · rw [he] at hhook
          cases hhook
        · exact h.elim
      | deleteExpiredDecisions =>
        obtain ⟨_, -, h⟩ := List.mem_map.1 hw
        cases h
      | _ => cases hq
    | _ => rfl
  | _ => trivial

/-! ## An attempt that is not admitted -/

/-- Session `t` is in a transaction and has committed no acceptance. -/
def Unadmitted (t : Fin n) (s : State n) : Prop := s.nest t ≠ none ∧ ∀ K a, ¬s.db.AdmittedBy t K a

theorem Unadmitted.rely (h : Unadmitted t s) (hr : (admissionRules n D).rules.Rely t s s') : Unadmitted t s' :=
  ⟨by rw [TxRules.nest_of_tx hr.keep.tx]; exact h.1, fun K a ha => h.2 K a (hr.spares K a ha)⟩

/-- Statements inside a transaction commit nothing, also where they fail. -/
theorem wp_unadmitted {α : Type} {prog : P α} (hp : prog.All (Op.Plain fun _ => True)) (hs : Unadmitted t s) :
    (admissionRules n D).rules.wp t prog (fun _ => Unadmitted t) (fun _ => Unadmitted t) s := by
  refine Rules.wp_all (fun _ _ h hr => h.rely hr) (fun o s ch r s' ho hb hi hs _ he => ?_) hp s hs
  have hi : (admissionRules n D).Inv s := hi
  cases o with
  | query q =>
    rcases State.runQuery_cases he with ⟨e, -, hf, -⟩ | ⟨a, -, -, -, hbl, rfl⟩
    · obtain ⟨h1, h2⟩ := TxRules.Failed.inv hi hf
      obtain ⟨-, -, -, hn⟩ := TxRules.Failed.same hf
      exact ⟨TxRules.ok_of_db h2 h1, by rw [hn]; exact hs.1, by rw [h2]; exact hs.2⟩
    · obtain ⟨x, hx⟩ : ∃ x, s.tx t = some x := Option.ne_none_iff_exists'.1 fun hx => hs.1 (TxRules.nest_none.2 hx)
      have hext := extends_plan hi q ch.pick (plan q ch.pick (s.clock t) (s.view t)).takes fun hx' => by rw [hx] at hx'; cases hx'
      have hfree : (s.see t).Free t ((plan q ch.pick (s.clock t) (s.view t)).takes ++
          schema.touchesAll (plan q ch.pick (s.clock t) (s.view t)).writes) :=
        fun u hu k hk => State.blocked_eq_false hbl hu k (List.mem_append_right _ hk)
      refine ⟨TxRules.ok_write (TxRules.Inv.see hi) (hb.of_tx rfl) hfree hext, ?_, ?_⟩
      · rw [TxRules.write_nest]
        exact hs.1
      · rw [TxRules.write_db (s := s.see t) hx]
        exact hs.2
  | clock => cases he; exact ⟨TxRules.ok_of_db rfl hi, hs⟩
  | load => cases he; exact ⟨TxRules.ok_of_db rfl hi, hs⟩
  | store m => cases he; exact ⟨TxRules.ok_of_db rfl (TxRules.Inv.of_eq hi rfl rfl rfl), hs⟩
  | _ => exact ho.elim

theorem plain_insertAdmittedRun {c : Ctx} {i : RunInput} {h : StartHook} :
    (insertAdmittedRun c (i.row c) (i.created c) (some h)).All (Op.Plain fun _ => True) := by
  have hrows : (insertRunRow c (i.row c) (i.created c)).All (Op.Plain fun _ => True) :=
    .bind (plain_statement _ trivial) fun _ => .ite (.bind (plain_statement _ trivial) fun _ =>
      .bind (plain_statement _ trivial) fun _ => trivial) trivial
  have hdecide : (decideStartHookAdmission c h).All (Op.Plain fun _ => True) :=
    plain_decideStartHookAdmission (fun _ => trivial) trivial (fun _ => trivial) (fun _ => trivial) fun _ => trivial
  exact .bind hdecide fun _ => .ite (.bind hrows fun _ => trivial) trivial

/-- Of the session's own, nothing of an admission is committed or pending. -/
def Nothing (D : Deps) (t : Fin n) (s : State n) : Prop := (∀ w ∈ s.pend t, w.admits D = false) ∧ ∀ K a, ¬s.db.AdmittedBy t K a

/-- Of a request's own, nothing of an admission is in the database, nor pending. -/
structure LeavesNothing (D : Deps) (t : Fin n) (s : State n) : Prop where
  pend : ∀ w ∈ s.pend t, w.admits D = false
  decisions : ∀ K a, ¬s.db.AdmittedBy t K a
  hooks : ∀ k h, s.db.hooks.lookup k = some h → k.2 = D.startHookId h.runId → h.createdBy ≠ t
  runs : ∀ K r, s.db.runs.lookup K = some r → r.startHook.isSome = true → r.createdBy ≠ t

theorem LeavesNothing.of_whole (hd : Whole D s.db) (h : Nothing D t s) : LeavesNothing D t s := by
  obtain ⟨hp, hno⟩ := h
  refine ⟨hp, hno, fun k h hh hk hby => ?_, fun K r hr hs hby => ?_⟩
  · obtain ⟨a, hmem, ha, hab⟩ := hd.hooks k h hh hk
    exact hno _ a ⟨hmem, ha, hab.trans hby⟩
  · obtain ⟨a, hmem, ha, hab⟩ := hd.runs K r hr hs
    exact hno _ a ⟨hmem, ha, hab.trans hby⟩

/-- A session that has nothing pending could commit. -/
theorem sound_of_empty (hb : Schema.State.Base s) (hp : s.pend t = []) : (admissionRules n D).Sound t s := by
  intro m hm
  cases hx : s.tx t with
  | none => rw [TxRules.marks_none hx] at hm; cases hm
  | some x =>
    rw [State.pend_of_tx hx] at hp
    have hw : m.writes = [] := by
      rcases (TxRules.mem_marks hx).1 hm with rfl | hm
      · exact hp
      · exact List.prefix_nil.1 (hp ▸ ((hb.txOk t x hx).saves m hm).2.1)
    rw [hw]
    exact (admissionRules n D).steady_nil t

/-- Session `t` is in a transaction that it began with nothing pending. -/
def FromNothing (D : Deps) (t : Fin n) (s : State n) : Prop :=
  ∃ s₁ : State n, s₁.pend t = [] ∧ (admissionRules n D).Went t (s₁.beginTx t) s

theorem FromNothing.rely (h : FromNothing D t s) (hr : (admissionRules n D).rules.Rely t s s') : FromNothing D t s' := by
  obtain ⟨s₁, hp, hw⟩ := h
  exact ⟨s₁, hp, hw.trans (TxRules.Still.of_rely hr).went⟩

theorem FromNothing.commitTx (h : FromNothing D t s) (hs : Nothing D t s) : Nothing D t (s.commitTx t) := by
  obtain ⟨s₁, -, hw⟩ := h
  cases hx : s₁.tx t with
  | none =>
    have hout : (s.commitTx t).pend t = [] := by
      have htx : (s.commitTx t).tx t = none := by rw [← TxRules.nest_none, TxRules.commitTx_nest hw.nest, TxRules.nest_none, hx]
      unfold State.pend
      rw [htx]
    refine ⟨by rw [hout]; exact fun _ hw => absurd hw List.not_mem_nil, ?_⟩
    rcases TxRules.commitTx_outer hx hw.nest with hc | hc
    · rw [hc]
      exact hs.2
    · rw [hc]
      rintro K a ⟨hmem, ha, hby⟩
      rcases (mem_decisions (s.pend t) s.db).1 hmem with hmem | hmem
      · exact hs.2 K a ⟨hmem, ha, hby⟩
      · have hidle := hs.1 _ hmem
        simp [Write.admits, ha] at hidle
  | some x =>
    obtain ⟨x', hx', hc, -⟩ := TxRules.commitTx_inner hx hw.nest
    have hpc : (s.commitTx t).pend t = s.pend t := by
      rw [hc]
      unfold State.pend
      rw [State.setTx_tx_self, hx']
    unfold Nothing
    rw [hpc, hc]
    exact hs

theorem FromNothing.rollbackTx (h : FromNothing D t s) (hno : ∀ K a, ¬s.db.AdmittedBy t K a) : Nothing D t (s.rollbackTx t) := by
  obtain ⟨s₁, hp, hw⟩ := h
  have hback : (s.rollbackTx t).pend t = [] := by
    have htx := TxRules.rollbackTx_tx hw.nest
    unfold State.pend at hp ⊢
    rw [htx]
    exact hp
  refine ⟨by rw [hback]; exact fun _ hw => absurd hw List.not_mem_nil, ?_⟩
  rw [TxRules.rollbackTx_db]
  exact hno

/-- A candidate's transaction that is not a fresh acceptance leaves nothing, and no more does one that fails. -/
theorem wp_candidate {c : Ctx} {i : RunInput} {h : StartHook} (hD : c.deps = D) (hme : c.me = t) (hi : i.startHook = some h)
    (hp : s.pend t = []) (hno : ∀ K a, ¬s.db.AdmittedBy t K a) :
    (admissionRules n D).rules.wp t (insertRunWithCreatedEvent c (i.row c) (i.created c) (some h))
      (fun r s => r.2 ≠ some (.accepted false) → Nothing D t s) (fun _ => Nothing D t) s := by
  refine TxRules.wp_transaction (S := schema) s (fun s₁ hb₁ hi₁ hr₁ => ?_)
    (U := fun r s₂ => FromNothing D t s₂ ∧ (∀ K a, ¬s₂.db.AdmittedBy t K a) ∧ (r.2 ≠ some (.accepted false) → Nothing D t s₂))
    (V := fun _ s₂ => FromNothing D t s₂ ∧ ∀ K a, ¬s₂.db.AdmittedBy t K a)
    (fun r s₂ s₃ hu _ _ hr₃ hne => ?_) fun e s₂ s₃ hv _ _ hr₃ => ?_
  · have hp₁ : s₁.pend t = [] := by rw [hr₁.keep.pend]; exact hp
    have hpb : (s₁.beginTx t).pend t = [] := by
      obtain ⟨-, -, -, hpb, -⟩ := TxRules.beginTx_tx s₁ t
      exact hpb.trans hp₁
    have hin : (s₁.beginTx t).nest t ≠ none := by rw [TxRules.beginTx_nest]; simp
    have howing : Owing D [] t [] (s₁.beginTx t) :=
      ⟨hin, .of_idle fun _ h => absurd h List.not_mem_nil, [], hpb, fun _ h => absurd h List.not_mem_nil,
        fun _ h => absurd h List.not_mem_nil⟩
    have hun : Unadmitted t (s₁.beginTx t) :=
      ⟨hin, by rw [TxRules.beginTx_db]; exact fun K a ha => hno K a (hr₁.spares K a ha)⟩
    have hbody := Rules.wp_and (owes_insertAdmittedRun hD hme hi (s₁.beginTx t) (sound_of_empty hb₁ hp₁).beginTx.below howing)
      (wp_unadmitted plain_insertAdmittedRun hun)
    refine Rules.wp_mono (fun r s₂ h => ⟨fun _ _ => h.1.2.1, ⟨s₁, hp₁, h.1.1⟩, h.2.2, fun hne => ⟨?_, h.2.2⟩⟩)
      (fun _ s₂ h => ⟨⟨s₁, hp₁, h.1.1⟩, h.2.2⟩) _ _ hbody
    obtain ⟨-, -, new, hpend, hnew, -⟩ := h.1.2.2 hne
    rw [hpend]
    exact fun w hw => Bool.eq_false_iff.2 fun ha => absurd (hnew w hw ha) List.not_mem_nil
  · obtain ⟨hfrom, -, hs⟩ := hu
    obtain ⟨hpend, hno₂⟩ := hs hne
    exact (hfrom.rely hr₃).commitTx ⟨by rw [hr₃.keep.pend]; exact hpend, fun K a ha => hno₂ K a (hr₃.spares K a ha)⟩
  · exact (hv.1.rely hr₃).rollbackTx fun K a ha => hv.2 K a (hr₃.spares K a ha)

end Admission

open Admission

/-- In every run in which a candidate's run is inserted only where no run has its id, and an attempt that wrote the
candidate's start Hook row finds no acceptance of it: an acceptance is there only with its run, and a start Hook row
and a run with a start Hook only with their acceptance, in every state; each commit holds all of an admission or
nothing of it; and a candidate's transaction that answers anything but a fresh acceptance leaves nothing of one. -/
theorem admission_all_or_nothing {n : Nat} {D : Deps} {requests : Fin n → CreateReq} {d : Db} {now : Nat} (hd : Whole D d)
    {C : Configuration n} (h : Reaches (World n) (Unraced D) (initial D requests d now) C) :
    Whole D C.st.db ∧
    (∀ (t : Fin n) C', Step (World n) (Unraced D) (some t) C C' → ∃ ws, C'.st.db = schema.applyAll ws C.st.db ∧ Complete D t ws) ∧
    ∀ (t : Fin n) (c : Ctx) (i : RunInput) (hook : StartHook), c.deps = D → c.me = t → i.startHook = some hook → C.st.pend t = [] →
      (∀ K a, ¬C.st.db.AdmittedBy t K a) → ∀ C' x,
        Called (World n) (Unraced D) t C (insertRunWithCreatedEvent c (i.row c) (i.created c) (some hook)) C' x →
        (∀ created, x ≠ .ok (created, some (.accepted false))) → LeavesNothing D t C'.st := by
  have hsafe : (admissionRules n D).rules.Safe (initial D requests d now) := by
    refine safe_of_runs hd (fun _ _ _ _ _ => trivial) (fun _ => any_frame) (fun _ _ _ => trivial) (fun _ _ _ => trivial) fun t c hc => ?_
    refine .of_built any_frame (P := Admitless D) (B := Creates c) (fun q hq => admits_idle hq) (fun _ _ _ _ => trivial)
      (fun α p hp => runs_creates hc.deps hc.me hp) (built_createOnRun_creates (fun hq pick now d w hw => (plan_reads hq hw).elim) _ ?_)
    exact fun e o he hid ho => admitless_issued hc.deps he hid ho
  obtain ⟨hC, -⟩ := hsafe.reaches TxRules.tolerates h
  refine ⟨hC.inv.data, fun t C' hs => ?_, fun t c i hook hD hme hi hp hno C' x hcall hx => ?_⟩
  · obtain ⟨-, -, hg⟩ := hC.step TxRules.tolerates hs
    exact hg t rfl
  · have hkeep : ∀ s s', Nothing D t s → (admissionRules n D).rules.Rely t s s' → Nothing D t s' :=
      fun s s' hs hr => ⟨by rw [hr.keep.pend]; exact hs.1, fun K a ha => hs.2 K a (hr.spares K a ha)⟩
    have hanswer : ∀ (r : Option (RunRow × EventId) × Option StartHookDecision) s s', (r.2 ≠ some (.accepted false) → Nothing D t s) →
        (admissionRules n D).rules.Rely t s s' → r.2 ≠ some (.accepted false) → Nothing D t s' :=
      fun r s s' hs hr hne => hkeep s s' (hs hne) hr
    obtain ⟨hinv, hok, herr⟩ := (Rules.SafeBut.of_safe hC).called TxRules.tolerates hanswer (fun _ => hkeep)
      (wp_candidate hD hme hi hp hno) hcall
    refine .of_whole hinv.data ?_
    cases x with
    | ok r => exact hok r rfl fun hr => hx r.1 (by rw [← hr])
    | error e => exact herr e rfl

/-- A candidate, and an ordinary creation of the same run id. -/
def candidateAndOrdinary : Fin 2 → CreateReq
  | 0 => { tenant := "t", runId := some "r", event := .runCreated (asking "k") }
  | 1 => { tenant := "t", runId := some "r", event := .runCreated { deploymentId := "d", workflowName := "w" } }

theorem empty_whole (D : Deps) : Whole D Db.empty :=
  ⟨fun _ _ h => (by cases h), fun _ _ h => absurd h List.not_mem_nil, fun _ _ h => (by cases h), fun _ _ h => (by cases h)⟩

/-- The candidate is admitted, and the ordinary creation finds its run. -/
theorem admission_all_or_nothing_r : ∃ C : Configuration 2,
    Reaches (World 2) (Unraced defaultDeps) (initial defaultDeps candidateAndOrdinary Db.empty 0) C ∧
    (C.st.db.hooks.lookup ("t", "hook_r")).map (·.runId) = some "r" ∧ Whole defaultDeps C.st.db ∧
    ∃ a r e s, C.st.db.admissions.lookup ("t", "r") = some a ∧ C.st.db.runs.lookup ("t", "r") = some r ∧
      e ∈ C.st.db.events ("t", "r") ∧ AdmittedRun defaultDeps ("t", "r") a r e s := by
  obtain ⟨C, hC, h⟩ := Sessions.exists_of_play (c := Unraced defaultDeps) (fun _ _ _ h => h)
    (P := fun C : Configuration 2 => decide ((C.st.db.admissions.lookup ("t", "r")).map (·.decision) = some .accepted ∧
      (C.st.db.hooks.lookup ("t", "hook_r")).map (·.runId) = some "r"))
    (show (Sessions.play (unraced defaultDeps) [go 0, go 1] (initial defaultDeps candidateAndOrdinary Db.empty 0)).any _ = true by
      decide +kernel)
  obtain ⟨haccepted, hhook⟩ := of_decide_eq_true h
  have hwhole := (admission_all_or_nothing (empty_whole _) hC).1
  obtain ⟨a, ha, hacc⟩ := Option.map_eq_some_iff.1 haccepted
  obtain ⟨r, e, s, hr, he, hadmitted⟩ := hwhole.accepted _ a (hwhole.recorded _ a ha) hacc
  exact ⟨C, hC, hhook, hwhole, a, r, e, s, ha, hr, he, hadmitted⟩

/-- The ordinary creation commits between the candidate's look for the run and its insert: the candidate is recorded as
accepted and its start Hook row is written, for a run without a start Hook. -/
theorem admission_without_run : ∃ C : Configuration 2,
    Reaches (World 2) Anything (initial defaultDeps candidateAndOrdinary Db.empty 0) C ∧
    (C.st.db.admissions.lookup ("t", "r")).map (·.decision) = some .accepted ∧
    (C.st.db.hooks.lookup ("t", "hook_r")).map (·.runId) = some "r" ∧
    (C.st.db.runs.lookup ("t", "r")).map (·.startHook) = some none ∧ ¬Whole defaultDeps C.st.db := by
  obtain ⟨C, hC, h⟩ := Sessions.exists_of_play (c := Anything) (fun _ _ _ _ => trivial)
    (P := fun C : Configuration 2 => decide ((C.st.db.admissions.lookup ("t", "r")).map (·.decision) = some .accepted ∧
      (C.st.db.hooks.lookup ("t", "hook_r")).map (·.runId) = some "r" ∧ (C.st.db.runs.lookup ("t", "r")).map (·.startHook) = some none))
    (show (Sessions.play (fun _ _ _ => true) [goFor 0 6, go 1, go 0]
      (initial defaultDeps candidateAndOrdinary Db.empty 0)).any _ = true by decide +kernel)
  obtain ⟨haccepted, hhook, hrun⟩ := of_decide_eq_true h
  refine ⟨C, hC, haccepted, hhook, hrun, fun hw => ?_⟩
  obtain ⟨a, ha, hacc⟩ := Option.map_eq_some_iff.1 haccepted
  obtain ⟨r, e, s, hr, he, hadmitted⟩ := hw.accepted _ a (hw.recorded _ a ha) hacc
  rw [hr, Option.map_some, hadmitted.startHook] at hrun
  cases hrun

/-- Two copies of a candidate, and the end of its run. -/
def twoCopies : Fin 3 → CreateReq
  | 2 => { tenant := "t", runId := some "r", event := .runCompleted }
  | _ => { tenant := "t", runId := some "r", event := .runCreated (asking "k") }

/-- The run that the first copy created ends before the second copy, which found no run, claims the token: the second
is answered the first one's acceptance, and its start Hook row is committed for the run that ended. -/
theorem late_copy_claims_again : ∃ C : Configuration 3,
    Reaches (World 3) Anything (initial defaultDeps twoCopies Db.empty 0) C ∧
    (C.st.db.runs.lookup ("t", "r")).map (·.status) = some .completed ∧
    (C.st.db.hooks.lookup ("t", "hook_r")).map (·.createdBy) = some 1 ∧ ¬Whole defaultDeps C.st.db := by
  obtain ⟨C, hC, h⟩ := Sessions.exists_of_play (c := Anything) (fun _ _ _ _ => trivial)
    (P := fun C : Configuration 3 => decide ((C.st.db.runs.lookup ("t", "r")).map (·.status) = some .completed ∧
      (C.st.db.hooks.lookup ("t", "hook_r")).map (fun h => (h.createdBy, h.runId)) = some (1, "r") ∧
      C.st.db.decisions.map (fun p => p.2.decidedBy) = [0]))
    (show (Sessions.play (fun _ _ _ => true) [goFor 1 6, go 0, go 2, go 1]
      (initial defaultDeps twoCopies Db.empty 0)).any _ = true by decide +kernel)
  obtain ⟨hrun, hhook, hby⟩ := of_decide_eq_true h
  obtain ⟨row, hrow, hmade⟩ := Option.map_eq_some_iff.1 hhook
  obtain ⟨hcreated, hid⟩ := Prod.ext_iff.1 hmade
  refine ⟨C, hC, hrun, by rw [hrow, Option.map_some, show row.createdBy = 1 from hcreated], fun hw => ?_⟩
  obtain ⟨a, hmem, -, hab⟩ := hw.hooks _ row hrow (by rw [show row.runId = "r" from hid]; rfl)
  have hzero : a.decidedBy ∈ C.st.db.decisions.map (fun p => p.2.decidedBy) := List.mem_map.2 ⟨_, hmem, rfl⟩
  rw [hby, hab, show row.createdBy = 1 from hcreated] at hzero
  cases List.mem_singleton.1 hzero

end WorkflowWorld
