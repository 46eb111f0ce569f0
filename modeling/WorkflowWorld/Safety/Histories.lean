/-
The histories of run and step rows under concurrent requests: no request deletes one, what identifies it is
written once, a step only advances, and a run's attributes are the changes of whole requests, one after the
other.
-/
import WorkflowWorld.Concurrency.RowSteps
import WorkflowWorld.Storage.System

namespace WorkflowWorld

open Concurrency Schema

/-! ## Attributes as a map -/

/-- A run's attributes as a map. -/
def RunRow.attribute (r : RunRow) (key : String) : Option String := r.attributes.lookup key

/-- What a list of changes makes of a map of attributes. -/
def applyChanges (changes : List AttributeChange) (m : String → Option String) : String → Option String :=
  changes.foldl (fun m c => Function.update m c.key c.value) m

/-- The changes name the key. -/
def changesKey (changes : List AttributeChange) (key : String) : Bool := changes.any fun c => c.key = key

section Attributes

variable {changes : List AttributeChange} {attrs : List (String × String)}

theorem AttributeChange.apply_eq (c : AttributeChange) (attrs : List (String × String)) :
    c.apply attrs = attrs.filter (·.1 ≠ c.key) ++ c.apply [] := by
  unfold AttributeChange.apply
  cases c.value <;> simp

theorem AttributeChange.key_of_mem_apply_nil {c : AttributeChange} {p : String × String} (h : p ∈ c.apply []) : p.1 = c.key := by
  unfold AttributeChange.apply at h
  cases hv : c.value with
  | none => simp [hv] at h
  | some v => simp [hv] at h; rw [h]

theorem lookup_filter_ne {k key : String} (h : key ≠ k) :
    ∀ attrs : List (String × String), (attrs.filter (·.1 ≠ k)).lookup key = attrs.lookup key
  | [] => rfl
  | (a, v) :: attrs => by
    have ih := lookup_filter_ne h attrs
    by_cases ha : a = k
    · subst ha
      rw [List.filter_cons_of_neg (by simp), ih, List.lookup_cons, beq_eq_false_iff_ne.2 h]
    · rw [List.filter_cons_of_pos (by simpa using ha), List.lookup_cons, List.lookup_cons, ih]

theorem lookup_filter_self (k : String) (attrs : List (String × String)) : (attrs.filter (·.1 ≠ k)).lookup k = none := by
  rw [List.lookup_eq_none_iff]
  intro p hp
  have hne : p.1 ≠ k := by simpa using (List.mem_filter.1 hp).2
  exact bne_iff_ne.2 hne.symm

/-- One change on the map. -/
theorem AttributeChange.lookup_apply (c : AttributeChange) (attrs : List (String × String)) :
    (fun key => (c.apply attrs).lookup key) = Function.update (fun key => attrs.lookup key) c.key c.value := by
  funext key
  by_cases hk : key = c.key
  · subst hk
    rw [Function.update_self]
    unfold AttributeChange.apply
    cases c.value with
    | none => exact lookup_filter_self ..
    | some v => rw [List.lookup_append, lookup_filter_self]; simp
  · rw [Function.update_of_ne hk]
    unfold AttributeChange.apply
    cases c.value with
    | none => exact lookup_filter_ne hk attrs
    | some v =>
      rw [List.lookup_append, lookup_filter_ne hk, List.lookup_cons, beq_eq_false_iff_ne.2 hk]
      simp

/-- The changes on the map, in their order. -/
theorem lookup_mergeAttributes : ∀ (changes : List AttributeChange) (attrs : List (String × String)),
    (fun key => (mergeAttributes changes attrs).lookup key) = applyChanges changes fun key => attrs.lookup key
  | [], _ => rfl
  | c :: changes, attrs => by
    show (fun key => (mergeAttributes changes (c.apply attrs)).lookup key) = applyChanges changes (Function.update _ c.key c.value)
    rw [lookup_mergeAttributes changes, c.lookup_apply]

/-- A merge keeps what the changes do not name, and the rest does not depend on what was there. -/
theorem mergeAttributes_eq : ∀ (changes : List AttributeChange) (attrs : List (String × String)),
    mergeAttributes changes attrs = attrs.filter (fun p => !changesKey changes p.1) ++ mergeAttributes changes []
  | [], attrs => by simp [mergeAttributes, changesKey]
  | c :: changes, attrs => by
    have hstep : ∀ a, mergeAttributes (c :: changes) a = mergeAttributes changes (c.apply a) := fun _ => rfl
    rw [hstep, hstep, mergeAttributes_eq changes (c.apply attrs), mergeAttributes_eq changes (c.apply []),
      c.apply_eq attrs, List.filter_append, List.append_assoc, List.filter_filter]
    congr 1
    refine List.filter_congr fun p _ => ?_
    simp only [changesKey, List.any_cons, Bool.not_or]
    rw [Bool.and_comm]
    congr 1
    simp [eq_comm]

theorem changesKey_of_mem_merge : ∀ {changes : List AttributeChange} {p : String × String},
    p ∈ mergeAttributes changes [] → changesKey changes p.1 = true
  | [], p, h => by cases h
  | c :: changes, p, h => by
    have hp : p ∈ mergeAttributes changes (c.apply []) := h
    rw [mergeAttributes_eq, List.mem_append] at hp
    rw [changesKey, List.any_cons, Bool.or_eq_true]
    rcases hp with hp | hp
    · left
      rw [(AttributeChange.key_of_mem_apply_nil (List.mem_filter.1 hp).1)]
      simp
    · exact .inr (changesKey_of_mem_merge hp)

/-- To apply the same changes twice is to apply them once. -/
theorem mergeAttributes_idem (changes : List AttributeChange) (attrs : List (String × String)) :
    mergeAttributes changes (mergeAttributes changes attrs) = mergeAttributes changes attrs := by
  have hgone : ((mergeAttributes changes []).filter fun p => !changesKey changes p.1) = [] :=
    List.filter_eq_nil_iff.2 fun p hp => by simp [changesKey_of_mem_merge hp]
  rw [mergeAttributes_eq changes (mergeAttributes changes attrs), mergeAttributes_eq changes attrs, List.filter_append, hgone,
    List.filter_filter, List.append_nil]
  simp

/-- A key has one value. -/
theorem nodup_mergeAttributes : ∀ {changes : List AttributeChange} {attrs : List (String × String)}, (attrs.map (·.1)).Nodup →
    ((mergeAttributes changes attrs).map (·.1)).Nodup
  | [], _, h => h
  | c :: changes, attrs, h => by
    have hfilter : ((attrs.filter (·.1 ≠ c.key)).map (·.1)).Nodup := h.sublist ((List.filter_sublist ..).map _)
    refine @nodup_mergeAttributes changes (c.apply attrs) ?_
    unfold AttributeChange.apply
    cases c.value with
    | none => exact hfilter
    | some v =>
      rw [List.map_append, List.nodup_append]
      refine ⟨hfilter, List.nodup_singleton _, ?_⟩
      rintro a ha b hb rfl
      obtain ⟨p, hp, rfl⟩ := List.mem_map.1 ha
      have hne : p.1 ≠ c.key := by simpa using (List.mem_filter.1 hp).2
      exact hne (List.mem_singleton.1 hb)

end Attributes

/-! ## What statements make of run rows -/

/-- The runs, whose rows move by the steps given. -/
def runSteps (n : Nat) (step : Fin n → RunKey → RunRow → RunRow → Prop) (good : RunRow → Prop) (hrefl : ∀ t k r, step t k r r)
    (htrans : ∀ t k a b c, step t k a b → step t k b c → step t k a c) (hgood : ∀ t k r r', good r → step t k r r' → good r') :
    RowSteps schema n where
  Id := RunKey
  Row := RunRow
  row k d := (Db.runs d).lookup k
  key k := .row (.run k)
  step := step
  good := good
  row_agree _ _ _ h := h
  step_refl := hrefl
  step_trans := htrans
  step_good := hgood

section Runs

variable {n : Nat} {step : Fin n → RunKey → RunRow → RunRow → Prop} {good : RunRow → Prop} {hrefl : ∀ t k r, step t k r r}
  {htrans : ∀ t k a b c, step t k a b → step t k b c → step t k a c} {hgood : ∀ t k r r', good r → step t k r r' → good r'}
  {t : Fin n}

/-- A statement moves the runs by a step, where what it inserts is good and what it changes in place is a step. -/
theorem moves_runs {q : Query} {pick : Pick} {now : Nat} {d : Db} (hins : ∀ k r, q = .insertRun k r → good r)
    (hupd : ∀ k r r', d.runs.lookup k = some r → .updateRun k r' ∈ (plan q pick now d).writes → step t k r r') :
    (runSteps n step good hrefl htrans hgood).Moves t d (schema.applyAll (plan q pick now d).writes d) := by
  by_cases h : ∃ w ∈ (plan q pick now d).writes, w.tbl = .run
  · obtain ⟨w, hw, ht⟩ := h
    rw [plan_single hw (by rw [ht]; rfl)]
    rcases plan_run_cases hw ht with ⟨k, r, rfl, rfl, hnone⟩ | ⟨k, r, r', rfl, hr, -⟩
    · exact .of_single (AList.lookup_insert ..) (fun _ hj => AList.lookup_insert_ne hj) (.inl ⟨hnone, hins k r rfl⟩)
    · exact .of_single (AList.lookup_insert ..) (fun _ hj => AList.lookup_insert_ne hj) (.inr ⟨r, hr, hupd k r r' hr hw⟩)
  · refine RowSteps.Moves.of_untouched (S := schema) (fun K hin => ?_) d
    obtain ⟨w, hw, hk⟩ := List.mem_flatMap.1 hin
    obtain ⟨r, hr⟩ := Write.touches_run hk
    exact h ⟨w, hw, by rcases hr with rfl | rfl <;> rfl⟩

end Runs

/-! ## What statements make of step rows -/

/-- What any request may make of a step: it advances, and once it is finished it stays as it is. -/
structure StepRow.Advances (r r' : StepRow) : Prop where
  runId : r'.runId = r.runId
  stepName : r'.stepName = r.stepName
  specVersion : r'.specVersion = r.specVersion
  attempt : r.attempt ≤ r'.attempt
  startedAt : ∀ τ, r.startedAt = some τ → r'.startedAt = some τ
  finished : r.status.isTerminal = true → r' = r

theorem StepRow.Advances.refl (r : StepRow) : r.Advances r := ⟨rfl, rfl, rfl, le_rfl, fun _ h => h, fun _ => rfl⟩

theorem StepRow.Advances.trans {a b c : StepRow} (h₁ : a.Advances b) (h₂ : b.Advances c) : a.Advances c := by
  refine ⟨h₂.runId.trans h₁.runId, h₂.stepName.trans h₁.stepName, h₂.specVersion.trans h₁.specVersion,
    h₁.attempt.trans h₂.attempt, fun τ h => h₂.startedAt τ (h₁.startedAt τ h), fun ht => ?_⟩
  have hb := h₁.finished ht
  rw [h₂.finished (by rw [hb]; exact ht), hb]

/-- The steps, whose rows advance. -/
def stepSteps (n : Nat) : RowSteps schema n where
  Id := StepKey
  Row := StepRow
  row k d := (Db.steps d).lookup k
  key k := .row (.step k)
  step _ _ := StepRow.Advances
  good _ := True
  row_agree _ _ _ h := h
  step_refl _ _ := .refl
  step_trans _ _ _ _ _ := .trans
  step_good _ _ _ _ _ _ := trivial

theorem moves_steps {n : Nat} {t : Fin n} {q : Query} {pick : Pick} {now : Nat} {d : Db} :
    (stepSteps n).Moves t d (schema.applyAll (plan q pick now d).writes d) := by
  by_cases h : ∃ w ∈ (plan q pick now d).writes, w.tbl = .step
  · obtain ⟨w, hw, ht⟩ := h
    rw [plan_single hw (by rw [ht]; rfl)]
    rcases plan_step hw ht with ⟨k, r, rfl, rfl, hnone⟩ | ⟨k, r, r', rfl, hr, hnt, hkind⟩
    · exact .of_single (AList.lookup_insert ..) (fun _ hj => AList.lookup_insert_ne hj) (.inl ⟨hnone, trivial⟩)
    · refine .of_single (AList.lookup_insert ..) (fun _ hj => AList.lookup_insert_ne hj) (.inr ⟨r, hr, ?_⟩)
      have hopen : r.status.isTerminal = true → r' = r := fun ht => by rw [hnt] at ht; cases ht
      rcases hkind with ⟨owner, τ, -, rfl⟩ | ⟨status, τ, m, -, rfl⟩ | ⟨u, -, rfl⟩
      · refine ⟨rfl, rfl, rfl, Nat.le_succ _, fun τ' hτ' => ?_, hopen⟩
        simp only [StepRow.started, hτ', Option.some_or]
      · exact ⟨rfl, rfl, rfl, le_rfl, fun _ h => h, hopen⟩
      · exact ⟨rfl, rfl, rfl, le_rfl, fun _ h => h, hopen⟩
  · refine RowSteps.Moves.of_untouched (S := schema) (fun K hin => ?_) d
    obtain ⟨w, hw, hk⟩ := List.mem_flatMap.1 hin
    obtain ⟨r, hr⟩ := Write.touches_step hk
    exact h ⟨w, hw, by rcases hr with rfl | rfl <;> rfl⟩

/-! ## Identity -/

section Identity

variable {n : Nat} {D : Deps} {requests : Fin n → CreateReq} {d : Db} {now : Nat} {C C' : Configuration n}

/-- No request deletes a run or a step, writes over what identifies it, takes back an attempt or a start, or
touches a step that is finished: in every interleaving, with sessions failing and ending at any point. -/
theorem rows_keep_identity (h : Reaches (World n) Anything (initial D requests d now) C) (h' : Reaches (World n) Anything C C') :
    (∀ K r, C.st.db.runs.lookup K = some r → ∃ r', C'.st.db.runs.lookup K = some r' ∧ r.SameRun r') ∧
    (∀ K r, C.st.db.steps.lookup K = some r → ∃ r', C'.st.db.steps.lookup K = some r' ∧ r.Advances r') := by
  let T := runSteps n (fun _ _ => RunRow.SameRun) (fun _ => True) (fun _ _ => .refl) (fun _ _ _ _ _ => .trans) fun _ _ _ _ _ _ => trivial
  have hruns : (T.rules Anything : TxRules schema n Bool Reply).rules.Safe (initial D requests d now) := by
    refine safe_of_admits (fun _ _ _ => trivial) (fun _ _ _ _ _ => trivial) (fun _ _ _ => trivial) fun t c _ q _ => ?_
    refine RowSteps.admits_of_moves fun s pick _ => moves_runs (fun _ _ _ => trivial) fun k r r' hr hw => ?_
    rcases plan_run hw rfl with ⟨_, _, _, h, _⟩ | ⟨k', r₁, r₁', heq, hr₁, hsame, -⟩
    · cases h
    · cases heq
      cases hr.symm.trans hr₁
      exact hsame
  have hsteps : ((stepSteps n).rules Anything : TxRules schema n Bool Reply).rules.Safe (initial D requests d now) :=
    safe_of_admits (fun _ _ _ => trivial) (fun _ _ _ _ _ => trivial) (fun _ _ _ => trivial) fun t c _ q _ =>
      RowSteps.admits_of_moves fun s pick _ => moves_steps
  obtain ⟨-, hgoesRuns⟩ := RowSteps.goes_of_safe hruns h h'
  obtain ⟨-, hgoesSteps⟩ := RowSteps.goes_of_safe hsteps h h'
  exact ⟨fun K r hr => hgoesRuns.related .refl (fun _ _ _ => .trans) (fun _ _ _ h => h) hr,
    fun K r hr => hgoesSteps.related .refl (fun _ _ _ => .trans) (fun _ _ _ h => h) hr⟩

end Identity

/-- A running run, and a step of it. -/
def runningDb : Db :=
  { Db.empty with
    runs := (∅ : Table RunKey RunRow).insert ("t", "r")
      { deploymentId := "d", workflowName := "w", specVersion := some 9, status := .running, createdBy := 0 }
    slots := (∅ : Table RunKey Nat).insert ("t", "r") 1
    steps := (∅ : Table StepKey StepRow).insert ("t", "s") { runId := "r", stepName := "n", specVersion := 9 } }

/-- The step is started by a delivery, and the run completed. -/
def stepAndEnd : Fin 2 → CreateReq
  | 0 => { tenant := "t", runId := some "r", event := .stepStarted "s" none (some "m") }
  | 1 => { tenant := "t", runId := some "r", event := .runCompleted }

theorem rows_keep_identity_running : ∃ C : Configuration 2, Reaches (World 2) Anything (initial defaultDeps stepAndEnd runningDb 0) C ∧
    (C.st.db.runs.lookup ("t", "r")).map (·.status) = some .completed ∧
    (C.st.db.steps.lookup ("t", "s")).map (·.attempt) = some 1 ∧
    ∀ K r, runningDb.runs.lookup K = some r → ∃ r', C.st.db.runs.lookup K = some r' ∧ r.SameRun r' := by
  obtain ⟨C, hC, hrows⟩ := Sessions.exists_of_play (c := Anything) (fun _ _ _ _ => trivial)
    (P := fun C : Configuration 2 => (C.st.db.runs.lookup ("t", "r")).map (·.status) = some .completed ∧
      (C.st.db.steps.lookup ("t", "s")).map (·.attempt) = some 1)
    (show (Sessions.play (fun _ _ _ => true) [go 0, go 1] (initial defaultDeps stepAndEnd runningDb 0)).any _ = true
      by decide +kernel)
  obtain ⟨hrun, hstep⟩ := of_decide_eq_true hrows
  exact ⟨C, hC, hrun, hstep, (rows_keep_identity .refl hC).1⟩

/-! ## Attributes -/

/-- `validateAttributeChanges` on a run without attributes: no key twice, and no more keys than a run may have. -/
def Deps.ValidatesAttributes (D : Deps) : Prop :=
  ∀ changes allowReserved, D.validateAttributeChanges changes [] allowReserved = none →
    (changes.map (·.key)).Nodup ∧ (changes.filter (·.value.isSome)).length ≤ D.attributeMaxPerRun

/-- A key has one value, and there are no more keys than a run may have. -/
structure RunRow.AttributesOk (cap : Nat) (r : RunRow) : Prop where
  nodup : (r.attributes.map (·.1)).Nodup
  capped : r.attributes.length ≤ cap

theorem RunInput.attributesOk {D : Deps} (hD : D.ValidatesAttributes) {i : RunInput} (c : Ctx)
    (h : D.validateAttributeChanges i.changes [] i.allowReservedAttributes = none) :
    (i.row c).AttributesOk D.attributeMaxPerRun := by
  obtain ⟨hnodup, hcap⟩ := hD _ _ h
  have hkeys : i.changes.map (·.key) = i.attributes.map (·.1) := by simp [RunInput.changes]
  have hall : i.changes.filter (·.value.isSome) = i.changes :=
    List.filter_eq_self.2 fun a ha => by
      obtain ⟨p, -, rfl⟩ := List.mem_map.1 ha
      rfl
  refine ⟨hkeys ▸ hnodup, ?_⟩
  rw [hall, RunInput.changes, List.length_map] at hcap
  exact hcap

/-- The request sets attributes of run `K`. -/
def CreateReq.Sets (r : CreateReq) (K : RunKey) (changes : List AttributeChange) : Prop :=
  r.tenant = K.1 ∧ r.run = some K.2 ∧ ∃ id byWorkflow allowReserved, r.event = .attrSet id changes byWorkflow allowReserved

theorem CreateReq.Sets.unique {r : CreateReq} {K : RunKey} {changes changes' : List AttributeChange} (h : r.Sets K changes)
    (h' : r.Sets K changes') : changes = changes' := by
  obtain ⟨-, -, _, _, _, he⟩ := h
  obtain ⟨-, -, _, _, _, he'⟩ := h'
  cases he.symm.trans he'
  rfl

/-- What a request may make of a run: its own changes on top of what is there, within the cap, or nothing. -/
structure CreateReq.Patches (D : Deps) (req : CreateReq) (K : RunKey) (r r' : RunRow) : Prop where
  attributes : r'.attributes = r.attributes ∨ ∃ changes, req.Sets K changes ∧
    r'.attributes = mergeAttributes changes r.attributes ∧ r'.attributes.length ≤ D.attributeMaxPerRun

theorem CreateReq.Patches.trans {D : Deps} {req : CreateReq} {K : RunKey} {a b c : RunRow} (h₁ : req.Patches D K a b)
    (h₂ : req.Patches D K b c) : req.Patches D K a c := by
  rcases h₁.attributes with heq | ⟨changes, hset, heq, hcap⟩
  · rcases h₂.attributes with heq' | ⟨changes', hset', heq', hcap'⟩
    · exact ⟨.inl (heq'.trans heq)⟩
    · exact ⟨.inr ⟨changes', hset', by rw [heq', heq], hcap'⟩⟩
  · rcases h₂.attributes with heq' | ⟨changes', hset', heq', hcap'⟩
    · exact ⟨.inr ⟨changes, hset, heq'.trans heq, by rw [heq']; exact hcap⟩⟩
    · -- one request has one list of changes
      cases hset.unique hset'
      exact ⟨.inr ⟨changes, hset, by rw [heq', heq, mergeAttributes_idem], hcap'⟩⟩

theorem CreateReq.Patches.ok {D : Deps} {req : CreateReq} {K : RunKey} {r r' : RunRow} (h : req.Patches D K r r')
    (hr : r.AttributesOk D.attributeMaxPerRun) : r'.AttributesOk D.attributeMaxPerRun := by
  rcases h.attributes with heq | ⟨changes, -, heq, hcap⟩
  · exact ⟨by rw [heq]; exact hr.nodup, by rw [heq]; exact hr.capped⟩
  · exact ⟨by rw [heq]; exact nodup_mergeAttributes hr.nodup, hcap⟩

/-- What a request's statements write of attributes. -/
def AttributesStmt (c : Ctx) (e : EventReq) : Op → Prop
  | .query q => (∀ k r, q = .insertRun k r → r.AttributesOk c.deps.attributeMaxPerRun) ∧
      ∀ k changes cap, q = .setAttributes k changes cap → k = c.key ∧ cap = c.deps.attributeMaxPerRun ∧
        ∃ id byWorkflow allowReserved, e = .attrSet id changes byWorkflow allowReserved
  | _ => True

section Statements

variable {c : Ctx} {e : EventReq}

theorem AttributesStmt.read {q : Query} (h : q.reads = true) : AttributesStmt c e (.query q) :=
  ⟨fun k r hq => (by subst hq; cases h), fun k changes cap hq => by subst hq; cases h⟩

/-- A request that sets no attributes, with what it inserts. -/
theorem AttributesStmt.of_issued {e' : EventReq} {o : Op} (he : e'.type ≠ .attrSet)
    (hins : ∀ i, e'.input = some i → (i.row c).AttributesOk c.deps.attributeMaxPerRun) (h : Issued c e' true o) :
    AttributesStmt c e o := by
  cases o with
  | query q =>
    refine ⟨fun k r hq => ?_, fun k changes cap hq => ?_⟩
    · subst hq
      obtain h | h | ⟨i, hi, -, rfl⟩ := h
      · cases h
      · exact h.elim
      · exact hins i hi
    · subst hq
      obtain h | h | h := h
      · cases h
      · exact absurd h.2 he
      · exact h.elim
  | _ => trivial

theorem built_create_attributes (hD : c.deps.ValidatesAttributes) {i : RunInput} (hi : e.input = some i) :
    Built (AttributesStmt c e) NoBlock (i.create c) := by
  cases hv : c.deps.validateAttributeChanges i.changes [] i.allowReservedAttributes with
  | some message =>
    unfold RunInput.create validateAttributes
    rw [hv]
    exact .throw _
  | none =>
    have hblock : Built (AttributesStmt c e) NoBlock (insertRunWithCreatedEvent c (i.row c) (i.created c) i.startHook) := by
      refine (issued_block (l := true) (.run hi)).expand (fun o ho => .of_issued ?_ (fun i' hi' => ?_) ho) fun _ _ h => h.elim
      · intro he
        cases e with
        | attrSet => cases hi
        | _ => cases he
      · cases hi.symm.trans hi'
        exact i.attributesOk hD c hv
    refine .bind (built_validateAttributes ..) fun _ => .bind hblock fun inserted => ?_
    split
    · exact .throw _
    · exact .pure _

theorem built_journal_attributes (v : EventValues) (dedup : Bool) : Built (AttributesStmt c e) NoBlock (journal c v dedup) := by
  refine (built_journal_block (B := OneAppend c c.key v) .mk dedup).expand (fun _ h => h) ?_
  rintro _ _ ⟨⟩
  refine built_tryAppend.expand (fun o ho => ?_) fun _ _ h => h.elim
  cases o with
  | query q =>
    rcases ho with h | ⟨_, _, rfl⟩ | ⟨_, -, -, rfl⟩
    · exact .read h
    · exact ⟨fun _ _ h => (by cases h), fun _ _ _ h => by cases h⟩
    · exact ⟨fun _ _ h => (by cases h), fun _ _ _ h => by cases h⟩
  | _ => trivial

theorem built_attrSet_attributes (id : Option CorrId) (changes : List AttributeChange) (byWorkflow allowReserved : Bool) :
    Built (AttributesStmt c (.attrSet id changes byWorkflow allowReserved)) NoBlock
      (createOnRun c (.attrSet id changes byWorkflow allowReserved)) := by
  refine .bind (.clock _ fun _ => .pure _) fun now => .bind (built_getRunForValidation AttributesStmt.read _) fun current => ?_
  cases current with
  | none => exact .throw _
  | some run =>
    have hlegacy : Built (AttributesStmt c (.attrSet id changes byWorkflow allowReserved)) NoBlock
        (handleLegacyEvent c (.attrSet id changes byWorkflow allowReserved) now run.specVersion) :=
      .bind (.statement _ (.read rfl)) fun _ => .throw _
    refine .ite (.throw _) (.ite hlegacy (.ite (.throw _) ?_))
    refine built_setAttributes_of AttributesStmt.read ⟨fun _ _ h => (by cases h), fun k changes' cap h => ?_⟩ (built_journal_attributes ..)
    cases h
    exact ⟨rfl, rfl, id, byWorkflow, allowReserved, rfl⟩

/-- A creation inserts what its validation took, and attributes are set by the changes of the request, under
the cap. -/
theorem built_attributes (hD : c.deps.ValidatesAttributes) : Built (AttributesStmt c e) NoBlock (createOnRun c e) := by
  by_cases hi : ∃ i, e.input = some i
  · obtain ⟨i, hi⟩ := hi
    exact built_createOnRun_creating AttributesStmt.read hi (built_create_attributes hD hi) fun o =>
      .of_issued (by simp [EventReq.type]) fun _ h => by cases h
  · have hnone : ∀ i, e.input = some i → (i.row c).AttributesOk c.deps.attributeMaxPerRun := fun i h => absurd ⟨i, h⟩ hi
    by_cases he : e.type = .attrSet
    · cases e with
      | attrSet id changes byWorkflow allowReserved => exact built_attrSet_attributes ..
      | _ => cases he
    · exact (issued built_createOnRun).expand (fun o => .of_issued he hnone) fun _ _ h => h.elim

end Statements

section Runs

variable {n : Nat} {D : Deps} {requests : Fin n → CreateReq} {d : Db} {now : Nat} {C C' : Configuration n}

/-- The runs, whose attributes are patched by the sessions' requests. -/
def attributeSteps (D : Deps) (requests : Fin n → CreateReq) : RowSteps schema n :=
  runSteps n (fun t K => (requests t).Patches D K) (RunRow.AttributesOk D.attributeMaxPerRun) (fun _ _ _ => ⟨.inl rfl⟩)
    (fun _ _ _ _ _ => .trans) fun _ _ _ _ h hp => hp.ok h

/-- Attributes in the data are well formed. -/
def Db.AttributesOk (D : Deps) (d : Db) : Prop := ∀ K r, d.runs.lookup K = some r → r.AttributesOk D.attributeMaxPerRun

theorem moves_attributes {t : Fin n} {c : Ctx} (hc : (requests t).Under D t c) {q : Query} (hq : AttributesStmt c (requests t).event (.query q))
    {pick : Pick} {now : Nat} {d : Db} : (attributeSteps D requests).Moves t d (schema.applyAll (plan q pick now d).writes d) := by
  obtain ⟨hins, hset⟩ := hq
  rw [hc.deps] at hins hset
  refine moves_runs hins fun k r r' hr hw => ?_
  obtain ⟨_, _, _, hinsert, -⟩ | ⟨k', r₁, r₁', heq, hr₁, hkind⟩ := plan_run_cases hw rfl
  · cases hinsert
  · cases heq
    cases hr.symm.trans hr₁
    rcases hkind with ⟨τ, m, rfl, rfl⟩ | ⟨status, τ, rfl, -, rfl⟩ | ⟨τ, rfl, rfl⟩ | ⟨changes, cap, rfl, rfl⟩
    · exact ⟨.inl rfl⟩
    · exact ⟨.inl rfl⟩
    · exact ⟨.inl rfl⟩
    · obtain ⟨rfl, rfl, id, byWorkflow, allowReserved, he⟩ := hset k changes cap rfl
      obtain ⟨r₂, r₂', hr₂, hguard, hw₂⟩ := update_writes hw
      cases hr.symm.trans hr₂
      cases hw₂
      have hcap : (mergeAttributes changes r.attributes).length ≤ D.attributeMaxPerRun := by
        by_contra h
        simp [h] at hguard
      refine ⟨.inr ⟨changes, ⟨hc.tenant.symm, ?_, id, byWorkflow, allowReserved, he⟩, rfl, hcap⟩⟩
      rcases hc.run with h | ⟨-, -, h⟩
      · exact h
      · rw [he] at h; cases h

/-- What a list of accepted requests makes of a map of attributes. -/
def applyRequests (batches : List (Fin n × List AttributeChange)) (m : String → Option String) : String → Option String :=
  batches.foldl (fun m b => applyChanges b.2 m) m

end Runs

/-- The default configuration, with the checks of a list of changes: no key twice, and no more keys than the cap. -/
def validatingDeps : Deps :=
  { defaultDeps with
    validateAttributeChanges := fun changes existing _ =>
      let added := (changes.filter (·.value.isSome)).filter fun c => !existing.contains c.key
      if (changes.map (·.key)).Nodup ∧ existing.length + added.length ≤ 64 then none else some "invalid attributes" }

theorem validatingDeps_validates : validatingDeps.ValidatesAttributes := by
  intro changes allowReserved h
  have hall : (changes.filter (·.value.isSome)).filter (fun c => !([] : List String).contains c.key) = changes.filter (·.value.isSome) :=
    List.filter_eq_self.2 fun _ _ => rfl
  simp only [validatingDeps, hall] at h
  split at h
  · rename_i hok
    exact ⟨hok.1, show _ ≤ 64 by simpa using hok.2⟩
  · cases h

/-- A run with an attribute, and two requests that change it. -/
def attributeWrites : Fin 3 → CreateReq
  | 0 => { tenant := "t", runId := none, ulid := "r"
           event := .runCreated { deploymentId := "d", workflowName := "w", attributes := [("a", "1")] } }
  | 1 => { tenant := "t", runId := some "r", event := .attrSet none [⟨"a", some "2"⟩, ⟨"b", some "3"⟩] false false }
  | 2 => { tenant := "t", runId := some "r", event := .attrSet none [⟨"a", none⟩] false false }

end WorkflowWorld
