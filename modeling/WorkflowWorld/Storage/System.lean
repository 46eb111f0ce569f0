/-
The World under concurrent requests: any number of sessions, each one `events.create` call, on one
database. Requests that follow one another are sessions that are scheduled one after the other.
-/
import WorkflowWorld.Storage.Shape
import WorkflowWorld.Concurrency.Schedule

namespace WorkflowWorld

open Concurrency Schema

abbrev State (n : Nat) := schema.State n Bool Reply

abbrev World (n : Nat) := schema.machine n Bool Reply

abbrev Configuration (n : Nat) := Config (Fin n) Op Schema.Op.Res (State n) Err

abbrev Rules (n : Nat) := TxRules schema n Bool Reply

/-- The sessions before their first operation, on the data `d`. -/
def initial {n : Nat} (D : Deps) (requests : Fin n → CreateReq) (d : Db) (now : Nat) : Configuration n :=
  ⟨Schema.State.init d false now, fun t => session D t (requests t)⟩

/-- The context of a request's work on its run. -/
structure CreateReq.Under (D : Deps) (me : Nat) (r : CreateReq) (c : Ctx) : Prop where
  deps : c.deps = D
  tenant : c.tenant = r.tenant
  me : c.me = me
  specVersion : c.specVersion = r.specVersion.getD D.specVersion
  run : r.run = some c.runId ∨ r.run = none ∧ c.runId = r.ulid ∧ r.event.type = .runCreated
  fence : c.fence = r.fenced.bind fun run =>
    (r.expectedSeqInBand.filter (· ≤ maxSafeInteger)).map fun expected => ⟨r.tenant, run, expected, r.occurredAt⟩

/-- The work of a request on its run, as one block. -/
inductive OnRun (D : Deps) (me : Nat) (r : CreateReq) : (α : Type) → P α → Prop
  | mk {c : Ctx} (h : r.Under D me c) : OnRun D me r _ (createOnRun c r.event)

/-- What a request issues around that block: the fence's lock, and its reset. -/
def Envelope (r : CreateReq) : Op → Prop
  | .query q => ∃ run, r.fenced = some run ∧ q = .lockSlots (r.tenant, run)
  | .store m => r.fenced.isSome = true ∧ m = false
  | _ => False

section Envelope

variable {D : Deps} {me : Nat} {r : CreateReq}

theorem built_assertions {P : Op → Prop} {B : (α : Type) → WorkflowWorld.P α → Prop} :
    Built P B (assertRetention D r.event) ∧ Built P B (assertStartHookOf D r.event) ∧
      ∀ run b, Built P B (assertRunIdTime D run b) := by
  refine ⟨?_, ?_, fun run b => ?_⟩
  · unfold assertRetention
    split
    · exact .bind (.clock _ fun _ => .pure _) fun _ => .ite (.throw _) (.pure _)
    · exact .pure _
  · unfold assertStartHookOf
    split
    · unfold assertStartHookAdmissible
      split
      · exact .pure _
      · exact .bind (.clock _ fun _ => .pure _) fun _ => .ite (.throw _) (.pure _)
    · exact .pure _
  · refine .bind (.clock _ fun _ => .pure _) fun now => ?_
    split
    · exact .pure _
    · exact .throw _

theorem built_createUnfenced {P : Op → Prop} {fence : Option PendingFence}
    (hf : fence = r.fenced.bind fun run =>
      (r.expectedSeqInBand.filter (· ≤ maxSafeInteger)).map fun expected => ⟨r.tenant, run, expected, r.occurredAt⟩) :
    Built P (OnRun D me r) (createUnfenced D me fence r) := by
  obtain ⟨h1, h2, h3⟩ := built_assertions (D := D) (r := r) (P := P) (B := OnRun D me r)
  refine .bind h1 fun _ => .bind h2 fun _ => ?_
  split
  · rename_i i he hr
    exact .block (.mk ⟨rfl, rfl, rfl, rfl, .inr ⟨hr, rfl, by rw [he]; rfl⟩, hf⟩)
  · rename_i i run he hr
    exact .bind (h3 _ _) fun _ => .block (.mk ⟨rfl, rfl, rfl, rfl, .inl hr, hf⟩)
  · exact .throw _
  · rename_i run hr _
    exact .block (.mk ⟨rfl, rfl, rfl, rfl, .inl hr, hf⟩)

/-- The call under its fence's lock. -/
theorem built_createUnderFence {run : RunId} {expected : Nat} (hf : r.fenced = some run)
    (hx : r.expectedSeqInBand.filter (· ≤ maxSafeInteger) = some expected) :
    Built (Envelope r) (OnRun D me r) (createUnderFence D me r run expected) := by
  have hfence : some (⟨r.tenant, run, expected, r.occurredAt⟩ : PendingFence) = r.fenced.bind fun run =>
      (r.expectedSeqInBand.filter (· ≤ maxSafeInteger)).map fun expected =>
        ⟨r.tenant, run, expected, r.occurredAt⟩ := by rw [hf, Option.bind_some, hx]; rfl
  have hassert : ∀ current, Built (Envelope r) (OnRun D me r) (assertExpected run expected current) := by
    intro current
    cases current with
    | some m => exact .ite (.throw _) (.pure _)
    | none => exact .pure _
  refine .bind (.statement _ ⟨run, hf, rfl⟩) fun current => .bind (hassert current) fun _ => ?_
  exact .store _ _ ⟨by rw [hf]; rfl, rfl⟩ fun _ => built_createUnfenced hfence

theorem built_create : Built (Envelope r) (OnRun D me r) (create D me r) := by
  unfold create
  split
  · rename_i hf
    exact built_createUnfenced (by rw [hf]; rfl)
  · rename_i run hf
    split
    · exact .throw _
    · rename_i expected hx
      exact .transaction (built_createUnderFence hf hx)

end Envelope

/-! ## Schedules to be played -/

/-- The World in its default configuration, all of whose run ids were minted at time 0. -/
def defaultDeps : Deps where
  startHookId run := "hook_" ++ run
  ulidToDate _ := some 0
  validateUlidTimestamp _ _ := none
  validateAttributeChanges _ _ _ := none
  attributeMaxPerRun := 64
  hookRetentionLimitMs := 30 * 86400000
  startHookCandidateMaxAgeMs := 86400000
  specVersionMaxSupported := 9
  specVersion := 9

/-- A run is created, started and completed. -/
def lifecycle : Fin 3 → CreateReq
  | 0 => { tenant := "t", runId := none, ulid := "r", event := .runCreated { deploymentId := "d", workflowName := "w" } }
  | 1 => { tenant := "t", runId := some "r", event := .runStarted none }
  | 2 => { tenant := "t", runId := some "r", event := .runCompleted }

/-- A creation with a start Hook. -/
def asking (token : Token) : RunInput := { deploymentId := "d", workflowName := "w", startHook := some ⟨token, none⟩ }

/-- Any operation may be executed. -/
abbrev Anything {n : Nat} : Fin n → Op → State n → Prop := fun _ _ _ => True

/-- Session `t` runs for at most `ops` operations, without a fault. -/
def goFor {n : Nat} (t : Fin n) (ops : Nat) : Move schema n := .run t ops ⟨false, {}⟩

/-- Session `t` runs to its end. -/
def go {n : Nat} (t : Fin n) : Move schema n := goFor t 1000

/-- The server fails session `t`'s next statement. -/
def faultNext {n : Nat} (t : Fin n) : Move schema n := .run t 1 ⟨true, {}⟩

/-! ## From programs to runs -/

section Sessions

variable {n : Nat} {R : Rules n} {t : Fin n} {D : Deps} {r : CreateReq}

/-- A session keeps the rules if its call does and each of its answers is one the rules allow. -/
theorem wp_session {s : State n}
    (h : R.rules.wp t (create D t r)
      (fun a s' => R.answer t (.ok a) (s'.seen t) (s'.wrote t) s'.db)
      (fun e s' => R.answer t (.error e) (s'.seen t) (s'.wrote t) s'.db) s) :
    R.rules.wp t (session D t r) (fun _ _ => True) (fun _ _ => True) s := by
  have hreply : ∀ (a : Reply) (s' : State n), R.answer t a (s'.seen t) (s'.wrote t) s'.db →
      R.rules.wp t (.op (.reply a) .pure : P Unit) (fun _ _ => True) (fun _ _ => True) s' := by
    intro a s' ha s₁ hb hi hr _ _ r₁ s₂ he
    cases he
    refine ⟨⟨⟨hi.data, hi.drafts, fun b hb' => ?_⟩, R.grows_refl _, R.effect_refl _ _⟩, trivial⟩
    rcases List.mem_append.1 hb' with hb' | hb'
    · exact hi.answers b hb'
    · cases List.mem_singleton.1 hb'
      show R.answer t a (s₁.seen t) (s₁.wrote t) s₁.db
      rw [hr.keep.seen, hr.keep.wrote]
      exact R.answer_grows _ _ _ _ _ _ ha hr.rel
  unfold session
  rw [Rules.wp_bind, Rules.wp_tryCatch, Rules.wp_bind]
  exact Rules.wp_mono (fun a s' ha => hreply (.ok a) s' ha) (fun e s' he => hreply (.error e) s' he) _ _ h

/-- Where every answer is allowed. -/
theorem Runs.session {A : State n → Prop} {G : State n → State n → Prop} (hans : ∀ a o b d, R.answer t a o b d)
    (h : R.Runs t A G (create D t r)) (s : State n) (hs : R.Sound t s) (ha : A s) :
    R.rules.wp t (session D t r) (fun _ _ => True) (fun _ _ => True) s :=
  wp_session (Rules.wp_mono (fun _ _ _ => hans ..) (fun _ _ _ => hans ..) _ _ (h s hs ha))

theorem sound_initial (D : Deps) (requests : Fin n → CreateReq) (d : Db) (now : Nat) :
    R.Sound t (initial D requests d now).st := fun m hm => by cases hm

theorem base_initial (D : Deps) (requests : Fin n → CreateReq) (d : Db) (now : Nat) :
    Schema.State.Base (initial D requests d now).st :=
  ⟨fun _ _ _ _ hk => (by cases hk), fun _ _ hx => (by cases hx)⟩

theorem inv_initial {requests : Fin n → CreateReq} {d : Db} {now : Nat} (h : R.data d) :
    R.Inv (initial D requests d now).st :=
  ⟨h, fun _ m hm => (by cases hm), fun a ha => (by cases ha)⟩

/-- Every reachable state keeps the rules that every session's call keeps. -/
theorem safe_initial {requests : Fin n → CreateReq} {d : Db} {now : Nat} (hd : R.data d)
    (h : ∀ t, R.rules.wp t (session D t (requests t)) (fun _ _ => True) (fun _ _ => True) (initial D requests d now).st) :
    R.rules.Safe (initial D requests d now) :=
  ⟨base_initial .., inv_initial hd, h⟩

/-- A read changes nothing but the locks it takes. -/
theorem admits_read {A : State n → Prop} {G : State n → State n → Prop} {q : Query} (hq : q.reads = true) (hG : ∀ s takes, A s → G s ((s.see t).write t takes [])) :
    R.Admits t A G q := by
  intro s pick a _ hi hs ha _ _ _
  have hw : (plan q pick (s.clock t) (s.view t)).writes = [] :=
    List.eq_nil_iff_forall_not_mem.2 fun w hw => plan_reads hq hw
  show R.Extends t s _ (plan q pick (s.clock t) (s.view t)).writes ∧
    R.steady t (s.pend t ++ (plan q pick (s.clock t) (s.view t)).writes) ∧
    G s ((s.see t).write t _ (plan q pick (s.clock t) (s.view t)).writes)
  rw [hw]
  exact ⟨TxRules.extends_inert hi (by simp), by rw [List.append_nil]; exact hs.steady_pend, hG s _ ha⟩

/-- What a request's work on its run gives, its call gives, where what is known outlasts the checks before
that work. -/
theorem gives_createUnfenced {A F : State n → Prop} {G : State n → State n → Prop} (hG : R.Frame t F G) (hA : ∀ s, A s → F s)
    (hpure : ∀ {α : Type} {p : P α}, Built (fun _ => False) NoBlock p → R.Gives t A G p fun _ => A) {fence : Option PendingFence}
    (hf : fence = r.fenced.bind fun run =>
      (r.expectedSeqInBand.filter (· ≤ maxSafeInteger)).map fun expected => ⟨r.tenant, run, expected, r.occurredAt⟩)
    {B : EventResult → State n → Prop} (h : ∀ c, r.Under D t c → R.Gives t A G (createOnRun c r.event) B) :
    R.Gives t A G (createUnfenced D t fence r) B := by
  obtain ⟨h1, h2, h3⟩ := built_assertions (D := D) (r := r) (P := fun _ => False) (B := NoBlock)
  refine .bind hG (hpure h1) fun _ => .bind hG (hpure h2) fun _ => ?_
  split
  · rename_i i he hr
    exact h _ ⟨rfl, rfl, rfl, rfl, .inr ⟨hr, rfl, by rw [he]; rfl⟩, hf⟩
  · rename_i i run he hr
    exact .bind hG (hpure (h3 _ _)) fun _ => h _ ⟨rfl, rfl, rfl, rfl, .inl hr, hf⟩
  · exact fun s hs ha => (TxRules.Upto.refl hG hs (hA s ha)).left _
  · rename_i run hr _
    exact h _ ⟨rfl, rfl, rfl, rfl, .inl hr, hf⟩

/-- Every session keeps the rules that its work on a run keeps. -/
theorem safe_of_runs {requests : Fin n → CreateReq} {d : Db} {now : Nat} {G : Fin n → State n → State n → Prop} (hd : R.data d)
    (hans : ∀ t a o b d, R.answer t a o b d) (hframe : ∀ t, R.Frame t (fun _ => True) (G t))
    (hread : ∀ t s takes, G t s ((s.see t).write t takes []))
    (hstore : ∀ t m s, G t s { s with mem := Function.update s.mem t m })
    (h : ∀ t c, (requests t).Under D t c → R.Runs t (fun _ => True) (G t) (createOnRun c (requests t).event)) :
    R.rules.Safe (initial D requests d now) := by
  refine safe_initial hd fun t => Runs.session (hans t) (.of_built (hframe t) ?_ (fun m _ s _ => hstore t m s) ?_ built_create)
    _ (sound_initial D requests d now) trivial
  · rintro q ⟨run, -, rfl⟩
    exact admits_read rfl fun s takes _ => hread t s takes
  · rintro _ _ ⟨hc⟩
    exact h t _ hc

/-- What a request's work on its run tells of its result, its call tells, where that outlasts the commit of an in-band
write. -/
theorem gives_create (hG : R.Frame t (fun _ => True) (fun _ _ => True)) {B : EventResult → State n → Prop}
    (hB : ∀ a (s₁ s₂ s₃ : State n), B a s₂ → R.Inv s₃ → R.rules.Rely t s₂ s₃ → R.Went t (s₁.beginTx t) s₃ → B a (s₃.commitTx t))
    (h : ∀ c, r.Under D t c → R.Gives t (fun _ => True) (fun _ _ => True) (createOnRun c r.event) B) :
    R.Gives t (fun _ => True) (fun _ _ => True) (create D t r) B := by
  have hpure : ∀ {α : Type} {p : P α}, Built (fun _ => False) NoBlock p → R.Gives t (fun _ => True) (fun _ _ => True) p fun _ _ => True :=
    fun hp => TxRules.Runs.gives hG (.of_built hG (fun _ h => h.elim) (fun _ h => h.elim) (fun _ _ h => h.elim) hp)
  have hunfenced : ∀ {fence : Option PendingFence}, (fence = r.fenced.bind fun run =>
      (r.expectedSeqInBand.filter (· ≤ maxSafeInteger)).map fun expected => ⟨r.tenant, run, expected, r.occurredAt⟩) →
      R.Gives t (fun _ => True) (fun _ _ => True) (createUnfenced D t fence r) B :=
    fun hf => gives_createUnfenced hG (fun _ h => h) hpure hf h
  unfold create
  split
  · rename_i hf
    exact hunfenced (by rw [hf]; rfl)
  · rename_i run hf
    split
    · exact .throw hG (fun _ h => h) _
    · rename_i expected hx
      refine .transaction hG hG (fun _ h => h) (fun _ h => h) (fun _ _ _ _ _ => trivial)
        (fun a s₁ s₂ s₃ _ hb hi hr hw => hB a s₁ s₂ s₃ hb hi hr hw) ?_
      have hlock : R.Runs t (fun _ => True) (fun _ _ => True) (sql (.lockSlots (r.tenant, run))) :=
        .of_built (P := fun o => o = .query (.lockSlots (r.tenant, run))) (B := NoBlock) hG
          (fun q hq => by cases hq; exact admits_read rfl fun _ _ _ => trivial) (fun _ h => by cases h)
          (fun _ _ h => h.elim) (.statement _ rfl)
      have hassert : ∀ current, R.Runs t (fun _ => True) (fun _ _ => True) (assertExpected run expected current) := by
        intro current
        cases current with
        | none => exact TxRules.runs_pure hG _
        | some m =>
          by_cases hm : m ≠ expected
          · rw [assertExpected, if_pos hm]; exact TxRules.runs_throw hG _
          · rw [assertExpected, if_neg hm]; exact TxRules.runs_pure hG _
      refine .bind hG (TxRules.Runs.gives hG hlock) fun current => .bind hG (TxRules.Runs.gives hG (hassert current)) fun _ => ?_
      exact TxRules.Gives.store hG (fun _ _ => trivial) (hunfenced (by rw [hf, Option.bind_some, hx]; rfl))

/-- Every session keeps the rules, and its answer is one that its result allows. -/
theorem safe_of_gives {requests : Fin n → CreateReq} {d : Db} {now : Nat} {B : Fin n → EventResult → State n → Prop} (hd : R.data d)
    (hframe : ∀ t, R.Frame t (fun _ => True) (fun _ _ => True))
    (hok : ∀ t a s, s.nest t = none → B t a s → R.answer t (.ok a) (s.seen t) (s.wrote t) s.db)
    (herr : ∀ t e o b d, R.answer t (.error e) o b d)
    (hB : ∀ t a (s₁ s₂ s₃ : State n), B t a s₂ → R.Inv s₃ → R.rules.Rely t s₂ s₃ → R.Went t (s₁.beginTx t) s₃ → B t a (s₃.commitTx t))
    (h : ∀ t c, (requests t).Under D t c → R.Gives t (fun _ => True) (fun _ _ => True) (createOnRun c (requests t).event) (B t)) :
    R.rules.Safe (initial D requests d now) := by
  refine safe_initial hd fun t => wp_session ?_
  refine Rules.wp_mono (fun a s' h => hok t a s' ?_ h.2) (fun e s' _ => herr ..) _ _
    (gives_create (hframe t) (hB t) (h t) _ (sound_initial D requests d now) trivial)
  rw [h.1.went.nest]
  rfl

/-- Rules whose point no program needs a flow argument for: every statement of every request
writes only what is beside it. -/
theorem safe_of_admits {requests : Fin n → CreateReq} {d : Db} {now : Nat} (hd : R.data d)
    (hans : ∀ t a o b d, R.answer t a o b d) (hready : ∀ t ws, R.steady t ws → R.ready t ws)
    (h : ∀ t c, (requests t).Under D t c → ∀ q, Issued c (requests t).event true (.query q) →
      R.Admits t (fun _ => True) (fun _ _ => True) q) :
    R.rules.Safe (initial D requests d now) :=
  safe_of_runs hd hans (fun t => TxRules.any_frame (hready t)) (fun _ _ _ => trivial) (fun _ _ _ => trivial) fun t c hc =>
    .of_built (TxRules.any_frame (hready t)) (h t c hc) (fun _ _ _ _ => trivial) (fun _ _ h => h.elim) (issued built_createOnRun)

end Sessions

end WorkflowWorld
