/-
Delivery accounting along the chain of jobs that carry one message (`deliveryAccounting` and
`continuationOf` of `src/dispatch-contract.ts`): what each delivery reports, whatever ended the
deliveries before it.
-/
import WorkflowWorld.Dispatcher.Queue

namespace WorkflowWorld.Dispatcher

/-! ## Chains of deliveries -/

/-- How a delivery ends and the message goes on: the handler threw and the job is retried, or the
executor answered `{ timeoutSeconds }`. -/
inductive DeliveryEnd where
  | retry
  | reschedule (timeoutSeconds : Nat)
  deriving DecidableEq, Repr

/-- A message on the job that carries it, with the job's own attempt count. -/
structure Carried where
  message : Message
  attempts : Nat
  deriving DecidableEq, Repr

/-- A message as `queue` first writes it. -/
structure Message.Fresh (message : Message) : Prop where
  attempt : message.attempt = 1
  deliveryOffset : message.deliveryOffset = none
  attemptOffset : message.attemptOffset = none

/-- The first message of a spec 9 run. -/
def firstInvoke : Message where
  attempt := 1
  messageId := "msg_1"
  id := "flow"
  data := { runId := some "wrun_1", runSpecVersion := some 9 }
  tenantId := "tenant"
  deploymentId := "dep_1"

theorem firstInvoke_fresh : firstInvoke.Fresh := ⟨rfl, rfl, rfl⟩

def Carried.delivery (job : Carried) : Delivered := deliveryAccounting job.message (some job.attempts)

namespace World

variable (w : World)

/-- `{ timeoutSeconds: 0 }` on a spec 9 run. -/
def isHandoff (body : Body) : DeliveryEnd → Bool
  | .retry => false
  | .reschedule timeoutSeconds => timeoutSeconds == 0 && w.isSingleOrchestratorMessage body

/-- A reschedule that is no handoff. -/
def isOrdinary (body : Body) : DeliveryEnd → Bool
  | .retry => false
  | .reschedule timeoutSeconds => !(timeoutSeconds == 0 && w.isSingleOrchestratorMessage body)

/-- The next delivery: the same job again, or the first claim of the job that continues the message. -/
def next (job : Carried) : DeliveryEnd → Carried
  | .retry => { job with attempts := job.attempts + 1 }
  | .reschedule timeoutSeconds =>
    ⟨w.continuationOf job.message job.delivery timeoutSeconds job.message.data, 1⟩

/-- What the deliveries of a chain report, from the one in hand on. -/
def deliveriesFrom (job : Carried) : List DeliveryEnd → List Delivered
  | [] => [job.delivery]
  | ending :: endings => job.delivery :: deliveriesFrom (w.next job ending) endings

/-- What the deliveries of a new message report. -/
def deliveries (message : Message) (endings : List DeliveryEnd) : List Delivered :=
  w.deliveriesFrom ⟨message, 1⟩ endings

@[simp] theorem next_data (job : Carried) (ending : DeliveryEnd) :
    (w.next job ending).message.data = job.message.data := by
  cases ending <;> rfl

/-! ## The delivery count -/

theorem delivery_next (job : Carried) (ending : DeliveryEnd) :
    (w.next job ending).delivery.deliveryCount = job.delivery.deliveryCount + 1 := by
  cases ending with
  | retry =>
    simp only [next, Carried.delivery, deliveryAccounting]
    omega
  | reschedule timeoutSeconds =>
    simp only [next, Carried.delivery, deliveryAccounting, continuationOf, Option.some_or, Option.getD_some]
    omega

theorem deliveryCounts_from (job : Carried) (endings : List DeliveryEnd) :
    (w.deliveriesFrom job endings).map (·.deliveryCount) =
      List.range' job.delivery.deliveryCount (endings.length + 1) := by
  induction endings generalizing job with
  | nil => rfl
  | cons ending endings ih =>
    rw [deliveriesFrom, List.map_cons, ih, delivery_next]
    rfl

/-- The `k`-th delivery of a new message reports `deliveryCount = k`, whatever ended the deliveries
before it. -/
theorem deliveryCount_eq (message : Message) (hm : message.Fresh) (endings : List DeliveryEnd) :
    (w.deliveries message endings).map (·.deliveryCount) = List.range' 1 (endings.length + 1) := by
  have hfirst : (⟨message, 1⟩ : Carried).delivery.deliveryCount = 1 := by
    simp [Carried.delivery, deliveryAccounting, hm.deliveryOffset, hm.attemptOffset]
  rw [deliveries, deliveryCounts_from, hfirst]

theorem deliveryCount_eq_mixed :
    let endings : List DeliveryEnd := [.retry, .reschedule 0, .reschedule 5, .retry]
    firstInvoke.Fresh ∧
      (stampWorld.deliveries firstInvoke endings).map (·.deliveryCount) = [1, 2, 3, 4, 5] :=
  ⟨firstInvoke_fresh, deliveryCount_eq stampWorld firstInvoke firstInvoke_fresh _⟩

/-! ## The attempt -/

/-- The attempts a chain is to report, from the one in hand on: the same after a handoff, one more after
a retry, and 1 after an ordinary reschedule. -/
def attemptLaw (body : Body) (attempt : Nat) : List DeliveryEnd → List Nat
  | [] => [attempt]
  | ending :: endings =>
    let following :=
      if ending = .retry then attempt + 1
      else if w.isHandoff body ending then attempt
      else 1
    attempt :: attemptLaw body following endings

/-- An ordinary reschedule comes. -/
def Resumes (body : Body) (endings : List DeliveryEnd) : Prop := ∃ ending ∈ endings, w.isOrdinary body ending

/-- A handoff comes before the first ordinary reschedule, and that comes too. -/
def HandsOver (body : Body) (endings : List DeliveryEnd) : Prop :=
  ∃ between handoff after, endings = between ++ handoff :: after ∧ (∀ e ∈ between, ¬ w.isOrdinary body e) ∧
    w.isHandoff body handoff ∧ w.Resumes body after

/-- A retry, then a handoff with no ordinary reschedule between them, then at some time an ordinary
reschedule. -/
def CarriesOver (body : Body) (endings : List DeliveryEnd) : Prop :=
  ∃ before after, endings = before ++ .retry :: after ∧ w.HandsOver body after

variable {w} {body : Body} {ending : DeliveryEnd} {endings : List DeliveryEnd}

theorem resumes_cons : w.Resumes body (ending :: endings) ↔ w.isOrdinary body ending ∨ w.Resumes body endings := by
  simp [Resumes]

theorem HandsOver.resumes (h : w.HandsOver body endings) : w.Resumes body endings := by
  obtain ⟨between, handoff, after, rfl, -, -, e, he, ho⟩ := h
  exact ⟨e, by simp [he], ho⟩

theorem handsOver_cons : w.HandsOver body (ending :: endings) ↔
    (w.isHandoff body ending ∧ w.Resumes body endings) ∨
      (¬ w.isOrdinary body ending ∧ w.HandsOver body endings) := by
  constructor
  · rintro ⟨between, handoff, after, heq, hb, hh, hr⟩
    cases between with
    | nil =>
      cases heq
      exact .inl ⟨hh, hr⟩
    | cons b between =>
      cases heq
      exact .inr ⟨hb _ List.mem_cons_self, between, handoff, after, rfl,
        fun e he => hb e (List.mem_cons_of_mem _ he), hh, hr⟩
  · rintro (⟨hh, hr⟩ | ⟨ho, between, handoff, after, rfl, hb, hh, hr⟩)
    · exact ⟨[], ending, endings, rfl, List.forall_mem_nil _, hh, hr⟩
    · refine ⟨ending :: between, handoff, after, rfl, fun e he => ?_, hh, hr⟩
      rcases List.mem_cons.1 he with rfl | he
      · exact ho
      · exact hb e he

theorem carriesOver_cons : w.CarriesOver body (ending :: endings) ↔
    (ending = .retry ∧ w.HandsOver body endings) ∨ w.CarriesOver body endings := by
  constructor
  · rintro ⟨before, after, heq, hh⟩
    cases before with
    | nil =>
      cases heq
      exact .inl ⟨rfl, hh⟩
    | cons b before =>
      cases heq
      exact .inr ⟨before, after, rfl, hh⟩
  · rintro (⟨rfl, hh⟩ | ⟨before, after, rfl, hh⟩)
    · exact ⟨[], endings, rfl, hh⟩
    · exact ⟨ending :: before, after, rfl, hh⟩

/-- The attempts carried over into the job in hand. -/
def carriedOver (job : Carried) : Nat := job.message.attemptOffset.getD 0

theorem delivery_attempt (job : Carried) : job.delivery.attempt = job.attempts + carriedOver job := rfl

theorem carriedOver_next (job : Carried) (timeoutSeconds : Nat) :
    carriedOver (w.next job (.reschedule timeoutSeconds)) =
      if w.isHandoff job.message.data (.reschedule timeoutSeconds) then job.delivery.attempt - 1
      else carriedOver job := by
  have hdrop : ∀ o : Option Nat, (o.filter (· ≠ 0)).getD 0 = o.getD 0 := by
    intro o
    cases o with
    | none => rfl
    | some n =>
      by_cases hn : n = 0
      · simp [Option.filter, hn]
      · simp [Option.filter, hn]
  unfold carriedOver next continuationOf isHandoff
  rw [hdrop]
  split <;> rfl

theorem isOrdinary_of_not_handoff {timeoutSeconds : Nat} (h : ¬ w.isHandoff body (.reschedule timeoutSeconds)) :
    w.isOrdinary body (.reschedule timeoutSeconds) := by
  simpa only [isHandoff, isOrdinary, Bool.not_eq_true, Bool.not_eq_true'] using h

theorem not_isOrdinary_of_handoff (h : w.isHandoff body ending) : ¬ w.isOrdinary body ending := by
  cases ending with
  | retry => cases h
  | reschedule timeoutSeconds => simpa [isHandoff, isOrdinary] using h

theorem head_attempts (job : Carried) (endings : List DeliveryEnd) :
    ((w.deliveriesFrom job endings).map (·.attempt)).head? = some job.delivery.attempt := by
  cases endings <;> rfl

theorem head_attemptLaw (attempt : Nat) (endings : List DeliveryEnd) :
    (w.attemptLaw body attempt endings).head? = some attempt := by
  cases endings <;> rfl

/-- Where a chain departs from the law: an ordinary reschedule comes while attempts are carried over,
or after a handoff that is yet to carry some over. -/
theorem attempts_eq_iff (job : Carried) (hpos : 1 ≤ job.attempts) (endings : List DeliveryEnd) :
    (w.deliveriesFrom job endings).map (·.attempt) = w.attemptLaw job.message.data job.delivery.attempt endings ↔
      ¬ (carriedOver job ≠ 0 ∧ w.Resumes job.message.data endings) ∧
      ¬ (2 ≤ job.delivery.attempt ∧ w.HandsOver job.message.data endings) ∧
      ¬ w.CarriesOver job.message.data endings := by
  induction endings generalizing job with
  | nil => simp [deliveriesFrom, attemptLaw, Resumes, HandsOver, CarriesOver]
  | cons ending endings ih =>
    have hnext := ih (w.next job ending) (by cases ending <;> simp [next])
    have hattempt := delivery_attempt job
    rw [deliveriesFrom, attemptLaw, List.map_cons, List.cons.injEq, eq_self, true_and, resumes_cons,
      handsOver_cons, carriesOver_cons]
    rw [next_data, delivery_attempt] at hnext
    cases ending with
    | retry =>
      have hover : carriedOver (w.next job .retry) = carriedOver job := rfl
      have hsucc : job.attempts + 1 + carriedOver job = job.delivery.attempt + 1 := by omega
      have htwo : 2 ≤ job.delivery.attempt + 1 := by omega
      rw [hover, show (w.next job .retry).attempts = job.attempts + 1 from rfl, hsucc] at hnext
      simp only [if_true, isOrdinary, isHandoff, Bool.false_eq_true, false_and, false_or, not_false_eq_true,
        true_and]
      rw [hnext]
      grind
    | reschedule timeoutSeconds =>
      have hover := carriedOver_next (w := w) job timeoutSeconds
      simp only [reduceCtorEq, if_false, false_and, false_or]
      by_cases hh : w.isHandoff job.message.data (.reschedule timeoutSeconds)
      · -- A handoff: the next job reports the same attempt, and carries over what came before it.
        have hord := not_isOrdinary_of_handoff hh
        have hsame : 1 + (job.delivery.attempt - 1) = job.delivery.attempt := by omega
        have hzero : job.delivery.attempt - 1 ≠ 0 ↔ 2 ≤ job.delivery.attempt := by omega
        have hcarried : carriedOver job ≠ 0 → 2 ≤ job.delivery.attempt := by omega
        rw [if_pos hh] at hover ⊢
        rw [hover, show (w.next job (.reschedule timeoutSeconds)).attempts = 1 from rfl, hsame, hzero] at hnext
        rw [hnext]
        grind
      · -- An ordinary reschedule: the next job keeps what was carried over.
        have hord := isOrdinary_of_not_handoff hh
        rw [if_neg hh] at hover ⊢
        by_cases hcarried : carriedOver job = 0
        · rw [hover, show (w.next job (.reschedule timeoutSeconds)).attempts = 1 from rfl, hcarried] at hnext
          rw [hnext]
          simp [hcarried, hord, hh]
        · refine iff_of_false (fun heq => hcarried ?_) (by grind)
          have hhead := congrArg List.head? heq
          rw [head_attempts, head_attemptLaw, delivery_attempt, hover,
            show (w.next job (.reschedule timeoutSeconds)).attempts = 1 from rfl] at hhead
          simpa using hhead

/-- The attempts of a new message's deliveries follow the law exactly when no ordinary reschedule comes
after a handoff that carried over a retry. -/
theorem attempt_law_iff (message : Message) (hm : message.Fresh) (endings : List DeliveryEnd) :
    (w.deliveries message endings).map (·.attempt) = w.attemptLaw message.data 1 endings ↔
      ¬ w.CarriesOver message.data endings := by
  have hover : carriedOver ⟨message, 1⟩ = 0 := by
    rw [carriedOver, hm.attemptOffset]
    rfl
  have hfirst : (⟨message, 1⟩ : Carried).delivery.attempt = 1 := by rw [delivery_attempt, hover]
  have h := attempts_eq_iff (w := w) ⟨message, 1⟩ (Nat.le_refl 1) endings
  rw [hfirst, hover] at h
  rw [deliveries, h]
  simp

/-- A retry, an ordinary reschedule and then a handoff: 1, 2, 1, 1. -/
theorem attempt_law_iff_reset :
    let endings : List DeliveryEnd := [.retry, .reschedule 5, .reschedule 0]
    firstInvoke.Fresh ∧ (stampWorld.deliveries firstInvoke endings).map (·.attempt) = [1, 2, 1, 1] ∧
      ¬ stampWorld.CarriesOver firstInvoke.data endings := by
  intro endings
  exact ⟨firstInvoke_fresh, rfl, (attempt_law_iff firstInvoke firstInvoke_fresh endings).1 rfl⟩

/-- A retry, a handoff and then an ordinary reschedule: the delivery after the reschedule reports the
attempt the handoff carried over. -/
theorem attempt_after_handoff :
    let endings : List DeliveryEnd := [.retry, .reschedule 0, .reschedule 5]
    firstInvoke.Fresh ∧ (stampWorld.deliveries firstInvoke endings).map (·.attempt) = [1, 2, 2, 2] ∧
      stampWorld.attemptLaw firstInvoke.data 1 endings = [1, 2, 2, 1] := by
  intro endings
  exact ⟨firstInvoke_fresh, rfl, rfl⟩

end World

end WorkflowWorld.Dispatcher
