/-
Every path that enqueues a delivery puts it into the queue of its run and carries the message as it was
sent, through reschedules, timers, the sweep and retries.
-/
import WorkflowWorld.Dispatcher.Queue
import WorkflowWorld.Dispatcher.DeadLetters

namespace WorkflowWorld.Dispatcher

variable {w : World} {s s' : Queue} {ref : JobRef} {job : QueueJob}

/-- The World may send the message past its run's queue. -/
def World.mayBypass (w : World) (body : Body) : Bool := (w.parseInvoke body).any fun x => w.mayBypassRunQueue x.2

/-- The run queue of the job's message. -/
def World.queueOf (w : World) (job : QueueJob) : Option String := w.runQueueFor job.message.tenantId job.message.data

/-- A job carries its message and waits where the message belongs: a flow job in the message's run queue,
if it has one, except for the first job of a wake that passes it; a timer in none, with the run queue in
its payload. -/
structure World.Carries (w : World) (ref : JobRef) (job : QueueJob) : Prop where
  message : SameMessage job.sent job.message
  flow : job.task.timer = false → job.queueName = if job.bypassing then none else w.queueOf job
  timer : job.task.timer = true → job.queueName = none ∧ job.runQueue = w.queueOf job
  bypassing : job.bypassing = true → ref = job.origin ∧ job.task.timer = false ∧ w.mayBypass job.message.data = true
  tenant : job.message.tenantId = ref.1
  runner : ∀ tenantId, job.task.runner = .embedded tenantId → tenantId = ref.1

namespace World

theorem placeInvoke_runQueue (tenantId : TenantId) (message : Message) (delaySeconds : Option Nat) (held : Bool) :
    (w.placeInvoke tenantId message delaySeconds held).runQueue =
      if (w.placeInvoke tenantId message delaySeconds held).bypassingWake then none
      else w.runQueueFor tenantId message.data := by
  unfold placeInvoke
  split
  · rfl
  · dsimp only
    split <;> rfl

theorem mayBypass_of_bypassingWake {tenantId : TenantId} {message : Message} {delaySeconds : Option Nat} {held : Bool}
    (h : (w.placeInvoke tenantId message delaySeconds held).bypassingWake = true) : w.mayBypass message.data = true := by
  unfold placeInvoke at h
  split at h
  · cases h
  · rename_i runId invoke hparse
    dsimp only at h
    split at h
    · cases h
    · rename_i hplain
      simp only [Bool.or_eq_true, Bool.not_eq_true', not_or, Bool.not_eq_false, Bool.and_eq_true] at hplain
      simp only [mayBypass, hparse, Option.any_some, hplain.2.1]

theorem carries_graphileJob (embedded : Bool) {message : Message} (delaySeconds : Option Nat) (held : Bool) (now : Nat)
    (h : message.tenantId = ref.1) :
    w.Carries ref (graphileJob embedded ref message delaySeconds (w.placeInvoke ref.1 message delaySeconds held) now) := by
  have hq := placeInvoke_runQueue (w := w) ref.1 message delaySeconds held
  generalize hp : w.placeInvoke ref.1 message delaySeconds held = placed at hq ⊢
  -- A bypassing wake has no run queue, so it is never held as a timer.
  have hflow : placed.bypassingWake = true → (embedded && holdsAsTimer placed.runQueue delaySeconds) = false := by
    intro hb
    rw [hb, if_pos rfl] at hq
    simp [holdsAsTimer, hq]
  constructor
  · exact SameMessage.refl message
  · intro htimer
    simp only [graphileJob, queueOf, h] at htimer ⊢
    rw [htimer, ← hq]
    rfl
  · intro htimer
    simp only [graphileJob, queueOf, h] at htimer ⊢
    have hnot : placed.bypassingWake = false := by
      by_contra hb
      rw [hflow (by simpa using hb)] at htimer
      cases htimer
    rw [hnot] at hq
    rw [htimer, hq]
    exact ⟨rfl, rfl⟩
  · intro hb
    exact ⟨rfl, hflow hb, mayBypass_of_bypassingWake (hp ▸ hb)⟩
  · exact h
  · intro tenantId hr
    simp only [graphileJob] at hr
    split at hr
    · cases hr
      exact h
    · cases hr

theorem message_rescheduledJob (lock : Lock) (timeoutSeconds now : Nat) (h : w.Carries ref job) :
    (w.rescheduledJob job lock timeoutSeconds now).message.tenantId = ref.1 ∧
      SameMessage job.sent (w.rescheduledJob job lock timeoutSeconds now).message := by
  have htenant : (w.rescheduledJob job lock timeoutSeconds now).message.tenantId = ref.1 := by
    unfold rescheduledJob
    cases hr : job.task.runner with
    | dispatcher => exact h.tenant
    | embedded tenantId => exact h.runner tenantId hr
  refine ⟨htenant, ?_⟩
  have hm := h.message
  refine ⟨hm.id, hm.data, hm.messageId, hm.idempotencyKey, hm.headers, ?_, hm.deploymentId⟩
  rw [htenant, ← h.tenant, hm.tenantId]

theorem carries_rescheduledJob (n : Nat) (lock : Lock) (timeoutSeconds now : Nat) (h : w.Carries ref job) :
    w.Carries (ref.1, n) (w.rescheduledJob job lock timeoutSeconds now) := by
  obtain ⟨htenant, hsame⟩ := message_rescheduledJob lock timeoutSeconds now h
  refine ⟨hsame, fun htimer => ?_, fun htimer => ?_, (fun hb => by cases hb), htenant, h.runner⟩
  · simp only [rescheduledJob, queueOf] at htimer ⊢
    rw [htimer]
  · simp only [rescheduledJob, queueOf] at htimer ⊢
    rw [htimer]
    exact ⟨rfl, rfl⟩

theorem carries_promotedJob (n : Nat) (lock : Lock) (now : Nat) (htimer : job.task.timer = true) (h : w.Carries ref job) :
    w.Carries (ref.1, n) (w.promotedJob job lock now) := by
  refine ⟨h.message, fun _ => ?_, (fun ht => by cases ht), (fun hb => by cases hb), h.tenant, h.runner⟩
  have hq := (h.timer htimer).2
  simp only [promotedJob, queueOf, hq, Option.or_self]
  rfl

theorem carries_swept (now : Nat) (runner : Runner) (h : w.Carries ref job) : w.Carries ref (Queue.swept now runner job) := by
  unfold Queue.swept
  split
  · rename_i queue hqueue
    split
    · rename_i hg
      have htask : job.task.timer = false := by rw [hg.1]
      have hq := h.flow htask
      rw [hqueue] at hq
      -- The job waits in a queue, so it is not a bypassing wake.
      have hplain : job.bypassing = false := by
        by_contra hb
        rw [if_pos (by simpa using hb)] at hq
        cases hq
      rw [hplain] at hq
      refine ⟨h.message, (fun ht => by cases ht), fun _ => ⟨rfl, hq⟩, fun hb => ?_, h.tenant, fun tenantId hr => ?_⟩
      · rw [hplain] at hb
        cases hb
      · exact h.runner tenantId (by rw [hg.1]; exact hr)
    · exact h
  · exact h

/-- A recovery message is not stamped with a spec version. -/
def Unstamped (w : World) : Prop := ∀ runId, w.messageRunSpecVersion { runId := some runId } = none

theorem runQueueFor_recovery (hw : w.Unstamped) (tenantId : TenantId) (runId : RunId) :
    w.runQueueFor tenantId { runId := some runId } = some (runQueueName tenantId runId) := by
  simp [runQueueFor, isSingleOrchestratorRunMessage, hw runId, specVersionSingleOrchestrator, bodyRunId]

theorem carries_recoveredJob (hw : w.Unstamped) (ref : JobRef) (runId : RunId) (name deploymentId : String)
    (queueNamespace : Option String) (runAt : Nat) :
    w.Carries ref (recoveredJob ref runId name deploymentId queueNamespace runAt) := by
  refine ⟨SameMessage.refl _, fun _ => ?_, (fun ht => by cases ht), (fun hb => by cases hb), rfl, (fun _ hr => by cases hr)⟩
  simp only [recoveredJob, recoveryMessage, queueOf, runQueueFor_recovery hw]
  rfl

theorem Carries.touched {job' : QueueJob} (h : w.Carries ref job) (ht : job.Touched job') : w.Carries ref job' := by
  rw [ht.rest]
  exact ⟨h.message, h.flow, h.timer, h.bypassing, h.tenant, h.runner⟩

/-- Every event keeps it. -/
theorem carries_of_step (hw : w.Unstamped) {e : QueueEvent} (hs : ∀ r j, s.jobs r = some j → w.Carries r j)
    (h : w.step e s = some s') : ∀ r j, s'.jobs r = some j → w.Carries r j := by
  intro r j hj
  rcases Queue.jobs_of_steps (steps_of_step h) hj with hadd | ⟨j₀, hj₀, ht⟩ | ⟨runner, j₀, hj₀, rfl⟩
  · cases hadd with
    | send htenant => exact carries_graphileJob _ _ _ s.now htenant
    | recover => exact carries_recoveredJob hw r _ _ _ _ _
    | reschedule hh => exact carries_rescheduledJob _ _ _ s.now (hs _ _ hh.found)
    | promote hh htimer => exact carries_promotedJob _ _ s.now htimer (hs _ _ hh.found)
  · exact (hs r j₀ hj₀).touched ht
  · exact carries_swept s.now runner (hs r j₀ hj₀)

/-- An orchestrator message of the run: one that the single orchestrator of a spec 9 run takes, and any
message of an earlier run. -/
def orchestrates (w : World) (body : Body) (runId : RunId) : Prop :=
  if w.isSingleOrchestratorRunMessage body then w.singleOrchestratorRunIdOf body = some runId
  else bodyRunId body = some runId

theorem runQueueFor_of_orchestrates {body : Body} {runId : RunId} (h : w.orchestrates body runId) (tenantId : TenantId) :
    w.runQueueFor tenantId body = some (runQueueName tenantId runId) := by
  unfold orchestrates at h
  unfold runQueueFor
  split at h
  · rename_i hspec
    rw [if_pos hspec, h]
    rfl
  · rename_i hspec
    rw [if_neg hspec, h]
    rfl

/-- In every state that any sequence of sends, claims, retries, reschedules, promotions, sweeps and
recoveries leads to, a flow job waits in exactly the queue `runQueueFor` names for its message, or in none
when that names none; only the first job of a bypassing hook wake waits in none instead; and its message is
the one that was sent. A run's recovery jobs and the messages of its quarantine letters have the queue of
its orchestrator messages. -/
theorem deliveries_keep_run_queue_and_message (hw : w.Unstamped) (h : Machine.Reaches w.step Machine.always {} s) :
    (∀ ref job, s.jobs ref = some job →
      SameMessage job.sent job.message ∧
      (job.task.timer = false →
        job.queueName = if job.bypassing then none else w.runQueueFor job.message.tenantId job.message.data) ∧
      (job.bypassing = true → ref = job.origin ∧ w.mayBypass job.message.data = true)) ∧
    ∀ tenantId runId body, w.orchestrates body runId →
      (∀ n name deploymentId queueNamespace runAt,
        (recoveredJob (tenantId, n) runId name deploymentId queueNamespace runAt).queueName = w.runQueueFor tenantId body) ∧
      (∀ (o : ReconcileWorkflowRunsOptions) (call : Nat) (run : HostRun), o.tenantId = tenantId → run.id = runId →
        (o.letter call run).queueName = w.runQueueFor tenantId body) ∧
      ∀ messageId name deploymentId queueNamespace,
        w.runQueueFor tenantId (recoveryMessage messageId tenantId runId name deploymentId queueNamespace).data =
          w.runQueueFor tenantId body := by
  refine ⟨fun ref job hj => ?_, fun tenantId runId body hb => ?_⟩
  · have hc : ∀ r j, s.jobs r = some j → w.Carries r j :=
      h.invariant (by simp) fun _ _ _ hs _ he => carries_of_step hw hs he
    have := hc ref job hj
    exact ⟨this.message, this.flow, fun hb => ⟨(this.bypassing hb).1, (this.bypassing hb).2.2⟩⟩
  · rw [runQueueFor_of_orchestrates hb]
    refine ⟨fun n name deploymentId queueNamespace runAt => rfl, fun o call run ho hr => ?_, fun _ _ _ _ => ?_⟩
    · rw [ReconcileWorkflowRunsOptions.letter, ho, hr]
    · exact runQueueFor_recovery hw tenantId runId

/-- A hook wake passes its run's held queue, is rescheduled far ahead, held as a timer and promoted. -/
def hoppingRun : List QueueEvent :=
  [.send ("t", 0) false hookWake none true none, .claim ("t", 0), .begin_ ("t", 0), .reschedule ("t", 0) 1 90,
    .return_ ("t", 0), .complete ("t", 0), .tick 90, .claim ("t", 1), .promote ("t", 1) 2, .complete ("t", 1)]

theorem deliveries_keep_run_queue_and_message_hoppingRun :
    stampWorld.Unstamped ∧ ∃ s, Machine.Reaches stampWorld.step Machine.always {} s ∧
      ∃ job, s.jobs ("t", 2) = some job ∧ job.queueName = some "wfrun:t:r" ∧ SameMessage hookWake job.message := by
  have hw : stampWorld.Unstamped := fun _ => rfl
  obtain ⟨s, hr, hp⟩ := @Machine.exists_of_play _ _ stampWorld.step Machine.always {} hoppingRun
    (fun s => (s.jobs ("t", 2)).any fun job => decide (job.task.timer = false ∧ job.bypassing = false ∧
      job.sent = hookWake ∧ stampWorld.runQueueFor job.message.tenantId job.message.data = some "wfrun:t:r"))
    (by decide +kernel)
  obtain ⟨job, hj, hjob⟩ := (Option.any_eq_true _ _).1 hp
  obtain ⟨htimer, hby, hsent, hq⟩ := of_decide_eq_true hjob
  obtain ⟨hsame, hflow, -⟩ := (deliveries_keep_run_queue_and_message hw hr).1 _ job hj
  exact ⟨hw, s, hr, job, hj, by rw [hflow htimer, hby, if_neg (by simp), hq], hsent ▸ hsame⟩

end World

end WorkflowWorld.Dispatcher
