/-
What holds of two jobs at once: deliveries of one run wait for one another, unless one is a hook wake that
passes its run's queue, and of the jobs that a deduplicated key has had at most one can still run its message.
-/
import WorkflowWorld.Safety.Conserved
import WorkflowWorld.Safety.RunQueues

namespace WorkflowWorld.Dispatcher

variable {w : World} {s s' : Queue} {e : QueueEvent} {ref r r₁ r₂ : JobRef} {job j j' j₁ j₂ : QueueJob} {key : String}

/-! ## Locks in a run's queue -/

/-- A job that stays has no lock it did not have, and one that is locked stays in its queue. -/
structure QueueJob.Held (j j' : QueueJob) : Prop where
  lock : j'.lock.isSome = true → j.lock.isSome = true
  queueName : j'.lock.isSome = true → j'.queueName = j.queueName

namespace QueueJob

theorem Held.refl (j : QueueJob) : Held j j := ⟨id, fun _ => rfl⟩

theorem Held.trans {a b c : QueueJob} (h : Held a b) (h' : Held b c) : Held a c :=
  ⟨fun hl => h.lock (h'.lock hl), fun hl => (h'.queueName hl).trans (h.queueName (h'.lock hl))⟩

theorem held_atStage (j : QueueJob) (stage : LockStage) : Held j (j.atStage stage) := by
  refine ⟨fun hl => ?_, fun _ => rfl⟩
  rw [← hl]
  exact Option.isSome_map.symm

theorem held_released (j : QueueJob) (leader : JobRef) (stage : LockStage) : Held j (j.released leader stage) := by
  unfold released
  split
  · exact held_atStage j stage
  · exact .refl j

theorem held_bury (j : QueueJob) (runner : Runner) : Held j (Queue.bury runner j) := by
  unfold Queue.bury
  split
  · exact held_atStage j .dead
  · exact .refl j

theorem held_unlocked (j : QueueJob) (runAt : Nat) : Held j { j with lock := none, runAt } :=
  ⟨(fun hl => by cases hl), (fun hl => by cases hl)⟩

theorem held_displaced {k : Option String} (h : j.displaced k = some j') : Held j j' := by
  rcases Queue.displaced_cases h with ⟨rfl, -⟩ | ⟨rfl, -⟩
  · exact .refl j'
  · exact ⟨id, fun _ => rfl⟩

theorem held_swept (j : QueueJob) (now : Nat) (runner : Runner) : Held j (Queue.swept now runner j) := by
  unfold Queue.swept
  split
  · split
    · rename_i hg
      -- The sweep moves jobs that are not locked.
      refine ⟨id, fun hl => ?_⟩
      rw [show j.lock = none from hg.2.2.1] at hl
      cases hl
    · exact .refl j
  · exact .refl j

end QueueJob

namespace Queue

/-- The job was in the table, and is held no more than it was. -/
def Remains (s : Queue) (r : JobRef) (j' : QueueJob) : Prop := ∃ j, s.jobs r = some j ∧ j.Held j'

theorem remains_setJob (hj : s.jobs ref = some job) (hh : job.Held j) (h : (s.setJob ref (some j)).jobs r = some j') :
    Remains s r j' := by
  rcases jobs_setJob h with ⟨rfl, heq⟩ | ⟨-, hj'⟩
  · exact ⟨job, hj, Option.some.inj heq ▸ hh⟩
  · exact ⟨j', hj', .refl j'⟩

theorem remains_release {stage : LockStage} (h : (s.release ref stage).jobs r = some j') : Remains s r j' := by
  obtain ⟨j, hj, rfl⟩ := Option.map_eq_some_iff.1 h
  exact ⟨j, hj, j.held_released ref stage⟩

theorem Remains.trans {s₁ : Queue} (h₁ : ∀ r j, s₁.jobs r = some j → Remains s r j) (h : Remains s₁ r j') : Remains s r j' := by
  obtain ⟨j₁, hj₁, hh₁⟩ := h
  obtain ⟨j, hj, hh⟩ := h₁ r j₁ hj₁
  exact ⟨j, hj, hh.trans hh₁⟩

/-- A locked job was locked before, or the event claims it while its queue is free. -/
theorem locked_of_steps (h : w.Steps s e s') (hj : s'.jobs r = some j') (hl : j'.lock.isSome = true) :
    Remains s r j' ∨ e = .claim r ∧ ∃ j, s.jobs r = some j ∧ s.queueFree j = true ∧ j'.queueName = j.queueName := by
  -- A job that is added is not locked, and leaves the others held at most.
  have hadd : ∀ (s₁ : Queue) (ref : JobRef) (new : QueueJob), (∀ r j, s₁.jobs r = some j → Remains s r j) →
      new.lock = none → (s₁.addJob ref new).jobs r = some j' → Remains s r j' := by
    intro s₁ ref new h₁ hnew hj
    rcases jobs_addJob hj with ⟨rfl, rfl⟩ | ⟨-, j₀, hj₀, hd⟩
    · rw [hnew] at hl
      cases hl
    · exact Remains.trans h₁ ⟨j₀, hj₀, QueueJob.held_displaced hd⟩
  have hsame : ∀ r j, s.jobs r = some j → Remains s r j := fun r j hj => ⟨j, hj, .refl j⟩
  have hstage : ∀ {ref : JobRef} {job : QueueJob} {lock : Lock} (stage : LockStage), s.Handles ref job lock →
      ∀ r j, (s.setJob ref (some (job.atStage stage))).jobs r = some j → Remains s r j :=
    fun stage hh r j hj => remains_setJob hh.found (QueueJob.held_atStage _ stage) hj
  cases h with
  | tick | commit | deduplicate => exact .inl (hsame r j' hj)
  | send | recover => exact .inl (hadd _ _ _ hsame rfl hj)
  | @claim ref job claimed lock hfound _ _ hfree _ hclaimed =>
    have hset : (s.setJob ref (some claimed)).jobs r = some j' := by split at hj <;> exact hj
    rcases jobs_setJob hset with ⟨rfl, heq⟩ | ⟨-, hj'⟩
    · refine .inr ⟨rfl, job, hfound, hfree, ?_⟩
      rw [← Option.some.inj heq, hclaimed]
    · exact .inl (hsame r j' hj')
  | begin_ hh => exact .inl (hstage _ hh r j' hj)
  | acknowledge hh =>
    replace hj : ((_ : Queue).mark _ _).jobs r = some j' := hj
    rw [jobs_mark] at hj
    exact .inl (Remains.trans (hstage .done hh) (remains_release hj))
  | reschedule hh => exact .inl (hadd _ _ _ (hstage .rescheduled hh) rfl hj)
  | return_ hh => exact .inl (Remains.trans (hstage .done hh) (remains_release hj))
  | swallow hh => exact .inl (hstage .done hh r j' hj)
  | promote hh => exact .inl (hadd _ _ _ (hstage .done hh) rfl hj)
  | complete hh =>
    rcases jobs_setJob hj with ⟨-, heq⟩ | ⟨-, hj⟩
    · cases heq
    · exact .inl (hsame r j' hj)
  | @fail ref job lock backoff threw hh =>
    refine .inl (Remains.trans (fun r j hj => ?_) (remains_release hj))
    exact remains_setJob hh.found (job.held_unlocked _) hj
  | crash runner =>
    obtain ⟨j, hj₀, rfl⟩ := Option.map_eq_some_iff.1 hj
    exact .inl ⟨j, hj₀, j.held_bury runner⟩
  | @reclaim ref job lock hh => exact .inl (remains_setJob hh.found (job.held_unlocked job.runAt) hj)
  | sweep runner =>
    obtain ⟨j, hj₀, rfl⟩ := Option.map_eq_some_iff.1 hj
    exact .inl ⟨j, hj₀, j.held_swept s.now runner⟩

/-- Of the jobs in one queue at most one is locked. -/
def Serial (s : Queue) : Prop :=
  ∀ r₁ r₂ j₁ j₂, s.jobs r₁ = some j₁ → s.jobs r₂ = some j₂ → j₁.lock.isSome = true → j₂.lock.isSome = true →
    j₁.queueName.isSome = true → j₁.queueName = j₂.queueName → r₁ = r₂

/-- A job whose queue is free is in no queue with a locked job. -/
theorem not_locked_of_queueFree (ht : Table s) (hfree : s.queueFree j = true) (hname : j.queueName.isSome = true)
    (hj : s.jobs r = some j') (hq : j'.queueName = j.queueName) : j'.lock.isSome = false := by
  unfold queueFree at hfree
  rw [Bool.or_eq_true] at hfree
  rcases hfree with hnone | hall
  · rw [Option.isNone_iff_eq_none] at hnone
    rw [hnone] at hname
    cases hname
  · have hother := List.all_eq_true.1 hall r (ht.named r j' hj)
    rw [hj, Option.all_some, hq] at hother
    simpa using hother

theorem Serial.step (hs : Serial s) (ht : Table s) (h : w.Steps s e s') : Serial s' := by
  rintro r₁ r₂ j₁ j₂ h₁ h₂ hl₁ hl₂ hname heq
  rcases locked_of_steps h h₁ hl₁ with ⟨i₁, hi₁, hh₁⟩ | ⟨rfl, i₁, hi₁, hfree₁, hq₁⟩
  · rcases locked_of_steps h h₂ hl₂ with ⟨i₂, hi₂, hh₂⟩ | ⟨-, i₂, hi₂, hfree₂, hq₂⟩
    · rw [hh₁.queueName hl₁, hh₂.queueName hl₂] at heq
      rw [hh₁.queueName hl₁] at hname
      exact hs r₁ r₂ i₁ i₂ hi₁ hi₂ (hh₁.lock hl₁) (hh₂.lock hl₂) hname heq
    · -- The second is claimed now, beside the first.
      rw [hh₁.queueName hl₁, hq₂] at heq
      rw [hh₁.queueName hl₁, heq] at hname
      have hfree := not_locked_of_queueFree ht hfree₂ hname hi₁ heq
      rw [hh₁.lock hl₁] at hfree
      cases hfree
  · rcases locked_of_steps h h₂ hl₂ with ⟨i₂, hi₂, hh₂⟩ | ⟨hclaim, -⟩
    · rw [hq₁, hh₂.queueName hl₂] at heq
      rw [hq₁] at hname
      have hfree := not_locked_of_queueFree ht hfree₁ hname hi₂ heq.symm
      rw [hh₂.lock hl₂] at hfree
      cases hfree
    · cases hclaim
      rfl

end Queue

namespace World

/-- In every state that any interleaving of sends by Worlds, reschedules, timers, sweeps, recoveries, claims by
dispatchers and embedded runners, failures, crashes and reclaims leads to: of two jobs that are claimed at once
and whose messages have the same run queue, one is the first job of a hook wake that passes it. -/
theorem run_deliveries_apart (hw : w.Unstamped) (h : Machine.Reaches w.step Machine.always {} s) {queue : String}
    (h₁ : s.jobs r₁ = some j₁) (h₂ : s.jobs r₂ = some j₂) (hne : r₁ ≠ r₂) (hl₁ : j₁.lock.isSome = true)
    (hl₂ : j₂.lock.isSome = true) (hf₁ : j₁.task.timer = false) (hf₂ : j₂.task.timer = false)
    (hq₁ : w.runQueueFor j₁.message.tenantId j₁.message.data = some queue)
    (hq₂ : w.runQueueFor j₂.message.tenantId j₂.message.data = some queue) :
    j₁.bypassing = true ∧ w.mayBypass j₁.message.data = true ∨ j₂.bypassing = true ∧ w.mayBypass j₂.message.data = true := by
  obtain ⟨-, hserial, hcarries⟩ := h.invariant
    (P := fun s => Queue.Table s ∧ s.Serial ∧ ∀ r j, s.jobs r = some j → w.Carries r j)
    ⟨⟨by simp, by simp⟩, (fun _ _ _ _ h₁ => by cases h₁), by simp⟩ fun e s s' hs _ he => by
      have hstep := World.steps_of_step he
      exact ⟨hs.1.step hstep, hs.2.1.step hs.1 hstep, carries_of_step hw hs.2.2 he⟩
  have hc₁ := hcarries r₁ j₁ h₁
  have hc₂ := hcarries r₂ j₂ h₂
  cases hb₁ : j₁.bypassing with
  | true => exact .inl ⟨rfl, (hc₁.bypassing hb₁).2.2⟩
  | false =>
    cases hb₂ : j₂.bypassing with
    | true => exact .inr ⟨rfl, (hc₂.bypassing hb₂).2.2⟩
    | false =>
      -- Both wait in the run's queue.
      have hn₁ := hc₁.flow hf₁
      have hn₂ := hc₂.flow hf₂
      rw [hb₁, if_neg Bool.false_ne_true, queueOf, hq₁] at hn₁
      rw [hb₂, if_neg Bool.false_ne_true, queueOf, hq₂] at hn₂
      exact absurd (hserial r₁ r₂ j₁ j₂ h₁ h₂ hl₁ hl₂ (by rw [hn₁]; rfl) (hn₁.trans hn₂.symm)) hne

/-- A delivery of the run is under way, and a wake passes it. -/
def passingRun : List QueueEvent :=
  [.send ("t", 0) false { hookWake with messageId := "m0", data := { runId := some "r" } } none false none, .claim ("t", 0),
    .send ("t", 1) false hookWake none true none, .claim ("t", 1)]

theorem run_deliveries_apart_passingRun :
    ∃ s, Machine.Reaches stampWorld.step Machine.always {} s ∧
      ∃ j₀ j₁, s.jobs ("t", 0) = some j₀ ∧ s.jobs ("t", 1) = some j₁ ∧ j₀.bypassing = false ∧ j₁.bypassing = true := by
  obtain ⟨s, hr, hp⟩ := @Machine.exists_of_play _ _ stampWorld.step Machine.always {} passingRun
    (fun s => (s.jobs ("t", 0)).any fun j₀ : QueueJob => (s.jobs ("t", 1)).any fun j₁ : QueueJob =>
      decide (j₀.lock.isSome = true ∧ j₁.lock.isSome = true ∧ j₀.task.timer = false ∧ j₁.task.timer = false ∧
        j₀.bypassing = false ∧ stampWorld.runQueueFor j₀.message.tenantId j₀.message.data = some "wfrun:t:r" ∧
        stampWorld.runQueueFor j₁.message.tenantId j₁.message.data = some "wfrun:t:r"))
    (by decide +kernel)
  obtain ⟨j₀, h₀, hp⟩ := (Option.any_eq_true _ _).1 hp
  obtain ⟨j₁, h₁, hp⟩ := (Option.any_eq_true _ _).1 hp
  obtain ⟨hl₀, hl₁, hf₀, hf₁, hb, hq₀, hq₁⟩ := of_decide_eq_true hp
  refine ⟨s, hr, j₀, j₁, h₀, h₁, hb, ?_⟩
  rcases run_deliveries_apart (fun _ => rfl) hr h₀ h₁ (by decide) hl₀ hl₁ hf₀ hf₁ hq₀ hq₁ with ⟨hno, -⟩ | ⟨hyes, -⟩
  · rw [hb] at hno
    cases hno
  · exact hyes

end World

/-! ## The jobs of one key -/

/-- The handler is not through with the message, and its process lives. -/
def LockStage.live (stage : LockStage) : Bool := !stage.over && stage != .dead

namespace QueueJob

/-- The job may still have its message run: its handler is not through with it, or graphile may claim it again. -/
def mayRun (job : QueueJob) : Bool := !job.spent || job.lock.any (·.stage.live)

/-- A job whose message is sent under the key has the key as long as it may run. -/
structure Keyed (key : String) (job : QueueJob) : Prop where
  named : job.key = some key ∨ (∃ l ∈ job.lock, l.key = some key) ∨ specKey job.message.jobKey = some key →
    job.message.idempotencyKey = some key
  kept : job.message.idempotencyKey = some key → job.mayRun = true → job.key = some key
  claimed : job.message.idempotencyKey = some key → job.mayRun = true → ∀ l ∈ job.lock, l.key = some key

theorem mayRun_of_live {lock : Lock} (hl : job.lock = some lock) (hlive : lock.stage.live = true) : job.mayRun = true := by
  unfold mayRun
  rw [hl, Option.any_some, hlive, Bool.or_true]

theorem Keyed.atStage {lock : Lock} {stage : LockStage} (h : job.Keyed key) (hl : job.lock = some lock)
    (hst : stage.live = true → lock.stage.live = true) : (job.atStage stage).Keyed key := by
  have hrun : (job.atStage stage).mayRun = true → job.mayRun = true := by
    unfold mayRun QueueJob.atStage
    simp only [hl, Option.map_some, Option.any_some, Bool.or_eq_true]
    exact Or.imp_right hst
  refine ⟨fun hn => h.named ?_, fun hm hr => h.kept hm (hrun hr), fun hm hr l hlock => ?_⟩
  · rcases hn with hkey | ⟨l, hlock, hkey⟩ | hkey
    · exact .inl hkey
    · obtain ⟨l₀, hl₀, rfl⟩ := Option.map_eq_some_iff.1 hlock
      exact .inr (.inl ⟨l₀, hl₀, hkey⟩)
    · exact .inr (.inr hkey)
  · obtain ⟨l₀, hl₀, rfl⟩ := Option.map_eq_some_iff.1 hlock
    exact h.claimed hm (hrun hr) l₀ hl₀

theorem Keyed.released (leader : JobRef) {stage : LockStage} (h : job.Keyed key) : (job.released leader stage).Keyed key := by
  unfold QueueJob.released
  split
  · rename_i hjoined
    obtain ⟨lock, hl, hst⟩ := (Option.any_eq_true _ _).1 hjoined
    refine h.atStage hl fun _ => ?_
    rw [eq_of_beq hst]
    rfl
  · exact h

theorem Keyed.bury (runner : Runner) (h : job.Keyed key) : (Queue.bury runner job).Keyed key := by
  unfold Queue.bury
  split
  · cases hl : job.lock with
    | none =>
      have hsame : job.atStage .dead = job := by
        unfold QueueJob.atStage
        rw [hl, Option.map_none, ← hl]
      rw [hsame]
      exact h
    | some lock => exact h.atStage hl fun hdead => by cases hdead
  · exact h

theorem Keyed.unlocked (runAt : Nat) (h : job.Keyed key) : ({ job with lock := none, runAt } : QueueJob).Keyed key := by
  refine ⟨fun hn => h.named ?_, fun hm hr => h.kept hm ?_, fun _ _ l hl => by cases hl⟩
  · rcases hn with hkey | ⟨l, hl, -⟩ | hkey
    · exact .inl hkey
    · cases hl
    · exact .inr (.inr hkey)
  · unfold mayRun at hr ⊢
    rw [Option.any_none, Bool.or_false] at hr
    rw [Bool.or_eq_true]
    exact .inl hr

theorem Keyed.swept (now : Nat) (runner : Runner) (h : job.Keyed key) : (Queue.swept now runner job).Keyed key := by
  unfold Queue.swept
  split
  · split
    · exact ⟨h.named, h.kept, h.claimed⟩
    · exact h
  · exact h

/-- A claim hands the key on. -/
theorem Keyed.claim {lock : Lock} (h : job.Keyed key) (hp : job.pending = true) (hkey : lock.key = job.key) :
    ({ job with attempts := job.attempts + 1, lock := some lock } : QueueJob).Keyed key := by
  have hrun : job.mayRun = true := by
    unfold pending at hp
    unfold mayRun
    rw [Bool.and_eq_true] at hp
    rw [hp.1, Bool.true_or]
  refine ⟨fun hn => h.named ?_, fun hm _ => h.kept hm hrun, fun hm _ l hl => ?_⟩
  · rcases hn with hk | ⟨l, hl, hk⟩ | hk
    · exact .inl hk
    · cases hl
      exact .inl (hkey ▸ hk)
    · exact .inr (.inr hk)
  · cases hl
    exact hkey.trans (h.kept hm hrun)

/-- A job that another takes the key from can not run, if the key was its message's. -/
theorem Keyed.displaced {k : Option String} (h : j.Keyed key) (hd : j.displaced k = some j')
    (hover : k = some key → j.key = some key → ∀ l ∈ j.lock, l.stage.live = false) : j'.Keyed key := by
  rcases Queue.displaced_cases hd with ⟨rfl, -⟩ | ⟨rfl, hholds, -⟩
  · exact h
  · have hdone : j.message.idempotencyKey = some key →
        ({ j with key := none, attempts := maxGraphileJobAttempts } : QueueJob).mayRun = true → False := by
      intro hm hr
      simp only [mayRun, spent, Nat.le_refl, decide_true, Bool.not_true, Bool.false_or] at hr
      obtain ⟨l, hl, hlive⟩ := (Option.any_eq_true _ _).1 hr
      have hk := h.kept hm (mayRun_of_live hl hlive)
      unfold holds at hholds
      rw [Bool.and_eq_true, beq_iff_eq] at hholds
      have hno := hover (hholds.2.symm.trans hk) hk l hl
      rw [hlive] at hno
      cases hno
    refine ⟨fun hn => h.named ?_, fun hm hr => (hdone hm hr).elim, fun hm hr => (hdone hm hr).elim⟩
    rcases hn with hk | hn
    · cases hk
    · exact .inr hn

end QueueJob

namespace World

/-- Under the key the Worlds only send messages that `unsafe_dedupe` deduplicates, and no run is recovered. -/
def onlyDedupes (w : World) (key : String) : QueueEvent → Queue → Bool
  | .send ref _ message delaySeconds held _, _ =>
    let placed := w.placeInvoke ref.1 message delaySeconds held
    decide (placed.jobKey = key ∨ message.jobKey = key → placed.jobKeyMode = .unsafeDedupe)
  | .recover _ runId .., _ => decide ("msg_recover_" ++ runId ≠ key)
  | _, _ => true

/-- A deduplicated send goes under the message's own key. -/
theorem jobKey_of_dedupe {tenantId : TenantId} {message : Message} {delaySeconds : Option Nat} {held : Bool}
    (h : (w.placeInvoke tenantId message delaySeconds held).jobKeyMode = .unsafeDedupe) :
    (w.placeInvoke tenantId message delaySeconds held).jobKey = message.jobKey ∧
      message.idempotencyKey = some message.jobKey := by
  have hmode : ∀ {body : Body} {k : Option String}, w.jobKeyModeFor body k = .unsafeDedupe → k.isSome = true := by
    intro body k hk
    unfold jobKeyModeFor at hk
    split at hk
    · rename_i hg
      rw [Bool.and_eq_true] at hg
      exact hg.1
    · cases hk
  have hown : ∀ {k : Option String}, k = message.idempotencyKey → k.isSome = true →
      message.idempotencyKey = some message.jobKey := by
    rintro k rfl hk
    obtain ⟨x, hx⟩ := Option.isSome_iff_exists.1 hk
    rw [Message.jobKey, hx, Option.getD_some]
  unfold placeInvoke at h ⊢
  split at h
  · exact ⟨rfl, hown rfl (hmode h)⟩
  · dsimp only at h ⊢
    split at h
    · rename_i hg
      rw [if_pos hg]
      exact ⟨rfl, hown rfl (hmode h)⟩
    · cases h

theorem specKey_eq {k : String} (hkey : key ≠ "") : specKey k = some key ↔ k = key := by
  unfold specKey
  split
  · rename_i hk
    refine ⟨nofun, fun hk' => ?_⟩
    exact absurd (hk'.symm.trans hk) hkey
  · rw [Option.some.injEq]

theorem keyed_graphileJob (hkey : key ≠ "") (embedded : Bool) (ref : JobRef) (message : Message) (delaySeconds : Option Nat)
    (held : Bool) (now : Nat)
    (hmode : (w.placeInvoke ref.1 message delaySeconds held).jobKey = key ∨ message.jobKey = key →
      (w.placeInvoke ref.1 message delaySeconds held).jobKeyMode = .unsafeDedupe) :
    (graphileJob embedded ref message delaySeconds (w.placeInvoke ref.1 message delaySeconds held) now).Keyed key := by
  refine ⟨fun hn => ?_, fun hm _ => ?_, fun _ _ l hl => by cases hl⟩
  · rcases hn with hk | ⟨l, hl, -⟩ | hk
    · have hk := (specKey_eq hkey).1 hk
      obtain ⟨hplaced, hown⟩ := jobKey_of_dedupe (hmode (.inl hk))
      rw [← hk, hplaced]
      exact hown
    · cases hl
    · have hk := (specKey_eq hkey).1 hk
      obtain ⟨-, hown⟩ := jobKey_of_dedupe (hmode (.inr hk))
      rw [← hk]
      exact hown
  · have hjobKey : message.jobKey = key := by
      rw [Message.jobKey, show message.idempotencyKey = some key from hm, Option.getD_some]
    obtain ⟨hplaced, -⟩ := jobKey_of_dedupe (hmode (.inr hjobKey))
    exact (specKey_eq hkey).2 (hplaced.trans hjobKey)

theorem keyed_recoveredJob (hkey : key ≠ "") (ref : JobRef) {runId : RunId} (name deploymentId : String)
    (queueNamespace : Option String) (runAt : Nat) (hne : "msg_recover_" ++ runId ≠ key) :
    (recoveredJob ref runId name deploymentId queueNamespace runAt).Keyed key := by
  refine ⟨fun hn => ?_, (fun hm => by cases hm), (fun hm => by cases hm)⟩
  rcases hn with hk | ⟨l, hl, -⟩ | hk
  · exact absurd (Option.some.inj hk) hne
  · cases hl
  · exact absurd ((specKey_eq hkey).1 hk) hne

theorem keyed_rescheduledJob (hkey : key ≠ "") (lock : Lock) (timeoutSeconds now : Nat) (h : job.Keyed key) :
    (w.rescheduledJob job lock timeoutSeconds now).Keyed key := by
  refine ⟨fun hn => h.named (.inr (.inr ?_)), fun hm _ => ?_, fun _ _ l hl => by cases hl⟩
  · rcases hn with hk | ⟨l, hl, -⟩ | hk
    · exact hk
    · cases hl
    · exact hk
  · have hm' : job.message.idempotencyKey = some key := hm
    show specKey job.message.jobKey = some key
    rw [Message.jobKey, hm', Option.getD_some]
    exact (specKey_eq hkey).2 rfl

/-- The flow job has the key its timer was claimed with. -/
theorem keyed_promotedJob {lock : Lock} (now : Nat) (hl : job.lock = some lock) (hlive : lock.stage.live = true)
    (h : job.Keyed key) : (w.promotedJob job lock now).Keyed key := by
  refine ⟨fun hn => h.named ?_, fun hm _ => ?_, fun _ _ l hl => by cases hl⟩
  · rcases hn with hk | ⟨l, hl', -⟩ | hk
    · exact .inr (.inl ⟨lock, hl, hk⟩)
    · cases hl'
    · exact .inr (.inr hk)
  · exact h.claimed hm (QueueJob.mayRun_of_live hl hlive) lock hl

/-- A job is added under the key only where no handler is at work on one that has it. -/
theorem keyed_addJob (hs : ∀ r j, s.jobs r = some j → j.Keyed key) (hnew : job.Keyed key)
    (hover : job.key = some key → ∀ r j, s.jobs r = some j → j.key = some key → ∀ l ∈ j.lock, l.stage.live = false) :
    ∀ r j, (s.addJob ref job).jobs r = some j → j.Keyed key := by
  intro r j hj
  rcases Queue.jobs_addJob hj with ⟨-, rfl⟩ | ⟨-, j₀, hj₀, hd⟩
  · exact hnew
  · exact (hs r j₀ hj₀).displaced hd fun hk hk₀ => hover hk r j₀ hj₀ hk₀

/-- A handler that continues its message with a new job is through with its own, which alone has the key. -/
theorem over_of_continued {lock : Lock} {stage : LockStage} (ht : Queue.Table s) (hj : job.Keyed key) (hh : s.Handles ref job lock)
    (hlive : lock.stage.live = true) (hst : stage.live = false) (hm : job.message.idempotencyKey = some key) :
    ∀ r j, (s.setJob ref (some (job.atStage stage))).jobs r = some j → j.key = some key → ∀ l ∈ j.lock, l.stage.live = false := by
  intro r j hset hk l hl
  rcases Queue.jobs_setJob hset with ⟨-, heq⟩ | ⟨hne, hold⟩
  · rw [← Option.some.inj heq] at hl
    obtain ⟨l₀, -, rfl⟩ := Option.map_eq_some_iff.1 hl
    exact hst
  · have hown := hj.kept hm (QueueJob.mayRun_of_live hh.locked hlive)
    exact absurd (ht.unique r ref j job key hold hh.found hk hown) hne

theorem keyed_step (hkey : key ≠ "") (ht : Queue.Table s) (hs : ∀ r j, s.jobs r = some j → j.Keyed key)
    (hc : w.onlyDedupes key e s = true) (h : w.Steps s e s') : ∀ r j, s'.jobs r = some j → j.Keyed key := by
  have hset : ∀ {ref : JobRef} {j : QueueJob}, j.Keyed key → ∀ r j', (s.setJob ref (some j)).jobs r = some j' → j'.Keyed key := by
    intro ref j hj r j' hj'
    rcases Queue.jobs_setJob hj' with ⟨-, heq⟩ | ⟨-, hj'⟩
    · exact Option.some.inj heq ▸ hj
    · exact hs r j' hj'
  have hmap : ∀ {f : QueueJob → QueueJob} {jobs : JobRef → Option QueueJob}, (∀ r j, jobs r = some j → j.Keyed key) →
      (∀ j, j.Keyed key → (f j).Keyed key) → ∀ r j', (jobs r).map f = some j' → j'.Keyed key := by
    intro f jobs hjobs hf r j' hj'
    obtain ⟨j, hj, rfl⟩ := Option.map_eq_some_iff.1 hj'
    exact hf j (hjobs r j hj)
  -- A handler that is through with its job, or goes on with it.
  have hstage : ∀ {ref : JobRef} {job : QueueJob} {lock : Lock} {stage : LockStage}, s.Handles ref job lock →
      (stage.live = true → lock.stage.live = true) →
      ∀ r j, (s.setJob ref (some (job.atStage stage))).jobs r = some j → j.Keyed key :=
    fun hh hst => hset ((hs _ _ hh.found).atStage hh.locked hst)
  cases h with
  | tick | commit | deduplicate => exact hs
  | @send ref embedded message delaySeconds held wakes hfresh htenant hwakes hmode =>
    have hc := of_decide_eq_true hc
    refine keyed_addJob hs (keyed_graphileJob hkey embedded ref message delaySeconds held s.now hc) ?_
    intro hk r j hj hkj
    -- the send was not deduplicated, so no job had the key
    have hplaced : specKey (w.placeInvoke ref.1 message delaySeconds held).jobKey = some key := hk
    have hno := hmode (hc (.inl ((specKey_eq hkey).1 hplaced)))
    rw [hplaced] at hno
    have hheld : s.holder (some key) = true := by
      refine List.any_eq_true.2 ⟨r, ht.named r j hj, ?_⟩
      have hj' : s.jobs r = some j := hj
      rw [hj', Option.any_some, QueueJob.holds, hkj]
      simp
    rw [hno] at hheld
    cases hheld
  | @recover ref runId name deploymentId queueNamespace delay =>
    have hne := of_decide_eq_true hc
    refine keyed_addJob hs (keyed_recoveredJob hkey ref name deploymentId queueNamespace (s.now + delay) hne) ?_
    intro hk
    exact absurd (Option.some.inj hk) hne
  | @claim ref job claimed lock hj hp _ _ hlock hclaimed =>
    have hclaim : claimed.Keyed key := by
      rw [hclaimed]
      exact (hs ref job hj).claim hp (by rw [hlock])
    split <;> exact hset hclaim
  | begin_ hh _ hst => exact hstage hh fun _ => by rw [hst]; rfl
  | acknowledge hh =>
    intro r j hj
    replace hj : ((_ : Queue).mark _ _).jobs r = some j := hj
    rw [Queue.jobs_mark] at hj
    exact hmap (hstage hh (fun hdone => by cases hdone)) (fun j hj => hj.released _) r j hj
  | @reschedule ref job lock next timeoutSeconds hh hst =>
    have hj := hs _ _ hh.found
    have hlive : lock.stage.live = true := by rw [hst]; rfl
    refine keyed_addJob (hstage hh (fun hdone => by cases hdone)) (keyed_rescheduledJob hkey lock timeoutSeconds s.now hj) fun hk => ?_
    exact over_of_continued ht hj hh hlive rfl (hj.named (.inr (.inr hk)))
  | return_ hh => exact hmap (hstage hh (fun hdone => by cases hdone)) fun j hj => hj.released _
  | swallow hh => exact hstage hh (fun hdone => by cases hdone)
  | @promote ref job lock next hh htimer hst =>
    have hj := hs _ _ hh.found
    have hlive : lock.stage.live = true := by rw [hst]; rfl
    refine keyed_addJob (hstage hh (fun hdone => by cases hdone)) (keyed_promotedJob s.now hh.locked hlive hj) fun hk => ?_
    exact over_of_continued ht hj hh hlive rfl (hj.named (.inr (.inl ⟨lock, hh.locked, hk⟩)))
  | complete hh =>
    intro r j hj
    rcases Queue.jobs_setJob hj with ⟨-, heq⟩ | ⟨-, hj⟩
    · cases heq
    · exact hs r j hj
  | fail hh => exact hmap (hset ((hs _ _ hh.found).unlocked _)) fun j hj => hj.released _
  | crash runner => exact hmap hs fun j hj => hj.bury runner
  | @reclaim ref job lock hh => exact hset ((hs _ _ hh.found).unlocked job.runAt)
  | sweep runner => exact hmap hs fun j hj => hj.swept s.now runner

/-- Where a key is only used for messages whose sends `unsafe_dedupe` deduplicates, as a step's is on a spec 9 run,
at most one job can still have a message of the key run, whatever is sent again, retried, rescheduled, held as a
timer or taken from a dead process: a job that another took the place of is never run again. -/
theorem one_job_per_key (hkey : key ≠ "") (h : Machine.Reaches w.step (w.onlyDedupes key) {} s)
    (h₁ : s.jobs r₁ = some j₁) (h₂ : s.jobs r₂ = some j₂) (hm₁ : j₁.message.idempotencyKey = some key)
    (hm₂ : j₂.message.idempotencyKey = some key) (hr₁ : j₁.mayRun = true) (hr₂ : j₂.mayRun = true) : r₁ = r₂ := by
  obtain ⟨ht, hkeyed⟩ := h.invariant (P := fun s => Queue.Table s ∧ ∀ r j, s.jobs r = some j → j.Keyed key)
    ⟨⟨by simp, by simp⟩, by simp⟩ fun e s s' hs hc he => by
      have hstep := World.steps_of_step he
      exact ⟨hs.1.step hstep, keyed_step hkey hs.1 hs.2 hc hstep⟩
  exact ht.unique r₁ r₂ j₁ j₂ key h₁ h₂ ((hkeyed r₁ j₁ h₁).kept hm₁ hr₁) ((hkeyed r₂ j₂ h₂).kept hm₂ hr₂)

/-- A step's message is sent, claimed, sent again and rescheduled; the process dies before its first handler returns. -/
def resentRun : List QueueEvent :=
  [.send ("t", 0) false (Queue.stepMessage "m0") none false none, .claim ("t", 0), .begin_ ("t", 0),
    .send ("t", 1) false (Queue.stepMessage "m1") none false none, .reschedule ("t", 0) 2 5, .crash .dispatcher]

theorem one_job_per_key_resentRun :
    ∃ s, Machine.Reaches stampWorld.step (stampWorld.onlyDedupes "step") {} s ∧ ("t", 1) ∈ s.deduplicated ∧
      (s.jobs ("t", 0)).isSome = true ∧ (∃ j, s.jobs ("t", 2) = some j ∧ j.mayRun = true) ∧
      ∀ r j, s.jobs r = some j → j.message.idempotencyKey = some "step" → j.mayRun = true → r = ("t", 2) := by
  obtain ⟨s, hr, hp⟩ := @Machine.exists_of_play _ _ stampWorld.step (stampWorld.onlyDedupes "step") {} resentRun
    (fun s => decide (("t", 1) ∈ s.deduplicated ∧ (s.jobs ("t", 0)).isSome = true) &&
      (s.jobs ("t", 2)).any fun j : QueueJob => j.mayRun && decide (j.message.idempotencyKey = some "step"))
    (by decide +kernel)
  rw [Bool.and_eq_true] at hp
  obtain ⟨hdedupe, hold⟩ := of_decide_eq_true hp.1
  obtain ⟨j₂, hj₂, hp⟩ := (Option.any_eq_true _ _).1 hp.2
  rw [Bool.and_eq_true] at hp
  exact ⟨s, hr, hdedupe, hold, ⟨j₂, hj₂, hp.1⟩,
    fun r j hj hm hrun => one_job_per_key (by decide) hr hj hj₂ hm (of_decide_eq_true hp.2) hrun hp.1⟩

end World

end WorkflowWorld.Dispatcher
