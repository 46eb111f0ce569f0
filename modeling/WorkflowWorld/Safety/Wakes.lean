/-
Hook wakes of a run below spec 9: after a wake's send has returned, the run has a job until a delivery
that was claimed after the input has ended, however wakes fold onto one key, pass the run's queue or
spend the attempts of a claimed one. A delivery that the keyed dedup swallows is the exception.
-/
import WorkflowWorld.Safety.Conserved

namespace WorkflowWorld.Dispatcher

variable {w : World} {s s' : Queue} {e : QueueEvent} {ref r : JobRef} {job j : QueueJob} {k : RunKey}
  {mine : String → Bool} {i : HookInput}

/-! ## Keys of the run -/

/-- A delivery of the run that was claimed after the input has been accepted, dropped or dead-lettered, or
was at its last attempt. -/
def Queue.heard (s : Queue) (k : RunKey) (i : HookInput) : Bool := s.ended.any fun e => e.1 == k && e.2.contains i

/-- The run's messages are below spec 9, no other run's message goes by a job key of the run (`mine`), and
the dedup swallows a delivery of the run only when no wake that was sent is still to be heard. -/
def World.wakesApart (w : World) (k : RunKey) (mine : String → Bool) : QueueEvent → Queue → Bool
  | .send ref _ message delaySeconds held _, _ =>
    let own := message.run == some k
    (specKey (w.placeInvoke ref.1 message delaySeconds held).jobKey).all (mine · == own) &&
      (specKey message.jobKey).all (mine · == own) &&
      (!own || !w.isSingleOrchestratorRunMessage message.data && !w.isSingleOrchestratorMessage message.data)
  | .recover ref runId .., _ => mine ("msg_recover_" ++ runId) == decide ((ref.1, runId) = k)
  | .swallow ref, s =>
    (s.jobs ref).all fun job => job.message.run != some k || s.woken.all fun i => i.run != k || s.heard k i
  | _, _ => true

/-- The keys of a job, now, at its claim and after a reschedule, are keys of the run if its message is. -/
structure QueueJob.Apart (k : RunKey) (mine : String → Bool) (job : QueueJob) : Prop where
  key : ∀ key, job.key = some key → (mine key = true ↔ job.message.run = some k)
  claimed : ∀ l ∈ job.lock, ∀ key, l.key = some key → (mine key = true ↔ job.message.run = some k)
  message : ∀ key, specKey job.message.jobKey = some key → (mine key = true ↔ job.message.run = some k)
  runner : ∀ tenantId, job.task.runner = .embedded tenantId → tenantId = job.message.tenantId

namespace QueueJob

theorem Apart.touched (h : job.Apart k mine) (ht : job.Touched j) : j.Apart k mine := by
  have hm : j.message = job.message := by rw [ht.rest]
  have htask : j.task = job.task := by rw [ht.rest]
  refine ⟨fun key hk => ?_, fun l hl key hk => ?_, ?_, ?_⟩
  · rw [hm]
    rcases ht.key with ⟨hsame, -⟩ | ⟨hnone, -⟩
    · exact h.key key (hsame ▸ hk)
    · rw [hnone] at hk
      cases hk
  · rw [hm]
    rcases ht.lock l hl key hk with hkey | ⟨l₀, hl₀, hk₀⟩
    · exact h.key key hkey
    · exact h.claimed l₀ hl₀ key hk₀
  · rw [hm]
    exact h.message
  · rw [hm, htask]
    exact h.runner

theorem Apart.swept (now : Nat) (runner : Runner) (h : job.Apart k mine) : (Queue.swept now runner job).Apart k mine := by
  unfold Queue.swept
  split
  · split
    · rename_i hg
      exact ⟨h.key, h.claimed, h.message, fun tenantId hr => h.runner tenantId (by rw [hg.1]; exact hr)⟩
    · exact h
  · exact h

theorem Apart.rescheduledJob (lock : Lock) (timeoutSeconds now : Nat) (h : job.Apart k mine) :
    (w.rescheduledJob job lock timeoutSeconds now).Apart k mine ∧
      (w.rescheduledJob job lock timeoutSeconds now).message.run = job.message.run := by
  have htenant : (w.rescheduledJob job lock timeoutSeconds now).message.tenantId = job.message.tenantId := by
    unfold World.rescheduledJob
    cases hr : job.task.runner with
    | dispatcher => rfl
    | embedded tenantId => exact h.runner tenantId hr
  have hrun : (w.rescheduledJob job lock timeoutSeconds now).message.run = job.message.run := by
    simp only [Message.run, htenant]
    rfl
  refine ⟨⟨fun key hk => ?_, (fun l hl => by cases hl), fun key hk => ?_, fun tenantId hr => ?_⟩, hrun⟩
  · rw [hrun]
    exact h.message key hk
  · rw [hrun]
    exact h.message key hk
  · rw [htenant]
    exact h.runner tenantId hr

end QueueJob

namespace World

theorem iff_of_all {key : Option String} {own : Bool} (h : key.all (mine · == own) = true) (key' : String)
    (hk : key = some key') : mine key' = true ↔ own = true := by
  subst hk
  simp only [Option.all_some, beq_iff_eq] at h
  rw [h]

theorem apart_of_adds (hs : ∀ r j, s.jobs r = some j → j.Apart k mine) (hc : w.wakesApart k mine e s = true)
    (h : Queue.Adds w s e ref job) : job.Apart k mine := by
  cases h with
  | @send ref embedded message delaySeconds held wakes htenant =>
    simp only [wakesApart, Bool.and_eq_true] at hc
    have hown : (message.run == some k) = true ↔ message.run = some k := by simp
    refine ⟨fun key hk => ?_, (fun l hl => by cases hl), fun key hk => ?_, fun tenantId hr => ?_⟩
    · exact (iff_of_all hc.1.1 key hk).trans hown
    · exact (iff_of_all hc.1.2 key hk).trans hown
    · simp only [graphileJob] at hr
      split at hr <;> cases hr
      rfl
  | @recover ref runId name deploymentId queueNamespace delay =>
    simp only [wakesApart, beq_iff_eq] at hc
    have hrun : (recoveredJob ref runId name deploymentId queueNamespace (s.now + delay)).message.run =
        some (ref.1, runId) := rfl
    have hmine : mine ("msg_recover_" ++ runId) = true ↔ some (ref.1, runId) = some k := by
      rw [hc, decide_eq_true_eq, Option.some.injEq]
    refine ⟨fun key hk => ?_, (fun l hl => by cases hl), fun key hk => ?_, (fun _ hr => by cases hr)⟩
    · obtain rfl := Option.some.inj hk
      exact hmine
    · simp only [specKey] at hk
      split at hk
      · cases hk
      · obtain rfl := Option.some.inj hk
        exact hmine
  | reschedule hh => exact (QueueJob.Apart.rescheduledJob _ _ _ (hs _ _ hh.found)).1
  | @promote ref job lock next hh htimer =>
    have hj := hs _ _ hh.found
    exact ⟨fun key hk => hj.claimed lock hh.locked key hk, (fun l hl => by cases hl), hj.message, hj.runner⟩

theorem apart_of_step (hs : ∀ r j, s.jobs r = some j → j.Apart k mine) (hc : w.wakesApart k mine e s = true)
    (h : w.Steps s e s') : ∀ r j, s'.jobs r = some j → j.Apart k mine := by
  intro r j hj
  rcases Queue.jobs_of_steps h hj with hadd | ⟨j₀, hj₀, ht⟩ | ⟨runner, j₀, hj₀, rfl⟩
  · exact apart_of_adds hs hc hadd
  · exact (hs r j₀ hj₀).touched ht
  · exact (hs r j₀ hj₀).swept s.now runner

end World

/-! ## Wakes that are not heard -/

/-- The job is the run's and will be delivered after the input: it has no handler, a handler that is gone,
or one that was claimed after the input and is not through. -/
structure QueueJob.Answers (k : RunKey) (i : HookInput) (job : QueueJob) : Prop where
  run : job.message.run = some k
  left : job.spent = false
  lock : ∀ l ∈ job.lock, l.stage = .dead ∨ l.stage.over = false ∧ i ∈ l.committed

namespace QueueJob

theorem Answers.atStage {lock : Lock} {stage : LockStage} (h : job.Answers k i) (hl : job.lock = some lock)
    (hlive : lock.stage ≠ .dead) (hst : stage.over = false) : (job.atStage stage).Answers k i := by
  refine ⟨h.run, h.left, fun l hl' => .inr ?_⟩
  obtain ⟨l₀, hl₀, rfl⟩ := Option.map_eq_some_iff.1 hl'
  obtain rfl : lock = l₀ := Option.some.inj (hl.symm.trans hl₀)
  exact ⟨hst, ((h.lock lock hl).resolve_left hlive).2⟩

theorem Answers.unlocked (runAt : Nat) (h : job.Answers k i) : ({ job with lock := none, runAt } : QueueJob).Answers k i :=
  ⟨h.run, h.left, (fun l hl => by cases hl)⟩

theorem Answers.released (leader : JobRef) {stage : LockStage} (hst : stage.over = false) (h : job.Answers k i) :
    (job.released leader stage).Answers k i := by
  unfold QueueJob.released
  split
  · rename_i hany
    obtain ⟨l, hl, hjoined⟩ := (Option.any_eq_true _ _).1 hany
    refine h.atStage hl ?_ hst
    rw [beq_iff_eq.1 hjoined]
    nofun
  · exact h

theorem Answers.bury (runner : Runner) (h : job.Answers k i) : (Queue.bury runner job).Answers k i := by
  unfold Queue.bury
  split
  · refine ⟨h.run, h.left, fun l hl => .inl ?_⟩
    obtain ⟨l₀, -, rfl⟩ := Option.map_eq_some_iff.1 hl
    rfl
  · exact h

theorem Answers.swept (now : Nat) (runner : Runner) (h : job.Answers k i) : (Queue.swept now runner job).Answers k i := by
  unfold Queue.swept
  split
  · split <;> exact ⟨h.run, h.left, h.lock⟩
  · exact h

theorem Answers.mem_committed {lock : Lock} (h : job.Answers k i) (hl : job.lock = some lock) (hlive : lock.stage ≠ .dead) :
    lock.stage.over = false ∧ i ∈ lock.committed :=
  (h.lock lock hl).resolve_left hlive

theorem Answers.willDeliver (h : job.Answers k i) : job.willDeliver = true := by
  simp only [QueueJob.willDeliver, h.left, Bool.not_false, Bool.true_and]
  cases hl : job.lock with
  | none => rfl
  | some l =>
    rcases h.lock l hl with hdead | hlive
    · simp [hdead, LockStage.over]
    · simp [hlive.1]

end QueueJob

namespace Queue

/-- Some job answers the input. -/
def Awaits (s : Queue) (k : RunKey) (i : HookInput) : Prop := ∃ r j, s.jobs r = some j ∧ j.Answers k i

theorem Awaits.setJob (h : Awaits s k i) (hj : s.jobs ref = some job) (hkeep : job.Answers k i → j.Answers k i) :
    Awaits (s.setJob ref (some j)) k i := by
  obtain ⟨r, j₀, hj₀, ha⟩ := h
  by_cases hr : r = ref
  · subst hr
    obtain rfl : job = j₀ := Option.some.inj (hj.symm.trans hj₀)
    exact ⟨r, j, jobs_setJob_self .., hkeep ha⟩
  · exact ⟨r, j₀, (jobs_setJob_of_ne s _ hr).trans hj₀, ha⟩

theorem Awaits.map (h : Awaits s k i) {f : QueueJob → QueueJob} (hjobs : ∀ r, s'.jobs r = (s.jobs r).map f)
    (hf : ∀ j, j.Answers k i → (f j).Answers k i) : Awaits s' k i := by
  obtain ⟨r, j, hj, ha⟩ := h
  exact ⟨r, f j, by rw [hjobs, hj]; rfl, hf j ha⟩

theorem Awaits.release (h : Awaits s k i) (leader : JobRef) {stage : LockStage} (hst : stage.over = false) :
    Awaits (s.release leader stage) k i :=
  h.map (fun _ => rfl) fun _ => QueueJob.Answers.released leader hst

/-- A job whose place another takes is replaced by one of the same run. -/
theorem Awaits.addJob (ht : Table s) (hap : ∀ r j, s.jobs r = some j → j.Apart k mine) (hnew : job.Apart k mine)
    (hfresh : ref ∉ s.refs) (hpending : job.pending = true) (h : Awaits s k i ∨ job.message.run = some k) :
    Awaits (s.addJob ref job) k i := by
  simp only [QueueJob.pending, Bool.and_eq_true, Bool.not_eq_true', Option.isNone_iff_eq_none] at hpending
  have hself : job.message.run = some k → Awaits (s.addJob ref job) k i := fun hrun =>
    ⟨ref, job, jobs_addJob_self .., hrun, hpending.1, fun l hl => by rw [hpending.2] at hl; cases hl⟩
  rcases h with ⟨r, j, hj, ha⟩ | hrun
  · by_cases hheld : j.holds job.key = true
    · simp only [QueueJob.holds, Bool.and_eq_true, beq_iff_eq] at hheld
      obtain ⟨key, hkey⟩ := Option.isSome_iff_exists.1 hheld.1
      have hm := ((hap r j hj).key key (hheld.2.trans hkey)).2 ha.run
      exact hself ((hnew.key key hkey).1 hm)
    · have hr : r ≠ ref := fun heq => hfresh (heq ▸ ht.named r j hj)
      refine ⟨r, j, ?_, ha⟩
      rw [jobs_addJob_of_ne s job hr, hj, Option.bind_some, QueueJob.displaced, if_neg hheld]
  · exact hself hrun

/-- What holds of the run in every state. -/
structure Wakeful (k : RunKey) (s : Queue) : Prop where
  committed : ∀ i ∈ s.woken, i ∈ s.committed
  wakes : ∀ i ∈ s.woken, i.run = k → s.heard k i = true ∨ Awaits s k i

theorem heard_finish {lock : Lock} (h : s.heard k i = true) : (s.finish job lock).heard k i = true := by
  simp only [heard, finish, List.any_append, Bool.or_eq_true] at h ⊢
  exact .inr h

theorem heard_finish_self {lock : Lock} (hrun : job.message.run = some k) (hi : i ∈ lock.committed) :
    (s.finish job lock).heard k i = true := by
  simp [heard, finish, hrun, hi]

theorem singleOrchestrator_of_mode {tenantId : TenantId} {message : Message} {delaySeconds : Option Nat} {held : Bool}
    (h : (w.placeInvoke tenantId message delaySeconds held).jobKeyMode = .unsafeDedupe) :
    w.isSingleOrchestratorMessage message.data = true := by
  have hmode : w.jobKeyModeFor message.data message.idempotencyKey = .unsafeDedupe →
      w.isSingleOrchestratorMessage message.data = true := by
    unfold World.jobKeyModeFor
    split
    · rename_i hb
      exact fun _ => (Bool.and_eq_true _ _ ▸ hb).2
    · exact fun h => by cases h
  unfold World.placeInvoke at h
  split at h
  · exact hmode h
  · dsimp only at h
    split at h
    · exact hmode h
    · cases h

/-- One event: a wake that is heard stays heard, and a job that answers one goes on to answer it, is
followed by another of the run, or ends as a delivery that came after the input. -/
theorem wakeful_step (ht : Table s) (hap : ∀ r j, s.jobs r = some j → j.Apart k mine) (hs : Wakeful k s)
    (hc : w.wakesApart k mine e s = true) (h : w.Steps s e s') : Wakeful k s' := by
  -- A job that is added belongs to the run if it takes the place of one that does.
  have hadd : ∀ {s₁ : Queue} {ref : JobRef} {new : QueueJob}, Table s₁ → (∀ r j, s₁.jobs r = some j → j.Apart k mine) →
      Adds w s e ref new → ref ∉ s₁.refs → new.pending = true → ∀ {i : HookInput},
      Awaits s₁ k i ∨ new.message.run = some k → Awaits (s₁.addJob ref new) k i :=
    fun ht₁ hap₁ hnew hfresh hp _ h => Awaits.addJob ht₁ hap₁ (World.apart_of_adds hap hc hnew) hfresh hp h
  have hstage : ∀ {ref : JobRef} {job : QueueJob} {lock : Lock} (stage : LockStage), s.Handles ref job lock →
      ∀ r j, (s.setJob ref (some (job.atStage stage))).jobs r = some j → j.Apart k mine := by
    intro ref job lock stage hh r j hj
    obtain ⟨j₀, hj₀, ht₀⟩ := stays_setJob hh.found (job.touched_atStage stage) hj
    exact (hap r j₀ hj₀).touched ht₀
  cases h with
  | tick => exact ⟨hs.committed, hs.wakes⟩
  | commit input => exact ⟨fun i hi => List.mem_cons_of_mem _ (hs.committed i hi), hs.wakes⟩
  | @deduplicate ref embedded message delaySeconds held wakes hfresh htenant hwakes hmode hheld =>
    constructor
    · intro i hi
      rcases List.mem_append.1 hi with hi | hi
      · exact (hwakes i (Option.mem_toList.1 hi)).1
      · exact hs.committed i hi
    · intro i hi hik
      rcases List.mem_append.1 hi with hi | hi
      · -- The run is below spec 9, so the send would not have been deduplicated.
        have hrun := (hwakes i (Option.mem_toList.1 hi)).2
        have hspec := singleOrchestrator_of_mode hmode
        simp [World.wakesApart, hrun, hik, hspec] at hc
      · exact hs.wakes i hi hik
  | @send ref embedded message delaySeconds held wakes hfresh htenant hwakes =>
    constructor
    · intro i hi
      rcases List.mem_append.1 hi with hi | hi
      · exact (hwakes i (Option.mem_toList.1 hi)).1
      · exact hs.committed i hi
    · intro i hi hik
      rcases List.mem_append.1 hi with hi | hi
      · have hrun := (hwakes i (Option.mem_toList.1 hi)).2
        exact .inr (hadd ⟨ht.named, ht.unique⟩ hap (.send htenant) hfresh rfl (.inr (hik ▸ hrun)))
      · exact (hs.wakes i hi hik).imp_right fun ha => hadd ⟨ht.named, ht.unique⟩ hap (.send htenant) hfresh rfl (.inl ha)
  | recover hfresh =>
    exact ⟨hs.committed, fun i hi hik => (hs.wakes i hi hik).imp_right fun ha =>
      hadd ⟨ht.named, ht.unique⟩ hap .recover hfresh rfl (.inl ha)⟩
  | @claim ref job claimed lock hj hp hdue hfree hlock hclaimed =>
    have hseen : ∀ i ∈ s.woken, i.run = k → job.message.run = some k → i ∈ lock.committed := by
      intro i hi hik hrun
      rw [hlock]
      exact List.mem_filter.2 ⟨hs.committed i hi, by rw [hrun, hik]; exact beq_self_eq_true _⟩
    have hkeep : ∀ i ∈ s.woken, i.run = k → claimed.spent = false → job.Answers k i → claimed.Answers k i := by
      intro i hi hik hleft ha
      refine ⟨by rw [hclaimed]; exact ha.run, hleft, fun l hl => .inr ?_⟩
      rw [hclaimed] at hl
      obtain rfl := Option.some.inj hl
      exact ⟨by rw [hlock]; rfl, hseen i hi hik ha.run⟩
    split
    · rename_i hspent
      refine ⟨hs.committed, fun i hi hik => ?_⟩
      rcases hs.wakes i hi hik with hheard | ⟨r, j, hj', ha⟩
      · exact .inl (heard_finish hheard)
      · by_cases hr : r = ref
        · subst hr
          obtain rfl : job = j := Option.some.inj (hj.symm.trans hj')
          exact .inl (heard_finish_self ha.run (hseen i hi hik ha.run))
        · exact .inr ⟨r, j, (jobs_setJob_of_ne s _ hr).trans hj', ha⟩
    · rename_i hspent
      refine ⟨hs.committed, fun i hi hik => (hs.wakes i hi hik).imp_right fun ha => ?_⟩
      exact ha.setJob hj (hkeep i hi hik (by simpa using hspent))
  | begin_ hh htimer hst =>
    refine ⟨hs.committed, fun i hi hik => (hs.wakes i hi hik).imp_right fun ha => ha.setJob hh.found fun hans => ?_⟩
    exact hans.atStage hh.locked (by rw [hst]; nofun) (enter_over s _)
  | @acknowledge ref job lock verdict hh hallowed =>
    obtain ⟨c, hmark⟩ :=
      mark_eq ((s.setJob ref (some (job.atStage .done))).release ref verdict.release) job verdict.completes
    rw [hmark]
    have hlive : lock.stage ≠ .dead := by
      intro hdead
      simp [Verdict.allowed, hdead] at hallowed
    refine ⟨hs.committed, fun i hi hik => ?_⟩
    rcases hs.wakes i hi hik with hheard | ⟨r, j, hj, ha⟩
    · exact .inl (heard_finish hheard)
    · by_cases hr : r = ref
      · subst hr
        obtain rfl : job = j := Option.some.inj (hh.found.symm.trans hj)
        exact .inl (heard_finish_self ha.run (ha.mem_committed hh.locked hlive).2)
      · have hset : Awaits (s.setJob ref (some (job.atStage .done))) k i :=
          ⟨r, j, (jobs_setJob_of_ne s _ hr).trans hj, ha⟩
        exact .inr (hset.release ref (release_over verdict))
  | @reschedule ref job lock next timeoutSeconds hh hst hfresh =>
    refine ⟨hs.committed, fun i hi hik => (hs.wakes i hi hik).imp_right fun ⟨r, j, hj, ha⟩ => ?_⟩
    refine hadd (ht.atStage hh.found .rescheduled) (hstage .rescheduled hh) (.reschedule hh) hfresh rfl ?_
    by_cases hr : r = ref
    · subst hr
      obtain rfl : job = j := Option.some.inj (hh.found.symm.trans hj)
      exact .inr ((QueueJob.Apart.rescheduledJob lock timeoutSeconds s.now (hap r job hj)).2.trans ha.run)
    · exact .inl ⟨r, j, (jobs_setJob_of_ne s _ hr).trans hj, ha⟩
  | @return_ ref job lock hh hst =>
    refine ⟨hs.committed, fun i hi hik => (hs.wakes i hi hik).imp_right fun ha => ?_⟩
    have hset : Awaits (s.setJob ref (some (job.atStage .done))) k i := ha.setJob hh.found fun hans => by
      have := (hans.mem_committed hh.locked (by rw [hst]; nofun)).1
      rw [hst] at this
      cases this
    exact hset.release ref rfl
  | @swallow ref job lock hh hst =>
    refine ⟨hs.committed, fun i hi hik => ?_⟩
    simp only [World.wakesApart, hh.found, Option.all_some, Bool.or_eq_true, bne_iff_ne] at hc
    rcases hc with hother | hall
    · refine (hs.wakes i hi hik).imp_right fun ha => ha.setJob hh.found fun hans => ?_
      exact absurd hans.run hother
    · have := List.all_eq_true.1 hall i hi
      simp only [hik, bne_self_eq_false, Bool.false_or] at this
      exact .inl this
  | @promote ref job lock next hh htimer hst hfresh =>
    refine ⟨hs.committed, fun i hi hik => (hs.wakes i hi hik).imp_right fun ⟨r, j, hj, ha⟩ => ?_⟩
    refine hadd (ht.atStage hh.found .done) (hstage .done hh) (.promote hh htimer) hfresh rfl ?_
    by_cases hr : r = ref
    · subst hr
      obtain rfl : job = j := Option.some.inj (hh.found.symm.trans hj)
      exact .inr ha.run
    · exact .inl ⟨r, j, (jobs_setJob_of_ne s _ hr).trans hj, ha⟩
  | @complete ref job lock hh hst =>
    refine ⟨hs.committed, fun i hi hik => (hs.wakes i hi hik).imp_right fun ⟨r, j, hj, ha⟩ => ?_⟩
    have hr : r ≠ ref := by
      rintro rfl
      obtain rfl : job = j := Option.some.inj (hh.found.symm.trans hj)
      have := (ha.mem_committed hh.locked (by rw [hst]; nofun)).1
      rw [hst] at this
      cases this
    exact ⟨r, j, (jobs_setJob_of_ne s _ hr).trans hj, ha⟩
  | @fail ref job lock backoff threw hh =>
    refine ⟨hs.committed, fun i hi hik => (hs.wakes i hi hik).imp_right fun ha => ?_⟩
    have hset : Awaits (s.setJob ref (some { job with lock := none, runAt := s.now + backoff })) k i :=
      ha.setJob hh.found fun hans => hans.unlocked _
    exact hset.release ref (by split <;> rfl)
  | crash runner =>
    exact ⟨hs.committed, fun i hi hik => (hs.wakes i hi hik).imp_right fun ha =>
      ha.map (fun _ => rfl) fun _ => QueueJob.Answers.bury runner⟩
  | reclaim hh =>
    exact ⟨hs.committed, fun i hi hik => (hs.wakes i hi hik).imp_right fun ha =>
      ha.setJob hh.found fun hans => hans.unlocked _⟩
  | sweep runner =>
    exact ⟨hs.committed, fun i hi hik => (hs.wakes i hi hik).imp_right fun ha =>
      ha.map (fun _ => rfl) fun _ => QueueJob.Answers.swept s.now runner⟩

end Queue

/-! ## Wakes that fold -/

/-- A bypassing wake of the run that carries neither its input nor a producer's key. -/
def World.folds (w : World) (k : RunKey) (job : QueueJob) : Bool :=
  job.bypassing && job.message.idempotencyKey.isNone && job.message.tenantId == k.1 &&
    (w.parseInvoke job.message.data).any fun x => x.1 == k.2 && x.2.hookInput.isNone

namespace World

theorem specKey_wakeKey (tenantId : TenantId) (runId : RunId) :
    specKey (wakeKey tenantId runId) = some (wakeKey tenantId runId) := by
  unfold specKey
  rw [if_neg]
  intro h
  have := congrArg String.length h
  simp [wakeKey, String.length_append] at this

theorem jobKey_of_bypassing {tenantId : TenantId} {message : Message} {delaySeconds : Option Nat} {held : Bool} {runId : RunId}
    {invoke : Body} (h : (w.placeInvoke tenantId message delaySeconds held).bypassingWake = true)
    (hparse : w.parseInvoke message.data = some (runId, invoke)) (hkey : message.idempotencyKey = none)
    (hinput : invoke.hookInput = none) :
    (w.placeInvoke tenantId message delaySeconds held).jobKey = wakeKey tenantId runId := by
  unfold placeInvoke at h ⊢
  simp only [hparse] at h ⊢
  split at h
  · cases h
  · rename_i hplain
    rw [if_neg hplain, hkey, hinput]
    rfl

/-- A wake that folds has the run's wake key until its attempts are spent. -/
def FoldsOn (w : World) (job : QueueJob) : Prop :=
  ∀ k, w.folds k job = true → job.key = some (wakeKey k.1 k.2) ∨ job.spent = true

theorem foldsOn_of_plain (h : job.bypassing = false) : w.FoldsOn job := by
  intro k hf
  simp [folds, h] at hf

theorem foldsOn_of_step (hs : ∀ r j, s.jobs r = some j → w.FoldsOn j) (h : w.Steps s e s') :
    ∀ r j, s'.jobs r = some j → w.FoldsOn j := by
  intro r j hj
  rcases Queue.jobs_of_steps h hj with hadd | ⟨j₀, hj₀, ht⟩ | ⟨runner, j₀, hj₀, rfl⟩
  · cases hadd with
    | @send ref embedded message delaySeconds held wakes htenant =>
      intro k hf
      simp only [folds, Bool.and_eq_true, Option.isNone_iff_eq_none, beq_iff_eq] at hf
      obtain ⟨⟨⟨hby, hnokey⟩, hten⟩, hany⟩ := hf
      obtain ⟨⟨runId, invoke⟩, hparse, hx⟩ := (Option.any_eq_true _ _).1 hany
      simp only [Bool.and_eq_true, beq_iff_eq, Option.isNone_iff_eq_none] at hx
      refine .inl ?_
      have hkey := jobKey_of_bypassing hby hparse hnokey hx.2
      replace hten : message.tenantId = k.1 := hten
      show specKey (w.placeInvoke r.1 message delaySeconds held).jobKey = _
      rw [hkey, specKey_wakeKey, ← htenant, hten, hx.1]
    | recover => exact foldsOn_of_plain rfl
    | reschedule => exact foldsOn_of_plain rfl
    | promote => exact foldsOn_of_plain rfl
  · intro k hf
    have hf₀ : w.folds k j₀ = true := by
      rw [ht.rest] at hf
      exact hf
    have hmono : j₀.attempts ≤ j.attempts → j₀.spent = true → j.spent = true := by
      simp only [QueueJob.spent, decide_eq_true_eq]
      exact fun hle hsp => Nat.le_trans hsp hle
    rcases ht.key with ⟨hsame, hle⟩ | ⟨-, hspent⟩
    · exact (hs r j₀ hj₀ k hf₀).imp (fun hk => hsame.trans hk) (hmono hle)
    · exact .inr (by simpa [QueueJob.spent] using hspent)
  · intro k hf
    have := hs r j₀ hj₀ k
    unfold Queue.swept at hf ⊢
    split at hf
    · split at hf
      · rename_i hg
        rw [if_pos hg]
        exact this hf
      · rename_i hg
        rw [if_neg hg]
        exact this hf
    · exact this hf

/-- In every run of the table in which the run's messages are below spec 9 and keep to keys of their own,
and in which the dedup swallows no delivery of the run while a wake is still to be heard: once a wake's send
has returned, a delivery of the run that was claimed after the input has ended, or the run has a job that
is pending or will be retried; and of its bypassing wakes without an input or a producer's key at most one
is pending. -/
theorem no_hook_wake_lost (k : RunKey) (mine : String → Bool) (h : Machine.Reaches w.step (w.wakesApart k mine) {} s) :
    (∀ i ∈ s.woken, i.run = k →
      (∃ e ∈ s.ended, e.1 = k ∧ i ∈ e.2) ∨
        ∃ r j, s.jobs r = some j ∧ j.message.run = some k ∧ j.willDeliver = true) ∧
    ∀ r r' j j', s.jobs r = some j → s.jobs r' = some j' → w.folds k j = true → w.folds k j' = true →
      j.pending = true → j'.pending = true → r = r' := by
  obtain ⟨ht, -, hw, hf⟩ := h.invariant
    (P := fun s => Queue.Table s ∧ (∀ r j, s.jobs r = some j → j.Apart k mine) ∧ Queue.Wakeful k s ∧
      ∀ r j, s.jobs r = some j → w.FoldsOn j)
    ⟨⟨by simp, by simp⟩, by simp, ⟨by simp, by simp⟩, by simp⟩ fun e s s' hs hc he => by
      have hstep := steps_of_step he
      exact ⟨hs.1.step hstep, apart_of_step hs.2.1 hc hstep, Queue.wakeful_step hs.1 hs.2.1 hs.2.2.1 hc hstep,
        foldsOn_of_step hs.2.2.2 hstep⟩
  refine ⟨fun i hi hik => ?_, fun r r' j j' hj hj' hfold hfold' hp hp' => ?_⟩
  · rcases hw.wakes i hi hik with hheard | ⟨r, j, hj, ha⟩
    · left
      simpa [Queue.heard, and_comm, and_assoc] using hheard
    · exact .inr ⟨r, j, hj, ha.run, ha.willDeliver⟩
  · have hkey : ∀ {r j}, s.jobs r = some j → w.folds k j = true → j.pending = true → j.key = some (wakeKey k.1 k.2) :=
      fun hj hfold hp => (hf _ _ hj k hfold).resolve_right fun hspent => by simp [QueueJob.pending, hspent] at hp
    exact ht.unique r r' j j' _ hj hj' (hkey hj hfold hp) (hkey hj' hfold' hp')

/-- The wake of a hook input of the run, sent while the run's queue is held. -/
def wakeOf (idempotencyKey : Option String) (n : Nat) : QueueEvent :=
  .send ("t", n) false { hookWake with messageId := "m" ++ toString n, idempotencyKey } none true (some ⟨("t", "r"), n⟩)

/-- The second wake takes the key of the first, whose delivery then fails. -/
def foldedRun : List QueueEvent :=
  [.commit ⟨("t", "r"), 0⟩, wakeOf none 0, .claim ("t", 0), .begin_ ("t", 0), .commit ⟨("t", "r"), 1⟩, wakeOf none 1,
    .fail ("t", 0) 1 false]

theorem no_hook_wake_lost_foldedRun :
    ∃ s, Machine.Reaches stampWorld.step (stampWorld.wakesApart ("t", "r") fun _ => true) {} s ∧ s.ended = [] ∧
      s.woken.length = 2 ∧ ∃ r j, s.jobs r = some j ∧ j.message.run = some ("t", "r") ∧ j.willDeliver = true := by
  obtain ⟨s, hr, hp⟩ := @Machine.exists_of_play _ _ stampWorld.step (stampWorld.wakesApart ("t", "r") fun _ => true) {}
    foldedRun (fun s => decide (s.ended = [] ∧ s.woken.length = 2 ∧ ⟨("t", "r"), 1⟩ ∈ s.woken)) (by decide +kernel)
  obtain ⟨hended, hlen, hwoken⟩ := of_decide_eq_true hp
  refine ⟨s, hr, hended, hlen, ?_⟩
  rcases (no_hook_wake_lost ("t", "r") (fun _ => true) hr).1 _ hwoken rfl with ⟨e, he, -⟩ | hjob
  · rw [hended] at he
    cases he
  · exact hjob

/-- Two wakes go by one producer's key: the delivery of the second waits for the first, whose dispatch ends
in a retry, and is swallowed. The first has no attempts left. -/
def swallowedRun : List QueueEvent :=
  [.commit ⟨("t", "r"), 0⟩, wakeOf (some "k") 0, .claim ("t", 0), .begin_ ("t", 0), .commit ⟨("t", "r"), 1⟩,
    wakeOf (some "k") 1, .claim ("t", 1), .begin_ ("t", 1), .fail ("t", 0) 1 false, .swallow ("t", 1), .complete ("t", 1)]

/-- No delivery has been accepted, dropped, dead-lettered or claimed for its last attempt, and no job is left
to be delivered. -/
theorem hook_wake_lost_swallowedRun :
    ∃ s, Machine.Reaches stampWorld.step Machine.always {} s ∧ (⟨("t", "r"), 1⟩ : HookInput) ∈ s.woken ∧ s.ended = [] ∧
      ¬ ∃ r j, s.jobs r = some j ∧ j.willDeliver = true := by
  obtain ⟨s, hr, hp⟩ := @Machine.exists_of_play _ _ stampWorld.step Machine.always {} swallowedRun
    (fun s => decide (⟨("t", "r"), 1⟩ ∈ s.woken ∧ s.ended = [] ∧ ∀ r ∈ s.refs, (s.jobs r).all (!·.willDeliver) = true))
    (by decide +kernel)
  obtain ⟨hwoken, hended, hnone⟩ := of_decide_eq_true hp
  have ht : Queue.Table s := hr.invariant ⟨by simp, by simp⟩ fun _ _ _ hs _ he => hs.step (steps_of_step he)
  refine ⟨s, hr, hwoken, hended, ?_⟩
  rintro ⟨r, j, hj, hw⟩
  have := hnone r (ht.named r j hj)
  simp [hj, hw] at this

end World

end WorkflowWorld.Dispatcher
