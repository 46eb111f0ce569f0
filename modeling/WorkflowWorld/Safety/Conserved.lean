/-
Deliveries are conserved: a message that was enqueued and is not done with has a job that graphile will
still deliver, however sends, reschedules, timers, claims, crashes and reclaims interleave.
-/
import WorkflowWorld.Dispatcher.Queue

namespace WorkflowWorld.Dispatcher.Queue

variable {w : World} {s s' : Queue} {ref r : JobRef} {job j : QueueJob}

/-! ## The table -/

/-- A job key is held by one job, and every job has its name. -/
structure Table (s : Queue) : Prop where
  named : ∀ r j, s.jobs r = some j → r ∈ s.refs
  unique : ∀ r r' j j' key, s.jobs r = some j → s.jobs r' = some j' → j.key = some key → j'.key = some key → r = r'

/-- Jobs may be changed as long as they keep their keys. -/
theorem Table.of_jobs (hs : Table s) (hrefs : ∀ r ∈ s.refs, r ∈ s'.refs)
    (h : ∀ r j', s'.jobs r = some j' → ∃ j, s.jobs r = some j ∧ j'.key = j.key) : Table s' where
  named := fun r j' hj' => by
    obtain ⟨j, hj, -⟩ := h r j' hj'
    exact hrefs r (hs.named r j hj)
  unique := fun r r' j j' key hj hj' hk hk' => by
    obtain ⟨j₀, hj₀, heq⟩ := h r j hj
    obtain ⟨j₀', hj₀', heq'⟩ := h r' j' hj'
    exact hs.unique r r' j₀ j₀' key hj₀ hj₀' (heq ▸ hk) (heq' ▸ hk')

theorem Table.setJob (hs : Table s) (hj : s.jobs ref = some job) (hkey : j.key = job.key) :
    Table (s.setJob ref (some j)) := by
  refine hs.of_jobs (fun _ h => h) fun r j' hj' => ?_
  rcases jobs_setJob hj' with ⟨rfl, heq⟩ | ⟨-, hj'⟩
  · exact ⟨job, hj, Option.some.inj heq ▸ hkey⟩
  · exact ⟨j', hj', rfl⟩

theorem Table.atStage (hs : Table s) (hj : s.jobs ref = some job) (stage : LockStage) :
    Table (s.setJob ref (some (job.atStage stage))) :=
  hs.setJob hj rfl

theorem Table.remove (hs : Table s) : Table (s.setJob ref none) := by
  refine hs.of_jobs (fun _ h => h) fun r j' hj' => ?_
  rcases jobs_setJob hj' with ⟨-, heq⟩ | ⟨-, hj'⟩
  · cases heq
  · exact ⟨j', hj', rfl⟩

theorem key_of_displaced {key : Option String} {job j : QueueJob} {k : String} (h : job.displaced key = some j)
    (hk : j.key = some k) : job.key = some k ∧ key ≠ some k := by
  rcases displaced_cases h with ⟨rfl, hh⟩ | ⟨rfl, -, -⟩
  · refine ⟨hk, fun heq => ?_⟩
    simp [QueueJob.holds, heq, hk] at hh
  · cases hk

theorem Table.addJob (hs : Table s) : Table (s.addJob ref job) where
  named := fun r j hj => by
    rcases jobs_addJob hj with ⟨rfl, -⟩ | ⟨-, j₀, hj₀, -⟩
    · exact List.mem_cons_self ..
    · exact List.mem_cons_of_mem _ (hs.named r j₀ hj₀)
  unique := fun r r' j j' key hj hj' hk hk' => by
    rcases jobs_addJob hj with ⟨rfl, rfl⟩ | ⟨-, j₀, hj₀, hd⟩ <;>
      rcases jobs_addJob hj' with ⟨rfl, rfl⟩ | ⟨-, j₀', hj₀', hd'⟩
    · rfl
    · exact absurd hk (key_of_displaced hd' hk').2
    · exact absurd hk' (key_of_displaced hd hk).2
    · exact hs.unique r r' j₀ j₀' key hj₀ hj₀' (key_of_displaced hd hk).1 (key_of_displaced hd' hk').1

/-- A change to every job that keeps its key. -/
theorem Table.map (hs : Table s) (hrefs : s'.refs = s.refs) {f : QueueJob → QueueJob}
    (hjobs : ∀ r, s'.jobs r = (s.jobs r).map f) (hf : ∀ j, (f j).key = j.key) : Table s' := by
  refine hs.of_jobs (fun r h => hrefs ▸ h) fun r j' hj' => ?_
  rw [hjobs] at hj'
  obtain ⟨j, hj, rfl⟩ := Option.map_eq_some_iff.1 hj'
  exact ⟨j, hj, hf j⟩

theorem key_released (leader : JobRef) (stage : LockStage) (j : QueueJob) : (j.released leader stage).key = j.key := by
  unfold QueueJob.released
  split <;> rfl

theorem Table.release (hs : Table s) (leader : JobRef) (stage : LockStage) : Table (s.release leader stage) :=
  hs.map rfl (fun _ => rfl) (key_released leader stage)

theorem key_swept (now : Nat) (runner : Runner) (j : QueueJob) : (swept now runner j).key = j.key := by
  unfold swept
  split
  · split <;> rfl
  · rfl

theorem key_bury (runner : Runner) (j : QueueJob) : (bury runner j).key = j.key := by
  unfold bury
  split <;> rfl

/-- Marking a key as completed is all that `mark` does. -/
theorem mark_eq (s : Queue) (job : QueueJob) (completes : Bool) :
    ∃ completed, s.mark job completes = { s with completed := completed } := by
  unfold mark
  split
  · split
    · exact ⟨_, rfl⟩
    · exact ⟨s.completed, rfl⟩
  · exact ⟨s.completed, rfl⟩

theorem Table.step {e : QueueEvent} (hs : Table s) (h : w.Steps s e s') : Table s' := by
  cases h with
  | tick | commit => exact ⟨hs.named, hs.unique⟩
  | deduplicate => exact ⟨fun r j hj => List.mem_cons_of_mem _ (hs.named r j hj), hs.unique⟩
  | send | recover => exact Table.addJob ⟨hs.named, hs.unique⟩
  | @claim ref job claimed lock hj _ _ _ _ hclaimed =>
    have hset : Table (s.setJob ref (some claimed)) := hs.setJob hj (by rw [hclaimed])
    split <;> exact ⟨hset.named, hset.unique⟩
  | begin_ hh => exact hs.atStage hh.found _
  | @acknowledge ref job lock verdict hh =>
    have hrel := (hs.atStage hh.found .done).release ref verdict.release
    obtain ⟨c, hc⟩ := mark_eq ((s.setJob ref (some (job.atStage .done))).release ref verdict.release) job verdict.completes
    rw [hc]
    exact ⟨hrel.named, hrel.unique⟩
  | reschedule hh => exact (hs.atStage hh.found .rescheduled).addJob
  | return_ hh => exact (hs.atStage hh.found .done).release _ _
  | swallow hh => exact ⟨(hs.atStage hh.found .done).named, (hs.atStage hh.found .done).unique⟩
  | promote hh => exact (hs.atStage hh.found .done).addJob
  | complete => exact hs.remove
  | @fail ref job lock backoff threw hh =>
    have hset : Table (s.setJob ref (some { job with lock := none, runAt := s.now + backoff })) := hs.setJob hh.found rfl
    exact hset.release ref _
  | crash runner => exact hs.map rfl (fun _ => rfl) (key_bury runner)
  | reclaim hh => exact hs.setJob hh.found rfl
  | sweep runner => exact hs.map rfl (fun _ => rfl) (key_swept s.now runner)

/-! ## Cover -/

/-- A job will still deliver the message. -/
def Covered (s : Queue) (o : JobRef) : Prop := ∃ r j, s.jobs r = some j ∧ j.origin = o ∧ j.willDeliver = true

/-- The message was enqueued and is not done with. -/
structure Owed (s : Queue) (o : JobRef) : Prop where
  sent : o ∈ s.sent
  enqueued : o ∉ s.deduplicated
  unsettled : ∀ how, (o, how) ∉ s.settled

def Conserved (s : Queue) : Prop := ∀ o, Owed s o → Covered s o

/-- A job that takes the place of one of the same message covers what that one covered, if it will
deliver it or that one would not. -/
theorem Covered.setJob {o : JobRef} (h : Covered s o) (hj : s.jobs ref = some job) (horigin : j.origin = job.origin)
    (hdel : job.origin = o → job.willDeliver = true → j.willDeliver = true) : Covered (s.setJob ref (some j)) o := by
  obtain ⟨r, j₀, hj₀, ho, hw⟩ := h
  by_cases hr : r = ref
  · subst hr
    obtain rfl : job = j₀ := Option.some.inj (hj.symm.trans hj₀)
    exact ⟨r, j, jobs_setJob_self .., horigin.trans ho, hdel ho hw⟩
  · exact ⟨r, j₀, (jobs_setJob_of_ne s _ hr).trans hj₀, ho, hw⟩

/-- Adding a job covers its message; of the others it can only take the jobs under its key, whose
messages are then replaced. -/
theorem Covered.addJob {o : JobRef} (hs : Table s) (hfresh : ref ∉ s.refs) (hnew : job.willDeliver = true)
    (hun : ∀ how, (o, how) ∉ (s.addJob ref job).settled) (h : o = job.origin ∨ Covered s o) :
    Covered (s.addJob ref job) o := by
  by_cases ho : o = job.origin
  · exact ⟨ref, job, jobs_addJob_self .., ho.symm, hnew⟩
  · obtain ⟨r, j, hj, hjo, hw⟩ := h.resolve_left ho
    have hmem := hs.named r j hj
    have hr : r ≠ ref := fun heq => hfresh (heq ▸ hmem)
    refine ⟨r, j, ?_, hjo, hw⟩
    rw [jobs_addJob_of_ne s job hr, hj]
    -- A job under the key would have been replaced.
    have hheld : j.holds job.key = false := by
      by_contra hh
      refine hun .replaced (List.mem_append_left _ (List.mem_filterMap.2 ⟨r, hmem, ?_⟩))
      rw [hj, Option.bind_some, if_pos]
      · rw [hjo]
      · simp only [Bool.and_eq_true, bne_iff_ne]
        exact ⟨by simpa using hh, fun heq => ho (hjo.symm.trans heq)⟩
    simp [QueueJob.displaced, hheld]

theorem not_willDeliver_of_over {lock : Lock} (hl : job.lock = some lock) (hst : lock.stage.over = true) :
    job.willDeliver = false := by
  simp [QueueJob.willDeliver, hl, hst]

theorem willDeliver_atStage {stage : LockStage} (hst : stage.over = false) (h : job.willDeliver = true) :
    (job.atStage stage).willDeliver = true := by
  simp only [QueueJob.willDeliver, Bool.and_eq_true] at h ⊢
  refine ⟨h.1, ?_⟩
  cases hl : job.lock with
  | none => simp [QueueJob.atStage, hl]
  | some l => simp [QueueJob.atStage, hl, hst]

theorem willDeliver_unlocked (runAt : Nat) (h : job.willDeliver = true) :
    ({ job with lock := none, runAt } : QueueJob).willDeliver = true := by
  simp only [QueueJob.willDeliver, Bool.and_eq_true] at h ⊢
  exact ⟨h.1, rfl⟩

/-- A change to every job that keeps its message and lets it be delivered covers what was covered. -/
theorem Covered.map {o : JobRef} (h : Covered s o) {f : QueueJob → QueueJob} (hjobs : ∀ r, s'.jobs r = (s.jobs r).map f)
    (hf : ∀ j, (f j).origin = j.origin ∧ (j.willDeliver = true → (f j).willDeliver = true)) : Covered s' o := by
  obtain ⟨r, j, hj, ho, hw⟩ := h
  exact ⟨r, f j, by rw [hjobs, hj]; rfl, (hf j).1.trans ho, (hf j).2 hw⟩

theorem released_spec (leader : JobRef) {stage : LockStage} (hst : stage.over = false) (j : QueueJob) :
    (j.released leader stage).origin = j.origin ∧ (j.willDeliver = true → (j.released leader stage).willDeliver = true) := by
  unfold QueueJob.released
  split
  · exact ⟨rfl, willDeliver_atStage hst⟩
  · exact ⟨rfl, id⟩

theorem bury_spec (runner : Runner) (j : QueueJob) :
    (bury runner j).origin = j.origin ∧ (j.willDeliver = true → (bury runner j).willDeliver = true) := by
  unfold bury
  split
  · exact ⟨rfl, willDeliver_atStage rfl⟩
  · exact ⟨rfl, id⟩

theorem swept_spec (now : Nat) (runner : Runner) (j : QueueJob) :
    (swept now runner j).origin = j.origin ∧ (j.willDeliver = true → (swept now runner j).willDeliver = true) := by
  unfold swept
  split
  · split <;> exact ⟨rfl, id⟩
  · exact ⟨rfl, id⟩

theorem enter_over (s : Queue) (job : QueueJob) : (s.enter job).over = false := by
  unfold enter
  split
  · rfl
  · split
    · rfl
    · split <;> rfl

theorem release_over (verdict : Verdict) : verdict.release.over = false := by
  cases verdict with
  | deadLettered threw => cases threw <;> rfl
  | _ => rfl

theorem covered_release {o : JobRef} (h : Covered s o) (leader : JobRef) {stage : LockStage} (hst : stage.over = false) :
    Covered (s.release leader stage) o :=
  h.map (fun _ => rfl) (released_spec leader hst)

/-- A new job of a message that was just sent. -/
theorem conserved_sent {woken : List HookInput} (ht : Table s) (hs : Conserved s) (hfresh : ref ∉ s.refs)
    (horigin : job.origin = ref) (hnew : job.willDeliver = true) :
    Conserved ({ s with sent := ref :: s.sent, woken := woken }.addJob ref job) := by
  intro o ho
  refine Covered.addJob ⟨ht.named, ht.unique⟩ hfresh hnew ho.unsettled ?_
  rcases List.mem_cons.1 ho.sent with heq | hsent
  · exact .inl (heq.trans horigin.symm)
  · exact .inr (hs o ⟨hsent, ho.enqueued, fun how h => ho.unsettled how (List.mem_append_right _ h)⟩)

/-- A new job of a message whose old job is over. -/
theorem conserved_continued {stage : LockStage} (ht : Table s) (hs : Conserved s) (hj : s.jobs ref = some job)
    (hfresh : r ∉ s.refs) (horigin : j.origin = job.origin) (hnew : j.willDeliver = true) :
    Conserved ((s.setJob ref (some (job.atStage stage))).addJob r j) := by
  intro o ho
  refine Covered.addJob (ht.atStage hj stage) hfresh hnew ho.unsettled ?_
  by_cases heq : o = j.origin
  · exact .inl heq
  · have hc := hs o ⟨ho.sent, ho.enqueued, fun how h => ho.unsettled how (List.mem_append_right _ h)⟩
    exact .inr (hc.setJob hj rfl fun h => absurd (h.symm.trans horigin.symm) heq)

theorem conserved_step {e : QueueEvent} (ht : Table s) (hs : Conserved s) (h : w.Steps s e s') : Conserved s' := by
  cases h with
  | tick | commit => exact fun o ho => hs o ⟨ho.sent, ho.enqueued, ho.unsettled⟩
  | deduplicate =>
    intro o ho
    rcases List.mem_cons.1 ho.sent with rfl | hsent
    · exact absurd (List.mem_cons_self ..) ho.enqueued
    · exact hs o ⟨hsent, fun h => ho.enqueued (List.mem_cons_of_mem _ h), ho.unsettled⟩
  | send hfresh => exact conserved_sent ht hs hfresh rfl rfl
  | recover hfresh => exact conserved_sent ht hs hfresh rfl rfl
  | @claim ref job claimed lock hj hp hdue hfree hlock hclaimed =>
    intro o ho
    split at ho
    · rename_i hspent
      rw [if_pos hspent]
      -- The last attempt settles the message of the job.
      have hne : job.origin ≠ o := fun heq => ho.unsettled .lastAttempt (heq ▸ List.mem_cons_self ..)
      have hc := hs o ⟨ho.sent, ho.enqueued, fun how h => ho.unsettled how (List.mem_cons_of_mem _ h)⟩
      exact hc.setJob hj (by rw [hclaimed]) fun heq => absurd heq hne
    · rename_i hspent
      rw [if_neg hspent]
      have hc := hs o ⟨ho.sent, ho.enqueued, ho.unsettled⟩
      refine hc.setJob hj (by rw [hclaimed]) fun _ _ => ?_
      simp only [QueueJob.willDeliver, Bool.and_eq_true, Bool.not_eq_true']
      refine ⟨by simpa using hspent, ?_⟩
      simp [hclaimed, hlock, LockStage.over]
  | begin_ hh =>
    exact fun o ho => (hs o ⟨ho.sent, ho.enqueued, ho.unsettled⟩).setJob hh.found rfl fun _ =>
      willDeliver_atStage (enter_over s _)
  | @acknowledge ref job lock verdict hh =>
    obtain ⟨c, hc⟩ := mark_eq ((s.setJob ref (some (job.atStage .done))).release ref verdict.release) job verdict.completes
    rw [hc]
    intro o ho
    have hne : job.origin ≠ o := fun heq => ho.unsettled verdict.settlement (heq ▸ List.mem_cons_self ..)
    have hc := hs o ⟨ho.sent, ho.enqueued, fun how h => ho.unsettled how (List.mem_cons_of_mem _ h)⟩
    have hset : Covered (s.setJob ref (some (job.atStage .done))) o := hc.setJob hh.found rfl fun heq => absurd heq hne
    exact covered_release hset ref (release_over verdict)
  | reschedule hh hst hfresh => exact conserved_continued ht hs hh.found hfresh rfl rfl
  | @return_ ref job lock hh hst =>
    intro o ho
    have hover := not_willDeliver_of_over hh.locked (by rw [hst]; rfl)
    have hset : Covered (s.setJob ref (some (job.atStage .done))) o :=
      (hs o ⟨ho.sent, ho.enqueued, ho.unsettled⟩).setJob hh.found rfl fun _ hw => absurd hw (by simp [hover])
    exact covered_release hset ref rfl
  | @swallow ref job lock hh =>
    intro o ho
    have hne : job.origin ≠ o := fun heq => ho.unsettled .swallowed (heq ▸ List.mem_cons_self ..)
    have hc := hs o ⟨ho.sent, ho.enqueued, fun how h => ho.unsettled how (List.mem_cons_of_mem _ h)⟩
    exact hc.setJob hh.found rfl fun heq => absurd heq hne
  | promote hh htimer hst hfresh => exact conserved_continued ht hs hh.found hfresh rfl rfl
  | @complete ref job lock hh hst =>
    intro o ho
    obtain ⟨r, j, hj, hjo, hw⟩ := hs o ⟨ho.sent, ho.enqueued, ho.unsettled⟩
    have hr : r ≠ ref := by
      rintro rfl
      obtain rfl : job = j := Option.some.inj (hh.found.symm.trans hj)
      rw [not_willDeliver_of_over hh.locked (by rw [hst]; rfl)] at hw
      cases hw
    exact ⟨r, j, (jobs_setJob_of_ne s _ hr).trans hj, hjo, hw⟩
  | @fail ref job lock backoff threw hh =>
    intro o ho
    have hset : Covered (s.setJob ref (some { job with lock := none, runAt := s.now + backoff })) o :=
      (hs o ⟨ho.sent, ho.enqueued, ho.unsettled⟩).setJob hh.found rfl fun _ => willDeliver_unlocked _
    exact covered_release hset ref (by split <;> rfl)
  | crash runner =>
    exact fun o ho => (hs o ⟨ho.sent, ho.enqueued, ho.unsettled⟩).map (fun _ => rfl) (bury_spec runner)
  | reclaim hh =>
    exact fun o ho => (hs o ⟨ho.sent, ho.enqueued, ho.unsettled⟩).setJob hh.found rfl fun _ => willDeliver_unlocked _
  | sweep runner =>
    exact fun o ho => (hs o ⟨ho.sent, ho.enqueued, ho.unsettled⟩).map (fun _ => rfl) (swept_spec s.now runner)

/-! ## Due times -/

/-- The delivery is not due later than the job may be claimed, and a claimed one is due. -/
def Timely (now : Nat) (job : QueueJob) : Prop :=
  (job.due ≤ job.runAt ∨ job.due ≤ now) ∧ (job.lock.isSome → job.due ≤ now)

/-- No claim came before its time. -/
structure Punctual (s : Queue) : Prop where
  jobs : ∀ r j, s.jobs r = some j → Timely s.now j
  claims : ∀ c ∈ s.claims, c.job.due ≤ c.at_

theorem Punctual.setJob (hs : Punctual s) (h : Timely s.now j) : Punctual (s.setJob ref (some j)) := by
  refine ⟨fun r j' hj' => ?_, hs.claims⟩
  rcases jobs_setJob hj' with ⟨-, heq⟩ | ⟨-, hj'⟩
  · exact Option.some.inj heq ▸ h
  · exact hs.jobs r j' hj'

theorem Punctual.addJob (hs : Punctual s) (h : Timely s.now job) : Punctual (s.addJob ref job) := by
  refine ⟨fun r j hj => ?_, hs.claims⟩
  rcases jobs_addJob hj with ⟨-, rfl⟩ | ⟨-, j₀, hj₀, hd⟩
  · exact h
  · rcases displaced_cases hd with ⟨rfl, -⟩ | ⟨rfl, -⟩
    · exact hs.jobs r _ hj₀
    · exact hs.jobs r j₀ hj₀

theorem timely_atStage {now : Nat} (h : Timely now job) (stage : LockStage) : Timely now (job.atStage stage) := by
  refine ⟨h.1, fun hl => h.2 ?_⟩
  simpa [QueueJob.atStage] using hl

/-- A change to every job that keeps its due time and gives it no lock. -/
theorem Punctual.map (hs : Punctual s) (hnow : s'.now = s.now) (hclaims : s'.claims = s.claims) {f : QueueJob → QueueJob}
    (hjobs : ∀ r, s'.jobs r = (s.jobs r).map f) (hf : ∀ j, Timely s.now j → Timely s.now (f j)) : Punctual s' := by
  refine ⟨fun r j' hj' => ?_, hclaims ▸ hs.claims⟩
  rw [hjobs] at hj'
  obtain ⟨j, hj, rfl⟩ := Option.map_eq_some_iff.1 hj'
  exact hnow ▸ hf j (hs.jobs r j hj)

theorem Punctual.release (hs : Punctual s) (leader : JobRef) (stage : LockStage) : Punctual (s.release leader stage) := by
  refine hs.map rfl rfl (fun _ => rfl) fun j hj => ?_
  unfold QueueJob.released
  split
  · exact timely_atStage hj stage
  · exact hj

theorem punctual_step {e : QueueEvent} (hs : Punctual s) (h : w.Steps s e s') : Punctual s' := by
  have hstage : ∀ {ref : JobRef} {job : QueueJob} {lock : Lock} (stage : LockStage), s.Handles ref job lock →
      Punctual (s.setJob ref (some (job.atStage stage))) := fun stage hh =>
    hs.setJob (timely_atStage (hs.jobs _ _ hh.found) stage)
  have hlocked : ∀ {ref : JobRef} {job : QueueJob} {lock : Lock}, s.Handles ref job lock → job.due ≤ s.now :=
    fun hh => (hs.jobs _ _ hh.found).2 (by rw [hh.locked]; rfl)
  cases h with
  | tick seconds =>
    refine ⟨fun r j hj => ?_, hs.claims⟩
    obtain ⟨h₁, h₂⟩ := hs.jobs r j hj
    constructor
    · exact h₁.imp_right fun h => Nat.le_add_right_of_le h
    · exact fun hl => Nat.le_add_right_of_le (h₂ hl)
  | commit | deduplicate => exact ⟨hs.jobs, hs.claims⟩
  | send | recover => exact Punctual.addJob ⟨hs.jobs, hs.claims⟩ ⟨.inl (Nat.le_refl _), (fun hl => by cases hl)⟩
  | @claim ref job claimed lock hj hp hdue hfree hlock hclaimed =>
    have hnow : job.due ≤ s.now := (hs.jobs ref job hj).1.elim (fun h => Nat.le_trans h hdue) id
    have hset : Punctual (s.setJob ref (some claimed)) := hs.setJob (by rw [hclaimed]; exact ⟨.inr hnow, fun _ => hnow⟩)
    have hclaims : ∀ c ∈ (⟨job, s.now⟩ : Claim) :: s.claims, c.job.due ≤ c.at_ := by
      rintro c (- | ⟨_, hc⟩)
      · exact hnow
      · exact hs.claims c hc
    split <;> exact ⟨hset.jobs, hclaims⟩
  | begin_ hh => exact hstage _ hh
  | @acknowledge ref job lock verdict hh =>
    have hrel := (hstage .done hh).release ref verdict.release
    obtain ⟨c, hc⟩ := mark_eq ((s.setJob ref (some (job.atStage .done))).release ref verdict.release) job verdict.completes
    rw [hc]
    exact ⟨hrel.jobs, hrel.claims⟩
  | reschedule hh => exact (hstage .rescheduled hh).addJob ⟨.inl (Nat.le_refl _), (fun hl => by cases hl)⟩
  | return_ hh => exact (hstage .done hh).release _ _
  | swallow hh => exact ⟨(hstage .done hh).jobs, (hstage .done hh).claims⟩
  | @promote ref job lock next hh =>
    have hdue : job.due ≤ s.now := hlocked hh
    exact (hstage .done hh).addJob ⟨.inr hdue, (fun h => by cases h)⟩
  | complete =>
    refine ⟨fun r j' hj' => ?_, hs.claims⟩
    rcases jobs_setJob hj' with ⟨-, heq⟩ | ⟨-, hj'⟩
    · cases heq
    · exact hs.jobs r j' hj'
  | @fail ref job lock backoff threw hh =>
    have hdue : job.due ≤ s.now := hlocked hh
    have hset : Punctual (s.setJob ref (some { job with lock := none, runAt := s.now + backoff })) :=
      hs.setJob ⟨.inr hdue, (fun h => by cases h)⟩
    exact hset.release ref _
  | crash runner =>
    refine hs.map rfl rfl (fun _ => rfl) fun j hj => ?_
    unfold bury
    split
    · exact timely_atStage hj .dead
    · exact hj
  | reclaim hh => exact hs.setJob ⟨(hs.jobs _ _ hh.found).1, (fun h => by cases h)⟩
  | sweep runner =>
    refine hs.map rfl rfl (fun _ => rfl) fun j hj => ?_
    unfold swept
    split
    · split <;> exact hj
    · exact hj

theorem swept_of_attempted (now : Nat) (runner : Runner) (h : 0 < job.attempts) : swept now runner job = job := by
  unfold swept
  split
  · rw [if_neg fun hg => Nat.ne_of_gt h hg.2.2.2.1]
  · rfl

/-! ## Every run -/

/-- A delayed message is swept and promoted, the dispatcher crashes with its delivery, and the lock is
reclaimed. -/
def delayedRun : List QueueEvent :=
  [.send ("t", 0) false hookWake (some 3600) false none, .sweep .dispatcher, .tick 3600, .claim ("t", 0), .promote ("t", 0) 1,
    .claim ("t", 1), .begin_ ("t", 1), .crash .dispatcher, .reclaim ("t", 1)]

/-- The execution message of a step of a spec 9 run. -/
def stepMessage (messageId : MessageId) : Message where
  attempt := 1
  messageId := messageId
  idempotencyKey := some "step"
  id := "flow"
  data := { workflowRunId := some "r", stepId := some "s", runSpecVersion := some 9 }
  tenantId := "t"
  deploymentId := "d"

/-- The message is sent again while its job waits, and the job is delivered. -/
def sentTwiceRun : List QueueEvent :=
  [.send ("t", 0) false (stepMessage "m0") none false none, .send ("t", 1) false (stepMessage "m1") none false none,
    .claim ("t", 0), .begin_ ("t", 0), .acknowledge ("t", 0) .accepted, .complete ("t", 0)]

end WorkflowWorld.Dispatcher.Queue
