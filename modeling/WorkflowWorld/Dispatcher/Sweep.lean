/-
What one sweep of boot recovery does: the waves over which it spreads the deployments it wakes, the runs
that it wakes, and what it leaves for the next sweep.
-/
import WorkflowWorld.Dispatcher.BootRecovery
import WorkflowWorld.Lists.FirstSeen
import Mathlib.Data.List.Forall2

namespace WorkflowWorld.Dispatcher

open Lists

variable {W : Type}

/-! ## Waves -/

/-- The map's key for a row; neither part holds the separator that the source puts between them. -/
def SweepRow.deployment (row : SweepRow W) : TenantId × String := (row.tenantId, row.deploymentId)

/-- `waveByDeployment`, its entries in the order in which they are set. -/
def waveByDeployment (deploymentsPerWave : Nat) (rows : List (SweepRow W)) : List ((TenantId × String) × Nat) :=
  rows.foldl (fun waves row =>
    if (waves.lookup row.deployment).isSome then waves
    else waves ++ [(row.deployment, waves.length / deploymentsPerWave)]) []

/-- When the job of a row is due. -/
def dueAt (p : BootRecoveryPacing) (sweepStartedAt : Nat) (rows : List (SweepRow W)) (row : SweepRow W) : Nat :=
  sweepStartedAt + ((waveByDeployment p.deploymentsPerWave rows).lookup row.deployment).getD 0 * p.waveIntervalMs

theorem waveByDeployment_concat (k : Nat) (rows : List (SweepRow W)) (row : SweepRow W) :
    waveByDeployment k (rows ++ [row]) =
      if ((waveByDeployment k rows).lookup row.deployment).isSome then waveByDeployment k rows
      else waveByDeployment k rows ++ [(row.deployment, (waveByDeployment k rows).length / k)] := by
  rw [waveByDeployment, List.foldl_append]
  rfl

/-- The map's entries are the deployments seen so far, each at its position over `deploymentsPerWave`. -/
theorem waveByDeployment_spec (k : Nat) (rows : List (SweepRow W)) :
    (waveByDeployment k rows).length = (firstSeen (rows.map (·.deployment))).length ∧
    ∀ d, (waveByDeployment k rows).lookup d =
      if d ∈ firstSeen (rows.map (·.deployment)) then some ((firstSeen (rows.map (·.deployment))).idxOf d / k) else none := by
  induction rows using List.reverseRecOn with
  | nil => exact ⟨rfl, fun d => rfl⟩
  | append_singleton rows row ih =>
    obtain ⟨hlen, hlook⟩ := ih
    rw [waveByDeployment_concat, List.map_append, List.map_singleton, firstSeen_concat, hlook]
    generalize firstSeen (rows.map (·.deployment)) = D at hlen hlook ⊢
    by_cases hin : row.deployment ∈ D
    · rw [if_pos hin, if_pos hin, if_pos (by rfl)]
      exact ⟨hlen, hlook⟩
    rw [if_neg hin, if_neg hin, if_neg (by simp)]
    refine ⟨by rw [List.length_append, List.length_append, hlen]; rfl, fun d => ?_⟩
    rw [List.lookup_append, hlook]
    by_cases hd : d ∈ D
    · rw [if_pos hd, if_pos (List.mem_append_left _ hd), List.idxOf_append_of_mem hd]
      rfl
    rw [if_neg hd]
    by_cases hnew : d = row.deployment
    · subst hnew
      rw [if_pos (by simp), List.idxOf_append_of_notMem hd, List.idxOf_cons_self, Nat.add_zero, ← hlen]
      simp
    · rw [if_neg (by simp [hd, hnew])]
      simp [hnew]

theorem deployments_eq (rows : List (SweepRow W)) : deployments rows = firstSeen (rows.map (·.deployment)) := by
  unfold deployments firstSeen
  rw [List.foldl_map]
  simp only [List.contains_iff_mem]
  rfl

theorem lookup_waveByDeployment {k : Nat} {rows : List (SweepRow W)} {row : SweepRow W} (h : row ∈ rows) :
    ((waveByDeployment k rows).lookup row.deployment).getD 0 = (firstSeen (rows.map (·.deployment))).idxOf row.deployment / k := by
  rw [(waveByDeployment_spec k rows).2, if_pos (mem_firstSeen.2 (List.mem_map_of_mem h))]
  rfl

/-- The wave read off the order of the deployments is the one of the map. -/
theorem runAt_recoveryJob {p : BootRecoveryPacing} (hd : 1 ≤ p.deploymentsPerWave) (hi : 1 ≤ p.waveIntervalMs) (t : Nat)
    {rows : List (SweepRow W)} {row : SweepRow W} (h : row ∈ rows) :
    (recoveryJob (some p) t rows row).runAt = some (dueAt p t rows row) := by
  have heff : effectivePacing (some p) = some p := by
    unfold effectivePacing
    rw [Option.filter_some, if_pos (by simp; omega)]
  show (effectivePacing (some p)).map _ = _
  rw [heff, dueAt, lookup_waveByDeployment h, Option.map_some, wave, deployments_eq]
  rfl

/-! ## Pacing -/

/-- The deployments whose runs are due at a time. -/
def dueDeployments (p : BootRecoveryPacing) (sweepStartedAt : Nat) (rows : List (SweepRow W)) (t : Nat) :
    Finset (TenantId × String) :=
  ((rows.filter fun row => dueAt p sweepStartedAt rows row = t).map (·.deployment)).toFinset

/-- `deployments` is the number of distinct deployments of the rows, `waves` the number of waves they fill. -/
def deploymentCount (rows : List (SweepRow W)) : Nat := (rows.map (·.deployment)).toFinset.card

def waveCount (p : BootRecoveryPacing) (rows : List (SweepRow W)) : Nat :=
  (deploymentCount rows + p.deploymentsPerWave - 1) / p.deploymentsPerWave

/-- The candidates of a sweep are spread over waves of deployments. -/
structure Paced (p : BootRecoveryPacing) (t₀ : Nat) (rows : List (SweepRow W)) : Prop where
  due : ∀ row ∈ rows, (recoveryJob (some p) t₀ rows row).runAt = some (dueAt p t₀ rows row)
  shared : ∀ row ∈ rows, ∀ row' ∈ rows, row.deployment = row'.deployment → dueAt p t₀ rows row = dueAt p t₀ rows row'
  atMost : ∀ t, (dueDeployments p t₀ rows t).card ≤ p.deploymentsPerWave
  /-- An earlier deployment is not due later. -/
  ordered : ∀ row ∈ rows, ∀ row' ∈ rows,
    (rows.map (·.deployment)).idxOf row.deployment < (rows.map (·.deployment)).idxOf row'.deployment →
      dueAt p t₀ rows row ≤ dueAt p t₀ rows row'
  /-- A wave that another follows is full. -/
  filled : ∀ row ∈ rows, ∀ row' ∈ rows, dueAt p t₀ rows row < dueAt p t₀ rows row' →
    (dueDeployments p t₀ rows (dueAt p t₀ rows row)).card = p.deploymentsPerWave
  /-- The due times are those of the waves, and none of these is empty. -/
  times : ∀ t, (∃ row ∈ rows, dueAt p t₀ rows row = t) ↔ ∃ w < waveCount p rows, t = t₀ + w * p.waveIntervalMs
  count : (rows.map (dueAt p t₀ rows)).toFinset.card = waveCount p rows

section Waves

variable {p : BootRecoveryPacing} {t₀ : Nat} {rows : List (SweepRow W)}

theorem dueAt_eq {row : SweepRow W} (h : row ∈ rows) :
    dueAt p t₀ rows row =
      t₀ + (firstSeen (rows.map (·.deployment))).idxOf row.deployment / p.deploymentsPerWave * p.waveIntervalMs := by
  rw [dueAt, lookup_waveByDeployment h]

theorem wave_time_inj (hi : 1 ≤ p.waveIntervalMs) {a b : Nat} :
    t₀ + a * p.waveIntervalMs = t₀ + b * p.waveIntervalMs ↔ a = b :=
  ⟨fun h => Nat.eq_of_mul_eq_mul_right hi (Nat.add_left_cancel h), fun h => by rw [h]⟩

theorem wave_time_lt (hi : 1 ≤ p.waveIntervalMs) {a b : Nat} :
    t₀ + a * p.waveIntervalMs < t₀ + b * p.waveIntervalMs ↔ a < b := by
  rw [Nat.add_lt_add_iff_left, Nat.mul_lt_mul_right hi]

/-- What is due at the time of a wave is the wave's group of deployments. -/
theorem dueDeployments_wave (hi : 1 ≤ p.waveIntervalMs) (w : Nat) :
    dueDeployments p t₀ rows (t₀ + w * p.waveIntervalMs) =
      group (firstSeen (rows.map (·.deployment))) p.deploymentsPerWave w := by
  ext d
  rw [mem_group, mem_firstSeen]
  simp only [dueDeployments, List.mem_toFinset, List.mem_map, List.mem_filter, decide_eq_true_eq]
  constructor
  · rintro ⟨row, ⟨hrow, hdue⟩, rfl⟩
    rw [dueAt_eq hrow, wave_time_inj hi] at hdue
    exact ⟨⟨row, hrow, rfl⟩, hdue⟩
  · rintro ⟨⟨row, hrow, rfl⟩, hw⟩
    exact ⟨row, ⟨hrow, by rw [dueAt_eq hrow, hw]⟩, rfl⟩

theorem length_firstSeen_deployments : (firstSeen (rows.map (·.deployment))).length = deploymentCount rows := by
  rw [length_firstSeen, deploymentCount, List.card_toFinset]

/-- The due times are those of the first waves. -/
theorem due_iff (hd : 1 ≤ p.deploymentsPerWave) (t : Nat) :
    (∃ row ∈ rows, dueAt p t₀ rows row = t) ↔ ∃ w < waveCount p rows, t = t₀ + w * p.waveIntervalMs := by
  unfold waveCount
  rw [← length_firstSeen_deployments]
  constructor
  · rintro ⟨row, hrow, rfl⟩
    refine ⟨_, exists_mem_group hd ⟨row.deployment, ?_, rfl⟩, dueAt_eq hrow⟩
    exact mem_firstSeen.2 (List.mem_map_of_mem hrow)
  · rintro ⟨w, hw, rfl⟩
    obtain ⟨d, hin, hwave⟩ := exists_of_lt_groups (nodup_firstSeen _) hd hw
    obtain ⟨row, hrow, rfl⟩ := List.mem_map.1 (mem_firstSeen.1 hin)
    exact ⟨row, hrow, by rw [dueAt_eq hrow, hwave]⟩

theorem card_dueDeployments_le (hd : 1 ≤ p.deploymentsPerWave) (hi : 1 ≤ p.waveIntervalMs) (t : Nat) :
    (dueDeployments p t₀ rows t).card ≤ p.deploymentsPerWave := by
  rcases (dueDeployments p t₀ rows t).eq_empty_or_nonempty with hempty | ⟨d, hd'⟩
  · rw [hempty]
    exact Nat.zero_le _
  · obtain ⟨row, hrow, -⟩ := List.mem_map.1 (List.mem_toFinset.1 hd')
    obtain ⟨hrow, hdue⟩ := List.mem_filter.1 hrow
    rw [← of_decide_eq_true hdue, dueAt_eq hrow, dueDeployments_wave hi]
    exact card_group_le (nodup_firstSeen _) hd

/-- A wave before the one of a row is full. -/
theorem card_dueDeployments_of_lt (hd : 1 ≤ p.deploymentsPerWave) (hi : 1 ≤ p.waveIntervalMs) {row row' : SweepRow W}
    (hrow : row ∈ rows) (hrow' : row' ∈ rows) (hlt : dueAt p t₀ rows row < dueAt p t₀ rows row') :
    (dueDeployments p t₀ rows (dueAt p t₀ rows row)).card = p.deploymentsPerWave := by
  rw [dueAt_eq hrow, dueAt_eq hrow', wave_time_lt hi] at hlt
  rw [dueAt_eq hrow, dueDeployments_wave hi]
  refine card_group_full (nodup_firstSeen _) hd ?_
  have hlast := List.idxOf_lt_length_iff.2 (mem_firstSeen.2 (List.mem_map_of_mem (f := (·.deployment)) hrow'))
  have hle := (Nat.le_div_iff_mul_le hd).1 (Nat.succ_le_of_lt hlt)
  rw [Nat.succ_mul] at hle
  omega

theorem card_due (hd : 1 ≤ p.deploymentsPerWave) (hi : 1 ≤ p.waveIntervalMs) :
    (rows.map (dueAt p t₀ rows)).toFinset.card = waveCount p rows := by
  have himage : (rows.map (dueAt p t₀ rows)).toFinset = (Finset.range (waveCount p rows)).image fun w => t₀ + w * p.waveIntervalMs := by
    ext t
    rw [List.mem_toFinset, List.mem_map, due_iff hd, Finset.mem_image]
    simp only [Finset.mem_range, eq_comm]
  rw [himage, Finset.card_image_of_injective _ fun a b h => (wave_time_inj hi).1 h, Finset.card_range]

end Waves

/-- The runs of a deployment share a due time, at most `deploymentsPerWave` deployments share one, the waves are filled
in the order in which the deployments first appear, none is empty, and there are as many as the deployments need. -/
theorem recovery_paced (p : BootRecoveryPacing) (hd : 1 ≤ p.deploymentsPerWave) (hi : 1 ≤ p.waveIntervalMs) (t₀ : Nat)
    (rows : List (SweepRow W)) : Paced p t₀ rows where
  due _ hrow := runAt_recoveryJob hd hi t₀ hrow
  shared _ hrow _ hrow' heq := by rw [dueAt_eq hrow, dueAt_eq hrow', heq]
  atMost := card_dueDeployments_le hd hi
  ordered row hrow row' hrow' hlt := by
    have hidx := (idxOf_firstSeen_lt (List.mem_map_of_mem hrow) (List.mem_map_of_mem hrow')).2 hlt
    rw [dueAt_eq hrow, dueAt_eq hrow']
    exact Nat.add_le_add_left (Nat.mul_le_mul_right _ (Nat.div_le_div_right hidx.le)) _
  filled _ hrow _ hrow' hlt := card_dueDeployments_of_lt hd hi hrow hrow' hlt
  times := due_iff hd
  count := card_due hd hi

theorem recovery_paced_two :
    let row (d : String) : SweepRow Unit := ⟨"t", "r", "wf", d, none, none, false, false, false⟩
    Paced ⟨2, 500⟩ 1000 [row "a", row "b", row "a", row "c"] :=
  recovery_paced ⟨2, 500⟩ (by decide) (by decide) 1000 _

/-! ## One sweep -/

/-- The host's filter: it may throw. -/
abbrev FilterRuns := List BootRecoveryRun → Option (List BootRecoveryRun)

/-- The candidates that are left after the host's filter, if there is one. -/
def keptRows (filterRuns : Option FilterRuns) (offered : List (SweepRow W)) : Option (List (SweepRow W)) :=
  match filterRuns with
  | none => some offered
  | some filterRuns => (filterRuns (offered.map (·.offered))).map fun kept => keptBy kept offered

def reclaimed [DecidableEq W] (reclaimOldWorkerLocks : Bool) (T : Tables W) : Tables W :=
  if reclaimOldWorkerLocks then T.forceUnlockWorkers (oldWorkerIds T.sweepRows T.unqueuedLocks) else T

/-- `recoverActiveRunsForAllTenants`, every `addJob` succeeding: the number of jobs it enqueued, unless the filter threw,
and the tables it leaves. -/
def recoverActiveRunsForAllTenants [DecidableEq W] (filterRuns : Option FilterRuns) (pacing : Option BootRecoveryPacing)
    (reclaimOldWorkerLocks : Bool) (sweepStartedAt : Nat) (T : Tables W) : Option Nat × Tables W :=
  let T' := reclaimed reclaimOldWorkerLocks T
  match keptRows filterRuns (candidates T.sweepRows) with
  | none => (none, T')
  | some kept => (some kept.length, (kept.map (recoveryJob pacing sweepStartedAt kept)).foldl (fun T job => T.addJob job) T')

/-! ## What it is for -/

/-- Graphile will still deliver the job. -/
def Job.Unspent (j : Job W) : Prop := j.attempts < j.maxAttempts

def RunEntry.queue (r : RunEntry) : String := runQueueName r.tenantId r.id

/-- The job is in the run's queue, whose row graphile keeps beside its jobs. -/
def OnRunQueue (T : Tables W) (r : RunEntry) (j : Job W) : Prop :=
  j.queueName = some r.queue ∧ ∃ q ∈ T.queues, q.queueName = r.queue

/-- The job is a held timer that goes back to the run's queue. -/
def TimerOf (r : RunEntry) (j : Job W) : Prop := j.task = timerJobName ∧ j.runQueue = some r.queue

/-- Nothing is left that would wake the run. -/
structure Stranded (T : Tables W) (r : RunEntry) : Prop where
  active : r.status = .pending ∨ r.status = .running
  noLetter : ∀ d ∈ T.deadLetters, d.tenantId = r.tenantId → d.runId = some r.id → d.resolvedAt ≠ none
  noJob : ∀ j ∈ T.jobs, OnRunQueue T r j → ¬ j.Unspent
  noTimer : ∀ j ∈ T.jobs, TimerOf r j → ¬ j.Unspent
  noHook : (r.tenantId, r.id) ∉ T.hooks ∨
    ∃ w ∈ T.waits, w.tenantId = r.tenantId ∧ w.runId = r.id ∧ w.status = .waiting ∧ w.resumeAt ≠ none

/-- The filter, asked about these candidates, kept the run. -/
def KeptByFilter (filterRuns : Option FilterRuns) (T : Tables W) (r : RunEntry) : Prop :=
  match filterRuns with
  | none => True
  | some filterRuns => ∃ kept, filterRuns ((candidates T.sweepRows).map (·.offered)) = some kept ∧
      ∃ run ∈ kept, run.tenantId = r.tenantId ∧ run.runId = r.id

/-- The runs that a sweep has to wake. -/
structure ToWake (filterRuns : Option FilterRuns) (T : Tables W) (r : RunEntry) : Prop where
  mem : r ∈ T.runs
  stranded : Stranded T r
  kept : KeptByFilter filterRuns T r

/-- A live flow job on the run's own queue that carries what the run's row says; an empty namespace is none. -/
structure Wakes (r : RunEntry) (j : Job W) : Prop where
  task : j.task = flowJobName
  live : j.Unspent
  unlocked : j.lockedBy = none
  message : ∃ m, j.message = some m ∧ m.id = r.name ∧ m.data = r.id ∧ m.tenantId = r.tenantId ∧
    m.deploymentId = r.deploymentId ∧ m.queueNamespace = r.queueNamespace.filter (· ≠ "")

/-- What a sweep may do to a job that it leaves: release its lock, or take its key and spend its attempts. -/
structure LeftBehind (j j₀ : Job W) : Prop where
  same : j = { j₀ with lockedBy := j.lockedBy, key := j.key, attempts := j.attempts }
  lock : j.lockedBy = j₀.lockedBy ∨ j.lockedBy = none
  spent : j.key = j₀.key ∧ j.attempts = j₀.attempts ∨ j.key = none ∧ j.attempts = j₀.maxAttempts

def recoveryKey (r : RunEntry) : String := "msg_recover_" ++ r.id

/-- What a sweep leaves of the tables: one new job for each run that it has to wake, and nothing else that is new. -/
structure Recovered (filterRuns : Option FilterRuns) (T : Tables W) (answer : Option Nat × Tables W) : Prop where
  runs : answer.2.runs = T.runs
  hooks : answer.2.hooks = T.hooks
  waits : answer.2.waits = T.waits
  deadLetters : answer.2.deadLetters = T.deadLetters
  queues : ∀ q ∈ T.queues, ∃ q' ∈ answer.2.queues, q'.queueName = q.queueName
  jobs : ∃ woken : List RunEntry, woken.Nodup ∧ (∀ r, r ∈ woken ↔ ToWake filterRuns T r) ∧
    (∀ n, answer.1 = some n → n = woken.length) ∧
    ∃ old new, answer.2.jobs = old ++ new ∧ List.SublistForall₂ LeftBehind old T.jobs ∧
      List.Forall₂ (fun r j => Wakes r j ∧ OnRunQueue answer.2 r j) woken new
  /-- A job that is under no key of a run to wake loses its lock at most. -/
  others : ∀ j ∈ T.jobs, (∀ r, ToWake filterRuns T r → j.key ≠ some (recoveryKey r)) →
    ∃ l, { j with lockedBy := l } ∈ answer.2.jobs

/-- An unspent job under the key of a run's recovery is the run's own, in its queue or held for it. -/
def RecoveryKeysOwn (T : Tables W) : Prop :=
  ∀ r ∈ T.runs, ∀ j ∈ T.jobs, j.key = some (recoveryKey r) → j.Unspent → OnRunQueue T r j ∨ TimerOf r j

/-! ## Candidates -/

section Candidates

variable {T : Tables W} {r : RunEntry}

theorem active_iff : T.active r = true ↔ (r.status = .pending ∨ r.status = .running) ∧
    ∀ d ∈ T.deadLetters, d.tenantId = r.tenantId → d.runId = some r.id → d.resolvedAt ≠ none := by
  have hstatus : (!r.status.isTerminal) = true ↔ r.status = .pending ∨ r.status = .running := by
    cases r.status <;> decide
  unfold Tables.active
  rw [Bool.and_eq_true, hstatus]
  simp

theorem hasLiveJob_iff : (T.sweepRow r).hasLiveJob = true ↔ ∃ j ∈ T.jobs, (OnRunQueue T r j ∨ TimerOf r j) ∧ j.Unspent := by
  have hqueue : (T.queues.find? (·.queueName == runQueueName r.tenantId r.id)).isSome = true ↔
      ∃ q ∈ T.queues, q.queueName = r.queue := by
    rw [List.find?_isSome]
    simp [RunEntry.queue]
  simp only [Tables.sweepRow, Tables.timers, Bool.or_eq_true, Bool.and_eq_true, hqueue, List.any_eq_true, beq_iff_eq,
    decide_eq_true_eq, List.contains_iff_mem, List.mem_filterMap, List.mem_filter]
  constructor
  · rintro (⟨hq, j, hj, hname, hlive⟩ | ⟨j, ⟨hj, htask, hlive⟩, hname⟩)
    · exact ⟨j, hj, .inl ⟨hname, hq⟩, hlive⟩
    · exact ⟨j, hj, .inr ⟨htask, hname⟩, hlive⟩
  · rintro ⟨j, hj, ⟨hname, hq⟩ | ⟨htask, hname⟩, hlive⟩
    · exact .inl ⟨hq, j, hj, hname, hlive⟩
    · exact .inr ⟨j, ⟨hj, htask, hlive⟩, hname⟩

theorem parked_iff : (!(T.sweepRow r).hasHook || (T.sweepRow r).hasTimer) = true ↔ (r.tenantId, r.id) ∉ T.hooks ∨
    ∃ w ∈ T.waits, w.tenantId = r.tenantId ∧ w.runId = r.id ∧ w.status = .waiting ∧ w.resumeAt ≠ none := by
  simp [Tables.sweepRow, Option.isSome_iff_ne_none, and_assoc]

/-- The query and the selection of the candidates find the stranded runs. -/
theorem candidate_iff : T.active r = true ∧ (!(T.sweepRow r).hasLiveJob &&
    (!(T.sweepRow r).hasHook || (T.sweepRow r).hasTimer)) = true ↔ Stranded T r := by
  rw [Bool.and_eq_true, active_iff, parked_iff, Bool.not_eq_true', ← Bool.not_eq_true, hasLiveJob_iff]
  constructor
  · rintro ⟨⟨h1, h2⟩, h3, h4⟩
    exact ⟨h1, h2, fun j hj hon hlive => h3 ⟨j, hj, .inl hon, hlive⟩, fun j hj hon hlive => h3 ⟨j, hj, .inr hon, hlive⟩, h4⟩
  · rintro ⟨h1, h2, h3, h4, h5⟩
    refine ⟨⟨h1, h2⟩, ?_, h5⟩
    rintro ⟨j, hj, hon | hon, hlive⟩
    · exact h3 j hj hon hlive
    · exact h4 j hj hon hlive

/-- The candidates are the rows of the stranded runs, each once. -/
theorem candidates_eq (hids : (T.runs.map (·.id)).Nodup) : ∃ rs : List RunEntry,
    candidates T.sweepRows = rs.map T.sweepRow ∧ rs.Nodup ∧ ∀ r, r ∈ rs ↔ r ∈ T.runs ∧ Stranded T r := by
  refine ⟨_, List.filter_map .., ?_, fun r => ?_⟩
  · refine List.Nodup.filter _ ?_
    rw [(List.perm_insertionSort _ _).nodup_iff]
    exact hids.of_map.filter _
  · rw [List.mem_filter, List.mem_insertionSort, List.mem_filter, and_assoc]
    exact and_congr_right fun _ => candidate_iff

theorem keptRows_none {filterRuns : Option FilterRuns} (h : keptRows filterRuns (candidates T.sweepRows) = none) (r : RunEntry) :
    ¬ ToWake filterRuns T r := by
  rcases filterRuns with _ | f
  · cases h
  · rintro ⟨-, -, kept, hk, -⟩
    rw [keptRows, hk] at h
    cases h

/-- What the filter keeps of the candidates are the rows of the runs to wake. -/
theorem keptRows_some (hids : (T.runs.map (·.id)).Nodup) {filterRuns : Option FilterRuns} {kept : List (SweepRow W)}
    (h : keptRows filterRuns (candidates T.sweepRows) = some kept) :
    ∃ rs : List RunEntry, kept = rs.map T.sweepRow ∧ rs.Nodup ∧ ∀ r, r ∈ rs ↔ ToWake filterRuns T r := by
  obtain ⟨rs, heq, hnd, hmem⟩ := candidates_eq hids
  rcases filterRuns with _ | f
  · cases h
    exact ⟨rs, heq, hnd, fun r => by rw [hmem]; exact ⟨fun h => ⟨h.1, h.2, trivial⟩, fun h => ⟨h.mem, h.stranded⟩⟩⟩
  obtain ⟨runs, hf, rfl⟩ := Option.map_eq_some_iff.1 h
  refine ⟨rs.filter fun r => runs.any fun run => run.tenantId == r.tenantId && run.runId == r.id, ?_, hnd.filter _, fun r => ?_⟩
  · rw [heq, keptBy, List.filter_map]
    rfl
  · have hany : (runs.any fun run => run.tenantId == r.tenantId && run.runId == r.id) = true ↔ KeptByFilter (some f) T r := by
      simp only [KeptByFilter, hf, Option.some.injEq, exists_eq_left', List.any_eq_true, Bool.and_eq_true, beq_iff_eq]
    rw [List.mem_filter, hmem, hany]
    exact ⟨fun h => ⟨h.1.1, h.1.2, h.2⟩, fun h => ⟨⟨h.mem, h.stranded⟩, h.kept⟩⟩

end Candidates

/-! ## Enqueueing -/

namespace LeftBehind

theorem refl (j : Job W) : LeftBehind j j := ⟨rfl, .inl rfl, .inl ⟨rfl, rfl⟩⟩

theorem trans {a b c : Job W} (h : LeftBehind a b) (h' : LeftBehind b c) : LeftBehind a c where
  same := by
    rw [h.same, h'.same]
  lock := by
    rcases h.lock with hl | hl
    · rw [hl]
      exact h'.lock
    · exact .inr hl
  spent := by
    have hmax : b.maxAttempts = c.maxAttempts := by rw [h'.same]
    rcases h.spent with ⟨hk, ha⟩ | ⟨hk, ha⟩
    · rw [hk, ha]
      exact h'.spent
    · exact .inr ⟨hk, ha.trans hmax⟩

instance : IsTrans (Job W) LeftBehind := ⟨fun _ _ _ => trans⟩

end LeftBehind

section Enqueue

variable {T : Tables W} {job : Job W}

/-- What `addJob` leaves of some jobs. -/
def leftBy (job : Job W) (l : List (Job W)) : List (Job W) :=
  (l.filter fun j => !(job.key.isSome && j.key == job.key && j.lockedBy.isNone)).map fun j =>
    if job.key.isSome && j.key == job.key then { j with key := none, attempts := j.maxAttempts } else j

theorem jobs_addJob : (T.addJob job).jobs = leftBy job T.jobs ++ [job] := rfl

theorem leftBy_append (l l' : List (Job W)) : leftBy job (l ++ l') = leftBy job l ++ leftBy job l' := by
  unfold leftBy
  rw [List.filter_append, List.map_append]

/-- Jobs of other keys stay. -/
theorem leftBy_self {l : List (Job W)} (h : ∀ j ∈ l, j.key ≠ job.key) : leftBy job l = l := by
  have hno : ∀ j ∈ l, (job.key.isSome && j.key == job.key) = false := fun j hj =>
    Bool.and_eq_false_iff.2 (.inr (beq_eq_false_iff_ne.2 (h j hj)))
  unfold leftBy
  rw [List.filter_eq_self.2 fun j hj => by rw [hno j hj]; rfl]
  refine (List.map_congr_left fun j hj => if_neg ?_).trans (List.map_id _)
  rw [hno j hj]
  exact Bool.false_ne_true

theorem leftBy_leftBehind (l : List (Job W)) : List.SublistForall₂ LeftBehind (leftBy job l) l := by
  refine List.sublistForall₂_iff.2 ⟨_, List.forall₂_map_left_iff.2 (List.forall₂_same.2 fun j _ => ?_), List.filter_sublist⟩
  split
  · exact ⟨rfl, .inl rfl, .inr ⟨rfl, rfl⟩⟩
  · exact .refl j

theorem mem_addJob {j : Job W} (hj : j ∈ T.jobs) (hkey : j.key ≠ job.key) : j ∈ (T.addJob job).jobs := by
  obtain ⟨l, l', heq⟩ := List.append_of_mem hj
  rw [jobs_addJob, heq, ← List.singleton_append, leftBy_append, leftBy_append, leftBy_self (l := [j])]
  · simp
  · intro j' hj'
    rwa [List.mem_singleton.1 hj']

theorem addJob_queues {q : JobQueue W} (hq : q ∈ T.queues) : q ∈ (T.addJob job).queues := by
  unfold Tables.addJob Tables.ensureQueue
  split
  · split
    · exact hq
    · exact List.mem_append_left _ hq
  · exact hq

theorem addJob_ownQueue {name : String} (h : job.queueName = some name) : ∃ q ∈ (T.addJob job).queues, q.queueName = name := by
  unfold Tables.addJob Tables.ensureQueue
  simp only [h]
  split
  · rename_i hany
    obtain ⟨q, hq, hname⟩ := List.any_eq_true.1 hany
    exact ⟨q, hq, beq_iff_eq.1 hname⟩
  · exact ⟨_, List.mem_append_right _ (List.mem_singleton_self _), rfl⟩

/-- What a loop of `addJob` leaves: its jobs, behind those that it found. -/
structure Added (js : List (Job W)) (T T' : Tables W) : Prop where
  runs : T'.runs = T.runs
  hooks : T'.hooks = T.hooks
  waits : T'.waits = T.waits
  deadLetters : T'.deadLetters = T.deadLetters
  queues : ∀ q ∈ T.queues, q ∈ T'.queues
  ownQueues : ∀ j ∈ js, ∀ name, j.queueName = some name → ∃ q ∈ T'.queues, q.queueName = name
  jobs : ∃ old, T'.jobs = old ++ js ∧ List.SublistForall₂ LeftBehind old T.jobs
  others : ∀ j ∈ T.jobs, (∀ k ∈ js, j.key ≠ k.key) → j ∈ T'.jobs

theorem added_foldl (T : Tables W) (js : List (Job W)) (hkeys : (js.map (·.key)).Nodup) :
    Added js T (js.foldl (fun T job => T.addJob job) T) := by
  induction js using List.reverseRecOn with
  | nil =>
    exact ⟨rfl, rfl, rfl, rfl, fun _ hq => hq, fun _ hj => (nomatch hj),
      ⟨T.jobs, (List.append_nil _).symm, List.sublistForall₂_iff.2 ⟨_, List.forall₂_same.2 fun j _ => .refl j, .refl _⟩⟩,
      fun _ hj _ => hj⟩
  | append_singleton js job ih =>
    rw [List.map_append, List.map_singleton, List.nodup_append] at hkeys
    obtain ⟨hnd, -, hdiff⟩ := hkeys
    have ih := ih hnd
    rw [List.foldl_append, List.foldl_cons, List.foldl_nil]
    have hnew : ∀ j ∈ js, j.key ≠ job.key := fun j hj => hdiff _ (List.mem_map_of_mem hj) _ (List.mem_singleton_self _)
    obtain ⟨old, heq, hold⟩ := ih.jobs
    refine ⟨ih.runs, ih.hooks, ih.waits, ih.deadLetters, fun q hq => addJob_queues (ih.queues q hq), ?_,
      ⟨leftBy job old, ?_, Trans.trans (leftBy_leftBehind old) hold⟩, fun j hj hk => ?_⟩
    · intro j hj name hname
      rcases List.mem_append.1 hj with hj | hj
      · obtain ⟨q, hq, hqn⟩ := ih.ownQueues j hj name hname
        exact ⟨q, addJob_queues hq, hqn⟩
      · rw [List.mem_singleton.1 hj] at hname
        exact addJob_ownQueue hname
    · rw [jobs_addJob, heq, leftBy_append, leftBy_self hnew, List.append_assoc]
    · refine mem_addJob (ih.others j hj fun k hk' => hk k (List.mem_append_left _ hk')) (hk job ?_)
      exact List.mem_append_right _ (List.mem_singleton_self _)

end Enqueue

/-! ## The sweep's result -/

section Sweep

variable {T : Tables W}

theorem forall₂_exists {α β : Type} {R : α → β → Prop} {l : List α} {l' : List β} (h : List.Forall₂ R l l') {a : α} (ha : a ∈ l) :
    ∃ b ∈ l', R a b := by
  obtain ⟨i, hi, rfl⟩ := List.getElem_of_mem ha
  have hi' : i < l'.length := h.length_eq ▸ hi
  exact ⟨l'[i], List.getElem_mem hi', h.get hi hi'⟩

/-- A run that a sweep woke has a job on its queue. -/
theorem Recovered.not_toWake {f g : Option FilterRuns} {a : Option Nat × Tables W} (h : Recovered f T a) {r : RunEntry}
    (hg : ToWake g a.2 r) : ¬ ToWake f T r := by
  intro hr
  obtain ⟨woken, -, hmem, -, old, new, hjobs, -, hnew⟩ := h.jobs
  obtain ⟨j, hj, hw, hon⟩ := forall₂_exists hnew ((hmem r).2 hr)
  exact hg.stranded.noJob j (by rw [hjobs]; exact List.mem_append_right _ hj) hon hw.live

/-- Where recovery's keys are on the runs' own jobs, a sweep strands nothing. -/
theorem Recovered.stranded {f : Option FilterRuns} {a : Option Nat × Tables W} (h : Recovered f T a) (hown : RecoveryKeysOwn T)
    {r : RunEntry} (hs : Stranded a.2 r) : Stranded T r := by
  -- an unspent job is not under the key of a run to wake, so it is still there
  have hstays : ∀ j ∈ T.jobs, j.Unspent → ∃ l, { j with lockedBy := l } ∈ a.2.jobs := by
    intro j hj hlive
    refine h.others j hj fun r' hr' hkey => ?_
    rcases hown r' hr'.mem j hj hkey hlive with hon | hon
    · exact hr'.stranded.noJob j hj hon hlive
    · exact hr'.stranded.noTimer j hj hon hlive
  refine ⟨hs.active, ?_, fun j hj hon hlive => ?_, fun j hj hon hlive => ?_, ?_⟩
  · rw [← h.deadLetters]
    exact hs.noLetter
  · obtain ⟨l, hl⟩ := hstays j hj hlive
    obtain ⟨hname, q, hq, hqn⟩ := hon
    obtain ⟨q', hq', hn⟩ := h.queues q hq
    exact hs.noJob _ hl ⟨hname, q', hq', hn.trans hqn⟩ hlive
  · obtain ⟨l, hl⟩ := hstays j hj hlive
    exact hs.noTimer _ hl hon hlive
  · rw [← h.hooks, ← h.waits]
    exact hs.noHook

variable [DecidableEq W]

theorem leftBehind_reclaimed (b : Bool) (T : Tables W) : List.Forall₂ LeftBehind (reclaimed b T).jobs T.jobs := by
  unfold reclaimed
  split
  · refine List.forall₂_map_left_iff.2 (List.forall₂_same.2 fun j _ => ⟨rfl, ?_, .inl ⟨rfl, rfl⟩⟩)
    rcases hl : Tables.unlockedBy (oldWorkerIds T.sweepRows T.unqueuedLocks) j.lockedBy with _ | w
    · exact .inr rfl
    · exact .inl (unlockedBy_eq_some hl).symm
  · exact List.forall₂_same.2 fun j _ => .refl j

theorem mem_reclaimed (b : Bool) {j : Job W} (hj : j ∈ T.jobs) : ∃ l, { j with lockedBy := l } ∈ (reclaimed b T).jobs := by
  unfold reclaimed
  split
  · exact ⟨_, List.mem_map_of_mem hj⟩
  · exact ⟨_, hj⟩

theorem queue_reclaimed (b : Bool) {q : JobQueue W} (hq : q ∈ T.queues) :
    ∃ q' ∈ (reclaimed b T).queues, q'.queueName = q.queueName := by
  unfold reclaimed
  split
  · exact ⟨_, List.mem_map_of_mem hq, rfl⟩
  · exact ⟨q, hq, rfl⟩

theorem recoveryKey_inj {r r' : RunEntry} (h : recoveryKey r = recoveryKey r') : r.id = r'.id :=
  (String.append_right_inj _).1 h

theorem recovered (filterRuns : Option FilterRuns) (pacing : Option BootRecoveryPacing) (b : Bool) (now : Nat)
    (hids : (T.runs.map (·.id)).Nodup) :
    Recovered filterRuns T (recoverActiveRunsForAllTenants filterRuns pacing b now T) := by
  have hframe : (reclaimed b T).runs = T.runs ∧ (reclaimed b T).hooks = T.hooks ∧ (reclaimed b T).waits = T.waits ∧
      (reclaimed b T).deadLetters = T.deadLetters := by
    unfold reclaimed
    split <;> exact ⟨rfl, rfl, rfl, rfl⟩
  obtain ⟨hruns, hhooks, hwaits, hletters⟩ := hframe
  have hleft : List.SublistForall₂ LeftBehind (reclaimed b T).jobs T.jobs :=
    List.sublistForall₂_iff.2 ⟨_, leftBehind_reclaimed b T, .refl _⟩
  unfold recoverActiveRunsForAllTenants
  rcases hk : keptRows filterRuns (candidates T.sweepRows) with _ | kept
  · have hnone := keptRows_none hk
    refine ⟨hruns, hhooks, hwaits, hletters, fun q hq => queue_reclaimed b hq, ⟨[], .nil, fun r => ?_, fun n hn => ?_,
      _, [], (List.append_nil _).symm, hleft, .nil⟩, fun j hj _ => mem_reclaimed b hj⟩
    · exact iff_of_false List.not_mem_nil (hnone r)
    · cases hn
  obtain ⟨rs, rfl, hnd, hmem⟩ := keptRows_some hids hk
  have hkeys : (((rs.map T.sweepRow).map (recoveryJob pacing now (rs.map T.sweepRow))).map (·.key)).Nodup := by
    rw [List.map_map, List.map_map]
    refine hnd.map_on fun r hr r' hr' h => ?_
    have hid : r.id = r'.id := recoveryKey_inj (Option.some.inj h)
    exact List.inj_on_of_nodup_map hids ((hmem r).1 hr).mem ((hmem r').1 hr').mem hid
  have hadded := added_foldl (reclaimed b T) _ hkeys
  obtain ⟨old, heq, hold⟩ := hadded.jobs
  refine ⟨hadded.runs.trans hruns, hadded.hooks.trans hhooks, hadded.waits.trans hwaits, hadded.deadLetters.trans hletters,
    fun q hq => ?_, ⟨rs, hnd, hmem, fun n hn => ?_, old, _, heq, Trans.trans hold hleft, ?_⟩, fun j hj hne => ?_⟩
  · obtain ⟨q', hq', hname⟩ := queue_reclaimed b hq
    exact ⟨q', hadded.queues q' hq', hname⟩
  · cases hn
    exact List.length_map ..
  · rw [List.map_map, List.forall₂_map_right_iff, List.forall₂_same]
    intro r hr
    refine ⟨⟨rfl, (by decide : 0 < 49), rfl, _, rfl, rfl, rfl, rfl, rfl, rfl⟩, rfl, ?_⟩
    exact hadded.ownQueues _ (List.mem_map_of_mem (List.mem_map_of_mem hr)) _ rfl
  · obtain ⟨l, hl⟩ := mem_reclaimed b hj
    refine ⟨l, hadded.others _ hl fun k hk' => ?_⟩
    obtain ⟨row, hrow, rfl⟩ := List.mem_map.1 hk'
    obtain ⟨r, hr, rfl⟩ := List.mem_map.1 hrow
    exact hne r ((hmem r).1 hr)

/-- A sweep adds one live job for each stranded run that the filter kept, and no other. A second sweep adds none for a run
that the first one woke; where recovery's keys are on the runs' own jobs, it adds jobs only for runs that the first sweep's
filter left out. -/
theorem recovers_stranded_runs (filterRuns : Option FilterRuns) (pacing : Option BootRecoveryPacing) (b : Bool) (now : Nat)
    (T : Tables W) (hids : (T.runs.map (·.id)).Nodup) :
    Recovered filterRuns T (recoverActiveRunsForAllTenants filterRuns pacing b now T) ∧
    ∀ filterRuns' pacing' b' now',
      let T' := (recoverActiveRunsForAllTenants filterRuns pacing b now T).2
      Recovered filterRuns' T' (recoverActiveRunsForAllTenants filterRuns' pacing' b' now' T') ∧
      ∀ r, ToWake filterRuns' T' r → ¬ ToWake filterRuns T r ∧
        (RecoveryKeysOwn T → Stranded T r ∧ ¬ KeptByFilter filterRuns T r) := by
  have hfirst := recovered filterRuns pacing b now hids
  refine ⟨hfirst, fun filterRuns' pacing' b' now' => ⟨recovered _ _ _ _ (by rw [hfirst.runs]; exact hids), fun r hr => ?_⟩⟩
  have hnot := hfirst.not_toWake hr
  refine ⟨hnot, fun hown => ⟨hfirst.stranded hown hr.stranded, fun hkept => hnot ⟨?_, hfirst.stranded hown hr.stranded, hkept⟩⟩⟩
  rw [← hfirst.runs]
  exact hr.mem

theorem recovers_stranded_runs_two :
    let run (id : String) : RunEntry := ⟨"t", id, "wf", "d", none, .running, 0⟩
    let T : Tables Unit := { runs := [run "r1", run "r2"] }
    Recovered none T (recoverActiveRunsForAllTenants none none true 0 T) :=
  (recovers_stranded_runs none none true 0 _ (by decide)).1

/-- A second sweep adds a job where the host's filter kept one run at a time, and where the key of a run's recovery was on
the job of another. -/
theorem second_sweep_adds :
    let run (id : String) : RunEntry := ⟨"t", id, "wf", "d", none, .running, 0⟩
    let sweep (f : Option FilterRuns) (T : Tables Unit) := recoverActiveRunsForAllTenants f none true 0 T
    let one : Option FilterRuns := some fun runs => some (runs.take 1)
    let two : Tables Unit := { runs := [run "r1", run "r2"] }
    let keyed : Tables Unit :=
      { runs := [run "r1", run "r2"]
        jobs := [{ task := flowJobName, key := some "msg_recover_r1", queueName := some (run "r2").queue }]
        queues := [⟨(run "r2").queue, none⟩] }
    (two.runs.map (·.id)).Nodup ∧ (sweep one two).1 = some 1 ∧ (sweep one (sweep one two).2).1 = some 1 ∧
    (sweep none keyed).1 = some 1 ∧ (sweep none (sweep none keyed).2).1 = some 1 := by
  decide +kernel

end Sweep

end WorkflowWorld.Dispatcher
