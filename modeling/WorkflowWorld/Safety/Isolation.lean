/-
Tenants that share the job table and the dispatcher: what happens to one tenant's messages is what would
happen without the others, as long as no two tenants go by the same key and the dispatcher's memory of
completed keys is not full. Job keys and the keys of the dedup do not name the tenant.
-/
import WorkflowWorld.Safety.Conserved

namespace WorkflowWorld.Dispatcher

variable {w : World} {s s' : Queue} {e : QueueEvent} {ref r : JobRef} {job j : QueueJob} {owner : String → TenantId}
  {t : TenantId}

/-! ## Whose events, jobs and keys -/

/-- The tenant whose event it is; time, and the dispatcher's own process and sweep, concern all. -/
def QueueEvent.tenant : QueueEvent → Option TenantId
  | .tick _ | .crash .dispatcher | .sweep .dispatcher => none
  | .crash (.embedded tenantId) | .sweep (.embedded tenantId) => some tenantId
  | .commit input => some input.run.1
  | .send ref .. | .recover ref .. | .claim ref | .begin_ ref | .acknowledge ref _ | .reschedule ref .. | .return_ ref
  | .swallow ref | .promote ref _ | .complete ref | .fail ref .. | .reclaim ref => some ref.1

def QueueEvent.concerns (t : TenantId) (e : QueueEvent) : Bool := e.tenant.all (· == t)

theorem QueueEvent.tenant_eq_of_concerns {t' : TenantId} (ht : e.tenant = some t') (h : e.concerns t = true) : t' = t := by
  simpa [concerns, ht] using h

theorem QueueEvent.tenant_ne_of_concerns (h : e.concerns t = false) : ∃ t', e.tenant = some t' ∧ t' ≠ t := by
  unfold concerns at h
  cases htenant : e.tenant with
  | none => simp [htenant] at h
  | some t' => exact ⟨t', rfl, by simpa [htenant] using h⟩

/-- Every key that a tenant's messages go by is the tenant's, and the dispatcher can remember one more
completed key. -/
def World.keysDivided (w : World) (owner : String → TenantId) : QueueEvent → Queue → Bool
  | .send ref _ message delaySeconds held _, _ =>
    (specKey (w.placeInvoke ref.1 message delaySeconds held).jobKey).all (owner · == ref.1) &&
      (specKey message.jobKey).all (owner · == ref.1) && message.idempotencyKey.all (owner · == ref.1)
  | .recover ref runId .., _ => owner ("msg_recover_" ++ runId) == ref.1
  | .acknowledge ref verdict, s =>
    (s.jobs ref).all fun job => job.task.runner != .dispatcher || job.dedupKey.isNone || !verdict.completes ||
      decide ((s.completed .dispatcher).length < completedLimit)
  | _, _ => true

/-- The job is its tenant's, and so are its keys and the delivery it waits for. -/
structure QueueJob.Owned (owner : String → TenantId) (ref : JobRef) (job : QueueJob) : Prop where
  tenant : job.message.tenantId = ref.1
  origin : job.origin.1 = ref.1
  key : ∀ key, job.key = some key → owner key = ref.1
  claimed : ∀ l ∈ job.lock, ∀ key, l.key = some key → owner key = ref.1
  message : ∀ key, specKey job.message.jobKey = some key → owner key = ref.1
  dedup : ∀ key, job.message.idempotencyKey = some key → owner key = ref.1
  runner : ∀ tenantId, job.task.runner = .embedded tenantId → tenantId = ref.1

theorem QueueJob.Owned.touched (h : job.Owned owner ref) (ht : job.Touched j) : j.Owned owner ref := by
  have hm : j.message = job.message := by rw [ht.rest]
  have ho : j.origin = job.origin := by rw [ht.rest]
  have htask : j.task = job.task := by rw [ht.rest]
  refine ⟨hm ▸ h.tenant, ho ▸ h.origin, fun key hk => ?_, fun l hl key hk => ?_, hm ▸ h.message, hm ▸ h.dedup, htask ▸ h.runner⟩
  · rcases ht.key with ⟨hsame, -⟩ | ⟨hnone, -⟩
    · exact h.key key (hsame ▸ hk)
    · rw [hnone] at hk
      cases hk
  · rcases ht.lock l hl key hk with hkey | ⟨l₀, hl₀, hk₀⟩
    · exact h.key key hkey
    · exact h.claimed l₀ hl₀ key hk₀

theorem QueueJob.Owned.swept (now : Nat) (runner : Runner) (h : job.Owned owner ref) :
    (Queue.swept now runner job).Owned owner ref := by
  unfold Queue.swept
  split
  · split
    · rename_i hg
      exact ⟨h.tenant, h.origin, h.key, h.claimed, h.message, h.dedup,
        fun tenantId hr => h.runner tenantId (by rw [hg.1]; exact hr)⟩
    · exact h
  · exact h

theorem QueueJob.Owned.rescheduledJob (n : Nat) (lock : Lock) (timeoutSeconds now : Nat) (h : job.Owned owner ref) :
    (w.rescheduledJob job lock timeoutSeconds now).Owned owner (ref.1, n) := by
  refine ⟨?_, h.origin, h.message, (fun l hl => by cases hl), h.message, h.dedup, h.runner⟩
  unfold World.rescheduledJob
  cases hr : job.task.runner with
  | dispatcher => exact h.tenant
  | embedded tenantId => exact h.runner tenantId hr

theorem owner_of_all {key : Option String} (h : key.all (owner · == t) = true) (key' : String) (hk : key = some key') :
    owner key' = t := by
  subst hk
  simpa using h

theorem World.owned_of_adds (hs : ∀ r j, s.jobs r = some j → j.Owned owner r) (hc : w.keysDivided owner e s = true)
    (h : Queue.Adds w s e ref job) : job.Owned owner ref := by
  cases h with
  | @send ref embedded message delaySeconds held wakes htenant =>
    simp only [keysDivided, Bool.and_eq_true] at hc
    refine ⟨htenant, rfl, owner_of_all hc.1.1, (fun l hl => by cases hl), owner_of_all hc.1.2, owner_of_all hc.2,
      fun tenantId hr => ?_⟩
    simp only [graphileJob] at hr
    split at hr <;> cases hr
    exact htenant
  | @recover ref runId name deploymentId queueNamespace delay =>
    simp only [keysDivided, beq_iff_eq] at hc
    refine ⟨rfl, rfl, fun key hk => ?_, (fun l hl => by cases hl), fun key hk => ?_, (fun key hk => by cases hk),
      (fun _ hr => by cases hr)⟩
    · obtain rfl := Option.some.inj hk
      exact hc
    · simp only [specKey] at hk
      split at hk
      · cases hk
      · obtain rfl := Option.some.inj hk
        exact hc
  | reschedule hh => exact (hs _ _ hh.found).rescheduledJob _ _ _ _
  | @promote ref job lock next hh htimer =>
    have hj := hs _ _ hh.found
    exact ⟨hj.tenant, hj.origin, hj.claimed lock hh.locked, (fun l hl => by cases hl), hj.message, hj.dedup, hj.runner⟩

theorem World.owned_of_step (hs : ∀ r j, s.jobs r = some j → j.Owned owner r) (hc : w.keysDivided owner e s = true)
    (h : w.Steps s e s') : ∀ r j, s'.jobs r = some j → j.Owned owner r := by
  intro r j hj
  rcases Queue.jobs_of_steps h hj with hadd | ⟨j₀, hj₀, ht⟩ | ⟨runner, j₀, hj₀, rfl⟩
  · exact owned_of_adds hs hc hadd
  · exact (hs r j₀ hj₀).touched ht
  · exact (hs r j₀ hj₀).swept s.now runner

/-! ## Deliveries that wait -/

/-- The handler of the job waits for the leader. -/
def QueueJob.Waits (leader : JobRef) (job : QueueJob) : Prop := ∃ l, job.lock = some l ∧ l.stage = .joined leader

namespace Queue

theorem waits_atStage {leader : JobRef} {stage : LockStage} (h : (job.atStage stage).Waits leader) :
    stage = .joined leader := by
  obtain ⟨l, hl, hst⟩ := h
  obtain ⟨l₀, -, rfl⟩ := Option.map_eq_some_iff.1 hl
  exact hst

theorem waits_released {leader leader' : JobRef} {stage : LockStage} (hst : ∀ leader, stage ≠ .joined leader)
    (h : (job.released leader' stage).Waits leader) : job.Waits leader := by
  unfold QueueJob.released at h
  split at h
  · exact absurd (waits_atStage h) (hst leader)
  · exact h

theorem waits_displaced {leader : JobRef} {key : Option String} (hd : job.displaced key = some j) (h : j.Waits leader) :
    job.Waits leader := by
  rcases displaced_cases hd with ⟨rfl, -⟩ | ⟨rfl, -⟩ <;> exact h

theorem waits_bury {leader : JobRef} {runner : Runner} (h : (bury runner job).Waits leader) : job.Waits leader := by
  unfold bury at h
  split at h
  · exact absurd (waits_atStage h) (by nofun)
  · exact h

theorem waits_swept {leader : JobRef} {now : Nat} {runner : Runner} (h : (swept now runner job).Waits leader) :
    job.Waits leader := by
  unfold swept at h
  split at h
  · split at h <;> exact h
  · exact h

/-- A delivery waits for a leader as before, or has just found it in the dedup. -/
theorem waits_of_steps {leader : JobRef} (h : w.Steps s e s') (hj : s'.jobs r = some j) (hw : j.Waits leader) :
    ∃ j₀, s.jobs r = some j₀ ∧ (j₀.Waits leader ∨ s.enter j₀ = .joined leader) := by
  have hset : ∀ {ref : JobRef} {new j : QueueJob}, (s.setJob ref (some new)).jobs r = some j → j.Waits leader →
      ¬ new.Waits leader → s.jobs r = some j := by
    intro ref new j hj hw hnot
    rcases jobs_setJob hj with ⟨-, heq⟩ | ⟨-, hj⟩
    · exact absurd (Option.some.inj heq ▸ hw) hnot
    · exact hj
  have hstage : ∀ {ref : JobRef} {job j : QueueJob} (stage : LockStage), stage ≠ .joined leader →
      (s.setJob ref (some (job.atStage stage))).jobs r = some j → j.Waits leader → s.jobs r = some j :=
    fun stage hne hj hw => hset hj hw fun hw' => hne (waits_atStage hw')
  have hadd : ∀ {s₁ : Queue} {ref : JobRef} {new : QueueJob}, new.lock = none →
      (s₁.addJob ref new).jobs r = some j → ∃ j₁, s₁.jobs r = some j₁ ∧ j₁.Waits leader := by
    intro s₁ ref new hnone hj
    rcases jobs_addJob hj with ⟨-, rfl⟩ | ⟨-, j₁, hj₁, hd⟩
    · obtain ⟨l, hl, -⟩ := hw
      rw [hnone] at hl
      cases hl
    · exact ⟨j₁, hj₁, waits_displaced hd hw⟩
  cases h with
  | tick | commit | deduplicate => exact ⟨j, hj, .inl hw⟩
  | send | recover =>
    obtain ⟨j₁, hj₁, hw₁⟩ := hadd rfl hj
    exact ⟨j₁, hj₁, .inl hw₁⟩
  | @claim ref job claimed lock hfound _ _ _ hlock hclaimed =>
    have hnot : ¬ claimed.Waits leader := by
      rintro ⟨l, hl, hst⟩
      rw [hclaimed] at hl
      obtain rfl := Option.some.inj hl
      rw [hlock] at hst
      cases hst
    have hj' : (s.setJob ref (some claimed)).jobs r = some j := by split at hj <;> exact hj
    exact ⟨j, hset hj' hw hnot, .inl hw⟩
  | @begin_ ref job lock hh =>
    rcases jobs_setJob hj with ⟨rfl, heq⟩ | ⟨-, hj⟩
    · exact ⟨job, hh.found, .inr (waits_atStage (Option.some.inj heq ▸ hw))⟩
    · exact ⟨j, hj, .inl hw⟩
  | @acknowledge ref job lock verdict hh =>
    replace hj : ((_ : Queue).mark _ _).jobs r = some j := hj
    rw [jobs_mark] at hj
    obtain ⟨j₁, hj₁, rfl⟩ := Option.map_eq_some_iff.1 hj
    have hw₁ := waits_released (by cases verdict with | deadLettered threw => cases threw <;> nofun | _ => nofun) hw
    exact ⟨j₁, hstage .done nofun hj₁ hw₁, .inl hw₁⟩
  | reschedule hh =>
    obtain ⟨j₁, hj₁, hw₁⟩ := hadd rfl hj
    exact ⟨j₁, hstage .rescheduled nofun hj₁ hw₁, .inl hw₁⟩
  | return_ hh =>
    obtain ⟨j₁, hj₁, rfl⟩ := Option.map_eq_some_iff.1 hj
    have hw₁ := waits_released (by nofun) hw
    exact ⟨j₁, hstage .done nofun hj₁ hw₁, .inl hw₁⟩
  | swallow hh => exact ⟨j, hstage .done nofun hj hw, .inl hw⟩
  | promote hh =>
    obtain ⟨j₁, hj₁, hw₁⟩ := hadd rfl hj
    exact ⟨j₁, hstage .done nofun hj₁ hw₁, .inl hw₁⟩
  | complete =>
    rcases jobs_setJob hj with ⟨-, heq⟩ | ⟨-, hj⟩
    · cases heq
    · exact ⟨j, hj, .inl hw⟩
  | fail hh =>
    obtain ⟨j₁, hj₁, rfl⟩ := Option.map_eq_some_iff.1 hj
    have hw₁ := waits_released (by split <;> nofun) hw
    exact ⟨j₁, hset hj₁ hw₁ (fun ⟨_, hl, _⟩ => by cases hl), .inl hw₁⟩
  | crash runner =>
    obtain ⟨j₁, hj₁, rfl⟩ := Option.map_eq_some_iff.1 hj
    exact ⟨j₁, hj₁, .inl (waits_bury hw)⟩
  | reclaim hh => exact ⟨j, hset hj hw (fun ⟨_, hl, _⟩ => by cases hl), .inl hw⟩
  | sweep runner =>
    obtain ⟨j₁, hj₁, rfl⟩ := Option.map_eq_some_iff.1 hj
    exact ⟨j₁, hj₁, .inl (waits_swept hw)⟩

/-- The table is divided among the tenants. -/
structure Divided (owner : String → TenantId) (s : Queue) : Prop where
  table : Table s
  jobs : ∀ r j, s.jobs r = some j → j.Owned owner r
  waits : ∀ r j leader, s.jobs r = some j → j.Waits leader → leader.1 = r.1
  embedded : ∀ tenantId, ∀ key ∈ s.completed (.embedded tenantId), owner key = tenantId

theorem idempotencyKey_of_dedupKey {key : String} (h : job.dedupKey = some key) : job.message.idempotencyKey = some key := by
  unfold QueueJob.dedupKey at h
  split at h
  · exact h
  · exact (Option.filter_eq_some_iff.1 h).1

theorem enter_joined {leader : JobRef} (h : s.enter job = .joined leader) :
    ∃ key j, job.dedupKey = some key ∧ s.jobs leader = some j ∧ j.dedupKey = some key := by
  unfold enter at h
  split at h
  · cases h
  · rename_i key hkey
    split at h
    · cases h
    · split at h
      · rename_i leader' hlead
        cases h
        have := List.find?_some hlead
        obtain ⟨j, hj, hx⟩ := (Option.any_eq_true _ _).1 this
        simp only [Bool.and_eq_true, beq_iff_eq] at hx
        exact ⟨key, j, hkey, hj, hx.2⟩
      · cases h

theorem Divided.leader (hs : Divided owner s) {leader : JobRef} (hj : s.jobs r = some job)
    (h : s.enter job = .joined leader) : leader.1 = r.1 := by
  obtain ⟨key, j, hkey, hjl, hkey'⟩ := enter_joined h
  have h₁ := (hs.jobs r job hj).dedup key (idempotencyKey_of_dedupKey hkey)
  have h₂ := (hs.jobs leader j hjl).dedup key (idempotencyKey_of_dedupKey hkey')
  exact h₂.symm.trans h₁

theorem embedded_mark (hs : Divided owner s) (s₁ : Queue) (hcompleted : s₁.completed = s.completed) (hj : s.jobs ref = some job)
    (completes : Bool) : ∀ tenantId, ∀ key ∈ (s₁.mark job completes).completed (.embedded tenantId), owner key = tenantId := by
  have hold : ∀ tenantId, ∀ key ∈ s₁.completed (.embedded tenantId), owner key = tenantId := hcompleted ▸ hs.embedded
  unfold mark
  split
  · rename_i key hkey
    split
    · intro tenantId key' hmem
      replace hmem : key' ∈ Function.update s₁.completed job.task.runner
        (markCompleted (s₁.completed job.task.runner) key) (.embedded tenantId) := hmem
      by_cases hr : Runner.embedded tenantId = job.task.runner
      · rw [← hr, Function.update_self] at hmem
        rcases mem_of_mem_markCompleted hmem with hmem | rfl
        · exact hold tenantId key' hmem
        · have hown := hs.jobs ref job hj
          rw [hown.dedup key' (idempotencyKey_of_dedupKey hkey), hown.runner tenantId hr.symm]
      · rw [Function.update_of_ne hr] at hmem
        exact hold tenantId key' hmem
    · exact hold
  · exact hold

theorem Divided.step (hs : Divided owner s) (hc : w.keysDivided owner e s = true) (h : w.Steps s e s') : Divided owner s' where
  table := hs.table.step h
  jobs := World.owned_of_step hs.jobs hc h
  waits := fun r j leader hj hw => by
    obtain ⟨j₀, hj₀, hw₀ | henter⟩ := waits_of_steps h hj hw
    · exact hs.waits r j₀ leader hj₀ hw₀
    · exact hs.leader hj₀ henter
  embedded := by
    cases h with
    | claim => split <;> exact hs.embedded
    | @acknowledge ref job lock verdict hh =>
      exact embedded_mark hs ((s.setJob ref (some (job.atStage .done))).release ref verdict.release) rfl hh.found _
    | crash runner =>
      intro tenantId key hmem
      replace hmem : key ∈ Function.update s.completed runner [] (.embedded tenantId) := hmem
      by_cases hr : Runner.embedded tenantId = runner
      · rw [← hr, Function.update_self] at hmem
        cases hmem
      · rw [Function.update_of_ne hr] at hmem
        exact hs.embedded tenantId key hmem
    | _ => exact hs.embedded

/-! ## The view of one tenant -/

/-- What there is of one tenant. -/
def own (owner : String → TenantId) (t : TenantId) (s : Queue) : Queue where
  now := s.now
  jobs := fun r => if r.1 = t then s.jobs r else none
  refs := s.refs.filter (·.1 == t)
  completed := fun runner => (s.completed runner).filter (owner · == t)
  sent := s.sent.filter (·.1 == t)
  deduplicated := s.deduplicated.filter (·.1 == t)
  settled := s.settled.filter (·.1.1 == t)
  claims := s.claims.filter (·.job.message.tenantId == t)
  committed := s.committed.filter (·.run.1 == t)
  woken := s.woken.filter (·.run.1 == t)
  ended := s.ended.filter (·.1.1 == t)

theorem jobs_own (h : r.1 = t) : (s.own owner t).jobs r = s.jobs r := if_pos h

theorem jobs_own_of_ne (h : r.1 ≠ t) : (s.own owner t).jobs r = none := if_neg h

theorem mem_refs_own : r ∈ (s.own owner t).refs ↔ r ∈ s.refs ∧ r.1 = t := by
  simp [own]

theorem Handles.own {lock : Lock} (h : s.Handles ref job lock) (ht : ref.1 = t) : (s.own owner t).Handles ref job lock :=
  ⟨(jobs_own ht).trans h.found, h.locked⟩

theorem own_setJob (o : Option QueueJob) (ht : ref.1 = t) : (s.setJob ref o).own owner t = (s.own owner t).setJob ref o := by
  ext1 <;> try rfl
  funext r
  by_cases hr : r = ref
  · subst hr
    rw [jobs_setJob_self, jobs_own ht, jobs_setJob_self]
  · rw [jobs_setJob_of_ne _ _ hr]
    simp only [own, jobs_setJob_of_ne _ _ hr]

theorem own_setJob_other (o : Option QueueJob) (ht : ref.1 ≠ t) : (s.setJob ref o).own owner t = s.own owner t := by
  ext1 <;> try rfl
  funext r
  simp only [own]
  split
  · rename_i hr
    exact jobs_setJob_of_ne _ _ fun heq => ht (heq ▸ hr)
  · rfl

/-- A change to every job shows in the view as it does in the table. -/
theorem jobs_own_map {f : QueueJob → QueueJob} (hjobs : ∀ r, s'.jobs r = (s.jobs r).map f) :
    (s'.own owner t).jobs = fun r => ((s.own owner t).jobs r).map f := by
  funext r
  simp only [own]
  split
  · exact hjobs r
  · rfl

theorem own_release (leader : JobRef) (stage : LockStage) :
    (s.release leader stage).own owner t = (s.own owner t).release leader stage := by
  ext1 <;> try rfl
  exact jobs_own_map fun _ => rfl

/-- Another tenant's dispatch has no deliveries of the tenant waiting. -/
theorem own_release_other (hs : Divided owner s) {leader : JobRef} (stage : LockStage) (ht : leader.1 ≠ t) :
    (s.own owner t).release leader stage = s.own owner t := by
  ext1 <;> try rfl
  funext r
  by_cases hr : r.1 = t
  · simp only [release, jobs_own hr]
    cases hj : s.jobs r with
    | none => rfl
    | some j =>
      rw [Option.map_some, QueueJob.released, if_neg]
      intro hany
      obtain ⟨l, hl, hst⟩ := (Option.any_eq_true _ _).1 hany
      exact ht ((hs.waits r j leader hj ⟨l, hl, by simpa using hst⟩).trans hr)
  · simp only [release, jobs_own_of_ne hr, Option.map_none]

theorem own_settle (how : Settlement) (h : job.origin.1 = t) :
    (s.settle job how).own owner t = (s.own owner t).settle job how := by
  ext1 <;> try rfl
  show ((job.origin, how) :: s.settled).filter (·.1.1 == t) = (job.origin, how) :: s.settled.filter (·.1.1 == t)
  rw [List.filter_cons_of_pos (by simpa using h)]

theorem own_settle_other (how : Settlement) (h : job.origin.1 ≠ t) : (s.settle job how).own owner t = s.own owner t := by
  ext1 <;> try rfl
  show ((job.origin, how) :: s.settled).filter (·.1.1 == t) = s.settled.filter (·.1.1 == t)
  rw [List.filter_cons_of_neg (by simpa using h)]

/-- The run of a message is its tenant's. -/
theorem tenant_of_run {message : Message} {k : RunKey} (h : message.run = some k) : k.1 = message.tenantId := by
  obtain ⟨runId, -, rfl⟩ := Option.map_eq_some_iff.1 h
  rfl

theorem own_finish (lock : Lock) (h : job.message.tenantId = t) :
    (s.finish job lock).own owner t = (s.own owner t).finish job lock := by
  ext1 <;> try rfl
  show List.filter _ (_ ++ _) = _ ++ List.filter _ _
  rw [List.filter_append, List.filter_eq_self.2]
  intro x hx
  obtain ⟨k, hk, rfl⟩ := List.mem_map.1 hx
  simpa using (tenant_of_run (Option.mem_toList.1 hk)).trans h

theorem own_finish_other (lock : Lock) (h : job.message.tenantId ≠ t) :
    (s.finish job lock).own owner t = s.own owner t := by
  ext1 <;> try rfl
  show List.filter _ (_ ++ _) = List.filter _ _
  rw [List.filter_append, List.filter_eq_nil_iff.2, List.nil_append]
  intro x hx
  obtain ⟨k, hk, rfl⟩ := List.mem_map.1 hx
  simpa using fun heq => h ((tenant_of_run (Option.mem_toList.1 hk)).symm.trans heq)

/-! ## Completed keys -/

theorem filter_markCompleted {completed : List String} {key : String} {p : String → Bool}
    (h : completed.length < completedLimit) : (markCompleted completed key).filter p =
      if p key then markCompleted (completed.filter p) key else completed.filter p := by
  have hroom : ∀ {l : List String}, l.length ≤ completed.length → markCompleted l key = l.filter (· ≠ key) ++ [key] := by
    intro l hl
    unfold markCompleted
    rw [if_neg]
    have := List.length_filter_le (· ≠ key) l
    simp only [List.length_append, List.length_singleton]
    omega
  rw [hroom (Nat.le_refl _), List.filter_append]
  split
  · rename_i hp
    rw [hroom (List.length_filter_le p completed), List.filter_cons_of_pos hp, List.filter_nil, List.filter_filter,
      List.filter_filter]
    congr 1
    exact List.filter_congr fun x _ => Bool.and_comm ..
  · rename_i hp
    rw [List.filter_cons_of_neg hp, List.filter_nil, List.append_nil, List.filter_filter]
    refine List.filter_congr fun x _ => ?_
    by_cases hx : x = key
    · subst hx
      simp [hp]
    · simp [hx]

/-- What the runner remembers can take one more key without forgetting another tenant's. -/
theorem filter_mark (hs : Divided owner s) {key : String} (hj : s.jobs ref = some job) (hkey : job.dedupKey = some key)
    (hroom : job.task.runner = .dispatcher → (s.completed .dispatcher).length < completedLimit) :
    (markCompleted (s.completed job.task.runner) key).filter (owner · == t) =
      if ref.1 = t then markCompleted ((s.completed job.task.runner).filter (owner · == t)) key
      else (s.completed job.task.runner).filter (owner · == t) := by
  have hown := (hs.jobs ref job hj)
  have howner : owner key = ref.1 := hown.dedup key (idempotencyKey_of_dedupKey hkey)
  cases hr : job.task.runner with
  | dispatcher =>
    rw [filter_markCompleted (hroom hr)]
    simp only [howner, beq_iff_eq]
  | embedded tenantId =>
    -- An embedded runner remembers keys of its own tenant only.
    have hten := hown.runner tenantId hr
    have hmarked : ∀ key' ∈ markCompleted (s.completed (.embedded tenantId)) key, owner key' = ref.1 := by
      intro key' hmem
      rcases mem_of_mem_markCompleted hmem with hmem | rfl
      · rw [hs.embedded tenantId key' hmem, hten]
      · exact howner
    have hold : ∀ key' ∈ s.completed (.embedded tenantId), owner key' = ref.1 := fun key' hmem => by
      rw [hs.embedded tenantId key' hmem, hten]
    split
    · rename_i ht
      rw [List.filter_eq_self.2 fun x hx => by simpa using (hmarked x hx).trans ht,
        List.filter_eq_self.2 fun x hx => by simpa using (hold x hx).trans ht]
    · rename_i ht
      rw [List.filter_eq_nil_iff.2 fun x hx => by simpa using fun heq => ht ((hmarked x hx).symm.trans heq),
        List.filter_eq_nil_iff.2 fun x hx => by simpa using fun heq => ht ((hold x hx).symm.trans heq)]

theorem own_mark (hs : Divided owner s) (s₁ : Queue) (hcompleted : s₁.completed = s.completed) (completes : Bool)
    (hj : s.jobs ref = some job) (ht : ref.1 = t)
    (hroom : job.dedupKey.isSome → completes = true → job.task.runner = .dispatcher →
      (s.completed .dispatcher).length < completedLimit) :
    (s₁.mark job completes).own owner t = (s₁.own owner t).mark job completes := by
  unfold mark
  split
  · rename_i key hkey
    split
    · rename_i hcomp
      ext1 <;> try rfl
      funext runner
      show (Function.update s₁.completed job.task.runner (markCompleted (s₁.completed job.task.runner) key) runner).filter
          (owner · == t) = Function.update (s₁.own owner t).completed job.task.runner
            (markCompleted ((s₁.own owner t).completed job.task.runner) key) runner
      by_cases hr : runner = job.task.runner
      · subst hr
        rw [Function.update_self, Function.update_self, hcompleted, filter_mark hs hj hkey (hroom (by rw [hkey]; rfl) hcomp),
          if_pos ht]
        simp only [own, hcompleted]
      · rw [Function.update_of_ne hr, Function.update_of_ne hr]
        rfl
    · rfl
  · rfl

theorem own_mark_other (hs : Divided owner s) (s₁ : Queue) (hcompleted : s₁.completed = s.completed) (completes : Bool)
    (hj : s.jobs ref = some job) (ht : ref.1 ≠ t)
    (hroom : job.dedupKey.isSome → completes = true → job.task.runner = .dispatcher →
      (s.completed .dispatcher).length < completedLimit) :
    (s₁.mark job completes).own owner t = s₁.own owner t := by
  unfold mark
  split
  · rename_i key hkey
    split
    · rename_i hcomp
      ext1 <;> try rfl
      funext runner
      show (Function.update s₁.completed job.task.runner (markCompleted (s₁.completed job.task.runner) key) runner).filter
          (owner · == t) = (s₁.completed runner).filter (owner · == t)
      by_cases hr : runner = job.task.runner
      · subst hr
        rw [Function.update_self, hcompleted, filter_mark hs hj hkey (hroom (by rw [hkey]; rfl) hcomp), if_neg ht]
      · rw [Function.update_of_ne hr]
    · rfl
  · rfl

/-! ## Added jobs -/

/-- A key of one tenant is not held by a job of another. -/
theorem holds_other (hs : ∀ r j, s.jobs r = some j → j.Owned owner r) {key : Option String}
    (hkey : ∀ k, key = some k → owner k = t) (hj : s.jobs r = some j) (hr : r.1 ≠ t) : j.holds key = false := by
  by_contra hh
  simp only [Bool.not_eq_false, QueueJob.holds, Bool.and_eq_true, beq_iff_eq] at hh
  obtain ⟨k, hk⟩ := Option.isSome_iff_exists.1 hh.1
  exact hr (((hs r j hj).key k (hh.2.trans hk)).symm.trans (hkey k hk))

theorem filter_replacedBy (hs : ∀ r j, s.jobs r = some j → j.Owned owner r) {key : Option String} {origin : JobRef}
    (hkey : ∀ k, key = some k → owner k = t) :
    (s.replacedBy key origin).filter (·.1.1 == t) = (s.own owner t).replacedBy key origin := by
  unfold replacedBy
  show _ = (s.refs.filter (·.1 == t)).filterMap _
  rw [List.filter_filterMap, List.filterMap_filter]
  refine List.filterMap_congr fun r _ => ?_
  by_cases hr : r.1 = t
  · rw [if_pos (by simpa using hr), jobs_own hr]
    cases hj : s.jobs r with
    | none => rfl
    | some j =>
      simp only [Option.bind_some]
      split
      · simp [(hs r j hj).origin.trans hr]
      · rfl
  · rw [if_neg (by simpa using hr)]
    cases hj : s.jobs r with
    | none => rfl
    | some j => simp [holds_other hs hkey hj hr]

theorem own_addJob (hs : ∀ r j, s.jobs r = some j → j.Owned owner r) (hkey : ∀ k, job.key = some k → owner k = t)
    (ht : ref.1 = t) : (s.addJob ref job).own owner t = (s.own owner t).addJob ref job := by
  ext1 <;> try rfl
  · funext r
    by_cases hr : r = ref
    · subst hr
      rw [jobs_own ht, jobs_addJob_self, jobs_addJob_self]
    · rw [jobs_addJob_of_ne _ _ hr]
      by_cases hrt : r.1 = t
      · rw [jobs_own hrt, jobs_own hrt, jobs_addJob_of_ne _ _ hr]
      · rw [jobs_own_of_ne hrt, jobs_own_of_ne hrt, Option.bind_none]
  · show (ref :: s.refs).filter (·.1 == t) = ref :: s.refs.filter (·.1 == t)
    rw [List.filter_cons_of_pos (by simpa using ht)]
  · show (s.replacedBy job.key job.origin ++ s.settled).filter (·.1.1 == t) =
      (s.own owner t).replacedBy job.key job.origin ++ s.settled.filter (·.1.1 == t)
    rw [List.filter_append, filter_replacedBy hs hkey]

theorem own_addJob_other (hs : ∀ r j, s.jobs r = some j → j.Owned owner r)
    (hkey : ∀ k, job.key = some k → owner k = ref.1) (ht : ref.1 ≠ t) :
    (s.addJob ref job).own owner t = s.own owner t := by
  have hheld : ∀ r j, s.jobs r = some j → r.1 = t → j.holds job.key = false := fun r j hj hr =>
    holds_other hs hkey hj fun heq => ht (heq.symm.trans hr)
  ext1 <;> try rfl
  · funext r
    by_cases hrt : r.1 = t
    · have hr : r ≠ ref := fun heq => ht (heq ▸ hrt)
      rw [jobs_own hrt, jobs_own hrt, jobs_addJob_of_ne _ _ hr]
      cases hj : s.jobs r with
      | none => rfl
      | some j => simp [QueueJob.displaced, hheld r j hj hrt]
    · rw [jobs_own_of_ne hrt, jobs_own_of_ne hrt]
  · show (ref :: s.refs).filter (·.1 == t) = s.refs.filter (·.1 == t)
    rw [List.filter_cons_of_neg (by simpa using ht)]
  · show (s.replacedBy job.key job.origin ++ s.settled).filter (·.1.1 == t) = s.settled.filter (·.1.1 == t)
    rw [List.filter_append, List.filter_eq_nil_iff.2, List.nil_append]
    intro x hx hxt
    obtain ⟨r, -, hr⟩ := List.mem_filterMap.1 hx
    obtain ⟨j, hj, hif⟩ := Option.bind_eq_some_iff.1 hr
    split at hif
    · rename_i hg
      cases hif
      have hrt : r.1 = t := (hs r j hj).origin.symm.trans (by simpa using hxt)
      rw [hheld r j hj hrt] at hg
      cases hg
    · cases hif

/-! ## What a tenant's event reads -/

theorem holder_own (hs : ∀ r j, s.jobs r = some j → j.Owned owner r) {key : Option String}
    (hkey : ∀ k, key = some k → owner k = t) : (s.own owner t).holder key = s.holder key := by
  unfold holder
  show (s.refs.filter (·.1 == t)).any _ = _
  rw [List.any_filter]
  congr 1
  funext r
  by_cases hr : r.1 = t
  · simp [hr, jobs_own hr]
  · cases hj : s.jobs r with
    | none => simp [hr]
    | some j => simp [hr, holds_other hs hkey hj hr]

theorem leader_own (hs : ∀ r j, s.jobs r = some j → j.Owned owner r) {key : String} (hkey : owner key = t) (runner : Runner) :
    (s.own owner t).leader runner key = s.leader runner key := by
  unfold leader
  show (s.refs.filter (·.1 == t)).find? _ = _
  rw [List.find?_filter]
  congr 1
  funext r
  by_cases hr : r.1 = t
  · simp [hr, jobs_own hr]
  · cases hj : s.jobs r with
    | none => simp [hr]
    | some j =>
      have hne : j.dedupKey ≠ some key := fun hk =>
        hr (((hs r j hj).dedup key (idempotencyKey_of_dedupKey hk)).symm.trans hkey)
      simp [hr, hne]

theorem enter_own (hs : ∀ r j, s.jobs r = some j → j.Owned owner r) (hj : s.jobs ref = some job) (ht : ref.1 = t) :
    (s.own owner t).enter job = s.enter job := by
  unfold enter
  split
  · rfl
  · rename_i key hkey
    have howner : owner key = t := ((hs ref job hj).dedup key (idempotencyKey_of_dedupKey hkey)).trans ht
    have hmem : ((s.own owner t).completed job.task.runner).contains key = (s.completed job.task.runner).contains key := by
      simp [own, List.contains_eq_mem, List.mem_filter, howner]
    rw [hmem, leader_own hs howner]

theorem inputs_own {message : Message} (h : message.tenantId = t) : (s.own owner t).inputs message = s.inputs message := by
  unfold inputs
  show (s.committed.filter (·.run.1 == t)).filter _ = _
  rw [List.filter_filter]
  refine List.filter_congr fun i _ => ?_
  by_cases hi : message.run = some i.run
  · simp [hi, (tenant_of_run hi).trans h]
  · simp [hi]

theorem queueFree_own (h : s.queueFree job = true) : (s.own owner t).queueFree job = true := by
  unfold queueFree at h ⊢
  simp only [Bool.or_eq_true, List.all_eq_true] at h ⊢
  refine h.imp_right fun hall r hr => ?_
  obtain ⟨hmem, hrt⟩ := mem_refs_own.1 hr
  rw [jobs_own hrt]
  exact hall r hmem

/-! ## The tenant's events and those of the others -/

theorem own_sent {wakes : Option HookInput} (ht : ref.1 = t) (hw : ∀ input ∈ wakes, input.run.1 = t) :
    { s with sent := ref :: s.sent, woken := wakes.toList ++ s.woken }.own owner t =
      { s.own owner t with sent := ref :: (s.own owner t).sent, woken := wakes.toList ++ (s.own owner t).woken } := by
  ext1 <;> try rfl
  · show (ref :: s.sent).filter (·.1 == t) = ref :: s.sent.filter (·.1 == t)
    rw [List.filter_cons_of_pos (by simpa using ht)]
  · show (wakes.toList ++ s.woken).filter (·.run.1 == t) = wakes.toList ++ s.woken.filter (·.run.1 == t)
    rw [List.filter_append, List.filter_eq_self.2 fun x hx => by simpa using hw x (Option.mem_toList.1 hx)]

theorem own_sent_other {wakes : Option HookInput} (ht : ref.1 ≠ t) (hw : ∀ input ∈ wakes, input.run.1 = ref.1) :
    { s with sent := ref :: s.sent, woken := wakes.toList ++ s.woken }.own owner t = s.own owner t := by
  ext1 <;> try rfl
  · show (ref :: s.sent).filter (·.1 == t) = s.sent.filter (·.1 == t)
    rw [List.filter_cons_of_neg (by simpa using ht)]
  · show (wakes.toList ++ s.woken).filter (·.run.1 == t) = s.woken.filter (·.run.1 == t)
    rw [List.filter_append, List.filter_eq_nil_iff.2, List.nil_append]
    intro x hx
    simpa using fun heq => ht ((hw x (Option.mem_toList.1 hx)).symm.trans heq)

theorem own_deduplicated (ht : ref.1 = t) :
    { s with refs := ref :: s.refs, deduplicated := ref :: s.deduplicated }.own owner t =
      { s.own owner t with refs := ref :: (s.own owner t).refs, deduplicated := ref :: (s.own owner t).deduplicated } := by
  ext1 <;> try rfl
  all_goals exact List.filter_cons_of_pos (p := fun r : JobRef => r.1 == t) (by simpa using ht)

theorem own_deduplicated_other (ht : ref.1 ≠ t) :
    { s with refs := ref :: s.refs, deduplicated := ref :: s.deduplicated }.own owner t = s.own owner t := by
  ext1 <;> try rfl
  all_goals exact List.filter_cons_of_neg (p := fun r : JobRef => r.1 == t) (by simpa using ht)

theorem own_claimed (now : Nat) (h : job.message.tenantId = t) :
    { s with claims := ⟨job, now⟩ :: s.claims }.own owner t =
      { s.own owner t with claims := ⟨job, now⟩ :: (s.own owner t).claims } := by
  ext1 <;> try rfl
  exact List.filter_cons_of_pos (p := fun c : Claim => c.job.message.tenantId == t) (by simpa using h)

theorem own_claimed_other (now : Nat) (h : job.message.tenantId ≠ t) :
    { s with claims := ⟨job, now⟩ :: s.claims }.own owner t = s.own owner t := by
  ext1 <;> try rfl
  exact List.filter_cons_of_neg (p := fun c : Claim => c.job.message.tenantId == t) (by simpa using h)

theorem owned_setJob (hs : ∀ r j, s.jobs r = some j → j.Owned owner r) (hj : s.jobs ref = some job) (ht : job.Touched j) :
    ∀ r j', (s.setJob ref (some j)).jobs r = some j' → j'.Owned owner r := by
  intro r j' hj'
  obtain ⟨j₀, hj₀, ht₀⟩ := stays_setJob hj ht hj'
  exact (hs r j₀ hj₀).touched ht₀

/-- Where the dispatcher marks a key as completed, it has room for it. -/
theorem room_of_keysDivided {verdict : Verdict} (hc : w.keysDivided owner (.acknowledge ref verdict) s = true)
    (hj : s.jobs ref = some job) (hkey : job.dedupKey.isSome) (hcomp : verdict.completes = true)
    (hr : job.task.runner = .dispatcher) : (s.completed .dispatcher).length < completedLimit := by
  simp only [World.keysDivided, hj, Option.all_some, hr, hcomp, Bool.or_eq_true, decide_eq_true_eq] at hc
  rcases hc with ((hne | hnone) | hincomplete) | hroom
  · simp at hne
  · rw [Option.isNone_iff_eq_none.1 hnone] at hkey
    cases hkey
  · cases hincomplete
  · exact hroom

theorem own_crash (runner : Runner) :
    { s with jobs := fun r => (s.jobs r).map (bury runner), completed := Function.update s.completed runner [] }.own owner t =
      { s.own owner t with
        jobs := fun r => ((s.own owner t).jobs r).map (bury runner)
        completed := Function.update (s.own owner t).completed runner [] } := by
  ext1 <;> try rfl
  · exact jobs_own_map fun _ => rfl
  · funext runner'
    show (Function.update s.completed runner [] runner').filter (owner · == t) =
      Function.update (s.own owner t).completed runner [] runner'
    by_cases hr : runner' = runner
    · subst hr
      rw [Function.update_self, Function.update_self, List.filter_nil]
    · rw [Function.update_of_ne hr, Function.update_of_ne hr]
      rfl

theorem own_sweep (runner : Runner) : { s with jobs := fun r => (s.jobs r).map (swept s.now runner) }.own owner t =
    { s.own owner t with jobs := fun r => ((s.own owner t).jobs r).map (swept (s.own owner t).now runner) } := by
  ext1 <;> try rfl
  exact jobs_own_map fun _ => rfl

/-- In the tenant's view an event of the tenant does what it does in the table. -/
theorem steps_own (hs : Divided owner s) (hc : w.keysDivided owner e s = true) (h : w.Steps s e s')
    (hmine : e.concerns t = true) : w.Steps (s.own owner t) e (s'.own owner t) := by
  have hfresh_own : ∀ {r : JobRef}, r ∉ s.refs → r ∉ (s.own owner t).refs := fun hr hmem => hr (mem_refs_own.1 hmem).1
  have hcommitted : ∀ {wakes : Option HookInput} {message : Message}, message.tenantId = t →
      (∀ input ∈ wakes, input ∈ s.committed ∧ message.run = some input.run) →
      ∀ input ∈ wakes, input ∈ (s.own owner t).committed ∧ message.run = some input.run := by
    intro wakes message htenant hw input hin
    obtain ⟨hmem, hrun⟩ := hw input hin
    refine ⟨List.mem_filter.2 ⟨hmem, ?_⟩, hrun⟩
    simpa using (tenant_of_run hrun).trans htenant
  cases h with
  | tick seconds => exact .tick seconds
  | commit input =>
    have ht : input.run.1 = t := QueueEvent.tenant_eq_of_concerns rfl hmine
    have heq : { s with committed := input :: s.committed }.own owner t =
        { s.own owner t with committed := input :: (s.own owner t).committed } := by
      ext1 <;> try rfl
      exact List.filter_cons_of_pos (p := fun i : HookInput => i.run.1 == t) (by simpa using ht)
    exact heq ▸ .commit input
  | @deduplicate ref embedded message delaySeconds held wakes hfresh htenant hwakes hmode hheld =>
    have ht : ref.1 = t := QueueEvent.tenant_eq_of_concerns rfl hmine
    have hw : ∀ input ∈ wakes, input.run.1 = t := fun input hin =>
      ((tenant_of_run (hwakes input hin).2).trans htenant).trans ht
    have hkey : ∀ k, specKey (w.placeInvoke ref.1 message delaySeconds held).jobKey = some k → owner k = t := fun k hk => by
      simp only [World.keysDivided, Bool.and_eq_true] at hc
      exact (owner_of_all hc.1.1 k hk).trans ht
    have heq : { s with
        refs := ref :: s.refs, sent := ref :: s.sent, deduplicated := ref :: s.deduplicated
        woken := wakes.toList ++ s.woken }.own owner t = { s.own owner t with
        refs := ref :: (s.own owner t).refs, sent := ref :: (s.own owner t).sent
        deduplicated := ref :: (s.own owner t).deduplicated, woken := wakes.toList ++ (s.own owner t).woken } := by
      refine (own_deduplicated (s := { s with sent := ref :: s.sent, woken := wakes.toList ++ s.woken }) ht).trans ?_
      rw [own_sent ht hw]
    rw [heq]
    exact .deduplicate (hfresh_own hfresh) htenant (hcommitted (htenant.trans ht) hwakes) hmode
      ((holder_own hs.jobs hkey).trans hheld)
  | @send ref embedded message delaySeconds held wakes hfresh htenant hwakes hmode =>
    have ht : ref.1 = t := QueueEvent.tenant_eq_of_concerns rfl hmine
    have hw : ∀ input ∈ wakes, input.run.1 = t := fun input hin =>
      ((tenant_of_run (hwakes input hin).2).trans htenant).trans ht
    have hkey : ∀ k, specKey (w.placeInvoke ref.1 message delaySeconds held).jobKey = some k → owner k = t := fun k hk => by
      simp only [World.keysDivided, Bool.and_eq_true] at hc
      exact (owner_of_all hc.1.1 k hk).trans ht
    rw [own_addJob (s := { s with sent := ref :: s.sent, woken := wakes.toList ++ s.woken }) hs.jobs hkey ht,
      own_sent ht hw]
    exact .send (hfresh_own hfresh) htenant (hcommitted (htenant.trans ht) hwakes) fun hm =>
      (holder_own hs.jobs hkey).trans (hmode hm)
  | @recover ref runId name deploymentId queueNamespace delay hfresh =>
    have ht : ref.1 = t := QueueEvent.tenant_eq_of_concerns rfl hmine
    have hkey := World.owned_of_adds hs.jobs hc .recover
    have hsent : { s with sent := ref :: s.sent }.own owner t =
        { s.own owner t with sent := ref :: (s.own owner t).sent } := @own_sent _ _ _ _ none ht nofun
    rw [own_addJob (s := { s with sent := ref :: s.sent }) hs.jobs (fun k hk => (hkey.key k hk).trans ht) ht]
    exact hsent ▸ .recover (hfresh_own hfresh)
  | @claim ref job claimed lock hj hp hdue hfree hlock hclaimed =>
    have ht : ref.1 = t := QueueEvent.tenant_eq_of_concerns rfl hmine
    have hown := hs.jobs ref job hj
    have hten : job.message.tenantId = t := hown.tenant.trans ht
    have hclaims : { s.setJob ref (some claimed) with claims := ⟨job, s.now⟩ :: s.claims }.own owner t =
        { (s.own owner t).setJob ref (some claimed) with claims := ⟨job, s.now⟩ :: (s.own owner t).claims } := by
      refine (own_claimed (s := s.setJob ref (some claimed)) s.now hten).trans ?_
      rw [own_setJob _ ht]
      rfl
    have hstep := World.Steps.claim (w := w) (s := s.own owner t) ((jobs_own ht).trans hj) hp hdue (queueFree_own hfree)
      (by rw [hlock, inputs_own hten]) hclaimed
    split
    · rename_i hspent
      rw [if_pos hspent] at hstep
      rw [own_finish _ hten, own_settle _ (hown.origin.trans ht), hclaims]
      exact hstep
    · rename_i hspent
      rw [if_neg hspent] at hstep
      rw [hclaims]
      exact hstep
  | @begin_ ref job lock hh htimer hst =>
    have ht : ref.1 = t := QueueEvent.tenant_eq_of_concerns rfl hmine
    rw [own_setJob _ ht, ← enter_own hs.jobs hh.found ht]
    exact .begin_ (hh.own ht) htimer hst
  | @acknowledge ref job lock verdict hh hallowed =>
    have ht : ref.1 = t := QueueEvent.tenant_eq_of_concerns rfl hmine
    have hown := hs.jobs ref job hh.found
    have hroom := room_of_keysDivided hc hh.found
    rw [own_finish _ (hown.tenant.trans ht), own_settle _ (hown.origin.trans ht),
      own_mark hs ((s.setJob ref (some (job.atStage .done))).release ref verdict.release) rfl _ hh.found ht hroom, own_release,
      own_setJob _ ht]
    exact .acknowledge (hh.own ht) hallowed
  | @reschedule ref job lock next timeoutSeconds hh hst hfresh hkey =>
    have ht : ref.1 = t := QueueEvent.tenant_eq_of_concerns rfl hmine
    have hadded := World.owned_of_adds hs.jobs hc (.reschedule hh)
    rw [own_addJob (owned_setJob hs.jobs hh.found (job.touched_atStage _)) (fun k hk => (hadded.key k hk).trans ht)
      (show (ref.1, next).1 = t from ht),
      own_setJob _ ht]
    exact .reschedule (hh.own ht) hst (hfresh_own hfresh) hkey
  | @return_ ref job lock hh hst =>
    have ht : ref.1 = t := QueueEvent.tenant_eq_of_concerns rfl hmine
    rw [own_release, own_setJob _ ht]
    exact .return_ (hh.own ht) hst
  | @swallow ref job lock hh hst =>
    have ht : ref.1 = t := QueueEvent.tenant_eq_of_concerns rfl hmine
    rw [own_settle _ ((hs.jobs ref job hh.found).origin.trans ht), own_setJob _ ht]
    exact .swallow (hh.own ht) hst
  | @promote ref job lock next hh htimer hst hfresh =>
    have ht : ref.1 = t := QueueEvent.tenant_eq_of_concerns rfl hmine
    have hadded := World.owned_of_adds hs.jobs hc (.promote hh htimer)
    rw [own_addJob (owned_setJob hs.jobs hh.found (job.touched_atStage _)) (fun k hk => (hadded.key k hk).trans ht)
      (show (ref.1, next).1 = t from ht),
      own_setJob _ ht]
    exact .promote (hh.own ht) htimer hst (hfresh_own hfresh)
  | @complete ref job lock hh hst =>
    have ht : ref.1 = t := QueueEvent.tenant_eq_of_concerns rfl hmine
    rw [own_setJob _ ht]
    exact .complete (hh.own ht) hst
  | @fail ref job lock backoff threw hh hst =>
    have ht : ref.1 = t := QueueEvent.tenant_eq_of_concerns rfl hmine
    rw [own_release, own_setJob _ ht]
    exact .fail (hh.own ht) hst
  | crash runner => exact own_crash runner ▸ .crash runner
  | @reclaim ref job lock hh hst =>
    have ht : ref.1 = t := QueueEvent.tenant_eq_of_concerns rfl hmine
    rw [own_setJob _ ht]
    exact .reclaim (hh.own ht) hst
  | sweep runner => exact own_sweep runner ▸ .sweep runner

/-- What another tenant's runner does to its jobs. -/
theorem jobs_own_runner (hs : Divided owner s) {tenantId : TenantId} (ht : tenantId ≠ t) {f : QueueJob → QueueJob}
    (hf : ∀ j, j.task.runner ≠ .embedded tenantId → f j = j) :
    (fun r => ((s.own owner t).jobs r).map f) = (s.own owner t).jobs := by
  funext r
  by_cases hr : r.1 = t
  · rw [jobs_own hr]
    cases hj : s.jobs r with
    | none => rfl
    | some j => rw [Option.map_some, hf j fun hrun => ht (((hs.jobs r j hj).runner tenantId hrun).trans hr)]
  · rw [jobs_own_of_ne hr, Option.map_none]

theorem bury_of_ne {runner : Runner} (h : j.task.runner ≠ runner) : bury runner j = j := if_neg h

theorem swept_of_ne {now : Nat} {runner : Runner} (h : j.task.runner ≠ runner) : swept now runner j = j := by
  unfold swept
  split
  · rw [if_neg]
    rintro ⟨htask, -⟩
    exact h (by rw [htask])
  · rfl

/-- Another tenant's event is not seen. -/
theorem own_of_other (hs : Divided owner s) (hc : w.keysDivided owner e s = true) (h : w.Steps s e s')
    (hother : e.concerns t = false) : s'.own owner t = s.own owner t := by
  obtain ⟨t', htenant, ht⟩ := QueueEvent.tenant_ne_of_concerns hother
  cases h with
  | tick => cases htenant
  | commit input =>
    cases htenant
    ext1 <;> try rfl
    exact List.filter_cons_of_neg (p := fun i : HookInput => i.run.1 == t) (by simpa using ht)
  | @deduplicate ref embedded message delaySeconds held wakes hfresh hten hwakes hmode hheld =>
    cases htenant
    have hw : ∀ input ∈ wakes, input.run.1 = ref.1 := fun input hin => (tenant_of_run (hwakes input hin).2).trans hten
    exact (own_deduplicated_other (s := { s with sent := ref :: s.sent, woken := wakes.toList ++ s.woken }) ht).trans
      (own_sent_other ht hw)
  | @send ref embedded message delaySeconds held wakes hfresh hten hwakes hmode =>
    cases htenant
    have hw : ∀ input ∈ wakes, input.run.1 = ref.1 := fun input hin => (tenant_of_run (hwakes input hin).2).trans hten
    have hadded := World.owned_of_adds hs.jobs hc (.send hten)
    rw [own_addJob_other (s := { s with sent := ref :: s.sent, woken := wakes.toList ++ s.woken }) hs.jobs hadded.key ht,
      own_sent_other ht hw]
  | @recover ref runId name deploymentId queueNamespace delay hfresh =>
    cases htenant
    have hadded := World.owned_of_adds hs.jobs hc .recover
    rw [own_addJob_other (s := { s with sent := ref :: s.sent }) hs.jobs hadded.key ht]
    exact @own_sent_other _ _ _ _ none ht nofun
  | @claim ref job claimed lock hj hp hdue hfree hlock hclaimed =>
    cases htenant
    have hown := hs.jobs ref job hj
    have hten : job.message.tenantId ≠ t := hown.tenant ▸ ht
    have hclaims : { s.setJob ref (some claimed) with claims := ⟨job, s.now⟩ :: s.claims }.own owner t = s.own owner t :=
      (own_claimed_other (s := s.setJob ref (some claimed)) s.now hten).trans (own_setJob_other _ ht)
    split
    · rw [own_finish_other _ hten, own_settle_other _ (hown.origin ▸ ht), hclaims]
    · exact hclaims
  | begin_ | complete | reclaim =>
    cases htenant
    exact own_setJob_other _ ht
  | @acknowledge ref job lock verdict hh hallowed =>
    cases htenant
    have hown := hs.jobs ref job hh.found
    have hroom := room_of_keysDivided hc hh.found
    rw [own_finish_other _ (hown.tenant ▸ ht), own_settle_other _ (hown.origin ▸ ht),
      own_mark_other hs ((s.setJob ref (some (job.atStage .done))).release ref verdict.release) rfl _ hh.found ht hroom,
      own_release, own_setJob_other _ ht, own_release_other hs _ ht]
  | @reschedule ref job lock next timeoutSeconds hh hst hfresh hkey =>
    cases htenant
    have hadded := World.owned_of_adds hs.jobs hc (.reschedule hh)
    rw [own_addJob_other (owned_setJob hs.jobs hh.found (job.touched_atStage _)) hadded.key ht, own_setJob_other _ ht]
  | return_ | fail =>
    cases htenant
    rw [own_release, own_setJob_other _ ht, own_release_other hs _ ht]
  | @swallow ref job lock hh hst =>
    cases htenant
    rw [own_settle_other _ ((hs.jobs ref job hh.found).origin ▸ ht), own_setJob_other _ ht]
  | @promote ref job lock next hh htimer hst hfresh =>
    cases htenant
    have hadded := World.owned_of_adds hs.jobs hc (.promote hh htimer)
    rw [own_addJob_other (owned_setJob hs.jobs hh.found (job.touched_atStage _)) hadded.key ht, own_setJob_other _ ht]
  | crash runner =>
    cases runner with
    | dispatcher => cases htenant
    | embedded tenantId =>
      cases htenant
      rw [own_crash]
      ext1 <;> try rfl
      · exact jobs_own_runner hs ht fun _ => bury_of_ne
      · funext runner
        -- The runner has no keys of this tenant to forget.
        have hnone : (s.own owner t).completed (.embedded t') = [] := List.filter_eq_nil_iff.2 fun key hkey => by
          rw [hs.embedded t' key hkey]
          simpa using ht
        show Function.update (s.own owner t).completed (.embedded t') [] runner = (s.own owner t).completed runner
        rw [← hnone, Function.update_eq_self]
  | sweep runner =>
    cases runner with
    | dispatcher => cases htenant
    | embedded t' =>
      cases htenant
      rw [own_sweep]
      ext1 <;> try rfl
      exact jobs_own_runner hs ht fun _ => swept_of_ne

/-! ## Two runs -/

/-- What a tenant's messages have undergone: where their jobs are, which sends added none, how messages
were settled, and the deliveries. -/
structure Undergone where
  jobs : JobRef → Option QueueJob
  deduplicated : List JobRef
  settled : List (JobRef × Settlement)
  claims : List Claim

def undergone (t : TenantId) (s : Queue) : Undergone where
  jobs := fun r => if r.1 = t then s.jobs r else none
  deduplicated := s.deduplicated.filter (·.1 == t)
  settled := s.settled.filter (·.1.1 == t)
  claims := s.claims.filter (·.job.message.tenantId == t)

theorem undergone_own : (s.own owner t).undergone t = s.undergone t := by
  simp only [undergone, own, List.filter_filter, Bool.and_self]
  congr 1
  funext r
  split <;> rfl

theorem own_init : ({} : Queue).own owner t = {} := by
  ext1 <;> try rfl
  funext r
  exact ite_self none

end Queue

namespace World

open Queue

/-- In every run in which keys are divided among the tenants and the dispatcher's memory of completed keys
has room, a tenant's messages undergo what they undergo when the tenant's events are the only ones; and so
they undergo the same in any two such runs in which the tenant's events are the same. -/
theorem tenants_isolated (owner : String → TenantId) (t : TenantId) {es es' : List QueueEvent}
    (h : Machine.play w.step (w.keysDivided owner) es {} = some s)
    (h' : Machine.play w.step (w.keysDivided owner) es' {} = some s')
    (hsame : es.filter (QueueEvent.concerns t) = es'.filter (QueueEvent.concerns t)) :
    s.undergone t = s'.undergone t ∧
      ∃ s₀, Machine.play w.step Machine.always (es.filter (QueueEvent.concerns t)) {} = some s₀ ∧
        s₀.undergone t = s.undergone t := by
  have hinit : Divided owner ({} : Queue) := ⟨⟨by simp, by simp⟩, by simp, by simp, by simp⟩
  have halone : ∀ {es : List QueueEvent} {s : Queue}, Machine.play w.step (w.keysDivided owner) es {} = some s →
      Machine.play w.step Machine.always (es.filter (QueueEvent.concerns t)) {} = some (s.own owner t) := by
    intro es s h
    have hown := @Machine.play_own _ _ w.step (w.keysDivided owner) (Queue.own owner t) (QueueEvent.concerns t) (Divided owner)
      (fun e s s' hs hc he => hs.step hc (steps_of_step he))
      (fun e s s' hs hc he hmine => step_of_steps (steps_own hs hc (steps_of_step he) hmine))
      (fun e s s' hs hc he hother => own_of_other hs hc (steps_of_step he) hother) es {} s hinit h
    rwa [own_init] at hown
  have hview : s.own owner t = s'.own owner t := by
    have heq := (halone h).symm.trans (hsame ▸ halone h')
    exact Option.some.inj heq
  refine ⟨?_, s.own owner t, halone h, undergone_own⟩
  rw [← undergone_own (s := s), hview, undergone_own]

/-- A keyed message of the tenant's run "r". -/
def keyedMessage (tenantId : TenantId) (idempotencyKey : String) : Message where
  attempt := 1
  messageId := "m"
  idempotencyKey := some idempotencyKey
  id := "flow"
  data := { runId := some "r" }
  tenantId := tenantId
  deploymentId := "d"

/-- A tenant's message is sent and delivered. -/
def deliveredRun (tenantId : TenantId) (idempotencyKey : String) : List QueueEvent :=
  [.send (tenantId, 0) false (keyedMessage tenantId idempotencyKey) none false none, .claim (tenantId, 0),
    .begin_ (tenantId, 0)]

/-- The other tenant's delivery has completed before. -/
def afterAnotherRun (idempotencyKey another : String) : List QueueEvent :=
  deliveredRun "b" another ++ .acknowledge ("b", 0) .accepted :: deliveredRun "a" idempotencyKey

/-- Of the two keys each tenant has one. -/
def keyOwner (key : String) : TenantId := if key = "ka" then "a" else "b"

theorem tenants_isolated_afterAnotherRun :
    ∃ s s', Machine.play stampWorld.step (stampWorld.keysDivided keyOwner) (deliveredRun "a" "ka") {} = some s ∧
      Machine.play stampWorld.step (stampWorld.keysDivided keyOwner) (afterAnotherRun "ka" "kb") {} = some s' ∧
      s'.claims.length = 2 ∧ s.undergone "a" = s'.undergone "a" := by
  have hplays : ((Machine.play stampWorld.step (stampWorld.keysDivided keyOwner) (deliveredRun "a" "ka") {}).isSome &&
      (Machine.play stampWorld.step (stampWorld.keysDivided keyOwner) (afterAnotherRun "ka" "kb") {}).any
        (·.claims.length == 2)) = true := by decide +kernel
  rw [Bool.and_eq_true] at hplays
  obtain ⟨s, hs⟩ := Option.isSome_iff_exists.1 hplays.1
  obtain ⟨s', hs', hlen⟩ := (Option.any_eq_true _ _).1 hplays.2
  exact ⟨s, s', hs, hs', by simpa using hlen, (tenants_isolated keyOwner "a" hs hs' (by decide +kernel)).1⟩

/-- The tenants' runs "r" are recovered. -/
def recoveredRuns (tenants : List TenantId) : List QueueEvent :=
  tenants.map fun tenantId => .recover (tenantId, 0) "r" "flow" "d" none 0

/-- The recovery of another tenant's run replaces the message that is to recover the tenant's run of that
id; and after another tenant's message has completed, the dedup swallows the tenant's message of that
idempotency key. -/
theorem tenants_not_isolated_recoveredRuns :
    (∃ s s', Machine.play stampWorld.step Machine.always (recoveredRuns ["a"]) {} = some s ∧
      Machine.play stampWorld.step Machine.always (recoveredRuns ["a", "b"]) {} = some s' ∧
      (recoveredRuns ["a"]).filter (QueueEvent.concerns "a") = (recoveredRuns ["a", "b"]).filter (QueueEvent.concerns "a") ∧
      (s.undergone "a").settled = [] ∧ (s'.undergone "a").settled = [(("a", 0), .replaced)]) ∧
    ∃ s s', Machine.play stampWorld.step Machine.always (deliveredRun "a" "k") {} = some s ∧
      Machine.play stampWorld.step Machine.always (afterAnotherRun "k" "k") {} = some s' ∧
      (deliveredRun "a" "k").filter (QueueEvent.concerns "a") = (afterAnotherRun "k" "k").filter (QueueEvent.concerns "a") ∧
      ((s.undergone "a").jobs ("a", 0)).any (·.dispatches) = true ∧
      ((s'.undergone "a").jobs ("a", 0)).any (·.lock.any (·.stage == .swallowed)) = true := by
  have hexists : ∀ {es : List QueueEvent} {P : Queue → Bool},
      (Machine.play stampWorld.step Machine.always es {}).any P = true → ∃ s, Machine.play stampWorld.step Machine.always es {} = some s ∧ P s = true := (Option.any_eq_true _ _).1
  obtain ⟨s₁, h₁, hp₁⟩ := @hexists (recoveredRuns ["a"]) (fun s => (s.undergone "a").settled == []) (by decide +kernel)
  obtain ⟨s₂, h₂, hp₂⟩ := @hexists (recoveredRuns ["a", "b"])
    (fun s => (s.undergone "a").settled == [(("a", 0), .replaced)]) (by decide +kernel)
  obtain ⟨s₃, h₃, hp₃⟩ := @hexists (deliveredRun "a" "k")
    (fun s => ((s.undergone "a").jobs ("a", 0)).any (·.dispatches)) (by decide +kernel)
  obtain ⟨s₄, h₄, hp₄⟩ := @hexists (afterAnotherRun "k" "k")
    (fun s => ((s.undergone "a").jobs ("a", 0)).any (·.lock.any (·.stage == .swallowed))) (by decide +kernel)
  exact ⟨⟨s₁, s₂, h₁, h₂, by decide +kernel, by simpa using hp₁, by simpa using hp₂⟩,
    s₃, s₄, h₃, h₄, by decide +kernel, hp₃, hp₄⟩

end World

end WorkflowWorld.Dispatcher
