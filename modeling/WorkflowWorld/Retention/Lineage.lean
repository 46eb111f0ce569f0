/-
What the retention passes leave. A batch deletes rows of a run only where nothing keeps the run's
lineage, and what it deletes of a lineage keeps nothing of the rest; so the passes compose, whatever
their batch sizes, and a lineage that a pass has begun to delete can be deleted to its end.
-/
import WorkflowWorld.Retention.Prune

namespace WorkflowWorld.Retention

/-! ## Lineages that nothing keeps -/

/-- No member is active, persistent or not yet past the deadline, and no hook of the lineage keeps its token. -/
structure Unprotected (db : Tables) (now : Nat) (deadline : Deadline) (r : RunRow) : Prop where
  members : ∀ l ∈ db.runs, l.sameLineage r = true → l.protects now deadline = false
  tokens : ∀ h ∈ db.hooks, ∀ owner ∈ db.runs, owner.key = h.run → owner.sameLineage r = true →
    ∀ u, h.tokenRetentionUntil = some u → u ≤ now

section Unprotected

variable {db : Tables} {now now' : Nat} {deadline : Deadline} {r l o : RunRow}

theorem sameLineage_iff : l.sameLineage r = true ↔ l.tenant = r.tenant ∧ l.retentionRootRunId = r.retentionRootRunId := by
  simp [RunRow.sameLineage]

theorem sameLineage_refl (r : RunRow) : r.sameLineage r = true := sameLineage_iff.2 ⟨rfl, rfl⟩

theorem sameLineage_trans (h : l.sameLineage r = true) (h' : r.sameLineage o = true) : l.sameLineage o = true := by
  rw [sameLineage_iff] at h h' ⊢
  exact ⟨h.1.trans h'.1, h.2.trans h'.2⟩

theorem past_mono (h : now ≤ now') (hp : r.past now deadline = true) : r.past now' deadline = true := by
  cases deadline with
  | age ms =>
    simp only [RunRow.past, decide_eq_true_eq] at hp ⊢
    omega
  | expireAfter | detailExpireAfter =>
    simp only [RunRow.past, Option.any_eq_true, decide_eq_true_eq] at hp ⊢
    obtain ⟨u, hu, hle⟩ := hp
    exact ⟨u, hu, by omega⟩

theorem protects_eq_false : r.protects now deadline = false ↔
    r.status.isTerminal = true ∧ r.retentionClass ≠ .persistent ∧ r.past now deadline = true := by
  simp [RunRow.protects, and_assoc]

theorem protects_mono (h : now ≤ now') (hp : r.protects now deadline = false) : r.protects now' deadline = false := by
  rw [protects_eq_false] at hp ⊢
  exact ⟨hp.1, hp.2.1, past_mono h hp.2.2⟩

theorem Unprotected.mono (hu : Unprotected db now deadline r) (h : now ≤ now') : Unprotected db now' deadline r :=
  ⟨fun l hl hs => protects_mono h (hu.members l hl hs), fun x hx o ho hk hs u hu' => (hu.tokens x hx o ho hk hs u hu').trans h⟩

/-- It is a fact about the lineage. -/
theorem Unprotected.lineage (hu : Unprotected db now deadline r) (h : l.sameLineage r = true) : Unprotected db now deadline l :=
  ⟨fun l' hl' hs => hu.members l' hl' (sameLineage_trans hs h), fun x hx o ho hk hs => hu.tokens x hx o ho hk (sameLineage_trans hs h)⟩

/-- The predicate of the statements says that. -/
theorem eligible_iff (hr : r ∈ db.runs) : db.eligible now deadline r = true ↔ Unprotected db now deadline r := by
  constructor
  · intro h
    simp only [Tables.eligible, Bool.and_eq_true, Bool.not_eq_true', List.any_eq_false, Tables.tokenRetained] at h
    obtain ⟨⟨-, hmembers⟩, htokens⟩ := h
    refine ⟨fun l hl hs => ?_, fun x hx o ho hk hs u hu => ?_⟩
    · have := hmembers l hl
      simpa [hs] using this
    · have := htokens x hx
      rw [Bool.not_eq_true, List.any_eq_false] at this
      have := this o ho
      simpa [hk, hs, hu] using this
  · intro h
    obtain ⟨hterm, -, hpast⟩ := protects_eq_false.1 (h.members r hr (sameLineage_refl r))
    simp only [Tables.eligible, Bool.and_eq_true, Bool.not_eq_true', List.any_eq_false, Tables.tokenRetained]
    refine ⟨⟨⟨hterm, hpast⟩, fun l hl hp => ?_⟩, fun x hx hp => ?_⟩
    · rw [h.members l hl hp.1] at hp
      cases hp.2
    · rw [List.any_eq_true] at hp
      obtain ⟨o, ho, hp⟩ := hp
      simp only [Bool.and_eq_true, decide_eq_true_eq, Option.any_eq_true] at hp
      obtain ⟨⟨hk, hs⟩, u, hu, hlt⟩ := hp
      have := h.tokens x hx o ho hk hs u hu
      omega

end Unprotected

/-! ## What a pass deletes -/

/-- The tables a run's details are in, beside its hooks. -/
inductive DetailTable where
  | events | slots | steps | waits

def Tables.detail (db : Tables) : DetailTable → List DetailRow
  | .events => db.events
  | .slots => db.slots
  | .steps => db.steps
  | .waits => db.waits

/-- From `db` to `db'` rows were deleted, by `now` and under the deadline. -/
structure Pruned (deadline : Deadline) (now : Nat) (db db' : Tables) : Prop where
  runs : ∀ r ∈ db'.runs, r ∈ db.runs
  hooks : ∀ h ∈ db'.hooks, h ∈ db.hooks
  details : ∀ T, ∀ x ∈ db'.detail T, x ∈ db.detail T
  chunks : ∀ c ∈ db'.chunks, c ∈ db.chunks
  /-- A lineage that something keeps loses no run, -/
  lostRun : ∀ r ∈ db.runs, r ∉ db'.runs → Unprotected db now deadline r
  /-- no stream row (and no EOF is lost at all), -/
  lostChunk : ∀ c ∈ db.chunks, c ∉ db'.chunks → c.eof = false ∧ ∀ r ∈ db.runs, c.ofRun r.key = true → Unprotected db now deadline r
  lostCheckpoint : ∀ c ∈ db.checkpoints, c ∉ db'.checkpoints → ∀ r ∈ db.runs, c.ofRun r.key = true → Unprotected db now deadline r
  /-- and no detail: a detail is deleted only together with its run, -/
  lostDetail : ∀ T, ∀ x ∈ db.detail T, x ∉ db'.detail T → ∀ r ∈ db'.runs, r.key ≠ x.run
  lostHook : ∀ h ∈ db.hooks, h ∉ db'.hooks → ∀ r ∈ db'.runs, r.key ≠ h.run
  /-- and a run together with all its details. -/
  withDetails : ∀ T, ∀ x ∈ db'.detail T, ∀ r ∈ db.runs, r.key = x.run → r ∈ db'.runs
  withHooks : ∀ h ∈ db'.hooks, ∀ r ∈ db.runs, r.key = h.run → r ∈ db'.runs

namespace Pruned

variable {db db' db'' : Tables} {now now' : Nat} {deadline : Deadline} {r : RunRow}

/-- Where the runs and their details stay, only stream rows are to be looked at. -/
theorem of_streams (hruns : db'.runs = db.runs) (hhooks : db'.hooks = db.hooks) (hdetails : ∀ T, db'.detail T = db.detail T)
    (hchunks : ∀ c ∈ db'.chunks, c ∈ db.chunks)
    (lostChunk : ∀ c ∈ db.chunks, c ∉ db'.chunks → c.eof = false ∧ ∀ r ∈ db.runs, c.ofRun r.key = true → Unprotected db now deadline r)
    (lostCheckpoint : ∀ c ∈ db.checkpoints, c ∉ db'.checkpoints → ∀ r ∈ db.runs, c.ofRun r.key = true → Unprotected db now deadline r) :
    Pruned deadline now db db' := by
  refine ⟨fun r hr => hruns ▸ hr, fun h hh => hhooks ▸ hh, fun T x hx => hdetails T ▸ hx, hchunks, fun r hr hn => ?_, lostChunk,
    lostCheckpoint, fun T x hx hn => ?_, fun h hh hn => ?_, fun T x hx r hr hk => ?_, fun h hh r hr hk => ?_⟩
  · exact absurd (hruns ▸ hr) hn
  · exact absurd (hdetails T ▸ hx) hn
  · exact absurd (hhooks ▸ hh) hn
  · rw [hruns]; exact hr
  · rw [hruns]; exact hr

theorem refl (deadline : Deadline) (now : Nat) (db : Tables) : Pruned deadline now db db :=
  of_streams rfl rfl (fun _ => rfl) (fun _ h => h) (fun _ h hn => absurd h hn) fun _ h hn => absurd h hn

theorem mono (h : Pruned deadline now db db') (hle : now ≤ now') : Pruned deadline now' db db' where
  runs := h.runs
  hooks := h.hooks
  details := h.details
  chunks := h.chunks
  lostRun r hr hn := (h.lostRun r hr hn).mono hle
  lostChunk c hc hn := ⟨(h.lostChunk c hc hn).1, fun r hr hk => ((h.lostChunk c hc hn).2 r hr hk).mono hle⟩
  lostCheckpoint c hc hn r hr hk := (h.lostCheckpoint c hc hn r hr hk).mono hle
  lostDetail := h.lostDetail
  lostHook := h.lostHook
  withDetails := h.withDetails
  withHooks := h.withHooks

/-- What keeps nothing of the smaller lineage keeps nothing of the lineage before: what was deleted kept nothing. -/
theorem unprotected (h : Pruned deadline now db db') (hu : Unprotected db' now deadline r) : Unprotected db now deadline r := by
  refine ⟨fun l hl hs => ?_, fun x hx o ho hk hs u hu' => ?_⟩
  · by_cases hl' : l ∈ db'.runs
    · exact hu.members l hl' hs
    · exact (h.lostRun l hl hl').members l hl (sameLineage_refl l)
  · by_cases ho' : o ∈ db'.runs
    · have hx' : x ∈ db'.hooks := by
        by_contra hn
        exact h.lostHook x hx hn o ho' hk
      exact hu.tokens x hx' o ho' hk hs u hu'
    · exact (h.lostRun o ho ho').tokens x hx o ho hk (sameLineage_refl o) u hu'

theorem trans (h : Pruned deadline now db db') (h' : Pruned deadline now db' db'') : Pruned deadline now db db'' := by
  -- of a run of `db`, what is known of it in `db'`, or that it was deleted before
  have hback : ∀ r ∈ db.runs, (r ∈ db'.runs → Unprotected db' now deadline r) → Unprotected db now deadline r := by
    intro r hr hu
    by_cases hr' : r ∈ db'.runs
    · exact h.unprotected (hu hr')
    · exact h.lostRun r hr hr'
  refine ⟨fun r hr => h.runs r (h'.runs r hr), fun x hx => h.hooks x (h'.hooks x hx), fun T x hx => h.details T x (h'.details T x hx),
    fun c hc => h.chunks c (h'.chunks c hc), fun r hr hn => hback r hr fun hr' => h'.lostRun r hr' hn, fun c hc hn => ?_, fun c hc hn r hr hk => ?_,
    fun T x hx hn r hr => ?_, fun x hx hn r hr => ?_, fun T x hx r hr hk => ?_, fun x hx r hr hk => ?_⟩
  · by_cases hc' : c ∈ db'.chunks
    · obtain ⟨heof, hu⟩ := h'.lostChunk c hc' hn
      exact ⟨heof, fun r hr hk => hback r hr fun hr' => hu r hr' hk⟩
    · exact h.lostChunk c hc hc'
  · by_cases hc' : c ∈ db'.checkpoints
    · exact hback r hr fun hr' => h'.lostCheckpoint c hc' hn r hr' hk
    · exact h.lostCheckpoint c hc hc' r hr hk
  · by_cases hx' : x ∈ db'.detail T
    · exact h'.lostDetail T x hx' hn r hr
    · exact h.lostDetail T x hx hx' r (h'.runs r hr)
  · by_cases hx' : x ∈ db'.hooks
    · exact h'.lostHook x hx' hn r hr
    · exact h.lostHook x hx hx' r (h'.runs r hr)
  · exact h'.withDetails T x hx r (h.withDetails T x (h'.details T x hx) r hr hk) hk
  · exact h'.withHooks x hx r (h.withHooks x (h'.hooks x hx) r hr hk) hk

/-- What is left of a lineage that nothing keeps is kept by nothing. -/
theorem still (h : Pruned deadline now db db') {deadline' : Deadline} {now' : Nat} (hu : Unprotected db now' deadline' r) :
    Unprotected db' now' deadline' r :=
  ⟨fun l hl hs => hu.members l (h.runs l hl) hs, fun x hx o ho hk hs => hu.tokens x (h.hooks x hx) o (h.runs o ho) hk hs⟩

end Pruned

/-! ## One batch -/

section Batches

variable {db : Tables} {now : Nat} {deadline : Deadline}

/-- Two rows under one key are one row. -/
theorem Tables.eq_of_key (db : Tables) {r r' : RunRow} (hr : r ∈ db.runs) (hr' : r' ∈ db.runs) (h : r.key = r'.key) : r = r' :=
  List.inj_on_of_nodup_map db.keys hr hr' h

theorem ChunkRow.eq_of_ofRun {c : ChunkRow} {k k' : RunKey} (h : c.ofRun k = true) (h' : c.ofRun k' = true) : k = k' := by
  simp only [ChunkRow.ofRun, decide_eq_true_eq] at h h'
  exact Prod.ext (h.1.symm.trans h'.1) (Option.some.inj (h.2.symm.trans h'.2))

theorem CheckpointRow.eq_of_ofRun {c : CheckpointRow} {k k' : RunKey} (h : c.ofRun k = true) (h' : c.ofRun k' = true) : k = k' := by
  simp only [CheckpointRow.ofRun, decide_eq_true_eq] at h h'
  exact Prod.ext (h.1.symm.trans h'.1) (Option.some.inj (h.2.symm.trans h'.2))

theorem mem_victimChunks {c : ChunkRow} {batchSize : Nat} (h : c ∈ db.victimChunks now deadline batchSize) :
    c.eof = false ∧ ∃ r ∈ db.runs, c.ofRun r.key = true ∧ db.eligible now deadline r = true := by
  obtain ⟨⟨r, c'⟩, hx, rfl⟩ := List.mem_map.1 h
  have hmem := (List.mem_insertionSort _).1 (List.mem_of_mem_take hx)
  obtain ⟨c₀, -, hr⟩ := List.mem_flatMap.1 hmem
  obtain ⟨r₀, hr₀, heq⟩ := List.mem_map.1 hr
  cases heq
  obtain ⟨hrun, hp⟩ := List.mem_filter.1 hr₀
  simp only [Bool.and_eq_true, Bool.not_eq_true'] at hp
  exact ⟨hp.1.1, r, hrun, hp.1.2, hp.2⟩

theorem mem_victimRuns {k : RunKey} {batchSize : Nat} (h : k ∈ db.victimRuns now batchSize) :
    ∃ r ∈ db.runs, r.key = k ∧ db.eligible now .detailExpireAfter r = true := by
  obtain ⟨r, hr, rfl⟩ := List.mem_map.1 h
  have hmem := (List.mem_insertionSort _).1 (List.mem_of_mem_take hr)
  obtain ⟨hrun, hp⟩ := List.mem_filter.1 hmem
  exact ⟨r, hrun, rfl, hp⟩

theorem pruned_deleteChunks (db : Tables) (now : Nat) (deadline : Deadline) (batchSize : Nat) :
    Pruned deadline now db (db.deleteChunks now deadline batchSize).1 := by
  refine .of_streams rfl rfl (fun T => by cases T <;> rfl) (fun c hc => (List.mem_filter.1 hc).1) (fun c hc hn => ?_)
    fun c hc hn => absurd hc hn
  have hv : c ∈ db.victimChunks now deadline batchSize := by
    by_contra hv
    exact hn (List.mem_filter.2 ⟨hc, by simpa using hv⟩)
  obtain ⟨heof, r, hr, hof, he⟩ := mem_victimChunks hv
  refine ⟨heof, fun r' hr' hof' => ?_⟩
  cases db.eq_of_key hr hr' (ChunkRow.eq_of_ofRun hof hof')
  exact (eligible_iff hr).1 he

theorem pruned_deleteCheckpoints (db : Tables) (now : Nat) (deadline : Deadline) :
    Pruned deadline now db (db.deleteCheckpoints now deadline) := by
  refine .of_streams rfl rfl (fun T => by cases T <;> rfl) (fun c hc => hc) (fun c hc hn => absurd hc hn) fun c hc hn r' hr' hof' => ?_
  have hv : (db.runs.any fun r => c.ofRun r.key && db.eligible now deadline r) = true := by
    by_contra hv
    exact hn (List.mem_filter.2 ⟨hc, by simpa using hv⟩)
  obtain ⟨r, hr, hp⟩ := List.any_eq_true.1 hv
  rw [Bool.and_eq_true] at hp
  cases db.eq_of_key hr hr' (CheckpointRow.eq_of_ofRun hp.1 hof')
  exact (eligible_iff hr).1 hp.2

/-- The details of the victims go with them, and no others. -/
theorem mem_deleteRuns_detail (db : Tables) (victims : List RunKey) (T : DetailTable) (x : DetailRow) :
    x ∈ (db.deleteRuns victims).detail T ↔ x ∈ db.detail T ∧ x.run ∉ victims := by
  cases T <;> simp [Tables.detail, Tables.deleteRuns]

theorem mem_deleteRuns_runs (db : Tables) (victims : List RunKey) (r : RunRow) :
    r ∈ (db.deleteRuns victims).runs ↔ r ∈ db.runs ∧ r.key ∉ victims := by simp [Tables.deleteRuns]

theorem mem_deleteRuns_hooks (db : Tables) (victims : List RunKey) (h : HookRow) :
    h ∈ (db.deleteRuns victims).hooks ↔ h ∈ db.hooks ∧ h.run ∉ victims := by simp [Tables.deleteRuns]

theorem pruned_deleteRuns {victims : List RunKey}
    (hv : ∀ k ∈ victims, ∃ r ∈ db.runs, r.key = k ∧ db.eligible now deadline r = true) : Pruned deadline now db (db.deleteRuns victims) := by
  have hvictim : ∀ r ∈ db.runs, r.key ∈ victims → Unprotected db now deadline r := by
    intro r hr hk
    obtain ⟨r', hr', hkey, he⟩ := hv _ hk
    cases db.eq_of_key hr' hr hkey
    exact (eligible_iff hr).1 he
  have hof : ∀ (p : RunKey → Bool), (∀ k k', p k = true → p k' = true → k = k') → (victims.any p) = true →
      ∀ r ∈ db.runs, p r.key = true → Unprotected db now deadline r := by
    intro p hp hany r hr hk
    obtain ⟨k, hk', hpk⟩ := List.any_eq_true.1 hany
    exact hvictim r hr (hp _ _ hpk hk ▸ hk')
  constructor
  case runs => exact fun r hr => ((mem_deleteRuns_runs db victims r).1 hr).1
  case hooks => exact fun h hh => ((mem_deleteRuns_hooks db victims h).1 hh).1
  case details => exact fun T x hx => ((mem_deleteRuns_detail db victims T x).1 hx).1
  case chunks => exact fun c hc => (List.mem_filter.1 hc).1
  case lostRun =>
    intro r hr hn
    refine hvictim r hr ?_
    by_contra hk
    exact hn ((mem_deleteRuns_runs db victims r).2 ⟨hr, hk⟩)
  case lostChunk =>
    intro c hc hn
    have hlost : (c.eof || !(victims.any c.ofRun)) = false := Bool.eq_false_iff.2 fun h => hn (List.mem_filter.2 ⟨hc, h⟩)
    rw [Bool.or_eq_false_iff, Bool.not_eq_false'] at hlost
    exact ⟨hlost.1, hof _ (fun _ _ => ChunkRow.eq_of_ofRun) hlost.2⟩
  case lostCheckpoint =>
    intro c hc hn
    have hlost : (!(victims.any c.ofRun)) = false := Bool.eq_false_iff.2 fun h => hn (List.mem_filter.2 ⟨hc, h⟩)
    exact hof _ (fun _ _ => CheckpointRow.eq_of_ofRun) (by simpa using hlost)
  case lostDetail =>
    intro T x hx hn r hr hk
    exact hn ((mem_deleteRuns_detail db victims T x).2 ⟨hx, hk ▸ ((mem_deleteRuns_runs db victims r).1 hr).2⟩)
  case lostHook =>
    intro x hx hn r hr hk
    exact hn ((mem_deleteRuns_hooks db victims x).2 ⟨hx, hk ▸ ((mem_deleteRuns_runs db victims r).1 hr).2⟩)
  case withDetails =>
    intro T x hx r hr hk
    exact (mem_deleteRuns_runs db victims r).2 ⟨hr, hk ▸ ((mem_deleteRuns_detail db victims T x).1 hx).2⟩
  case withHooks =>
    intro x hx r hr hk
    exact (mem_deleteRuns_runs db victims r).2 ⟨hr, hk ▸ ((mem_deleteRuns_hooks db victims x).1 hx).2⟩

/-- The sweep of what is left of runs that are gone. -/
theorem pruned_deleteOrphans (db : Tables) (now : Nat) (deadline : Deadline) : Pruned deadline now db (db.deleteOrphans now) := by
  refine ⟨fun r hr => hr, fun h hh => (List.mem_filter.1 hh).1, fun T x hx => by cases T <;> exact hx, fun c hc => hc,
    fun r hr hn => absurd hr hn, fun c hc hn => absurd hc hn, fun c hc hn r hr hof => ?_, fun T x hx hn => ?_, fun h hh hn r hr hk => ?_,
    fun T x hx r hr hk => hr, fun h hh r hr hk => hr⟩
  · exact absurd (List.mem_filter.2 ⟨hc, List.any_eq_true.2 ⟨r, hr, hof⟩⟩) hn
  · exact absurd (by cases T <;> exact hx) hn
  · refine hn (List.mem_filter.2 ⟨hh, ?_⟩)
    have hany : (db.runs.any (·.key = h.run)) = true := List.any_eq_true.2 ⟨r, hr, by simpa using hk⟩
    simp [hany]

end Batches

/-! ## Whole passes -/

section Passes

variable {deadline : Deadline} {batchSize : Nat} {clock : Nat → Nat} {now : Nat}

theorem pruned_pruneStreams (hclock : ∀ i, clock i ≤ now) (left batches deletedRows : Nat) (db : Tables) :
    Pruned deadline now db (pruneStreams deadline batchSize clock left batches deletedRows db).1 := by
  induction left generalizing batches deletedRows db with
  | zero => exact (pruned_deleteCheckpoints db (clock batches) deadline).mono (hclock _)
  | succ left ih =>
    have hbatch := (pruned_deleteChunks db (clock batches) deadline batchSize).mono (hclock batches)
    simp only [pruneStreams]
    split
    · exact hbatch.trans ((pruned_deleteCheckpoints _ (clock (batches + 1)) deadline).mono (hclock _))
    · exact hbatch.trans (ih ..)

theorem pruned_pruneRuns (hclock : ∀ i, clock i ≤ now) (left batches deletedRuns : Nat) (db : Tables) :
    Pruned .detailExpireAfter now db (pruneRuns batchSize clock left batches deletedRuns db).1 := by
  induction left generalizing batches deletedRuns db with
  | zero => exact .refl ..
  | succ left ih =>
    have hbatch : Pruned .detailExpireAfter now db
        ((db.deleteRuns (db.victimRuns (clock batches) batchSize)).deleteOrphans (clock batches)) :=
      ((pruned_deleteRuns fun k hk => mem_victimRuns hk).trans (pruned_deleteOrphans ..)).mono (hclock batches)
    simp only [pruneRuns]
    split
    · exact hbatch
    · exact hbatch.trans (ih ..)

end Passes

/-- A call of one of the three pruners. -/
inductive Pass where
  | terminalStreams (o : StreamRetentionOptions)
  | expiredStreams (o : DeadlineRetentionOptions)
  | expiredRuns (o : DeadlineRetentionOptions)

def Pass.deadline : Pass → Deadline
  | .terminalStreams o => .age o.retentionMs.toNat
  | .expiredStreams _ => .expireAfter
  | .expiredRuns _ => .detailExpireAfter

/-- The tables a call leaves; one that refuses its options leaves them. -/
def Pass.apply (p : Pass) (locked : Bool) (clock : Nat → Nat) (db : Tables) : Tables :=
  match p with
  | .terminalStreams o => ((pruneTerminalStreamChunks o locked clock db).toOption.map (·.1)).getD db
  | .expiredStreams o => ((pruneExpiredStreamChunks o locked clock db).toOption.map (·.1)).getD db
  | .expiredRuns o => ((pruneExpiredWorkflowRuns o locked clock db).toOption.map (·.1)).getD db

/-- Passes one after the other, as time goes on. -/
inductive Passes : Nat → Tables → Nat → Tables → Prop
  | refl (now : Nat) (db : Tables) : Passes now db now db
  | pass {now₀ now now' : Nat} {db₀ db : Tables} (h : Passes now₀ db₀ now db) (p : Pass) (locked : Bool) (clock : Nat → Nat)
      (hclock : ∀ i, now ≤ clock i ∧ clock i ≤ now') : Passes now₀ db₀ now' (p.apply locked clock db)

theorem pruned_of_except {ρ : Type} {deadline : Deadline} {now : Nat} {db : Tables} {x : Except String Unit} {f : Except String (Tables × ρ)}
    (h : Pruned deadline now db ((f.toOption.map (·.1)).getD db)) :
    Pruned deadline now db (((x >>= fun _ => f).toOption.map (·.1)).getD db) := by
  cases x with
  | error e => exact .refl ..
  | ok u => exact h

theorem pruned_apply (p : Pass) (locked : Bool) {clock : Nat → Nat} {now : Nat} (hclock : ∀ i, clock i ≤ now) (db : Tables) :
    Pruned p.deadline now db (p.apply locked clock db) := by
  cases p with
  | terminalStreams o =>
    refine pruned_of_except (pruned_of_except (pruned_of_except ?_))
    cases locked with
    | true => exact pruned_pruneStreams hclock ..
    | false => exact .refl ..
  | expiredStreams o =>
    refine pruned_of_except (pruned_of_except ?_)
    cases locked with
    | true => exact pruned_pruneStreams hclock ..
    | false => exact .refl ..
  | expiredRuns o =>
    refine pruned_of_except (pruned_of_except ?_)
    cases locked with
    | true => exact pruned_pruneRuns hclock ..
    | false => exact .refl ..

/-- What nothing keeps is kept by nothing later. -/
theorem Passes.still {now now' : Nat} {db db' : Tables} (h : Passes now db now' db') {deadline : Deadline} {r : RunRow}
    (hu : Unprotected db now deadline r) : now ≤ now' ∧ Unprotected db' now' deadline r := by
  induction h with
  | refl => exact ⟨le_rfl, hu⟩
  | pass h p locked clock hclock ih =>
    obtain ⟨hle, hu'⟩ := ih hu
    have hle' := (hclock 0).1.trans (hclock 0).2
    exact ⟨hle.trans hle', (pruned_apply p locked (fun i => (hclock i).2) _).still (hu'.mono hle')⟩

/-- The pass deleted the run, or rows of a stream of it. -/
def Touched (db db' : Tables) (r : RunRow) : Prop :=
  r ∈ db.runs ∧ (r ∉ db'.runs ∨ ∃ c ∈ db.chunks, c ∉ db'.chunks ∧ c.ofRun r.key = true)

/-- Of every pass on any tables: it deletes nothing of a lineage that something keeps, no EOF, and a run's details only
with the run; and of a lineage it began to delete, all that is left stays eligible in every later state. -/
theorem retention_protects_lineages (db : Tables) (p : Pass) (locked : Bool) {clock : Nat → Nat} {now : Nat} (hclock : ∀ i, clock i ≤ now) :
    Pruned p.deadline now db (p.apply locked clock db) ∧
    ∀ r, Touched db (p.apply locked clock db) r → ∀ now' db', Passes now (p.apply locked clock db) now' db' →
      ∀ l ∈ db'.runs, l.sameLineage r = true → db'.eligible now' p.deadline l = true := by
  have hp := pruned_apply p locked hclock db
  refine ⟨hp, fun r ⟨hr, htouched⟩ now' db' hlater l hl hs => ?_⟩
  have hu : Unprotected db now p.deadline r := by
    rcases htouched with hn | ⟨c, hc, hn, hof⟩
    · exact hp.lostRun r hr hn
    · exact (hp.lostChunk c hc hn).2 r hr hof
  exact (eligible_iff hl).2 ((hlater.still (hp.still hu)).2.lineage hs)

/-- A root that ended long ago with a child of the same lineage, and a child of another that is still running. -/
def family : Tables where
  runs := [
    { key := ("t", "root"), status := .completed, retentionClass := .interactive, retentionRootRunId := "root", updatedAt := 0,
      expireAfter := some 10, detailExpireAfter := some 20 },
    { key := ("t", "child"), status := .failed, retentionClass := .interactive, retentionRootRunId := "root", updatedAt := 0,
      expireAfter := some 10, detailExpireAfter := some 30 },
    { key := ("t", "other"), status := .completed, retentionClass := .interactive, retentionRootRunId := "other", updatedAt := 0,
      expireAfter := some 10, detailExpireAfter := some 20 },
    { key := ("t", "busy"), status := .running, retentionClass := .interactive, retentionRootRunId := "other", updatedAt := 0 }]
  chunks := [⟨"t", "s", "chnk_1", some "root", false⟩, ⟨"t", "s", "chnk_2", some "root", true⟩, ⟨"t", "o", "chnk_3", some "other", false⟩]
  events := [⟨("t", "root"), "1"⟩, ⟨("t", "child"), "1"⟩, ⟨("t", "other"), "1"⟩]
  hooks := [⟨("t", "root"), "h", some 25⟩]

/-- One run a batch, one batch: the root goes, with its rows but the EOF, and the child stays eligible. -/
theorem retention_protects_lineages_family :
    ((Pass.expiredRuns ⟨1, 1⟩).apply true (fun _ => 40) family).runs.map (·.key.2) = ["child", "other", "busy"] ∧
    ((Pass.expiredRuns ⟨1, 1⟩).apply true (fun _ => 40) family).chunks.map (·.id) = ["chnk_2", "chnk_3"] ∧
    Pruned .detailExpireAfter 40 family ((Pass.expiredRuns ⟨1, 1⟩).apply true (fun _ => 40) family) :=
  ⟨by decide, by decide, (retention_protects_lineages family (.expiredRuns ⟨1, 1⟩) true fun _ => le_rfl).1⟩

end WorkflowWorld.Retention
