/-
What a retention pass has done when it answers. It counts the rows it deleted, which are rows that were due; it stops
before its batches are used up only where nothing is due any more; and it uses them up only where as many rows were due
as the batches hold. So a pass with batches enough leaves nothing, whatever order the rows were taken in.
-/
import Mathlib.Data.List.Perm.Subperm
import WorkflowWorld.Retention.Lineage

namespace WorkflowWorld.Retention

/-! ## Batches -/

section Taken

variable {α β : Type} {r : α → α → Prop} [DecidableRel r] {l : List α} {batchSize : Nat}

/-- The rows of a batch: the first of those that are due. -/
theorem subperm_taken (f : α → β) : (((l.insertionSort r).take batchSize).map f).Subperm (l.map f) :=
  ((List.take_sublist ..).map f).subperm.trans ((List.perm_insertionSort r l).map f).subperm

/-- A batch that is not full has them all. -/
theorem mem_taken {x : α} (hx : x ∈ l) (hlt : ((l.insertionSort r).take batchSize).length < batchSize) :
    x ∈ (l.insertionSort r).take batchSize := by
  rw [List.length_take, List.length_insertionSort] at hlt
  rw [List.take_of_length_le (by rw [List.length_insertionSort]; omega)]
  exact (List.mem_insertionSort r).2 hx

/-- What is deleted is what was due and is no longer there. -/
theorem countP_deleted {p v : α → Bool} (hv : ∀ x ∈ l, v x = true → p x = true) :
    (l.filter v).length + (l.filter fun x => !v x).countP p = l.countP p := by
  have hall : (l.filter v).countP p = (l.filter v).length :=
    List.countP_eq_length.2 fun x hx => hv x (List.mem_filter.1 hx).1 (List.mem_filter.1 hx).2
  rw [← hall, ← List.countP_eq_countP_filter_add]

end Taken

/-! ## Streams -/

section Streams

variable {db : Tables} {now : Nat} {deadline : Deadline} {batchSize : Nat} {clock : Nat → Nat} {c : ChunkRow}

/-- The row is no EOF, and its run is eligible. -/
def Tables.dueChunk (db : Tables) (now : Nat) (deadline : Deadline) (c : ChunkRow) : Bool :=
  db.runs.any fun r => !c.eof && c.ofRun r.key && db.eligible now deadline r

theorem dueChunk_iff : db.dueChunk now deadline c = true ↔
    c.eof = false ∧ ∃ r ∈ db.runs, c.ofRun r.key = true ∧ db.eligible now deadline r = true := by
  unfold Tables.dueChunk
  simp only [List.any_eq_true, Bool.and_eq_true, Bool.not_eq_true']
  constructor
  · rintro ⟨r, hr, ⟨heof, hof⟩, he⟩
    exact ⟨heof, r, hr, hof, he⟩
  · rintro ⟨heof, r, hr, hof, he⟩
    exact ⟨r, hr, ⟨heof, hof⟩, he⟩

theorem dueChunk_mono {now' : Nat} (h : db.dueChunk now deadline c = true) (hle : now ≤ now') :
    db.dueChunk now' deadline c = true := by
  obtain ⟨heof, r, hr, hof, he⟩ := dueChunk_iff.1 h
  exact dueChunk_iff.2 ⟨heof, r, hr, hof, (eligible_iff hr).2 (((eligible_iff hr).1 he).mono hle)⟩

/-- The join of a batch has a row for each row that is due: a row is of one run at most. -/
theorem joined_chunks : (db.chunks.flatMap fun c =>
    (db.runs.filter fun r => !c.eof && c.ofRun r.key && db.eligible now deadline r).map fun r => (r, c)).map (·.2) =
      db.chunks.filter (db.dueChunk now deadline) := by
  induction db.chunks with
  | nil => rfl
  | cons c chunks ih =>
    have hone : ((db.runs.filter fun r => !c.eof && c.ofRun r.key && db.eligible now deadline r).map fun r => (r, c)).map (·.2) =
        if db.dueChunk now deadline c = true then [c] else [] := by
      rw [List.map_map]
      generalize hf : (db.runs.filter fun r => !c.eof && c.ofRun r.key && db.eligible now deadline r) = found
      have hnodup : found.Nodup := by
        rw [← hf]
        exact (List.Nodup.of_map _ db.keys).filter _
      have hmem : ∀ r ∈ found, r ∈ db.runs ∧ c.ofRun r.key = true := by
        intro r hr
        rw [← hf, List.mem_filter] at hr
        simp only [Bool.and_eq_true] at hr
        exact ⟨hr.1, hr.2.1.2⟩
      have hdue : db.dueChunk now deadline c = true ↔ found ≠ [] := by
        rw [← hf, Tables.dueChunk, List.any_eq_true, Ne, List.filter_eq_nil_iff]
        push Not
        rfl
      match found, hnodup, hmem, hdue with
      | [], _, _, hdue => rw [if_neg fun h => hdue.1 h rfl]; rfl
      | [r], _, _, hdue => rw [if_pos (hdue.2 (by simp))]; rfl
      | r :: r' :: found, hnodup, hmem, _ =>
        obtain ⟨hr, hof⟩ := hmem r (List.mem_cons_self ..)
        obtain ⟨hr', hof'⟩ := hmem r' (List.mem_cons_of_mem _ (List.mem_cons_self ..))
        obtain rfl := db.eq_of_key hr hr' (ChunkRow.eq_of_ofRun hof hof')
        exact absurd (List.mem_cons_self ..) (List.nodup_cons.1 hnodup).1
    rw [List.flatMap_cons, List.map_append, ih, hone, List.filter_cons]
    split <;> rfl

theorem subperm_victimChunks : (db.victimChunks now deadline batchSize).Subperm (db.chunks.filter (db.dueChunk now deadline)) := by
  rw [← joined_chunks]
  exact subperm_taken _

/-- As many rows are deleted as a batch has. -/
theorem length_victimChunks_le (db : Tables) (now : Nat) (deadline : Deadline) (batchSize : Nat) :
    (db.victimChunks now deadline batchSize).length ≤ (db.deleteChunks now deadline batchSize).2 := by
  have hsub : (db.victimChunks now deadline batchSize).Subperm db.chunks := subperm_victimChunks.trans List.filter_sublist.subperm
  have hfilter := hsub.filter (· ∈ db.victimChunks now deadline batchSize)
  rw [List.filter_eq_self.2 fun c hc => decide_eq_true hc] at hfilter
  exact hfilter.length_le

/-- A batch deletes rows that are due, -/
theorem due_of_mem_victimChunks (h : c ∈ db.victimChunks now deadline batchSize) : db.dueChunk now deadline c = true := by
  obtain ⟨heof, r, hr, hof, he⟩ := mem_victimChunks h
  exact dueChunk_iff.2 ⟨heof, r, hr, hof, he⟩

/-- and all of them where it is not full. -/
theorem mem_victimChunks_of_due (hc : c ∈ db.chunks) (hdue : db.dueChunk now deadline c = true)
    (hlt : (db.deleteChunks now deadline batchSize).2 < batchSize) : c ∈ db.victimChunks now deadline batchSize := by
  have hshort := (length_victimChunks_le ..).trans_lt hlt
  unfold Tables.victimChunks at hshort ⊢
  rw [List.length_map] at hshort
  have hjoined : c ∈ (db.chunks.flatMap fun c =>
      (db.runs.filter fun r => !c.eof && c.ofRun r.key && db.eligible now deadline r).map fun r => (r, c)).map (·.2) := by
    rw [joined_chunks]
    exact List.mem_filter.2 ⟨hc, hdue⟩
  obtain ⟨x, hx, rfl⟩ := List.mem_map.1 hjoined
  exact List.mem_map_of_mem (f := fun x : RunRow × ChunkRow => x.2) (mem_taken hx hshort)

/-- The rows that a pass over streams finds due. -/
def Tables.dueChunks (db : Tables) (now : Nat) (deadline : Deadline) : Nat := db.chunks.countP (db.dueChunk now deadline)

theorem dueChunks_deleteChunks (db : Tables) (deadline : Deadline) (batchSize : Nat) {now' : Nat} (hle : now ≤ now') :
    (db.deleteChunks now deadline batchSize).2 + (db.deleteChunks now deadline batchSize).1.dueChunks now' deadline =
      db.dueChunks now' deadline := by
  have hcount := countP_deleted (l := db.chunks) (p := db.dueChunk now' deadline)
    (v := fun c => decide (c ∈ db.victimChunks now deadline batchSize))
    fun c _ hv => dueChunk_mono (due_of_mem_victimChunks (of_decide_eq_true hv)) hle
  simp only [← decide_not] at hcount
  exact hcount

/-- Of the rows due at the end of a pass it has deleted those that are not left; it stops early where nothing was due to
its last batch, and where it does not it has deleted as many as all its batches hold. -/
theorem pruneStreams_complete {now : Nat} (hclock : ∀ i, clock i ≤ now) {left batches deletedRows : Nat} {db db' : Tables}
    {result : StreamRetentionResult} (h : pruneStreams deadline batchSize clock left batches deletedRows db = (db', result)) :
    result.deletedRows + db'.dueChunks now deadline = deletedRows + db.dueChunks now deadline ∧
      (result.hitBatchLimit = false → db'.dueChunks (clock result.batches) deadline = 0) ∧
      (result.hitBatchLimit = true → deletedRows + left * batchSize ≤ result.deletedRows) := by
  induction left generalizing batches deletedRows db with
  | zero =>
    obtain ⟨rfl, rfl⟩ := Prod.mk.inj h
    refine ⟨rfl, ?_, ?_⟩
    · intro hl
      cases hl
    · intro
      rw [Nat.zero_mul]
      exact le_rfl
  | succ left ih =>
    have hbatch := dueChunks_deleteChunks db deadline batchSize (hclock batches)
    simp only [pruneStreams] at h
    split at h
    · rename_i hlt
      obtain ⟨rfl, rfl⟩ := Prod.mk.inj h
      refine ⟨?_, fun _ => ?_, fun h => by cases h⟩
      · rw [← hbatch, ← Nat.add_assoc]
        rfl
      · refine List.countP_eq_zero.2 fun c hc hdue => ?_
        obtain ⟨hc, hv⟩ := List.mem_filter.1 hc
        exact of_decide_eq_true hv (mem_victimChunks_of_due hc hdue hlt)
    · obtain ⟨hcount, hdone, hlimit⟩ := ih h
      refine ⟨by rw [hcount, ← hbatch, Nat.add_assoc], hdone, fun h => le_trans ?_ (hlimit h)⟩
      rw [Nat.succ_mul]
      omega

end Streams

/-! ## Runs -/

section Runs

variable {db db' : Tables} {now now' : Nat} {batchSize : Nat} {clock : Nat → Nat} {r : RunRow}

/-- The runs that a pass over runs finds due. -/
def Tables.dueRuns (db : Tables) (now : Nat) : Nat := db.runs.countP (db.eligible now .detailExpireAfter)

/-- A run is due to what is left exactly where it was due before. -/
theorem Pruned.eligible_eq {deadline : Deadline} (h : Pruned deadline now db db') (hr : r ∈ db'.runs) :
    db'.eligible now deadline r = db.eligible now deadline r := by
  rw [Bool.eq_iff_iff, eligible_iff hr, eligible_iff (h.runs r hr)]
  exact ⟨h.unprotected, h.still⟩

theorem pruned_batch (db : Tables) (now batchSize : Nat) :
    Pruned .detailExpireAfter now db ((db.deleteRuns (db.victimRuns now batchSize)).deleteOrphans now) :=
  (pruned_deleteRuns fun _ hk => mem_victimRuns hk).trans (pruned_deleteOrphans ..)

theorem mem_victimRuns_of_due (hr : r ∈ db.runs) (hdue : db.eligible now .detailExpireAfter r = true)
    (hlt : (db.victimRuns now batchSize).length < batchSize) : r.key ∈ db.victimRuns now batchSize := by
  unfold Tables.victimRuns at hlt ⊢
  rw [List.length_map] at hlt
  exact List.mem_map_of_mem (mem_taken (List.mem_filter.2 ⟨hr, hdue⟩) hlt)

theorem length_victimRuns_le (db : Tables) (now batchSize : Nat) : (db.victimRuns now batchSize).length ≤
    (db.runs.filter (·.key ∈ db.victimRuns now batchSize)).length := by
  have hsub : (db.victimRuns now batchSize).Subperm (db.runs.map (·.key)) :=
    (subperm_taken _).trans (List.filter_sublist.map _).subperm
  have hfilter := hsub.filter (· ∈ db.victimRuns now batchSize)
  rw [List.filter_eq_self.2 fun c hc => decide_eq_true hc, List.filter_map] at hfilter
  exact hfilter.length_le.trans (List.length_map _).le

theorem dueRuns_batch (db : Tables) (batchSize : Nat) (hle : now ≤ now') :
    (db.runs.filter (·.key ∈ db.victimRuns now batchSize)).length +
      ((db.deleteRuns (db.victimRuns now batchSize)).deleteOrphans now).dueRuns now' = db.dueRuns now' := by
  have hpruned := (pruned_batch db now batchSize).mono hle
  have hcount := countP_deleted (l := db.runs) (p := db.eligible now' .detailExpireAfter)
    (v := fun r => decide (r.key ∈ db.victimRuns now batchSize)) (by
      intro r hr hv
      obtain ⟨r', hr', hk, he⟩ := mem_victimRuns (of_decide_eq_true hv)
      obtain rfl := db.eq_of_key hr' hr hk
      exact (eligible_iff hr).2 (((eligible_iff hr).1 he).mono hle))
  simp only [← decide_not] at hcount
  rw [Tables.dueRuns, Tables.dueRuns, ← hcount]
  congr 1
  refine List.countP_congr fun r hr => ?_
  rw [hpruned.eligible_eq hr]

theorem pruneRuns_complete {now : Nat} (hclock : ∀ i, clock i ≤ now) {left batches deletedRuns : Nat} {db db' : Tables}
    {result : WorkflowRunRetentionResult} (h : pruneRuns batchSize clock left batches deletedRuns db = (db', result)) :
    result.deletedRuns + db'.dueRuns now = deletedRuns + db.dueRuns now ∧
      (result.hitBatchLimit = false → db'.dueRuns (clock result.batches) = 0) ∧
      (result.hitBatchLimit = true → deletedRuns + left * batchSize ≤ result.deletedRuns) := by
  induction left generalizing batches deletedRuns db with
  | zero =>
    obtain ⟨rfl, rfl⟩ := Prod.mk.inj h
    refine ⟨rfl, ?_, ?_⟩
    · intro hl
      cases hl
    · intro
      rw [Nat.zero_mul]
      exact le_rfl
  | succ left ih =>
    have hbatch := dueRuns_batch db batchSize (hclock batches)
    have hlength := length_victimRuns_le db (clock batches) batchSize
    simp only [pruneRuns] at h
    split at h
    · rename_i hlt
      obtain ⟨rfl, rfl⟩ := Prod.mk.inj h
      refine ⟨by rw [← hbatch, Nat.add_assoc], fun _ => ?_, fun h => by cases h⟩
      -- what is left and due was due to the batch, which took all that was
      refine List.countP_eq_zero.2 fun r hr hdue => ?_
      have hpruned := pruned_batch db (clock batches) batchSize
      rw [hpruned.eligible_eq hr] at hdue
      exact ((mem_deleteRuns_runs db _ r).1 hr).2 (mem_victimRuns_of_due (hpruned.runs r hr) hdue hlt)
    · obtain ⟨hcount, hdone, hlimit⟩ := ih h
      refine ⟨by rw [hcount, ← hbatch, Nat.add_assoc], hdone, fun h => le_trans ?_ (hlimit h)⟩
      rw [Nat.succ_mul]
      omega

end Runs

/-! ## Passes -/

/-- What a pass answers: how many rows it deleted, in how many batches, and whether these were all it may make. -/
structure Report where
  deleted : Nat
  batches : Nat
  hitBatchLimit : Bool
  lockAcquired : Bool
  deriving DecidableEq, Repr

def StreamRetentionResult.report (r : StreamRetentionResult) : Report := ⟨r.deletedRows, r.batches, r.hitBatchLimit, r.lockAcquired⟩

def WorkflowRunRetentionResult.report (r : WorkflowRunRetentionResult) : Report :=
  ⟨r.deletedRuns, r.batches, r.hitBatchLimit, r.lockAcquired⟩

def Pass.call (p : Pass) (locked : Bool) (clock : Nat → Nat) (db : Tables) : Except String (Tables × Report) :=
  match p with
  | .terminalStreams o => (pruneTerminalStreamChunks o locked clock db).map fun x => (x.1, x.2.report)
  | .expiredStreams o => (pruneExpiredStreamChunks o locked clock db).map fun x => (x.1, x.2.report)
  | .expiredRuns o => (pruneExpiredWorkflowRuns o locked clock db).map fun x => (x.1, x.2.report)

/-- How many rows are due to the pass. -/
def Pass.due (p : Pass) (db : Tables) (now : Nat) : Nat :=
  match p with
  | .terminalStreams _ | .expiredStreams _ => db.dueChunks now p.deadline
  | .expiredRuns _ => db.dueRuns now

/-- How many rows its batches hold. -/
def Pass.capacity : Pass → Nat
  | .terminalStreams o => o.maxBatches.toNat * o.batchSize.toNat
  | .expiredStreams o | .expiredRuns o => o.maxBatches.toNat * o.batchSize.toNat

theorem exists_of_map_eq_ok {ρ σ : Type} {f : ρ → σ} {x : Except String ρ} {y : σ} (h : x.map f = .ok y) : ∃ a, x = .ok a ∧ f a = y := by
  cases x with
  | error e => cases h
  | ok a => exact ⟨a, rfl, Except.ok.inj h⟩

theorem of_bind_eq_ok {ρ : Type} {x : Except String Unit} {f : Except String ρ} {y : ρ} (h : (x >>= fun _ => f) = .ok y) : f = .ok y := by
  cases x with
  | error e => cases h
  | ok u => exact h

/-- Of every pass on any tables, where nobody else writes meanwhile: the rows it counts are the rows that were due at its end
and are gone; if it does not answer that it hit its limit, nothing was due any more to its last batch; and if it does, as
many rows were due as its batches hold, and it deleted them. -/
theorem pass_complete (db : Tables) (p : Pass) {clock : Nat → Nat} {now : Nat} (hclock : ∀ i, clock i ≤ now) {db' : Tables}
    {report : Report} (h : p.call true clock db = .ok (db', report)) :
    report.deleted + p.due db' now = p.due db now ∧
      (report.hitBatchLimit = false → p.due db' (clock report.batches) = 0) ∧
      (report.hitBatchLimit = true → p.capacity ≤ report.deleted ∧ p.capacity ≤ p.due db now) ∧
      (p.due db now < p.capacity → report.hitBatchLimit = false) := by
  obtain ⟨hcount, hdone, hlimit⟩ : report.deleted + p.due db' now = p.due db now ∧
      (report.hitBatchLimit = false → p.due db' (clock report.batches) = 0) ∧
      (report.hitBatchLimit = true → p.capacity ≤ report.deleted) := by
    cases p with
    | terminalStreams o =>
      obtain ⟨x, hx, heq⟩ := exists_of_map_eq_ok h
      have hprune := of_bind_eq_ok (of_bind_eq_ok (of_bind_eq_ok hx))
      obtain ⟨rfl, rfl⟩ := Prod.mk.inj heq
      have hpass := pruneStreams_complete hclock (Except.ok.inj hprune)
      simp only [Nat.zero_add] at hpass
      exact hpass
    | expiredStreams o =>
      obtain ⟨x, hx, heq⟩ := exists_of_map_eq_ok h
      have hprune := of_bind_eq_ok (of_bind_eq_ok hx)
      obtain ⟨rfl, rfl⟩ := Prod.mk.inj heq
      have hpass := pruneStreams_complete hclock (Except.ok.inj hprune)
      simp only [Nat.zero_add] at hpass
      exact hpass
    | expiredRuns o =>
      obtain ⟨x, hx, heq⟩ := exists_of_map_eq_ok h
      have hprune := of_bind_eq_ok (of_bind_eq_ok hx)
      obtain ⟨rfl, rfl⟩ := Prod.mk.inj heq
      have hpass := pruneRuns_complete hclock (Except.ok.inj hprune)
      simp only [Nat.zero_add] at hpass
      exact hpass
  refine ⟨hcount, hdone, fun hl => ⟨hlimit hl, by have := hlimit hl; omega⟩, fun hlt => ?_⟩
  by_contra hl
  have := hlimit (by simpa using hl)
  omega

/-- Three batches of one run: the root and its child are due and go, and the third batch finds nothing. -/
theorem pass_complete_family : ∃ db' report, (Pass.expiredRuns ⟨1, 3⟩).call true (fun _ => 40) family = .ok (db', report) ∧
    report = ⟨2, 3, false, true⟩ ∧ (Pass.expiredRuns ⟨1, 3⟩).due db' 40 = 0 := by
  have hreport : ((Pass.expiredRuns ⟨1, 3⟩).call true (fun _ => 40) family).toOption.map (·.2) = some ⟨2, 3, false, true⟩ := by decide
  obtain ⟨x, hx, hr⟩ := Option.map_eq_some_iff.1 hreport
  have hcall : (Pass.expiredRuns ⟨1, 3⟩).call true (fun _ => 40) family = .ok (x.1, ⟨2, 3, false, true⟩) := by
    rw [← hr]
    revert hx
    cases (Pass.expiredRuns ⟨1, 3⟩).call true (fun _ => 40) family with
    | error e => exact fun hx => by cases hx
    | ok y => exact fun hx => by cases hx; rfl
  exact ⟨x.1, _, hcall, rfl, (pass_complete family _ (fun _ => le_rfl) hcall).2.1 rfl⟩

end WorkflowWorld.Retention
