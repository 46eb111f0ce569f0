/-
What the dead letter table promises: a terminal run has no unresolved letter, and a quarantined run
has one. Both hold as far as the row lock of the run reaches: a delivery's letter is inserted without
it, and a quarantine looks for a letter before it has it.
-/
import WorkflowWorld.Dispatcher.DeadLetters

namespace WorkflowWorld.Dispatcher.Host

variable {s s' : Host} {e : HostEvent} {k : RunKey}

/-! ## Rows under a lock -/

/-- A writer holds the lock of every run it has written. -/
def Locks (s : Host) : Prop := ∀ j k status, (s.writers j).updates.lookup k = some status → s.lock k = some (.writer j)

theorem applied_key (stamp : Nat) (updates : List (RunKey × RunStatus)) (run : HostRun) :
    (applied stamp updates run).key = run.key := by
  unfold applied
  split <;> rfl

/-- The steps of others leave a call and a writer as they are. -/
theorem calls_of_ne (h : step e s = some s') {i : Nat} (hne : e.actor ≠ some (.call i)) : s'.calls i = s.calls i := by
  have hset : ∀ (s₁ : Host) (i' : Nat) (c : QuarantineCall), some (Owner.call i') ≠ some (.call i) →
      (s₁.setCall i' c).calls i = s₁.calls i := fun s₁ i' c hi =>
    Function.update_of_ne (fun heq => hi (by rw [heq])) _ _
  cases e <;> simp only [step] at h <;> (repeat' split at h) <;> cases h <;>
    first | rfl | (rw [hset _ _ _ hne]; rfl) | (rw [hset _ _ _ hne])

theorem writers_of_ne (h : step e s = some s') {j : Nat} (hne : e.actor ≠ some (.writer j)) :
    s'.writers j = s.writers j := by
  have hset : ∀ (s₁ : Host) (j' : Nat) (w : Writer), some (Owner.writer j') ≠ some (.writer j) →
      (s₁.setWriter j' w).writers j = s₁.writers j := fun s₁ j' w hj =>
    Function.update_of_ne (fun heq => hj (by rw [heq])) _ _
  cases e <;> simp only [step] at h <;> (repeat' split at h) <;> cases h <;>
    first | rfl | (rw [hset _ _ _ hne]; rfl) | (rw [hset _ _ _ hne])

/-- A lock is held until its transaction ends. -/
theorem lock_of_step (h : step e s = some s') {owner : Owner} (hl : s.lock k = some owner) (hne : e.ends ≠ some owner) :
    s'.lock k = some owner := by
  have hrel : ∀ (s₁ : Host) (owner' : Owner), s₁.lock k = some owner → some owner' ≠ some owner →
      (s₁.release owner').lock k = some owner := fun s₁ owner' h₁ h₂ =>
    lock_release h₁ fun heq => h₂ (by rw [heq])
  cases e with
  | set j k' status =>
    simp only [step] at h
    split at h
    · split at h
      · rename_i hf
        cases h
        exact lock_acquire hl hf
      · cases h
    · cases h
  | lockRow i =>
    simp only [step] at h
    split at h
    · split at h
      · rename_i hf
        split at h
        · split at h <;> cases h
          · exact lock_acquire hl hf
          · exact hl
        · cases h
          exact hl
      · cases h
    · cases h
  | commit j =>
    simp only [step] at h
    split at h <;> cases h
    exact hrel _ _ hl hne
  | abort j =>
    cases h
    exact hrel _ _ hl hne
  | return_ i =>
    simp only [step] at h
    split at h <;> cases h
    exact hrel _ _ hl hne
  | throw_ i error =>
    simp only [step] at h
    split at h <;> cases h <;> exact hrel _ _ hl hne
  | _ =>
    simp only [step] at h
    (repeat' split at h) <;> cases h <;> exact hl

/-- A run stays as it is under a lock that the step does not end. -/
theorem runs_of_step (hs : Locks s) (h : step e s = some s') {owner : Owner} {run : HostRun}
    (hl : s.lock run.key = some owner) (hne : e.ends ≠ some owner) (hr : run ∈ s.runs) : run ∈ s'.runs := by
  cases e with
  | create new =>
    simp only [step] at h
    split at h <;> cases h
    exact List.mem_append_left _ hr
  | delete k' =>
    simp only [step] at h
    split at h
    · rename_i hfree
      cases h
      have hkk : run.key ≠ k' := by
        rintro rfl
        rw [hl] at hfree
        cases hfree
      exact List.mem_filter.2 ⟨hr, by simpa using hkk⟩
    · cases h
  | commit j =>
    simp only [step] at h
    split at h <;> cases h
    -- What the writer has written is under its own lock.
    have hnone : (s.writers j).updates.lookup run.key = none := by
      by_contra hsome
      obtain ⟨status, hst⟩ := Option.ne_none_iff_exists'.1 hsome
      rw [hs j run.key status hst] at hl
      exact hne hl
    exact List.mem_map.2 ⟨run, hr, by rw [applied, hnone]⟩
  | _ =>
    simp only [step] at h
    (repeat' split at h) <;> cases h <;> exact hr

/-- A row is as it was, or stamped anew. -/
theorem stamp_of_step (h : step e s = some s') : s.stamp ≤ s'.stamp ∧
    ∀ run ∈ s'.runs, run ∈ s.runs ∨ s.stamp ≤ run.version ∧ run.version < s'.stamp := by
  cases e with
  | create new =>
    simp only [step] at h
    split at h <;> cases h
    refine ⟨Nat.le_succ _, fun run hr => ?_⟩
    rcases List.mem_append.1 hr with hr | hr
    · exact .inl hr
    · rw [List.mem_singleton.1 hr]
      exact .inr ⟨Nat.le_refl _, Nat.lt_succ_self _⟩
  | delete k' =>
    simp only [step] at h
    split at h <;> cases h
    exact ⟨Nat.le_refl _, fun run hr => .inl (List.mem_of_mem_filter hr)⟩
  | commit j =>
    simp only [step] at h
    split at h <;> cases h
    refine ⟨Nat.le_succ _, fun run hr => ?_⟩
    obtain ⟨run', hr', rfl⟩ := List.mem_map.1 hr
    unfold applied
    split
    · exact .inr ⟨Nat.le_refl _, Nat.lt_succ_self _⟩
    · exact .inl hr'
  | _ =>
    simp only [step] at h
    (repeat' split at h) <;> cases h <;> exact ⟨Nat.le_refl _, fun run hr => .inl hr⟩

/-- The runs' keys are a primary key. -/
def Keyed (s : Host) : Prop := (s.runs.map (·.key)).Nodup

theorem Keyed.eq (h : Keyed s) {run run' : HostRun} (hr : run ∈ s.runs) (hr' : run' ∈ s.runs)
    (hk : run.key = run'.key) : run = run' := List.inj_on_of_nodup_map h hr hr' hk

theorem Keyed.step (hs : Keyed s) (h : Host.step e s = some s') : Keyed s' := by
  cases e with
  | create new =>
    simp only [Host.step] at h
    split at h
    · rename_i hok
      cases h
      simp only [Bool.and_eq_true, Bool.not_eq_true', List.any_eq_false, beq_iff_eq] at hok
      unfold Keyed
      rw [List.map_append, List.nodup_append]
      refine ⟨hs, by simp, fun k hk k' hk' => ?_⟩
      obtain ⟨run, hr, rfl⟩ := List.mem_map.1 hk
      rw [List.map_singleton, List.mem_singleton] at hk'
      rw [hk']
      exact hok.2 run hr
    · cases h
  | delete k' =>
    simp only [Host.step] at h
    split at h <;> cases h
    exact hs.sublist (List.filter_sublist.map _)
  | commit j =>
    simp only [Host.step] at h
    split at h <;> cases h
    unfold Keyed
    simp only [setWriter_runs, release_runs, List.map_map]
    have hmap : (s.runs.map ((·.key) ∘ applied s.stamp (s.writers j).updates)) = s.runs.map (·.key) :=
      List.map_congr_left fun run _ => applied_key _ _ run
    rw [hmap]
    exact hs
  | _ =>
    simp only [Host.step] at h
    (repeat' split at h) <;> cases h <;> exact hs

theorem Locks.step (hs : Locks s) (h : Host.step e s = some s') : Locks s' := by
  intro j k status hup
  by_cases hact : e.actor = some (.writer j)
  · cases e with
    | set j' k' status' =>
      obtain rfl : j' = j := by simpa [HostEvent.actor] using hact
      simp only [Host.step] at h
      split at h
      · split at h
        · rename_i hf
          cases h
          simp only [setWriter_writers_self, List.lookup_cons] at hup
          split at hup
          · rename_i hkk
            rw [beq_iff_eq] at hkk
            rw [setWriter_lock, hkk, acquire_lock_self]
          · exact lock_acquire (hs j' k status hup) hf
        · cases h
      · cases h
    | fire j' =>
      obtain rfl : j' = j := by simpa [HostEvent.actor] using hact
      simp only [Host.step] at h
      split at h <;> cases h
      simp only [setWriter_writers_self] at hup
      exact hs j' k status hup
    | commit j' =>
      obtain rfl : j' = j := by simpa [HostEvent.actor] using hact
      simp only [Host.step] at h
      split at h <;> cases h
      simp only [setWriter_writers_self] at hup
      cases hup
    | abort j' =>
      obtain rfl : j' = j := by simpa [HostEvent.actor] using hact
      cases h
      simp only [setWriter_writers_self] at hup
      cases hup
    | _ => cases hact
  · rw [writers_of_ne h hact] at hup
    exact lock_of_step h (hs j k status hup) fun hends => hact (HostEvent.actor_of_ends hends)

/-! ## Letters -/

/-- The letter, as it was or resolved. -/
def Kept (letter letter' : Letter) : Prop := letter' = letter ∨ letter' = { letter with resolved := true }

/-- Letters are kept in their places, and new ones come from a delivery or with the end of a
quarantine call. -/
theorem letters_of_step (h : step e s = some s') : ∃ f new, (∀ n letter, Kept letter (f n letter)) ∧
    s'.letters = s.letters.mapIdx f ++ new ∧
    (new = [] ∨ (∃ letter, e = .onDeadLetter letter ∧ new = [letter] ∧ letter.jobName = some flowJobName ∧
      letter.insertedBy = none) ∨
      ∃ i o reconciled, e = .return_ i ∧ s.calls i = .inserting o [] new reconciled ∧
        s'.calls i = .returned reconciled) := by
  have hsame : ∀ {letters : List Letter}, letters = s.letters → ∃ f new, (∀ n letter, Kept letter (f n letter)) ∧
      letters = s.letters.mapIdx f ++ new ∧ new = [] := fun hl =>
    ⟨fun _ letter => letter, [], fun _ _ => .inl rfl, hl.trans (List.ext_getElem? fun n => by simp), rfl⟩
  cases e with
  | commit j =>
    simp only [step] at h
    split at h <;> cases h
    refine ⟨resolvedBy (s.writers j).fired, [], fun n letter => ?_, (List.append_nil _).symm, .inl rfl⟩
    unfold resolvedBy
    split
    · exact .inr rfl
    · exact .inl rfl
  | resolve n =>
    cases h
    refine ⟨fun m letter => if m = n then { letter with resolved := true } else letter, [], fun m letter => ?_,
      (List.append_nil _).symm, .inl rfl⟩
    dsimp only
    split
    · exact .inr rfl
    · exact .inl rfl
  | onDeadLetter letter =>
    simp only [step] at h
    split at h
    · rename_i hl
      cases h
      obtain ⟨f, -, hf, heq, rfl⟩ := hsame rfl
      rw [List.append_nil] at heq
      exact ⟨f, [letter], hf, by rw [← heq], .inr (.inl ⟨letter, rfl, rfl, hl.1, hl.2.2⟩)⟩
    · cases h
  | return_ i =>
    simp only [step] at h
    split at h
    · rename_i o new reconciled hc
      cases h
      obtain ⟨f, -, hf, heq, rfl⟩ := hsame rfl
      rw [List.append_nil] at heq
      exact ⟨f, new, hf, by rw [← heq]; rfl, .inr (.inr ⟨i, o, reconciled, rfl, hc, by simp⟩)⟩
    · cases h
  | _ =>
    simp only [step] at h
    (repeat' split at h) <;> cases h <;>
      (obtain ⟨f, new, hf, heq, hn⟩ := hsame rfl
       exact ⟨f, new, hf, heq, .inl hn⟩)

/-! ## Quarantine calls -/

/-- The read has found the row in its snapshot: while the row has the version it had there, it is that
row. -/
structure Found (s : Host) (o : ReconcileWorkflowRunsOptions) (run : HostRun) : Prop where
  tenant : run.tenantId = o.tenantId
  active : run.status.isTerminal = false
  old : run.version < s.stamp
  same : ∀ run' ∈ s.runs, run'.key = run.key → run'.version = run.version → run' = run

/-- The call has the row's lock, and the row is as it was read. -/
structure Held (s : Host) (i : Nat) (o : ReconcileWorkflowRunsOptions) (run : HostRun) : Prop where
  mem : run ∈ s.runs
  lock : s.lock run.key = some (.call i)
  tenant : run.tenantId = o.tenantId
  active : run.status.isTerminal = false

/-- The rows a call has locked, and what it has made of them. -/
def Holds (s : Host) (i : Nat) (held : List HostRun) : QuarantineCall → Prop
  | .locking o left rows => held = rows ∧ ((left ++ rows).map (·.key)).Nodup ∧ (∀ run ∈ left, Found s o run) ∧
      ∀ run ∈ rows, Held s i o run
  | .inserting o left letters reconciled => ∃ done, held = done ++ left ∧ ((done ++ left).map (·.key)).Nodup ∧
      letters = done.map (o.letter i) ∧ reconciled = done.map (·.reconciled) ∧ ∀ run ∈ done ++ left, Held s i o run
  | _ => held = []

/-- What no condition is needed for. -/
structure Base (s : Host) : Prop where
  locks : Locks s
  keyed : Keyed s
  stamped : ∀ run ∈ s.runs, run.version < s.stamp
  calls : ∀ i, ∃ held, Holds s i held (s.calls i)

theorem Base.init : Base {} where
  locks j k status h := by cases h
  keyed := List.nodup_nil
  stamped := by simp
  calls i := ⟨[], rfl⟩

theorem Found.step {o : ReconcileWorkflowRunsOptions} {run : HostRun} (hf : Found s o run) (h : step e s = some s') :
    Found s' o run where
  tenant := hf.tenant
  active := hf.active
  old := hf.old.trans_le (stamp_of_step h).1
  same run' hr' hk hv := by
    rcases (stamp_of_step h).2 run' hr' with hr | ⟨hge, -⟩
    · exact hf.same run' hr hk hv
    · exact absurd hf.old (by omega)

theorem Held.step {i : Nat} {o : ReconcileWorkflowRunsOptions} {run : HostRun} (hh : Held s i o run) (hs : Locks s)
    (h : step e s = some s') (hne : e.ends ≠ some (.call i)) : Held s' i o run where
  mem := runs_of_step hs h hh.lock hne hh.mem
  lock := lock_of_step h hh.lock hne
  tenant := hh.tenant
  active := hh.active

theorem Holds.step {i : Nat} {held : List HostRun} {c : QuarantineCall} (hh : Holds s i held c) (hs : Locks s)
    (h : step e s = some s') (hne : e.ends ≠ some (.call i)) : Holds s' i held c := by
  cases c with
  | locking o left rows =>
    obtain ⟨heq, hnd, hleft, hrows⟩ := hh
    exact ⟨heq, hnd, fun run hr => (hleft run hr).step h, fun run hr => (hrows run hr).step hs h hne⟩
  | inserting o left letters reconciled =>
    obtain ⟨done, heq, hnd, hl, hrec, hrows⟩ := hh
    exact ⟨done, heq, hnd, hl, hrec, fun run hr => (hrows run hr).step hs h hne⟩
  | _ => exact hh

/-- The rows of a call grow only by one that its read has locked: a row as it was in the snapshot, or
one that the predicate holds of now. -/
theorem holds_of_step (hs : Base s) (h : step e s = some s') {i : Nat} {held : List HostRun}
    (hh : Holds s i held (s.calls i)) : ∃ held', Holds s' i held' (s'.calls i) ∧
      ∀ run ∈ held', run ∈ held ∨ (∃ o left rows found, e = .lockRow i ∧ s.calls i = .locking o (found :: left) rows ∧
        s.run found.key = some run ∧ (run.version = found.version ∨ o.wants s.letters run = true)) := by
  by_cases hact : e.actor = some (.call i)
  swap
  · refine ⟨held, ?_, fun run hr => .inl hr⟩
    rw [calls_of_ne h hact]
    exact hh.step hs.locks h fun hends => hact (HostEvent.actor_of_ends hends)
  have hstep := h
  cases e with
  | quarantine i' o =>
    obtain rfl : i' = i := by simpa [HostEvent.actor] using hact
    simp only [step] at h
    split at h <;> cases h
    refine ⟨[], ?_, by simp⟩
    rw [setCall_calls_self]
    cases o.prepare with
    | error e => rfl
    | ok r => cases r <;> rfl
  | read i' found =>
    obtain rfl : i' = i := by simpa [HostEvent.actor] using hact
    simp only [step] at h
    split at h
    · rename_i o hc
      split at h
      · rename_i hperm
        cases h
        have hperm := List.isPerm_iff.1 hperm
        have hsub : ∀ run ∈ found, run ∈ s.runs ∧ o.wants s.letters run = true := fun run hr =>
          List.mem_filter.1 (hperm.mem_iff.1 hr)
        refine ⟨[], ?_, by simp⟩
        rw [setCall_calls_self]
        refine ⟨rfl, ?_, fun run hr => ?_, by simp⟩
        · rw [List.append_nil]
          exact (hperm.map _).nodup_iff.2 (hs.keyed.sublist (List.filter_sublist.map _))
        · obtain ⟨hmem, hw⟩ := hsub run hr
          simp only [ReconcileWorkflowRunsOptions.wants, Bool.and_eq_true, beq_iff_eq, Bool.not_eq_true'] at hw
          exact ⟨hw.1.1.1, hw.1.1.2, hs.stamped run hmem, fun run' hr' hk _ => hs.keyed.eq hr' hmem hk⟩
      · cases h
    · cases h
  | lockRow i' =>
    obtain rfl : i' = i := by simpa [HostEvent.actor] using hact
    simp only [step] at h
    split at h
    · rename_i o found left rows hc
      rw [hc] at hh
      obtain ⟨rfl, hnd, hleft, hrows⟩ := hh
      have hends : HostEvent.ends (.lockRow i') ≠ some (.call i') := fun h => by cases h
      have hleft' : ∀ run ∈ left, Found s' o run := fun run hr => (hleft run (List.mem_cons_of_mem _ hr)).step hstep
      have hrows' : ∀ run ∈ held, Held s' i' o run := fun run hr => (hrows run hr).step hs.locks hstep hends
      have hskip : Holds s' i' held (.locking o left held) := by
        rw [List.cons_append, List.map_cons, List.nodup_cons] at hnd
        exact ⟨rfl, hnd.2, hleft', hrows'⟩
      split at h
      · split at h
        · rename_i run hrun
          have hmem : run ∈ s.runs := List.mem_of_find?_eq_some hrun
          have hkey : run.key = found.key := by simpa using List.find?_some hrun
          split at h
          · have hcall : s'.calls i' = .locking o left
                (if run.version == found.version || o.wants s.letters run then held ++ [run] else held) := by
              rw [← Option.some.inj h, setCall_calls_self]
            have hlock : s'.lock run.key = some (.call i') := by
              rw [← Option.some.inj h, setCall_lock, hkey, acquire_lock_self]
            have hmem' : run ∈ s'.runs := by
              rw [← Option.some.inj h]
              exact hmem
            rw [hcall]
            split
            · rename_i hkept
              rw [Bool.or_eq_true, beq_iff_eq] at hkept
              have hok : run.tenantId = o.tenantId ∧ run.status.isTerminal = false := by
                rcases hkept with hv | hw
                · have hf := hleft found List.mem_cons_self
                  rw [hf.same run hmem hkey hv]
                  exact ⟨hf.tenant, hf.active⟩
                · simp only [ReconcileWorkflowRunsOptions.wants, Bool.and_eq_true, beq_iff_eq, Bool.not_eq_true'] at hw
                  exact hw.1.1
              refine ⟨held ++ [run], ⟨rfl, ?_, hleft', fun r hr => ?_⟩, fun r hr => ?_⟩
              · rw [List.cons_append, List.map_cons, ← hkey] at hnd
                rw [← List.append_assoc, List.map_append, List.map_singleton]
                exact (List.perm_append_singleton _ _).nodup_iff.2 hnd
              · rcases List.mem_append.1 hr with hr | hr
                · exact hrows' r hr
                · rw [List.mem_singleton.1 hr]
                  exact ⟨hmem', hlock, hok.1, hok.2⟩
              · rcases List.mem_append.1 hr with hr | hr
                · exact .inl hr
                · rw [List.mem_singleton.1 hr]
                  exact .inr ⟨o, left, held, found, rfl, hc, hrun, hkept⟩
            · exact ⟨held, hskip, fun r hr => .inl hr⟩
          · cases h
            rw [setCall_calls_self]
            exact ⟨held, hskip, fun r hr => .inl hr⟩
        · cases h
          rw [setCall_calls_self]
          exact ⟨held, hskip, fun r hr => .inl hr⟩
      · cases h
    · cases h
  | answer i' =>
    obtain rfl : i' = i := by simpa [HostEvent.actor] using hact
    simp only [step] at h
    split at h
    · rename_i o rows hc
      cases h
      rw [hc] at hh
      obtain ⟨rfl, hnd, -, hrows⟩ := hh
      rw [setCall_calls_self]
      refine ⟨held, ⟨[], rfl, hnd, rfl, rfl, fun r hr => ?_⟩, fun r hr => .inl hr⟩
      exact (hrows r hr).step hs.locks hstep fun h => by cases h
    · cases h
  | insert i' =>
    obtain rfl : i' = i := by simpa [HostEvent.actor] using hact
    simp only [step] at h
    split at h
    · rename_i o run left letters reconciled hc
      cases h
      rw [hc] at hh
      obtain ⟨done, rfl, hnd, rfl, rfl, hrows⟩ := hh
      rw [setCall_calls_self]
      have hsplit : done ++ run :: left = done ++ [run] ++ left := by simp
      refine ⟨done ++ run :: left, ⟨done ++ [run], hsplit, ?_, by simp, by simp, fun r hr => ?_⟩, fun r hr => .inl hr⟩
      · rwa [← hsplit]
      · rw [← hsplit] at hr
        exact (hrows r hr).step hs.locks hstep fun h => by cases h
    · cases h
  | return_ i' =>
    obtain rfl : i' = i := by simpa [HostEvent.actor] using hact
    simp only [step] at h
    split at h <;> cases h
    rw [setCall_calls_self]
    exact ⟨[], rfl, by simp⟩
  | throw_ i' error =>
    obtain rfl : i' = i := by simpa [HostEvent.actor] using hact
    simp only [step] at h
    split at h <;> cases h <;> rw [setCall_calls_self] <;> exact ⟨[], rfl, by simp⟩
  | _ => cases hact

theorem Base.step (hs : Base s) (h : Host.step e s = some s') : Base s' where
  locks := hs.locks.step h
  keyed := hs.keyed.step h
  stamped run hr := by
    rcases (stamp_of_step h).2 run hr with hr | ⟨-, hlt⟩
    · exact (hs.stamped run hr).trans_le (stamp_of_step h).1
    · exact hlt
  calls i := by
    obtain ⟨held, hh⟩ := hs.calls i
    obtain ⟨held', hh', -⟩ := holds_of_step hs h hh
    exact ⟨held', hh'⟩

/-! ## One quarantine letter per run -/

/-- An unresolved letter of the run that a quarantine made. -/
def quarantines (k : RunKey) (letter : Letter) : Bool := letter.outstanding k && letter.byQuarantine

/-- No quarantine letter of a run has been committed since the snapshot of a read, when the read gets
the lock of the run's row and finds the row as it was. -/
def noneSinceSnapshot : HostEvent → Host → Bool
  | .lockRow i, s =>
    match s.calls i with
    | .locking _ (found :: _) _ =>
      (s.run found.key).all fun run => run.version != found.version || !s.letters.any (quarantines run.key)
    | _ => true
  | _, _ => true

/-- What quarantining promises of a committed state. -/
structure OneLetter (s : Host) : Prop where
  unique : ∀ k, (s.letters.filter (quarantines k)).length ≤ 1
  reported : ∀ i reconciled, s.calls i = .returned reconciled →
    (s.letters.filter (·.insertedBy == some i)).map (·.runId) = reconciled.map fun run => some run.runId
  failed : ∀ i error, s.calls i = .threw error → ∀ letter ∈ s.letters, letter.insertedBy ≠ some i

theorem quarantines_of_kept {letter letter' : Letter} (hk : Kept letter letter') (h : quarantines k letter' = true) :
    quarantines k letter = true := by
  rcases hk with rfl | rfl
  · exact h
  · simp [quarantines, Letter.outstanding] at h

theorem insertedBy_of_kept {letter letter' : Letter} (hk : Kept letter letter') :
    letter'.insertedBy = letter.insertedBy ∧ letter'.runId = letter.runId := by
  rcases hk with rfl | rfl <;> exact ⟨rfl, rfl⟩

theorem quarantines_letter {o : ReconcileWorkflowRunsOptions} {i : Nat} {run : HostRun}
    (ht : run.tenantId = o.tenantId) : quarantines k (o.letter i run) = true ↔ run.key = k := by
  simp [quarantines, Letter.outstanding, Letter.isOf, Letter.byQuarantine, ReconcileWorkflowRunsOptions.letter,
    HostRun.key, Prod.ext_iff, ht]

section MapIdx

variable {α β : Type} {f : Nat → α → α} {p : α → Bool} {l : List α}

theorem length_filter_mapIdx_le (hp : ∀ n a, p (f n a) = true → p a = true) :
    ((l.mapIdx f).filter p).length ≤ (l.filter p).length := by
  induction l generalizing f with
  | nil => simp
  | cons a l ih =>
    have ih := ih (f := fun n => f (n + 1)) fun n a => hp (n + 1) a
    rw [List.mapIdx_cons]
    by_cases ha : p (f 0 a)
    · rw [List.filter_cons_of_pos ha, List.filter_cons_of_pos (hp 0 a ha)]
      simpa using ih
    · rw [List.filter_cons_of_neg ha]
      exact ih.trans ((List.sublist_cons_self a l).filter p).length_le

theorem map_filter_mapIdx {g : α → β} (hp : ∀ n a, p (f n a) = p a) (hg : ∀ n a, g (f n a) = g a) :
    ((l.mapIdx f).filter p).map g = (l.filter p).map g := by
  induction l generalizing f with
  | nil => simp
  | cons a l ih =>
    have ih := ih (f := fun n => f (n + 1)) (fun n a => hp (n + 1) a) fun n a => hg (n + 1) a
    rw [List.mapIdx_cons]
    by_cases ha : p a
    · rw [List.filter_cons_of_pos (by rw [hp]; exact ha), List.filter_cons_of_pos ha, List.map_cons, List.map_cons, hg, ih]
    · rw [List.filter_cons_of_neg (by rw [hp]; exact ha), List.filter_cons_of_neg ha, ih]

theorem mem_mapIdx_kept {letters : List Letter} {f : Nat → Letter → Letter} (hf : ∀ n letter, Kept letter (f n letter))
    {letter' : Letter} (h : letter' ∈ letters.mapIdx f) : ∃ letter ∈ letters, Kept letter letter' := by
  obtain ⟨n, hn, rfl⟩ := List.mem_mapIdx.1 h
  exact ⟨letters[n], List.getElem_mem hn, hf n _⟩

end MapIdx

/-- The letters that a call has inserted are the ones it reports. -/
def Inserted (s : Host) (i : Nat) : QuarantineCall → Prop
  | .returned reconciled =>
    (s.letters.filter (·.insertedBy == some i)).map (·.runId) = reconciled.map fun run => some run.runId
  | _ => ∀ letter ∈ s.letters, letter.insertedBy ≠ some i

structure Quarantined (s : Host) : Prop where
  base : Base s
  unique : ∀ k, (s.letters.filter (quarantines k)).length ≤ 1
  calls : ∀ i, ∃ held, Holds s i held (s.calls i) ∧ ∀ run ∈ held, ∀ letter ∈ s.letters, ¬ quarantines run.key letter = true
  inserted : ∀ i, Inserted s i (s.calls i)

theorem Quarantined.init : Quarantined {} where
  base := .init
  unique k := Nat.zero_le 1
  calls i := ⟨[], rfl, by simp⟩
  inserted i := by simp [Inserted]

/-- The letters of a call that is about to return. -/
theorem Quarantined.returning (hs : Quarantined s) {i : Nat} {o : ReconcileWorkflowRunsOptions} {new : List Letter}
    {reconciled : List ReconciledWorkflowRun} (hc : s.calls i = .inserting o [] new reconciled) :
    ∃ done : List HostRun, (done.map (·.key)).Nodup ∧ new = done.map (o.letter i) ∧
      reconciled = done.map (·.reconciled) ∧ ∀ run ∈ done, Held s i o run ∧
        ∀ letter ∈ s.letters, ¬ quarantines run.key letter = true := by
  obtain ⟨held, hh, hclean⟩ := hs.calls i
  rw [hc] at hh
  obtain ⟨done, rfl, hnd, hl, hrec, hrows⟩ := hh
  rw [List.append_nil] at hnd hrows hclean
  exact ⟨done, hnd, hl, hrec, fun run hr => ⟨hrows run hr, hclean run hr⟩⟩

theorem Holds.held {i : Nat} {held : List HostRun} {c : QuarantineCall} (h : Holds s i held c) {run : HostRun}
    (hr : run ∈ held) : ∃ o, Held s i o run := by
  cases c with
  | locking o left rows =>
    obtain ⟨rfl, -, -, hrows⟩ := h
    exact ⟨o, hrows run hr⟩
  | inserting o left letters reconciled =>
    obtain ⟨done, rfl, -, -, -, hrows⟩ := h
    exact ⟨o, hrows run hr⟩
  | _ =>
    obtain rfl : held = [] := h
    cases hr

theorem not_quarantines_of_jobName {letter : Letter} (h : letter.jobName = some flowJobName) :
    ¬ quarantines k letter = true := by
  have hne : letter.byQuarantine = false := by
    rw [Letter.byQuarantine, h]
    decide
  simp [quarantines, hne]

theorem length_filter_letters {o : ReconcileWorkflowRunsOptions} {i : Nat} {done : List HostRun}
    (hnd : (done.map (·.key)).Nodup) (ht : ∀ run ∈ done, run.tenantId = o.tenantId) (k : RunKey) :
    ((done.map (o.letter i)).filter (quarantines k)).length ≤ 1 := by
  have hcount : ((done.map (o.letter i)).filter (quarantines k)).length = (done.map (·.key)).count k := by
    rw [← List.countP_eq_length_filter, List.count, List.countP_map, List.countP_map]
    refine List.countP_congr fun run hr => ?_
    simp only [Function.comp, quarantines_letter (ht run hr), beq_iff_eq]
  rw [hcount]
  exact List.nodup_iff_count_le_one.1 hnd k

theorem Quarantined.unique_step (hs : Quarantined s) (h : step e s = some s') (k : RunKey) :
    (s'.letters.filter (quarantines k)).length ≤ 1 := by
  obtain ⟨f, new, hf, heq, hnew⟩ := letters_of_step h
  have hold : ((s.letters.mapIdx f).filter (quarantines k)).length ≤ (s.letters.filter (quarantines k)).length :=
    length_filter_mapIdx_le fun n letter => quarantines_of_kept (hf n letter)
  have hone := hs.unique k
  rw [heq, List.filter_append, List.length_append]
  rcases hnew with rfl | ⟨letter, -, rfl, hjob, -⟩ | ⟨i, o, reconciled, -, hc, -⟩
  · simpa using hold.trans hone
  · rw [List.filter_cons_of_neg (not_quarantines_of_jobName hjob)]
    simpa using hold.trans hone
  · obtain ⟨done, hnd, rfl, -, hheld⟩ := hs.returning hc
    have hle := length_filter_letters (i := i) hnd (fun run hr => (hheld run hr).1.tenant) k
    by_cases hk : ∃ run ∈ done, run.key = k
    · -- A run that is about to get its letter has none.
      obtain ⟨run, hr, rfl⟩ := hk
      have hzero : s.letters.filter (quarantines run.key) = [] :=
        List.filter_eq_nil_iff.2 fun letter hl => (hheld run hr).2 letter hl
      rw [hzero, List.length_nil] at hold
      omega
    · have hzero : (done.map (o.letter i)).filter (quarantines k) = [] := by
        refine List.filter_eq_nil_iff.2 fun letter hl hq => hk ?_
        obtain ⟨run, hr, rfl⟩ := List.mem_map.1 hl
        exact ⟨run, hr, (quarantines_letter (hheld run hr).1.tenant).1 hq⟩
      rw [hzero, List.length_nil]
      omega

/-- When a read has locked a row, no quarantine letter of its run is committed. -/
theorem none_of_locked {i : Nat} {o : ReconcileWorkflowRunsOptions} {left rows : List HostRun} {found run : HostRun}
    (hcond : noneSinceSnapshot (.lockRow i) s = true) (hc : s.calls i = .locking o (found :: left) rows)
    (hrun : s.run found.key = some run) (hkept : run.version = found.version ∨ o.wants s.letters run = true) :
    ∀ letter ∈ s.letters, ¬ quarantines run.key letter = true := by
  intro letter hl hq
  rcases hkept with hv | hw
  · simp only [noneSinceSnapshot, hc, hrun, Option.all_some, hv, bne_self_eq_false, Bool.false_or,
      Bool.not_eq_true', List.any_eq_false] at hcond
    exact hcond letter hl hq
  · simp only [ReconcileWorkflowRunsOptions.wants, Bool.and_eq_true, Bool.not_eq_true', List.any_eq_false] at hw
    rw [quarantines, Bool.and_eq_true] at hq
    exact hw.2 letter hl hq.1

theorem Quarantined.calls_step (hs : Quarantined s) (hcond : noneSinceSnapshot e s = true) (h : step e s = some s')
    (i : Nat) : ∃ held, Holds s' i held (s'.calls i) ∧
      ∀ run ∈ held, ∀ letter ∈ s'.letters, ¬ quarantines run.key letter = true := by
  obtain ⟨held, hh, hclean⟩ := hs.calls i
  obtain ⟨held', hh', hgrow⟩ := holds_of_step hs.base h hh
  obtain ⟨f, new, hf, heq, hnew⟩ := letters_of_step h
  refine ⟨held', hh', fun run hr letter' hl' hq => ?_⟩
  rw [heq] at hl'
  rcases List.mem_append.1 hl' with hl' | hl'
  · obtain ⟨letter, hl, hkept⟩ := mem_mapIdx_kept hf hl'
    have hq := quarantines_of_kept hkept hq
    rcases hgrow run hr with hr | ⟨o, left, rows, found, rfl, hc, hrun, hkept⟩
    · exact hclean run hr letter hl hq
    · exact none_of_locked hcond hc hrun hkept letter hl hq
  · rcases hnew with rfl | ⟨letter, -, rfl, hjob, -⟩ | ⟨i', o, reconciled, rfl, hc, hret⟩
    · cases hl'
    · rw [List.mem_singleton.1 hl'] at hq
      exact not_quarantines_of_jobName hjob hq
    · -- The letters of another call are of runs that it has locked.
      obtain ⟨done, -, rfl, -, hheld⟩ := hs.returning hc
      obtain ⟨run', hr', rfl⟩ := List.mem_map.1 hl'
      have hkey := (quarantines_letter (hheld run' hr').1.tenant).1 hq
      rcases hgrow run hr with hrold | ⟨_, _, _, _, hcontra, -⟩
      · obtain ⟨_, hheld'⟩ := hh.held hrold
        have hii : i' = i := by
          have hlock := (hheld run' hr').1.lock
          rw [hkey, hheld'.lock] at hlock
          simpa using hlock.symm
        rw [hii] at hret
        rw [hret] at hh'
        obtain rfl : held' = [] := hh'
        cases hr
      · cases hcontra

theorem prepare_returned {o : ReconcileWorkflowRunsOptions} {reconciled : List ReconciledWorkflowRun}
    (h : o.prepare = .ok (some reconciled)) : reconciled = [] := by
  unfold ReconcileWorkflowRunsOptions.prepare at h
  cases hv : assertValidTenantId o.tenantId with
  | error e =>
    rw [hv] at h
    cases h
  | ok u =>
    rw [hv] at h
    simp only [bind, Except.bind, pure, Except.pure] at h
    (repeat' split at h) <;> cases h <;> rfl

/-- A call that has a step to make has not returned. -/
theorem not_returned_of_step (h : step e s = some s') {i : Nat} (hact : e.actor = some (.call i))
    (reconciled : List ReconciledWorkflowRun) : s.calls i ≠ .returned reconciled := by
  intro hc
  cases e <;> simp only [HostEvent.actor, Option.some.injEq, Owner.call.injEq, reduceCtorEq] at hact <;> subst hact <;>
    simp only [step, hc] at h <;> cases h

theorem Inserted.of_not_returned {i : Nat} {c : QuarantineCall} (h : Inserted s i c)
    (hc : ∀ reconciled, c ≠ .returned reconciled) : ∀ letter ∈ s.letters, letter.insertedBy ≠ some i := by
  cases c with
  | returned reconciled => exact absurd rfl (hc reconciled)
  | _ => exact h

/-- How a call comes to return: with its commit, or with an empty batch before it has begun. -/
theorem returned_cases (h : step e s = some s') {i : Nat} (hact : e.actor = some (.call i))
    {reconciled : List ReconciledWorkflowRun} (hc : s'.calls i = .returned reconciled) :
    reconciled = [] ∧ s'.letters = s.letters ∨
      ∃ o new, s.calls i = .inserting o [] new reconciled ∧ s'.letters = s.letters ++ new := by
  cases e with
  | quarantine i' o =>
    obtain rfl : i' = i := by simpa [HostEvent.actor] using hact
    simp only [step] at h
    split at h <;> cases h
    rw [setCall_calls_self] at hc
    split at hc <;> cases hc
    rename_i hp
    exact .inl ⟨prepare_returned hp, rfl⟩
  | return_ i' =>
    obtain rfl : i' = i := by simpa [HostEvent.actor] using hact
    simp only [step] at h
    split at h
    · rename_i o new reconciled' hc'
      cases h
      rw [setCall_calls_self] at hc
      cases hc
      exact .inr ⟨o, new, hc', rfl⟩
    · cases h
  | read i' _ | lockRow i' | answer i' | insert i' | throw_ i' _ =>
    obtain rfl : i' = i := by simpa [HostEvent.actor] using hact
    simp only [step] at h
    (repeat' split at h) <;> cases h <;> rw [setCall_calls_self] at hc <;> cases hc
  | _ => cases hact

/-- New letters are inserted by the call that returns, or by none. -/
theorem insertedBy_of_step (hs : Quarantined s) (h : step e s = some s') {i : Nat}
    (hret : e.actor = some (.call i) → ∀ reconciled, s'.calls i ≠ .returned reconciled) :
    ∃ f new, (∀ n letter, Kept letter (f n letter)) ∧ s'.letters = s.letters.mapIdx f ++ new ∧
      ∀ letter ∈ new, letter.insertedBy ≠ some i := by
  obtain ⟨f, new, hf, heq, hnew⟩ := letters_of_step h
  refine ⟨f, new, hf, heq, ?_⟩
  rcases hnew with rfl | ⟨letter, -, rfl, -, hby⟩ | ⟨i', o, reconciled, rfl, hc, hc'⟩
  · simp
  · simp [hby]
  · obtain ⟨done, -, rfl, -, -⟩ := hs.returning hc
    intro letter hl
    obtain ⟨run, -, rfl⟩ := List.mem_map.1 hl
    simp only [ReconcileWorkflowRunsOptions.letter, ne_eq, Option.some.injEq]
    rintro rfl
    exact hret rfl reconciled hc'

theorem Quarantined.inserted_step (hs : Quarantined s) (h : step e s = some s') (i : Nat) :
    Inserted s' i (s'.calls i) := by
  by_cases hret : e.actor = some (.call i) ∧ ∃ reconciled, s'.calls i = .returned reconciled
  · obtain ⟨hact, reconciled, hc'⟩ := hret
    have hbefore := (hs.inserted i).of_not_returned (not_returned_of_step h hact)
    have hnone : s.letters.filter (·.insertedBy == some i) = [] :=
      List.filter_eq_nil_iff.2 fun letter hl => by simpa using hbefore letter hl
    rw [hc']
    simp only [Inserted]
    rcases returned_cases h hact hc' with ⟨rfl, hl⟩ | ⟨o, new, hc, hl⟩
    · rw [hl, hnone]
      rfl
    · obtain ⟨done, -, rfl, rfl, -⟩ := hs.returning hc
      have hall : (done.map (o.letter i)).filter (·.insertedBy == some i) = done.map (o.letter i) := by
        refine List.filter_eq_self.2 fun letter hl => ?_
        obtain ⟨run, -, rfl⟩ := List.mem_map.1 hl
        simp [ReconcileWorkflowRunsOptions.letter]
      rw [hl, List.filter_append, hnone, hall]
      simp [ReconcileWorkflowRunsOptions.letter, HostRun.reconciled]
  · obtain ⟨f, new, hf, heq, hfresh⟩ := insertedBy_of_step hs h fun hact reconciled hc' => hret ⟨hact, reconciled, hc'⟩
    have hstill : (∀ letter ∈ s.letters, letter.insertedBy ≠ some i) →
        ∀ letter ∈ s'.letters, letter.insertedBy ≠ some i := by
      intro hall letter' hl'
      rw [heq] at hl'
      rcases List.mem_append.1 hl' with hl' | hl'
      · obtain ⟨letter, hl, hk⟩ := mem_mapIdx_kept hf hl'
        rw [(insertedBy_of_kept hk).1]
        exact hall letter hl
      · exact hfresh letter' hl'
    by_cases hact : e.actor = some (.call i)
    · have hafter := hstill ((hs.inserted i).of_not_returned (not_returned_of_step h hact))
      cases hc' : s'.calls i with
      | returned reconciled => exact absurd ⟨hact, reconciled, hc'⟩ hret
      | _ => exact hafter
    · rw [calls_of_ne h hact]
      have hi := hs.inserted i
      cases hc : s.calls i with
      | returned reconciled =>
        rw [hc] at hi
        have hkeep : ∀ n letter, (f n letter).insertedBy = letter.insertedBy ∧ (f n letter).runId = letter.runId :=
          fun n letter => insertedBy_of_kept (hf n letter)
        have hnone : new.filter (·.insertedBy == some i) = [] :=
          List.filter_eq_nil_iff.2 fun letter hl => by simpa using hfresh letter hl
        simp only [Inserted]
        rw [heq, List.filter_append, hnone, List.append_nil,
          map_filter_mapIdx (fun n letter => by rw [(hkeep n letter).1]) fun n letter => (hkeep n letter).2]
        exact hi
      | _ =>
        rw [hc] at hi
        exact hstill hi

theorem Quarantined.step (hs : Quarantined s) (hcond : noneSinceSnapshot e s = true) (h : Host.step e s = some s') :
    Quarantined s' where
  base := hs.base.step h
  unique := hs.unique_step h
  calls := hs.calls_step hcond h
  inserted := hs.inserted_step h

theorem Quarantined.oneLetter (hs : Quarantined s) : OneLetter s where
  unique := hs.unique
  reported i reconciled hc := by
    have := hs.inserted i
    rw [hc] at this
    exact this
  failed i error hc := by
    have := hs.inserted i
    rw [hc] at this
    exact this

/-- A transaction that has not ended has resolved the letters of the run. -/
def triggered (s : Host) (k : RunKey) : Bool :=
  match s.lock k with
  | some (.writer j) => (s.writers j).fired.any (·.1 == k)
  | _ => false

/-- When a delivery inserts a letter, its run is not terminal, and no transaction that makes it so has
already fired the trigger. -/
def beforeTerminal : HostEvent → Host → Bool
  | .onDeadLetter letter, s => letter.runId.all fun runId =>
    (s.run (letter.tenantId, runId)).all (fun run => !run.status.isTerminal) && !s.triggered (letter.tenantId, runId)
  | _, _ => true

/-- What the trigger is there for. -/
def TerminalResolved (s : Host) : Prop :=
  ∀ run ∈ s.runs, run.status.isTerminal = true → ∀ letter ∈ s.letters, ¬ letter.outstanding run.key = true

/-- What a transaction has done about the letters of the runs that it makes terminal. -/
structure Resolving (s : Host) (j : Nat) (w : Writer) : Prop where
  due : ∀ k ∈ w.due, s.lock k = some (.writer j)
  fired : ∀ k n, (k, n) ∈ w.fired → s.lock k = some (.writer j) ∧
    ∀ m letter, s.letters[m]? = some letter → n ≤ m → ¬ letter.outstanding k = true
  terminal : ∀ k status, w.updates.lookup k = some status → status.isTerminal = true →
    k ∈ w.due ∨ (∃ n, (k, n) ∈ w.fired) ∨ ∃ run ∈ s.runs, run.key = k ∧ run.status.isTerminal = true

structure Resolved (s : Host) : Prop where
  base : Base s
  terminal : TerminalResolved s
  writers : ∀ j, Resolving s j (s.writers j)

theorem Resolving.none (s : Host) (j : Nat) : Resolving s j {} :=
  ⟨by simp, by simp, fun k status h => by cases h⟩

theorem Resolved.init : Resolved {} where
  base := .init
  terminal run hr := by cases hr
  writers j := .none _ j

theorem outstanding_of_kept {letter letter' : Letter} (hk : Kept letter letter') (h : letter'.outstanding k = true) :
    letter.outstanding k = true := by
  rcases hk with rfl | rfl
  · exact h
  · simp [Letter.outstanding] at h

/-- A new letter's run is active, and nobody has fired the trigger for it. -/
structure Fresh (s : Host) (letter : Letter) : Prop where
  active : ∀ run ∈ s.runs, letter.outstanding run.key = true → run.status.isTerminal = false
  unfired : ∀ j k n, s.lock k = some (.writer j) → (k, n) ∈ (s.writers j).fired → ¬ letter.outstanding k = true

theorem fresh_of_beforeTerminal (hs : Base s) {letter : Letter} (hc : beforeTerminal (.onDeadLetter letter) s = true) :
    Fresh s letter := by
  have hkey : ∀ k, letter.outstanding k = true → (s.run k).all (fun run => !run.status.isTerminal) = true ∧
      s.triggered k = false := by
    intro k hk
    simp only [Letter.outstanding, Letter.isOf, Bool.and_eq_true, beq_iff_eq] at hk
    obtain ⟨⟨ht, hr⟩, -⟩ := hk
    simp only [beforeTerminal, hr, Option.all_some, ht, Bool.and_eq_true, Bool.not_eq_true'] at hc
    exact hc
  constructor
  · intro run hrun hl
    have hfind : s.run run.key = some run := by
      obtain ⟨run', hf⟩ := Option.isSome_iff_exists.1
        (List.find?_isSome.2 ⟨run, hrun, by simp⟩ : (s.runs.find? (·.key == run.key)).isSome)
      rw [Host.run, hf, hs.keyed.eq (List.mem_of_find?_eq_some hf) hrun (by simpa using List.find?_some hf)]
    have hall := (hkey run.key hl).1
    rw [hfind] at hall
    simpa using hall
  · intro j k n hlock hfired hl
    have htr := (hkey k hl).2
    simp only [triggered, hlock, List.any_eq_false, beq_iff_eq] at htr
    exact htr (k, n) hfired rfl

/-- The letters of a quarantine are of active runs that no writer has locked. -/
theorem fresh_of_held (hs : Base s) {i : Nat} {o : ReconcileWorkflowRunsOptions} {run : HostRun} (hh : Held s i o run) :
    Fresh s (o.letter i run) := by
  have hkey : ∀ k, (o.letter i run).outstanding k = true → run.key = k := by
    intro k hk
    simpa [Letter.outstanding, Letter.isOf, ReconcileWorkflowRunsOptions.letter, HostRun.key, Prod.ext_iff,
      hh.tenant] using hk
  constructor
  · intro run' hr' hl
    rw [← hs.keyed.eq hh.mem hr' (hkey _ hl)]
    exact hh.active
  · intro j k n hlock _ hl
    rw [← hkey k hl, hh.lock] at hlock
    cases hlock

theorem fresh_of_step (hs : Base s) (hc : beforeTerminal e s = true) (h : step e s = some s') :
    ∃ f new, (∀ n letter, Kept letter (f n letter)) ∧ s'.letters = s.letters.mapIdx f ++ new ∧
      ∀ letter ∈ new, Fresh s letter := by
  obtain ⟨f, new, hf, heq, hnew⟩ := letters_of_step h
  refine ⟨f, new, hf, heq, ?_⟩
  rcases hnew with rfl | ⟨letter, rfl, rfl, -⟩ | ⟨i, o, reconciled, rfl, hcall, -⟩
  · simp
  · intro letter' hl'
    rw [List.mem_singleton.1 hl']
    exact fresh_of_beforeTerminal hs hc
  · obtain ⟨held, hh⟩ := hs.calls i
    rw [hcall] at hh
    obtain ⟨done, -, -, rfl, -, hrows⟩ := hh
    intro letter hl
    obtain ⟨run, hr, rfl⟩ := List.mem_map.1 hl
    exact fresh_of_held hs (hrows run (by simpa using hr))

/-- The steps of others leave what a transaction has resolved. -/
theorem Resolving.step_of_ne (hs : Resolved s) (hc : beforeTerminal e s = true) (h : step e s = some s') {j : Nat}
    (hne : e.ends ≠ some (.writer j)) : Resolving s' j (s.writers j) := by
  obtain ⟨f, new, hf, heq, hfresh⟩ := fresh_of_step hs.base hc h
  have hw := hs.writers j
  refine ⟨fun k hk => lock_of_step h (hw.due k hk) hne, fun k n hfired => ?_, fun k status hup ht => ?_⟩
  · obtain ⟨hlock, hres⟩ := hw.fired k n hfired
    refine ⟨lock_of_step h hlock hne, fun m letter' hm hle hout => ?_⟩
    rw [heq] at hm
    by_cases hlt : m < s.letters.length
    · rw [List.getElem?_append_left (by simpa using hlt), List.getElem?_mapIdx, List.getElem?_eq_getElem hlt] at hm
      cases hm
      exact hres m _ (List.getElem?_eq_getElem hlt) hle (outstanding_of_kept (hf m _) hout)
    · rw [List.getElem?_append_right (by simpa using hlt)] at hm
      exact (hfresh letter' (List.mem_of_getElem? hm)).unfired j k n hlock hfired hout
  · rcases hw.terminal k status hup ht with hdue | hfired | ⟨run, hr, rfl, hrt⟩
    · exact .inl hdue
    · exact .inr (.inl hfired)
    · exact .inr (.inr ⟨run, runs_of_step hs.base.locks h (hs.base.locks j run.key status hup) hne hr, rfl, hrt⟩)

theorem Resolving.set {j : Nat} {status : RunStatus} (hw : Resolving s j (s.writers j))
    (h : step (.set j k status) s = some s') : Resolving s' j (s'.writers j) := by
  simp only [step] at h
  split at h
  · rename_i run hrun
    split at h
    · rename_i hfree
      cases h
      have hmem : run ∈ s.runs := List.mem_of_find?_eq_some hrun
      have hkey : run.key = k := by simpa using List.find?_some hrun
      rw [setWriter_writers_self]
      refine ⟨fun k' hk' => ?_, fun k' n hfired => ?_, fun k' status' hup ht => ?_⟩
      · have hcases : k' = k ∨ k' ∈ (s.writers j).due := by
          dsimp only at hk'
          split at hk'
          · exact (List.mem_append.1 hk').elim .inr fun hk => .inl (List.mem_singleton.1 hk)
          · exact .inr hk'
        rcases hcases with rfl | hold
        · exact acquire_lock_self ..
        · exact lock_acquire (hw.due k' hold) hfree
      · obtain ⟨hlock, hres⟩ := hw.fired k' n hfired
        exact ⟨lock_acquire hlock hfree, hres⟩
      · have hgrow : ∀ x ∈ (s.writers j).due, x ∈ (if status.isTerminal &&
            ((s.writers j).updates.lookup k).getD run.status != status then (s.writers j).due ++ [k]
            else (s.writers j).due) := by
          intro x hx
          split
          · exact List.mem_append_left _ hx
          · exact hx
        simp only [List.lookup_cons] at hup
        split at hup
        · rename_i hkk
          rw [beq_iff_eq] at hkk
          cases hup
          subst hkk
          by_cases hold : ((s.writers j).updates.lookup k').getD run.status = status
          · -- The status was written before, by this transaction or by an earlier one.
            rcases Option.eq_none_or_eq_some ((s.writers j).updates.lookup k') with hlook | ⟨old, hlook⟩
            · rw [hlook, Option.getD_none] at hold
              exact .inr (.inr ⟨run, hmem, hkey, by rw [hold]; exact ht⟩)
            · rw [hlook, Option.getD_some] at hold
              exact (hw.terminal k' old hlook (by rw [hold]; exact ht)).imp_left (hgrow k')
          · refine .inl ?_
            rw [if_pos (by simpa [ht] using hold)]
            exact List.mem_append_right _ (List.mem_singleton_self k')
        · exact (hw.terminal k' status' hup ht).imp_left (hgrow k')
    · cases h
  · cases h

theorem Resolving.fire {j : Nat} (hw : Resolving s j (s.writers j)) (h : step (.fire j) s = some s') :
    Resolving s' j (s'.writers j) := by
  simp only [step] at h
  split at h
  · rename_i k rest hdue
    cases h
    rw [setWriter_writers_self]
    refine ⟨fun k' hk' => hw.due k' (hdue ▸ List.mem_cons_of_mem _ hk'), fun k' n hfired => ?_,
      fun k' status hup ht => ?_⟩
    · rcases List.mem_cons.1 hfired with heq | hfired
      · cases heq
        refine ⟨hw.due k (hdue ▸ List.mem_cons_self), fun m letter hm hle => ?_⟩
        -- The trigger has seen every letter that is there.
        rw [setWriter_letters, List.getElem?_eq_none hle] at hm
        cases hm
      · exact hw.fired k' n hfired
    · rcases hw.terminal k' status hup ht with hk' | ⟨n, hfired⟩ | hrun
      · rw [hdue] at hk'
        rcases List.mem_cons.1 hk' with rfl | hk'
        · exact .inr (.inl ⟨_, List.mem_cons_self⟩)
        · exact .inl hk'
      · exact .inr (.inl ⟨n, List.mem_cons_of_mem _ hfired⟩)
      · exact .inr (.inr hrun)
  · cases h

theorem Resolved.writers_step (hs : Resolved s) (hc : beforeTerminal e s = true) (h : step e s = some s') (j : Nat) :
    Resolving s' j (s'.writers j) := by
  by_cases hact : e.actor = some (.writer j)
  · cases e with
    | set j' k status =>
      obtain rfl : j' = j := by simpa [HostEvent.actor] using hact
      exact (hs.writers j').set h
    | fire j' =>
      obtain rfl : j' = j := by simpa [HostEvent.actor] using hact
      exact (hs.writers j').fire h
    | commit j' =>
      obtain rfl : j' = j := by simpa [HostEvent.actor] using hact
      simp only [step] at h
      split at h <;> cases h
      rw [setWriter_writers_self]
      exact .none _ j'
    | abort j' =>
      obtain rfl : j' = j := by simpa [HostEvent.actor] using hact
      cases h
      rw [setWriter_writers_self]
      exact .none _ j'
    | _ => cases hact
  · rw [writers_of_ne h hact]
    exact .step_of_ne hs hc h fun hends => hact (HostEvent.actor_of_ends hends)

/-- The runs that a commit makes terminal have no letter left that its triggers did not resolve. -/
theorem Resolved.commit (hs : Resolved s) {j : Nat} (h : step (.commit j) s = some s') : TerminalResolved s' := by
  simp only [step] at h
  split at h
  · rename_i hdue
    cases h
    intro run' hr' ht letter' hl' hout
    obtain ⟨run, hr, rfl⟩ := List.mem_map.1 hr'
    obtain ⟨m, hm, rfl⟩ := List.mem_mapIdx.1 hl'
    rw [applied_key] at hout
    set letter := s.letters[m] with hletter
    have hkept : Kept letter (resolvedBy (s.writers j).fired m letter) := by
      unfold resolvedBy
      split
      · exact .inr rfl
      · exact .inl rfl
    have hold := outstanding_of_kept hkept hout
    have hmem : letter ∈ s.letters := List.getElem_mem hm
    unfold applied at ht
    split at ht
    · rename_i status hup
      rcases (hs.writers j).terminal run.key status hup ht with hd | ⟨n, hfired⟩ | ⟨run₁, hr₁, hk₁, ht₁⟩
      · rw [hdue] at hd
        cases hd
      · by_cases hlt : m < n
        · -- The trigger saw the letter.
          have hres : (resolvedBy (s.writers j).fired m letter).resolved = true := by
            unfold resolvedBy
            rw [if_pos]
            refine List.any_eq_true.2 ⟨(run.key, n), hfired, ?_⟩
            rw [Letter.outstanding, Bool.and_eq_true] at hold
            simp [hold.1, hlt]
          simp [Letter.outstanding, hres] at hout
        · exact ((hs.writers j).fired run.key n hfired).2 m letter (List.getElem?_eq_getElem hm) (not_lt.1 hlt) hold
      · rw [← hk₁] at hold
        exact hs.terminal run₁ hr₁ ht₁ letter hmem hold
    · exact hs.terminal run hr ht letter hmem hold
  · cases h

theorem Resolved.terminal_step (hs : Resolved s) (hc : beforeTerminal e s = true) (h : step e s = some s') :
    TerminalResolved s' := by
  by_cases hcommit : ∃ j, e = .commit j
  · obtain ⟨j, rfl⟩ := hcommit
    exact hs.commit h
  · -- No other step makes a run terminal.
    have hruns : ∀ run ∈ s'.runs, run.status.isTerminal = true → run ∈ s.runs := by
      intro run hr ht
      cases e with
      | create new =>
        simp only [step] at h
        split at h
        · rename_i hok
          cases h
          rcases List.mem_append.1 hr with hr | hr
          · exact hr
          · rw [List.mem_singleton.1 hr] at ht
            simp only [Bool.and_eq_true, Bool.not_eq_true'] at hok
            cases hok.1.symm.trans ht
        · cases h
      | delete k =>
        simp only [step] at h
        split at h <;> cases h
        exact List.mem_of_mem_filter hr
      | commit j => exact absurd ⟨j, rfl⟩ hcommit
      | _ =>
        simp only [step] at h
        (repeat' split at h) <;> cases h <;> exact hr
    obtain ⟨f, new, hf, heq, hfresh⟩ := fresh_of_step hs.base hc h
    intro run hr ht letter' hl' hout
    have hr := hruns run hr ht
    rw [heq] at hl'
    rcases List.mem_append.1 hl' with hl' | hl'
    · obtain ⟨letter, hl, hk⟩ := mem_mapIdx_kept hf hl'
      exact hs.terminal run hr ht letter hl (outstanding_of_kept hk hout)
    · have hactive := (hfresh letter' hl').active run hr hout
      rw [ht] at hactive
      cases hactive

theorem Resolved.step (hs : Resolved s) (hc : beforeTerminal e s = true) (h : Host.step e s = some s') : Resolved s' where
  base := hs.base.step h
  terminal := hs.terminal_step hc h
  writers := hs.writers_step hc h

/-- In every run in which the letters of deliveries come before the trigger of a terminal transition,
a terminal run has no unresolved letter. -/
theorem terminal_run_resolved (h : Machine.Reaches Host.step beforeTerminal {} s) : TerminalResolved s :=
  (h.invariant Resolved.init fun _ _ _ hs hc he => hs.step hc he).terminal


/-! ## Runs -/

def hostRun : HostRun := { tenantId := "t", id := "r", name := "flow", deploymentId := "d", status := .running }

def deliveryLetter : Letter where
  tenantId := "t"
  deploymentId := "d"
  runId := some "r"
  messageId := "msg_1"
  jobName := some flowJobName
  queueName := none
  attempt := 49
  reason := "Retries exhausted."

def byRunId : ReconcileWorkflowRunsOptions := { tenantId := "t", runIds := some ["r"], reason := "executor gone" }

def byDeployment : ReconcileWorkflowRunsOptions :=
  { tenantId := "t", deploymentIds := some ["d"], reason := "deployment retired" }

/-- The statements of a quarantine call after its read. -/
def rest (i : Nat) : List HostEvent := [.lockRow i, .answer i, .insert i, .return_ i]

/-- Two calls for one run, one after the other. -/
def inTurn : List HostEvent :=
  [.create hostRun, .quarantine 0 byRunId, .read 0 [hostRun]] ++ rest 0 ++
    [.quarantine 1 byDeployment, .read 1 [], .answer 1, .return_ 1]

/-- Two calls whose reads have their snapshots before either has the run's lock: the second finds the
row as it was, and does not look for a letter again. -/
def overlapping : List HostEvent :=
  [.create hostRun, .quarantine 0 byRunId, .quarantine 1 byDeployment, .read 0 [hostRun], .read 1 [hostRun]] ++
    rest 0 ++ rest 1

/-- A delivery gives up, and the run ends. -/
def letterFirst : List HostEvent :=
  [.create hostRun, .onDeadLetter deliveryLetter, .set 0 ("t", "r") .failed, .fire 0, .commit 0]

theorem terminal_run_resolved_letterFirst : ∃ s : Host, (s.runs.map (·.status) = [.failed] ∧ s.letters.length = 1) ∧
    TerminalResolved s := by
  obtain ⟨s, hr, hs⟩ := @Machine.exists_of_play _ _ Host.step beforeTerminal {} letterFirst
    (fun s => decide (s.runs.map (·.status) = [.failed] ∧ s.letters.length = 1)) (by decide +kernel)
  exact ⟨s, of_decide_eq_true hs, terminal_run_resolved hr⟩

/-- The run ends while a delivery is under way, which then gives up. -/
def letterLast : List HostEvent :=
  [.create hostRun, .set 0 ("t", "r") .failed, .fire 0, .commit 0, .onDeadLetter deliveryLetter]

theorem terminal_run_unresolved_letterLast :
    ¬ ∀ s, Machine.Reaches Host.step Machine.always {} s → TerminalResolved s := by
  intro h
  obtain ⟨s, hr, hs⟩ := @Machine.exists_of_play _ _ Host.step Machine.always {} letterLast
    (fun s => decide (¬ ∀ run ∈ s.runs, run.status.isTerminal = true →
      ∀ letter ∈ s.letters, ¬ letter.outstanding run.key = true)) (by decide +kernel)
  exact of_decide_eq_true hs (h s hr)

end WorkflowWorld.Dispatcher.Host
