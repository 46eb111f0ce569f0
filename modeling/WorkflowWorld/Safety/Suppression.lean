/-
Which deliveries the dispatcher acknowledges without an executor: the dedup of keyed messages takes a
dropped message for a completed one and a failed dispatch for one that its waiters need not repeat, so
its acknowledgements are sound as long as neither is relied on.
-/
import WorkflowWorld.Dispatcher.Handler

namespace WorkflowWorld.Dispatcher

/-- What an acknowledged keyed delivery has to show: the executor was called for it, its run had become
terminal or was quarantined at that moment, or an executor had answered a delivery of its key. -/
def Ended.Justified (e : Ended) : Prop :=
  e.running.key.isSome → e.ending = .acknowledged →
    e.running.called = true ∨ e.terminal = true ∨ e.quarantined = true ∨ e.answered = true

instance (e : Ended) : Decidable e.Justified := inferInstanceAs (Decidable (_ → _ → _ ∨ _ ∨ _ ∨ _))

namespace Handling

variable {s s' s₁ : Handling} {r r' : Running}

/-! ## Ends of calls -/

/-- The call may be acknowledged without an executor. -/
def Excused (s : Handling) (r : Running) : Prop :=
  s.isTerminal r.delivery.run = true ∨ s.isQuarantined r.delivery.run = true ∨ s.isAnswered r.key = true

/-- Calls have ended from `s` to `s'`: those acknowledged satisfy `A`, and others await `onDeadLetter`. -/
structure Closes (A : Running → Prop) (s s' : Handling) : Prop where
  runs : s'.runs = s.runs
  completed : s'.completed = s.completed
  terminal : s'.terminal = s.terminal
  answered : s'.answered = s.answered
  dropped : s'.dropped = s.dropped
  deliveries : ∀ r ∈ s'.deliveries, r ∈ s.deliveries ∨ ∃ reason, r.stage = .lettering reason
  ended : ∀ e ∈ s'.ended, e ∈ s.ended ∨ ∃ r ending, e = s.entry r ending ∧ (ending = .acknowledged → A r)

theorem entry_congr (hr : s'.runs = s.runs) (ht : s'.terminal = s.terminal) (ha : s'.answered = s.answered)
    (r : Running) (ending : Ending) : s'.entry r ending = s.entry r ending := by
  simp only [entry, isTerminal, isQuarantined, isAnswered, hr, ht, ha]

theorem Closes.refl (A : Running → Prop) (s : Handling) : Closes A s s :=
  ⟨rfl, rfl, rfl, rfl, rfl, fun _ h => .inl h, fun _ h => .inl h⟩

theorem Closes.trans {A : Running → Prop} (h : Closes A s s₁) (h' : Closes A s₁ s') : Closes A s s' where
  runs := h'.runs.trans h.runs
  completed := h'.completed.trans h.completed
  terminal := h'.terminal.trans h.terminal
  answered := h'.answered.trans h.answered
  dropped := h'.dropped.trans h.dropped
  deliveries := fun r hr => (h'.deliveries r hr).elim (h.deliveries r) .inr
  ended := fun e he => by
    rcases h'.ended e he with he | ⟨r, ending, rfl, hA⟩
    · exact h.ended e he
    · exact .inr ⟨r, ending, entry_congr h.runs h.terminal h.answered r ending, hA⟩

theorem closes_record {A : Running → Prop} (s : Handling) (r : Running) (ending : Ending)
    (h : ending = .acknowledged → A r) : Closes A s (s.record r ending) where
  runs := rfl
  completed := rfl
  terminal := rfl
  answered := rfl
  dropped := rfl
  deliveries := fun _ hr => .inl hr
  ended := fun e he => by
    rcases List.mem_append.1 he with he | he
    · exact .inl he
    · exact .inr ⟨r, ending, List.mem_singleton.1 he, h⟩

theorem closes_push {A : Running → Prop} (s : Handling) (r : Running) (reason : String) (h : r.stage = .lettering reason) :
    Closes A s (s.push r) where
  runs := rfl
  completed := rfl
  terminal := rfl
  answered := rfl
  dropped := rfl
  deliveries := fun r' hr => by
    rcases List.mem_append.1 hr with hr | hr
    · exact .inl hr
    · exact .inr ⟨reason, List.mem_singleton.1 hr ▸ h⟩
  ended := fun _ he => .inl he

/-- The handler returns for what `dedup.run` answered, with nothing more to do. -/
def acknowledges : Option DispatchOutcome → Bool
  | none | some .completed | some (.rescheduled _) => true
  | some (.deadLetter _) | some (.retry _) => false

theorem closes_close {A : Running → Prop} (s : Handling) (r : Running) (o : Option DispatchOutcome)
    (h : acknowledges o = true → A r) : Closes A s (s.close r o) := by
  unfold close
  split
  · exact closes_record s r _ fun _ => h rfl
  · exact closes_record s r _ fun _ => h rfl
  · exact closes_record s r _ fun _ => h rfl
  · exact closes_push s _ _ rfl
  · split
    · exact closes_push s _ _ rfl
    · exact closes_record s r _ nofun

theorem closes_foldl {A : Running → Prop} (o : Option DispatchOutcome) :
    ∀ (rs : List Running) (s : Handling), (∀ r ∈ rs, acknowledges o = true → A r) →
      Closes A s (rs.foldl (fun s r => s.close r o) s)
  | [], s, _ => .refl A s
  | r :: rs, s, h =>
    (closes_close s r o (h r (List.mem_cons_self ..))).trans
      (closes_foldl o rs _ fun r' hr' => h r' (List.mem_cons_of_mem _ hr'))

/-! ## The invariant -/

structure Sound (s : Handling) : Prop where
  /-- A completed key was answered by an executor, or a message was dropped under it. -/
  completed : ∀ key ∈ s.completed, key ∈ s.answered ∨ ∃ run, (key, run) ∈ s.dropped
  terminal : ∀ k view, s.runs k = some view → view.status.isTerminal = true → k ∈ s.terminal
  reenqueueing : ∀ r ∈ s.deliveries, ∀ t, r.stage = .reenqueueing t → r.key.isSome → s.isAnswered r.key = true
  ended : ∀ e ∈ s.ended, e.Justified

theorem sound_init : Sound {} :=
  ⟨by simp, by simp, by simp, by simp⟩

theorem justified_entry (r : Running) (ending : Ending) (h : ending = .acknowledged → r.key.isSome → Excused s r) :
    (s.entry r ending).Justified := fun hk he => .inr (h he hk)

theorem Sound.closes {A : Running → Prop} (hs : Sound s) (h : Closes A s s')
    (hA : ∀ r, A r → r.key.isSome → Excused s r) : Sound s' where
  completed := by
    rw [h.completed, h.answered, h.dropped]
    exact hs.completed
  terminal := by
    rw [h.runs, h.terminal]
    exact hs.terminal
  reenqueueing := fun r hr t ht hk => by
    have hans : s'.isAnswered r.key = s.isAnswered r.key := by simp only [isAnswered, h.answered]
    rcases h.deliveries r hr with hr | ⟨reason, hl⟩
    · rw [hans]
      exact hs.reenqueueing r hr t ht hk
    · rw [hl] at ht
      cases ht
  ended := fun e he => by
    rcases h.ended e he with he | ⟨r, ending, rfl, hr⟩
    · exact hs.ended e he
    · exact justified_entry r ending fun hack hk => hA r (hr hack) hk

/-- A call that gives up its place leaves the rest sound. -/
theorem Sound.of_deliveries (hs : Sound s) {ds : List Running} (h : ∀ r ∈ ds, r ∈ s.deliveries) :
    Sound { s with deliveries := ds } where
  completed := hs.completed
  terminal := hs.terminal
  reenqueueing := fun r hr t ht hk => hs.reenqueueing r (h r hr) t ht hk
  ended := hs.ended

theorem Sound.remove (hs : Sound s) (id : Nat) : Sound (s.remove id) :=
  hs.of_deliveries fun _ hr => List.mem_of_mem_filter hr

theorem Sound.push (hs : Sound s) (h : ∀ t, r.stage = .reenqueueing t → r.key.isSome → s.isAnswered r.key = true) :
    Sound (s.push r) where
  completed := hs.completed
  terminal := hs.terminal
  reenqueueing := fun r' hr' t ht hk => by
    rcases List.mem_append.1 hr' with hr' | hr'
    · exact hs.reenqueueing r' hr' t ht hk
    · rw [List.mem_singleton.1 hr'] at ht hk ⊢
      exact h t ht hk
  ended := hs.ended

theorem Sound.advance (hs : Sound s) {stage : Stage}
    (h : ∀ t, stage = .reenqueueing t → r.key.isSome → s.isAnswered r.key = true) : Sound (s.advance r stage) :=
  (hs.remove r.delivery.id).push h

theorem Sound.mark (hs : Sound s) (key : Option String) (result : Except String DispatchOutcome)
    (h : result = .ok .completed → ∀ k, key = some k → k ∈ s.answered ∨ ∃ run, (k, run) ∈ s.dropped) :
    Sound (s.mark key result) := by
  unfold Handling.mark
  split
  · rename_i key
    refine ⟨fun k hk => ?_, hs.terminal, hs.reenqueueing, hs.ended⟩
    rcases mem_of_mem_markCompleted hk with hk | rfl
    · exact hs.completed k hk
    · exact h rfl k rfl
  · exact hs

theorem mark_fields (s : Handling) (key : Option String) (result : Except String DispatchOutcome) (r : Running) :
    (s.mark key result).Excused r ↔ s.Excused r := by
  unfold Handling.mark
  split <;> exact Iff.rfl

/-- The end of a dispatch. -/
theorem Sound.settle (hs : Sound s) (r : Running) (result : Except String DispatchOutcome)
    (hmark : result = .ok .completed → ∀ k, r.key = some k → k ∈ s.answered ∨ ∃ run, (k, run) ∈ s.dropped)
    (hr : acknowledges (ofDispatch result) = true → r.key.isSome → Excused s r)
    (hw : acknowledges (ofWait result) = true → ∀ r' ∈ s.waiting r.key, Excused s r') : Sound (s.settle r result) := by
  have h₁ : Sound ({ s with deliveries := s.deliveries.filter fun r' =>
      r'.delivery.id != r.delivery.id && !(s.waiting r.key).contains r' }.mark r.key result) :=
    (hs.of_deliveries fun _ h => List.mem_of_mem_filter h).mark r.key result hmark
  refine h₁.closes (A := fun r' => r'.key.isSome → Excused s r') ((closes_close _ r _ hr).trans
    (closes_foldl _ _ _ fun r' hr' hack _ => hw hack r' hr')) fun r' hA hk => ?_
  exact (mark_fields _ r.key result r').2 (hA hk)

/-! ## Runs of the handler -/

/-- What the dedup relies on. A delivery that arrives under a completed key, without an executor having
answered the key, is for the run that a message was dropped for, and the run is still terminal or
quarantined. A dispatch whose message is dropped, or that fails without an exception, has no other call
waiting for it, except that a drop may have calls for the same run. -/
def harmless : HandlerEvent → Handling → Bool
  | .receive d, s =>
    match d.message.idempotencyKey with
    | some key =>
      !s.completed.contains key || s.answered.contains key ||
        s.dropped.all fun x => x.1 != key || x.2 == d.run && (s.isTerminal d.run || s.isQuarantined d.run)
    | none => true
  | .lookup id, s =>
    match s.find id with
    | some r =>
      s.isAnswered r.key || (s.affinity r.delivery matches .deployment ..) ||
        (s.waiting r.key).all (·.delivery.run == r.delivery.run)
    | none => true
  | .activate id result, s =>
    match s.find id with
    | some r => s.isAnswered r.key || result == .activated || (s.waiting r.key).isEmpty
    | none => true
  | .post id result _, s =>
    match s.find id with
    | some r => s.isAnswered r.key || result.accepts || (s.waiting r.key).isEmpty
    | none => true
  | _, _ => true

theorem key_of_mem_waiting {key : Option String} (h : r ∈ s.waiting key) : r.key = key := by
  unfold waiting at h
  have := (List.mem_filter.1 h).2
  simp only [Bool.and_eq_true, beq_iff_eq] at this
  exact this.2

theorem mem_of_find {id : Nat} (h : s.find id = some r) : r ∈ s.deliveries := List.mem_of_find?_eq_some h

/-- A message is dropped only for a run that is terminal or quarantined. -/
theorem excused_of_affinity (hs : Sound s) (d : Delivery)
    (h : ∀ deploymentId runId, s.affinity d ≠ .deployment deploymentId runId) :
    s.isTerminal d.run = true ∨ s.isQuarantined d.run = true := by
  unfold affinity resolveAffinity at h
  unfold isTerminal isQuarantined Delivery.run
  cases hrun : d.message.runId with
  | none =>
    simp only [hrun] at h
    exact absurd rfl (h d.message.deploymentId none)
  | some runId =>
    simp only [hrun] at h
    cases hv : s.runs (d.message.tenantId, runId) with
    | none =>
      simp only [hv] at h
      exact absurd rfl (h d.message.deploymentId (some runId))
    | some view =>
      simp only [hv] at h
      by_cases ht : view.status.isTerminal = true
      · left
        simpa using hs.terminal _ view hv ht
      · by_cases hq : view.quarantined = true
        · right
          simp [hv, hq]
        · exact absurd (by rw [if_neg ht, if_neg hq]) (h view.deploymentId (some runId))

theorem isAnswered_answer {key : Option String} {result : VqsResult} (h : result.accepts = true) (hk : key.isSome) :
    (s.answer key result).isAnswered key = true := by
  obtain ⟨k, rfl⟩ := Option.isSome_iff_exists.1 hk
  simp [answer, h, isAnswered]

theorem isAnswered_mono {key key' : Option String} {result : VqsResult} (h : s.isAnswered key = true) :
    (s.answer key' result).isAnswered key = true := by
  unfold answer
  split
  · obtain ⟨k, rfl, hk⟩ : ∃ k, key = some k ∧ s.answered.contains k = true := by
      simpa only [isAnswered, Option.any_eq_true] using h
    simp only [isAnswered, Option.any_some, List.contains_eq_mem, decide_eq_true_eq, List.mem_append] at hk ⊢
    exact .inr hk
  · exact h

theorem Sound.answer (hs : Sound s) (key : Option String) (result : VqsResult) : Sound (s.answer key result) := by
  have hre : ∀ r ∈ s.deliveries, ∀ t, r.stage = .reenqueueing t → r.key.isSome →
      (s.answer key result).isAnswered r.key = true := fun r hr t ht hk => isAnswered_mono (hs.reenqueueing r hr t ht hk)
  unfold Handling.answer at hre ⊢
  split
  · rename_i hacc
    simp only [hacc, if_true] at hre
    exact ⟨fun k hk => (hs.completed k hk).imp_left (List.mem_append_right _), hs.terminal, hre, hs.ended⟩
  · exact hs

theorem answered_of_isAnswered {key : String} (h : s.isAnswered (some key) = true) : key ∈ s.answered := by
  simpa [isAnswered] using h

/-- An answered key excuses every call under it. -/
theorem Sound.settle_answered (hs : Sound s) (hr : r.key.isSome → s.isAnswered r.key = true)
    (result : Except String DispatchOutcome) : Sound (s.settle r result) := by
  refine hs.settle r result (fun _ k hk => ?_) (fun _ hk => .inr (.inr (hr hk))) fun _ r' hr' => ?_
  · exact .inl (answered_of_isAnswered (hk ▸ hr (hk ▸ rfl)))
  · have hkey := key_of_mem_waiting hr'
    have hsome : r.key.isSome := by
      have := (List.mem_filter.1 hr').2
      simp only [Bool.and_eq_true] at this
      exact this.1.2
    exact .inr (.inr (hkey ▸ hr hsome))

/-- A dispatch that fails and has no call waiting for it acknowledges nobody. -/
theorem Sound.settle_alone (hs : Sound s) (hw : s.waiting r.key = []) {result : Except String DispatchOutcome}
    (hres : acknowledges (ofDispatch result) = false) : Sound (s.settle r result) := by
  refine hs.settle r result (fun heq => ?_) (fun hack => absurd hack (by simp [hres])) fun _ r' hr' => ?_
  · rw [heq] at hres
    cases hres
  · rw [hw] at hr'
    cases hr'

theorem Sound.settle_error (hs : Sound s) (error : String) : Sound (s.settle r (.error error)) :=
  hs.settle r _ nofun nofun nofun

theorem Sound.drop (hs : Sound s) (hd : s.isTerminal r.delivery.run = true ∨ s.isQuarantined r.delivery.run = true)
    (hw : s.isAnswered r.key = true ∨ ∀ r' ∈ s.waiting r.key, r'.delivery.run = r.delivery.run) : Sound (s.drop r) := by
  have h₁ : Sound { s with dropped := (r.key.toList.map (·, r.delivery.run)) ++ s.dropped } :=
    ⟨fun k hk => (hs.completed k hk).imp_right fun ⟨run, h⟩ => ⟨run, List.mem_append_right _ h⟩, hs.terminal,
      hs.reenqueueing, hs.ended⟩
  have hex : ∀ r', r'.delivery.run = r.delivery.run → Excused s r' := fun r' heq => by
    unfold Excused
    rw [heq]
    exact hd.elim .inl fun h => .inr (.inl h)
  refine h₁.settle r _ (fun _ k hk => .inr ⟨r.delivery.run, ?_⟩) (fun _ _ => hex r rfl) fun _ r' hr' => ?_
  · exact List.mem_append_left _ (by simp [hk])
  · rcases hw with hans | hsame
    · exact .inr (.inr ((key_of_mem_waiting hr').symm ▸ hans))
    · exact hex r' (hsame r' hr')

/-- What was received under a completed key is excused. -/
theorem excused_of_completed (hs : Sound s) {d : Delivery} {key : String} (hkey : d.message.idempotencyKey = some key)
    (hin : s.completed.contains key = true) (hc : harmless (.receive d) s = true) (r : Running) (hr : r.delivery = d) :
    Excused s r := by
  have hmem : key ∈ s.completed := by simpa using hin
  have hrkey : r.key = some key := by rw [Running.key, hr, hkey]
  simp only [harmless, hkey, hin, Bool.not_true, Bool.false_or, Bool.or_eq_true] at hc
  rcases hc with hans | hdrop
  · exact .inr (.inr (by simpa only [hrkey, isAnswered, Option.any_some] using hans))
  · rcases hs.completed key hmem with hans | ⟨run, hrun⟩
    · exact .inr (.inr (by simpa [hrkey, isAnswered] using hans))
    · have hx := List.all_eq_true.1 hdrop _ hrun
      simp only [bne_self_eq_false, Bool.false_or, Bool.and_eq_true, Bool.or_eq_true, beq_iff_eq] at hx
      unfold Excused
      rw [hr]
      exact hx.2.elim .inl fun h => .inr (.inl h)

theorem Sound.write (hs : Sound s) (k : RunKey) (view : Option RunView) (h : step (.write k view) s = some s') :
    Sound s' := by
  simp only [step] at h
  split at h
  · cases h
    refine ⟨hs.completed, fun k' v hv ht => ?_, hs.reenqueueing, hs.ended⟩
    have hold : k' ∈ s.terminal → k' ∈ if view.any (·.status.isTerminal) then k :: s.terminal else s.terminal := by
      intro hmem
      split
      · exact List.mem_cons_of_mem _ hmem
      · exact hmem
    replace hv : Function.update s.runs k view k' = some v := hv
    by_cases hk : k' = k
    · subst hk
      rw [Function.update_self] at hv
      simp [hv, ht]
    · rw [Function.update_of_ne hk] at hv
      exact hold (hs.terminal k' v hv ht)
  · cases h

theorem Sound.receive (hs : Sound s) (d : Delivery) (hc : harmless (.receive d) s = true)
    (h : step (.receive d) s = some s') : Sound s' := by
  simp only [step] at h
  split at h
  · split at h
    · cases h
      exact hs.push nofun
    · rename_i key hkey
      split at h
      · rename_i hin
        cases h
        exact hs.closes (closes_close (A := Excused s) s _ none fun _ => excused_of_completed hs hkey hin hc _ rfl)
          fun _ hA _ => hA
      · split at h <;> cases h <;> exact hs.push nofun
  · cases h

theorem Sound.lookup (hs : Sound s) (id : Nat) (hc : harmless (.lookup id) s = true)
    (h : step (.lookup id) s = some s') : Sound s' := by
  simp only [step] at h
  split at h
  · rename_i r hfind
    split at h
    · have hdrop : (∀ deploymentId runId, s.affinity r.delivery ≠ .deployment deploymentId runId) → Sound (s.drop r) := by
        intro haff
        refine hs.drop (excused_of_affinity hs r.delivery haff) ?_
        simp only [harmless, hfind, Bool.or_eq_true] at hc
        rcases hc with (hans | hdep) | hsame
        · exact .inl hans
        · cases haf : s.affinity r.delivery with
          | deployment deploymentId runId => exact absurd haf (haff deploymentId runId)
          | _ => simp at hdep
        · exact .inr fun r' hr' => by simpa using List.all_eq_true.1 hsame r' hr'
      split at h
      · cases h
        exact hs.advance nofun
      · rename_i heq
        cases h
        exact hdrop fun _ _ => by simp [heq]
      · rename_i heq
        cases h
        exact hdrop fun _ _ => by simp [heq]
    · cases h
  · cases h

theorem Sound.activate (hs : Sound s) (id : Nat) (result : ActivationResult)
    (hc : harmless (.activate id result) s = true) (h : step (.activate id result) s = some s') : Sound s' := by
  simp only [step] at h
  split at h
  · rename_i r hfind
    split at h
    · split at h
      · cases h
        exact hs.advance nofun
      · rename_i outcome hout
        cases h
        simp only [harmless, hfind, Bool.or_eq_true, beq_iff_eq, List.isEmpty_iff] at hc
        rcases hc with (hans | hact) | halone
        · exact hs.settle_answered (fun _ => hans) _
        · rw [hact] at hout
          cases hout
        · refine hs.settle_alone halone ?_
          cases result <;> cases hout <;> rfl
    · cases h
  · cases h

/-- A failed dispatch is retried or dead-lettered. -/
theorem acknowledges_outcome {result : VqsResult} (h : result.accepts = false) (runId : Option RunId)
    (streak : Option Streak) : acknowledges (some (result.outcome runId streak)) = false := by
  cases result with
  | completed => cases h
  | reschedule t => cases h
  | failed status text retryable =>
    unfold VqsResult.outcome
    cases retryable with
    | false => rfl
    | true =>
      dsimp only
      split
      · split <;> rfl
      · rfl

theorem Sound.post (hs : Sound s) (id : Nat) (result : VqsResult) (streak : Option Streak)
    (hc : harmless (.post id result streak) s = true) (h : step (.post id result streak) s = some s') : Sound s' := by
  simp only [step] at h
  split at h
  · rename_i r hfind
    split at h
    · rename_i runId hstage
      have hs₁ := hs.answer r.key result
      cases hacc : result.accepts with
      | true =>
        have hans : r.key.isSome → (s.answer r.key result).isAnswered r.key = true := isAnswered_answer hacc
        split at h <;> cases h
        · exact hs₁.advance fun _ _ => hans
        · exact hs₁.settle_answered hans _
      | false =>
        have hfail := acknowledges_outcome hacc runId streak
        have hsame : s.answer r.key result = s := by simp [Handling.answer, hacc]
        simp only [harmless, hfind, hacc, Bool.or_eq_true, Bool.false_eq_true, or_false, List.isEmpty_iff] at hc
        rw [hsame] at h
        split at h <;> cases h
        · rename_i hout
          rw [hout] at hfail
          cases hfail
        · rcases hc with hans | halone
          · exact hs.settle_answered (fun _ => hans) _
          · exact hs.settle_alone halone hfail
    · cases h
  · cases h

theorem Sound.onDeadLetter (hs : Sound s) (id : Nat) (result : Except String Unit)
    (h : step (.onDeadLetter id result) s = some s') : Sound s' := by
  have hrec : ∀ (r : Running) (ending : Ending), ending ≠ .acknowledged → Sound ((s.remove id).record r ending) :=
    fun r ending hne =>
      (hs.remove id).closes (A := fun _ => False) (closes_record _ r ending fun h => hne h) fun _ hF => hF.elim
  simp only [step] at h
  split at h
  · split at h <;> cases h
    · exact hrec _ _ (fun h => by cases h)
    · exact hrec _ _ (fun h => by cases h)
  · cases h

/-- One event. -/
theorem Sound.step {e : HandlerEvent} (hs : Sound s) (hc : harmless e s = true) (h : Handling.step e s = some s') :
    Sound s' := by
  cases e with
  | write k view => exact hs.write k view h
  | receive d => exact hs.receive d hc h
  | lookup id => exact hs.lookup id hc h
  | activate id result => exact hs.activate id result hc h
  | post id result streak => exact hs.post id result streak hc h
  | reenqueue id =>
    simp only [Handling.step] at h
    split at h
    · rename_i r hfind
      split at h
      · rename_i t hstage
        cases h
        exact hs.settle_answered (hs.reenqueueing r (mem_of_find hfind) t hstage) _
      · cases h
    · cases h
  | throw_ id error =>
    simp only [Handling.step] at h
    split at h
    · split at h <;> cases h
      exact hs.settle_error error
    · cases h
  | onDeadLetter id result => exact hs.onDeadLetter id result h
  | restart =>
    cases h
    exact ⟨by simp, hs.terminal, by simp, hs.ended⟩

/-- In every run of the handler in which no delivery arrives under a key that only a drop has completed
(for another run, or for a quarantine that has been resolved), and no dispatch that is dropped for another
run or fails is waited for, every keyed delivery that is acknowledged without calling the executor has its
reason. -/
theorem suppression_is_sound (h : Machine.Reaches step harmless {} s) : ∀ e ∈ s.ended, e.Justified :=
  (h.invariant sound_init fun _ _ _ hs hc he => hs.step hc he).ended

/-- Deliveries of one keyed message of a run. -/
def keyedDelivery (id : Nat) : Delivery where
  id := id
  isFinalAttempt := false
  message :=
    { attempt := 1, messageId := "m", idempotencyKey := some "k", id := "flow", data := { runId := some "r" },
      tenantId := "t", deploymentId := "d" }

def runView (quarantined : Bool) : RunView := ⟨"d", .running, quarantined⟩

/-- A delivery is answered, the next one is suppressed; a waiter of a dispatch that throws is retried. -/
def answeredRun : List HandlerEvent :=
  [.write ("t", "r") (some (runView false)), .receive (keyedDelivery 0), .receive (keyedDelivery 1), .lookup 0,
    .throw_ 0 "fetch failed", .receive (keyedDelivery 2), .lookup 2, .activate 2 .activated, .post 2 .completed none,
    .receive (keyedDelivery 3)]

theorem suppression_is_sound_answeredRun :
    ∃ s, Machine.Reaches step harmless {} s ∧ (∀ e ∈ s.ended, e.Justified) ∧
      (s.ended.map fun e => (e.running.delivery.id, e.running.called, e.ending)) =
        [(0, false, .threw "Dispatch threw: fetch failed"), (1, false, .threw "Dispatch threw: fetch failed"),
          (2, true, .acknowledged), (3, false, .acknowledged)] := by
  obtain ⟨s, hr, hp⟩ := @Machine.exists_of_play _ _ step harmless {} answeredRun
    (fun s => (s.ended.map fun e => (e.running.delivery.id, e.running.called, e.ending)) ==
        [(0, false, .threw "Dispatch threw: fetch failed"), (1, false, .threw "Dispatch threw: fetch failed"),
          (2, true, .acknowledged), (3, false, .acknowledged)]) (by decide +kernel)
  exact ⟨s, hr, suppression_is_sound hr, by simpa using hp⟩

/-- A message is dropped while its run is quarantined, the quarantine is resolved, the message is
replayed. -/
def replayedRun : List HandlerEvent :=
  [.write ("t", "r") (some (runView true)), .receive (keyedDelivery 0), .lookup 0,
    .write ("t", "r") (some (runView false)), .receive (keyedDelivery 1)]

/-- A delivery waits for one whose activation is not available. -/
def joinedRun : List HandlerEvent :=
  [.write ("t", "r") (some (runView false)), .receive (keyedDelivery 0), .receive (keyedDelivery 1), .lookup 0,
    .activate 0 (.unavailable 503 "no capacity")]

/-- In both runs the second delivery is acknowledged, and nobody executed the message. -/
theorem suppression_unsound_replayed_and_joined :
    (∃ s, Machine.Reaches step Machine.always {} s ∧
      ∃ e ∈ s.ended, e.running.delivery = keyedDelivery 1 ∧ s.answered = [] ∧ ¬ e.Justified) ∧
    ∃ s, Machine.Reaches step Machine.always {} s ∧
      (∃ e ∈ s.ended, e.running.delivery = keyedDelivery 0 ∧ e.ending = .threw "Activation failed (HTTP 503): no capacity") ∧
      ∃ e ∈ s.ended, e.running.delivery = keyedDelivery 1 ∧ s.answered = [] ∧ ¬ e.Justified := by
  constructor
  · obtain ⟨s, hr, hp⟩ := @Machine.exists_of_play _ _ step Machine.always {} replayedRun
      (fun s => decide (∃ e ∈ s.ended, e.running.delivery = keyedDelivery 1 ∧ s.answered = [] ∧ ¬ e.Justified))
      (by decide +kernel)
    exact ⟨s, hr, of_decide_eq_true hp⟩
  · obtain ⟨s, hr, hp⟩ := @Machine.exists_of_play _ _ step Machine.always {} joinedRun
      (fun s => decide ((∃ e ∈ s.ended, e.running.delivery = keyedDelivery 0 ∧
          e.ending = .threw "Activation failed (HTTP 503): no capacity") ∧
        ∃ e ∈ s.ended, e.running.delivery = keyedDelivery 1 ∧ s.answered = [] ∧ ¬ e.Justified))
      (by decide +kernel)
    exact ⟨s, hr, of_decide_eq_true hp⟩

end Handling

end WorkflowWorld.Dispatcher
