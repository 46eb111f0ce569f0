/-
Lifecycle actions and ownership: under the condition that no ownership session ends while its
instance is still starting, an instance unlocks workers, re-enqueues runs and starts its pool only
as the holder of the lock, and unlocks no worker of the holder.
-/
import WorkflowWorld.Dispatcher.Service

namespace WorkflowWorld.Dispatcher

/-! ## What an await does -/

namespace Instance

variable {W : Type} {o : ServiceOptions} {free : Bool} {T : Tables W} {a : Answer}
  {x y : Instance W} {e : Effect W}

/-- How an instance moves on: what it may have noted, whether its pool was started, and what it
did to the lock and to the tables. -/
structure Resumed (free : Bool) (T : Tables W) (x y : Instance W) (e : Effect W) : Prop where
  /-- Only the acquisition leads into a start. -/
  starting : y.phase.starting = true → x.phase.starting = true ∨ e = .takeLock
  lock : e = .takeLock → free = true
  /-- An instance that is starting keeps the lock. -/
  unlock : e = .dropLock → x.phase.starting = false
  beforePool : y.phase.beforePool = true → x.phase.beforePool = true ∧ y.pool = x.pool
  pool : x.pool ≠ .notStarted → y.pool ≠ .notStarted
  noted : ∀ w ∈ y.phase.noted, w ∈ x.phase.noted ∨ w ∈ T.workers
  job : ∀ j, e = .addJob j → j.lockedBy = none

theorem Resumed.idle {p : Phase W} (hs : p.starting = true → x.phase.starting = true)
    (hb : p.beforePool = true → x.phase.beforePool = true)
    (hn : ∀ w ∈ p.noted, w ∈ x.phase.noted ∨ w ∈ T.workers) : Resumed free T x (x.goto p) .nothing :=
  ⟨fun h => .inl (hs h), fun h => (by cases h), fun h => (by cases h), fun h => ⟨hb h, rfl⟩, id, hn,
    fun _ h => (by cases h)⟩

theorem Resumed.effect {e : Effect W} (h : Resumed free T x y .nothing) (he : e ≠ .takeLock)
    (hd : e ≠ .dropLock) (hj : ∀ j, e = .addJob j → j.lockedBy = none) : Resumed free T x y e :=
  ⟨fun hs => (h.starting hs).imp id fun h' => (by cases h'), fun h' => absurd h' he, fun h' => absurd h' hd,
    h.beforePool, h.pool, h.noted, hj⟩

theorem resumed_fail (first : List Cleanup) : Resumed free T x (x.fail first) .nothing :=
  .idle (fun h => (by cases h)) (fun h => (by cases h)) (fun _ h => (by cases h))

theorem resumed_reenqueue {at_ : Nat} {all left : List (SweepRow W)} (hs : x.phase.starting = true)
    (hb : x.phase.beforePool = true) : Resumed free T x (x.reenqueue at_ all left) .nothing := by
  cases left with
  | nil =>
    exact ⟨fun _ => .inl hs, fun h => (by cases h), fun h => (by cases h), fun h => (by cases h), fun _ h => (by cases h),
      fun _ h => (by cases h), fun _ h => (by cases h)⟩
  | cons row left => exact .idle (fun _ => hs) (fun _ => hb) (fun _ h => (by cases h))

theorem resumed_afterReclaim {at_ : Nat} {rows : List (SweepRow W)} (hs : x.phase.starting = true)
    (hb : x.phase.beforePool = true) : Resumed free T x (x.afterReclaim o at_ rows) .nothing := by
  unfold afterReclaim
  split
  · exact .idle (fun _ => hs) (fun _ => hb) (fun _ h => (by cases h))
  · exact resumed_reenqueue hs hb

theorem resumed_cleanUp {left : List Cleanup} (c : Cleanup) (hp : x.phase.starting = false) :
    Resumed free T x ((x.cleanUp a c).1.goto (.cleaningUp left)) (x.cleanUp a c).2 := by
  have hpool : x.pool ≠ .notStarted → (x.cleanUp a c).1.pool ≠ .notStarted := by
    intro h
    cases c <;> simp only [cleanUp] <;> (try split_ifs) <;> simp_all
  refine ⟨fun h => (by cases h), ?_, fun _ => hp, fun h => (by cases h), hpool, fun _ h => (by cases h), ?_⟩
  all_goals
    cases c <;> simp only [cleanUp] <;> (try split_ifs) <;> simp

theorem mem_noted_sweep {at_ : Nat} {w : W} (h : w ∈ (Phase.readingUnqueued at_ T.sweepRows).noted) : w ∈ T.workers := by
  obtain ⟨row, hr, hl⟩ := List.mem_filterMap.1 h
  exact mem_workers_of_sweep hr hl

variable [DecidableEq W]

theorem mem_oldWorkerIds {at_ : Nat} {rows : List (SweepRow W)} {w : W} (h : w ∈ oldWorkerIds rows T.unqueuedLocks) :
    w ∈ (Phase.readingUnqueued at_ rows).noted ∨ w ∈ T.workers :=
  (List.mem_append.1 (List.mem_dedup.1 h)).imp id mem_workers_of_unqueued

/-- Every await of the service, one case for each phase. -/
theorem resume_spec (h : x.resume o free T a = some (y, e)) : Resumed free T x y e := by
  obtain ⟨p, l, lo, st, re, se, pool⟩ := x
  cases p with
  | idle =>
    cases h
    exact ⟨fun h => (by cases h), fun h => (by cases h), fun h => (by cases h), fun _ => ⟨rfl, rfl⟩, id,
      fun _ h => (by cases h), fun _ h => (by cases h)⟩
  | acquiring =>
    simp only [resume] at h
    split_ifs at h with ht hse hf <;> cases h
    · exact .idle (fun h => (by cases h)) (fun h => (by cases h)) (fun _ h => (by cases h))
    · exact ⟨fun _ => .inr rfl, fun _ => hf, fun h => (by cases h), fun _ => ⟨rfl, rfl⟩, id, fun _ h => (by cases h),
        fun _ h => (by cases h)⟩
    · exact .idle (p := .acquiring) id id (fun _ h => (by cases h))
  | configuring =>
    cases h
    exact ⟨fun _ => .inl rfl, fun h => (by cases h), fun h => (by cases h), fun _ => ⟨rfl, rfl⟩, id,
      fun _ h => (by cases h), fun _ h => (by cases h)⟩
  | migrating =>
    cases h
    split
    · exact resumed_fail _
    · exact .idle (fun _ => rfl) (fun _ => rfl) (fun _ h => (by cases h))
  | makingWorkerUtils =>
    cases h
    split_ifs
    · exact resumed_fail _
    all_goals exact .idle (fun _ => rfl) (fun _ => rfl) (fun _ h => (by cases h))
  | preflight =>
    cases h
    split
    · exact resumed_fail _
    · exact .idle (fun _ => rfl) (fun _ => rfl) (fun _ h => (by cases h))
  | sweeping at_ =>
    cases h
    split
    · exact resumed_fail _
    · exact .idle (fun _ => rfl) (fun _ => rfl) (fun _ h => .inr (mem_noted_sweep h))
  | readingUnqueued at_ rows =>
    cases h
    split
    · exact resumed_fail _
    · split
      · exact resumed_afterReclaim rfl rfl
      · exact .idle (fun _ => rfl) (fun _ => rfl) (fun _ h => mem_oldWorkerIds h)
  | unlocking at_ rows ids =>
    cases h
    refine Resumed.effect ?_ (by split <;> simp) (by split <;> simp) (by split <;> simp)
    split
    · exact resumed_fail _
    · exact resumed_afterReclaim rfl rfl
  | filtering at_ offered =>
    cases h
    split
    · exact resumed_fail _
    · exact resumed_reenqueue rfl rfl
  | enqueueing at_ all row left =>
    cases h
    refine (resumed_reenqueue rfl rfl).effect (by split <;> simp) (by split <;> simp) ?_
    intro j hj
    split at hj
    · cases hj
    · cases hj; rfl
  | startingPool =>
    cases h
    split
    · exact ⟨fun h => (by cases h), fun h => (by cases h), fun h => (by cases h), fun h => (by cases h), fun _ h => (by cases h),
        fun _ h => (by cases h), fun _ h => (by cases h)⟩
    · unfold started
      split
      all_goals
        exact ⟨fun h => (by cases h), fun h => (by cases h), fun h => (by cases h), fun h => (by cases h), id,
          fun _ h => (by cases h), fun _ h => (by cases h)⟩
  | ready => cases h
  | cleaningUp left =>
    cases left with
    | nil =>
      cases h
      exact .idle (fun h => (by cases h)) (fun h => (by cases h)) (fun _ h => (by cases h))
    | cons c left =>
      cases h
      exact resumed_cleanUp c rfl
  | gone => cases h

end Instance

/-! ## The invariant -/

namespace Service

variable {I : Type} {s s' : Service I}

/-- The condition: an ownership session does not end while its instance is between acquiring the
lock and having its pool started. -/
def sessionKept : Move I → Service I → Bool
  | .sessionEnds i, s => !(s.inst i).phase.starting
  | _, _ => true

/-- A lifecycle action is under way only at the instance that holds the lock, and no worker id that
is being unlocked belongs to the holder. -/
structure LifecycleOwned (s : Service I) : Prop where
  calls : ∀ i, (s.inst i).phase.acting = true → s.holder = some i
  unlocks : ∀ i sweepStartedAt rows ids, (s.inst i).phase = .unlocking sweepStartedAt rows ids →
    ∀ w ∈ ids, s.holder ≠ some w.owner

/-- Starting instances hold the lock; the locks in the tables, and the worker ids an instance has
read there, are of pools that were started. -/
structure Inv (s : Service I) : Prop where
  held : ∀ i, (s.inst i).phase.starting = true → s.holder = some i
  beforePool : ∀ i, (s.inst i).phase.beforePool = true → (s.inst i).pool = .notStarted
  workers : ∀ w ∈ s.tables.workers, (s.inst w.owner).pool ≠ .notStarted
  noted : ∀ i, ∀ w ∈ (s.inst i).phase.noted, (s.inst w.owner).pool ≠ .notStarted

theorem Boot.inv (h : Boot s) : Inv s := by
  refine ⟨fun i hi => ?_, fun i hi => ?_, fun w hw => ?_, fun i w hw => ?_⟩
  · rcases h.fresh i with e | e <;> simp [e, Phase.starting] at hi
  · rcases h.fresh i with e | e
    · rw [e]
    · simp [e, Phase.beforePool] at hi
  · rw [h.workers w hw]; simp
  · rcases h.fresh i with e | e <;> simp [e, Phase.noted] at hw

theorem Inv.owned (h : Inv s) : LifecycleOwned s := by
  have hs : ∀ p : Phase (Worker I), p.acting = true → p.starting = true := by
    intro p hp; cases p <;> first | rfl | cases hp
  refine ⟨fun i hi => h.held i (hs _ hi), fun i at_ rows ids hp w hw hh => ?_⟩
  -- the unlocking instance is the holder, and its own pool has not been started
  have hi : s.holder = some i := h.held i (by rw [hp]; rfl)
  obtain rfl : w.owner = i := by rw [hi] at hh; exact (Option.some.inj hh).symm
  exact h.noted w.owner w (by rw [hp]; exact hw) (h.beforePool w.owner (by rw [hp]; rfl))

theorem Inv.tables (h : Inv s) {T : Tables (Worker I)}
    (hT : ∀ w ∈ T.workers, (s.inst w.owner).pool ≠ .notStarted) : Inv { s with tables := T } :=
  ⟨h.held, h.beforePool, hT, h.noted⟩

/-- The lock may move while nobody else is starting. -/
theorem Inv.holder (h : Inv s) {l : Option I} (hl : ∀ i, (s.inst i).phase.starting = true → l = some i) :
    Inv { s with holder := l } :=
  ⟨hl, h.beforePool, h.workers, h.noted⟩

/-- `service.stop()` never leads back into a start. -/
theorem phase_stop (x : Instance (Worker I)) : x.stop.pool = x.pool ∧
    (x.stop.phase = x.phase ∨ ∃ left, x.stop.phase = .cleaningUp left) := by
  unfold Instance.stop
  split
  · exact ⟨rfl, .inr ⟨_, rfl⟩⟩
  · exact ⟨rfl, .inl rfl⟩

variable [DecidableEq I] {o : I → ServiceOptions}

/-- A new state of instance `i` that stays where the old one was with respect to the start, notes
nothing new and does not forget that its pool was started. -/
theorem Inv.set (h : Inv s) {i : I} {x : Instance (Worker I)}
    (hs : x.phase.starting = true → s.holder = some i)
    (hb : x.phase.beforePool = true → x.pool = .notStarted)
    (hp : (s.inst i).pool ≠ .notStarted → x.pool ≠ .notStarted)
    (hn : ∀ w ∈ x.phase.noted, (s.inst w.owner).pool ≠ .notStarted) : Inv (s.set i x) := by
  have pool : ∀ j, (s.inst j).pool ≠ .notStarted → ((s.set i x).inst j).pool ≠ .notStarted := by
    intro j hj
    by_cases e : j = i
    · subst e; simpa [Service.set] using hp hj
    · simpa [Service.set, e] using hj
  refine ⟨fun j hj => ?_, fun j hj => ?_, fun w hw => pool _ (h.workers w hw), fun j w hw => pool _ ?_⟩
  all_goals by_cases e : j = i
  · subst e; exact hs (by simpa [Service.set] using hj)
  · exact h.held j (by simpa [Service.set, e] using hj)
  · subst e; simpa [Service.set] using hb (by simpa [Service.set] using hj)
  · simpa [Service.set, e] using h.beforePool j (by simpa [Service.set, e] using hj)
  · subst e; exact hn w (by simpa [Service.set] using hw)
  · exact h.noted j w (by simpa [Service.set, e] using hw)

theorem held_free (h : Inv s) {i : I} (hi : (s.inst i).phase.starting = false) (j : I)
    (hj : (s.inst j).phase.starting = true) : free i s.holder = some j := by
  have hne : j ≠ i := by rintro rfl; rw [hi] at hj; cases hj
  rw [free, h.held j hj, if_neg]
  simpa using hne

theorem inst_apply (i j : I) (e : Effect (Worker I)) : (s.apply i e).inst j = s.inst j := by cases e <;> rfl

theorem Inv.apply (h : Inv s) {i : I} {e : Effect (Worker I)} {y : Instance (Worker I)}
    (r : (s.inst i).Resumed s.holder.isNone s.tables y e) : Inv (s.apply i e) := by
  cases e with
  | nothing => exact h
  | takeLock =>
    refine h.holder fun j hj => ?_
    have hn := Option.isNone_iff_eq_none.1 (r.lock rfl)
    rw [h.held j hj] at hn
    cases hn
  | dropLock => exact h.holder (held_free h (r.unlock rfl))
  | unlockWorkers ids => exact h.tables fun w hw => h.workers w (workers_forceUnlockWorkers hw)
  | addJob job => exact h.tables fun w hw => h.workers w (workers_addJob (r.job job rfl) hw)

theorem Inv.resume (h : Inv s) {i : I} {e : Effect (Worker I)} {y : Instance (Worker I)}
    (r : (s.inst i).Resumed s.holder.isNone s.tables y e) : Inv ((s.apply i e).set i y) := by
  refine (h.apply r).set (fun hs => ?_) (fun hb => ?_) (fun hp => ?_) (fun w hw => ?_)
  · rcases r.starting hs with hx | rfl
    · cases e with
      | takeLock => rfl
      | dropLock => rw [r.unlock rfl] at hx; cases hx
      | _ => exact h.held i hx
    · rfl
  · obtain ⟨hx, hp⟩ := r.beforePool hb
    rw [hp, h.beforePool i hx]
  · rw [inst_apply] at hp; exact r.pool hp
  · rw [inst_apply]
    rcases r.noted w hw with hw | hw
    · exact h.noted i w hw
    · exact h.workers w hw

theorem Inv.same (h : Inv s) {i : I} {x : Instance (Worker I)} (hp : x.pool = (s.inst i).pool)
    (hph : x.phase = (s.inst i).phase ∨ ∃ left, x.phase = .cleaningUp left) : Inv (s.set i x) := by
  rcases hph with e | ⟨left, e⟩
  · exact h.set (by rw [e]; exact h.held i) (by rw [e, hp]; exact h.beforePool i) (by rw [hp]; exact id)
      (by rw [e]; exact h.noted i)
  · exact h.set (by rw [e]; exact fun h => (by cases h)) (by rw [e]; exact fun h => (by cases h))
      (by rw [hp]; exact id) (by rw [e]; exact fun _ h => (by cases h))

/-- One move, whatever it is. -/
theorem Inv.move (h : Inv s) {m : Move I} (hc : sessionKept m s = true) (hm : move o m s = some s') : Inv s' := by
  cases m with
  | resume i a =>
    obtain ⟨⟨y, e⟩, hr, rfl⟩ := Option.map_eq_some_iff.1 hm
    exact h.resume (Instance.resume_spec hr)
  | sessionEnds i =>
    simp only [Service.move] at hm
    split at hm
    · cases hm
      have hi : (s.inst i).phase.starting = false := by simpa [sessionKept] using hc
      exact (h.holder (held_free h hi)).same rfl (.inl rfl)
    · cases hm
  | onLost i =>
    obtain ⟨x, hx, rfl⟩ := Option.map_eq_some_iff.1 hm
    unfold Instance.onLost at hx
    split at hx
    · cases hx
      split
      · exact h.same (phase_stop _).1 (phase_stop _).2
      · exact h.same rfl (.inl rfl)
    · cases hx
  | stop i =>
    cases hm
    exact h.same (phase_stop _).1 (phase_stop _).2
  | crash i =>
    cases hm
    exact h.set (fun h => (by cases h)) (fun h => (by cases h)) (fun _ h => (by cases h)) (fun _ h => (by cases h))
  | claim w T =>
    simp only [Service.move] at hm
    split at hm
    · rename_i hw
      cases hm
      refine h.tables fun v hv => ?_
      rcases hw.2 v hv with rfl | hv
      · rw [hw.1]; simp
      · exact h.workers v hv
    · cases hm
  | world T =>
    simp only [Service.move] at hm
    split at hm
    · rename_i hw
      cases hm
      exact h.tables fun v hv => h.workers v (hw v hv)
    · cases hm

theorem Inv.reaches (h : Inv s) (hr : Reaches o sessionKept s s') : Inv s' := by
  induction hr with
  | refl => exact h
  | tail _ hm ih =>
    obtain ⟨m, hc, hm⟩ := hm
    exact ih.move hc hm

/-- In every run in which no ownership session ends while its instance is starting, lifecycle
actions are the holder's, and boot recovery unlocks no worker of the holder. -/
theorem lifecycle_owned (h : Boot s) (hr : Reaches o sessionKept s s') : LifecycleOwned s' :=
  (h.inv.reaches hr).owned

/-! ## Two generations -/

/-- A run whose delivery waits in its queue, and nobody holding it. -/
def oneRun (lockedBy : Option (Worker (Fin 2))) : Tables (Worker (Fin 2)) :=
  { runs := [⟨"t", "r", "flow", "d", none, .running, 0⟩]
    jobs := [{ task := flowJobName, queueName := some (runQueueName "t" "r"), lockedBy := lockedBy }]
    queues := [⟨runQueueName "t" "r", lockedBy⟩] }

def withPreflight : Fin 2 → ServiceOptions := fun _ => { beforeBootRecovery := true }

/-- The first generation's process has died with a job in hand. -/
def afterCrash : Service (Fin 2) :=
  { inst := fun i => if i = 0 then { phase := .gone, pool := .stopped } else {}
    tables := oneRun (some ⟨0, 0⟩) }

def awaits (i : Fin 2) (n : Nat) : List (Move (Fin 2)) := List.replicate n (.resume i {})

theorem boot_afterCrash : Boot afterCrash := by
  refine ⟨rfl, ?_, by decide +kernel⟩
  intro i
  by_cases e : i = 0
  · subst e; exact .inr rfl
  · exact .inl (if_neg e)

/-- The second generation unlocks the first one's worker, as the holder. -/
theorem lifecycle_owned_afterCrash : ∃ s, LifecycleOwned s ∧ s.holder = some 1 ∧
    (s.inst 1).phase = .unlocking 0 (oneRun (some ⟨0, 0⟩)).sweepRows [⟨0, 0⟩] := by
  obtain ⟨s, hr, hs⟩ := exists_of_play (o := withPreflight) (c := sessionKept) (s := afterCrash) (awaits 1 8)
    (fun s => s.holder = some 1 ∧ (s.inst 1).phase = .unlocking 0 (oneRun (some ⟨0, 0⟩)).sweepRows [⟨0, 0⟩])
    (by decide +kernel)
  exact ⟨s, lifecycle_owned boot_afterCrash hr, (of_decide_eq_true hs).1, (of_decide_eq_true hs).2⟩

/-- A session that ends during the preflight: the second generation takes the lock and claims the
run's job; the first one, not told or told too late, goes on and unlocks the second one's worker. -/
def lostInPreflight : List (Move (Fin 2)) :=
  awaits 0 5 ++ [.sessionEnds 0, .onLost 0] ++ awaits 1 9 ++ [.claim ⟨1, 0⟩ (oneRun (some ⟨1, 0⟩))] ++ awaits 0 3

theorem lifecycle_unowned : ∃ s s' : Service (Fin 2), Boot s ∧ Reaches withPreflight (fun _ _ => true) s s' ∧
    ¬ LifecycleOwned s' := by
  obtain ⟨s, hr, hs⟩ := exists_of_play (o := withPreflight) (c := fun _ _ => true)
    (s := { tables := oneRun none }) lostInPreflight
    (fun s => s.holder = some 1 ∧ (s.inst 1).phase = .ready ∧
      (s.inst 0).phase = .unlocking 0 (oneRun (some ⟨1, 0⟩)).sweepRows [⟨1, 0⟩]) (by decide +kernel)
  obtain ⟨hh, -, hp⟩ := of_decide_eq_true hs
  refine ⟨_, s, ⟨rfl, fun _ => .inl rfl, by decide +kernel⟩, hr, fun h => ?_⟩
  exact h.unlocks 0 _ _ _ hp ⟨1, 0⟩ (List.mem_singleton_self _) hh

end Service

end WorkflowWorld.Dispatcher
