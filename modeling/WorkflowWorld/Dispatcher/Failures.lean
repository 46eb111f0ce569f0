/-
Executor failures (`dispatchMessage`, `createExecutorFailureTracker` of `src/dispatcher/dispatcher.ts`): the
streaks of 5xx answers that the dispatcher keeps of the runs it delivers to, and the dead letters that it
writes for them.
-/
import WorkflowWorld.Dispatcher.Handler
import WorkflowWorld.Dispatcher.Config
import WorkflowWorld.Dispatcher.DeadLetters
import WorkflowWorld.Lists.OrderedMap
import Mathlib.Data.List.Induction

namespace WorkflowWorld.Dispatcher

open Lists

/-! ## The tracker -/

structure FailureStreak where
  count : Nat
  firstAt : Int
  deriving DecidableEq, Repr

/-- What a tracker is made with; without a bound it forgets no run. -/
structure ExecutorFailureTracker where
  limit : Nat
  minSpanMs : Int
  trackedRuns : Option Nat
  deriving DecidableEq, Repr

def createExecutorFailureTracker (limit : Option Nat) (minSpanMs : Option Int) (trackedRuns : Option (Option Nat)) :
    Except String ExecutorFailureTracker :=
  let limit := limit.getD defaultExecutorFailureLimit
  if limit < 1 then .error "Executor failure limit must be a positive number."
  else .ok ⟨limit, minSpanMs.getD defaultExecutorFailureMinSpanMs, trackedRuns.getD (some 10000)⟩

abbrev Streaks := List (String × FailureStreak)

/-- What `record` reports. -/
structure Recorded where
  count : Nat
  spanMs : Int
  exhausted : Bool
  deriving DecidableEq, Repr

namespace ExecutorFailureTracker

variable (t : ExecutorFailureTracker)

def streakOf (now : Int) (key : String) (streaks : Streaks) : FailureStreak :=
  match streaks.lookup key with
  | some previous => { count := previous.count + 1, firstAt := previous.firstAt }
  | none => { count := 1, firstAt := now }

/-- The oldest streak makes room. -/
def evict (streaks : Streaks) : Streaks :=
  if t.trackedRuns.any fun bound => decide (streaks.length > bound) then
    match streaks with
    | (oldest, _) :: _ => erase oldest streaks
    | [] => []
  else streaks

def record (now : Int) (key : String) (streaks : Streaks) : Recorded × Streaks :=
  let streak := streakOf now key streaks
  let spanMs := max 0 (now - streak.firstAt)
  ({ count := streak.count, spanMs, exhausted := decide (streak.count ≥ t.limit) && decide (spanMs ≥ t.minSpanMs) },
    t.evict (set key streak (erase key streaks)))

end ExecutorFailureTracker

/-! ## Deliveries -/

/-- A delivery that the executor has answered, and when. -/
structure Answered where
  tenantId : TenantId
  runId : Option RunId
  at_ : Int
  result : VqsResult
  deriving DecidableEq, Repr

namespace Answered

def run (d : Answered) : Option RunKey := d.runId.map fun runId => (d.tenantId, runId)

def failureKey (d : Answered) : Option String := d.runId.map fun runId => d.tenantId ++ ":" ++ runId

/-- The executor ran the message and threw. -/
def fails (d : Answered) : Bool :=
  match d.result with
  | .failed status _ retryable => retryable && decide (status ≥ 500)
  | _ => false

end Answered

/-- `Math.round` of a span in seconds. -/
def Recorded.seconds (streak : Recorded) : Nat := (streak.spanMs.toNat + 500) / 1000

/-- The end of `dispatchMessage`, with the executor's answer: what the dispatch comes to, and the streaks it leaves. -/
def ExecutorFailureTracker.dispatched (t : ExecutorFailureTracker) (d : Answered) (streaks : Streaks) : DispatchOutcome × Streaks :=
  match d.failureKey with
  | none => (d.result.outcome d.runId none, streaks)
  | some key =>
    if d.result.accepts then (d.result.outcome d.runId none, erase key streaks)
    else if d.fails then
      let (streak, streaks) := t.record d.at_ key streaks
      if streak.exhausted then (d.result.outcome d.runId (some ⟨streak.count, streak.seconds⟩), erase key streaks)
      else (d.result.outcome d.runId none, streaks)
    else (d.result.outcome d.runId none, streaks)

/-- A delivery is answered, or a streak is forgotten, at any moment and for any reason. -/
inductive TrackerEvent where
  | answered (d : Answered)
  | forgotten (key : String)
  deriving DecidableEq, Repr

namespace ExecutorFailureTracker

variable (t : ExecutorFailureTracker)

def step (streaks : Streaks) : TrackerEvent → Streaks
  | .answered d => (t.dispatched d streaks).2
  | .forgotten key => erase key streaks

/-- The streaks after a sequence of events. -/
def after (events : List TrackerEvent) : Streaks := events.foldl t.step []

end ExecutorFailureTracker

def answers (events : List TrackerEvent) : List Answered :=
  events.filterMap fun
    | .answered d => some d
    | .forgotten _ => none

/-- After these events, the dispatch of a delivery that failed comes to a dead letter. -/
def ExecutorFailureTracker.DeadLetters (t : ExecutorFailureTracker) (events : List TrackerEvent) (d : Answered) : Prop :=
  d.fails = true ∧ ∃ reason, (t.dispatched d (t.after events)).1 = .deadLetter reason

/-! ## What a dead letter takes -/

/-- The deliveries of the run up to this one, from a first that failed on: none of them was accepted, enough of them failed, and
the first and the last lie far enough apart. -/
def Justified (t : ExecutorFailureTracker) (before : List Answered) (d : Answered) : Prop :=
  ∃ earlier first rest, before ++ [d] = earlier ++ first :: rest ∧ first.run = d.run ∧ first.fails = true ∧
    (∀ x ∈ first :: rest, x.run = d.run → x.result.accepts = false) ∧
    t.limit ≤ (first :: rest).countP (fun x => x.run == d.run && x.fails) ∧ t.minSpanMs ≤ max 0 (d.at_ - first.at_)

/-- What a tracker holds of a run: a streak that began with a delivery that failed, and counts no more than have failed since. -/
def Since (l : List Answered) (key : String) (s : FailureStreak) : Prop :=
  ∃ earlier first rest, l = earlier ++ first :: rest ∧ first.failureKey = some key ∧ first.fails = true ∧ first.at_ = s.firstAt ∧
    (∀ x ∈ first :: rest, x.failureKey = some key → x.result.accepts = false) ∧
    s.count ≤ (first :: rest).countP fun x => x.failureKey == some key && x.fails

open ExecutorFailureTracker

section Streaks

variable {t : ExecutorFailureTracker} {l : List Answered} {d : Answered} {key key' : String} {s : FailureStreak}
  {streaks : Streaks} {e : String × FailureStreak} {now : Int}

theorem Answered.fails_accepts (h : d.fails = true) : d.result.accepts = false := by
  unfold fails at h
  cases hr : d.result with
  | failed => rfl
  | completed | reschedule => rw [hr] at h; cases h

/-- Of a delivery that is not accepted, a streak counts a failure at most. -/
theorem Since.goesOn (h : Since l key s) (hd : d.failureKey = some key → d.result.accepts = false) {n : Nat}
    (hn : n ≤ s.count + [d].countP fun x => x.failureKey == some key && x.fails) : Since (l ++ [d]) key ⟨n, s.firstAt⟩ := by
  obtain ⟨earlier, first, rest, rfl, hkey, hf, hat, hnone, hcount⟩ := h
  refine ⟨earlier, first, rest ++ [d], by rw [List.append_assoc, List.cons_append], hkey, hf, hat, fun x hx hk => ?_, ?_⟩
  · rw [← List.cons_append] at hx
    rcases List.mem_append.1 hx with hx | hx
    · exact hnone x hx hk
    · rw [List.mem_singleton.1 hx] at hk ⊢
      exact hd hk
  · rw [← List.cons_append, List.countP_append]
    exact hn.trans (Nat.add_le_add_right hcount _)

theorem Since.snoc (h : Since l key s) (hd : d.failureKey = some key → d.result.accepts = false) : Since (l ++ [d]) key s :=
  h.goesOn hd (Nat.le_add_right _ _)

theorem countP_fails (hk : d.failureKey = some key) (hf : d.fails = true) :
    ([d].countP fun x => x.failureKey == some key && x.fails) = 1 := by
  rw [List.countP_singleton, hk, hf, beq_self_eq_true]
  rfl

/-- A streak begins. -/
theorem since_first (hk : d.failureKey = some key) (hf : d.fails = true) : Since (l ++ [d]) key ⟨1, d.at_⟩ := by
  refine ⟨l, d, [], rfl, hk, hf, rfl, fun x hx _ => ?_, (countP_fails hk hf).ge⟩
  rw [List.mem_singleton.1 hx]
  exact Answered.fails_accepts hf

/-- The streak that a failure makes. -/
theorem since_streakOf (h : ∀ e ∈ streaks, Since l e.1 e.2) (hk : d.failureKey = some key) (hf : d.fails = true) :
    Since (l ++ [d]) key (streakOf d.at_ key streaks) := by
  unfold streakOf
  cases hl : streaks.lookup key with
  | none => exact since_first hk hf
  | some previous =>
    exact (h _ (mem_of_lookup hl)).goesOn (fun _ => Answered.fails_accepts hf) (by rw [countP_fails hk hf])

theorem evict_subset (h : e ∈ t.evict streaks) : e ∈ streaks := by
  unfold ExecutorFailureTracker.evict at h
  split at h
  · cases streaks with
    | nil => exact h
    | cons oldest streaks => exact (mem_erase.1 h).1
  · exact h

/-- After a failure, the streaks that are kept are the run's, which has it, and others that were there. -/
theorem mem_record (h : e ∈ (t.record now key streaks).2) :
    e = (key, streakOf now key streaks) ∨ e ∈ streaks ∧ e.1 ≠ key :=
  (mem_set_erase.1 (evict_subset h)).symm

/-- What the streaks are after a delivery: those there were without the run's, and a new one of the run if it failed. -/
theorem mem_dispatched (h : e ∈ (t.dispatched d streaks).2) :
    e ∈ streaks ∧ (d.failureKey = some e.1 → d.result.accepts = false ∧ d.fails = false) ∨
    d.failureKey = some e.1 ∧ d.fails = true ∧ e.2 = streakOf d.at_ e.1 streaks ∧ (t.record d.at_ e.1 streaks).1.exhausted = false := by
  unfold dispatched at h
  cases hk : d.failureKey with
  | none =>
    rw [hk] at h
    exact .inl ⟨h, fun hk' => by cases hk'⟩
  | some key =>
    rw [hk] at h
    dsimp only at h
    split at h
    · obtain ⟨hin, hne⟩ := mem_erase.1 h
      exact .inl ⟨hin, fun hk' => absurd (Option.some.inj hk').symm hne⟩
    · rename_i hacc
      split at h
      · rename_i hf
        split at h
        · obtain ⟨hin, hne⟩ := mem_erase.1 h
          rcases mem_record hin with rfl | ⟨hin, -⟩
          · exact absurd rfl hne
          · exact .inl ⟨hin, fun hk' => absurd (Option.some.inj hk').symm hne⟩
        · rename_i hex
          rcases mem_record h with rfl | ⟨hin, hne⟩
          · exact .inr ⟨rfl, hf, rfl, by simpa using hex⟩
          · exact .inl ⟨hin, fun hk' => absurd (Option.some.inj hk').symm hne⟩
      · rename_i hf
        exact .inl ⟨h, fun _ => ⟨by simpa using hacc, by simpa using hf⟩⟩

theorem outcome_of_fails (hf : d.fails = true) (streak : Option Streak) :
    (∃ reason, d.result.outcome d.runId streak = .deadLetter reason) ↔ d.failureKey.isSome ∧ streak.isSome := by
  unfold Answered.fails at hf
  unfold Answered.failureKey
  cases hr : d.result with
  | completed | reschedule => rw [hr] at hf; cases hf
  | failed status text retryable =>
    rw [hr, Bool.and_eq_true, decide_eq_true_eq] at hf
    obtain ⟨rfl, hstatus⟩ := hf
    cases d.runId with
    | none => exact iff_of_false (fun ⟨_, h⟩ => by cases h) fun h => by cases h.1
    | some runId =>
      cases streak with
      | none => exact iff_of_false (fun ⟨_, h⟩ => by cases h) fun h => by cases h.2
      | some streak =>
        refine iff_of_true ?_ ⟨rfl, rfl⟩
        simp only [VqsResult.outcome, if_pos hstatus]
        exact ⟨_, rfl⟩

/-- The dead letter of a delivery that failed is that of a streak that is exhausted. -/
theorem deadLetter_iff (hf : d.fails = true) : (∃ reason, (t.dispatched d streaks).1 = .deadLetter reason) ↔
    ∃ key, d.failureKey = some key ∧ (t.record d.at_ key streaks).1.exhausted = true := by
  unfold dispatched
  cases hk : d.failureKey with
  | none =>
    have hnone := outcome_of_fails hf none
    rw [hk] at hnone
    exact hnone.trans (iff_of_false (fun h => by cases h.1) fun ⟨_, h, _⟩ => by cases h)
  | some key =>
    dsimp only
    rw [Answered.fails_accepts hf, if_neg Bool.false_ne_true, if_pos hf]
    cases hex : (t.record d.at_ key streaks).1.exhausted with
    | false =>
      rw [if_neg Bool.false_ne_true]
      have hno := outcome_of_fails hf none
      exact hno.trans (iff_of_false (fun h => by cases h.2) fun ⟨_, h, hex'⟩ => by
        cases h
        rw [hex] at hex'
        cases hex')
    | true =>
      rw [if_pos rfl]
      have hyes := outcome_of_fails hf (some ⟨(t.record d.at_ key streaks).1.count, (t.record d.at_ key streaks).1.seconds⟩)
      rw [hk] at hyes
      exact hyes.trans (iff_of_true ⟨rfl, rfl⟩ ⟨key, rfl, hex⟩)

theorem exhausted_iff : (t.record now key streaks).1.exhausted = true ↔
    t.limit ≤ (streakOf now key streaks).count ∧ t.minSpanMs ≤ max 0 (now - (streakOf now key streaks).firstAt) := by
  show (decide _ && decide _) = true ↔ _
  rw [Bool.and_eq_true, decide_eq_true_eq, decide_eq_true_eq]

/-! ## Every sequence -/

theorem answers_concat_answered (events : List TrackerEvent) (d : Answered) :
    answers (events ++ [.answered d]) = answers events ++ [d] := by
  unfold answers
  rw [List.filterMap_append]
  rfl

theorem answers_concat_forgotten (events : List TrackerEvent) (key : String) :
    answers (events ++ [.forgotten key]) = answers events := by
  unfold answers
  rw [List.filterMap_append]
  exact List.append_nil _

theorem after_concat (t : ExecutorFailureTracker) (events : List TrackerEvent) (e : TrackerEvent) :
    t.after (events ++ [e]) = t.step (t.after events) e := by
  unfold after
  rw [List.foldl_append]
  rfl

/-- A delivery leaves streaks of the failures so far. -/
theorem since_dispatched (h : ∀ e ∈ streaks, Since l e.1 e.2) : ∀ e ∈ (t.dispatched d streaks).2, Since (l ++ [d]) e.1 e.2 := by
  intro e he
  rcases mem_dispatched he with ⟨hin, hnone⟩ | ⟨hk, hf, hs, -⟩
  · exact (h e hin).snoc fun hk => (hnone hk).1
  · rw [hs]
    exact since_streakOf h hk hf

theorem since_after (t : ExecutorFailureTracker) (events : List TrackerEvent) :
    ∀ e ∈ t.after events, Since (answers events) e.1 e.2 := by
  induction events using List.reverseRecOn with
  | nil => intro e he; cases he
  | append_singleton events ev ih =>
    rw [after_concat]
    cases ev with
    | answered d =>
      rw [answers_concat_answered]
      exact since_dispatched ih
    | forgotten key =>
      rw [answers_concat_forgotten]
      exact fun e he => ih e (mem_erase.1 he).1

end Streaks

/-! ## Tenants -/

/-- What stands before the first separator is told apart from what follows. -/
theorem separated_inj {α : Type} {c : α} {a a' b b' : List α} (ha : c ∉ a) (ha' : c ∉ a') (h : a ++ c :: b = a' ++ c :: b') :
    a = a' ∧ b = b' := by
  induction a generalizing a' with
  | nil =>
    cases a' with
    | nil => exact ⟨rfl, (List.cons.inj h).2⟩
    | cons x a' => exact absurd (List.cons.inj h).1 fun heq => ha' (heq ▸ List.mem_cons_self)
  | cons x a ih =>
    cases a' with
    | nil => exact absurd (List.cons.inj h).1 fun heq => ha (heq ▸ List.mem_cons_self)
    | cons y a' =>
      obtain ⟨rfl, htail⟩ := List.cons.inj h
      obtain ⟨rfl, rfl⟩ := ih (fun hm => ha (List.mem_cons_of_mem _ hm)) (fun hm => ha' (List.mem_cons_of_mem _ hm)) htail
      exact ⟨rfl, rfl⟩

theorem colon_notMem {tenantId : TenantId} (h : assertValidTenantId tenantId = .ok ()) : ':' ∉ tenantId.toList := by
  unfold assertValidTenantId at h
  split at h
  · cases h
  · split at h
    · rename_i hall
      intro hmem
      have hc := List.all_eq_true.1 hall _ hmem
      revert hc
      decide
    · cases h

/-- Where tenant ids are valid, a failure key names one run. -/
theorem failureKey_inj {x y : Answered} (hx : assertValidTenantId x.tenantId = .ok ()) (hy : assertValidTenantId y.tenantId = .ok ()) :
    x.failureKey = y.failureKey ↔ x.run = y.run := by
  unfold Answered.failureKey Answered.run
  rcases x.runId with _ | r
  · cases y.runId <;> simp
  rcases y.runId with _ | r'
  · simp
  simp only [Option.map_some, Option.some.injEq, Prod.mk.injEq]
  constructor
  · intro h
    have hlist := congrArg String.toList h
    simp only [String.toList_append] at hlist
    rw [List.append_assoc, List.append_assoc] at hlist
    obtain ⟨h₁, h₂⟩ := separated_inj (colon_notMem hx) (colon_notMem hy) hlist
    exact ⟨String.toList_injective h₁, String.toList_injective h₂⟩
  · rintro ⟨h₁, h₂⟩
    rw [h₁, h₂]

/-! ## Without a bound -/

/-- The same tracker, that forgets no run. -/
def ExecutorFailureTracker.unbounded (t : ExecutorFailureTracker) : ExecutorFailureTracker := { t with trackedRuns := none }

/-- Without a bound, a dead letter comes at one of these deliveries, and no later one is accepted. -/
def Lettered (t : ExecutorFailureTracker) (l : List Answered) (key : String) : Prop :=
  ∃ earlier d rest, l = earlier ++ d :: rest ∧ t.unbounded.DeadLetters (earlier.map .answered) d ∧ d.failureKey = some key ∧
    ∀ x ∈ d :: rest, x.failureKey = some key → x.result.accepts = false

section Unbounded

variable {t : ExecutorFailureTracker} {l : List Answered} {d : Answered} {key : String} {streaks m u : Streaks} {now : Int}

theorem Lettered.snoc (h : Lettered t l key) (hd : d.failureKey = some key → d.result.accepts = false) :
    Lettered t (l ++ [d]) key := by
  obtain ⟨earlier, d', rest, rfl, hletter, hkey, hnone⟩ := h
  refine ⟨earlier, d', rest ++ [d], by rw [List.append_assoc, List.cons_append], hletter, hkey, fun x hx hk => ?_⟩
  rw [← List.cons_append] at hx
  rcases List.mem_append.1 hx with hx | hx
  · exact hnone x hx hk
  · rw [List.mem_singleton.1 hx] at hk ⊢
    exact hd hk

theorem answers_answered (l : List Answered) : answers (l.map .answered) = l := by
  unfold answers
  rw [List.filterMap_map]
  exact List.filterMap_some

/-- Without a bound, a run's streak is left alone by what is not about it. -/
theorem lookup_dispatched (h : d.failureKey = some key → d.result.accepts = false ∧ d.fails = false) :
    (t.unbounded.dispatched d streaks).2.lookup key = streaks.lookup key := by
  unfold dispatched
  cases hk : d.failureKey with
  | none => rfl
  | some key' =>
    dsimp only
    by_cases hne : key = key'
    · subst hne
      obtain ⟨hacc, hf⟩ := h hk
      rw [hacc, hf]
      rfl
    · split
      · exact lookup_erase_of_ne hne
      · split
        · split
          · rw [lookup_erase_of_ne hne]
            exact lookup_set_erase_of_ne hne
          · exact lookup_set_erase_of_ne hne
        · rfl

/-- Without a bound, a failure leaves the run's streak, unless that is exhausted. -/
theorem lookup_dispatched_self (hk : d.failureKey = some key) (hf : d.fails = true)
    (hex : (t.unbounded.record d.at_ key streaks).1.exhausted = false) :
    (t.unbounded.dispatched d streaks).2.lookup key = some (streakOf d.at_ key streaks) := by
  unfold dispatched
  rw [hk]
  dsimp only
  rw [Answered.fails_accepts hf, if_neg Bool.false_ne_true, if_pos hf, hex, if_neg Bool.false_ne_true]
  exact lookup_set_erase_self

/-- A streak counts no more, and began no earlier, than another one. -/
def Within (s s' : FailureStreak) : Prop := s.count ≤ s'.count ∧ s'.firstAt ≤ s.firstAt

/-- Each streak is within the run's streak of the tracker without a bound, or that one has written a letter. -/
def Behind (t : ExecutorFailureTracker) (l : List Answered) (m u : Streaks) : Prop :=
  ∀ e ∈ m, (∃ s', u.lookup e.1 = some s' ∧ Within e.2 s') ∨ Lettered t l e.1

theorem streakOf_within (hb : Behind t l m u) (hu : ∀ e ∈ u, Since l e.1 e.2) (hnow : ∀ x ∈ l, x.at_ ≤ now) :
    Within (streakOf now key m) (streakOf now key u) ∨ Lettered t l key := by
  unfold streakOf
  cases hm : m.lookup key with
  | some s =>
    refine (hb _ (mem_of_lookup hm)).imp_left ?_
    rintro ⟨s', hs', hle, hfirst⟩
    rw [hs']
    exact ⟨Nat.succ_le_succ hle, hfirst⟩
  | none =>
    cases hl : u.lookup key with
    | none => exact .inl ⟨Nat.le_refl _, le_refl _⟩
    | some s' =>
      -- the other streak began with a delivery that was answered before now
      obtain ⟨earlier, first, rest, rfl, -, -, hat, -⟩ := hu _ (mem_of_lookup hl)
      have hle := hnow first (by simp)
      exact .inl ⟨Nat.succ_le_succ (Nat.zero_le _), by rw [← hat]; exact hle⟩

theorem exhausted_of_within (hw : Within (streakOf now key m) (streakOf now key u)) (h : (t.record now key m).1.exhausted = true) :
    (t.unbounded.record now key u).1.exhausted = true := by
  obtain ⟨hcount, hspan⟩ := exhausted_iff.1 h
  have hfirst := hw.2
  exact exhausted_iff.2 ⟨hcount.trans hw.1, hspan.trans (by omega)⟩

/-- What the tracker without a bound holds after the answers. -/
abbrev unboundedAfter (t : ExecutorFailureTracker) (l : List Answered) : Streaks := t.unbounded.after (l.map .answered)

theorem unboundedAfter_concat (t : ExecutorFailureTracker) (l : List Answered) (d : Answered) :
    unboundedAfter t (l ++ [d]) = (t.unbounded.dispatched d (unboundedAfter t l)).2 := by
  unfold unboundedAfter
  rw [List.map_append, List.map_singleton, after_concat]
  rfl

theorem lettered_of_exhausted (hk : d.failureKey = some key) (hf : d.fails = true)
    (hex : (t.unbounded.record d.at_ key (unboundedAfter t l)).1.exhausted = true) : Lettered t (l ++ [d]) key := by
  refine ⟨l, d, [], rfl, ⟨hf, (deadLetter_iff hf).2 ⟨key, hk, hex⟩⟩, hk, fun x hx _ => ?_⟩
  rw [List.mem_singleton.1 hx]
  exact Answered.fails_accepts hf

theorem since_unboundedAfter (t : ExecutorFailureTracker) (l : List Answered) :
    ∀ e ∈ unboundedAfter t l, Since l e.1 e.2 := by
  have h := since_after t.unbounded (l.map .answered)
  rwa [answers_answered] at h

theorem behind_dispatched (hb : Behind t l m (unboundedAfter t l)) (hnow : ∀ x ∈ l, x.at_ ≤ d.at_) :
    Behind t (l ++ [d]) (t.dispatched d m).2 (unboundedAfter t (l ++ [d])) := by
  intro e he
  rw [unboundedAfter_concat]
  rcases mem_dispatched he with ⟨hin, hnone⟩ | ⟨hk, hf, hs, -⟩
  · rw [lookup_dispatched hnone]
    exact (hb e hin).imp_right fun hl => hl.snoc fun hk => (hnone hk).1
  · have hwithin : Within (streakOf d.at_ e.1 m) (streakOf d.at_ e.1 (unboundedAfter t l)) ∨ Lettered t l e.1 :=
      streakOf_within hb (since_unboundedAfter t l) hnow
    rcases hwithin with hw | hl
    · cases hex : (t.unbounded.record d.at_ e.1 (unboundedAfter t l)).1.exhausted with
      | true => exact .inr (lettered_of_exhausted hk hf hex)
      | false => exact .inl ⟨_, lookup_dispatched_self hk hf hex, by rw [hs]; exact hw⟩
    · exact .inr (hl.snoc fun _ => Answered.fails_accepts hf)

theorem behind_after (t : ExecutorFailureTracker) (events : List TrackerEvent)
    (hsorted : (answers events).Pairwise fun x y => x.at_ ≤ y.at_) :
    Behind t (answers events) (t.after events) (unboundedAfter t (answers events)) := by
  induction events using List.reverseRecOn with
  | nil => intro e he; cases he
  | append_singleton events ev ih =>
    rw [after_concat]
    cases ev with
    | answered d =>
      rw [answers_concat_answered] at hsorted ⊢
      obtain ⟨hbefore, -, hlast⟩ := List.pairwise_append.1 hsorted
      exact behind_dispatched (ih hbefore) fun x hx => hlast x hx d (List.mem_singleton_self d)
    | forgotten key =>
      rw [answers_concat_forgotten] at hsorted ⊢
      exact fun e he => ih hsorted e (mem_erase.1 he).1

end Unbounded

/-! ## Containment -/

/-- Without a bound, the run has a dead letter at this delivery or at an earlier one, and no delivery of it since then is
accepted. -/
def Delayed (t : ExecutorFailureTracker) (before : List Answered) (d : Answered) : Prop :=
  ∃ earlier d' rest, before ++ [d] = earlier ++ d' :: rest ∧ t.unbounded.DeadLetters (earlier.map .answered) d' ∧ d'.run = d.run ∧
    ∀ x ∈ d' :: rest, x.run = d.run → x.result.accepts = false

end WorkflowWorld.Dispatcher
