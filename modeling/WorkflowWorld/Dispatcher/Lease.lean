/-
The lease of a dispatch (`src/dispatcher/lease.ts`): a timer renews it while the body runs, and failures in a
row abort the body. The answers of the renew calls come at any time, in any order, or not at all; only they
are counted, and the time that passes without one is not.
-/
import WorkflowWorld.Dispatcher.Config
import Mathlib.Logic.Relation
import Mathlib.Tactic.Ring
import Mathlib.Tactic.Linarith

namespace WorkflowWorld.Dispatcher

/-! ## `withRenewedLease` -/

structure LeaseInput where
  leaseId : String
  renewIntervalMs : Nat
  leaseTtlMs : Option Nat := none

/-- How many misses in a row are absorbed: one interval is reserved as the margin that makes the last attempt useful. -/
def LeaseInput.allowedFailures (input : LeaseInput) : Nat :=
  match input.leaseTtlMs with
  | some leaseTtlMs => if input.renewIntervalMs > 0 then leaseTtlMs / input.renewIntervalMs - 2 else 0
  | none => 0

def LeaseInput.couldNotBeRenewed (input : LeaseInput) (failures : Nat) : String :=
  "Activation lease " ++ input.leaseId ++ " could not be renewed " ++ toString failures ++
    " time(s) in a row; aborting dispatch."

/-- A dispatch under its lease, from the moment its body is started. -/
structure LeasedDispatch where
  now : Nat := 0
  running : Bool := true
  /-- The renew calls made so far, one at each tick of the timer. -/
  sent : Nat := 0
  /-- Those without an answer, by their tick. -/
  unanswered : List Nat := []
  consecutiveFailures : Nat := 0
  /-- What the signal was aborted with. -/
  aborted : Option String := none
  /-- The later of the start and the sending of the last renew call that succeeded. -/
  renewedAt : Nat := 0
  deriving DecidableEq, Repr

namespace LeasedDispatch

variable (input : LeaseInput)

/-- `giveUp`: only the first abort of a signal counts. -/
def giveUp (error : String) (s : LeasedDispatch) : LeasedDispatch := { s with aborted := s.aborted <|> some error }

def onFailure (error : String) (s : LeasedDispatch) : LeasedDispatch :=
  let s := { s with consecutiveFailures := s.consecutiveFailures + 1 }
  if s.consecutiveFailures > input.allowedFailures then s.giveUp error else s

/-- The answer of the renew call of tick `k`: whether the lease was renewed, or a rejection. -/
def onAnswer (k : Nat) (answer : Except String Bool) (s : LeasedDispatch) : LeasedDispatch :=
  let s := { s with unanswered := s.unanswered.erase k }
  match answer with
  | .ok true => { s with consecutiveFailures := 0, renewedAt := max s.renewedAt (k * input.renewIntervalMs) }
  | .ok false => s.onFailure input (input.couldNotBeRenewed (s.consecutiveFailures + 1))
  | .error error => s.onFailure input error

/-- One step. The timer fires on time while the body runs; once it has settled the timer is cleared. -/
inductive Step : LeasedDispatch → LeasedDispatch → Prop
  | tick {s : LeasedDispatch} (hrun : s.running = true) (hdue : s.now = (s.sent + 1) * input.renewIntervalMs) :
      Step s { s with sent := s.sent + 1, unanswered := s.unanswered ++ [s.sent + 1] }
  | answer {s : LeasedDispatch} {k : Nat} (answer : Except String Bool) (hk : k ∈ s.unanswered) :
      Step s (s.onAnswer input k answer)
  | settle (s : LeasedDispatch) : Step s { s with running := false }
  | pass {s : LeasedDispatch} (d : Nat) (hdue : s.running = true → s.now + d ≤ (s.sent + 1) * input.renewIntervalMs) :
      Step s { s with now := s.now + d }

/-- Every renew call that has no answer was made less than `budgetMs` ago. -/
def Prompt (budgetMs : Nat) (s : LeasedDispatch) : Prop := ∀ k ∈ s.unanswered, s.now < k * input.renewIntervalMs + budgetMs

/-- The runs in which every renew call is answered within `budgetMs`. -/
def PromptRun (budgetMs : Nat) : LeasedDispatch → LeasedDispatch → Prop :=
  Relation.ReflTransGen fun s s' => Step input s s' ∧ Prompt input budgetMs s'

/-- A body that still runs has a lease. -/
def Held (leaseTtlMs : Nat) (s : LeasedDispatch) : Prop :=
  s.running = true → s.aborted = none → s.now < s.renewedAt + leaseTtlMs

end LeasedDispatch

/-- How soon a renew call has to be answered: where no failure is absorbed, before the lease would lapse; else before
the next one is made. -/
def answerBudgetMs (renewIntervalMs leaseTtlMs : Nat) : Nat :=
  if leaseTtlMs < 3 * renewIntervalMs then leaseTtlMs - renewIntervalMs else renewIntervalMs

/-! ## Prompt answers keep the lease -/

namespace LeasedDispatch

section Prompt

variable {input : LeaseInput} {I T D : Nat} {s s' : LeasedDispatch} {error : String} {k : Nat} {answer : Except String Bool}

theorem onFailure_rest : (s.onFailure input error).now = s.now ∧ (s.onFailure input error).running = s.running ∧
    (s.onFailure input error).sent = s.sent ∧ (s.onFailure input error).unanswered = s.unanswered ∧
    (s.onFailure input error).renewedAt = s.renewedAt ∧
    (s.onFailure input error).consecutiveFailures = s.consecutiveFailures + 1 := by
  unfold onFailure
  simp only
  split <;> exact ⟨rfl, rfl, rfl, rfl, rfl, rfl⟩

/-- A failure that is absorbed is within what is allowed, and a signal that was aborted stays so. -/
theorem onFailure_aborted (h : (s.onFailure input error).aborted = none) :
    s.aborted = none ∧ s.consecutiveFailures + 1 ≤ input.allowedFailures := by
  unfold onFailure at h
  simp only at h
  split at h
  · simp only [giveUp] at h
    cases hs : s.aborted with
    | none => rw [hs] at h; cases h
    | some e => rw [hs] at h; cases h
  · exact ⟨h, by omega⟩

/-- What an answer leaves as it was. -/
structure Unmoved (k : Nat) (s s' : LeasedDispatch) : Prop where
  now : s'.now = s.now
  running : s'.running = s.running
  sent : s'.sent = s.sent
  unanswered : s'.unanswered = s.unanswered.erase k

/-- An answer renews the lease and ends the row of failures, or makes the row longer by one that is absorbed or
aborts the signal. -/
theorem onAnswer_cases (input : LeaseInput) (k : Nat) (answer : Except String Bool) (s : LeasedDispatch) :
    Unmoved k s (s.onAnswer input k answer) ∧
      ((s.onAnswer input k answer).renewedAt = max s.renewedAt (k * input.renewIntervalMs) ∧
          (s.onAnswer input k answer).consecutiveFailures = 0 ∧ (s.onAnswer input k answer).aborted = s.aborted ∨
        (s.onAnswer input k answer).renewedAt = s.renewedAt ∧
          (s.onAnswer input k answer).consecutiveFailures = s.consecutiveFailures + 1 ∧
          ((s.onAnswer input k answer).aborted = none →
            s.aborted = none ∧ s.consecutiveFailures + 1 ≤ input.allowedFailures)) := by
  have hfails : ∀ error, s.onAnswer input k answer = ({ s with unanswered := s.unanswered.erase k } : LeasedDispatch).onFailure input error →
      Unmoved k s (s.onAnswer input k answer) ∧ (s.onAnswer input k answer).renewedAt = s.renewedAt ∧
        (s.onAnswer input k answer).consecutiveFailures = s.consecutiveFailures + 1 ∧
        ((s.onAnswer input k answer).aborted = none → s.aborted = none ∧ s.consecutiveFailures + 1 ≤ input.allowedFailures) := by
    intro error h
    rw [h]
    obtain ⟨h1, h2, h3, h4, h5, h6⟩ := @onFailure_rest input { s with unanswered := s.unanswered.erase k } error
    exact ⟨⟨h1, h2, h3, h4⟩, h5, h6, onFailure_aborted⟩
  cases answer with
  | ok renewed =>
    cases renewed with
    | true => exact ⟨⟨rfl, rfl, rfl, rfl⟩, .inl ⟨rfl, rfl, rfl⟩⟩
    | false => exact (hfails _ rfl).imp_right .inr
  | error e => exact (hfails e rfl).imp_right .inr

/-- What holds of the timer: its ticks are on time, and the calls without an answer are some of those made. -/
structure Timely (I : Nat) (s : LeasedDispatch) : Prop where
  due : s.running = true → s.now ≤ (s.sent + 1) * I
  sent : s.sent * I ≤ s.now
  calls : ∀ k ∈ s.unanswered, 1 ≤ k ∧ k ≤ s.sent
  nodup : s.unanswered.Nodup
  renewed : ∃ k ≤ s.sent, s.renewedAt = k * I

theorem Timely.step (h : Timely input.renewIntervalMs s) (hs : Step input s s') : Timely input.renewIntervalMs s' := by
  cases hs with
  | tick hrun hdue =>
    refine ⟨fun _ => ?_, le_of_eq hdue.symm, fun k hk => ?_, ?_, ?_⟩
    · have hgrow : (s.sent + 1) * input.renewIntervalMs ≤ (s.sent + 1 + 1) * input.renewIntervalMs := Nat.mul_le_mul_right _ (by omega)
      exact hdue.le.trans hgrow
    · rcases List.mem_append.1 hk with hk | hk
      · have := h.calls k hk
        exact ⟨this.1, this.2.trans (Nat.le_succ _)⟩
      · rw [List.mem_singleton.1 hk]
        exact ⟨Nat.le_add_left .., le_refl _⟩
    · refine List.nodup_append.2 ⟨h.nodup, List.pairwise_singleton _ _, fun a ha b hb => ?_⟩
      rw [List.mem_singleton.1 hb]
      have := (h.calls a ha).2
      omega
    · obtain ⟨k, hk, hr⟩ := h.renewed
      exact ⟨k, hk.trans (Nat.le_succ _), hr⟩
  | @answer k answer hk =>
    obtain ⟨hrest, hcases⟩ := onAnswer_cases input k answer s
    refine ⟨by rw [hrest.running, hrest.now, hrest.sent]; exact h.due, by rw [hrest.sent, hrest.now]; exact h.sent, ?_, ?_, ?_⟩
    · rw [hrest.unanswered, hrest.sent]
      exact fun j hj => h.calls j (List.mem_of_mem_erase hj)
    · rw [hrest.unanswered]
      exact h.nodup.erase k
    · obtain ⟨k₀, hk₀, hr⟩ := h.renewed
      rw [hrest.sent]
      rcases hcases with ⟨hrenewed, -⟩ | ⟨hrenewed, -⟩
      · refine ⟨max k₀ k, max_le hk₀ (h.calls k hk).2, ?_⟩
        rw [hrenewed, hr, Nat.mul_max_mul_right]
      · exact ⟨k₀, hk₀, hrenewed.trans hr⟩
  | settle => exact ⟨fun hrun => (by cases hrun), h.sent, h.calls, h.nodup, h.renewed⟩
  | pass d hdue => exact ⟨hdue, h.sent.trans (Nat.le_add_right ..), h.calls, h.nodup, h.renewed⟩

theorem timely_of_run (h : PromptRun input D {} s) : Timely input.renewIntervalMs s := by
  induction h with
  | refl => exact ⟨fun _ => Nat.zero_le _, le_of_eq (Nat.zero_mul _), fun k hk => (by cases hk), List.nodup_nil,
      0, le_refl _, (Nat.zero_mul _).symm⟩
  | tail _ hs ih => exact ih.step hs.1

theorem prompt_of_run (h : PromptRun input D {} s) : Prompt input D s := by
  cases h with
  | refl => exact fun k hk => by cases hk
  | tail _ hs => exact hs.2

/-! ## No failure is absorbed -/

/-- Every call made is without an answer, or no newer than the last renewal. -/
def AllRenewed (I : Nat) (s : LeasedDispatch) : Prop :=
  s.aborted = none → ∀ k, 1 ≤ k → k ≤ s.sent → k ∈ s.unanswered ∨ k * I ≤ s.renewedAt

theorem AllRenewed.step (hF : input.allowedFailures = 0) (h : AllRenewed input.renewIntervalMs s) (hs : Step input s s') :
    AllRenewed input.renewIntervalMs s' := by
  cases hs with
  | tick hrun hdue =>
    intro hno k h1 hk
    rcases Nat.lt_or_eq_of_le hk with hk | rfl
    · exact (h hno k h1 (Nat.lt_succ_iff.1 hk)).imp_left fun hk => List.mem_append_left _ hk
    · exact .inl (List.mem_append_right _ (List.mem_singleton_self _))
  | @answer k answer hk =>
    obtain ⟨hrest, hcases⟩ := onAnswer_cases input k answer s
    intro hno j h1 hj
    rw [hrest.sent] at hj
    rw [hrest.unanswered]
    rcases hcases with ⟨hrenewed, -, habort⟩ | ⟨-, -, habort⟩
    · rw [hrenewed]
      rcases h (habort ▸ hno) j h1 hj with hin | hold
      · by_cases hjk : j = k
        · exact .inr (hjk ▸ le_max_right ..)
        · exact .inl ((List.mem_erase_of_ne hjk).2 hin)
      · exact .inr (hold.trans (le_max_left ..))
    · have := (habort hno).2
      omega
  | settle => exact h
  | pass d hdue => exact h

theorem allRenewed_of_run (hF : input.allowedFailures = 0) (h : PromptRun input D {} s) : AllRenewed input.renewIntervalMs s := by
  induction h with
  | refl => exact fun _ k h1 hk => absurd (h1.trans hk) (by decide)
  | tail _ hs ih => exact ih.step hF hs.1

/-- The call after the last renewal is answered before the lease would lapse. -/
theorem held_of_allRenewed (hpos : 0 < input.renewIntervalMs) (hI : input.renewIntervalMs < T) (hD : input.renewIntervalMs + D ≤ T)
    (ht : Timely input.renewIntervalMs s) (hp : Prompt input D s) (h : AllRenewed input.renewIntervalMs s) : Held T s := by
  intro hrun hno
  obtain ⟨k₀, hk₀, hr⟩ := ht.renewed
  have hnext : (k₀ + 1) * input.renewIntervalMs = s.renewedAt + input.renewIntervalMs := by rw [hr]; ring
  by_cases hmade : k₀ + 1 ≤ s.sent
  · rcases h hno (k₀ + 1) (Nat.le_add_left ..) hmade with hin | hold
    · have := hp _ hin
      omega
    · omega
  · have hdue := ht.due hrun
    rw [show s.sent = k₀ by omega] at hdue
    omega

/-! ## Failures that are absorbed -/

/-- At most the last call is without an answer, and each call since the last renewal was a failure or is that one. -/
structure InOrder (input : LeaseInput) (s : LeasedDispatch) : Prop where
  last : ∀ k ∈ s.unanswered, k = s.sent
  counted : s.aborted = none → s.consecutiveFailures ≤ input.allowedFailures ∧
    (s.consecutiveFailures + s.unanswered.length) * input.renewIntervalMs + s.renewedAt = s.sent * input.renewIntervalMs

theorem InOrder.step (hD : D ≤ input.renewIntervalMs) (ht : Timely input.renewIntervalMs s) (h : InOrder input s) (hs : Step input s s')
    (hp : Prompt input D s') : InOrder input s' := by
  cases hs with
  | tick hrun hdue =>
    -- the calls before this tick's have been answered
    have hnil : s.unanswered = [] := by
      refine List.eq_nil_iff_forall_not_mem.2 fun k hk => ?_
      have hlate : s.now < k * input.renewIntervalMs + D := hp k (List.mem_append_left _ hk)
      have hmade : (k + 1) * input.renewIntervalMs ≤ (s.sent + 1) * input.renewIntervalMs :=
        Nat.mul_le_mul_right _ (Nat.succ_le_succ (ht.calls k hk).2)
      rw [Nat.succ_mul] at hmade
      omega
    refine ⟨fun k hk => ?_, fun hno => ⟨(h.counted hno).1, ?_⟩⟩
    · rw [show s.unanswered ++ [s.sent + 1] = [s.sent + 1] by rw [hnil]; rfl] at hk
      exact List.mem_singleton.1 hk
    · have hcount := (h.counted hno).2
      rw [hnil, List.length_nil, Nat.add_zero] at hcount
      show (s.consecutiveFailures + (s.unanswered ++ [s.sent + 1]).length) * input.renewIntervalMs + s.renewedAt = _
      rw [hnil, List.nil_append, List.length_singleton, Nat.succ_mul, Nat.succ_mul, ← hcount]
      omega
  | @answer k answer hk =>
    obtain ⟨hrest, hcases⟩ := onAnswer_cases input k answer s
    obtain rfl := h.last k hk
    have hnil : s.unanswered.erase s.sent = [] := by
      refine List.eq_nil_iff_forall_not_mem.2 fun j hj => ?_
      obtain ⟨hne, hj⟩ := ht.nodup.mem_erase_iff.1 hj
      exact hne (h.last j hj)
    have hlength : s.unanswered.length = 1 := by
      have := List.length_erase_of_mem hk
      rw [hnil, List.length_nil] at this
      have := List.length_pos_of_mem hk
      omega
    refine ⟨fun j hj => ?_, fun hno => ?_⟩
    · rw [hrest.unanswered, hnil] at hj
      cases hj
    · rw [hrest.unanswered, hnil, hrest.sent, List.length_nil, Nat.add_zero]
      rcases hcases with ⟨hrenewed, hzero, habort⟩ | ⟨hrenewed, hone, habort⟩
      · obtain ⟨k₀, hk₀, hr⟩ := ht.renewed
        rw [hzero, hrenewed, Nat.zero_mul, Nat.zero_add, hr, Nat.mul_max_mul_right, max_eq_right hk₀]
        exact ⟨Nat.zero_le _, rfl⟩
      · obtain ⟨hno', hle⟩ := habort hno
        rw [hone, hrenewed]
        exact ⟨hle, by rw [← (h.counted hno').2, hlength]⟩
  | settle => exact ⟨h.last, h.counted⟩
  | pass d hdue => exact ⟨h.last, h.counted⟩

theorem inOrder_of_run (hD : D ≤ input.renewIntervalMs) (h : PromptRun input D {} s) : InOrder input s := by
  induction h with
  | refl => exact ⟨fun k hk => (by cases hk), fun _ => ⟨Nat.zero_le _, rfl⟩⟩
  | tail hr hs ih => exact ih.step hD (timely_of_run hr) hs.1 hs.2

/-- The row of failures is aborted with an interval left. -/
theorem held_of_inOrder (hpos : 0 < input.renewIntervalMs) (hD : D ≤ input.renewIntervalMs)
    (hF : (input.allowedFailures + 2) * input.renewIntervalMs ≤ T) (ht : Timely input.renewIntervalMs s) (hp : Prompt input D s)
    (h : InOrder input s) : Held T s := by
  intro hrun hno
  obtain ⟨hle, hcount⟩ := h.counted hno
  have hdue := ht.due hrun
  have hmiss : s.consecutiveFailures * input.renewIntervalMs ≤ input.allowedFailures * input.renewIntervalMs :=
    Nat.mul_le_mul_right _ hle
  rw [Nat.add_mul] at hF
  rw [Nat.succ_mul] at hdue
  cases hun : s.unanswered with
  | nil =>
    rw [hun, List.length_nil, Nat.add_zero] at hcount
    omega
  | cons k rest =>
    have hone : rest = [] := by
      refine List.eq_nil_iff_forall_not_mem.2 fun j hj => ?_
      have hnodup := ht.nodup
      rw [hun, List.nodup_cons] at hnodup
      have hk := h.last k (by rw [hun]; exact List.mem_cons_self)
      have hj' := h.last j (by rw [hun]; exact List.mem_cons_of_mem _ hj)
      exact hnodup.1 (by rw [hk, ← hj']; exact hj)
    have hk := h.last k (by rw [hun]; exact List.mem_cons_self)
    have hlate := hp k (by rw [hun]; exact List.mem_cons_self)
    rw [hun, hone, List.length_singleton, Nat.succ_mul] at hcount
    rw [hk] at hlate
    omega

end Prompt

/-! ## Later answers lose it -/

section Late

variable {leaseId : String} {I T D : Nat}

theorem PromptRun.step {input : LeaseInput} {s s₁ s₂ : LeasedDispatch} (h : PromptRun input D s s₁) (hs : Step input s₁ s₂)
    (hp : Prompt input D s₂) : PromptRun input D s s₂ := h.tail ⟨hs, hp⟩

/-- The first tick. -/
theorem run_firstTick (hD : 0 < D) (ttl : Option Nat) :
    PromptRun ⟨leaseId, I, ttl⟩ D {} { now := I, sent := 1, unanswered := [1] } := by
  have hpass : PromptRun ⟨leaseId, I, ttl⟩ D {} { now := 0 + I } :=
    .step .refl (.pass I fun _ => by simp) fun k hk => by cases hk
  rw [Nat.zero_add] at hpass
  refine hpass.step (.tick rfl (by simp)) fun k hk => ?_
  rw [List.mem_singleton.1 hk]
  simp only
  omega

/-- The second tick, while the first call has no answer. -/
theorem run_secondTick (hD : I < D) (ttl : Option Nat) :
    PromptRun ⟨leaseId, I, ttl⟩ D {} { now := 2 * I, sent := 2, unanswered := [1, 2] } := by
  have hfirst : PromptRun ⟨leaseId, I, ttl⟩ D {} { now := I, sent := 1, unanswered := [1] } := run_firstTick (by omega) ttl
  have hpass : PromptRun ⟨leaseId, I, ttl⟩ D {} { now := I + I, sent := 1, unanswered := [1] } := by
    refine hfirst.step (.pass I fun _ => by simp only; omega) fun k hk => ?_
    rw [List.mem_singleton.1 hk]
    simp only
    omega
  rw [← Nat.two_mul] at hpass
  refine hpass.step (.tick rfl rfl) fun k hk => ?_
  obtain rfl | rfl : k = 1 ∨ k = 2 := by simpa using hk
  · simp only
    omega
  · simp only
    omega

/-- Where no failure is absorbed: the lease lapses before the first call has its answer. -/
theorem late_first (hIT : I < T) (hT : T < 3 * I) (hD : T - I < D) :
    ∃ s, PromptRun ⟨leaseId, I, some T⟩ D {} s ∧ ¬Held T s := by
  have hheld : ∀ (sent : Nat) (unanswered : List Nat), ¬Held T { now := T, sent, unanswered } :=
    fun sent unanswered h => absurd (h rfl rfl) (by simp)
  by_cases hTwo : T ≤ 2 * I
  · refine ⟨{ now := I + (T - I), sent := 1, unanswered := [1] }, (run_firstTick (by omega) _).step (.pass (T - I) fun _ => ?_) ?_, ?_⟩
    · simp only
      omega
    · intro k hk
      rw [List.mem_singleton.1 hk]
      simp only
      omega
    · rw [show I + (T - I) = T by omega]
      exact hheld 1 [1]
  · refine ⟨{ now := 2 * I + (T - 2 * I), sent := 2, unanswered := [1, 2] },
      (run_secondTick (by omega) _).step (.pass (T - 2 * I) fun _ => ?_) ?_, ?_⟩
    · simp only
      omega
    · intro k hk
      obtain rfl | rfl : k = 1 ∨ k = 2 := by simpa using hk
      · simp only
        omega
      · simp only
        omega
    · rw [show 2 * I + (T - 2 * I) = T by omega]
      exact hheld 2 [1, 2]

/-- A failure that is absorbed. -/
theorem onAnswer_miss {input : LeaseInput} {s : LeasedDispatch} {k : Nat} (h : s.consecutiveFailures + 1 ≤ input.allowedFailures) :
    s.onAnswer input k (.ok false) =
      { s with unanswered := s.unanswered.erase k, consecutiveFailures := s.consecutiveFailures + 1 } := by
  unfold onAnswer onFailure
  simp only
  rw [if_neg (by omega)]

/-- The answer to the first call comes after the second call's, and makes its failure forgotten; from then on every call
fails at once. -/
theorem run_misses (hI : 0 < I) (hD : I < D) : ∀ j, j + 2 ≤ T / I → 3 ≤ T / I →
    PromptRun ⟨leaseId, I, some T⟩ D {} { now := (j + 2) * I, sent := j + 2, consecutiveFailures := j, renewedAt := I } := by
  have hallowed : LeaseInput.allowedFailures ⟨leaseId, I, some T⟩ = T / I - 2 := if_pos hI
  intro j
  induction j with
  | zero =>
    intro _ hT
    have hsecond : PromptRun ⟨leaseId, I, some T⟩ D {} { now := 2 * I, sent := 2, unanswered := [1, 2] } :=
      run_secondTick hD (some T)
    have hmiss := hsecond.step
      (.answer (k := 2) (.ok false) (by simp)) (by
        rw [onAnswer_miss (by rw [hallowed]; simp only; omega)]
        intro k hk
        rw [List.mem_singleton.1 hk]
        simp only
        omega)
    rw [onAnswer_miss (by rw [hallowed]; simp only; omega)] at hmiss
    have hrenewed := hmiss.step (.answer (k := 1) (.ok true) (by simp)) fun k hk => by cases hk
    simpa [onAnswer] using hrenewed
  | succ j ih =>
    intro hj hT
    have hpass := (ih (by omega) hT).step (.pass I fun _ => by simp only; ring_nf; omega) fun k hk => by cases hk
    have htick := hpass.step (.tick rfl (by simp only; ring)) fun k hk => by
      rw [List.mem_singleton.1 hk]
      simp only
      ring_nf
      omega
    have hmiss := htick.step (.answer (k := j + 3) (.ok false) (by simp)) (by
      rw [onAnswer_miss (by rw [hallowed]; simp only; omega)]
      intro k hk
      simp at hk)
    rw [onAnswer_miss (by rw [hallowed]; simp only; omega)] at hmiss
    simp only [List.nil_append, List.erase_cons_head] at hmiss
    rw [show (j + 1 + 2) * I = (j + 2) * I + I by ring]
    exact hmiss

/-- Where failures are absorbed: an old answer renews the lease by less than it allows failures. -/
theorem late_renewal (hI : 0 < I) (hT : 3 * I ≤ T) (hD : I < D) : ∃ s, PromptRun ⟨leaseId, I, some T⟩ D {} s ∧ ¬Held T s := by
  have hquot : 3 ≤ T / I := (Nat.le_div_iff_mul_le hI).2 hT
  obtain ⟨j, hj⟩ : ∃ j, T / I = j + 2 := ⟨T / I - 2, by omega⟩
  have hrem := Nat.div_add_mod T I
  have hmod := Nat.mod_lt T hI
  rw [hj, Nat.mul_comm] at hrem
  have hmisses : PromptRun ⟨leaseId, I, some T⟩ D {}
      { now := (j + 2) * I, sent := j + 2, consecutiveFailures := j, renewedAt := I } := run_misses hI hD j (by omega) hquot
  have hpass := hmisses.step (.pass I fun _ => by simp only; ring_nf; omega) fun k hk => by cases hk
  have htick := hpass.step (.tick rfl (by simp only; ring)) fun k hk => by
    rw [List.mem_singleton.1 hk]
    simp only
    ring_nf
    omega
  refine ⟨_, htick.step (.pass (T % I) fun _ => ?_) fun k hk => ?_, fun h => absurd (h rfl rfl) ?_⟩
  · simp only
    ring_nf
    omega
  · rw [List.mem_singleton.1 hk]
    simp only
    ring_nf
    omega
  · simp only
    omega

end Late

end LeasedDispatch

/-! ## The budget -/

/-- The runs in which every renew call is answered within a budget keep the lease while their bodies run, exactly for
the budgets up to this one. -/
theorem lease_held_iff (leaseId : String) {renewIntervalMs leaseTtlMs : Nat} (hpos : 0 < renewIntervalMs)
    (hbelow : renewIntervalMs < leaseTtlMs) (budgetMs : Nat) :
    (∀ s, LeasedDispatch.PromptRun ⟨leaseId, renewIntervalMs, some leaseTtlMs⟩ budgetMs {} s → s.Held leaseTtlMs) ↔
      budgetMs ≤ answerBudgetMs renewIntervalMs leaseTtlMs := by
  have hallowed : LeaseInput.allowedFailures ⟨leaseId, renewIntervalMs, some leaseTtlMs⟩ = leaseTtlMs / renewIntervalMs - 2 :=
    if_pos hpos
  unfold answerBudgetMs
  split
  · rename_i hthree
    have hzero : leaseTtlMs / renewIntervalMs - 2 = 0 := by
      have := (Nat.div_lt_iff_lt_mul hpos).2 hthree
      omega
    refine ⟨fun h => ?_, fun hD s hr => ?_⟩
    · by_contra hD
      obtain ⟨s, hr, hheld⟩ : ∃ s, LeasedDispatch.PromptRun ⟨leaseId, renewIntervalMs, some leaseTtlMs⟩ budgetMs {} s ∧
          ¬LeasedDispatch.Held leaseTtlMs s := LeasedDispatch.late_first hbelow hthree (Nat.not_le.1 hD)
      exact hheld (h s hr)
    · exact LeasedDispatch.held_of_allRenewed hpos hbelow (by simp only; omega) (LeasedDispatch.timely_of_run hr)
        (LeasedDispatch.prompt_of_run hr) (LeasedDispatch.allRenewed_of_run (hallowed.trans hzero) hr)
  · rename_i hthree
    refine ⟨fun h => ?_, fun hD s hr => ?_⟩
    · by_contra hD
      obtain ⟨s, hr, hheld⟩ : ∃ s, LeasedDispatch.PromptRun ⟨leaseId, renewIntervalMs, some leaseTtlMs⟩ budgetMs {} s ∧
          ¬LeasedDispatch.Held leaseTtlMs s := LeasedDispatch.late_renewal hpos (Nat.not_lt.1 hthree) (Nat.not_le.1 hD)
      exact hheld (h s hr)
    · have hquot : 3 ≤ leaseTtlMs / renewIntervalMs := (Nat.le_div_iff_mul_le hpos).2 (Nat.not_lt.1 hthree)
      refine LeasedDispatch.held_of_inOrder hpos hD ?_ (LeasedDispatch.timely_of_run hr) (LeasedDispatch.prompt_of_run hr)
        (LeasedDispatch.inOrder_of_run hD hr)
      rw [hallowed, Nat.sub_add_cancel (by omega)]
      exact Nat.div_mul_le_self ..

/-- The default intervals: where every call is answered within its minute, a body that runs has its lease, whatever
the answers are; a failure at the first tick is absorbed. -/
theorem lease_held_defaults : answerBudgetMs 60000 180000 = 60000 ∧
    (∀ s, LeasedDispatch.PromptRun ⟨"lease_1", 60000, some 180000⟩ 60000 {} s → s.Held 180000) ∧
    ∃ s, LeasedDispatch.PromptRun ⟨"lease_1", 60000, some 180000⟩ 60000 {} s ∧ s.consecutiveFailures = 1 ∧ s.aborted = none := by
  refine ⟨by decide, (lease_held_iff "lease_1" (by decide) (by decide) 60000).2 (by decide), _,
    (LeasedDispatch.run_firstTick (by decide) _).step (.answer (k := 1) (.ok false) (by simp)) fun k hk => ?_, by decide, by decide⟩
  simp [LeasedDispatch.onAnswer, LeasedDispatch.onFailure, LeaseInput.allowedFailures] at hk

/-- With the default intervals, renew calls that never have an answer let the lease lapse under a running body. -/
theorem lease_outlived : ∃ s : LeasedDispatch,
    Relation.ReflTransGen (LeasedDispatch.Step ⟨"lease_1", 60000, some 180000⟩) {} s ∧
    s = { now := 180000, sent := 2, unanswered := [1, 2] } ∧ ¬s.Held 180000 := by
  refine ⟨_, ?_, rfl, fun h => absurd (h rfl rfl) (by decide)⟩
  refine .tail ?_ (.pass (s := { now := 120000, sent := 2, unanswered := [1, 2] }) 60000 fun _ => by decide)
  refine .tail ?_ (.tick (s := { now := 120000, sent := 1, unanswered := [1] }) rfl rfl)
  refine .tail ?_ (.pass (s := { now := 60000, sent := 1, unanswered := [1] }) 60000 fun _ => by decide)
  refine .tail ?_ (.tick (s := { now := 60000 }) rfl rfl)
  exact .tail .refl (.pass 60000 fun _ => by decide)

end WorkflowWorld.Dispatcher
