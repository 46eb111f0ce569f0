/-
Start Hook decisions and the age of their candidates. A decision is deleted by its own age, and an attempt is
refused by the age its run id carries; nothing in the creating paths relates the two. Where each decision that
a deletion finds old enough is of an id whose time is at most an hour after it, no candidate is decided twice,
and a candidate whose decision is gone is refused as expired.
-/
import WorkflowWorld.Concurrency.Timed
import WorkflowWorld.Storage.System

namespace WorkflowWorld

open Concurrency Schema

/-! ## Decisions -/

/-- The candidates that were ever decided. -/
def Db.decided (d : Db) : List RunKey := d.decisions.map (·.1)

/-- The candidate was decided, and its decision was deleted. -/
def Db.Forgotten (d : Db) (K : RunKey) : Prop := K ∈ d.decided ∧ d.admissions.lookup K = none

/-- The candidate's window ended more than `L` ago. -/
def Lapsed (D : Deps) (L now : Nat) (K : RunKey) : Prop :=
  ∃ τ, D.ulidToDate K.2 = some τ ∧ τ + D.startHookCandidateMaxAgeMs + L < now

/-- The candidates that a list of writes decides. -/
def deciding (ws : List Write) : List RunKey :=
  ws.filterMap fun
    | .insertAdmission k _ => some k
    | _ => none

section Decisions

variable {D : Deps} {L now : Nat} {K : RunKey} {ws new : List Write} {d : Db}

theorem Lapsed.mono {now' : Nat} (h : Lapsed D L now K) (hle : now ≤ now') : Lapsed D L now' K := by
  obtain ⟨τ, hτ, hlt⟩ := h
  exact ⟨τ, hτ, by omega⟩

theorem mem_deciding : K ∈ deciding ws ↔ ∃ a, .insertAdmission K a ∈ ws := by
  simp only [deciding, List.mem_filterMap]
  constructor
  · rintro ⟨w, hw, h⟩
    cases w with
    | insertAdmission k a =>
      cases h
      exact ⟨a, hw⟩
    | _ => cases h
  · rintro ⟨a, h⟩
    exact ⟨_, h, rfl⟩

theorem deciding_append (ws new : List Write) : deciding (ws ++ new) = deciding ws ++ deciding new := List.filterMap_append ..

theorem deciding_inert (h : ∀ w ∈ new, w.tbl ≠ .admission) : deciding new = [] :=
  List.eq_nil_iff_forall_not_mem.2 fun K hK => by
    obtain ⟨a, ha⟩ := mem_deciding.1 hK
    exact h _ ha rfl

theorem deciding_touches (h : K ∈ deciding ws) : Key.row (.admission K) ∈ schema.touchesAll ws := by
  obtain ⟨a, ha⟩ := mem_deciding.1 h
  exact List.mem_flatMap.2 ⟨_, ha, List.mem_cons_self ..⟩

theorem decided_applyAll : ∀ (ws : List Write) (d : Db), Db.decided (schema.applyAll ws d) = d.decided ++ deciding ws
  | [], d => (List.append_nil _).symm
  | w :: ws, d => by
    refine (decided_applyAll ws (w.apply d)).trans ?_
    cases w with
    | insertAdmission k a => simp [Db.decided, Write.apply, deciding]
    | _ => rfl

/-- Where a row is missing, it was deleted, or was missing and not inserted. -/
theorem admission_missing : ∀ (ws : List Write) {d : Db}, (Db.admissions (schema.applyAll ws d)).lookup K = none →
    .deleteAdmission K ∈ ws ∨ d.admissions.lookup K = none ∧ K ∉ deciding ws
  | [], _, h => .inr ⟨h, List.not_mem_nil⟩
  | w :: ws, d, h => by
    rcases admission_missing ws (d := w.apply d) h with hdel | ⟨hnone, hnot⟩
    · exact .inl (List.mem_cons_of_mem _ hdel)
    · cases w with
      | insertAdmission k a =>
        by_cases hk : K = k
        · rw [hk] at hnone
          rw [show (Write.apply (.insertAdmission k a) d).admissions = d.admissions.insert k a from rfl,
            AList.lookup_insert] at hnone
          cases hnone
        · rw [show (Write.apply (.insertAdmission k a) d).admissions = d.admissions.insert k a from rfl,
            AList.lookup_insert_ne hk] at hnone
          exact .inr ⟨hnone, fun hmem => (List.mem_cons.1 hmem).elim hk hnot⟩
      | deleteAdmission k =>
        by_cases hk : K = k
        · exact .inl (by rw [hk]; exact List.mem_cons_self ..)
        · rw [show (Write.apply (.deleteAdmission k) d).admissions = d.admissions.erase k from rfl,
            AList.lookup_erase_ne hk] at hnone
          exact .inr ⟨hnone, hnot⟩
      | _ => exact .inr ⟨hnone, hnot⟩

/-- A missing row stays missing until it is inserted. -/
theorem admission_stays_missing : ∀ (ws : List Write) {d : Db}, d.admissions.lookup K = none → K ∉ deciding ws →
    (Db.admissions (schema.applyAll ws d)).lookup K = none
  | [], d, h, _ => h
  | w :: ws, d, h, hnot => by
    refine admission_stays_missing ws (d := w.apply d) ?_ fun hmem => hnot ?_
    · cases w with
      | insertAdmission k a =>
        have hk : K ≠ k := fun hk => hnot (mem_deciding.2 ⟨a, by rw [hk]; exact List.mem_cons_self ..⟩)
        exact (AList.lookup_insert_ne hk).trans h
      | deleteAdmission k =>
        by_cases hk : K = k
        · rw [hk]
          exact AList.lookup_erase ..
        · exact (AList.lookup_erase_ne hk).trans h
      | _ => exact h
    · obtain ⟨a, ha⟩ := mem_deciding.1 hmem
      exact mem_deciding.2 ⟨a, List.mem_cons_of_mem _ ha⟩

/-! ## The invariant -/

/-- No candidate was decided twice, and each whose decision was deleted is past its window. -/
structure Windowed (D : Deps) (L now : Nat) (d : Db) : Prop where
  once : d.decided.Nodup
  lapsed : ∀ K, d.Forgotten K → Lapsed D L now K

/-- A transaction decides candidates that are not decided yet, and forgets those that are past their window. -/
structure Admissible (D : Deps) (L now : Nat) (ws : List Write) (d : Db) : Prop where
  once : (deciding ws).Nodup
  fresh : ∀ K ∈ deciding ws, K ∉ d.decided
  lapsed : ∀ K, .deleteAdmission K ∈ ws → Lapsed D L now K

theorem Windowed.mono {now' : Nat} (h : Windowed D L now d) (hle : now ≤ now') : Windowed D L now' d :=
  ⟨h.once, fun K hK => (h.lapsed K hK).mono hle⟩

theorem Admissible.mono {now' : Nat} (h : Admissible D L now ws d) (hle : now ≤ now') : Admissible D L now' ws d :=
  ⟨h.once, h.fresh, fun K hK => (h.lapsed K hK).mono hle⟩

/-- What is forgotten stays so. -/
def Forgets (d d' : Db) : Prop := ∀ K, d.Forgotten K → d'.Forgotten K

theorem Admissible.forgets (h : Admissible D L now ws d) : Forgets d (schema.applyAll ws d) := fun K hK =>
  ⟨by rw [decided_applyAll]; exact List.mem_append_left _ hK.1, admission_stays_missing _ hK.2 fun hmem => h.fresh K hmem hK.1⟩

theorem Admissible.publish (h : Admissible D L now ws d) (hd : Windowed D L now d) : Windowed D L now (schema.applyAll ws d) := by
  refine ⟨?_, fun K ⟨hK, hnone⟩ => ?_⟩
  · rw [decided_applyAll]
    exact List.nodup_append'.2 ⟨hd.once, h.once, fun K hK hmem => h.fresh K hmem hK⟩
  · rw [decided_applyAll, List.mem_append] at hK
    rcases admission_missing _ hnone with hdel | ⟨hnone', hnot⟩
    · exact h.lapsed K hdel
    · exact hd.lapsed K ⟨hK.resolve_right hnot, hnone'⟩

theorem Admissible.append (h : Admissible D L now ws d) (hnew : Admissible D L now new d) (hdisj : ∀ K ∈ deciding new, K ∉ deciding ws) :
    Admissible D L now (ws ++ new) d := by
  refine ⟨?_, fun K hK => ?_, fun K hK => (List.mem_append.1 hK).elim (h.lapsed K) (hnew.lapsed K)⟩
  · rw [deciding_append]
    exact List.nodup_append'.2 ⟨h.once, hnew.once, fun K hK hmem => hdisj K hmem hK⟩
  · rw [deciding_append] at hK
    exact (List.mem_append.1 hK).elim (h.fresh K) (hnew.fresh K)

/-- Writes that decide nothing, and forget only what is past its window. -/
theorem Admissible.append_undeciding (h : Admissible D L now ws d) (hnil : deciding new = [])
    (hlapsed : ∀ K, .deleteAdmission K ∈ new → Lapsed D L now K) : Admissible D L now (ws ++ new) d := by
  refine h.append ⟨?_, ?_, hlapsed⟩ ?_ <;> rw [hnil]
  · exact List.nodup_nil
  · exact fun _ hK => absurd hK List.not_mem_nil
  · exact fun _ hK => absurd hK List.not_mem_nil

theorem Admissible.nil : Admissible D L now [] d :=
  ⟨List.nodup_nil, fun _ hK => absurd hK List.not_mem_nil, fun _ hK => absurd hK List.not_mem_nil⟩

theorem Admissible.append_inert (h : Admissible D L now ws d) (hn : ∀ w ∈ new, w.tbl ≠ .admission) : Admissible D L now (ws ++ new) d :=
  h.append_undeciding (deciding_inert hn) fun _ hK => absurd rfl (hn _ hK)

/-- Another session's commit decides none of the candidates that a pending transaction does: it would hold their rows. -/
theorem Admissible.others {ws' : List Write} (h' : Admissible D L now ws' d)
    (hex : ∀ k ∈ schema.touchesAll ws, k ∉ schema.touchesAll ws') : Admissible D L now ws' (schema.applyAll ws d) := by
  refine ⟨h'.once, fun K hK hmem => ?_, h'.lapsed⟩
  rw [decided_applyAll, List.mem_append] at hmem
  rcases hmem with hmem | hmem
  · exact h'.fresh K hK hmem
  · exact hex _ (deciding_touches hmem) (deciding_touches hK)

/-- A candidate in its window that is missing in a session's view is decided by nobody. -/
theorem Windowed.undecided (hd : Windowed D L now d) (h : Admissible D L now ws d) (hK : ¬Lapsed D L now K)
    (hnone : (Db.admissions (schema.applyAll ws d)).lookup K = none) : K ∉ d.decided ∧ K ∉ deciding ws := by
  rcases admission_missing _ hnone with hdel | ⟨hnone', hnot⟩
  · exact absurd (h.lapsed K hdel) hK
  · exact ⟨fun hmem => hK (hd.lapsed K ⟨hmem, hnone'⟩), hnot⟩

end Decisions

section Rules

variable {n : Nat} {D : Deps} {L : Nat}

/-- What holds of the decisions at a time. -/
def decisionRules (D : Deps) (L now : Nat) : Rules n where
  data := Windowed D L now
  draft _ ws _ d := Admissible D L now ws d
  steady _ _ := True
  ready _ _ := True
  inert w := w.tbl ≠ .admission
  grows := Forgets
  spares _ _ _ := True
  effect _ _ _ := True
  answer _ _ _ _ _ := True
  cond _ _ _ := True
  recalls := False
  grows_refl _ _ h := h
  grows_trans _ _ _ h1 h2 K h := h2 K (h1 K h)
  spares_refl _ _ := trivial
  spares_trans _ _ _ _ _ _ := trivial
  effect_refl _ _ := trivial
  effect_spares _ _ _ _ _ _ := trivial
  draft_nil _ _ _ := .nil
  draft_inert _ _ _ _ _ _ h hn := h.append_inert hn
  steady_nil _ := trivial
  steady_inert _ _ _ _ _ := trivial
  ready_inert _ _ _ := trivial
  spares_inert _ _ _ _ := trivial
  publish _ _ _ _ hd h _ := ⟨h.publish hd, h.forgets, trivial⟩
  others _ _ _ _ _ _ _ _ _ _ _ h' hks hw hw' := h'.others fun k hk hk' => hks k (hw k hk) (hw' k hk')
  ext d d' hd he := by
    obtain ⟨m, rfl⟩ := he
    exact ⟨⟨hd.once, hd.lapsed⟩, fun _ h => h, fun _ => trivial⟩
  ext_draft _ _ _ d d' h he := by
    obtain ⟨m, rfl⟩ := he
    exact ⟨h.once, h.fresh, h.lapsed⟩
  answer_grows _ _ _ _ _ _ h _ := h

theorem decisions_last : Lasting (decisionRules (n := n) D L) where
  data hle h := h.mono hle
  draft hle h := h.mono hle
  grows h := h
  ready _ _ _ := trivial
  answer _ _ _ _ _ _ := trivial

/-- A decision is recorded within `L` of its transaction's start; each that a deletion finds old enough is of a
candidate whose id carries a time, at most an hour less `L` after the decision's. -/
def timely (D : Deps) (L : Nat) (t : Fin n) : Op → State n → Bool
  | .query (.insertAdmission _ _ _ _), s => s.now ≤ s.clock t + L
  | .query (.deleteExpiredDecisions cutoff), s => (s.view t).admissions.entries.all fun ⟨K, a⟩ =>
      cutoff ≤ a.createdAt || (D.ulidToDate K.2).any fun τ => τ + L ≤ a.createdAt + 3600000
  | _, _ => true

abbrev InWindow (D : Deps) (L : Nat) : Fin n → Op → State n → Prop := fun t o s => timely D L t o s = true

abbrev windowed (D : Deps) (L : Nat) (n : Nat) : Concurrency.Rules (World n) := timed (decisionRules D L) (InWindow D L)

variable {t : Fin n} {s s' : State n}

theorem draft_of_windowed (hi : (windowed D L n).inv s) : Admissible D L s.now (s.pend t) s.db := hi.1.draft_pend t

/-! ## The statements -/

/-- A statement on another table. -/
theorem extends_other (hi : (windowed D L n).inv s) {q : Query} (hq : q.tbl ≠ some .admission) (pick : Pick) (takes : List Key) :
    (decisionRules D L s.now).Extends t s takes (plan q pick (s.clock t) (s.view t)).writes :=
  TxRules.extends_inert hi.1 fun w hw ha => hq (by rw [plan_tbl hw, ha])

/-- A candidate that was still in its window when its transaction began is decided by no one else. -/
theorem extends_insertAdmission (hi : (windowed D L n).inv s) {K : RunKey} {token : Token} {decision : Decision} {decidedBy : Nat}
    (hw : ∀ τ, D.ulidToDate K.2 = some τ → s.now ≤ τ + D.startHookCandidateMaxAgeMs + L) (pick : Pick) (takes : List Key) :
    (decisionRules D L s.now).Extends t s takes
      (plan (.insertAdmission K token decision decidedBy) pick (s.clock t) (s.view t)).writes := by
  cases hrow : (s.view t).admissions.lookup K with
  | some a =>
    refine TxRules.extends_inert hi.1 fun w hmem => ?_
    simp only [plan, hrow, insert] at hmem
    cases hmem
  | none =>
    have hK : ¬Lapsed D L s.now K := by
      rintro ⟨τ, hτ, hlt⟩
      exact Nat.not_lt.2 (hw τ hτ) hlt
    rw [Schema.State.view_eq] at hrow
    obtain ⟨hundecided, hmine⟩ := hi.1.data.undecided (draft_of_windowed hi) hK hrow
    rw [← Schema.State.view_eq] at hrow
    simp only [plan, hrow, insert]
    have hnew : Admissible D L s.now [.insertAdmission K ⟨token, decision, s.clock t, decidedBy⟩] s.db := by
      refine ⟨List.nodup_singleton _, fun K' hK' => ?_, fun K' hK' => ?_⟩
      · rw [List.mem_singleton.1 hK']
        exact hundecided
      · cases List.mem_singleton.1 hK'
    refine ⟨(draft_of_windowed hi).append hnew fun K' hK' => ?_, fun _ => trivial⟩
    rw [List.mem_singleton.1 hK']
    exact hmine

/-- A decision old enough to be deleted is of a candidate past its window. -/
theorem extends_deleteExpired (hi : (windowed D L n).inv s) {cutoff : Nat}
    (hcut : ∀ created, created < cutoff → created + D.startHookCandidateMaxAgeMs + 3600000 < s.now)
    (hc : timely D L t (.query (.deleteExpiredDecisions cutoff)) s = true) (pick : Pick) (takes : List Key) :
    (decisionRules D L s.now).Extends t s takes (plan (.deleteExpiredDecisions cutoff) pick (s.clock t) (s.view t)).writes := by
  have hdel : ∀ w ∈ (plan (.deleteExpiredDecisions cutoff) pick (s.clock t) (s.view t)).writes, ∃ K a,
      w = .deleteAdmission K ∧ (s.view t).admissions.lookup K = some a ∧ a.createdAt < cutoff := by
    intro w hw
    obtain ⟨K, hK, rfl⟩ := List.mem_map.1 hw
    obtain ⟨a, ha, hlt⟩ := (Option.any_eq_true _ _).1 (List.mem_filter.1 (List.mem_of_mem_take hK)).2
    exact ⟨K, a, rfl, ha, of_decide_eq_true hlt⟩
  refine ⟨(draft_of_windowed hi).append_undeciding (List.eq_nil_iff_forall_not_mem.2 fun K hK => ?_) fun K hK => ?_,
    fun _ => trivial⟩
  · obtain ⟨a, ha⟩ := mem_deciding.1 hK
    obtain ⟨K', a', h', -⟩ := hdel _ ha
    cases h'
  · obtain ⟨K', a, h', ha, hold⟩ := hdel _ hK
    cases h'
    have hwindow := List.all_eq_true.1 hc ⟨K, a⟩ (AList.mem_lookup_iff.1 ha)
    rw [Bool.or_eq_true] at hwindow
    rcases hwindow with hyoung | hdated
    · exact absurd (of_decide_eq_true hyoung) (Nat.not_le.2 hold)
    · obtain ⟨τ, hτ, hle⟩ := (Option.any_eq_true _ _).1 hdated
      have hle := of_decide_eq_true hle
      have hage := hcut _ hold
      exact ⟨τ, hτ, by omega⟩

end Rules

/-! ## The flow of a decision -/

/-- An operation that writes no decision. -/
def NoDecision : Op → Prop
  | .query q => q.tbl ≠ some .admission
  | _ => True

/-- The statements of an attempt after it is found to be in its window, its deletion apart. -/
def Decides (c : Ctx) : Op → Prop
  | .query q => q.tbl ≠ some .admission ∨ ∃ token decision decidedBy, q = .insertAdmission c.key token decision decidedBy
  | _ => False

theorem decides_read {c : Ctx} {q : Query} (hq : q.reads = true) : Decides c (.query q) :=
  .inl (by rw [Query.reads_tbl hq]; simp)

section Flow

variable {n : Nat} {D : Deps} {L : Nat} {t : Fin n} {c : Ctx} {s s' : State n} {α : Type}

/-- An operation that writes no decision keeps the rules. -/
theorem ok_of_noDecision {o : Op} (ho : NoDecision o) (hb : Schema.State.Base s) (hi : (windowed D L n).inv s)
    (ch : schema.Choice) {r : o.Res} (he : Schema.State.exec t ch o s = some (r, s')) : (windowed D L n).Ok t s s' :=
  decisions_last.ok_exec hb hi he fun q hq a _ => by
    subst hq
    exact extends_other hi ho ..

theorem wp_noDecision {B : (α : Type) → P α → Prop}
    (hB : ∀ (α : Type) (p : P α), B α p → ∀ s, (windowed D L n).wp t p (fun _ _ => True) (fun _ _ => True) s) {p : P α}
    (hp : Built NoDecision B p) (s : State n) : (windowed D L n).wp t p (fun _ _ => True) (fun _ _ => True) s := by
  refine wp_of_built (fun o s ch r s' ho hb hi _ he => ok_of_noDecision ?_ hb hi ch he) hB hp s
  cases o with
  | query q => exact ho.elim (fun h => h) fun h => h.elim
  | _ => trivial

/-- The session is in a transaction, whose start has the property. -/
def Began (p : Nat → Prop) (t : Fin n) (s : State n) : Prop := ∃ l start, s.nest t = some (l, start) ∧ p start

theorem Began.keep {p : Nat → Prop} (h : Began p t s) (hr : (windowed D L n).Rely t s s') : Began p t s' := by
  obtain ⟨l, start, hn, hp⟩ := h
  exact ⟨l, start, (TxRules.nest_of_tx hr.keep.tx).trans hn, hp⟩

/-- A statement, a memory write or a read of the clock stays in its transaction. -/
theorem Began.plain {p : Nat → Prop} (h : Began p t s) {Q : Op → Prop} {o : Op} (ho : o.Plain Q) {ch : schema.Choice} {r : o.Res}
    (he : Schema.State.exec t ch o s = some (r, s')) : Began p t s' := by
  obtain ⟨l, start, hn, hp⟩ := h
  refine ⟨l, start, ?_, hp⟩
  rw [← hn]
  cases o with
  | query q =>
    rcases Schema.State.runQuery_cases he with ⟨e, -, hs, -⟩ | ⟨a, -, -, -, -, rfl⟩
    · exact (TxRules.Failed.same hs).2.2.2
    · exact TxRules.write_nest ..
  | clock => cases he; rfl
  | load => cases he; rfl
  | store m => cases he; rfl
  | _ => exact ho.elim

/-- The candidate was in its window when the transaction began. -/
abbrev Open (D : Deps) (c : Ctx) (start : Nat) : Prop :=
  ∀ τ, D.ulidToDate c.runId = some τ → start ≤ τ + D.startHookCandidateMaxAgeMs

/-- Statements in a transaction. -/
theorem wp_statements {Q : Op → Prop} {p : Nat → Prop} (hq : ∀ q, Q (.query q) → ∀ s pick, (windowed D L n).inv s → Began p t s →
      timely D L t (.query q) s = true → (decisionRules D L s.now).Extends t s (plan q pick (s.clock t) (s.view t)).takes
        (plan q pick (s.clock t) (s.view t)).writes)
    {prog : P α} (hp : prog.All (Op.Plain Q)) (hs : Began p t s) :
    (windowed D L n).wp t prog (fun _ => Began p t) (fun _ => Began p t) s := by
  refine Rules.wp_all (P := Op.Plain Q) (fun s s' h hr => h.keep hr)
    (fun o s ch r s' ho hb hi hs hc he => ⟨?_, hs.plain ho he⟩) hp s hs
  cases o with
  | query q =>
    have he : Schema.State.exec t ch (.query q) s = some (r, s') := he
    refine decisions_last.ok_exec hb hi he fun q' hq' a _ => ?_
    cases hq'
    exact hq q ho s ch.pick hi hs hc
  | store m => exact ok_of_noDecision (o := .store m) trivial hb hi ch he
  | clock => exact ok_of_noDecision (o := .clock) trivial hb hi ch he
  | load => exact ok_of_noDecision (o := .load) trivial hb hi ch he
  | _ => exact ho.elim

theorem wp_reads {p : Nat → Prop} {prog : P α} (hp : prog.All (Op.Plain NoDecision)) (hs : Began p t s) :
    (windowed D L n).wp t prog (fun _ => Began p t) (fun _ => Began p t) s :=
  wp_statements (fun _ hq _ _ hi _ _ => extends_other hi hq ..) hp hs

/-- Statements that decide no candidate but this one, in its window. -/
theorem wp_decides {prog : P α} (hp : prog.All (Op.Plain (Decides c))) (hs : Began (Open D c) t s) :
    (windowed D L n).wp t prog (fun _ => Began (Open D c) t) (fun _ => Began (Open D c) t) s := by
  refine wp_statements (fun q hq s pick hi hs hc => ?_) hp hs
  rcases hq with hq | ⟨token, decision, decidedBy, rfl⟩
  · exact extends_other hi hq ..
  · obtain ⟨l, start, hn, hopen⟩ := hs
    obtain ⟨x, hx, -, rfl⟩ := TxRules.nest_some hn
    refine extends_insertAdmission hi (fun τ hτ => ?_) pick _
    have hclock : s.now ≤ s.clock t + L := of_decide_eq_true hc
    rw [Schema.State.clock, hx] at hclock
    exact le_trans hclock (Nat.add_le_add_right (hopen τ hτ) L)

/-- The candidate is admitted under the clock that its deletion of old decisions reads. -/
theorem wp_admitCandidate (hD : c.deps = D) (h : StartHook) (hs : Began (Open D c) t s) :
    (windowed D L n).wp t (admitCandidate c h) (fun _ => Began (Open D c) t) (fun _ => Began (Open D c) t) s := by
  refine (Rules.wp_bind _ _ _ _).2 ?_
  have hdelete : (windowed D L n).wp t (deleteExpiredDecisions c.deps) (fun _ => Began (Open D c) t)
      (fun _ => Began (Open D c) t) s := by
    rw [hD]
    intro s₁ hb hi hr _ ch now s₂ he
    refine ⟨ok_of_noDecision (o := .clock) trivial hb hi ch he, ?_⟩
    have hs₁ := hs.keep hr
    cases he
    intro s₃ hb₃ hi₃ hr₃ hc₃ ch₃ a s₄ he₃
    have he₃ : Schema.State.exec t ch₃ (.query (.deleteExpiredDecisions (s₁.now - D.startHookCandidateMaxAgeMs - 3600000))) s₃ =
        some (a, s₄) := he₃
    have hs₄ : Began (Open D c) t s₄ := (hs₁.keep hr₃).plain (Q := fun _ => True) (o := .query _) trivial he₃
    refine ⟨decisions_last.ok_exec hb₃ hi₃ he₃ fun q hq a _ => ?_, ?_⟩
    · cases hq
      have hnow : s₁.now ≤ s₃.now := hr₃.keep.now
      exact extends_deleteExpired hi₃ (fun created h => by omega) hc₃ ch₃.pick _
    · cases a with
      | ok _ => exact hs₄
      | error e => exact hs₄
  refine Rules.wp_mono (fun _ s₁ hs₁ => ?_) (fun _ _ h => h) _ _ hdelete
  have hother : ∀ {q : Query}, q.tbl ≠ some .admission → Decides c (.query q) := .inl
  have hrecord : ∀ decision, Decides c (.query (.insertAdmission c.key h.token decision c.me)) := fun _ => .inr ⟨_, _, _, rfl⟩
  refine wp_decides (.bind (plain_deleteReleasedHooks decides_read fun _ => hother (by simp [Query.tbl])) fun _ => ?_) hs₁
  refine .bind (plain_claimStartHook decides_read (hother (by simp [Query.tbl]))) fun claim => ?_
  exact .ite (plain_recordDecision decides_read hrecord _) (plain_refuseCandidate decides_read hrecord _)

theorem wp_decideStartHookAdmission (hD : c.deps = D) (h : StartHook) (hs : Began (fun _ => True) t s) :
    (windowed D L n).wp t (decideStartHookAdmission c h) (fun _ _ => True) (fun _ _ => True) s := by
  refine (Rules.wp_bind _ _ _ _).2 (Rules.wp_mono (fun recorded s hs => ?_) (fun _ _ _ => trivial) _ _
    (wp_reads (plain_recordedDecision (by simp [NoDecision, Query.tbl])) hs))
  cases recorded with
  | some r => trivial
  | none =>
    refine (Rules.wp_bind _ _ _ _).2 fun s₁ hb hi hr _ ch now s₂ he => ⟨ok_of_noDecision (o := .clock) trivial hb hi ch he, ?_⟩
    obtain ⟨l, start, hn, -⟩ := hs.keep hr
    cases he
    show (windowed D L n).wp t (ite _ _ _) _ _ s₁
    split
    · trivial
    · rename_i hyoung
      -- the clock is read after the transaction began
      have hopen : Began (Open D c) t s₁ := by
        refine ⟨l, start, hn, fun τ hτ => ?_⟩
        obtain ⟨x, hx, -, rfl⟩ := TxRules.nest_some hn
        rw [hD, hτ, Option.any_some, decide_eq_true_eq] at hyoung
        exact le_trans (hi.2 t x hx) (Nat.not_lt.1 hyoung)
      refine (Rules.wp_bind _ _ _ _).2 (Rules.wp_mono (fun run s₃ hs₃ => ?_) (fun _ _ _ => trivial) _ _
        (wp_reads (plain_statement _ (by simp [NoDecision, Query.tbl])) hopen))
      split
      · trivial
      · exact Rules.wp_mono (fun _ _ _ => trivial) (fun _ _ _ => trivial) _ _ (wp_admitCandidate hD h hs₃)

/-! ## A whole session -/

theorem wp_transaction_any {body : P α} (s : State n)
    (hbody : ∀ s, Began (fun _ => True) t s → (windowed D L n).wp t body (fun _ _ => True) (fun _ _ => True) s) :
    (windowed D L n).wp t (transaction body) (fun _ _ => True) (fun _ _ => True) s := by
  intro s₁ hb hi _ _ ch a s₂ he
  refine ⟨ok_of_noDecision (o := .begin) trivial hb hi ch he, ?_⟩
  cases he
  rw [Rules.wp_bind, Rules.wp_tryCatch]
  refine Rules.wp_mono (fun _ s₃ _ => ?_) (fun _ s₃ _ => ?_) _ _ (hbody _ ⟨_, _, TxRules.beginTx_nest .., trivial⟩)
  · exact fun s₄ hb₄ hi₄ _ _ ch₄ a₄ s₅ he₄ => ⟨ok_of_noDecision (o := .commit) trivial hb₄ hi₄ ch₄ he₄, trivial⟩
  · exact fun s₄ hb₄ hi₄ _ _ ch₄ a₄ s₅ he₄ => ⟨ok_of_noDecision (o := .rollback) trivial hb₄ hi₄ ch₄ he₄, trivial⟩

theorem wp_newRunRows (i : RunInput) (s : State n) :
    (windowed D L n).wp t (insertRunRow c (i.row c) (i.created c)) (fun _ _ => True) (fun _ _ => True) s := by
  refine wp_noDecision (B := NoBlock) (fun _ _ h => h.elim) ((built_insertRunRow i).expand (fun o ho => ?_) fun _ _ h => h.elim) s
  cases o with
  | query q => rcases ho with rfl | rfl | rfl <;> simp [NoDecision, Query.tbl]
  | _ => trivial

theorem wp_creates (hD : c.deps = D) {p : P α} (hp : Creates c α p) (s : State n) :
    (windowed D L n).wp t p (fun _ _ => True) (fun _ _ => True) s := by
  obtain ⟨i⟩ := hp
  refine wp_transaction_any s fun s hs => ?_
  unfold insertAdmittedRun
  split
  · exact (Rules.wp_bind _ _ _ _).2 (Rules.wp_mono (fun _ _ _ => trivial) (fun _ _ _ => trivial) _ _ (wp_newRunRows i s))
  · refine (Rules.wp_bind _ _ _ _).2 (Rules.wp_mono (fun decision s _ => ?_) (fun _ _ _ => trivial) _ _
      (wp_decideStartHookAdmission hD _ hs))
    split
    · exact (Rules.wp_bind _ _ _ _).2 (Rules.wp_mono (fun _ _ _ => trivial) (fun _ _ _ => trivial) _ _ (wp_newRunRows i s))
    · trivial

theorem noDecision_read {q : Query} (hq : q.reads = true) : NoDecision (.query q) := by
  rw [NoDecision, Query.reads_tbl hq]
  exact nofun

/-- A request without a start Hook decides nothing. -/
theorem noDecision_issued {e : EventReq} {l : Bool} (he : e.startHook = none) {o : Op} (ho : Issued c e l o) : NoDecision o := by
  cases o with
  | query q =>
    rcases ho with h | h | h
    · exact noDecision_read h
    · cases q with
      | insertAdmission k token decision decidedBy =>
        obtain ⟨-, -, hook, hhook, -⟩ := h
        rw [he] at hhook
        cases hhook
      | deleteExpiredDecisions cutoff =>
        have h : e.startHook.isSome = true := h
        rw [he] at h
        cases h
      | _ => simp [NoDecision, Query.tbl]
    · cases q with
      | insertRun | insertSlots | insertEvent | advanceSlots => simp [NoDecision, Query.tbl]
      | _ => exact h.elim
  | _ => trivial

theorem wp_session_deciding (r : CreateReq) (s : State n) :
    (windowed D L n).wp t (session D t r) (fun _ _ => True) (fun _ _ => True) s := by
  have hcreate : (windowed D L n).wp t (create D t r) (fun _ _ => True) (fun _ _ => True) s := by
    refine wp_noDecision (fun α p hp s => ?_) (built_create.expand (fun o ho => ?_) fun _ _ h => .block h) s
    · obtain ⟨hu⟩ := hp
      exact wp_noDecision (fun _ _ h => wp_creates hu.deps h)
        (built_createOnRun_creates noDecision_read _ fun _ _ he _ => noDecision_issued he) s
    · cases o with
      | query q =>
        obtain ⟨run, -, rfl⟩ := ho
        exact noDecision_read rfl
      | _ => trivial
  have hreply : ∀ (a : Reply) (s : State n),
      (windowed D L n).wp t (.op (.reply a) .pure : P Unit) (fun _ _ => True) (fun _ _ => True) s :=
    fun a s s₁ hb hi _ _ ch r s₂ he => ⟨ok_of_noDecision (o := .reply a) trivial hb hi ch he, trivial⟩
  unfold session
  rw [Rules.wp_bind, Rules.wp_tryCatch, Rules.wp_bind]
  exact Rules.wp_mono (fun a s' _ => hreply (.ok a) s') (fun e s' _ => hreply (.error e) s') _ _ hcreate

/-! ## A forgotten candidate -/

/-- The decision of a candidate whose decision was deleted is its refusal, unless the server fails. -/
theorem wp_decide_forgotten {K : RunKey} (hD : c.deps = D) (hK : c.key = K) (h : StartHook) (hf : s.db.Forgotten K) :
    (windowed D L n).wp t (decideStartHookAdmission c h) (fun _ _ => False)
      (fun e _ => e = startHookCandidateExpired K.2 ∨ ∃ err, e = .sql err) s := by
  subst hK
  refine (Rules.wp_bind _ _ _ _).2 ((Rules.wp_bind _ _ _ _).2 fun s₁ hb hi hr _ ch a s₂ he => ?_)
  have hok : (windowed D L n).Ok t s₁ s₂ :=
    ok_of_noDecision (o := .query (.selectAdmission c.key)) (noDecision_read rfl) hb hi ch he
  have hf₁ : s₁.db.Forgotten c.key := hr.rel c.key hf
  have hf₂ : s₂.db.Forgotten c.key := hok.2.1 c.key hf₁
  have hview : (s₁.view t).admissions.lookup c.key = none := by
    rw [Schema.State.view_eq]
    exact admission_stays_missing _ hf₁.2 fun hmem => (draft_of_windowed hi).fresh _ hmem hf₁.1
  refine ⟨hok, ?_⟩
  rcases Schema.State.runQuery_cases he with ⟨e, rfl, -, -⟩ | ⟨row, rfl, hrow, -, -, -⟩
  · exact .inr ⟨e, rfl⟩
  · cases hrow
    rw [hview]
    -- nothing is recorded: the attempt goes on to its age
    refine (Rules.wp_bind _ _ _ _).2 fun s₃ hb₃ hi₃ hr₃ _ ch₃ now s₄ he₃ => ?_
    refine ⟨ok_of_noDecision (o := .clock) trivial hb₃ hi₃ ch₃ he₃, ?_⟩
    cases he₃
    obtain ⟨τ, hτ, hlt⟩ := hi₃.1.data.lapsed _ (hr₃.rel c.key hf₂)
    show (windowed D L n).wp t (ite _ _ _) _ _ s₃
    rw [if_pos]
    · exact .inl rfl
    · have hτ : D.ulidToDate c.runId = some τ := hτ
      rw [hD, hτ, Option.any_some, decide_eq_true_eq]
      omega

end Flow

/-! ## Whole runs -/

/-- Where nothing was decided before: in every run in which each decision is recorded within `L` of its transaction's
start, and each that a deletion finds old enough is of a candidate whose id carries a time at most an hour less `L`
after the decision's, no candidate is decided twice, and an attempt for one whose decision was deleted is refused as
expired, whenever it comes and whatever the others do. -/
theorem forgotten_candidates_stay_decided {n : Nat} {D : Deps} {L : Nat} {requests : Fin n → CreateReq} {d : Db} {now : Nat}
    (hd : d.decisions = []) {C : Configuration n} (h : Reaches (World n) (InWindow D L) (initial D requests d now) C) :
    C.st.db.decided.Nodup ∧ ∀ K, C.st.db.Forgotten K → ∀ (t : Fin n) (c : Ctx) (hook : StartHook), c.deps = D → c.key = K →
      ∀ C' x, Called (World n) (InWindow D L) t C (decideStartHookAdmission c hook) C' x →
        x = .error (startHookCandidateExpired K.2) ∨ ∃ err, x = .error (.sql err) := by
  have hnone : d.decided = [] := by rw [Db.decided, hd]; rfl
  have hdata : Windowed D L now d := by
    refine ⟨by rw [hnone]; exact List.nodup_nil, fun K hK => ?_⟩
    have hmem := hK.1
    rw [hnone] at hmem
    cases hmem
  have hsafe : (windowed D L n).Safe (initial D requests d now) :=
    ⟨base_initial .., ⟨inv_initial hdata, fun _ _ hx => by cases hx⟩, fun t => wp_session_deciding ..⟩
  obtain ⟨hC, -⟩ := hsafe.reaches decisions_last.tolerates h
  refine ⟨hC.inv.1.data.once, fun K hK t c hook hD hk C' x hcall => ?_⟩
  obtain ⟨-, hok, herr⟩ := (Rules.SafeBut.of_safe hC).called decisions_last.tolerates (fun _ _ _ h _ => h) (fun _ _ _ h _ => h)
    (wp_decide_forgotten hD hk hook hK) hcall
  cases x with
  | ok a => exact (hok a rfl).elim
  | error e =>
    rcases herr e rfl with rfl | ⟨err, rfl⟩
    · exact .inl rfl
    · exact .inr ⟨err, rfl⟩

/-- Run `a` is created holding token `k`; a resilient start of `b` asks for `k`; `a` completes; `c` is created; `b` is
started again. -/
def sameToken : Fin 5 → CreateReq
  | 0 => { tenant := "t", runId := some "a", event := .runCreated (asking "k") }
  | 1 => { tenant := "t", runId := some "b", event := .runStarted (some (asking "k")) }
  | 2 => { tenant := "t", runId := some "a", event := .runCompleted }
  | 3 => { tenant := "t", runId := some "c", event := .runCreated (asking "l") }
  | 4 => { tenant := "t", runId := some "b", event := .runStarted (some (asking "k")) }

/-- The ids carry the times 0 and, of `c`, 25 hours later; `b` may carry none. -/
def candidateDeps (ofB : Option Nat) : Deps :=
  { defaultDeps with ulidToDate := fun run => if run = "b" then ofB else if run = "c" then some 90000001 else some 0 }

/-- `c` comes when the window of the others is over, and deletes the decision of `b`. -/
def deletion : List (Move schema 5) :=
  [go 0, go 1, go 2, .tick 90000001, .run 3 1000 ⟨false, { keys := [("t", "b")] }⟩]

/-- The decision of `b` is deleted, and `b` is refused from then on. -/
theorem forgotten_candidates_stay_decided_b : ∃ C : Configuration 5,
    Reaches (World 5) (InWindow (candidateDeps (some 0)) 60000) (initial (candidateDeps (some 0)) sameToken Db.empty 0) C ∧
    C.st.db.Forgotten ("t", "b") ∧ C.st.db.decided.Nodup ∧
    ∀ (t : Fin 5) (c : Ctx) (hook : StartHook), c.deps = candidateDeps (some 0) → c.key = ("t", "b") → ∀ C' x,
      Called (World 5) (InWindow (candidateDeps (some 0)) 60000) t C (decideStartHookAdmission c hook) C' x →
        x = .error (startHookCandidateExpired "b") ∨ ∃ err, x = .error (.sql err) := by
  obtain ⟨C, hC, h⟩ := Sessions.exists_of_play (c := InWindow (candidateDeps (some 0)) 60000) (fun _ _ _ h => h)
    (P := fun C : Configuration 5 => C.st.db.decided.contains ("t", "b") && (C.st.db.admissions.lookup ("t", "b")).isNone)
    (show (Sessions.play (timely (candidateDeps (some 0)) 60000) deletion
      (initial (candidateDeps (some 0)) sameToken Db.empty 0)).any _ = true by decide +kernel)
  rw [Bool.and_eq_true, List.contains_iff_mem, Option.isNone_iff_eq_none] at h
  obtain ⟨honce, hrefused⟩ := forgotten_candidates_stay_decided rfl hC
  exact ⟨C, hC, h, honce, hrefused _ h⟩

/-- An id without a time is refused its token, forgotten, and then admitted. -/
theorem forgotten_candidate_admitted : ∃ C : Configuration 5,
    Reaches (World 5) Anything (initial (candidateDeps none) sameToken Db.empty 0) C ∧
    (C.st.db.decisions.filter fun p => p.1 = ("t", "b")).map (fun p => p.2.decision) = [.rejected "a", .accepted] ∧
    ¬C.st.db.decided.Nodup := by
  obtain ⟨C, hC, h⟩ := Sessions.exists_of_play (c := Anything) (fun _ _ _ _ => trivial)
    (P := fun C : Configuration 5 => decide ((C.st.db.decisions.filter fun p => p.1 = ("t", "b")).map (fun p => p.2.decision) =
      [.rejected "a", .accepted]) && !decide C.st.db.decided.Nodup)
    (show (Sessions.play (fun _ _ _ => true) (deletion ++ [go 4])
      (initial (candidateDeps none) sameToken Db.empty 0)).any _ = true by decide +kernel)
  simp only [Bool.and_eq_true, decide_eq_true_eq, Bool.not_eq_true', decide_eq_false_iff_not] at h
  exact ⟨C, hC, h.1, h.2⟩

end WorkflowWorld
