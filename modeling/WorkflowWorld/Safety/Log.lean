/-
A slot-numbered log is dense and grows by prefix. An insert computes its slot from what its
statement sees and waits for whoever inserts the same slot, so that at most one transaction has
events of a run pending, and they continue the committed ones. What breaks this is an event that
was given a ULID: one appended before the run had its slot marker, or one of the legacy handler.
-/
import WorkflowWorld.Storage.Flow

namespace WorkflowWorld

open Concurrency Schema

/-! ## Dense logs -/

/-- The events take the slots from `m` on, in order; slot 1, and no other, is a `run_created`. -/
def DenseFrom : Nat → List EventRow → Prop
  | _, [] => True
  | m, e :: log => e.id = .slot m ∧ (e.type = .runCreated ↔ m = 1) ∧ DenseFrom (m + 1) log

section Dense

variable {m : Nat} {log log' : List EventRow}

theorem denseFrom_append : ∀ {m : Nat} {log log' : List EventRow},
    DenseFrom m (log ++ log') ↔ DenseFrom m log ∧ DenseFrom (m + log.length) log'
  | m, [], log' => by simp [DenseFrom]
  | m, e :: log, log' => by
    simp only [List.cons_append, DenseFrom, List.length_cons, denseFrom_append (m := m + 1), and_assoc]
    rw [show m + 1 + log.length = m + (log.length + 1) by omega]

theorem DenseFrom.ids : ∀ {m : Nat} {log : List EventRow}, DenseFrom m log →
    log.map (·.id) = (List.range' m log.length).map .slot
  | _, [], _ => rfl
  | m, e :: log, h => by
    simp only [List.map_cons, List.length_cons, List.range'_succ, h.1, h.2.2.ids]

theorem DenseFrom.mem_slot (h : DenseFrom m log) {i : Nat} : (∃ e ∈ log, e.id = .slot i) ↔ m ≤ i ∧ i < m + log.length := by
  have hids := h.ids
  constructor
  · rintro ⟨e, he, hid⟩
    have hin : EventId.slot i ∈ log.map (·.id) := List.mem_map.2 ⟨e, he, hid⟩
    rw [hids, List.mem_map] at hin
    obtain ⟨j, hj, hj'⟩ := hin
    cases hj'
    exact List.mem_range'_1.1 hj
  · intro hi
    have hin : EventId.slot i ∈ log.map (·.id) := by
      rw [hids]; exact List.mem_map_of_mem (List.mem_range'_1.2 hi)
    exact List.mem_map.1 hin

/-- The slot after the last. -/
theorem DenseFrom.foldl {f : Option Nat → EventRow → Option Nat}
    (hf : ∀ m e, e.id = .slot (m + 1) → f (some m) e = some (m + 1)) :
    ∀ (log : List EventRow) (m : Nat), DenseFrom (m + 1) log → log.foldl f (some m) = some (m + log.length)
  | [], m, _ => rfl
  | e :: log, m, h => by
    rw [List.foldl_cons, hf m e h.1, DenseFrom.foldl hf log (m + 1) h.2.2, List.length_cons]
    congr 1; omega

theorem DenseFrom.lastSlot (h : DenseFrom 1 log) : lastSlot log = some log.length := by
  refine (DenseFrom.foldl (fun m e he => ?_) log 0 h).trans (by rw [Nat.zero_add])
  simp [he]

end Dense

/-! ## The invariant -/

section Marker

variable {K : RunKey} {ws : List Write} {d d' : Db}

/-- The run has its slot marker. -/
def Db.slotted (d : Db) (K : RunKey) : Bool := (d.slots.lookup K).isSome

/-- The writes open the run's slots. -/
def Opens (K : RunKey) (ws : List Write) : Prop := ∃ m, Write.insertSlots K m ∈ ws

/-- The write writes the run's slot marker. -/
def Write.Marks (K : RunKey) (w : Write) : Prop := ∃ m, w = .insertSlots K m ∨ w = .updateSlots K m

theorem slotted_apply (w : Write) (d : Db) : (w.apply d).slotted K = true ↔ d.slotted K = true ∨ w.Marks K := by
  cases w with
  | insertSlots k m | updateSlots k m =>
    by_cases h : k = K
    · subst h; simp [Write.apply, Db.slotted, Write.Marks]
    · have : ∀ m', ¬(k = K ∧ m = m') := fun m' hk => h hk.1
      simp [Write.apply, Db.slotted, Write.Marks, AList.lookup_insert_ne (Ne.symm h), h]
  | _ => simp [Write.apply, Db.slotted, Write.Marks]

theorem slotted_applyAll : ∀ (ws : List Write) (d : Db),
    Db.slotted (schema.applyAll ws d) K = true ↔ d.slotted K = true ∨ ∃ w ∈ ws, w.Marks K
  | [], d => by simp [Schema.applyAll]
  | w :: ws, d => by
    have h := slotted_applyAll ws (w.apply d)
    rw [slotted_apply] at h
    refine h.trans ?_
    simp only [List.mem_cons, exists_eq_or_imp, or_assoc]

end Marker

/-- The committed log of the run. -/
structure LogOk (K : RunKey) (d : Db) : Prop where
  dense : DenseFrom 1 (d.events K)
  opened : d.slotted K = true → d.events K ≠ []

/-- A transaction's pending events continue the committed log, and its slot marker is a committed
one or its own. -/
structure LogDraft (K : RunKey) (ws : List Write) (d : Db) : Prop where
  dense : DenseFrom 1 ((schema.applyAll ws d).events K)
  marker : Db.slotted (schema.applyAll ws d) K = true → d.slotted K = true ∨ Opens K ws

/-- The log grew. -/
structure LogGrew (K : RunKey) (d d' : Db) : Prop where
  log : d.events K <+: d'.events K
  slotted : d.slotted K = true → d'.slotted K = true

/-- The writes continue the log that the session sees. -/
structure Continues (K : RunKey) (d : Db) (new : List Write) : Prop where
  dense : DenseFrom ((d.events K).length + 1) (appended K new)
  marker : ∀ w ∈ new, w.Marks K → d.slotted K = true ∨ Opens K new

/-- The write neither appends to the run's log nor writes its slot marker. -/
def Write.OffLog (K : RunKey) (w : Write) : Prop := (∀ e, w ≠ .appendEvent K e) ∧ ¬w.Marks K

section Draft

variable {K : RunKey} {ws ws' new : List Write} {d d' : Db}

theorem appended_offLog (h : ∀ w ∈ new, w.OffLog K) : appended K new = [] :=
  List.eq_nil_iff_forall_not_mem.2 fun e he => (h _ (mem_appended.1 he)).1 e rfl

theorem Continues.of_offLog (d : Db) (h : ∀ w ∈ new, w.OffLog K) : Continues K d new :=
  ⟨by rw [appended_offLog h]; trivial, fun w hw hm => absurd hm (h w hw).2⟩

theorem LogDraft.append (h : LogDraft K ws d) (hc : Continues K (schema.applyAll ws d) new) :
    LogDraft K (ws ++ new) d := by
  have happ := Schema.State.applyAll_append (S := schema) ws new d
  refine ⟨?_, fun hs => ?_⟩
  · rw [happ, events_applyAll, denseFrom_append, Nat.add_comm 1]
    exact ⟨h.dense, hc.dense⟩
  · have hopens : ∀ {l : List Write}, l ⊆ ws ++ new → Opens K l → Opens K (ws ++ new) := fun hl ⟨m, hm⟩ => ⟨m, hl hm⟩
    have hold : Db.slotted (schema.applyAll ws d) K = true → d.slotted K = true ∨ Opens K (ws ++ new) :=
      fun hs => (h.marker hs).imp_right (hopens (List.subset_append_left _ _))
    rw [happ, slotted_applyAll] at hs
    rcases hs with hs | ⟨w, hw, hm⟩
    · exact hold hs
    · rcases hc.marker w hw hm with hs | hs
      · exact hold hs
      · exact .inr (hopens (List.subset_append_right _ _) hs)

theorem LogGrew.applyAll (ws : List Write) (d : Db) : LogGrew K d (schema.applyAll ws d) :=
  ⟨by rw [events_applyAll]; exact List.prefix_append _ _, fun h => (slotted_applyAll ws d).2 (.inl h)⟩

/-- The pending events of a transaction start at the slot after the committed ones. -/
theorem LogDraft.first (h : LogDraft K ws d) (hne : appended K ws ≠ []) :
    Key.event K (.slot ((d.events K).length + 1)) ∈ schema.touchesAll ws := by
  have hdense := h.dense
  rw [events_applyAll, denseFrom_append] at hdense
  obtain ⟨e, he, hid⟩ := (hdense.2.mem_slot (i := (d.events K).length + 1)).2
    ⟨by omega, by have := List.length_pos_iff.2 hne; omega⟩
  exact List.mem_flatMap.2 ⟨_, mem_appended.1 he, by simp [Write.touches, hid]⟩

/-- Of two transactions at most one has events of the run pending. -/
theorem LogDraft.others (h : LogDraft K ws d) (h' : LogDraft K ws' d)
    (hex : ∀ k ∈ schema.touchesAll ws, k ∉ schema.touchesAll ws') : LogDraft K ws' (schema.applyAll ws d) := by
  refine ⟨?_, fun hs => ?_⟩
  · rw [events_applyAll]
    by_cases hmine : appended K ws = []
    · rw [events_applyAll, hmine, List.append_nil, ← events_applyAll]; exact h'.dense
    · have hnone : appended K ws' = [] := by
        by_contra htheirs
        exact hex _ (h.first hmine) (h'.first htheirs)
      rw [hnone, List.append_nil]; exact h.dense
  · rcases (slotted_applyAll ws' _).1 hs with hs | hs
    · exact .inl hs
    · exact (h'.marker ((slotted_applyAll ws' d).2 (.inr hs))).imp_left (LogGrew.applyAll ws d).slotted

end Draft

section Rules

variable {n : Nat} (cond : Fin n → Op → State n → Prop) (K : RunKey)

def logRules : Rules n where
  data := LogOk K
  draft _ ws _ d := LogDraft K ws d
  steady _ ws := Opens K ws → appended K ws ≠ []
  ready _ ws := Opens K ws → appended K ws ≠ []
  inert w := w.OffLog K
  grows := LogGrew K
  spares _ _ _ := True
  effect _ _ _ := True
  answer _ _ _ _ _ := True
  cond := cond
  recalls := False
  grows_refl _ := ⟨List.prefix_refl _, fun h => h⟩
  grows_trans _ _ _ h1 h2 := ⟨h1.log.trans h2.log, fun h => h2.slotted (h1.slotted h)⟩
  spares_refl _ _ := trivial
  spares_trans _ _ _ _ _ _ := trivial
  effect_refl _ _ := trivial
  effect_spares _ _ _ _ _ _ := trivial
  draft_nil _ d hd := ⟨hd.dense, fun h => .inl h⟩
  draft_inert _ _ _ _ _ _ h hn := h.append (.of_offLog _ hn)
  steady_nil _ := fun ⟨m, hm⟩ => by cases hm
  ready_inert _ ws hn := fun ⟨m, hm⟩ => absurd ⟨m, .inl rfl⟩ (hn _ hm).2
  steady_inert _ ws new hr hn := by
    rintro ⟨m, hm⟩
    rw [appended_append, appended_offLog hn, List.append_nil]
    refine hr ⟨m, (List.mem_append.1 hm).resolve_right fun h => (hn _ h).2 ⟨m, .inl rfl⟩⟩
  spares_inert _ _ _ _ := trivial
  publish _ ws _ d hd h hr := by
    refine ⟨⟨h.dense, fun hs => ?_⟩, .applyAll ws d, trivial⟩
    rw [events_applyAll]
    rcases h.marker hs with hs | hs
    · exact List.append_ne_nil_of_left_ne_nil (hd.opened hs) _
    · exact List.append_ne_nil_of_right_ne_nil _ (hr hs)
  others _ _ _ _ _ _ _ _ h _ _ h' hks hw hw' := h.others h' fun k hk hk' => hks k (hw k hk) (hw' k hk')
  ext d d' hd he := by
    obtain ⟨m, rfl⟩ := he
    exact ⟨⟨hd.dense, hd.opened⟩, ⟨List.prefix_refl _, fun h => h⟩, fun _ => trivial⟩
  ext_draft t ws ks d d' h he := by
    obtain ⟨m, rfl⟩ := he
    have hev : (schema.applyAll ws { d with inFlight := m }).events K = (schema.applyAll ws d).events K := by
      rw [events_applyAll, events_applyAll]
    refine ⟨by rw [hev]; exact h.dense, fun hs => h.marker ?_⟩
    rw [slotted_applyAll] at hs ⊢; exact hs
  answer_grows _ _ _ _ _ _ h _ := h

end Rules

/-! ## Statements beside the log -/

/-- The statement writes neither the run's log nor its slot marker. -/
structure Query.OffLog (K : RunKey) (q : Query) : Prop where
  event : ∀ v oc, q ≠ .insertEvent K v oc
  opens : q ≠ .insertSlots K
  advances : ∀ x, q ≠ .advanceSlots K x

section OffLog

variable {K k : RunKey} {q : Query}

theorem Query.OffLog.writes (h : q.OffLog K) {pick : Pick} {now : Nat} {d : Db} : ∀ w ∈ (plan q pick now d).writes, w.OffLog K := by
  intro w hw
  refine ⟨?_, ?_⟩
  · rintro e rfl
    obtain ⟨k, v, oc, rfl, heq, -⟩ := plan_event hw rfl
    cases heq; exact h.event v oc rfl
  · rintro ⟨m, rfl | rfl⟩
    · rcases plan_slots hw rfl with ⟨k, rfl, heq, -⟩ | ⟨k, m, -, heq, -⟩
      · cases heq; exact h.opens rfl
      · cases heq
    · rcases plan_slots hw rfl with ⟨k, -, heq, -⟩ | ⟨k, m, rfl, heq, -⟩
      · cases heq
      · cases heq; exact h.advances m rfl

/-- No statement outside the blocks writes a log or a slot marker. -/
theorem Stmt.offLog {c : Ctx} {e : EventReq} {l : Bool} (h : Stmt c e l (.query q)) : q.OffLog K := by
  refine ⟨?_, ?_, ?_⟩
  · rintro v oc rfl; exact h.elim (fun h => by cases h) fun h => h.elim
  · rintro rfl; exact h.elim (fun h => by cases h) fun h => h.elim
  · rintro x rfl; exact h.elim (fun h => by cases h) fun h => h.elim

theorem Query.offLog_of_tbl (h1 : q.tbl ≠ some .event) (h2 : q.tbl ≠ some .slots) : q.OffLog K :=
  ⟨by rintro v oc rfl; exact h1 rfl, by rintro rfl; exact h2 rfl, by rintro x rfl; exact h2 rfl⟩

/-- Statements on another run's log. -/
theorem Query.offLog_insertEvent (hk : k ≠ K) (v : EventInsert) (oc : OnConflict) : (Query.insertEvent k v oc).OffLog K :=
  ⟨by rintro _ _ h; cases h; exact hk rfl, by simp, by simp⟩

theorem Query.offLog_insertSlots (hk : k ≠ K) : (Query.insertSlots k).OffLog K :=
  ⟨by simp, by rintro h; cases h; exact hk rfl, by simp⟩

theorem Query.offLog_advanceSlots (hk : k ≠ K) (x : Nat) : (Query.advanceSlots k x).OffLog K :=
  ⟨by simp, by simp, by rintro _ h; cases h; exact hk rfl⟩

end OffLog

/-! ## The requests -/

/-- An event of the run is given an id only when its slot marker is found. -/
def markerFound {n : Nat} (K : RunKey) (t : Fin n) : Op → State n → Bool
  | .query (.allocateEventId k), s => k ≠ K || (s.view t).slotted K
  | _, _ => true

section Requests

variable {n : Nat} {cond : Fin n → Op → State n → Prop} {K : RunKey} {t : Fin n} {s s' : State n}

/-- The run has its slot marker for session `t`. -/
def Slotted (K : RunKey) (t : Fin n) (s : State n) : Prop := s.db.slotted K = true ∨ Opens K (s.pend t)

theorem slotted_of_view (hi : (logRules cond K).Inv s) (h : (s.view t).slotted K = true) : Slotted K t s := by
  rw [Schema.State.view_eq] at h
  exact LogDraft.marker (hi.draft_pend t) h

theorem Slotted.mono (h : Slotted K t s) (hg : s.db.slotted K = true → s'.db.slotted K = true)
    (hp : s.pend t <+: s'.pend t) : Slotted K t s' := by
  rcases h with h | ⟨m, hm⟩
  · exact .inl (hg h)
  · exact .inr ⟨m, hp.subset hm⟩

theorem Slotted.view (h : Slotted K t s) : (s.view t).slotted K = true := by
  rw [Schema.State.view_eq]
  refine (slotted_applyAll _ _).2 (h.imp_right ?_)
  rintro ⟨m, hm⟩
  exact ⟨_, hm, m, .inl rfl⟩

theorem Slotted.beginTx (h : Slotted K t s) : Slotted K t (s.beginTx t) := by
  obtain ⟨-, -, -, hp, -⟩ := TxRules.beginTx_tx s t
  unfold Slotted
  rw [hp, TxRules.beginTx_db]
  exact h

theorem Slotted.went (h : Slotted K t s) (hw : (logRules cond K).Went t s s') : Slotted K t s' :=
  h.mono hw.grows.slotted hw.pend

theorem Slotted.log_ne_nil (h : Slotted K t s) (hi : (logRules cond K).Inv s) (hs : (logRules cond K).Sound t s) :
    (s.view t).events K ≠ [] := by
  rw [Schema.State.view_eq, events_applyAll]
  rcases h with h | h
  · exact List.append_ne_nil_of_left_ne_nil (LogOk.opened hi.data h) _
  · exact List.append_ne_nil_of_right_ne_nil _ (TxRules.Sound.steady_pend hs h)

theorem dense_view (hi : (logRules cond K).Inv s) : DenseFrom 1 ((s.view t).events K) := by
  rw [Schema.State.view_eq]; exact LogDraft.dense (hi.draft_pend t)

/-- The log a session sees does not shrink as it goes on. -/
theorem length_went (hw : (logRules cond K).Went t s s') :
    ((s.view t).events K).length ≤ ((s'.view t).events K).length := by
  obtain ⟨ws, hws⟩ := hw.pend
  rw [Schema.State.view_eq, Schema.State.view_eq, events_applyAll, events_applyAll, ← hws, appended_append]
  have := hw.grows.log.length_le
  simp only [List.length_append]
  omega

/-- A statement that continues the log and opens no slots. -/
theorem admits_of_continues {A : State n → Prop} {q : Query}
    (hq : ∀ s pick, (logRules cond K).Inv s → (logRules cond K).Sound t s → A s → cond t (.query q) s →
      Continues K (s.view t) (plan q pick (s.clock t) (s.view t)).writes ∧
      ¬Opens K (plan q pick (s.clock t) (s.view t)).writes) :
    (logRules cond K).Admits t A (fun _ _ => True) q := by
  intro s pick a _ hi hs ha hc _ _
  obtain ⟨hcont, hno⟩ := hq s pick hi hs ha hc
  have hd : LogDraft K (s.pend t) s.db := hi.draft_pend t
  refine ⟨⟨hd.append (Schema.State.view_eq s t ▸ hcont), fun _ ho => absurd ho hno⟩, ?_, trivial⟩
  rintro ⟨m, hm⟩
  rw [appended_append]
  refine List.append_ne_nil_of_left_ne_nil (hs.steady_pend ⟨m, ?_⟩) _
  exact (List.mem_append.1 hm).resolve_right fun h => hno ⟨m, h⟩

/-- A statement on another table, or on another run's log. -/
theorem admits_offLog {A : State n → Prop} {q : Query} (h : q.OffLog K) : (logRules cond K).Admits t A (fun _ _ => True) q :=
  admits_of_continues fun _ _ _ _ _ _ => ⟨.of_offLog _ h.writes, fun ⟨m, hm⟩ => (h.writes _ hm).2 ⟨m, .inl rfl⟩⟩

/-- The count of the run's own marker. -/
theorem admits_advanceSlots {A : State n → Prop} (k : RunKey) (x : Nat) :
    (logRules cond K).Admits t A (fun _ _ => True) (.advanceSlots k x) := by
  by_cases hk : k = K
  · subst hk
    refine admits_of_continues fun s pick _ _ _ _ => ⟨⟨?_, fun w hw _ => .inl ?_⟩, ?_⟩
    · have : appended k (plan (.advanceSlots k x) pick (s.clock t) (s.view t)).writes = [] := by
        refine List.eq_nil_iff_forall_not_mem.2 fun e he => ?_
        cases plan_tbl (mem_appended.1 he)
      rw [this]; trivial
    · have htbl := plan_tbl hw
      rcases plan_slots hw (Option.some.inj htbl).symm with ⟨k', heq, -⟩ | ⟨k', m, heq, -, hm⟩
      · cases heq
      · cases heq; unfold Db.slotted; rw [hm]; rfl
    · rintro ⟨m, hm⟩
      rcases plan_slots hm rfl with ⟨k', heq, -⟩ | ⟨k', m, -, heq, -⟩ <;> cases heq
  · exact admits_offLog (Query.offLog_advanceSlots hk x)

theorem log_frame : (logRules cond K).Frame t (fun _ => True) (fun _ _ => True) := TxRules.any_frame fun _ h => h

variable {c : Ctx} {v : EventValues}

theorem runs_advanceFence (f : PendingFence) : (logRules cond K).Runs t (fun _ => True) (fun _ _ => True) (advanceFence f) := by
  refine .bind log_frame (runs_sql log_frame (admits_advanceSlots _ _)) fun advanced => ?_
  cases advanced with
  | true => exact fun s hs ha => .refl log_frame hs ha
  | false =>
    refine .bind log_frame (runs_sql log_frame (admits_read rfl fun _ _ _ => trivial)) fun current => ?_
    cases current with
    | none => exact fun s hs ha => .refl log_frame hs ha
    | some m => exact fun s hs ha => (TxRules.Upto.refl log_frame hs ha).left _

/-- A slot computed from a log the session saw. -/
structure SlotSeen (K : RunKey) (t : Fin n) (m : Nat) (s : State n) : Prop where
  slotted : Slotted K t s
  pos : 1 ≤ m
  le : m ≤ ((s.view t).events K).length + 1

theorem slotSeen_frame (m : Nat) : (logRules cond K).Frame t (SlotSeen K t m) (fun _ _ => True) := by
  refine TxRules.went_frame (fun _ _ _ _ h => h) (fun s s' h hw => ⟨h.slotted.went hw, h.pos, le_trans h.le ?_⟩) fun s h => ?_
  · have := length_went hw; omega
  · obtain ⟨-, -, -, hp, -⟩ := TxRules.beginTx_tx s t
    have hdb := TxRules.beginTx_db s t
    have hv : (s.beginTx t).view t = s.view t := by rw [Schema.State.view_eq, Schema.State.view_eq, hp, hdb]
    exact ⟨h.slotted.beginTx, h.pos, by rw [hv]; exact h.le⟩

/-- The insert at that slot: it finds it taken, or it is the next one. -/
theorem admits_insertEvent {m : Nat} (hv : v.type ≠ .runCreated) (createdAt : Option Nat) (me : Nat) :
    (logRules cond K).Admits t (SlotSeen K t m) (fun _ _ => True)
      (.insertEvent K (v.insert (.slot m) createdAt me) .doNothingOnKey) := by
  refine admits_of_continues fun s pick hi hs ha _ => ?_
  have hmark : ∀ w ∈ (plan (.insertEvent K (v.insert (.slot m) createdAt me) .doNothingOnKey) pick (s.clock t) (s.view t)).writes,
      ¬w.Marks K := by
    rintro w hw ⟨i, rfl | rfl⟩ <;> cases plan_tbl hw
  refine ⟨⟨?_, fun w hw hm => absurd hm (hmark w hw)⟩, fun ⟨i, hi⟩ => hmark _ hi ⟨i, .inl rfl⟩⟩
  cases hws : (plan (.insertEvent K (v.insert (.slot m) createdAt me) .doNothingOnKey) pick (s.clock t) (s.view t)).writes with
  | nil => trivial
  | cons w ws =>
    have hw : w ∈ (plan (.insertEvent K (v.insert (.slot m) createdAt me) .doNothingOnKey) pick (s.clock t) (s.view t)).writes := by
      rw [hws]; exact List.mem_cons_self ..
    obtain ⟨k, v', oc, heq, rfl, hfree, -⟩ := plan_event hw (Option.some.inj (plan_tbl hw)).symm
    cases heq
    rw [← hws, plan_single hw rfl]
    -- the slot is free in a dense log that is not empty, and it is not past its end
    have hne := ha.slotted.log_ne_nil hi hs
    have hnot : ¬∃ e ∈ (s.view t).events K, e.id = .slot m := fun ⟨e, he, hid⟩ => hfree e he hid
    rw [(dense_view hi).mem_slot] at hnot
    have hlen := List.length_pos_iff.2 hne
    have := ha.pos; have := ha.le
    have hm : m = ((s.view t).events K).length + 1 := by omega
    simp only [appended, List.filterMap_cons, List.filterMap_nil, if_true, DenseFrom]
    refine ⟨by rw [← hm]; rfl, ⟨fun h => absurd h hv, fun h => by omega⟩, trivial⟩

theorem slotted_frame : (logRules cond K).Frame t (Slotted K t) (fun _ _ => True) :=
  TxRules.went_frame (fun _ _ _ _ h => h) (fun _ _ h hw => h.went hw) fun _ h => h.beginTx

theorem runs_insertAtNextSlot (hv : v.type ≠ .runCreated) (fence : Option PendingFence) {retry : P (Option EventId)}
    (hretry : (logRules cond K).Runs t (Slotted K t) (fun _ _ => True) retry) :
    (logRules cond K).Runs t (Slotted K t) (fun _ _ => True) (insertAtNextSlot c K v fence retry) := by
  have hread : ∀ (s : State n) (takes : List Key), Slotted K t s → True := fun _ _ _ => trivial
  refine .bind_gives slotted_frame (B := SlotSeen K t) (gives_sql slotted_frame (admits_read rfl hread)
    fun s pick m _ hi _ ha _ hans hw => ?_) fun m => .bind_gives (slotSeen_frame m) (B := fun _ => Slotted K t)
      (gives_sql (slotSeen_frame m) (admits_insertEvent hv _ _) fun _ _ _ _ _ _ ha _ _ hw => ha.slotted.went hw) fun inserted => ?_
  · have hlen := length_went hw
    simp only [plan, (dense_view hi).lastSlot, read, Except.ok.injEq] at hans
    subst hans
    exact ⟨ha.went hw, by omega, by omega⟩
  · cases inserted with
    | false => exact hretry
    | true =>
      cases fence with
      | none => exact TxRules.runs_pure slotted_frame _
      | some f =>
        refine TxRules.Runs.store slotted_frame (fun _ _ => trivial) fun _ => ?_
        exact .bind slotted_frame ((runs_advanceFence f).weaken fun _ _ => trivial) fun _ => TxRules.runs_pure slotted_frame _

theorem runs_insertAtSlot (hv : v.type ≠ .runCreated) (fence : Option PendingFence) : ∀ attempts,
    (logRules cond K).Runs t (Slotted K t) (fun _ _ => True) (insertAtSlot c K v fence attempts)
  | 0 => runs_insertAtNextSlot hv fence (TxRules.runs_throw slotted_frame _)
  | attempts + 1 => runs_insertAtNextSlot hv fence (runs_insertAtSlot hv fence attempts)

/-- An append to the run's log, or to another's. -/
theorem runs_tryAppend (hcond : ∀ t o s, cond t o s → markerFound K t o s = true) (hv : v.type ≠ .runCreated) (k : RunKey) :
    (logRules cond K).Runs t (fun _ => True) (fun _ _ => True) (tryAppend c k v) := by
  by_cases hk : k = K
  · subst hk
    refine .bind_gives log_frame (B := fun alloc s => alloc = .slot ∧ Slotted k t s)
      (gives_sql log_frame (admits_read rfl fun _ _ _ => trivial) fun s pick a _ hi _ _ hc hans hw => ?_) fun alloc => ?_
    · have hfound : (s.view t).slotted k = true := by simpa [markerFound] using hcond _ _ _ hc
      obtain ⟨m, hm⟩ := Option.isSome_iff_exists.1 hfound
      simp only [plan, hm, read, Except.ok.injEq] at hans
      exact ⟨hans.symm, (slotted_of_view hi hfound).went hw⟩
    · cases alloc with
      | ulid u => exact fun s hs ha => by cases ha.1
      | slot =>
        refine TxRules.Runs.weaken (A := Slotted k t) ?_ fun s hs => hs.2
        exact TxRules.Runs.load slotted_frame fun consumed =>
          runs_insertAtSlot hv (c.fenceFor k consumed) slotInsertMaxAttempts
  · refine .of_built log_frame (fun q hq => ?_) (fun _ _ _ _ => trivial) (fun _ _ h => h.elim) built_tryAppend
    rcases hq with h | ⟨id, at', rfl⟩ | ⟨f, -, -, rfl⟩
    · exact admits_read h fun _ _ _ => trivial
    · exact admits_offLog (Query.offLog_insertEvent hk ..)
    · exact admits_advanceSlots _ _

/-- A statement inside a transaction, ready or not. -/
theorem extends_inside (hi : (logRules cond K).Inv s) (hin : s.nest t ≠ none) {takes : List Key} {ws : List Write}
    (hc : Continues K (s.view t) ws) : (logRules cond K).Extends t s takes ws := by
  have hd : LogDraft K (s.pend t) s.db := hi.draft_pend t
  exact ⟨hd.append (Schema.State.view_eq s t ▸ hc), fun h => absurd (TxRules.nest_none.2 h) hin⟩

/-- The first slot of a new run. -/
theorem wp_firstEvent (i : RunInput) (hk : c.key = K) {s : State n} (hs : (logRules cond K).SoundBelow t s)
    (hin : s.nest t ≠ none) :
    (logRules cond K).rules.wp t (sql (.insertEvent c.key (i.firstEvent c) .raise))
      (fun _ => (logRules cond K).Upto t (fun _ _ => True) s) ((logRules cond K).Left t (fun _ _ => True) s) s := by
  refine wp_sql_open (fun s₁ pick a _ hi hr _ hans => ?_) fun s₁ e hw he => ⟨hw, fun h => absurd h (not_caught_sql fun v hv => ?_)⟩
  · have hw := (TxRules.Still.of_rely hr).went
    have hwrites := (insertEventPlan_raise (e := (i.firstEvent c).row (s₁.clock t)) rfl).1 a hans
    have hmem : Write.appendEvent c.key ((i.firstEvent c).row (s₁.clock t)) ∈
        (plan (.insertEvent c.key (i.firstEvent c) .raise) pick (s₁.clock t) (s₁.view t)).writes := by
      rw [show (plan (.insertEvent c.key (i.firstEvent c) .raise) pick (s₁.clock t) (s₁.view t)).writes = _ from hwrites]
      exact List.mem_singleton_self _
    obtain ⟨_, _, _, heq, -, hfree, -⟩ := plan_event hmem rfl
    cases heq
    simp only [show (plan (.insertEvent c.key (i.firstEvent c) .raise) pick (s₁.clock t) (s₁.view t)).writes = _ from hwrites]
    have happ : appended K [.appendEvent c.key ((i.firstEvent c).row (s₁.clock t))] = [(i.firstEvent c).row (s₁.clock t)] := by
      simp [appended, hk]
    refine ⟨extends_inside hi (by rw [hw.nest]; exact hin) ⟨?_, ?_⟩, fun hw₂ => ⟨?_, hw₂, trivial⟩⟩
    · -- the first slot is free, so the log is empty
      have hnot : ¬∃ e ∈ (s₁.view t).events K, e.id = .slot 1 := by
        rintro ⟨e, he, hid⟩
        exact hfree e (hk ▸ he) hid
      rw [(dense_view hi).mem_slot] at hnot
      have hlen : ((s₁.view t).events K).length = 0 := by omega
      rw [happ, hlen]
      exact ⟨rfl, ⟨fun _ => rfl, fun _ => rfl⟩, trivial⟩
    · rintro w hw ⟨m, rfl | rfl⟩ <;> cases List.mem_singleton.1 hw
    · refine TxRules.SoundBelow.write (s := s₁.see t) ((hs.went hw).went (TxRules.Still.see s₁ t).went) fun _ => ?_
      rw [appended_append, happ]
      simp
  · obtain ⟨pick, now, d, h⟩ := he v hv
    rw [(insertEventPlan_raise (e := (i.firstEvent c).row now) rfl).2 v h]
    exact ⟨by decide, by decide⟩

/-- A new run's rows, inside their transaction: the marker is pending without an event until the
first slot is taken, and a failure there is not one the program goes on from. -/
theorem runs_insertRunRow (i : RunInput) :
    (logRules cond K).Runs t (fun s => s.nest t ≠ none) (fun _ _ => True) (insertRunRow c (i.row c) (i.created c)) := by
  by_cases hk : c.key = K
  · refine .bind TxRules.inside_frame (runs_sql TxRules.inside_frame (admits_offLog
      (Query.offLog_of_tbl (by simp [Query.tbl]) (by simp [Query.tbl])))) fun inserted => ?_
    cases inserted with
    | false => exact TxRules.runs_pure TxRules.inside_frame _
    | true =>
      intro s hs hin
      refine (Rules.wp_bind _ _ _ _).2 (wp_sql_open (fun s₁ pick a _ hi hr _ hans => ⟨?_, fun hw₂ => ?_⟩) fun s₁ e hw he => ?_)
      · refine extends_inside hi (by rw [TxRules.nest_of_tx hr.keep.tx]; exact hin) ⟨?_, fun w hw _ => .inr ?_⟩
        · have : appended K (plan (.insertSlots c.key) pick (s₁.clock t) (s₁.view t)).writes = [] := by
            refine List.eq_nil_iff_forall_not_mem.2 fun e he => ?_
            cases plan_tbl (mem_appended.1 he)
          rw [this]; trivial
        · rcases plan_slots hw (Option.some.inj (plan_tbl hw)).symm with ⟨k, heq, rfl, -⟩ | ⟨k, m, heq, -⟩
          · cases heq; exact ⟨1, hk ▸ hw⟩
          · cases heq
      · refine (Rules.wp_bind _ _ _ _).2 (Rules.wp_mono (fun _ s₃ h₃ => ?_) (fun _ _ h₃ => ?_) _ _
          (wp_firstEvent i hk (hs.below.went hw₂) (by rw [hw₂.nest]; exact hin)))
        · exact ⟨h₃.sound, hw₂.trans h₃.went, trivial⟩
        · exact ⟨hw₂.trans h₃.went, fun hc => ⟨(h₃.upto hc).sound, hw₂.trans h₃.went, trivial⟩⟩
      · refine ⟨hw, fun h => absurd h (not_caught_sql fun v hv => ?_)⟩
        obtain ⟨pick, now, d, h⟩ := he v hv
        simp only [plan] at h
        split at h <;> cases h
  · refine .of_built TxRules.inside_frame (fun q hq => ?_) (fun _ h => h.elim) (fun _ _ h => h.elim) (built_insertRunRow i)
    rcases hq with rfl | rfl | rfl
    · exact admits_offLog (Query.offLog_of_tbl (by simp [Query.tbl]) (by simp [Query.tbl]))
    · exact admits_offLog (Query.offLog_insertSlots hk)
    · exact admits_offLog (Query.offLog_insertEvent hk ..)

theorem runs_block (hcond : ∀ t o s, cond t o s → markerFound K t o s = true) {e : EventReq} {α : Type} {p : P α}
    (h : Block c e false α p) : (logRules cond K).Runs t (fun _ => True) (fun _ _ => True) p := by
  cases h with
  | @append k v hj =>
    refine runs_tryAppend hcond ?_ k
    cases hj with
    | own _ ht _ he => rw [ht]; exact he
    | lazily _ _ ht => rw [ht]; decide
    | conflict _ _ ht => rw [ht]; decide
    | takeover => simp [HookCreation.disposed]
  | @run i hi =>
    refine .transaction log_frame TxRules.inside_frame (fun s _ => by rw [TxRules.beginTx_nest]; simp) ?_
    refine .of_built TxRules.inside_frame (fun q hq => ?_) (fun _ h => h.elim) ?_ (built_insertAdmittedRun (l := false) hi)
    · exact admits_offLog hq.offLog
    · rintro _ _ ⟨⟩
      exact runs_insertRunRow i
  | legacy h => cases h

end Requests

section Runs

variable {n : Nat} {cond : Fin n → Op → State n → Prop} {K : RunKey} {D : Deps} {requests : Fin n → CreateReq}

theorem log_safe {d : Db} {now : Nat} (hd : LogOk K d) (hreq : CreatedModern D requests K)
    (hcond : ∀ t o s, cond t o s → markerFound K t o s = true ∧ ∀ u, (s.view u).ModernRun K) :
    (logRules cond K).rules.Safe (initial D requests d now) := by
  have hmark : ∀ t o s, cond t o s → markerFound K t o s = true := fun t o s h => (hcond t o s h).1
  refine safe_of_runs hd (fun _ _ _ _ _ => trivial) (fun _ => log_frame) (fun _ _ _ => trivial) (fun _ _ _ => trivial)
    fun t c hc => ?_
  by_cases hk : c.key = K
  · refine runs_createOnModernRun log_frame (fun _ _ _ => trivial) (fun s h => hk ▸ (hcond _ _ _ h).2 t)
      (hreq.spec hc hk) fun α p hp => ?_
    exact .of_built log_frame (fun q hq => admits_offLog hq.offLog) (fun _ h => h.elim) (fun _ _ hb => runs_block hmark hb) hp
  · refine .of_built log_frame (fun q hq => admits_offLog hq.offLog) (fun _ h => h.elim) (fun α p hb => ?_) built_createOnRun
    cases hb with
    | append hj => exact runs_block hmark (e := (requests t).event) (.append hj)
    | run hi => exact runs_block hmark (e := (requests t).event) (.run hi)
    | legacy _ u v =>
      exact .bind log_frame (runs_sql log_frame (admits_offLog (Query.offLog_insertEvent hk ..))) fun _ =>
        TxRules.runs_pure log_frame _

/-- The log is dense, its first event is its only `run_created`, and it grows by prefix. -/
structure DenseLog (K : RunKey) (d d' : Db) : Prop where
  ids : (d'.events K).map (·.id) = (List.range' 1 (d'.events K).length).map .slot
  created : ∀ i e, (d'.events K)[i]? = some e → (e.type = .runCreated ↔ i = 0)
  grows : d.events K <+: d'.events K

theorem DenseFrom.created : ∀ {m : Nat} {log : List EventRow}, DenseFrom m log → ∀ i e, log[i]? = some e →
    (e.type = .runCreated ↔ m + i = 1)
  | _, [], _, i, e, h => by simp at h
  | m, e' :: log, hd, 0, e, h => by
    simp only [List.getElem?_cons_zero, Option.some.injEq] at h
    subst h; exact hd.2.1
  | m, e' :: log, hd, i + 1, e, h => by
    rw [List.getElem?_cons_succ] at h
    rw [hd.2.2.created i e h, show m + 1 + i = m + (i + 1) by omega]

end Runs

/-- Every committed log of the run is dense and later ones continue earlier ones, in every
interleaving in which each append to it finds its slot marker. -/
theorem log_dense {n : Nat} {D : Deps} {requests : Fin n → CreateReq} {d : Db} {now : Nat} {K : RunKey} (hd : LogOk K d)
    (hmodern : d.ModernRun K) (hreq : CreatedModern D requests K) {C C' : Configuration n}
    (h : Reaches (World n) (fun t o s => markerFound K t o s) (initial D requests d now) C)
    (h' : Reaches (World n) (fun t o s => markerFound K t o s) C C') : DenseLog K C.st.db C'.st.db := by
  have hsafe := (log_safe hd hreq fun _ _ _ h => h).reaches TxRules.tolerates (modern_reaches hmodern hreq .refl h)
  obtain ⟨hend, hgrew⟩ := hsafe.1.reaches TxRules.tolerates (modern_reaches hmodern hreq h h')
  have hdense : DenseFrom 1 (C'.st.db.events K) := LogOk.dense hend.inv.data
  refine ⟨hdense.ids, fun i e he => ?_, LogGrew.log hgrew⟩
  rw [hdense.created i e he]; omega

/-- One after the other, the requests of a run's life leave a dense log of three events. -/
theorem log_dense_lifecycle : ∃ C : Configuration 3,
    Reaches (World 3) (fun t o s => markerFound ("t", "r") t o s) (initial defaultDeps lifecycle Db.empty 0) C ∧
    (C.st.db.events ("t", "r")).length = 3 ∧ DenseLog ("t", "r") C.st.db C.st.db := by
  obtain ⟨C, hC, hlength⟩ := Sessions.exists_of_play (fun t o s h => h)
    (P := fun C : Configuration 3 => (C.st.db.events ("t", "r")).length = 3)
    (show (Sessions.play (markerFound ("t", "r")) [go 0, go 1, go 2] (initial defaultDeps lifecycle Db.empty 0)).any _ = true
      by decide +kernel)
  have hok : LogOk ("t", "r") Db.empty := ⟨trivial, fun h => by cases h⟩
  exact ⟨C, hC, by simpa using hlength, log_dense hok (empty_modern _) lifecycle_modern hC .refl⟩

/-- A step is created while its run is. -/
def earlyStep : Fin 2 → CreateReq
  | 0 => { tenant := "t", runId := some "r", event := .stepCreated "s" "step" }
  | 1 => { tenant := "t", runId := none, ulid := "r", event := .runCreated { deploymentId := "d", workflowName := "w" } }

/-- The step's event was given a ULID before the run had its slot marker, and lands in its log
after the first slot. -/
theorem log_not_dense : CreatedModern defaultDeps earlyStep ("t", "r") ∧ ∃ C : Configuration 2,
    Reaches (World 2) Anything (initial defaultDeps earlyStep Db.empty 0) C ∧ C.st.db.slotted ("t", "r") = true ∧
    (C.st.db.events ("t", "r")).map (·.id) = [.slot 1, .ulid 0] ∧ ¬DenseLog ("t", "r") Db.empty C.st.db := by
  have hmodern : ∀ t, 2 ≤ (earlyStep t).effectiveSpecVersion defaultDeps := by decide
  obtain ⟨C, hC, h⟩ := Sessions.exists_of_play (c := Anything) (fun _ _ _ _ => trivial)
    (P := fun C : Configuration 2 => C.st.db.slotted ("t", "r") &&
      (C.st.db.events ("t", "r")).map (·.id) = [.slot 1, .ulid 0])
    (show (Sessions.play (fun _ _ _ => true) [goFor 0 4, go 1, go 0] (initial defaultDeps earlyStep Db.empty 0)).any _ = true
      by decide +kernel)
  rw [Bool.and_eq_true, decide_eq_true_eq] at h
  refine ⟨fun t _ _ => hmodern t, C, hC, h.1, h.2, fun hdense => ?_⟩
  have hids := hdense.ids
  have hlength : (C.st.db.events ("t", "r")).length = 2 := by
    have := congrArg List.length h.2
    simpa using this
  rw [h.2, hlength] at hids
  exact absurd hids (by decide)

end WorkflowWorld
