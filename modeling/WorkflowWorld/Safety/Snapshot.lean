/-
The fence snapshot that goes with a page of the log. The count is read before the page, and the in-band
creates it counts have committed all their events by then, so that the page's log has them. A create that is
accepted with that count finds no other in-band writer since. An event that was given a ULID is in the log
without being counted, and can follow the page.
-/
import WorkflowWorld.Safety.InBand
import WorkflowWorld.Safety.Pages
import WorkflowWorld.Concurrency.Once

namespace WorkflowWorld

open Concurrency Schema Lists

/-! ## The count at which a create is accepted -/

section Accepted

variable {n : Nat} {requests : Fin n → CreateReq} {K : RunKey} {base : Nat} {t : Fin n} {ws : List Write} {d d' : Db}

variable (requests) in
theorem inBandWriters_mono (h : d.events K <+: d'.events K) : inBandWriters requests K d ⊆ inBandWriters requests K d' := by
  intro u hu
  obtain ⟨hs, e, he, hw⟩ := mem_inBandWriters.1 hu
  exact mem_inBandWriters.2 ⟨hs, e, h.subset he, hw⟩

/-- Where the marker stays, nobody was accepted. -/
theorem FenceOk.same_writers (hd : FenceOk requests K base d) (hd' : FenceOk requests K base d')
    (hslots : d'.slots.lookup K = d.slots.lookup K) (hsub : inBandWriters requests K d ⊆ inBandWriters requests K d') :
    inBandWriters requests K d' = inBandWriters requests K d := by
  cases hm : d.slots.lookup K with
  | none =>
    have hempty := inBandWriters_empty requests (hd'.closed (hslots.trans hm)).1
    rw [hempty] at hsub ⊢
    exact (Finset.subset_empty.1 hsub).symm
  | some m =>
    have hcard := hd.count m hm
    have hcard' := hd'.count m (hslots.trans hm)
    exact (Finset.eq_of_subset_of_card_le hsub (by omega)).symm

/-- A commit with which an in-band create is accepted finds the count that it expects. -/
theorem FenceOk.accepted (hd : FenceOk requests K base d) (h : FenceDraft requests K t ws d)
    (hd' : FenceOk requests K base (schema.applyAll ws d)) (hnew : t ∉ inBandWriters requests K d)
    (ht : t ∈ inBandWriters requests K (schema.applyAll ws d)) :
    (requests t).expectedOn K = some (base + (inBandWriters requests K d).card) := by
  have hsub : inBandWriters requests K d ⊆ inBandWriters requests K (schema.applyAll ws d) :=
    inBandWriters_mono requests (by rw [events_applyAll]; exact List.prefix_append ..)
  have hkept : ¬(Db.slots (schema.applyAll ws d)).lookup K = d.slots.lookup K := fun hslots =>
    hnew (by rw [← hd.same_writers hd' hslots hsub]; exact ht)
  rcases h.count with ⟨-, hm⟩ | ⟨x, hx, -, -, hm, hv⟩
  · rcases hm with ⟨ho, hv⟩ | ⟨-, hv⟩
    · -- the run's slots are opened by a create that does not count itself
      obtain ⟨-, hbase⟩ := hd.closed (h.opens ho)
      have hcount := hd'.count 1 hv
      have hpos := Finset.card_pos.2 ⟨t, ht⟩
      omega
    · exact absurd hv hkept
  · rcases hm with ⟨ho, h1⟩ | ⟨-, h1⟩
    · obtain ⟨hnil, hbase⟩ := hd.closed (h.opens ho)
      rw [hx, h1, inBandWriters_empty requests hnil, hbase]
      rfl
    · rw [hx, hd.count x h1.symm]

/-- One statement cannot both append to a log and write its marker. -/
theorem plan_unmarked {q : Query} {pick : Pick} {now : Nat} (hne : appended K (plan q pick now d').writes ≠ []) :
    ∀ w ∈ (plan q pick now d').writes, ¬w.Marks K := by
  obtain ⟨e, he⟩ := List.exists_mem_of_ne_nil _ hne
  obtain ⟨k, v, oc, rfl, heq, -⟩ := plan_event (mem_appended.1 he) rfl
  cases heq
  exact (insertEvent_writes K v oc pick now d').1

end Accepted

/-! ## An in-band create appends once -/

section Session

variable {n : Nat} {t : Fin n} {cond : Fin n → Op → State n → Prop} {requests : Fin n → CreateReq} {K : RunKey} {D : Deps} {s : State n}
  {N : Option (List schema.Mark × Nat)}

/-- Session `t` publishes at most once. -/
abbrev onceRules (t : Fin n) (cond : Fin n → Op → State n → Prop) : Concurrency.Rules (World n) :=
  once t (fun _ => True) (fun _ => False) cond

/-- What a request issues inside its transaction. -/
theorem wp_onRun_inside {r : CreateReq} {α : Type} {p : P α} (hp : Built (Envelope r) (OnRun D t r) p) (hN : N ≠ none)
    (h : Holding (fun _ => True) t N s) :
    (onceRules t cond).wp t p (fun _ => Holding (fun _ => True) t N) (fun _ => Holding (fun _ => True) t N) s := by
  refine Once.wp_of_built (fun _ _ _ _ _ _ _ => trivial) (fun α p hb N s hN h => ?_) hp (.inl hN) h
  obtain ⟨hc⟩ := hb
  have hN' : N ≠ none := hN.resolve_right fun hno => hno (.insertSlots ("", "") 0) trivial
  exact Once.wp_of_built (fun _ _ _ _ _ _ _ => trivial) (fun _ _ h => h.elim) (issued built_createOnRun) (.inl hN') h

theorem wp_session_once {r : CreateReq} {run : RunId} (hf : r.fenced = some run) (h : Holding (fun _ => False) t none s) :
    (onceRules t cond).wp t (session D t r) (fun _ _ => True) (fun _ _ => True) s := by
  have hreply : ∀ (a : Reply) (s' : State n),
      (onceRules t cond).wp t (.op (.reply a) .pure : P Unit) (fun _ _ => True) (fun _ _ => True) s' := by
    intro a s' s₁ _ hi _ _ _ r₁ s₂ hexec
    cases hexec
    exact ⟨⟨fun b hb hwho hthrown => hthrown.elim, trivial, fun _ => .inl rfl⟩, trivial⟩
  have hcreate : (onceRules t cond).wp t (create D t r) (fun _ _ => True) (fun _ _ => True) s := by
    unfold create
    rw [hf]
    cases hx : r.expectedSeqInBand.filter (· ≤ maxSafeInteger) with
    | none => trivial
    | some expected =>
      refine Rules.wp_mono (fun _ _ _ => trivial) (fun _ _ _ => trivial) _ _ (Once.wp_outer (F := fun _ => True) (fun c s' h' => ?_) h)
      refine Rules.wp_mono (fun _ s₁ h₁ => ⟨h₁, .inr ⟨trivial, trivial⟩⟩) (fun _ _ h₁ => h₁) _ _ ?_
      exact wp_onRun_inside (built_createUnderFence hf hx) (by simp) (Once.mono h' fun _ _ => trivial)
  unfold session
  rw [Rules.wp_bind, Rules.wp_tryCatch, Rules.wp_bind]
  exact Rules.wp_mono (fun a s' _ => hreply (.ok a) s') (fun e s' _ => hreply (.error e) s') _ _ hcreate

theorem once_safe {d : Db} {now : Nat} (hin : (requests t).inBandOn K = true) :
    (onceRules t cond).Safe (initial D requests d now) := by
  refine ⟨base_initial .., fun a ha => (by cases ha), fun u => ?_⟩
  by_cases hu : u = t
  · subst hu
    rw [CreateReq.inBandOn, Bool.and_eq_true, decide_eq_true_eq, decide_eq_true_eq] at hin
    exact wp_session_once hin.2 ⟨rfl, rfl, fun w hw => by cases hw⟩
  · exact Once.wp_other hu _ _

end Session

/-! ## Runs in which the fence is kept -/

section Runs

variable {n : Nat} {cond : Fin n → Op → State n → Prop} {requests : Fin n → CreateReq} {K : RunKey} {base : Nat} {t : Fin n}
  {C C' C₁ : Configuration n} {l : Option (Fin n)}

/-- An event that a step appends is written by the session whose step it is. -/
theorem events_step (hC : (fenceRules cond requests K base).rules.Safe C) (hs : Step (World n) cond l C C₁) :
    ∀ e ∈ C₁.st.db.events K, e ∈ C.st.db.events K ∨ ∃ u : Fin n, l = some u ∧ e.writer = u := by
  intro e he
  cases l with
  | none =>
    cases hs with
    | env s' henv =>
      cases henv with
      | tick d => exact .inl he
      | ext d h =>
        obtain ⟨m, rfl⟩ := h
        exact .inl he
  | some u => exact ((hC.step TxRules.tolerates hs).2.2 u rfl).own e he |>.imp_right fun hw => ⟨u, rfl, hw⟩

/-- A session whose event is in the log has published. -/
theorem wrote_of_mem {D : Deps} {d : Db} {now : Nat} (hown : ∀ e ∈ d.events K, n ≤ e.writer)
    (hsafe : (fenceRules cond requests K base).rules.Safe (initial D requests d now))
    (h : Reaches (World n) cond (initial D requests d now) C) : ∀ e ∈ C.st.db.events K, e.writer = t → C.st.wrote t = true := by
  induction h with
  | refl =>
    intro e he hw
    have := hown e he
    omega
  | @tail C C₁ hr hs ih =>
    obtain ⟨l, hs⟩ := hs
    intro e he hw
    rcases events_step (hsafe.reaches TxRules.tolerates hr).1 hs e he with hold | ⟨u, rfl, hu⟩
    · exact wrote_mono hs t (ih e hold hw)
    · obtain rfl : u = t := Fin.ext (hu.symm.trans hw)
      by_contra hno
      have hdb := (recorded_step hs).wrote (Bool.eq_false_iff.2 hno)
      exact hno (wrote_mono hs u (ih e (hdb ▸ he) hw))

/-- Once an in-band create has published, it appends nothing more. -/
theorem settled (hC : (fenceRules cond requests K base).rules.Safe C) (honce : (onceRules t cond).Safe C) (hw : C.st.wrote t = true)
    (h : Reaches (World n) cond C C') : ∀ e ∈ C'.st.db.events K, e.writer = t → e ∈ C.st.db.events K := by
  have hwrote : ∀ {C₁}, Reaches (World n) cond C C₁ → C₁.st.wrote t = true := fun hr => (wrote_answer hr hw).1
  induction h with
  | refl => exact fun e he _ => he
  | @tail C₁ C₂ hr hs ih =>
    obtain ⟨l, hs⟩ := hs
    intro e he hwriter
    rcases events_step (hC.reaches TxRules.tolerates hr).1 hs e he with hold | ⟨u, rfl, hu⟩
    · exact ih e hold hwriter
    · obtain rfl : u = t := Fin.ext (hu.symm.trans hwriter)
      rcases (Once.step_of_safe (honce.reaches Once.tolerates hr).1 hs).1 with hdb | ⟨hno, -⟩
      · exact ih e (hdb ▸ he) hwriter
      · rw [hwrote hr] at hno; cases hno

/-- A step with which an in-band create is accepted finds the count that it expects. -/
theorem accepted_step (hC : (fenceRules cond requests K base).rules.Safe C) (hs : Step (World n) cond (some t) C C₁)
    (hnew : t ∉ inBandWriters requests K C.st.db) (ht : t ∈ inBandWriters requests K C₁.st.db) :
    (requests t).expectedOn K = some (base + (inBandWriters requests K C.st.db).card) := by
  have hok : FenceOk requests K base C.st.db := hC.inv.data
  have hok₁ : FenceOk requests K base C₁.st.db := (hC.step TxRules.tolerates hs).1.inv.data
  rcases published_step hs with hdb | hdb | ⟨q, pick, now, d, hdb⟩
  · rw [hdb] at ht
    exact absurd ht hnew
  · rw [hdb] at ht hok₁
    exact hok.accepted (hC.inv.draft_pend t) hok₁ hnew ht
  · -- a statement outside a transaction advances no count
    rw [hdb] at ht hok₁
    have hne : appended K (plan q pick now d).writes ≠ [] := by
      intro hnil
      obtain ⟨hs, e, he, hw⟩ := mem_inBandWriters.1 ht
      rw [events_applyAll, show appended K (schema.plan q pick now d).writes = [] from hnil, List.append_nil] at he
      exact hnew (mem_inBandWriters.2 ⟨hs, e, he, hw⟩)
    have hslots := slots_applyAll (plan_unmarked hne) C.st.db
    have hsub : inBandWriters requests K C.st.db ⊆ inBandWriters requests K (schema.applyAll (plan q pick now d).writes C.st.db) :=
      inBandWriters_mono requests (by rw [events_applyAll]; exact List.prefix_append ..)
    rw [hok.same_writers hok₁ hslots hsub] at ht
    exact absurd ht hnew

end Runs

/-! ## The snapshot and its page -/

/-- The snapshot of a dense log. -/
theorem readEventLogSnapshot_dense {K : RunKey} {d : Db} (h : DenseFrom 1 (d.events K)) :
    readEventLogSnapshot K d = (d.slots.lookup K).map fun seqInBand => ⟨(d.events K).length, seqInBand⟩ := by
  unfold readEventLogSnapshot
  have hslots : ((orderByEventId .desc (d.events K)).filterMap fun e => eventIdToSlot e.id) = (List.range' 1 (d.events K).length).reverse := by
    have hids : (d.events K).filterMap (fun e => eventIdToSlot e.id) = ((d.events K).map (·.id)).filterMap eventIdToSlot := by
      rw [List.filterMap_map]; rfl
    rw [orderByEventId_desc h.increasing, List.filterMap_reverse, hids, h.ids, List.filterMap_map]
    exact congrArg List.reverse (List.filterMap_some ..)
  have hseq : (List.range' 1 (d.events K).length).reverse.head?.getD 0 = (d.events K).length := by
    rw [List.head?_reverse, List.getLast?_range']
    cases hlen : (d.events K).length with
    | zero => rfl
    | succ k => simp
  rw [hslots]
  simp only [hseq]

theorem mem_pageAt {K : RunKey} {p : ListEventsParams} {d : Db} {e : EventRow} (h : e ∈ (pageAt K p d).data) : e ∈ d.events K := by
  have hselect : ∀ after before order limit, e ∈ selectEvents K after before order (some limit) d → e ∈ d.events K := by
    intro after before order limit he
    have hrow := List.mem_of_mem_take he
    cases order <;> exact List.mem_of_mem_filter ((List.mem_insertionSort _).1 hrow)
  unfold pageAt at h
  cases hs : p.sortOrder.getD .asc <;> rw [hs] at h <;> exact hselect _ _ _ _ (List.mem_of_mem_take h)

/-- What a snapshot, read at `C₀`, tells of the log at `C₁`, from which its page is read. -/
structure SnapshotBehind {n : Nat} (cond : Fin n → Op → State n → Prop) (requests : Fin n → CreateReq) (K : RunKey) (base : Nat)
    (snapshot : EventLogSnapshot) (C₀ C₁ : Configuration n) : Prop where
  counted : snapshot.seqInBand = base + (inBandWriters requests K C₀.st.db).card
  /-- Whatever a counted create ever appends is in the page's log. -/
  seen : ∀ t ∈ inBandWriters requests K C₀.st.db, ∀ C₂, Reaches (World n) cond C₀ C₂ →
    ∀ e ∈ C₂.st.db.events K, e.writer = t → e ∈ C₁.st.db.events K
  seq : ∃ highest, lastSlot (C₁.st.db.events K) = some highest ∧ snapshot.seq ≤ highest

/-- A create that is accepted with the count of a snapshot: whatever was appended in-band before is in `data`. -/
def SeenByNext {n : Nat} (cond : Fin n → Op → State n → Prop) (requests : Fin n → CreateReq) (K : RunKey)
    (snapshot : EventLogSnapshot) (C : Configuration n) (data : List EventRow) : Prop :=
  ∀ t C₂ C₃, Reaches (World n) cond C C₂ → Step (World n) cond (some t) C₂ C₃ →
    (requests t).expectedOn K = some snapshot.seqInBand → t ∉ inBandWriters requests K C₂.st.db →
    t ∈ inBandWriters requests K C₃.st.db →
    ∀ u ∈ inBandWriters requests K C₂.st.db, ∀ e ∈ C₂.st.db.events K, e.writer = u → e ∈ data

/-- The snapshots that come with the pages read from a configuration on. -/
structure SnapshotsBehind {n : Nat} (cond : Fin n → Op → State n → Prop) (requests : Fin n → CreateReq) (K : RunKey) (base : Nat)
    (C : Configuration n) : Prop where
  page : ∀ p r C', Reader cond (listEvents K p) C r C' →
    ∃ C₀ C₁, Reaches (World n) cond C C₀ ∧ Reaches (World n) cond C₀ C₁ ∧ Reaches (World n) cond C₁ C' ∧
      r.1 = pageAt K p C₁.st.db ∧ (r.1.hasSlot = true → r.2.isSome = true) ∧
      ∀ snapshot, r.2 = some snapshot → SnapshotBehind cond requests K base snapshot C₀ C₁
  /-- An orchestrator that has read the log in order writes with any of the counts it was given. -/
  ascending : ∀ rs C', Paged cond K .asc none C rs C' → ∀ r ∈ rs, ∀ snapshot, r.2 = some snapshot →
    SeenByNext cond requests K snapshot C' (rs.flatMap (·.1.data))
  /-- One that has read it from its end writes with the first. -/
  descending : ∀ rs C', Paged cond K .desc none C rs C' → ∀ snapshot, rs.head?.map (·.2) = some (some snapshot) →
    SeenByNext cond requests K snapshot C' (rs.flatMap (·.1.data))

section Behind

variable {n : Nat} {cond : Fin n → Op → State n → Prop} {requests : Fin n → CreateReq} {K : RunKey} {base : Nat}
  {C C' C₀ C₁ : Configuration n}

/-- What is known of the log and of the fence at a configuration. -/
structure Known (cond : Fin n → Op → State n → Prop) (requests : Fin n → CreateReq) (K : RunKey) (base : Nat)
    (C : Configuration n) : Prop where
  dense : DenseFrom 1 (C.st.db.events K)
  fenceOk : FenceOk requests K base C.st.db
  grows : ∀ {C'}, Reaches (World n) cond C C' → C.st.db.events K <+: C'.st.db.events K
  /-- Whatever a create that has appended in-band ever appends is in the log by then. -/
  settled : ∀ {t : Fin n}, t ∈ inBandWriters requests K C.st.db → ∀ {C'}, Reaches (World n) cond C C' →
    ∀ {e : EventRow}, e ∈ C'.st.db.events K → e.writer = t → e ∈ C.st.db.events K
  accepted : ∀ {t : Fin n} {C₁}, Step (World n) cond (some t) C C₁ → t ∉ inBandWriters requests K C.st.db →
    t ∈ inBandWriters requests K C₁.st.db →
    (requests t).expectedOn K = some (base + (inBandWriters requests K C.st.db).card)

theorem Known.snapshotBehind (h : Known cond requests K base C₀) (h₁ : Known cond requests K base C₁)
    (hr : Reaches (World n) cond C₀ C₁) {snapshot : EventLogSnapshot} (hs : readEventLogSnapshot K C₀.st.db = some snapshot) :
    SnapshotBehind cond requests K base snapshot C₀ C₁ := by
  rw [readEventLogSnapshot_dense h.dense] at hs
  obtain ⟨m, hm, rfl⟩ := Option.map_eq_some_iff.1 hs
  exact ⟨h.fenceOk.count m hm, fun t ht C₂ hr₂ e he hw => (h.grows hr).subset (h.settled ht hr₂ he hw),
    _, h₁.dense.lastSlot, (h.grows hr).length_le⟩

/-- Between the snapshot and the create that is accepted with its count, nobody else was. -/
theorem Known.seenByNext (h : Known cond requests K base C₀) (hall : ∀ C₂, Reaches (World n) cond C₀ C₂ → Known cond requests K base C₂)
    (hr : Reaches (World n) cond C₀ C') {snapshot : EventLogSnapshot} (hs : readEventLogSnapshot K C₀.st.db = some snapshot)
    {data : List EventRow} (hdata : ∀ e ∈ C₀.st.db.events K, e ∈ data) : SeenByNext cond requests K snapshot C' data := by
  intro t C₂ C₃ hr₂ hstep hx hnew ht u hu e he hw
  rw [readEventLogSnapshot_dense h.dense] at hs
  obtain ⟨m, hm, rfl⟩ := Option.map_eq_some_iff.1 hs
  have hcount := h.fenceOk.count m hm
  have haccepted := (hall C₂ (hr.trans hr₂)).accepted hstep hnew ht
  rw [hx, Option.some.injEq] at haccepted
  have hsub := inBandWriters_mono requests (h.grows (hr.trans hr₂))
  have hsame := Finset.eq_of_subset_of_card_le hsub (by simp only at haccepted; omega)
  rw [← hsame] at hu
  exact hdata e (h.settled hu (hr.trans hr₂) he hw)

theorem Known.snapshotsBehind (hall : ∀ C₂, Reaches (World n) cond C C₂ → Known cond requests K base C₂) :
    SnapshotsBehind cond requests K base C := by
  have hlog := fun C₁ C₂ (h₁ : Reaches (World n) cond C C₁) (h₂ : Reaches (World n) cond C₁ C₂) =>
    And.intro (hall C₂ (h₁.trans h₂)).dense ((hall C₁ h₁).grows h₂)
  refine ⟨fun p r C' hp => ?_, fun rs C' hp r hr snapshot hs => ?_, fun rs C' hp snapshot hs => ?_⟩
  · obtain ⟨C₀, C₁, h₀, h₁, h₂, hpage, hsnapshot, hmiss⟩ := served_listEvents (fun _ _ _ => .trans) (fun _ => .refl) hp
    refine ⟨C₀, C₁, h₀, h₁, h₂, hpage, fun hslot => ?_, fun snapshot hs => ?_⟩
    · -- no marker after a page that has an event
      by_contra hnone
      obtain ⟨C₂, h₃, hnone⟩ := hmiss (Option.not_isSome_iff_eq_none.1 hnone) hslot
      have hlook : C₂.st.db.slots.lookup K = none := Option.map_eq_none_iff.1 hnone
      obtain ⟨e, he, -⟩ := List.any_eq_true.1 hslot
      rw [hpage] at he
      have hlater := ((hall C₁ (h₀.trans h₁)).grows h₃).subset (mem_pageAt he)
      rw [((hall C₂ ((h₀.trans h₁).trans h₃)).fenceOk.closed hlook).1] at hlater
      cases hlater
    · exact (hall C₀ h₀).snapshotBehind (hall C₁ (h₀.trans h₁)) h₁ (hsnapshot ▸ hs)
  · obtain ⟨C₁, p, h₁, h₁', -, hdata, hbefore⟩ := hp.ascending hlog
    obtain ⟨C₀, h₀, h₀', hsnapshot⟩ := hbefore r hr
    refine (hall C₀ h₀).seenByNext (fun C₂ h₂ => hall C₂ (h₀.trans h₂)) (h₀'.trans h₁') (hsnapshot ▸ hs) fun e he => ?_
    rw [hdata]
    exact List.mem_filter.2 ⟨((hall C₀ h₀).grows h₀').subset he, rfl⟩
  · obtain ⟨C₁, p, h₁, h₁', -, hdata, C₀, h₀, h₀', hsnapshot⟩ := hp.descending hlog
    rw [hsnapshot, Option.some.injEq] at hs
    refine (hall C₀ h₀).seenByNext (fun C₂ h₂ => hall C₂ (h₀.trans h₂)) (h₀'.trans h₁') hs fun e he => ?_
    rw [hdata]
    exact List.mem_filter.2 ⟨List.mem_reverse.2 (((hall C₀ h₀).grows h₀').subset he), rfl⟩

theorem inBandOn_of_mem {t : Fin n} {d : Db} (h : t ∈ inBandWriters requests K d) : (requests t).inBandOn K = true := by
  by_contra hnot
  have hs := (mem_inBandWriters.1 h).1
  rw [CreateReq.expectedOn, if_neg hnot] at hs
  cases hs

theorem known_of_fenceKept {D : Deps} {d : Db} {now : Nat} (hd : d.slots.lookup K = none → d.events K = []) (hlog : LogOk K d)
    (hown : ∀ e ∈ d.events K, n ≤ e.writer) (hmodern : d.ModernRun K) (hreq : CreatedModern D requests K)
    (h : Reaches (World n) (fun t o s => fenceKept requests K t o s) (initial D requests d now) C) :
    Known (fun t o s => fenceKept requests K t o s) requests K ((d.slots.lookup K).getD 1) C := by
  have hmark : ∀ (t : Fin n) (o : Op) (s : State n), (fenceKept requests K t o s = true ∧ ∀ u, (s.view u).ModernRun K) →
      markerFound K t o s = true ∧ advanceKept requests K t o s = true ∧ ∀ u, (s.view u).ModernRun K := by
    intro t o s hc
    rw [fenceKept, Bool.and_eq_true] at hc
    exact ⟨hc.1.1, hc.1.2, hc.2⟩
  have hreach := modern_reaches hmodern hreq .refl h
  have hfence₀ : (fenceRules _ requests K _).rules.Safe (initial D requests d now) :=
    fence_safe (fenceOk_initial hd hown) hown hreq hmark
  have hlog₀ : (logRules _ K).rules.Safe (initial D requests d now) :=
    log_safe hlog hreq fun t o s hc => ⟨(hmark t o s hc).1, hc.2⟩
  have hfence := (hfence₀.reaches TxRules.tolerates hreach).1
  have hsafe := (hlog₀.reaches TxRules.tolerates hreach).1
  refine ⟨LogOk.dense hsafe.inv.data, hfence.inv.data, fun hr => ?_, fun {t} ht C' hr e he hw => ?_, fun {t C₁} hs hnew ht => ?_⟩
  · exact LogGrew.log (hsafe.reaches TxRules.tolerates (modern_reaches hmodern hreq h hr)).2
  · obtain ⟨-, e', he', hw'⟩ := mem_inBandWriters.1 ht
    have honce := ((once_safe (inBandOn_of_mem ht)).reaches Once.tolerates hreach).1
    exact settled hfence honce (wrote_of_mem hown hfence₀ hreach e' he' hw') (modern_reaches hmodern hreq h hr) e he hw
  · exact accepted_step hfence (hs.strengthen (modern_views hmodern hreq h)) hnew ht

end Behind

/-- The fence snapshot never runs ahead of its page, in every interleaving in which the fence is kept. -/
theorem snapshot_behind_page {n : Nat} {D : Deps} {requests : Fin n → CreateReq} {d : Db} {now : Nat} {K : RunKey}
    (hd : d.slots.lookup K = none → d.events K = []) (hlog : LogOk K d) (hown : ∀ e ∈ d.events K, n ≤ e.writer)
    (hmodern : d.ModernRun K) (hreq : CreatedModern D requests K) {C : Configuration n}
    (h : Reaches (World n) (fun t o s => fenceKept requests K t o s) (initial D requests d now) C) :
    SnapshotsBehind (fun t o s => fenceKept requests K t o s) requests K ((d.slots.lookup K).getD 1) C :=
  Known.snapshotsBehind fun _ h₂ => known_of_fenceKept hd hlog hown hmodern hreq (h.trans h₂)

/-- A listing's page by its gist, with its snapshot. -/
def gistNow {n : Nat} (K : RunKey) (C : Configuration n) : Option ((List EventId × Option EventId × Bool) × Option EventLogSnapshot) :=
  (listingNow K {} C).map fun r => (r.1.gist, r.2)

theorem paged_gistNow {n : Nat} {cond : Fin n → Op → State n → Prop} {K : RunKey} {C : Configuration n} {ids : List EventId}
    {cursor : Option EventId} {snapshot : EventLogSnapshot} (h : gistNow K C = some ((ids, cursor, false), some snapshot)) :
    ∃ page : EventPage, page.gist = (ids, cursor, false) ∧ Paged cond K .asc none C [(page, some snapshot)] C := by
  obtain ⟨⟨page, read⟩, hr, hgist⟩ := Option.map_eq_some_iff.1 h
  rw [Prod.mk.injEq] at hgist
  obtain ⟨hgist, rfl⟩ := hgist
  exact ⟨page, hgist, .last (p := {}) (by decide) rfl (reader_listingNow hr) (congrArg (·.2.2) hgist)⟩

/-- Session `t` is accepted with its next operation. -/
def acceptsNext {n : Nat} (cond : Fin n → Op → State n → Bool) (requests : Fin n → CreateReq) (K : RunKey) (t : Fin n)
    (C : Configuration n) : Option (Configuration n) :=
  (Sessions.advance cond t (⟨false, {}⟩ : schema.Choice) 1 C).filter fun C' =>
    t ∉ inBandWriters requests K C.st.db && t ∈ inBandWriters requests K C'.st.db

theorem step_acceptsNext {n : Nat} {cond : Fin n → Op → State n → Bool} {c : Fin n → Op → State n → Prop}
    (hc : ∀ t o s, cond t o s = true → c t o s) {requests : Fin n → CreateReq} {K : RunKey} {t : Fin n} {C C' : Configuration n}
    (h : acceptsNext cond requests K t C = some C') : Step (World n) c (some t) C C' ∧ t ∉ inBandWriters requests K C.st.db ∧
      t ∈ inBandWriters requests K C'.st.db := by
  obtain ⟨hadvance, hwriters⟩ := Option.filter_eq_some_iff.1 h
  rw [Bool.and_eq_true, decide_eq_true_eq, decide_eq_true_eq] at hwriters
  refine ⟨Sessions.step_of_advance hc hadvance fun hsame => hwriters.1 ?_, hwriters⟩
  rw [← hsame]
  exact hwriters.2

/-- After an in-band start, the page has it, and the next in-band write is accepted with the snapshot's count. -/
theorem snapshot_behind_page_writes : ∃ (C C₂ C₃ : Configuration 4) (page : EventPage),
    Reaches (World 4) (fun t o s => fenceKept inBandWrites ("t", "r") t o s) (initial defaultDeps inBandWrites Db.empty 0) C ∧
    page.gist = ([.slot 1, .slot 2], some (.slot 2), false) ∧
    Paged (fun t o s => fenceKept inBandWrites ("t", "r") t o s) ("t", "r") .asc none C [(page, some ⟨2, 2⟩)] C ∧
    Reaches (World 4) (fun t o s => fenceKept inBandWrites ("t", "r") t o s) C C₂ ∧
    Step (World 4) (fun t o s => fenceKept inBandWrites ("t", "r") t o s) (some 3) C₂ C₃ ∧
    3 ∈ inBandWriters inBandWrites ("t", "r") C₃.st.db ∧
    SnapshotsBehind (fun t o s => fenceKept inBandWrites ("t", "r") t o s) inBandWrites ("t", "r") 1 C := by
  have hmodern : ∀ t, 2 ≤ (inBandWrites t).effectiveSpecVersion defaultDeps := by decide
  obtain ⟨C, hC, h⟩ := Sessions.exists_of_play (fun t o s h => h)
    (P := fun C : Configuration 4 => gistNow ("t", "r") C = some (([.slot 1, .slot 2], some (.slot 2), false), some ⟨2, 2⟩) &&
      (Sessions.play (fenceKept inBandWrites ("t", "r")) [goFor 3 12] C).any fun C₂ =>
        (acceptsNext (fenceKept inBandWrites ("t", "r")) inBandWrites ("t", "r") 3 C₂).isSome)
    (show (Sessions.play (fenceKept inBandWrites ("t", "r")) [go 0, go 1]
      (initial defaultDeps inBandWrites Db.empty 0)).any _ = true by decide +kernel)
  rw [Bool.and_eq_true, decide_eq_true_eq] at h
  obtain ⟨page, hgist, hpaged⟩ := paged_gistNow h.1
  obtain ⟨C₂, hC₂, haccepts⟩ := Sessions.exists_of_play (fun t o s h => h) h.2
  obtain ⟨C₃, haccepts⟩ := Option.isSome_iff_exists.1 haccepts
  obtain ⟨hstep, -, hin⟩ := step_acceptsNext (fun t o s h => h) haccepts
  exact ⟨C, C₂, C₃, page, hC, hgist, hpaged, hC₂, hstep, hin, snapshot_behind_page (d := Db.empty) (fun _ => rfl)
    ⟨trivial, fun h => by cases h⟩ (fun e he => by cases he) (empty_modern _) (fun t _ _ => hmodern t) hC⟩

/-! ## A snapshot that does not count -/

/-- An in-band step creation, while its run is created, and one that follows. -/
def lateInBand : Fin 3 → CreateReq
  | 0 => { tenant := "t", runId := some "r", event := .stepCreated "s0" "step", inBand := true, expectedSeqInBand := some 1 }
  | 1 => { tenant := "t", runId := none, ulid := "r", event := .runCreated { deploymentId := "d", workflowName := "w" } }
  | 2 => { tenant := "t", runId := some "r", event := .stepCreated "s1" "step", inBand := true, expectedSeqInBand := some 1 }

/-- The first in-band write was given a ULID before the run had its slots row, and appends its event after the page.
The second is accepted with the count that came with the page. -/
theorem snapshot_ahead_of_page : CreatedModern defaultDeps lateInBand ("t", "r") ∧ ∃ (C C₂ C₃ : Configuration 3) (page : EventPage),
    Reaches (World 3) Anything (initial defaultDeps lateInBand Db.empty 0) C ∧
    page.gist = ([.slot 1], some (.slot 1), false) ∧ Paged Anything ("t", "r") .asc none C [(page, some ⟨1, 1⟩)] C ∧
    Reaches (World 3) Anything C C₂ ∧ Step (World 3) Anything (some 2) C₂ C₃ ∧
    2 ∈ inBandWriters lateInBand ("t", "r") C₃.st.db ∧ (C₂.st.db.events ("t", "r")).map (·.id) = [.slot 1, .ulid 0] ∧
    ¬SnapshotsBehind Anything lateInBand ("t", "r") 1 C := by
  have hmodern : ∀ t, 2 ≤ (lateInBand t).effectiveSpecVersion defaultDeps := by decide
  obtain ⟨C, hC, h⟩ := Sessions.exists_of_play (c := Anything) (fun _ _ _ _ => trivial)
    (P := fun C : Configuration 3 => gistNow ("t", "r") C = some (([.slot 1], some (.slot 1), false), some ⟨1, 1⟩) &&
      (Sessions.play (fun _ _ _ => true) [goFor 2 9, go 0, goFor 2 3] C).any fun C₂ =>
        (C₂.st.db.events ("t", "r")).map (fun e => (e.id, e.writer)) = [(.slot 1, 1), (.ulid 0, 0)] &&
        (acceptsNext (fun _ _ _ => true) lateInBand ("t", "r") 2 C₂).isSome)
    (show (Sessions.play (fun _ _ _ => true) [goFor 0 7, go 1] (initial defaultDeps lateInBand Db.empty 0)).any _ = true
      by decide +kernel)
  rw [Bool.and_eq_true, decide_eq_true_eq] at h
  obtain ⟨page, hgist, hpaged⟩ := paged_gistNow h.1
  obtain ⟨C₂, hC₂, h₂⟩ := Sessions.exists_of_play (c := Anything) (fun _ _ _ _ => trivial) h.2
  rw [Bool.and_eq_true, decide_eq_true_eq] at h₂
  obtain ⟨C₃, haccepts⟩ := Option.isSome_iff_exists.1 h₂.2
  obtain ⟨hstep, hnew, hin⟩ := step_acceptsNext (c := Anything) (fun _ _ _ _ => trivial) haccepts
  have hids : (C₂.st.db.events ("t", "r")).map (·.id) = [.slot 1, .ulid 0] := by
    have hmap := congrArg (List.map (·.1)) h₂.1
    rw [List.map_map] at hmap
    exact hmap
  refine ⟨fun t _ _ => hmodern t, C, C₂, C₃, page, hC, hgist, hpaged, hC₂, hstep, hin, hids, fun hbehind => ?_⟩
  -- the event of the first write is before the second's acceptance, and not on the page
  have hlate : (EventId.ulid 0, 0) ∈ (C₂.st.db.events ("t", "r")).map fun e => (e.id, e.writer) := by
    rw [h₂.1]
    exact List.mem_cons_of_mem _ List.mem_cons_self
  obtain ⟨e, he, hid⟩ := List.mem_map.1 hlate
  rw [Prod.mk.injEq] at hid
  have hwriter : (0 : Fin 3) ∈ inBandWriters lateInBand ("t", "r") C₂.st.db := mem_inBandWriters.2 ⟨rfl, e, he, hid.2⟩
  have hseen := hbehind.ascending _ _ hpaged _ List.mem_cons_self _ rfl 2 C₂ C₃ hC₂ hstep rfl hnew hin 0 hwriter e he hid.2
  rw [List.flatMap_singleton] at hseen
  have hpage : e.id ∈ page.data.map (·.id) := List.mem_map_of_mem hseen
  rw [show page.data.map (·.id) = [.slot 1] from congrArg (·.1) hgist, hid.1] at hpage
  cases List.mem_singleton.1 hpage

end WorkflowWorld
