/-
Paging through a run's log. A slot-numbered log is in the order of its ids, and grows at its end, so that a
reader that follows the cursors misses nothing and is given nothing twice, whatever is appended between its
pages. A log that holds ULIDs grows in the middle too.
-/
import WorkflowWorld.Safety.Log
import WorkflowWorld.Storage.EventPages
import WorkflowWorld.Concurrency.Reads

namespace WorkflowWorld

open Concurrency Schema Lists

/-! ## Selects on a dense log -/

section Select

variable {m : Nat} {log rows : List EventRow} {k : RunKey} {d : Db}

theorem DenseFrom.lt_id : ∀ {m : Nat} {log : List EventRow}, DenseFrom (m + 1) log → ∀ e ∈ log, EventId.slot m < e.id
  | _, [], _, _, he => by cases he
  | m, e' :: log, h, e, he => by
    rcases List.mem_cons.1 he with rfl | he
    · rw [h.1, EventId.slot_lt_slot]; omega
    · exact lt_trans (EventId.slot_lt_slot.2 (Nat.lt_succ_self m)) (DenseFrom.lt_id h.2.2 e he)

/-- A dense log is in the order of its ids. -/
theorem DenseFrom.increasing : ∀ {m : Nat} {log : List EventRow}, DenseFrom m log → log.Pairwise fun a b => a.id < b.id
  | _, [], _ => .nil
  | m, e :: log, h => List.pairwise_cons.2 ⟨fun e' he' => by rw [h.1]; exact DenseFrom.lt_id h.2.2 e' he', h.2.2.increasing⟩

theorem orderByEventId_asc (h : rows.Pairwise fun a b => a.id < b.id) : orderByEventId .asc rows = rows :=
  (h.imp le_of_lt).insertionSort_eq

theorem orderByEventId_desc (h : rows.Pairwise fun a b => a.id < b.id) : orderByEventId .desc rows = rows.reverse := by
  have hrev : rows.reverse.Pairwise fun a b => a.id > b.id := List.pairwise_reverse.2 h
  have hnodup : (rows.map (·.id)).Nodup := List.pairwise_map.2 (h.imp fun hlt => ne_of_lt hlt)
  refine List.Perm.eq_of_pairwise (fun a b ha hb hab hba => ?_) (List.pairwise_insertionSort _ rows) (hrev.imp le_of_lt)
    ((List.perm_insertionSort _ rows).trans (List.reverse_perm rows).symm)
  exact List.inj_on_of_nodup_map hnodup ((List.mem_insertionSort _).1 ha) (List.mem_reverse.1 hb) (le_antisymm hba hab)

theorem selectEvents_asc (h : (d.events k).Pairwise fun a b => a.id < b.id) (after before : Option EventId) (limit : Option Nat) :
    selectEvents k after before .asc limit d =
      match limit with
      | none => (d.events k).filter fun e => beyond (·.id) after e && preceding (·.id) before e
      | some limit => ((d.events k).filter fun e => beyond (·.id) after e && preceding (·.id) before e).take limit := by
  unfold selectEvents
  cases limit with
  | none => exact orderByEventId_asc (h.filter _)
  | some limit => exact congrArg (List.take limit) (orderByEventId_asc (h.filter _))

theorem selectEvents_desc (h : (d.events k).Pairwise fun a b => a.id < b.id) (before : Option EventId) (limit : Nat) :
    selectEvents k none before .desc (some limit) d = ((d.events k).reverse.filter (preceding (·.id) before)).take limit := by
  have hall : (fun e : EventRow => beyond (·.id) none e && preceding (·.id) before e) = preceding (·.id) before := by
    funext e; simp [beyond]
  unfold selectEvents
  rw [hall, orderByEventId_desc (h.filter _), List.filter_reverse]

end Select

/-! ## Calls -/

/-- The page that `list` reads at one moment. -/
def pageAt (k : RunKey) (p : ListEventsParams) (d : Db) : EventPage :=
  .of (p.limit.getD 100) (match p.sortOrder.getD .asc with
    | .desc => selectEvents k none p.cursor .desc (some (p.limit.getD 100 + 1)) d
    | .asc => selectEvents k p.cursor none .asc (some (p.limit.getD 100 + 1)) d)

section Calls

variable {σ α : Type} {reach : σ → σ → Prop} {look : σ → Db} {k : RunKey} {p : ListEventsParams} {s s' : σ}

/-- The reads of a program answered from what `look` shows. -/
abbrev ServedFrom (reach : σ → σ → Prop) (look : σ → Db) (p : LogReads α) : σ → α → σ → Prop :=
  Served reach (fun o s => LogRead.answer (look s) o) p

theorem served_unfencedList {f : EventPage → LogReads α} {a : α} (h : ServedFrom reach look (unfencedList k p >>= f) s a s') :
    ∃ s₁, reach s s₁ ∧ ServedFrom reach look (f (pageAt k p (look s₁))) s₁ a s' := by
  unfold unfencedList at h
  unfold pageAt
  cases hs : p.sortOrder.getD .asc with
  | asc => rw [hs] at h; exact Served.of_perform h
  | desc => rw [hs] at h; exact Served.of_perform h

/-- The page has an event with a slot. -/
def EventPage.hasSlot (page : EventPage) : Bool := page.data.any fun e => (eventIdToSlot e.id).isSome

/-- What `events.list` answers: a snapshot and a page read after it; or a page without a snapshot, where there was none
before the page, and the page has no slot or there is no snapshot after it either. -/
theorem served_listEvents (htrans : ∀ a b c, reach a b → reach b c → reach a c) (hrefl : ∀ a, reach a a)
    {r : EventPage × Option EventLogSnapshot} (h : ServedFrom reach look (listEvents k p) s r s') :
    ∃ s₀ s₁, reach s s₀ ∧ reach s₀ s₁ ∧ reach s₁ s' ∧ r.1 = pageAt k p (look s₁) ∧ r.2 = readEventLogSnapshot k (look s₀) ∧
      (r.2 = none → r.1.hasSlot = true → ∃ s₂, reach s₁ s₂ ∧ readEventLogSnapshot k (look s₂) = none) := by
  obtain ⟨s₀, h₀, h⟩ := Served.of_perform h
  obtain ⟨s₁, h₁, h⟩ := served_unfencedList h
  by_cases hmiss : ((readEventLogSnapshot k (look s₀)).isNone &&
      (pageAt k p (look s₁)).data.any fun e => (eventIdToSlot e.id).isSome) = true
  · rw [show LogRead.answer (look s₀) (.snapshot k) = readEventLogSnapshot k (look s₀) from rfl, if_pos hmiss] at h
    rw [Bool.and_eq_true, Option.isNone_iff_eq_none] at hmiss
    obtain ⟨s₂, h₂, h⟩ := Served.of_perform h
    cases hsnap : readEventLogSnapshot k (look s₂) with
    | some snapshot =>
      rw [show LogRead.answer (look s₂) (.snapshot k) = some snapshot from hsnap, if_pos Option.isSome_some] at h
      obtain ⟨s₃, h₃, h⟩ := served_unfencedList h
      obtain ⟨rfl, rfl⟩ := h.of_pure
      exact ⟨s₂, s', htrans _ _ _ h₀ (htrans _ _ _ h₁ h₂), h₃, hrefl _, rfl, hsnap.symm, fun h => by cases h⟩
    | none =>
      rw [show LogRead.answer (look s₂) (.snapshot k) = none from hsnap, if_neg (by simp)] at h
      obtain ⟨rfl, rfl⟩ := h.of_pure
      exact ⟨s₀, s₁, h₀, h₁, h₂, rfl, hmiss.1.symm, fun _ _ => ⟨s', h₂, hsnap⟩⟩
  · rw [show LogRead.answer (look s₀) (.snapshot k) = readEventLogSnapshot k (look s₀) from rfl, if_neg hmiss] at h
    obtain ⟨rfl, rfl⟩ := h.of_pure
    refine ⟨s₀, s', h₀, h₁, hrefl _, rfl, rfl, fun hnone hslot => absurd ?_ hmiss⟩
    simp only at hnone
    rw [hnone]
    exact hslot

end Calls

section Page

variable {k : RunKey} {p : ListEventsParams} {d : Db}

/-- The rows asked for are enough to tell what is left. -/
theorem EventPage.of_take (limit : Nat) (rows : List EventRow) :
    EventPage.of limit (rows.take (limit + 1)) =
      { data := rows.take limit, cursor := (rows.take limit).getLast?.map (·.id), hasMore := limit < rows.length } := by
  have hdata : (rows.take (limit + 1)).take limit = rows.take limit := by rw [List.take_take, Nat.min_eq_left (Nat.le_succ _)]
  have hmore : (rows.take (limit + 1)).length > limit ↔ limit < rows.length := by rw [List.length_take]; omega
  simp only [EventPage.of, hdata, hmore]

theorem pageAt_asc (h : (d.events k).Pairwise fun a b => a.id < b.id) (hp : p.sortOrder.getD .asc = .asc) :
    pageAt k p d = .of (p.limit.getD 100) (((d.events k).filter (beyond (·.id) p.cursor)).take (p.limit.getD 100 + 1)) := by
  have hall : (fun e : EventRow => beyond (·.id) p.cursor e && preceding (·.id) none e) = beyond (·.id) p.cursor := by
    funext e; simp [preceding]
  unfold pageAt
  rw [hp]
  simp only [selectEvents_asc h, hall]

theorem pageAt_desc (h : (d.events k).Pairwise fun a b => a.id < b.id) (hp : p.sortOrder.getD .asc = .desc) :
    pageAt k p d = .of (p.limit.getD 100) (((d.events k).reverse.filter (preceding (·.id) p.cursor)).take (p.limit.getD 100 + 1)) := by
  unfold pageAt
  rw [hp]
  simp only [selectEvents_desc h]

/-- The last event of a page that leaves some. -/
theorem exists_getLast_take {rows : List EventRow} {limit : Nat} (hl : 1 ≤ limit) (hmore : limit < rows.length) :
    ∃ x, (rows.take limit).getLast? = some x := by
  refine ⟨_, List.getLast?_eq_some_getLast fun hnil => ?_⟩
  have hlen := congrArg List.length hnil
  rw [List.length_take, List.length_nil] at hlen
  omega

end Page

/-! ## Following the cursors -/

/-- A page with the snapshot that came with it. -/
abbrev Listing := EventPage × Option EventLogSnapshot

section Following

variable {n : Nat} {cond : Fin n → Op → State n → Prop} {K : RunKey} {C C' : Configuration n} {cursor : Option EventId}
  {rs : List Listing}

/-- A reader of the committed data, at any moments of the run. -/
abbrev Reader (cond : Fin n → Op → State n → Prop) {α : Type} (p : LogReads α) : Configuration n → α → Configuration n → Prop :=
  ServedFrom (Reaches (World n) cond) (fun C => C.st.db) p

/-- What a reader is given that follows the cursors until there is no more. -/
inductive Paged (cond : Fin n → Op → State n → Prop) (K : RunKey) (order : SortOrder) :
    Option EventId → Configuration n → List Listing → Configuration n → Prop
  | more {p : ListEventsParams} {r : Listing} {rs : List Listing} {C C₁ C' : Configuration n} (hl : 1 ≤ p.limit.getD 100)
      (ho : p.sortOrder.getD .asc = order) (hp : Reader cond (listEvents K p) C r C₁) (hmore : r.1.hasMore = true)
      (hf : Paged cond K order r.1.cursor C₁ rs C') : Paged cond K order p.cursor C (r :: rs) C'
  | last {p : ListEventsParams} {r : Listing} {C C' : Configuration n} (hl : 1 ≤ p.limit.getD 100)
      (ho : p.sortOrder.getD .asc = order) (hp : Reader cond (listEvents K p) C r C') (hmore : r.1.hasMore = false) :
      Paged cond K order p.cursor C [r] C'

/-- A listing's page, and the snapshot that was read before it. -/
theorem reader_page {p : ListEventsParams} {r : Listing} (h : Reader cond (listEvents K p) C r C') :
    ∃ C₀ C₁, Reaches (World n) cond C C₀ ∧ Reaches (World n) cond C₀ C₁ ∧ Reaches (World n) cond C₁ C' ∧
      r.1 = pageAt K p C₁.st.db ∧ r.2 = readEventLogSnapshot K C₀.st.db := by
  obtain ⟨C₀, C₁, h₀, h₁, h₂, hpage, hsnapshot, -⟩ := served_listEvents (fun _ _ _ => .trans) (fun _ => .refl) h
  exact ⟨C₀, C₁, h₀, h₁, h₂, hpage, hsnapshot⟩

/-- Ascending: up to the last page, all that is past the cursor in the log it was read from. Every snapshot
was read before that log. -/
theorem Paged.ascending (h : Paged cond K .asc cursor C rs C')
    (hlog : ∀ C₁ C₂, Reaches (World n) cond C C₁ → Reaches (World n) cond C₁ C₂ →
      DenseFrom 1 (C₂.st.db.events K) ∧ C₁.st.db.events K <+: C₂.st.db.events K) :
    ∃ C₁ p, Reaches (World n) cond C C₁ ∧ Reaches (World n) cond C₁ C' ∧ rs.getLast?.map (·.1) = some (pageAt K p C₁.st.db) ∧
      rs.flatMap (·.1.data) = (C₁.st.db.events K).filter (beyond (·.id) cursor) ∧
      ∀ r ∈ rs, ∃ C₀, Reaches (World n) cond C C₀ ∧ Reaches (World n) cond C₀ C₁ ∧ r.2 = readEventLogSnapshot K C₀.st.db := by
  induction h with
  | @more p r rs C C₁ C' hl ho hp hmore hf ih =>
    obtain ⟨C₀, C₂, h₀, h₀', h₂', hpage, hsnapshot⟩ := reader_page hp
    have h₂ := h₀.trans h₀'
    obtain ⟨C₃, q, h₃, h₃', hlast, hrest, hbefore⟩ := ih fun A B hA hB => hlog A B ((h₂.trans h₂').trans hA) hB
    have hne : rs ≠ [] := by rintro rfl; cases hlast
    refine ⟨C₃, q, (h₂.trans h₂').trans h₃, h₃', by rw [List.getLast?_cons_of_ne_nil hne]; exact hlast, ?_, fun r' hr' => ?_⟩
    · rw [pageAt_asc (hlog _ _ .refl h₂).1.increasing ho, EventPage.of_take] at hpage
      obtain ⟨page, snapshot⟩ := r
      obtain rfl : page = _ := hpage
      have hlong := of_decide_eq_true hmore
      obtain ⟨x, hx⟩ := exists_getLast_take hl hlong
      simp only [hx, Option.map_some] at hrest
      rw [List.flatMap_cons, hrest]
      exact take_append_filter_beyond (hlog _ _ h₂ (h₂'.trans h₃)).1.increasing (hlog _ _ h₂ (h₂'.trans h₃)).2 hlong hx
    · rcases List.mem_cons.1 hr' with rfl | hr'
      · exact ⟨C₀, h₀, h₀'.trans (h₂'.trans h₃), hsnapshot⟩
      · obtain ⟨C₄, h₄, h₄', hsnapshot'⟩ := hbefore r' hr'
        exact ⟨C₄, (h₂.trans h₂').trans h₄, h₄', hsnapshot'⟩
  | @last p r C C' hl ho hp hmore =>
    obtain ⟨C₀, C₂, h₀, h₀', h₂', hpage, hsnapshot⟩ := reader_page hp
    have h₂ := h₀.trans h₀'
    refine ⟨C₂, p, h₂, h₂', by rw [← hpage]; rfl, ?_, fun r' hr' => ?_⟩
    · rw [pageAt_asc (hlog _ _ .refl h₂).1.increasing ho, EventPage.of_take] at hpage
      obtain ⟨page, snapshot⟩ := r
      obtain rfl : page = _ := hpage
      rw [List.flatMap_singleton]
      exact List.take_of_length_le (not_lt.1 (of_decide_eq_false hmore))
    · obtain rfl := List.mem_singleton.1 hr'
      exact ⟨C₀, h₀, h₀', hsnapshot⟩

/-- Descending: from the first page on, all that was before the cursor in the log it was read from. The first
snapshot was read before that log. -/
theorem Paged.descending (h : Paged cond K .desc cursor C rs C')
    (hlog : ∀ C₁ C₂, Reaches (World n) cond C C₁ → Reaches (World n) cond C₁ C₂ →
      DenseFrom 1 (C₂.st.db.events K) ∧ C₁.st.db.events K <+: C₂.st.db.events K) :
    ∃ C₁ p, Reaches (World n) cond C C₁ ∧ Reaches (World n) cond C₁ C' ∧ rs.head?.map (·.1) = some (pageAt K p C₁.st.db) ∧
      rs.flatMap (·.1.data) = (C₁.st.db.events K).reverse.filter (preceding (·.id) cursor) ∧
      ∃ C₀, Reaches (World n) cond C C₀ ∧ Reaches (World n) cond C₀ C₁ ∧ rs.head?.map (·.2) = some (readEventLogSnapshot K C₀.st.db) := by
  induction h with
  | @more p r rs C C₁ C' hl ho hp hmore hf ih =>
    obtain ⟨C₀, C₂, h₀, h₀', h₂', hpage, hsnapshot⟩ := reader_page hp
    have h₂ := h₀.trans h₀'
    obtain ⟨C₃, q, h₃, h₃', -, hrest, -⟩ := ih fun A B hA hB => hlog A B ((h₂.trans h₂').trans hA) hB
    refine ⟨C₂, p, h₂, h₂'.trans (h₃.trans h₃'), by rw [← hpage]; rfl, ?_, C₀, h₀, h₀', by rw [← hsnapshot]; rfl⟩
    have hinc := (hlog _ _ .refl h₂).1.increasing
    rw [pageAt_desc hinc ho, EventPage.of_take] at hpage
    obtain ⟨page, snapshot⟩ := r
    obtain rfl : page = _ := hpage
    have hlong := of_decide_eq_true hmore
    obtain ⟨x, hx⟩ := exists_getLast_take hl hlong
    simp only [hx, Option.map_some] at hrest
    have hmem : x ∈ C₂.st.db.events K :=
      List.mem_reverse.1 (List.mem_of_mem_filter (List.mem_of_mem_take (List.mem_of_getLast? hx)))
    obtain ⟨hdense, hgrew⟩ := hlog _ _ h₂ (h₂'.trans h₃)
    rw [List.flatMap_cons, hrest, filter_preceding_of_grown hdense.increasing hgrew hmem, filter_preceding_getLast hinc hx]
    exact List.take_append_drop ..
  | @last p r C C' hl ho hp hmore =>
    obtain ⟨C₀, C₂, h₀, h₀', h₂', hpage, hsnapshot⟩ := reader_page hp
    have h₂ := h₀.trans h₀'
    refine ⟨C₂, p, h₂, h₂', by rw [← hpage]; rfl, ?_, C₀, h₀, h₀', by rw [← hsnapshot]; rfl⟩
    rw [pageAt_desc (hlog _ _ .refl h₂).1.increasing ho, EventPage.of_take] at hpage
    obtain ⟨page, snapshot⟩ := r
    obtain rfl : page = _ := hpage
    rw [List.flatMap_singleton]
    exact List.take_of_length_le (not_lt.1 (of_decide_eq_false hmore))

end Following

/-! ## The pages of a create -/

section Created

variable {n : Nat} {cond : Fin n → Op → State n → Prop} {K : RunKey} {t : Fin n} {C C' : Configuration n}

/-- The reads of session `t`, between which only the others go on. -/
abbrev Within (cond : Fin n → Op → State n → Prop) (t : Fin n) {α : Type} (p : LogReads α) : Configuration n → α → Configuration n → Prop :=
  ServedFrom (Meanwhile (World n) cond t) (fun C => C.st.view t) p

/-- The events of a log at the slots after `a` and before `m`. -/
def slotsBetween (a m : Nat) (log : List EventRow) : List EventRow :=
  log.filter fun e => (eventIdToSlot e.id).any fun i => a < i && i < m

theorem beyond_preceding_slot {log : List EventRow} (h : DenseFrom 1 log) (a m : Nat) :
    log.filter (fun e => beyond (·.id) (some (slotToEventId a)) e && preceding (·.id) (some (EventId.slot m)) e) =
      slotsBetween a m log := by
  refine List.filter_congr fun e he => ?_
  have hid : e.id ∈ (List.range' 1 log.length).map EventId.slot := by rw [← h.ids]; exact List.mem_map_of_mem he
  obtain ⟨i, -, hi⟩ := List.mem_map.1 hid
  simp [beyond, preceding, slotToEventId, ← hi, EventId.slot_lt_slot, eventIdToSlot]

/-- The ids of these events, in a dense log that reaches `m`. -/
theorem ids_slotsBetween {log : List EventRow} (h : DenseFrom 1 log) {a m : Nat} (hm : m ≤ log.length) :
    (slotsBetween a m log).map (·.id) = (List.range' (a + 1) (m - 1 - a)).map .slot := by
  have hids : (slotsBetween a m log).map (·.id) =
      ((List.range' 1 log.length).filter fun i => a < i && i < m).map EventId.slot := by
    have hmap : (slotsBetween a m log).map (·.id) =
        (log.map (·.id)).filter fun id => (eventIdToSlot id).any fun i => a < i && i < m := by
      rw [List.filter_map]; rfl
    rw [hmap, h.ids, List.filter_map]
    rfl
  rw [hids]
  congr 1
  have hinc : ((List.range' 1 log.length).filter fun i => a < i && i < m).Pairwise (· < ·) := (List.pairwise_lt_range' ..).filter _
  refine List.Perm.eq_of_pairwise (fun i j _ _ h₁ h₂ => absurd (h₁.trans h₂) (lt_irrefl _)) hinc (List.pairwise_lt_range' ..) ?_
  rw [List.perm_ext_iff_of_nodup ((List.nodup_range' ..).filter _) (List.nodup_range' ..)]
  intro i
  simp only [List.mem_filter, List.mem_range'_1, Bool.and_eq_true, decide_eq_true_eq]
  omega

/-- An event that session `t` sees it goes on to see, while it is only the others that go on. -/
theorem visible_meanwhile (hb : Schema.State.Base C.st) (hmean : Meanwhile (World n) cond t C C')
    (hgrew : C.st.db.events K <+: C'.st.db.events K) {e : EventRow} (he : e ∈ (C.st.view t).events K) :
    e ∈ (C'.st.view t).events K := by
  have hpend : C'.st.pend t = C.st.pend t := (hmean.keep hb).2.pend
  rw [Schema.State.view_eq, events_applyAll, List.mem_append] at he ⊢
  rw [hpend]
  exact he.imp_left fun he => hgrew.subset he

theorem within_since {params : CreateEventParams} {type : EventType} {run : Bool} {committed cursor : EventId}
    {page : Option EventPage} (hsince : params.sinceCursor = some cursor)
    (h : Within cond t (eventPage K params type run committed) C page C') :
    ∃ C₁, Meanwhile (World n) cond t C C₁ ∧ Meanwhile (World n) cond t C₁ C' ∧
      page = some (.of sinceCursorLimit (selectEvents K (some cursor) none .asc (some (sinceCursorLimit + 1)) (C₁.st.view t))) := by
  have hreach : ∀ {α : Type} {p : LogReads α} {A B : Configuration n} {a : α}, Within cond t p A a B → Meanwhile (World n) cond t A B :=
    fun h => h.reaches (fun _ => .refl) fun _ _ _ => .trans
  unfold eventPage at h
  rw [hsince] at h
  obtain ⟨report, C₁, h₁, h⟩ := h.of_bind
  obtain ⟨preloaded, C₂, h₂, h⟩ := h.of_bind
  obtain ⟨C₃, h₃, h⟩ := Served.of_perform h
  obtain ⟨rfl, rfl⟩ := Served.of_pure h
  exact ⟨C', (hreach h₁).trans ((hreach h₂).trans h₃), .refl, rfl⟩

theorem within_skipped {params : CreateEventParams} {type : EventType} {run : Bool} {m a : Nat} {page : Option EventPage}
    (hsince : params.sinceCursor = none) (hcount : params.eventCount = some a) (ha : 1 ≤ a)
    (hpreload : params.preloads type run = false)
    (h : Within cond t (eventPage K params type run (.slot m)) C page C') :
    if a + 1 < m then ∃ C₁ skipped, Meanwhile (World n) cond t C C₁ ∧ Meanwhile (World n) cond t C₁ C' ∧
      skipped = selectEvents K (some (slotToEventId a)) (some (.slot m)) .asc none (C₁.st.view t) ∧
      page = some { data := skipped, cursor := none, hasMore := skipped.length < m - a - 1 }
    else page = none := by
  unfold eventPage skippedPage reportSkippedSlots at h
  rw [hsince, hcount, hpreload] at h
  simp only [eventIdToSlot] at h
  by_cases ham : a + 1 < m
  · rw [if_pos ham]
    have hskips : ¬((decide (a < firstEventSlot) || decide (m ≤ a + 1)) = true) := by
      rw [Bool.or_eq_true, decide_eq_true_eq, decide_eq_true_eq, firstEventSlot]; omega
    rw [if_neg hskips] at h
    obtain ⟨C₁, h₁, h⟩ := Served.of_perform h
    obtain ⟨rfl, rfl⟩ := Served.of_pure h
    exact ⟨C', _, h₁, .refl, rfl, rfl⟩
  · rw [if_neg ham]
    have hnone : (decide (a < firstEventSlot) || decide (m ≤ a + 1)) = true := by
      rw [Bool.or_eq_true, decide_eq_true_eq, decide_eq_true_eq, firstEventSlot]; omega
    rw [if_pos hnone] at h
    obtain ⟨rfl, -⟩ := Served.of_pure h
    rfl

end Created

/-! ## The readers of a slot-numbered log -/

/-- The log is the slots from the first on, in order. -/
def InSlotOrder (log : List EventRow) : Prop := log.map (·.id) = (List.range' 1 log.length).map .slot

/-- What is exact about the readers that begin at a configuration. -/
structure PagingExact {n : Nat} (cond : Fin n → Op → State n → Prop) (K : RunKey) (C : Configuration n) : Prop where
  /-- The ascending pages are what the log that the last one was read from has past the cursor. -/
  ascending : ∀ cursor rs C', Paged cond K .asc cursor C rs C' →
    ∃ C₁ p, Reaches (World n) cond C C₁ ∧ Reaches (World n) cond C₁ C' ∧ rs.getLast?.map (·.1) = some (pageAt K p C₁.st.db) ∧
      InSlotOrder (C₁.st.db.events K) ∧ rs.flatMap (·.1.data) = (C₁.st.db.events K).filter (beyond (·.id) cursor)
  /-- The descending pages are what the log that the first one was read from has before the cursor. -/
  descending : ∀ cursor rs C', Paged cond K .desc cursor C rs C' →
    ∃ C₁ p, Reaches (World n) cond C C₁ ∧ Reaches (World n) cond C₁ C' ∧ rs.head?.map (·.1) = some (pageAt K p C₁.st.db) ∧
      InSlotOrder (C₁.st.db.events K) ∧ rs.flatMap (·.1.data) = (C₁.st.db.events K).reverse.filter (preceding (·.id) cursor)
  /-- A create's page since a cursor has the first hundred events past it. -/
  since : ∀ t params type run committed cursor page C', params.sinceCursor = some cursor →
    Within cond t (eventPage K params type run committed) C page C' →
    ∃ C₁ rest, Meanwhile (World n) cond t C C₁ ∧ Meanwhile (World n) cond t C₁ C' ∧ InSlotOrder ((C₁.st.view t).events K) ∧
      rest = ((C₁.st.view t).events K).filter (beyond (·.id) (some cursor)) ∧
      page = some { data := rest.take 100, cursor := (rest.take 100).getLast?.map (·.id), hasMore := 100 < rest.length }
  /-- A create's report of skipped slots has all of them. -/
  skipped : ∀ t params type run (m a : Nat) page C', params.sinceCursor = none → params.eventCount = some a → 1 ≤ a →
    params.preloads type run = false → (∃ e ∈ (C.st.view t).events K, e.id = .slot m) →
    Within cond t (eventPage K params type run (.slot m)) C page C' →
    if a + 1 < m then ∃ C₁, Meanwhile (World n) cond t C C₁ ∧ Meanwhile (World n) cond t C₁ C' ∧
      page = some { data := slotsBetween a m ((C₁.st.view t).events K), cursor := none, hasMore := false } ∧
      (slotsBetween a m ((C₁.st.view t).events K)).map (·.id) = (List.range' (a + 1) (m - 1 - a)).map .slot
    else page = none

/-- Paging through a run's log is exact in every interleaving in which each append to it finds its slot marker. -/
theorem event_paging_exact {n : Nat} {D : Deps} {requests : Fin n → CreateReq} {d : Db} {now : Nat} {K : RunKey}
    (hd : LogOk K d) (hmodern : d.ModernRun K) (hreq : CreatedModern D requests K) {C : Configuration n}
    (h : Reaches (World n) (fun t o s => markerFound K t o s) (initial D requests d now) C) :
    PagingExact (fun t o s => markerFound K t o s) K C := by
  have hsafe : ∀ {C₁}, Reaches (World n) (fun t o s => markerFound K t o s) C C₁ →
      (logRules (fun t o s => markerFound K t o s = true ∧ ∀ u, (s.view u).ModernRun K) K).rules.Safe C₁ := fun h₁ =>
    ((log_safe hd hreq fun _ _ _ h => h).reaches TxRules.tolerates (modern_reaches hmodern hreq .refl (h.trans h₁))).1
  have hdense : ∀ {C₁}, Reaches (World n) (fun t o s => markerFound K t o s) C C₁ → DenseFrom 1 (C₁.st.db.events K) :=
    fun h₁ => LogOk.dense (hsafe h₁).inv.data
  have hview : ∀ {C₁} t, Meanwhile (World n) (fun t o s => markerFound K t o s) t C C₁ → DenseFrom 1 ((C₁.st.view t).events K) :=
    fun t h₁ => dense_view (hsafe h₁.reaches).inv
  have hgrows : ∀ C₁ C₂, Reaches (World n) (fun t o s => markerFound K t o s) C C₁ →
      Reaches (World n) (fun t o s => markerFound K t o s) C₁ C₂ → C₁.st.db.events K <+: C₂.st.db.events K := fun C₁ C₂ h₁ h₂ =>
    LogGrew.log ((hsafe h₁).reaches TxRules.tolerates (modern_reaches hmodern hreq (h.trans h₁) h₂)).2
  have hlog := fun C₁ C₂ h₁ h₂ => And.intro (hdense (Relation.ReflTransGen.trans h₁ h₂)) (hgrows C₁ C₂ h₁ h₂)
  refine ⟨fun cursor rs C' hp => ?_, fun cursor rs C' hp => ?_, fun t params type run committed cursor page C' hsince hp => ?_,
    fun t params type run m a page C' hsince hcount ha hpreload hm hp => ?_⟩
  · obtain ⟨C₁, p, h₁, h₁', hlast, hdata, -⟩ := hp.ascending hlog
    exact ⟨C₁, p, h₁, h₁', hlast, (hdense h₁).ids, hdata⟩
  · obtain ⟨C₁, p, h₁, h₁', hfirst, hdata, -⟩ := hp.descending hlog
    exact ⟨C₁, p, h₁, h₁', hfirst, (hdense h₁).ids, hdata⟩
  · obtain ⟨C₁, h₁, h₁', hpage⟩ := within_since hsince hp
    refine ⟨C₁, _, h₁, h₁', (hview t h₁).ids, rfl, ?_⟩
    rw [selectEvents_asc (hview t h₁).increasing, show (fun e : EventRow => beyond (·.id) (some cursor) e && preceding (·.id) none e) =
      beyond (·.id) (some cursor) by funext e; simp [preceding]] at hpage
    exact hpage.trans (congrArg some (EventPage.of_take ..))
  · have hskips := within_skipped hsince hcount ha hpreload hp
    split
    · rename_i ham
      rw [if_pos ham] at hskips
      obtain ⟨C₁, skipped, h₁, h₁', hrows, hpage⟩ := hskips
      have hd₁ := hview t h₁
      rw [selectEvents_asc hd₁.increasing] at hrows
      have hslots : skipped = slotsBetween a m ((C₁.st.view t).events K) := hrows.trans (beyond_preceding_slot hd₁ a m)
      obtain ⟨e, he, hid⟩ := hm
      have hsees := visible_meanwhile (hsafe .refl).base h₁ (hgrows C C₁ .refl h₁.reaches) he
      have hlen := (hd₁.mem_slot.1 ⟨e, hsees, hid⟩).2
      have hids := ids_slotsBetween hd₁ (a := a) (m := m) (by omega)
      have hall : ¬(slotsBetween a m ((C₁.st.view t).events K)).length < m - a - 1 := by
        have := congrArg List.length hids
        simp only [List.length_map, List.length_range'] at this
        omega
      exact ⟨C₁, h₁, h₁', by rw [hpage, hslots, decide_eq_false hall], hids⟩
    · rename_i ham
      rw [if_neg ham] at hskips
      exact hskips

/-- What a reader is given at a configuration where nothing happens meanwhile. -/
def listingNow {n : Nat} (K : RunKey) (p : ListEventsParams) (C : Configuration n) : Option Listing :=
  match Served.runAt (LogRead.answer C.st.db) (listEvents K p) with
  | .ok r => some r
  | .error _ => none

def pageNow {n : Nat} (K : RunKey) (p : ListEventsParams) (C : Configuration n) : Option EventPage := (listingNow K p C).map (·.1)

theorem reader_listingNow {n : Nat} {cond : Fin n → Op → State n → Prop} {K : RunKey} {p : ListEventsParams} {C : Configuration n}
    {r : Listing} (h : listingNow K p C = some r) : Reader cond (listEvents K p) C r C := by
  unfold listingNow at h
  split at h
  · rename_i r hr
    cases h
    exact Served.of_runAt .refl hr
  · cases h

theorem reader_pageNow {n : Nat} {cond : Fin n → Op → State n → Prop} {K : RunKey} {p : ListEventsParams} {C : Configuration n}
    {page : EventPage} (h : pageNow K p C = some page) : ∃ snapshot, Reader cond (listEvents K p) C (page, snapshot) C := by
  obtain ⟨r, hr, rfl⟩ := Option.map_eq_some_iff.1 h
  exact ⟨r.2, reader_listingNow hr⟩

/-- The ids of a page, and whether there is more. -/
def EventPage.gist (page : EventPage) : List EventId × Option EventId × Bool := (page.data.map (·.id), page.cursor, page.hasMore)

/-- After a run's life, its three events in two pages, and in one page from the second on, backwards. -/
theorem event_paging_exact_lifecycle : ∃ (C : Configuration 3) (page₁ page₂ : EventPage),
    Reaches (World 3) (fun t o s => markerFound ("t", "r") t o s) (initial defaultDeps lifecycle Db.empty 0) C ∧
    page₁.gist = ([.slot 1, .slot 2], some (.slot 2), true) ∧ page₂.gist = ([.slot 3], some (.slot 3), false) ∧
    (∃ snapshot₁ snapshot₂, Paged (fun t o s => markerFound ("t", "r") t o s) ("t", "r") .asc none C
      [(page₁, snapshot₁), (page₂, snapshot₂)] C) ∧
    PagingExact (fun t o s => markerFound ("t", "r") t o s) ("t", "r") C := by
  obtain ⟨C, hC, hpages⟩ := Sessions.exists_of_play (fun t o s h => h)
    (P := fun C : Configuration 3 =>
      (pageNow ("t", "r") { limit := some 2 } C).map (·.gist) = some ([.slot 1, .slot 2], some (.slot 2), true) &&
      (pageNow ("t", "r") { limit := some 2, cursor := some (.slot 2) } C).map (·.gist) = some ([.slot 3], some (.slot 3), false))
    (show (Sessions.play (markerFound ("t", "r")) [go 0, go 1, go 2] (initial defaultDeps lifecycle Db.empty 0)).any _ = true
      by decide +kernel)
  rw [Bool.and_eq_true, decide_eq_true_eq, decide_eq_true_eq] at hpages
  obtain ⟨page₁, hpage₁, hgist₁⟩ := Option.map_eq_some_iff.1 hpages.1
  obtain ⟨page₂, hpage₂, hgist₂⟩ := Option.map_eq_some_iff.1 hpages.2
  obtain ⟨snapshot₁, hread₁⟩ := reader_pageNow hpage₁
  obtain ⟨snapshot₂, hread₂⟩ := reader_pageNow hpage₂
  have hcursor : page₁.cursor = some (.slot 2) := congrArg (·.2.1) hgist₁
  have hok : LogOk ("t", "r") Db.empty := ⟨trivial, fun h => by cases h⟩
  refine ⟨C, page₁, page₂, hC, hgist₁, hgist₂, ⟨snapshot₁, snapshot₂, ?_⟩,
    event_paging_exact hok (empty_modern _) lifecycle_modern hC⟩
  refine .more (p := { limit := some 2 }) (by decide) rfl hread₁ (congrArg (·.2.2) hgist₁) ?_
  simp only [hcursor]
  exact .last (p := { limit := some 2, cursor := some (.slot 2) }) (by decide) rfl hread₂ (congrArg (·.2.2) hgist₂)

/-! ## A reader of a log with ULIDs -/

/-- Three steps are created while their run is. -/
def earlySteps : Fin 4 → CreateReq
  | 0 => { tenant := "t", runId := some "r", event := .stepCreated "s0" "step" }
  | 1 => { tenant := "t", runId := some "r", event := .stepCreated "s1" "step" }
  | 2 => { tenant := "t", runId := some "r", event := .stepCreated "s2" "step" }
  | 3 => { tenant := "t", runId := none, ulid := "r", event := .runCreated { deploymentId := "d", workflowName := "w" } }

/-- A step creation is given the ULID `u`. -/
def mintFor (t : Fin 4) (u : Nat) : Move schema 4 := .run t 4 ⟨false, { ulid := u }⟩

/-- The event that was given the first ULID is appended after the page that has the second. -/
theorem event_missed : CreatedModern defaultDeps earlySteps ("t", "r") ∧ ∃ (C C' : Configuration 4) (page₁ page₂ : EventPage),
    Reaches (World 4) Anything (initial defaultDeps earlySteps Db.empty 0) C ∧ C.st.db.slotted ("t", "r") = true ∧
    (∃ snapshot₁ snapshot₂, Paged Anything ("t", "r") .asc none C [(page₁, snapshot₁), (page₂, snapshot₂)] C') ∧
    page₁.gist = ([.slot 1, .ulid 2], some (.ulid 2), true) ∧ page₂.gist = ([.ulid 3], some (.ulid 3), false) ∧
    (C'.st.db.events ("t", "r")).map (·.id) = [.slot 1, .ulid 2, .ulid 3, .ulid 1] ∧ ¬PagingExact Anything ("t", "r") C := by
  have hmodern : ∀ t, 2 ≤ (earlySteps t).effectiveSpecVersion defaultDeps := by decide
  obtain ⟨C, hC, h⟩ := Sessions.exists_of_play (c := Anything) (fun _ _ _ _ => trivial)
    (P := fun C : Configuration 4 => C.st.db.slotted ("t", "r") &&
      ((pageNow ("t", "r") { limit := some 2 } C).map (·.gist) = some ([.slot 1, .ulid 2], some (.ulid 2), true) &&
      (Sessions.play (fun _ _ _ => true) [go 0] C).any fun C' =>
        (pageNow ("t", "r") { limit := some 2, cursor := some (.ulid 2) } C').map (·.gist) = some ([.ulid 3], some (.ulid 3), false) &&
        (C'.st.db.events ("t", "r")).map (·.id) = [.slot 1, .ulid 2, .ulid 3, .ulid 1]))
    (show (Sessions.play (fun _ _ _ => true) [mintFor 0 1, mintFor 1 2, mintFor 2 3, go 3, go 1, go 2]
      (initial defaultDeps earlySteps Db.empty 0)).any _ = true by decide +kernel)
  simp only [Bool.and_eq_true, decide_eq_true_eq] at h
  obtain ⟨hslotted, hfirst, hthen⟩ := h
  obtain ⟨C', hC', h'⟩ := Sessions.exists_of_play (c := Anything) (fun _ _ _ _ => trivial) hthen
  simp only [Bool.and_eq_true, decide_eq_true_eq] at h'
  obtain ⟨page₁, hpage₁, hgist₁⟩ := Option.map_eq_some_iff.1 hfirst
  obtain ⟨page₂, hpage₂, hgist₂⟩ := Option.map_eq_some_iff.1 h'.1
  obtain ⟨snapshot₁, hread₁⟩ : ∃ s, Reader Anything (listEvents ("t", "r") _) C (page₁, s) C := reader_pageNow hpage₁
  obtain ⟨snapshot₂, hread₂⟩ : ∃ s, Reader Anything (listEvents ("t", "r") _) C' (page₂, s) C' := reader_pageNow hpage₂
  have hcursor : page₁.cursor = some (.ulid 2) := congrArg (·.2.1) hgist₁
  have hpaged : Paged Anything ("t", "r") .asc none C [(page₁, snapshot₁), (page₂, snapshot₂)] C' := by
    refine .more (p := { limit := some 2 }) (by decide) rfl hread₁ (congrArg (·.2.2) hgist₁) ?_
    simp only [hcursor]
    exact .last (p := { limit := some 2, cursor := some (.ulid 2) }) (by decide) rfl
      (Served.earlier (fun _ _ _ => .trans) hC' hread₂) (congrArg (·.2.2) hgist₂)
  refine ⟨fun t _ _ => hmodern t, C, C', page₁, page₂, hC, hslotted, ⟨snapshot₁, snapshot₂, hpaged⟩, hgist₁, hgist₂, h'.2, fun hexact => ?_⟩
  obtain ⟨C₁, p, -, -, -, hids, hdata⟩ := hexact.ascending _ _ _ hpaged
  have hin : EventId.ulid 2 ∈ (C₁.st.db.events ("t", "r")).map (·.id) := by
    have hpage : EventId.ulid 2 ∈ page₁.data.map (·.id) := by
      rw [show page₁.data.map (·.id) = [.slot 1, .ulid 2] from congrArg (·.1) hgist₁]
      exact List.mem_cons_of_mem _ List.mem_cons_self
    obtain ⟨e, he, hid⟩ := List.mem_map.1 hpage
    have hread : e ∈ [(page₁, snapshot₁), (page₂, snapshot₂)].flatMap (·.1.data) :=
      List.mem_flatMap.2 ⟨(page₁, snapshot₁), List.mem_cons_self, he⟩
    rw [hdata] at hread
    exact List.mem_map.2 ⟨e, List.mem_of_mem_filter hread, hid⟩
  rw [hids] at hin
  obtain ⟨i, -, hi⟩ := List.mem_map.1 hin
  cases hi

end WorkflowWorld
