/-
Streams with several producers. Each mints its own increasing ids, so that a block of one can span
the rows of another. `get`, the pages of `getChunks` and `getInfo` then part: a block is read whole at
the place of its first id, and what it spans is behind a reader that has gone to its last.
-/
import WorkflowWorld.Streams.Written
import WorkflowWorld.Lists.Pages

namespace WorkflowWorld.Streams

/-! ## Producers that do not know of each other -/

/-- The ids a call may get: increasing, and unlike those of every other call. What one process mints
increases from call to call as well. -/
structure Own (t : StreamTable) (tenantId : String) (call : Call) (ids : List String) : Prop where
  count : ids.length = call.minted
  chunkIds : ∀ id ∈ ids, isChunkId id
  increasing : ids.Pairwise (· < ·)
  fresh : ∀ row ∈ streamRows tenantId call.name t, ∀ j ∈ row.ids, j ∉ ids

instance (t : StreamTable) (tenantId : String) (call : Call) (ids : List String) : Decidable (Own t tenantId call ids) :=
  decidable_of_iff (ids.length = call.minted ∧ (∀ id ∈ ids, isChunkId id) ∧ ids.Pairwise (· < ·) ∧
    ∀ row ∈ streamRows tenantId call.name t, ∀ j ∈ row.ids, j ∉ ids)
    ⟨fun h => ⟨h.1, h.2.1, h.2.2.1, h.2.2.2⟩, fun h => ⟨h.count, h.chunkIds, h.increasing, h.fresh⟩⟩

/-- The tables that calls of any number of producers lead to, in whatever order their inserts commit. -/
inductive Produced (C : SnapshotCompaction) : StreamTable → Prop where
  | empty : Produced C []
  | call {t rows : StreamTable} (tenantId : String) (call : Call) (compactSnapshots : Bool) (ids : List String) :
      Produced C t → Own t tenantId call ids →
      call.rows (C.compact compactSnapshots) tenantId ids = .ok rows → Produced C (t ++ rows)

theorem Produced.perform {C : SnapshotCompaction} {compactSnapshots : Bool} {tenantId : String} {t : StreamTable}
    {step : Call × List String} (h : Produced C t) (hm : Own t tenantId step.1 step.2) :
    Produced C (perform (C.compact compactSnapshots) tenantId t step) := by
  unfold Streams.perform
  split
  · rename_i rows hr
    exact .call tenantId step.1 compactSnapshots step.2 h hm hr
  · exact h

/-- The rows of a stream as such producers leave them: no two account for one id. -/
structure Scattered (rows : StreamTable) : Prop where
  sound : ∀ row ∈ rows, row.eof = false → row.Sound
  named : ∀ row ∈ rows, startsWith row.chunkId "chnk_"
  disjoint : rows.Pairwise fun row row' => ∀ j ∈ row.ids, j ∉ row'.ids

theorem Scattered.legible {rows : StreamTable} (h : Scattered rows) : Legible rows where
  sound := h.sound
  named := h.named
  distinct := by
    refine h.disjoint.imp_of_mem fun {a b} ha hb hab heq => ?_
    have ha' := StreamRow.chunkId_mem_ids (h.sound a ha)
    have hb' := StreamRow.chunkId_mem_ids (h.sound b hb)
    exact hab _ ha' (heq ▸ hb')

/-- Different rows have no id in common. -/
theorem Scattered.not_mem_ids {rows : StreamTable} (h : Scattered rows) {row row' : StreamRow} (hr : row ∈ rows)
    (hr' : row' ∈ rows) (hne : row ≠ row') {j : String} (hj : j ∈ row.ids) : j ∉ row'.ids := by
  have hsym : Std.Symm fun row row' : StreamRow => ∀ j ∈ row.ids, j ∉ row'.ids :=
    ⟨fun _ _ h j hj hj' => h j hj' hj⟩
  exact h.disjoint.forall hr hr' hne j hj

theorem Scattered.append {tenantId name : String} {ids : List String} {rows new : StreamTable} (h : Scattered rows)
    (hadd : Added tenantId name ids new) (hfresh : ∀ row ∈ rows, ∀ j ∈ row.ids, j ∉ ids) :
    Scattered (rows ++ new) where
  sound row hr := (List.mem_append.1 hr).elim (h.sound row) (hadd.sound row)
  named row hr := (List.mem_append.1 hr).elim (h.named row) (hadd.named row)
  disjoint := by
    refine List.pairwise_append.2 ⟨h.disjoint, ?_, fun row hr row' hr' j hj hj' => ?_⟩
    · exact hadd.before.imp fun hab j hj hj' => lt_irrefl j (hab j hj j hj')
    · exact hfresh row hr j hj (hadd.ids_mem row' hr' j hj')

theorem Produced.scattered {C : SnapshotCompaction} {t : StreamTable} (h : Produced C t) (tenantId name : String) :
    Scattered (streamRows tenantId name t) := by
  induction h with
  | empty => exact ⟨by simp [streamRows], by simp [streamRows], .nil⟩
  | @call t rows tenantId' call compactSnapshots ids ht hm hr ih =>
    have hadd := added_of_rows hm.count hm.chunkIds hm.increasing hr
    rw [hadd.streamRows_append]
    split
    · rename_i hs
      obtain ⟨rfl, rfl⟩ := hs
      exact ih.append hadd hm.fresh
    · exact ih

/-! ## What the readers are to agree on -/

section Readers

variable (tenantId name : String) (t : StreamTable)

/-- Every chunk committed with an id before the first EOF. -/
def committed : List LogicalStreamChunk :=
  (((streamRows tenantId name t).filter fun row => !row.eof).flatMap (·.chunks)).filter fun c =>
    (findFirstEofChunkId tenantId name t).all fun eof => decide (c.id < eof)

/-- The pages of `getChunks` from a cursor on, each asked for with the cursor of the one before, until
one says that there is no more; `data` is what they hold. -/
inductive Pages (limit : Nat) : Option Cursor → List Buffer → Prop where
  | last {cursor : Option Cursor} {page : StreamChunksResponse} :
      getChunks tenantId name { limit, cursor } t = .ok page → page.hasMore = false →
      Pages limit cursor (page.data.map (·.2))
  | more {cursor : Option Cursor} {page : StreamChunksResponse} {data : List Buffer} :
      getChunks tenantId name { limit, cursor } t = .ok page → page.hasMore = true →
      Pages limit page.cursor data → Pages limit cursor (page.data.map (·.2) ++ data)

/-- The readers describe one sequence, of the chunks committed before the first EOF. A notification
that a reader gets meanwhile is of a committed row. -/
structure Describe (chunks : List LogicalStreamChunk) : Prop where
  once : chunks.Perm (committed tenantId name t)
  get : ∀ buffer : List StreamChunkEvent,
    (∀ msg ∈ buffer, ∃ row ∈ streamRows tenantId name t, msg ∈ row.events) →
    (Streams.get tenantId name (some 0) buffer t).map (·.enqueued) =
      .ok ((chunks.map (·.data)).filter fun data => !data.isEmpty)
  pages : ∀ limit ≥ 1, Pages tenantId name t limit none (chunks.map (·.data))
  info : (getInfo tenantId name t).tailIndex + 1 = chunks.length

/-- No row of the stream begins inside one that is read. -/
def Unspanned : Prop :=
  ∀ row ∈ visibleRows tenantId name t, ∀ row' ∈ streamRows tenantId name t,
    ¬ (row.chunkId < row'.chunkId ∧ row'.chunkId < row.lastChunkId.getD row.chunkId)

end Readers

variable {tenantId name : String} {t : StreamTable}

/-! ## Rows and the first EOF -/

theorem StreamRow.le_of_mem_ids {row : StreamRow} (h : row.eof = false → row.Sound) {j : String} (hj : j ∈ row.ids) :
    row.chunkId ≤ j := by
  unfold StreamRow.ids at hj
  split at hj
  · rw [List.mem_singleton.1 hj]
  · rename_i he
    have hs := h (by simpa using he)
    obtain ⟨c, hc, rfl⟩ := List.mem_map.1 hj
    obtain ⟨first, hf, hid⟩ := Option.map_eq_some_iff.1 hs.first
    obtain ⟨rest, hrest⟩ := List.head?_eq_some_iff.1 hf
    have hinc := hs.increasing
    rw [hrest] at hc hinc
    rw [← hid]
    rcases List.mem_cons.1 hc with rfl | hc
    · exact le_refl _
    · exact le_of_lt ((List.pairwise_cons.1 hinc).1 c hc)

/-- The first EOF is a row, and none is before it. -/
theorem findFirstEofChunkId_spec {eof : String} (h : findFirstEofChunkId tenantId name t = some eof) :
    (∃ row ∈ streamRows tenantId name t, row.eof = true ∧ row.chunkId = eof) ∧
      ∀ row ∈ streamRows tenantId name t, row.eof = true → eof ≤ row.chunkId := by
  obtain ⟨first, hf, rfl⟩ := Option.map_eq_some_iff.1 h
  have hmem : ∀ row, row ∈ orderById ((streamRows tenantId name t).filter (·.eof)) ↔
      row ∈ streamRows tenantId name t ∧ row.eof = true := fun row => by
    rw [(orderById_perm _).mem_iff, List.mem_filter]
  refine ⟨⟨first, ((hmem first).1 (List.mem_of_mem_head? hf)).1, ((hmem first).1 (List.mem_of_mem_head? hf)).2, rfl⟩,
    fun row hr he => ?_⟩
  have hrow := (hmem row).2 ⟨hr, he⟩
  have hsorted := List.pairwise_insertionSort (fun a b : StreamRow => a.chunkId ≤ b.chunkId)
    ((streamRows tenantId name t).filter (·.eof))
  obtain ⟨rest, hrest⟩ := List.head?_eq_some_iff.1 hf
  rw [orderById] at hrest hrow
  rw [hrest] at hrow hsorted
  rcases List.mem_cons.1 hrow with rfl | hrow
  · exact le_refl _
  · exact (List.pairwise_cons.1 hsorted).1 row hrow

theorem mem_visibleRows (h : Legible (streamRows tenantId name t)) {row : StreamRow} :
    row ∈ visibleRows tenantId name t ↔ row ∈ streamRows tenantId name t ∧ row.eof = false ∧
      ∀ eof, findFirstEofChunkId tenantId name t = some eof → row.chunkId < eof := by
  rw [← orderById_dataRows h, (orderById_perm _).mem_iff, dataRows, List.mem_filter, Bool.and_eq_true,
    Bool.not_eq_true', Option.all_eq_true]
  simp only [decide_eq_true_eq]

/-- A row that is not read is not before the first EOF. -/
theorem exists_eof_of_not_mem_visibleRows (h : Legible (streamRows tenantId name t)) {row : StreamRow}
    (hr : row ∈ streamRows tenantId name t) (hv : row ∉ visibleRows tenantId name t) :
    ∃ eof, findFirstEofChunkId tenantId name t = some eof ∧ eof ≤ row.chunkId := by
  cases he : row.eof with
  | true =>
    have hsome : (findFirstEofChunkId tenantId name t).isSome := by
      rw [isSome_findFirstEofChunkId h]
      exact List.any_eq_true.2 ⟨row, hr, he⟩
    obtain ⟨eof, heof⟩ := Option.isSome_iff_exists.1 hsome
    exact ⟨eof, heof, (findFirstEofChunkId_spec heof).2 row hr he⟩
  | false =>
    by_contra hnone
    refine hv ((mem_visibleRows h).2 ⟨hr, he, fun eof heof => ?_⟩)
    by_contra hge
    exact hnone ⟨eof, heof, not_lt.1 hge⟩

/-- What is committed before the first EOF is in the rows that are read. -/
theorem committed_perm (h : Legible (streamRows tenantId name t)) :
    (committed tenantId name t).Perm ((logicalStream tenantId name t).chunks.filter fun c =>
      (findFirstEofChunkId tenantId name t).all fun eof => decide (c.id < eof)) := by
  set f : StreamRow → List LogicalStreamChunk := fun row => row.chunks.filter fun c =>
    (findFirstEofChunkId tenantId name t).all fun eof => decide (c.id < eof) with hf
  have hnil : ∀ row ∈ (streamRows tenantId name t).filter fun row => !row.eof,
      ¬ (findFirstEofChunkId tenantId name t).all (fun eof => decide (row.chunkId < eof)) → f row = [] := by
    intro row hr hnot
    obtain ⟨hr, he⟩ := List.mem_filter.1 hr
    have he : row.eof = false := by simpa using he
    refine List.filter_eq_nil_iff.2 fun c hc hbefore => hnot ?_
    rw [Option.all_eq_true] at hbefore ⊢
    intro eof heof
    have hid : c.id ∈ row.ids := by simpa [StreamRow.ids, he] using ⟨c, hc, rfl⟩
    have hle := StreamRow.le_of_mem_ids (h.sound row hr) hid
    exact decide_eq_true (lt_of_le_of_lt hle (of_decide_eq_true (hbefore eof heof)))
  have hrows : committed tenantId name t = (dataRows tenantId name t).flatMap f := by
    rw [committed, List.filter_flatMap, ← Lists.flatMap_filter_of_nil hnil, List.filter_filter, dataRows]
    congr 1
    exact List.filter_congr fun row _ => Bool.and_comm _ _
  rw [hrows, logicalStream, List.filter_flatMap, ← orderById_dataRows h]
  exact ((orderById_perm _).symm.flatMap_right f)

/-! ## Streams whose rows do not span one another -/

theorem Unspanned.before (h : Scattered (streamRows tenantId name t)) (hu : Unspanned tenantId name t)
    {a b : StreamRow} (ha : a ∈ streamRows tenantId name t) (hb : b ∈ streamRows tenantId name t)
    (hlt : a.chunkId < b.chunkId) : Before a b ∨
      ∃ eof ∈ streamRows tenantId name t, eof.eof = true ∧ eof.chunkId < a.chunkId ∧ eof.chunkId < b.chunkId := by
  have hb' : ∀ k ∈ b.ids, b.chunkId ≤ k := fun k hk => StreamRow.le_of_mem_ids (h.sound b hb) hk
  cases he : a.eof with
  | true =>
    refine .inl fun j hj k hk => ?_
    have hj : j = a.chunkId := by simpa [StreamRow.ids, he] using hj
    exact hj ▸ lt_of_lt_of_le hlt (hb' k hk)
  | false =>
    by_cases hv : a ∈ visibleRows tenantId name t
    · -- The last id of `a` is not that of `b`, nor past it.
      have hs := h.sound a ha he
      obtain ⟨l, hl, hid⟩ := Option.map_eq_some_iff.1 hs.last
      have hlast : l.id ∈ a.ids := ids_of_mem_visibleRows hv (List.mem_of_getLast? hl)
      have hne : l.id ≠ b.chunkId := by
        intro heq
        have hab : a ≠ b := fun hab => absurd hlt (by rw [hab]; exact lt_irrefl _)
        exact h.not_mem_ids ha hb hab hlast (heq ▸ h.legible.mem_ids hb)
      have hle : l.id ≤ b.chunkId := by
        rw [hid]
        exact not_lt.1 fun hspan => hu a hv b hb ⟨hlt, hspan⟩
      refine .inl fun j hj k hk => ?_
      obtain ⟨c, hc, rfl⟩ : ∃ c ∈ a.chunks, c.id = j := by simpa [StreamRow.ids, he] using hj
      calc c.id ≤ l.id := hid ▸ hs.le_last hc
        _ < b.chunkId := lt_of_le_of_ne hle hne
        _ ≤ k := hb' k hk
    · -- A data row that is not read is past the first EOF.
      obtain ⟨_, hfirst, hle⟩ := exists_eof_of_not_mem_visibleRows h.legible ha hv
      obtain ⟨⟨row, hr, heof, rfl⟩, -⟩ := findFirstEofChunkId_spec hfirst
      have hne : row.chunkId ≠ a.chunkId := by
        intro heq
        rw [h.legible.eq_of_chunkId hr ha heq, he] at heof
        cases heof
      have hrow : row.chunkId < a.chunkId := lt_of_le_of_ne hle hne
      exact .inr ⟨row, hr, heof, hrow, hrow.trans hlt⟩

theorem Unspanned.laidOut (h : Scattered (streamRows tenantId name t)) (hu : Unspanned tenantId name t) :
    LaidOut (streamRows tenantId name t) where
  sound := h.sound
  named := h.named
  distinct := h.legible.distinct
  apart := by
    refine h.legible.distinct.imp_of_mem fun {a b} ha hb hne => ?_
    rcases lt_or_gt_of_ne hne with hlt | hlt
    · exact (hu.before h ha hb hlt).elim .inl fun hpast => .inr (.inr hpast)
    · rcases hu.before h hb ha hlt with hba | ⟨eof, hr, he, hb', ha'⟩
      · exact .inr (.inl hba)
      · exact .inr (.inr ⟨eof, hr, he, ha', hb'⟩)

theorem pageOf_data (options : GetChunksOptions) (done : Bool) (l : List LogicalStreamChunk) :
    (pageOf options done l).data.map (·.2) = (l.take options.limit).map (·.data) := by
  refine List.ext_getElem (by simp [pageOf]) fun i h₁ h₂ => ?_
  simp [pageOf]

theorem getChunks_beyond (h : Legible (streamRows tenantId name t)) (options : GetChunksOptions) :
    getChunks tenantId name options t = .ok (pageOf options (logicalStream tenantId name t).closed
      ((logicalStream tenantId name t).chunks.filter (Lists.beyond (·.id) options.cursorChunkId))) :=
  getChunks_eq h options

/-- The cursor of a page with more to come is its last chunk. -/
theorem pageOf_cursor {options : GetChunksOptions} {l : List LogicalStreamChunk} (done : Bool)
    (hmore : l.length > options.limit) {x : LogicalStreamChunk} (hx : (l.take options.limit).getLast? = some x)
    (hn : startsWith x.id "chnk_") (limit : Nat) :
    (GetChunksOptions.mk limit (pageOf options done l).cursor).cursorChunkId = some x.id := by
  simp [pageOf, hmore, hx, GetChunksOptions.cursorChunkId, hn]

/-- Chunks in the order of their ids are read page by page, whatever the limit. -/
theorem pages_of_increasing (h : Legible (streamRows tenantId name t))
    (hinc : (logicalStream tenantId name t).chunks.Pairwise fun a b => a.id < b.id) {limit : Nat} (hl : 1 ≤ limit)
    (cursor : Option Cursor) :
    Pages tenantId name t limit cursor (((logicalStream tenantId name t).chunks.filter
      (Lists.beyond (·.id) (GetChunksOptions.mk limit cursor).cursorChunkId)).map (·.data)) := by
  set L := (logicalStream tenantId name t).chunks with hL
  generalize hn : (L.filter (Lists.beyond (·.id) (GetChunksOptions.mk limit cursor).cursorChunkId)).length = n
  -- Each page leaves fewer chunks past its cursor.
  induction n using Nat.strong_induction_on generalizing cursor with
  | _ n ih =>
    set F := L.filter (Lists.beyond (·.id) (GetChunksOptions.mk limit cursor).cursorChunkId) with hF
    have hpage := getChunks_beyond h { limit, cursor }
    rw [← hL, ← hF] at hpage
    by_cases hmore : F.length > limit
    · obtain ⟨x, hx⟩ : ∃ x, (F.take limit).getLast? = some x := by
        refine ⟨_, List.getLast?_eq_some_getLast fun hnil => ?_⟩
        have := congrArg List.length hnil
        simp only [List.length_take, List.length_nil] at this
        omega
      have hxL : x ∈ L := List.mem_of_mem_filter (List.mem_of_mem_take (List.mem_of_getLast? hx))
      set next : Option Cursor := (pageOf { limit, cursor } (logicalStream tenantId name t).closed F).cursor with hnext
      have hcursor : (GetChunksOptions.mk limit next).cursorChunkId = some x.id :=
        pageOf_cursor _ hmore hx (startsWith_of_mem_chunks h hxL) limit
      have hrest : L.filter (Lists.beyond (·.id) (GetChunksOptions.mk limit next).cursorChunkId) = F.drop limit := by
        rw [hcursor]
        exact Lists.filter_beyond_getLast hinc hx
      have hfewer : (F.drop limit).length < n := by
        rw [List.length_drop, hn]
        omega
      have hpages := ih (F.drop limit).length hfewer next (by rw [hrest])
      rw [hrest] at hpages
      have := Pages.more hpage (by simp [pageOf, hmore]) hpages
      rwa [pageOf_data, ← List.map_append, List.take_append_drop] at this
    · have := Pages.last hpage (by simpa [pageOf] using hmore)
      rwa [pageOf_data, List.take_of_length_le (not_lt.1 hmore)] at this

theorem Unspanned.describe (h : Scattered (streamRows tenantId name t)) (hu : Unspanned tenantId name t) :
    Describe tenantId name t (logicalStream tenantId name t).chunks where
  once := by
    refine ((committed_perm h.legible).trans (List.Perm.of_eq ?_)).symm
    refine List.filter_eq_self.2 fun c hc => ?_
    rw [Option.all_eq_true]
    intro eof heof
    obtain ⟨⟨row, hr, he, rfl⟩, -⟩ := findFirstEofChunkId_spec heof
    exact decide_eq_true (lt_eof_of_mem_chunks (hu.laidOut h) hr he hc)
  get buffer hb := by
    cases hc : (logicalStream tenantId name t).closed with
    | true =>
      rw [get_eq_of_closed (hu.laidOut h) hc]
      rfl
    | false =>
      rw [get_eq_of_open (hu.laidOut h) hc (some 0) hb]
      rfl
  pages limit hl := by
    have hpages := pages_of_increasing h.legible (chunks_increasing (hu.laidOut h)) hl none
    have hall : ∀ c ∈ (logicalStream tenantId name t).chunks,
        Lists.beyond (·.id) (GetChunksOptions.mk limit none).cursorChunkId c := fun _ _ => rfl
    rwa [List.filter_eq_self.2 hall] at hpages
  info := by
    rw [getInfo_eq h.legible]
    simp

/-! ## Streams whose readers agree -/

/-- One chunk at a time, the pages show the chunks that are past all the ones before them. -/
theorem Pages.records (h : Legible (streamRows tenantId name t)) {cursor : Option Cursor} {data : List Buffer}
    (hp : Pages tenantId name t 1 cursor data) :
    data = (Lists.records (·.id) (GetChunksOptions.mk 1 cursor).cursorChunkId
      (logicalStream tenantId name t).chunks).map (·.data) := by
  set L := (logicalStream tenantId name t).chunks with hL
  induction hp with
  | @last cursor page hpage hmore =>
    rw [getChunks_beyond h, ← hL] at hpage
    obtain rfl := Except.ok.inj hpage
    rw [pageOf_data, Lists.records_eq]
    cases hF : L.filter (Lists.beyond (·.id) (GetChunksOptions.mk 1 cursor).cursorChunkId) with
    | nil => rfl
    | cons x xs =>
      have hxs : xs = [] := by simpa [pageOf, hF] using hmore
      have hx : Lists.beyond (·.id) (GetChunksOptions.mk 1 cursor).cursorChunkId x :=
        (List.mem_filter.1 (hF ▸ List.mem_cons_self)).2
      -- Nothing else is past the cursor, so nothing is past this chunk.
      have hnone : Lists.records (·.id) (some x.id) L = [] := by
        refine List.eq_nil_iff_forall_not_mem.2 fun y hy => ?_
        have hb := Lists.beyond_of_mem_records hy
        have hyF : y ∈ [x] := by
          rw [← hxs, ← hF]
          exact List.mem_filter.2 ⟨(Lists.records_sublist _ L).subset hy, Lists.beyond_trans hx hb⟩
        rw [List.mem_singleton.1 hyF] at hb
        exact Lists.not_beyond_self x hb
      simp [hnone]
  | @more cursor page data hpage hmore hp ih =>
    rw [getChunks_beyond h, ← hL] at hpage
    obtain rfl := Except.ok.inj hpage
    have hmore : (L.filter (Lists.beyond (·.id) (GetChunksOptions.mk 1 cursor).cursorChunkId)).length > 1 :=
      of_decide_eq_true hmore
    rw [ih, pageOf_data, Lists.records_eq (GetChunksOptions.mk 1 cursor).cursorChunkId L, ← List.map_append]
    cases hF : L.filter (Lists.beyond (·.id) (GetChunksOptions.mk 1 cursor).cursorChunkId) with
    | nil =>
      rw [hF] at hmore
      cases hmore
    | cons x xs =>
      have hxL : x ∈ L := List.mem_of_mem_filter (hF ▸ List.mem_cons_self)
      rw [hF] at hmore
      rw [pageOf_cursor _ hmore rfl (startsWith_of_mem_chunks h hxL)]
      rfl

/-- Of two rows, the one with the smaller id comes first with all its chunks. -/
def InOrder (a b : StreamRow) : Prop :=
  (a.chunkId < b.chunkId → ∀ x ∈ a.chunks, ∀ y ∈ b.chunks, x.id < y.id) ∧
    (b.chunkId < a.chunkId → ∀ y ∈ b.chunks, ∀ x ∈ a.chunks, y.id < x.id)

instance : Std.Symm InOrder := ⟨fun _ _ h => ⟨h.2, h.1⟩⟩

theorem Describe.unspanned (h : Scattered (streamRows tenantId name t)) {chunks : List LogicalStreamChunk}
    (hd : Describe tenantId name t chunks) : Unspanned tenantId name t := by
  set L := (logicalStream tenantId name t).chunks with hL
  have hlen : chunks.length = L.length := by
    have hinfo := hd.info
    rw [getInfo_eq h.legible] at hinfo
    simp only [← hL] at hinfo
    omega
  have hinc : L.Pairwise fun a b => a.id < b.id := by
    refine Lists.pairwise_of_length_records (c := none) ?_
    have hdata := congrArg List.length ((hd.pages 1 (le_refl 1)).records h.legible)
    rw [List.length_map, List.length_map, hlen] at hdata
    exact hdata.symm
  have hbefore : ∀ c ∈ L, ∀ eof, findFirstEofChunkId tenantId name t = some eof → c.id < eof := by
    have hfilter := (hd.once.trans (committed_perm h.legible)).length_eq
    rw [hlen] at hfilter
    intro c hc eof heof
    have hall := List.length_filter_eq_length_iff.1 hfilter.symm c hc
    rw [heof] at hall
    exact of_decide_eq_true hall
  -- Rows that are read come in the order of their ids, each before the next.
  have hrows : (visibleRows tenantId name t).Pairwise fun a b => a.chunkId < b.chunkId ∧
      ∀ x ∈ a.chunks, ∀ y ∈ b.chunks, x.id < y.id :=
    (h.legible.pairwise_chunkId.sublist (List.takeWhile_prefix _).sublist).and (List.pairwise_flatMap.1 hinc).2
  rintro row hr row' hr' ⟨hlt, hspan⟩
  have hs := sound_of_mem_visibleRows h.legible hr
  obtain ⟨l, hl, hid⟩ := Option.map_eq_some_iff.1 hs.last
  have hlrow : l ∈ row.chunks := List.mem_of_getLast? hl
  rw [← hid] at hspan
  by_cases hv : row' ∈ visibleRows tenantId name t
  · have hne : row ≠ row' := fun heq => absurd hlt (by rw [heq]; exact lt_irrefl _)
    obtain ⟨first, hf, hfid⟩ := Option.map_eq_some_iff.1 (sound_of_mem_visibleRows h.legible hv).first
    have hfrow : first ∈ row'.chunks := List.mem_of_mem_head? hf
    have horder : (visibleRows tenantId name t).Pairwise InOrder :=
      hrows.imp fun hab => ⟨fun _ => hab.2, fun hba => absurd hba (not_lt.2 (le_of_lt hab.1))⟩
    have hfirst := (horder.forall hr hv hne).1 hlt l hlrow first hfrow
    rw [hfid] at hfirst
    exact absurd hspan (not_lt.2 (le_of_lt hfirst))
  · obtain ⟨eof, hfirst, hle⟩ := exists_eof_of_not_mem_visibleRows h.legible hr' hv
    have hlast : l.id < eof := hbefore l (List.mem_flatMap.2 ⟨row, hr, hlrow⟩) eof hfirst
    exact absurd (hspan.trans hlast) (not_lt.2 hle)

/-- The readers of a stream agree, whoever wrote it, exactly when no row begins inside a block that is
read. -/
theorem readers_agree_iff {C : SnapshotCompaction} (h : Produced C t) (tenantId name : String) :
    (∃ chunks, Describe tenantId name t chunks) ↔ Unspanned tenantId name t := by
  constructor
  · rintro ⟨chunks, hd⟩
    exact hd.unspanned (h.scattered tenantId name)
  · intro hu
    exact ⟨_, hu.describe (h.scattered tenantId name)⟩

/-! ## Two producers -/

/-- A block of two chunks, and a chunk that another process wrote after them. -/
def takenTurns : StreamTable :=
  [(.writeMulti "r" "s" [[111, 110, 101], [116, 119, 111]],
      ["chnk_00000000000000000000000001", "chnk_00000000000000000000000002"]),
   (.write "r" "s" [116, 104, 114, 101, 101], ["chnk_00000000000000000000000003"]),
   (.close "r" "s", ["chnk_00000000000000000000000004"])].foldl (perform (noCompaction.compact false) "t") []

theorem produced_takenTurns : Produced noCompaction takenTurns := by
  simp only [takenTurns, List.foldl_cons, List.foldl_nil]
  refine .perform (.perform (.perform .empty ?_) ?_) ?_
  all_goals decide +kernel

theorem readers_agree_takenTurns :
    Unspanned "t" "s" takenTurns ∧ ∃ chunks, Describe "t" "s" takenTurns chunks := by
  have hu : Unspanned "t" "s" takenTurns := by
    unfold Unspanned
    decide +kernel
  exact ⟨hu, (readers_agree_iff produced_takenTurns "t" "s").2 hu⟩

/-- A block of two chunks, and a chunk that another process wrote between them. -/
def heldTurns : StreamTable :=
  [(.writeMulti "r" "s" [[111, 110, 101], [116, 119, 111]],
      ["chnk_00000000000000000000000001", "chnk_00000000000000000000000003"]),
   (.write "r" "s" [116, 104, 114, 101, 101], ["chnk_00000000000000000000000002"])].foldl
    (perform (noCompaction.compact false) "t") []

theorem produced_heldTurns : Produced noCompaction heldTurns := by
  simp only [heldTurns, List.foldl_cons, List.foldl_nil]
  refine .perform (.perform .empty ?_) ?_
  all_goals decide +kernel

/-- The chunk inside the block is lost to `get` and to small pages, while `getInfo` counts it. -/
theorem readers_disagree_heldTurns :
    ¬ ∀ (C : SnapshotCompaction) (t : StreamTable), Produced C t →
      ∀ tenantId name, ∃ chunks, Describe tenantId name t chunks := by
  intro h
  obtain ⟨chunks, hd⟩ := h noCompaction heldTurns produced_heldTurns "t" "s"
  have hu := hd.unspanned (produced_heldTurns.scattered "t" "s")
  unfold Unspanned at hu
  exact absurd hu (by decide +kernel)

end WorkflowWorld.Streams
