/-
What a stream is behind its rows: the chunks before its first EOF, in id order, and whether it has
one. Rows whose chunks do not interleave, however they hold them, are read as that sequence by
`getChunks`, `getInfo` and `get`.
-/
import WorkflowWorld.Streams.Streamer
import WorkflowWorld.Lists.Prefix
import Mathlib.Algebra.BigOperators.Group.List.Basic
import Mathlib.Data.List.TakeWhile

namespace WorkflowWorld.Streams

/-! ## Rows -/

/-- The chunks of a row. -/
def StreamRow.chunks (row : StreamRow) : List LogicalStreamChunk :=
  match unpackStreamRow row.toPhysicalStreamRow with
  | .ok chunks => chunks
  | .error _ => []

/-- The ids a row accounts for: those of its chunks, or that of an EOF. -/
def StreamRow.ids (row : StreamRow) : List String :=
  if row.eof then [row.chunkId] else row.chunks.map (·.id)

/-- A data row whose columns describe its chunks. -/
structure StreamRow.Sound (row : StreamRow) : Prop where
  unpacks : unpackStreamRow row.toPhysicalStreamRow = .ok row.chunks
  first : row.chunks.head?.map (·.id) = some row.chunkId
  last : row.chunks.getLast?.map (·.id) = some (row.lastChunkId.getD row.chunkId)
  count : row.chunkCount.getD 1 = row.chunks.length
  increasing : row.chunks.Pairwise fun a b => a.id < b.id
  named : ∀ c ∈ row.chunks, startsWith c.id "chnk_" ∧ (utf8Encode c.id).length ≤ 0xffff

/-- Everything in one row comes before everything in the other. -/
def Before (row row' : StreamRow) : Prop := ∀ a ∈ row.ids, ∀ b ∈ row'.ids, a < b

/-- The rows of a stream that can be read row by row. -/
structure Legible (rows : StreamTable) : Prop where
  sound : ∀ row ∈ rows, row.eof = false → row.Sound
  named : ∀ row ∈ rows, startsWith row.chunkId "chnk_"
  distinct : rows.Pairwise fun row row' => row.chunkId ≠ row'.chunkId

/-- The rows of a stream: data rows are sound, and no two rows interleave, unless both are past an
EOF. -/
structure LaidOut (rows : StreamTable) : Prop where
  sound : ∀ row ∈ rows, row.eof = false → row.Sound
  named : ∀ row ∈ rows, startsWith row.chunkId "chnk_"
  distinct : rows.Pairwise fun row row' => row.chunkId ≠ row'.chunkId
  apart : rows.Pairwise fun row row' => Before row row' ∨ Before row' row ∨
    ∃ eof ∈ rows, eof.eof = true ∧ eof.chunkId < row.chunkId ∧ eof.chunkId < row'.chunkId

variable {rows : StreamTable} {row row' : StreamRow}

/-- No chunk of a row is past its last id. -/
theorem StreamRow.Sound.le_last (h : row.Sound) {c : LogicalStreamChunk} (hc : c ∈ row.chunks) :
    c.id ≤ row.lastChunkId.getD row.chunkId := by
  obtain ⟨l, hl, hid⟩ := Option.map_eq_some_iff.1 h.last
  obtain ⟨front, hf⟩ := List.getLast?_eq_some_iff.1 hl
  have hinc := h.increasing
  rw [hf] at hc hinc
  rw [← hid]
  rcases List.mem_append.1 hc with hc | hc
  · exact le_of_lt ((List.pairwise_append.1 hinc).2.2 c hc l (List.mem_singleton_self _))
  · rw [List.mem_singleton.1 hc]

/-- A row accounts for its own id. -/
theorem StreamRow.chunkId_mem_ids (h : row.eof = false → row.Sound) : row.chunkId ∈ row.ids := by
  unfold StreamRow.ids
  split
  · exact List.mem_singleton_self _
  · rename_i he
    obtain ⟨c, hc, hid⟩ := Option.map_eq_some_iff.1 (h (by simpa using he)).first
    exact List.mem_map.2 ⟨c, List.mem_of_mem_head? hc, hid⟩

theorem orderById_perm (rows : StreamTable) : (orderById rows).Perm rows := List.perm_insertionSort _ _

theorem LaidOut.legible (h : LaidOut rows) : Legible rows := ⟨h.sound, h.named, h.distinct⟩

namespace Legible

theorem mem_ids (h : Legible rows) (hr : row ∈ rows) : row.chunkId ∈ row.ids :=
  StreamRow.chunkId_mem_ids (h.sound row hr)

/-- A row is known by its id. -/
theorem eq_of_chunkId (h : Legible rows) (hr : row ∈ rows) (hr' : row' ∈ rows) (heq : row.chunkId = row'.chunkId) :
    row = row' := by
  by_contra hne
  have hsym : Std.Symm fun row row' : StreamRow => row.chunkId ≠ row'.chunkId := ⟨fun _ _ h => h.symm⟩
  exact h.distinct.forall hr hr' hne heq

theorem orderById_filter (h : Legible rows) (p : StreamRow → Bool) :
    orderById (rows.filter p) = (orderById rows).filter p := by
  refine Lists.insertionSort_filter p rows fun a ha b hb hab hba => ?_
  exact h.eq_of_chunkId ha hb (le_antisymm hab hba)

theorem pairwise_chunkId (h : Legible rows) : (orderById rows).Pairwise fun a b => a.chunkId < b.chunkId := by
  have hsorted := List.pairwise_insertionSort (fun a b : StreamRow => a.chunkId ≤ b.chunkId) rows
  have hdistinct : (orderById rows).Pairwise fun row row' => row.chunkId ≠ row'.chunkId :=
    h.distinct.perm (orderById_perm rows).symm fun h => h.symm
  exact (hsorted.and hdistinct).imp fun ⟨hle, hne⟩ => lt_of_le_of_ne hle hne

end Legible

/-- In the order of their ids, the rows that no EOF precedes come one after the other. -/
theorem LaidOut.pairwise_before (h : LaidOut rows) :
    (orderById rows).Pairwise fun a b => (∀ eof ∈ rows, eof.eof = true → ¬ eof.chunkId < a.chunkId) → Before a b := by
  have hapart := h.apart.perm (orderById_perm rows).symm fun {a b} hab => by
    rcases hab with hab | hab | ⟨eof, he, heof, ha, hb⟩
    · exact .inr (.inl hab)
    · exact .inl hab
    · exact .inr (.inr ⟨eof, he, heof, hb, ha⟩)
  refine (h.legible.pairwise_chunkId.and hapart).imp_of_mem ?_
  rintro a b ha hb ⟨hlt, hab | hba | ⟨eof, he, heof, hea, -⟩⟩ hfirst
  · exact hab
  · have ha' := h.legible.mem_ids ((orderById_perm rows).mem_iff.1 ha)
    have hb' := h.legible.mem_ids ((orderById_perm rows).mem_iff.1 hb)
    exact absurd (hba _ hb' _ ha') (not_lt.2 (le_of_lt hlt))
  · exact absurd hea (hfirst eof he heof)

/-! ## The logical stream -/

/-- What a stream holds for its readers. -/
structure LogicalStream where
  chunks : List LogicalStreamChunk
  closed : Bool

/-- The rows before the first EOF, in id order. -/
def visibleRows (tenantId name : String) (t : StreamTable) : StreamTable :=
  (orderById (streamRows tenantId name t)).takeWhile fun row => !row.eof

def logicalStream (tenantId name : String) (t : StreamTable) : LogicalStream where
  chunks := (visibleRows tenantId name t).flatMap (·.chunks)
  closed := (streamRows tenantId name t).any (·.eof)

/-- Before the first EOF means before it in the order of the rows. -/
theorem filter_before_eof {S : StreamTable} (hS : S.Pairwise fun a b => a.chunkId < b.chunkId) :
    (S.filter fun row => !row.eof && ((S.find? (·.eof)).map (·.chunkId)).all fun eof => decide (row.chunkId < eof)) =
      S.takeWhile fun row => !row.eof := by
  induction S with
  | nil => rfl
  | cons row S ih =>
    rw [List.pairwise_cons] at hS
    cases he : row.eof with
    | true =>
      have hrest : ∀ row' ∈ row :: S, ¬ row'.chunkId < row.chunkId := by
        rintro row' h'
        rcases List.mem_cons.1 h' with rfl | h'
        · exact lt_irrefl _
        · exact not_lt.2 (le_of_lt (hS.1 row' h'))
      rw [List.takeWhile_cons_of_neg (by simp [he]), List.filter_eq_nil_iff]
      intro row' h'
      rw [List.find?_cons_of_pos (by simp [he]), Option.map_some, Option.all_some, decide_eq_false (hrest row' h')]
      simp
    | false =>
      have hfind : (row :: S).find? (·.eof) = S.find? (·.eof) := List.find?_cons_of_neg (by simp [he])
      rw [hfind, List.takeWhile_cons_of_pos (by simp [he]), List.filter_cons_of_pos, ih hS.2]
      -- An EOF that is found is in a later row.
      simp only [he, Bool.not_false, Bool.true_and]
      cases hf : S.find? (·.eof) with
      | none => rfl
      | some row' =>
        rw [Option.map_some, Option.all_some, decide_eq_true_eq]
        exact hS.1 row' (List.mem_of_find?_eq_some hf)

section Readers

variable {tenantId name : String} {t : StreamTable}

theorem findFirstEofChunkId_eq (h : Legible (streamRows tenantId name t)) :
    findFirstEofChunkId tenantId name t =
      ((orderById (streamRows tenantId name t)).find? (·.eof)).map (·.chunkId) := by
  unfold findFirstEofChunkId
  rw [h.orderById_filter, List.head?_filter]

theorem isSome_findFirstEofChunkId (h : Legible (streamRows tenantId name t)) :
    (findFirstEofChunkId tenantId name t).isSome = (logicalStream tenantId name t).closed := by
  rw [findFirstEofChunkId_eq h, Option.isSome_map, List.isSome_find?]
  exact (orderById_perm _).any_eq

theorem orderById_dataRows (h : Legible (streamRows tenantId name t)) :
    orderById (dataRows tenantId name t) = visibleRows tenantId name t := by
  unfold dataRows visibleRows
  rw [h.orderById_filter, findFirstEofChunkId_eq h, filter_before_eof h.pairwise_chunkId]

theorem sound_of_mem_visibleRows (h : Legible (streamRows tenantId name t)) {row : StreamRow}
    (hr : row ∈ visibleRows tenantId name t) : row.Sound := by
  have hmem := (List.takeWhile_prefix fun row : StreamRow => !row.eof).subset hr
  have heof := List.mem_takeWhile_imp hr
  exact h.sound row ((List.mem_insertionSort _).1 hmem) (by simpa using heof)

/-- `getInfo` counts the chunks of the stream. -/
theorem getInfo_eq (h : Legible (streamRows tenantId name t)) :
    getInfo tenantId name t =
      ⟨(logicalStream tenantId name t).chunks.length - 1, (logicalStream tenantId name t).closed⟩ := by
  have hsum : ((dataRows tenantId name t).map fun row => row.chunkCount.getD 1).sum =
      ((logicalStream tenantId name t).chunks.length : Int) := by
    rw [← ((orderById_perm (dataRows tenantId name t)).map _).sum_eq, orderById_dataRows h]
    simp only [logicalStream]
    have hs : ∀ row ∈ visibleRows tenantId name t, row.chunkCount.getD 1 = row.chunks.length := fun _ hr =>
      (sound_of_mem_visibleRows h hr).count
    generalize visibleRows tenantId name t = V at hs
    induction V with
    | nil => rfl
    | cons row V ih =>
      rw [List.map_cons, List.sum_cons, List.flatMap_cons, List.length_append, hs row List.mem_cons_self,
        ih fun row' h' => hs row' (List.mem_cons_of_mem _ h')]
      push_cast
      rfl
  unfold getInfo
  rw [hsum, isSome_findFirstEofChunkId h]

theorem unpackRows_of_sound {rows : StreamTable} (h : ∀ row ∈ rows, row.Sound) :
    unpackRows rows = .ok (rows.flatMap (·.chunks)) := by
  have hm : rows.mapM (fun row => unpackStreamRow row.toPhysicalStreamRow) = .ok (rows.map (·.chunks)) := by
    induction rows with
    | nil => rfl
    | cons row rows ih =>
      rw [List.mapM_cons, (h row List.mem_cons_self).unpacks, ih fun row' h' => h row' (List.mem_cons_of_mem _ h')]
      rfl
  unfold unpackRows
  rw [hm]
  simp [Except.map, List.flatMap]

/-- A page shows no more than one chunk past its limit. -/
theorem pageOf_congr {options : GetChunksOptions} {done : Bool} {l l' : List LogicalStreamChunk}
    (h : l.take (options.limit + 1) = l'.take (options.limit + 1)) :
    pageOf options done l = pageOf options done l' := by
  have hlen : l.length > options.limit ↔ l'.length > options.limit := by
    have := congrArg List.length h
    simp only [List.length_take] at this
    omega
  have htake : l.take options.limit = l'.take options.limit := by
    have := congrArg (List.take options.limit) h
    simpa [List.take_take] using this
  unfold pageOf
  simp only [hlen, htake]

theorem past_of_le {cursor : Option String} {a b : String} (hab : a ≤ b) (h : past cursor a) : past cursor b := by
  cases cursor with
  | none => rfl
  | some c =>
    simp only [past, Option.all_some, decide_eq_true_eq] at h ⊢
    exact lt_of_lt_of_le h hab

/-- `getChunks` gives a page of the stream's chunks past the cursor. -/
theorem getChunks_eq (h : Legible (streamRows tenantId name t)) (options : GetChunksOptions) :
    getChunks tenantId name options t =
      .ok (pageOf options (logicalStream tenantId name t).closed
        ((logicalStream tenantId name t).chunks.filter fun c => past options.cursorChunkId c.id)) := by
  set p : StreamRow → Bool := fun row => past options.cursorChunkId (row.lastChunkId.getD row.chunkId) with hp
  set f : StreamRow → List LogicalStreamChunk := fun row =>
    row.chunks.filter fun c => past options.cursorChunkId c.id with hf
  have hrows : orderById ((dataRows tenantId name t).filter p) = (visibleRows tenantId name t).filter p := by
    unfold dataRows
    rw [List.filter_filter, h.orderById_filter, ← List.filter_filter, ← h.orderById_filter]
    exact congrArg (List.filter p) (orderById_dataRows h)
  have hsound : ∀ row ∈ visibleRows tenantId name t, row.Sound := fun row hr => sound_of_mem_visibleRows h hr
  -- A row that is not past the cursor holds nothing past it; one that is ends past it.
  have hnil : ∀ row ∈ visibleRows tenantId name t, ¬ p row → f row = [] := by
    intro row hr hnp
    refine List.filter_eq_nil_iff.2 fun c hc hpast => hnp ?_
    exact past_of_le ((hsound row hr).le_last hc) hpast
  have hne : ∀ row ∈ (visibleRows tenantId name t).filter p, f row ≠ [] := by
    intro row hr
    obtain ⟨hr, hpr⟩ := List.mem_filter.1 hr
    obtain ⟨l, hl, hid⟩ := Option.map_eq_some_iff.1 (hsound row hr).last
    refine List.ne_nil_of_mem (List.mem_filter.2 ⟨List.mem_of_getLast? hl, ?_⟩)
    rw [hid]
    exact hpr
  have hall : (logicalStream tenantId name t).chunks.filter (fun c => past options.cursorChunkId c.id) =
      ((visibleRows tenantId name t).filter p).flatMap f := by
    rw [Lists.flatMap_filter_of_nil hnil, logicalStream, List.filter_flatMap]
  unfold getChunks
  simp only
  rw [hrows, unpackRows_of_sound fun row hr => hsound row (List.mem_of_mem_filter (List.mem_of_mem_take hr)),
    isSome_findFirstEofChunkId h]
  refine congrArg Except.ok (pageOf_congr ?_)
  rw [hall, List.filter_flatMap]
  exact Lists.take_flatMap_take f _ hne (Nat.le_refl _)

/-- The rows of a closed stream: those before the first EOF, its row, and those after. -/
theorem orderById_eq_of_closed (hc : (logicalStream tenantId name t).closed = true) :
    ∃ eof rest, orderById (streamRows tenantId name t) = visibleRows tenantId name t ++ eof :: rest ∧
      eof.eof = true := by
  set S := orderById (streamRows tenantId name t) with hS
  have hany : S.any (·.eof) = true := by
    rw [hS, (orderById_perm _).any_eq]
    exact hc
  obtain ⟨row, hrow, he⟩ := List.any_eq_true.1 hany
  have hne : S.dropWhile (fun row => !row.eof) ≠ [] := by
    rw [Ne, List.dropWhile_eq_nil_iff]
    intro hall
    have := hall row hrow
    simp [he] at this
  obtain ⟨eof, rest, hd⟩ := List.exists_cons_of_ne_nil hne
  refine ⟨eof, rest, ?_, ?_⟩
  · rw [← hd]
    exact (List.takeWhile_append_dropWhile).symm
  · have := List.head_dropWhile_not (fun row : StreamRow => !row.eof) hne
    simpa [hd] using this

/-- No EOF precedes a row that is read. -/
theorem not_eof_lt_of_mem_visibleRows (h : Legible (streamRows tenantId name t)) {row : StreamRow}
    (hr : row ∈ visibleRows tenantId name t) :
    ∀ eof ∈ streamRows tenantId name t, eof.eof = true → ¬ eof.chunkId < row.chunkId := by
  intro eof he heof hlt
  have hpw := h.pairwise_chunkId
  have hmem : eof ∈ orderById (streamRows tenantId name t) := (orderById_perm _).mem_iff.2 he
  have hsplit := (List.takeWhile_append_dropWhile (p := fun row : StreamRow => !row.eof)
    (l := orderById (streamRows tenantId name t)))
  rw [← hsplit] at hpw hmem
  rcases List.mem_append.1 hmem with hv | hd
  · have := List.mem_takeWhile_imp hv
    simp [heof] at this
  · exact absurd hlt (not_lt.2 (le_of_lt ((List.pairwise_append.1 hpw).2.2 row hr eof hd)))

theorem ids_of_mem_visibleRows {row : StreamRow} (hr : row ∈ visibleRows tenantId name t) {c : LogicalStreamChunk}
    (hc : c ∈ row.chunks) : c.id ∈ row.ids := by
  have he : row.eof = false := by simpa using List.mem_takeWhile_imp hr
  simpa [StreamRow.ids, he] using ⟨c, hc, rfl⟩

theorem startsWith_of_mem_chunks (h : Legible (streamRows tenantId name t)) {c : LogicalStreamChunk}
    (hc : c ∈ (logicalStream tenantId name t).chunks) : startsWith c.id "chnk_" := by
  obtain ⟨row, hr, hcr⟩ := List.mem_flatMap.1 hc
  exact ((sound_of_mem_visibleRows h hr).named c hcr).1

theorem chunks_increasing (h : LaidOut (streamRows tenantId name t)) :
    (logicalStream tenantId name t).chunks.Pairwise fun a b => a.id < b.id := by
  refine List.pairwise_flatMap.2 ⟨fun row hr => (sound_of_mem_visibleRows h.legible hr).increasing, ?_⟩
  have hb := h.pairwise_before.sublist (List.takeWhile_prefix fun row => !row.eof).sublist
  refine hb.imp_of_mem fun {a b} ha hb' hab x hx y hy => ?_
  exact hab (not_eof_lt_of_mem_visibleRows h.legible ha) x.id (ids_of_mem_visibleRows ha hx) y.id
    (ids_of_mem_visibleRows hb' hy)

/-- Everything that is read has an id before every EOF. -/
theorem lt_eof_of_mem_chunks (h : LaidOut (streamRows tenantId name t)) {eof : StreamRow}
    (hrow : eof ∈ streamRows tenantId name t) (he : eof.eof = true) {c : LogicalStreamChunk}
    (hc : c ∈ (logicalStream tenantId name t).chunks) : c.id < eof.chunkId := by
  obtain ⟨row, hr, hcr⟩ := List.mem_flatMap.1 hc
  have hpw := h.pairwise_before
  have hmem : eof ∈ orderById (streamRows tenantId name t) := (orderById_perm _).mem_iff.2 hrow
  rw [← List.takeWhile_append_dropWhile (p := fun row : StreamRow => !row.eof)
    (l := orderById (streamRows tenantId name t))] at hpw hmem
  have hlate : eof ∈ (orderById (streamRows tenantId name t)).dropWhile fun row => !row.eof := by
    refine (List.mem_append.1 hmem).resolve_left fun hv => ?_
    have := List.mem_takeWhile_imp hv
    simp [he] at this
  exact (List.pairwise_append.1 hpw).2.2 row hr eof hlate (not_eof_lt_of_mem_visibleRows h.legible hr) c.id
    (ids_of_mem_visibleRows hr hcr) _ (h.legible.mem_ids hrow)

theorem pos_of_startsWith {id : String} (h : startsWith id "chnk_") : "" < id := by
  rw [String.lt_iff_toList_lt]
  cases hl : id.toList with
  | nil =>
    rw [startsWith, hl] at h
    cases h
  | cons c cs => exact List.nil_lt_cons c cs

/-! ### Live reads -/

/-- The event of a chunk. -/
def LogicalStreamChunk.event (chunk : LogicalStreamChunk) : StreamChunkEvent := ⟨chunk.id, chunk.data, false⟩

theorem rowEvents_of_sound {row : StreamRow} (he : row.eof = false) (h : row.Sound) :
    rowEvents row = .ok (row.chunks.map (·.event)) := by
  unfold rowEvents
  rw [if_neg (by simp [he]), h.unpacks]
  rfl

/-- The events of a row that can be read. -/
def StreamRow.events (row : StreamRow) : List StreamChunkEvent :=
  if row.eof then [⟨row.chunkId, row.data, true⟩] else row.chunks.map (·.event)

theorem rowEvents_eq {row : StreamRow} (h : row.eof = false → row.Sound) : rowEvents row = .ok row.events := by
  cases he : row.eof with
  | true => simp [rowEvents, StreamRow.events, he]
  | false => simpa [StreamRow.events, he] using rowEvents_of_sound he (h he)

theorem mapM_rowEvents {rows : StreamTable} (h : ∀ row ∈ rows, row.eof = false → row.Sound) :
    rows.mapM rowEvents = .ok (rows.map (·.events)) := by
  induction rows with
  | nil => rfl
  | cons row rows ih =>
    rw [List.mapM_cons, rowEvents_eq (h row List.mem_cons_self), ih fun row' h' => h row' (List.mem_cons_of_mem _ h')]
    rfl

/-- The reader has passed the event. -/
def Reader.Passed (reader : Reader) (msg : StreamChunkEvent) : Prop :=
  reader.closed = true ∨ msg.id ≤ reader.lastChunkId

theorem Reader.Passed.enqueue_eq {reader : Reader} {msg : StreamChunkEvent} (h : reader.Passed msg) :
    reader.enqueue msg = reader := by
  unfold Reader.enqueue
  rw [if_pos]
  rw [Bool.or_eq_true, decide_eq_true_eq]
  exact h

theorem Reader.passed_enqueue (reader : Reader) (msg : StreamChunkEvent) : (reader.enqueue msg).Passed msg := by
  by_cases h : reader.Passed msg
  · rw [h.enqueue_eq]
    exact h
  · unfold Reader.enqueue
    rw [if_neg (by rw [Bool.or_eq_true, decide_eq_true_eq]; exact h)]
    split
    · exact .inl rfl
    · split <;> exact .inr (le_refl _)

theorem Reader.Passed.enqueue {reader : Reader} {msg : StreamChunkEvent} (h : reader.Passed msg)
    (msg' : StreamChunkEvent) : (reader.enqueue msg').Passed msg := by
  by_cases h' : reader.Passed msg'
  · rwa [h'.enqueue_eq]
  · obtain ⟨ho, hlt⟩ := not_or.1 h'
    have hid : msg.id ≤ msg'.id := (h.resolve_left ho).trans (le_of_lt (not_le.1 hlt))
    rcases reader.passed_enqueue msg' with hc | hle
    · exact .inl hc
    · exact .inr (hid.trans hle)

theorem Reader.Passed.foldl {reader : Reader} {msg : StreamChunkEvent} (h : reader.Passed msg)
    (events : List StreamChunkEvent) : (events.foldl Reader.enqueue reader).Passed msg := by
  induction events generalizing reader with
  | nil => exact h
  | cons e es ih => exact ih (h.enqueue e)

/-- A reader passes what it is given. -/
theorem Reader.passed_foldl {events : List StreamChunkEvent} {msg : StreamChunkEvent} (h : msg ∈ events)
    (reader : Reader) : (events.foldl Reader.enqueue reader).Passed msg := by
  induction events generalizing reader with
  | nil => cases h
  | cons e es ih =>
    rcases List.mem_cons.1 h with rfl | h
    · exact (reader.passed_enqueue msg).foldl es
    · exact ih h _

/-- What it has passed it is not given again. -/
theorem Reader.foldl_of_passed {events : List StreamChunkEvent} {reader : Reader}
    (h : ∀ msg ∈ events, reader.Passed msg) : events.foldl Reader.enqueue reader = reader := by
  induction events with
  | nil => rfl
  | cons e es ih =>
    rw [List.foldl_cons, (h e List.mem_cons_self).enqueue_eq]
    exact ih fun msg hm => h msg (List.mem_cons_of_mem _ hm)

/-- What an open reader is given of chunks that come in order: those past its offset, the empty ones
left out. -/
theorem foldl_enqueue_chunks (chunks : List LogicalStreamChunk) (reader : Reader) (ho : reader.closed = false)
    (hinc : chunks.Pairwise fun a b => a.id < b.id) (hlast : ∀ c ∈ chunks, reader.lastChunkId < c.id) :
    ∃ last offset, (chunks.map (·.event)).foldl Reader.enqueue reader =
        { lastChunkId := last, offset, closed := false,
          enqueued := reader.enqueued ++
            ((chunks.drop reader.offset.toNat).map (·.data)).filter fun data => !data.isEmpty } ∧
      ∀ id, reader.lastChunkId < id → (∀ c ∈ chunks, c.id < id) → last < id := by
  induction chunks generalizing reader with
  | nil =>
    refine ⟨reader.lastChunkId, reader.offset, ?_, fun id h _ => h⟩
    cases reader
    simp_all
  | cons c cs ih =>
    rw [List.pairwise_cons] at hinc
    have hnew : ¬ (reader.closed || decide (reader.lastChunkId ≥ c.id)) = true := by
      rw [ho, Bool.false_or, decide_eq_true_eq]
      exact not_le.2 (hlast c List.mem_cons_self)
    rw [List.map_cons, List.foldl_cons]
    by_cases hoff : reader.offset > 0
    · have hstep : reader.enqueue c.event =
          { reader with lastChunkId := c.id, offset := reader.offset - 1 } := by
        unfold Reader.enqueue LogicalStreamChunk.event
        rw [if_neg hnew, if_neg Bool.false_ne_true, if_pos hoff]
      obtain ⟨last, offset, hfold, hlt⟩ := ih { reader with lastChunkId := c.id, offset := reader.offset - 1 } ho
        hinc.2 hinc.1
      refine ⟨last, offset, ?_, fun id _ hid => ?_⟩
      · have hdrop : (c :: cs).drop reader.offset.toNat = cs.drop (reader.offset - 1).toNat := by
          obtain ⟨k, hk⟩ : ∃ k : Nat, reader.offset = k + 1 := ⟨(reader.offset - 1).toNat, by omega⟩
          simp [hk]
        rw [hstep, hfold, hdrop]
      · exact hlt id (hid c List.mem_cons_self) fun c' h' => hid c' (List.mem_cons_of_mem _ h')
    · set reader' : Reader := { reader with
        lastChunkId := c.id
        enqueued := if c.data.isEmpty then reader.enqueued else reader.enqueued ++ [c.data] } with hr'
      have hstep : reader.enqueue c.event = reader' := by
        unfold Reader.enqueue LogicalStreamChunk.event
        rw [if_neg hnew, if_neg Bool.false_ne_true, if_neg hoff]
      obtain ⟨last, offset, hfold, hlt⟩ := ih reader' ho hinc.2 hinc.1
      refine ⟨last, offset, ?_, fun id _ hid => ?_⟩
      · have hz : reader.offset.toNat = 0 := by omega
        rw [hstep, hfold]
        simp only [hr', hz, List.drop_zero, List.map_cons]
        cases hd : c.data.isEmpty <;> simp [hd]
      · exact hlt id (hid c List.mem_cons_self) fun c' h' => hid c' (List.mem_cons_of_mem _ h')

theorem flatMap_events_visibleRows :
    (visibleRows tenantId name t).flatMap (·.events) = (logicalStream tenantId name t).chunks.map (·.event) := by
  rw [logicalStream, List.map_flatMap]
  refine List.flatMap_congr fun row hr => ?_
  have hr' : row.eof = false := by simpa using List.mem_takeWhile_imp hr
  simp [StreamRow.events, hr']

/-- Where `get` starts in a stream. -/
def LogicalStream.offset (S : LogicalStream) (startIndex : Option Int) : Nat :=
  (if startIndex.getD 0 < 0 then max 0 ((S.chunks.length : Int) + startIndex.getD 0) else startIndex.getD 0).toNat

/-- `get` on a closed stream gives the chunks from its start index on and closes, whatever arrives
while it reads. -/
theorem get_eq_of_closed (h : LaidOut (streamRows tenantId name t))
    (hc : (logicalStream tenantId name t).closed = true) (startIndex : Option Int) (buffer : List StreamChunkEvent) :
    get tenantId name startIndex buffer t =
      .ok ⟨(((logicalStream tenantId name t).chunks.drop ((logicalStream tenantId name t).offset startIndex)).map
        (·.data)).filter fun data => !data.isEmpty, true⟩ := by
  obtain ⟨eof, rest, hS, he⟩ := orderById_eq_of_closed hc
  set L := (logicalStream tenantId name t).chunks with hL
  have hmap : (orderById (streamRows tenantId name t)).mapM rowEvents =
      .ok ((orderById (streamRows tenantId name t)).map (·.events)) :=
    mapM_rowEvents fun row hr => h.sound row ((orderById_perm _).mem_iff.1 hr)
  have hV : (visibleRows tenantId name t).flatMap (·.events) = L.map (·.event) := flatMap_events_visibleRows
  have hev : ((orderById (streamRows tenantId name t)).map (·.events)).flatten =
      L.map (·.event) ++ ⟨eof.chunkId, eof.data, true⟩ :: rest.flatMap (·.events) := by
    rw [← List.flatMap_def, hS, List.flatMap_append, hV, List.flatMap_cons]
    simp [StreamRow.events, he]
  have hoff : startOffset startIndex (L.map (·.event) ++ ⟨eof.chunkId, eof.data, true⟩ :: rest.flatMap (·.events)) =
      if startIndex.getD 0 < 0 then max 0 ((L.length : Int) + startIndex.getD 0) else startIndex.getD 0 := by
    unfold startOffset
    rw [List.takeWhile_append_of_pos, List.takeWhile_cons_of_neg (by simp), List.append_nil, List.length_map]
    intro event hevent
    obtain ⟨c, -, rfl⟩ := List.mem_map.1 hevent
    rfl
  have hnamed : ∀ c ∈ L, "" < c.id := fun c hcL => pos_of_startsWith (startsWith_of_mem_chunks h.legible hcL)
  have hrow : eof ∈ streamRows tenantId name t := (orderById_perm _).mem_iff.1 (by rw [hS]; simp)
  obtain ⟨last, offset, hfold, hlt⟩ := foldl_enqueue_chunks L
    { offset := startOffset startIndex (L.map (·.event) ++ ⟨eof.chunkId, eof.data, true⟩ :: rest.flatMap (·.events)) }
    rfl (chunks_increasing h) hnamed
  have hlast : ¬ last ≥ eof.chunkId :=
    not_le.2 (hlt eof.chunkId (pos_of_startsWith (h.named eof hrow)) fun c hcL => lt_eof_of_mem_chunks h hrow he hcL)
  have hclose : ∀ reader : Reader, reader.closed = false → reader.lastChunkId = last →
      reader.enqueue ⟨eof.chunkId, eof.data, true⟩ = { reader with lastChunkId := eof.chunkId, closed := true } := by
    intro reader h₁ h₂
    unfold Reader.enqueue
    rw [if_neg (by rw [h₁, h₂, Bool.false_or, decide_eq_true_eq]; exact hlast), if_pos rfl]
  unfold get
  rw [hmap]
  simp only [bind, Except.bind]
  rw [hev, List.append_assoc, List.foldl_append, hfold, List.cons_append, List.foldl_cons, hclose _ rfl rfl,
    Reader.foldl_of_passed fun _ _ => .inl rfl, hoff]
  simp [LogicalStream.offset, hL]

/-- `get` on an open stream gives the chunks from its start index on and waits; what arrives while it
reads is of rows it has read. -/
theorem get_eq_of_open (h : LaidOut (streamRows tenantId name t))
    (hc : (logicalStream tenantId name t).closed = false) (startIndex : Option Int) {buffer : List StreamChunkEvent}
    (hb : ∀ msg ∈ buffer, ∃ row ∈ streamRows tenantId name t, msg ∈ row.events) :
    get tenantId name startIndex buffer t =
      .ok ⟨(((logicalStream tenantId name t).chunks.drop ((logicalStream tenantId name t).offset startIndex)).map
        (·.data)).filter fun data => !data.isEmpty, false⟩ := by
  set L := (logicalStream tenantId name t).chunks with hL
  have hmap : (orderById (streamRows tenantId name t)).mapM rowEvents =
      .ok ((orderById (streamRows tenantId name t)).map (·.events)) :=
    mapM_rowEvents fun row hr => h.sound row ((orderById_perm _).mem_iff.1 hr)
  have hvisible : visibleRows tenantId name t = orderById (streamRows tenantId name t) := by
    refine List.takeWhile_eq_self_iff.2 fun row hr => ?_
    have hnot := List.any_eq_false.1 hc row ((orderById_perm _).mem_iff.1 hr)
    simpa using hnot
  have hev : ((orderById (streamRows tenantId name t)).map (·.events)).flatten = L.map (·.event) := by
    rw [← List.flatMap_def, ← hvisible]
    exact flatMap_events_visibleRows
  have hread : ∀ msg ∈ buffer, msg ∈ L.map (·.event) := by
    intro msg hm
    obtain ⟨row, hr, hmr⟩ := hb msg hm
    rw [← hev, ← List.flatMap_def]
    exact List.mem_flatMap.2 ⟨row, (orderById_perm _).mem_iff.2 hr, hmr⟩
  have hoff : startOffset startIndex (L.map (·.event)) =
      if startIndex.getD 0 < 0 then max 0 ((L.length : Int) + startIndex.getD 0) else startIndex.getD 0 := by
    have hdata : (L.map (·.event)).takeWhile (fun chunk => !chunk.eof) = L.map (·.event) := by
      refine List.takeWhile_eq_self_iff.2 fun event hevent => ?_
      obtain ⟨c, -, rfl⟩ := List.mem_map.1 hevent
      rfl
    unfold startOffset
    rw [hdata, List.length_map]
  obtain ⟨last, offset, hfold, -⟩ := foldl_enqueue_chunks L { offset := startOffset startIndex (L.map (·.event)) } rfl
    (chunks_increasing h) fun c hcL => pos_of_startsWith (startsWith_of_mem_chunks h.legible hcL)
  unfold get
  rw [hmap]
  simp only [bind, Except.bind]
  rw [hev, List.foldl_append, Reader.foldl_of_passed fun msg hm => Reader.passed_foldl (hread msg hm) _, hfold, hoff]
  simp [LogicalStream.offset, hL]

end Readers

end WorkflowWorld.Streams
