/-
Paging through a stream that changes under the reader. Between two pages of `getChunks` rows may be
appended, the stream closed, and its rows rewritten into blocks: the cursor then points into a block
that was not there when it was made. As long as rows do not interleave and no data follows an EOF, the
pages are still one sequence of the chunks of the stream.
-/
import WorkflowWorld.Streams.Interleaved
import WorkflowWorld.Streams.Preserved

namespace WorkflowWorld.Streams

/-! ## Streams that are paged through -/

/-- Rows with disjoint id ranges, and no data after an EOF. -/
structure Tidy (rows : StreamTable) : Prop extends Apart rows where
  ended : ∀ eof ∈ rows, eof.eof = true → ∀ row ∈ rows, row.eof = false → Before row eof

/-- What may happen to a stream between two pages: rows are appended with larger ids (data while the
stream is open, or EOFs), its rows are rewritten without compaction of snapshots, or other streams
change. -/
inductive Evolves (C : SnapshotCompaction) (tenantId name : String) : StreamTable → StreamTable → Prop where
  | append {t t' : StreamTable} (new : StreamTable) :
      streamRows tenantId name t' = streamRows tenantId name t ++ new →
      (∀ row ∈ streamRows tenantId name t, ∀ row' ∈ new, Before row row') →
      Tidy (streamRows tenantId name t') → Evolves C tenantId name t t'
  | repack {t : StreamTable} (options : PackTerminalStreamBlocksOptions) (locked : Bool) (runs : List StreamRun)
      (now : Nat) : options.compactSnapshots = false →
      Evolves C tenantId name t (packTerminalStreamBlocks C options locked runs now t).1
  | elsewhere {t t' : StreamTable} :
      streamRows tenantId name t' = streamRows tenantId name t → Evolves C tenantId name t t'

/-- The cursors of `getChunks` followed over the tables the stream goes through, until a page says that
there is no more. -/
inductive Follows (C : SnapshotCompaction) (tenantId name : String) (limit : Nat) :
    Option Cursor → List StreamTable → List StreamChunksResponse → Prop where
  | change {cursor : Option Cursor} {t t' : StreamTable} {ts : List StreamTable}
      {pages : List StreamChunksResponse} :
      Evolves C tenantId name t t' → Follows C tenantId name limit cursor (t' :: ts) pages →
      Follows C tenantId name limit cursor (t :: t' :: ts) pages
  | more {cursor : Option Cursor} {t : StreamTable} {ts : List StreamTable} {page : StreamChunksResponse}
      {pages : List StreamChunksResponse} :
      getChunks tenantId name { limit, cursor } t = .ok page → page.hasMore = true →
      Follows C tenantId name limit page.cursor (t :: ts) pages →
      Follows C tenantId name limit cursor (t :: ts) (page :: pages)
  | last {cursor : Option Cursor} {t : StreamTable} {page : StreamChunksResponse} :
      getChunks tenantId name { limit, cursor } t = .ok page → page.hasMore = false →
      Follows C tenantId name limit cursor [t] [page]

variable {C : SnapshotCompaction} {tenantId name : String} {t t' : StreamTable} {rows : StreamTable}

/-- Where no data follows an EOF, rows that do not interleave before it do not interleave at all. -/
theorem LaidOut.tidy (h : LaidOut rows)
    (hended : ∀ eof ∈ rows, eof.eof = true → ∀ row ∈ rows, row.eof = false → Before row eof) : Tidy rows where
  sound := h.sound
  named := h.named
  ended := hended
  apart := by
    refine (h.apart.and h.distinct).imp_of_mem ?_
    rintro a b ha hb ⟨hab | hba | ⟨eof, hr, he, hlta, hltb⟩, hne⟩
    · exact .inl hab
    · exact .inr hba
    · -- Past an EOF there are only EOFs, each with its own id.
      have honly : ∀ row ∈ rows, eof.chunkId < row.chunkId → row.ids = [row.chunkId] := by
        intro row hrow hlt
        cases hrowe : row.eof with
        | true => simp [StreamRow.ids, hrowe]
        | false =>
          have hb := hended eof hr he row hrow hrowe _ (h.legible.mem_ids hrow) _ (h.legible.mem_ids hr)
          exact absurd hb (not_lt.2 (le_of_lt hlt))
      have hia := honly a ha hlta
      have hib := honly b hb hltb
      unfold Before
      rw [hia, hib]
      rcases lt_or_gt_of_ne hne with hlt | hlt
      · exact .inl (by simpa using hlt)
      · exact .inr (by simpa using hlt)

theorem Tidy.laidOut (h : Tidy rows) : LaidOut rows := h.toApart.laidOut

/-- No chunk is hidden behind an EOF. -/
theorem Tidy.hiddenChunks_eq (h : Tidy (streamRows tenantId name t)) : hiddenChunks tenantId name t = [] := by
  refine List.eq_nil_iff_forall_not_mem.2 fun c hc => ?_
  obtain ⟨row, hr, hcr⟩ := List.mem_flatMap.1 hc
  obtain ⟨hr, hdata⟩ := List.mem_filter.1 hr
  have hdata : row.eof = false := by simpa using hdata
  have hclosed : (logicalStream tenantId name t).closed = true := by
    by_contra hopen
    have hall : ∀ row ∈ orderById (streamRows tenantId name t), (!row.eof) = true := by
      intro row' hr'
      have hno := List.any_eq_false.1 (Bool.not_eq_true _ ▸ hopen) row' ((orderById_perm _).mem_iff.1 hr')
      simpa using hno
    rw [List.dropWhile_eq_nil_iff.2 hall] at hr
    cases hr
  obtain ⟨eof, he⟩ := exists_aroundEof h.toApart hclosed
  have hrow : row ∈ streamRows tenantId name t :=
    (orderById_perm _).mem_iff.1 ((List.dropWhile_suffix _).subset hr)
  have hcid : c.id ∈ row.ids := by simpa [StreamRow.ids, hdata] using ⟨c, hcr, rfl⟩
  have hlt := h.ended eof he.mem he.isEof row hrow hdata c.id hcid _ (h.laidOut.legible.mem_ids he.mem)
  exact absurd (he.after c hc) (not_lt.2 (le_of_lt hlt))

/-! ## Rewriting -/

section Repack

variable {maxChunks maxBytes : Int} {candidate : Candidate}

/-- The rewrite of a tidy closed stream, when its chunks can be packed. -/
theorem Tidy.repacked (h : Tidy (streamRows candidate.tenantId candidate.streamId t))
    (hl : BlockLimits maxChunks maxBytes)
    (hc : (logicalStream candidate.tenantId candidate.streamId t).closed = true)
    (hp : canPack id candidate.tenantId candidate.streamId t) :
    Tidy (streamRows candidate.tenantId candidate.streamId (repacked id maxChunks maxBytes candidate t)) ∧
      (logicalStream candidate.tenantId candidate.streamId (repacked id maxChunks maxBytes candidate t)) =
        logicalStream candidate.tenantId candidate.streamId t := by
  obtain ⟨eof, he⟩ := exists_aroundEof h.toApart hc
  have hhidden := h.hiddenChunks_eq
  have hs : splitsAtFirstEof id maxChunks maxBytes candidate.tenantId candidate.streamId t := by
    unfold splitsAtFirstEof
    rw [hhidden, List.map_nil, Greedy.cuts_nil]
  have hlaid := laidOut_repacked hl h.toApart he hp hs
  have hchunks := chunks_repacked hl h.toApart he hp hs
  have hadd := added_packedRows hl h.toApart he hp
  refine ⟨hlaid.tidy ?_, ?_⟩
  · rw [streamRows_repacked]
    intro row hr hrow row' hr' hrow'
    obtain hr | hr := List.mem_append.1 hr
    · obtain ⟨row₀, hr₀, rfl⟩ := List.mem_map.1 hr
      obtain ⟨hr₀, hrow₀⟩ := List.mem_filter.1 hr₀
      obtain hr' | hr' := List.mem_append.1 hr'
      · obtain ⟨row₁, hr₁, rfl⟩ := List.mem_map.1 hr'
        exact absurd ((List.mem_filter.1 hr₁).2.symm.trans hrow') (by simp)
      · intro a ha b hb
        rw [StreamRow.ids, if_pos hrow] at hb
        -- A chunk of a block was in a data row of the stream.
        obtain ⟨c, hcm, rfl⟩ := List.mem_map.1 (hadd.ids_mem row' hr' a ha)
        rw [hhidden, List.append_nil] at hcm
        rw [List.mem_singleton.1 hb]
        exact lt_eof_of_mem_chunks h.laidOut hr₀ hrow₀ hcm
    · exact absurd ((eof_of_mem_packedRows hr).symm.trans hrow) (by simp)
  · have hclosed : (logicalStream candidate.tenantId candidate.streamId
        (Streams.repacked id maxChunks maxBytes candidate t)).closed = true := by
      rw [← isSome_findFirstEofChunkId hlaid.legible, findFirstEofChunkId_repacked, he.first]
      rfl
    have hsame : (logicalStream candidate.tenantId candidate.streamId t).chunks.map (·.compacted id) =
        (logicalStream candidate.tenantId candidate.streamId t).chunks := List.map_id _
    rw [hsame] at hchunks
    calc logicalStream candidate.tenantId candidate.streamId (Streams.repacked id maxChunks maxBytes candidate t)
        = ⟨(logicalStream candidate.tenantId candidate.streamId
            (Streams.repacked id maxChunks maxBytes candidate t)).chunks, true⟩ := by rw [← hclosed]
      _ = logicalStream candidate.tenantId candidate.streamId t := by rw [hchunks, ← hc]

/-- A stream that is tidy, and holds what it held. -/
def Kept (tenantId name : String) (t t' : StreamTable) : Prop :=
  Tidy (streamRows tenantId name t') ∧ logicalStream tenantId name t' = logicalStream tenantId name t

theorem kept_of_streamRows (h : Tidy (streamRows tenantId name t))
    (heq : streamRows tenantId name t' = streamRows tenantId name t) : Kept tenantId name t t' := by
  refine ⟨heq ▸ h, ?_⟩
  unfold logicalStream visibleRows
  rw [heq]

/-- The transaction of one candidate, whatever the other streams of the table are. -/
theorem Tidy.compactOneStream (h : Tidy (streamRows tenantId name t)) (hl : BlockLimits maxChunks maxBytes)
    (hc : candidate.tenantId = tenantId ∧ candidate.streamId = name → (logicalStream tenantId name t).closed = true)
    {n : Nat × Nat × Nat} (hone : compactOneStream id maxChunks maxBytes candidate t = .ok (t', n)) :
    Kept tenantId name t t' := by
  by_cases hours : candidate.tenantId = tenantId ∧ candidate.streamId = name
  · have hclosed := hc hours
    obtain ⟨rfl, rfl⟩ := hours
    by_cases hp : canPack id candidate.tenantId candidate.streamId t
    · obtain ⟨n', hpacked⟩ := compactOneStream_of_canPack hl h.toApart hp
      rw [hpacked] at hone
      cases hone
      exact h.repacked hl hclosed hp
    · obtain ⟨e, herror⟩ := compactOneStream_of_not_canPack maxChunks maxBytes h.toApart hp
      rw [herror] at hone
      cases hone
  · exact kept_of_streamRows h (streamRows_compactOneStream_of_ne hone hours)

/-- The loop over the candidates. -/
theorem Tidy.compactStreams (hl : BlockLimits maxChunks maxBytes) (found : List Candidate)
    (result : PackTerminalStreamBlocksResult) (h : Tidy (streamRows tenantId name t))
    (hc : ∀ c ∈ found, c.tenantId = tenantId ∧ c.streamId = name → (logicalStream tenantId name t).closed = true) :
    Kept tenantId name t (compactStreams id maxChunks maxBytes found t result).1 := by
  induction found generalizing t result with
  | nil => exact ⟨h, rfl⟩
  | cons c found ih =>
    unfold Streams.compactStreams
    cases hone : Streams.compactOneStream id maxChunks maxBytes c t with
    | error e => exact ⟨h, rfl⟩
    | ok outcome =>
      obtain ⟨t₁, n₁, n₂, n₃⟩ := outcome
      obtain ⟨htidy, hsame⟩ := h.compactOneStream hl (hc c List.mem_cons_self) hone
      have hrest := ih { result with
        streamsCompacted := result.streamsCompacted + 1
        logicalChunks := result.logicalChunks + n₁
        physicalRowsBefore := result.physicalRowsBefore + n₂
        physicalRowsAfter := result.physicalRowsAfter + n₃ } htidy
        (fun c' h' hours => by rw [hsame]; exact hc c' (List.mem_cons_of_mem _ h') hours)
      exact ⟨hrest.1, hrest.2.trans hsame⟩

theorem Tidy.packTerminalStreamBlocks (h : Tidy (streamRows tenantId name t))
    (options : PackTerminalStreamBlocksOptions) (ho : options.compactSnapshots = false) (locked : Bool)
    (runs : List StreamRun) (now : Nat) :
    Kept tenantId name t (packTerminalStreamBlocks C options locked runs now t).1 := by
  unfold Streams.packTerminalStreamBlocks
  cases hassert : assertOptions options with
  | error e => exact ⟨h, rfl⟩
  | ok _ =>
    cases locked with
    | false => exact ⟨h, rfl⟩
    | true =>
      have hid : C.compact options.compactSnapshots = id := by
        rw [ho]
        rfl
      simp only [Bool.not_true, Bool.false_eq_true, if_false, hid]
      refine h.compactStreams (blockLimits_of_assertOptions hassert) _ _ fun c hc hours => ?_
      rw [← hours.1, ← hours.2]
      exact closed_of_mem_candidates hc

end Repack

/-! ## Appending -/

/-- Rows appended with larger ids come after the others in the order of the ids. -/
theorem orderById_append {new : StreamTable} (h : LaidOut (rows ++ new))
    (hb : ∀ row ∈ rows, ∀ row' ∈ new, Before row row') :
    orderById (rows ++ new) = orderById rows ++ orderById new := by
  have hmem : ∀ row ∈ rows ++ new, row.chunkId ∈ row.ids := fun row hr => h.legible.mem_ids hr
  refine List.Perm.eq_of_pairwise ?_
    (List.pairwise_insertionSort (fun a b : StreamRow => a.chunkId ≤ b.chunkId) _) ?_ ?_
  · intro a b ha hb' hab hba
    exact h.legible.eq_of_chunkId ((orderById_perm _).mem_iff.1 ha)
      (((orderById_perm rows).append (orderById_perm new)).mem_iff.1 hb') (le_antisymm hab hba)
  · refine List.pairwise_append.2 ⟨List.pairwise_insertionSort _ _, List.pairwise_insertionSort _ _,
      fun a ha b hb' => ?_⟩
    have ha := (orderById_perm rows).mem_iff.1 ha
    have hb' := (orderById_perm new).mem_iff.1 hb'
    exact le_of_lt (hb a ha b hb' _ (hmem a (List.mem_append_left _ ha)) _ (hmem b (List.mem_append_right _ hb')))
  · exact (orderById_perm _).trans ((orderById_perm rows).append (orderById_perm new)).symm

/-- Every change keeps the chunks of the stream, in their places. -/
theorem Evolves.grows (he : Evolves C tenantId name t t') (h : Tidy (streamRows tenantId name t)) :
    Tidy (streamRows tenantId name t') ∧
      (logicalStream tenantId name t).chunks <+: (logicalStream tenantId name t').chunks := by
  cases he with
  | append new heq hb htidy =>
    refine ⟨htidy, ?_⟩
    have hlaid := htidy.laidOut
    rw [heq] at hlaid
    unfold logicalStream visibleRows
    rw [heq, orderById_append hlaid hb, List.takeWhile_append]
    split
    · rename_i hall
      rw [List.flatMap_append, (List.takeWhile_prefix _).eq_of_length hall]
      exact List.prefix_append _ _
    · exact List.prefix_rfl
  | repack options locked runs now ho =>
    obtain ⟨htidy, hsame⟩ := h.packTerminalStreamBlocks (C := C) options ho locked runs now
    exact ⟨htidy, hsame ▸ List.prefix_rfl⟩
  | elsewhere heq =>
    obtain ⟨htidy, hsame⟩ := kept_of_streamRows h heq
    exact ⟨htidy, hsame ▸ List.prefix_rfl⟩

/-- A call writes data, or an EOF. -/
theorem eof_of_rows {call : Call} {compact : Buffer → Buffer} {ids : List String} {new : StreamTable}
    (h : call.rows compact tenantId ids = .ok new) : (∀ row ∈ new, row.eof = true) ∨ ∀ row ∈ new, row.eof = false := by
  cases call with
  | write runId name chunk =>
    cases h
    right
    intro row hr
    obtain ⟨id, -, rfl⟩ := List.mem_map.1 hr
    rfl
  | legacyWrite runId name chunk =>
    cases h
    right
    intro row hr
    obtain ⟨id, -, rfl⟩ := List.mem_map.1 hr
    rfl
  | close runId name =>
    cases h
    left
    intro row hr
    obtain ⟨id, -, rfl⟩ := List.mem_map.1 hr
    rfl
  | writeMulti runId name chunks =>
    right
    rw [Call.rows] at h
    split at h
    · cases h
      exact List.forall_mem_nil _
    · cases hp : packStreamChunks (ids.zipWith (fun id chunk => ⟨id, compact chunk⟩) chunks) with
      | error e =>
        rw [hp] at h
        cases h
      | ok blocks =>
        rw [hp] at h
        cases h
        intro row hr
        obtain ⟨block, -, rfl⟩ := List.mem_map.1 hr
        rfl

/-- A call of a producer with larger ids, on a stream that is open or to close it, is such a change. -/
theorem Evolves.call {call : Call} (compactSnapshots : Bool) {ids : List String} {new : StreamTable}
    (h : Tidy (streamRows tenantId call.name t)) (hm : Mints t tenantId call ids)
    (hlarger : ∀ row ∈ streamRows tenantId call.name t, ∀ j ∈ row.ids, ∀ id ∈ ids, j < id)
    (hr : call.rows (C.compact compactSnapshots) tenantId ids = .ok new)
    (hopen : (logicalStream tenantId call.name t).closed = true → ∀ row ∈ new, row.eof = true) :
    Evolves C tenantId call.name t (t ++ new) := by
  have hadd := added_of_rows hm.count hm.chunkIds hm.increasing hr
  have hrows : streamRows tenantId call.name (t ++ new) = streamRows tenantId call.name t ++ new := by
    rw [hadd.streamRows_append, if_pos ⟨rfl, rfl⟩]
  have hbefore : ∀ row ∈ streamRows tenantId call.name t, ∀ row' ∈ new, Before row row' :=
    fun row hrow row' hrow' j hj k hk => hlarger row hrow j hj k (hadd.ids_mem row' hrow' k hk)
  have hapart := h.toApart.append hadd hm.apart
  refine .append new hrows hbefore ?_
  rw [hrows]
  refine ⟨hapart, fun eof heof he row hrow hdata => ?_⟩
  rcases List.mem_append.1 heof with heof | heof
  · rcases List.mem_append.1 hrow with hrow | hrow
    · exact h.ended eof heof he row hrow hdata
    · have hclosed : (logicalStream tenantId call.name t).closed = true := List.any_eq_true.2 ⟨eof, heof, he⟩
      exact absurd ((hopen hclosed row hrow).symm.trans hdata) (by simp)
  · rcases List.mem_append.1 hrow with hrow | hrow
    · exact hbefore row hrow eof heof
    · rcases eof_of_rows hr with hall | hnone
      · exact absurd ((hall row hrow).symm.trans hdata) (by simp)
      · exact absurd ((hnone eof heof).symm.trans he) (by simp)

/-! ## Following the cursors -/

/-- The cursor of a reader that has been given the chunks. Its index is carried as a safe integer. -/
structure After (limit : Nat) (cursor : Option Cursor) (front : List LogicalStreamChunk) : Prop where
  points : (GetChunksOptions.mk limit cursor).cursorChunkId = front.getLast?.map (·.id)
  counts : front.length < 2 ^ 53 → (GetChunksOptions.mk limit cursor).baseIndex = front.length

theorem After.start (limit : Nat) : After limit none [] := ⟨rfl, fun _ => rfl⟩

/-- What is past the cursor of a reader that has been given the first chunks of a stream. -/
theorem After.filter_past {limit : Nat} {cursor : Option Cursor} {front rest : List LogicalStreamChunk}
    (h : After limit cursor front) (hinc : (front ++ rest).Pairwise fun a b => a.id < b.id) :
    (front ++ rest).filter (fun c => past (GetChunksOptions.mk limit cursor).cursorChunkId c.id) = rest := by
  obtain ⟨hfront, -, hcross⟩ := List.pairwise_append.1 hinc
  rw [h.points]
  rcases List.eq_nil_or_concat front with rfl | ⟨init, x, rfl⟩
  · exact List.filter_eq_self.2 fun c _ => rfl
  · rw [List.concat_eq_append] at *
    have hread : (init ++ [x]).filter (fun c => past (some x.id) c.id) = [] := by
      refine List.filter_eq_nil_iff.2 fun c hc => ?_
      simp only [past, Option.all_some, decide_eq_true_eq, not_lt]
      rcases List.mem_append.1 hc with hc | hc
      · exact le_of_lt ((List.pairwise_append.1 hfront).2.2 c hc x (List.mem_singleton_self x))
      · rw [List.mem_singleton.1 hc]
    have hkeep : rest.filter (fun c => past (some x.id) c.id) = rest :=
      List.filter_eq_self.2 fun c hc => by simpa [past] using hcross x (by simp) c hc
    rw [List.getLast?_concat, Option.map_some, List.filter_append, hread, hkeep, List.nil_append]

/-- A page of a reader that has been given the first chunks of a tidy stream. -/
theorem Tidy.getChunks_eq (h : Tidy (streamRows tenantId name t)) {limit : Nat} {cursor : Option Cursor}
    {front rest : List LogicalStreamChunk} (hafter : After limit cursor front)
    (hsplit : (logicalStream tenantId name t).chunks = front ++ rest) :
    getChunks tenantId name { limit, cursor } t =
      .ok (pageOf { limit, cursor } (logicalStream tenantId name t).closed rest) := by
  have hinc := chunks_increasing h.laidOut
  rw [hsplit] at hinc
  rw [Streams.getChunks_eq h.laidOut.legible, hsplit, hafter.filter_past hinc]

/-- The indices of a page. -/
theorem After.index {limit : Nat} {cursor : Option Cursor} {front rest : List LogicalStreamChunk}
    (h : After limit cursor front) (done : Bool) (hsmall : (front ++ rest).length ≤ 2 ^ 53) :
    (pageOf { limit, cursor } done rest).data.map (·.1) = List.range' front.length (rest.take limit).length := by
  cases rest with
  | nil => simp [pageOf]
  | cons c rest =>
    have hbase := h.counts (by simp at hsmall; omega)
    refine List.ext_getElem (by simp [pageOf]) fun i h₁ h₂ => ?_
    simp [pageOf, hbase]

theorem baseIndex_of_lt {limit n : Nat} {c : Option String} (h : n < 2 ^ 53) :
    (GetChunksOptions.mk limit (some ⟨c, some (n : Int)⟩)).baseIndex = n := by
  have hsafe : (isSafeInteger (n : Int) && decide ((0 : Int) ≤ n)) = true := by
    simp only [isSafeInteger, Bool.and_eq_true, decide_eq_true_eq]
    omega
  simp only [GetChunksOptions.baseIndex, Option.bind_some, Option.filter, hsafe, if_true, Option.getD_some,
    Int.toNat_natCast]

/-- The cursor of a page that has more to come is that of a reader that has been given its chunks too. -/
theorem After.next {limit : Nat} {cursor : Option Cursor} {front rest : List LogicalStreamChunk}
    (h : After limit cursor front) (hl : 1 ≤ limit) (hnamed : ∀ c ∈ rest, startsWith c.id "chnk_") (done : Bool)
    (hmore : (pageOf { limit, cursor } done rest).hasMore = true) :
    After limit (pageOf { limit, cursor } done rest).cursor (front ++ rest.take limit) := by
  have hlong : rest.length > limit := of_decide_eq_true hmore
  have hne : rest.take limit ≠ [] := by
    intro hnil
    have hlen := congrArg List.length hnil
    simp only [List.length_take, List.length_nil] at hlen
    omega
  obtain ⟨x, hx⟩ : ∃ x, (rest.take limit).getLast? = some x := ⟨_, List.getLast?_eq_some_getLast hne⟩
  have hxn : startsWith x.id "chnk_" := hnamed x (List.mem_of_mem_take (List.mem_of_getLast? hx))
  refine ⟨?_, fun hsmall => ?_⟩
  · rw [pageOf_cursor done hlong hx hxn, List.getLast?_append_of_ne_nil _ hne, hx]
    rfl
  · rw [List.length_append] at hsmall ⊢
    have hbase := h.counts (by omega)
    have hcursor : (pageOf { limit, cursor } done rest).cursor =
        some ⟨some x.id, some ((front.length + (rest.take limit).length : Nat) : Int)⟩ := by
      simp only [pageOf, hlong, decide_true, if_true, hx, Option.map_some, hbase]
    rw [hcursor, baseIndex_of_lt hsmall]

/-- What a reader is given from a cursor on, over whatever the stream goes through. -/
theorem Follows.exact {limit : Nat} (hl : 1 ≤ limit) {cursor : Option Cursor} {ts : List StreamTable}
    {pages : List StreamChunksResponse} (hf : Follows C tenantId name limit cursor ts pages)
    {front : List LogicalStreamChunk} (hafter : After limit cursor front)
    (htidy : ∀ t ∈ ts.head?, Tidy (streamRows tenantId name t))
    (hfront : ∀ t ∈ ts.head?, front <+: (logicalStream tenantId name t).chunks) :
    ∃ tEnd, ts.getLast? = some tEnd ∧ Tidy (streamRows tenantId name tEnd) ∧
      ∃ given, (logicalStream tenantId name tEnd).chunks = front ++ given ∧
        pages.flatMap (·.data.map (·.2)) = given.map (·.data) ∧
        ((front ++ given).length ≤ 2 ^ 53 →
          pages.flatMap (·.data.map (·.1)) = List.range' front.length given.length) ∧
        (∀ page ∈ pages, page.data.length ≤ limit) ∧
        ∀ t ∈ ts, Tidy (streamRows tenantId name t) ∧
          (logicalStream tenantId name t).chunks <+: (logicalStream tenantId name tEnd).chunks := by
  induction hf generalizing front with
  | @change cursor t t' ts pages he hf ih =>
    have ht := htidy t rfl
    obtain ⟨ht', hgrows⟩ := he.grows ht
    obtain ⟨tEnd, hlast, htEnd, given, hgiven, hdata, hindex, hfew, hall⟩ := ih hafter
      (fun _ h => by cases h; exact ht') (fun _ h => by cases h; exact (hfront t rfl).trans hgrows)
    refine ⟨tEnd, by rw [List.getLast?_cons_cons]; exact hlast, htEnd, given, hgiven, hdata, hindex, hfew,
      fun t₀ h₀ => ?_⟩
    rcases List.mem_cons.1 h₀ with rfl | h₀
    · exact ⟨ht, hgrows.trans (hall t' List.mem_cons_self).2⟩
    · exact hall t₀ h₀
  | @more cursor t ts page pages hpage hmore hf ih =>
    have ht := htidy t rfl
    obtain ⟨rest, hsplit⟩ := hfront t rfl
    rw [ht.getChunks_eq hafter hsplit.symm] at hpage
    obtain rfl := Except.ok.inj hpage
    have hnamed : ∀ c ∈ rest, startsWith c.id "chnk_" := fun c hc =>
      startsWith_of_mem_chunks ht.laidOut.legible (by rw [← hsplit]; exact List.mem_append_right _ hc)
    have hnext : front ++ rest.take limit <+: (logicalStream tenantId name t).chunks := by
      rw [← hsplit]
      exact (List.prefix_append_right_inj front).2 (List.take_prefix limit rest)
    obtain ⟨tEnd, hlast, htEnd, given, hgiven, hdata, hindex, hfew, hall⟩ := ih
      (hafter.next hl hnamed _ hmore) (fun _ h => by cases h; exact ht) (fun _ h => by cases h; exact hnext)
    refine ⟨tEnd, hlast, htEnd, rest.take limit ++ given, by rw [hgiven, List.append_assoc], ?_, fun hsmall => ?_,
      fun page hp => ?_, hall⟩
    · rw [List.flatMap_cons, hdata, pageOf_data, List.map_append]
    · rw [← List.append_assoc] at hsmall
      have hpage : (front ++ rest).length ≤ 2 ^ 53 := by
        have hle := (hall t List.mem_cons_self).2.length_le
        rw [hgiven] at hle
        rw [← hsplit] at hle
        omega
      rw [List.flatMap_cons, hindex hsmall, hafter.index _ hpage, List.length_append, List.length_append,
        List.range'_append_1]
    · rcases List.mem_cons.1 hp with rfl | hp
      · simp [pageOf]
      · exact hfew page hp
  | @last cursor t page hpage hmore =>
    have ht := htidy t rfl
    obtain ⟨rest, hsplit⟩ := hfront t rfl
    rw [ht.getChunks_eq hafter hsplit.symm] at hpage
    obtain rfl := Except.ok.inj hpage
    have hshort : rest.take limit = rest := by
      have hle : ¬ rest.length > limit := of_decide_eq_false hmore
      exact List.take_of_length_le (not_lt.1 hle)
    refine ⟨t, rfl, ht, rest, hsplit.symm, ?_, fun hsmall => ?_, fun page hp => ?_, fun t₀ h₀ => ?_⟩
    · rw [List.flatMap_singleton, pageOf_data]
      simp only [hshort]
    · rw [List.flatMap_singleton, hafter.index _ hsmall, hshort]
    · obtain rfl := List.mem_singleton.1 hp
      simp [pageOf]
    · obtain rfl := List.mem_singleton.1 h₀
      exact ⟨ht, List.prefix_rfl⟩

/-- A reader of a tidy stream that stays as it is comes to its end. -/
theorem Tidy.follows_ends (h : Tidy (streamRows tenantId name t)) {limit : Nat} (hl : 1 ≤ limit)
    {cursor : Option Cursor} {front rest : List LogicalStreamChunk} (hafter : After limit cursor front)
    (hsplit : (logicalStream tenantId name t).chunks = front ++ rest) :
    ∃ pages, Follows C tenantId name limit cursor [t] pages := by
  generalize hn : rest.length = n
  -- Each page leaves fewer chunks.
  induction n using Nat.strong_induction_on generalizing cursor front rest with
  | _ n ih =>
    have hpage := h.getChunks_eq hafter hsplit
    cases hmore : (pageOf { limit, cursor } (logicalStream tenantId name t).closed rest).hasMore with
    | false => exact ⟨_, .last hpage hmore⟩
    | true =>
      have hlong : rest.length > limit := of_decide_eq_true hmore
      have hnamed : ∀ c ∈ rest, startsWith c.id "chnk_" := fun c hc =>
        startsWith_of_mem_chunks h.laidOut.legible (by rw [hsplit]; exact List.mem_append_right _ hc)
      obtain ⟨pages, hp⟩ := ih (rest.drop limit).length (by rw [List.length_drop]; omega)
        (hafter.next hl hnamed _ hmore) (by rw [List.append_assoc, List.take_append_drop]; exact hsplit) rfl
      exact ⟨_, .more hpage hmore hp⟩

/-- A tidy stream holds what has been committed to it before its first EOF. -/
theorem Tidy.committed_perm (h : Tidy (streamRows tenantId name t)) :
    (logicalStream tenantId name t).chunks.Perm (committed tenantId name t) := by
  refine ((Streams.committed_perm h.laidOut.legible).trans (List.Perm.of_eq ?_)).symm
  refine List.filter_eq_self.2 fun c hc => ?_
  rw [Option.all_eq_true]
  intro eof heof
  obtain ⟨⟨row, hr, he, rfl⟩, -⟩ := findFirstEofChunkId_spec heof
  exact decide_eq_true (lt_eof_of_mem_chunks h.laidOut hr he hc)

/-- Chunk paging is exact. Over whatever a tidy stream goes through between the pages, no page fails, a
reader that the stream waits for comes to its end, and the pages up to the one that says that there is
no more hold every chunk that was committed before it, once, in id order, with the indices 0, 1, 2, …
(which a cursor carries up to 2^53), at most `limit` to a page. -/
theorem chunk_paging_exact {limit : Nat} (hl : 1 ≤ limit) {ts : List StreamTable}
    {pages : List StreamChunksResponse} (ht : Tidy (streamRows tenantId name t))
    (hf : Follows C tenantId name limit none (t :: ts) pages) :
    (∃ (chunks : List LogicalStreamChunk) (tEnd : StreamTable), (t :: ts).getLast? = some tEnd ∧
      chunks.Perm (committed tenantId name tEnd) ∧ chunks.Pairwise (fun a b => a.id < b.id) ∧
      pages.flatMap (·.data.map (·.2)) = chunks.map (·.data) ∧
      (chunks.length ≤ 2 ^ 53 → pages.flatMap (·.data.map (·.1)) = List.range chunks.length) ∧
      ∀ t' ∈ t :: ts, ∀ c ∈ committed tenantId name t', c ∈ chunks) ∧
    (∀ page ∈ pages, page.data.length ≤ limit) ∧
    ∀ t' ∈ t :: ts, (∀ options, ∃ page, getChunks tenantId name options t' = .ok page) ∧
      ∃ pages', Follows C tenantId name limit none [t'] pages' := by
  obtain ⟨tEnd, hlast, htEnd, given, hgiven, hdata, hindex, hfew, hall⟩ := hf.exact hl (.start limit)
    (fun _ h => by cases h; exact ht) (fun _ h => by cases h; exact List.nil_prefix)
  rw [List.nil_append] at hgiven
  refine ⟨⟨given, tEnd, hlast, hgiven ▸ htEnd.committed_perm, hgiven ▸ chunks_increasing htEnd.laidOut, hdata,
    fun hsmall => ?_, fun t' h' c hc => ?_⟩, hfew, fun t' h' => ⟨fun options => ?_, ?_⟩⟩
  · rw [hindex hsmall, List.range_eq_range']
    rfl
  · obtain ⟨htidy, hpre⟩ := hall t' h'
    rw [← hgiven]
    exact hpre.subset (htidy.committed_perm.mem_iff.2 hc)
  · exact ⟨_, Streams.getChunks_eq (hall t' h').1.laidOut.legible options⟩
  · exact (hall t' h').1.follows_ends hl (.start limit) (List.nil_append _).symm

/-! ## A reader of a stream that is rewritten under it -/

/-- Three chunks, in rows of their own. -/
def openTable : StreamTable :=
  [(.legacyWrite "r" "s" [111, 110, 101], ["chnk_00000000000000000000000001"]),
   (.write "r" "s" [116, 119, 111], ["chnk_00000000000000000000000002"]),
   (.write "r" "s" [], ["chnk_00000000000000000000000003"])].foldl (perform (noCompaction.compact false) "t") []

/-- The row of its EOF. -/
def closingRow : StreamRow :=
  { tenantId := "t", chunkId := "chnk_00000000000000000000000004", streamId := "s", runId := some "r", data := [],
    eof := true, codecVersion := none, chunkCount := none, lastChunkId := none }

/-- The closed stream after its rewrite: one block, into which the cursor of the first page points. -/
def packedTable : StreamTable :=
  (packTerminalStreamBlocks noCompaction { maxStreams := 10, compactSnapshots := false } true completedRuns 0
    (openTable ++ [closingRow])).1

theorem tidy_openTable : Tidy (streamRows "t" "s" openTable) := by
  have hw : Written noCompaction openTable := Written.empty.foldl_perform (by decide +kernel)
  exact ⟨hw.apart "t" "s", by unfold Before; decide +kernel⟩

theorem follows_packedTable :
    Follows noCompaction "t" "s" 1 none [openTable, openTable ++ [closingRow], packedTable]
      [⟨[(0, [111, 110, 101])], some ⟨some "chnk_00000000000000000000000001", some 1⟩, true, false⟩,
       ⟨[(1, [116, 119, 111])], some ⟨some "chnk_00000000000000000000000002", some 2⟩, true, true⟩,
       ⟨[(2, [])], none, false, true⟩] := by
  have hclose : Evolves noCompaction "t" "s" openTable (openTable ++ [closingRow]) := by
    have hmints : Mints openTable "t" (.close "r" "s") ["chnk_00000000000000000000000004"] := by decide +kernel
    exact .call false tidy_openTable hmints (by decide +kernel) rfl (by decide +kernel)
  refine .more (by decide +kernel) rfl (.change hclose (.change (.repack _ true completedRuns 0 rfl) ?_))
  exact .more (by decide +kernel) rfl (.last (by decide +kernel) rfl)

theorem chunk_paging_exact_packedTable :
    ∃ chunks : List LogicalStreamChunk, chunks.Perm (committed "t" "s" packedTable) ∧
      chunks.map (·.data) = [[111, 110, 101], [116, 119, 111], []] := by
  obtain ⟨⟨chunks, tEnd, hlast, hperm, -, hdata, -, -⟩, -, -⟩ :=
    chunk_paging_exact (Nat.le_refl 1) tidy_openTable follows_packedTable
  obtain rfl := Option.some.inj hlast
  exact ⟨chunks, hperm, hdata.symm⟩

end WorkflowWorld.Streams
