/-
What repacking does to the reads of a stream. The rewrite packs every data row of the stream, those
after its first EOF too, and the readers take a block whole when its first id is before that EOF: the
reads stay what they were exactly when a block starts at the first EOF.
-/
import WorkflowWorld.Streams.Repack
import WorkflowWorld.Streams.Written

namespace WorkflowWorld.Streams

/-! ## Reads -/

/-- A page with its chunk data replaced. -/
def StreamChunksResponse.mapData (f : Buffer → Buffer) (page : StreamChunksResponse) : StreamChunksResponse :=
  { page with data := page.data.map fun (index, data) => (index, f data) }

def Delivery.mapData (f : Buffer → Buffer) (delivery : Delivery) : Delivery :=
  { delivery with enqueued := delivery.enqueued.map f }

/-- Every read of a stream gives the same on two tables, up to a change of the chunk data. -/
structure SameReads (f : Buffer → Buffer) (tenantId name : String) (t t' : StreamTable) : Prop where
  getChunks : ∀ options, getChunks tenantId name options t' = (getChunks tenantId name options t).map (·.mapData f)
  getInfo : getInfo tenantId name t' = getInfo tenantId name t
  get : ∀ startIndex buffer,
    get tenantId name startIndex buffer t' = (get tenantId name startIndex buffer t).map (·.mapData f)

section Reads

variable {tenantId name : String} {t t' : StreamTable}

/-- The readers see nothing but the rows of their stream. -/
theorem sameReads_of_streamRows (h : streamRows tenantId name t' = streamRows tenantId name t) :
    SameReads id tenantId name t t' := by
  have heof : findFirstEofChunkId tenantId name t' = findFirstEofChunkId tenantId name t := by
    unfold findFirstEofChunkId
    rw [h]
  have hdata : dataRows tenantId name t' = dataRows tenantId name t := by
    unfold dataRows
    rw [h, heof]
  have hpage : ∀ options, Streams.getChunks tenantId name options t' = Streams.getChunks tenantId name options t := by
    intro options
    unfold Streams.getChunks
    rw [hdata, heof]
  have hget : ∀ startIndex buffer,
      Streams.get tenantId name startIndex buffer t' = Streams.get tenantId name startIndex buffer t := by
    intro startIndex buffer
    unfold Streams.get
    rw [h]
  refine ⟨fun options => ?_, ?_, fun startIndex buffer => ?_⟩
  · rw [hpage]
    cases Streams.getChunks tenantId name options t <;> simp [Except.map, StreamChunksResponse.mapData]
  · unfold Streams.getInfo
    rw [hdata, heof]
  · rw [hget]
    cases Streams.get tenantId name startIndex buffer t <;> simp [Except.map, Delivery.mapData]

theorem pageOf_map_compacted (f : Buffer → Buffer) (options : GetChunksOptions) (done : Bool)
    (l : List LogicalStreamChunk) :
    pageOf options done (l.map (·.compacted f)) = (pageOf options done l).mapData f := by
  have hdata : ((l.map (·.compacted f)).take options.limit).mapIdx
        (fun index row => (options.baseIndex + index, row.data)) =
      ((l.take options.limit).mapIdx fun index row => (options.baseIndex + index, row.data)).map
        fun (index, data) => (index, f data) := by
    refine List.ext_getElem (by simp) fun i h₁ h₂ => ?_
    simp [LogicalStreamChunk.compacted]
  unfold pageOf StreamChunksResponse.mapData
  simp only [hdata]
  simp only [List.length_map, ← List.map_take, List.getLast?_map, Option.map_map]
  rfl

/-- Two closed streams that hold the same chunks up to their data are read alike. -/
theorem sameReads_of_logicalStream {f : Buffer → Buffer} (hf : ∀ data, f data = [] ↔ data = [])
    (h : LaidOut (streamRows tenantId name t)) (h' : LaidOut (streamRows tenantId name t'))
    (hc : (logicalStream tenantId name t).closed = true) (hc' : (logicalStream tenantId name t').closed = true)
    (hchunks : (logicalStream tenantId name t').chunks =
      (logicalStream tenantId name t).chunks.map (·.compacted f)) :
    SameReads f tenantId name t t' := by
  refine ⟨fun options => ?_, ?_, fun startIndex buffer => ?_⟩
  · rw [getChunks_eq h.legible, getChunks_eq h'.legible, hc, hc', hchunks, List.filter_map]
    exact congrArg Except.ok (pageOf_map_compacted f options true _)
  · rw [getInfo_eq h.legible, getInfo_eq h'.legible, hc, hc', hchunks, List.length_map]
  · have hempty : ((fun data : Buffer => !data.isEmpty) ∘ f) = fun data => !data.isEmpty := by
      funext data
      have := hf data
      cases hd : data with
      | nil => simp [(hf []).2 rfl]
      | cons b bs =>
        cases hfd : f (b :: bs) with
        | nil => exact absurd ((hf _).1 hfd) (List.cons_ne_nil _ _)
        | cons _ _ => simp [hfd]
    rw [get_eq_of_closed h hc, get_eq_of_closed h' hc']
    simp only [Except.map, Delivery.mapData, LogicalStream.offset, hchunks, List.length_map]
    rw [← List.map_drop, List.map_map]
    have hdata : (fun c : LogicalStreamChunk => c.data) ∘ (fun c : LogicalStreamChunk => c.compacted f) =
        f ∘ fun c : LogicalStreamChunk => c.data := rfl
    rw [hdata, ← List.map_map, List.filter_map, hempty]

end Reads

/-! ## The rewrite of one stream -/

/-- The chunks after the first EOF. -/
def hiddenChunks (tenantId name : String) (t : StreamTable) : List LogicalStreamChunk :=
  (((orderById (streamRows tenantId name t)).dropWhile fun row => !row.eof).filter fun row => !row.eof).flatMap
    (·.chunks)

/-- The compacted chunks of a stream, which the rewrite packs. -/
def packed (compact : Buffer → Buffer) (tenantId name : String) (t : StreamTable) : List LogicalStreamChunk :=
  ((logicalStream tenantId name t).chunks ++ hiddenChunks tenantId name t).map (·.compacted compact)

/-- The lengths of the compacted chunks fit the fields of a block. -/
def canPack (compact : Buffer → Buffer) (tenantId name : String) (t : StreamTable) : Bool :=
  (packed compact tenantId name t).all fun c => decide c.Encodable

/-- A block starts at the first EOF: there is nothing before it or nothing after it, or the block that
is pending there has no room for the first chunk after it. -/
def splitsAtFirstEof (compact : Buffer → Buffer) (maxChunks maxBytes : Int) (tenantId name : String)
    (t : StreamTable) : Bool :=
  Greedy.cuts (packFull maxChunks maxBytes) ((logicalStream tenantId name t).chunks.map (·.compacted compact))
    ((hiddenChunks tenantId name t).map (·.compacted compact))

/-- The rows of the blocks that replace the data rows of a stream. -/
def packedRows (compact : Buffer → Buffer) (maxChunks maxBytes : Int) (candidate : Candidate) (t : StreamTable) :
    StreamTable :=
  (Greedy.groups (packFull maxChunks maxBytes) [] (packed compact candidate.tenantId candidate.streamId t)).map
    fun g => blockRow candidate.tenantId candidate.runId candidate.streamId (blockOf g)

/-- The table after the rewrite of a stream. -/
def repacked (compact : Buffer → Buffer) (maxChunks maxBytes : Int) (candidate : Candidate) (t : StreamTable) :
    StreamTable :=
  (t.filter (fun row => !(candidate.owns row && !row.eof)) ++ packedRows compact maxChunks maxBytes candidate t).map
    fun row =>
      if candidate.owns row && row.eof then
        markPacked ((packed compact candidate.tenantId candidate.streamId t).getLast?.map (·.id)) row
      else row

section OneStream

variable {compact : Buffer → Buffer} {maxChunks maxBytes : Int} {candidate : Candidate} {t : StreamTable}

/-- The data rows of a stream hold the chunks before its first EOF and those after it. -/
theorem flatMap_dataRows (tenantId name : String) (t : StreamTable) :
    ((orderById (streamRows tenantId name t)).filter fun row => !row.eof).flatMap (·.chunks) =
      (logicalStream tenantId name t).chunks ++ hiddenChunks tenantId name t := by
  have hsplit := List.takeWhile_append_dropWhile (p := fun row : StreamRow => !row.eof)
    (l := orderById (streamRows tenantId name t))
  have hfilter : (visibleRows tenantId name t).filter (fun row => !row.eof) = visibleRows tenantId name t :=
    List.filter_eq_self.2 fun row hr => by simpa using List.mem_takeWhile_imp (p := fun row : StreamRow => !row.eof) hr
  rw [← hsplit, List.filter_append, List.flatMap_append]
  change ((visibleRows tenantId name t).filter _).flatMap _ ++ _ = _
  rw [hfilter]
  rfl

/-- The logical chunks the rewrite unpacks. -/
theorem unpackRows_deleted (h : Apart (streamRows candidate.tenantId candidate.streamId t)) :
    unpackRows (orderById (t.filter fun row => candidate.owns row && !row.eof)) =
      .ok ((logicalStream candidate.tenantId candidate.streamId t).chunks ++
        hiddenChunks candidate.tenantId candidate.streamId t) := by
  have hdel : (t.filter fun row => candidate.owns row && !row.eof) =
      (streamRows candidate.tenantId candidate.streamId t).filter fun row => !row.eof := by
    unfold streamRows
    rw [List.filter_filter]
    refine List.filter_congr fun row _ => ?_
    rw [Bool.and_comm]
    rfl
  rw [hdel, h.laidOut.legible.orderById_filter, unpackRows_of_sound, flatMap_dataRows]
  intro row hr
  obtain ⟨hr, he⟩ := List.mem_filter.1 hr
  exact h.sound row ((orderById_perm _).mem_iff.1 hr) (by simpa using he)

theorem compactOneStream_of_canPack (hl : BlockLimits maxChunks maxBytes)
    (h : Apart (streamRows candidate.tenantId candidate.streamId t))
    (hp : canPack compact candidate.tenantId candidate.streamId t) :
    ∃ n, compactOneStream compact maxChunks maxBytes candidate t =
      .ok (repacked compact maxChunks maxBytes candidate t, n) := by
  have he : ∀ c ∈ packed compact candidate.tenantId candidate.streamId t, c.Encodable := by
    simpa [canPack] using hp
  have hpack := packStreamChunks_of_encodable hl he
  unfold packed at hpack
  unfold compactOneStream
  simp only [unpackRows_deleted h, bind, Except.bind, hpack]
  exact ⟨_, congrArg Except.ok (Prod.ext (by simp only [repacked, packedRows, packed, List.map_map,
    Function.comp_def]) rfl)⟩

theorem compactOneStream_of_not_canPack (maxChunks maxBytes : Int)
    (h : Apart (streamRows candidate.tenantId candidate.streamId t))
    (hp : ¬ canPack compact candidate.tenantId candidate.streamId t) :
    ∃ e, compactOneStream compact maxChunks maxBytes candidate t = .error e := by
  cases hb : packStreamChunks (packed compact candidate.tenantId candidate.streamId t) maxChunks maxBytes with
  | error e =>
    unfold packed at hb
    unfold compactOneStream
    simp only [unpackRows_deleted h, bind, Except.bind, hb]
    exact ⟨e, rfl⟩
  | ok blocks =>
    refine absurd ?_ hp
    simpa [canPack] using encodable_of_packStreamChunks hb

theorem streamRows_map {f : StreamRow → StreamRow} (hf : ∀ row, (f row).tenantId = row.tenantId ∧
    (f row).streamId = row.streamId) (tenantId name : String) (t : StreamTable) :
    streamRows tenantId name (t.map f) = (streamRows tenantId name t).map f := by
  unfold streamRows
  rw [List.filter_map]
  congr 1
  refine List.filter_congr fun row _ => ?_
  simp [(hf row).1, (hf row).2]

theorem streamRows_packedRows : streamRows candidate.tenantId candidate.streamId
    (packedRows compact maxChunks maxBytes candidate t) = packedRows compact maxChunks maxBytes candidate t := by
  refine List.filter_eq_self.2 fun row hr => ?_
  obtain ⟨g, -, rfl⟩ := List.mem_map.1 hr
  simp [blockRow]

/-- The rewritten stream: its EOF rows, marked, and the rows of the blocks. -/
theorem streamRows_repacked :
    streamRows candidate.tenantId candidate.streamId (repacked compact maxChunks maxBytes candidate t) =
      ((streamRows candidate.tenantId candidate.streamId t).filter (·.eof)).map
        (markPacked ((packed compact candidate.tenantId candidate.streamId t).getLast?.map (·.id))) ++
      packedRows compact maxChunks maxBytes candidate t := by
  unfold repacked
  rw [streamRows_map (fun row => by split <;> exact ⟨rfl, rfl⟩)]
  have happ : ∀ a b : StreamTable, streamRows candidate.tenantId candidate.streamId (a ++ b) =
      streamRows candidate.tenantId candidate.streamId a ++ streamRows candidate.tenantId candidate.streamId b :=
    fun a b => List.filter_append _ _
  have hrem : streamRows candidate.tenantId candidate.streamId
      (t.filter fun row => !(candidate.owns row && !row.eof)) =
      (streamRows candidate.tenantId candidate.streamId t).filter (·.eof) := by
    unfold streamRows
    rw [List.filter_filter, List.filter_filter]
    refine List.filter_congr fun row _ => ?_
    cases ho : candidate.owns row <;> simp only [Candidate.owns] at ho <;> simp [ho]
  rw [happ, hrem, streamRows_packedRows, List.map_append]
  congr 1
  · refine List.map_congr_left fun row hr => ?_
    obtain ⟨hr, he⟩ := List.mem_filter.1 hr
    have ho : candidate.owns row = true := (List.mem_filter.1 hr).2
    rw [ho, he]
    rfl
  · refine (List.map_congr_left fun row hr => ?_).trans (List.map_id _)
    obtain ⟨g, -, rfl⟩ := List.mem_map.1 hr
    have he : (blockRow candidate.tenantId candidate.runId candidate.streamId (blockOf g)).eof = false := rfl
    simp [he]

/-- A rewrite of the candidate's rows keeps the rows of the other streams. -/
theorem streamRows_rewrite_of_ne {tenantId name : String} {new : StreamTable} (mark : StreamRow → StreamRow)
    (hmark : ∀ row, (mark row).tenantId = row.tenantId ∧ (mark row).streamId = row.streamId)
    (hnew : ∀ row ∈ new, candidate.owns row)
    (hne : ¬ (candidate.tenantId = tenantId ∧ candidate.streamId = name)) :
    streamRows tenantId name ((t.filter (fun row => !(candidate.owns row && !row.eof)) ++ new).map fun row =>
      if candidate.owns row && row.eof then mark row else row) = streamRows tenantId name t := by
  have hown : ∀ row : StreamRow, (row.tenantId == tenantId && row.streamId == name) = true →
      candidate.owns row = false := by
    intro row hrow
    simp only [Bool.and_eq_true, beq_iff_eq] at hrow
    rw [← Bool.not_eq_true]
    intro ho
    simp only [Candidate.owns, Bool.and_eq_true, beq_iff_eq] at ho
    exact hne ⟨ho.1.symm.trans hrow.1, ho.2.symm.trans hrow.2⟩
  have hnone : streamRows tenantId name new = [] := by
    refine List.filter_eq_nil_iff.2 fun row hr hrow => ?_
    have hno := hown _ hrow
    rw [hnew row hr] at hno
    cases hno
  have hrem : streamRows tenantId name (t.filter fun row => !(candidate.owns row && !row.eof)) =
      streamRows tenantId name t := by
    unfold streamRows
    rw [List.filter_filter]
    refine List.filter_congr fun row _ => ?_
    cases hrow : (row.tenantId == tenantId && row.streamId == name) with
    | false => rfl
    | true => simp [hown row hrow]
  rw [streamRows_map (fun row => by split; exact hmark row; exact ⟨rfl, rfl⟩)]
  have happ : ∀ a b : StreamTable, streamRows tenantId name (a ++ b) =
      streamRows tenantId name a ++ streamRows tenantId name b := fun a b => List.filter_append _ _
  rw [happ, hrem, hnone, List.append_nil]
  refine (List.map_congr_left fun row hr => ?_).trans (List.map_id _)
  simp [hown row (List.mem_filter.1 hr).2]

/-- The other streams keep their rows. -/
theorem streamRows_repacked_of_ne {tenantId name : String}
    (hne : ¬ (candidate.tenantId = tenantId ∧ candidate.streamId = name)) :
    streamRows tenantId name (repacked compact maxChunks maxBytes candidate t) = streamRows tenantId name t := by
  refine streamRows_rewrite_of_ne (markPacked _) (fun _ => ⟨rfl, rfl⟩) (fun row hr => ?_) hne
  obtain ⟨g, -, rfl⟩ := List.mem_map.1 hr
  simp [Candidate.owns, blockRow]

/-- Whatever the rewrite of a stream finds, the other streams keep their rows. -/
theorem streamRows_compactOneStream_of_ne {tenantId name : String} {t' : StreamTable} {n : Nat × Nat × Nat}
    (h : compactOneStream compact maxChunks maxBytes candidate t = .ok (t', n))
    (hne : ¬ (candidate.tenantId = tenantId ∧ candidate.streamId = name)) :
    streamRows tenantId name t' = streamRows tenantId name t := by
  unfold compactOneStream at h
  cases hu : unpackRows (orderById (t.filter fun row => candidate.owns row && !row.eof)) with
  | error e =>
    simp only [hu, bind, Except.bind] at h
    cases h
  | ok chunks =>
    cases hb : packStreamChunks (chunks.map (·.compacted compact)) maxChunks maxBytes with
    | error e =>
      simp only [hu, hb, bind, Except.bind] at h
      cases h
    | ok blocks =>
      simp only [hu, hb, bind, Except.bind] at h
      cases h
      refine streamRows_rewrite_of_ne (markPacked _) (fun _ => ⟨rfl, rfl⟩) (fun row hr => ?_) hne
      obtain ⟨block, -, rfl⟩ := List.mem_map.1 hr
      simp [Candidate.owns, blockRow]

/-! ### Where the first EOF falls -/

/-- The chunks of a closed stream around its first EOF. -/
structure AroundEof (tenantId name : String) (t : StreamTable) (eof : StreamRow) : Prop where
  mem : eof ∈ streamRows tenantId name t
  isEof : eof.eof = true
  first : findFirstEofChunkId tenantId name t = some eof.chunkId
  least : ∀ row ∈ streamRows tenantId name t, row.eof = true → eof.chunkId ≤ row.chunkId
  before : ∀ c ∈ (logicalStream tenantId name t).chunks, c.id < eof.chunkId
  after : ∀ c ∈ hiddenChunks tenantId name t, eof.chunkId < c.id
  increasing : ((logicalStream tenantId name t).chunks ++ hiddenChunks tenantId name t).Pairwise fun a b => a.id < b.id

theorem pairwise_before_of_apart {rows : StreamTable} (h : Apart rows) : (orderById rows).Pairwise Before := by
  have hapart := h.apart.perm (orderById_perm rows).symm fun hab => hab.symm
  refine (h.laidOut.legible.pairwise_chunkId.and hapart).imp_of_mem ?_
  rintro a b ha hb ⟨hlt, hab | hba⟩
  · exact hab
  · have ha' := h.laidOut.legible.mem_ids ((orderById_perm rows).mem_iff.1 ha)
    have hb' := h.laidOut.legible.mem_ids ((orderById_perm rows).mem_iff.1 hb)
    exact absurd (hba _ hb' _ ha') (not_lt.2 (le_of_lt hlt))

theorem exists_aroundEof {tenantId name : String} (h : Apart (streamRows tenantId name t))
    (hc : (logicalStream tenantId name t).closed = true) : ∃ eof, AroundEof tenantId name t eof := by
  obtain ⟨eof, rest, hS, he⟩ := orderById_eq_of_closed hc
  have hpw := pairwise_before_of_apart h
  have hmem : eof ∈ streamRows tenantId name t := (orderById_perm _).mem_iff.1 (by rw [hS]; simp)
  have hids : ∀ row ∈ orderById (streamRows tenantId name t), row.eof = false → ∀ c ∈ row.chunks, c.id ∈ row.ids := by
    intro row _ hrow c hcr
    simpa [StreamRow.ids, hrow] using ⟨c, hcr, rfl⟩
  have hdata : (((orderById (streamRows tenantId name t)).filter fun row => !row.eof).flatMap (·.chunks)).Pairwise
      fun a b => a.id < b.id := by
    refine List.pairwise_flatMap.2 ⟨fun row hr => ?_, ?_⟩
    · obtain ⟨hr, hrow⟩ := List.mem_filter.1 hr
      exact (h.sound row ((orderById_perm _).mem_iff.1 hr) (by simpa using hrow)).increasing
    · refine (hpw.filter _).imp_of_mem fun {a b} ha hb hab x hx y hy => ?_
      obtain ⟨ha, hae⟩ := List.mem_filter.1 ha
      obtain ⟨hb, hbe⟩ := List.mem_filter.1 hb
      exact hab _ (hids a ha (by simpa using hae) x hx) _ (hids b hb (by simpa using hbe) y hy)
  have hdrop : (orderById (streamRows tenantId name t)).dropWhile (fun row => !row.eof) = eof :: rest := by
    have := (List.takeWhile_append_dropWhile (p := fun row : StreamRow => !row.eof)
      (l := orderById (streamRows tenantId name t))).trans hS
    exact List.append_cancel_left this
  have hfind : (orderById (streamRows tenantId name t)).find? (·.eof) = some eof := by
    rw [hS, List.find?_append, List.find?_eq_none.2, Option.none_or, List.find?_cons_of_pos (by simpa using he)]
    intro row hr
    simpa using List.mem_takeWhile_imp hr
  rw [flatMap_dataRows] at hdata
  have heid : eof.chunkId ∈ eof.ids := h.laidOut.legible.mem_ids hmem
  refine ⟨eof, hmem, he, by rw [findFirstEofChunkId_eq h.laidOut.legible, hfind]; rfl, fun row hr hrow => ?_,
    fun c hcv => ?_, fun c hch => ?_, hdata⟩
  · have hlt := h.laidOut.legible.pairwise_chunkId
    have hr' := (orderById_perm _).mem_iff.2 hr
    rw [hS] at hlt hr'
    rcases List.mem_append.1 hr' with hv | hv
    · have := List.mem_takeWhile_imp hv
      simp [hrow] at this
    · rcases List.mem_cons.1 hv with rfl | hv
      · exact le_refl _
      · exact le_of_lt (List.rel_of_pairwise_cons (List.pairwise_append.1 hlt).2.1 hv)
  · obtain ⟨row, hr, hcr⟩ := List.mem_flatMap.1 hcv
    rw [hS] at hpw
    exact (List.pairwise_append.1 hpw).2.2 row hr eof List.mem_cons_self _ (ids_of_mem_visibleRows hr hcr) _ heid
  · obtain ⟨row, hr, hcr⟩ := List.mem_flatMap.1 hch
    obtain ⟨hr, hrow⟩ := List.mem_filter.1 hr
    rw [hdrop] at hr
    rcases List.mem_cons.1 hr with rfl | hr
    · rw [he] at hrow
      cases hrow
    · have hrS : row ∈ orderById (streamRows tenantId name t) := by
        rw [hS]
        exact List.mem_append_right _ (List.mem_cons_of_mem _ hr)
      rw [hS] at hpw
      exact List.rel_of_pairwise_cons (List.pairwise_append.1 hpw).2.1 hr _ heid _
        (hids row hrS (by simpa using hrow) c hcr)

theorem eof_of_mem_packedRows {row : StreamRow} (hr : row ∈ packedRows compact maxChunks maxBytes candidate t) :
    row.eof = false := by
  obtain ⟨g, -, rfl⟩ := List.mem_map.1 hr
  rfl

/-- The EOF rows keep their ids. -/
theorem findFirstEofChunkId_repacked :
    findFirstEofChunkId candidate.tenantId candidate.streamId (repacked compact maxChunks maxBytes candidate t) =
      findFirstEofChunkId candidate.tenantId candidate.streamId t := by
  set mark := markPacked ((packed compact candidate.tenantId candidate.streamId t).getLast?.map (·.id)) with hm
  have hrows : (streamRows candidate.tenantId candidate.streamId
      (repacked compact maxChunks maxBytes candidate t)).filter (·.eof) =
      ((streamRows candidate.tenantId candidate.streamId t).filter (·.eof)).map mark := by
    have hnone : (packedRows compact maxChunks maxBytes candidate t).filter (·.eof) = [] :=
      List.filter_eq_nil_iff.2 fun row hr => by simp [eof_of_mem_packedRows hr]
    rw [streamRows_repacked, List.filter_append, hnone, List.append_nil]
    refine List.filter_eq_self.2 fun row hr => ?_
    obtain ⟨row', hr', rfl⟩ := List.mem_map.1 hr
    exact (List.mem_filter.1 hr').2
  have hsort : ∀ rows : StreamTable, orderById (rows.map mark) = (orderById rows).map mark := fun rows =>
    (List.map_insertionSort _ _ mark rows fun a _ b _ => Iff.rfl).symm
  unfold findFirstEofChunkId
  rw [hrows, hsort, List.head?_map, Option.map_map]
  rfl

/-- The rows read after the rewrite are the blocks that start before the first EOF. -/
theorem dataRows_repacked {eof : StreamRow}
    (he : AroundEof candidate.tenantId candidate.streamId t eof) :
    dataRows candidate.tenantId candidate.streamId (repacked compact maxChunks maxBytes candidate t) =
      (Greedy.starting (fun c => decide (c.id < eof.chunkId))
        (Greedy.groups (packFull maxChunks maxBytes) []
          (packed compact candidate.tenantId candidate.streamId t))).map fun g =>
            blockRow candidate.tenantId candidate.runId candidate.streamId (blockOf g) := by
  unfold dataRows
  rw [findFirstEofChunkId_repacked, he.first, streamRows_repacked, List.filter_append]
  refine (congrArg (· ++ _) (List.filter_eq_nil_iff.2 fun row hr => ?_)).trans ?_
  · obtain ⟨row', hr', rfl⟩ := List.mem_map.1 hr
    have := (List.mem_filter.1 hr').2
    simp [markPacked, this]
  · unfold packedRows Greedy.starting
    rw [List.nil_append, List.filter_map]
    congr 1
    refine List.filter_congr fun g hg => ?_
    obtain ⟨c, cs, rfl⟩ := List.exists_cons_of_ne_nil (Greedy.ne_nil_of_mem_groups _ hg)
    rfl

/-- `getInfo` after the rewrite counts the chunks of these blocks. -/
theorem getInfo_repacked {eof : StreamRow} (he : AroundEof candidate.tenantId candidate.streamId t eof) :
    (getInfo candidate.tenantId candidate.streamId (repacked compact maxChunks maxBytes candidate t)).tailIndex =
      ((Greedy.starting (fun c => decide (c.id < eof.chunkId))
        (Greedy.groups (packFull maxChunks maxBytes) []
          (packed compact candidate.tenantId candidate.streamId t))).flatten.length : Int) - 1 := by
  unfold getInfo
  simp only [dataRows_repacked he, List.map_map]
  generalize Greedy.starting _ _ = gs
  congr 1
  induction gs with
  | nil => rfl
  | cons g gs ih =>
    rw [List.map_cons, List.sum_cons, ih, List.flatten_cons, List.length_append]
    simp [blockRow, PackedStreamBlock.row, blockOf]

/-- Where no block starts at the first EOF, `getInfo` counts chunks that come after it. -/
theorem getInfo_repacked_ne (h : Apart (streamRows candidate.tenantId candidate.streamId t)) {eof : StreamRow}
    (he : AroundEof candidate.tenantId candidate.streamId t eof)
    (hs : ¬ splitsAtFirstEof compact maxChunks maxBytes candidate.tenantId candidate.streamId t) :
    getInfo candidate.tenantId candidate.streamId (repacked compact maxChunks maxBytes candidate t) ≠
      getInfo candidate.tenantId candidate.streamId t := by
  intro heq
  have htail := congrArg StreamInfoResponse.tailIndex heq
  rw [getInfo_repacked he, getInfo_eq h.laidOut.legible] at htail
  have hbefore : ∀ c ∈ (logicalStream candidate.tenantId candidate.streamId t).chunks.map (·.compacted compact),
      decide (c.id < eof.chunkId) = true := by
    intro c hc
    obtain ⟨c', hc', rfl⟩ := List.mem_map.1 hc
    exact decide_eq_true (he.before c' hc')
  have hlt := Greedy.length_starting_groups hbefore hs
  rw [← List.map_append, List.length_map] at hlt
  unfold packed at htail
  simp only at htail
  omega

/-! ### A block that starts at the first EOF -/

/-- The id of an EOF is not the id of a chunk. -/
theorem ne_eof_of_mem {tenantId name : String} (h : Apart (streamRows tenantId name t)) {eof : StreamRow}
    (hr : eof ∈ streamRows tenantId name t) (he : eof.eof = true) {c : LogicalStreamChunk}
    (hc : c ∈ (logicalStream tenantId name t).chunks ++ hiddenChunks tenantId name t) : c.id ≠ eof.chunkId := by
  rw [← flatMap_dataRows] at hc
  obtain ⟨row, hrow, hcr⟩ := List.mem_flatMap.1 hc
  obtain ⟨hrow, hdata⟩ := List.mem_filter.1 hrow
  have hrow' := (orderById_perm _).mem_iff.1 hrow
  have hne : row ≠ eof := by
    rintro rfl
    rw [he] at hdata
    cases hdata
  have hcid : c.id ∈ row.ids := by
    have hre : row.eof = false := by simpa using hdata
    simpa [StreamRow.ids, hre] using ⟨c, hcr, rfl⟩
  have heid := h.laidOut.legible.mem_ids hr
  have hsym : Std.Symm fun row row' : StreamRow => Before row row' ∨ Before row' row := ⟨fun _ _ => Or.symm⟩
  rcases h.apart.forall hrow' hr hne with hb | hb
  · exact ne_of_lt (hb _ hcid _ heid)
  · exact ne_of_gt (hb _ heid _ hcid)

theorem startsWith_of_mem_packed {tenantId name : String} (h : Apart (streamRows tenantId name t))
    {c : LogicalStreamChunk} (hc : c ∈ packed compact tenantId name t) : startsWith c.id "chnk_" := by
  obtain ⟨c', hc', rfl⟩ := List.mem_map.1 hc
  rw [← flatMap_dataRows] at hc'
  obtain ⟨row, hrow, hcr⟩ := List.mem_flatMap.1 hc'
  obtain ⟨hrow, hdata⟩ := List.mem_filter.1 hrow
  exact ((h.sound row ((orderById_perm _).mem_iff.1 hrow) (by simpa using hdata)).named c' hcr).1

theorem added_packedRows (hl : BlockLimits maxChunks maxBytes)
    (h : Apart (streamRows candidate.tenantId candidate.streamId t)) {eof : StreamRow}
    (he : AroundEof candidate.tenantId candidate.streamId t eof)
    (hp : canPack compact candidate.tenantId candidate.streamId t) :
    Added candidate.tenantId candidate.streamId
      (((logicalStream candidate.tenantId candidate.streamId t).chunks ++
        hiddenChunks candidate.tenantId candidate.streamId t).map (·.id))
      (packedRows compact maxChunks maxBytes candidate t) := by
  have hids : (packed compact candidate.tenantId candidate.streamId t).map (·.id) =
      ((logicalStream candidate.tenantId candidate.streamId t).chunks ++
        hiddenChunks candidate.tenantId candidate.streamId t).map (·.id) := by
    unfold packed
    rw [List.map_map]
    rfl
  rw [← hids]
  refine added_of_groups hl (by simpa [canPack] using hp) (fun c hc => startsWith_of_mem_packed h hc) ?_
  unfold packed
  rw [List.pairwise_map]
  exact he.increasing

/-- Every block is on one side of the first EOF. -/
theorem side_of_mem_packedRows (hl : BlockLimits maxChunks maxBytes)
    (h : Apart (streamRows candidate.tenantId candidate.streamId t)) {eof : StreamRow}
    (he : AroundEof candidate.tenantId candidate.streamId t eof)
    (hp : canPack compact candidate.tenantId candidate.streamId t)
    (hs : splitsAtFirstEof compact maxChunks maxBytes candidate.tenantId candidate.streamId t) {row : StreamRow}
    (hr : row ∈ packedRows compact maxChunks maxBytes candidate t) :
    (∀ j ∈ row.ids, j < eof.chunkId) ∨ (∀ j ∈ row.ids, eof.chunkId < j) := by
  obtain ⟨g, hg, rfl⟩ := List.mem_map.1 hr
  have hpack : Packable g :=
    packable_of_mem_groups hl (by simpa [canPack] using hp) (fun c hc => startsWith_of_mem_packed h hc) hg
  rw [hpack.ids_eq]
  unfold packed at hg
  rw [List.map_append, Greedy.groups_of_cuts _ hs] at hg
  rcases List.mem_append.1 hg with hg | hg
  · left
    intro j hj
    obtain ⟨c, hc, rfl⟩ := List.mem_map.1 hj
    have hc' := List.mem_flatten.2 ⟨g, hg, hc⟩
    rw [Greedy.flatten_groups, List.nil_append] at hc'
    obtain ⟨c', hc'', rfl⟩ := List.mem_map.1 hc'
    exact he.before c' hc''
  · right
    intro j hj
    obtain ⟨c, hc, rfl⟩ := List.mem_map.1 hj
    have hc' := List.mem_flatten.2 ⟨g, hg, hc⟩
    rw [Greedy.flatten_groups, List.nil_append] at hc'
    obtain ⟨c', hc'', rfl⟩ := List.mem_map.1 hc'
    exact he.after c' hc''

theorem laidOut_repacked (hl : BlockLimits maxChunks maxBytes)
    (h : Apart (streamRows candidate.tenantId candidate.streamId t)) {eof : StreamRow}
    (he : AroundEof candidate.tenantId candidate.streamId t eof)
    (hp : canPack compact candidate.tenantId candidate.streamId t)
    (hs : splitsAtFirstEof compact maxChunks maxBytes candidate.tenantId candidate.streamId t) :
    LaidOut (streamRows candidate.tenantId candidate.streamId
      (repacked compact maxChunks maxBytes candidate t)) := by
  have hadd := added_packedRows hl h he hp
  rw [streamRows_repacked]
  set R := streamRows candidate.tenantId candidate.streamId t with hR
  set mark := markPacked ((packed compact candidate.tenantId candidate.streamId t).getLast?.map (·.id)) with hm
  set B := packedRows compact maxChunks maxBytes candidate t with hB
  have hmark : ∀ row ∈ (R.filter (·.eof)).map mark, ∃ row' ∈ R, row'.eof = true ∧ row = mark row' := by
    intro row hr
    obtain ⟨row', hr', rfl⟩ := List.mem_map.1 hr
    exact ⟨row', (List.mem_filter.1 hr').1, (List.mem_filter.1 hr').2, rfl⟩
  have hids : ∀ row : StreamRow, row.eof = true → (mark row).ids = [row.chunkId] := by
    intro row hrow
    have : (mark row).eof = true := hrow
    rw [StreamRow.ids, if_pos this]
    rfl
  have hBid : ∀ row ∈ B, row.chunkId ∈ row.ids := fun row hr => StreamRow.chunkId_mem_ids (hadd.sound row hr)
  refine ⟨?_, ?_, ?_, ?_⟩
  · intro row hr hrow
    rcases List.mem_append.1 hr with hr | hr
    · obtain ⟨row', -, hrow', rfl⟩ := hmark row hr
      exact absurd (hrow'.symm.trans hrow) (by simp)
    · exact hadd.sound row hr hrow
  · intro row hr
    rcases List.mem_append.1 hr with hr | hr
    · obtain ⟨row', hr', -, rfl⟩ := hmark row hr
      exact h.named row' hr'
    · exact hadd.named row hr
  · refine List.pairwise_append.2 ⟨?_, ?_, fun row hr row' hr' heq => ?_⟩
    · rw [List.pairwise_map]
      exact (h.laidOut.distinct.filter _).imp fun hne => hne
    · refine hadd.before.imp_of_mem fun {a b} ha hb hab => ?_
      exact ne_of_lt (hab _ (hBid a ha) _ (hBid b hb))
    · obtain ⟨row₀, hr₀, hrow₀, rfl⟩ := hmark row hr
      obtain ⟨c, hc, hcid⟩ := List.mem_map.1 (hadd.ids_mem row' hr' _ (hBid row' hr'))
      exact ne_eof_of_mem h hr₀ hrow₀ hc (hcid.trans heq.symm)
  · refine List.pairwise_append.2 ⟨?_, hadd.before.imp .inl, fun row hr row' hr' => ?_⟩
    · rw [List.pairwise_map]
      refine (h.apart.filter _).imp_of_mem fun {a b} ha hb hab => ?_
      have hae := (List.mem_filter.1 ha).2
      have hbe := (List.mem_filter.1 hb).2
      have hia : a.ids = [a.chunkId] := by simp [StreamRow.ids, hae]
      have hib : b.ids = [b.chunkId] := by simp [StreamRow.ids, hbe]
      unfold Before at hab ⊢
      rw [hids a hae, hids b hbe, ← hia, ← hib]
      exact hab.imp_right .inl
    · -- An EOF and a block: they are on the same side of the first EOF only past it.
      obtain ⟨row₀, hr₀, hrow₀, rfl⟩ := hmark row hr
      rcases side_of_mem_packedRows hl h he hp hs hr' with hlt | hlt
      · refine .inr (.inl fun a ha b hb => ?_)
        rw [hids row₀ hrow₀] at hb
        obtain rfl := List.mem_singleton.1 hb
        exact lt_of_lt_of_le (hlt a ha) (he.least row₀ hr₀ hrow₀)
      · rcases eq_or_lt_of_le (he.least row₀ hr₀ hrow₀) with heq | hlt₀
        · refine .inl fun a ha b hb => ?_
          rw [hids row₀ hrow₀] at ha
          obtain rfl := List.mem_singleton.1 ha
          rw [← heq]
          exact hlt b hb
        · refine .inr (.inr ⟨mark eof, List.mem_append_left _ ?_, he.isEof, hlt₀, hlt _ (hBid row' hr')⟩)
          exact List.mem_map.2 ⟨eof, List.mem_filter.2 ⟨he.mem, he.isEof⟩, rfl⟩

/-- Where a block starts at the first EOF, the stream holds the same chunks, compacted. -/
theorem chunks_repacked (hl : BlockLimits maxChunks maxBytes)
    (h : Apart (streamRows candidate.tenantId candidate.streamId t)) {eof : StreamRow}
    (he : AroundEof candidate.tenantId candidate.streamId t eof)
    (hp : canPack compact candidate.tenantId candidate.streamId t)
    (hs : splitsAtFirstEof compact maxChunks maxBytes candidate.tenantId candidate.streamId t) :
    (logicalStream candidate.tenantId candidate.streamId (repacked compact maxChunks maxBytes candidate t)).chunks =
      (logicalStream candidate.tenantId candidate.streamId t).chunks.map (·.compacted compact) := by
  have hadd := added_packedRows hl h he hp
  set before := (logicalStream candidate.tenantId candidate.streamId t).chunks.map (·.compacted compact) with hbf
  have hdata : dataRows candidate.tenantId candidate.streamId (repacked compact maxChunks maxBytes candidate t) =
      (Greedy.groups (packFull maxChunks maxBytes) [] before).map fun g =>
        blockRow candidate.tenantId candidate.runId candidate.streamId (blockOf g) := by
    rw [dataRows_repacked he]
    unfold packed
    rw [List.map_append, Greedy.starting_groups_of_cuts _ _ hs]
    · intro c hc
      obtain ⟨c', hc', rfl⟩ := List.mem_map.1 hc
      exact decide_eq_true (he.before c' hc')
    · intro c hc
      obtain ⟨c', hc', rfl⟩ := List.mem_map.1 hc
      rw [decide_eq_true_eq]
      exact not_lt.2 (le_of_lt (he.after c' hc'))
  have hsub : ∀ c ∈ before, c ∈ packed compact candidate.tenantId candidate.streamId t := by
    intro c hc
    unfold packed
    rw [List.map_append]
    exact List.mem_append_left _ hc
  have hgroups : ∀ g ∈ Greedy.groups (packFull maxChunks maxBytes) [] before, Packable g := fun g hg => by
    refine packable_of_mem_groups hl (fun c hc => ?_) (fun c hc => startsWith_of_mem_packed h (hsub c hc)) hg
    have hall : ∀ c ∈ packed compact candidate.tenantId candidate.streamId t, c.Encodable := by
      simpa [canPack] using hp
    exact hall c (hsub c hc)
  have hbefore : ((Greedy.groups (packFull maxChunks maxBytes) [] before).map fun g =>
      blockRow candidate.tenantId candidate.runId candidate.streamId (blockOf g)).Pairwise Before := by
    refine pairwise_blockRows hgroups ?_
    rw [Greedy.flatten_groups, List.nil_append, hbf, List.pairwise_map]
    exact (List.pairwise_append.1 he.increasing).1
  have hsorted : orderById (dataRows candidate.tenantId candidate.streamId
      (repacked compact maxChunks maxBytes candidate t)) =
      (Greedy.groups (packFull maxChunks maxBytes) [] before).map fun g =>
        blockRow candidate.tenantId candidate.runId candidate.streamId (blockOf g) := by
    rw [hdata]
    refine List.Pairwise.insertionSort_eq (hbefore.imp_of_mem fun {a b} ha hb hab => ?_)
    have hmem : ∀ row ∈ (Greedy.groups (packFull maxChunks maxBytes) [] before).map (fun g =>
        blockRow candidate.tenantId candidate.runId candidate.streamId (blockOf g)), row.chunkId ∈ row.ids := by
      intro row hr
      obtain ⟨g, hg, rfl⟩ := List.mem_map.1 hr
      rw [(hgroups g hg).ids_eq]
      obtain ⟨c, cs, rfl⟩ := List.exists_cons_of_ne_nil (hgroups g hg).ne_nil
      exact List.mem_cons_self
    exact le_of_lt (hab _ (hmem a ha) _ (hmem b hb))
  rw [orderById_dataRows (laidOut_repacked hl h he hp hs).legible] at hsorted
  calc (logicalStream candidate.tenantId candidate.streamId (repacked compact maxChunks maxBytes candidate t)).chunks
      = ((Greedy.groups (packFull maxChunks maxBytes) [] before).map fun g =>
          blockRow candidate.tenantId candidate.runId candidate.streamId (blockOf g)).flatMap (·.chunks) := by
        rw [← hsorted]
        rfl
    _ = (Greedy.groups (packFull maxChunks maxBytes) [] before).flatten := by
        rw [List.flatMap_map, List.flatten_eq_flatMap]
        exact List.flatMap_congr fun g hg => (hgroups g hg).chunks_eq
    _ = before := by rw [Greedy.flatten_groups, List.nil_append]

end OneStream

/-! ## The whole call -/

section Loop

variable {compact : Buffer → Buffer} {maxChunks maxBytes : Int}

/-- The candidate's stream is another one. -/
def Candidate.differs (a b : Candidate) : Prop := ¬ (a.tenantId = b.tenantId ∧ a.streamId = b.streamId)

theorem packed_congr {tenantId name : String} {t t' : StreamTable}
    (h : streamRows tenantId name t' = streamRows tenantId name t) :
    packed compact tenantId name t' = packed compact tenantId name t := by
  unfold packed logicalStream visibleRows hiddenChunks
  rw [h]

theorem streamRows_repacked_congr {candidate : Candidate} {t t' : StreamTable}
    (h : streamRows candidate.tenantId candidate.streamId t' = streamRows candidate.tenantId candidate.streamId t) :
    streamRows candidate.tenantId candidate.streamId (repacked compact maxChunks maxBytes candidate t') =
      streamRows candidate.tenantId candidate.streamId (repacked compact maxChunks maxBytes candidate t) := by
  rw [streamRows_repacked, streamRows_repacked, h]
  unfold packedRows
  rw [packed_congr h]

/-- The candidates that are rewritten: the call ends with an error at the first that cannot be. -/
def packable (compact : Buffer → Buffer) (found : List Candidate) (t : StreamTable) : List Candidate :=
  found.takeWhile fun c => canPack compact c.tenantId c.streamId t

theorem packable_congr {found : List Candidate} {t t' : StreamTable}
    (h : ∀ c ∈ found, streamRows c.tenantId c.streamId t' = streamRows c.tenantId c.streamId t) :
    packable compact found t' = packable compact found t := by
  induction found with
  | nil => rfl
  | cons c found ih =>
    have hc : canPack compact c.tenantId c.streamId t' = canPack compact c.tenantId c.streamId t := by
      unfold canPack
      rw [packed_congr (h c List.mem_cons_self)]
    have ih := ih fun c' h' => h c' (List.mem_cons_of_mem _ h')
    unfold packable at ih ⊢
    rw [List.takeWhile_cons, List.takeWhile_cons, hc, ih]

/-- What the loop leaves: the streams of the packable candidates are rewritten, the others kept. -/
theorem streamRows_compactStreams (compact : Buffer → Buffer) (hl : BlockLimits maxChunks maxBytes) (found : List Candidate) (t : StreamTable)
    (result : PackTerminalStreamBlocksResult) (hdiff : found.Pairwise Candidate.differs)
    (h : ∀ c ∈ found, Apart (streamRows c.tenantId c.streamId t)) :
    (∀ c ∈ packable compact found t,
      streamRows c.tenantId c.streamId (compactStreams compact maxChunks maxBytes found t result).1 =
        streamRows c.tenantId c.streamId (repacked compact maxChunks maxBytes c t)) ∧
    ∀ tenantId name, (∀ c ∈ packable compact found t, ¬ (c.tenantId = tenantId ∧ c.streamId = name)) →
      streamRows tenantId name (compactStreams compact maxChunks maxBytes found t result).1 =
        streamRows tenantId name t := by
  induction found generalizing t result with
  | nil => exact ⟨by simp [packable], fun _ _ _ => rfl⟩
  | cons c found ih =>
    rw [List.pairwise_cons] at hdiff
    by_cases hp : canPack compact c.tenantId c.streamId t
    · obtain ⟨n, hone⟩ := compactOneStream_of_canPack hl (h c List.mem_cons_self) hp
      have hpk : packable compact (c :: found) t = c :: packable compact found t := List.takeWhile_cons_of_pos hp
      have hother : ∀ c' ∈ found, streamRows c'.tenantId c'.streamId (repacked compact maxChunks maxBytes c t) =
          streamRows c'.tenantId c'.streamId t := fun c' h' => streamRows_repacked_of_ne (hdiff.1 c' h')
      have hcongr : packable compact found (repacked compact maxChunks maxBytes c t) = packable compact found t :=
        packable_congr hother
      have hsub : ∀ c' ∈ packable compact found t, c' ∈ found := fun c' h' =>
        (List.takeWhile_prefix _).subset h'
      rw [hpk]
      unfold compactStreams
      rw [hone]
      obtain ⟨n₁, n₂, n₃⟩ := n
      simp only
      obtain ⟨hin, hout⟩ := ih (repacked compact maxChunks maxBytes c t) _ hdiff.2 fun c' h' => by
        rw [hother c' h']
        exact h c' (List.mem_cons_of_mem _ h')
      rw [hcongr] at hin hout
      constructor
      · intro c' h'
        rcases List.mem_cons.1 h' with rfl | h'
        · exact hout _ _ fun c'' h'' hsame => hdiff.1 c'' (hsub c'' h'') ⟨hsame.1.symm, hsame.2.symm⟩
        · rw [hin c' h']
          exact streamRows_repacked_congr (hother c' (hsub c' h'))
      · intro tenantId name hne
        rw [hout tenantId name fun c' h' => hne c' (List.mem_cons_of_mem _ h')]
        exact streamRows_repacked_of_ne (hne c List.mem_cons_self)
    · obtain ⟨e, hone⟩ := compactOneStream_of_not_canPack maxChunks maxBytes (h c List.mem_cons_self) hp
      have hpk : packable compact (c :: found) t = [] := List.takeWhile_cons_of_neg hp
      rw [hpk]
      unfold compactStreams
      rw [hone]
      exact ⟨by simp, fun _ _ _ => rfl⟩

end Loop

section Candidates

variable {runs : List StreamRun} {now : Nat} {t : StreamTable}

theorem mem_of_mem_candidateRows {row : StreamRow} (h : row ∈ candidateRows runs now t) :
    row ∈ t ∧ (dueAt runs now row).isSome := List.mem_filter.1 (List.mem_filter.1 h).1

theorem eof_of_dueAt {row : StreamRow} (h : (dueAt runs now row).isSome) : row.eof = true := by
  unfold dueAt at h
  split at h
  · rename_i he
    exact (Bool.and_eq_true_iff.1 he).1
  · cases h

/-- A candidate comes from an EOF row of its stream. -/
theorem exists_row_of_mem_candidates {maxStreams : Int} {c : Candidate} (h : c ∈ candidates runs now maxStreams t) :
    ∃ row ∈ candidateRows runs now t, row.tenantId = c.tenantId ∧ row.streamId = c.streamId := by
  have hmem := (List.mem_insertionSort _).1 (List.mem_of_mem_take h)
  obtain ⟨row, hr, hc⟩ := List.mem_filterMap.1 hmem
  obtain ⟨n, -, rfl⟩ := Option.map_eq_some_iff.1 hc
  exact ⟨row, hr, rfl, rfl⟩

theorem closed_of_mem_candidates {maxStreams : Int} {c : Candidate} (h : c ∈ candidates runs now maxStreams t) :
    (logicalStream c.tenantId c.streamId t).closed = true := by
  obtain ⟨row, hr, h₁, h₂⟩ := exists_row_of_mem_candidates h
  obtain ⟨hmem, hdue⟩ := mem_of_mem_candidateRows hr
  refine List.any_eq_true.2 ⟨row, List.mem_filter.2 ⟨hmem, ?_⟩, eof_of_dueAt hdue⟩
  simp [h₁, h₂]

/-- No stream is a candidate twice. -/
theorem candidates_pairwise (h : ∀ tenantId name, Apart (streamRows tenantId name t)) (maxStreams : Int) :
    (candidates runs now maxStreams t).Pairwise Candidate.differs := by
  have hrows : (candidateRows runs now t).Pairwise fun a b => ¬ (a.tenantId = b.tenantId ∧ a.streamId = b.streamId) := by
    refine List.pairwise_iff_forall_sublist.2 fun {a b} hsub ⟨ht, hs⟩ => ?_
    have ha := hsub.subset (List.mem_cons_self (a := a))
    have hb := hsub.subset (List.mem_cons_of_mem a (List.mem_singleton_self b))
    -- The two rows are in one stream, so their ids differ, and one is not its first.
    have hsub' : [a, b].Sublist (streamRows a.tenantId a.streamId t) := by
      have := ((hsub.trans List.filter_sublist).trans List.filter_sublist).filter
        fun row : StreamRow => row.tenantId == a.tenantId && row.streamId == a.streamId
      simpa [streamRows, List.filter_cons, ht, hs] using this
    have hne := List.pairwise_iff_forall_sublist.1 (h a.tenantId a.streamId).laidOut.distinct hsub'
    have hmin : ∀ {x y : StreamRow}, x ∈ candidateRows runs now t → y ∈ candidateRows runs now t →
        y.tenantId = x.tenantId → y.streamId = x.streamId → ¬ y.chunkId < x.chunkId := by
      intro x y hx hy h₁ h₂ hlt
      have hx' := (List.mem_filter.1 hx).2
      simp only [Bool.not_eq_true', List.any_eq_false, Bool.and_eq_true, decide_eq_true_eq, beq_iff_eq] at hx'
      exact hx' y (List.mem_filter.1 hy).1 ⟨⟨h₁, h₂⟩, hlt⟩
    rcases lt_or_gt_of_ne hne with hlt | hlt
    · exact hmin hb ha ht hs hlt
    · exact hmin ha hb ht.symm hs.symm hlt
  have hfound := hrows.filterMap (S := Candidate.differs) (fun row =>
    (dueAt runs now row).map fun compactAfter => ⟨row.tenantId, row.streamId, row.runId, compactAfter⟩)
    (fun a a' hne c hc c' hc' => by
      obtain ⟨n, -, rfl⟩ := Option.map_eq_some_iff.1 hc
      obtain ⟨n', -, rfl⟩ := Option.map_eq_some_iff.1 hc'
      exact hne)
  refine List.Pairwise.sublist (List.take_sublist _ _) ?_
  refine hfound.perm (List.perm_insertionSort _ _).symm fun hne heq => hne ⟨heq.1.symm, heq.2.symm⟩

end Candidates

/-- The streams that a call rewrites. -/
def rewritten (C : SnapshotCompaction) (options : PackTerminalStreamBlocksOptions) (locked : Bool)
    (runs : List StreamRun) (now : Nat) (t : StreamTable) : List Candidate :=
  match assertOptions options with
  | .error _ => []
  | .ok () =>
    if !locked then []
    else packable (C.compact options.compactSnapshots) (candidates runs now options.maxStreams t) t

theorem blockLimits_of_assertOptions {options : PackTerminalStreamBlocksOptions} (h : assertOptions options = .ok ()) :
    BlockLimits options.maxChunksPerBlock options.maxBlockBytes := by
  unfold assertOptions at h
  cases h₁ : assertPositiveInteger options.maxStreams "maxStreams" with
  | error e =>
    rw [h₁] at h
    cases h
  | ok _ =>
    cases h₂ : assertPositiveInteger options.maxChunksPerBlock "maxChunksPerBlock" with
    | error e =>
      rw [h₁, h₂] at h
      cases h
    | ok _ =>
      rw [h₁, h₂] at h
      obtain ⟨h₃, h₄⟩ := assertPositiveInteger_eq_ok.1 h₂
      obtain ⟨h₅, h₆⟩ := assertPositiveInteger_eq_ok.1 h
      exact ⟨h₃, h₄, h₅, h₆⟩

theorem compact_eq_nil_iff (C : SnapshotCompaction) (compactSnapshots : Bool) (data : Buffer) :
    C.compact compactSnapshots data = [] ↔ data = [] := by
  cases compactSnapshots with
  | true => exact C.eq_nil_iff data
  | false => exact Iff.rfl

theorem compact_eq_or (C : SnapshotCompaction) (compactSnapshots : Bool) :
    C.compact compactSnapshots = id ∨ C.compact compactSnapshots = C.compactStreamChunk := by
  cases compactSnapshots with
  | true => exact .inr rfl
  | false => exact .inl rfl

/-- Repacking keeps every read of every stream, up to the compaction of chunk data, exactly when in
each stream that it rewrites a block starts at the first EOF. -/
theorem packTerminalStreamBlocks_sameReads {C : SnapshotCompaction} {t : StreamTable} (h : Written C t)
    (options : PackTerminalStreamBlocksOptions) (locked : Bool) (runs : List StreamRun) (now : Nat) :
    (∀ tenantId name, ∃ f, (f = id ∨ f = C.compactStreamChunk) ∧
      SameReads f tenantId name t (packTerminalStreamBlocks C options locked runs now t).1) ↔
    ∀ c ∈ rewritten C options locked runs now t,
      splitsAtFirstEof (C.compact options.compactSnapshots) options.maxChunksPerBlock options.maxBlockBytes
        c.tenantId c.streamId t := by
  have hapart := h.apart
  have hkeep : ∀ tenantId name, ∃ f, (f = id ∨ f = C.compactStreamChunk) ∧ SameReads f tenantId name t t :=
    fun _ _ => ⟨id, .inl rfl, sameReads_of_streamRows rfl⟩
  unfold packTerminalStreamBlocks rewritten
  cases ho : assertOptions options with
  | error e => exact ⟨fun _ _ hc => absurd hc (by simp), fun _ => hkeep⟩
  | ok _ =>
    cases locked with
    | false => exact ⟨fun _ _ hc => absurd hc (by simp), fun _ => hkeep⟩
    | true =>
      simp only [Bool.not_true, Bool.false_eq_true, if_false]
      set compact := C.compact options.compactSnapshots with hcompact
      set found := candidates runs now options.maxStreams t with hfound
      have hl := blockLimits_of_assertOptions ho
      obtain ⟨hin, hout⟩ := streamRows_compactStreams compact hl found t (emptyResult true)
        (candidates_pairwise hapart options.maxStreams) fun c _ => hapart c.tenantId c.streamId
      set t' := (compactStreams compact options.maxChunksPerBlock options.maxBlockBytes found t (emptyResult true)).1
        with ht'
      -- What a rewritten stream is before and after.
      have hstream : ∀ c ∈ packable compact found t, ∃ eof, AroundEof c.tenantId c.streamId t eof ∧
          canPack compact c.tenantId c.streamId t := by
        intro c hc
        have hcf : c ∈ found := (List.takeWhile_prefix _).subset hc
        obtain ⟨eof, he⟩ := exists_aroundEof (hapart c.tenantId c.streamId) (closed_of_mem_candidates hcf)
        exact ⟨eof, he, List.mem_takeWhile_imp (p := fun c : Candidate => canPack compact c.tenantId c.streamId t) hc⟩
      constructor
      · intro hreads c hc
        by_contra hs
        obtain ⟨eof, he, hp⟩ := hstream c hc
        obtain ⟨f, -, hsame⟩ := hreads c.tenantId c.streamId
        refine getInfo_repacked_ne (hapart _ _) he hs ?_
        rw [← hsame.getInfo]
        exact (sameReads_of_streamRows (hin c hc)).getInfo.symm
      · intro hsplit tenantId name
        by_cases hc : ∃ c ∈ packable compact found t, c.tenantId = tenantId ∧ c.streamId = name
        · obtain ⟨c, hc, rfl, rfl⟩ := hc
          obtain ⟨eof, he, hp⟩ := hstream c hc
          have hlaid := laidOut_repacked hl (hapart _ _) he hp (hsplit c hc)
          have hchunks := chunks_repacked hl (hapart _ _) he hp (hsplit c hc)
          have hclosed : (logicalStream c.tenantId c.streamId
              (repacked compact options.maxChunksPerBlock options.maxBlockBytes c t)).closed = true := by
            rw [← isSome_findFirstEofChunkId hlaid.legible, findFirstEofChunkId_repacked, he.first]
            rfl
          have hlog : logicalStream c.tenantId c.streamId t' = logicalStream c.tenantId c.streamId
              (repacked compact options.maxChunksPerBlock options.maxBlockBytes c t) := by
            unfold logicalStream visibleRows
            rw [hin c hc]
          rw [← hin c hc] at hlaid
          rw [← hlog] at hchunks hclosed
          have hcf : c ∈ found := (List.takeWhile_prefix _).subset hc
          exact ⟨compact, compact_eq_or C _, sameReads_of_logicalStream (compact_eq_nil_iff C _)
            (hapart _ _).laidOut hlaid (closed_of_mem_candidates hcf) hclosed hchunks⟩
        · exact ⟨id, .inl rfl, sameReads_of_streamRows
            (hout tenantId name fun c hcm hsame => hc ⟨c, hcm, hsame⟩)⟩

/-- A terminal write whose acknowledgement was lost, and its retry. -/
def retriedTerminalWrite : List (Call × List String) :=
  [(.write "r" "s" [111, 110, 101], ["chnk_00000000000000000000000001"]),
   (.write "r" "s" [116, 119, 111], ["chnk_00000000000000000000000002"]),
   (.close "r" "s", ["chnk_00000000000000000000000003"]),
   (.write "r" "s" [116, 119, 111], ["chnk_00000000000000000000000004"]),
   (.close "r" "s", ["chnk_00000000000000000000000005"])]

def retriedTable : StreamTable := retriedTerminalWrite.foldl (perform (noCompaction.compact false) "t") []

def completedRuns : List StreamRun := [⟨"t", "r", .completed, some 0⟩]

theorem written_retriedTable : Written noCompaction retriedTable :=
  Written.empty.foldl_perform (by decide +kernel)

/-- With two chunks a block, a block starts at the first EOF of the retried write. -/
theorem packTerminalStreamBlocks_sameReads_retried :
    ∃ f, (f = id ∨ f = noCompaction.compactStreamChunk) ∧
      SameReads f "t" "s" retriedTable (packTerminalStreamBlocks noCompaction
        { maxStreams := 10, maxChunksPerBlock := 2 } true completedRuns 0 retriedTable).1 :=
  (packTerminalStreamBlocks_sameReads written_retriedTable _ true completedRuns 0).2 (by decide +kernel) "t" "s"

/-- With the default limits, the chunk that the retry wrote after the first EOF becomes visible. -/
theorem packTerminalStreamBlocks_reads_hidden :
    ¬ ∀ (C : SnapshotCompaction) (t : StreamTable), Written C t →
      ∀ (options : PackTerminalStreamBlocksOptions) (locked : Bool) (runs : List StreamRun) (now : Nat)
        (tenantId name : String), ∃ f, (f = id ∨ f = C.compactStreamChunk) ∧
          SameReads f tenantId name t (packTerminalStreamBlocks C options locked runs now t).1 := by
  intro h
  obtain ⟨f, -, hsame⟩ := h noCompaction retriedTable written_retriedTable { maxStreams := 10 } true completedRuns 0
    "t" "s"
  exact absurd hsame.getInfo (by decide +kernel)

end WorkflowWorld.Streams
