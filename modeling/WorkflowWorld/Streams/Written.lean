/-
The tables that producers write. One factory mints increasing ids, and mints those of a call at once,
so that the chunks of a call are not interleaved with anything else of its stream, in whatever order
the inserts commit.
-/
import WorkflowWorld.Streams.Layout

namespace WorkflowWorld.Streams

/-! ## Block rows -/

section Blocks

variable {tenantId name : String} {runId : Option String} {chunks : List LogicalStreamChunk}

theorem chunks_of_unpack {row : StreamRow} (h : unpackStreamRow row.toPhysicalStreamRow = .ok chunks) :
    row.chunks = chunks := by
  unfold StreamRow.chunks
  rw [h]

/-- A list of chunks that a block can hold. -/
structure Packable (chunks : List LogicalStreamChunk) : Prop where
  ne_nil : chunks ≠ []
  encodable : ∀ c ∈ chunks, c.Encodable
  named : ∀ c ∈ chunks, startsWith c.id "chnk_"
  length_lt : chunks.length < 2 ^ 53

theorem Packable.unpack (h : Packable chunks) :
    unpackStreamRow (blockRow tenantId runId name (blockOf chunks)).toPhysicalStreamRow = .ok chunks :=
  unpackStreamRow_blockOf h.ne_nil (fun c hc => ⟨h.encodable c hc, h.named c hc⟩) h.length_lt

theorem Packable.chunks_eq (h : Packable chunks) :
    (blockRow tenantId runId name (blockOf chunks)).chunks = chunks := chunks_of_unpack h.unpack

theorem Packable.sound (h : Packable chunks) (hinc : chunks.Pairwise fun a b => a.id < b.id) :
    (blockRow tenantId runId name (blockOf chunks)).Sound := by
  have hc : (blockRow tenantId runId name (blockOf chunks)).chunks = chunks := h.chunks_eq
  refine ⟨by rw [hc, h.unpack], ?_, ?_, ?_, ?_, ?_⟩
  · rw [hc]
    obtain ⟨c, cs, rfl⟩ := List.exists_cons_of_ne_nil h.ne_nil
    rfl
  · rw [hc, List.getLast?_eq_some_getLast h.ne_nil]
    simp [blockRow, PackedStreamBlock.row, blockOf, List.getLast?_eq_some_getLast h.ne_nil]
  · rw [hc]
    rfl
  · rwa [hc]
  · rw [hc]
    exact fun c hc => ⟨h.named c hc, (h.encodable c hc).id_short⟩

theorem Packable.ids_eq (h : Packable chunks) :
    (blockRow tenantId runId name (blockOf chunks)).ids = chunks.map (·.id) := by
  have he : (blockRow tenantId runId name (blockOf chunks)).eof = false := rfl
  rw [StreamRow.ids, he, h.chunks_eq]
  rfl

/-- The groups of chunks that can be packed can. -/
theorem packable_of_mem_groups {maxChunks maxBytes : Int} (hl : BlockLimits maxChunks maxBytes)
    (he : ∀ c ∈ chunks, c.Encodable) (hn : ∀ c ∈ chunks, startsWith c.id "chnk_") {g : List LogicalStreamChunk}
    (hg : g ∈ Greedy.groups (packFull maxChunks maxBytes) [] chunks) : Packable g := by
  have hsub : ∀ c ∈ g, c ∈ chunks := by
    intro c hc
    rw [← List.nil_append chunks, ← Greedy.flatten_groups (packFull maxChunks maxBytes)]
    exact List.mem_flatten.2 ⟨g, hg, hc⟩
  exact ⟨Greedy.ne_nil_of_mem_groups _ hg, fun c hc => he c (hsub c hc), fun c hc => hn c (hsub c hc),
    length_lt_of_mem_groups hl hg⟩

/-- Blocks of chunks in order come one after the other. -/
theorem pairwise_blockRows {gs : List (List LogicalStreamChunk)} (h : ∀ g ∈ gs, Packable g)
    (hinc : gs.flatten.Pairwise fun a b => a.id < b.id) :
    (gs.map fun g => blockRow tenantId runId name (blockOf g)).Pairwise Before := by
  rw [List.pairwise_map]
  refine (List.pairwise_flatten.1 hinc).2.imp_of_mem fun {g g'} hg hg' hlt a ha b hb => ?_
  rw [(h g hg).ids_eq] at ha
  rw [(h g' hg').ids_eq] at hb
  obtain ⟨c, hc, rfl⟩ := List.mem_map.1 ha
  obtain ⟨c', hc', rfl⟩ := List.mem_map.1 hb
  exact hlt c hc c' hc'

end Blocks

/-! ## Producers -/

/-- The ids a call may get: increasing, and on one side of every row of its stream. -/
structure Mints (t : StreamTable) (tenantId : String) (call : Call) (ids : List String) : Prop where
  count : ids.length = call.minted
  chunkIds : ∀ id ∈ ids, isChunkId id
  increasing : ids.Pairwise (· < ·)
  apart : ∀ row ∈ streamRows tenantId call.name t,
    (∀ j ∈ row.ids, ∀ id ∈ ids, j < id) ∨ (∀ j ∈ row.ids, ∀ id ∈ ids, id < j)

/-- The tables that calls of producers lead to. -/
inductive Written (C : SnapshotCompaction) : StreamTable → Prop where
  | empty : Written C []
  | call {t rows : StreamTable} (tenantId : String) (call : Call) (compactSnapshots : Bool) (ids : List String) :
      Written C t → Mints t tenantId call ids →
      call.rows (C.compact compactSnapshots) tenantId ids = .ok rows → Written C (t ++ rows)

/-- What a call adds to its stream. -/
structure Added (tenantId name : String) (ids : List String) (rows : StreamTable) : Prop where
  stream : ∀ row ∈ rows, row.tenantId = tenantId ∧ row.streamId = name
  sound : ∀ row ∈ rows, row.eof = false → row.Sound
  named : ∀ row ∈ rows, startsWith row.chunkId "chnk_"
  ids_mem : ∀ row ∈ rows, ∀ j ∈ row.ids, j ∈ ids
  before : rows.Pairwise Before

theorem Added.streamRows_append {tenantId name tenantId' name' : String} {ids : List String} {t rows : StreamTable}
    (h : Added tenantId' name' ids rows) : streamRows tenantId name (t ++ rows) =
      if tenantId' = tenantId ∧ name' = name then streamRows tenantId name t ++ rows
      else streamRows tenantId name t := by
  have happ : streamRows tenantId name (t ++ rows) = streamRows tenantId name t ++ streamRows tenantId name rows :=
    List.filter_append _ _
  rw [happ]
  split
  · rename_i hs
    congr 1
    refine List.filter_eq_self.2 fun row hrow => ?_
    obtain ⟨h₁, h₂⟩ := h.stream row hrow
    simp [h₁, h₂, hs]
  · rename_i hs
    have hnone : streamRows tenantId name rows = [] := by
      refine List.filter_eq_nil_iff.2 fun row hrow hin => hs ?_
      obtain ⟨h₁, h₂⟩ := h.stream row hrow
      simpa [h₁, h₂] using hin
    rw [hnone, List.append_nil]

theorem startsWith_of_isChunkId {id : String} (h : isChunkId id) : startsWith id "chnk_" := by
  simp only [isChunkId, Bool.and_eq_true, beq_iff_eq] at h
  rw [startsWith, List.isPrefixOf_iff_prefix, ← h.1.1]
  exact List.take_prefix _ _

theorem utf8Encode_length_of_isChunkId {id : String} (h : isChunkId id) : (utf8Encode id).length ≤ 0xffff := by
  have hlen : id.toList.length = 31 := by
    simp only [isChunkId, Bool.and_eq_true, beq_iff_eq] at h
    have h₁ := h.1.2
    rw [List.length_drop] at h₁
    omega
  have hle : (utf8Encode id).length ≤ 4 * id.toList.length := by
    unfold utf8Encode
    generalize id.toList = cs
    induction cs with
    | nil => simp
    | cons c cs ih =>
      have := c.utf8Size_le_four
      rw [List.flatMap_cons, List.length_append, String.length_utf8EncodeChar, List.length_cons]
      omega
  omega

/-- A row that holds one chunk as it is. -/
theorem Added.single {row : StreamRow} {id tenantId name : String} (hid : isChunkId id)
    (hs : row.tenantId = tenantId ∧ row.streamId = name) (hrow : row.chunkId = id) (he : row.eof = false) (hv : row.codecVersion = none ∨ row.codecVersion = some 1)
    (hc : row.chunkCount.getD 1 = 1) (hlast : row.lastChunkId.getD row.chunkId = id) :
    Added tenantId name [id] [row] := by
  have hu : unpackStreamRow row.toPhysicalStreamRow = .ok [⟨id, row.data⟩] := by
    unfold unpackStreamRow
    rw [he, hrow]
    rcases hv with hv | hv <;> rw [hv] <;> rfl
  have hch : row.chunks = [⟨id, row.data⟩] := chunks_of_unpack hu
  refine ⟨by simpa using hs, ?_, by simpa [hrow] using startsWith_of_isChunkId hid, ?_, List.pairwise_singleton _ _⟩
  · rintro row' h' -
    obtain rfl := List.mem_singleton.1 h'
    refine ⟨by rw [hch, hu], by simp [hch, hrow], by simp [hch, hlast], by simp [hch, hc], by simp [hch], ?_⟩
    rw [hch]
    intro c hcm
    obtain rfl := List.mem_singleton.1 hcm
    exact ⟨startsWith_of_isChunkId hid, utf8Encode_length_of_isChunkId hid⟩
  · intro row' h' j hj
    obtain rfl := List.mem_singleton.1 h'
    simpa [StreamRow.ids, he, hch] using hj

theorem Added.closing {row : StreamRow} {id tenantId name : String} (hid : isChunkId id)
    (hs : row.tenantId = tenantId ∧ row.streamId = name) (hrow : row.chunkId = id) (he : row.eof = true) :
    Added tenantId name [id] [row] := by
  refine ⟨by simpa using hs, ?_, by simpa [hrow] using startsWith_of_isChunkId hid, ?_, List.pairwise_singleton _ _⟩
  · rintro row' h' he'
    obtain rfl := List.mem_singleton.1 h'
    rw [he] at he'
    cases he'
  · intro row' h' j hj
    obtain rfl := List.mem_singleton.1 h'
    simpa [StreamRow.ids, he, hrow] using hj

theorem defaultLimits : BlockLimits DEFAULT_STREAM_BLOCK_CHUNKS DEFAULT_STREAM_BLOCK_BYTES := by
  constructor <;> decide

/-- The rows of the blocks that chunks are packed into. -/
theorem added_of_groups {tenantId name : String} {runId : Option String} {maxChunks maxBytes : Int}
    {chunks : List LogicalStreamChunk} (hl : BlockLimits maxChunks maxBytes) (he : ∀ c ∈ chunks, c.Encodable)
    (hn : ∀ c ∈ chunks, startsWith c.id "chnk_") (hinc : chunks.Pairwise fun a b => a.id < b.id) :
    Added tenantId name (chunks.map (·.id))
      ((Greedy.groups (packFull maxChunks maxBytes) [] chunks).map fun g => blockRow tenantId runId name (blockOf g)) := by
  set gs := Greedy.groups (packFull maxChunks maxBytes) [] chunks with hgs
  have hp : ∀ g ∈ gs, Packable g := fun g hg => packable_of_mem_groups hl he hn hg
  have hflat : gs.flatten = chunks := Greedy.flatten_groups _ [] chunks
  rw [← hflat] at hinc
  refine ⟨?_, ?_, ?_, ?_, pairwise_blockRows hp hinc⟩
  · intro row hr
    obtain ⟨g, -, rfl⟩ := List.mem_map.1 hr
    exact ⟨rfl, rfl⟩
  · rintro row hr -
    obtain ⟨g, hg, rfl⟩ := List.mem_map.1 hr
    exact (hp g hg).sound ((List.pairwise_flatten.1 hinc).1 g hg)
  · intro row hr
    obtain ⟨g, hg, rfl⟩ := List.mem_map.1 hr
    obtain ⟨c, cs, rfl⟩ := List.exists_cons_of_ne_nil (hp g hg).ne_nil
    exact (hp _ hg).named c List.mem_cons_self
  · intro row hr j hj
    obtain ⟨g, hg, rfl⟩ := List.mem_map.1 hr
    rw [(hp g hg).ids_eq] at hj
    obtain ⟨c, hc, rfl⟩ := List.mem_map.1 hj
    rw [← hflat]
    exact List.mem_map.2 ⟨c, List.mem_flatten.2 ⟨g, hg, hc⟩, rfl⟩

theorem added_of_rows {rows : StreamTable} {tenantId : String} {call : Call} {ids : List String}
    {compact : Buffer → Buffer} (hcount : ids.length = call.minted) (hids : ∀ id ∈ ids, isChunkId id)
    (hinc : ids.Pairwise (· < ·)) (h : call.rows compact tenantId ids = .ok rows) :
    Added tenantId call.name ids rows := by
  cases call with
  | write runId name chunk =>
    obtain ⟨id, rfl⟩ := List.length_eq_one_iff.1 hcount
    cases h
    rw [List.map_singleton]
    exact Added.single (hids id (List.mem_singleton_self _)) ⟨rfl, rfl⟩ rfl rfl (.inr rfl) rfl rfl
  | legacyWrite runId name chunk =>
    obtain ⟨id, rfl⟩ := List.length_eq_one_iff.1 hcount
    cases h
    rw [List.map_singleton]
    exact Added.single (hids id (List.mem_singleton_self _)) ⟨rfl, rfl⟩ rfl rfl (.inl rfl) rfl rfl
  | close runId name =>
    obtain ⟨id, rfl⟩ := List.length_eq_one_iff.1 hcount
    cases h
    rw [List.map_singleton]
    exact Added.closing (hids id (List.mem_singleton_self _)) ⟨rfl, rfl⟩ rfl rfl
  | writeMulti runId name chunks =>
    simp only [Call.rows] at h
    split at h
    · cases h
      exact ⟨by simp, by simp, by simp, by simp, .nil⟩
    · set zipped := ids.zipWith (fun id chunk => (⟨id, compact chunk⟩ : LogicalStreamChunk)) chunks with hz
      have hmap : zipped.map (·.id) = ids := by
        have hcount : ids.length = chunks.length := hcount
        refine List.ext_getElem (by simp [hz, hcount]) fun i h₁ h₂ => ?_
        simp [hz]
      have hmem : ∀ c ∈ zipped, c.id ∈ ids := fun c hc => by
        rw [← hmap]
        exact List.mem_map.2 ⟨c, hc, rfl⟩
      have hinc : zipped.Pairwise fun a b => a.id < b.id := by
        rwa [← hmap, List.pairwise_map] at hinc
      cases hb : packStreamChunks zipped with
      | error e =>
        rw [hb] at h
        cases h
      | ok blocks =>
        have he := encodable_of_packStreamChunks hb
        rw [packStreamChunks_of_encodable defaultLimits he] at h
        cases h
        rw [List.map_map]
        rw [← hmap]
        exact added_of_groups defaultLimits he (fun c hc => startsWith_of_isChunkId (hids _ (hmem c hc))) hinc

/-! ## Their layout -/

/-- The rows of a stream as producers leave them: no two interleave. -/
structure Apart (rows : StreamTable) : Prop where
  sound : ∀ row ∈ rows, row.eof = false → row.Sound
  named : ∀ row ∈ rows, startsWith row.chunkId "chnk_"
  apart : rows.Pairwise fun row row' => Before row row' ∨ Before row' row

theorem Apart.laidOut {rows : StreamTable} (h : Apart rows) : LaidOut rows where
  sound := h.sound
  named := h.named
  distinct := by
    refine h.apart.imp_of_mem fun {a b} ha hb hab heq => ?_
    have ha' := StreamRow.chunkId_mem_ids (h.sound a ha)
    have hb' := StreamRow.chunkId_mem_ids (h.sound b hb)
    rcases hab with hab | hba
    · exact absurd (hab _ ha' _ hb') (by rw [heq]; exact lt_irrefl _)
    · exact absurd (hba _ hb' _ ha') (by rw [heq]; exact lt_irrefl _)
  apart := h.apart.imp fun hab => hab.imp_right .inl

/-- Rows of one call, added to a stream on one side of whose rows they are. -/
theorem Apart.append {tenantId name : String} {ids : List String} {rows new : StreamTable} (h : Apart rows)
    (hadd : Added tenantId name ids new)
    (hside : ∀ row ∈ rows, (∀ j ∈ row.ids, ∀ id ∈ ids, j < id) ∨ (∀ j ∈ row.ids, ∀ id ∈ ids, id < j)) :
    Apart (rows ++ new) where
  sound row hr := (List.mem_append.1 hr).elim (h.sound row) (hadd.sound row)
  named row hr := (List.mem_append.1 hr).elim (h.named row) (hadd.named row)
  apart := by
    refine List.pairwise_append.2 ⟨h.apart, hadd.before.imp .inl, fun row hr row' hr' => ?_⟩
    rcases hside row hr with hlt | hlt
    · exact .inl fun a ha b hb => hlt a ha b (hadd.ids_mem row' hr' b hb)
    · exact .inr fun b hb a ha => hlt a ha b (hadd.ids_mem row' hr' b hb)

/-- The rows of a stream that producers write do not interleave. -/
theorem Written.apart {C : SnapshotCompaction} {t : StreamTable} (h : Written C t) (tenantId name : String) :
    Apart (streamRows tenantId name t) := by
  induction h with
  | empty => exact ⟨by simp [streamRows], by simp [streamRows], .nil⟩
  | @call t rows tenantId' call compactSnapshots ids ht hm hr ih =>
    have hadd := added_of_rows hm.count hm.chunkIds hm.increasing hr
    rw [hadd.streamRows_append]
    split
    · rename_i hs
      obtain ⟨rfl, rfl⟩ := hs
      exact ih.append hadd hm.apart
    · exact ih

/-! ## Sequences of calls -/

/-- Chunks as they are. -/
def noCompaction : SnapshotCompaction := ⟨id, fun _ => Iff.rfl⟩

instance (t : StreamTable) (tenantId : String) (call : Call) (ids : List String) : Decidable (Mints t tenantId call ids) :=
  decidable_of_iff (ids.length = call.minted ∧ (∀ id ∈ ids, isChunkId id) ∧ ids.Pairwise (· < ·) ∧
    ∀ row ∈ streamRows tenantId call.name t,
      (∀ j ∈ row.ids, ∀ id ∈ ids, j < id) ∨ (∀ j ∈ row.ids, ∀ id ∈ ids, id < j))
    ⟨fun h => ⟨h.1, h.2.1, h.2.2.1, h.2.2.2⟩, fun h => ⟨h.count, h.chunkIds, h.increasing, h.apart⟩⟩

/-- The table after a call; one that throws has inserted nothing. -/
def perform (compact : Buffer → Buffer) (tenantId : String) (t : StreamTable) (step : Call × List String) :
    StreamTable :=
  match step.1.rows compact tenantId step.2 with
  | .ok rows => t ++ rows
  | .error _ => t

/-- The ids of the calls are such as a factory mints. -/
def mintsAll (compact : Buffer → Buffer) (tenantId : String) : StreamTable → List (Call × List String) → Bool
  | _, [] => true
  | t, step :: steps =>
    decide (Mints t tenantId step.1 step.2) && mintsAll compact tenantId (perform compact tenantId t step) steps

theorem Written.foldl_perform {C : SnapshotCompaction} {compactSnapshots : Bool} {tenantId : String} {t : StreamTable}
    (h : Written C t) {steps : List (Call × List String)}
    (hm : mintsAll (C.compact compactSnapshots) tenantId t steps) :
    Written C (steps.foldl (perform (C.compact compactSnapshots) tenantId) t) := by
  induction steps generalizing t with
  | nil => exact h
  | cons step steps ih =>
    rw [mintsAll, Bool.and_eq_true, decide_eq_true_eq] at hm
    refine ih ?_ hm.2
    unfold perform
    split
    · rename_i rows hr
      exact .call tenantId step.1 compactSnapshots step.2 h hm.1 hr
    · exact h

end WorkflowWorld.Streams
