/-
The packed block codec (`src/stream-blocks.ts`) in both directions: packing and unpacking give the
chunks back, and what the decoder accepts is a tiling of its bytes by entries, which encoding its
chunks again reproduces.
-/
import WorkflowWorld.Streams.Blocks
import Mathlib.Data.List.Forall2

namespace WorkflowWorld.Streams

variable {maxChunks maxBytes : Int}

/-! ## From chunks to blocks and back -/

/-- What a block says of the chunks it was made of. -/
structure PackedStreamBlock.Describes (maxChunks maxBytes : Int) (block : PackedStreamBlock)
    (chunks : List LogicalStreamChunk) : Prop where
  unpacked : unpackStreamRow block.row = .ok chunks
  nonempty : 1 ≤ chunks.length
  few : (chunks.length : Int) ≤ maxChunks
  small : (block.data.length : Int) ≤ maxBytes ∨ chunks.length = 1
  first : chunks.head?.map (·.id) = some block.firstChunkId
  last : chunks.getLast?.map (·.id) = some block.lastChunkId
  count : block.chunkCount = chunks.length

theorem length_blockOf_data (chunks : List LogicalStreamChunk) :
    (blockOf chunks).data.length = (chunks.map encodedBytes).sum := by
  simp [blockOf, List.length_flatMap, length_encodeEntry]

/-- A group of the packing has one chunk or takes no more than `maxBytes`. -/
theorem bytes_le_of_mem_groups {chunks g : List LogicalStreamChunk}
    (h : g ∈ Greedy.groups (packFull maxChunks maxBytes) [] chunks) :
    ((blockOf g).data.length : Int) ≤ maxBytes ∨ g.length = 1 := by
  have hg := Greedy.of_mem_groups (packFull maxChunks maxBytes)
    (P := fun g => ((g.map encodedBytes).sum : Int) ≤ maxBytes)
    (fun g c _ hfull => by
      simp only [packFull, Bool.or_eq_true, decide_eq_true_eq, not_or, not_lt, gt_iff_lt] at hfull
      simpa using hfull.2)
    (.inl (by simp)) h
  rw [length_blockOf_data]
  exact hg.symm

theorem blockOf_describes (hl : BlockLimits maxChunks maxBytes) {chunks g : List LogicalStreamChunk}
    (hc : ∀ c ∈ chunks, c.Encodable ∧ startsWith c.id "chnk_")
    (hg : g ∈ Greedy.groups (packFull maxChunks maxBytes) [] chunks) :
    (blockOf g).Describes maxChunks maxBytes g := by
  have hne : g ≠ [] := Greedy.ne_nil_of_mem_groups _ hg
  have hpos := hl.maxChunks_pos
  have hsub : ∀ c ∈ g, c.Encodable ∧ startsWith c.id "chnk_" := fun c hcg => by
    refine hc c ?_
    rw [← List.nil_append chunks, ← Greedy.flatten_groups (packFull maxChunks maxBytes)]
    exact List.mem_flatten.2 ⟨g, hg, hcg⟩
  have hfew := Greedy.length_le_of_mem_groups (packFull maxChunks maxBytes) (n := maxChunks.toNat) (by omega)
    (fun g a hg => by
      simp only [packFull, Bool.or_eq_true, decide_eq_true_eq]
      left
      omega)
    (by simp) hg
  refine ⟨unpackStreamRow_blockOf hne hsub (length_lt_of_mem_groups hl hg), ?_, by omega,
    bytes_le_of_mem_groups hg, ?_, ?_, rfl⟩
  · exact List.length_pos_of_ne_nil hne
  · obtain ⟨c, cs, rfl⟩ := List.exists_cons_of_ne_nil hne
    rfl
  · simp [blockOf, List.getLast?_eq_some_getLast hne]

/-! ## What the decoder accepts -/

/-- Bytes that encode some string. -/
def IsUtf8 (bytes : Buffer) : Prop := ∃ s, utf8Encode s = bytes

theorem writeUInt16BE_read {b₀ b₁ : UInt8} (bs : Buffer) :
    writeUInt16BE (readUInt16BE (b₀ :: b₁ :: bs)) = [b₀, b₁] := by
  have h₀ := b₀.toNat_lt
  have h₁ := b₁.toNat_lt
  simp only [writeUInt16BE, readUInt16BE]
  congr 1
  · apply UInt8.toNat_inj.1
    rw [UInt8.toNat_ofNat']
    omega
  · congr 1
    apply UInt8.toNat_inj.1
    rw [UInt8.toNat_ofNat']
    omega

theorem writeUInt32BE_read (b₀ b₁ b₂ b₃ : UInt8) (bs : Buffer) :
    writeUInt32BE (readUInt32BE (b₀ :: b₁ :: b₂ :: b₃ :: bs)) = [b₀, b₁, b₂, b₃] := by
  have h₀ := b₀.toNat_lt
  have h₁ := b₁.toNat_lt
  have h₂ := b₂.toNat_lt
  have h₃ := b₃.toNat_lt
  simp only [writeUInt32BE, readUInt32BE]
  refine congrArg₂ List.cons ?_ (congrArg₂ List.cons ?_ (congrArg₂ List.cons ?_ (congrArg₂ List.cons ?_ rfl))) <;>
    apply UInt8.toNat_inj.1 <;> rw [UInt8.toNat_ofNat'] <;> omega

theorem readUInt16BE_le (bytes : Buffer) : readUInt16BE bytes ≤ 0xffff := by
  unfold readUInt16BE
  split
  · rename_i b₀ b₁ _
    have h₀ := b₀.toNat_lt
    have h₁ := b₁.toNat_lt
    omega
  · exact Nat.zero_le _

theorem readUInt32BE_lt (bytes : Buffer) : readUInt32BE bytes < 2 ^ 32 := by
  unfold readUInt32BE
  split
  · rename_i b₀ b₁ b₂ b₃ _
    have h₀ := b₀.toNat_lt
    have h₁ := b₁.toNat_lt
    have h₂ := b₂.toNat_lt
    have h₃ := b₃.toNat_lt
    omega
  · exact Nat.two_pow_pos 32

/-- The entry at the start of bytes that hold all of it. -/
theorem exists_entry {bytes : Buffer} (hhead : ENTRY_HEADER_BYTES ≤ bytes.length)
    (hend : ENTRY_HEADER_BYTES + readUInt16BE bytes + readUInt32BE (bytes.drop 2) ≤ bytes.length) :
    ∃ entry : RawEntry,
      entry.idBytes = (bytes.drop ENTRY_HEADER_BYTES).take (readUInt16BE bytes) ∧
      entry.data = (bytes.drop (ENTRY_HEADER_BYTES + readUInt16BE bytes)).take (readUInt32BE (bytes.drop 2)) ∧
      bytes = entry.bytes ++
        bytes.drop (ENTRY_HEADER_BYTES + readUInt16BE bytes + readUInt32BE (bytes.drop 2)) := by
  have hid := readUInt16BE_le bytes
  have hdata := readUInt32BE_lt (bytes.drop 2)
  have hn : ((bytes.drop ENTRY_HEADER_BYTES).take (readUInt16BE bytes)).length = readUInt16BE bytes := by
    rw [List.length_take, List.length_drop]
    omega
  have hm : ((bytes.drop (ENTRY_HEADER_BYTES + readUInt16BE bytes)).take (readUInt32BE (bytes.drop 2))).length =
      readUInt32BE (bytes.drop 2) := by
    rw [List.length_take, List.length_drop]
    omega
  refine ⟨⟨_, _, by rw [hn]; exact hid, by rw [hm]; exact hdata⟩, rfl, rfl, ?_⟩
  unfold RawEntry.bytes
  simp only [hn, hm]
  rw [← List.drop_drop (l := bytes) (j := ENTRY_HEADER_BYTES + readUInt16BE bytes), List.append_assoc,
    List.take_append_drop, ← List.drop_drop, List.append_assoc, List.take_append_drop]
  match bytes, hhead with
  | b₀ :: b₁ :: b₂ :: b₃ :: b₄ :: b₅ :: bs, _ =>
    have hw := writeUInt32BE_read b₂ b₃ b₄ b₅ bs
    rw [writeUInt16BE_read, List.drop_succ_cons, List.drop_succ_cons, List.drop_zero, hw]
    rfl

/-- What the loop returns tiles the bytes by entries. -/
theorem unpackEntries_eq_ok {fuel : Nat} {bytes : Buffer} {chunks : List LogicalStreamChunk}
    (h : unpackEntries fuel bytes = .ok chunks) :
    ∃ entries : List RawEntry, chunks = entries.map RawEntry.chunk ∧ entries.flatMap RawEntry.bytes = bytes := by
  induction fuel generalizing bytes chunks with
  | zero =>
    cases bytes with
    | nil =>
      cases h
      exact ⟨[], rfl, rfl⟩
    | cons b bs => cases h
  | succ fuel ih =>
    cases bytes with
    | nil =>
      cases h
      exact ⟨[], rfl, rfl⟩
    | cons b bs =>
      generalize hb : b :: bs = bytes at h
      rw [← hb, unpackEntries, hb] at h
      simp only at h
      split at h
      · cases h
      rename_i hhead
      split at h
      · cases h
      rename_i hend
      split at h
      · cases h
      obtain ⟨entry, hi, hd, htile⟩ := exists_entry (Nat.le_of_not_lt hhead) (Nat.le_of_not_lt hend)
      cases hrest : unpackEntries fuel
          (bytes.drop (ENTRY_HEADER_BYTES + readUInt16BE bytes + readUInt32BE (bytes.drop 2))) with
      | error e =>
        rw [hrest] at h
        cases h
      | ok rest =>
        rw [hrest] at h
        cases h
        obtain ⟨entries, rfl, hafter⟩ := ih hrest
        refine ⟨entry :: entries, ?_, ?_⟩
        · rw [List.map_cons, RawEntry.chunk, hi, hd]
        · rw [List.flatMap_cons, hafter]
          exact htile.symm

/-- The bytes are fuel enough: the loop ends before it runs out. -/
theorem unpackEntries_fuel {fuel : Nat} {bytes : Buffer} (h : bytes.length ≤ fuel) :
    unpackEntries fuel bytes = unpackEntries bytes.length bytes := by
  induction fuel using Nat.strong_induction_on generalizing bytes with
  | _ fuel ih =>
    cases bytes with
    | nil => cases fuel <;> rfl
    | cons b bs =>
      obtain ⟨fuel, rfl⟩ : ∃ k, fuel = k + 1 := ⟨fuel - 1, by simp at h; omega⟩
      rw [List.length_cons] at h ⊢
      have hrest : ∀ n, 1 ≤ n → unpackEntries fuel ((b :: bs).drop n) = unpackEntries bs.length ((b :: bs).drop n) :=
        fun n hn => by
          have hlen : ((b :: bs).drop n).length ≤ bs.length := by
            rw [List.length_drop, List.length_cons]
            omega
          rw [ih fuel (by omega) (by omega), ih bs.length (by omega) hlen]
      simp only [unpackEntries]
      rw [hrest _ (by unfold ENTRY_HEADER_BYTES; omega)]

/-- Chunks whose ids were valid UTF-8 are encoded as they were found. -/
theorem flatMap_encodeEntry {entries : List RawEntry} (h : ∀ e ∈ entries, IsUtf8 e.idBytes) :
    (entries.map RawEntry.chunk).flatMap encodeEntry = entries.flatMap RawEntry.bytes := by
  rw [List.flatMap_map]
  refine List.flatMap_congr fun e he => ?_
  obtain ⟨s, hs⟩ := h e he
  simp only [RawEntry.chunk, encodeEntry, RawEntry.bytes, ← hs, utf8Decode_utf8Encode]

theorem encodable_of_entries {entries : List RawEntry} (h : ∀ e ∈ entries, IsUtf8 e.idBytes) :
    ∀ c ∈ entries.map RawEntry.chunk, c.Encodable := by
  intro c hc
  obtain ⟨e, he, rfl⟩ := List.mem_map.1 hc
  obtain ⟨s, hs⟩ := h e he
  refine ⟨?_, e.data_short⟩
  have hid := e.id_short
  rw [RawEntry.chunk, ← hs, utf8Decode_utf8Encode, hs]
  exact hid

/-- A packed row: not the end of the stream, and of the packed codec. -/
structure PhysicalStreamRow.Packed (row : PhysicalStreamRow) : Prop where
  eof : row.eof = false
  codecVersion : row.codecVersion = some PACKED_STREAM_CODEC_VERSION

/-- What the decoder returns for a packed row tiles its bytes, and its first id, last id and count are
those of the row. -/
theorem unpackStreamRow_packed {row : PhysicalStreamRow} (hp : row.Packed) {chunks : List LogicalStreamChunk}
    (h : unpackStreamRow row = .ok chunks) :
    ∃ entries : List RawEntry, chunks = entries.map RawEntry.chunk ∧ entries.flatMap RawEntry.bytes = row.data ∧
      row.chunkCount = some (chunks.length : Int) ∧ chunks.head?.map (·.id) = some row.chunkId ∧
      chunks.getLast?.map (·.id) = row.lastChunkId := by
  unfold unpackStreamRow at h
  rw [hp.eof, hp.codecVersion] at h
  simp only [Bool.false_eq_true, if_false, PACKED_STREAM_CODEC_VERSION, ne_eq, not_true_eq_false] at h
  cases hcount : row.chunkCount with
  | none =>
    rw [hcount] at h
    cases h
  | some expectedCount =>
    rw [hcount] at h
    simp only at h
    split at h
    · cases h
    · cases hun : unpackEntries row.data.length row.data with
      | error e =>
        rw [hun] at h
        cases h
      | ok found =>
        rw [hun] at h
        simp only [bind, Except.bind] at h
        split at h
        · cases h
        · rename_i hsame
          cases h
          simp only [Bool.or_eq_true, decide_eq_true_eq, not_or, not_not] at hsame
          obtain ⟨entries, hmap, htile⟩ := unpackEntries_eq_ok hun
          exact ⟨entries, hmap, htile, by rw [hsame.1.1], hsame.1.2, hsame.2⟩

/-- Encoding what was read from a packed row, when its ids are valid UTF-8, gives the row again. -/
theorem encodeBlock_unpacked {row : PhysicalStreamRow} (hp : row.Packed) {entries : List RawEntry}
    (hutf : ∀ e ∈ entries, IsUtf8 e.idBytes) (htile : entries.flatMap RawEntry.bytes = row.data)
    (hcount : row.chunkCount = some ((entries.map RawEntry.chunk).length : Int))
    (hfirst : (entries.map RawEntry.chunk).head?.map (·.id) = some row.chunkId)
    (hlast : (entries.map RawEntry.chunk).getLast?.map (·.id) = row.lastChunkId) :
    ∃ block, encodeBlock (entries.map RawEntry.chunk) = .ok block ∧ block.row = row := by
  refine ⟨_, encodeBlock_eq_ok (encodable_of_entries hutf), ?_⟩
  have hne : entries.map RawEntry.chunk ≠ [] := by
    rintro hnil
    rw [hnil] at hfirst
    cases hfirst
  rw [List.getLast?_eq_some_getLast hne] at hlast
  obtain ⟨chunkId, lastChunkId, chunkCount, codecVersion, data, eof⟩ := row
  obtain ⟨rfl, rfl⟩ := hp
  simp only at hcount hfirst hlast htile
  simp only [PackedStreamBlock.row, blockOf, hfirst, hcount, ← hlast, flatMap_encodeEntry hutf, htile,
    List.getLast?_eq_some_getLast hne, Option.map_some, Option.getD_some]

/-- What the decoder does with every other row. -/
theorem unpackStreamRow_unpacked {row : PhysicalStreamRow} (hp : ¬ row.Packed) :
    unpackStreamRow row =
      if row.eof then .ok []
      else if row.codecVersion.getD 1 = 1 then .ok [⟨row.chunkId, row.data⟩]
      else .error (.unsupportedCodec (row.codecVersion.getD 1)) := by
  unfold unpackStreamRow
  by_cases he : row.eof
  · rw [if_pos he, if_pos he]
  · rw [if_neg he, if_neg he]
    split
    · rename_i h
      rw [h]
      rfl
    · rename_i h
      rw [h]
      rfl
    · rename_i version h₁ h
      have hv : version ≠ PACKED_STREAM_CODEC_VERSION := by
        rintro rfl
        exact hp ⟨by simpa using he, h⟩
      rw [h, if_pos hv, Option.getD_some, if_neg h₁]

/-- The codec in both directions. Within limits `packStreamChunks` accepts, the blocks of chunks whose
ids and data fit their fields partition the chunks in order, each block describes its part, and
unpacking all of them gives the chunks back. A packed row of arbitrary bytes is read to its end
within as many rounds as it has bytes, and either refused or tiled by the headers, ids and data of
the chunks it gives; when their ids are valid UTF-8, encoding these chunks gives the row again. An
end-of-stream row gives no chunk, a row of the codecs before the packed one its single chunk, and a
row of another codec is refused. -/
theorem packed_block_codec (hl : BlockLimits maxChunks maxBytes) :
    (∀ chunks : List LogicalStreamChunk, (∀ c ∈ chunks, c.Encodable ∧ startsWith c.id "chnk_") →
      ∃ blocks parts, packStreamChunks chunks maxChunks maxBytes = .ok blocks ∧
        List.Forall₂ (PackedStreamBlock.Describes maxChunks maxBytes) blocks parts ∧ parts.flatten = chunks) ∧
    (∀ row : PhysicalStreamRow, row.Packed →
      (∀ fuel, row.data.length ≤ fuel →
        unpackEntries fuel row.data = unpackEntries row.data.length row.data) ∧
      ((∃ e, unpackStreamRow row = .error e) ∨
        ∃ entries : List RawEntry, unpackStreamRow row = .ok (entries.map RawEntry.chunk) ∧
          entries.flatMap RawEntry.bytes = row.data ∧
          ((∀ e ∈ entries, IsUtf8 e.idBytes) →
            ∃ block, encodeBlock (entries.map RawEntry.chunk) = .ok block ∧ block.row = row))) ∧
    ∀ row : PhysicalStreamRow, ¬ row.Packed →
      unpackStreamRow row =
        if row.eof then .ok []
        else if row.codecVersion.getD 1 = 1 then .ok [⟨row.chunkId, row.data⟩]
        else .error (.unsupportedCodec (row.codecVersion.getD 1)) := by
  refine ⟨fun chunks hc => ?_, fun row hp => ⟨fun fuel hfuel => unpackEntries_fuel hfuel, ?_⟩,
    fun row hp => unpackStreamRow_unpacked hp⟩
  · refine ⟨_, Greedy.groups (packFull maxChunks maxBytes) [] chunks,
      packStreamChunks_of_encodable hl fun c h => (hc c h).1, ?_, ?_⟩
    · rw [List.forall₂_map_left_iff, List.forall₂_same]
      exact fun g hg => blockOf_describes hl hc hg
    · rw [Greedy.flatten_groups, List.nil_append]
  · cases hu : unpackStreamRow row with
    | error e => exact .inl ⟨e, rfl⟩
    | ok chunks =>
      obtain ⟨entries, rfl, htile, hcount, hfirst, hlast⟩ := unpackStreamRow_packed hp hu
      exact .inr ⟨entries, rfl, htile, fun hutf => encodeBlock_unpacked hp hutf htile hcount hfirst hlast⟩

/-- Two chunks, one of them without data, packed into one block, and the row of that block read. -/
theorem packed_block_codec_two :
    let chunks : List LogicalStreamChunk := [⟨"chnk_a", []⟩, ⟨"chnk_b", [1, 2]⟩]
    (∃ blocks parts, packStreamChunks chunks 2 64 = .ok blocks ∧
      List.Forall₂ (PackedStreamBlock.Describes 2 64) blocks parts ∧ parts.flatten = chunks) ∧
    (blockOf chunks).row.Packed ∧ unpackStreamRow (blockOf chunks).row = .ok chunks ∧
    ((∃ e, unpackStreamRow (blockOf chunks).row = .error e) ∨
      ∃ entries : List RawEntry, unpackStreamRow (blockOf chunks).row = .ok (entries.map RawEntry.chunk) ∧
        entries.flatMap RawEntry.bytes = (blockOf chunks).row.data ∧
        ((∀ e ∈ entries, IsUtf8 e.idBytes) →
          ∃ block, encodeBlock (entries.map RawEntry.chunk) = .ok block ∧ block.row = (blockOf chunks).row)) := by
  intro chunks
  have hl : BlockLimits 2 64 := ⟨by decide, by decide, by decide, by decide⟩
  have hcodec := packed_block_codec hl
  have hp : (blockOf chunks).row.Packed := ⟨rfl, rfl⟩
  have hc : ∀ c ∈ chunks, c.Encodable ∧ startsWith c.id "chnk_" := by decide
  exact ⟨hcodec.1 chunks hc, hp, unpackStreamRow_blockOf (by decide) hc (by decide), (hcodec.2.1 _ hp).2⟩

/-- A row from before the packed codec is one chunk with no header, an end-of-stream row gives no
chunk whatever its bytes, and a limit that is no safe integer is refused. -/
theorem packed_block_codec_unframed :
    let legacy : PhysicalStreamRow := ⟨"chnk_a", none, none, none, [7], false⟩
    let closing : PhysicalStreamRow := ⟨"chnk_b", none, none, none, [7], true⟩
    (unpackStreamRow legacy = .ok [⟨"chnk_a", [7]⟩] ∧
      ¬ ∃ entries : List RawEntry, unpackStreamRow legacy = .ok (entries.map RawEntry.chunk) ∧
        entries.flatMap RawEntry.bytes = legacy.data) ∧
    (unpackStreamRow closing = .ok [] ∧
      ¬ ∃ entries : List RawEntry, unpackStreamRow closing = .ok (entries.map RawEntry.chunk) ∧
        entries.flatMap RawEntry.bytes = closing.data) ∧
    packStreamChunks [⟨"chnk_a", []⟩] (2 ^ 53) 1 = .error (.notPositiveInteger "maxChunks") := by
  -- An entry takes six bytes at least, and one byte is all there is.
  have hone : ∀ entries : List RawEntry, entries.flatMap RawEntry.bytes ≠ [7] := by
    intro entries h
    cases entries with
    | nil => cases h
    | cons e es =>
      have hlen := congrArg List.length h
      rw [List.flatMap_cons, List.length_append, RawEntry.length_bytes, ENTRY_HEADER_BYTES] at hlen
      simp at hlen
      omega
  refine ⟨⟨rfl, ?_⟩, ⟨rfl, ?_⟩, rfl⟩
  · rintro ⟨entries, -, h⟩
    exact hone entries h
  · rintro ⟨entries, -, h⟩
    exact hone entries h

end WorkflowWorld.Streams
