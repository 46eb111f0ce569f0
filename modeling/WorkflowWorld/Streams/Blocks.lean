/-
Packed stream blocks (`src/stream-blocks.ts`): several logical chunks of a stream in one row, each
behind a header with the length of its id (16 bits) and of its data (32 bits), big-endian.
-/
import WorkflowWorld.Lists.Greedy
import Mathlib.Data.String.Basic
import Mathlib.Algebra.Ring.Int.Defs
import Mathlib.Algebra.GroupWithZero.Nat

namespace WorkflowWorld.Streams

/-- The bytes of a `Buffer`. -/
abbrev Buffer := List UInt8

def PACKED_STREAM_CODEC_VERSION : Int := 2
def DEFAULT_STREAM_BLOCK_CHUNKS : Int := 64
def DEFAULT_STREAM_BLOCK_BYTES : Int := 256 * 1024
def ENTRY_HEADER_BYTES : Nat := 6

structure LogicalStreamChunk where
  id : String
  data : Buffer
  deriving DecidableEq, Repr

structure PackedStreamBlock where
  firstChunkId : String
  lastChunkId : String
  chunkCount : Nat
  codecVersion : Int
  data : Buffer
  deriving DecidableEq, Repr

structure PhysicalStreamRow where
  chunkId : String
  lastChunkId : Option String
  chunkCount : Option Int
  codecVersion : Option Int
  data : Buffer
  eof : Bool
  deriving DecidableEq, Repr

inductive StreamError where
  | notPositiveInteger (name : String)
  | idTooLong
  | outOfRange
  | unsupportedCodec (version : Int)
  | malformed
  deriving DecidableEq, Repr

def StreamError.message : StreamError → String
  | .notPositiveInteger name => name ++ " must be a positive safe integer"
  | .idTooLong => "stream chunk id is too long to pack"
  | .outOfRange => "The value of \"value\" is out of range."
  | .unsupportedCodec version => "Unsupported packed stream codec version " ++ toString version
  | .malformed => "Malformed packed stream block"

def isSafeInteger (value : Int) : Bool := -(2 ^ 53) < value && value < 2 ^ 53

def assertPositiveInteger (value : Int) (name : String) : Except StreamError Unit :=
  if !isSafeInteger value || value ≤ 0 then .error (.notPositiveInteger name) else .ok ()

/-! ## UTF-8 -/

/-- `Buffer.from(s, "utf8")`. -/
def utf8Encode (s : String) : Buffer := s.toList.flatMap String.utf8EncodeChar

/-- The length of the sequence a lead byte announces; 1 for a byte that leads none. -/
def sequenceLength (lead : UInt8) : Nat :=
  if 0xC2 ≤ lead && lead ≤ 0xDF then 2
  else if 0xE0 ≤ lead && lead ≤ 0xEF then 3
  else if 0xF0 ≤ lead && lead ≤ 0xF4 then 4
  else 1

def secondByteOk (lead b : UInt8) : Bool :=
  let low : UInt8 := if lead == 0xE0 then 0xA0 else if lead == 0xF0 then 0x90 else 0x80
  let high : UInt8 := if lead == 0xED then 0x9F else if lead == 0xF4 then 0x8F else 0xBF
  low ≤ b && b ≤ high

/-- How many bytes of an ill-formed sequence the decoder replaces by one U+FFFD: its longest part
that starts a well-formed sequence, one byte at least. -/
def replacedBytes (lead : UInt8) : Buffer → Nat
  | [] => 1
  | b₁ :: bs =>
    if sequenceLength lead < 3 || !secondByteOk lead b₁ then 1
    else
      match bs with
      | [] => 2
      | b₂ :: _ => if sequenceLength lead < 4 || !(0x80 ≤ b₂ && b₂ ≤ 0xBF) then 2 else 3

def utf8DecodeChars : Nat → Buffer → List Char
  | 0, _ => []
  | _, [] => []
  | fuel + 1, b :: bs =>
    match (b :: bs).toByteArray.utf8DecodeChar? 0 with
    | some c => c :: utf8DecodeChars fuel ((b :: bs).drop c.utf8Size)
    | none => '\uFFFD' :: utf8DecodeChars fuel ((b :: bs).drop (replacedBytes b bs))

/-- `buffer.toString("utf8")`, which replaces what is not UTF-8 and never fails. -/
def utf8Decode (bytes : Buffer) : String := String.ofList (utf8DecodeChars bytes.length bytes)

/-- Decoding gives back the characters that were encoded. -/
theorem utf8DecodeChars_flatMap (cs : List Char) (fuel : Nat)
    (h : (cs.flatMap String.utf8EncodeChar).length ≤ fuel) :
    utf8DecodeChars fuel (cs.flatMap String.utf8EncodeChar) = cs := by
  induction cs generalizing fuel with
  | nil => cases fuel <;> rfl
  | cons c cs ih =>
    have hpos : 0 < (String.utf8EncodeChar c).length := by
      rw [String.length_utf8EncodeChar]
      exact c.utf8Size_pos
    rw [List.flatMap_cons, List.length_append] at h
    obtain ⟨fuel, rfl⟩ : ∃ k, fuel = k + 1 := ⟨fuel - 1, by omega⟩
    obtain ⟨b, bs, hb⟩ := List.exists_cons_of_ne_nil
      (List.append_ne_nil_of_left_ne_nil (List.ne_nil_of_length_pos hpos) (cs.flatMap String.utf8EncodeChar))
    have hd : (b :: bs).toByteArray.utf8DecodeChar? 0 = some c := by
      rw [← hb, List.toByteArray_append]
      exact ByteArray.utf8DecodeChar?_utf8EncodeChar_append
    rw [List.flatMap_cons, hb, utf8DecodeChars, hd, ← hb]
    simp only
    rw [← String.length_utf8EncodeChar c, List.drop_left, ih fuel (by omega)]

@[simp] theorem utf8Decode_utf8Encode (s : String) : utf8Decode (utf8Encode s) = s := by
  unfold utf8Decode utf8Encode
  rw [utf8DecodeChars_flatMap s.toList _ (Nat.le_refl _), String.ofList_toList]

/-! ## Packing -/

/-- `writeUInt16BE`. -/
def writeUInt16BE (n : Nat) : Buffer := [UInt8.ofNat (n / 256), UInt8.ofNat n]

/-- `writeUInt32BE`. -/
def writeUInt32BE (n : Nat) : Buffer :=
  [UInt8.ofNat (n / 2 ^ 24), UInt8.ofNat (n / 2 ^ 16), UInt8.ofNat (n / 2 ^ 8), UInt8.ofNat n]

/-- The bytes of one chunk in a block. -/
def encodeEntry (chunk : LogicalStreamChunk) : Buffer :=
  writeUInt16BE (utf8Encode chunk.id).length ++ writeUInt32BE chunk.data.length ++ utf8Encode chunk.id ++
    chunk.data

/-- The block of a list of chunks whose lengths fit their fields. -/
def blockOf (chunks : List LogicalStreamChunk) : PackedStreamBlock where
  firstChunkId := (chunks.head?.map (·.id)).getD ""
  lastChunkId := (chunks.getLast?.map (·.id)).getD ""
  chunkCount := chunks.length
  codecVersion := PACKED_STREAM_CODEC_VERSION
  data := chunks.flatMap encodeEntry

/-- `encodeBlock`: `writeUInt32BE` refuses a length that does not fit. The buffer it fills is allocated
with the bytes counted for the pending chunks, which is what their entries take
(`length_encodeEntry`). -/
def encodeBlock (chunks : List LogicalStreamChunk) : Except StreamError PackedStreamBlock :=
  if chunks.all fun c => c.data.length < 2 ^ 32 then .ok (blockOf chunks) else .error .outOfRange

def encodedBytes (chunk : LogicalStreamChunk) : Nat :=
  ENTRY_HEADER_BYTES + (utf8Encode chunk.id).length + chunk.data.length

/-- The loop of `packStreamChunks`: the blocks that come out of the pending chunks and those that
follow. -/
def packFrom (maxChunks maxBytes : Int) (pending : List LogicalStreamChunk) (pendingBytes : Nat) :
    List LogicalStreamChunk → Except StreamError (List PackedStreamBlock)
  | [] =>
    if pending.isEmpty then .ok []
    else (encodeBlock pending).map fun block => [block]
  | chunk :: chunks =>
    if (utf8Encode chunk.id).length > 0xffff then .error .idTooLong
    else if !pending.isEmpty &&
        (decide ((pending.length : Int) ≥ maxChunks) ||
          decide (((pendingBytes + encodedBytes chunk : Nat) : Int) > maxBytes)) then do
      let block ← encodeBlock pending
      let blocks ← packFrom maxChunks maxBytes [chunk] (encodedBytes chunk) chunks
      .ok (block :: blocks)
    else packFrom maxChunks maxBytes (pending ++ [chunk]) (pendingBytes + encodedBytes chunk) chunks

def packStreamChunks (chunks : List LogicalStreamChunk) (maxChunks : Int := DEFAULT_STREAM_BLOCK_CHUNKS)
    (maxBytes : Int := DEFAULT_STREAM_BLOCK_BYTES) : Except StreamError (List PackedStreamBlock) := do
  assertPositiveInteger maxChunks "maxChunks"
  assertPositiveInteger maxBytes "maxBytes"
  packFrom maxChunks maxBytes [] 0 chunks

/-! ## Unpacking -/

def startsWith (s start : String) : Bool := start.toList.isPrefixOf s.toList

def readUInt16BE : Buffer → Nat
  | b₀ :: b₁ :: _ => b₀.toNat * 256 + b₁.toNat
  | _ => 0

def readUInt32BE : Buffer → Nat
  | b₀ :: b₁ :: b₂ :: b₃ :: _ => b₀.toNat * 2 ^ 24 + b₁.toNat * 2 ^ 16 + b₂.toNat * 2 ^ 8 + b₃.toNat
  | _ => 0

/-- The loop of `unpackStreamRow` on the bytes from its offset on. Every entry takes six bytes or
more, so that the number of bytes is fuel enough. -/
def unpackEntries : Nat → Buffer → Except StreamError (List LogicalStreamChunk)
  | _, [] => .ok []
  | 0, _ :: _ => .error .malformed
  | fuel + 1, b :: bs =>
    let bytes := b :: bs
    if bytes.length < ENTRY_HEADER_BYTES then .error .malformed
    else
      let idLength := readUInt16BE bytes
      let dataLength := readUInt32BE (bytes.drop 2)
      let after := ENTRY_HEADER_BYTES + idLength + dataLength
      if after > bytes.length then .error .malformed
      else
        let id := utf8Decode ((bytes.drop ENTRY_HEADER_BYTES).take idLength)
        if !startsWith id "chnk_" then .error .malformed
        else do
          let chunks ← unpackEntries fuel (bytes.drop after)
          .ok (⟨id, (bytes.drop (ENTRY_HEADER_BYTES + idLength)).take dataLength⟩ :: chunks)

def unpackStreamRow (row : PhysicalStreamRow) : Except StreamError (List LogicalStreamChunk) :=
  if row.eof then .ok []
  else
    match row.codecVersion with
    | none | some 1 => .ok [⟨row.chunkId, row.data⟩]
    | some version =>
      if version ≠ PACKED_STREAM_CODEC_VERSION then .error (.unsupportedCodec version)
      else
        match row.chunkCount with
        | none => .error .malformed
        | some expectedCount =>
          if !isSafeInteger expectedCount || expectedCount ≤ 0 then .error .malformed
          else do
            let chunks ← unpackEntries row.data.length row.data
            if (chunks.length : Int) ≠ expectedCount || chunks.head?.map (·.id) ≠ some row.chunkId ||
                chunks.getLast?.map (·.id) ≠ row.lastChunkId then .error .malformed
            else .ok chunks

/-! ## The codec -/

/-- What the fields of an entry can hold. -/
structure LogicalStreamChunk.Encodable (chunk : LogicalStreamChunk) : Prop where
  id_short : (utf8Encode chunk.id).length ≤ 0xffff
  data_short : chunk.data.length < 2 ^ 32

instance (chunk : LogicalStreamChunk) : Decidable chunk.Encodable :=
  decidable_of_iff ((utf8Encode chunk.id).length ≤ 0xffff ∧ chunk.data.length < 2 ^ 32)
    ⟨fun h => ⟨h.1, h.2⟩, fun h => ⟨h.id_short, h.data_short⟩⟩

theorem length_encodeEntry (chunk : LogicalStreamChunk) :
    (encodeEntry chunk).length = encodedBytes chunk := by
  simp [encodeEntry, encodedBytes, writeUInt16BE, writeUInt32BE, ENTRY_HEADER_BYTES]
  omega

theorem readUInt16BE_write (n : Nat) (rest : Buffer) (h : n ≤ 0xffff) :
    readUInt16BE (writeUInt16BE n ++ rest) = n := by
  simp only [writeUInt16BE, List.cons_append, readUInt16BE, UInt8.toNat_ofNat']
  omega

theorem readUInt32BE_write (n : Nat) (rest : Buffer) (h : n < 2 ^ 32) :
    readUInt32BE (writeUInt32BE n ++ rest) = n := by
  simp only [writeUInt32BE, List.cons_append, readUInt32BE, UInt8.toNat_ofNat']
  omega

/-- One entry as the decoder finds it: the bytes of an id, whatever they are, and the data. -/
structure RawEntry where
  idBytes : Buffer
  data : Buffer
  id_short : idBytes.length ≤ 0xffff
  data_short : data.length < 2 ^ 32

/-- The header, the id and the data, in this order. -/
def RawEntry.bytes (entry : RawEntry) : Buffer :=
  writeUInt16BE entry.idBytes.length ++ writeUInt32BE entry.data.length ++ entry.idBytes ++ entry.data

def RawEntry.chunk (entry : RawEntry) : LogicalStreamChunk := ⟨utf8Decode entry.idBytes, entry.data⟩

theorem RawEntry.length_bytes (entry : RawEntry) :
    entry.bytes.length = ENTRY_HEADER_BYTES + entry.idBytes.length + entry.data.length := by
  simp [RawEntry.bytes, writeUInt16BE, writeUInt32BE, ENTRY_HEADER_BYTES]
  omega

/-- Reading one entry back. -/
theorem unpackEntries_bytes (entry : RawEntry) (rest : Buffer) (fuel : Nat)
    (hid : startsWith entry.chunk.id "chnk_") :
    unpackEntries (fuel + 1) (entry.bytes ++ rest) =
      (unpackEntries fuel rest).bind fun chunks => .ok (entry.chunk :: chunks) := by
  have h₁ := readUInt16BE_write entry.idBytes.length
    (writeUInt32BE entry.data.length ++ (entry.idBytes ++ (entry.data ++ rest))) entry.id_short
  have h₂ := readUInt32BE_write entry.data.length (entry.idBytes ++ (entry.data ++ rest)) entry.data_short
  have hlen : (entry.bytes ++ rest).length =
      ENTRY_HEADER_BYTES + entry.idBytes.length + entry.data.length + rest.length := by
    rw [List.length_append, RawEntry.length_bytes]
  have e₀ : entry.bytes ++ rest = writeUInt16BE entry.idBytes.length ++
      (writeUInt32BE entry.data.length ++ (entry.idBytes ++ (entry.data ++ rest))) := by
    simp [RawEntry.bytes]
  have e₂ : (entry.bytes ++ rest).drop 2 =
      writeUInt32BE entry.data.length ++ (entry.idBytes ++ (entry.data ++ rest)) := by
    rw [e₀]
    rfl
  have e₆ : (entry.bytes ++ rest).drop ENTRY_HEADER_BYTES = entry.idBytes ++ (entry.data ++ rest) := by
    rw [e₀]
    rfl
  have eid : (entry.bytes ++ rest).drop (ENTRY_HEADER_BYTES + entry.idBytes.length) = entry.data ++ rest := by
    rw [← List.drop_drop, e₆, List.drop_left]
  have eafter : (entry.bytes ++ rest).drop
      (ENTRY_HEADER_BYTES + entry.idBytes.length + entry.data.length) = rest := by
    rw [← List.drop_drop, eid, List.drop_left]
  rw [← e₀] at h₁
  rw [← e₂] at h₂
  unfold RawEntry.chunk at hid ⊢
  generalize hb : entry.bytes ++ rest = bytes at *
  cases bytes with
  | nil =>
    simp [ENTRY_HEADER_BYTES] at hlen
    omega
  | cons b bs =>
    rw [unpackEntries]
    simp only [h₁, h₂, e₆, eid, eafter, List.take_left, hid]
    rw [if_neg (by rw [hlen]; omega), if_neg (by rw [hlen]; omega)]
    rfl

/-- The entry of a chunk whose lengths fit their fields. -/
def LogicalStreamChunk.entry (chunk : LogicalStreamChunk) (h : chunk.Encodable) : RawEntry :=
  ⟨utf8Encode chunk.id, chunk.data, h.id_short, h.data_short⟩

@[simp] theorem LogicalStreamChunk.entry_chunk (chunk : LogicalStreamChunk) (h : chunk.Encodable) :
    (chunk.entry h).chunk = chunk := by
  simp [LogicalStreamChunk.entry, RawEntry.chunk]

theorem unpackEntries_encodeEntry (chunk : LogicalStreamChunk) (rest : Buffer) (fuel : Nat)
    (h : chunk.Encodable) (hid : startsWith chunk.id "chnk_") :
    unpackEntries (fuel + 1) (encodeEntry chunk ++ rest) =
      (unpackEntries fuel rest).bind fun chunks => .ok (chunk :: chunks) := by
  have hb := unpackEntries_bytes (chunk.entry h) rest fuel (by simpa using hid)
  rw [LogicalStreamChunk.entry_chunk] at hb
  exact hb

theorem unpackEntries_flatMap (chunks : List LogicalStreamChunk) (fuel : Nat)
    (h : ∀ c ∈ chunks, c.Encodable ∧ startsWith c.id "chnk_")
    (hfuel : (chunks.flatMap encodeEntry).length ≤ fuel) :
    unpackEntries fuel (chunks.flatMap encodeEntry) = .ok chunks := by
  induction chunks generalizing fuel with
  | nil => cases fuel <;> rfl
  | cons c cs ih =>
    rw [List.flatMap_cons, List.length_append, length_encodeEntry, encodedBytes, ENTRY_HEADER_BYTES] at hfuel
    obtain ⟨fuel, rfl⟩ : ∃ k, fuel = k + 1 := ⟨fuel - 1, by omega⟩
    obtain ⟨hc, hid⟩ := h c List.mem_cons_self
    rw [List.flatMap_cons, unpackEntries_encodeEntry c _ _ hc hid,
      ih fuel (fun c' h' => h c' (List.mem_cons_of_mem _ h')) (by omega)]
    rfl

/-- The row of a block, as it is stored. -/
def PackedStreamBlock.row (block : PackedStreamBlock) : PhysicalStreamRow where
  chunkId := block.firstChunkId
  lastChunkId := some block.lastChunkId
  chunkCount := some block.chunkCount
  codecVersion := some block.codecVersion
  data := block.data
  eof := false

/-- A block gives back the chunks it was made of. -/
theorem unpackStreamRow_blockOf {chunks : List LogicalStreamChunk} (hne : chunks ≠ [])
    (h : ∀ c ∈ chunks, c.Encodable ∧ startsWith c.id "chnk_") (hlen : chunks.length < 2 ^ 53) :
    unpackStreamRow (blockOf chunks).row = .ok chunks := by
  have hpos : 0 < chunks.length := List.length_pos_of_ne_nil hne
  have hsafe : (!isSafeInteger chunks.length || decide ((chunks.length : Int) ≤ 0)) = false := by
    simp only [isSafeInteger, Bool.or_eq_false_iff, Bool.not_eq_false', Bool.and_eq_true, decide_eq_true_eq,
      decide_eq_false_iff_not]
    omega
  have hun := unpackEntries_flatMap chunks (chunks.flatMap encodeEntry).length h (Nat.le_refl _)
  have hhead : chunks.head?.map (·.id) = some ((chunks.head?.map (·.id)).getD "") := by
    obtain ⟨c, cs, rfl⟩ := List.exists_cons_of_ne_nil hne
    rfl
  have hlast : chunks.getLast?.map (·.id) = some ((chunks.getLast?.map (·.id)).getD "") := by
    rw [List.getLast?_eq_some_getLast hne]
    rfl
  simp only [unpackStreamRow, PackedStreamBlock.row, blockOf, PACKED_STREAM_CODEC_VERSION, hsafe, hun]
  simp only [← hhead, ← hlast, bind, Except.bind, ne_eq, not_true_eq_false, decide_false, Bool.or_self]
  rfl

/-! ## Packing as grouping -/

/-- A pending block takes no further chunk. -/
def packFull (maxChunks maxBytes : Int) (pending : List LogicalStreamChunk) (chunk : LogicalStreamChunk) : Bool :=
  decide ((pending.length : Int) ≥ maxChunks) ||
    decide ((((pending.map encodedBytes).sum + encodedBytes chunk : Nat) : Int) > maxBytes)

theorem encodeBlock_eq_ok {chunks : List LogicalStreamChunk} (h : ∀ c ∈ chunks, c.Encodable) :
    encodeBlock chunks = .ok (blockOf chunks) := by
  unfold encodeBlock
  rw [if_pos]
  simpa using fun c hc => (h c hc).data_short

variable {maxChunks maxBytes : Int}

theorem packFrom_of_encodable (pending chunks : List LogicalStreamChunk)
    (h : ∀ c ∈ pending ++ chunks, c.Encodable) :
    packFrom maxChunks maxBytes pending (pending.map encodedBytes).sum chunks =
      .ok ((Greedy.groups (packFull maxChunks maxBytes) pending chunks).map blockOf) := by
  fun_induction Greedy.groups (packFull maxChunks maxBytes) pending chunks with
  | case1 => rfl
  | case2 p ps =>
    simp only [packFrom, List.isEmpty_cons, Bool.false_eq_true, if_false]
    rw [encodeBlock_eq_ok (by simpa using h)]
    rfl
  | case3 c cs ih =>
    have hc := (h c (by simp)).id_short
    rw [packFrom, if_neg (by omega), if_neg (by simp)]
    simpa using ih h
  | case4 p ps c cs hf ih =>
    have hc := (h c (by simp)).id_short
    have hp : encodeBlock (p :: ps) = .ok (blockOf (p :: ps)) :=
      encodeBlock_eq_ok fun c' h' => h c' (List.mem_append_left _ h')
    have hcs := ih fun c' h' => h c' (List.mem_append_right _ h')
    simp only [List.map_cons, List.map_nil, List.sum_cons, List.sum_nil, Nat.add_zero] at hcs
    rw [packFrom, if_neg (by omega), if_pos (by simpa [packFull] using hf), hp, hcs]
    rfl
  | case5 p ps c cs hf ih =>
    have hc := (h c (by simp)).id_short
    have hcs := ih (by simpa using h)
    rw [packFrom, if_neg (by omega), if_neg (by simpa [packFull] using hf)]
    rw [List.map_append, List.sum_append] at hcs
    simpa using hcs

theorem encodable_of_encodeBlock {chunks : List LogicalStreamChunk} {block : PackedStreamBlock}
    (hid : ∀ c ∈ chunks, (utf8Encode c.id).length ≤ 0xffff) (h : encodeBlock chunks = .ok block) :
    ∀ c ∈ chunks, c.Encodable := by
  unfold encodeBlock at h
  split at h
  · rename_i hall
    intro c hc
    exact ⟨hid c hc, by simpa using List.all_eq_true.1 hall c hc⟩
  · cases h

/-- What is packed was encodable. -/
theorem encodable_of_packFrom {pending chunks : List LogicalStreamChunk} {n : Nat}
    {blocks : List PackedStreamBlock} (hid : ∀ c ∈ pending, (utf8Encode c.id).length ≤ 0xffff)
    (h : packFrom maxChunks maxBytes pending n chunks = .ok blocks) :
    ∀ c ∈ pending ++ chunks, c.Encodable := by
  induction chunks generalizing pending n blocks with
  | nil =>
    rw [List.append_nil]
    cases pending with
    | nil => simp
    | cons p ps =>
      simp only [packFrom, List.isEmpty_cons, Bool.false_eq_true, if_false] at h
      cases hb : encodeBlock (p :: ps) with
      | error e =>
        rw [hb] at h
        cases h
      | ok block => exact encodable_of_encodeBlock hid hb
  | cons c cs ih =>
    rw [packFrom] at h
    split at h
    · cases h
    · rename_i hc
      split at h
      · cases hb : encodeBlock pending with
        | error e =>
          rw [hb] at h
          cases h
        | ok block =>
          rw [hb] at h
          cases hr : packFrom maxChunks maxBytes [c] (encodedBytes c) cs with
          | error e =>
            simp only [hr, bind, Except.bind] at h
            cases h
          | ok rest =>
            intro c' hc'
            rcases List.mem_append.1 hc' with hp | hcs
            · exact encodable_of_encodeBlock hid hb c' hp
            · exact ih (by simpa using hc) hr c' hcs
      · intro c' hc'
        have hid' : ∀ c'' ∈ pending ++ [c], (utf8Encode c''.id).length ≤ 0xffff := fun c'' h'' => ?_
        · exact ih hid' h c' (by simpa using hc')
        rcases List.mem_append.1 h'' with hp | hs
        · exact hid c'' hp
        · obtain rfl := List.mem_singleton.1 hs
          omega

/-- The limits `packStreamChunks` accepts. -/
structure BlockLimits (maxChunks maxBytes : Int) : Prop where
  maxChunks_pos : 0 < maxChunks
  maxChunks_safe : maxChunks < 2 ^ 53
  maxBytes_pos : 0 < maxBytes
  maxBytes_safe : maxBytes < 2 ^ 53

theorem assertPositiveInteger_eq_ok {value : Int} {name : String} :
    assertPositiveInteger value name = .ok () ↔ 0 < value ∧ value < 2 ^ 53 := by
  unfold assertPositiveInteger isSafeInteger
  split
  · rename_i h
    simp only [Bool.or_eq_true, Bool.not_eq_true', Bool.and_eq_false_iff, decide_eq_false_iff_not,
      decide_eq_true_eq] at h
    constructor
    · rintro ⟨⟩
    · rintro ⟨h₁, h₂⟩
      omega
  · rename_i h
    simp only [Bool.or_eq_true, Bool.not_eq_true', Bool.and_eq_false_iff, decide_eq_false_iff_not,
      decide_eq_true_eq, not_or, not_not] at h
    simp only [true_iff]
    omega

/-- Packing groups the chunks greedily, and makes a block of each group. -/
theorem packStreamChunks_of_encodable {chunks : List LogicalStreamChunk} (hl : BlockLimits maxChunks maxBytes)
    (h : ∀ c ∈ chunks, c.Encodable) :
    packStreamChunks chunks maxChunks maxBytes =
      .ok ((Greedy.groups (packFull maxChunks maxBytes) [] chunks).map blockOf) := by
  have h₁ : assertPositiveInteger maxChunks "maxChunks" = .ok () :=
    assertPositiveInteger_eq_ok.2 ⟨hl.maxChunks_pos, hl.maxChunks_safe⟩
  have h₂ : assertPositiveInteger maxBytes "maxBytes" = .ok () :=
    assertPositiveInteger_eq_ok.2 ⟨hl.maxBytes_pos, hl.maxBytes_safe⟩
  unfold packStreamChunks
  rw [h₁, h₂]
  exact packFrom_of_encodable [] chunks h

theorem encodable_of_packStreamChunks {chunks : List LogicalStreamChunk} {blocks : List PackedStreamBlock}
    (h : packStreamChunks chunks maxChunks maxBytes = .ok blocks) : ∀ c ∈ chunks, c.Encodable := by
  unfold packStreamChunks at h
  cases h₁ : assertPositiveInteger maxChunks "maxChunks" with
  | error e =>
    rw [h₁] at h
    cases h
  | ok _ =>
    cases h₂ : assertPositiveInteger maxBytes "maxBytes" with
    | error e =>
      rw [h₁, h₂] at h
      cases h
    | ok _ =>
      rw [h₁, h₂] at h
      exact encodable_of_packFrom (List.forall_mem_nil _) h

/-- A block holds no more chunks than it may, so its count is a safe integer. -/
theorem length_lt_of_mem_groups (hl : BlockLimits maxChunks maxBytes) {chunks g : List LogicalStreamChunk}
    (h : g ∈ Greedy.groups (packFull maxChunks maxBytes) [] chunks) : g.length < 2 ^ 53 := by
  have hn := hl.maxChunks_pos
  have hs := hl.maxChunks_safe
  have hle := Greedy.length_le_of_mem_groups (packFull maxChunks maxBytes) (n := maxChunks.toNat) (by omega)
    (fun g a hg => by
      simp only [packFull, Bool.or_eq_true, decide_eq_true_eq]
      left
      omega)
    (by simp) h
  omega

end WorkflowWorld.Streams
