/-
The write-side guard against cumulative snapshots (`src/stream-compaction.ts`). A chunk is a sequence
of frames, each a byte array in devalue's flat format; a frame that carries an event line of an append
loses the cumulative field of the event's data. Whatever is not byte for byte what the encoder would
write is left alone.
-/
import WorkflowWorld.Text.Json
import WorkflowWorld.Streams.Streamer
import WorkflowWorld.Streams.Codec

namespace WorkflowWorld.Streams

open Text

/-! ## The code -/

def FORMAT_TAG : String := "devl"

/-- `buffer.toString("latin1")`. -/
def latin1Decode (bytes : Buffer) : String := String.ofList (bytes.map fun b => Char.ofNat b.toNat)

/-- `buffer.write(s, "latin1")`. -/
def latin1Encode (s : String) : Buffer := s.toList.map fun c => UInt8.ofNat c.toNat

variable {ν : Type}

section Frames

variable (N : Numbers ν)

/-- `JSON.stringify([["Uint8Array", 1], inner.toString("base64")])` as bytes. -/
def framePayload (inner : Buffer) : Buffer :=
  utf8Encode (String.ofList (stringify N
    (.arr [.arr [.str (utf16 "Uint8Array"), .num (N.read ['1'])], .str (Base64.encode inner)])))

/-- `encodeFrame`. A payload that the length field cannot count is longer than any string, so that no
call reaches it. -/
def encodeFrame (inner : Buffer) : Buffer :=
  writeUInt32BE (4 + (framePayload N inner).length) ++ latin1Encode FORMAT_TAG ++ framePayload N inner

variable [DecidableEq ν]

/-- The text of a parsed payload of the expected shape. -/
def wrappedText : Json ν → Option Units
  | .arr [.arr [.str tag, .num n], .str text] =>
    if tag = utf16 "Uint8Array" ∧ n = N.read ['1'] then some text else none
  | _ => none

/-- The loop of `parseFrames` on the rest of the chunk. -/
def parseFramesFrom : Nat → Buffer → Option (List Buffer)
  | _, [] => some []
  | 0, _ => none
  | fuel + 1, chunk =>
    let length := readUInt32BE chunk
    if chunk.length < 8 then none
    else if length < 4 ∨ chunk.length < 4 + length then none
    else if latin1Decode ((chunk.drop 4).take 4) ≠ FORMAT_TAG then none
    else do
      let parsed ← parse N (utf8Decode ((chunk.drop 8).take (length - 4))).toList
      let text ← wrappedText N parsed
      let inner := Base64.decode text
      if encodeFrame N inner ≠ chunk.take (4 + length) then none
      else (parseFramesFrom fuel (chunk.drop (4 + length))).map (inner :: ·)

/-- `parseFrames`: what the frames of the chunk hold. -/
def parseFrames (chunk : Buffer) : Option (List Buffer) :=
  (parseFramesFrom N chunk.length chunk).filter (· ≠ [])

end Frames

/-- `SNAPSHOT_FIELDS[type]`, either field `undefined` where the record has none. -/
structure SnapshotFields where
  deltaKey : Option Units
  soFarKey : Option Units

/-- The names every object literal inherits. -/
def objectPrototypeNames : List Units :=
  ["constructor", "__defineGetter__", "__defineSetter__", "hasOwnProperty", "__lookupGetter__", "__lookupSetter__",
    "isPrototypeOf", "propertyIsEnumerable", "toString", "valueOf", "__proto__", "toLocaleString"].map utf16

/-- `SNAPSHOT_FIELDS` is an object literal: what it inherits is found as well, and has neither field. -/
def snapshotFields (type : Units) : Option SnapshotFields :=
  if type = utf16 "message.appended" then some ⟨utf16 "messageDelta", utf16 "messageSoFar"⟩
  else if type = utf16 "reasoning.appended" then some ⟨utf16 "reasoningDelta", utf16 "reasoningSoFar"⟩
  else if type ∈ objectPrototypeNames then some ⟨none, none⟩
  else none

/-- The property that `object[key]` asks for. -/
def propertyKey (key : Option Units) : Units := key.getD (utf16 "undefined")

/-- `object[key] = value` on an object literal: `__proto__` is the inherited setter, which changes the
prototype at most and creates no member. -/
def assign (object : Members ν) (key : Units) (value : Json ν) : Members ν :=
  if key = utf16 "__proto__" then object else createDataProperty object key value

def withoutSnapshot (data : Members ν) (soFarKey : Option Units) : Members ν :=
  data.foldl (fun rebuilt m => if some m.1 ≠ soFarKey then assign rebuilt m.1 m.2 else rebuilt) []

/-- `typeof value === "object" && value !== null`. -/
def isObject : Json ν → Bool
  | .arr _ => true
  | .obj _ => true
  | _ => false

/-- `typeof value === "string"` of a property that may be absent. -/
def isString : Option (Json ν) → Bool
  | some (.str _) => true
  | _ => false

section Events

variable (N : Numbers ν)

def encodeEventLine (event : Members ν) : Buffer :=
  utf8Encode (String.ofList (stringify N (.obj event) ++ ['\n']))

/-- `parseEventLine`: the members of the event. An array is an object too, but has no `type`. -/
def parseEventLine (inner : Buffer) : Option (Members ν) :=
  let text := (utf8Decode inner).toList
  if text.getLast? ≠ some '\n' then none
  else if '\n' ∈ text.dropLast then none
  else
    match parse N text.dropLast with
    | some (.obj event) =>
      if isString (event.lookup (utf16 "type")) ∧ (event.lookup (utf16 "data")).any isObject ∧
          encodeEventLine N event = inner then some event
      else none
    | _ => none

/-- The data of an event that has a snapshot to strip, and the key of the snapshot. Neither an array
nor `Object.prototype` has a property of the names asked for. -/
def snapshotOf (event : Members ν) : Option (Members ν × Option Units) :=
  match event.lookup (utf16 "type"), event.lookup (utf16 "data") with
  | some (.str type), some (.obj data) =>
    match snapshotFields type with
    | none => none
    | some fields =>
      if isString (data.lookup (propertyKey fields.deltaKey)) ∧ isString (data.lookup (propertyKey fields.soFarKey)) then
        some (data, fields.soFarKey)
      else none
  | _, _ => none

/-- What a frame is rebuilt to, if it is. -/
def rebuildFrame (inner : Buffer) : Option Buffer := do
  let event ← parseEventLine N inner
  let (data, soFarKey) ← snapshotOf event
  return encodeEventLine N
    (createDataProperty (makeObject event) (utf16 "data") (.obj (withoutSnapshot data soFarKey)))

variable [DecidableEq ν]

def compactStreamChunk (chunk : Buffer) : Buffer :=
  match parseFrames N chunk with
  | none => chunk
  | some frames =>
    let changed := frames.any fun inner => (rebuildFrame N inner).isSome
    let rebuilt := frames.map fun inner => (rebuildFrame N inner).getD inner
    if changed then rebuilt.flatMap (encodeFrame N) else chunk

end Events

/-! ## Frames -/

/-- The chunk is the non-empty sequence of canonical frames that hold these byte arrays. -/
structure IsFrames (N : Numbers ν) (chunk : Buffer) (inners : List Buffer) : Prop where
  nonempty : inners ≠ []
  fits : ∀ inner ∈ inners, 4 + (framePayload N inner).length < 2 ^ 32
  eq : chunk = inners.flatMap (encodeFrame N)

variable {N : Numbers ν}

theorem length_encodeFrame (inner : Buffer) : (encodeFrame N inner).length = 8 + (framePayload N inner).length := by
  simp [encodeFrame, writeUInt32BE, latin1Encode, FORMAT_TAG]
  omega

/-- The payload reads back as the value that was written. -/
theorem parse_framePayload (inner : Buffer) :
    parse N (utf8Decode (framePayload N inner)).toList =
      some (.arr [.arr [.str (utf16 "Uint8Array"), .num (N.read ['1'])], .str (Base64.encode inner)]) := by
  rw [framePayload, utf8Decode_utf8Encode, String.toList_ofList, parse_stringify]
  refine .arr fun v hv => ?_
  simp only [List.mem_cons, List.not_mem_nil, or_false] at hv
  rcases hv with rfl | rfl
  · refine .arr fun v hv => ?_
    simp only [List.mem_cons, List.not_mem_nil, or_false] at hv
    rcases hv with rfl | rfl
    · exact .str _
    · exact .num N.print_one rfl
  · exact .str _

section Parsed

variable [DecidableEq ν]

theorem parseFramesFrom_cons {inner : Buffer} (hfits : 4 + (framePayload N inner).length < 2 ^ 32) (rest : Buffer)
    (fuel : Nat) :
    parseFramesFrom N (fuel + 1) (encodeFrame N inner ++ rest) = (parseFramesFrom N fuel rest).map (inner :: ·) := by
  have hlength : readUInt32BE (encodeFrame N inner ++ rest) = 4 + (framePayload N inner).length := by
    rw [encodeFrame, List.append_assoc, List.append_assoc]
    exact readUInt32BE_write _ _ hfits
  have hlen : (encodeFrame N inner ++ rest).length = 8 + (framePayload N inner).length + rest.length := by
    rw [List.length_append, length_encodeFrame]
  have htag : latin1Decode (((encodeFrame N inner ++ rest).drop 4).take 4) = FORMAT_TAG := by
    rfl
  have hpayload : ((encodeFrame N inner ++ rest).drop 8).take (4 + (framePayload N inner).length - 4) =
      framePayload N inner := by
    have hsplit : ∀ (n : Nat) (payload : Buffer),
        (writeUInt32BE n ++ latin1Encode FORMAT_TAG ++ payload ++ rest).drop 8 = payload ++ rest := fun _ _ => rfl
    rw [encodeFrame, hsplit, Nat.add_sub_cancel_left, List.take_left]
  have htotal : 4 + (4 + (framePayload N inner).length) = (encodeFrame N inner).length := by
    rw [length_encodeFrame]
    omega
  have hne : encodeFrame N inner ++ rest ≠ [] := by
    intro h
    rw [h] at hlen
    simp at hlen
    omega
  rw [parseFramesFrom.eq_3 _ _ _ hne]
  simp only [hlength, hlen, htag, hpayload, parse_framePayload, htotal, List.take_left, List.drop_left]
  rw [if_neg (by omega), if_neg (by rw [length_encodeFrame]; omega), if_neg (by simp)]
  simp only [Option.bind_eq_bind, Option.bind_some, wrappedText, and_self, if_true, Base64.decode_encode, ne_eq,
    not_true_eq_false, if_false]

/-- A frame that is accepted is what the encoder writes for what it holds. -/
theorem exists_frame {fuel : Nat} {chunk : Buffer} {inners : List Buffer} (hne : chunk ≠ [])
    (h : parseFramesFrom N (fuel + 1) chunk = some inners) :
    ∃ inner rest rest', inners = inner :: rest' ∧ chunk = encodeFrame N inner ++ rest ∧
      4 + (framePayload N inner).length < 2 ^ 32 ∧ parseFramesFrom N fuel rest = some rest' := by
  rw [parseFramesFrom.eq_3 _ _ _ hne] at h
  dsimp only at h
  split at h
  · cases h
  split at h
  · cases h
  split at h
  · cases h
  rename_i hlong hbounds _
  obtain ⟨parsed, -, h⟩ := Option.bind_eq_some_iff.1 h
  obtain ⟨text, -, h⟩ := Option.bind_eq_some_iff.1 h
  split at h
  · cases h
  rename_i hsame
  obtain ⟨rest', hrest, rfl⟩ := Option.map_eq_some_iff.1 h
  have hsame := not_not.1 hsame
  have hlength : (encodeFrame N (Base64.decode text)).length = 4 + readUInt32BE chunk := by
    rw [hsame, List.length_take]
    omega
  have hlt := readUInt32BE_lt chunk
  rw [length_encodeFrame] at hlength
  exact ⟨_, _, _, rfl, by rw [hsame, List.take_append_drop], by omega, hrest⟩

theorem parseFramesFrom_eq_some {fuel : Nat} {chunk : Buffer} {inners : List Buffer} (hfuel : chunk.length ≤ fuel) :
    parseFramesFrom N fuel chunk = some inners ↔
      (∀ inner ∈ inners, 4 + (framePayload N inner).length < 2 ^ 32) ∧ chunk = inners.flatMap (encodeFrame N) := by
  constructor
  · intro h
    induction fuel generalizing chunk inners with
    | zero =>
      obtain rfl := List.length_eq_zero_iff.1 (Nat.le_zero.1 hfuel)
      cases h
      exact ⟨fun _ h => absurd h List.not_mem_nil, rfl⟩
    | succ fuel ih =>
      by_cases hne : chunk = []
      · subst hne
        cases h
        exact ⟨fun _ h => absurd h List.not_mem_nil, rfl⟩
      · obtain ⟨inner, rest, rest', rfl, rfl, hfits, hrest⟩ := exists_frame hne h
        rw [List.length_append, length_encodeFrame] at hfuel
        obtain ⟨hall, rfl⟩ := ih (by omega) hrest
        exact ⟨List.forall_mem_cons.2 ⟨hfits, hall⟩, rfl⟩
  · rintro ⟨hfits, rfl⟩
    induction inners generalizing fuel with
    | nil => cases fuel <;> rfl
    | cons inner inners ih =>
      rw [List.flatMap_cons, List.length_append, length_encodeFrame] at hfuel
      obtain ⟨fuel, rfl⟩ : ∃ k, fuel = k + 1 := ⟨fuel - 1, by omega⟩
      rw [List.forall_mem_cons] at hfits
      rw [List.flatMap_cons, parseFramesFrom_cons hfits.1, ih hfits.2 (by omega), Option.map_some]

/-- `parseFrames` accepts exactly the canonical frames. -/
theorem parseFrames_eq_some {chunk : Buffer} {inners : List Buffer} :
    parseFrames N chunk = some inners ↔ IsFrames N chunk inners := by
  rw [parseFrames, Option.filter_eq_some_iff, parseFramesFrom_eq_some (Nat.le_refl _)]
  constructor
  · rintro ⟨⟨hfits, heq⟩, hne⟩
    exact ⟨by simpa using hne, hfits, heq⟩
  · rintro ⟨hne, hfits, heq⟩
    exact ⟨⟨hfits, heq⟩, by simpa using hne⟩

/-- A chunk holds one sequence of frames. -/
theorem IsFrames.unique {chunk : Buffer} {inners inners' : List Buffer} (h : IsFrames N chunk inners)
    (h' : IsFrames N chunk inners') : inners = inners' :=
  Option.some.inj ((parseFrames_eq_some.2 h).symm.trans (parseFrames_eq_some.2 h'))

end Parsed

/-! ## Event lines -/

/-- The bytes are the canonical line of the event. -/
def IsLine (N : Numbers ν) (inner : Buffer) (event : Members ν) : Prop :=
  Canonical N (.obj event) ∧ inner = encodeEventLine N event

theorem utf8Decode_encodeEventLine (event : Members ν) :
    (utf8Decode (encodeEventLine N event)).toList = stringify N (.obj event) ++ ['\n'] := by
  rw [encodeEventLine, utf8Decode_utf8Encode, String.toList_ofList]

theorem parseEventLine_eq_some {inner : Buffer} {event : Members ν} :
    parseEventLine N inner = some event ↔
      IsLine N inner event ∧ isString (event.lookup (utf16 "type")) ∧ (event.lookup (utf16 "data")).any isObject := by
  constructor
  · intro h
    rw [parseEventLine] at h
    split at h
    · cases h
    split at h
    · cases h
    split at h
    · split at h
      · rename_i hparse hevent
        cases h
        obtain ⟨htype, hdata, hline⟩ := hevent
        have htext := utf8Decode_encodeEventLine (N := N) event
        rw [hline] at htext
        rw [htext, List.dropLast_concat, parse_stringify] at hparse
        exact ⟨⟨hparse, hline.symm⟩, htype, hdata⟩
      · cases h
    · cases h
  · rintro ⟨⟨hcanonical, rfl⟩, htype, hdata⟩
    have hnewline : '\n' ∉ stringify N (.obj event) := fun h => absurd (printable_stringify _ _ h) (by decide)
    rw [parseEventLine]
    simp only [utf8Decode_encodeEventLine, List.getLast?_concat, List.dropLast_concat, (parse_stringify _).2 hcanonical,
      if_neg hnewline, ne_eq, not_true_eq_false, if_false, htype, hdata, and_self, if_true]

theorem IsLine.unique {inner : Buffer} {event event' : Members ν} (h : IsLine N inner event)
    (h' : IsLine N inner event') : event = event' := by
  have htext : stringify N (.obj event) = stringify N (.obj event') := by
    have h₁ := utf8Decode_encodeEventLine (N := N) event
    have h₂ := utf8Decode_encodeEventLine (N := N) event'
    rw [← h.2] at h₁
    rw [← h'.2, h₁] at h₂
    exact List.append_cancel_right h₂
  have hparse := (parse_stringify (N := N) _).2 h.1
  rw [htext, (parse_stringify _).2 h'.1] at hparse
  exact ((Json.obj.injEq _ _).mp (Option.some.inj hparse)).symm

/-! ## Snapshots -/

/-- The events that used to repeat all that was appended so far. -/
inductive Append where
  | message
  | reasoning

def Append.type : Append → Units
  | .message => utf16 "message.appended"
  | .reasoning => utf16 "reasoning.appended"

def Append.deltaKey : Append → Units
  | .message => utf16 "messageDelta"
  | .reasoning => utf16 "reasoningDelta"

def Append.soFarKey : Append → Units
  | .message => utf16 "messageSoFar"
  | .reasoning => utf16 "reasoningSoFar"

/-- The event is an append whose data has the delta and the cumulative field as strings. -/
structure HasSnapshot (kind : Append) (event data : Members ν) : Prop where
  typed : event.lookup (utf16 "type") = some (.str kind.type)
  holds : event.lookup (utf16 "data") = some (.obj data)
  delta : isString (data.lookup kind.deltaKey)
  soFar : isString (data.lookup kind.soFarKey)

/-- The event's type is a name that object literals inherit, and its data has a string member
`undefined`: to the code it looks like an append. -/
structure LooksAppended (event data : Members ν) : Prop where
  typed : ∃ name ∈ objectPrototypeNames, event.lookup (utf16 "type") = some (.str name)
  holds : event.lookup (utf16 "data") = some (.obj data)
  undefined : isString (data.lookup (utf16 "undefined"))

theorem snapshotFields_kind (kind : Append) :
    snapshotFields kind.type = some ⟨some kind.deltaKey, some kind.soFarKey⟩ := by
  cases kind
  · exact if_pos rfl
  · exact (if_neg (by decide)).trans (if_pos rfl)

theorem snapshotFields_inherited {name : Units} (h : name ∈ objectPrototypeNames) :
    snapshotFields name = some ⟨none, none⟩ := by
  have hmessage : name ≠ utf16 "message.appended" := by
    rintro rfl
    exact absurd h (by decide +kernel)
  have hreasoning : name ≠ utf16 "reasoning.appended" := by
    rintro rfl
    exact absurd h (by decide +kernel)
  rw [snapshotFields, if_neg hmessage, if_neg hreasoning, if_pos h]

theorem snapshotFields_eq_some {type : Units} {fields : SnapshotFields} (h : snapshotFields type = some fields) :
    (∃ kind : Append, type = kind.type ∧ fields = ⟨some kind.deltaKey, some kind.soFarKey⟩) ∨
      (type ∈ objectPrototypeNames ∧ fields = ⟨none, none⟩) := by
  unfold snapshotFields at h
  split at h
  · cases h
    exact .inl ⟨.message, ‹_›, rfl⟩
  split at h
  · cases h
    exact .inl ⟨.reasoning, ‹_›, rfl⟩
  split at h
  · cases h
    exact .inr ⟨‹_›, rfl⟩
  · cases h

/-- The code strips what is an append with a snapshot, and what looks like one. -/
theorem snapshotOf_eq_some {event data : Members ν} {soFarKey : Option Units} :
    snapshotOf event = some (data, soFarKey) ↔
      (∃ kind, HasSnapshot kind event data ∧ soFarKey = some kind.soFarKey) ∨
        (LooksAppended event data ∧ soFarKey = none) := by
  constructor
  · intro h
    unfold snapshotOf at h
    split at h
    · rename_i type data' htype hdata
      split at h
      · cases h
      rename_i fields hfields
      split at h
      · rename_i hstrings
        cases h
        rcases snapshotFields_eq_some hfields with ⟨kind, rfl, rfl⟩ | ⟨hname, rfl⟩
        · exact .inl ⟨kind, ⟨htype, hdata, hstrings.1, hstrings.2⟩, rfl⟩
        · exact .inr ⟨⟨⟨type, hname, htype⟩, hdata, hstrings.1⟩, rfl⟩
      · cases h
    · cases h
  · rintro (⟨kind, h, rfl⟩ | ⟨h, rfl⟩)
    · simp only [snapshotOf, h.typed, h.holds, snapshotFields_kind, propertyKey, Option.getD_some, h.delta, h.soFar,
        and_self, if_true]
    · obtain ⟨name, hname, htype⟩ := h.typed
      simp only [snapshotOf, htype, h.holds, snapshotFields_inherited hname, propertyKey, Option.getD_none, h.undefined,
        and_self, if_true]

/-- The keys that the loop of `withoutSnapshot` keeps. -/
def keepsKey (soFarKey : Option Units) (key : Units) : Bool := some key != soFarKey && key != utf16 "__proto__"

theorem withoutSnapshot_eq {data : Members ν} (h : Ordered data) (soFarKey : Option Units) :
    withoutSnapshot data soFarKey = data.filter fun m => keepsKey soFarKey m.1 := by
  have hobject : withoutSnapshot data soFarKey = makeObject (data.filter fun m => keepsKey soFarKey m.1) := by
    rw [makeObject, List.foldl_filter, withoutSnapshot]
    congr 1
    funext rebuilt m
    by_cases hso : some m.1 = soFarKey
    · simp [keepsKey, hso]
    · by_cases hproto : m.1 = utf16 "__proto__"
      · simp [keepsKey, assign, hproto]
      · simp [keepsKey, assign, hso, hproto]
  rw [hobject, makeObject_of_ordered (h.sublist List.filter_sublist)]

/-- The event with the keys of its data that `p` keeps. -/
def withData (event data : Members ν) (p : Units → Bool) : Members ν :=
  replaced event (utf16 "data") (.obj (data.filter fun m => p m.1))

theorem canonical_withData {event data : Members ν} (h : Canonical N (.obj event))
    (hdata : event.lookup (utf16 "data") = some (.obj data)) (p : Units → Bool) :
    Canonical N (.obj (withData event data p)) :=
  h.replaced _ ((h.member hdata).filter _)

theorem lookup_withData_data {event data : Members ν} (hdata : event.lookup (utf16 "data") = some (.obj data))
    (p : Units → Bool) :
    (withData event data p).lookup (utf16 "data") = some (.obj (data.filter fun m => p m.1)) := by
  rw [withData, lookup_replaced, if_pos rfl, hdata, Option.map_some]

theorem lookup_withData_type (event data : Members ν) (p : Units → Bool) :
    (withData event data p).lookup (utf16 "type") = event.lookup (utf16 "type") := by
  rw [withData, lookup_replaced, if_neg (by decide)]

/-- The data of an event as a code path knows it. -/
theorem data_of_snapshotOf {event data : Members ν} {soFarKey : Option Units}
    (h : snapshotOf event = some (data, soFarKey)) : event.lookup (utf16 "data") = some (.obj data) := by
  rcases snapshotOf_eq_some.1 h with ⟨kind, h, -⟩ | ⟨h, -⟩
  · exact h.holds
  · exact h.holds

theorem isString_type_of_snapshotOf {event data : Members ν} {soFarKey : Option Units}
    (h : snapshotOf event = some (data, soFarKey)) : isString (event.lookup (utf16 "type")) := by
  rcases snapshotOf_eq_some.1 h with ⟨kind, h, -⟩ | ⟨h, -⟩
  · rw [h.typed]
    rfl
  · obtain ⟨name, -, htype⟩ := h.typed
    rw [htype]
    rfl

theorem rebuildFrame_eq_some {inner out : Buffer} :
    rebuildFrame N inner = some out ↔ ∃ event data soFarKey, IsLine N inner event ∧
      snapshotOf event = some (data, soFarKey) ∧ out = encodeEventLine N (withData event data (keepsKey soFarKey)) := by
  have hout : ∀ {event data : Members ν} {soFarKey : Option Units}, IsLine N inner event →
      snapshotOf event = some (data, soFarKey) →
      createDataProperty (makeObject event) (utf16 "data") (.obj (withoutSnapshot data soFarKey)) =
        withData event data (keepsKey soFarKey) := by
    intro event data soFarKey hline hsnapshot
    have hdata := data_of_snapshotOf hsnapshot
    rw [makeObject_of_ordered hline.1.ordered, createDataProperty_own hdata,
      withoutSnapshot_eq (hline.1.member hdata).ordered, withData]
  unfold rebuildFrame
  constructor
  · intro h
    obtain ⟨event, hevent, h⟩ := Option.bind_eq_some_iff.1 h
    obtain ⟨⟨data, soFarKey⟩, hsnapshot, h⟩ := Option.bind_eq_some_iff.1 h
    obtain rfl := Option.some.inj h
    obtain ⟨hline, -, -⟩ := parseEventLine_eq_some.1 hevent
    exact ⟨event, data, soFarKey, hline, hsnapshot, by rw [hout hline hsnapshot]⟩
  · rintro ⟨event, data, soFarKey, hline, hsnapshot, rfl⟩
    have hevent : parseEventLine N inner = some event :=
      parseEventLine_eq_some.2 ⟨hline, isString_type_of_snapshotOf hsnapshot, by
        rw [data_of_snapshotOf hsnapshot]
        rfl⟩
    simp only [hevent, hsnapshot, Option.bind_eq_bind, Option.bind_some, hout hline hsnapshot]
    rfl

/-! ## Rebuilt frames -/

/-- What a frame holds afterwards. -/
def compacted (N : Numbers ν) (inner : Buffer) : Buffer := (rebuildFrame N inner).getD inner

theorem stringify_withData_sublist {event data : Members ν} (h : Ordered event)
    (hdata : event.lookup (utf16 "data") = some (.obj data)) (p : Units → Bool) :
    (stringify N (.obj (withData event data p))).Sublist (stringify N (.obj event)) := by
  have hsmaller : (stringify N (.obj (data.filter fun m => p m.1))).Sublist (stringify N (.obj data)) := by
    rw [stringify_obj, stringify_obj]
    exact ((joined_sublist (List.filter_sublist.map _)).cons_cons '{').append_right _
  rw [stringify_obj, stringify_obj]
  refine (List.Sublist.cons_cons '{' (joined_forall₂ ?_)).append_right _
  rw [withData, replaced, List.map_map, List.forall₂_map_left_iff, List.forall₂_map_right_iff, List.forall₂_same]
  intro m hm
  simp only [Function.comp_apply, stringifyMember]
  split
  · rename_i hkey
    have hvalue := h.lookup hm
    rw [hkey, hdata] at hvalue
    rw [← Option.some.inj hvalue, hkey]
    exact (hsmaller.cons_cons ':').append_left _
  · exact .refl _

theorem length_utf8Encode_le {text text' : List Char} (h : text'.Sublist text) :
    (utf8Encode (String.ofList text')).length ≤ (utf8Encode (String.ofList text)).length := by
  rw [utf8Encode, utf8Encode, String.toList_ofList, String.toList_ofList]
  induction h with
  | slnil => exact Nat.le_refl _
  | cons c _ ih =>
    rw [List.flatMap_cons, List.length_append]
    omega
  | cons_cons c _ ih =>
    rw [List.flatMap_cons, List.flatMap_cons, List.length_append, List.length_append]
    omega

theorem length_compacted_le (inner : Buffer) : (compacted N inner).length ≤ inner.length := by
  unfold compacted
  cases hrebuilt : rebuildFrame N inner with
  | none => exact Nat.le_refl _
  | some out =>
    obtain ⟨event, data, soFarKey, hline, hsnapshot, rfl⟩ := rebuildFrame_eq_some.1 hrebuilt
    have hsub := stringify_withData_sublist (N := N) hline.1.ordered (data_of_snapshotOf hsnapshot) (keepsKey soFarKey)
    rw [Option.getD_some, hline.2]
    exact length_utf8Encode_le (hsub.append_right _)

/-- All of a payload but the base64 text has the same length in every frame. -/
theorem length_framePayload (inner : Buffer) :
    (framePayload N inner).length = (framePayload N []).length + (Base64.encode inner).length := by
  have hplain := Base64.isPlain_encode inner
  have hascii : (((Base64.encode inner).map fun u => Char.ofNat u.toNat).flatMap String.utf8EncodeChar).length =
      (Base64.encode inner).length := by
    generalize Base64.encode inner = text at hplain
    induction text with
    | nil => rfl
    | cons u text ih =>
      rw [List.forall_mem_cons] at hplain
      have hsize : (String.utf8EncodeChar (Char.ofNat u.toNat)).length = 1 := by
        obtain ⟨hu, -⟩ := hplain
        simp only [isPlain, Bool.and_eq_true, decide_eq_true_eq, UInt16.lt_iff_toNat_lt, UInt16.reduceToNat] at hu
        have hchar : (Char.ofNat u.toNat).toNat = u.toNat := toNat_ofNat (by simp only [Nat.isValidChar]; omega)
        have hval : (Char.ofNat u.toNat).val.toNat = u.toNat := hchar
        rw [String.length_utf8EncodeChar, Char.utf8Size_eq_one_iff, UInt32.le_iff_toNat_le, hval]
        exact Nat.le_of_lt hu.1.1.2
      rw [List.map_cons, List.flatMap_cons, List.length_append, hsize, ih hplain.2, List.length_cons, Nat.add_comm]
  have hsplit : ∀ text : Units,
      stringify N (.arr [.arr [.str (utf16 "Uint8Array"), .num (N.read ['1'])], .str text]) =
        ('[' :: stringify N (.arr [.str (utf16 "Uint8Array"), .num (N.read ['1'])]) ++ [',', '"']) ++ quoteUnits text ++
          ['"', ']'] := by
    intro text
    rw [stringify_arr]
    simp [joined, stringify, quote]
  simp only [framePayload, utf8Encode, String.toList_ofList, hsplit, quoteUnits_of_isPlain hplain, Base64.encode,
    quoteUnits, List.flatMap_append, List.length_append, hascii, List.flatMap_nil, List.length_nil]
  omega

theorem fits_compacted {inner : Buffer} (h : 4 + (framePayload N inner).length < 2 ^ 32) :
    4 + (framePayload N (compacted N inner)).length < 2 ^ 32 := by
  have hle := length_compacted_le (N := N) inner
  rw [length_framePayload, Base64.length_encode] at h ⊢
  omega

/-- A frame that was rebuilt stays as it is: its snapshot is gone, or nothing was ever stripped. -/
theorem compacted_compacted (inner : Buffer) : compacted N (compacted N inner) = compacted N inner := by
  cases hrebuilt : rebuildFrame N inner with
  | none =>
    have hsame : compacted N inner = inner := by rw [compacted, hrebuilt, Option.getD_none]
    rw [hsame, hsame]
  | some out =>
    have hout : compacted N inner = out := by rw [compacted, hrebuilt, Option.getD_some]
    rw [hout]
    obtain ⟨event, data, soFarKey, hline, hsnapshot, rfl⟩ := rebuildFrame_eq_some.1 hrebuilt
    have hdata := data_of_snapshotOf hsnapshot
    have hline' : IsLine N (encodeEventLine N (withData event data (keepsKey soFarKey)))
        (withData event data (keepsKey soFarKey)) := ⟨canonical_withData hline.1 hdata _, rfl⟩
    rw [compacted]
    cases hagain : rebuildFrame N (encodeEventLine N (withData event data (keepsKey soFarKey))) with
    | none => exact Option.getD_none
    | some out =>
      obtain ⟨event', data', soFarKey', hevent', hsnapshot', rfl⟩ := rebuildFrame_eq_some.1 hagain
      obtain rfl := hline'.unique hevent'
      have hdata' := data_of_snapshotOf hsnapshot'
      rw [lookup_withData_data hdata] at hdata'
      obtain rfl := (Json.obj.injEq _ _).mp (Option.some.inj hdata')
      rcases snapshotOf_eq_some.1 hsnapshot' with ⟨kind, hkind, rfl⟩ | ⟨hlooks, rfl⟩
      · -- The type is the same, so that the field asked for is the one that was stripped.
        have hkey : soFarKey = some kind.soFarKey := by
          have htype := hkind.typed
          rw [lookup_withData_type] at htype
          rcases snapshotOf_eq_some.1 hsnapshot with ⟨kind₀, hkind₀, rfl⟩ | ⟨hlooks, rfl⟩
          · rw [hkind₀.typed] at htype
            have hsame := snapshotFields_kind kind₀
            rw [(Json.str.injEq _ _).mp (Option.some.inj htype), snapshotFields_kind] at hsame
            have := congrArg SnapshotFields.soFarKey (Option.some.inj hsame)
            exact this.symm
          · obtain ⟨name, hname, hname'⟩ := hlooks.typed
            rw [hname'] at htype
            have hsame := snapshotFields_inherited hname
            rw [(Json.str.injEq _ _).mp (Option.some.inj htype), snapshotFields_kind] at hsame
            cases Option.some.inj hsame
        have hgone := hkind.soFar
        rw [lookup_filter, hkey, keepsKey] at hgone
        simp [isString] at hgone
      · have hnone : keepsKey none = keepsKey soFarKey := by
          rcases snapshotOf_eq_some.1 hsnapshot with ⟨kind, hkind, rfl⟩ | ⟨-, rfl⟩
          · exfalso
            obtain ⟨name, hname, htype⟩ := hlooks.typed
            rw [lookup_withData_type, hkind.typed] at htype
            have hsame := snapshotFields_inherited hname
            rw [← (Json.str.injEq _ _).mp (Option.some.inj htype), snapshotFields_kind] at hsame
            cases Option.some.inj hsame
          · rfl
        have hfilter : (data.filter fun m => keepsKey soFarKey m.1).filter (fun m => keepsKey none m.1) =
            data.filter fun m => keepsKey soFarKey m.1 := by
          rw [hnone, List.filter_filter]
          simp only [Bool.and_self]
        have hsame : withData (withData event data (keepsKey soFarKey))
            (data.filter fun m => keepsKey soFarKey m.1) (keepsKey none) = withData event data (keepsKey soFarKey) := by
          rw [withData, hfilter]
          exact hline'.1.ordered.replaced_self (lookup_withData_data hdata _)
        rw [Option.getD_some, hsame]

/-! ## Chunks -/

theorem IsFrames.ne_nil {chunk : Buffer} {inners : List Buffer} (h : IsFrames N chunk inners) : chunk ≠ [] := by
  intro hnil
  obtain ⟨inner, inners, rfl⟩ := List.exists_cons_of_ne_nil h.nonempty
  have heq := congrArg List.length (hnil ▸ h.eq)
  rw [List.flatMap_cons, List.length_append, length_encodeFrame, List.length_nil] at heq
  omega

section Chunks

variable [DecidableEq ν]

theorem compactStreamChunk_of_frames {chunk : Buffer} {inners : List Buffer} (h : IsFrames N chunk inners) :
    compactStreamChunk N chunk = (inners.map (compacted N)).flatMap (encodeFrame N) := by
  rw [compactStreamChunk, parseFrames_eq_some.2 h]
  dsimp only
  split
  · rfl
  · rename_i hunchanged
    have hsame : inners.map (compacted N) = inners := by
      conv_rhs => rw [← List.map_id inners]
      refine List.map_congr_left fun inner hinner => ?_
      have hnone : rebuildFrame N inner = none := by
        simpa using fun h => hunchanged (List.any_eq_true.2 ⟨inner, hinner, h⟩)
      rw [compacted, hnone, Option.getD_none, id]
    rw [hsame, h.eq]

theorem compactStreamChunk_of_not_frames {chunk : Buffer} (h : ¬ ∃ inners, IsFrames N chunk inners) :
    compactStreamChunk N chunk = chunk := by
  have hnone : parseFrames N chunk = none := by
    rw [Option.eq_none_iff_forall_ne_some]
    exact fun inners hinners => h ⟨inners, parseFrames_eq_some.1 hinners⟩
  rw [compactStreamChunk, hnone]

theorem IsFrames.compacted {chunk : Buffer} {inners : List Buffer} (h : IsFrames N chunk inners) :
    IsFrames N (compactStreamChunk N chunk) (inners.map (compacted N)) :=
  ⟨by simpa using h.nonempty, List.forall_mem_map.2 fun inner hinner => fits_compacted (h.fits inner hinner),
    compactStreamChunk_of_frames h⟩

/-- The compaction that the streamer and the terminal rewrites are given. -/
def snapshotCompaction (N : Numbers ν) : SnapshotCompaction where
  compactStreamChunk := compactStreamChunk N
  eq_nil_iff chunk := by
    by_cases hframes : ∃ inners, IsFrames N chunk inners
    · obtain ⟨inners, h⟩ := hframes
      exact iff_of_false h.compacted.ne_nil h.ne_nil
    · rw [compactStreamChunk_of_not_frames hframes]

theorem compactStreamChunk_idem (chunk : Buffer) :
    compactStreamChunk N (compactStreamChunk N chunk) = compactStreamChunk N chunk := by
  by_cases hframes : ∃ inners, IsFrames N chunk inners
  · obtain ⟨inners, h⟩ := hframes
    have hagain : (inners.map (compacted N)).map (compacted N) = inners.map (compacted N) := by
      rw [List.map_map, Function.comp_def]
      simp only [compacted_compacted]
    rw [compactStreamChunk_of_frames h.compacted, hagain, compactStreamChunk_of_frames h]
  · rw [compactStreamChunk_of_not_frames hframes, compactStreamChunk_of_not_frames hframes]

end Chunks

/-- The frame lost nothing but the cumulative field of an append. -/
structure SnapshotRemoved (N : Numbers ν) (inner out : Buffer) : Prop where
  removed : ∀ kind event data, IsLine N inner event → HasSnapshot kind event data →
    IsLine N out (withData event data (· != kind.soFarKey))
  same : (∀ kind event data, IsLine N inner event → ¬ HasSnapshot kind event data) → out = inner

/-- The frame is one the code strips, and its data has a member `__proto__`. -/
def LosesMember (N : Numbers ν) (inner : Buffer) : Prop :=
  ∃ event data, IsLine N inner event ∧ utf16 "__proto__" ∈ data.map (·.1) ∧
    ((∃ kind, HasSnapshot kind event data) ∨ LooksAppended event data)

theorem filter_keepsKey {data : Members ν} (h : utf16 "__proto__" ∉ data.map (·.1)) (soFarKey : Option Units) :
    data.filter (fun m => keepsKey soFarKey m.1) = data.filter fun m => some m.1 != soFarKey := by
  refine List.filter_congr fun m hm => ?_
  have hne : m.1 ≠ utf16 "__proto__" := fun heq => h (List.mem_map.2 ⟨m, hm, heq⟩)
  simp [keepsKey, hne]

theorem not_mem_filter_keepsKey (data : Members ν) (soFarKey : Option Units) :
    utf16 "__proto__" ∉ (data.filter fun m => keepsKey soFarKey m.1).map (·.1) := by
  intro h
  obtain ⟨m, hm, hkey⟩ := List.mem_map.1 h
  have hkeeps := (List.mem_filter.1 hm).2
  rw [hkey] at hkeeps
  simp [keepsKey] at hkeeps

theorem snapshotRemoved_of_keeps {inner : Buffer} (h : ¬ LosesMember N inner) :
    SnapshotRemoved N inner (compacted N inner) := by
  unfold compacted
  cases hrebuilt : rebuildFrame N inner with
  | none =>
    refine ⟨fun kind event data hline hkind => ?_, fun _ => Option.getD_none⟩
    have hsome := rebuildFrame_eq_some.2
      ⟨event, data, _, hline, snapshotOf_eq_some.2 (.inl ⟨kind, hkind, rfl⟩), rfl⟩
    rw [hrebuilt] at hsome
    cases hsome
  | some out =>
    obtain ⟨event, data, soFarKey, hline, hsnapshot, rfl⟩ := rebuildFrame_eq_some.1 hrebuilt
    have hdata := data_of_snapshotOf hsnapshot
    rw [Option.getD_some]
    rcases snapshotOf_eq_some.1 hsnapshot with ⟨kind, hkind, rfl⟩ | ⟨hlooks, rfl⟩
    · have hproto : utf16 "__proto__" ∉ data.map (·.1) := fun hp => h ⟨event, data, hline, hp, .inl ⟨kind, hkind⟩⟩
      refine ⟨fun kind' event' data' hline' hkind' => ?_, fun hnone => absurd hkind (hnone kind event data hline)⟩
      obtain rfl := hline.unique hline'
      have hsnapshot' := snapshotOf_eq_some.2 (.inl ⟨kind', hkind', rfl⟩)
      rw [hsnapshot, Option.some.injEq, Prod.mk.injEq, Option.some.injEq] at hsnapshot'
      obtain ⟨rfl, hkey⟩ := hsnapshot'
      have hsame : withData event data (keepsKey (some kind.soFarKey)) = withData event data (· != kind'.soFarKey) := by
        rw [withData, withData, filter_keepsKey hproto, hkey]
        rfl
      rw [hsame]
      exact ⟨canonical_withData hline.1 hdata _, rfl⟩
    · have hproto : utf16 "__proto__" ∉ data.map (·.1) := fun hp => h ⟨event, data, hline, hp, .inr hlooks⟩
      refine ⟨fun kind' event' data' hline' hkind' => ?_, fun _ => ?_⟩
      · obtain rfl := hline.unique hline'
        have hsnapshot' := snapshotOf_eq_some.2 (.inl ⟨kind', hkind', rfl⟩)
        rw [hsnapshot] at hsnapshot'
        cases hsnapshot'
      · have hall : data.filter (fun m => keepsKey none m.1) = data := by
          rw [filter_keepsKey hproto]
          simp
        rw [withData, hall, hline.1.ordered.replaced_self hdata]
        exact hline.2.symm

theorem not_snapshotRemoved_of_loses {inner : Buffer} (h : LosesMember N inner) :
    ¬ SnapshotRemoved N inner (compacted N inner) := by
  intro hremoved
  obtain ⟨event, data, hline, hproto, hcase⟩ := h
  obtain ⟨soFarKey, hsnapshot⟩ : ∃ soFarKey, snapshotOf event = some (data, soFarKey) := by
    rcases hcase with ⟨kind, hkind⟩ | hlooks
    · exact ⟨_, snapshotOf_eq_some.2 (.inl ⟨kind, hkind, rfl⟩)⟩
    · exact ⟨_, snapshotOf_eq_some.2 (.inr ⟨hlooks, rfl⟩)⟩
  have hdata := data_of_snapshotOf hsnapshot
  have hrebuilt := rebuildFrame_eq_some.2 ⟨event, data, soFarKey, hline, hsnapshot, rfl⟩
  have hout : compacted N inner = encodeEventLine N (withData event data (keepsKey soFarKey)) := by
    rw [compacted, hrebuilt, Option.getD_some]
  have hline' : IsLine N (compacted N inner) (withData event data (keepsKey soFarKey)) :=
    ⟨canonical_withData hline.1 hdata _, hout⟩
  -- Whatever line the frame should carry now, its data has the member that the code dropped.
  have hmissing : ∀ expected, IsLine N (compacted N inner) expected → ∀ data',
      expected.lookup (utf16 "data") = some (.obj data') → utf16 "__proto__" ∉ data'.map (·.1) := by
    intro expected hexpected data' hdata'
    obtain rfl := hline'.unique hexpected
    rw [lookup_withData_data hdata] at hdata'
    obtain rfl := (Json.obj.injEq _ _).mp (Option.some.inj hdata')
    exact not_mem_filter_keepsKey data soFarKey
  by_cases hkind : ∃ kind, HasSnapshot kind event data
  · obtain ⟨kind, hkind⟩ := hkind
    refine hmissing _ (hremoved.removed kind event data hline hkind) _ (lookup_withData_data hdata _) ?_
    obtain ⟨m, hm, hkey⟩ := List.mem_map.1 hproto
    have hne : (m.1 != kind.soFarKey) = true := by
      rw [hkey]
      cases kind <;> decide
    exact List.mem_map.2 ⟨m, List.mem_filter.2 ⟨hm, hne⟩, hkey⟩
  · have hsame : compacted N inner = inner := by
      refine hremoved.same fun kind event' data' hevent' hkind' => hkind ⟨kind, ?_⟩
      obtain rfl := hline.unique hevent'
      obtain rfl := (Json.obj.injEq _ _).mp (Option.some.inj (hdata.symm.trans hkind'.holds))
      exact hkind'
    have hkept : IsLine N (compacted N inner) event := by
      rw [hsame]
      exact hline
    exact hmissing event hkept data hdata hproto

/-- What the compaction of a chunk may change: nothing, unless it is a sequence of canonical frames;
then each frame loses the cumulative field of an append at most. Doing it again changes nothing. -/
structure CompactsOnlySnapshots [DecidableEq ν] (N : Numbers ν) (chunk : Buffer) : Prop where
  unframed : (¬ ∃ inners, IsFrames N chunk inners) → compactStreamChunk N chunk = chunk
  framed : ∀ inners, IsFrames N chunk inners → ∃ outs, IsFrames N (compactStreamChunk N chunk) outs ∧
    List.Forall₂ (SnapshotRemoved N) inners outs
  idempotent : compactStreamChunk N (compactStreamChunk N chunk) = compactStreamChunk N chunk

theorem not_compactsOnlySnapshots [DecidableEq ν] {chunk inner : Buffer} {inners : List Buffer}
    (hframes : IsFrames N chunk inners) (hinner : inner ∈ inners) (hloses : LosesMember N inner) :
    ¬ CompactsOnlySnapshots N chunk := by
  intro h
  obtain ⟨outs, houts, hremoved⟩ := h.framed inners hframes
  obtain rfl := houts.unique hframes.compacted
  rw [List.forall₂_map_right_iff, List.forall₂_same] at hremoved
  exact not_snapshotRemoved_of_loses hloses (hremoved inner hinner)

/-- Compaction changes nothing but the snapshots of a chunk exactly when no frame of it that the code
strips has a member `__proto__` in its data. -/
theorem compacts_only_snapshots_iff [DecidableEq ν] (N : Numbers ν) (chunk : Buffer) :
    CompactsOnlySnapshots N chunk ↔
      ∀ inners, IsFrames N chunk inners → ∀ inner ∈ inners, ¬ LosesMember N inner := by
  constructor
  · exact fun h inners hframes inner hinner hloses => not_compactsOnlySnapshots hframes hinner hloses h
  · intro h
    refine ⟨compactStreamChunk_of_not_frames, fun inners hframes => ?_, compactStreamChunk_idem chunk⟩
    refine ⟨_, hframes.compacted, ?_⟩
    rw [List.forall₂_map_right_iff, List.forall₂_same]
    exact fun inner hinner => snapshotRemoved_of_keeps (h inners hframes inner hinner)

/-- Numbers as their tokens, which is what integers without superfluous digits come to. -/
def tokenNumbers : Numbers (List Char) where
  read := id
  print text := if isNumber text then some text else none
  print_isNumber text text' h := by
    split at h
    · cases h
      assumption
    · cases h
  print_one := by decide

/-- A single frame with such an append. -/
theorem not_compactsOnlySnapshots_frame [DecidableEq ν] {kind : Append} {event data : Members ν}
    (hfits : 4 + (framePayload N (encodeEventLine N event)).length < 2 ^ 32) (hevent : Canonical N (.obj event))
    (hkind : HasSnapshot kind event data) (hproto : utf16 "__proto__" ∈ data.map (·.1)) :
    ¬ CompactsOnlySnapshots N (encodeFrame N (encodeEventLine N event)) := by
  have hframes : IsFrames N (encodeFrame N (encodeEventLine N event)) [encodeEventLine N event] := by
    refine ⟨List.cons_ne_nil _ _, fun inner hinner => ?_, ?_⟩
    · obtain rfl := List.mem_singleton.1 hinner
      exact hfits
    · rw [List.flatMap_cons, List.flatMap_nil, List.append_nil]
  exact not_compactsOnlySnapshots hframes List.mem_cons_self
    ⟨event, data, ⟨hevent, rfl⟩, hproto, .inl ⟨kind, hkind⟩⟩

/-- The data of an append, with a member of the name that assignments take for the prototype. -/
def protoData : Members (List Char) :=
  [(utf16 "messageDelta", .str (utf16 "b")), (utf16 "messageSoFar", .str (utf16 "ab")), (utf16 "__proto__", .null)]

/-- `{"data":{"messageDelta":"b","messageSoFar":"ab","__proto__":null},"type":"message.appended"}`. -/
def protoEvent : Members (List Char) :=
  [(utf16 "data", .obj protoData), (utf16 "type", .str Append.message.type)]

/-- The frame of `protoEvent` loses the member `__proto__` with its snapshot. -/
theorem compacts_member_proto :
    ¬ CompactsOnlySnapshots tokenNumbers (encodeFrame tokenNumbers (encodeEventLine tokenNumbers protoEvent)) := by
  have hdata : Canonical tokenNumbers (.obj protoData) := by
    refine .obj (by unfold Ordered; decide +kernel) fun m hm => ?_
    simp only [protoData, List.mem_cons, List.not_mem_nil, or_false] at hm
    rcases hm with rfl | rfl | rfl
    · exact .str _
    · exact .str _
    · exact .null
  have hevent : Canonical tokenNumbers (.obj protoEvent) := by
    refine .obj (by unfold Ordered; decide +kernel) fun m hm => ?_
    simp only [protoEvent, List.mem_cons, List.not_mem_nil, or_false] at hm
    rcases hm with rfl | rfl
    · exact hdata
    · exact .str _
  have htype : (utf16 "type" == utf16 "data") = false := by decide +kernel
  have hkind : HasSnapshot .message protoEvent protoData := by
    refine ⟨?_, ?_, by decide +kernel, by decide +kernel⟩
    · rw [protoEvent, List.lookup_cons, htype, List.lookup_cons_self]
    · rw [protoEvent, List.lookup_cons_self]
  have hfits : 4 + (framePayload tokenNumbers (encodeEventLine tokenNumbers protoEvent)).length < 2 ^ 32 := by
    rw [length_framePayload, Base64.length_encode]
    decide +kernel
  exact not_compactsOnlySnapshots_frame hfits hevent hkind (by decide +kernel)

end WorkflowWorld.Streams
