/-
The JSON transport of the queue (`src/queue.ts`). A byte array travels as an object with a tag, which the replacer of
`JSON.stringify` writes and the reviver of `JSON.parse` recognises by its shape.
-/
import WorkflowWorld.Text.Json
import WorkflowWorld.Streams.Compaction

namespace WorkflowWorld.Transport

open Text Streams

variable {ν : Type}

/-! ## Values -/

/-- The classes of byte arrays: `Buffer` is a subclass of `Uint8Array`. -/
inductive ByteArrayClass where
  | uint8Array | buffer
  deriving DecidableEq, Repr

/-- What a message is built from. -/
inductive Value (ν : Type) where
  | null
  | bool (b : Bool)
  | num (n : ν)
  | str (s : Units)
  | arr (elements : List (Value ν))
  | obj (members : List (Units × Value ν))
  | bytes (kind : ByteArrayClass) (data : Buffer)

/-- The own keys of every object are distinct, and in the order in which objects keep them. -/
inductive Value.Ordered : Value ν → Prop where
  | null : Ordered .null
  | bool (b : Bool) : Ordered (.bool b)
  | num (n : ν) : Ordered (.num n)
  | str (s : Units) : Ordered (.str s)
  | arr {elements : List (Value ν)} (each : ∀ v ∈ elements, Ordered v) : Ordered (.arr elements)
  | obj {members : List (Units × Value ν)} (keys : members.Pairwise fun a b => keyLe a.1 b.1 = true ∧ a.1 ≠ b.1)
      (each : ∀ m ∈ members, Ordered m.2) : Ordered (.obj members)
  | bytes (kind : ByteArrayClass) (data : Buffer) : Ordered (.bytes kind data)

/-- A value as the language has it. -/
structure JsValue (ν : Type) where
  value : Value ν
  ordered : value.Ordered

/-- Induction on a value: an array or an object by all that it holds. -/
theorem Value.ind {motive : Value ν → Prop} (null : motive .null) (bool : ∀ b, motive (.bool b)) (num : ∀ n, motive (.num n))
    (str : ∀ s, motive (.str s)) (arr : ∀ elements, (∀ v ∈ elements, motive v) → motive (.arr elements))
    (obj : ∀ members : List (Units × Value ν), (∀ m ∈ members, motive m.2) → motive (.obj members))
    (bytes : ∀ kind data, motive (.bytes kind data)) (v : Value ν) : motive v :=
  @Value.rec ν motive (fun elements => ∀ v ∈ elements, motive v) (fun members => ∀ m ∈ members, motive m.2)
    (fun m => motive m.2)
    null bool num str arr obj bytes (fun _ h => absurd h List.not_mem_nil)
    (fun _ _ hv hvs => List.forall_mem_cons.2 ⟨hv, hvs⟩) (fun _ h => absurd h List.not_mem_nil)
    (fun _ _ hm hms => List.forall_mem_cons.2 ⟨hm, hms⟩) (fun _ _ h => h) v

/-! ## Writing -/

section Serialize

variable (N : Numbers ν)

/-- `Buffer.prototype.toJSON`. -/
def bufferToJSON (data : Buffer) : Json ν :=
  .obj [(utf16 "type", .str (utf16 "Buffer")), (utf16 "data", .arr (data.map fun b => .num (N.read (Nat.toDigits 10 b.toNat))))]

/-- What the replacer makes of a `Uint8Array`. -/
def envelope (data : Buffer) : Json ν :=
  .obj [(utf16 "__type", .str (utf16 "Uint8Array")), (utf16 "data", .str (Base64.encode data))]

mutual

/-- What `JSON.stringify` writes the text of. It calls `toJSON` before the replacer, so that the replacer never
sees a `Buffer`. -/
def replaceBytes : Value ν → Json ν
  | .null => .null
  | .bool b => .bool b
  | .num n => .num n
  | .str s => .str s
  | .arr elements => .arr (replaceElements elements)
  | .obj members => .obj (replaceMembers members)
  | .bytes .buffer data => bufferToJSON N data
  | .bytes .uint8Array data => envelope data

def replaceElements : List (Value ν) → List (Json ν)
  | [] => []
  | v :: elements => replaceBytes v :: replaceElements elements

def replaceMembers : List (Units × Value ν) → List (Units × Json ν)
  | [] => []
  | (key, v) :: members => (key, replaceBytes v) :: replaceMembers members

end

/-- `transport.serialize`. -/
def serialize (v : Value ν) : Buffer := utf8Encode (String.ofList (stringify N (replaceBytes N v)))

theorem replaceElements_eq (elements : List (Value ν)) : replaceElements N elements = elements.map (replaceBytes N) := by
  induction elements with
  | nil => rfl
  | cons v elements ih => rw [replaceElements, ih, List.map_cons]

theorem replaceMembers_eq (members : List (Units × Value ν)) :
    replaceMembers N members = members.map fun m => (m.1, replaceBytes N m.2) := by
  induction members with
  | nil => rfl
  | cons m members ih => rw [replaceMembers, ih, List.map_cons]

end Serialize

/-! ## Reading -/

/-- `v.data` where `v.__type === "Uint8Array"` and `typeof v.data === "string"`, of a plain object. -/
def taggedData (members : List (Units × Value ν)) : Option Units :=
  match members.lookup (utf16 "__type"), members.lookup (utf16 "data") with
  | some (.str type), some (.str data) => if type = utf16 "Uint8Array" then some data else none
  | _, _ => none

/-- The reviver. Nothing but a plain object has a `__type`. -/
def reviver : Value ν → Value ν
  | .obj members =>
    match taggedData members with
    | some data => .bytes .uint8Array (Base64.decode data)
    | none => .obj members
  | v => v

mutual

/-- `InternalizeJSONProperty`: the reviver is called on what a value holds before it is called on the value. -/
def revive : Json ν → Value ν
  | .null => reviver .null
  | .bool b => reviver (.bool b)
  | .num n => reviver (.num n)
  | .str s => reviver (.str s)
  | .arr elements => reviver (.arr (reviveElements elements))
  | .obj members => reviver (.obj (reviveMembers members))

def reviveElements : List (Json ν) → List (Value ν)
  | [] => []
  | v :: elements => revive v :: reviveElements elements

def reviveMembers : List (Units × Json ν) → List (Units × Value ν)
  | [] => []
  | (key, v) :: members => (key, revive v) :: reviveMembers members

end

/-- `transport.deserialize` of a stream that gives these chunks; `none` where `JSON.parse` throws. -/
def deserialize (N : Numbers ν) (chunks : List Buffer) : Option (Value ν) :=
  (parse N (utf8Decode chunks.flatten).toList).map revive

theorem reviveElements_eq (elements : List (Json ν)) : reviveElements elements = elements.map revive := by
  induction elements with
  | nil => rfl
  | cons v elements ih => rw [reviveElements, ih, List.map_cons]

theorem reviveMembers_eq (members : Members ν) : reviveMembers members = members.map fun m => (m.1, revive m.2) := by
  induction members with
  | nil => rfl
  | cons m members ih => rw [reviveMembers, ih, List.map_cons]

/-! ## The round trip -/

mutual

/-- The value with the same bytes in every byte array, and nothing else changed. -/
def restored : Value ν → Value ν
  | .null => .null
  | .bool b => .bool b
  | .num n => .num n
  | .str s => .str s
  | .arr elements => .arr (restoredElements elements)
  | .obj members => .obj (restoredMembers members)
  | .bytes _ data => .bytes .uint8Array data

def restoredElements : List (Value ν) → List (Value ν)
  | [] => []
  | v :: elements => restored v :: restoredElements elements

def restoredMembers : List (Units × Value ν) → List (Units × Value ν)
  | [] => []
  | (key, v) :: members => (key, restored v) :: restoredMembers members

end

theorem restoredElements_eq (elements : List (Value ν)) : restoredElements elements = elements.map restored := by
  induction elements with
  | nil => rfl
  | cons v elements ih => rw [restoredElements, ih, List.map_cons]

theorem restoredMembers_eq (members : List (Units × Value ν)) :
    restoredMembers members = members.map fun m => (m.1, restored m.2) := by
  induction members with
  | nil => rfl
  | cons m members ih => rw [restoredMembers, ih, List.map_cons]

/-- What the transport carries: no `Buffer`, no object that looks like an envelope, and only numbers that read as they print. -/
inductive Carried (N : Numbers ν) : Value ν → Prop where
  | null : Carried N .null
  | bool (b : Bool) : Carried N (.bool b)
  | num {n : ν} {text : List Char} (print : N.print n = some text) (read : N.read text = n) : Carried N (.num n)
  | str (s : Units) : Carried N (.str s)
  | arr {elements : List (Value ν)} (each : ∀ v ∈ elements, Carried N v) : Carried N (.arr elements)
  | obj {members : List (Units × Value ν)} (untagged : taggedData members = none) (each : ∀ m ∈ members, Carried N m.2) :
      Carried N (.obj members)
  | bytes (data : Buffer) : Carried N (.bytes .uint8Array data)

section RoundTrip

variable {N : Numbers ν}

/-- What arrives of a value. -/
def arrived (N : Numbers ν) (v : Value ν) : Value ν := revive (reread N (replaceBytes N v))

/-- However the bytes are split, they arrive. -/
theorem deserialize_eq {v : Value ν} {chunks : List Buffer} (h : chunks.flatten = serialize N v) :
    deserialize N chunks = some (arrived N v) := by
  rw [deserialize, h, serialize, utf8Decode_utf8Encode, String.toList_ofList, parse_stringify_eq]
  rfl

theorem arrived_num (n : ν) : arrived N (.num n) = ((N.print n).map fun text => .num (N.read text)).getD .null := by
  unfold arrived
  rw [replaceBytes, reread]
  cases N.print n <;> rfl

theorem arrived_arr (elements : List (Value ν)) : arrived N (.arr elements) = .arr (elements.map (arrived N)) := by
  unfold arrived
  rw [replaceBytes, replaceElements_eq, reread_arr, revive, reviveElements_eq, reviver, List.map_map, List.map_map]
  · rfl
  · rintro _ ⟨⟩

/-- The keys of an object are in order, and stay. -/
theorem arrived_obj {members : List (Units × Value ν)} (h : members.Pairwise fun a b => keyLe a.1 b.1 = true ∧ a.1 ≠ b.1) :
    arrived N (.obj members) = reviver (.obj (members.map fun m => (m.1, arrived N m.2))) := by
  unfold arrived
  rw [replaceBytes, replaceMembers_eq, reread_obj, List.map_map, makeObject_of_ordered, revive, reviveMembers_eq, List.map_map]
  · rfl
  · exact List.pairwise_map.2 h

theorem lookup_map_value {α β : Type} (f : α → β) (members : List (Units × α)) (key : Units) :
    (members.map fun m => (m.1, f m.2)).lookup key = (members.lookup key).map f := by
  induction members with
  | nil => rfl
  | cons m members ih =>
    rw [List.map_cons, List.lookup_cons, List.lookup_cons, ih]
    split <;> rfl

theorem keys_ne : utf16 "data" ≠ utf16 "__type" ∧ utf16 "type" ≠ utf16 "__type" ∧ utf16 "type" ≠ utf16 "data" := by decide +kernel

/-- The bytes of a `Uint8Array` arrive. -/
theorem arrived_uint8Array (data : Buffer) : arrived N (.bytes .uint8Array data) = .bytes .uint8Array data := by
  have hcanonical : Canonical N (envelope data) := by
    refine .obj ?_ fun m hm => ?_
    · have hle : keyLe (utf16 "__type") (utf16 "data") = true := by decide +kernel
      exact List.pairwise_pair.2 ⟨hle, keys_ne.1.symm⟩
    · simp only [List.mem_cons, List.not_mem_nil, or_false] at hm
      rcases hm with rfl | rfl
      · exact .str _
      · exact .str _
  have hlookup : (utf16 "data" == utf16 "__type") = false := beq_false_of_ne keys_ne.1
  unfold arrived
  rw [replaceBytes, (reads_reread (envelope data)).same.2 hcanonical, envelope, revive, reviveMembers_eq, List.map_cons, List.map_cons,
    List.map_nil]
  dsimp only [revive, reviver]
  rw [taggedData, List.lookup_cons_self, List.lookup_cons, hlookup, List.lookup_cons_self]
  dsimp only
  rw [if_pos rfl]
  exact congrArg _ (Base64.decode_encode data)

/-- A `Buffer` arrives as the object that `toJSON` made of it. -/
theorem arrived_buffer (data : Buffer) : ∃ numbers, arrived N (.bytes .buffer data) =
    .obj [(utf16 "type", .str (utf16 "Buffer")), (utf16 "data", .arr numbers)] := by
  -- it arrives as if that object had been sent
  have hsent : arrived N (.bytes .buffer data) = arrived N (.obj [(utf16 "type", .str (utf16 "Buffer")),
      (utf16 "data", .arr (data.map fun b => .num (N.read (Nat.toDigits 10 b.toNat))))]) := by
    unfold arrived
    rw [replaceBytes, replaceBytes, replaceMembers_eq, List.map_cons, List.map_cons, List.map_nil, replaceBytes, replaceBytes,
      replaceElements_eq, List.map_map]
    rfl
  have hle : keyLe (utf16 "type") (utf16 "data") = true := by decide +kernel
  have hlookup : (utf16 "__type" == utf16 "type") = false := beq_false_of_ne keys_ne.2.1.symm
  have hlookup' : (utf16 "__type" == utf16 "data") = false := beq_false_of_ne keys_ne.1.symm
  rw [hsent, arrived_obj (List.pairwise_pair.2 ⟨hle, keys_ne.2.2⟩), List.map_cons, List.map_cons, List.map_nil, arrived_arr, reviver,
    taggedData, List.lookup_cons, hlookup, List.lookup_cons, hlookup', List.lookup_nil]
  exact ⟨_, rfl⟩

theorem reviver_obj_ne_str (members : List (Units × Value ν)) (s : Units) : reviver (.obj members) ≠ .str s := by
  rw [reviver]
  split <;> exact nofun

/-- A string arrives from a string alone. -/
theorem arrived_eq_str {v : Value ν} {s : Units} : arrived N v = .str s ↔ v = .str s := by
  constructor
  · intro h
    cases v with
    | null | bool => cases h
    | num n =>
      rw [arrived_num] at h
      cases hp : N.print n <;> rw [hp] at h <;> cases h
    | str s' =>
      cases h
      rfl
    | arr elements =>
      rw [arrived_arr] at h
      cases h
    | obj members => exact absurd h (by rw [arrived, replaceBytes, reread_obj, revive]; exact reviver_obj_ne_str _ _)
    | bytes kind data =>
      cases kind with
      | uint8Array =>
        rw [arrived_uint8Array] at h
        cases h
      | buffer =>
        obtain ⟨numbers, hnumbers⟩ := arrived_buffer (N := N) data
        rw [hnumbers] at h
        cases h
  · rintro rfl
    rfl

theorem map_arrived_eq_str {o : Option (Value ν)} {s : Units} : o.map (arrived N) = some (.str s) ↔ o = some (.str s) := by
  rw [Option.map_eq_some_iff]
  constructor
  · rintro ⟨v, rfl, hv⟩
    rw [arrived_eq_str.1 hv]
  · rintro rfl
    exact ⟨_, rfl, rfl⟩

theorem taggedData_eq_some {members : List (Units × Value ν)} {data : Units} : taggedData members = some data ↔
    members.lookup (utf16 "__type") = some (.str (utf16 "Uint8Array")) ∧ members.lookup (utf16 "data") = some (.str data) := by
  unfold taggedData
  constructor
  · intro h
    split at h
    · rename_i type data' htype hdata
      split at h
      · rename_i heq
        cases h
        exact ⟨heq ▸ htype, hdata⟩
      · cases h
    · cases h
  · rintro ⟨htype, hdata⟩
    rw [htype, hdata]
    exact if_pos rfl

/-- An object looks like an envelope when it arrives just if it did before. -/
theorem taggedData_arrived (members : List (Units × Value ν)) :
    taggedData (members.map fun m => (m.1, arrived N m.2)) = taggedData members := by
  refine Option.ext fun data => ?_
  rw [taggedData_eq_some, taggedData_eq_some, lookup_map_value, lookup_map_value, map_arrived_eq_str, map_arrived_eq_str]

/-- A value arrives as it was just if the transport carries it. -/
theorem arrived_eq_restored_iff {v : Value ν} (hv : v.Ordered) : arrived N v = restored v ↔ Carried N v := by
  induction v using Value.ind with
  | null => exact ⟨fun _ => .null, fun _ => rfl⟩
  | bool b => exact ⟨fun _ => .bool b, fun _ => rfl⟩
  | str s => exact ⟨fun _ => .str s, fun _ => rfl⟩
  | num n =>
    rw [arrived_num, restored]
    constructor
    · intro h
      cases hp : N.print n with
      | none =>
        rw [hp] at h
        cases h
      | some text =>
        rw [hp] at h
        exact .num hp (Value.num.inj h)
    · rintro ⟨⟩
      rename_i text hprint hread
      rw [hprint, Option.map_some, hread, Option.getD_some]
  | arr elements ih =>
    obtain ⟨⟩ := hv
    rename_i hordered
    rw [arrived_arr, restored, restoredElements_eq, Value.arr.injEq, List.map_inj_left]
    constructor
    · exact fun h => .arr fun v hv => (ih v hv (hordered v hv)).1 (h v hv)
    · rintro ⟨⟩
      rename_i heach
      exact fun v hv => (ih v hv (hordered v hv)).2 (heach v hv)
  | obj members ih =>
    obtain ⟨⟩ := hv
    rename_i hkeys hordered
    rw [arrived_obj hkeys, restored, restoredMembers_eq, reviver, taggedData_arrived]
    constructor
    · intro h
      cases htag : taggedData members with
      | some data =>
        rw [htag] at h
        cases h
      | none =>
        rw [htag] at h
        refine .obj htag fun m hm => (ih m hm (hordered m hm)).1 ?_
        exact congrArg Prod.snd (List.map_inj_left.1 (Value.obj.inj h) m hm)
    · rintro ⟨⟩
      rename_i huntagged heach
      rw [huntagged]
      refine congrArg _ (List.map_congr_left fun m hm => ?_)
      rw [(ih m hm (hordered m hm)).2 (heach m hm)]
  | bytes kind data =>
    cases kind with
    | uint8Array => exact ⟨fun _ => .bytes data, fun _ => arrived_uint8Array data⟩
    | buffer =>
      obtain ⟨numbers, hnumbers⟩ := arrived_buffer (N := N) data
      rw [hnumbers, restored]
      exact ⟨nofun, nofun⟩

end RoundTrip

/-- However the serialised bytes are split into chunks, a value comes back with the same bytes in every byte array and nothing else
changed if and only if it holds no `Buffer`, no object that looks like an envelope, and only numbers that read as they print. -/
theorem transport_round_trip_iff (N : Numbers ν) (v : JsValue ν) (chunks : List Buffer) (h : chunks.flatten = serialize N v.value) :
    deserialize N chunks = some (restored v.value) ↔ Carried N v.value := by
  rw [deserialize_eq h, Option.some.injEq]
  exact arrived_eq_restored_iff v.ordered

theorem transport_round_trip_iff_bytes :
    let v : JsValue (List Char) := ⟨.bytes .uint8Array [1, 2, 3], .bytes _ _⟩
    let bytes := serialize tokenNumbers v.value
    deserialize tokenNumbers [bytes.take 5, bytes.drop 5] = some (restored v.value) ↔ Carried tokenNumbers v.value :=
  transport_round_trip_iff tokenNumbers _ _ (by
    rw [List.flatten_cons, List.flatten_cons, List.flatten_nil, List.append_nil]
    exact List.take_append_drop 5 _)

/-- A `Buffer` does not come back as bytes, and an object with the members of an envelope does. -/
theorem transport_loses_buffer :
    deserialize tokenNumbers [serialize tokenNumbers (.bytes .buffer [1, 2, 3])] =
      some (.obj [(utf16 "type", .str (utf16 "Buffer")), (utf16 "data", .arr [.num ['1'], .num ['2'], .num ['3']])]) ∧
    deserialize tokenNumbers [serialize tokenNumbers
        (.obj [(utf16 "__type", .str (utf16 "Uint8Array")), (utf16 "data", .str (utf16 "AQID"))])] =
      some (.bytes .uint8Array [1, 2, 3]) := by
  have hsent : ∀ v : Value (List Char), deserialize tokenNumbers [serialize tokenNumbers v] = some (arrived tokenNumbers v) :=
    fun v => deserialize_eq (List.append_nil _)
  rw [hsent, hsent]
  exact ⟨rfl, rfl⟩

end WorkflowWorld.Transport
