/-
JSON as ECMAScript reads and writes it: `JSON.parse` on a text, `JSON.stringify` without spaces on a
value. Strings are code units, so that a lone surrogate survives as its escape; the members of an
object are in the order of its own keys. How numbers are read and printed is a parameter. Writing a
value and reading it back gives the value exactly when its objects keep the order of their keys and
its numbers are what they print.
-/
import WorkflowWorld.Text.Base64
import Mathlib.Data.List.Forall2
import Mathlib.Data.List.TakeWhile

namespace Text

/-! ## Objects -/

/-- The index a key denotes when it is the decimal of a number below `2^32 - 1`. -/
def arrayIndex (key : Units) : Option Nat :=
  if key.isEmpty || !key.all (fun u => 48 ≤ u && u ≤ 57) || (key.head? == some 48 && key.length != 1) then none
  else
    let n := key.foldl (fun n u => n * 10 + (u.toNat - 48)) 0
    if n < 4294967295 then some n else none

/-- Own keys come in the order of their indices, and after these in the order of their creation. -/
def keyLe (a b : Units) : Bool :=
  match arrayIndex a, arrayIndex b with
  | some i, some j => i ≤ j
  | none, some _ => false
  | _, none => true

theorem keyLe_trans {a b c : Units} (h : keyLe a b) (h' : keyLe b c) : keyLe a c := by
  unfold keyLe at *
  cases ha : arrayIndex a <;> cases hb : arrayIndex b <;> cases hc : arrayIndex c <;> simp_all
  omega

theorem keyLe_total {a b : Units} (h : keyLe a b = false) : keyLe b a := by
  unfold keyLe at *
  cases ha : arrayIndex a <;> cases hb : arrayIndex b <;> simp_all
  omega

inductive Json (ν : Type) where
  | null
  | bool (b : Bool)
  | num (n : ν)
  | str (s : Units)
  | arr (elements : List (Json ν))
  | obj (members : List (Units × Json ν))

variable {ν : Type}

/-- The members of an object. -/
abbrev Members (ν : Type) := List (Units × Json ν)

/-- `CreateDataProperty`: the value of an own key is replaced in place, a new one gets the place of its
key. -/
def createDataProperty (members : Members ν) (key : Units) (value : Json ν) : Members ν :=
  if members.any (·.1 == key) then members.map fun m => if m.1 = key then (key, value) else m
  else members.takeWhile (fun m => keyLe m.1 key) ++ (key, value) :: members.dropWhile fun m => keyLe m.1 key

/-- The object with these members, created one after the other. -/
def makeObject (members : Members ν) : Members ν :=
  members.foldl (fun object m => createDataProperty object m.1 m.2) []

/-- The keys are distinct and in the order of own keys. -/
def Ordered (members : Members ν) : Prop := members.Pairwise fun a b => keyLe a.1 b.1 = true ∧ a.1 ≠ b.1

theorem Ordered.map_value {members : Members ν} (h : Ordered members) (f : Units × Json ν → Units × Json ν)
    (hf : ∀ m, (f m).1 = m.1) : Ordered (members.map f) := by
  rw [Ordered, List.pairwise_map]
  exact h.imp fun hab => by rwa [hf, hf]

theorem Ordered.createDataProperty {members : Members ν} (h : Ordered members) (key : Units) (value : Json ν) :
    Ordered (createDataProperty members key value) := by
  unfold Text.createDataProperty
  split
  · exact h.map_value _ fun m => by split <;> simp [*]
  · rename_i hnew
    simp only [List.any_eq_true, beq_iff_eq, not_exists, not_and] at hnew
    have hparts := h
    rw [← List.takeWhile_append_dropWhile (l := members) (p := fun m => keyLe m.1 key), Ordered,
      List.pairwise_append] at hparts
    obtain ⟨hfront, hback, hacross⟩ := hparts
    have hafter : ∀ m ∈ members.dropWhile (fun m => keyLe m.1 key), keyLe key m.1 = true := by
      cases hd : members.dropWhile (fun m => keyLe m.1 key) with
      | nil => exact fun m hm => absurd hm List.not_mem_nil
      | cons first rest =>
        have hfirst : keyLe first.1 key = false := by
          have := List.head_dropWhile_not (fun m : Units × Json ν => keyLe m.1 key) (l := members) (by rw [hd]; simp)
          simpa [hd] using this
        rw [hd, List.pairwise_cons] at hback
        intro m hm
        rcases List.mem_cons.1 hm with rfl | hm
        · exact keyLe_total hfirst
        · exact keyLe_trans (keyLe_total hfirst) (hback.1 m hm).1
    refine List.pairwise_append.2 ⟨hfront, List.pairwise_cons.2 ⟨fun m hm => ⟨hafter m hm, fun heq => ?_⟩, hback⟩, ?_⟩
    · exact hnew m ((List.dropWhile_sublist _).subset hm) heq.symm
    · intro a ha b hb
      rcases List.mem_cons.1 hb with rfl | hb
      · have hle : keyLe a.1 key = true := List.mem_takeWhile_imp (p := fun m : Units × Json ν => keyLe m.1 key) ha
        exact ⟨hle, hnew a ((List.takeWhile_sublist _).subset ha)⟩
      · exact hacross a ha b hb

theorem ordered_makeObject (members : Members ν) : Ordered (makeObject members) := by
  have hall : ∀ object : Members ν, Ordered object →
      Ordered (members.foldl (fun object m => createDataProperty object m.1 m.2) object) := by
    induction members with
    | nil => exact fun _ h => h
    | cons m members ih => exact fun object h => ih _ (h.createDataProperty m.1 m.2)
  exact hall [] .nil

/-- A key past all the others is put at the end. -/
theorem createDataProperty_last {members : Members ν} {key : Units} {value : Json ν}
    (h : ∀ m ∈ members, keyLe m.1 key = true ∧ m.1 ≠ key) :
    createDataProperty members key value = members ++ [(key, value)] := by
  have hnew : ¬ members.any (·.1 == key) = true := by
    rw [List.any_eq_true]
    rintro ⟨m, hm, hk⟩
    exact (h m hm).2 (beq_iff_eq.1 hk)
  have htake : members.takeWhile (fun m => keyLe m.1 key) = members :=
    List.takeWhile_eq_self_iff.2 fun m hm => (h m hm).1
  have hdrop : members.dropWhile (fun m => keyLe m.1 key) = [] :=
    List.dropWhile_eq_nil_iff.2 fun m hm => (h m hm).1
  rw [createDataProperty, if_neg hnew, htake, hdrop]

theorem makeObject_of_ordered {members : Members ν} (h : Ordered members) : makeObject members = members := by
  have hall : ∀ object : Members ν, Ordered (object ++ members) →
      members.foldl (fun object m => createDataProperty object m.1 m.2) object = object ++ members := by
    clear h
    induction members with
    | nil => intro object _; simp
    | cons m members ih =>
      intro object h
      rw [List.foldl_cons, createDataProperty_last, ih]
      · simp
      · simpa using h
      · intro m' hm'
        exact (List.pairwise_append.1 h).2.2 m' hm' m List.mem_cons_self
  exact hall [] h

/-- The members with the value of one key replaced. -/
def replaced (members : Members ν) (key : Units) (value : Json ν) : Members ν :=
  members.map fun m => if m.1 = key then (key, value) else m

/-- An own key keeps its place. -/
theorem createDataProperty_own {members : Members ν} {key : Units} {old : Json ν} (h : members.lookup key = some old)
    (value : Json ν) : createDataProperty members key value = replaced members key value := by
  obtain ⟨front, back, rfl, -⟩ := List.lookup_eq_some_iff.1 h
  rw [createDataProperty, if_pos (by simp)]
  rfl

theorem Ordered.replaced {members : Members ν} (h : Ordered members) (key : Units) (value : Json ν) :
    Ordered (replaced members key value) :=
  h.map_value _ fun m => by split <;> simp [*]

theorem mem_of_lookup {members : Members ν} {key : Units} {value : Json ν} (h : members.lookup key = some value) :
    (key, value) ∈ members := by
  obtain ⟨front, back, rfl, -⟩ := List.lookup_eq_some_iff.1 h
  simp

theorem Ordered.lookup {members : Members ν} (h : Ordered members) {m : Units × Json ν} (hm : m ∈ members) :
    members.lookup m.1 = some m.2 := by
  obtain ⟨front, back, rfl⟩ := List.append_of_mem hm
  refine List.lookup_eq_some_iff.2 ⟨front, back, rfl, fun a ha => ?_⟩
  exact bne_iff_ne.2 ((List.pairwise_append.1 h).2.2 a ha m List.mem_cons_self).2.symm

theorem lookup_replaced (members : Members ν) (key : Units) (value : Json ν) (key' : Units) :
    (replaced members key value).lookup key' =
      if key' = key then (members.lookup key').map fun _ => value else members.lookup key' := by
  induction members with
  | nil => simp [replaced]
  | cons m members ih =>
    obtain ⟨k, v⟩ := m
    rw [replaced, List.map_cons, ← replaced]
    by_cases hk : k = key
    · subst hk
      by_cases hk' : key' = k
      · simp [hk']
      · have hbeq : (key' == k) = false := beq_false_of_ne hk'
        simp [hk', List.lookup_cons, hbeq, ih]
    · simp only [if_neg hk, List.lookup_cons]
      by_cases hk' : key' = k
      · subst hk'
        simp [hk]
      · have hbeq : (key' == k) = false := beq_false_of_ne hk'
        simp [hbeq, ih]

/-- A replacement by the value that is there. -/
theorem Ordered.replaced_self {members : Members ν} (h : Ordered members) {key : Units} {value : Json ν}
    (hv : members.lookup key = some value) : Text.replaced members key value = members := by
  rw [Text.replaced]
  conv_rhs => rw [← List.map_id members]
  refine List.map_congr_left fun m hm => ?_
  split
  · rename_i hk
    subst hk
    have hm := h.lookup hm
    rw [hv] at hm
    exact Prod.ext rfl (Option.some.inj hm)
  · rfl

theorem lookup_filter (p : Units → Bool) (members : Members ν) (key : Units) :
    (members.filter fun m => p m.1).lookup key = if p key then members.lookup key else none := by
  induction members with
  | nil => simp
  | cons m members ih =>
    obtain ⟨k, v⟩ := m
    rw [List.filter_cons]
    by_cases hkey : key = k
    · subst hkey
      by_cases hk : p key
      · simp [hk]
      · simp [hk, ih]
    · have hbeq : (key == k) = false := beq_false_of_ne hkey
      by_cases hk : p k
      · simp [hk, List.lookup_cons, hbeq, ih]
      · simp [hk, List.lookup_cons, hbeq, ih]

/-! ## Strings -/

def isHigh (u : UInt16) : Bool := 0xD800 ≤ u && u ≤ 0xDBFF
def isLow (u : UInt16) : Bool := 0xDC00 ≤ u && u ≤ 0xDFFF

/-- The character of a surrogate pair. -/
def pairChar (high low : UInt16) : Char :=
  Char.ofNat (0x10000 + (high.toNat - 0xD800) * 0x400 + (low.toNat - 0xDC00))

def hexDigit (n : Nat) : Char := if n < 10 then Char.ofNat (48 + n) else Char.ofNat (87 + n)

def hexValue (c : Char) : Option Nat :=
  if '0' ≤ c && c ≤ '9' then some (c.toNat - 48)
  else if 'a' ≤ c && c ≤ 'f' then some (c.toNat - 87)
  else if 'A' ≤ c && c ≤ 'F' then some (c.toNat - 55)
  else none

/-- A code unit that is not half of a surrogate pair, as `JSON.stringify` writes it. -/
def quoteUnit (u : UInt16) : List Char :=
  if u = 8 then ['\\', 'b']
  else if u = 9 then ['\\', 't']
  else if u = 10 then ['\\', 'n']
  else if u = 12 then ['\\', 'f']
  else if u = 13 then ['\\', 'r']
  else if u = 34 then ['\\', '"']
  else if u = 92 then ['\\', '\\']
  else if u < 32 || isHigh u || isLow u then
    ['\\', 'u', hexDigit (u.toNat / 4096), hexDigit (u.toNat / 256 % 16), hexDigit (u.toNat / 16 % 16),
      hexDigit (u.toNat % 16)]
  else [Char.ofNat u.toNat]

def quoteUnits : Units → List Char
  | [] => []
  | [u] => quoteUnit u
  | u :: v :: us =>
    if isHigh u && isLow v then pairChar u v :: quoteUnits us else quoteUnit u ++ quoteUnits (v :: us)

def quote (s : Units) : List Char := '"' :: quoteUnits s ++ ['"']

def escaped (c : Char) : Option UInt16 :=
  if c = '"' then some 34
  else if c = '\\' then some 92
  else if c = '/' then some 47
  else if c = 'b' then some 8
  else if c = 'f' then some 12
  else if c = 'n' then some 10
  else if c = 'r' then some 13
  else if c = 't' then some 9
  else none

def hexUnit (a b c d : Char) : Option UInt16 := do
  let a ← hexValue a
  let b ← hexValue b
  let c ← hexValue c
  let d ← hexValue d
  return UInt16.ofNat (a * 4096 + b * 256 + c * 16 + d)

def prepend (us : Units) : Option (Units × List Char) → Option (Units × List Char)
  | some (s, rest) => some (us ++ s, rest)
  | none => none

/-- A string after its opening quote, and what follows it. -/
def parseString : List Char → Option (Units × List Char)
  | [] => none
  | c :: text =>
    if c = '"' then some ([], text)
    else if c = '\\' then
      match text with
      | 'u' :: a :: b :: c :: d :: text => (hexUnit a b c d).bind fun u => prepend [u] (parseString text)
      | e :: text => (escaped e).bind fun u => prepend [u] (parseString text)
      | [] => none
    else if c.toNat < 32 then none
    else prepend (charUnits c) (parseString text)

theorem toNat_ofNat {n : Nat} (h : n.isValidChar) : (Char.ofNat n).toNat = n := by
  rw [Char.ofNat, dif_pos h]
  rfl

theorem hexValue_hexDigit {n : Nat} (h : n < 16) : hexValue (hexDigit n) = some n := by
  have hall : ∀ n : Fin 16, hexValue (hexDigit n) = some n.val := by decide
  exact hall ⟨n, h⟩

/-- A code unit that stands for a character of its own. -/
theorem charUnits_unit {u : UInt16} (hh : isHigh u = false) (hl : isLow u = false) :
    (Char.ofNat u.toNat).toNat = u.toNat ∧ charUnits (Char.ofNat u.toNat) = [u] := by
  have hu := u.toNat_lt
  simp only [isHigh, isLow, UInt16.le_iff_toNat_le, Bool.and_eq_false_iff, decide_eq_false_iff_not, UInt16.reduceToNat] at hh hl
  have hn : (Char.ofNat u.toNat).toNat = u.toNat := toNat_ofNat (by simp only [Nat.isValidChar]; omega)
  refine ⟨hn, ?_⟩
  rw [charUnits, hn, if_pos (by omega), UInt16.ofNat_toNat]

theorem charUnits_pair {u v : UInt16} (hu : isHigh u) (hv : isLow v) :
    0x10000 ≤ (pairChar u v).toNat ∧ charUnits (pairChar u v) = [u, v] := by
  simp only [isHigh, isLow, UInt16.le_iff_toNat_le, Bool.and_eq_true, decide_eq_true_eq, UInt16.reduceToNat] at hu hv
  have hn : (pairChar u v).toNat = 0x10000 + (u.toNat - 0xD800) * 0x400 + (v.toNat - 0xDC00) :=
    toNat_ofNat (by simp only [Nat.isValidChar]; omega)
  refine ⟨by omega, ?_⟩
  have hhigh : 0xD800 + ((pairChar u v).toNat - 0x10000) / 0x400 = u.toNat := by omega
  have hlow : 0xDC00 + ((pairChar u v).toNat - 0x10000) % 0x400 = v.toNat := by omega
  rw [charUnits, if_neg (by omega), hhigh, hlow, UInt16.ofNat_toNat, UInt16.ofNat_toNat]

/-- A character that is not escaped. -/
theorem parseString_char {c : Char} (hc : 32 ≤ c.toNat) (hq : c.toNat ≠ 34) (hb : c.toNat ≠ 92)
    (text : List Char) : parseString (c :: text) = prepend (charUnits c) (parseString text) := by
  have hquote : c ≠ '"' := fun h => hq (by rw [h]; rfl)
  have hback : c ≠ '\\' := fun h => hb (by rw [h]; rfl)
  rw [parseString.eq_def]
  simp only [if_neg hquote, if_neg hback, if_neg (Nat.not_lt.2 hc)]

theorem parseString_quoteUnit (u : UInt16) (text : List Char) :
    parseString (quoteUnit u ++ text) = prepend [u] (parseString text) := by
  unfold quoteUnit
  split
  · subst_vars; rfl
  split
  · subst_vars; rfl
  split
  · subst_vars; rfl
  split
  · subst_vars; rfl
  split
  · subst_vars; rfl
  split
  · subst_vars; rfl
  split
  · subst_vars; rfl
  split
  · have hu := u.toNat_lt
    have hhex : hexUnit (hexDigit (u.toNat / 4096)) (hexDigit (u.toNat / 256 % 16)) (hexDigit (u.toNat / 16 % 16))
        (hexDigit (u.toNat % 16)) = some u := by
      rw [hexUnit, hexValue_hexDigit (by omega), hexValue_hexDigit (by omega), hexValue_hexDigit (by omega),
        hexValue_hexDigit (by omega)]
      have hsum : u.toNat / 4096 * 4096 + u.toNat / 256 % 16 * 256 + u.toNat / 16 % 16 * 16 + u.toNat % 16 =
          u.toNat := by omega
      simp only [Option.bind_eq_bind, Option.bind_some, hsum, UInt16.ofNat_toNat]
      rfl
    simp only [List.cons_append, List.nil_append, parseString, hhex]
    rfl
  · rename_i h34 h92 hplain
    simp only [Bool.or_eq_true, not_or, decide_eq_true_eq, Bool.not_eq_true, UInt16.lt_iff_toNat_lt,
      UInt16.reduceToNat] at hplain
    obtain ⟨⟨hlt, hh⟩, hl⟩ := hplain
    obtain ⟨hn, hunits⟩ := charUnits_unit hh hl
    rw [List.cons_append, List.nil_append, parseString_char, hunits]
    · omega
    · rw [hn]
      exact fun h => h34 (UInt16.toNat_inj.1 h)
    · rw [hn]
      exact fun h => h92 (UInt16.toNat_inj.1 h)

theorem parseString_end (text : List Char) : parseString ('"' :: text) = some ([], text) := by
  simp [parseString.eq_def]

theorem parseString_quoteUnits (s : Units) (text : List Char) :
    parseString (quoteUnits s ++ '"' :: text) = some (s, text) := by
  induction s using quoteUnits.induct with
  | case1 => exact parseString_end text
  | case2 u =>
    rw [quoteUnits, parseString_quoteUnit, parseString_end]
    rfl
  | case3 u v us hpair ih =>
    rw [Bool.and_eq_true] at hpair
    obtain ⟨hn, hunits⟩ := charUnits_pair hpair.1 hpair.2
    rw [quoteUnits, if_pos (by simp [hpair]), List.cons_append, parseString_char (by omega) (by omega) (by omega),
      hunits, ih]
    rfl
  | case4 u v us hpair ih =>
    rw [quoteUnits, if_neg hpair, List.append_assoc, parseString_quoteUnit, ih]
    rfl

theorem quoteUnits_of_isPlain {s : Units} (h : ∀ u ∈ s, isPlain u) :
    quoteUnits s = s.map fun u => Char.ofNat u.toNat := by
  have hunit : ∀ u, isPlain u → isHigh u = false ∧ quoteUnit u = [Char.ofNat u.toNat] := by
    intro u hu
    simp only [isPlain, Bool.and_eq_true, decide_eq_true_eq, bne_iff_ne, UInt16.le_iff_toNat_le,
      UInt16.lt_iff_toNat_lt, UInt16.reduceToNat] at hu
    obtain ⟨⟨⟨hlow, hhigh⟩, hquote⟩, hback⟩ := hu
    have hne : ∀ v : UInt16, v.toNat < 32 → u ≠ v := fun v hv heq => by subst heq; omega
    have hnot : (u < 32 || isHigh u || isLow u) = false := by
      simp only [isHigh, isLow, UInt16.le_iff_toNat_le, UInt16.lt_iff_toNat_lt, UInt16.reduceToNat,
        Bool.or_eq_false_iff, Bool.and_eq_false_iff, decide_eq_false_iff_not]
      omega
    refine ⟨(Bool.or_eq_false_iff.1 (Bool.or_eq_false_iff.1 hnot).1).2, ?_⟩
    rw [quoteUnit, if_neg (hne 8 (by decide)), if_neg (hne 9 (by decide)), if_neg (hne 10 (by decide)),
      if_neg (hne 12 (by decide)), if_neg (hne 13 (by decide)), if_neg hquote, if_neg hback, if_neg (by simp [hnot])]
  induction s using quoteUnits.induct with
  | case1 => rfl
  | case2 u => rw [quoteUnits, (hunit u (h u List.mem_cons_self)).2, List.map_singleton]
  | case3 u v us hpair ih =>
    rw [(hunit u (h u List.mem_cons_self)).1] at hpair
    exact absurd hpair (by simp)
  | case4 u v us hpair ih =>
    rw [quoteUnits, if_neg hpair, (hunit u (h u List.mem_cons_self)).2,
      ih fun w hw => h w (List.mem_cons_of_mem _ hw)]
    rfl

/-! ## Numbers -/

def isDigit (c : Char) : Bool := '0' ≤ c && c ≤ '9'

def isNumberChar (c : Char) : Bool := isDigit c || c = '-' || c = '+' || c = '.' || c = 'e' || c = 'E'

/-- One digit at least, and nothing else. -/
def isDigits (text : List Char) : Bool := !text.isEmpty && text.all isDigit

def isExponent : List Char → Bool
  | [] => true
  | c :: text =>
    (c = 'e' || c = 'E') &&
      match text with
      | s :: digits => if s = '+' || s = '-' then isDigits digits else isDigits text
      | [] => false

def isFraction : List Char → Bool
  | [] => true
  | c :: text =>
    if c = '.' then isDigits (text.takeWhile isDigit) && isExponent (text.dropWhile isDigit)
    else isExponent (c :: text)

def isMagnitude : List Char → Bool
  | [] => false
  | c :: text => if c = '0' then isFraction text else isDigit c && isFraction (text.dropWhile isDigit)

/-- The number tokens of JSON. -/
def isNumber : List Char → Bool
  | [] => false
  | c :: text => if c = '-' then isMagnitude text else isMagnitude (c :: text)

/-- The numbers of a program: how a token is read, and how a number is printed (one that is not finite
is written as `null`). -/
structure Numbers (ν : Type) where
  read : List Char → ν
  print : ν → Option (List Char)
  print_isNumber : ∀ n text, print n = some text → isNumber text = true
  print_one : print (read ['1']) = some ['1']

theorem isNumberChar_of_digit {c : Char} (h : isDigit c) : isNumberChar c := by
  simp [isNumberChar, h]

theorem mem_of_dropWhile {p : Char → Bool} {text : List Char} (hdrop : ∀ c ∈ text.dropWhile p, isNumberChar c)
    (htake : ∀ c, p c → isNumberChar c) : ∀ c ∈ text, isNumberChar c := by
  intro c hc
  rw [← List.takeWhile_append_dropWhile (p := p) (l := text), List.mem_append] at hc
  rcases hc with hc | hc
  · exact htake c (List.mem_takeWhile_imp hc)
  · exact hdrop c hc

theorem isDigits_chars {text : List Char} (h : isDigits text) : ∀ c ∈ text, isNumberChar c := by
  simp only [isDigits, Bool.and_eq_true, List.all_eq_true] at h
  exact fun c hc => isNumberChar_of_digit (h.2 c hc)

theorem isExponent_chars {text : List Char} (h : isExponent text) : ∀ c ∈ text, isNumberChar c := by
  match text, h with
  | [], _ => exact fun c hc => absurd hc List.not_mem_nil
  | [e], h => simp [isExponent] at h
  | e :: s :: digits, h =>
    simp only [isExponent, Bool.and_eq_true, Bool.or_eq_true, decide_eq_true_eq] at h
    obtain ⟨he, h⟩ := h
    have hhead : isNumberChar e := by rcases he with rfl | rfl <;> decide
    refine List.forall_mem_cons.2 ⟨hhead, ?_⟩
    split at h
    · rename_i hs
      refine List.forall_mem_cons.2 ⟨?_, isDigits_chars h⟩
      rcases hs with rfl | rfl <;> decide
    · exact isDigits_chars h

theorem isFraction_chars {text : List Char} (h : isFraction text) : ∀ c ∈ text, isNumberChar c := by
  cases text with
  | nil => exact fun c hc => absurd hc List.not_mem_nil
  | cons c text =>
    rw [isFraction] at h
    split at h
    · rename_i hc
      rw [Bool.and_eq_true] at h
      refine List.forall_mem_cons.2 ⟨by subst hc; decide, ?_⟩
      exact mem_of_dropWhile (isExponent_chars h.2) fun _ => isNumberChar_of_digit
    · exact isExponent_chars h

theorem isMagnitude_chars {text : List Char} (h : isMagnitude text) : ∀ c ∈ text, isNumberChar c := by
  cases text with
  | nil => exact fun c hc => absurd hc List.not_mem_nil
  | cons c text =>
    rw [isMagnitude] at h
    split at h
    · rename_i hc
      exact List.forall_mem_cons.2 ⟨by subst hc; decide, isFraction_chars h⟩
    · rw [Bool.and_eq_true] at h
      refine List.forall_mem_cons.2 ⟨isNumberChar_of_digit h.1, ?_⟩
      exact mem_of_dropWhile (isFraction_chars h.2) fun _ => isNumberChar_of_digit

theorem isNumber_chars {text : List Char} (h : isNumber text) : text ≠ [] ∧ ∀ c ∈ text, isNumberChar c := by
  cases text with
  | nil => simp [isNumber] at h
  | cons c text =>
    refine ⟨List.cons_ne_nil c text, ?_⟩
    rw [isNumber] at h
    split at h
    · rename_i hc
      exact List.forall_mem_cons.2 ⟨by subst hc; decide, isMagnitude_chars h⟩
    · exact isMagnitude_chars h

/-! ## Writing -/

/-- Texts with commas between them. -/
def joined : List (List Char) → List Char
  | [] => []
  | text :: texts => text ++ texts.flatMap (',' :: ·)

section Stringify

variable (N : Numbers ν)

mutual

/-- `JSON.stringify`. -/
def stringify : Json ν → List Char
  | .null => ['n', 'u', 'l', 'l']
  | .bool true => ['t', 'r', 'u', 'e']
  | .bool false => ['f', 'a', 'l', 's', 'e']
  | .num n => (N.print n).getD ['n', 'u', 'l', 'l']
  | .str s => quote s
  | .arr elements => '[' :: joined (stringifyElements elements) ++ [']']
  | .obj members => '{' :: joined (stringifyMembers members) ++ ['}']

def stringifyElements : List (Json ν) → List (List Char)
  | [] => []
  | v :: elements => stringify v :: stringifyElements elements

def stringifyMembers : List (Units × Json ν) → List (List Char)
  | [] => []
  | (key, v) :: members => (quote key ++ ':' :: stringify v) :: stringifyMembers members

end

/-- One member of an object, as it is written. -/
def stringifyMember (m : Units × Json ν) : List Char := quote m.1 ++ ':' :: stringify N m.2

theorem stringifyElements_eq (elements : List (Json ν)) :
    stringifyElements N elements = elements.map (stringify N) := by
  induction elements with
  | nil => rfl
  | cons v elements ih => rw [stringifyElements, ih, List.map_cons]

theorem stringifyMembers_eq (members : Members ν) :
    stringifyMembers N members = members.map (stringifyMember N) := by
  induction members with
  | nil => rfl
  | cons m members ih => rw [stringifyMembers, ih, List.map_cons, stringifyMember]

@[simp] theorem stringify_arr (elements : List (Json ν)) :
    stringify N (.arr elements) = '[' :: joined (elements.map (stringify N)) ++ [']'] := by
  rw [stringify, stringifyElements_eq]

@[simp] theorem stringify_obj (members : Members ν) :
    stringify N (.obj members) = '{' :: joined (members.map (stringifyMember N)) ++ ['}'] := by
  rw [stringify, stringifyMembers_eq]

end Stringify

/-- Induction on a value: an array or an object by all that it holds. -/
theorem Json.ind {motive : Json ν → Prop} (null : motive .null) (bool : ∀ b, motive (.bool b))
    (num : ∀ n, motive (.num n)) (str : ∀ s, motive (.str s))
    (arr : ∀ elements, (∀ v ∈ elements, motive v) → motive (.arr elements))
    (obj : ∀ members : Members ν, (∀ m ∈ members, motive m.2) → motive (.obj members)) (v : Json ν) : motive v :=
  @Json.rec ν motive (fun elements => ∀ v ∈ elements, motive v) (fun members => ∀ m ∈ members, motive m.2)
    (fun m => motive m.2)
    null bool num str arr obj (fun _ h => absurd h List.not_mem_nil)
    (fun _ _ hv hvs => List.forall_mem_cons.2 ⟨hv, hvs⟩) (fun _ h => absurd h List.not_mem_nil)
    (fun _ _ hm hms => List.forall_mem_cons.2 ⟨hm, hms⟩) (fun _ _ h => h) v

/-! ## Reading -/

def isSpace (c : Char) : Bool := c = ' ' || c = '\t' || c = '\n' || c = '\r'

def skipSpace (text : List Char) : List Char := text.dropWhile isSpace

section List

variable {α : Type} (item : List Char → Option (α × List Char)) (close : Char)

/-- The items of a list after its first one, up to the closing character. -/
def parseMore : Nat → List Char → Option (List α × List Char)
  | 0, _ => none
  | fuel + 1, text =>
    match skipSpace text with
    | [] => none
    | c :: text =>
      if c = close then some ([], text)
      else if c = ',' then do
        let (x, text) ← item text
        let (xs, text) ← parseMore fuel text
        return (x :: xs, text)
      else none

/-- The items of a list after its opening character. -/
def parseList (text : List Char) : Option (List α × List Char) :=
  match skipSpace text with
  | [] => none
  | c :: text =>
    if c = close then some ([], text)
    else do
      let (x, text) ← item (c :: text)
      let (xs, text) ← parseMore item close text.length text
      return (x :: xs, text)

end List

section Parse

variable (N : Numbers ν)

def parseNumber (text : List Char) : Option (Json ν × List Char) :=
  if isNumber (text.takeWhile isNumberChar) then
    some (.num (N.read (text.takeWhile isNumberChar)), text.dropWhile isNumberChar)
  else none

def parseLiteral : List Char → Option (Json ν × List Char)
  | 'n' :: 'u' :: 'l' :: 'l' :: text => some (.null, text)
  | 't' :: 'r' :: 'u' :: 'e' :: text => some (.bool true, text)
  | 'f' :: 'a' :: 'l' :: 's' :: 'e' :: text => some (.bool false, text)
  | _ => none

/-- A member of an object, its value read by `value`. -/
def parseMember (value : List Char → Option (Json ν × List Char)) (text : List Char) :
    Option ((Units × Json ν) × List Char) :=
  match skipSpace text with
  | [] => none
  | c :: text =>
    if c = '"' then do
      let (key, text) ← parseString text
      match skipSpace text with
      | ':' :: text => (value text).map fun (v, text) => ((key, v), text)
      | _ => none
    else none

/-- A value and what follows it; arrays and objects may be nested `fuel` deep. -/
def parseValue : Nat → List Char → Option (Json ν × List Char)
  | 0, _ => none
  | fuel + 1, text =>
    match skipSpace text with
    | [] => none
    | c :: text =>
      if c = '"' then (parseString text).map fun (s, text) => (.str s, text)
      else if c = '[' then (parseList (parseValue fuel) ']' text).map fun (vs, text) => (.arr vs, text)
      else if c = '{' then
        (parseList (parseMember (parseValue fuel)) '}' text).map fun (ms, text) => (.obj (makeObject ms), text)
      else if isNumberChar c then parseNumber N (c :: text)
      else parseLiteral (c :: text)

/-- `JSON.parse`: a text has no room for a deeper nesting than its length. -/
def parse (text : List Char) : Option (Json ν) :=
  match parseValue N text.length text with
  | some (v, rest) => if (skipSpace rest).isEmpty then some v else none
  | none => none

end Parse

/-! ## Reading what was written -/

/-- The text begins as a value or a member does. -/
def Starts (text : List Char) : Prop :=
  ∃ c rest, text = c :: rest ∧ isSpace c = false ∧ c ≠ ']' ∧ c ≠ '}'

/-- The text does not go on with a number. -/
def Ends (text : List Char) : Prop := ∀ c ∈ text.head?, isNumberChar c = false

theorem skipSpace_cons {c : Char} (h : isSpace c = false) (text : List Char) :
    skipSpace (c :: text) = c :: text := by
  rw [skipSpace, List.dropWhile_cons_of_neg (by simp [h])]

theorem length_le_joined {texts : List (List Char)} {text : List Char} (h : text ∈ texts) :
    text.length ≤ (joined texts).length := by
  cases texts with
  | nil => exact absurd h List.not_mem_nil
  | cons first texts =>
    rw [joined, List.length_append]
    rcases List.mem_cons.1 h with rfl | h
    · exact Nat.le_add_right _ _
    · have hsub : (',' :: text).length ≤ (texts.flatMap (',' :: ·)).length :=
        (List.sublist_flatten_of_mem (List.mem_map_of_mem h)).length_le
      rw [List.length_cons] at hsub
      omega

theorem length_le_more (texts : List (List Char)) : texts.length ≤ (texts.flatMap (',' :: ·)).length := by
  induction texts with
  | nil => exact Nat.le_refl 0
  | cons text texts ih =>
    rw [List.flatMap_cons, List.length_append, List.length_cons, List.length_cons]
    omega

section Items

variable {α : Type} {item : List Char → Option (α × List Char)} {close : Char}

/-- `item` reads the item from its text, whatever follows. -/
def ItemOf (item : List Char → Option (α × List Char)) (text : List Char) (x : α) : Prop :=
  Starts text ∧ ∀ rest, Ends rest → item (text ++ rest) = some (x, rest)

theorem ends_more (hclose : close = ']' ∨ close = '}') (texts : List (List Char)) (rest : List Char) :
    Ends (texts.flatMap (',' :: ·) ++ close :: rest) := by
  intro c hc
  cases texts with
  | nil =>
    obtain rfl : close = c := by simpa using hc
    rcases hclose with rfl | rfl <;> decide
  | cons text texts =>
    obtain rfl : ',' = c := by simpa using hc
    decide

theorem parseMore_joined (hclose : close = ']' ∨ close = '}') {texts : List (List Char)} {xs : List α}
    (h : List.Forall₂ (ItemOf item) texts xs) (rest : List Char) {fuel : Nat} (hfuel : texts.length < fuel) :
    parseMore item close fuel (texts.flatMap (',' :: ·) ++ close :: rest) = some (xs, rest) := by
  induction h generalizing fuel with
  | nil =>
    obtain ⟨fuel, rfl⟩ : ∃ k, fuel = k + 1 := ⟨fuel - 1, by simp at hfuel; omega⟩
    have hspace : isSpace close = false := by rcases hclose with rfl | rfl <;> decide
    simp [parseMore, skipSpace_cons hspace]
  | cons hx _ ih =>
    rename_i text x texts xs _
    obtain ⟨fuel, rfl⟩ : ∃ k, fuel = k + 1 := ⟨fuel - 1, by simp at hfuel; omega⟩
    have hcomma : ',' ≠ close := by rcases hclose with rfl | rfl <;> decide
    have hitem := hx.2 _ (ends_more hclose texts rest)
    rw [List.flatMap_cons, List.cons_append, List.cons_append, List.append_assoc, parseMore,
      skipSpace_cons (by decide)]
    simp only [if_neg hcomma, if_true, hitem, Option.bind_eq_bind, Option.bind_some, ih (by simpa using hfuel)]
    rfl

/-- A list reads back item by item. -/
theorem parseList_joined (hclose : close = ']' ∨ close = '}') {texts : List (List Char)} {xs : List α}
    (h : List.Forall₂ (ItemOf item) texts xs) (rest : List Char) :
    parseList item close (joined texts ++ close :: rest) = some (xs, rest) := by
  cases h with
  | nil =>
    have hspace : isSpace close = false := by rcases hclose with rfl | rfl <;> decide
    simp [parseList, joined, skipSpace_cons hspace]
  | cons hx hxs =>
    rename_i text x texts xs
    obtain ⟨c, start, rfl, hspace, hbracket, hbrace⟩ := hx.1
    have hne : c ≠ close := by rcases hclose with rfl | rfl <;> assumption
    have hitem := hx.2 _ (ends_more hclose texts rest)
    have hfuel : texts.length < (texts.flatMap (',' :: ·) ++ close :: rest).length := by
      have hle := length_le_more texts
      rw [List.length_append, List.length_cons]
      omega
    have hmore := parseMore_joined hclose hxs rest hfuel
    rw [joined, List.append_assoc, List.cons_append, parseList, skipSpace_cons hspace]
    rw [List.cons_append] at hitem
    simp only [if_neg hne, hitem, Option.bind_eq_bind, Option.bind_some, hmore]
    rfl

end Items

variable {N : Numbers ν}

/-- The value is what its text reads as: its objects have their keys in order, and its numbers are what
they print. -/
inductive Canonical (N : Numbers ν) : Json ν → Prop where
  | null : Canonical N .null
  | bool (b : Bool) : Canonical N (.bool b)
  | num {n : ν} {text : List Char} (print : N.print n = some text) (read : N.read text = n) : Canonical N (.num n)
  | str (s : Units) : Canonical N (.str s)
  | arr {elements : List (Json ν)} (each : ∀ v ∈ elements, Canonical N v) : Canonical N (.arr elements)
  | obj {members : Members ν} (ordered : Ordered members) (each : ∀ m ∈ members, Canonical N m.2) :
      Canonical N (.obj members)

theorem Canonical.ordered {members : Members ν} (h : Canonical N (.obj members)) : Ordered members := by
  cases h
  assumption

theorem Canonical.member {members : Members ν} (h : Canonical N (.obj members)) {key : Units} {value : Json ν}
    (hv : members.lookup key = some value) : Canonical N value := by
  cases h with
  | obj _ each => exact each _ (mem_of_lookup hv)

theorem Canonical.filter {members : Members ν} (h : Canonical N (.obj members)) (p : Units × Json ν → Bool) :
    Canonical N (.obj (members.filter p)) := by
  cases h with
  | obj ordered each => exact .obj (ordered.sublist List.filter_sublist) fun m hm => each m (List.mem_of_mem_filter hm)

theorem Canonical.replaced {members : Members ν} (h : Canonical N (.obj members)) (key : Units) {value : Json ν}
    (hv : Canonical N value) : Canonical N (.obj (Text.replaced members key value)) := by
  cases h with
  | obj ordered each =>
    refine .obj (ordered.replaced key value) fun m hm => ?_
    obtain ⟨m', hm', rfl⟩ := List.mem_map.1 hm
    split
    · exact hv
    · exact each m' hm'

theorem starts_of_number {c : Char} (h : isNumberChar c) (text : List Char) : Starts (c :: text) := by
  refine ⟨c, text, rfl, ?_, ?_, ?_⟩
  · by_contra hs
    simp only [isSpace, Bool.not_eq_false, Bool.or_eq_true, decide_eq_true_eq] at hs
    rcases hs with ((rfl | rfl) | rfl) | rfl <;> exact absurd h (by decide)
  · rintro rfl
    exact absurd h (by decide)
  · rintro rfl
    exact absurd h (by decide)

theorem starts_stringify (v : Json ν) : Starts (stringify N v) := by
  cases v with
  | null => exact ⟨_, _, rfl, by decide, by decide, by decide⟩
  | bool b => cases b <;> exact ⟨_, _, rfl, by decide, by decide, by decide⟩
  | num n =>
    rw [stringify]
    cases hp : N.print n with
    | none => exact ⟨_, _, rfl, by decide, by decide, by decide⟩
    | some text =>
      obtain ⟨hne, hchars⟩ := isNumber_chars (N.print_isNumber n text hp)
      obtain ⟨c, text, rfl⟩ := List.exists_cons_of_ne_nil hne
      exact starts_of_number (hchars c List.mem_cons_self) text
  | str s => exact ⟨_, _, rfl, by decide, by decide, by decide⟩
  | arr elements => exact ⟨_, _, stringify_arr N elements, by decide, by decide, by decide⟩
  | obj members => exact ⟨_, _, stringify_obj N members, by decide, by decide, by decide⟩

/-- A printed number reads as the number of its text. -/
theorem parseValue_number {text : List Char} (h : isNumber text) {rest : List Char} (hrest : Ends rest) (fuel : Nat) :
    parseValue N (fuel + 1) (text ++ rest) = some (.num (N.read text), rest) := by
  obtain ⟨hne, hchars⟩ := isNumber_chars h
  have htake : (text ++ rest).takeWhile isNumberChar = text ∧ (text ++ rest).dropWhile isNumberChar = rest := by
    rw [List.takeWhile_append_of_pos hchars, List.dropWhile_append_of_pos hchars]
    cases rest with
    | nil => simp
    | cons c rest =>
      have hc : isNumberChar c = false := hrest c rfl
      simp [hc]
  obtain ⟨c, start, rfl⟩ := List.exists_cons_of_ne_nil hne
  have hc := hchars c List.mem_cons_self
  obtain ⟨c', rest', heq, hspace, -, -⟩ := starts_of_number hc start
  cases heq
  have hquote : c ≠ '"' := by rintro rfl; exact absurd hc (by decide)
  have hbracket : c ≠ '[' := by rintro rfl; exact absurd hc (by decide)
  have hbrace : c ≠ '{' := by rintro rfl; exact absurd hc (by decide)
  rw [List.cons_append] at htake ⊢
  rw [parseValue, skipSpace_cons hspace]
  simp only [if_neg hquote, if_neg hbracket, if_neg hbrace, if_pos hc, parseNumber, htake.1, htake.2, if_pos h]

section Reread

variable (N : Numbers ν)

mutual

/-- What the text of a value reads as: a number that is not finite as `null`, and an object with its keys in order. -/
def reread : Json ν → Json ν
  | .null => .null
  | .bool b => .bool b
  | .num n =>
    match N.print n with
    | some text => .num (N.read text)
    | none => .null
  | .str s => .str s
  | .arr elements => .arr (rereadElements elements)
  | .obj members => .obj (makeObject (rereadMembers members))

def rereadElements : List (Json ν) → List (Json ν)
  | [] => []
  | v :: elements => reread v :: rereadElements elements

def rereadMembers : List (Units × Json ν) → List (Units × Json ν)
  | [] => []
  | (key, v) :: members => (key, reread v) :: rereadMembers members

end

theorem rereadElements_eq (elements : List (Json ν)) : rereadElements N elements = elements.map (reread N) := by
  induction elements with
  | nil => rfl
  | cons v elements ih => rw [rereadElements, ih, List.map_cons]

theorem rereadMembers_eq (members : Members ν) :
    rereadMembers N members = members.map fun m => (m.1, reread N m.2) := by
  induction members with
  | nil => rfl
  | cons m members ih => rw [rereadMembers, ih, List.map_cons]

@[simp] theorem reread_arr (elements : List (Json ν)) : reread N (.arr elements) = .arr (elements.map (reread N)) := by
  rw [reread, rereadElements_eq]

@[simp] theorem reread_obj (members : Members ν) :
    reread N (.obj members) = .obj (makeObject (members.map fun m => (m.1, reread N m.2))) := by
  rw [reread, rereadMembers_eq]

end Reread

/-- What the text of `v` reads as: `w`, which is `v` exactly when `v` is canonical. -/
structure Reads (N : Numbers ν) (v w : Json ν) : Prop where
  reads : ∀ fuel rest, (stringify N v).length ≤ fuel → Ends rest →
    parseValue N fuel (stringify N v ++ rest) = some (w, rest)
  same : w = v ↔ Canonical N v

/-- The members are read key by key. -/
def MemberReads (N : Numbers ν) (m m' : Units × Json ν) : Prop := m'.1 = m.1 ∧ Reads N m.2 m'.2

theorem reads_arr {elements elements' : List (Json ν)} (h : List.Forall₂ (Reads N) elements elements') :
    Reads N (.arr elements) (.arr elements') := by
  refine ⟨fun fuel rest hfuel hrest => ?_, ?_⟩
  · rw [stringify_arr, List.length_append, List.length_cons, List.length_singleton] at hfuel
    obtain ⟨fuel, rfl⟩ : ∃ k, fuel = k + 1 := ⟨fuel - 1, by omega⟩
    have hitems : List.Forall₂ (ItemOf (parseValue N fuel)) (elements.map (stringify N)) elements' := by
      rw [List.forall₂_map_left_iff]
      refine ((List.forall₂_and_left _ _).2 ⟨fun v hv => hv, h⟩).imp fun v w hvw => ⟨starts_stringify v, fun rest hends => ?_⟩
      have hlen := length_le_joined (List.mem_map_of_mem (f := stringify N) hvw.1)
      exact hvw.2.reads fuel rest (by omega) hends
    rw [stringify_arr, List.cons_append, List.cons_append, List.append_assoc, List.cons_append, List.nil_append, parseValue,
      skipSpace_cons (by decide)]
    simp only [parseList_joined (.inl rfl) hitems rest, Char.reduceEq, if_false, if_true, Option.map_some]
  · rw [Json.arr.injEq]
    constructor
    · rintro rfl
      exact .arr fun v hv => ((List.forall₂_same.1 h) v hv).same.1 rfl
    · rintro ⟨⟩
      rename_i heach
      have hsame : List.Forall₂ (· = ·) elements elements' :=
        ((List.forall₂_and_left _ _).2 ⟨heach, h⟩).imp fun v w hvw => (hvw.2.same.2 hvw.1).symm
      exact (List.forall₂_eq_eq_eq ▸ hsame).symm

theorem reads_obj {members members' : Members ν} (h : List.Forall₂ (MemberReads N) members members') :
    Reads N (.obj members) (.obj (makeObject members')) := by
  refine ⟨fun fuel rest hfuel hrest => ?_, ?_⟩
  · rw [stringify_obj, List.length_append, List.length_cons, List.length_singleton] at hfuel
    obtain ⟨fuel, rfl⟩ : ∃ k, fuel = k + 1 := ⟨fuel - 1, by omega⟩
    have hitems : List.Forall₂ (ItemOf (parseMember (parseValue N fuel))) (members.map (stringifyMember N)) members' := by
      rw [List.forall₂_map_left_iff]
      refine ((List.forall₂_and_left _ _).2 ⟨fun m hm => hm, h⟩).imp fun m m' hmm => ⟨?_, fun rest hends => ?_⟩
      · exact ⟨_, _, rfl, by decide, by decide, by decide⟩
      · have hlen := length_le_joined (List.mem_map_of_mem (f := stringifyMember N) hmm.1)
        rw [stringifyMember, List.length_append, List.length_cons] at hlen
        have hvalue := hmm.2.2.reads fuel rest (by omega) hends
        simp only [stringifyMember, quote, List.cons_append, List.append_assoc, List.nil_append]
        rw [parseMember, skipSpace_cons (by decide)]
        simp only [if_true, parseString_quoteUnits, Option.bind_eq_bind, Option.bind_some]
        rw [skipSpace_cons (by decide)]
        simp only [hvalue, Option.map_some, ← hmm.2.1]
    rw [stringify_obj, List.cons_append, List.cons_append, List.append_assoc, List.cons_append, List.nil_append, parseValue,
      skipSpace_cons (by decide)]
    simp only [parseList_joined (.inr rfl) hitems rest, Char.reduceEq, if_false, if_true, Option.map_some]
  · have hkeys : members'.map (·.1) = members.map (·.1) := by
      induction h with
      | nil => rfl
      | cons hm _ ih => rw [List.map_cons, List.map_cons, hm.1, ih]
    have hordered : Ordered members' ↔ Ordered members := by
      have hmap : ∀ ms : Members ν, Ordered ms ↔ (ms.map (·.1)).Pairwise fun a b => keyLe a b = true ∧ a ≠ b :=
        fun ms => by rw [List.pairwise_map]; rfl
      rw [hmap, hmap, hkeys]
    rw [Json.obj.injEq]
    constructor
    · intro heq
      have ho : Ordered members := heq ▸ ordered_makeObject members'
      rw [makeObject_of_ordered (hordered.2 ho)] at heq
      subst heq
      exact .obj ho fun m hm => ((List.forall₂_same.1 h) m hm).2.same.1 rfl
    · rintro ⟨⟩
      rename_i ho heach
      have hsame : List.Forall₂ (· = ·) members members' :=
        ((List.forall₂_and_left _ _).2 ⟨heach, h⟩).imp fun m m' hmm => Prod.ext hmm.2.1.symm (hmm.2.2.same.2 hmm.1).symm
      rw [makeObject_of_ordered (hordered.2 ho)]
      exact (List.forall₂_eq_eq_eq ▸ hsame).symm

/-- Every text that was written reads as `reread` says. -/
theorem reads_reread (v : Json ν) : Reads N v (reread N v) := by
  induction v using Json.ind with
  | null =>
    refine ⟨fun fuel rest hfuel _ => ?_, by simp [reread, Canonical.null]⟩
    obtain ⟨fuel, rfl⟩ : ∃ k, fuel = k + 1 := ⟨fuel - 1, by simp [stringify] at hfuel; omega⟩
    rfl
  | bool b =>
    refine ⟨fun fuel rest hfuel _ => ?_, by simp [reread, Canonical.bool]⟩
    obtain ⟨fuel, rfl⟩ : ∃ k, fuel = k + 1 := ⟨fuel - 1, by cases b <;> simp [stringify] at hfuel <;> omega⟩
    cases b <;> rfl
  | num n =>
    rw [reread]
    cases hp : N.print n with
    | none =>
      -- A number that is not finite is written as null.
      refine ⟨fun fuel rest hfuel _ => ?_, ?_⟩
      · simp only [stringify, hp, Option.getD_none] at hfuel ⊢
        obtain ⟨fuel, rfl⟩ : ∃ k, fuel = k + 1 := ⟨fuel - 1, by simp at hfuel; omega⟩
        rfl
      · constructor
        · rintro ⟨⟩
        · rintro ⟨⟩
          simp_all
    | some text =>
      have hnumber := N.print_isNumber n text hp
      refine ⟨fun fuel rest hfuel hrest => ?_, ?_⟩
      · simp only [stringify, hp, Option.getD_some] at hfuel ⊢
        have hpos := List.length_pos_of_ne_nil (isNumber_chars hnumber).1
        obtain ⟨fuel, rfl⟩ : ∃ k, fuel = k + 1 := ⟨fuel - 1, by omega⟩
        exact parseValue_number hnumber hrest fuel
      · constructor
        · intro heq
          cases heq
          exact .num hp rfl
        · rintro ⟨⟩
          simp_all
  | str s =>
    refine ⟨fun fuel rest hfuel _ => ?_, by simp [reread, Canonical.str]⟩
    obtain ⟨fuel, rfl⟩ : ∃ k, fuel = k + 1 := ⟨fuel - 1, by simp [stringify, quote] at hfuel; omega⟩
    simp only [stringify, quote, List.cons_append, List.append_assoc, List.nil_append]
    rw [parseValue, skipSpace_cons (by decide)]
    simp only [if_true, parseString_quoteUnits, Option.map_some]
    rfl
  | arr elements ih =>
    rw [reread_arr]
    exact reads_arr (List.forall₂_map_right_iff.2 (List.forall₂_same.2 ih))
  | obj members ih =>
    rw [reread_obj]
    exact reads_obj (List.forall₂_map_right_iff.2 (List.forall₂_same.2 fun m hm => ⟨rfl, ih m hm⟩))

theorem parse_stringify_eq (v : Json ν) : parse N (stringify N v) = some (reread N v) := by
  have hread := (reads_reread (N := N) v).reads (stringify N v).length [] (Nat.le_refl _) (by simp [Ends])
  rw [List.append_nil] at hread
  rw [parse, hread]
  rfl

/-- What was written reads back as it was exactly when it is canonical. -/
theorem parse_stringify (v : Json ν) : parse N (stringify N v) = some v ↔ Canonical N v := by
  rw [parse_stringify_eq, Option.some.injEq]
  exact (reads_reread v).same

/-! ## The text of a value -/

/-- Character by character, so that evaluation does not search for a decision on the whole text. -/
theorem printable_of_all {text : List Char} (h : text.all (fun c => decide (32 ≤ c.toNat)) = true) :
    ∀ c ∈ text, 32 ≤ c.toNat :=
  fun c hc => of_decide_eq_true (List.all_eq_true.1 h c hc)

theorem printable_quoteUnit (u : UInt16) : ∀ c ∈ quoteUnit u, 32 ≤ c.toNat := by
  unfold quoteUnit
  split
  · exact printable_of_all rfl
  split
  · exact printable_of_all rfl
  split
  · exact printable_of_all rfl
  split
  · exact printable_of_all rfl
  split
  · exact printable_of_all rfl
  split
  · exact printable_of_all rfl
  split
  · exact printable_of_all rfl
  split
  · have hu := u.toNat_lt
    have hhex : ∀ n : Fin 16, 32 ≤ (hexDigit n).toNat := by decide
    intro c hc
    simp only [List.mem_cons, List.not_mem_nil, or_false] at hc
    rcases hc with rfl | rfl | rfl | rfl | rfl | rfl
    · decide
    · decide
    · exact hhex ⟨_, by omega⟩
    · exact hhex ⟨_, by omega⟩
    · exact hhex ⟨_, by omega⟩
    · exact hhex ⟨_, by omega⟩
  · rename_i hplain
    simp only [Bool.or_eq_true, not_or, decide_eq_true_eq, Bool.not_eq_true, UInt16.lt_iff_toNat_lt,
      UInt16.reduceToNat] at hplain
    obtain ⟨⟨hlt, hh⟩, hl⟩ := hplain
    intro c hc
    obtain rfl := List.mem_singleton.1 hc
    rw [(charUnits_unit hh hl).1]
    omega

theorem printable_quoteUnits (s : Units) : ∀ c ∈ quoteUnits s, 32 ≤ c.toNat := by
  induction s using quoteUnits.induct with
  | case1 => exact fun c hc => absurd hc List.not_mem_nil
  | case2 u =>
    rw [quoteUnits]
    exact printable_quoteUnit u
  | case3 u v us hpair ih =>
    rw [quoteUnits, if_pos hpair]
    rw [Bool.and_eq_true] at hpair
    have hchar := (charUnits_pair hpair.1 hpair.2).1
    exact List.forall_mem_cons.2 ⟨by omega, ih⟩
  | case4 u v us hpair ih =>
    rw [quoteUnits, if_neg hpair]
    exact List.forall_mem_append.2 ⟨printable_quoteUnit u, ih⟩

theorem printable_quote (s : Units) : ∀ c ∈ quote s, 32 ≤ c.toNat := by
  refine List.forall_mem_cons.2 ⟨by decide, List.forall_mem_append.2 ⟨printable_quoteUnits s, printable_of_all rfl⟩⟩

theorem printable_joined {texts : List (List Char)} (h : ∀ text ∈ texts, ∀ c ∈ text, 32 ≤ c.toNat) :
    ∀ c ∈ joined texts, 32 ≤ c.toNat := by
  cases texts with
  | nil => exact fun c hc => absurd hc List.not_mem_nil
  | cons text texts =>
    refine List.forall_mem_append.2 ⟨h text List.mem_cons_self, fun c hc => ?_⟩
    obtain ⟨text', htext', hc⟩ := List.mem_flatMap.1 hc
    rcases List.mem_cons.1 hc with rfl | hc
    · decide
    · exact h text' (List.mem_cons_of_mem _ htext') c hc

/-- The text of a value has no control characters. -/
theorem printable_stringify (v : Json ν) : ∀ c ∈ stringify N v, 32 ≤ c.toNat := by
  induction v using Json.ind with
  | null => rw [stringify]; exact printable_of_all rfl
  | bool b => cases b <;> rw [stringify] <;> exact printable_of_all rfl
  | num n =>
    rw [stringify]
    cases hp : N.print n with
    | none => exact printable_of_all rfl
    | some text =>
      intro c hc
      have hchar := (isNumber_chars (N.print_isNumber n text hp)).2 c hc
      simp only [isNumberChar, isDigit, Bool.or_eq_true, Bool.and_eq_true, decide_eq_true_eq] at hchar
      rcases hchar with ((((⟨hlow, -⟩ | rfl) | rfl) | rfl) | rfl) | rfl
      · exact le_trans (by decide) (Char.le_def.1 hlow)
      all_goals decide
  | str s =>
    rw [stringify]
    exact printable_quote s
  | arr elements ih =>
    rw [stringify_arr]
    refine List.forall_mem_append.2 ⟨List.forall_mem_cons.2 ⟨by decide, printable_joined ?_⟩, printable_of_all rfl⟩
    exact List.forall_mem_map.2 ih
  | obj members ih =>
    rw [stringify_obj]
    refine List.forall_mem_append.2 ⟨List.forall_mem_cons.2 ⟨by decide, printable_joined ?_⟩, printable_of_all rfl⟩
    refine List.forall_mem_map.2 fun m hm => List.forall_mem_append.2 ⟨printable_quote m.1, ?_⟩
    exact List.forall_mem_cons.2 ⟨by decide, ih m hm⟩

theorem more_sublist {texts texts' : List (List Char)} (h : texts'.Sublist texts) :
    (texts'.flatMap (',' :: ·)).Sublist (texts.flatMap (',' :: ·)) := by
  induction h with
  | slnil => exact .refl _
  | cons text _ ih =>
    rw [List.flatMap_cons]
    exact ih.trans (List.sublist_append_right _ _)
  | cons_cons text _ ih =>
    rw [List.flatMap_cons, List.flatMap_cons]
    exact ih.append_left _

/-- Leaving texts out leaves out of the joined text. -/
theorem joined_sublist {texts texts' : List (List Char)} (h : texts'.Sublist texts) :
    (joined texts').Sublist (joined texts) := by
  cases h with
  | slnil => exact .refl _
  | cons text h =>
    rename_i texts
    cases texts' with
    | nil => exact List.nil_sublist _
    | cons text' texts' =>
      have hmore : (',' :: joined (text' :: texts')).Sublist (texts.flatMap (',' :: ·)) := by
        have := more_sublist h
        rwa [List.flatMap_cons] at this
      exact ((List.sublist_cons_self _ _).trans hmore).trans (List.sublist_append_right _ _)
  | cons_cons text h => exact (more_sublist h).append_left _

theorem joined_forall₂ {texts texts' : List (List Char)} (h : List.Forall₂ List.Sublist texts' texts) :
    (joined texts').Sublist (joined texts) := by
  have hmore : ∀ {texts texts' : List (List Char)}, List.Forall₂ List.Sublist texts' texts →
      (texts'.flatMap (',' :: ·)).Sublist (texts.flatMap (',' :: ·)) := by
    intro texts texts' h
    induction h with
    | nil => exact .refl _
    | cons ht _ ih =>
      rw [List.flatMap_cons, List.flatMap_cons]
      exact (ht.cons_cons ',').append ih
  cases h with
  | nil => exact .refl _
  | cons ht hts => exact ht.append (hmore hts)

end Text
