import MDRack.Core.Common
import MDRack.Lib.Percent

/-!
# Typed facet values (`FacetScalarCodec`)

A facet holds a scalar as a string with a type tag.  `json.loads` is a parameter that reads back
what `json.dumps` writes.

* `encode`, `decode` — the tagged strings.
* `display`, `parseDisplay` — the JSON text of a facet, for queries.

Principal result: `facet_codec` — scalars that have a string are read back from it with their type,
and every string that is accepted is the string of its scalar.
-/

namespace MDRack.Metadata

open CodePoints
open Binary64 (F64)
open Checks

/-! ## Scalars -/

/-- `MetadataScalar`, with finite numbers only. -/
inductive Scalar
  | null
  | bool (b : Bool)
  | int (i : Int)
  | float (x : F64)
  | str (text : Text)

/-- Decimal digits of an integer. -/
def digitCount (i : Int) : Nat := (Nat.toDigits 10 i.natAbs).length

/-- `str(value)` of an integer, which the interpreter limits. -/
def strInt (i : Int) : Except Err (List Char) :=
  if digitCount i ≤ maxIntDigits then .ok (Json.intText i)
  else .error (.valueError "Exceeds the limit (4300 digits) for integer string conversion; use sys.set_int_max_str_digits() to increase the limit")

def escapePoint : CodePoint → Text
  | .char c => ofChars (Json.escapeChar c)
  | .surrogate n => [.surrogate n]

/-- `json.dumps(text, ensure_ascii=False)` of a string. -/
def quoteText (text : Text) : Text := .char '"' :: text.flatMap escapePoint ++ [.char '"']

/-- `json.dumps(value, ensure_ascii=False, allow_nan=False)`. -/
def dumpsScalar : Scalar → Except Err Text
  | .null => .ok (ofChars "null".toList)
  | .bool b => .ok (ofChars (if b then "true".toList else "false".toList))
  | .int i => (strInt i).map ofChars
  | .float x => .ok (ofChars (Binary64.repr x))
  | .str text => .ok (quoteText text)

/-! ## The codec -/

/-- `FacetScalarCodec.encode`. -/
def encode : Scalar → Except Err Text
  | .null => .ok (ofChars "z:null".toList)
  | .bool b => .ok (ofChars (if b then "b:true".toList else "b:false".toList))
  | .int i => (strInt i).map fun digits => ofChars ('i' :: ':' :: digits)
  | .float x => .ok (ofChars ('f' :: ':' :: Binary64.repr x))
  | .str text =>
    match characters? text with
    | some cs => .ok (ofChars ('s' :: ':' :: Percent.quote cs))
    | none => .error (.valueError "facet strings must be UTF-8 encodable")

/-- Scalars that have a string. -/
def Encodable : Scalar → Prop
  | .int i => digitCount i ≤ maxIntDigits
  | .str text => ∃ cs, text = ofChars cs
  | _ => True

/-- What `json.loads` returns: a scalar, or a container or a number that is not finite. -/
inductive Loaded
  | scalar (value : Scalar)
  | other

/-- `json.JSONDecodeError`, or any other exception. -/
inductive LoadError
  | malformed
  | raised (error : Err)

/-- `json.loads`, which reads back what `json.dumps` writes. -/
structure JsonReader where
  loads : Text → Except LoadError Loaded
  reads_back : ∀ value shown, Encodable value → dumpsScalar value = .ok shown →
    loads shown = .ok (.scalar value)

section Codec

variable (reader : JsonReader)

/-- The value, if its string is the one that has been read. -/
def canonical (encoded : Text) (value : Scalar) (message : String) : Except Err Scalar := do
  let again ← encode value
  require (again = encoded) (.valueError message)
  .ok value

def decodeInt (payload : Text) : Except Err Scalar :=
  match readInt isSpace maxIntDigits payload with
  | none => .error (.valueError "integer facet value is invalid")
  | some i => do
    require (ofChars (Json.intText i) = payload) (.valueError "integer facet value is not canonical")
    .ok (.int i)

def decodeFloat (encoded payload : Text) : Except Err Scalar :=
  match reader.loads payload with
  | .error .malformed => .error (.valueError "float facet value is invalid")
  | .error (.raised error) => .error error
  | .ok (.scalar (.float x)) => canonical encoded (.float x) "float facet value is not canonical"
  | .ok _ => .error (.valueError "float facet value is invalid")

def decodeString (encoded payload : Text) : Except Err Scalar :=
  match Percent.unquote payload with
  | none => .error (.valueError "string facet value is invalid UTF-8")
  | some text => canonical encoded (.str text) "string facet value is not canonical"

/-- `FacetScalarCodec.decode`. -/
def decode (encoded : Text) : Except Err Scalar :=
  match encoded with
  | point :: .char ':' :: payload =>
    if point = .char 'z' then
      if payload = ofChars "null".toList then .ok .null
      else .error (.valueError "null facet value is not canonical")
    else if point = .char 'b' then
      if payload = ofChars "true".toList then .ok (.bool true)
      else if payload = ofChars "false".toList then .ok (.bool false)
      else .error (.valueError "boolean facet value is not canonical")
    else if point = .char 'i' then decodeInt payload
    else if point = .char 'f' then decodeFloat reader encoded payload
    else if point = .char 's' then decodeString encoded payload
    else .error (.valueError "facet value has an unknown scalar type")
  | _ => .error (.valueError "facet value is not typed-scalar-v1")

/-- `FacetScalarCodec.display`. -/
def display (encoded : Text) : Except Err Text := do
  let value ← decode reader encoded
  dumpsScalar value

/-- `FacetScalarCodec.parse_display`. -/
def parseDisplay (value : Text) : Except Err Scalar :=
  match reader.loads value with
  | .error .malformed => .error (.valueError "metadata filter value must be a JSON scalar")
  | .error (.raised error) => .error error
  | .ok .other => .error (.valueError "metadata filter value must be a JSON scalar")
  | .ok (.scalar scalar) => do
    let _ ← encode scalar
    .ok scalar

end Codec

/-! ## Reading back -/

section RoundTrip

variable {reader : JsonReader} {value : Scalar} {encoded : Text}

theorem notInNumbers_isSpace : NotInNumbers isSpace := by
  rintro c (rfl | hc)
  · decide
  · simp only [Char.isDigit, Bool.and_eq_true, decide_eq_true_eq, UInt32.le_iff_toNat_le] at hc
    have hlow : 48 ≤ c.toNat := hc.1
    have hhigh : c.toNat ≤ 57 := hc.2
    simp only [isSpace, Bool.or_eq_false_iff, Bool.and_eq_false_iff, decide_eq_false_iff_not,
      beq_eq_false_iff_ne]
    omega

theorem strInt_ok {i : Int} {digits : List Char} :
    strInt i = .ok digits ↔ digitCount i ≤ maxIntDigits ∧ Json.intText i = digits := by
  unfold strInt
  split <;> simp [*]

/-- `int` reads the digits of an integer, up to the limit of both conversions. -/
theorem readInt_intText (i : Int) : readInt isSpace maxIntDigits (ofChars (Json.intText i)) =
    if digitCount i ≤ maxIntDigits then some i else none := by
  have hall := Binary64.toDigits_all_digit i.natAbs
  have hne : Nat.toDigits 10 i.natAbs ≠ [] := Nat.toDigits_ne_nil
  unfold Json.intText digitCount
  split
  · rename_i hneg
    rw [readInt_negative notInNumbers_isSpace hall hne, Nat.ofDigitChars_ten_toDigits]
    rw [show -(i.natAbs : Int) = i by omega]
  · rename_i hpos
    rw [readInt_digits notInNumbers_isSpace hall hne, Nat.ofDigitChars_ten_toDigits]
    rw [show (i.natAbs : Int) = i by omega]

theorem encode_total (h : Encodable value) : ∃ encoded, encode value = .ok encoded := by
  cases value with
  | null => exact ⟨_, rfl⟩
  | bool b => exact ⟨_, rfl⟩
  | int i => exact ⟨_, map_ok.mpr ⟨_, strInt_ok.mpr ⟨h, rfl⟩, rfl⟩⟩
  | float x => exact ⟨_, rfl⟩
  | str text =>
    obtain ⟨cs, rfl⟩ := h
    exact ⟨ofChars ('s' :: ':' :: Percent.quote cs), by simp [encode]⟩

theorem encodable_of_encode (h : encode value = .ok encoded) : Encodable value := by
  cases value with
  | null => trivial
  | bool b => trivial
  | int i =>
    obtain ⟨digits, hdigits, -⟩ := map_ok.mp h
    exact (strInt_ok.mp hdigits).1
  | float x => trivial
  | str text =>
    simp only [encode] at h
    split at h
    · rename_i cs hcs
      exact ⟨cs, characters?_eq_some.mp hcs⟩
    · cases h

/-- Scalars without a string are refused. -/
theorem encode_refused (h : ¬ Encodable value) :
    ∃ message, encode value = .error (.valueError message) := by
  cases hencode : encode value with
  | ok encoded => exact absurd (encodable_of_encode hencode) h
  | error error =>
    cases value with
    | null => cases hencode
    | bool b => cases hencode
    | int i =>
      simp only [encode, strInt] at hencode
      split at hencode
      · cases hencode
      · obtain rfl := Except.error.inj hencode
        exact ⟨_, rfl⟩
    | float x => cases hencode
    | str text =>
      simp only [encode] at hencode
      split at hencode
      · cases hencode
      · obtain rfl := Except.error.inj hencode
        exact ⟨_, rfl⟩

theorem canonical_ok {scalar : Scalar} {message : String} :
    canonical encoded scalar message = .ok value ↔ encode scalar = .ok encoded ∧ scalar = value := by
  simp only [canonical, bind_ok, require_ok, exists_const, Except.ok.injEq]
  constructor
  · rintro ⟨again, hagain, rfl, rfl⟩
    exact ⟨hagain, rfl⟩
  · rintro ⟨hencode, rfl⟩
    exact ⟨encoded, hencode, rfl, rfl⟩

theorem decode_encode (h : encode value = .ok encoded) : decode reader encoded = .ok value := by
  have hencodable := encodable_of_encode h
  have hcanonical (message : String) : canonical encoded value message = .ok value :=
    canonical_ok.mpr ⟨h, rfl⟩
  cases value with
  | null =>
    obtain rfl := Except.ok.inj h
    rfl
  | bool b =>
    obtain rfl := Except.ok.inj h
    cases b <;> rfl
  | int i =>
    obtain ⟨digits, hdigits, rfl⟩ := map_ok.mp h
    obtain ⟨hlimit, rfl⟩ := strInt_ok.mp hdigits
    show decodeInt (ofChars (Json.intText i)) = .ok (.int i)
    unfold decodeInt
    rw [readInt_intText, if_pos hlimit]
    simp only [require, if_true]
    rfl
  | float x =>
    obtain rfl := Except.ok.inj h
    have hread := reader.reads_back (.float x) _ hencodable rfl
    show decodeFloat reader _ (ofChars (Binary64.repr x)) = .ok (.float x)
    unfold decodeFloat
    rw [hread]
    exact hcanonical _
  | str text =>
    obtain ⟨cs, rfl⟩ := hencodable
    obtain rfl : ofChars ('s' :: ':' :: Percent.quote cs) = encoded := by
      simpa [encode] using h
    show decodeString _ (ofChars (Percent.quote cs)) = .ok (.str (ofChars cs))
    unfold decodeString
    rw [Percent.unquote_quote]
    exact hcanonical _

theorem decodeInt_ok {payload : Text} (h : decodeInt payload = .ok value) :
    ∃ i, value = .int i ∧ digitCount i ≤ maxIntDigits ∧ payload = ofChars (Json.intText i) := by
  unfold decodeInt at h
  split at h
  · cases h
  · rename_i i hread
    simp only [bind_ok, require_ok, exists_const, Except.ok.injEq] at h
    obtain ⟨rfl, rfl⟩ := h
    rw [readInt_intText] at hread
    exact ⟨i, rfl, by_contra fun hlong => by simp [if_neg hlong] at hread, rfl⟩

/-- Every string that is accepted is the string of its scalar. -/
theorem encode_decode (h : decode reader encoded = .ok value) : encode value = .ok encoded := by
  unfold decode at h
  split at h
  · rename_i point payload
    split at h
    · rename_i hpoint
      split at h
      · rename_i hpayload
        obtain rfl := Except.ok.inj h
        rw [hpoint, hpayload]
        rfl
      · cases h
    split at h
    · rename_i hpoint
      split at h
      · rename_i hpayload
        obtain rfl := Except.ok.inj h
        rw [hpoint, hpayload]
        rfl
      split at h
      · rename_i hpayload
        obtain rfl := Except.ok.inj h
        rw [hpoint, hpayload]
        rfl
      · cases h
    split at h
    · rename_i hpoint
      obtain ⟨i, rfl, hlimit, hpayload⟩ := decodeInt_ok h
      rw [hpoint, hpayload]
      exact map_ok.mpr ⟨_, strInt_ok.mpr ⟨hlimit, rfl⟩, rfl⟩
    split at h
    · unfold decodeFloat at h
      split at h
      · cases h
      · cases h
      · obtain ⟨hencode, rfl⟩ := canonical_ok.mp h
        exact hencode
      · cases h
    split at h
    · unfold decodeString at h
      split at h
      · cases h
      · obtain ⟨hencode, rfl⟩ := canonical_ok.mp h
        exact hencode
    · cases h
  · cases h

theorem dumpsScalar_total (h : Encodable value) : ∃ shown, dumpsScalar value = .ok shown := by
  cases value with
  | int i => exact ⟨_, map_ok.mpr ⟨_, strInt_ok.mpr ⟨h, rfl⟩, rfl⟩⟩
  | _ => exact ⟨_, rfl⟩

/-- The text that a facet is displayed as is parsed back. -/
theorem parseDisplay_display (h : decode reader encoded = .ok value) :
    ∃ shown, display reader encoded = .ok shown ∧ parseDisplay reader shown = .ok value := by
  have hencode := encode_decode h
  have hencodable := encodable_of_encode hencode
  obtain ⟨shown, hshown⟩ := dumpsScalar_total hencodable
  refine ⟨shown, bind_ok.mpr ⟨value, h, hshown⟩, ?_⟩
  unfold parseDisplay
  rw [reader.reads_back value shown hencodable hshown]
  exact bind_ok.mpr ⟨encoded, hencode, rfl⟩

/-- Scalars that have a string are read back from it with their type, and the others are refused;
every string that is accepted is the string of its scalar, and different scalars have different
strings; and the text that a facet is displayed as is parsed back. -/
theorem facet_codec (reader : JsonReader) :
    (∀ value, Encodable value → ∃ encoded, encode value = .ok encoded ∧
      decode reader encoded = .ok value) ∧
    (∀ value, ¬ Encodable value → ∃ message, encode value = .error (.valueError message)) ∧
    (∀ encoded value, decode reader encoded = .ok value → encode value = .ok encoded) ∧
    (∀ a b encoded, encode a = .ok encoded → encode b = .ok encoded → a = b) ∧
    ∀ encoded value, decode reader encoded = .ok value → ∃ shown,
      display reader encoded = .ok shown ∧ parseDisplay reader shown = .ok value := by
  refine ⟨fun value h => ?_, fun value h => encode_refused h, fun encoded value h => encode_decode h,
    fun a b encoded ha hb => ?_, fun encoded value h => parseDisplay_display h⟩
  · obtain ⟨encoded, hencode⟩ := encode_total h
    exact ⟨encoded, hencode, decode_encode hencode⟩
  · have hread : decode reader encoded = .ok a := decode_encode ha
    rw [decode_encode hb] at hread
    exact (Except.ok.inj hread).symm

end RoundTrip

/-! ## A reader of compact text -/

section Reader

def ofJson : Json.Value → Loaded
  | .null => .scalar .null
  | .bool b => .scalar (.bool b)
  | .int i => .scalar (.int i)
  | .float x => .scalar (.float x)
  | .str s => .scalar (.str (ofChars s.toList))
  | _ => .other

/-- The reader that only takes the text that `json.dumps` writes. -/
def loadsCompact (text : Text) : Except LoadError Loaded :=
  match (characters? text).bind fun cs => Json.loads (String.ofList cs) with
  | some value => .ok (ofJson value)
  | none => .error .malformed

theorem loadsCompact_text (value : Json.Value) :
    loadsCompact (ofChars (Json.text value)) = .ok (ofJson value) := by
  have hloads : Json.loads (String.ofList (Json.text value)) = some value := Json.loads_dumps value
  unfold loadsCompact
  rw [characters?_ofChars, Option.bind_some, hloads]

theorem quoteText_ofChars (cs : List Char) : quoteText (ofChars cs) = ofChars (Json.quote cs) := by
  have hescape : (ofChars cs).flatMap escapePoint = ofChars (cs.flatMap Json.escapeChar) := by
    simp only [ofChars, List.flatMap_map, List.map_flatMap]
    rfl
  rw [quoteText, hescape]
  simp [Json.quote, ofChars]

theorem loadsCompact_reads_back (value : Scalar) (shown : Text) (h : Encodable value)
    (hshown : dumpsScalar value = .ok shown) : loadsCompact shown = .ok (.scalar value) := by
  cases value with
  | null =>
    obtain rfl := Except.ok.inj hshown
    exact loadsCompact_text .null
  | bool b =>
    obtain rfl := Except.ok.inj hshown
    cases b
    · exact loadsCompact_text (.bool false)
    · exact loadsCompact_text (.bool true)
  | int i =>
    obtain ⟨digits, hdigits, rfl⟩ := map_ok.mp hshown
    obtain ⟨-, rfl⟩ := strInt_ok.mp hdigits
    exact loadsCompact_text (.int i)
  | float x =>
    obtain rfl := Except.ok.inj hshown
    exact loadsCompact_text (.float x)
  | str text =>
    obtain ⟨cs, rfl⟩ := h
    obtain rfl := Except.ok.inj hshown
    have hread := loadsCompact_text (.str (String.ofList cs))
    simp only [Json.text, ofJson, String.toList_ofList] at hread
    rw [quoteText_ofChars]
    exact hread

def compactReader : JsonReader := ⟨loadsCompact, loadsCompact_reads_back⟩

/-- Half of a surrogate pair is a string of JSON that no facet holds. -/
theorem surrogate_refused : ¬ ∀ (reader : JsonReader) (value : Scalar), ∃ encoded,
    encode value = .ok encoded ∧ decode reader encoded = .ok value := by
  intro h
  obtain ⟨encoded, hencode, -⟩ := h compactReader (.str [.surrogate 0])
  cases hencode

end Reader

end MDRack.Metadata
