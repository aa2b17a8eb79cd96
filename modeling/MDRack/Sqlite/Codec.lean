import MDRack.Core.Records

/-!
# Column codecs (`resource_store._encode_mapping`, `_decode_float`, `vector_codecs`)

Mappings are stored as canonical JSON text, confidences as JSON numbers, vectors as
little-endian binary64 or binary32 payloads.

Principal results: `decodeMapping_canonicalJson`, `decodeConfidence_encode`,
`decodeVector_encode` — what a writer encodes, a reader decodes to the same value.
-/

namespace MDRack

open Checks
open Binary64 (F64)
open Json (Value)

/-! ## Mappings -/

/-- `_decode_mapping`: load, freeze, and insist on canonical text.  A text whose keys are out of
order freezes to a mapping with another canonical text, so it is refused here at once. -/
def decodeMapping (text fieldName : String) : Except Err Mapping :=
  match Json.loads text with
  | some (.obj fields) =>
    if h : isFrozen fields = true then
      if canonicalJson ⟨fields, h⟩ = text then .ok ⟨fields, h⟩
      else .error (.valueError (fieldName ++ " is not canonical JSON"))
    else .error (.valueError (fieldName ++ " is not a frozen JSON object"))
  | _ => .error (.valueError (fieldName ++ " must be a JSON object"))

@[simp] theorem decodeMapping_canonicalJson (m : Mapping) (fieldName : String) :
    decodeMapping (canonicalJson m) fieldName = .ok m := by
  unfold decodeMapping
  have hloads : Json.loads (canonicalJson m) = some (.obj m.fields) := Json.loads_dumps _
  rw [hloads]
  simp only
  rw [dif_pos m.frozen]
  simp

theorem decodeMapping_ok {text fieldName : String} {m : Mapping}
    (h : decodeMapping text fieldName = .ok m) : canonicalJson m = text := by
  unfold decodeMapping at h
  split at h
  · split at h
    · split at h
      · rename_i htext
        rw [Except.ok.injEq] at h
        rw [← h]
        exact htext
      · cases h
    · cases h
  · cases h

/-! ## Confidences -/

/-- `_encode_float(confidence)`; the payload is the ASCII text. -/
def encodeConfidence (c : Confidence) : String := String.ofList (Binary64.repr c.number.val)

def toConfidence (x : F64) : Except Err Confidence :=
  if h : (Number.mk x).isConfidence = true then .ok ⟨⟨x⟩, h⟩
  else .error (.valueError "confidence must be between 0 and 1")

/-- `float(json.loads(payload))`. -/
def loadFloat (payload : String) : Except Err F64 :=
  match Json.loads payload with
  | some (.float x) => .ok x
  | some (.int i) => getOr (.valueError "number out of range") (Binary64.ofDecimal (i < 0) i.natAbs 0)
  | _ => .error (.valueError "float must be a number")

/-- `_decode_float(..., confidence=True)`. -/
def decodeConfidence (payload : String) : Except Err Confidence := do
  let x ← loadFloat payload
  let c ← toConfidence x
  require (encodeConfidence c = payload) (.valueError "confidence is not canonical")
  .ok c

theorem loads_repr (x : F64) : Json.loads (String.ofList (Binary64.repr x)) = some (.float x) :=
  Json.loads_dumps (.float x)

theorem loadFloat_encode (c : Confidence) : loadFloat (encodeConfidence c) = .ok c.number.val := by
  unfold loadFloat encodeConfidence
  rw [loads_repr]

@[simp] theorem toConfidence_val (c : Confidence) : toConfidence c.number.val = .ok c := by
  unfold toConfidence
  rw [dif_pos c.inRange]

@[simp] theorem decodeConfidence_encode (c : Confidence) :
    decodeConfidence (encodeConfidence c) = .ok c := by
  simp only [decodeConfidence, bind_ok, require_ok]
  exact ⟨c.number.val, loadFloat_encode c, c, toConfidence_val c, (), rfl, rfl⟩

/-! ## Little-endian payloads -/

def leBytes : Nat → Nat → List UInt8
  | 0, _ => []
  | width + 1, n => UInt8.ofNat n :: leBytes width (n / 256)

def leValue : List UInt8 → Nat
  | [] => 0
  | b :: bs => b.toNat + 256 * leValue bs

@[simp] theorem leBytes_length (width n : Nat) : (leBytes width n).length = width := by
  induction width generalizing n with
  | zero => rfl
  | succ width ih => simp [leBytes, ih]

theorem leValue_leBytes {width n : Nat} (h : n < 256 ^ width) : leValue (leBytes width n) = n := by
  induction width generalizing n with
  | zero =>
    have : n = 0 := by simpa using h
    subst this
    rfl
  | succ width ih =>
    have hdiv : n / 256 < 256 ^ width := by
      rw [pow_succ] at h
      omega
    simp only [leBytes, leValue, ih hdiv, UInt8.toNat_ofNat']
    omega

/-- `count` groups of `width` bytes. -/
def groups (width : Nat) : Nat → List UInt8 → List (List UInt8)
  | 0, _ => []
  | count + 1, bytes => bytes.take width :: groups width count (bytes.drop width)

theorem groups_flatten {width : Nat} {parts : List (List UInt8)}
    (hlen : ∀ part ∈ parts, part.length = width) :
    groups width parts.length parts.flatten = parts := by
  induction parts with
  | nil => rfl
  | cons part rest ih =>
    have hpart := hlen part List.mem_cons_self
    have htake : (part ++ rest.flatten).take width = part := List.take_left' hpart
    have hdrop : (part ++ rest.flatten).drop width = rest.flatten := List.drop_left' hpart
    have hrest := ih fun p hp => hlen p (List.mem_cons_of_mem _ hp)
    simp only [List.length_cons, List.flatten_cons, groups, htake, hdrop, hrest]

theorem length_flatten {width : Nat} {parts : List (List UInt8)}
    (hlen : ∀ part ∈ parts, part.length = width) :
    parts.flatten.length = parts.length * width := by
  induction parts with
  | nil => simp
  | cons part rest ih =>
    have hrest := ih fun p hp => hlen p (List.mem_cons_of_mem _ hp)
    simp [hlen part List.mem_cons_self, hrest, Nat.add_mul, Nat.add_comm]

/-! ### binary64 -/

def signBit (neg : Bool) (exponent : Nat) : Nat := if neg then 2 ^ exponent else 0

/-- The double with a bit pattern, unless it is infinite or not a number. -/
def ofBits64 (n : Nat) : Option Number :=
  if h : n % 2 ^ 63 < Binary64.infMag then some ⟨⟨decide (2 ^ 63 ≤ n), n % 2 ^ 63, h⟩⟩ else none

def encode64 (x : Number) : List UInt8 := leBytes 8 x.val.bits

def decode64 (bytes : List UInt8) : Option Number := ofBits64 (leValue bytes)

theorem bits_lt (x : F64) : x.mag < 2 ^ 63 ∧ x.bits < 256 ^ 8 := by
  have h : x.mag < 0x7FF0000000000000 := x.finite
  unfold F64.bits
  split <;> omega

@[simp] theorem decode64_encode64 (x : Number) : decode64 (encode64 x) = some x := by
  obtain ⟨neg, mag, hfin⟩ := x
  have hb := bits_lt ⟨neg, mag, hfin⟩
  unfold decode64 encode64
  rw [leValue_leBytes hb.2]
  have hmag : mag < 2 ^ 63 := hb.1
  have hmod : (F64.mk neg mag hfin).bits % 2 ^ 63 = mag := by
    unfold F64.bits
    simp only
    split <;> omega
  have hneg : decide (2 ^ 63 ≤ (F64.mk neg mag hfin).bits) = neg := by
    cases neg with
    | true => simp [F64.bits]
    | false => simp only [F64.bits, Bool.false_eq_true, ↓reduceIte, decide_eq_false_iff_not]; omega
  simp only [ofBits64, hmod, hneg]
  rw [dif_pos hfin]

/-! ### binary32 -/

/-- The first binary32 magnitude code that is not finite. -/
def infMag32 : Nat := 0x7F800000

/-- Magnitude of a binary32 code in units of `2 ^ (-149)`. -/
def scaled32 (mag : Nat) : Nat :=
  if mag < 2 ^ 23 then mag else (2 ^ 23 + mag % 2 ^ 23) * 2 ^ (mag / 2 ^ 23 - 1)

/-- A unit of binary32 in units of binary64. -/
def widenFactor : Nat := 2 ^ 925

/-- The double a binary32 code widens to. -/
def widen (neg : Bool) (mag : Nat) : Option Number :=
  if mag < infMag32 then
    if h : Binary64.floorMag (scaled32 mag * widenFactor) < Binary64.infMag then
      some ⟨⟨neg, Binary64.floorMag (scaled32 mag * widenFactor), h⟩⟩
    else none
  else none

/-- The binary32 code that could widen to `x`. -/
def narrowMag (x : F64) : Nat :=
  let k := Binary64.scaled x.mag / widenFactor
  (k.log2 - 23) * 2 ^ 23 + k / 2 ^ (k.log2 - 23)

/-- Magnitudes from here on round to an infinite binary32 number. -/
def overflow32 : Nat := (2 ^ 25 - 1) * 2 ^ 103 * Binary64.unit

/-- `struct.pack("<f", x)` keeps `x` exactly. -/
def encode32 (x : Number) : Except Err (List UInt8) :=
  let mag := narrowMag x.val
  if mag < 2 ^ 31 ∧ widen x.val.neg mag = some x then .ok (leBytes 4 (signBit x.val.neg 31 + mag))
  else .error (.valueError "vector must already use canonical float32 values")

def decode32 (bytes : List UInt8) : Option Number :=
  widen (decide (2 ^ 31 ≤ leValue bytes)) (leValue bytes % 2 ^ 31)

theorem encode32_length {x : Number} {bytes : List UInt8} (h : encode32 x = .ok bytes) :
    bytes.length = 4 := by
  unfold encode32 at h
  simp only at h
  split at h
  · rw [Except.ok.injEq] at h
    rw [← h, leBytes_length]
  · cases h

theorem decode32_encode32 {x : Number} {bytes : List UInt8} (h : encode32 x = .ok bytes) :
    decode32 bytes = some x := by
  unfold encode32 at h
  simp only at h
  split at h
  · rename_i hx
    rw [Except.ok.injEq] at h
    obtain ⟨hlt, hwiden⟩ := hx
    have hbits : signBit x.val.neg 31 + narrowMag x.val < 256 ^ 4 := by
      unfold signBit
      split <;> omega
    have hmod : (signBit x.val.neg 31 + narrowMag x.val) % 2 ^ 31 = narrowMag x.val := by
      unfold signBit
      split <;> omega
    have hneg : decide (2 ^ 31 ≤ signBit x.val.neg 31 + narrowMag x.val) = x.val.neg := by
      cases hn : x.val.neg with
      | true => simp [signBit]
      | false => simp only [signBit, Bool.false_eq_true, ↓reduceIte, decide_eq_false_iff_not]; omega
    unfold decode32
    rw [← h, leValue_leBytes hbits, hmod, hneg]
    exact hwiden
  · cases h

/-! ## Vectors -/

inductive CodecId
  | float64
  | float32
  deriving DecidableEq, Repr

/-- A member of space metadata; an explicit `null` counts as absent. -/
def Mapping.option (m : Mapping) (key : String) : Option Value :=
  match m.get? key with
  | some .null => none
  | other => other

/-- `codec_id_from_metadata`. -/
def codecIdFromMetadata (metadata : Mapping) : Except Err CodecId :=
  match metadata.option "vector_value_policy", metadata.option "vector_codec" with
  | none, none => .ok .float64
  | none, some codec =>
    if codec == .str "ieee754-f64-le-v1" then .ok .float64
    else if codec == .str "ieee754-f32-le-v1" then
      .error (.valueError "float32 codec requires an explicit float32 value policy")
    else if codec == .str "json-f64-v1" then
      .error (.valueError "legacy JSON codec is diagnostic read-only")
    else .error (.valueError "unknown vector codec")
  | some policy, codec =>
    if policy == .str "ieee754-f32-canonical-v1" ∧ codec == some (.str "ieee754-f32-le-v1") then
      .ok .float32
    else .error (.valueError "vector value policy and codec are incompatible")

/-- `VectorCodec.encode` of the two writable codecs. -/
def encodeVector (codec : CodecId) (v : Vector) (dimensions : Nat) : Except Err (List UInt8) := do
  require (v.values.length = dimensions) (.valueError "vector dimension mismatch")
  match codec with
  | .float64 => .ok (v.values.map encode64).flatten
  | .float32 => do
    require (∀ x ∈ v.values, Binary64.scaled x.val.mag < overflow32)
      (.valueError "vector value is outside the float32 range")
    let parts ← mapAll encode32 v.values
    .ok parts.flatten

def toVector (values : List Number) : Except Err Vector :=
  if h : values ≠ [] then .ok ⟨values, h⟩
  else .error (.valueError "embedding must be a non-empty ordered sequence")

/-- `VectorCodec.decode` of the two binary codecs. -/
def decodeBinary (codec : CodecId) (payload : List UInt8) (dimensions : Nat) : Except Err Vector := do
  let width := match codec with
    | .float64 => 8
    | .float32 => 4
  require (1 ≤ dimensions) (.valueError "dimensions must be a positive integer")
  require (payload.length = dimensions * width)
    (.valueError "vector payload length does not match dimensions")
  let values ← mapAll (fun bytes => getOr (.valueError "embedding must contain finite numbers")
    (match codec with
      | .float64 => decode64 bytes
      | .float32 => decode32 bytes)) (groups width dimensions payload)
  toVector values

/-- `JsonF64Codec.decode`: canonical legacy text holds floats only. -/
def decodeLegacyJson (payload : List UInt8) (dimensions : Nat) : Except Err Vector := do
  let text ← getOr (.valueError "legacy JSON vector payload is invalid")
    (String.fromUTF8? ⟨payload.toArray⟩)
  let items ← getOr (.valueError "legacy JSON vector payload must be an array")
    (match Json.loads text with
      | some (.arr items) => some items
      | _ => none)
  let values ← mapAll (fun item => match item with
    | .float x => .ok (Number.mk x)
    | _ => .error (.valueError "legacy JSON vector payload is not canonical")) items
  require (values.length = dimensions) (.valueError "vector dimension mismatch")
  require (Json.dumps (.arr items) = text)
    (.valueError "legacy JSON vector payload is not canonical")
  toVector values

/-- `decode_vector_payload`. -/
def decodeVectorPayload (payload : List UInt8) (dimensions : Nat) (metadata : Mapping) :
    Except Err Vector := do
  let codec ← codecIdFromMetadata metadata
  match decodeBinary codec payload dimensions with
  | .ok v => .ok v
  | .error e =>
    if codec = .float64 ∧ metadata.option "vector_codec" = none then
      decodeLegacyJson payload dimensions
    else .error e

theorem mapAll_encode32 {values : List Number} {parts : List (List UInt8)}
    (h : mapAll encode32 values = .ok parts) :
    parts.length = values.length ∧ (∀ part ∈ parts, part.length = 4) ∧
      parts.map decode32 = values.map some := by
  induction values generalizing parts with
  | nil =>
    simp only [mapAll, Except.ok.injEq] at h
    subst h
    simp
  | cons x rest ih =>
    simp only [mapAll, bind_ok, Except.ok.injEq] at h
    obtain ⟨part, hpart, parts', hparts, rfl⟩ := h
    obtain ⟨h1, h2, h3⟩ := ih hparts
    refine ⟨by simp [h1], ?_, by simp [decode32_encode32 hpart, h3]⟩
    intro p hp
    rcases List.mem_cons.mp hp with rfl | hp
    · exact encode32_length hpart
    · exact h2 p hp

theorem mapAll_getOr {α β : Type} {e : Err} {f : α → Option β} {as : List α} {bs : List β}
    (h : as.map f = bs.map some) : mapAll (fun a => getOr e (f a)) as = .ok bs := by
  induction as generalizing bs with
  | nil =>
    cases bs with
    | nil => rfl
    | cons b bs => simp at h
  | cons a rest ih =>
    cases bs with
    | nil => simp at h
    | cons b bs =>
      simp only [List.map_cons, List.cons.injEq] at h
      simp only [mapAll, bind_ok, getOr_ok]
      exact ⟨b, h.1, bs, ih h.2, rfl⟩

@[simp] theorem toVector_values (v : Vector) : toVector v.values = .ok v := by
  unfold toVector
  rw [dif_pos v.nonempty]

/-- The byte groups of a payload, each with its number. -/
theorem parts_of_encode {codec : CodecId} {v : Vector} {dimensions : Nat} {payload : List UInt8}
    (h : encodeVector codec v dimensions = .ok payload) : ∃ parts : List (List UInt8),
      parts.flatten = payload ∧ parts.length = dimensions ∧
      match codec with
      | .float64 => (∀ part ∈ parts, part.length = 8) ∧ parts.map decode64 = v.values.map some
      | .float32 => (∀ part ∈ parts, part.length = 4) ∧ parts.map decode32 = v.values.map some := by
  simp only [encodeVector, bind_ok, require_ok, exists_const] at h
  obtain ⟨hdim, h⟩ := h
  cases codec with
  | float64 =>
    simp only [Except.ok.injEq] at h
    refine ⟨v.values.map encode64, h, by simpa using hdim, ?_, by simp⟩
    intro part hpart
    obtain ⟨x, -, rfl⟩ := List.mem_map.mp hpart
    exact leBytes_length 8 _
  | float32 =>
    simp only [bind_ok, require_ok, Except.ok.injEq, exists_const] at h
    obtain ⟨-, parts, hparts, rfl⟩ := h
    obtain ⟨hcount, hlen, hdecode⟩ := mapAll_encode32 hparts
    exact ⟨parts, rfl, hcount.trans hdim, hlen, hdecode⟩

theorem decodeBinary_encode {codec : CodecId} {v : Vector} {dimensions : Nat}
    {payload : List UInt8} (h : encodeVector codec v dimensions = .ok payload) :
    decodeBinary codec payload dimensions = .ok v := by
  obtain ⟨parts, rfl, rfl, hparts⟩ := parts_of_encode h
  have hpos : 1 ≤ parts.length := by
    have hv : 0 < v.values.length := List.length_pos_iff.mpr v.nonempty
    cases codec <;> have := congrArg List.length hparts.2 <;> simp at this <;> omega
  simp only [decodeBinary, bind_ok, require_ok, exists_const]
  cases codec with
  | float64 =>
    refine ⟨hpos, length_flatten hparts.1, v.values, ?_, toVector_values v⟩
    simp only [groups_flatten hparts.1]
    exact mapAll_getOr hparts.2
  | float32 =>
    refine ⟨hpos, length_flatten hparts.1, v.values, ?_, toVector_values v⟩
    simp only [groups_flatten hparts.1]
    exact mapAll_getOr hparts.2

/-- An encoded vector has at least one byte. -/
theorem encodeVector_nonempty {codec : CodecId} {v : Vector} {dimensions : Nat}
    {payload : List UInt8} (h : encodeVector codec v dimensions = .ok payload) : payload ≠ [] := by
  have hdecode := decodeBinary_encode h
  simp only [decodeBinary, bind_ok, require_ok, exists_const] at hdecode
  obtain ⟨hpos, hlength, -⟩ := hdecode
  rintro rfl
  cases codec <;> simp at hlength <;> omega

/-- A payload written with the codec of the space reads back as the same vector. -/
theorem decodeVector_encode {metadata : Mapping} {codec : CodecId} {v : Vector} {dimensions : Nat}
    {payload : List UInt8} (hcodec : codecIdFromMetadata metadata = .ok codec)
    (h : encodeVector codec v dimensions = .ok payload) :
    decodeVectorPayload payload dimensions metadata = .ok v := by
  simp only [decodeVectorPayload, bind_ok]
  refine ⟨codec, hcodec, ?_⟩
  rw [decodeBinary_encode h]

end MDRack
