import MDRack.Sqlite.Codec

/-!
# The codec fallback (`decode_vector_payload` of a space without a codec)

A payload of such a space is read as little-endian float64 when its length fits and its numbers
are finite, else as canonical JSON text.

* `float64Payload`, `legacyPayload` — what the two writers of such spaces stored.
* `decodeBinary_ascii` — text of a fitting length is always read as numbers.

Principal result: `fallback_exact_iff` — both payloads read back as the vector they encode iff the
space has no value policy and the text does not have the length of the binary payload.
-/

namespace MDRack

open Checks
open Binary64 (F64)

/-- `struct.pack(f"<{dimensions}d", *values)`. -/
def float64Payload (v : Vector) : List UInt8 := (v.values.map encode64).flatten

def legacyText (v : Vector) : String :=
  Json.dumps (.arr (v.values.map fun x => .float x.val))

/-- `json.dumps(values, allow_nan=False, separators=(",", ":")).encode("utf-8")`. -/
def legacyPayload (v : Vector) : List UInt8 := (legacyText v).toUTF8.data.toList

theorem encodeVector_float64 (v : Vector) :
    encodeVector .float64 v v.values.length = .ok (float64Payload v) := by
  simp [encodeVector, float64Payload, bind_ok]

/-! ## The text of numbers is ASCII -/

theorem numChar_ascii {c : Char} (h : Binary64.numChar c = true) : c.toNat < 127 := by
  simp only [Binary64.numChar, Bool.or_eq_true, beq_iff_eq] at h
  rcases h with (((h | rfl) | rfl) | rfl) | rfl
  · simp only [Char.isDigit, Bool.and_eq_true, decide_eq_true_eq] at h
    have := h.2
    simp only [UInt32.le_iff_toNat_le] at this
    exact Nat.lt_of_le_of_lt this (by decide)
  all_goals decide

theorem itemsText_ascii (first : Bool) (xs : List Number) :
    ∀ c ∈ Json.itemsText first (xs.map fun x => .float x.val), c.toNat < 127 := by
  induction xs generalizing first with
  | nil => simp [Json.itemsText]
  | cons x rest ih =>
    intro c hc
    simp only [List.map_cons, Json.itemsText, Json.text, List.mem_append] at hc
    rcases hc with hc | hc | hc
    · cases first with
      | true => cases hc
      | false =>
        obtain rfl : c = ',' := by simpa using hc
        decide
    · exact numChar_ascii (List.all_eq_true.mp (Binary64.repr_numChar x.val) c hc)
    · exact ih false c hc

theorem legacyText_ascii (v : Vector) : ∀ c ∈ (legacyText v).toList, c.toNat < 127 := by
  intro c hc
  simp only [legacyText, Json.dumps, String.toList_ofList, Json.text, List.mem_cons] at hc
  rcases hc with rfl | hc
  · decide
  · exact itemsText_ascii true v.values c hc

theorem legacyPayload_eq (v : Vector) :
    legacyPayload v = (legacyText v).toList.flatMap String.utf8EncodeChar := by
  unfold legacyPayload legacyText Json.dumps
  rw [String.toList_ofList]
  exact List.toList_data_toByteArray

theorem legacyPayload_ascii (v : Vector) : ∀ b ∈ legacyPayload v, b.toNat < 127 := by
  intro b hb
  rw [legacyPayload_eq, List.mem_flatMap] at hb
  obtain ⟨c, hc, hb⟩ := hb
  have hascii := legacyText_ascii v c hc
  have hsize : c.utf8Size = 1 := by
    have hval : c.val ≤ 0x7f := by
      rw [UInt32.le_iff_toNat_le]
      exact Nat.le_of_lt_succ (Nat.lt_succ_of_lt hascii)
    simp [Char.utf8Size, hval]
  rw [String.utf8EncodeChar_eq_singleton hsize, List.mem_singleton] at hb
  rw [hb]
  show c.val.toUInt8.toNat < 127
  rw [UInt32.toNat_toUInt8]
  exact Nat.lt_of_le_of_lt (Nat.mod_le _ _) hascii

theorem fromUTF8?_toUTF8 (s : String) : String.fromUTF8? s.toUTF8 = some s := by
  unfold String.fromUTF8?
  exact dif_pos s.isValidUTF8

/-! ## ASCII bytes are finite numbers -/

theorem leValue_ascii {bytes : List UInt8} (h : ∀ b ∈ bytes, b.toNat < 127) :
    255 * leValue bytes + 126 ≤ 126 * 256 ^ bytes.length := by
  induction bytes with
  | nil => simp [leValue]
  | cons b rest ih =>
    have hb := h b List.mem_cons_self
    have ih := ih fun b' hb' => h b' (List.mem_cons_of_mem _ hb')
    rw [leValue, List.length_cons, pow_succ]
    omega

theorem decode64_ascii {bytes : List UInt8} (hlen : bytes.length = 8)
    (h : ∀ b ∈ bytes, b.toNat < 127) : ∃ x, decode64 bytes = some x := by
  have hvalue := leValue_ascii h
  rw [hlen] at hvalue
  have hlt : leValue bytes % 2 ^ 63 < Binary64.infMag := by
    unfold Binary64.infMag
    omega
  unfold decode64 ofBits64
  rw [dif_pos hlt]
  exact ⟨_, rfl⟩

theorem leValue_lt (bytes : List UInt8) : leValue bytes < 256 ^ bytes.length := by
  induction bytes with
  | nil => exact Nat.one_pos
  | cons b rest ih =>
    have hb : b.toNat < 256 := b.toNat_lt
    rw [leValue, List.length_cons, pow_succ]
    omega

theorem leBytes_leValue (bytes : List UInt8) : leBytes bytes.length (leValue bytes) = bytes := by
  induction bytes with
  | nil => rfl
  | cons b rest ih =>
    have hb : b.toNat < 256 := b.toNat_lt
    have hhead : UInt8.ofNat (b.toNat + 256 * leValue rest) = b := by
      apply UInt8.toNat_inj.mp
      rw [UInt8.toNat_ofNat']
      omega
    have htail : (b.toNat + 256 * leValue rest) / 256 = leValue rest := by omega
    rw [List.length_cons, leValue, leBytes, hhead, htail, ih]

theorem encode64_decode64 {bytes : List UInt8} {x : Number} (hlen : bytes.length = 8)
    (h : decode64 bytes = some x) : encode64 x = bytes := by
  unfold decode64 ofBits64 at h
  split at h
  case isFalse => cases h
  case isTrue hfinite =>
    rw [Option.some.injEq] at h
    subst h
    have hbits : (F64.mk (decide (2 ^ 63 ≤ leValue bytes)) (leValue bytes % 2 ^ 63)
        hfinite).bits = leValue bytes := by
      have hlt : leValue bytes < 2 ^ 64 := by
        have := leValue_lt bytes
        rw [hlen] at this
        exact this
      unfold F64.bits
      by_cases hneg : 2 ^ 63 ≤ leValue bytes
      · simp only [hneg, decide_true, if_true]
        omega
      · simp only [hneg, decide_false, Bool.false_eq_true, if_false]
        omega
    unfold encode64
    rw [hbits, ← hlen, leBytes_leValue]

/-! ## Payloads by length -/

theorem groups_length {width count : Nat} {bytes : List UInt8}
    (hlen : bytes.length = count * width) :
    (groups width count bytes).length = count ∧
      (∀ part ∈ groups width count bytes, part.length = width) ∧
        (groups width count bytes).flatten = bytes := by
  induction count generalizing bytes with
  | zero =>
    have hnil : bytes = [] := List.eq_nil_of_length_eq_zero (by simpa using hlen)
    subst hnil
    simp [groups]
  | succ count ih =>
    rw [Nat.succ_mul] at hlen
    have hdrop : (bytes.drop width).length = count * width := by
      rw [List.length_drop]
      omega
    obtain ⟨hcount, hparts, hflat⟩ := ih hdrop
    refine ⟨by rw [groups, List.length_cons, hcount], ?_, ?_⟩
    · intro part hpart
      rcases List.mem_cons.mp hpart with rfl | hpart
      · rw [List.length_take]
        omega
      · exact hparts part hpart
    · rw [groups, List.flatten_cons, hflat, List.take_append_drop]

theorem mapAll_some {α β : Type} {e : Err} {f : α → Option β} {as : List α} {bs : List β}
    (h : mapAll (fun a => getOr e (f a)) as = .ok bs) : as.map f = bs.map some := by
  induction as generalizing bs with
  | nil =>
    simp only [mapAll, Except.ok.injEq] at h
    rw [← h]
    rfl
  | cons a rest ih =>
    simp only [mapAll, bind_ok, getOr_ok, Except.ok.injEq] at h
    obtain ⟨b, hb, bs', hbs, rfl⟩ := h
    rw [List.map_cons, List.map_cons, hb, ih hbs]

theorem exists_map_some {α β : Type} {f : α → Option β} {as : List α}
    (h : ∀ a ∈ as, ∃ b, f a = some b) : ∃ bs : List β, as.map f = bs.map some := by
  induction as with
  | nil => exact ⟨[], rfl⟩
  | cons a rest ih =>
    obtain ⟨b, hb⟩ := h a List.mem_cons_self
    obtain ⟨bs, hbs⟩ := ih fun a' ha' => h a' (List.mem_cons_of_mem _ ha')
    exact ⟨b :: bs, by rw [List.map_cons, List.map_cons, hb, hbs]⟩

/-- A payload that reads as `v` in binary is the binary encoding of `v`. -/
theorem decodeBinary_inverse {payload : List UInt8} {dimensions : Nat} {v : Vector}
    (h : decodeBinary .float64 payload dimensions = .ok v) : payload = float64Payload v := by
  simp only [decodeBinary, bind_ok, require_ok, exists_const] at h
  obtain ⟨-, hlen, values, hvalues, hvector⟩ := h
  obtain ⟨-, hparts, hflat⟩ := groups_length hlen
  have hmap := mapAll_some hvalues
  have hv : v.values = values := by
    unfold toVector at hvector
    split at hvector
    · rw [Except.ok.injEq] at hvector
      rw [← hvector]
    · cases hvector
  have hencode : values.map encode64 = groups 8 dimensions payload := by
    apply List.ext_getElem
    · simpa using (congrArg List.length hmap).symm
    · intro i hi hi'
      have hdecode := congrArg (·[i]?) hmap
      simp only [List.length_map] at hi
      simp only [List.getElem?_map, List.getElem?_eq_getElem hi, List.getElem?_eq_getElem hi',
        Option.map_some, Option.some.injEq] at hdecode
      rw [List.getElem_map]
      exact encode64_decode64 (hparts _ (List.getElem_mem hi')) hdecode
  rw [float64Payload, hv, hencode, hflat]

/-- Text of a fitting length is always read as numbers. -/
theorem decodeBinary_ascii {payload : List UInt8} {dimensions : Nat} (hpos : 1 ≤ dimensions)
    (hlen : payload.length = dimensions * 8) (h : ∀ b ∈ payload, b.toNat < 127) :
    ∃ v, decodeBinary .float64 payload dimensions = .ok v := by
  obtain ⟨hcount, hparts, hflat⟩ := groups_length hlen
  have hall : ∀ part ∈ groups 8 dimensions payload, ∃ x, decode64 part = some x := by
    intro part hpart
    refine decode64_ascii (hparts part hpart) fun b hb => h b ?_
    rw [← hflat]
    exact List.mem_flatten.mpr ⟨part, hpart, hb⟩
  obtain ⟨values, hvalues⟩ : ∃ values : List Number,
      (groups 8 dimensions payload).map decode64 = values.map some := exists_map_some hall
  have hne : values ≠ [] := by
    rintro rfl
    have := congrArg List.length hvalues
    simp only [List.length_map, List.length_nil] at this
    omega
  refine ⟨⟨values, hne⟩, ?_⟩
  simp only [decodeBinary, bind_ok, require_ok, exists_const]
  exact ⟨hpos, hlen, values, mapAll_getOr hvalues, toVector_values ⟨values, hne⟩⟩

theorem decodeBinary_of_length_ne {payload : List UInt8} {dimensions : Nat} (hpos : 1 ≤ dimensions)
    (hlen : payload.length ≠ dimensions * 8) : decodeBinary .float64 payload dimensions =
      .error (.valueError "vector payload length does not match dimensions") := by
  simp only [decodeBinary, require, hpos, hlen, if_true]
  rfl

theorem decodeLegacyJson_legacy (v : Vector) :
    decodeLegacyJson (legacyPayload v) v.values.length = .ok v := by
  have htext : String.fromUTF8? ⟨(legacyPayload v).toArray⟩ = some (legacyText v) := by
    have harray : (⟨(legacyPayload v).toArray⟩ : ByteArray) = (legacyText v).toUTF8 := by
      unfold legacyPayload
      rw [Array.toArray_toList]
    rw [harray, fromUTF8?_toUTF8]
  have hloads : Json.loads (legacyText v) = some (.arr (v.values.map fun x => .float x.val)) :=
    Json.loads_dumps _
  simp only [decodeLegacyJson, bind_ok, getOr_ok, require_ok, exists_const]
  refine ⟨_, htext, v.values.map fun x => .float x.val, ?_, v.values, ?_, rfl, rfl,
    toVector_values v⟩
  · rw [hloads]
  · exact mapAll_map (g := fun x : Number => Json.Value.float x.val) (fun _ => rfl) v.values

theorem length_float64Payload (v : Vector) : (float64Payload v).length = v.values.length * 8 := by
  have hparts : ∀ part ∈ v.values.map encode64, part.length = 8 := by
    intro part hpart
    obtain ⟨x, -, rfl⟩ := List.mem_map.mp hpart
    exact leBytes_length 8 _
  rw [float64Payload, length_flatten hparts, List.length_map]

/-! ## The fallback -/

section Fallback

variable {metadata : Mapping}

theorem codecIdFromMetadata_unmarked (hcodec : metadata.option "vector_codec" = none) :
    codecIdFromMetadata metadata = .ok .float64 ↔
      metadata.option "vector_value_policy" = none := by
  unfold codecIdFromMetadata
  cases metadata.option "vector_value_policy" <;> simp [hcodec]

/-- A space with a value policy and no codec is refused. -/
theorem codecIdFromMetadata_policy (hcodec : metadata.option "vector_codec" = none)
    (hpolicy : metadata.option "vector_value_policy" ≠ none) : codecIdFromMetadata metadata =
      .error (.valueError "vector value policy and codec are incompatible") := by
  unfold codecIdFromMetadata
  cases h : metadata.option "vector_value_policy" with
  | none => exact absurd h hpolicy
  | some policy => simp [hcodec]

/-- What the fallback reads from text: the vector, unless the text has the binary length. -/
theorem decode_legacy_iff (hcodec : metadata.option "vector_codec" = none)
    (hpolicy : metadata.option "vector_value_policy" = none) (v : Vector) :
    decodeVectorPayload (legacyPayload v) v.values.length metadata = .ok v ↔
      ((legacyPayload v).length = (float64Payload v).length →
        legacyPayload v = float64Payload v) := by
  have hpos : 1 ≤ v.values.length := List.length_pos_iff.mpr v.nonempty
  have hid := (codecIdFromMetadata_unmarked hcodec).mpr hpolicy
  rw [length_float64Payload]
  simp only [decodeVectorPayload, bind_ok, hid, Except.ok.injEq, exists_eq_left']
  by_cases hlen : (legacyPayload v).length = v.values.length * 8
  · obtain ⟨w, hw⟩ := decodeBinary_ascii hpos hlen (legacyPayload_ascii v)
    rw [hw]
    simp only [hlen, forall_const, Except.ok.injEq]
    constructor
    · rintro rfl
      exact decodeBinary_inverse hw
    · intro heq
      have hv := decodeBinary_encode (encodeVector_float64 v)
      rw [← heq, hw, Except.ok.injEq] at hv
      exact hv
  · rw [decodeBinary_of_length_ne hpos hlen]
    simp [hlen, hcodec, decodeLegacyJson_legacy]

/-- Both writers' payloads read back as their vector iff the space has no value policy and the
legacy text is not taken for numbers. -/
theorem fallback_exact_iff (hcodec : metadata.option "vector_codec" = none) (v : Vector) :
    (decodeVectorPayload (float64Payload v) v.values.length metadata = .ok v ∧
      decodeVectorPayload (legacyPayload v) v.values.length metadata = .ok v) ↔
      metadata.option "vector_value_policy" = none ∧
        ((legacyPayload v).length = (float64Payload v).length →
          legacyPayload v = float64Payload v) := by
  by_cases hpolicy : metadata.option "vector_value_policy" = none
  · have hid := (codecIdFromMetadata_unmarked hcodec).mpr hpolicy
    have hbinary := decodeVector_encode hid (encodeVector_float64 v)
    rw [decode_legacy_iff hcodec hpolicy]
    simp [hbinary, hpolicy]
  · have hraise (payload : List UInt8) : decodeVectorPayload payload v.values.length metadata =
        .error (.valueError "vector value policy and codec are incompatible") := by
      unfold decodeVectorPayload
      rw [codecIdFromMetadata_policy hcodec hpolicy]
      rfl
    simp [hraise, hpolicy]

end Fallback

/-! ## Eight characters of text -/

section EightCharacters

theorem thousandAndHalf_finite : 0x408F440000000000 < Binary64.infMag := by decide

/-- `1000.5` -/
def thousandAndHalf : Number := ⟨⟨false, 0x408F440000000000, thousandAndHalf_finite⟩⟩

theorem shortValues_ne_nil : [thousandAndHalf] ≠ [] := List.cons_ne_nil _ _

def shortVector : Vector := ⟨[thousandAndHalf], shortValues_ne_nil⟩

theorem shortVector_text : legacyText shortVector = "[1000.5]" := by
  have h : Json.text (.arr [.float thousandAndHalf.val]) =
      ['[', '1', '0', '0', '0', '.', '5', ']'] := by decide +kernel
  show String.ofList (Json.text (.arr [.float thousandAndHalf.val])) = _
  rw [h]

theorem shortVector_payload :
    legacyPayload shortVector = [0x5B, 0x31, 0x30, 0x30, 0x30, 0x2E, 0x35, 0x5D] := by
  rw [legacyPayload_eq, shortVector_text]
  decide

/-- The text `[1000.5]` has eight bytes, so it is read as one number, and not as `1000.5`. -/
theorem shortVector_misread : legacyText shortVector = "[1000.5]" ∧ ∃ w,
    decodeVectorPayload (legacyPayload shortVector) shortVector.values.length .empty = .ok w ∧
      w ≠ shortVector := by
  have hlen : (legacyPayload shortVector).length = shortVector.values.length * 8 := by
    rw [shortVector_payload]
    rfl
  obtain ⟨w, hw⟩ : ∃ w, decodeBinary .float64 (legacyPayload shortVector)
      shortVector.values.length = .ok w :=
    decodeBinary_ascii (Nat.le_refl 1) hlen (legacyPayload_ascii shortVector)
  have hid : codecIdFromMetadata .empty = .ok .float64 := rfl
  refine ⟨shortVector_text, w, ?_, ?_⟩
  · simp only [decodeVectorPayload, bind_ok]
    exact ⟨.float64, hid, by rw [hw]⟩
  · rintro rfl
    have hsame := decodeBinary_inverse hw
    rw [shortVector_payload] at hsame
    revert hsame
    decide +kernel

end EightCharacters

/-! ## Five characters of text -/

section FiveCharacters

theorem zeroValues_ne_nil : [Number.mk .zero] ≠ [] := List.cons_ne_nil _ _

def zeroVector : Vector := ⟨[⟨.zero⟩], zeroValues_ne_nil⟩

theorem fallback_exact_zero :
    decodeVectorPayload (float64Payload zeroVector) 1 .empty = .ok zeroVector ∧
      decodeVectorPayload (legacyPayload zeroVector) 1 .empty = .ok zeroVector := by
  have htext : legacyText zeroVector = "[0.0]" := by
    have h : Json.text (.arr [.float F64.zero]) = ['[', '0', '.', '0', ']'] := by decide +kernel
    show String.ofList (Json.text (.arr [.float F64.zero])) = _
    rw [h]
  refine (fallback_exact_iff (rfl : Mapping.option .empty "vector_codec" = none) zeroVector).mpr
    ⟨rfl, ?_⟩
  intro hlen
  rw [length_float64Payload, legacyPayload_eq, htext] at hlen
  exact absurd hlen (by decide)

end FiveCharacters

end MDRack
