import MDRack.Artifacts.Cache
import Mathlib.Data.Nat.Digits.Defs

/-!
# Metadata of an artifact

The metadata that `store` writes is read back by `lookup`: its text is short enough, and its checks
let through the entry of the same key and of no other.

Principal results: `checkMetadata_own`, `checkMetadata_key` — the checks on what was written;
`metadata_short` — the limit on metadata is never reached.
-/

namespace MDRack.Artifacts

open Octets (Bytes)
open CodePoints (ofChars Text)

variable {host : Host} {key key' : ArtifactCacheKey} {payload : Payload}

/-! ## What `json.loads` gives back -/

def shown (text : String) : Loads.Value := .str (ofChars text.toList)

def shownFields (fields : List (String × String)) : List (Text × Loads.Value) :=
  fields.map fun e => (ofChars e.1.toList, shown e.2)

/-- The metadata of an entry, as `json.loads` reads it. -/
def Host.loaded (host : Host) (key : ArtifactCacheKey) (payload : Payload) : Loads.Value :=
  .obj [(ofChars "key".toList, .obj (shownFields key.toDict)),
    (ofChars "key_digest".toList, shown (String.ofList (host.digest key))),
    (ofChars "payload_bytes".toList, .int payload.bytes.length),
    (ofChars "payload_sha256".toList, shown (host.sha256 payload.bytes).text),
    (ofChars "schema".toList, shown CACHE_SCHEMA)]

/-- `json.loads` reads the metadata that `json.dumps` has written. -/
def ReadsBack (host : Host) : Prop :=
  ∀ key payload, host.loads (asciiBytes (host.metadata key payload)) = .ok (host.loaded key payload)

/-! ## Its checks -/

theorem ofChars_inj {a b : List Char} (h : ofChars a = ofChars b) : a = b :=
  List.map_injective_iff.mpr (fun _ _ h => CodePoints.CodePoint.char.inj h) h

theorem field_cons {a b : String} {v : Loads.Value} {rest : List (Text × Loads.Value)} :
    field ((ofChars a.toList, v) :: rest) b = if a = b then some v else field rest b := by
  unfold field
  rw [List.find?_cons]
  by_cases h : a = b
  · subst h
    simp
  · have hne : (ofChars a.toList == ofChars b.toList) = false := by
      rw [beq_eq_false_iff_ne]
      exact fun heq => h (String.toList_injective (ofChars_inj heq))
    rw [hne, if_neg h]

theorem isText_shown {a b : String} : isText (some (shown a)) b = true ↔ a = b := by
  show (ofChars a.toList == ofChars b.toList) = true ↔ _
  rw [beq_iff_eq]
  exact ⟨fun h => String.toList_injective (ofChars_inj h), fun h => h ▸ rfl⟩

theorem key_ext (h : key'.toDict = key.toDict) : key' = key := by
  cases key
  cases key'
  simp only [ArtifactCacheKey.toDict, List.cons.injEq, Prod.mk.injEq, true_and, and_true] at h
  obtain ⟨rfl, rfl, rfl, rfl, rfl, rfl, rfl⟩ := h
  rfl

/-- The dictionary of a key is that of no other key. -/
theorem isDict_key : isDict (some (.obj (shownFields key'.toDict))) key.toDict = true ↔ key' = key := by
  constructor
  · intro h
    refine key_ext ?_
    simp only [isDict, shownFields, ArtifactCacheKey.toDict, List.map_cons, List.map_nil, List.all_cons,
      List.all_nil, field_cons, String.reduceEq, if_true, if_false, Bool.and_eq_true, isText_shown] at h
    obtain ⟨-, h₁, h₂, h₃, h₄, h₅, h₆, h₇, -⟩ := h
    simp only [ArtifactCacheKey.toDict, h₁, h₂, h₃, h₄, h₅, h₆, h₇]
  · rintro rfl
    have hself : ∀ a, isText (some (shown a)) a = true := fun a => isText_shown.mpr rfl
    simp only [isDict, shownFields, ArtifactCacheKey.toDict, List.map_cons, List.map_nil, List.all_cons,
      List.all_nil, field_cons, String.reduceEq, if_true, if_false, hself]
    rfl

theorem digestOf_shown {digest : Media.HexDigest} :
    digestOf (some (shown digest.text)) = some digest.text.toList := by
  unfold digestOf shown
  dsimp only
  rw [CodePoints.characters?_ofChars]
  exact if_pos digest.wf

variable {cache : ArtifactCache}

/-- The checks let through what was written for the same key. -/
theorem checkMetadata_own (h : payload.bytes.length ≤ cache.maxEntryBytes) :
    cache.checkMetadata host key (host.loaded key payload) =
      some ((payload.bytes.length : Int), (host.sha256 payload.bytes).text.toList) := by
  have hdict : isDict (some (.obj (shownFields key.toDict))) key.toDict = true := isDict_key.mpr rfl
  have hsize : (0 : Int) ≤ payload.bytes.length ∧ (payload.bytes.length : Int) ≤ cache.maxEntryBytes := by
    omega
  have hchecks : (isText (some (shown CACHE_SCHEMA)) CACHE_SCHEMA &&
      isDict (some (.obj (shownFields key.toDict))) key.toDict &&
      isText (some (shown (String.ofList (host.digest key)))) (String.ofList (host.digest key))) = true := by
    rw [hdict, isText_shown.mpr rfl, isText_shown.mpr rfl]
    rfl
  unfold ArtifactCache.checkMetadata Host.loaded
  simp only [field_cons, String.reduceEq, if_true, if_false]
  rw [if_pos hchecks, digestOf_shown]
  exact if_pos hsize

/-- What the checks let through was written for the same key. -/
theorem checkMetadata_key {size : Int} {digest : List Char}
    (h : cache.checkMetadata host key (host.loaded key' payload) = some (size, digest)) :
    key' = key := by
  unfold ArtifactCache.checkMetadata Host.loaded at h
  simp only [field_cons, String.reduceEq, if_true, if_false] at h
  split at h
  · rename_i hchecks
    rw [Bool.and_eq_true, Bool.and_eq_true] at hchecks
    exact isDict_key.mp hchecks.1.2
  · cases h

/-! ## Its length -/

theorem length_escapeAscii (c : Char) : (Json.escapeAscii c).length ≤ 12 := by
  unfold Json.escapeAscii
  repeat' split
  all_goals simp [Json.escapeUnit]

theorem length_quoteAscii (text : List Char) : (Json.quoteAscii text).length ≤ 12 * text.length + 2 := by
  have hflat : (text.flatMap Json.escapeAscii).length ≤ 12 * text.length := by
    induction text with
    | nil => exact Nat.zero_le _
    | cons c rest ih =>
      have hc := length_escapeAscii c
      rw [List.flatMap_cons, List.length_append, List.length_cons]
      omega
  rw [Json.quoteAscii, List.length_cons, List.length_append, List.length_singleton]
  omega

theorem fingerprint_length {text : List Char} (h : isFingerprint text = true) : text.length = 71 := by
  rw [isFingerprint, Bool.and_eq_true, Media.isHex64, Bool.and_eq_true, beq_iff_eq, List.length_drop] at h
  omega

theorem kind_length {text : List Char} (h : isKind text = true) : text.length ≤ 64 := by
  cases text with
  | nil => exact Nat.zero_le _
  | cons c rest =>
    rw [isKind, Bool.and_eq_true, Bool.and_eq_true, decide_eq_true_eq] at h
    rw [List.length_cons]
    omega

theorem digest_length (digest : Media.HexDigest) : digest.text.toList.length = 64 := by
  have h := digest.wf
  rw [Media.isHex64, Bool.and_eq_true, beq_iff_eq] at h
  exact h.1

/-- The limit on metadata is never reached. -/
theorem metadata_short (host : Host) (key : ArtifactCacheKey) (payload : Payload) :
    (asciiBytes (host.metadata key payload)).length ≤ MAX_METADATA_BYTES := by
  have hkind := kind_length key.kind_safe
  have hfingerprint : ∀ f ∈ [key.sourceFingerprint, key.producerFingerprint, key.modelFingerprint,
      key.promptFingerprint, key.configFingerprint, key.preprocessingFingerprint],
      f.toList.length ≤ 71 := fun f hf => Nat.le_of_eq (fingerprint_length (key.opaque_ f hf))
  have hint : (Json.intText (payload.bytes.length : Int)).length ≤ 20 := by
    rw [Json.intText, if_neg (by omega), Int.natAbs_natCast]
    exact Nat.toDigits_length 10 _ 20 (by decide) (Nat.lt_trans payload.short (by decide))
  have h₁ := length_quoteAscii key.artifactKind.toList
  have h₂ := length_quoteAscii key.configFingerprint.toList
  have h₃ := length_quoteAscii key.modelFingerprint.toList
  have h₄ := length_quoteAscii key.preprocessingFingerprint.toList
  have h₅ := length_quoteAscii key.producerFingerprint.toList
  have h₆ := length_quoteAscii key.promptFingerprint.toList
  have h₇ := length_quoteAscii key.sourceFingerprint.toList
  have h₈ := length_quoteAscii (host.digest key)
  have h₉ := length_quoteAscii (host.sha256 payload.bytes).text.toList
  have hnames : ∀ name ∈ ["key", "key_digest", "payload_bytes", "payload_sha256", "schema", CACHE_SCHEMA,
      "artifact_kind", "config_fingerprint", "model_fingerprint", "preprocessing_fingerprint",
      "producer_fingerprint", "prompt_fingerprint", "source_fingerprint"],
      (Json.quoteAscii name.toList).length ≤ 64 := by decide
  simp only [List.mem_cons, List.not_mem_nil, or_false, forall_eq_or_imp, forall_eq] at hfingerprint hnames
  have hd : (host.digest key).length = 64 := digest_length _
  have hp := digest_length (host.sha256 payload.bytes)
  unfold asciiBytes Octets.ascii Json.asciiDumps Host.metadata ArtifactCacheKey.json ArtifactCacheKey.toDict
  simp only [List.length_map, String.toList_ofList, Json.asciiText, Json.asciiFields, List.map_cons,
    List.map_nil, List.length_append, List.length_cons, List.length_nil, Json.text, if_true,
    Bool.false_eq_true, if_false, MAX_METADATA_BYTES]
  omega

/-! ## A reader of it -/

mutual

def ofJson : Json.Value → Loads.Value
  | .null => .null
  | .bool b => .bool b
  | .int i => .int i
  | .float x => .float (.finite x)
  | .str s => shown s
  | .arr items => .arr (ofItems items)
  | .obj fields => .obj (ofFields fields)

def ofItems : List Json.Value → List Loads.Value
  | [] => []
  | v :: rest => ofJson v :: ofItems rest

def ofFields : List (String × Json.Value) → List (Text × Loads.Value)
  | [] => []
  | (name, v) :: rest => (ofChars name.toList, ofJson v) :: ofFields rest

end

/-- `json.loads` of the text of one value in ASCII. -/
def loadAscii (raw : Bytes) : Except LoadError Loads.Value :=
  match Json.loads (String.ofList (Json.plain (raw.map fun byte => Char.ofNat byte.toNat))) with
  | some v => .ok (ofJson v)
  | none => .error .malformed

theorem characters_ascii {text : List Char} (h : text.all Json.isAscii = true) :
    (text.map fun c => UInt8.ofNat c.toNat).map (fun byte => Char.ofNat byte.toNat) = text := by
  rw [List.map_map]
  refine (List.map_congr_left fun c hc => ?_).trans (List.map_id _)
  have hascii := List.all_eq_true.mp h c hc
  rw [Json.isAscii, decide_eq_true_eq] at hascii
  show Char.ofNat (UInt8.ofNat c.toNat).toNat = c
  rw [UInt8.toNat_ofNat', Nat.mod_eq_of_lt (Nat.lt_trans hascii (by decide)), Char.ofNat_toNat]

/-- What `json.dumps` writes is read back. -/
theorem loadAscii_dumps (v : Json.Value) : loadAscii (asciiBytes v) = .ok (ofJson v) := by
  have htext : String.ofList (Json.plain ((asciiBytes v).map fun byte => Char.ofNat byte.toNat)) =
      Json.dumps v := by
    rw [asciiBytes, Octets.ascii, Json.asciiDumps, String.toList_ofList,
      characters_ascii (Json.asciiText_ascii v)]
    have hplain := Json.plain_asciiText v []
    rw [List.append_nil] at hplain
    rw [hplain]
    exact congrArg String.ofList (List.append_nil _)
  unfold loadAscii
  rw [htext, Json.loads_dumps]

/-- The octets determine the key. -/
theorem key_of_bytes (h : asciiBytes key'.json = asciiBytes key.json) : key' = key := by
  have hchars := congrArg (List.map fun byte => Char.ofNat byte.toNat) h
  unfold asciiBytes Octets.ascii Json.asciiDumps at hchars
  rw [String.toList_ofList, String.toList_ofList, characters_ascii (Json.asciiText_ascii _),
    characters_ascii (Json.asciiText_ascii _)] at hchars
  have hjson := Json.asciiText_injective hchars
  unfold ArtifactCacheKey.json at hjson
  have hfields := List.map_injective_iff.mpr (fun a b hab => ?_) (Json.Value.obj.inj hjson)
  · exact key_ext hfields
  · obtain ⟨hname, hvalue⟩ := Prod.mk.inj hab
    exact Prod.ext hname (Json.Value.str.inj hvalue)

/-- A host with this reader reads back what it writes. -/
theorem readsBack_loadAscii (h : host.loads = loadAscii) : ReadsBack host := by
  intro key payload
  rw [h, loadAscii_dumps]
  rfl

end MDRack.Artifacts
