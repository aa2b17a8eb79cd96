import MDRack.Lib.Loads
import MDRack.Transcripts.Source

/-!
# Building a transcript artifact (`build_artifact`)

Raw atoms are accepted one after the other.  In strict mode the first one that is refused ends the
reading; otherwise it is left out and reported.

* `RawAtom`, `acceptRaw`, `makeAtom` — a raw atom, its checks, and the constructor of its record.
* `buildAtoms`, `buildArtifact` — all raw atoms.

The constructors check again what the reader has checked, so what they can refuse is left: an
identifier of a cue without UTF-8 form.
-/

namespace MDRack.Transcripts

open Binary64 Checks CodePoints Markdown
open Media (HexDigest MediaId Fingerprint TimedTextAtom)

/-! ## Raw atoms -/

/-- A value of `json.loads`. -/
abbrev Loaded := Loads.Value

/-- The milliseconds of the readers are natural numbers, which `exact_ms` lets through. -/
structure RawAtom where
  startMs : Nat
  endMs : Nat
  text : Loaded
  sourceOrdinal : Nat
  cueId : Loaded
  speaker : Loaded
  confidence : Loaded
  timingPrecision : Loaded

/-- `RawAtom(0, 0, None, index)`. -/
def RawAtom.empty (index : Nat) : RawAtom := ⟨0, 0, .null, index, .null, .null, .null, .null⟩

def refuse {α : Type} (code : ReadCode) : Except Thrown α := .error (.readError code none)

def normalizeText : Loaded → Except Thrown (List Char)
  | .str text =>
    match characters? text with
    | none => refuse .invalidAtom
    | some cs => if collapseText cs = [] then refuse .emptyText else .ok (collapseText cs)
  | _ => refuse .invalidAtom

/-- `_optional_text`. -/
def optionalText : Loaded → Except Thrown (Option (List Char))
  | .null => .ok none
  | .str text =>
    match characters? text with
    | none => refuse .invalidAtom
    | some cs => if blank cs then refuse .invalidAtom else .ok (some (strip cs))
  | _ => refuse .invalidAtom

/-- `0.0 <= result <= 1.0`. -/
def probability (x : F64) : Except Thrown (Option F64) :=
  if 0 ≤ x.value ∧ x.value ≤ unit then .ok (some x) else refuse .invalidAtom

/-- `_optional_probability`: the conversion of an integer is not guarded. -/
def optionalProbability : Loaded → Except Thrown (Option F64)
  | .null => .ok none
  | .int i => do
    let x ← getOr .overflowError (ofInt i)
    probability x
  | .float (.finite x) => probability x
  | _ => refuse .invalidAtom

structure Accepted where
  startMs : Nat
  endMs : Nat
  text : List Char
  speaker : Option (List Char)
  confidence : Option F64

/-- The checks of one raw atom, after an atom that ends at `previousEnd`. -/
def acceptRaw (previousEnd : Int) (raw : RawAtom) : Except Thrown Accepted := do
  require (raw.startMs < raw.endMs) (.readError .invalidTiming none)
  let text ← normalizeText raw.text
  require (previousEnd ≤ raw.startMs) (.readError .overlappingInterval none)
  let speaker ← optionalText raw.speaker
  let confidence ← optionalProbability raw.confidence
  .ok ⟨raw.startMs, raw.endMs, text, speaker, confidence⟩

/-- `_safe_atom_metadata`. -/
def safeAtomMetadata (raw : RawAtom) : List (String × Loaded) :=
  (match raw.cueId with
    | .str _ | .int _ => [("source_cue_id", raw.cueId)]
    | _ => []) ++
  match raw.timingPrecision with
    | .str text =>
      if stripBlanks isSpace text = [] then []
      else [("timing_precision", .str (stripBlanks isSpace text))]
    | _ => []

/-- `_freeze_json` of a text or an integer. -/
def freezeField (name : String) : Loaded → Except Thrown (String × Json.Value)
  | .int i => .ok (name, .int i)
  | .str text =>
    match characters? text with
    | some cs => .ok (name, .str (String.ofList cs))
    | none => .error (.valueError "metadata value must be UTF-8 encodable")
  | _ => .error (.valueError "metadata must use the JSON value grammar")

/-- `freeze_metadata`. -/
def freezeMetadata (fields : List (String × Loaded)) : Except Thrown (List (String × Json.Value)) :=
  mapAll (fun field => freezeField field.1 field.2) fields

/-! ## Atoms -/

section

variable (sha256 : ByteArray → HexDigest)

/-- SHA-256 of the UTF-8 form of a text. -/
def textDigest (text : String) : HexDigest := sha256 text.toUTF8

/-- `TimedTextAtom` with the fields that grouping does not read. -/
structure TranscriptAtom where
  atom : TimedTextAtom (textDigest sha256)
  confidence : Option F64
  metadata : List (String × Json.Value)

/-- `TranscriptDiagnostic`. -/
structure TranscriptDiagnostic where
  code : ReadCode
  sourceOrdinal : Option Nat
  deriving DecidableEq, Repr

/-- `NORMALIZATION_FINGERPRINT`. -/
def normalizationFingerprint : Fingerprint .normalization :=
  .ofDigest .normalization (textDigest sha256 (Json.dumps (.obj [
    ("line_endings", .str "unicode-whitespace-collapse"), ("text", .str "strip-and-collapse-v1"),
    ("version", .int 1)])))

structure Caller where
  resourceId : MediaId .resource
  producerFingerprint : Fingerprint .producer

variable (caller : Caller)

def Caller.atomId (ordinal : Nat) : Except Media.Failure (MediaId .atom) :=
  Media.atomId (textDigest sha256) caller.resourceId caller.producerFingerprint.value ordinal

/-- `require_text(speaker, "speaker")` of a text. -/
def requireSpeaker : Option (List Char) → Except Thrown (Option NonEmptyText)
  | none => .ok none
  | some speaker =>
    if h : hasVisible (String.ofList speaker) = true then .ok (some ⟨String.ofList speaker, h⟩)
    else .error (.valueError "speaker must be non-empty")

/-- The call of the constructor `TimedTextAtom`, with its checks in order. -/
def makeAtom (ordinal : Nat) (raw : RawAtom) (accepted : Accepted) :
    Except Thrown (TranscriptAtom sha256) :=
  match hid : caller.atomId sha256 ordinal with
  | .error failure => .error (.media failure)
  | .ok atomId =>
    if htimes : accepted.startMs < accepted.endMs then
      if htext : hasVisible (String.ofList accepted.text) = true then do
        let speaker ← requireSpeaker accepted.speaker
        let metadata ← freezeMetadata (safeAtomMetadata raw)
        .ok ⟨⟨atomId, caller.resourceId, accepted.startMs, accepted.endMs,
          String.ofList accepted.text, ordinal, caller.producerFingerprint,
          normalizationFingerprint sha256, speaker, htimes, htext, hid⟩,
          accepted.confidence, metadata⟩
      else .error (.valueError "text must be non-empty")
    else .error (.valueError "end_ms must be greater than start_ms")

/-- The loop of `build_artifact`. -/
def buildAtoms (strict : Bool) : Nat → Int → List RawAtom →
    Except Thrown (List (TranscriptAtom sha256) × List TranscriptDiagnostic)
  | _, _, [] => .ok ([], [])
  | ordinal, previousEnd, raw :: rest =>
    match acceptRaw previousEnd raw with
    | .ok accepted => do
      let atom ← makeAtom sha256 caller ordinal raw accepted
      let built ← buildAtoms strict (ordinal + 1) accepted.endMs rest
      .ok (atom :: built.1, built.2)
    | .error (.readError code _) =>
      if strict then .error (.readError code (some raw.sourceOrdinal))
      else do
        let built ← buildAtoms strict ordinal previousEnd rest
        .ok (built.1, ⟨code, some raw.sourceOrdinal⟩ :: built.2)
    | .error e => .error e

/-! ## Artifacts -/

/-- `metadata` is `diagnostic_count`, `reader_format` and `source_fingerprint`. -/
structure TranscriptArtifact where
  representationId : MediaId .representation
  atoms : List (TranscriptAtom sha256)
  language : Option (List Char)
  durationMs : Option Nat
  metadata : Nat × String × String

/-- The constructor `TranscriptArtifact`, with its checks in order. -/
def makeArtifact (atoms : List (TranscriptAtom sha256)) (language : Option (List Char))
    (durationMs : Option Nat) (metadata : Nat × String × String) :
    Except Thrown (TranscriptArtifact sha256) :=
  match Media.representationId (textDigest sha256) caller.resourceId "audio_transcript"
      caller.producerFingerprint.value (normalizationFingerprint sha256).value with
  | .error failure => .error (.media failure)
  | .ok representationId => do
    require (atoms.map (·.atom.atomId)).Nodup (.valueError "atom IDs must be unique")
    require (atoms.map (·.atom.ordinal) = List.range atoms.length)
      (.valueError "atom ordinals must be contiguous and match canonical order")
    require (atoms.IsChain fun a b => a.atom.endMs ≤ b.atom.startMs)
      (.valueError "atoms must be ordered and non-overlapping")
    require (∀ duration ∈ durationMs, ∀ last ∈ atoms.getLast?, last.atom.endMs ≤ duration)
      (.valueError "duration_ms must include every atom interval")
    .ok ⟨representationId, atoms, language, durationMs, metadata⟩

structure TranscriptReadResult where
  artifact : TranscriptArtifact sha256
  detectedFormat : String
  sourceFingerprint : String
  diagnostics : List TranscriptDiagnostic

/-- The end of the last atom, or the duration that the source shows, if it is not shorter. -/
def resolveDuration (strict : Bool) (computed duration : Option Nat) :
    Except Thrown (Option Nat × List TranscriptDiagnostic) :=
  match duration with
  | none => .ok (computed, [])
  | some duration =>
    if ∃ last ∈ computed, duration < last then
      if strict then refuse .invalidTiming else .ok (computed, [⟨.invalidTiming, none⟩])
    else .ok (some duration, [])

def buildArtifact (strict : Bool) (rawAtoms : List RawAtom) (language : Loaded)
    (detectedFormat sourceDigest : String) (durationMs : Option Nat) :
    Except Thrown (TranscriptReadResult sha256) := do
  let resolvedLanguage ← optionalText language
  let built ← buildAtoms sha256 caller strict 0 (-1) rawAtoms
  let resolved ← resolveDuration strict (built.1.getLast?.map (·.atom.endMs)) durationMs
  let diagnostics := built.2 ++ resolved.2
  let artifact ← makeArtifact sha256 caller built.1 resolvedLanguage resolved.1
    (diagnostics.length, detectedFormat, sourceDigest)
  .ok ⟨artifact, detectedFormat, sourceDigest, diagnostics⟩

end

end MDRack.Transcripts
