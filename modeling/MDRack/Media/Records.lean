import MDRack.Core.Common

/-!
# Media records (`mdrack_media`: `identifiers`, `fingerprints`, `policies`, `records`)

* `MediaId`, `Fingerprint` — framed SHA-256 texts; the hash function is a parameter.
* `TimedChunkingPolicy` — limits in the order that its constructor demands.
* `TimedTextAtom`, `TimedPassage` — records that carry what their constructors check.

Numbers enter identifiers through JSON text, so an integer that the interpreter does not render
(more than `maxIntDigits` digits) stops the call that needs the identifier.
-/

namespace MDRack.Media

open Json (Value)

/-- Exceptions of the media package. -/
inductive Failure
  | timedGrouping (code : String)
  | valueError (message : String)
  | assertionError (message : String)
  | indexError
  deriving DecidableEq, Repr

/-- The interpreter converts this integer to decimal text. -/
def Renders (n : Nat) : Prop := (Nat.toDigits 10 n).length ≤ maxIntDigits

instance (n : Nat) : Decidable (Renders n) := inferInstanceAs (Decidable (_ ≤ _))

/-- `canonical_json` of a value whose objects list their members in key order. -/
def canonicalJson (value : Value) : Except Failure String :=
  if Json.intsWithin maxIntDigits value then .ok (Json.dumps value)
  else .error (.valueError "Exceeds the limit (4300 digits) for integer string conversion")

/-! ## Digests, identifiers, fingerprints -/

def isHex64 (text : List Char) : Bool :=
  text.length == 64 && text.all fun c => "0123456789abcdef".toList.contains c

/-- `hexdigest()` of SHA-256. -/
structure HexDigest where
  text : String
  wf : isHex64 text.toList = true

inductive IdKind
  | resource
  | representation
  | atom
  | passage
  | frame
  | whole
  deriving DecidableEq, Repr

def IdKind.name : IdKind → String
  | .resource => "resource"
  | .representation => "representation"
  | .atom => "atom"
  | .passage => "passage"
  | .frame => "frame"
  | .whole => "whole"

/-- `head` followed by sixty-four hexadecimal digits. -/
def isFramed (head text : List Char) : Bool :=
  head.isPrefixOf text && isHex64 (text.drop head.length)

def isMediaId (kind : IdKind) (text : String) : Bool :=
  isFramed (kind.name ++ "_").toList text.toList

/-- A canonical logical ID of one kind. -/
structure MediaId (kind : IdKind) where
  text : String
  wf : isMediaId kind text = true
  deriving DecidableEq, Repr

def validateMediaId (value fieldName : String) (kind : IdKind) : Except Failure (MediaId kind) :=
  if hasVisible value = false then .error (.valueError (fieldName ++ " must be non-empty"))
  else if h : isMediaId kind value = true then .ok ⟨value, h⟩
  else .error (.valueError (fieldName ++ " must be a canonical " ++ kind.name ++ " ID"))

theorem isFramed_append (head digest : List Char) (h : isHex64 digest = true) :
    isFramed head (head ++ digest) = true := by
  unfold isFramed
  rw [List.drop_left, h, Bool.and_true]
  exact List.isPrefixOf_iff_prefix.mpr (List.prefix_append head digest)

def MediaId.ofDigest (kind : IdKind) (digest : HexDigest) : MediaId kind where
  text := kind.name ++ "_" ++ digest.text
  wf := by
    have h := isFramed_append (kind.name ++ "_").toList digest.text.toList digest.wf
    rwa [← String.toList_append] at h

inductive FingerprintRole
  | producer
  | normalization
  | grouper
  | tokenCounter
  deriving DecidableEq, Repr

def isFingerprint (value : String) : Bool := isFramed "sha256:".toList value.toList

/-- A pipeline fingerprint; those of different roles are not interchangeable. -/
structure Fingerprint (role : FingerprintRole) where
  value : String
  wf : isFingerprint value = true
  deriving DecidableEq, Repr

def Fingerprint.ofDigest (role : FingerprintRole) (digest : HexDigest) : Fingerprint role where
  value := "sha256:" ++ digest.text
  wf := by
    have h := isFramed_append "sha256:".toList digest.text.toList digest.wf
    rwa [← String.toList_append] at h

section
variable (sha256 : String → HexDigest)

/-- `from_payload`. -/
def Fingerprint.fromPayload (role : FingerprintRole) (payload : Value) :
    Except Failure (Fingerprint role) := do
  let encoded ← canonicalJson payload
  .ok (Fingerprint.ofDigest role (sha256 encoded))

def stableMediaId (kind : IdKind) (parts : List Value) : Except Failure (MediaId kind) := do
  let encoded ← canonicalJson (.obj [("contract", .str "mdrack.media-id.v1"),
    ("kind", .str kind.name), ("parts", .arr parts)])
  .ok (MediaId.ofDigest kind (sha256 encoded))

def representationId (resourceIdentifier : MediaId .resource)
    (representationKind producerFingerprint normalizationFingerprint : String) :
    Except Failure (MediaId .representation) :=
  stableMediaId sha256 .representation [.str resourceIdentifier.text, .str representationKind,
    .str producerFingerprint, .str normalizationFingerprint]

def atomId (resourceIdentifier : MediaId .resource) (producerFingerprint : String)
    (ordinal : Nat) : Except Failure (MediaId .atom) :=
  stableMediaId sha256 .atom [.str resourceIdentifier.text, .str producerFingerprint, .int ordinal]

def passageId (resourceIdentifier : MediaId .resource) (grouperFingerprint : String)
    (ordinal : Nat) (firstAtomId lastAtomId : MediaId .atom) (startMs endMs : Nat)
    (textDigest : String) : Except Failure (MediaId .passage) :=
  stableMediaId sha256 .passage [.str resourceIdentifier.text, .str grouperFingerprint,
    .int ordinal, .str firstAtomId.text, .str lastAtomId.text, .int startMs, .int endMs,
    .str textDigest]

end

/-! ## Policies -/

/-- `TimedChunkingPolicy` after its constructor. -/
structure TimedChunkingPolicy where
  softMinTokens : Nat
  targetTokens : Nat
  softMaxTokens : Nat
  hardMaxTokens : Nat
  softMinDurationMs : Nat
  targetDurationMs : Nat
  softMaxDurationMs : Nat
  hardMaxDurationMs : Nat
  mediumPauseMs : Nat
  strongPauseMs : Nat
  overlapAtoms : Nat
  tokens_positive : 1 ≤ softMinTokens
  durations_positive : 1 ≤ softMinDurationMs
  tokens_ordered : softMinTokens ≤ targetTokens ∧ targetTokens ≤ softMaxTokens ∧
    softMaxTokens ≤ hardMaxTokens
  durations_ordered : softMinDurationMs ≤ targetDurationMs ∧
    targetDurationMs ≤ softMaxDurationMs ∧ softMaxDurationMs ≤ hardMaxDurationMs
  pauses_ordered : mediumPauseMs ≤ strongPauseMs

/-- The numbers of a policy, in the key order of `to_dict`. -/
def TimedChunkingPolicy.numbers (p : TimedChunkingPolicy) : List (String × Nat) :=
  [("hard_max_duration_ms", p.hardMaxDurationMs), ("hard_max_tokens", p.hardMaxTokens),
    ("medium_pause_ms", p.mediumPauseMs), ("overlap_atoms", p.overlapAtoms),
    ("soft_max_duration_ms", p.softMaxDurationMs), ("soft_max_tokens", p.softMaxTokens),
    ("soft_min_duration_ms", p.softMinDurationMs), ("soft_min_tokens", p.softMinTokens),
    ("strong_pause_ms", p.strongPauseMs), ("target_duration_ms", p.targetDurationMs),
    ("target_tokens", p.targetTokens)]

def TimedChunkingPolicy.toDict (p : TimedChunkingPolicy) : Value :=
  .obj (p.numbers.map fun entry => (entry.1, .int entry.2))

/-! ## Records -/

def tokenCountKinds : List String := ["exact", "estimated"]

structure TokenCount where
  count : Nat
  kind : String
  counterFingerprint : Fingerprint .tokenCounter
  kind_known : kind ∈ tokenCountKinds

def TokenCount.make (count : Nat) (kind : String) (counterFingerprint : Fingerprint .tokenCounter) :
    Except Failure TokenCount :=
  if h : kind ∈ tokenCountKinds then .ok ⟨count, kind, counterFingerprint, h⟩
  else .error (.valueError "kind must be exact or estimated")

/-- A caller's tokenizer.  `count` may answer anything; only a non-negative integer counts. -/
structure TokenCounter where
  fingerprint : Fingerprint .tokenCounter
  count : String → Value

/-- A caller-prepared timed atom. -/
structure TimedTextAtom (sha256 : String → HexDigest) where
  atomId : MediaId .atom
  resourceId : MediaId .resource
  startMs : Nat
  endMs : Nat
  text : String
  ordinal : Nat
  producerFingerprint : Fingerprint .producer
  normalizationFingerprint : Fingerprint .normalization
  speaker : Option NonEmptyText
  starts_before_end : startMs < endMs
  text_visible : hasVisible text = true
  atom_id_expected : Media.atomId sha256 resourceId producerFingerprint.value ordinal = .ok atomId

/-- The grouper's metadata of a passage. -/
structure PassageMetadata where
  boundaryReason : String
  boundaryScore : Int
  hardLimitExceeded : Bool
  unsplittable : Bool
  deriving DecidableEq, Repr

structure TimedPassage where
  passageId : MediaId .passage
  resourceId : MediaId .resource
  representationId : MediaId .representation
  startMs : Nat
  endMs : Nat
  text : String
  ordinal : Nat
  tokenCount : TokenCount
  sourceAtomIds : List (MediaId .atom)
  grouperFingerprint : Fingerprint .grouper
  metadata : PassageMetadata
  starts_before_end : startMs < endMs
  text_visible : hasVisible text = true
  sources_nonempty : sourceAtomIds ≠ []
  sources_unique : sourceAtomIds.Nodup

/-- The constructor of `TimedPassage`, with its checks in order. -/
def TimedPassage.make (passageId : MediaId .passage) (resourceId : MediaId .resource)
    (representationId : MediaId .representation) (startMs endMs : Nat) (text : String)
    (ordinal : Nat) (tokenCount : TokenCount) (sourceAtomIds : List (MediaId .atom))
    (grouperFingerprint : Fingerprint .grouper) (metadata : PassageMetadata) :
    Except Failure TimedPassage :=
  if hTimes : startMs < endMs then
    if hText : hasVisible text = true then
      if hSources : sourceAtomIds ≠ [] then
        if hUnique : sourceAtomIds.Nodup then
          .ok { passageId, resourceId, representationId, startMs, endMs, text, ordinal, tokenCount,
                sourceAtomIds, grouperFingerprint, metadata, starts_before_end := hTimes,
                text_visible := hText, sources_nonempty := hSources, sources_unique := hUnique }
        else .error (.valueError "source_atom_ids must be unique")
      else .error (.valueError "source_atom_ids must be a non-empty sequence")
    else .error (.valueError "text must be non-empty")
  else .error (.valueError "end_ms must be greater than start_ms")

end MDRack.Media
