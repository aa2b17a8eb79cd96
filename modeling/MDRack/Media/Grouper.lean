import MDRack.Media.Boundary

/-!
# Grouping timed atoms into passages (`mdrack_media.grouper.group_timed_atoms`)

* `validateAtoms` — the contract of the input, with a categorical failure for each breach.
* `groupFrom` — the `while` loop: one passage for each boundary found.  It ends because a
  boundary is never before its start (`findBoundary_ge`).
* `buildMetrics` — the counts of a result; the final assertions read one of them.
* `groupTimedAtoms` — the whole call.
-/

namespace MDRack.Media

open Json (Value)
open Checks (getOr require)
open Outcome

variable {sha256 : String → HexDigest}

/-! ## Input -/

/-- `any(current.start_ms < previous.start_ms …)`, negated. -/
def startsInOrder (atoms : List (TimedTextAtom sha256)) : Bool :=
  (atoms.zip atoms.tail).all fun pair => decide (pair.1.startMs ≤ pair.2.startMs)

def checkAtoms (resourceIdentifier : MediaId .resource) :
    List (TimedTextAtom sha256) → Except Failure Unit
  | [] => .ok ()
  | first :: rest => do
    require (∀ item ∈ first :: rest, item.resourceId = resourceIdentifier ∧
        item.producerFingerprint = first.producerFingerprint ∧
        item.normalizationFingerprint = first.normalizationFingerprint)
      (.timedGrouping "mixed_atom_contract")
    require ((first :: rest).map (·.ordinal) = List.range (first :: rest).length)
      (.timedGrouping "atom_ordinals_not_canonical")
    require ((first :: rest).map (·.atomId)).Nodup (.timedGrouping "duplicate_atom_id")
    require (startsInOrder (first :: rest) = true) (.timedGrouping "atoms_not_ordered")

/-- The resource of the call: the argument, or that of the first atom. -/
def resourceOf (atoms : List (TimedTextAtom sha256)) : Option String → Except Failure String
  | some identifier => .ok identifier
  | none =>
    match atoms with
    | [] => .error (.timedGrouping "resource_id_required_for_empty_input")
    | first :: _ => .ok first.resourceId.text

def validResource (identifier : String) : Except Failure (MediaId .resource) :=
  match validateMediaId identifier "resource_id" .resource with
  | .ok resourceIdentifier => .ok resourceIdentifier
  | .error _ => .error (.timedGrouping "invalid_resource_id")

def validateAtoms (atoms : List (TimedTextAtom sha256)) (resourceIdentifier : Option String) :
    Except Failure (MediaId .resource) := do
  let identifier ← resourceOf atoms resourceIdentifier
  let resourceIdentifier ← validResource identifier
  checkAtoms resourceIdentifier atoms
  .ok resourceIdentifier

def effectiveNormalization (atoms : List (TimedTextAtom sha256)) :
    Option (Fingerprint .normalization) → Except Failure (Fingerprint .normalization)
  | none =>
    match atoms with
    | [] => .error (.timedGrouping "normalization_fingerprint_required_for_empty_input")
    | first :: _ => .ok first.normalizationFingerprint
  | some fingerprint =>
    match atoms with
    | [] => .ok fingerprint
    | first :: _ =>
      if fingerprint ≠ first.normalizationFingerprint then .error (.timedGrouping "mixed_atom_contract")
      else .ok first.normalizationFingerprint

def fingerprintPayload (policy : TimedChunkingPolicy)
    (tokenCounterFingerprint : Fingerprint .tokenCounter) (tokenCountKind unsplittable : String) :
    Value :=
  .obj [("algorithm", .str GROUPER_ALGORITHM),
    ("boundary_window", .str "soft-min-through-first-soft-max-or-hard-risk-v1"),
    ("distance_penalty", .str "floor(10*absolute_delta/target)-per-axis-v1"),
    ("input_order", .str "strict-start-ms-nondecreasing-v1"),
    ("join_policy", .str JOIN_POLICY),
    ("output_overlap_atoms", .int 0),
    ("policy", policy.toDict),
    ("score_weights", SCORE_WEIGHTS.toDict),
    ("tie_order", .arr [.str "score_desc", .str "token_distance_asc", .str "duration_distance_asc",
      .str "boundary_asc"]),
    ("token_count_kind", .str tokenCountKind),
    ("token_counter_fingerprint", .str tokenCounterFingerprint.value),
    ("unsplittable", .str unsplittable),
    ("version", .int 1)]

/-! ## The loop -/

theorem findBoundary_ge {atoms : List (TimedTextAtom sha256)} {startIndex : Nat}
    {policy : TimedChunkingPolicy} {counter : TokenCounter} {unsplittable : String}
    {b : SelectedBoundary} (hlt : startIndex < atoms.length)
    (h : findBoundary atoms startIndex policy counter unsplittable = .ok b) :
    startIndex ≤ b.candidate.endIndex :=
  ((findBoundary_yields (List.getElem?_eq_getElem hlt)).of_ok h).closes.starts

section
variable (atoms : List (TimedTextAtom sha256)) (policy : TimedChunkingPolicy)
  (counter : TokenCounter) (tokenCountKind unsplittable : String)
  (resourceIdentifier : MediaId .resource) (passageRepresentationId : MediaId .representation)
  (grouperFingerprint : Fingerprint .grouper)

/-- The passage of the atoms up to a selected boundary. -/
def passageOf (sourceAtoms : List (TimedTextAtom sha256)) (selected : SelectedBoundary)
    (ordinal : Nat) : Except Failure TimedPassage := do
  let first ← getOr .indexError sourceAtoms.head?
  let last ← getOr .indexError sourceAtoms.getLast?
  let candidate := selected.candidate
  let textDigest := "sha256:" ++ (sha256 candidate.text).text
  let passageIdentifier ← passageId sha256 resourceIdentifier grouperFingerprint.value ordinal
    first.atomId last.atomId first.startMs candidate.endMs textDigest
  let tokenCount ← TokenCount.make candidate.tokenCount tokenCountKind counter.fingerprint
  TimedPassage.make passageIdentifier resourceIdentifier passageRepresentationId first.startMs
    candidate.endMs candidate.text ordinal tokenCount (sourceAtoms.map (·.atomId))
    grouperFingerprint
    { boundaryReason := selected.reason, boundaryScore := candidate.score,
      hardLimitExceeded := selected.hardLimitExceeded, unsplittable := selected.unsplittable }

def groupFrom (startIndex : Nat) (grouped : List TimedPassage) : Except Failure (List TimedPassage) :=
  if _ : startIndex < atoms.length then
    match _ : findBoundary atoms startIndex policy counter unsplittable with
    | .error failure => .error failure
    | .ok selected =>
      match passageOf counter tokenCountKind resourceIdentifier passageRepresentationId
          grouperFingerprint (atoms.extract startIndex (selected.candidate.endIndex + 1)) selected
          grouped.length with
      | .error failure => .error failure
      | .ok passage => groupFrom (selected.candidate.endIndex + 1) (grouped ++ [passage])
  else .ok grouped
termination_by atoms.length - startIndex
decreasing_by
  have hge := findBoundary_ge ‹_› ‹_›
  omega

end

/-! ## Metrics -/

structure GroupingMetrics where
  sourceAtomCount : Nat
  passageCount : Nat
  sourceAtomReferenceCount : Nat
  duplicateSourceAtomCount : Nat
  inputOverlapCount : Nat
  outputOverlapCount : Nat
  hardLimitExceededCount : Nat
  unsplittablePassageCount : Nat
  tokenCountTotal : Nat
  maxPassageTokens : Nat
  maxPassageDurationMs : Nat
  boundaryReasonCounts : List (String × Nat)

/-- Atoms that start before the latest end among those before them. -/
def inputOverlaps (priorEnd : Nat) : List (TimedTextAtom sha256) → Nat
  | [] => 0
  | item :: rest =>
    (if item.startMs < priorEnd then 1 else 0) + inputOverlaps (max priorEnd item.endMs) rest

def outputOverlaps (passages : List TimedPassage) : Nat :=
  (passages.zip passages.tail).countP fun pair => decide (pair.2.startMs < pair.1.endMs)

/-- A `Counter` of the reasons, its keys sorted. -/
def reasonCounts (reasons : List String) : List (String × Nat) :=
  (reasons.eraseDups.mergeSort fun a b => decide (a ≤ b)).map fun reason => (reason, reasons.count reason)

def buildMetrics (atoms : List (TimedTextAtom sha256)) (passages : List TimedPassage) :
    GroupingMetrics :=
  let references := passages.flatMap (·.sourceAtomIds)
  { sourceAtomCount := atoms.length
    passageCount := passages.length
    sourceAtomReferenceCount := references.length
    duplicateSourceAtomCount := references.length - references.eraseDups.length
    inputOverlapCount := inputOverlaps 0 atoms
    outputOverlapCount := outputOverlaps passages
    hardLimitExceededCount := passages.countP (·.metadata.hardLimitExceeded)
    unsplittablePassageCount := passages.countP (·.metadata.unsplittable)
    tokenCountTotal := (passages.map (·.tokenCount.count)).foldl (· + ·) 0
    maxPassageTokens := (passages.map (·.tokenCount.count)).foldl max 0
    maxPassageDurationMs := (passages.map fun p => p.endMs - p.startMs).foldl max 0
    boundaryReasonCounts := reasonCounts (passages.map (·.metadata.boundaryReason)) }

/-! ## The call -/

structure TimedGroupingResult (sha256 : String → HexDigest) where
  resourceId : MediaId .resource
  representationId : MediaId .representation
  atoms : List (TimedTextAtom sha256)
  passages : List TimedPassage
  grouperFingerprint : Fingerprint .grouper
  fingerprintPayload : Value
  metrics : GroupingMetrics

/-- The passages and fingerprints of a validated call. -/
def groupValidated (atoms : List (TimedTextAtom sha256)) (policy : TimedChunkingPolicy)
    (counter : TokenCounter) (tokenCountKind unsplittable : String)
    (resourceIdentifier : MediaId .resource) (normalization : Fingerprint .normalization) :
    Except Failure (TimedGroupingResult sha256) := do
  let payload := fingerprintPayload policy counter.fingerprint tokenCountKind unsplittable
  let grouperFingerprint ← Fingerprint.fromPayload sha256 .grouper payload
  let passageRepresentationId ← representationId sha256 resourceIdentifier
    REPRESENTATION_TIMED_PASSAGE grouperFingerprint.value normalization.value
  let passages ← groupFrom atoms policy counter tokenCountKind unsplittable resourceIdentifier
    passageRepresentationId grouperFingerprint 0 []
  let metrics := buildMetrics atoms passages
  require (passages.flatMap (·.sourceAtomIds) = atoms.map (·.atomId))
    (.assertionError "grouping must preserve exact-once source atom order")
  require (metrics.outputOverlapCount = 0)
    (.assertionError "grouping must not emit overlapping passages")
  .ok { resourceId := resourceIdentifier, representationId := passageRepresentationId, atoms,
        passages, grouperFingerprint, fingerprintPayload := payload, metrics }

def groupTimedAtoms (atoms : List (TimedTextAtom sha256)) (policy : TimedChunkingPolicy)
    (counter : TokenCounter) (tokenCountKind : String) (resourceIdentifier : Option String)
    (normalizationFingerprint : Option (Fingerprint .normalization)) (unsplittable : String) :
    Except Failure (TimedGroupingResult sha256) := do
  require (policy.overlapAtoms = 0) (.timedGrouping "output_overlap_not_supported")
  require (unsplittable ∈ UNSPLITTABLE_POLICIES) (.timedGrouping "invalid_unsplittable_policy")
  require (tokenCountKind ∈ tokenCountKinds) (.timedGrouping "invalid_token_count_kind")
  let resourceIdentifier ← validateAtoms atoms resourceIdentifier
  let normalization ← effectiveNormalization atoms normalizationFingerprint
  groupValidated atoms policy counter tokenCountKind unsplittable resourceIdentifier normalization

end MDRack.Media
