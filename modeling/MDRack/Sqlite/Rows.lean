import MDRack.Sqlite.Tables
import MDRack.Core.Validation

/-!
# Records as rows

How a record is written to a row and how a reader builds a record from a row.  The writers are
total, since a record carries the checks that `_preflight` repeats; the readers make every check
of the record constructors.

Principal results: `decode*_row` — each reader gives back the record that was written.
-/

namespace MDRack

open Checks

/-- The digest column of a locator payload. -/
def locatorFingerprint (env : Env) (payload : String) : String := "sha256:" ++ env.sha256 payload

def resourceRow (env : Env) (r : ResourceRecord) : ResourceRow where
  resourceId := r.resourceId.text
  resourceKind := r.resourceKind.text
  mediaType := r.mediaType.text
  sourceNamespace := r.sourceNamespace.text
  locatorKind := r.locator.kind.text
  locatorJson := canonicalJson r.locator.payload
  locatorFingerprint := locatorFingerprint env (canonicalJson r.locator.payload)
  contentHash := r.contentHash.map (·.text)
  title := r.title
  metadataJson := canonicalJson r.metadata

def representationRow (p : RepresentationRecord) : RepresentationRow where
  representationId := p.representationId.text
  resourceId := p.resourceId.text
  representationKind := p.representationKind.text
  modality := p.modality.text
  textContent := p.text
  language := p.language.map (·.text)
  producerFingerprint := p.producerFingerprint.map (·.text)
  tokenCount := p.tokenCount.map (·.count)
  tokenCountKind := p.tokenCount.map (·.kind)
  metadataJson := canonicalJson p.metadata

def unitRow (u : SearchUnitRecord) : UnitRow where
  unitId := u.unitId.text
  resourceId := u.resourceId.text
  representationId := u.representationId.text
  unitKind := u.unitKind.text
  modality := u.modality.text
  textContent := u.text
  evidenceLocatorKind := u.evidenceLocator.kind.text
  evidenceLocatorJson := canonicalJson u.evidenceLocator.payload
  ordinal := u.ordinal
  tokenCount := u.tokenCount.map (·.count)
  tokenCountKind := u.tokenCount.map (·.kind)
  metadataJson := canonicalJson u.metadata

def spaceRow (s : EmbeddingSpaceRecord) : SpaceRow where
  spaceId := s.spaceId.text
  dimensions := s.dimensions
  metric := s.metric
  fingerprint := s.fingerprint.text
  metadataJson := canonicalJson s.metadata

/-- A facet assignment as its statements take it: namespace, value and the assignment columns. -/
structure FacetValues where
  facetNamespace : String
  value : String
  origin : String
  producerIsNull : Bool
  producerValue : String
  confidenceJson : Option String
  deriving DecidableEq, Repr

def facetValues (f : ResourceFacet) : FacetValues where
  facetNamespace := f.facet.facetNamespace.text
  value := f.facet.value.text
  origin := f.origin.text
  producerIsNull := f.producerFingerprint.isNone
  producerValue := (f.producerFingerprint.map (·.text)).getD ""
  confidenceJson := f.confidence.map encodeConfidence

/-! ## Readers -/

def decodeLocator (kind payload fieldName : String) : Except Err Locator := do
  let kind ← requireNonEmpty kind (fieldName ++ ".kind")
  let payload ← decodeMapping payload (fieldName ++ ".payload")
  .ok ⟨kind, payload⟩

/-- `_validate_token_count`: both or neither. -/
def decodeTokenCount : Option Nat → Option TokenCountKind → Except Err (Option TokenCount)
  | none, none => .ok none
  | some count, some kind => .ok (some ⟨count, kind⟩)
  | _, _ => .error (.valueError "token_count and token_count_kind must be supplied together")

/-- `_resource_from_row`. -/
def decodeResource (env : Env) (row : ResourceRow) : Except Err ResourceRecord := do
  let locator ← decodeLocator row.locatorKind row.locatorJson "locator"
  require (canonicalJson locator.payload = row.locatorJson ∧
    locatorFingerprint env (canonicalJson locator.payload) = row.locatorFingerprint)
    (.valueError "locator fingerprint mismatch")
  let resourceId ← requireNonEmpty row.resourceId "resource_id"
  let resourceKind ← requireNonEmpty row.resourceKind "resource_kind"
  let mediaType ← requireNonEmpty row.mediaType "media_type"
  let sourceNamespace ← requireNonEmpty row.sourceNamespace "source_namespace"
  let contentHash ← requireOptionalNonEmpty row.contentHash "content_hash"
  let metadata ← decodeMapping row.metadataJson "metadata"
  .ok ⟨resourceId, resourceKind, mediaType, sourceNamespace, locator, contentHash, row.title, metadata⟩

def decodeRepresentation (row : RepresentationRow) : Except Err RepresentationRecord := do
  let metadata ← decodeMapping row.metadataJson "representation.metadata"
  let representationId ← requireNonEmpty row.representationId "representation_id"
  let resourceId ← requireNonEmpty row.resourceId "resource_id"
  let representationKind ← requireNonEmpty row.representationKind "representation_kind"
  let modality ← requireNonEmpty row.modality "modality"
  let language ← requireOptionalNonEmpty row.language "language"
  let producer ← requireOptionalNonEmpty row.producerFingerprint "producer_fingerprint"
  let tokenCount ← decodeTokenCount row.tokenCount row.tokenCountKind
  .ok ⟨representationId, resourceId, representationKind, modality, row.textContent, language,
    producer, tokenCount, metadata⟩

def decodeUnit (row : UnitRow) : Except Err SearchUnitRecord := do
  let locator ← decodeLocator row.evidenceLocatorKind row.evidenceLocatorJson "locator"
  let metadata ← decodeMapping row.metadataJson "unit.metadata"
  let unitId ← requireNonEmpty row.unitId "unit_id"
  let resourceId ← requireNonEmpty row.resourceId "resource_id"
  let representationId ← requireNonEmpty row.representationId "representation_id"
  let unitKind ← requireNonEmpty row.unitKind "unit_kind"
  let modality ← requireNonEmpty row.modality "modality"
  let tokenCount ← decodeTokenCount row.tokenCount row.tokenCountKind
  .ok ⟨unitId, resourceId, representationId, unitKind, modality, row.textContent, locator,
    row.ordinal, tokenCount, metadata⟩

def requirePositive (n : Nat) (fieldName : String) : Except Err { n : Nat // 0 < n } :=
  if h : 0 < n then .ok ⟨n, h⟩
  else .error (.valueError (fieldName ++ " must be an integer greater than or equal to 1"))

def decodeSpace (row : SpaceRow) : Except Err EmbeddingSpaceRecord := do
  let metadata ← decodeMapping row.metadataJson "space.metadata"
  let spaceId ← requireNonEmpty row.spaceId "space_id"
  let dimensions ← requirePositive row.dimensions "dimensions"
  let fingerprint ← requireNonEmpty row.fingerprint "fingerprint"
  .ok ⟨spaceId, dimensions, row.metric, fingerprint, metadata⟩

/-- `_validate_facet_row`. -/
def validateFacetRow (producerIsNull : Bool) (producerValue : String)
    (confidenceJson : Option String) : Except Err Unit := do
  if producerIsNull then
    require (producerValue = "") (.valueError "invalid producer discriminator")
  else
    let _ ← requireNonEmpty producerValue "producer_fingerprint"
  match confidenceJson with
  | none => .ok ()
  | some payload => do
    let _ ← decodeConfidence payload
    .ok ()

/-- `ResourceFacet(...)` of a joined facet row. -/
def decodeFacet (resourceId : NonEmptyText) (row : FacetValues) : Except Err ResourceFacet := do
  let facetNamespace ← requireNonEmpty row.facetNamespace "namespace"
  let value ← requireNonEmpty row.value "value"
  let origin ← requireNonEmpty row.origin "origin"
  let producer ← requireOptionalNonEmpty
    (if row.producerIsNull then none else some row.producerValue) "producer_fingerprint"
  let confidence ← match row.confidenceJson with
    | none => .ok none
    | some payload => do
      let x ← loadFloat payload
      let c ← toConfidence x
      .ok (some c)
  .ok ⟨resourceId, ⟨facetNamespace, value⟩, origin, producer, confidence⟩

/-! ## Reading back -/

@[simp] theorem decodeLocator_row (l : Locator) (fieldName : String) :
    decodeLocator l.kind.text (canonicalJson l.payload) fieldName = .ok l := by
  simp [decodeLocator]

@[simp] theorem decodeTokenCount_row (t : Option TokenCount) :
    decodeTokenCount (t.map (·.count)) (t.map (·.kind)) = .ok t := by
  cases t <;> rfl

@[simp] theorem decodeResource_row (env : Env) (r : ResourceRecord) :
    decodeResource env (resourceRow env r) = .ok r := by
  simp [decodeResource, resourceRow]

@[simp] theorem decodeRepresentation_row (p : RepresentationRecord) :
    decodeRepresentation (representationRow p) = .ok p := by
  simp [decodeRepresentation, representationRow]

@[simp] theorem decodeUnit_row (u : SearchUnitRecord) : decodeUnit (unitRow u) = .ok u := by
  simp [decodeUnit, unitRow]

@[simp] theorem decodeSpace_row (s : EmbeddingSpaceRecord) : decodeSpace (spaceRow s) = .ok s := by
  have hpos : requirePositive s.dimensions "dimensions" = .ok s.dimensions := by
    unfold requirePositive
    rw [dif_pos s.dimensions.property]
  simp [decodeSpace, spaceRow, hpos]

theorem producer_row (f : ResourceFacet) :
    (if (facetValues f).producerIsNull then none else some (facetValues f).producerValue) =
      f.producerFingerprint.map (·.text) := by
  cases h : f.producerFingerprint <;> simp [facetValues, h]

@[simp] theorem decodeFacet_row (f : ResourceFacet) :
    decodeFacet f.resourceId (facetValues f) = .ok f := by
  unfold decodeFacet
  rw [producer_row]
  cases h : f.confidence with
  | none => simp [facetValues, h]; cases f; simp_all
  | some c => simp [facetValues, h, loadFloat_encode]; cases f; simp_all

@[simp] theorem validateFacetRow_row (f : ResourceFacet) :
    validateFacetRow (facetValues f).producerIsNull (facetValues f).producerValue
      (facetValues f).confidenceJson = .ok () := by
  cases hp : f.producerFingerprint <;> cases hc : f.confidence <;>
    simp [validateFacetRow, facetValues, hp, hc]

end MDRack
