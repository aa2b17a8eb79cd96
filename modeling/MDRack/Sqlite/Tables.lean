import MDRack.Sqlite.Codec

/-!
# Catalog tables and statements (`v2_migrations`)

Rows hold what the columns hold: text, integers and payloads.  Each statement checks the
constraints of the schema and fails without an effect when one is violated.  Deleting a resource
cascades along the declared foreign keys.

Time stamps (`indexed_at`, `embedded_at`) are left out: no operation reads them.
-/

namespace MDRack

open Checks

/-- What the store takes from its environment: the digest and fresh identifiers. -/
structure Env where
  sha256 : String → String
  uuid : Nat → NonEmptyText
  uuid_injective : ∀ m n, uuid m = uuid n → m = n

structure ResourceRow where
  resourceId : String
  resourceKind : String
  mediaType : String
  sourceNamespace : String
  locatorKind : String
  locatorJson : String
  locatorFingerprint : String
  contentHash : Option String
  title : Option String
  metadataJson : String
  deriving DecidableEq, Repr

structure RepresentationRow where
  representationId : String
  resourceId : String
  representationKind : String
  modality : String
  textContent : Option String
  language : Option String
  producerFingerprint : Option String
  tokenCount : Option Nat
  tokenCountKind : Option TokenCountKind
  metadataJson : String
  deriving DecidableEq, Repr

structure UnitRow where
  unitId : String
  resourceId : String
  representationId : String
  unitKind : String
  modality : String
  textContent : Option String
  evidenceLocatorKind : String
  evidenceLocatorJson : String
  ordinal : Nat
  tokenCount : Option Nat
  tokenCountKind : Option TokenCountKind
  metadataJson : String
  deriving DecidableEq, Repr

structure SpaceRow where
  spaceId : String
  dimensions : Nat
  metric : Metric
  fingerprint : String
  metadataJson : String
  deriving DecidableEq, Repr

structure EmbeddingRow where
  unitId : String
  spaceId : String
  embedding : List UInt8
  deriving DecidableEq, Repr

structure FacetRow where
  facetId : Nat
  facetNamespace : String
  value : String
  deriving DecidableEq, Repr

structure ResourceFacetRow where
  resourceId : String
  facetId : Nat
  origin : String
  producerIsNull : Bool
  producerValue : String
  confidenceJson : Option String
  deriving DecidableEq, Repr

structure FtsRow where
  unitId : String
  content : String
  deriving DecidableEq, Repr

structure StateRow where
  resourceId : String
  status : PublicationStatus
  lifecycleId : String
  stateToken : String
  sourceNamespace : String
  sourceLocatorKind : String
  sourceLocatorJson : String
  sourceMetadataJson : String
  deriving DecidableEq, Repr

structure Tables where
  resources : List ResourceRow
  representations : List RepresentationRow
  units : List UnitRow
  spaces : List SpaceRow
  embeddings : List EmbeddingRow
  facets : List FacetRow
  resourceFacets : List ResourceFacetRow
  fts : List FtsRow
  states : List StateRow
  deriving DecidableEq, Repr

def Tables.empty : Tables := ⟨[], [], [], [], [], [], [], [], []⟩

/-! ## Constraints -/

/-- `trim(text, ' ') <> ''`. -/
def trimmed (text : String) : Bool := text.toList.any fun c => c != ' '

/-- `length(text) > 0`; the function stops at the first NUL. -/
def positiveLength (text : String) : Bool := text.toList.head?.any fun c => c.toNat != 0

/-- Integers outside 64 bits cannot be bound to a statement. -/
def bindable (n : Nat) : Prop := n < 2 ^ 63

instance (n : Nat) : Decidable (bindable n) := inferInstanceAs (Decidable (n < 2 ^ 63))

/-- `length(f) = 71`, prefix `sha256:` and lower-case hexadecimal digits after it. -/
def fingerprintForm (text : String) : Bool :=
  text.toList.length == 71 && text.toList.take 7 == "sha256:".toList &&
    (text.toList.drop 7).all fun c => c.isDigit || ('a' ≤ c && c ≤ 'f')

/-- The columns of `UNIQUE (source_namespace, locator_kind, locator_fingerprint)`. -/
def ResourceRow.sourceKey (r : ResourceRow) : String × String × String :=
  (r.sourceNamespace, r.locatorKind, r.locatorFingerprint)

def StateRow.liveSource (s : StateRow) : String × String × String :=
  (s.sourceNamespace, s.sourceLocatorKind, s.sourceLocatorJson)

def StateRow.live (s : StateRow) : Bool := s.status != .deleted

def tokenCheck (count : Option Nat) (kind : Option TokenCountKind) : Prop :=
  count.isSome = kind.isSome

instance (count : Option Nat) (kind : Option TokenCountKind) : Decidable (tokenCheck count kind) :=
  inferInstanceAs (Decidable (_ = _))

/-! ## Statements -/

def insertResource (row : ResourceRow) (t : Tables) : Except Err Tables := do
  require (trimmed row.resourceId && trimmed row.resourceKind && trimmed row.mediaType &&
    trimmed row.sourceNamespace && trimmed row.locatorKind &&
    fingerprintForm row.locatorFingerprint && row.contentHash.all trimmed) .integrityError
  require (∀ r ∈ t.resources, r.resourceId ≠ row.resourceId) .integrityError
  require (∀ r ∈ t.resources, r.sourceKey ≠ row.sourceKey) .integrityError
  .ok { t with resources := t.resources ++ [row] }

/-- `INSERT ... ON CONFLICT(space_id) DO NOTHING`. -/
def insertSpace (row : SpaceRow) (t : Tables) : Except Err Tables := do
  require (bindable row.dimensions) .overflowError
  require (trimmed row.spaceId && decide (1 ≤ row.dimensions) && trimmed row.fingerprint)
    .integrityError
  if ∃ s ∈ t.spaces, s.spaceId = row.spaceId then .ok t
  else .ok { t with spaces := t.spaces ++ [row] }

def insertRepresentation (row : RepresentationRow) (t : Tables) : Except Err Tables := do
  require (∀ n ∈ row.tokenCount, bindable n) .overflowError
  require (trimmed row.representationId && trimmed row.representationKind && trimmed row.modality &&
    row.language.all trimmed && row.producerFingerprint.all trimmed) .integrityError
  require (tokenCheck row.tokenCount row.tokenCountKind) .integrityError
  require (∀ p ∈ t.representations, p.representationId ≠ row.representationId) .integrityError
  require (∃ r ∈ t.resources, r.resourceId = row.resourceId) .integrityError
  .ok { t with representations := t.representations ++ [row] }

def insertUnit (row : UnitRow) (t : Tables) : Except Err Tables := do
  require (bindable row.ordinal ∧ ∀ n ∈ row.tokenCount, bindable n) .overflowError
  require (trimmed row.unitId && trimmed row.unitKind && trimmed row.modality &&
    trimmed row.evidenceLocatorKind) .integrityError
  require (tokenCheck row.tokenCount row.tokenCountKind) .integrityError
  require (∀ u ∈ t.units, u.unitId ≠ row.unitId) .integrityError
  require (∀ u ∈ t.units, (u.representationId, u.ordinal) ≠ (row.representationId, row.ordinal))
    .integrityError
  require (∃ p ∈ t.representations, p.resourceId = row.resourceId ∧
    p.representationId = row.representationId) .integrityError
  .ok { t with units := t.units ++ [row] }

def insertEmbedding (row : EmbeddingRow) (t : Tables) : Except Err Tables := do
  require (row.embedding ≠ []) .integrityError
  require (∀ e ∈ t.embeddings, (e.unitId, e.spaceId) ≠ (row.unitId, row.spaceId)) .integrityError
  require (∃ u ∈ t.units, u.unitId = row.unitId) .integrityError
  require (∃ s ∈ t.spaces, s.spaceId = row.spaceId) .integrityError
  .ok { t with embeddings := t.embeddings ++ [row] }

/-- The row id an `INTEGER PRIMARY KEY` takes when none is given. -/
def nextFacetId (facets : List FacetRow) : Nat := (facets.map (·.facetId)).foldr max 0 + 1

/-- `INSERT ... ON CONFLICT(namespace,value) DO NOTHING`. -/
def insertFacet (facetNamespace value : String) (t : Tables) : Except Err Tables := do
  require (trimmed facetNamespace && trimmed value) .integrityError
  if ∃ f ∈ t.facets, f.facetNamespace = facetNamespace ∧ f.value = value then .ok t
  else .ok { t with facets := t.facets ++ [⟨nextFacetId t.facets, facetNamespace, value⟩] }

/-- `SELECT facet_id FROM core_facets WHERE namespace=? AND value=?`. -/
def selectFacetId (facetNamespace value : String) (t : Tables) : Except Err Nat :=
  getOr (.typeError "'NoneType' object is not subscriptable")
    ((t.facets.find? fun f => f.facetNamespace = facetNamespace ∧ f.value = value).map (·.facetId))

def ResourceFacetRow.key (a : ResourceFacetRow) : String × Nat × String × Bool × String :=
  (a.resourceId, a.facetId, a.origin, a.producerIsNull, a.producerValue)

def insertResourceFacet (row : ResourceFacetRow) (t : Tables) : Except Err Tables := do
  require (trimmed row.origin && (if row.producerIsNull then row.producerValue == ""
    else trimmed row.producerValue)) .integrityError
  require (∀ a ∈ t.resourceFacets, a.key ≠ row.key) .integrityError
  require (∃ r ∈ t.resources, r.resourceId = row.resourceId) .integrityError
  require (∃ f ∈ t.facets, f.facetId = row.facetId) .integrityError
  .ok { t with resourceFacets := t.resourceFacets ++ [row] }

def insertFts (row : FtsRow) (t : Tables) : Except Err Tables :=
  .ok { t with fts := t.fts ++ [row] }

/-- `DELETE FROM core_resources WHERE resource_id = ?` with its cascades. -/
def deleteResourceRow (resourceId : String) (t : Tables) : Except Err Tables :=
  let goneResources := t.resources.filter fun r => r.resourceId = resourceId
  let goneRepresentation := fun p : RepresentationRow =>
    goneResources.any fun r => r.resourceId = p.resourceId
  let goneUnit := fun u : UnitRow => (t.representations.filter goneRepresentation).any
    fun p => p.resourceId = u.resourceId ∧ p.representationId = u.representationId
  let goneEmbedding := fun e : EmbeddingRow => (t.units.filter goneUnit).any
    fun u => u.unitId = e.unitId
  let goneFacet := fun a : ResourceFacetRow => goneResources.any fun r => r.resourceId = a.resourceId
  .ok { t with
    resources := t.resources.filter fun r => !decide (r.resourceId = resourceId)
    representations := t.representations.filter fun p => !goneRepresentation p
    units := t.units.filter fun u => !goneUnit u
    embeddings := t.embeddings.filter fun e => !goneEmbedding e
    resourceFacets := t.resourceFacets.filter fun a => !goneFacet a }

/-- `DELETE FROM core_search_units_fts WHERE unit_id IN (SELECT unit_id FROM core_search_units
WHERE resource_id = ?)`. -/
def deleteFts (resourceId : String) (t : Tables) : Except Err Tables :=
  .ok { t with fts := t.fts.filter fun f =>
    !t.units.any fun u => u.resourceId = resourceId ∧ u.unitId = f.unitId }

/-- Delete the facets without an assignment. -/
def pruneFacets (t : Tables) : Except Err Tables :=
  .ok { t with facets := t.facets.filter fun f => t.resourceFacets.any fun a => a.facetId = f.facetId }

/-- `INSERT ... ON CONFLICT(resource_id) DO UPDATE` of the publication state. -/
def upsertState (row : StateRow) (t : Tables) : Except Err Tables := do
  require (positiveLength row.resourceId && positiveLength row.lifecycleId &&
    positiveLength row.stateToken && positiveLength row.sourceNamespace &&
    positiveLength row.sourceLocatorKind && (Json.loads row.sourceLocatorJson).isSome &&
    (Json.loads row.sourceMetadataJson).isSome) .integrityError
  require (row.live → ∀ s ∈ t.states, s.resourceId ≠ row.resourceId → s.live →
    s.liveSource ≠ row.liveSource) .integrityError
  if ∃ s ∈ t.states, s.resourceId = row.resourceId then
    .ok { t with states := t.states.map fun s => if s.resourceId = row.resourceId then row else s }
  else .ok { t with states := t.states ++ [row] }

/-- `PRAGMA foreign_key_check` finds nothing. -/
def foreignKeysHold (t : Tables) : Prop :=
  (∀ p ∈ t.representations, ∃ r ∈ t.resources, r.resourceId = p.resourceId) ∧
  (∀ u ∈ t.units, ∃ p ∈ t.representations, p.resourceId = u.resourceId ∧
    p.representationId = u.representationId) ∧
  (∀ e ∈ t.embeddings, (∃ u ∈ t.units, u.unitId = e.unitId) ∧
    ∃ s ∈ t.spaces, s.spaceId = e.spaceId) ∧
  (∀ a ∈ t.resourceFacets, (∃ r ∈ t.resources, r.resourceId = a.resourceId) ∧
    ∃ f ∈ t.facets, f.facetId = a.facetId)

instance (t : Tables) : Decidable (foreignKeysHold t) := inferInstanceAs (Decidable (_ ∧ _))

end MDRack
