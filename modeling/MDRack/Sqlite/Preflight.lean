import MDRack.Sqlite.Rows

/-!
# Preflight (`SQLiteResourceStore._preflight`)

Everything a publication writes is computed and checked before its transaction begins.

Principal results: `preflight_ok` — what a prepared publication holds; `vectorRow_decodes` — a
prepared vector row reads back through the row of its space.
-/

namespace MDRack

open Checks

/-- The dictionary `_preflight` returns. -/
structure Prepared where
  batch : PreparedResourceBatch
  resourceValues : ResourceRow
  representationValues : List RepresentationRow
  unitValues : List UnitRow
  spaceValues : List SpaceRow
  vectorValues : List EmbeddingRow
  facetValues : List FacetValues
  ftsValues : List FtsRow

/-- The full-text row of a unit, when its text is not blank. -/
def ftsRow? (unitId : String) (text : Option String) : Option FtsRow :=
  match text with
  | some content => if hasVisible content then some ⟨unitId, content⟩ else none
  | none => none

def SearchUnitRecord.ordinalKey (u : SearchUnitRecord) : NonEmptyText × Nat :=
  (u.representationId, u.ordinal)

def vectorRow (batch : PreparedResourceBatch) (v : VectorRecord) : Except Err EmbeddingRow := do
  let space ← getOr (.valueError "invalid vector ownership or identity")
    (batch.spaces.find? fun s => s.spaceId = v.spaceId)
  let codec ← codecIdFromMetadata space.metadata
  let encoded ← encodeVector codec v.vector space.dimensions
  require (space.metric = .cosine → v.vector.isZero = false)
    (.valueError "cosine vector norm must be non-zero")
  .ok ⟨v.unitId.text, v.spaceId.text, encoded⟩

/-- The checks of `_preflight` that `validate_prepared_batch` has not made already are the unit
ordinals and the codecs; the facet keys it compares are those of the validator. -/
def preflight (env : Env) (batch : PreparedResourceBatch) : Except Err Prepared := do
  validatePreparedBatch batch
  require (batch.units.map (·.ordinalKey)).Nodup
    (.valueError "invalid unit ownership, identity, modality, or ordinal")
  let _ ← mapAll (fun s => codecIdFromMetadata s.metadata) batch.spaces
  let vectorValues ← mapAll (vectorRow batch) batch.vectors
  .ok {
    batch := batch
    resourceValues := resourceRow env batch.resource
    representationValues := batch.representations.map representationRow
    unitValues := batch.units.map unitRow
    spaceValues := batch.spaces.map spaceRow
    vectorValues := vectorValues
    facetValues := batch.facets.map facetValues
    ftsValues := batch.units.filterMap fun u => ftsRow? u.unitId.text u.text }

/-- What `_preflight` computed from its batch. -/
structure IsPrepared (env : Env) (p : Prepared) : Prop where
  valid : ValidBatch p.batch
  resource : p.resourceValues = resourceRow env p.batch.resource
  representations : p.representationValues = p.batch.representations.map representationRow
  units : p.unitValues = p.batch.units.map unitRow
  spaces : p.spaceValues = p.batch.spaces.map spaceRow
  vectors : mapAll (vectorRow p.batch) p.batch.vectors = .ok p.vectorValues
  facets : p.facetValues = p.batch.facets.map facetValues
  fts : p.ftsValues = p.batch.units.filterMap fun u => ftsRow? u.unitId.text u.text

theorem preflight_ok {env : Env} {batch : PreparedResourceBatch} {p : Prepared}
    (h : preflight env batch = .ok p) : IsPrepared env p ∧ p.batch = batch := by
  simp only [preflight, bind_ok, require_ok, Except.ok.injEq, exists_const] at h
  obtain ⟨_, hvalid, -, -, -, vectorValues, hvectors, rfl⟩ := h
  exact ⟨⟨validatePreparedBatch_ok.mp hvalid, rfl, rfl, rfl, rfl, hvectors, rfl, rfl⟩, rfl⟩

/-- `VectorRecord(...)` of an embedding row joined with its space. -/
def decodeEmbedding (row : EmbeddingRow) (space : SpaceRow) : Except Err VectorRecord := do
  let metadata ← decodeMapping space.metadataJson "space.metadata"
  let vector ← decodeVectorPayload row.embedding space.dimensions metadata
  let unitId ← requireNonEmpty row.unitId "unit_id"
  let spaceId ← requireNonEmpty row.spaceId "space_id"
  .ok ⟨unitId, spaceId, vector⟩

theorem vectorRow_decodes {batch : PreparedResourceBatch} {v : VectorRecord} {row : EmbeddingRow}
    (h : vectorRow batch v = .ok row) :
    row.unitId = v.unitId.text ∧ row.spaceId = v.spaceId.text ∧
      ∃ s ∈ batch.spaces, s.spaceId = v.spaceId ∧ decodeEmbedding row (spaceRow s) = .ok v := by
  simp only [vectorRow, bind_ok, getOr_ok, require_ok, Except.ok.injEq, exists_const] at h
  obtain ⟨s, hs, codec, hcodec, encoded, hencoded, -, rfl⟩ := h
  refine ⟨rfl, rfl, s, List.mem_of_find?_eq_some hs, by simpa using List.find?_some hs, ?_⟩
  simp [decodeEmbedding, spaceRow, decodeVector_encode hcodec hencoded]

end MDRack
