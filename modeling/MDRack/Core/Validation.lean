import MDRack.Core.Records
import MDRack.Lib.Table

/-!
# Prepared-resource validation (`mdrack_core.application.validation`)

`validatePreparedBatch` makes the checks of `_BatchValidator._validate_batch` in source order.
String encodability and the frozen form of mappings hold by the types of the records.

Principal results: `validatePreparedBatch_ok` — a batch is accepted iff it is a `ValidBatch`;
`ValidBatch.congr` — validity does not depend on the order of the parts, and spaces that no
vector uses may be left out.
-/

namespace MDRack

open Checks

/-- `_has_text`. -/
def hasText (text : Option String) : Bool := text.any hasVisible

/-- `(unit_id, space_id)`. -/
def VectorRecord.key (v : VectorRecord) : NonEmptyText × NonEmptyText := (v.unitId, v.spaceId)

def ResourceFacet.key (f : ResourceFacet) :
    NonEmptyText × NonEmptyText × NonEmptyText × NonEmptyText × Option NonEmptyText :=
  (f.resourceId, f.facet.facetNamespace, f.facet.value, f.origin, f.producerFingerprint)

def requireUnique {α : Type} [DecidableEq α] (values : List α) (fieldName : String) :
    Except Err Unit :=
  require values.Nodup (.valueError (fieldName ++ " values must be unique"))

def validateUnit (batch : PreparedResourceBatch) (unit : SearchUnitRecord) : Except Err Unit := do
  require (unit.resourceId = batch.resource.resourceId)
    (.valueError "unit belongs to another resource")
  let owner ← getOr (.valueError "unit references an unknown representation")
    (batch.representations.find? fun p => p.representationId = unit.representationId)
  require (unit.modality = owner.modality)
    (.valueError "unit modality differs from its representation")

def validateVector (batch : PreparedResourceBatch) (vector : VectorRecord) : Except Err Unit := do
  require (∃ u ∈ batch.units, u.unitId = vector.unitId)
    (.valueError "vector references an unknown unit")
  let space ← getOr (.valueError "vector references an unknown embedding space")
    (batch.spaces.find? fun s => s.spaceId = vector.spaceId)
  require (vector.vector.values.length = space.dimensions)
    (.valueError "vector dimensions differ from its embedding space")
  require (space.metric = .cosine → vector.vector.isZero = false)
    (.valueError "cosine vector norm must be non-zero")

/-- `validate_prepared_batch`. -/
def validatePreparedBatch (batch : PreparedResourceBatch) : Except Err Unit := do
  require (batch.representations ≠ []) (.valueError "a resource graph must contain a representation")
  require (batch.units ≠ []) (.valueError "a resource graph must contain a search unit")
  requireUnique (batch.representations.map (·.representationId)) "representation_id"
  requireUnique (batch.units.map (·.unitId)) "unit_id"
  requireUnique (batch.spaces.map (·.spaceId)) "space_id"
  requireUnique (batch.vectors.map (·.key)) "unit_id/space_id vector"
  requireUnique (batch.facets.map (·.key)) "resource facet assignment"
  checkAll (fun p => require (p.resourceId = batch.resource.resourceId)
    (.valueError "representation belongs to another resource")) batch.representations
  checkAll (validateUnit batch) batch.units
  checkAll (validateVector batch) batch.vectors
  require (∀ p ∈ batch.representations, ∃ u ∈ batch.units, u.representationId = p.representationId)
    (.valueError "every representation must own at least one unit")
  checkAll (fun u => require (hasText u.text ∨ ∃ v ∈ batch.vectors, v.unitId = u.unitId)
    (.valueError "every unit must contain text or a vector")) batch.units
  checkAll (fun f => require (f.resourceId = batch.resource.resourceId)
    (.valueError "facet belongs to another resource")) batch.facets

/-- A vector fits a space. -/
structure VectorFits (v : VectorRecord) (s : EmbeddingSpaceRecord) : Prop where
  space : s.spaceId = v.spaceId
  dimensions : v.vector.values.length = s.dimensions
  norm : s.metric = .cosine → v.vector.isZero = false

/-- A well-formed resource graph. -/
structure ValidBatch (b : PreparedResourceBatch) : Prop where
  representations_ne : b.representations ≠ []
  units_ne : b.units ≠ []
  representation_ids : (b.representations.map (·.representationId)).Nodup
  unit_ids : (b.units.map (·.unitId)).Nodup
  space_ids : (b.spaces.map (·.spaceId)).Nodup
  vector_keys : (b.vectors.map (·.key)).Nodup
  facet_keys : (b.facets.map (·.key)).Nodup
  representation_owner : ∀ p ∈ b.representations, p.resourceId = b.resource.resourceId
  unit_owner : ∀ u ∈ b.units, u.resourceId = b.resource.resourceId
  unit_representation : ∀ u ∈ b.units, ∃ p ∈ b.representations,
    p.representationId = u.representationId ∧ u.modality = p.modality
  vector_unit : ∀ v ∈ b.vectors, ∃ u ∈ b.units, u.unitId = v.unitId
  vector_space : ∀ v ∈ b.vectors, ∃ s ∈ b.spaces, VectorFits v s
  represented : ∀ p ∈ b.representations, ∃ u ∈ b.units, u.representationId = p.representationId
  searchable : ∀ u ∈ b.units, hasText u.text ∨ ∃ v ∈ b.vectors, v.unitId = u.unitId
  facet_owner : ∀ f ∈ b.facets, f.resourceId = b.resource.resourceId

theorem validateUnit_ok {batch : PreparedResourceBatch} {unit : SearchUnitRecord}
    (hids : (batch.representations.map (·.representationId)).Nodup) :
    validateUnit batch unit = .ok () ↔ unit.resourceId = batch.resource.resourceId ∧
      ∃ p ∈ batch.representations, p.representationId = unit.representationId ∧
        unit.modality = p.modality := by
  simp only [validateUnit, bind_ok, require_ok, getOr_ok, exists_const]
  rw [Table.exists_find?_iff (fun p : RepresentationRecord => p.representationId) hids]

theorem validateVector_ok {batch : PreparedResourceBatch} {vector : VectorRecord}
    (hids : (batch.spaces.map (·.spaceId)).Nodup) :
    validateVector batch vector = .ok () ↔ (∃ u ∈ batch.units, u.unitId = vector.unitId) ∧
      ∃ s ∈ batch.spaces, VectorFits vector s := by
  simp only [validateVector, bind_ok, require_ok, getOr_ok, exists_const]
  rw [Table.exists_find?_iff (fun s : EmbeddingSpaceRecord => s.spaceId) hids]
  refine and_congr_right fun _ => exists_congr fun s => and_congr_right fun _ => ?_
  constructor
  · rintro ⟨h1, h2, h3⟩
    exact ⟨h1, h2, h3⟩
  · rintro ⟨h1, h2, h3⟩
    exact ⟨h1, h2, h3⟩

theorem validatePreparedBatch_ok {batch : PreparedResourceBatch} :
    validatePreparedBatch batch = .ok () ↔ ValidBatch batch := by
  simp only [validatePreparedBatch, requireUnique, bind_ok, require_ok, checkAll_ok, exists_const]
  constructor
  · rintro ⟨h1, h2, h3, h4, h5, h6, h7, h8, h9, h10, h11, h12, h13⟩
    have hunits := fun u hu => (validateUnit_ok h3).mp (h9 u hu)
    have hvectors := fun v hv => (validateVector_ok h5).mp (h10 v hv)
    exact ⟨h1, h2, h3, h4, h5, h6, h7, h8, fun u hu => (hunits u hu).1,
      fun u hu => (hunits u hu).2, fun v hv => (hvectors v hv).1, fun v hv => (hvectors v hv).2,
      h11, h12, h13⟩
  · intro h
    exact ⟨h.representations_ne, h.units_ne, h.representation_ids, h.unit_ids, h.space_ids,
      h.vector_keys, h.facet_keys, h.representation_owner,
      fun u hu => (validateUnit_ok h.representation_ids).mpr
        ⟨h.unit_owner u hu, h.unit_representation u hu⟩,
      fun v hv => (validateVector_ok h.space_ids).mpr ⟨h.vector_unit v hv, h.vector_space v hv⟩,
      h.represented, h.searchable, h.facet_owner⟩

/-- The same graph with its parts in another order and unused spaces left out. -/
structure SameGraph (a b : PreparedResourceBatch) : Prop where
  resource : b.resource = a.resource
  representations : b.representations.Perm a.representations
  units : b.units.Perm a.units
  vectors : b.vectors.Perm a.vectors
  facets : b.facets.Perm a.facets
  space_ids : (b.spaces.map (·.spaceId)).Nodup
  spaces : ∀ s, s ∈ b.spaces ↔ s ∈ a.spaces ∧ ∃ v ∈ a.vectors, v.spaceId = s.spaceId

theorem ValidBatch.congr {a b : PreparedResourceBatch} (h : ValidBatch a) (hs : SameGraph a b) :
    ValidBatch b where
  representations_ne hnil := h.representations_ne (by
    have := hs.representations
    rw [hnil] at this
    exact this.symm.eq_nil)
  units_ne hnil := h.units_ne (by
    have := hs.units
    rw [hnil] at this
    exact this.symm.eq_nil)
  representation_ids := (hs.representations.map _).nodup_iff.mpr h.representation_ids
  unit_ids := (hs.units.map _).nodup_iff.mpr h.unit_ids
  space_ids := hs.space_ids
  vector_keys := (hs.vectors.map _).nodup_iff.mpr h.vector_keys
  facet_keys := (hs.facets.map _).nodup_iff.mpr h.facet_keys
  representation_owner p hp := by
    rw [hs.resource]
    exact h.representation_owner p (hs.representations.mem_iff.mp hp)
  unit_owner u hu := by
    rw [hs.resource]
    exact h.unit_owner u (hs.units.mem_iff.mp hu)
  unit_representation u hu := by
    obtain ⟨p, hp, h1, h2⟩ := h.unit_representation u (hs.units.mem_iff.mp hu)
    exact ⟨p, hs.representations.mem_iff.mpr hp, h1, h2⟩
  vector_unit v hv := by
    obtain ⟨u, hu, h1⟩ := h.vector_unit v (hs.vectors.mem_iff.mp hv)
    exact ⟨u, hs.units.mem_iff.mpr hu, h1⟩
  vector_space v hv := by
    have hv' := hs.vectors.mem_iff.mp hv
    obtain ⟨s, hmem, hfit⟩ := h.vector_space v hv'
    exact ⟨s, (hs.spaces s).mpr ⟨hmem, v, hv', hfit.space.symm⟩, hfit⟩
  represented p hp := by
    obtain ⟨u, hu, h1⟩ := h.represented p (hs.representations.mem_iff.mp hp)
    exact ⟨u, hs.units.mem_iff.mpr hu, h1⟩
  searchable u hu := by
    rcases h.searchable u (hs.units.mem_iff.mp hu) with ht | ⟨v, hv, h1⟩
    · exact .inl ht
    · exact .inr ⟨v, hs.vectors.mem_iff.mpr hv, h1⟩
  facet_owner f hf := by
    rw [hs.resource]
    exact h.facet_owner f (hs.facets.mem_iff.mp hf)

end MDRack
