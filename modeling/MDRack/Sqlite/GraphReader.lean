import MDRack.Sqlite.Preflight
import Mathlib.Data.List.Sort

/-!
# Graph reader (`graph_reader.read_graph`, `read_resource`)

One eager reconstruction of a stored graph, each part in its declared order.

Principal result: `readGraphOf_stored` — where a prepared batch is stored, the reader gives the
same graph back.
-/

namespace MDRack

open Checks

/-- Row-wise order on three columns. -/
def columnsLe (a b : String × Nat × String) : Bool :=
  decide (a.1 < b.1) || (a.1 == b.1 &&
    (decide (a.2.1 < b.2.1) || (a.2.1 == b.2.1 && decide (a.2.2 ≤ b.2.2))))

/-- `ORDER BY` three columns. -/
def orderBy {α : Type} (key : α → String × Nat × String) (rows : List α) : List α :=
  rows.insertionSort fun a b => columnsLe (key a) (key b)

theorem orderBy_perm {α : Type} (key : α → String × Nat × String) (rows : List α) :
    (orderBy key rows).Perm rows := List.perm_insertionSort _ rows

def representationsOf (t : Tables) (resourceId : String) : List RepresentationRow :=
  t.representations.filter fun p => p.resourceId = resourceId

def unitsOf (t : Tables) (resourceId : String) : List UnitRow :=
  t.units.filter fun u => u.resourceId = resourceId

/-- `core_unit_embeddings JOIN core_search_units USING(unit_id)` of one resource. -/
def embeddingsOf (t : Tables) (resourceId : String) : List EmbeddingRow :=
  t.embeddings.filter fun e => (unitsOf t resourceId).any fun u => u.unitId = e.unitId

def resourceFacetsOf (t : Tables) (resourceId : String) : List ResourceFacetRow :=
  t.resourceFacets.filter fun a => a.resourceId = resourceId

def joinFacet (facets : List FacetRow) (a : ResourceFacetRow) : Option FacetValues :=
  (facets.find? fun f => f.facetId = a.facetId).map fun f =>
    ⟨f.facetNamespace, f.value, a.origin, a.producerIsNull, a.producerValue, a.confidenceJson⟩

/-- `core_resource_facets JOIN core_facets USING(facet_id)` of one resource. -/
def facetsOf (t : Tables) (resourceId : String) : List FacetValues :=
  (resourceFacetsOf t resourceId).filterMap (joinFacet t.facets)

/-- Spaces joined with the embeddings of one resource, each once. -/
def spacesOf (t : Tables) (resourceId : String) : List SpaceRow :=
  t.spaces.filter fun s => (embeddingsOf t resourceId).any fun e => e.spaceId = s.spaceId

def decodeJoinedEmbedding (t : Tables) (e : EmbeddingRow) : Except Err VectorRecord := do
  let space ← getOr (.typeError "no space row") (t.spaces.find? fun s => s.spaceId = e.spaceId)
  decodeEmbedding e space

/-- The order of facet rows: namespace, value, origin, then the producer columns. -/
def facetLe (a b : FacetValues) : Bool :=
  decide (a.facetNamespace < b.facetNamespace) || (a.facetNamespace == b.facetNamespace &&
    columnsLe (a.value, 0, a.origin) (b.value, 0, b.origin) &&
    ((a.value, a.origin) != (b.value, b.origin) ||
      columnsLe ("", a.producerIsNull.toNat, a.producerValue)
        ("", b.producerIsNull.toNat, b.producerValue)))

/-- `read_graph` below the resource row. -/
def readGraphOf (t : Tables) (resource : ResourceRecord) : Except Err PreparedResourceBatch := do
  let id := resource.resourceId.text
  let representations ← mapAll decodeRepresentation
    (orderBy (fun p => (p.representationId, 0, "")) (representationsOf t id))
  let units ← mapAll decodeUnit
    (orderBy (fun u => (u.representationId, u.ordinal, u.unitId)) (unitsOf t id))
  let spaces ← mapAll decodeSpace (orderBy (fun s => (s.spaceId, 0, "")) (spacesOf t id))
  let vectors ← mapAll (decodeJoinedEmbedding t)
    (orderBy (fun e => (e.unitId, 0, e.spaceId)) (embeddingsOf t id))
  let facets ← mapAll (decodeFacet resource.resourceId)
    ((facetsOf t id).insertionSort fun a b => facetLe a b)
  .ok ⟨resource, representations, units, spaces, vectors, facets⟩

/-- `read_resource`. -/
def readResource (env : Env) (t : Tables) (resourceId : String) :
    Except Err (Option ResourceRecord) :=
  match t.resources.find? fun r => r.resourceId = resourceId with
  | none => .ok none
  | some row => do
    checkAll (fun a => validateFacetRow a.producerIsNull a.producerValue a.confidenceJson)
      (resourceFacetsOf t resourceId)
    (decodeResource env row).map some

/-- `read_graph`. -/
def readGraph (env : Env) (t : Tables) (resourceId : String) :
    Except Err (Option PreparedResourceBatch) := do
  match ← readResource env t resourceId with
  | none => .ok none
  | some resource => (readGraphOf t resource).map some

/-! ## A stored batch reads back -/

/-- The rows of a resource are those of a prepared batch. -/
structure Stored (t : Tables) (p : Prepared) : Prop where
  resource : t.resources.find? (fun r => r.resourceId = p.resourceValues.resourceId) =
    some p.resourceValues
  representations : representationsOf t p.resourceValues.resourceId = p.representationValues
  units : unitsOf t p.resourceValues.resourceId = p.unitValues
  embeddings : embeddingsOf t p.resourceValues.resourceId = p.vectorValues
  facets : facetsOf t p.resourceValues.resourceId = p.facetValues
  joined : ∀ a ∈ resourceFacetsOf t p.resourceValues.resourceId, (joinFacet t.facets a).isSome
  spaces : ∀ s ∈ p.spaceValues, s ∈ t.spaces

/-- The graph tables do not include the state rows. -/
theorem Stored.with_states {t : Tables} {p : Prepared} (h : Stored t p) (states : List StateRow) :
    Stored { t with states := states } p :=
  ⟨h.resource, h.representations, h.units, h.embeddings, h.facets, h.joined, h.spaces⟩

theorem spaceRow_injective {a b : EmbeddingSpaceRecord} (h : spaceRow a = spaceRow b) : a = b := by
  have ha := decodeSpace_row a
  rw [h, decodeSpace_row b, Except.ok.injEq] at ha
  exact ha.symm

section ReadBack

variable {env : Env} {t : Tables} {p : Prepared}

theorem stored_vectors (hp : IsPrepared env p) (hs : Stored t p)
    (hids : (t.spaces.map (·.spaceId)).Nodup) :
    mapAll (decodeJoinedEmbedding t) p.vectorValues = .ok p.batch.vectors := by
  refine mapAll_inverse hp.vectors fun v row hrow => ?_
  obtain ⟨-, hspace, s, hs', hid, hdecode⟩ := vectorRow_decodes hrow
  have hmem : spaceRow s ∈ t.spaces := by
    refine hs.spaces _ ?_
    rw [hp.spaces]
    exact List.mem_map.mpr ⟨s, hs', rfl⟩
  have hfind := Table.find?_eq_of_mem hids hmem (k := row.spaceId) (by rw [hspace, ← hid]; rfl)
  simp only [decodeJoinedEmbedding, bind_ok, getOr_ok]
  exact ⟨spaceRow s, hfind, hdecode⟩

/-- A space joined with the embeddings of the resource is one of the batch, used by a vector. -/
theorem stored_space (hp : IsPrepared env p) (hs : Stored t p)
    (hids : (t.spaces.map (·.spaceId)).Nodup) {row : SpaceRow} :
    row ∈ spacesOf t p.resourceValues.resourceId ↔
      ∃ s, (s ∈ p.batch.spaces ∧ ∃ v ∈ p.batch.vectors, v.spaceId = s.spaceId) ∧ spaceRow s = row := by
  simp only [spacesOf, List.mem_filter, List.any_eq_true, decide_eq_true_eq, hs.embeddings]
  constructor
  · rintro ⟨hrow, e, he, hid⟩
    obtain ⟨v, hv, hve⟩ := mapAll_ok_mem hp.vectors e he
    obtain ⟨-, hspace, s, hmem, hsid, -⟩ := vectorRow_decodes hve
    refine ⟨s, ⟨hmem, v, hv, hsid.symm⟩, ?_⟩
    refine Table.eq_of_key_eq hids (hs.spaces _ ?_) hrow ?_
    · rw [hp.spaces]
      exact List.mem_map.mpr ⟨s, hmem, rfl⟩
    · change s.spaceId.text = row.spaceId
      rw [← hid, hspace, hsid]
  · rintro ⟨s, ⟨hmem, v, hv, hsid⟩, rfl⟩
    refine ⟨hs.spaces _ (by rw [hp.spaces]; exact List.mem_map.mpr ⟨s, hmem, rfl⟩), ?_⟩
    obtain ⟨e, he, hve⟩ := mapAll_ok_mem_of_mem hp.vectors v hv
    obtain ⟨-, hspace, -⟩ := vectorRow_decodes hve
    exact ⟨e, he, by rw [hspace, hsid]; rfl⟩

theorem stored_spaces (hp : IsPrepared env p) (hs : Stored t p)
    (hids : (t.spaces.map (·.spaceId)).Nodup) : ∃ spaces : List EmbeddingSpaceRecord,
      mapAll decodeSpace (orderBy (fun s => (s.spaceId, 0, ""))
        (spacesOf t p.resourceValues.resourceId)) = .ok spaces ∧
      (spaces.map (·.spaceId)).Nodup ∧
      ∀ s, s ∈ spaces ↔ s ∈ p.batch.spaces ∧ ∃ v ∈ p.batch.vectors, v.spaceId = s.spaceId := by
  have hperm := orderBy_perm (fun s : SpaceRow => (s.spaceId, 0, ""))
    (spacesOf t p.resourceValues.resourceId)
  have hrows := fun row hrow => (stored_space hp hs hids).mp (hperm.mem_iff.mp hrow : row ∈ _)
  obtain ⟨spaces, hspaces, hmap⟩ := Table.exists_map_eq hrows
  refine ⟨spaces, ?_, ?_, ?_⟩
  · rw [← hmap]
    exact mapAll_map decodeSpace_row spaces
  · have hrows : ((spaces.map spaceRow).map (·.spaceId)).Nodup := by
      rw [hmap]
      exact (hperm.map _).nodup_iff.mpr (Table.nodup_map_filter _ hids)
    rw [List.map_map] at hrows
    refine List.Nodup.of_map (·.text) ?_
    rw [List.map_map]
    exact hrows
  · intro s
    refine ⟨hspaces s, fun hs' => ?_⟩
    have hrow := hperm.mem_iff.mpr ((stored_space hp hs hids).mpr ⟨s, hs', rfl⟩)
    rw [← hmap] at hrow
    obtain ⟨s', hmem, heq⟩ := List.mem_map.mp hrow
    rwa [← spaceRow_injective heq]

/-- Rows written from records read back in any order. -/
theorem read_rows {α β : Type} {encode : β → α} {decode : α → Except Err β}
    (hdecode : ∀ b, decode (encode b) = .ok b) {rows sorted : List α} {items : List β}
    (hrows : rows = items.map encode) (hperm : sorted.Perm rows) :
    ∃ read, mapAll decode sorted = .ok read ∧ read.Perm items := by
  refine mapAll_perm hperm.symm ?_
  rw [hrows]
  exact mapAll_map hdecode items

theorem facet_owner_decodes (hp : IsPrepared env p) {f : ResourceFacet} (hf : f ∈ p.batch.facets) :
    decodeFacet p.batch.resource.resourceId (facetValues f) = .ok f := by
  rw [← hp.valid.facet_owner f hf]
  exact decodeFacet_row f

theorem readGraphOf_stored (hp : IsPrepared env p) (hs : Stored t p)
    (hids : (t.spaces.map (·.spaceId)).Nodup) :
    ∃ b, readGraphOf t p.batch.resource = .ok b ∧ SameGraph p.batch b := by
  have hid : p.batch.resource.resourceId.text = p.resourceValues.resourceId := by
    rw [hp.resource]
    rfl
  obtain ⟨representations, hr, hrperm⟩ := read_rows decodeRepresentation_row
    (hs.representations.trans hp.representations)
    (orderBy_perm (fun p : RepresentationRow => (p.representationId, 0, "")) _)
  obtain ⟨units, hu, huperm⟩ := read_rows decodeUnit_row (hs.units.trans hp.units)
    (orderBy_perm (fun u : UnitRow => (u.representationId, u.ordinal, u.unitId)) _)
  obtain ⟨spaces, hsp, hspnodup, hspmem⟩ := stored_spaces hp hs hids
  obtain ⟨vectors, hv, hvperm⟩ := mapAll_perm
    (orderBy_perm (fun e : EmbeddingRow => (e.unitId, 0, e.spaceId)) _).symm
    (stored_vectors hp hs hids)
  have hfacets : mapAll (decodeFacet p.batch.resource.resourceId) p.facetValues =
      .ok p.batch.facets := by
    rw [hp.facets]
    exact mapAll_map_of_mem fun f hf => facet_owner_decodes hp hf
  obtain ⟨facets, hf, hfperm⟩ := mapAll_perm
    (List.perm_insertionSort (fun a b => facetLe a b) p.facetValues).symm hfacets
  refine ⟨⟨p.batch.resource, representations, units, spaces, vectors, facets⟩, ?_, ?_⟩
  · simp only [readGraphOf, hid, bind_ok, Except.ok.injEq]
    rw [hs.embeddings, hs.facets]
    exact ⟨_, hr, _, hu, _, hsp, _, hv, _, hf, rfl⟩
  · exact ⟨rfl, hrperm, huperm, hvperm, hfperm, hspnodup, hspmem⟩

theorem readResource_stored (hp : IsPrepared env p) (hs : Stored t p) :
    readResource env t p.resourceValues.resourceId = .ok (some p.batch.resource) := by
  have hdecode : decodeResource env p.resourceValues = .ok p.batch.resource := by
    rw [hp.resource]
    exact decodeResource_row env _
  unfold readResource
  rw [hs.resource]
  simp only [bind_ok, checkAll_ok, exists_const, hdecode, Except.map]
  refine ⟨fun a ha => ?_, trivial⟩
  obtain ⟨row, hrow⟩ := Option.isSome_iff_exists.mp (hs.joined a ha)
  have hmem : row ∈ p.batch.facets.map facetValues := by
    rw [← hp.facets, ← hs.facets]
    exact List.mem_filterMap.mpr ⟨a, ha, hrow⟩
  obtain ⟨f, -, rfl⟩ := List.mem_map.mp hmem
  obtain ⟨g, -, hg⟩ := Option.map_eq_some_iff.mp hrow
  have hvalid := validateFacetRow_row f
  rw [← hg] at hvalid
  exact hvalid

/-- The graph that `read_graph` gives is the stored one and passes the validator. -/
theorem readGraph_stored (hp : IsPrepared env p) (hs : Stored t p)
    (hids : (t.spaces.map (·.spaceId)).Nodup) :
    ∃ b, readGraph env t p.resourceValues.resourceId = .ok (some b) ∧ SameGraph p.batch b ∧
      ValidBatch b := by
  obtain ⟨b, hb, hsame⟩ := readGraphOf_stored hp hs hids
  refine ⟨b, ?_, hsame, hp.valid.congr hsame⟩
  simp only [readGraph, bind_ok]
  exact ⟨some p.batch.resource, readResource_stored hp hs, by simp [hb, Except.map]⟩

end ReadBack

end MDRack
