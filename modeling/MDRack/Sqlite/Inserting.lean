import MDRack.Sqlite.NormalForm
import MDRack.Sqlite.Verify

/-!
# Inserts that go through

The insert statements of `_write_graph` succeed where no column check fails and no row of another
resource holds one of the prepared identities.

Principal results: `Clear.inserts` — all inserts together; `storable_of_write` — what was written
once passes the column checks.
-/

namespace MDRack

open Checks Transaction

/-- The column checks that a prepared record can fail. -/
structure Storable (p : Prepared) : Prop where
  fingerprint : fingerprintForm p.resourceValues.locatorFingerprint
  dimensions : ∀ s ∈ p.spaceValues, bindable s.dimensions
  token_counts : ∀ r ∈ p.representationValues, ∀ n ∈ r.tokenCount, bindable n
  unit_counts : ∀ u ∈ p.unitValues, bindable u.ordinal ∧ ∀ n ∈ u.tokenCount, bindable n
  ordinals : (p.unitValues.map fun u => (u.representationId, u.ordinal)).Nodup

/-! ## Column checks of prepared rows -/

theorem NonEmptyText.trimmed (x : NonEmptyText) : trimmed x.text := by
  have h := x.visible
  simp only [hasVisible, List.any_eq_true, Bool.not_eq_true'] at h
  obtain ⟨c, hc, hvisible⟩ := h
  refine List.any_eq_true.mpr ⟨c, hc, ?_⟩
  rw [bne_iff_ne]
  rintro rfl
  revert hvisible
  decide

theorem trimmed_option (x : Option NonEmptyText) : (x.map (·.text)).all trimmed := by
  cases x with
  | none => rfl
  | some x => exact x.trimmed

theorem tokenCheck_row (x : Option TokenCount) :
    tokenCheck (x.map (·.count)) (x.map (·.kind)) := by
  cases x <;> rfl

section Inserting

variable {env : Env} {t t' : Tables} {p : Prepared}

theorem insertResource_of {row : ResourceRow} {r : ResourceRecord} (hr : row = resourceRow env r)
    (hform : fingerprintForm row.locatorFingerprint)
    (hid : ∀ x ∈ t.resources, x.resourceId ≠ row.resourceId)
    (hsource : ∀ x ∈ t.resources, x.sourceKey ≠ row.sourceKey) :
    insertResource row t = .ok { t with resources := t.resources ++ [row] } := by
  simp only [insertResource, bind_ok, require_ok, exists_const, Bool.and_eq_true]
  refine ⟨?_, hid, hsource, trivial⟩
  rw [hr] at hform ⊢
  exact ⟨⟨⟨⟨⟨⟨r.resourceId.trimmed, r.resourceKind.trimmed⟩, r.mediaType.trimmed⟩,
    r.sourceNamespace.trimmed⟩, r.locator.kind.trimmed⟩, hform⟩, trimmed_option r.contentHash⟩

theorem insertSpace_of {s : EmbeddingSpaceRecord} (hdim : bindable s.dimensions) (t : Tables) :
    ∃ t', insertSpace (spaceRow s) t = .ok t' := by
  have hpos : 1 ≤ (spaceRow s).dimensions := s.dimensions.property
  simp only [insertSpace, bind_ok, require_ok, exists_const, Bool.and_eq_true, decide_eq_true_eq]
  split
  · exact ⟨_, hdim, ⟨⟨s.spaceId.trimmed, hpos⟩, s.fingerprint.trimmed⟩, rfl⟩
  · exact ⟨_, hdim, ⟨⟨s.spaceId.trimmed, hpos⟩, s.fingerprint.trimmed⟩, rfl⟩

theorem insertSpaces_of (spaces : List EmbeddingSpaceRecord)
    (hdim : ∀ s ∈ spaces, bindable s.dimensions) (t : Tables) :
    ∃ t', (spaces.map spaceRow).foldlM (fun t row => insertSpace row t) t = .ok t' := by
  induction spaces generalizing t with
  | nil => exact ⟨t, rfl⟩
  | cons s rest ih =>
    obtain ⟨t₁, ht₁⟩ := insertSpace_of (hdim s List.mem_cons_self) t
    obtain ⟨t', ht'⟩ := ih (fun x hx => hdim x (List.mem_cons_of_mem _ hx)) t₁
    refine ⟨t', ?_⟩
    rw [List.map_cons, List.foldlM_cons, ht₁]
    exact ht'

theorem insertRepresentation_of {r : RepresentationRecord} {row : RepresentationRow}
    (hr : row = representationRow r) (hcount : ∀ n ∈ row.tokenCount, bindable n)
    (hnew : ∀ x ∈ t.representations, x.representationId ≠ row.representationId)
    (howner : ∃ x ∈ t.resources, x.resourceId = row.resourceId) :
    insertRepresentation row t = .ok { t with representations := t.representations ++ [row] } := by
  simp only [insertRepresentation, bind_ok, require_ok, exists_const, Bool.and_eq_true]
  refine ⟨hcount, ?_, ?_, hnew, howner, trivial⟩
  · rw [hr]
    exact ⟨⟨⟨⟨r.representationId.trimmed, r.representationKind.trimmed⟩, r.modality.trimmed⟩,
      trimmed_option r.language⟩, trimmed_option r.producerFingerprint⟩
  · rw [hr]
    exact tokenCheck_row r.tokenCount

theorem insertUnit_of {u : SearchUnitRecord} {row : UnitRow} (hu : row = unitRow u)
    (hcount : bindable row.ordinal ∧ ∀ n ∈ row.tokenCount, bindable n)
    (hnew : ∀ x ∈ t.units, x.unitId ≠ row.unitId)
    (hordinal : ∀ x ∈ t.units, (x.representationId, x.ordinal) ≠ (row.representationId, row.ordinal))
    (howner : ∃ x ∈ t.representations, x.resourceId = row.resourceId ∧
      x.representationId = row.representationId) :
    insertUnit row t = .ok { t with units := t.units ++ [row] } := by
  simp only [insertUnit, bind_ok, require_ok, exists_const, Bool.and_eq_true]
  refine ⟨hcount, ?_, ?_, hnew, hordinal, howner, trivial⟩
  · rw [hu]
    exact ⟨⟨⟨u.unitId.trimmed, u.unitKind.trimmed⟩, u.modality.trimmed⟩,
      u.evidenceLocator.kind.trimmed⟩
  · rw [hu]
    exact tokenCheck_row u.tokenCount

theorem insertEmbedding_of {batch : PreparedResourceBatch} {v : VectorRecord} {row : EmbeddingRow}
    (hv : vectorRow batch v = .ok row)
    (hnew : ∀ e ∈ t.embeddings, (e.unitId, e.spaceId) ≠ (row.unitId, row.spaceId))
    (hunit : ∃ u ∈ t.units, u.unitId = row.unitId) (hspace : ∃ s ∈ t.spaces, s.spaceId = row.spaceId) :
    insertEmbedding row t = .ok { t with embeddings := t.embeddings ++ [row] } := by
  have hbytes : row.embedding ≠ [] := by
    simp only [vectorRow, bind_ok, require_ok, Except.ok.injEq, exists_const] at hv
    obtain ⟨s, -, codec, -, encoded, hencoded, -, rfl⟩ := hv
    exact encodeVector_nonempty hencoded
  simp only [insertEmbedding, bind_ok, require_ok, exists_const]
  exact ⟨hbytes, hnew, hunit, hspace, trivial⟩

/-! ## Facet assignments -/

/-- The columns that tell facet assignments of one resource apart. -/
def FacetValues.identity (v : FacetValues) : String × String × String × Bool × String :=
  (v.facetNamespace, v.value, v.origin, v.producerIsNull, v.producerValue)

/-- The assignment row of one facet. -/
def assignmentRow (id : String) (facetId : Nat) (v : FacetValues) : ResourceFacetRow :=
  ⟨id, facetId, v.origin, v.producerIsNull, v.producerValue, v.confidenceJson⟩

/-- Facet rows are unique by name, and the assignments of the resource join to these values. -/
structure FacetsSoFar (id : String) (done : List FacetValues) (t : Tables) : Prop where
  resource : ∃ r ∈ t.resources, r.resourceId = id
  ids : (t.facets.map (·.facetId)).Nodup
  joined : ∀ a ∈ t.resourceFacets, a.resourceId = id → ∃ v ∈ done, joinFacet t.facets a = some v

theorem selectFacetId_of (facetNamespace value : String) {t t' : Tables}
    (h : insertFacet facetNamespace value t = .ok t') :
    ∃ n, selectFacetId facetNamespace value t' = .ok n := by
  have hexists : ∃ f ∈ t'.facets, f.facetNamespace = facetNamespace ∧ f.value = value := by
    simp only [insertFacet, bind_ok, require_ok, exists_const] at h
    obtain ⟨-, h⟩ := h
    split at h
    · rename_i hold
      cases h
      exact hold
    · cases h
      exact ⟨_, List.mem_append_right _ List.mem_cons_self, rfl, rfl⟩
  cases hfind : t'.facets.find? fun f => f.facetNamespace = facetNamespace ∧ f.value = value with
  | none =>
    obtain ⟨f, hf, hcolumns⟩ := hexists
    have := List.find?_eq_none.mp hfind f hf
    simp [hcolumns] at this
  | some f =>
    refine ⟨f.facetId, ?_⟩
    unfold selectFacetId
    rw [hfind]
    rfl

theorem insertFacet_of (f : Facet) (t : Tables) :
    ∃ t', insertFacet f.facetNamespace.text f.value.text t = .ok t' := by
  simp only [insertFacet, bind_ok, require_ok, exists_const, Bool.and_eq_true]
  split
  · exact ⟨_, ⟨f.facetNamespace.trimmed, f.value.trimmed⟩, rfl⟩
  · exact ⟨_, ⟨f.facetNamespace.trimmed, f.value.trimmed⟩, rfl⟩

/-- The producer columns of an assignment pass their check. -/
theorem producer_check (f : ResourceFacet) :
    (trimmed (facetValues f).origin && (if (facetValues f).producerIsNull then
      (facetValues f).producerValue == "" else trimmed (facetValues f).producerValue)) = true := by
  rw [Bool.and_eq_true]
  refine ⟨f.origin.trimmed, ?_⟩
  cases hproducer : f.producerFingerprint with
  | none => simp [facetValues, hproducer]
  | some producer => simpa [facetValues, hproducer] using producer.trimmed

theorem writeFacet_of {id : String} {done : List FacetValues} (f : ResourceFacet)
    (h : FacetsSoFar id done t) (hnew : ∀ v ∈ done, v.identity ≠ (facetValues f).identity) :
    ∃ t', writeFacet id (facetValues f) t = .ok t' ∧
      FacetsSoFar id (facetValues f :: done) t' := by
  obtain ⟨t₁, hinsert⟩ := insertFacet_of f.facet t
  obtain ⟨n, hselect⟩ := selectFacetId_of _ _ hinsert
  obtain ⟨added, rfl, hids⟩ := insertFacet_ok hinsert h.ids
  obtain ⟨g, hg, hns, hval, rfl⟩ := selectFacetId_ok hselect
  have hjoined : ∀ a ∈ t.resourceFacets, a.resourceId = id →
      ∃ v ∈ done, joinFacet (t.facets ++ added) a = some v := by
    intro a ha hown
    obtain ⟨v, hv, hjoin⟩ := h.joined a ha hown
    exact ⟨v, hv, joinFacet_append hjoin added⟩
  -- an assignment with the same key would join to the same value
  have hkey : ∀ a ∈ t.resourceFacets, a.key ≠ (assignmentRow id g.facetId (facetValues f)).key := by
    intro a ha hsame
    simp only [ResourceFacetRow.key, assignmentRow, Prod.mk.injEq] at hsame
    obtain ⟨hown, hfacet, horigin, hnull, hvalue⟩ := hsame
    obtain ⟨v, hv, hjoin⟩ := hjoined a ha hown
    have hfind := Table.find?_eq_of_mem hids hg hfacet.symm
    unfold joinFacet at hjoin
    simp only [hfind, Option.map_some, Option.some.injEq] at hjoin
    apply hnew v hv
    rw [← hjoin]
    simp only [FacetValues.identity, hns, hval, horigin, hnull, hvalue]
    rfl
  have hwrite : writeFacet id (facetValues f) t = .ok { t with
      facets := t.facets ++ added
      resourceFacets := t.resourceFacets ++ [assignmentRow id g.facetId (facetValues f)] } := by
    simp only [writeFacet, bind_ok]
    refine ⟨_, hinsert, _, hselect, ?_⟩
    simp only [insertResourceFacet, bind_ok, require_ok, exists_const]
    exact ⟨producer_check f, hkey, h.resource, ⟨g, hg, rfl⟩, rfl⟩
  refine ⟨_, hwrite, h.resource, hids, fun a ha hown => ?_⟩
  rcases List.mem_append.mp ha with ha | ha
  · obtain ⟨v, hv, hjoin⟩ := hjoined a ha hown
    exact ⟨v, List.mem_cons_of_mem _ hv, hjoin⟩
  · rw [List.mem_singleton] at ha
    refine ⟨facetValues f, List.mem_cons_self, ?_⟩
    have hfind := Table.find?_eq_of_mem hids hg (k := a.facetId) (by rw [ha]; rfl)
    unfold joinFacet
    rw [hfind, Option.map_some, ha, hns, hval]
    rfl

theorem writeFacets_of {id : String} {facets : List ResourceFacet} {done : List FacetValues}
    (h : FacetsSoFar id done t) (hids : (facets.map fun f => (facetValues f).identity).Nodup)
    (hnew : ∀ v ∈ done, ∀ f ∈ facets, v.identity ≠ (facetValues f).identity) :
    ∃ t', (facets.map facetValues).foldlM (fun t v => writeFacet id v t) t = .ok t' := by
  induction facets generalizing t done with
  | nil => exact ⟨t, rfl⟩
  | cons f rest ih =>
    rw [List.map_cons, List.nodup_cons] at hids
    obtain ⟨t₁, hwrite, hnext⟩ := writeFacet_of f h fun v hv => hnew v hv f List.mem_cons_self
    obtain ⟨t', hrest⟩ := ih hnext hids.2 (by
      intro v hv g hg
      rcases List.mem_cons.mp hv with rfl | hv
      · exact fun heq => hids.1 (List.mem_map.mpr ⟨g, hg, heq.symm⟩)
      · exact hnew v hv g (List.mem_cons_of_mem _ hg))
    refine ⟨t', ?_⟩
    rw [List.map_cons, List.foldlM_cons, hwrite]
    exact hrest

end Inserting

/-! ## All inserts -/

section Loops

variable {env : Env} {t t' : Tables} {p : Prepared} {n n' : Nat} {u : Unit}

/-- Facet assignments of a valid batch differ in the columns of their rows. -/
theorem IsPrepared.facet_identities (hp : IsPrepared env p) :
    (p.batch.facets.map fun f => (facetValues f).identity).Nodup := by
  refine Table.nodup_map_of_key hp.valid.facet_keys fun f hf g hg heq => ?_
  simp only [FacetValues.identity, Prod.mk.injEq] at heq
  obtain ⟨hns, hvalue, horigin, hnull, hproducer⟩ := heq
  simp only [ResourceFacet.key, hp.valid.facet_owner f hf, hp.valid.facet_owner g hg,
    Prod.mk.injEq, true_and]
  exact ⟨NonEmptyText.ext_text hns, NonEmptyText.ext_text hvalue, NonEmptyText.ext_text horigin,
    producer_of_row (congrArg Bool.toNat hnull) hproducer⟩

/-- Identities of records stay distinct as column texts. -/
theorem nodup_texts {α : Type} {key : α → NonEmptyText} {items : List α}
    (h : (items.map key).Nodup) : (items.map fun a => (key a).text).Nodup :=
  Table.nodup_map_of_key h fun _ _ _ _ heq => NonEmptyText.ext_text heq

theorem IsPrepared.representation_ids (hp : IsPrepared env p) :
    (p.representationValues.map (·.representationId)).Nodup := by
  rw [hp.representations, List.map_map]
  exact nodup_texts hp.valid.representation_ids

theorem IsPrepared.unit_ids (hp : IsPrepared env p) : (p.unitValues.map (·.unitId)).Nodup := by
  rw [hp.units, List.map_map]
  exact nodup_texts hp.valid.unit_ids

theorem IsPrepared.space_ids (hp : IsPrepared env p) : (p.spaceValues.map (·.spaceId)).Nodup := by
  rw [hp.spaces, List.map_map]
  exact nodup_texts hp.valid.space_ids

theorem IsPrepared.vector_keys (hp : IsPrepared env p) :
    (p.vectorValues.map fun e => (e.unitId, e.spaceId)).Nodup := by
  have hkeys : (p.vectorValues.map fun e => (e.unitId, e.spaceId)) =
      p.batch.vectors.map fun v => (v.unitId.text, v.spaceId.text) :=
    mapAll_keys hp.vectors fun v row h => by
      obtain ⟨hunit, hspace, -⟩ := vectorRow_decodes h
      rw [hunit, hspace]
  rw [hkeys]
  refine Table.nodup_map_of_key hp.valid.vector_keys fun v _ w _ heq => ?_
  obtain ⟨hunit, hspace⟩ := Prod.mk.inj heq
  exact Prod.ext (NonEmptyText.ext_text hunit) (NonEmptyText.ext_text hspace)

theorem insertRepresentations_of (hp : IsPrepared env p) (hs : Storable p)
    (hresource : p.resourceValues ∈ t.resources)
    (hnew : ∀ x ∈ t.representations, ∀ row ∈ p.representationValues,
      x.representationId ≠ row.representationId) :
    p.representationValues.foldlM (fun t row => insertRepresentation row t) t =
      .ok { t with representations := t.representations ++ p.representationValues } := by
  apply representationColumn.insert_all (fun t => p.resourceValues ∈ t.resources)
    fun x row => x.representationId ≠ row.representationId
  · intro t row hrow hresource hnew
    obtain ⟨r, -, heq⟩ := List.mem_map.mp (hp.representations ▸ hrow)
    exact insertRepresentation_of heq.symm (hs.token_counts row hrow) hnew
      ⟨_, hresource, (hp.representation_owner row hrow).symm⟩
  · exact fun _ _ h => h
  · exact List.pairwise_map.mp hp.representation_ids
  · exact hnew
  · exact hresource

theorem insertUnits_of (hp : IsPrepared env p) (hs : Storable p)
    (hrepresentations : ∀ r ∈ p.representationValues, r ∈ t.representations)
    (hnew : ∀ x ∈ t.units, ∀ row ∈ p.unitValues,
      x.unitId ≠ row.unitId ∧ x.representationId ≠ row.representationId) :
    p.unitValues.foldlM (fun t row => insertUnit row t) t =
      .ok { t with units := t.units ++ p.unitValues } := by
  apply unitColumn.insert_all (fun t => ∀ r ∈ p.representationValues, r ∈ t.representations)
    fun x row => x.unitId ≠ row.unitId ∧
      (x.representationId, x.ordinal) ≠ (row.representationId, row.ordinal)
  · intro t row hrow hrepresentations hnew
    obtain ⟨unit, -, heq⟩ := List.mem_map.mp (hp.units ▸ hrow)
    obtain ⟨r, hr, hid⟩ := hp.unit_representation row hrow
    have howner : r.resourceId = row.resourceId := by
      rw [hp.representation_owner r hr, hp.unit_owner row hrow]
    exact insertUnit_of heq.symm (hs.unit_counts row hrow) (fun x hx => (hnew x hx).1)
      (fun x hx => (hnew x hx).2) ⟨r, hrepresentations r hr, howner, hid⟩
  · exact fun _ _ h => h
  · exact (List.pairwise_map.mp hp.unit_ids).and (List.pairwise_map.mp hs.ordinals)
  · intro x hx row hrow
    obtain ⟨hunit, hrepresentation⟩ := hnew x hx row hrow
    exact ⟨hunit, fun heq => hrepresentation (Prod.mk.inj heq).1⟩
  · exact hrepresentations

theorem insertEmbeddings_of (hp : IsPrepared env p) (hunits : ∀ u ∈ p.unitValues, u ∈ t.units)
    (hspaces : ∀ s ∈ p.spaceValues, s ∈ t.spaces)
    (hnew : ∀ e ∈ t.embeddings, ∀ row ∈ p.unitValues, e.unitId ≠ row.unitId) :
    p.vectorValues.foldlM (fun t row => insertEmbedding row t) t =
      .ok { t with embeddings := t.embeddings ++ p.vectorValues } := by
  apply embeddingColumn.insert_all
    (fun t => (∀ u ∈ p.unitValues, u ∈ t.units) ∧ ∀ s ∈ p.spaceValues, s ∈ t.spaces)
    fun e row => (e.unitId, e.spaceId) ≠ (row.unitId, row.spaceId)
  · rintro t row hrow ⟨hunits, hspaces⟩ hnew
    obtain ⟨v, -, hv⟩ := mapAll_ok_mem hp.vectors row hrow
    obtain ⟨⟨u, hu, huid⟩, s, hs, hsid⟩ := hp.vector_owner row hrow
    exact insertEmbedding_of hv hnew ⟨u, hunits u hu, huid⟩ ⟨s, hspaces s hs, hsid⟩
  · exact fun _ _ h => h
  · exact List.pairwise_map.mp hp.vector_keys
  · intro e he row hrow heq
    obtain ⟨⟨u, hu, huid⟩, -⟩ := hp.vector_owner row hrow
    exact hnew e he u hu ((Prod.mk.inj heq).1.trans huid.symm)
  · exact ⟨hunits, hspaces⟩

/-- Rows of other resources hold none of the prepared identities. -/
structure Clear (t : Tables) (p : Prepared) : Prop where
  resources : ∀ r ∈ t.resources, r.resourceId ≠ p.resourceValues.resourceId ∧
    r.sourceKey ≠ p.resourceValues.sourceKey
  representations : ∀ r ∈ t.representations, ∀ row ∈ p.representationValues,
    r.representationId ≠ row.representationId
  units : ∀ x ∈ t.units, ∀ row ∈ p.unitValues,
    x.unitId ≠ row.unitId ∧ x.representationId ≠ row.representationId
  embeddings : ∀ e ∈ t.embeddings, ∀ row ∈ p.unitValues, e.unitId ≠ row.unitId
  assignments : ∀ a ∈ t.resourceFacets, a.resourceId ≠ p.resourceValues.resourceId

/-- The inserts go through where no row stands in the way. -/
theorem Clear.inserts (hp : IsPrepared env p) (hs : Storable p) (h : Clear t p)
    (hspaces : checkSpaces p t = .ok ()) (hspaceIds : (t.spaces.map (·.spaceId)).Nodup)
    (hfacets : (t.facets.map (·.facetId)).Nodup) : ∃ t', Inserts t t' p := by
  have h1 := insertResource_of hp.resource hs.fingerprint (fun r hr => (h.resources r hr).1)
    fun r hr => (h.resources r hr).2
  obtain ⟨t₂, h2⟩ := insertSpaces_of p.batch.spaces (fun s hmem => by
    apply hs.dimensions (spaceRow s)
    rw [hp.spaces]
    exact List.mem_map.mpr ⟨s, hmem, rfl⟩) { t with resources := t.resources ++ [p.resourceValues] }
  rw [← hp.spaces] at h2
  have hsame : ∀ row ∈ p.spaceValues, ∀ s ∈ t.spaces, s.spaceId = row.spaceId → s = row := by
    simpa only [checkSpaces, checkAll_ok, require_ok] using hspaces
  obtain ⟨added, rfl, -, hall⟩ := insertSpaces_ok h2 hp.space_ids hspaceIds hsame
  have h3 := insertRepresentations_of (t := { t with
    resources := t.resources ++ [p.resourceValues], spaces := t.spaces ++ added }) hp hs
    (List.mem_append_right _ List.mem_cons_self) h.representations
  have h4 := insertUnits_of (t := { t with
    resources := t.resources ++ [p.resourceValues], spaces := t.spaces ++ added
    representations := t.representations ++ p.representationValues }) hp hs
    (fun r hr => List.mem_append_right _ hr) h.units
  have h5 := insertEmbeddings_of (t := { t with
    resources := t.resources ++ [p.resourceValues], spaces := t.spaces ++ added
    representations := t.representations ++ p.representationValues
    units := t.units ++ p.unitValues }) hp (fun u hu => List.mem_append_right _ hu) hall h.embeddings
  have hsofar : FacetsSoFar p.resourceValues.resourceId [] { t with
      resources := t.resources ++ [p.resourceValues], spaces := t.spaces ++ added
      representations := t.representations ++ p.representationValues
      units := t.units ++ p.unitValues, embeddings := t.embeddings ++ p.vectorValues } :=
    ⟨⟨_, List.mem_append_right _ List.mem_cons_self, rfl⟩, hfacets,
      fun a ha hown => absurd hown (h.assignments a ha)⟩
  obtain ⟨t₆, h6⟩ := writeFacets_of hsofar hp.facet_identities (by simp)
  rw [← hp.facets] at h6
  have h7 : p.ftsValues.foldlM (fun t row => insertFts row t) t₆ =
      .ok { t₆ with fts := t₆.fts ++ p.ftsValues } :=
    ftsColumn.insert_all (fun _ => True) (fun _ _ => True) (fun _ _ _ _ _ => rfl) (fun _ _ h => h)
      (List.pairwise_of_forall fun _ _ => trivial) (fun _ _ _ _ => trivial) trivial
  exact ⟨_, ⟨_, _, _, _, _, _, h1, h2, h3, h4, h5, h6, h7⟩⟩

/-- What was written once passes the column checks. -/
theorem storable_of_write (hordinals : (p.batch.units.map (·.ordinalKey)).Nodup)
    (hp : IsPrepared env p) (h : Ends (MDRack.writeGraph env p) t n u t' n') : Storable p := by
  simp only [MDRack.writeGraph, ends_query_bind, ends_execute_bind, ends_failurePoint_bind,
    ends_forEach_bind, ends_query] at h
  obtain ⟨_, -, _, -, _, -, _, -, _, h1, _, h2, _, h3, _, h4, -⟩ := h
  refine ⟨?_, ?_, ?_, ?_, ?_⟩
  · simp only [insertResource, bind_ok, require_ok, exists_const, Bool.and_eq_true] at h1
    exact h1.1.1.2
  · intro s hs
    obtain ⟨c, c', hstep⟩ := foldlM_steps h2 s hs
    simp only [insertSpace, bind_ok, require_ok, exists_const] at hstep
    exact hstep.1
  · intro r hr
    obtain ⟨c, c', hstep⟩ := foldlM_steps h3 r hr
    simp only [insertRepresentation, bind_ok, require_ok, exists_const] at hstep
    exact hstep.1
  · intro x hx
    obtain ⟨c, c', hstep⟩ := foldlM_steps h4 x hx
    simp only [insertUnit, bind_ok, require_ok, exists_const] at hstep
    exact hstep.1
  · rw [hp.units, List.map_map]
    refine Table.nodup_map_of_key hordinals fun x _ y _ heq => ?_
    obtain ⟨hid, hordinal⟩ := Prod.mk.inj heq
    exact Prod.ext (NonEmptyText.ext_text hid) hordinal

end Loops

end MDRack
