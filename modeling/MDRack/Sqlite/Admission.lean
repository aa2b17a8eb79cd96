import MDRack.Sqlite.Inserting

/-!
# What the store admits

When a publication goes through: no column check fails, no other resource holds one of its
identities, and the written graph passes its own verification.

Principal results: `Admitted.writeGraph` — `_write_graph` ends where the publication is admitted;
`Stored.admits_same` — a stored graph is admitted again; `publishBody_of` — an admitted publication
under the binding of the live state goes through.
-/

namespace MDRack

open Checks Transaction

/-- No row of another resource stands in the way. -/
structure Admitted (t : Tables) (p : Prepared) : Prop where
  storable : Storable p
  source : checkSourceIdentity p t = .ok ()
  spaces : checkSpaces p t = .ok ()
  representations : ∀ r ∈ t.representations, r.resourceId ≠ p.resourceValues.resourceId →
    ∀ row ∈ p.representationValues, r.representationId ≠ row.representationId
  units : ∀ u ∈ t.units, u.resourceId ≠ p.resourceValues.resourceId →
    ∀ row ∈ p.unitValues, u.unitId ≠ row.unitId

/-! ## Verification of a stored graph -/

section Verifying

variable {env : Env} {t : Tables} {p : Prepared}

theorem Stored.facets_length (hp : IsPrepared env p) (hs : Stored t p) :
    (resourceFacetsOf t p.resourceValues.resourceId).length = p.batch.facets.length := by
  have hlength := congrArg List.length hs.facets
  rw [hp.facets, List.length_map] at hlength
  rw [← hlength]
  exact (List.filterMap_length_eq_length.mpr hs.joined).symm

theorem Stored.counts (hp : IsPrepared env p) (hs : Stored t p) :
    (representationsOf t p.resourceValues.resourceId).length = p.batch.representations.length ∧
      (unitsOf t p.resourceValues.resourceId).length = p.batch.units.length ∧
      (embeddingsOf t p.resourceValues.resourceId).length = p.batch.vectors.length ∧
      (resourceFacetsOf t p.resourceValues.resourceId).length = p.batch.facets.length := by
  refine ⟨?_, ?_, ?_, hs.facets_length hp⟩
  · rw [hs.representations, hp.representations, List.length_map]
  · rw [hs.units, hp.units, List.length_map]
  · rw [hs.embeddings, mapAll_length hp.vectors]

/-- The units of a resource have full-text rows where their text is not blank. -/
theorem Coherent.fts_of_unit (hc : Coherent env t) {u : UnitRow} (hu : u ∈ t.units) :
    (∃ f ∈ t.fts, f.unitId = u.unitId) ↔ hasText u.textContent := by
  constructor
  · rintro ⟨f, hf, hid⟩
    obtain ⟨u', hu', hid', htext, hvisible⟩ := (hc.mem_fts f.unitId f.content).mp hf
    rw [← Table.eq_of_key_eq hc.unit_ids hu' hu (hid'.trans hid), htext]
    exact hvisible
  · intro htext
    obtain ⟨text, hsome, hvisible⟩ := (Option.any_eq_true hasVisible u.textContent).mp htext
    exact ⟨⟨u.unitId, text⟩, (hc.mem_fts u.unitId text).mpr ⟨u, hu, rfl, hsome, hvisible⟩, rfl⟩

theorem Stored.verifyUnit (hp : IsPrepared env p) (hc : Coherent env t) (hs : Stored t p)
    {u : UnitRow} (hu : u ∈ unitsOf t p.resourceValues.resourceId) : verifyUnit t u = .ok () := by
  rw [hs.units, hp.units] at hu
  obtain ⟨unit, hunit, rfl⟩ := List.mem_map.mp hu
  obtain ⟨r, hr, hid, hmodality⟩ := hp.valid.unit_representation unit hunit
  have hrow : representationRow r ∈ t.representations := by
    refine List.mem_of_mem_filter (p := fun x => decide (x.resourceId = p.resourceValues.resourceId)) ?_
    change _ ∈ representationsOf t p.resourceValues.resourceId
    rw [hs.representations, hp.representations]
    exact List.mem_map.mpr ⟨r, hr, rfl⟩
  have hfind := Table.find?_eq_of_mem hc.representation_ids hrow (k := (unitRow unit).representationId)
    (congrArg NonEmptyText.text hid)
  unfold MDRack.verifyUnit
  rw [hfind]
  simp only [bind_ok, require_ok, decodeUnit_row, Except.ok.injEq, exists_const]
  refine ⟨⟨?_, congrArg NonEmptyText.text hmodality.symm⟩, unit, rfl, trivial⟩
  change r.resourceId.text = unit.resourceId.text
  rw [hp.valid.representation_owner r hr, hp.valid.unit_owner unit hunit]

theorem Stored.verifyVector (hp : IsPrepared env p) (hc : Coherent env t) (hs : Stored t p)
    {v : VectorRecord} (hv : v ∈ p.batch.vectors) : verifyVector t v = .ok () := by
  obtain ⟨row, hrow, hencoded⟩ := mapAll_ok_mem_of_mem hp.vectors v hv
  obtain ⟨hunit, hspace, -⟩ := vectorRow_decodes hencoded
  -- the row found first has the unit of the vector, so it is one of the prepared rows
  have hmem : ∀ e ∈ t.embeddings, e.unitId = v.unitId.text → e ∈ p.vectorValues := by
    intro e he hid
    obtain ⟨⟨u, hu, huid⟩, -⟩ := hp.vector_owner row hrow
    rw [← hs.embeddings]
    refine List.mem_filter.mpr ⟨he, List.any_eq_true.mpr ⟨u, ?_, decide_eq_true ?_⟩⟩
    · rwa [hs.units]
    · rw [huid, hunit, hid]
  have hold : row ∈ t.embeddings := by
    rw [← hs.embeddings] at hrow
    exact List.mem_of_mem_filter hrow
  unfold MDRack.verifyVector
  simp only [bind_ok, getOr_ok]
  cases hfind : t.embeddings.find? fun e => e.unitId = v.unitId.text ∧ e.spaceId = v.spaceId.text with
  | none =>
    have := List.find?_eq_none.mp hfind row hold
    simp [hunit, hspace] at this
  | some e =>
    have hkey := List.find?_some hfind
    rw [decide_eq_true_eq] at hkey
    have he := hmem e (List.mem_of_find?_eq_some hfind) hkey.1
    obtain ⟨w, -, hw⟩ := mapAll_ok_mem_of_mem (stored_vectors hp hs hc.space_ids) e he
    exact ⟨e, rfl, w, hw, trivial⟩

/-- A stored graph passes the verification of its publication. -/
theorem Stored.verifyGraph (hp : IsPrepared env p) (hc : Coherent env t) (hs : Stored t p) :
    verifyGraph env p.batch t = .ok () := by
  have hid : p.batch.resource.resourceId.text = p.resourceValues.resourceId := hp.resourceId.symm
  have hrepresented : ∀ r ∈ representationsOf t p.resourceValues.resourceId,
      ∃ u ∈ t.units, u.representationId = r.representationId := by
    intro r hr
    rw [hs.representations, hp.representations] at hr
    obtain ⟨record, hrecord, rfl⟩ := List.mem_map.mp hr
    obtain ⟨u, hu, huid⟩ := hp.valid.represented record hrecord
    have hrow : unitRow u ∈ unitsOf t p.resourceValues.resourceId := by
      rw [hs.units, hp.units]
      exact List.mem_map.mpr ⟨u, hu, rfl⟩
    exact ⟨unitRow u, List.mem_of_mem_filter hrow, congrArg NonEmptyText.text huid⟩
  have hfts : ∀ u ∈ unitsOf t p.resourceValues.resourceId,
      (∃ f ∈ t.fts, f.unitId = u.unitId) ↔ hasText u.textContent :=
    fun u hu => hc.fts_of_unit (List.mem_of_mem_filter hu)
  have hfacets : ∀ a ∈ resourceFacetsOf t p.resourceValues.resourceId,
      validateFacetRow a.producerIsNull a.producerValue a.confidenceJson = .ok () :=
    fun a ha => hc.facet_rows a (List.mem_of_mem_filter ha)
  unfold MDRack.verifyGraph
  rw [hid]
  simp only [bind_ok, require_ok, getOr_ok, checkAll_ok, exists_const]
  exact ⟨hs.counts hp, hrepresented, ⟨hfts, hc.references⟩, _, hs.resource, _,
    decodeResource_prepared hp, fun u hu => hs.verifyUnit hp hc hu,
    fun v hv => hs.verifyVector hp hc hv, hfacets⟩

end Verifying

/-! ## The whole write -/

section Admitting

variable {env : Env} {t t' : Tables} {p : Prepared} {n n' : Nat} {u : Unit}

theorem Admitted.clear (hp : IsPrepared env p) (ha : Admitted t p) (href : foreignKeysHold t) :
    Clear (t.without p.resourceValues.resourceId) p := by
  have hsource := ha.source
  simp only [checkSourceIdentity, bind_ok, require_ok, exists_const] at hsource
  have hresources : ∀ r ∈ (t.without p.resourceValues.resourceId).resources,
      r ∈ t.resources ∧ r.resourceId ≠ p.resourceValues.resourceId := fun r hr => by
    simpa [Tables.without] using hr
  have hrepresentations : ∀ r ∈ (t.without p.resourceValues.resourceId).representations,
      r ∈ t.representations ∧ r.resourceId ≠ p.resourceValues.resourceId := fun r hr => by
    simpa [Tables.without] using hr
  have hunits : ∀ x ∈ (t.without p.resourceValues.resourceId).units,
      x ∈ t.units ∧ x.resourceId ≠ p.resourceValues.resourceId := fun x hx => by
    simpa [Tables.without] using hx
  refine ⟨?_, ?_, ?_, ?_, ?_⟩
  · intro r hr
    obtain ⟨hmem, hne⟩ := hresources r hr
    exact ⟨hne, fun hkey => hne (hsource.2 r hmem hkey)⟩
  · intro r hr
    obtain ⟨hmem, hne⟩ := hrepresentations r hr
    exact ha.representations r hmem hne
  · intro x hx row hrow
    obtain ⟨hmem, hne⟩ := hunits x hx
    refine ⟨ha.units x hmem hne row hrow, fun hid => ?_⟩
    -- the representation of the other unit has another id
    obtain ⟨r, hr, hrowner, hrid⟩ := href.2.1 x hmem
    obtain ⟨r', hr', hid'⟩ := hp.unit_representation row hrow
    exact ha.representations r hr (hrowner ▸ hne) r' hr' (by rw [hrid, hid, hid'])
  · intro e he row hrow hid
    obtain ⟨hmem, hkept⟩ := List.mem_filter.mp he
    obtain ⟨⟨x, hx, hxe⟩, -⟩ := href.2.2.1 e hmem
    have hne : x.resourceId ≠ p.resourceValues.resourceId := by
      intro hown
      have hany : (unitsOf t p.resourceValues.resourceId).any (fun u => u.unitId = e.unitId) := by
        refine List.any_eq_true.mpr ⟨x, List.mem_filter.mpr ⟨hx, by simpa using hown⟩, ?_⟩
        simpa using hxe
      rw [hany] at hkept
      cases hkept
    exact ha.units x hx hne row hrow (hxe.trans hid)
  · intro a ha
    simpa using (List.mem_filter.mp ha).2

/-- An admitted publication writes its graph. -/
theorem Admitted.writeGraph (hp : IsPrepared env p) (hc : Coherent env t) (ha : Admitted t p) :
    ∃ t', Ends (writeGraph env p) t n () t' n := by
  have hw := hc.without p.resourceValues.resourceId
  obtain ⟨t₁, hinserts⟩ := (ha.clear hp hc.references).inserts hp ha.storable ha.spaces hw.space_ids
    hw.facet_ids
  have hfilled := hinserts.filled hp ha.spaces hw.representation_ids hw.unit_ids hw.space_ids
    hw.facet_ids
  obtain ⟨t', hprune⟩ : ∃ t', pruneFacets t₁ = .ok t' := ⟨_, rfl⟩
  obtain ⟨hcoherent, -⟩ := (hfilled.coherent hp hw).prune hprune
  have hverify := ((hfilled.stored hp hw.references).prune hprune).verifyGraph hp hcoherent
  obtain ⟨s₁, s₂, s₃, s₄, s₅, s₆, h1, h2, h3, h4, h5, h6, h7⟩ := hinserts.run
  obtain ⟨d₁, hfts⟩ : ∃ d, deleteFts p.resourceValues.resourceId t = .ok d := ⟨_, rfl⟩
  obtain ⟨d₂, hdelete⟩ : ∃ d, deleteResourceRow p.resourceValues.resourceId d₁ = .ok d := ⟨_, rfl⟩
  obtain rfl := removeRows_eq hc.references hfts hdelete
  refine ⟨t', ?_⟩
  simp only [MDRack.writeGraph, ends_query_bind, ends_execute_bind, ends_failurePoint_bind,
    ends_forEach_bind, ends_query]
  exact ⟨_, ha.source, _, ha.spaces, _, hfts, _, hdelete, _, h1, _, h2, _, h3, _, h4, _, h5, _, h6,
    _, h7, _, hprune, hverify, rfl, trivial⟩

/-- The unique source columns stay distinct. -/
theorem writeGraph_sources (hp : IsPrepared env p) (hc : Coherent env t)
    (hsources : (t.resources.map (·.sourceKey)).Nodup)
    (h : Ends (MDRack.writeGraph env p) t n u t' n') : (t'.resources.map (·.sourceKey)).Nodup := by
  obtain ⟨hw, -⟩ := writeGraph_written hp hc h
  simp only [MDRack.writeGraph, ends_query_bind, ends_execute_bind, ends_failurePoint_bind] at h
  obtain ⟨_, -, _, -, t₁, hfts, t₂, hdelete, t₃, h1, -⟩ := h
  obtain rfl := removeRows_eq hc.references hfts hdelete
  simp only [insertResource, bind_ok, require_ok, exists_const] at h1
  obtain ⟨-, -, hnew, -⟩ := h1
  rw [hw.resources]
  refine Table.nodup_map_append (Table.nodup_map_filter _ hsources) (by simp) ?_
  intro a ha b hb
  rw [List.mem_singleton] at ha
  rw [ha]
  exact hnew b hb

end Admitting

/-! ## The same graph again -/

section Again

variable {env : Env} {t : Tables} {p q : Prepared}

/-- A vector is encoded by its own space. -/
theorem vectorRow_congr {a b : PreparedResourceBatch} {v : VectorRecord}
    (h : b.spaces.find? (fun s => s.spaceId = v.spaceId) =
      a.spaces.find? fun s => s.spaceId = v.spaceId) : vectorRow b v = vectorRow a v := by
  unfold vectorRow
  rw [h]

theorem SameGraph.find_space {a b : PreparedResourceBatch} (ha : ValidBatch a) (h : SameGraph a b)
    {v : VectorRecord} (hv : v ∈ a.vectors) : b.spaces.find? (fun s => s.spaceId = v.spaceId) =
      a.spaces.find? fun s => s.spaceId = v.spaceId := by
  obtain ⟨s, hs, hfits⟩ := ha.vector_space v hv
  rw [Table.find?_eq_of_mem ha.space_ids hs hfits.space,
    Table.find?_eq_of_mem h.space_ids ((h.spaces s).mpr ⟨hs, v, hv, hfits.space.symm⟩) hfits.space]

/-- Preflight accepts the parts in any order, without the spaces that no vector uses. -/
theorem SameGraph.preflight {a b : PreparedResourceBatch} (h : SameGraph a b)
    (ha : preflight env a = .ok p) : ∃ q, preflight env b = .ok q := by
  simp only [MDRack.preflight, bind_ok, require_ok, Except.ok.injEq, exists_const] at ha
  obtain ⟨_, hvalid, hordinals, codecs, hcodecs, vectorValues, hvectors, -⟩ := ha
  rw [validatePreparedBatch_ok] at hvalid
  have hcodec : ∀ s ∈ b.spaces, ∃ c, codecIdFromMetadata s.metadata = .ok c := fun s hs => by
    obtain ⟨c, -, hc⟩ := mapAll_ok_mem_of_mem hcodecs s ((h.spaces s).mp hs).1
    exact ⟨c, hc⟩
  obtain ⟨codecs', hcodecs'⟩ := mapAll_total hcodec
  have hencode : ∀ v ∈ b.vectors, ∃ row, vectorRow b v = .ok row := fun v hv => by
    have hv' := h.vectors.mem_iff.mp hv
    obtain ⟨row, -, hrow⟩ := mapAll_ok_mem_of_mem hvectors v hv'
    exact ⟨row, (vectorRow_congr (h.find_space hvalid hv')).trans hrow⟩
  obtain ⟨vectorValues', hvectors'⟩ := mapAll_total hencode
  simp only [MDRack.preflight, bind_ok, require_ok, Except.ok.injEq, exists_const]
  exact ⟨_, (), validatePreparedBatch_ok.mpr (hvalid.congr h),
    (h.units.map _).nodup_iff.mpr hordinals, codecs', hcodecs', vectorValues', hvectors', rfl⟩

theorem SameGraph.storable (hp : IsPrepared env p) (hq : IsPrepared env q)
    (h : SameGraph p.batch q.batch) (hs : Storable p) : Storable q := by
  have hspace : ∀ s ∈ q.spaceValues, s ∈ p.spaceValues := by
    rw [hq.spaces, hp.spaces]
    exact List.map_subset _ fun s hs => ((h.spaces s).mp hs).1
  have hrepresentation : q.representationValues.Perm p.representationValues := by
    rw [hq.representations, hp.representations]
    exact h.representations.map _
  have hunit : q.unitValues.Perm p.unitValues := by
    rw [hq.units, hp.units]
    exact h.units.map _
  refine ⟨?_, fun s hmem => hs.dimensions s (hspace s hmem),
    fun r hr => hs.token_counts r (hrepresentation.mem_iff.mp hr),
    fun x hx => hs.unit_counts x (hunit.mem_iff.mp hx), (hunit.map _).nodup_iff.mpr hs.ordinals⟩
  rw [hq.resource, h.resource, ← hp.resource]
  exact hs.fingerprint

/-- The store admits a publication whose identities are those of the graph it holds. -/
theorem Stored.admits (hp : IsPrepared env p) (hc : Coherent env t) (hs : Stored t p)
    (hsources : (t.resources.map (·.sourceKey)).Nodup) (hstorable : Storable q)
    (hid : q.resourceValues.resourceId = p.resourceValues.resourceId)
    (hsource : q.resourceValues.sourceKey = p.resourceValues.sourceKey)
    (hspaces : ∀ s ∈ q.spaceValues, s ∈ t.spaces)
    (hrepresentations : ∀ row ∈ q.representationValues, ∃ r ∈ p.representationValues,
      r.representationId = row.representationId)
    (hunits : ∀ row ∈ q.unitValues, ∃ x ∈ p.unitValues, x.unitId = row.unitId) :
    Admitted t q := by
  have hmem : p.resourceValues ∈ t.resources := List.mem_of_find?_eq_some hs.resource
  refine ⟨hstorable, ?_, ?_, ?_, ?_⟩
  · simp only [checkSourceIdentity, bind_ok, require_ok, exists_const]
    refine ⟨fun r hr hrid => ?_, fun r hr hkey => ?_⟩
    · rw [hsource, Table.eq_of_key_eq hc.resource_ids hr hmem (hrid.trans hid)]
    · rw [hid, Table.eq_of_key_eq hsources hr hmem (hkey.trans hsource)]
  · simp only [checkSpaces, checkAll_ok, require_ok]
    exact fun row hrow s hs' hsid => Table.eq_of_key_eq hc.space_ids hs' (hspaces row hrow) hsid
  · intro r hr hne row hrow heq
    obtain ⟨x, hx, hxid⟩ := hrepresentations row hrow
    have hold : x ∈ t.representations := by
      rw [← hs.representations] at hx
      exact List.mem_of_mem_filter hx
    rw [Table.eq_of_key_eq hc.representation_ids hr hold (heq.trans hxid.symm), hid] at hne
    exact hne (hp.representation_owner x hx)
  · intro y hy hne row hrow heq
    obtain ⟨x, hx, hxid⟩ := hunits row hrow
    have hold : x ∈ t.units := by
      rw [← hs.units] at hx
      exact List.mem_of_mem_filter hx
    rw [Table.eq_of_key_eq hc.unit_ids hy hold (heq.trans hxid.symm), hid] at hne
    exact hne (hp.unit_owner x hx)

/-- A stored graph is admitted again, in any order of its parts. -/
theorem Stored.admits_same (hp : IsPrepared env p) (hq : IsPrepared env q) (hc : Coherent env t)
    (hs : Stored t p) (hsources : (t.resources.map (·.sourceKey)).Nodup) (hstorable : Storable p)
    (h : SameGraph p.batch q.batch) : Admitted t q := by
  have hrow : q.resourceValues = p.resourceValues := by rw [hq.resource, hp.resource, h.resource]
  have hspace : ∀ s ∈ q.spaceValues, s ∈ t.spaces := by
    intro s hmem
    apply hs.spaces
    rw [hq.spaces] at hmem
    obtain ⟨x, hx, rfl⟩ := List.mem_map.mp hmem
    rw [hp.spaces]
    exact List.mem_map.mpr ⟨x, ((h.spaces x).mp hx).1, rfl⟩
  refine hs.admits hp hc hsources (h.storable hp hq hstorable) (by rw [hrow]) (by rw [hrow]) hspace
    (fun row hmem => ⟨row, ?_, rfl⟩) fun row hmem => ⟨row, ?_, rfl⟩
  · rw [hp.representations]
    rw [hq.representations] at hmem
    exact (h.representations.map _).mem_iff.mp hmem
  · rw [hp.units]
    rw [hq.units] at hmem
    exact (h.units.map _).mem_iff.mp hmem

end Again

/-! ## The state of a publication -/

section States

variable {env : Env} {t t' : Tables} {previous : PublicationState} {status : PublicationStatus}
  {batch : Option PreparedResourceBatch} {n n' : Nat} {b : PublicationBinding} {metadata : String}

/-- The state columns a publication writes have positive length. -/
structure StateStorable (id lifecycle sourceNamespace locatorKind : NonEmptyText) : Prop where
  id : positiveLength id.text
  lifecycle : positiveLength lifecycle.text
  sourceNamespace : positiveLength sourceNamespace.text
  locatorKind : positiveLength locatorKind.text

/-- Tokens are hexadecimal digits, so none begins with NUL. -/
def Env.TokensPositive (env : Env) : Prop := ∀ n, positiveLength (env.uuid n).text

theorem Put.storable (h : Put env previous status batch t n t' n' b metadata) :
    StateStorable previous.resourceId b.lifecycleId b.sourceNamespace b.sourceLocator.kind := by
  have hupsert := h.upsert
  simp only [upsertState, stateRow, bind_ok, require_ok, exists_const, Bool.and_eq_true] at hupsert
  obtain ⟨⟨⟨⟨⟨⟨hid, hlifecycle⟩, -⟩, hns⟩, hkind⟩, -⟩, -⟩ := hupsert.1
  exact ⟨hid, hlifecycle, hns, hkind⟩

/-- Publishing under the binding of a live state writes the state. -/
theorem putState_of (hc : Catalog env t) (htokens : env.TokensPositive)
    {id : NonEmptyText} (hread : readState id t = .ok ⟨id, some b⟩)
    (hlive : PublicationState.live ⟨id, some b⟩)
    (hs : StateStorable id b.lifecycleId b.sourceNamespace b.sourceLocator.kind)
    {batch : PreparedResourceBatch} (hns : batch.resource.sourceNamespace = b.sourceNamespace)
    (hlocator : batch.resource.locator = b.sourceLocator) (hstates : t'.states = t.states) :
    ∃ t'' n'', Ends (putState env ⟨id, some b⟩ .published (some batch)) t' n () t'' n'' := by
  obtain ⟨-, m, hrow⟩ := readState_spec hc.encoded hread
  have hkeeps : keepsLiveSource ⟨id, some b⟩
      (batch.resource.sourceNamespace, batch.resource.locator) = true := by
    simp [keepsLiveSource, hns, hlocator]
  have hunique : ∀ s ∈ t.states, s.resourceId ≠ id.text → s.live → s.liveSource ≠
      (b.sourceNamespace.text, b.sourceLocator.kind.text, canonicalJson b.sourceLocator.payload) := by
    intro s hmem hne hslive heq
    exact hne (hc.live_source s hmem _ hrow hslive (stateRow_live hlive) heq)
  have hloads : ∀ x : Mapping, (Json.loads (canonicalJson x)).isSome := fun x => by
    rw [show Json.loads (canonicalJson x) = _ from Json.loads_dumps _]
    rfl
  have hupsert : ∀ m : Mapping, ∃ t'', upsertState ⟨id.text, .published, b.lifecycleId.text,
      (env.uuid n).text, batch.resource.sourceNamespace.text, batch.resource.locator.kind.text,
      canonicalJson batch.resource.locator.payload, canonicalJson m⟩ t' = .ok t'' := by
    intro m
    simp only [upsertState, bind_ok, require_ok, exists_const, Bool.and_eq_true, hns, hlocator]
    have hchecks : ((((((positiveLength id.text ∧ positiveLength b.lifecycleId.text) ∧
        positiveLength (env.uuid n).text) ∧ positiveLength b.sourceNamespace.text) ∧
        positiveLength b.sourceLocator.kind.text) ∧
        (Json.loads (canonicalJson b.sourceLocator.payload)).isSome) ∧
        (Json.loads (canonicalJson m)).isSome) :=
      ⟨⟨⟨⟨⟨⟨hs.id, hs.lifecycle⟩, htokens n⟩, hs.sourceNamespace⟩, hs.locatorKind⟩, hloads _⟩, hloads _⟩
    rw [hstates]
    split
    · exact ⟨_, hchecks, fun _ s hmem hne hslive => hunique s hmem hne hslive, rfl⟩
    · exact ⟨_, hchecks, fun _ s hmem hne hslive => hunique s hmem hne hslive, rfl⟩
  obtain ⟨t'', hput⟩ := hupsert batch.resource.metadata
  refine ⟨t'', n + 1, ?_⟩
  simp only [putState, ends_ofExcept_bind]
  refine ⟨_, rfl, (), require_ok.mpr hkeeps, ?_⟩
  rw [ends_bind]
  refine ⟨b.lifecycleId, t', n, ?_, ?_⟩
  · simp [nextLifecycle, hlive]
  · simp only [ends_query_bind, ends_fresh_bind, ends_execute_bind, ends_failurePoint]
    exact ⟨_, rfl, t'', hput, rfl, trivial⟩

/-- An admitted publication under the binding of the live state goes through. -/
theorem publishBody_of {p : Prepared} (hc : Catalog env t) (hp : IsPrepared env p)
    (ha : Admitted t p) (htokens : env.TokensPositive)
    (hread : readState p.batch.resource.resourceId t =
      .ok ⟨p.batch.resource.resourceId, some b⟩)
    (hlive : PublicationState.live ⟨p.batch.resource.resourceId, some b⟩)
    (hs : StateStorable p.batch.resource.resourceId b.lifecycleId b.sourceNamespace
      b.sourceLocator.kind)
    (hns : p.batch.resource.sourceNamespace = b.sourceNamespace)
    (hlocator : p.batch.resource.locator = b.sourceLocator)
    {expected : Option ExpectedPublication}
    (hcurrent : ∀ e ∈ expected, (PublicationState.mk p.batch.resource.resourceId (some b)) == e.state) :
    ∃ state t' n', Ends (publishBody env p expected) t n (.commit, ⟨true, state⟩) t' n' := by
  obtain ⟨t₁, hwrite⟩ := ha.writeGraph (n := n) hp hc.coherent
  obtain ⟨hw, -⟩ := writeGraph_written hp hc.coherent hwrite
  obtain ⟨t', n', hput⟩ := putState_of (n := n) hc htokens hread hlive hs hns hlocator hw.states
  obtain ⟨b', metadata', hput'⟩ := putState_ends hput
  obtain ⟨state, hreread⟩ := readState_total (t := t')
    (hc.published_step hp hread hwrite hput').state_ids
    (hc.published_step hp hread hwrite hput').encoded p.batch.resource.resourceId
  refine ⟨state, t', n', ?_⟩
  have hgo : (expected.any fun e =>
      (PublicationState.mk p.batch.resource.resourceId (some b)) != e.state) = false := by
    cases expected with
    | none => rfl
    | some e => simpa [bne] using hcurrent e rfl
  simp only [publishBody, ends_failurePoint_bind, ends_query_bind]
  refine ⟨_, hread, ?_⟩
  rw [hgo]
  simp only [Bool.false_eq_true, ↓reduceIte]
  rw [ends_bind]
  refine ⟨(), t₁, n, hwrite, ?_⟩
  rw [ends_bind]
  refine ⟨(), t', n', hput, ?_⟩
  simp only [ends_failurePoint_bind, ends_query_bind, ends_pure]
  exact ⟨state, hreread, rfl, trivial, trivial⟩

end States

end MDRack
