import MDRack.Sqlite.History

/-!
# Catalog verification (`SQLiteCatalog._verify_snapshot`)

The checks that the catalog makes on its own tables: references, facet rows, every stored graph
read back and validated, full-text rows compared with the unit texts, and publication states
compared with the resource rows.  The checks of the schema itself concern no row and are left out.

Principal results: `Catalog.verifies` — a catalog that keeps the invariant passes;
`whole_store` — what holds after any run of operations under any faults.
-/

namespace MDRack

open Checks Transaction

/-- The counts that a verification reports. -/
structure Verification where
  resources : Nat
  representations : Nat
  units : Nat
  vectors : Nat
  facets : Nat
  ftsRows : Nat
  deriving DecidableEq, Repr

def Tables.counts (t : Tables) : Verification :=
  ⟨t.resources.length, t.representations.length, t.units.length, t.embeddings.length,
    t.resourceFacets.length, t.fts.length⟩

/-- One resource row, read back and validated; its nonblank unit texts. -/
def verifyResource (env : Env) (t : Tables) (row : ResourceRow) : Except Err (List FtsRow) := do
  let resource ← decodeResource env row
  let batch ← readGraphOf t resource
  validatePreparedBatch batch
  .ok (batch.units.filterMap fun u => ftsRow? u.unitId.text u.text)

/-- A dictionary filled in order: the last text of a unit counts. -/
def textOf (rows : List FtsRow) (unitId : String) : Option String :=
  (rows.reverse.find? fun f => f.unitId = unitId).map (·.content)

/-- `_verify_graph_snapshot`. -/
def verifyGraphSnapshot (env : Env) (t : Tables) : Except Err Verification := do
  require (foreignKeysHold t) (.valueError "")
  checkAll (fun a => validateFacetRow a.producerIsNull a.producerValue a.confidenceJson)
    t.resourceFacets
  let texts ← mapAll (verifyResource env t) t.resources
  let expected := texts.flatten
  require ((t.fts.map (·.unitId)).Nodup ∧
    ∀ f ∈ t.fts ++ expected, textOf t.fts f.unitId = textOf expected f.unitId) (.valueError "")
  .ok t.counts

/-- The loop body over the publication states. -/
def verifyState (env : Env) (t : Tables) (row : StateRow) : Except Err Unit := do
  let id ← requireNonEmpty row.resourceId "resource_id"
  let state ← readState id t
  match t.resources.find? fun r => r.resourceId = row.resourceId with
  | none => require (state.published = false) (.valueError "")
  | some resourceRow => do
    let resource ← decodeResource env resourceRow
    require (state.published = true) (.valueError "")
    match state.binding with
    | none => .error (.valueError "")
    | some b => require (resource.sourceNamespace = b.sourceNamespace ∧
        (resource.locator == b.sourceLocator) = true) (.valueError "")

/-- `_verify_snapshot`; every failure is reported as `VERIFY_FAILED`. -/
def verifySnapshot (env : Env) (t : Tables) : Except Err Verification :=
  Except.mapError (fun _ => .verifyFailed) do
    let result ← verifyGraphSnapshot env t
    checkAll (verifyState env t) t.states
    require (∀ r ∈ t.resources, ∃ s ∈ t.states, s.resourceId = r.resourceId) (.valueError "")
    .ok result

section Verifies

variable {env : Env} {t : Tables}

theorem mem_resourceFacetsOf {a : ResourceFacetRow} (ha : a ∈ t.resourceFacets) :
    a ∈ resourceFacetsOf t a.resourceId := List.mem_filter.mpr ⟨ha, by simp⟩

/-- Facet rows of a stored graph pass their check. -/
theorem Coherent.facet_rows (h : Coherent env t) : ∀ a ∈ t.resourceFacets,
    validateFacetRow a.producerIsNull a.producerValue a.confidenceJson = .ok () := by
  intro a ha
  obtain ⟨r, hr, hra⟩ := (h.references.2.2.2 a ha).1
  obtain ⟨p, hp, hpr, hs⟩ := h.stored r hr
  have hread := readResource_stored hp hs
  unfold readResource at hread
  rw [hs.resource] at hread
  simp only [bind_ok, checkAll_ok] at hread
  obtain ⟨_, hrows, -⟩ := hread
  refine hrows a ?_
  rw [hpr, hra]
  exact mem_resourceFacetsOf ha

/-- A stored resource verifies, and its texts are those of its units. -/
theorem Coherent.verifyResource (h : Coherent env t) {row : ResourceRow} (hrow : row ∈ t.resources) :
    ∃ texts, verifyResource env t row = .ok texts ∧
      texts.Perm (expectedFts (unitsOf t row.resourceId)) := by
  obtain ⟨p, hp, rfl, hs⟩ := h.stored row hrow
  have hdecode : decodeResource env p.resourceValues = .ok p.batch.resource := by
    rw [hp.resource]
    exact decodeResource_row env _
  obtain ⟨b, hb, hsame⟩ := readGraphOf_stored hp hs h.space_ids
  refine ⟨b.units.filterMap fun u => ftsRow? u.unitId.text u.text, ?_, ?_⟩
  · simp only [MDRack.verifyResource, bind_ok, Except.ok.injEq]
    exact ⟨_, hdecode, b, hb, (), validatePreparedBatch_ok.mpr (hp.valid.congr hsame), rfl⟩
  · rw [hs.units, hp.fts_eq, hp.fts]
    exact hsame.units.filterMap _

theorem units_by_resource (hids : (t.resources.map (·.resourceId)).Nodup)
    (href : foreignKeysHold t) :
    (t.resources.flatMap fun r => unitsOf t r.resourceId).Perm t.units := by
  refine Table.flatMap_filter_perm hids fun u hu => ?_
  obtain ⟨p, hp, hpu, -⟩ := href.2.1 u hu
  obtain ⟨r, hr, hrp⟩ := href.1 p hp
  exact ⟨r, hr, hrp.trans hpu⟩

/-- The texts of all resources together are the full-text rows. -/
theorem Coherent.verifyTexts (h : Coherent env t) :
    ∃ texts, mapAll (MDRack.verifyResource env t) t.resources = .ok texts ∧
      texts.flatten.Perm t.fts := by
  obtain ⟨texts, htexts, hperm⟩ := mapAll_flatten_perm fun row hrow => h.verifyResource hrow
  refine ⟨texts, htexts, ?_⟩
  have hunits := (units_by_resource h.resource_ids h.references).filterMap
    fun u => ftsRow? u.unitId u.textContent
  rw [List.filterMap_flatMap] at hunits
  exact (hperm.trans hunits).trans h.fts.symm

theorem expectedFts_ids {units : List UnitRow} (h : (units.map (·.unitId)).Nodup) :
    ((expectedFts units).map (·.unitId)).Nodup := by
  induction units with
  | nil => exact List.nodup_nil
  | cons u rest ih =>
    rw [List.map_cons, List.nodup_cons] at h
    unfold expectedFts
    rw [List.filterMap_cons]
    split
    · exact ih h.2
    · rename_i row hrow
      rw [List.map_cons, List.nodup_cons]
      refine ⟨?_, ih h.2⟩
      intro hmem
      obtain ⟨row', hrow', heq⟩ := List.mem_map.mp hmem
      obtain ⟨u', hu', hur⟩ := List.mem_filterMap.mp hrow'
      rw [ftsRow?_unitId hrow, ftsRow?_unitId hur] at heq
      exact h.1 (List.mem_map.mpr ⟨u', hu', heq⟩)

theorem Coherent.fts_ids (h : Coherent env t) : (t.fts.map (·.unitId)).Nodup :=
  (h.fts.map _).nodup_iff.mpr (expectedFts_ids h.unit_ids)

/-- A dictionary of rows with distinct units does not depend on their order. -/
theorem textOf_perm {rows rows' : List FtsRow} (hids : (rows.map (·.unitId)).Nodup)
    (hperm : rows.Perm rows') (unitId : String) : textOf rows unitId = textOf rows' unitId := by
  unfold textOf
  have hreversed : rows.reverse.Perm rows'.reverse :=
    (rows.reverse_perm.trans hperm).trans rows'.reverse_perm.symm
  rw [Table.find?_perm ((rows.reverse_perm.map _).nodup_iff.mpr hids) hreversed]

theorem Coherent.verifyGraphSnapshot (h : Coherent env t) :
    MDRack.verifyGraphSnapshot env t = .ok t.counts := by
  obtain ⟨texts, htexts, hperm⟩ := h.verifyTexts
  simp only [MDRack.verifyGraphSnapshot, bind_ok, require_ok, checkAll_ok]
  exact ⟨(), h.references, (), h.facet_rows, texts, htexts, (),
    ⟨h.fts_ids, fun f _ => textOf_perm h.fts_ids hperm.symm f.unitId⟩, trivial⟩

/-- The state of a stored resource is published and bound to its source. -/
theorem Catalog.bound_state (h : Catalog env t) {r : ResourceRow} (hr : r ∈ t.resources) :
    ∃ p b metadata, IsPrepared env p ∧ p.resourceValues = r ∧ Stored t p ∧
      stateRow p.batch.resource.resourceId b metadata ∈ t.states ∧ b.status = .published ∧
      p.batch.resource.sourceNamespace = b.sourceNamespace ∧
      p.batch.resource.locator = b.sourceLocator := by
  obtain ⟨p, hp, hpr, hs⟩ := h.coherent.stored r hr
  obtain ⟨row, hrow, hid, hstatus, hns, hkind, hjson⟩ := h.bound r hr
  obtain ⟨rid, b, metadata, rfl⟩ := h.encoded row hrow
  rw [← hpr, hp.resource] at hid hns hkind hjson
  obtain rfl : rid = p.batch.resource.resourceId := NonEmptyText.ext_text hid
  have hlocator : p.batch.resource.locator = b.sourceLocator := by
    have hk : p.batch.resource.locator.kind = b.sourceLocator.kind :=
      NonEmptyText.ext_text hkind.symm
    have hpayload : p.batch.resource.locator.payload = b.sourceLocator.payload :=
      canonicalJson_injective hjson.symm
    cases hl : p.batch.resource.locator
    cases hb : b.sourceLocator
    simp_all
  exact ⟨p, b, metadata, hp, hpr, hs, hrow, hstatus, NonEmptyText.ext_text hns.symm, hlocator⟩

theorem decodeResource_prepared {p : Prepared} (hp : IsPrepared env p) :
    decodeResource env p.resourceValues = .ok p.batch.resource := by
  rw [hp.resource]
  exact decodeResource_row env _

theorem Catalog.verifyState (h : Catalog env t) {row : StateRow} (hrow : row ∈ t.states) :
    MDRack.verifyState env t row = .ok () := by
  obtain ⟨rid, b, metadata, rfl⟩ := h.encoded row hrow
  have hread := readState_of_row h.state_ids hrow
  have hid : requireNonEmpty (stateRow rid b metadata).resourceId "resource_id" = .ok rid :=
    requireNonEmpty_text rid "resource_id"
  unfold MDRack.verifyState
  simp only [bind_ok, hid, hread, Except.ok.injEq, exists_eq_left']
  cases hfind : t.resources.find? fun r => r.resourceId = (stateRow rid b metadata).resourceId with
  | none =>
    -- no resource row: the state cannot be published
    simp only [require_ok]
    by_contra hpublished
    have hstatus : b.status = .published := by simpa [PublicationState.published] using hpublished
    obtain ⟨r, hr, hrid⟩ := h.published _ hrow hstatus
    have := List.find?_eq_none.mp hfind r hr
    simp [hrid] at this
  | some r =>
    obtain ⟨hr, hrid⟩ := Table.key_of_find? ResourceRow.resourceId hfind
    obtain ⟨p, b', metadata', hp, rfl, hs, hrow', hstatus, hns, hlocator⟩ := h.bound_state hr
    have hsame := Table.eq_of_key_eq h.state_ids hrow' hrow (by rw [← hrid, hp.resource]; rfl)
    obtain rfl : p.batch.resource.resourceId = rid :=
      NonEmptyText.ext_text (congrArg StateRow.resourceId hsame)
    have hread' := readState_of_row h.state_ids hrow'
    rw [hread] at hread'
    cases hread'
    simp only [bind_ok, require_ok, PublicationState.published]
    exact ⟨_, decodeResource_prepared hp, (), by simp [hstatus], hns, by simp [hlocator]⟩

/-- A catalog that keeps the invariant passes its own verification. -/
theorem Catalog.verifies (h : Catalog env t) : verifySnapshot env t = .ok t.counts := by
  have hbound : ∀ r ∈ t.resources, ∃ s ∈ t.states, s.resourceId = r.resourceId := by
    intro r hr
    obtain ⟨row, hrow, hid, -⟩ := h.bound r hr
    exact ⟨row, hrow, hid⟩
  have hbody : (do
      let result ← MDRack.verifyGraphSnapshot env t
      checkAll (MDRack.verifyState env t) t.states
      require (∀ r ∈ t.resources, ∃ s ∈ t.states, s.resourceId = r.resourceId) (Err.valueError "")
      .ok result) = .ok t.counts := by
    simp only [bind_ok, checkAll_ok, require_ok]
    exact ⟨_, h.coherent.verifyGraphSnapshot, (), fun row hrow => h.verifyState hrow, (), hbound, rfl⟩
  unfold verifySnapshot
  rw [hbody]
  rfl

end Verifies

/-! ## The whole store -/

section Parts

variable {env : Env} {t : Tables}

theorem Catalog.read_total (h : Catalog env t) (id : NonEmptyText) :
    ∃ state, readState id t = .ok state := readState_total h.state_ids h.encoded id

/-- A resource row exists exactly for a published state. -/
theorem Catalog.row_iff_published (h : Catalog env t) {id : NonEmptyText} {state : PublicationState}
    (hread : readState id t = .ok state) :
    (∃ r ∈ t.resources, r.resourceId = id.text) ↔ state.published := by
  constructor
  · rintro ⟨r, hr, hid⟩
    obtain ⟨p, b, metadata, hp, rfl, -, hrow, hstatus, -⟩ := h.bound_state hr
    obtain rfl : p.batch.resource.resourceId = id :=
      NonEmptyText.ext_text (by rw [← hid, hp.resource]; rfl)
    rw [readState_of_row h.state_ids hrow] at hread
    cases hread
    simp [PublicationState.published, hstatus]
  · intro hpublished
    obtain ⟨rfl, hrecorded⟩ := readState_spec h.encoded hread
    obtain ⟨id, binding⟩ := state
    cases binding with
    | none => cases hpublished
    | some b =>
      obtain ⟨metadata, hrow⟩ := hrecorded
      have hstatus : b.status = .published := by simpa [PublicationState.published] using hpublished
      exact h.published _ hrow hstatus

theorem stateRow_live {id : NonEmptyText} {b : PublicationBinding} {metadata : Mapping}
    (h : PublicationState.live ⟨id, some b⟩) : (stateRow id b metadata).live := by
  cases hstatus : b.status with
  | published => simp [StateRow.live, stateRow, hstatus]
  | liveWithoutProjections => simp [StateRow.live, stateRow, hstatus]
  | deleted => simp [PublicationState.live, hstatus] at h

/-- Live states with one source are states of one resource. -/
theorem Catalog.one_live_source (h : Catalog env t) {id id' : NonEmptyText}
    {b b' : PublicationBinding} (hread : readState id t = .ok ⟨id, some b⟩)
    (hread' : readState id' t = .ok ⟨id', some b'⟩)
    (hlive : PublicationState.live ⟨id, some b⟩) (hlive' : PublicationState.live ⟨id', some b'⟩)
    (hns : b.sourceNamespace = b'.sourceNamespace)
    (hkind : b.sourceLocator.kind = b'.sourceLocator.kind)
    (hpayload : canonicalJson b.sourceLocator.payload = canonicalJson b'.sourceLocator.payload) :
    id = id' := by
  obtain ⟨-, metadata, hrow⟩ := readState_spec h.encoded hread
  obtain ⟨-, metadata', hrow'⟩ := readState_spec h.encoded hread'
  refine NonEmptyText.ext_text
    (h.live_source _ hrow _ hrow' (stateRow_live hlive) (stateRow_live hlive') ?_)
  simp only [StateRow.liveSource, stateRow, hns, hkind, hpayload]

/-- Full-text rows are those of the units with visible text. -/
theorem Coherent.mem_fts (h : Coherent env t) (unitId text : String) :
    ⟨unitId, text⟩ ∈ t.fts ↔
      ∃ u ∈ t.units, u.unitId = unitId ∧ u.textContent = some text ∧ hasVisible text := by
  rw [h.fts.mem_iff, expectedFts, List.mem_filterMap]
  constructor
  · rintro ⟨u, hu, hrow⟩
    unfold ftsRow? at hrow
    split at hrow
    · rename_i content hcontent
      split at hrow
      · rename_i hvisible
        cases hrow
        exact ⟨u, hu, rfl, hcontent, hvisible⟩
      · cases hrow
    · cases hrow
  · rintro ⟨u, hu, rfl, htext, hvisible⟩
    exact ⟨u, hu, by simp [ftsRow?, htext, hvisible]⟩

/-- Every stored graph reads back and passes the validator. -/
theorem Coherent.graph_valid (h : Coherent env t) {r : ResourceRow} (hr : r ∈ t.resources) :
    ∃ batch, readGraph env t r.resourceId = .ok (some batch) ∧
      validatePreparedBatch batch = .ok () := by
  obtain ⟨p, hp, rfl, hs⟩ := h.stored r hr
  obtain ⟨batch, hread, -, hvalid⟩ := readGraph_stored hp hs h.space_ids
  exact ⟨batch, hread, validatePreparedBatch_ok.mpr hvalid⟩

end Parts

/-- The agreement of resource rows with publication states. -/
def RowsAgree (env : Env) (t : Tables) : Prop :=
  ∀ id, ∃ state, readState id t = .ok state ∧
    ((∃ r ∈ t.resources, r.resourceId = id.text) ↔ state.published) ∧
    ∀ r ∈ t.resources, r.resourceId = id.text → ∃ resource b,
      decodeResource env r = .ok resource ∧ state.binding = some b ∧
      resource.sourceNamespace = b.sourceNamespace ∧ resource.locator = b.sourceLocator

theorem Catalog.rows_agree {env : Env} {t : Tables} (h : Catalog env t) : RowsAgree env t := by
  intro id
  obtain ⟨state, hread⟩ := h.read_total id
  refine ⟨state, hread, h.row_iff_published hread, ?_⟩
  intro r hr hid
  obtain ⟨p, b, metadata, hp, rfl, -, hrow, -, hns, hlocator⟩ := h.bound_state hr
  obtain rfl : p.batch.resource.resourceId = id :=
    NonEmptyText.ext_text (by rw [← hid, hp.resource]; rfl)
  rw [readState_of_row h.state_ids hrow] at hread
  cases hread
  exact ⟨_, b, decodeResource_prepared hp, rfl, hns, hlocator⟩

/-- What holds of the tables after any history of operations under any faults. -/
theorem whole_store {env : Env} {events : List Event} {store : Store}
    (h : History env events store) :
    RowsAgree env store.committed ∧
    (∀ id id' b b', readState id store.committed = .ok ⟨id, some b⟩ →
      readState id' store.committed = .ok ⟨id', some b'⟩ →
      PublicationState.live ⟨id, some b⟩ → PublicationState.live ⟨id', some b'⟩ →
      b.sourceNamespace = b'.sourceNamespace → b.sourceLocator.kind = b'.sourceLocator.kind →
      canonicalJson b.sourceLocator.payload = canonicalJson b'.sourceLocator.payload → id = id') ∧
    ((store.committed.fts.map (·.unitId)).Nodup ∧ ∀ unitId text,
      ⟨unitId, text⟩ ∈ store.committed.fts ↔ ∃ u ∈ store.committed.units,
        u.unitId = unitId ∧ u.textContent = some text ∧ hasVisible text) ∧
    ((∀ f ∈ store.committed.facets, ∃ a ∈ store.committed.resourceFacets, a.facetId = f.facetId) ∧
      ∀ e ∈ store.committed.embeddings, (∃ u ∈ store.committed.units, u.unitId = e.unitId) ∧
        ∃ s ∈ store.committed.spaces, s.spaceId = e.spaceId) ∧
    (∀ r ∈ store.committed.resources, ∃ batch,
      readGraph env store.committed r.resourceId = .ok (some batch) ∧
        validatePreparedBatch batch = .ok ()) ∧
    verifySnapshot env store.committed = .ok store.committed.counts ∧
    ∀ e ∈ events, e.after.working = none ∧
      ((∃ error, e.answer = .error error) → e.after.committed = e.before.committed) := by
  obtain ⟨-, hc⟩ := h.catalog
  refine ⟨hc.rows_agree, ?_, ⟨hc.coherent.fts_ids, hc.coherent.mem_fts⟩,
    ⟨hc.used, hc.coherent.references.2.2.1⟩, fun r hr => hc.coherent.graph_valid hr, hc.verifies, ?_⟩
  · intro id id' b b' hread hread' hlive hlive' hns hkind hpayload
    exact hc.one_live_source hread hread' hlive hlive' hns hkind hpayload
  · intro e he
    obtain ⟨later, earlier, rfl⟩ := List.append_of_mem he
    have hfacts := h.facts
    exact ⟨hfacts.idle, fun herror => hfacts.performed.unchanged (.inl herror)⟩

theorem whole_store_created :
    verifySnapshot sampleEnv (emptyStore.after creation).committed =
      .ok (emptyStore.after creation).committed.counts :=
  have history : History sampleEnv [emptyStore.event creation] (emptyStore.after creation) :=
    .step .start creation noFaults
  (whole_store history).2.2.2.2.2.1

end MDRack
