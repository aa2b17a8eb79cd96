import MDRack.Search.Scope
import MDRack.Sqlite.RoundTrip

/-!
# Scope clauses of the catalog (`SQLiteResourceCatalogStore._scope_clauses`)

A scope becomes a list of clauses with placeholders and one list of values.  The searches put the
clauses into a `WHERE` over units joined with their representation and resource.

Principal results: `scopeClauses_holds` — the values always fit the placeholders, and the clauses
hold of a row exactly when each part of the scope does; `scopedUnits_iff` — in a coherent catalog
the selected units are those of the stored graphs that the scope admits.
-/

namespace MDRack

open Selection Checks

/-- A column that an inclusion list restricts. -/
inductive Column
  | resourceKind
  | mediaType
  | sourceNamespace
  | representationKind
  | modality
  | unitKind

/-- `core_search_units u JOIN core_representations p JOIN core_resources r`. -/
structure JoinedRow where
  resource : ResourceRow
  representation : RepresentationRow
  unit : UnitRow

def JoinedRow.get (row : JoinedRow) : Column → String
  | .resourceKind => row.resource.resourceKind
  | .mediaType => row.resource.mediaType
  | .sourceNamespace => row.resource.sourceNamespace
  | .representationKind => row.representation.representationKind
  | .modality => row.unit.modality
  | .unitKind => row.unit.unitKind

/-- Joined on `representation_id` and on `resource_id`. -/
def joinedRows (t : Tables) : List JoinedRow :=
  t.units.flatMap fun u =>
    (t.representations.filter fun p => p.representationId = u.representationId).flatMap fun p =>
      (t.resources.filter fun r => r.resourceId = u.resourceId).map fun r => ⟨r, p, u⟩

/-- One clause; the numbers count its values or its facet pairs. -/
inductive Clause
  | isIn (column : Column) (values : Nat)
  | facetExists (pairs : Nat)
  | facetMissing (pairs : Nat)

/-- The placeholders of a clause. -/
def Clause.slots : Clause → Nat
  | .isIn _ values => values
  | .facetExists pairs => 2 * pairs
  | .facetMissing pairs => 2 * pairs

/-- `(f.namespace=? AND f.value=?) OR …`. -/
def pairHolds (f : FacetRow) : List String → Bool
  | facetNamespace :: value :: rest =>
    (f.facetNamespace == facetNamespace && f.value == value) || pairHolds f rest
  | _ => false

/-- `EXISTS (SELECT 1 FROM core_resource_facets rf JOIN core_facets f USING(facet_id) WHERE …)`. -/
def existsFacet (t : Tables) (resourceId : String) (values : List String) : Bool :=
  t.resourceFacets.any fun a => a.resourceId == resourceId &&
    t.facets.any fun f => f.facetId == a.facetId && pairHolds f values

def Clause.holds (t : Tables) (row : JoinedRow) : Clause → List String → Bool
  | .isIn column _, values => decide (row.get column ∈ values)
  | .facetExists _, values => existsFacet t row.resource.resourceId values
  | .facetMissing _, values => !existsFacet t row.resource.resourceId values

/-! ## Generated clauses -/

/-- The clauses and their values so far. -/
abbrev Clauses := List Clause × List String

def Clauses.add (acc : Clauses) (clause : Clause) (values : List String) : Clauses :=
  (acc.1 ++ [clause], acc.2 ++ values)

/-- `add_in`. -/
def addIn (column : Column) (values : List NonEmptyText) (acc : Clauses) : Clauses :=
  if values = [] then acc else acc.add (.isIn column values.length) (values.map (·.text))

def facetParams (facets : List Facet) : List String :=
  facets.flatMap fun f => [f.facetNamespace.text, f.value.text]

/-- `_scope_clauses`. -/
def scopeClauses (scope : SearchScope) : Clauses :=
  let acc : Clauses := ([], [])
  let acc := addIn .resourceKind scope.resourceKinds acc
  let acc := addIn .mediaType scope.mediaTypes acc
  let acc := addIn .sourceNamespace scope.sourceNamespaces acc
  let acc := addIn .representationKind scope.representationKinds acc
  let acc := addIn .modality scope.modalities acc
  let acc := addIn .unitKind scope.unitKinds acc
  let acc := if scope.facetsAny = [] then acc
    else acc.add (.facetExists scope.facetsAny.length) (facetParams scope.facetsAny)
  let acc := scope.facetsAll.foldl (fun acc f => acc.add (.facetExists 1) (facetParams [f])) acc
  if scope.facetsNone = [] then acc
  else acc.add (.facetMissing scope.facetsNone.length) (facetParams scope.facetsNone)

/-- The `WHERE` of a scope on one row; none when the values do not fit the placeholders. -/
def scopeHolds (t : Tables) (scope : SearchScope) (row : JoinedRow) : Option Bool :=
  evaluate Clause.slots (Clause.holds t row) (scopeClauses scope).1 (scopeClauses scope).2

/-- The units that a scope selects. -/
def scopedUnits (t : Tables) (scope : SearchScope) : List UnitRow :=
  ((joinedRows t).filter fun row => scopeHolds t scope row == some true).map (·.unit)

section Generation

variable {t : Tables} {row : JoinedRow} {acc : Clauses} {P : Prop} {scope : SearchScope}

/-- The clauses so far say `P` of the row. -/
def Says (t : Tables) (row : JoinedRow) (acc : Clauses) (P : Prop) : Prop :=
  ∃ b, evaluate Clause.slots (Clause.holds t row) acc.1 acc.2 = some b ∧ (b = true ↔ P)

theorem Says.add {clause : Clause} {values : List String} (h : Says t row acc P)
    (hslots : clause.slots = values.length) :
    Says t row (acc.add clause values) (P ∧ clause.holds t row values = true) := by
  obtain ⟨b, hb, hP⟩ := h
  refine ⟨_, evaluate_append hb hslots, ?_⟩
  rw [Bool.and_eq_true, hP]

theorem Says.congr {Q : Prop} (h : Says t row acc P) (hPQ : P ↔ Q) : Says t row acc Q := by
  obtain ⟨b, hb, hP⟩ := h
  exact ⟨b, hb, hP.trans hPQ⟩

/-- The column as an inclusion list sees it. -/
def ColumnIncluded (values : List NonEmptyText) (text : String) : Prop :=
  Included (values.map (·.text)) text

theorem Says.addIn (h : Says t row acc P) (column : Column) (values : List NonEmptyText) :
    Says t row (addIn column values acc) (P ∧ ColumnIncluded values (row.get column)) := by
  unfold MDRack.addIn ColumnIncluded Included
  split
  · rename_i hnil
    refine h.congr ?_
    simp [hnil]
  · rename_i hne
    refine (h.add (by simp [Clause.slots])).congr ?_
    simp [Clause.holds, hne]

theorem facetParams_length (facets : List Facet) : (facetParams facets).length = 2 * facets.length := by
  induction facets with
  | nil => rfl
  | cons f rest ih =>
    simp only [facetParams, List.flatMap_cons, List.length_append, List.length_cons] at ih ⊢
    simp only [List.length_nil]
    omega

theorem pairHolds_iff {f : FacetRow} {facets : List Facet} :
    pairHolds f (facetParams facets) = true ↔
      ∃ x ∈ facets, f.facetNamespace = x.facetNamespace.text ∧ f.value = x.value.text := by
  induction facets with
  | nil => simp [facetParams, pairHolds]
  | cons x rest ih =>
    simp only [facetParams, List.flatMap_cons, List.cons_append, List.nil_append] at ih ⊢
    rw [pairHolds, Bool.or_eq_true, ih]
    simp

/-- A facet row assigned to a resource. -/
def Assigned (t : Tables) (resourceId : String) (x : Facet) : Prop :=
  ∃ a ∈ t.resourceFacets, a.resourceId = resourceId ∧ ∃ f ∈ t.facets, f.facetId = a.facetId ∧
    f.facetNamespace = x.facetNamespace.text ∧ f.value = x.value.text

theorem existsFacet_iff {resourceId : String} {facets : List Facet} :
    existsFacet t resourceId (facetParams facets) = true ↔ ∃ x ∈ facets, Assigned t resourceId x := by
  simp only [existsFacet, List.any_eq_true, Bool.and_eq_true, beq_iff_eq, pairHolds_iff, Assigned]
  constructor
  · rintro ⟨a, ha, hid, f, hf, hfid, x, hx, hns, hvalue⟩
    exact ⟨x, hx, a, ha, hid, f, hf, hfid, hns, hvalue⟩
  · rintro ⟨x, hx, a, ha, hid, f, hf, hfid, hns, hvalue⟩
    exact ⟨a, ha, hid, f, hf, hfid, x, hx, hns, hvalue⟩

theorem Says.addAll (h : Says t row acc P) (facets : List Facet) :
    Says t row (facets.foldl (fun acc f => acc.add (.facetExists 1) (facetParams [f])) acc)
      (P ∧ ∀ x ∈ facets, Assigned t row.resource.resourceId x) := by
  induction facets generalizing acc P with
  | nil => exact h.congr (by simp)
  | cons x rest ih =>
    rw [List.foldl_cons]
    have hstep : Says t row (acc.add (.facetExists 1) (facetParams [x]))
        (P ∧ Assigned t row.resource.resourceId x) := by
      refine (h.add (by rw [facetParams_length]; rfl)).congr ?_
      rw [show Clause.holds t row (.facetExists 1) (facetParams [x]) =
        existsFacet t row.resource.resourceId (facetParams [x]) from rfl, existsFacet_iff]
      simp
    refine (ih hstep).congr ?_
    rw [List.forall_mem_cons, and_assoc]

theorem Says.addAny (h : Says t row acc P) (facets : List Facet) :
    Says t row
      (if facets = [] then acc else acc.add (.facetExists facets.length) (facetParams facets))
      (P ∧ (facets ≠ [] → ∃ x ∈ facets, Assigned t row.resource.resourceId x)) := by
  split
  · rename_i hnil
    refine h.congr ?_
    simp [hnil]
  · rename_i hne
    have hslots : Clause.slots (.facetExists facets.length) = (facetParams facets).length :=
      (facetParams_length facets).symm
    refine (h.add hslots).congr ?_
    rw [show Clause.holds t row (.facetExists facets.length) (facetParams facets) =
      existsFacet t row.resource.resourceId (facetParams facets) from rfl, existsFacet_iff]
    simp [hne]

theorem Says.addNone (h : Says t row acc P) (facets : List Facet) :
    Says t row
      (if facets = [] then acc else acc.add (.facetMissing facets.length) (facetParams facets))
      (P ∧ ∀ x ∈ facets, ¬ Assigned t row.resource.resourceId x) := by
  split
  · rename_i hnil
    refine h.congr ?_
    simp [hnil]
  · have hslots : Clause.slots (.facetMissing facets.length) = (facetParams facets).length :=
      (facetParams_length facets).symm
    refine (h.add hslots).congr ?_
    rw [show Clause.holds t row (.facetMissing facets.length) (facetParams facets) =
      !existsFacet t row.resource.resourceId (facetParams facets) from rfl, Bool.not_eq_true',
      ← Bool.not_eq_true, existsFacet_iff]
    simp

/-- What the clauses of a scope say of a row. -/
structure RowAdmitted (t : Tables) (scope : SearchScope) (row : JoinedRow) : Prop where
  resourceKind : ColumnIncluded scope.resourceKinds row.resource.resourceKind
  mediaType : ColumnIncluded scope.mediaTypes row.resource.mediaType
  sourceNamespace : ColumnIncluded scope.sourceNamespaces row.resource.sourceNamespace
  representationKind : ColumnIncluded scope.representationKinds row.representation.representationKind
  modality : ColumnIncluded scope.modalities row.unit.modality
  unitKind : ColumnIncluded scope.unitKinds row.unit.unitKind
  any : scope.facetsAny ≠ [] → ∃ x ∈ scope.facetsAny, Assigned t row.resource.resourceId x
  all : ∀ x ∈ scope.facetsAll, Assigned t row.resource.resourceId x
  none : ∀ x ∈ scope.facetsNone, ¬ Assigned t row.resource.resourceId x

/-- The values fit the placeholders, and the clauses hold exactly of the admitted rows. -/
theorem scopeClauses_holds (t : Tables) (scope : SearchScope) (row : JoinedRow) :
    Says t row (scopeClauses scope) (RowAdmitted t scope row) := by
  have hnil : Says t row ([], []) True := ⟨true, rfl, by simp⟩
  have hcolumns := hnil.addIn .resourceKind scope.resourceKinds
    |>.addIn .mediaType scope.mediaTypes
    |>.addIn .sourceNamespace scope.sourceNamespaces
    |>.addIn .representationKind scope.representationKinds
    |>.addIn .modality scope.modalities
    |>.addIn .unitKind scope.unitKinds
  have hfacets := hcolumns.addAny scope.facetsAny
    |>.addAll scope.facetsAll
    |>.addNone scope.facetsNone
  refine hfacets.congr ⟨?_, ?_⟩
  · rintro ⟨⟨⟨⟨⟨⟨⟨⟨⟨-, h₁⟩, h₂⟩, h₃⟩, h₄⟩, h₅⟩, h₆⟩, hany⟩, hall⟩, hnone⟩
    exact ⟨h₁, h₂, h₃, h₄, h₅, h₆, hany, hall, hnone⟩
  · rintro ⟨h₁, h₂, h₃, h₄, h₅, h₆, hany, hall, hnone⟩
    exact ⟨⟨⟨⟨⟨⟨⟨⟨⟨trivial, h₁⟩, h₂⟩, h₃⟩, h₄⟩, h₅⟩, h₆⟩, hany⟩, hall⟩, hnone⟩

theorem mem_scopedUnits {u : UnitRow} :
    u ∈ scopedUnits t scope ↔ ∃ row ∈ joinedRows t, RowAdmitted t scope row ∧ row.unit = u := by
  have hiff : ∀ row, (scopeHolds t scope row == some true) = true ↔ RowAdmitted t scope row := by
    intro row
    obtain ⟨b, hb, hP⟩ := scopeClauses_holds t scope row
    rw [scopeHolds, hb, beq_iff_eq, Option.some.injEq, hP]
  simp only [scopedUnits, List.mem_map, List.mem_filter, hiff, and_assoc]

end Generation

/-! ## Selected units of a catalog -/

section Catalog

variable {env : Env} {t : Tables} {p : Prepared} {scope : SearchScope}

theorem columnIncluded_iff {values : List NonEmptyText} {x : NonEmptyText} :
    ColumnIncluded values x.text ↔ Included values x := by
  have hmem : x.text ∈ values.map (·.text) ↔ x ∈ values := by
    simp only [List.mem_map]
    constructor
    · rintro ⟨y, hy, hxy⟩
      rwa [← NonEmptyText.ext_text hxy]
    · intro hx
      exact ⟨x, hx, rfl⟩
  simp only [ColumnIncluded, Included, hmem, ne_eq, List.map_eq_nil_iff]

theorem facet_of_texts {x y : Facet} (hns : x.facetNamespace.text = y.facetNamespace.text)
    (hvalue : x.value.text = y.value.text) : x = y := by
  cases x
  cases y
  rw [Facet.mk.injEq]
  exact ⟨NonEmptyText.ext_text hns, NonEmptyText.ext_text hvalue⟩

/-- The facets assigned to a stored resource are those of its graph. -/
theorem Stored.assigned (hp : IsPrepared env p) (hids : (t.facets.map (·.facetId)).Nodup)
    (hs : Stored t p) {x : Facet} :
    Assigned t p.resourceValues.resourceId x ↔ ∃ a ∈ p.batch.facets, a.facet = x := by
  have hvalues : p.batch.facets.map facetValues = facetsOf t p.resourceValues.resourceId :=
    (hp.facets.symm.trans hs.facets.symm)
  constructor
  · rintro ⟨a, ha, hid, f, hf, hfid, hns, hvalue⟩
    have hfind := Table.find?_eq_of_mem hids hf hfid
    have hjoin : joinFacet t.facets a = some ⟨f.facetNamespace, f.value, a.origin, a.producerIsNull,
        a.producerValue, a.confidenceJson⟩ := by
      rw [joinFacet, hfind, Option.map_some]
    have hmem : (⟨f.facetNamespace, f.value, a.origin, a.producerIsNull, a.producerValue,
        a.confidenceJson⟩ : FacetValues) ∈ p.batch.facets.map facetValues := by
      rw [hvalues]
      exact List.mem_filterMap.mpr ⟨a, List.mem_filter.mpr ⟨ha, decide_eq_true hid⟩, hjoin⟩
    obtain ⟨g, hg, hgf⟩ := List.mem_map.mp hmem
    simp only [facetValues, FacetValues.mk.injEq] at hgf
    exact ⟨g, hg, facet_of_texts (hgf.1.trans hns) (hgf.2.1.trans hvalue)⟩
  · rintro ⟨g, hg, rfl⟩
    have hmem : facetValues g ∈ facetsOf t p.resourceValues.resourceId := by
      rw [← hvalues]
      exact List.mem_map.mpr ⟨g, hg, rfl⟩
    obtain ⟨a, ha, hjoin⟩ := List.mem_filterMap.mp hmem
    obtain ⟨ha, hid⟩ := List.mem_filter.mp ha
    obtain ⟨f, hf, hfg⟩ := Option.map_eq_some_iff.mp hjoin
    simp only [facetValues, FacetValues.mk.injEq] at hfg
    refine ⟨a, ha, of_decide_eq_true hid, f, List.mem_of_find?_eq_some hf, ?_, hfg.1, hfg.2.1⟩
    simpa using List.find?_some hf

/-- A stored unit, joined with its representation and its resource. -/
structure JoinsTo (env : Env) (b : PreparedResourceBatch) (row : JoinedRow)
    (r : RepresentationRecord) (u : SearchUnitRecord) : Prop where
  unit : u ∈ b.units
  representation : r ∈ b.representations
  owner : r.representationId = u.representationId
  resource_row : row.resource = resourceRow env b.resource
  representation_row : row.representation = representationRow r
  unit_row : row.unit = unitRow u

/-- The clauses on a joined row are the scope on its unit. -/
theorem JoinsTo.admitted {row : JoinedRow} {r : RepresentationRecord} {u : SearchUnitRecord}
    (hj : JoinsTo env p.batch row r u) (hp : IsPrepared env p)
    (hids : (t.facets.map (·.facetId)).Nodup) (hs : Stored t p) :
    RowAdmitted t scope row ↔ scope.Admits (p.batch.subject r u) := by
  have hassigned : ∀ x, Assigned t row.resource.resourceId x ↔
      x ∈ (p.batch.subject r u).facets := by
    intro x
    rw [hj.resource_row, ← hp.resource]
    exact hs.assigned hp hids
  have hresource := hj.resource_row
  have hrepresentation := hj.representation_row
  have hunit := hj.unit_row
  constructor
  · rintro ⟨h₁, h₂, h₃, h₄, h₅, h₆, hany, hall, hnone⟩
    rw [hresource] at h₁ h₂ h₃
    rw [hrepresentation] at h₄
    rw [hunit] at h₅ h₆
    simp only [hassigned] at hany hall hnone
    refine ⟨⟨?_, ?_, ?_, ?_, ?_, ?_⟩, ⟨hany, hall, hnone⟩⟩
    · exact columnIncluded_iff.mp h₁
    · exact columnIncluded_iff.mp h₂
    · exact columnIncluded_iff.mp h₃
    · exact columnIncluded_iff.mp h₄
    · exact columnIncluded_iff.mp h₅
    · exact columnIncluded_iff.mp h₆
  · rintro ⟨⟨h₁, h₂, h₃, h₄, h₅, h₆⟩, ⟨hany, hall, hnone⟩⟩
    simp only [← hassigned] at hany hall hnone
    refine ⟨?_, ?_, ?_, ?_, ?_, ?_, hany, hall, hnone⟩
    · rw [hresource]
      exact columnIncluded_iff.mpr h₁
    · rw [hresource]
      exact columnIncluded_iff.mpr h₂
    · rw [hresource]
      exact columnIncluded_iff.mpr h₃
    · rw [hrepresentation]
      exact columnIncluded_iff.mpr h₄
    · rw [hunit]
      exact columnIncluded_iff.mpr h₅
    · rw [hunit]
      exact columnIncluded_iff.mpr h₆

theorem mem_joinedRows {row : JoinedRow} : row ∈ joinedRows t ↔
    row.unit ∈ t.units ∧ row.representation ∈ t.representations ∧ row.resource ∈ t.resources ∧
      row.representation.representationId = row.unit.representationId ∧
      row.resource.resourceId = row.unit.resourceId := by
  simp only [joinedRows, List.mem_flatMap, List.mem_map, List.mem_filter, decide_eq_true_eq]
  constructor
  · rintro ⟨u, hu, p, ⟨hp, hpu⟩, r, ⟨hr, hru⟩, rfl⟩
    exact ⟨hu, hp, hr, hpu, hru⟩
  · rintro ⟨hu, hp, hr, hpu, hru⟩
    exact ⟨_, hu, _, ⟨hp, hpu⟩, _, ⟨hr, hru⟩, rfl⟩

/-- A joined row is a unit of a stored batch. -/
theorem Coherent.joined (hc : Coherent env t) {row : JoinedRow} (hrow : row ∈ joinedRows t) :
    ∃ p r u, IsPrepared env p ∧ Stored t p ∧ JoinsTo env p.batch row r u := by
  obtain ⟨hunit, hrepresentation, hresource, howner, hid⟩ := mem_joinedRows.mp hrow
  obtain ⟨p, hp, hpr, hs⟩ := hc.stored _ hresource
  have hmem : row.unit ∈ p.batch.units.map unitRow := by
    rw [← hp.units, ← hs.units, hpr]
    exact List.mem_filter.mpr ⟨hunit, decide_eq_true hid.symm⟩
  obtain ⟨u, hu, hurow⟩ := List.mem_map.mp hmem
  obtain ⟨r, hr, hru, -⟩ := hp.valid.unit_representation u hu
  have hstored : representationRow r ∈ representationsOf t p.resourceValues.resourceId := by
    rw [hs.representations, hp.representations]
    exact List.mem_map.mpr ⟨r, hr, rfl⟩
  have hsame : row.representation = representationRow r := by
    refine Table.eq_of_key_eq hc.representation_ids hrepresentation (List.mem_filter.mp hstored).1 ?_
    rw [howner, ← hurow]
    exact (congrArg (·.text) hru).symm
  exact ⟨p, r, u, hp, hs, hu, hr, hru, hpr.symm.trans hp.resource, hsame, hurow.symm⟩

/-- A unit of a stored batch appears in the join. -/
theorem Stored.joins (hp : IsPrepared env p) (hs : Stored t p) {r : RepresentationRecord}
    {u : SearchUnitRecord} (hu : u ∈ p.batch.units) (hr : r ∈ p.batch.representations)
    (hru : r.representationId = u.representationId) :
    (⟨p.resourceValues, representationRow r, unitRow u⟩ : JoinedRow) ∈ joinedRows t := by
  have hunit : unitRow u ∈ unitsOf t p.resourceValues.resourceId := by
    rw [hs.units, hp.units]
    exact List.mem_map.mpr ⟨u, hu, rfl⟩
  have hrepresentation : representationRow r ∈ representationsOf t p.resourceValues.resourceId := by
    rw [hs.representations, hp.representations]
    exact List.mem_map.mpr ⟨r, hr, rfl⟩
  refine mem_joinedRows.mpr ⟨(List.mem_filter.mp hunit).1, (List.mem_filter.mp hrepresentation).1,
    List.mem_of_find?_eq_some hs.resource, congrArg (·.text) hru, ?_⟩
  exact (of_decide_eq_true (List.mem_filter.mp hunit).2).symm

/-- The order of the parts does not matter to a scope. -/
theorem SameGraph.admitsUnit {a b : PreparedResourceBatch} (h : SameGraph a b)
    (u : SearchUnitRecord) : scope.AdmitsUnit b u ↔ scope.AdmitsUnit a u := by
  have hsubject : ∀ r, b.subject r u = a.subject r u := by
    intro r
    simp only [PreparedResourceBatch.subject, h.resource, h.facets.mem_iff]
  simp only [SearchScope.AdmitsUnit, h.units.mem_iff, h.representations.mem_iff, hsubject]

/-- The units that the clauses select are those of stored graphs that the scope admits. -/
theorem scopedUnits_iff (hc : Coherent env t) {row : UnitRow} :
    row ∈ scopedUnits t scope ↔ ∃ id b u, readGraph env t id = .ok (some b) ∧
      scope.AdmitsUnit b u ∧ unitRow u = row := by
  rw [mem_scopedUnits]
  constructor
  · rintro ⟨joined, hjoined, hadmitted, rfl⟩
    obtain ⟨p, r, u, hp, hs, hj⟩ := hc.joined hjoined
    refine ⟨_, _, u, readGraph_normalForm hp hs hc.space_ids, ?_, hj.unit_row.symm⟩
    rw [hp.valid.normalForm_same.admitsUnit]
    exact ⟨hj.unit, r, hj.representation, hj.owner, (hj.admitted hp hc.facet_ids hs).mp hadmitted⟩
  · rintro ⟨id, b, u, hread, hadmits, rfl⟩
    obtain ⟨p, hp, hs, -, rfl⟩ := hc.graph_stored hread
    obtain ⟨hu, r, hr, hru, hscope⟩ := hp.valid.normalForm_same.admitsUnit u |>.mp hadmits
    refine ⟨_, hs.joins hp hu hr hru, ?_, rfl⟩
    have hj : JoinsTo env p.batch ⟨p.resourceValues, representationRow r, unitRow u⟩ r u :=
      ⟨hu, hr, hru, hp.resource, rfl, rfl⟩
    exact (hj.admitted hp hc.facet_ids hs).mpr hscope

/-- A unit is selected once. -/
theorem scopedUnits_ids (hc : Coherent env t) :
    ((scopedUnits t scope).map (·.unitId)).Nodup := by
  have hjoined : ∀ u : UnitRow,
      (((t.representations.filter fun p => p.representationId = u.representationId).flatMap fun p =>
        (t.resources.filter fun r => r.resourceId = u.resourceId).map fun r =>
          (⟨r, p, u⟩ : JoinedRow)).map fun row => row.unit.unitId).Sublist [u.unitId] := by
    intro u
    rcases Table.filter_key_unique hc.representation_ids u.representationId with hp | ⟨p, hp⟩ <;>
      rcases Table.filter_key_unique hc.resource_ids u.resourceId with hr | ⟨r, hr⟩ <;>
      simp [hp, hr]
  have hrows : ((joinedRows t).map fun row => row.unit.unitId).Sublist (t.units.map (·.unitId)) := by
    unfold joinedRows
    induction t.units with
    | nil => exact .slnil
    | cons u rest ih =>
      rw [List.flatMap_cons, List.map_append, List.map_cons]
      exact (hjoined u).append ih
  unfold scopedUnits
  rw [List.map_map]
  exact Table.nodup_map_filter _ (hc.unit_ids.sublist hrows)

end Catalog

end MDRack
