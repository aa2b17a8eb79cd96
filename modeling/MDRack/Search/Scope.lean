import MDRack.Core.Validation
import MDRack.Lib.Selection

/-!
# Search scopes (`mdrack_core.domain.search`, `RetrievalService._effective_scope`)

A scope restricts six fields of a unit by inclusion lists and its resource by facets.  `Admits` is
the meaning of a scope; the search code of the catalog and of the media retriever is compared with
it.

Principal results: `effectiveScope_some` — a branch searches what both scopes admit;
`effectiveScope_none` — an unsatisfiable branch is one that no unit can satisfy.
-/

namespace MDRack

open Selection

/-- Categorical-only branch narrowing. -/
structure BranchScopeOverride where
  resourceKinds : List NonEmptyText
  mediaTypes : List NonEmptyText
  sourceNamespaces : List NonEmptyText
  representationKinds : List NonEmptyText
  modalities : List NonEmptyText
  unitKinds : List NonEmptyText

/-- The categorical fields of a branch, and the facet clauses. -/
structure SearchScope extends BranchScopeOverride where
  facetsAny : List Facet
  facetsAll : List Facet
  facetsNone : List Facet

/-- `SearchScope()`. -/
def SearchScope.everything : SearchScope := ⟨⟨[], [], [], [], [], []⟩, [], [], []⟩

/-! ## What a scope means -/

/-- A unit as a scope sees it. -/
structure Subject where
  resourceKind : NonEmptyText
  mediaType : NonEmptyText
  sourceNamespace : NonEmptyText
  representationKind : NonEmptyText
  modality : NonEmptyText
  unitKind : NonEmptyText
  facets : Set Facet

/-- Every inclusion list admits its field. -/
structure BranchScopeOverride.Includes (scope : BranchScopeOverride) (x : Subject) : Prop where
  resourceKind : Included scope.resourceKinds x.resourceKind
  mediaType : Included scope.mediaTypes x.mediaType
  sourceNamespace : Included scope.sourceNamespaces x.sourceNamespace
  representationKind : Included scope.representationKinds x.representationKind
  modality : Included scope.modalities x.modality
  unitKind : Included scope.unitKinds x.unitKind

/-- Some facet of `facets_any`, all of `facets_all` and none of `facets_none`. -/
structure SearchScope.AdmitsFacets (scope : SearchScope) (facets : Set Facet) : Prop where
  any : scope.facetsAny ≠ [] → ∃ f ∈ scope.facetsAny, f ∈ facets
  all : ∀ f ∈ scope.facetsAll, f ∈ facets
  none : ∀ f ∈ scope.facetsNone, f ∉ facets

structure SearchScope.Admits (scope : SearchScope) (x : Subject) : Prop where
  includes : scope.Includes x
  facets : scope.AdmitsFacets x.facets

/-- A unit of a graph, with its representation. -/
def PreparedResourceBatch.subject (b : PreparedResourceBatch) (p : RepresentationRecord)
    (u : SearchUnitRecord) : Subject where
  resourceKind := b.resource.resourceKind
  mediaType := b.resource.mediaType
  sourceNamespace := b.resource.sourceNamespace
  representationKind := p.representationKind
  modality := u.modality
  unitKind := u.unitKind
  facets := { f | ∃ a ∈ b.facets, a.facet = f }

/-- A unit of a graph that a scope admits. -/
def SearchScope.AdmitsUnit (scope : SearchScope) (b : PreparedResourceBatch)
    (u : SearchUnitRecord) : Prop :=
  u ∈ b.units ∧ ∃ p ∈ b.representations, p.representationId = u.representationId ∧
    scope.Admits (b.subject p u)

/-! ## Intersection of scopes -/

/-- `_effective_scope`. -/
def effectiveScope (globalScope : SearchScope) : Option BranchScopeOverride → Option SearchScope
  | none => some globalScope
  | some branch => do
    let resourceKinds ← narrow globalScope.resourceKinds branch.resourceKinds
    let mediaTypes ← narrow globalScope.mediaTypes branch.mediaTypes
    let sourceNamespaces ← narrow globalScope.sourceNamespaces branch.sourceNamespaces
    let representationKinds ← narrow globalScope.representationKinds branch.representationKinds
    let modalities ← narrow globalScope.modalities branch.modalities
    let unitKinds ← narrow globalScope.unitKinds branch.unitKinds
    some ⟨⟨resourceKinds, mediaTypes, sourceNamespaces, representationKinds, modalities, unitKinds⟩,
      globalScope.facetsAny, globalScope.facetsAll, globalScope.facetsNone⟩

section Intersection

variable {globalScope scope : SearchScope} {branch : BranchScopeOverride}

/-- An effective scope holds the intersection field by field and the facets verbatim. -/
structure Narrowed (globalScope : SearchScope) (branch : BranchScopeOverride)
    (scope : SearchScope) : Prop where
  resourceKinds : narrow globalScope.resourceKinds branch.resourceKinds = some scope.resourceKinds
  mediaTypes : narrow globalScope.mediaTypes branch.mediaTypes = some scope.mediaTypes
  sourceNamespaces :
    narrow globalScope.sourceNamespaces branch.sourceNamespaces = some scope.sourceNamespaces
  representationKinds : narrow globalScope.representationKinds branch.representationKinds =
    some scope.representationKinds
  modalities : narrow globalScope.modalities branch.modalities = some scope.modalities
  unitKinds : narrow globalScope.unitKinds branch.unitKinds = some scope.unitKinds
  facetsAny : scope.facetsAny = globalScope.facetsAny
  facetsAll : scope.facetsAll = globalScope.facetsAll
  facetsNone : scope.facetsNone = globalScope.facetsNone

theorem effectiveScope_narrowed :
    effectiveScope globalScope (some branch) = some scope ↔ Narrowed globalScope branch scope := by
  simp only [effectiveScope, Option.bind_eq_bind, Option.bind_eq_some_iff, Option.some.injEq]
  constructor
  · rintro ⟨_, h₁, _, h₂, _, h₃, _, h₄, _, h₅, _, h₆, rfl⟩
    exact ⟨h₁, h₂, h₃, h₄, h₅, h₆, rfl, rfl, rfl⟩
  · rintro ⟨h₁, h₂, h₃, h₄, h₅, h₆, hany, hall, hnone⟩
    exact ⟨_, h₁, _, h₂, _, h₃, _, h₄, _, h₅, _, h₆, by rw [← hany, ← hall, ← hnone]⟩

theorem Narrowed.includes (h : Narrowed globalScope branch scope) (x : Subject) :
    scope.Includes x ↔ globalScope.Includes x ∧ branch.Includes x := by
  have h₁ := narrow_some h.resourceKinds x.resourceKind
  have h₂ := narrow_some h.mediaTypes x.mediaType
  have h₃ := narrow_some h.sourceNamespaces x.sourceNamespace
  have h₄ := narrow_some h.representationKinds x.representationKind
  have h₅ := narrow_some h.modalities x.modality
  have h₆ := narrow_some h.unitKinds x.unitKind
  constructor
  · rintro ⟨g₁, g₂, g₃, g₄, g₅, g₆⟩
    exact ⟨⟨(h₁.mp g₁).1, (h₂.mp g₂).1, (h₃.mp g₃).1, (h₄.mp g₄).1, (h₅.mp g₅).1, (h₆.mp g₆).1⟩,
      ⟨(h₁.mp g₁).2, (h₂.mp g₂).2, (h₃.mp g₃).2, (h₄.mp g₄).2, (h₅.mp g₅).2, (h₆.mp g₆).2⟩⟩
  · rintro ⟨⟨g₁, g₂, g₃, g₄, g₅, g₆⟩, ⟨k₁, k₂, k₃, k₄, k₅, k₆⟩⟩
    exact ⟨h₁.mpr ⟨g₁, k₁⟩, h₂.mpr ⟨g₂, k₂⟩, h₃.mpr ⟨g₃, k₃⟩, h₄.mpr ⟨g₄, k₄⟩, h₅.mpr ⟨g₅, k₅⟩,
      h₆.mpr ⟨g₆, k₆⟩⟩

theorem Narrowed.admitsFacets (h : Narrowed globalScope branch scope) (facets : Set Facet) :
    scope.AdmitsFacets facets ↔ globalScope.AdmitsFacets facets := by
  constructor
  · rintro ⟨hany, hall, hnone⟩
    rw [h.facetsAny] at hany
    rw [h.facetsAll] at hall
    rw [h.facetsNone] at hnone
    exact ⟨hany, hall, hnone⟩
  · rintro ⟨hany, hall, hnone⟩
    rw [← h.facetsAny] at hany
    rw [← h.facetsAll] at hall
    rw [← h.facetsNone] at hnone
    exact ⟨hany, hall, hnone⟩

/-- A branch searches exactly what the request and the branch both admit. -/
theorem effectiveScope_some (h : effectiveScope globalScope (some branch) = some scope)
    (x : Subject) : scope.Admits x ↔ globalScope.Admits x ∧ branch.Includes x := by
  have hn := effectiveScope_narrowed.mp h
  constructor
  · rintro ⟨hincludes, hfacets⟩
    obtain ⟨hglobal, hbranch⟩ := (hn.includes x).mp hincludes
    exact ⟨⟨hglobal, (hn.admitsFacets _).mp hfacets⟩, hbranch⟩
  · rintro ⟨⟨hglobal, hfacets⟩, hbranch⟩
    exact ⟨(hn.includes x).mpr ⟨hglobal, hbranch⟩, (hn.admitsFacets _).mpr hfacets⟩

/-- An effective scope leaves a value for each field. -/
theorem Narrowed.inhabited (h : Narrowed globalScope branch scope) (any : NonEmptyText) :
    ∃ x : Subject, globalScope.Includes x ∧ branch.Includes x := by
  obtain ⟨a, ha, ha'⟩ := narrow_inhabited h.resourceKinds any
  obtain ⟨b, hb, hb'⟩ := narrow_inhabited h.mediaTypes any
  obtain ⟨c, hc, hc'⟩ := narrow_inhabited h.sourceNamespaces any
  obtain ⟨d, hd, hd'⟩ := narrow_inhabited h.representationKinds any
  obtain ⟨e, he, he'⟩ := narrow_inhabited h.modalities any
  obtain ⟨f, hf, hf'⟩ := narrow_inhabited h.unitKinds any
  exact ⟨⟨a, b, c, d, e, f, ∅⟩, ⟨ha, hb, hc, hd, he, hf⟩, ⟨ha', hb', hc', hd', he', hf'⟩⟩

/-- A unit that both inclusion lists admit is in the intersection. -/
theorem narrow_of_included {outer inner : List NonEmptyText} {x : NonEmptyText}
    (hx : Included outer x) (hx' : Included inner x) : ∃ values, narrow outer inner = some values := by
  cases h : narrow outer inner with
  | none => exact absurd ⟨hx, hx'⟩ (narrow_none h x)
  | some values => exact ⟨values, rfl⟩

theorem effectiveScope_of_includes {x : Subject} (hglobal : globalScope.Includes x)
    (hbranch : branch.Includes x) : ∃ scope, effectiveScope globalScope (some branch) = some scope := by
  obtain ⟨a, ha⟩ := narrow_of_included hglobal.resourceKind hbranch.resourceKind
  obtain ⟨b, hb⟩ := narrow_of_included hglobal.mediaType hbranch.mediaType
  obtain ⟨c, hc⟩ := narrow_of_included hglobal.sourceNamespace hbranch.sourceNamespace
  obtain ⟨d, hd⟩ := narrow_of_included hglobal.representationKind hbranch.representationKind
  obtain ⟨e, he⟩ := narrow_of_included hglobal.modality hbranch.modality
  obtain ⟨f, hf⟩ := narrow_of_included hglobal.unitKind hbranch.unitKind
  exact ⟨⟨⟨a, b, c, d, e, f⟩, globalScope.facetsAny, globalScope.facetsAll, globalScope.facetsNone⟩,
    effectiveScope_narrowed.mpr ⟨ha, hb, hc, hd, he, hf, rfl, rfl, rfl⟩⟩

end Intersection

/-! ## A graph around a unit -/

section Example

/-- A graph of one unit with the given fields. -/
def Subject.batch (x : Subject) (locator : Locator) : PreparedResourceBatch where
  resource := ⟨x.unitKind, x.resourceKind, x.mediaType, x.sourceNamespace, locator, none, none, .empty⟩
  representations :=
    [⟨x.unitKind, x.unitKind, x.representationKind, x.modality, none, none, none, none, .empty⟩]
  units := [⟨x.unitKind, x.unitKind, x.unitKind, x.unitKind, x.modality, some x.unitKind.text, locator,
    0, none, .empty⟩]
  spaces := []
  vectors := []
  facets := []

theorem Subject.batch_valid (x : Subject) (locator : Locator) : ValidBatch (x.batch locator) where
  representations_ne := List.cons_ne_nil _ _
  units_ne := List.cons_ne_nil _ _
  representation_ids := by simp [batch]
  unit_ids := by simp [batch]
  space_ids := by simp [batch]
  vector_keys := by simp [batch]
  facet_keys := by simp [batch]
  representation_owner := by simp [batch]
  unit_owner := by simp [batch]
  unit_representation := by simp [batch]
  vector_unit := by simp [batch]
  vector_space := by simp [batch]
  represented := by simp [batch]
  searchable := by
    intro u hu
    rw [List.mem_singleton.mp hu]
    exact .inl x.unitKind.visible
  facet_owner := by simp [batch]

end Example

/-- No unit of any graph is within two scopes. -/
def Unsatisfiable (globalScope : SearchScope) (branch : BranchScopeOverride) : Prop :=
  ∀ b : PreparedResourceBatch, ValidBatch b → ∀ u ∈ b.units, ∀ p ∈ b.representations,
    p.representationId = u.representationId →
    ¬ (globalScope.Includes (b.subject p u) ∧ branch.Includes (b.subject p u))

/-- A branch is reported unsatisfiable exactly when no unit could be within both scopes. -/
theorem effectiveScope_none {globalScope : SearchScope} {branch : BranchScopeOverride} :
    effectiveScope globalScope (some branch) = none ↔ Unsatisfiable globalScope branch := by
  constructor
  · rintro h b - u - p - - ⟨hglobal, hbranch⟩
    obtain ⟨scope, hscope⟩ := effectiveScope_of_includes hglobal hbranch
    rw [h] at hscope
    cases hscope
  · intro h
    cases hscope : effectiveScope globalScope (some branch) with
    | none => rfl
    | some scope =>
      obtain ⟨x, hglobal, hbranch⟩ := (effectiveScope_narrowed.mp hscope).inhabited ⟨"x", Eq.refl true⟩
      let locator : Locator := ⟨⟨"x", Eq.refl true⟩, .empty⟩
      refine absurd ⟨?_, ?_⟩ (h (x.batch locator) (x.batch_valid locator) _ (List.mem_singleton_self _) _
        (List.mem_singleton_self _) rfl)
      · exact ⟨hglobal.1, hglobal.2, hglobal.3, hglobal.4, hglobal.5, hglobal.6⟩
      · exact ⟨hbranch.1, hbranch.2, hbranch.3, hbranch.4, hbranch.5, hbranch.6⟩

end MDRack
