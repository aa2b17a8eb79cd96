import MDRack.Sqlite.Store

/-!
# Coherent catalogs and removal of a resource

`Coherent` is the invariant of the graph tables: keys are distinct, references hold, every stored
resource is a prepared batch, and the full-text rows are those of the units.

Principal results: `removeRows_eq` — deleting the full-text rows and then the resource row, with
its cascades, removes exactly the rows of that resource; `Coherent.without` — what is left is
coherent.
-/

namespace MDRack

open Checks Transaction

/-- The full-text rows that the units call for. -/
def expectedFts (units : List UnitRow) : List FtsRow :=
  units.filterMap fun u => ftsRow? u.unitId u.textContent

structure Coherent (env : Env) (t : Tables) : Prop where
  resource_ids : (t.resources.map (·.resourceId)).Nodup
  representation_ids : (t.representations.map (·.representationId)).Nodup
  unit_ids : (t.units.map (·.unitId)).Nodup
  space_ids : (t.spaces.map (·.spaceId)).Nodup
  facet_ids : (t.facets.map (·.facetId)).Nodup
  references : foreignKeysHold t
  stored : ∀ row ∈ t.resources, ∃ p, IsPrepared env p ∧ p.resourceValues = row ∧ Stored t p
  fts : t.fts.Perm (expectedFts t.units)

theorem coherent_empty (env : Env) : Coherent env Tables.empty := by
  constructor <;> simp [Tables.empty, foreignKeysHold, expectedFts]

theorem ftsRow?_unitId {unitId : String} {text : Option String} {row : FtsRow}
    (h : ftsRow? unitId text = some row) : row.unitId = unitId := by
  unfold ftsRow? at h
  split at h
  · split at h
    · rw [← Option.some.inj h]
    · cases h
  · cases h

/-- The tables without the rows of one resource. -/
def Tables.without (t : Tables) (id : String) : Tables :=
  { t with
    resources := t.resources.filter fun r => !decide (r.resourceId = id)
    representations := t.representations.filter fun p => !decide (p.resourceId = id)
    units := t.units.filter fun u => !decide (u.resourceId = id)
    embeddings := t.embeddings.filter fun e => !(unitsOf t id).any fun u => u.unitId = e.unitId
    resourceFacets := t.resourceFacets.filter fun a => !decide (a.resourceId = id)
    fts := t.fts.filter fun f => !(unitsOf t id).any fun u => u.unitId = f.unitId }

section Removal

variable {env : Env} {t t₁ t₂ : Tables} {id : String}

/-- A child of a deleted resource is a child of that resource. -/
theorem gone_iff {child : String} (howner : ∃ r ∈ t.resources, r.resourceId = child) :
    ((t.resources.filter fun r => r.resourceId = id).any fun r => r.resourceId = child) =
      decide (child = id) := by
  rw [Bool.eq_iff_iff]
  simp only [List.any_eq_true, List.mem_filter, decide_eq_true_eq]
  constructor
  · rintro ⟨r, ⟨-, hr⟩, hc⟩
    rw [← hc, hr]
  · intro hc
    obtain ⟨r, hr, hrc⟩ := howner
    exact ⟨r, ⟨hr, by rw [hrc, hc]⟩, hrc⟩

theorem removeRows_eq (href : foreignKeysHold t) (h₁ : deleteFts id t = .ok t₁)
    (h₂ : deleteResourceRow id t₁ = .ok t₂) : t₂ = t.without id := by
  obtain ⟨hrep, hunit, -, hfacet⟩ := href
  cases h₁
  cases h₂
  have hgone : ∀ p ∈ t.representations,
      ((t.resources.filter fun r => r.resourceId = id).any fun r => r.resourceId = p.resourceId) =
        decide (p.resourceId = id) := fun p hp => gone_iff (hrep p hp)
  have hgoneReps : (t.representations.filter fun p =>
      (t.resources.filter fun r => r.resourceId = id).any fun r => r.resourceId = p.resourceId) =
      t.representations.filter fun p => decide (p.resourceId = id) :=
    List.filter_congr hgone
  have hgoneUnit : ∀ u ∈ t.units,
      ((t.representations.filter fun p => decide (p.resourceId = id)).any fun p =>
        decide (p.resourceId = u.resourceId ∧ p.representationId = u.representationId)) =
        decide (u.resourceId = id) := by
    intro u hu
    rw [Bool.eq_iff_iff]
    simp only [List.any_eq_true, List.mem_filter, decide_eq_true_eq]
    constructor
    · rintro ⟨p, ⟨-, hp⟩, hpu, -⟩
      rw [← hpu, hp]
    · intro huid
      obtain ⟨p, hp, hpu, hpr⟩ := hunit u hu
      exact ⟨p, ⟨hp, by rw [hpu, huid]⟩, hpu, hpr⟩
  unfold Tables.without
  rw [Tables.mk.injEq]
  refine ⟨rfl, ?_, ?_, rfl, ?_, rfl, ?_, ?_, rfl⟩
  · exact List.filter_congr fun p hp => congrArg not (hgone p hp)
  · simp only [hgoneReps]
    exact List.filter_congr fun u hu => congrArg not (hgoneUnit u hu)
  · simp only [hgoneReps]
    have hunits : (t.units.filter fun u =>
        (t.representations.filter fun p => decide (p.resourceId = id)).any fun p =>
          decide (p.resourceId = u.resourceId ∧ p.representationId = u.representationId)) =
        unitsOf t id := List.filter_congr hgoneUnit
    rw [hunits]
  · exact List.filter_congr fun a ha => congrArg not (gone_iff (hfacet a ha).1)
  · refine List.filter_congr fun f _ => ?_
    congr 1
    rw [Bool.eq_iff_iff]
    simp only [unitsOf, List.any_eq_true, List.mem_filter, decide_eq_true_eq]
    exact ⟨fun ⟨u, hu, h1, h2⟩ => ⟨u, ⟨hu, h1⟩, h2⟩, fun ⟨u, ⟨hu, h1⟩, h2⟩ => ⟨u, hu, h1, h2⟩⟩

/-- With distinct unit ids, a unit id belongs to the resource of its unit. -/
theorem unitsOf_any (hids : (t.units.map (·.unitId)).Nodup) (id : String) {u : UnitRow}
    (hu : u ∈ t.units) :
    ((unitsOf t id).any fun v => v.unitId = u.unitId) = decide (u.resourceId = id) := by
  rw [Bool.eq_iff_iff]
  simp only [unitsOf, List.any_eq_true, List.mem_filter, decide_eq_true_eq]
  constructor
  · rintro ⟨v, ⟨hv, hvid⟩, hvu⟩
    rw [← Table.eq_of_key_eq hids hv hu hvu, hvid]
  · intro huid
    exact ⟨u, ⟨hu, huid⟩, rfl⟩

/-- An embedding of another resource does not go with this one. -/
theorem embeddingsOf_without (hids : (t.units.map (·.unitId)).Nodup) {other : String}
    (hne : other ≠ id) : embeddingsOf (t.without id) other = embeddingsOf t other := by
  have hunits : unitsOf (t.without id) other = unitsOf t other :=
    Table.filter_without_other hne t.units
  unfold embeddingsOf
  rw [hunits]
  simp only [Tables.without, List.filter_filter]
  refine List.filter_congr fun e _ => ?_
  cases hother : (unitsOf t other).any fun u => u.unitId = e.unitId with
  | false => rfl
  | true =>
    obtain ⟨u, hu, hue⟩ := List.any_eq_true.mp hother
    obtain ⟨hmem, huother⟩ := List.mem_filter.mp hu
    rw [decide_eq_true_eq] at hue huother
    have hown := unitsOf_any hids id hmem
    rw [hue] at hown
    simp [hown, huother, hne]

/-- Removing one resource keeps what is stored of another. -/
theorem Stored.without {p : Prepared} (h : Stored t p) (hids : (t.units.map (·.unitId)).Nodup)
    (hne : p.resourceValues.resourceId ≠ id) : Stored (t.without id) p where
  resource := by
    rw [← h.resource]
    simp only [Tables.without, List.find?_filter]
    congr 1
    funext r
    by_cases hr : r.resourceId = p.resourceValues.resourceId
    · simp [hr, hne]
    · simp [hr]
  representations := (Table.filter_without_other hne t.representations).trans h.representations
  units := (Table.filter_without_other hne t.units).trans h.units
  embeddings := (embeddingsOf_without hids hne).trans h.embeddings
  facets := by
    rw [← h.facets]
    unfold facetsOf
    congr 1
    exact Table.filter_without_other hne t.resourceFacets
  joined a ha := by
    refine h.joined a ?_
    rwa [← show resourceFacetsOf (t.without id) _ = resourceFacetsOf t _ from
      Table.filter_without_other hne t.resourceFacets]
  spaces := h.spaces

theorem expectedFts_without (hids : (t.units.map (·.unitId)).Nodup) :
    (expectedFts t.units).filter (fun f => !(unitsOf t id).any fun u => u.unitId = f.unitId) =
      expectedFts (t.units.filter fun u => !decide (u.resourceId = id)) := by
  unfold expectedFts
  rw [List.filter_filterMap, List.filterMap_filter]
  refine List.filterMap_congr fun u hu => ?_
  cases hrow : ftsRow? u.unitId u.textContent with
  | none => simp
  | some row =>
    have hown := unitsOf_any hids id hu
    rw [← ftsRow?_unitId hrow] at hown
    by_cases huid : u.resourceId = id <;> simp [hown, huid, Option.filter]

theorem references_without (h : foreignKeysHold t) (hids : (t.units.map (·.unitId)).Nodup) :
    foreignKeysHold (t.without id) := by
  obtain ⟨hrep, hunit, hembedding, hfacet⟩ := h
  refine ⟨?_, ?_, ?_, ?_⟩
  · intro p hp
    obtain ⟨hp, hpid⟩ := List.mem_filter.mp hp
    obtain ⟨r, hr, hrp⟩ := hrep p hp
    exact ⟨r, List.mem_filter.mpr ⟨hr, by rwa [hrp]⟩, hrp⟩
  · intro u hu
    obtain ⟨hu, huid⟩ := List.mem_filter.mp hu
    obtain ⟨p, hp, hpu, hpr⟩ := hunit u hu
    exact ⟨p, List.mem_filter.mpr ⟨hp, by rwa [hpu]⟩, hpu, hpr⟩
  · intro e he
    obtain ⟨he, hekeep⟩ := List.mem_filter.mp he
    obtain ⟨⟨u, hu, hue⟩, hspace⟩ := hembedding e he
    refine ⟨⟨u, List.mem_filter.mpr ⟨hu, ?_⟩, hue⟩, hspace⟩
    rwa [← hue, unitsOf_any hids id hu] at hekeep
  · intro a ha
    obtain ⟨ha, haid⟩ := List.mem_filter.mp ha
    obtain ⟨⟨r, hr, hra⟩, hf⟩ := hfacet a ha
    exact ⟨⟨r, List.mem_filter.mpr ⟨hr, by rwa [hra]⟩, hra⟩, hf⟩

theorem Coherent.without (h : Coherent env t) (id : String) : Coherent env (t.without id) where
  resource_ids := Table.nodup_map_filter _ h.resource_ids
  representation_ids := Table.nodup_map_filter _ h.representation_ids
  unit_ids := Table.nodup_map_filter _ h.unit_ids
  space_ids := h.space_ids
  facet_ids := h.facet_ids
  references := references_without h.references h.unit_ids
  stored row hrow := by
    obtain ⟨hrow, hid⟩ := List.mem_filter.mp hrow
    obtain ⟨p, hp, hpr, hs⟩ := h.stored row hrow
    refine ⟨p, hp, hpr, hs.without h.unit_ids ?_⟩
    rw [hpr]
    simpa using hid
  fts := by
    rw [show (t.without id).units = t.units.filter fun u => !decide (u.resourceId = id) from rfl,
      ← expectedFts_without h.unit_ids]
    exact h.fts.filter _

end Removal

end MDRack
