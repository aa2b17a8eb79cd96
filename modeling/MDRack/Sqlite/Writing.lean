import MDRack.Sqlite.Coherence

/-!
# Writing a prepared graph

What the statements of `_write_graph` leave behind, table by table.

Principal result: `writeGraph_written` — when `_write_graph` ends, the graph of the resource is the
prepared one, every other stored graph is as it was, and the catalog is coherent with no unused
facet.
-/

namespace MDRack

open Checks Transaction

/-! ## Insert loops -/

def representationColumn : Table.Column Tables RepresentationRow where
  get t := t.representations
  put t rows := { t with representations := rows }
  get_put _ _ := rfl
  put_get _ := rfl
  put_put _ _ _ := rfl

def unitColumn : Table.Column Tables UnitRow where
  get t := t.units
  put t rows := { t with units := rows }
  get_put _ _ := rfl
  put_get _ := rfl
  put_put _ _ _ := rfl

def embeddingColumn : Table.Column Tables EmbeddingRow where
  get t := t.embeddings
  put t rows := { t with embeddings := rows }
  get_put _ _ := rfl
  put_get _ := rfl
  put_put _ _ _ := rfl

def ftsColumn : Table.Column Tables FtsRow where
  get t := t.fts
  put t rows := { t with fts := rows }
  get_put _ _ := rfl
  put_get _ := rfl
  put_put _ _ _ := rfl

theorem insertResource_ok {row : ResourceRow} {t t' : Tables} (h : insertResource row t = .ok t') :
    t' = { t with resources := t.resources ++ [row] } ∧
      ∀ r ∈ t.resources, r.resourceId ≠ row.resourceId := by
  simp only [insertResource, bind_ok, require_ok, Except.ok.injEq, exists_const] at h
  exact ⟨h.2.2.2.symm, h.2.1⟩

theorem insertRepresentation_ok (t : Tables) (row : RepresentationRow) (t' : Tables)
    (h : insertRepresentation row t = .ok t') :
    t' = { t with representations := t.representations ++ [row] } ∧
      ∀ p ∈ t.representations, p.representationId ≠ row.representationId := by
  simp only [insertRepresentation, bind_ok, require_ok, Except.ok.injEq, exists_const] at h
  exact ⟨h.2.2.2.2.2.symm, h.2.2.2.1⟩

theorem insertUnit_ok (t : Tables) (row : UnitRow) (t' : Tables) (h : insertUnit row t = .ok t') :
    t' = { t with units := t.units ++ [row] } ∧ ∀ u ∈ t.units, u.unitId ≠ row.unitId := by
  simp only [insertUnit, bind_ok, require_ok, Except.ok.injEq, exists_const] at h
  exact ⟨h.2.2.2.2.2.2.symm, h.2.2.2.1⟩

theorem insertEmbedding_ok (t : Tables) (row : EmbeddingRow) (t' : Tables)
    (h : insertEmbedding row t = .ok t') :
    t' = { t with embeddings := t.embeddings ++ [row] } := by
  simp only [insertEmbedding, bind_ok, require_ok, Except.ok.injEq, exists_const] at h
  exact h.2.2.2.2.symm

/-- Spaces are only added, and the prepared ones are there afterwards. -/
theorem insertSpaces_ok {rows : List SpaceRow} {t t' : Tables}
    (h : rows.foldlM (fun t row => insertSpace row t) t = .ok t')
    (hrows : (rows.map (·.spaceId)).Nodup) (hids : (t.spaces.map (·.spaceId)).Nodup)
    (hsame : ∀ row ∈ rows, ∀ s ∈ t.spaces, s.spaceId = row.spaceId → s = row) :
    ∃ added, t' = { t with spaces := t.spaces ++ added } ∧
      ((t.spaces ++ added).map (·.spaceId)).Nodup ∧ ∀ row ∈ rows, row ∈ t.spaces ++ added := by
  induction rows generalizing t with
  | nil =>
    cases h
    exact ⟨[], by rw [List.append_nil], by rwa [List.append_nil], by simp⟩
  | cons row rest ih =>
    rw [List.foldlM_cons] at h
    obtain ⟨t₁, hrow, hrest⟩ := bind_ok.mp h
    rw [List.map_cons, List.nodup_cons] at hrows
    have hother : ∀ r ∈ rest, row.spaceId ≠ r.spaceId := fun r hr heq =>
      hrows.1 (List.mem_map.mpr ⟨r, hr, heq.symm⟩)
    simp only [insertSpace, bind_ok, require_ok, exists_const] at hrow
    obtain ⟨-, -, hrow⟩ := hrow
    split at hrow
    · rename_i hexists
      cases hrow
      obtain ⟨added, ht, hn, hall⟩ := ih hrest hrows.2 hids
        fun r hr => hsame r (List.mem_cons_of_mem _ hr)
      refine ⟨added, ht, hn, fun r hr => ?_⟩
      rcases List.mem_cons.mp hr with rfl | hr
      · obtain ⟨s, hs, hsid⟩ := hexists
        rw [← hsame r List.mem_cons_self s hs hsid]
        exact List.mem_append_left _ hs
      · exact hall r hr
    · rename_i hnew
      cases hrow
      obtain ⟨added, ht, hn, hall⟩ := ih hrest hrows.2
        (Table.nodup_map_append hids (by simp) (by
          intro a ha b hb
          rw [List.mem_singleton] at ha
          rw [ha]
          exact fun heq => hnew ⟨b, hb, heq⟩))
        (by
          intro r hr s hs hid
          rcases List.mem_append.mp hs with hs | hs
          · exact hsame r (List.mem_cons_of_mem _ hr) s hs hid
          · rw [List.mem_singleton] at hs
            rw [hs] at hid
            exact absurd hid (hother r hr))
      simp only [List.append_assoc, List.singleton_append] at ht hn hall
      refine ⟨row :: added, ht, hn, fun r hr => ?_⟩
      rcases List.mem_cons.mp hr with rfl | hr
      · exact List.mem_append_right _ List.mem_cons_self
      · exact hall r hr

/-! ## Facets -/

theorem nextFacetId_fresh (facets : List FacetRow) : ∀ f ∈ facets, f.facetId ≠ nextFacetId facets := by
  have hle : ∀ f ∈ facets, f.facetId ≤ (facets.map (·.facetId)).foldr max 0 := by
    induction facets with
    | nil => simp
    | cons g rest ih =>
      intro f hf
      rcases List.mem_cons.mp hf with rfl | hf
      · exact Nat.le_max_left _ _
      · exact Nat.le_trans (ih f hf) (Nat.le_max_right _ _)
  intro f hf heq
  have := hle f hf
  unfold nextFacetId at heq
  omega

/-- Facets added later do not change what an assignment joins with. -/
theorem joinFacet_append {facets : List FacetRow} {a : ResourceFacetRow} {v : FacetValues}
    (h : joinFacet facets a = some v) (added : List FacetRow) :
    joinFacet (facets ++ added) a = some v := by
  obtain ⟨f, hf, hv⟩ := Option.map_eq_some_iff.mp h
  unfold joinFacet
  rw [List.find?_append, hf, Option.some_or, Option.map_some, hv]

theorem insertFacet_ok {facetNamespace value : String} {t t' : Tables}
    (h : insertFacet facetNamespace value t = .ok t')
    (hids : (t.facets.map (·.facetId)).Nodup) : ∃ added,
      t' = { t with facets := t.facets ++ added } ∧ ((t.facets ++ added).map (·.facetId)).Nodup := by
  simp only [insertFacet, bind_ok, require_ok, exists_const] at h
  obtain ⟨-, h⟩ := h
  split at h
  · cases h
    exact ⟨[], by simp, by simpa using hids⟩
  · cases h
    refine ⟨_, rfl, Table.nodup_map_append hids (by simp) ?_⟩
    intro a ha b hb
    rw [List.mem_singleton] at ha
    rw [ha]
    exact nextFacetId_fresh t.facets b hb

theorem selectFacetId_ok {facetNamespace value : String} {t : Tables} {n : Nat}
    (h : selectFacetId facetNamespace value t = .ok n) :
    ∃ f ∈ t.facets, f.facetNamespace = facetNamespace ∧ f.value = value ∧ f.facetId = n := by
  simp only [selectFacetId, getOr_ok, Option.map_eq_some_iff] at h
  obtain ⟨f, hf, hn⟩ := h
  have hcond := List.find?_some hf
  rw [decide_eq_true_eq] at hcond
  exact ⟨f, List.mem_of_find?_eq_some hf, hcond.1, hcond.2, hn⟩

theorem writeFacet_ok {id : String} {v : FacetValues} {t t' : Tables}
    (h : writeFacet id v t = .ok t') (hids : (t.facets.map (·.facetId)).Nodup) : ∃ added a,
      t' = { t with facets := t.facets ++ added, resourceFacets := t.resourceFacets ++ [a] } ∧
      a.resourceId = id ∧ joinFacet (t.facets ++ added) a = some v ∧
      ((t.facets ++ added).map (·.facetId)).Nodup := by
  simp only [writeFacet, bind_ok] at h
  obtain ⟨t₁, hfacet, n, hselect, hinsert⟩ := h
  obtain ⟨added, rfl, hnodup⟩ := insertFacet_ok hfacet hids
  obtain ⟨f, hf, hns, hval, hid⟩ := selectFacetId_ok hselect
  simp only [insertResourceFacet, bind_ok, require_ok, Except.ok.injEq, exists_const] at hinsert
  obtain ⟨-, -, -, -, rfl⟩ := hinsert
  refine ⟨added, _, rfl, rfl, ?_, hnodup⟩
  have hfind := Table.find?_eq_of_mem hnodup hf hid
  unfold joinFacet
  simp only [hfind, Option.map_some, hns, hval]

/-- The facet loop appends assignments that join to the prepared values. -/
theorem writeFacets_ok {id : String} {vs : List FacetValues} {t t' : Tables}
    (h : vs.foldlM (fun t v => writeFacet id v t) t = .ok t')
    (hids : (t.facets.map (·.facetId)).Nodup) : ∃ added as,
      t' = { t with facets := t.facets ++ added, resourceFacets := t.resourceFacets ++ as } ∧
      (∀ a ∈ as, a.resourceId = id) ∧ as.map (joinFacet (t.facets ++ added)) = vs.map some ∧
      ((t.facets ++ added).map (·.facetId)).Nodup := by
  induction vs generalizing t with
  | nil =>
    cases h
    exact ⟨[], [], by simp, by simp, rfl, by simpa using hids⟩
  | cons v rest ih =>
    rw [List.foldlM_cons] at h
    obtain ⟨t₁, hv, hrest⟩ := bind_ok.mp h
    obtain ⟨added₁, a, rfl, ha, hjoin, hnodup₁⟩ := writeFacet_ok hv hids
    obtain ⟨added, as, ht', has, hjoins, hnodup⟩ := ih hrest hnodup₁
    refine ⟨added₁ ++ added, a :: as, ?_, ?_, ?_, ?_⟩
    · rw [ht']
      simp
    · intro b hb
      rcases List.mem_cons.mp hb with rfl | hb
      · exact ha
      · exact has b hb
    · rw [List.map_cons, List.map_cons, ← List.append_assoc, joinFacet_append hjoin added]
      exact congrArg _ hjoins
    · rwa [← List.append_assoc]

/-! ## The filled tables -/

/-- The tables after the inserts of a prepared graph into tables without the resource. -/
structure Filled (t t' : Tables) (p : Prepared) : Prop where
  resources : t'.resources = t.resources ++ [p.resourceValues]
  resource_new : ∀ r ∈ t.resources, r.resourceId ≠ p.resourceValues.resourceId
  representations : t'.representations = t.representations ++ p.representationValues
  representation_ids : (t'.representations.map (·.representationId)).Nodup
  units : t'.units = t.units ++ p.unitValues
  unit_ids : (t'.units.map (·.unitId)).Nodup
  embeddings : t'.embeddings = t.embeddings ++ p.vectorValues
  space_ids : (t'.spaces.map (·.spaceId)).Nodup
  spaces_added : ∃ added, t'.spaces = t.spaces ++ added
  spaces : ∀ s ∈ p.spaceValues, s ∈ t'.spaces
  facets : ∃ added, t'.facets = t.facets ++ added
  facet_ids : (t'.facets.map (·.facetId)).Nodup
  assignments : ∃ as, t'.resourceFacets = t.resourceFacets ++ as ∧
    (∀ a ∈ as, a.resourceId = p.resourceValues.resourceId) ∧
    as.map (joinFacet t'.facets) = p.facetValues.map some
  fts : t'.fts = t.fts ++ p.ftsValues
  states : t'.states = t.states

theorem Filled.spaces_kept {t t' : Tables} {p : Prepared} (h : Filled t t' p) :
    ∀ s ∈ t.spaces, s ∈ t'.spaces := by
  obtain ⟨added, hadded⟩ := h.spaces_added
  intro s hs
  rw [hadded]
  exact List.mem_append_left _ hs

/-- The insert statements of `_write_graph`, in order. -/
structure Inserts (t t' : Tables) (p : Prepared) : Prop where
  run : ∃ t₁ t₂ t₃ t₄ t₅ t₆, insertResource p.resourceValues t = .ok t₁ ∧
    p.spaceValues.foldlM (fun t row => insertSpace row t) t₁ = .ok t₂ ∧
    p.representationValues.foldlM (fun t row => insertRepresentation row t) t₂ = .ok t₃ ∧
    p.unitValues.foldlM (fun t row => insertUnit row t) t₃ = .ok t₄ ∧
    p.vectorValues.foldlM (fun t row => insertEmbedding row t) t₄ = .ok t₅ ∧
    p.facetValues.foldlM (fun t v => writeFacet p.resourceValues.resourceId v t) t₅ = .ok t₆ ∧
    p.ftsValues.foldlM (fun t row => insertFts row t) t₆ = .ok t'

theorem Inserts.filled {env : Env} {t t' : Tables} {p : Prepared} (hp : IsPrepared env p)
    (h : Inserts t t' p) (hspaces : checkSpaces p t = .ok ())
    (hreps : (t.representations.map (·.representationId)).Nodup)
    (hunits : (t.units.map (·.unitId)).Nodup) (hspaceIds : (t.spaces.map (·.spaceId)).Nodup)
    (hfacets : (t.facets.map (·.facetId)).Nodup) : Filled t t' p := by
  obtain ⟨t₁, t₂, t₃, t₄, t₅, t₆, h1, h2, h3, h4, h5, h6, h7⟩ := h.run
  obtain ⟨rfl, hnew⟩ := insertResource_ok h1
  have hspaceRows : (p.spaceValues.map (·.spaceId)).Nodup := by
    rw [hp.spaces, List.map_map]
    have := hp.valid.space_ids.map (f := NonEmptyText.text) fun a b => NonEmptyText.ext_text
    rwa [List.map_map] at this
  have hsame : ∀ row ∈ p.spaceValues, ∀ s ∈ t.spaces, s.spaceId = row.spaceId → s = row := by
    simpa only [checkSpaces, checkAll_ok, require_ok] using hspaces
  obtain ⟨newSpaces, rfl, hspn, hspall⟩ := insertSpaces_ok h2 hspaceRows hspaceIds hsame
  have hr := representationColumn.append_all
    (fun t row t' h => (insertRepresentation_ok t row t' h).1) h3
  have hrn := representationColumn.append_all_nodup (·.representationId)
    (fun t row t' h => (insertRepresentation_ok t row t' h).1)
    (fun t row t' h => (insertRepresentation_ok t row t' h).2) h3 hreps
  subst hr
  have hu := unitColumn.append_all (fun t row t' h => (insertUnit_ok t row t' h).1) h4
  have hun := unitColumn.append_all_nodup (·.unitId)
    (fun t row t' h => (insertUnit_ok t row t' h).1)
    (fun t row t' h => (insertUnit_ok t row t' h).2) h4 hunits
  subst hu
  have he := embeddingColumn.append_all insertEmbedding_ok h5
  subst he
  obtain ⟨added, as, rfl, has, hjoins, hfn⟩ := writeFacets_ok h6 hfacets
  have hf := ftsColumn.append_all (fun t row t' h => (Except.ok.inj h).symm) h7
  subst hf
  exact ⟨rfl, hnew, rfl, hrn, rfl, hun, rfl, hspn, ⟨newSpaces, rfl⟩, hspall, ⟨added, rfl⟩, hfn,
    ⟨as, rfl, has, hjoins⟩, rfl, rfl⟩

/-! ## What is stored afterwards -/

section Afterwards

variable {env : Env} {t t' : Tables} {p q : Prepared}

theorem IsPrepared.resourceId (hp : IsPrepared env p) :
    p.resourceValues.resourceId = p.batch.resource.resourceId.text := by
  rw [hp.resource]
  rfl

theorem IsPrepared.representation_owner (hp : IsPrepared env p) :
    ∀ row ∈ p.representationValues, row.resourceId = p.resourceValues.resourceId := by
  rw [hp.representations, hp.resourceId]
  intro row hrow
  obtain ⟨r, hr, rfl⟩ := List.mem_map.mp hrow
  exact congrArg NonEmptyText.text (hp.valid.representation_owner r hr)

theorem IsPrepared.unit_owner (hp : IsPrepared env p) :
    ∀ row ∈ p.unitValues, row.resourceId = p.resourceValues.resourceId := by
  rw [hp.units, hp.resourceId]
  intro row hrow
  obtain ⟨u, hu, rfl⟩ := List.mem_map.mp hrow
  exact congrArg NonEmptyText.text (hp.valid.unit_owner u hu)

theorem IsPrepared.unit_representation (hp : IsPrepared env p) : ∀ row ∈ p.unitValues,
    ∃ r ∈ p.representationValues, r.representationId = row.representationId := by
  rw [hp.units, hp.representations]
  intro row hrow
  obtain ⟨u, hu, rfl⟩ := List.mem_map.mp hrow
  obtain ⟨r, hr, hid, -⟩ := hp.valid.unit_representation u hu
  exact ⟨representationRow r, List.mem_map.mpr ⟨r, hr, rfl⟩, congrArg NonEmptyText.text hid⟩

/-- A prepared vector row belongs to a prepared unit and a prepared space. -/
theorem IsPrepared.vector_owner (hp : IsPrepared env p) : ∀ row ∈ p.vectorValues,
    (∃ u ∈ p.unitValues, u.unitId = row.unitId) ∧ ∃ s ∈ p.spaceValues, s.spaceId = row.spaceId := by
  intro row hrow
  obtain ⟨v, hv, hvr⟩ := mapAll_ok_mem hp.vectors row hrow
  obtain ⟨hunit, hspace, s, hs, hsid, -⟩ := vectorRow_decodes hvr
  obtain ⟨u, hu, huid⟩ := hp.valid.vector_unit v hv
  rw [hp.units, hp.spaces, hunit, hspace]
  exact ⟨⟨unitRow u, List.mem_map.mpr ⟨u, hu, rfl⟩, congrArg NonEmptyText.text huid⟩,
    ⟨spaceRow s, List.mem_map.mpr ⟨s, hs, rfl⟩, congrArg NonEmptyText.text hsid⟩⟩

theorem IsPrepared.fts_eq (hp : IsPrepared env p) : expectedFts p.unitValues = p.ftsValues := by
  rw [hp.units, hp.fts, expectedFts, List.filterMap_map]
  rfl

/-- Without a resource row no table mentions the resource. -/
theorem absent_rows (href : foreignKeysHold t) {id : String}
    (hnew : ∀ r ∈ t.resources, r.resourceId ≠ id) :
    (∀ p ∈ t.representations, p.resourceId ≠ id) ∧ (∀ u ∈ t.units, u.resourceId ≠ id) ∧
      ∀ a ∈ t.resourceFacets, a.resourceId ≠ id := by
  obtain ⟨hrep, hunit, -, hfacet⟩ := href
  have hreps : ∀ p ∈ t.representations, p.resourceId ≠ id := by
    intro p hp heq
    obtain ⟨r, hr, hrp⟩ := hrep p hp
    exact hnew r hr (hrp.trans heq)
  refine ⟨hreps, ?_, ?_⟩
  · intro u hu heq
    obtain ⟨p, hp, hpu, -⟩ := hunit u hu
    exact hreps p hp (hpu.trans heq)
  · intro a ha heq
    obtain ⟨⟨r, hr, hra⟩, -⟩ := hfacet a ha
    exact hnew r hr (hra.trans heq)

/-- A prepared unit id is not the id of a unit that was there before. -/
theorem Filled.unit_new (h : Filled t t' p) {u v : UnitRow} (hu : u ∈ t.units)
    (hv : v ∈ p.unitValues) : u.unitId ≠ v.unitId := by
  have hnodup := h.unit_ids
  rw [h.units, List.map_append, List.nodup_append] at hnodup
  exact hnodup.2.2 _ (List.mem_map.mpr ⟨u, hu, rfl⟩) _ (List.mem_map.mpr ⟨v, hv, rfl⟩)

theorem Filled.embeddingsOf_self (hp : IsPrepared env p) (href : foreignKeysHold t)
    (h : Filled t t' p) (hunits : unitsOf t' p.resourceValues.resourceId = p.unitValues) :
    embeddingsOf t' p.resourceValues.resourceId = p.vectorValues := by
  unfold embeddingsOf
  rw [hunits, h.embeddings, List.filter_append]
  have hold : (t.embeddings.filter fun e => p.unitValues.any fun u => u.unitId = e.unitId) = [] := by
    rw [List.filter_eq_nil_iff]
    intro e he hany
    obtain ⟨v, hv, hve⟩ := List.any_eq_true.mp hany
    obtain ⟨⟨u, hu, hue⟩, -⟩ := href.2.2.1 e he
    exact h.unit_new hu hv (hue.trans (decide_eq_true_eq.mp hve).symm)
  have hadded : (p.vectorValues.filter fun e => p.unitValues.any fun u => u.unitId = e.unitId) =
      p.vectorValues := by
    rw [List.filter_eq_self]
    intro e he
    obtain ⟨⟨u, hu, hue⟩, -⟩ := hp.vector_owner e he
    exact List.any_eq_true.mpr ⟨u, hu, decide_eq_true hue⟩
  rw [hold, hadded, List.nil_append]

theorem filterMap_of_map_some {α β : Type} {f : α → Option β} {as : List α} {bs : List β}
    (h : as.map f = bs.map some) : as.filterMap f = bs := by
  induction as generalizing bs with
  | nil =>
    cases bs with
    | nil => rfl
    | cons b bs => cases h
  | cons a rest ih =>
    cases bs with
    | nil => cases h
    | cons b bs =>
      rw [List.map_cons, List.map_cons, List.cons.injEq] at h
      rw [List.filterMap_cons, h.1, ih h.2]

theorem Filled.stored (hp : IsPrepared env p) (href : foreignKeysHold t) (h : Filled t t' p) :
    Stored t' p := by
  obtain ⟨hreps, hunits, hfacets⟩ := absent_rows href h.resource_new
  obtain ⟨as, has, howner, hjoins⟩ := h.assignments
  have hunitsOf : unitsOf t' p.resourceValues.resourceId = p.unitValues := by
    unfold unitsOf
    rw [h.units]
    exact Table.filter_append_self hunits hp.unit_owner
  have hassigned : resourceFacetsOf t' p.resourceValues.resourceId = as := by
    unfold resourceFacetsOf
    rw [has]
    exact Table.filter_append_self hfacets howner
  refine ⟨?_, ?_, hunitsOf, h.embeddingsOf_self hp href hunitsOf, ?_, ?_, h.spaces⟩
  · have hnone : t.resources.find? (fun r => r.resourceId = p.resourceValues.resourceId) = none :=
      List.find?_eq_none.mpr fun r hr => by simpa using h.resource_new r hr
    rw [h.resources, List.find?_append, hnone]
    simp
  · unfold representationsOf
    rw [h.representations]
    exact Table.filter_append_self hreps hp.representation_owner
  · unfold facetsOf
    rw [hassigned]
    exact filterMap_of_map_some hjoins
  · intro a ha
    rw [hassigned] at ha
    have hmem : joinFacet t'.facets a ∈ p.facetValues.map some := by
      rw [← hjoins]
      exact List.mem_map.mpr ⟨a, ha, rfl⟩
    obtain ⟨v, -, hv⟩ := List.mem_map.mp hmem
    rw [← hv]
    rfl

theorem Filled.stored_other (hp : IsPrepared env p) (h : Filled t t' p) (hq : Stored t q)
    (hne : q.resourceValues.resourceId ≠ p.resourceValues.resourceId) : Stored t' q := by
  obtain ⟨as, has, howner, -⟩ := h.assignments
  obtain ⟨added, hadded⟩ := h.facets
  have hunitsOf : unitsOf t' q.resourceValues.resourceId = unitsOf t q.resourceValues.resourceId := by
    unfold unitsOf
    rw [h.units]
    exact Table.filter_append_other fun u hu => by rw [hp.unit_owner u hu]; exact hne.symm
  have hassigned : resourceFacetsOf t' q.resourceValues.resourceId =
      resourceFacetsOf t q.resourceValues.resourceId := by
    unfold resourceFacetsOf
    rw [has]
    exact Table.filter_append_other fun a ha => by rw [howner a ha]; exact hne.symm
  have hjoin : ∀ a ∈ resourceFacetsOf t q.resourceValues.resourceId,
      joinFacet t'.facets a = joinFacet t.facets a := by
    intro a ha
    obtain ⟨v, hv⟩ := Option.isSome_iff_exists.mp (hq.joined a ha)
    rw [hadded, hv, joinFacet_append hv]
  refine ⟨?_, ?_, hunitsOf.trans hq.units, ?_, ?_, ?_, fun s hs => h.spaces_kept s (hq.spaces s hs)⟩
  · rw [h.resources, List.find?_append, hq.resource, Option.some_or]
  · rw [← hq.representations]
    unfold representationsOf
    rw [h.representations]
    exact Table.filter_append_other fun r hr => by rw [hp.representation_owner r hr]; exact hne.symm
  · rw [← hq.embeddings]
    unfold embeddingsOf
    rw [hunitsOf, h.embeddings, List.filter_append]
    have hnone : (p.vectorValues.filter fun e =>
        (unitsOf t q.resourceValues.resourceId).any fun u => u.unitId = e.unitId) = [] := by
      rw [List.filter_eq_nil_iff]
      intro e he hany
      obtain ⟨u, hu, hue⟩ := List.any_eq_true.mp hany
      obtain ⟨⟨v, hv, hve⟩, -⟩ := hp.vector_owner e he
      exact h.unit_new (List.mem_of_mem_filter hu) hv ((decide_eq_true_eq.mp hue).trans hve.symm)
    rw [hnone, List.append_nil]
  · rw [← hq.facets]
    unfold facetsOf
    rw [hassigned]
    exact List.filterMap_congr hjoin
  · intro a ha
    rw [hassigned] at ha
    rw [hjoin a ha]
    exact hq.joined a ha

theorem Filled.references (hp : IsPrepared env p) (href : foreignKeysHold t) (h : Filled t t' p) :
    foreignKeysHold t' := by
  obtain ⟨hrep, hunit, hembedding, hfacet⟩ := href
  obtain ⟨as, has, howner, hjoins⟩ := h.assignments
  obtain ⟨added, hadded⟩ := h.facets
  have hself : p.resourceValues ∈ t'.resources := by
    rw [h.resources]
    exact List.mem_append_right _ (by simp)
  have hkept : ∀ r ∈ t.resources, r ∈ t'.resources := fun r hr => by
    rw [h.resources]
    exact List.mem_append_left _ hr
  refine ⟨?_, ?_, ?_, ?_⟩
  · rw [h.representations]
    intro r hr
    rcases List.mem_append.mp hr with hr | hr
    · obtain ⟨x, hx, hxr⟩ := hrep r hr
      exact ⟨x, hkept x hx, hxr⟩
    · exact ⟨_, hself, (hp.representation_owner r hr).symm⟩
  · rw [h.units, h.representations]
    intro u hu
    rcases List.mem_append.mp hu with hu | hu
    · obtain ⟨r, hr, h1, h2⟩ := hunit u hu
      exact ⟨r, List.mem_append_left _ hr, h1, h2⟩
    · obtain ⟨r, hr, hid⟩ := hp.unit_representation u hu
      refine ⟨r, List.mem_append_right _ hr, ?_, hid⟩
      rw [hp.representation_owner r hr, hp.unit_owner u hu]
  · rw [h.embeddings, h.units]
    intro e he
    rcases List.mem_append.mp he with he | he
    · obtain ⟨⟨u, hu, hue⟩, s, hs, hse⟩ := hembedding e he
      exact ⟨⟨u, List.mem_append_left _ hu, hue⟩, s, h.spaces_kept s hs, hse⟩
    · obtain ⟨⟨u, hu, hue⟩, s, hs, hse⟩ := hp.vector_owner e he
      exact ⟨⟨u, List.mem_append_right _ hu, hue⟩, s, h.spaces s hs, hse⟩
  · rw [has]
    intro a ha
    rcases List.mem_append.mp ha with ha | ha
    · obtain ⟨⟨r, hr, hra⟩, f, hf, hfa⟩ := hfacet a ha
      refine ⟨⟨r, hkept r hr, hra⟩, f, ?_, hfa⟩
      rw [hadded]
      exact List.mem_append_left _ hf
    · refine ⟨⟨_, hself, (howner a ha).symm⟩, ?_⟩
      have hmem : joinFacet t'.facets a ∈ p.facetValues.map some := by
        rw [← hjoins]
        exact List.mem_map.mpr ⟨a, ha, rfl⟩
      obtain ⟨v, -, hv⟩ := List.mem_map.mp hmem
      obtain ⟨f, hf, -⟩ := Option.map_eq_some_iff.mp hv.symm
      exact ⟨f, List.mem_of_find?_eq_some hf, by simpa using List.find?_some hf⟩

theorem Filled.coherent (hp : IsPrepared env p) (hc : Coherent env t) (h : Filled t t' p) :
    Coherent env t' where
  resource_ids := by
    rw [h.resources]
    refine Table.nodup_map_append hc.resource_ids (by simp) ?_
    intro a ha b hb
    rw [List.mem_singleton] at ha
    rw [ha]
    exact h.resource_new b hb
  representation_ids := h.representation_ids
  unit_ids := h.unit_ids
  space_ids := h.space_ids
  facet_ids := h.facet_ids
  references := h.references hp hc.references
  stored row hrow := by
    rw [h.resources] at hrow
    rcases List.mem_append.mp hrow with hrow | hrow
    · obtain ⟨q, hq, hqr, hs⟩ := hc.stored row hrow
      refine ⟨q, hq, hqr, h.stored_other hp hs ?_⟩
      rw [hqr]
      exact h.resource_new row hrow
    · rw [List.mem_singleton] at hrow
      exact ⟨p, hp, hrow.symm, h.stored hp hc.references⟩
  fts := by
    rw [h.fts, h.units, expectedFts, List.filterMap_append]
    exact hc.fts.append (by rw [← hp.fts_eq]; exact .refl _)

/-! ## Pruning -/

/-- Every facet has an assignment. -/
def facetsUsed (t : Tables) : Prop := ∀ f ∈ t.facets, ∃ a ∈ t.resourceFacets, a.facetId = f.facetId

/-- Pruning keeps the facets that assignments join with. -/
theorem joinFacet_prune (hprune : pruneFacets t = .ok t') {a : ResourceFacetRow}
    (ha : a ∈ t.resourceFacets) : joinFacet t'.facets a = joinFacet t.facets a := by
  cases hprune
  unfold joinFacet
  simp only [List.find?_filter]
  congr 2
  funext f
  by_cases hf : f.facetId = a.facetId
  · have hused : ∃ x ∈ t.resourceFacets, x.facetId = a.facetId := ⟨a, ha, rfl⟩
    simpa [hf] using hused
  · simp [hf]

theorem Stored.prune (hprune : pruneFacets t = .ok t') (h : Stored t p) : Stored t' p := by
  have hjoin : ∀ a ∈ resourceFacetsOf t p.resourceValues.resourceId,
      joinFacet t'.facets a = joinFacet t.facets a := fun a ha =>
    joinFacet_prune hprune (List.mem_of_mem_filter ha)
  have hfacets : facetsOf t' p.resourceValues.resourceId =
      facetsOf t p.resourceValues.resourceId := by
    have hassigned : resourceFacetsOf t' p.resourceValues.resourceId =
        resourceFacetsOf t p.resourceValues.resourceId := by
      cases hprune
      rfl
    unfold facetsOf
    rw [hassigned]
    exact List.filterMap_congr hjoin
  have hjoined : ∀ a ∈ resourceFacetsOf t p.resourceValues.resourceId,
      (joinFacet t'.facets a).isSome := fun a ha => by
    rw [hjoin a ha]
    exact h.joined a ha
  cases hprune
  exact ⟨h.resource, h.representations, h.units, h.embeddings, hfacets.trans h.facets, hjoined,
    h.spaces⟩

theorem Coherent.prune (hprune : pruneFacets t = .ok t') (h : Coherent env t) :
    Coherent env t' ∧ facetsUsed t' := by
  have hstored := fun row hrow => (h.stored row hrow).imp fun p hp =>
    (⟨hp.1, hp.2.1, hp.2.2.prune hprune⟩ : IsPrepared env p ∧ p.resourceValues = row ∧ Stored t' p)
  have href : foreignKeysHold t' := by
    obtain ⟨hrep, hunit, hembedding, hfacet⟩ := h.references
    cases hprune
    refine ⟨hrep, hunit, hembedding, fun a ha => ?_⟩
    obtain ⟨hr, f, hf, hfa⟩ := hfacet a ha
    refine ⟨hr, f, List.mem_filter.mpr ⟨hf, ?_⟩, hfa⟩
    exact List.any_eq_true.mpr ⟨a, ha, decide_eq_true hfa.symm⟩
  cases hprune
  refine ⟨⟨h.resource_ids, h.representation_ids, h.unit_ids, h.space_ids,
    Table.nodup_map_filter _ h.facet_ids, href, hstored, h.fts⟩, ?_⟩
  intro f hf
  obtain ⟨a, ha, haf⟩ := List.any_eq_true.mp (List.mem_filter.mp hf).2
  exact ⟨a, ha, decide_eq_true_eq.mp haf⟩

end Afterwards

/-! ## The whole write -/

/-- What `_write_graph` leaves behind. -/
structure Written (env : Env) (t t' : Tables) (p : Prepared) : Prop where
  coherent : Coherent env t'
  used : facetsUsed t'
  stored : Stored t' p
  others : ∀ q, IsPrepared env q → Stored t q →
    q.resourceValues.resourceId ≠ p.resourceValues.resourceId → Stored t' q
  resources : t'.resources =
    (t.resources.filter fun r => !decide (r.resourceId = p.resourceValues.resourceId)) ++
      [p.resourceValues]
  states : t'.states = t.states
  spaces_added : ∃ added, t'.spaces = t.spaces ++ added

/-- `_write_graph` replaces the rows of the resource by the prepared ones and prunes the facets. -/
theorem writeGraph_filled {env : Env} {t t' : Tables} {p : Prepared} {n n' : Nat} {u : Unit}
    (hp : IsPrepared env p) (hc : Coherent env t) (h : Ends (writeGraph env p) t n u t' n') :
    ∃ t₁, Filled (t.without p.resourceValues.resourceId) t₁ p ∧ pruneFacets t₁ = .ok t' ∧ n' = n := by
  simp only [writeGraph, ends_query_bind, ends_execute_bind, ends_failurePoint_bind,
    ends_forEach_bind, ends_query] at h
  obtain ⟨_, -, _, hspaces, t₁, hfts, t₂, hdelete, t₃, h1, t₄, h2, t₅, h3, t₆, h4, t₇, h5, t₈, h6,
    t₉, h7, t₁₀, hprune, -, rfl, rfl⟩ := h
  obtain rfl := removeRows_eq hc.references hfts hdelete
  have hw := hc.without p.resourceValues.resourceId
  have hinserts : Inserts (t.without p.resourceValues.resourceId) t₉ p :=
    ⟨t₃, t₄, t₅, t₆, t₇, t₈, h1, h2, h3, h4, h5, h6, h7⟩
  exact ⟨t₉, hinserts.filled hp hspaces hw.representation_ids hw.unit_ids hw.space_ids hw.facet_ids,
    hprune, rfl⟩

theorem writeGraph_written {env : Env} {t t' : Tables} {p : Prepared} {n n' : Nat} {u : Unit}
    (hp : IsPrepared env p) (hc : Coherent env t) (h : Ends (writeGraph env p) t n u t' n') :
    Written env t t' p ∧ n' = n := by
  obtain ⟨t₁, hfilled, hprune, rfl⟩ := writeGraph_filled hp hc h
  have hw := hc.without p.resourceValues.resourceId
  obtain ⟨hcoherent, hused⟩ := (hfilled.coherent hp hw).prune hprune
  have hself := (hfilled.stored hp hw.references).prune hprune
  have hothers : ∀ q, IsPrepared env q → Stored t q →
      q.resourceValues.resourceId ≠ p.resourceValues.resourceId → Stored t' q :=
    fun q hq hs hne => (hfilled.stored_other hp (hs.without hc.unit_ids hne) hne).prune hprune
  have hresources := hfilled.resources
  have hstates := hfilled.states
  have hspacesAdded := hfilled.spaces_added
  cases hprune
  exact ⟨⟨hcoherent, hused, hself, hothers, hresources, hstates, hspacesAdded⟩, rfl⟩

end MDRack
