import MDRack.Enrichment.MergeExact
import MDRack.Reindex.Reconcile

/-!
# A new source generation

Where the base has another source revision, the reconciled graph is the base and what the stored
graph marks as independent of its source.  Facet assignments are the exception: they are kept
under any source revision.

Principal result: `fresh_generation_iff`.
-/

namespace MDRack.Reindex

open Checks Enrichment
open Json (Value)

/-! ## The graph that is joined -/

theorem dropping_nil {g : PreparedResourceBatch} (h : ValidBatch g) :
    PreparedResourceBatch.dropping g [] = g := by
  have hreps : (g.representations.filter fun r => r.representationId ∉ ([] : List NonEmptyText)) =
      g.representations := List.filter_eq_self.mpr fun r _ => by simp
  have hunits : (g.units.filter fun u => u.representationId ∉ ([] : List NonEmptyText)) = g.units :=
    List.filter_eq_self.mpr fun u _ => by simp
  have hvectors : (g.vectors.filter fun v => v.unitId ∈ g.units.map (·.unitId)) = g.vectors := by
    refine List.filter_eq_self.mpr fun v hv => ?_
    obtain ⟨u, hu, huv⟩ := h.vector_unit v hv
    rw [decide_eq_true_eq]
    exact List.mem_map.mpr ⟨u, hu, huv⟩
  rw [PreparedResourceBatch.dropping, hreps, hunits, hvectors]

/-- What a joined graph takes from the kept part and from the base. -/
structure Joined (old base : PreparedResourceBatch) (preserved : List RepresentationRecord)
    (g : PreparedResourceBatch) : Prop where
  representations : Unites preserved base.representations g.representations
  units : Unites (PreparedResourceBatch.owned old preserved).units base.units g.units
  vectors : Unites (PreparedResourceBatch.owned old preserved).vectors base.vectors g.vectors
  facets : Unites old.facets base.facets g.facets
  facets_agree : ∀ h ∈ base.facets, ∀ f ∈ old.facets, f.key = h.key → (f == h) = true

section Joined

variable {old base g : PreparedResourceBatch} {preserved : List RepresentationRecord}
  {resource : ResourceRecord}

theorem joinedGraph_joined (hold : ValidBatch old) (hbase : ValidBatch base)
    (hsub : preserved.Sublist old.representations)
    (h : joinedGraph old preserved (some base) resource = .ok (some g)) :
    joinedResource old.resource resource = .ok g.resource ∧ Joined old base preserved g := by
  simp only [joinedGraph, partsOf, bind_ok] at h
  obtain ⟨reps, hreps, h⟩ := h
  split at h
  · cases h
  · simp only [bind_ok, Except.ok.injEq, Option.some.injEq] at h
    obtain ⟨actual, hactual, units, hunits, spaces, -, vectors, hvectors, facets, hfacets, rfl⟩ := h
    have hkept := hold.representation_ids.sublist (hsub.map _)
    have hkeptUnits := Table.nodup_map_filter
      (fun u : SearchUnitRecord => u.representationId ∈ preserved.map (·.representationId)) hold.unit_ids
    have hkeptVectors : ((old.vectors.filter fun v =>
        v.unitId ∈ (PreparedResourceBatch.owned old preserved).units.map (·.unitId)).map
          VectorRecord.key).Nodup := Table.nodup_map_filter _ hold.vector_keys
    refine ⟨hactual, ?_, ?_, ?_, ?_, ?_⟩
    · exact union_unites hkept hbase.representation_ids hreps
    · exact union_unites hkeptUnits hbase.unit_ids hunits
    · exact union_unites hkeptVectors hbase.vector_keys hvectors
    · exact union_unites hold.facet_keys hbase.facet_keys hfacets
    · exact ((union_ok hold.facet_keys hbase.facet_keys).mp hfacets).1

/-- The joined graph has the source revision of the new resource. -/
theorem joinedResource_revision {actual : ResourceRecord} {generation : NonEmptyText}
    {oldResource : ResourceRecord} (h : joinedResource oldResource resource = .ok actual)
    (hgeneration : sourceRevision resource = .ok generation) :
    actual.metadata.get? "source_revision" = some (.str generation.text) := by
  simp only [joinedResource, bind_ok, Except.ok.injEq, mergeMetadata] at h
  obtain ⟨fields, hfields, frozen, hfrozen, rfl⟩ := h
  obtain ⟨-, rfl⟩ := (mergeFields_ok resource.metadata.keys_nodup).mp hfields
  have hget := freezeMapping_get? (mergeFields_nodup oldResource.metadata.keys_nodup) hfrozen
  have hnew : ∃ f ∈ resource.metadata.fields, f.1 = "source_revision" ∧ f.2 = .str generation.text := by
    unfold sourceRevision Mapping.get? at hgeneration
    cases hfind : resource.metadata.fields.find? fun field => field.1 == "source_revision" with
    | none => simp [hfind] at hgeneration
    | some f =>
      refine ⟨f, List.mem_of_find?_eq_some hfind, by simpa using List.find?_some hfind, ?_⟩
      rw [hfind, Option.map_some] at hgeneration
      split at hgeneration
      · rename_i s hs
        rw [Option.some.injEq] at hs
        split at hgeneration
        · cases hgeneration
          exact hs
        · cases hgeneration
      · cases hgeneration
  obtain ⟨f, hf, hkey, hvalue⟩ := hnew
  rw [hget, ← hkey, mergeFields_find? resource.metadata.keys_nodup hf, Option.map_some, hvalue]

end Joined

/-! ## Outputs of a joined graph -/

/-- Independent outputs depend on nothing. -/
theorem independentOutput_dependencies {rep : RepresentationRecord} {output : Output}
    (h : independentOutput rep = .ok true) (ho : outputOf rep = .ok (some output)) :
    output.dependencies = [] := by
  simp only [independentOutput, bind_ok, require_ok, exists_const, Except.ok.injEq] at h
  obtain ⟨o, ho', independent, -, hnone, hresult⟩ := h
  obtain rfl := Except.ok.inj (ho'.symm.trans ho)
  cases independent with
  | true => exact hnone rfl output rfl
  | false =>
    have hflag : output.sourceIndependent = true := by simpa using hresult
    unfold outputOf at ho
    split at ho
    · cases ho
    · obtain ⟨parsed, hparsed, hsome⟩ := map_ok.mp ho
      cases hsome
      simp only [parseOutput, bind_ok, require_ok, exists_const, Except.ok.injEq] at hparsed
      obtain ⟨_, -, _, -, _, -, _, -, _, -, _, -, _, -, hempty, _, -, _, -, rfl⟩ := hparsed
      exact hempty hflag
    · cases ho

theorem anyForeignSource_false {generation : NonEmptyText} {actives : List Active}
    (h : anyForeignSource generation actives = .ok false) : ∀ a ∈ actives,
      independentOutput a.rep = .ok true ∨ a.output.sourceRevision = generation := by
  induction actives with
  | nil => exact fun a ha => absurd ha List.not_mem_nil
  | cons a rest ih =>
    simp only [anyForeignSource, bind_ok] at h
    obtain ⟨independent, hindependent, h⟩ := h
    intro x hx
    cases independent with
    | true =>
      rcases List.mem_cons.mp hx with rfl | hx
      · exact .inl hindependent
      · exact ih h x hx
    | false =>
      rw [if_neg Bool.false_ne_true] at h
      split at h
      · rename_i heq
        rcases List.mem_cons.mp hx with rfl | hx
        · exact .inr heq
        · exact ih h x hx
      · cases h

theorem staleSource_nil {generation : NonEmptyText} {actives : List Active} {stale : List Slot}
    (hall : ∀ a ∈ actives, independentOutput a.rep = .ok true ∨ a.output.sourceRevision = generation)
    (h : staleSource (some (.str generation.text)) actives = .ok stale) : stale = [] := by
  induction actives generalizing stale with
  | nil => exact (Except.ok.inj h).symm
  | cons a rest ih =>
    simp only [staleSource, bind_ok, Except.ok.injEq] at h
    obtain ⟨independent, hindependent, later, hlater, rfl⟩ := h
    have hnone := ih (fun x hx => hall x (List.mem_cons_of_mem _ hx)) hlater
    rw [hnone]
    refine if_neg ?_
    rw [Bool.and_eq_true, Bool.not_eq_true', Bool.not_eq_true', not_and]
    rintro rfl
    rcases hall a List.mem_cons_self with hok | hrevision
    · cases hindependent.symm.trans hok
    · rw [hrevision]
      exact fun hne => absurd (BEq.rfl.symm.trans hne) (by simp)

/-- Where an output is protected, or depends on nothing, it is not stale. -/
theorem not_stale_of_guarded {actives : List Active} {guarded invalid : List Slot}
    (hslots : (actives.map (·.slot)).Nodup)
    (h : invalidDependencies actives guarded = .ok invalid) {a : Active} (ha : a ∈ actives)
    (hguarded : a.slot ∈ guarded ∨ a.output.dependencies = []) :
    ¬ Dependencies.Stale (actives.map (·.node)) (fun _ => False) a.slot := by
  have hkeys : ((actives.map (·.node)).map (·.key)).Nodup := by rwa [nodes_keys]
  rcases hguarded with hguarded | hnone
  · simp only [invalidDependencies, bind_ok] at h
    obtain ⟨_, -, hloop⟩ := h
    have hspec := Dependencies.invalidate_spec hkeys (fun k hk => by cases hk) hloop a.slot
    exact fun hstale => hspec.2 (hspec.1.mpr hstale) hguarded
  · exact Dependencies.not_stale_of_independent hkeys (List.mem_map.mpr ⟨a, ha, rfl⟩) hnone

/-- A graph without stale outputs is not pruned. -/
theorem pruneGraph_fresh {g : PreparedResourceBatch} {actives : List Active}
    {generation : NonEmptyText} {result : Option PreparedResourceBatch} (hvalid : ValidBatch g)
    (hactives : outputsOf g = .ok actives)
    (hgeneration : g.resource.metadata.get? "source_revision" = some (.str generation.text))
    (hsource : ∀ a ∈ actives,
      independentOutput a.rep = .ok true ∨ a.output.sourceRevision = generation)
    (hfresh : ∀ a ∈ actives,
      ¬ Dependencies.Stale (actives.map (·.node)) (fun _ => False) a.slot)
    (h : pruneGraph g = .ok result) : result = some g := by
  simp only [pruneGraph, bind_ok, hactives, Except.ok.injEq, exists_eq_left', prunedSlots,
    hgeneration] at h
  obtain ⟨_, ⟨stale, hstale, invalid, hinvalid, rfl⟩, h⟩ := h
  obtain rfl := staleSource_nil hsource hstale
  have hall : (actives.filter fun a => a.slot ∉ ([] : List Slot)) = actives :=
    List.filter_eq_self.mpr fun a _ => by simp
  rw [hall] at hinvalid
  have hslots := (outputsOf_ok.mp hactives).2.2
  have hremoved : ((actives.filter fun a => a.slot ∈ [] ++ invalid).map
      (·.rep.representationId)) = [] := by
    rw [List.map_eq_nil_iff, List.filter_eq_nil_iff]
    intro a ha hmem
    rw [decide_eq_true_eq, List.nil_append] at hmem
    have hkeys : ((actives.map (·.node)).map (·.key)).Nodup := by rwa [nodes_keys]
    simp only [invalidDependencies, bind_ok] at hinvalid
    obtain ⟨_, -, hloop⟩ := hinvalid
    have hspec := Dependencies.invalidate_spec hkeys (fun k hk => by cases hk) hloop a.slot
    exact hfresh a ha (hspec.1.mp hmem)
  rw [hremoved, dropping_nil hvalid, if_neg hvalid.representations_ne] at h
  simp only [bind_ok, Except.ok.injEq] at h
  obtain ⟨_, -, hresult⟩ := h
  exact hresult.symm

/-! ## Reconciling under a new source revision -/

/-- Equal assignments have one identity. -/
theorem ResourceFacet.key_of_beq {f h : ResourceFacet} (heq : (f == h) = true) : f.key = h.key := by
  change instBEqResourceFacet.beq f h = true at heq
  cases f
  cases h
  simp only [instBEqResourceFacet.beq, Bool.and_eq_true, beq_iff_eq] at heq
  obtain ⟨rfl, rfl, rfl, rfl, -⟩ := heq
  rfl

/-- An old representation that is marked independent and not explicitly removed. -/
structure Marked (old : PreparedResourceBatch) (remove : List Slot) (r : RepresentationRecord) :
    Prop where
  stored : r ∈ old.representations
  independent : independentOutput r = .ok true
  kept : ∀ o, outputOf r = .ok (some o) → o.slot ∉ remove

/-- A value of the base, up to `==`. -/
def Brought {α : Type} [BEq α] (values : List α) (x : α) : Prop := ∃ y ∈ values, (x == y) = true

/-- Nothing stale is in the graph, and nothing current is missing. -/
structure FreshGeneration (old base : PreparedResourceBatch) (remove : List Slot)
    (g : PreparedResourceBatch) : Prop where
  representations : ∀ r ∈ g.representations, Brought base.representations r ∨ Marked old remove r
  units : ∀ u ∈ g.units, Brought base.units u ∨
    (u ∈ old.units ∧ ∃ r, Marked old remove r ∧ r.representationId = u.representationId)
  vectors : ∀ v ∈ g.vectors, Brought base.vectors v ∨ (v ∈ old.vectors ∧ ∃ u ∈ old.units,
    u.unitId = v.unitId ∧ ∃ r, Marked old remove r ∧ r.representationId = u.representationId)
  facets : ∀ f ∈ g.facets, Brought base.facets f
  /-- Every incoming representation is there, its dependencies at the recorded revisions. -/
  incoming : ∀ y ∈ base.representations, ∃ x ∈ g.representations, (x == y) = true ∧
    ∀ o, outputOf y = .ok (some o) → outputOf x = .ok (some o) ∧ ∀ d ∈ o.dependencies,
      ∃ z ∈ g.representations, ∃ o', outputOf z = .ok (some o') ∧
        o'.slot = d.1 ∧ o'.artifactRevision = d.2
  incoming_units : ∀ y ∈ base.units, ∃ x ∈ g.units, (x == y) = true
  incoming_vectors : ∀ y ∈ base.vectors, ∃ x ∈ g.vectors, (x == y) = true
  /-- Every independent output is there, with all it owns. -/
  independent : ∀ r, Marked old remove r → r ∈ g.representations ∧ ∀ u ∈ old.units,
    u.representationId = r.representationId → u ∈ g.units ∧
      ∀ v ∈ old.vectors, v.unitId = u.unitId → v ∈ g.vectors

/-- Under a new source revision exactly the marked representations are kept. -/
theorem keeps_changed {p : Preserving} (hchanged : p.changed = true) {old : PreparedResourceBatch}
    {r : RepresentationRecord} (hr : r ∈ old.representations) :
    p.keeps r = .ok true ↔ Marked old p.remove r := by
  have hkeeps : p.keeps r = .ok true ↔ ∃ existing, outputOf r = .ok existing ∧
      (∀ o ∈ existing, o.slot ∉ p.remove) ∧ independentOutput r = .ok true := by
    simp only [Preserving.keeps, bind_ok]
    refine exists_congr fun existing => and_congr_right fun _ => ?_
    by_cases hany : existing.any (fun o => o.slot ∈ p.remove) = true
    · rw [if_pos hany]
      refine iff_of_false (by simp) fun h => ?_
      obtain ⟨o, ho, hmem⟩ := Option.any_eq_true _ _ |>.mp hany
      exact h.1 o ho (by simpa using hmem)
    · have hnone : ∀ o ∈ existing, o.slot ∉ p.remove := by
        intro o ho hmem
        exact hany (Option.any_eq_true _ _ |>.mpr ⟨o, ho, by simpa using hmem⟩)
      rw [if_neg hany, bind_ok]
      constructor
      · rintro ⟨independent, hindependent, h⟩
        cases independent with
        | true => exact ⟨hnone, hindependent⟩
        | false => simp [hchanged] at h
      · exact fun h => ⟨true, h.2, rfl⟩
  rw [hkeeps]
  constructor
  · rintro ⟨existing, hexisting, hnot, hindependent⟩
    refine ⟨hr, hindependent, fun o ho => hnot o ?_⟩
    exact Except.ok.inj (hexisting.symm.trans ho)
  · intro h
    have hparse := h.independent
    simp only [independentOutput, bind_ok] at hparse
    obtain ⟨existing, hexisting, -⟩ := hparse
    exact ⟨existing, hexisting, fun o ho => h.kept o (by rw [hexisting, ho]), h.independent⟩

/-- A value equal to one that declares an output declares it as well. -/
theorem outputOf_of_beq {x y : RepresentationRecord} {o : Output} {existing : Option Output}
    (h : (x == y) = true) (hx : outputOf x = .ok existing) (hy : outputOf y = .ok (some o)) :
    outputOf x = .ok (some o) := by
  cases existing with
  | some o' =>
    obtain rfl := outputOf_congr h hx hy
    exact hx
  | none =>
    exfalso
    have hinfo := field_congr (RepresentationRecord.metadata_of_beq h) "enrichment_v1"
    unfold outputOf at hx hy
    rcases hinfo with ⟨-, hnone⟩ | ⟨v, v', hv, -, -⟩
    · rw [show y.metadata.get? "enrichment_v1" = none from hnone] at hy
      cases hy
    · rw [show x.metadata.get? "enrichment_v1" = some v from hv] at hx
      cases v <;> simp only [reduceCtorEq] at hx
      obtain ⟨_, -, habs⟩ := map_ok.mp hx
      cases habs

section Changed

variable {old base g : PreparedResourceBatch} {resource : ResourceRecord} {owner : String}
  {remove : List Slot} {generation : NonEmptyText} {result : Option PreparedResourceBatch}

/-- The result of a reconciliation under a new source revision: the marked part joined with the
base, none of its outputs stale. -/
structure Renewed (old base : PreparedResourceBatch) (remove : List Slot)
    (preserved : List RepresentationRecord) (g : PreparedResourceBatch) : Prop where
  marked : ∀ r, r ∈ preserved ↔ Marked old remove r
  joined : Joined old base preserved g
  outputs : ∃ actives, outputsOf g = .ok actives ∧ ∀ a ∈ actives,
    ¬ Dependencies.Stale (actives.map (·.node)) (fun _ => False) a.slot

theorem reconcileWith_renewed (hold : ValidBatch old) (hbase : ValidBatch base)
    (hgeneration : sourceRevision resource = .ok generation)
    (hchanged : sourceRevision old.resource ≠ .ok generation)
    (h : reconcileWith old (some base) resource generation owner remove = .ok result) :
    ∃ preserved g, result = some g ∧ Renewed old base remove preserved g := by
  simp only [reconcileWith, bind_ok, require_ok, exists_const] at h
  obtain ⟨previous, hprevious, _, -, incoming, hincoming, foreign, hforeign, rfl, preserved,
    hpreserved, joined, hjoined, h⟩ := h
  have hne : generation ≠ previous := fun heq => hchanged (heq ▸ hprevious)
  obtain ⟨hsub, hmem⟩ := keepAll_ok hpreserved
  have hmarked : ∀ r, r ∈ preserved ↔ Marked old remove r := by
    intro r
    rw [hmem]
    constructor
    · rintro ⟨hr, hkeeps⟩
      exact (keeps_changed (decide_eq_true hne) hr).mp hkeeps
    · intro hr
      exact ⟨hr.stored, (keeps_changed (decide_eq_true hne) hr.stored).mpr hr⟩
  cases joined with
  | none =>
    -- a base is not empty
    exfalso
    simp only [joinedGraph, bind_ok, partsOf] at hjoined
    obtain ⟨reps, hreps, hjoined⟩ := hjoined
    split at hjoined
    · rename_i hempty
      have hunites := union_unites (hold.representation_ids.sublist (hsub.map _))
        hbase.representation_ids hreps
      obtain ⟨y, hy⟩ := List.exists_mem_of_ne_nil _ hbase.representations_ne
      obtain ⟨x, hx, -⟩ := hunites.added y hy
      rw [hempty] at hx
      cases hx
    · simp only [bind_ok, Except.ok.injEq, reduceCtorEq, and_false, exists_false] at hjoined
  | some g =>
    simp only [bind_ok] at h
    obtain ⟨_, hvalid, actives, hactives, invalid, hinvalid, hprune⟩ := h
    obtain ⟨hresource, hparts⟩ := joinedGraph_joined hold hbase hsub hjoined
    have hincomingSlot : ∀ a ∈ actives, a.rep ∈ base.representations → a ∈ incoming := by
      intro a ha hrep
      have hdeclared := declared_of_mem hactives ha
      exact mem_of_declared hincoming hrep hdeclared
    -- an output of the joined graph is preserved, hence independent, or incoming
    have hsplit : ∀ a ∈ actives, independentOutput a.rep = .ok true ∨ a ∈ incoming := by
      intro a ha
      obtain ⟨hrep, -⟩ := mem_outputs hactives ha
      rcases hparts.representations.only a.rep hrep with hkept | hnew
      · exact .inl ((hmarked a.rep).mp hkept).independent
      · exact .inr (hincomingSlot a ha hnew)
    have hfresh : ∀ a ∈ actives,
        ¬ Dependencies.Stale (actives.map (·.node)) (fun _ => False) a.slot := by
      intro a ha
      refine not_stale_of_guarded (outputsOf_ok.mp hactives).2.2 hinvalid ha ?_
      rcases hsplit a ha with hindependent | hin
      · exact .inr (independentOutput_dependencies hindependent (mem_outputs hactives ha).2)
      · exact .inl (List.mem_map.mpr ⟨a, hin, rfl⟩)
    have hsource : ∀ a ∈ actives,
        independentOutput a.rep = .ok true ∨ a.output.sourceRevision = generation := by
      intro a ha
      rcases hsplit a ha with hindependent | hin
      · exact .inl hindependent
      · exact anyForeignSource_false hforeign a hin
    have hresult := pruneGraph_fresh (validatePreparedBatch_ok.mp hvalid) hactives
      (joinedResource_revision hresource hgeneration) hsource hfresh hprune
    exact ⟨preserved, g, hresult, hmarked, hparts, actives, hactives, hfresh⟩

variable {preserved : List RepresentationRecord}

theorem Renewed.unit_owner (h : Renewed old base remove preserved g) {u : SearchUnitRecord}
    (hu : u ∈ (PreparedResourceBatch.owned old preserved).units) :
    u ∈ old.units ∧ ∃ r, Marked old remove r ∧ r.representationId = u.representationId := by
  obtain ⟨hu, hmem⟩ := List.mem_filter.mp hu
  rw [decide_eq_true_eq] at hmem
  obtain ⟨r, hr, hid⟩ := List.mem_map.mp hmem
  exact ⟨hu, r, (h.marked r).mp hr, hid⟩

theorem Renewed.incoming (h : Renewed old base remove preserved g) {y : RepresentationRecord}
    (hy : y ∈ base.representations) : ∃ x ∈ g.representations, (x == y) = true ∧
      ∀ o, outputOf y = .ok (some o) → outputOf x = .ok (some o) ∧ ∀ d ∈ o.dependencies,
        ∃ z ∈ g.representations, ∃ o', outputOf z = .ok (some o') ∧
          o'.slot = d.1 ∧ o'.artifactRevision = d.2 := by
  obtain ⟨x, hx, hxy⟩ := h.joined.representations.added y hy
  obtain ⟨actives, hactives, hfresh⟩ := h.outputs
  refine ⟨x, hx, hxy, fun o ho => ?_⟩
  obtain ⟨existing, hexisting⟩ := (outputsOf_ok.mp hactives).1 x hx
  have hxo := outputOf_of_beq hxy hexisting ho
  refine ⟨hxo, fun d hd => ?_⟩
  have hdeclared : declared x = some ⟨x, o⟩ := by simp [declared, hxo]
  have ha := mem_of_declared hactives hx hdeclared
  have hnode : (⟨x, o⟩ : Active).node ∈ actives.map (·.node) := List.mem_map.mpr ⟨_, ha, rfl⟩
  obtain ⟨n, hn, hslot, hrevision, -⟩ := Dependencies.fresh_of_not_stale hnode (hfresh _ ha) hd
  obtain ⟨b, hb, rfl⟩ := List.mem_map.mp hn
  obtain ⟨hrep, houtput⟩ := mem_outputs hactives hb
  exact ⟨b.rep, hrep, b.output, houtput, hslot, hrevision⟩

/-- Everything but the facets is as it should be. -/
theorem Renewed.freshGeneration (h : Renewed old base remove preserved g)
    (hfacets : ∀ f ∈ g.facets, Brought base.facets f) : FreshGeneration old base remove g where
  representations r hr := by
    rcases h.joined.representations.only r hr with hkept | hnew
    · exact .inr ((h.marked r).mp hkept)
    · exact .inl ⟨r, hnew, BEq.rfl⟩
  units u hu := by
    rcases h.joined.units.only u hu with hkept | hnew
    · exact .inr (h.unit_owner hkept)
    · exact .inl ⟨u, hnew, BEq.rfl⟩
  vectors v hv := by
    rcases h.joined.vectors.only v hv with hkept | hnew
    · obtain ⟨hv, hmem⟩ := List.mem_filter.mp hkept
      rw [decide_eq_true_eq] at hmem
      obtain ⟨u, hu, huv⟩ := List.mem_map.mp hmem
      obtain ⟨hu, hr⟩ := h.unit_owner hu
      exact .inr ⟨hv, u, hu, huv, hr⟩
    · exact .inl ⟨v, hnew, BEq.rfl⟩
  facets := hfacets
  incoming y hy := h.incoming hy
  incoming_units := h.joined.units.added
  incoming_vectors := h.joined.vectors.added
  independent r hr := by
    have hpreserved := (h.marked r).mpr hr
    refine ⟨h.joined.representations.kept r hpreserved, fun u hu hid => ?_⟩
    have howned : u ∈ (PreparedResourceBatch.owned old preserved).units := by
      refine List.mem_filter.mpr ⟨hu, ?_⟩
      rw [decide_eq_true_eq]
      exact List.mem_map.mpr ⟨r, hpreserved, hid.symm⟩
    refine ⟨h.joined.units.kept u howned, fun v hv hvu => h.joined.vectors.kept v ?_⟩
    refine List.mem_filter.mpr ⟨hv, ?_⟩
    rw [decide_eq_true_eq]
    exact List.mem_map.mpr ⟨u, howned, hvu.symm⟩

/-- Facets are as they should be iff the base makes every stored assignment again. -/
theorem Renewed.facets_iff (h : Renewed old base remove preserved g) :
    (∀ f ∈ g.facets, Brought base.facets f) ↔ ∀ f ∈ old.facets, ∃ b ∈ base.facets, b.key = f.key := by
  constructor
  · intro hall f hf
    obtain ⟨b, hb, heq⟩ := hall f (h.joined.facets.kept f hf)
    exact ⟨b, hb, (ResourceFacet.key_of_beq heq).symm⟩
  · intro hall f hf
    rcases h.joined.facets.only f hf with hkept | hnew
    · obtain ⟨b, hb, hkey⟩ := hall f hkept
      exact ⟨b, hb, h.joined.facets_agree b hb f hkept hkey.symm⟩
    · exact ⟨f, hnew, BEq.rfl⟩

end Changed

/-- Equal resources have one source revision. -/
theorem sourceRevision_of_beq {a b : ResourceRecord} (h : (a == b) = true) {generation : NonEmptyText}
    (hb : sourceRevision b = .ok generation) : sourceRevision a = .ok generation := by
  have hfields := field_congr (ResourceRecord.metadata_of_beq h) "source_revision"
  unfold sourceRevision at hb ⊢
  rcases hfields with ⟨-, hnone⟩ | ⟨v, v', hv, hv', heq⟩
  · rw [show b.metadata.get? "source_revision" = none from hnone] at hb
    cases hb
  · rw [show b.metadata.get? "source_revision" = some v' from hv'] at hb
    rw [show a.metadata.get? "source_revision" = some v from hv]
    cases v' <;> simp only [reduceCtorEq] at hb
    have hstr : v = .str _ := eq_str_of_pyEq heq
    rw [hstr]
    exact hb

/-- A document whose front matter makes some tag assignments; `body` is its text. -/
def taggedDocument (revision body : String) (notes : List RepresentationRecord)
    (facets : List ResourceFacet) (h : isFrozen [("source_revision", .str revision)] = true) :
    PreparedResourceBatch where
  resource := { sampleSource with metadata := ⟨[("source_revision", .str revision)], h⟩ }
  representations := ⟨⟨"text", Eq.refl true⟩, sampleSource.resourceId, ⟨"text", Eq.refl true⟩,
    ⟨"text", Eq.refl true⟩, some body, none, none, none, .empty⟩ :: notes
  units := ⟨⟨"text", Eq.refl true⟩, sampleSource.resourceId, ⟨"text", Eq.refl true⟩,
    ⟨"whole_resource", Eq.refl true⟩, ⟨"text", Eq.refl true⟩, some body, sampleSource.locator, 0,
    none, .empty⟩ :: notes.map fun r => ⟨r.representationId, sampleSource.resourceId,
      r.representationId, ⟨"whole_resource", Eq.refl true⟩, ⟨"text", Eq.refl true⟩, some "note",
      sampleSource.locator, 0, none, .empty⟩
  spaces := []
  vectors := []
  facets := facets

/-- A remark that does not depend on the source. -/
def remark : RepresentationRecord :=
  ⟨⟨"remark", Eq.refl true⟩, sampleSource.resourceId, ⟨"note", Eq.refl true⟩, ⟨"text", Eq.refl true⟩,
    some "note", none, none, none, ⟨[("source_independent", .bool true)], by decide +kernel⟩⟩

def draftTag : ResourceFacet :=
  ⟨sampleSource.resourceId, ⟨⟨"tag", Eq.refl true⟩, ⟨"draft", Eq.refl true⟩⟩,
    ⟨"frontmatter", Eq.refl true⟩, none, none⟩

def firstEdition : PreparedResourceBatch :=
  taggedDocument "e1" "first" [remark] [draftTag] (by decide +kernel)

/-- The second edition, with its tags. -/
def secondEdition (tags : List ResourceFacet) : PreparedResourceBatch :=
  taggedDocument "s2" "second" [] tags (by decide +kernel)

def firstSnapshot : ResourceSnapshot where
  state := sampleSnapshot.state
  batch := some firstEdition
  agree := rfl
  owned b hb := by cases hb; rfl

theorem firstEdition_valid : ValidBatch firstEdition :=
  validatePreparedBatch_ok.mp (by decide +kernel)

theorem editions_differ (tags : List ResourceFacet) :
    sourceRevision (secondEdition tags).resource ≠ sourceRevision firstEdition.resource := by
  change sourceRevision (secondEdition []).resource ≠ sourceRevision firstEdition.resource
  decide +kernel

end MDRack.Reindex
