import MDRack.Enrichment.Merge
import MDRack.Lib.Dict
import MDRack.Lib.Sorting

/-!
# Producer reconciliation (`mdrack.application.reindexing.reconcile`)

A producer supplies a complete base for a resource.  Reconciliation keeps of the stored graph what
the base does not replace, joins the two, and prunes what is stale.

Principal results: `union_ok` — what a union holds; `reconcileWith_ok` — what is joined and pruned.
-/

namespace MDRack.Reindex

open Checks Enrichment Sorting
open Json (Value)

/-! ## Parts of a resource -/

/-- `_SOURCE_KEYS`. -/
def sourceKeys : List String :=
  ["source_revision", "source_revision_kind", "provenance", "ingestion", "derived", "source",
    "adapter", "byte_size"]

/-- `source_revision`. -/
def sourceRevision (resource : ResourceRecord) : Except Err NonEmptyText :=
  match resource.metadata.get? "source_revision" with
  | some (.str s) =>
    if h : hasVisible s = true then .ok ⟨s, h⟩
    else .error (.valueError "source_generation_unavailable")
  | _ => .error (.valueError "source_generation_unavailable")

/-- `_raw`. -/
def raw (resource : ResourceRecord) : Value :=
  match resource.metadata.get? "provenance" with
  | some (.obj provenance) => (field provenance "raw_source_sha256").getD .null
  | _ => .null

/-- `ResourceRecord(metadata=...)` of a joined dictionary; its values are frozen already. -/
def freezeMapping (fields : List (String × Value)) : Except Err Mapping := do
  let sorted := sortOn (fun f : String × Value => f.1) fields
  require (Json.itemCount (.obj sorted) ≤ maxJsonItems)
    (.valueError "JSON value exceeds maximum item count 10000")
  require ((Json.dumps (.obj sorted)).utf8ByteSize ≤ maxJsonBytes)
    (.valueError "metadata exceeds maximum encoded size 1000000")
  if h : isFrozen sorted = true then .ok ⟨sorted, h⟩
  else .error (.valueError "value must use the JSON-safe scalar/list/map grammar")

/-- One key of the new metadata. -/
def mergeField (metadata : List (String × Value)) (f : String × Value) :
    Except Err (List (String × Value)) := do
  require (f.1 ∈ sourceKeys ∨ ∀ e ∈ metadata, e.1 = f.1 → (e.2 == f.2) = true)
    (.valueError "independent_metadata_conflict")
  .ok (Dict.upsert f.1 (fun _ => f.2) metadata)

/-- The metadata of the old resource, updated by the new one. -/
def mergeMetadata (old new : Mapping) : Except Err (List (String × Value)) :=
  new.fields.foldlM mergeField old.fields

/-- The update goes through iff it changes no value outside the source keys. -/
theorem mergeFields_ok {fields metadata result : List (String × Value)}
    (hkeys : (fields.map (·.1)).Nodup) : fields.foldlM mergeField metadata = .ok result ↔
      (∀ f ∈ fields, f.1 ∈ sourceKeys ∨ ∀ e ∈ metadata, e.1 = f.1 → (e.2 == f.2) = true) ∧
        result = fields.foldl (fun d f => Dict.upsert f.1 (fun _ => f.2) d) metadata := by
  induction fields generalizing metadata with
  | nil =>
    simp only [List.foldlM_nil, pure, Except.pure, Except.ok.injEq, List.not_mem_nil, false_implies,
      implies_true, true_and, List.foldl_nil]
    exact eq_comm
  | cons f rest ih =>
    rw [List.map_cons, List.nodup_cons] at hkeys
    have hothers : (∀ g ∈ rest, g.1 ∈ sourceKeys ∨
        ∀ e ∈ Dict.upsert f.1 (fun _ => f.2) metadata, e.1 = g.1 → (e.2 == g.2) = true) ↔
        ∀ g ∈ rest, g.1 ∈ sourceKeys ∨ ∀ e ∈ metadata, e.1 = g.1 → (e.2 == g.2) = true := by
      refine forall₂_congr fun g hg => or_congr_right ?_
      have hne : f.1 ≠ g.1 := fun heq => hkeys.1 (List.mem_map.mpr ⟨g, hg, heq.symm⟩)
      refine forall_congr' fun e => ?_
      by_cases heg : e.1 = g.1
      · rw [Dict.mem_upsert_other (heg ▸ hne.symm)]
      · simp only [heg, false_implies, implies_true]
    rw [List.foldlM_cons, bind_ok, List.foldl_cons, List.forall_mem_cons, ← hothers]
    simp only [mergeField, bind_ok, require_ok, exists_const, Except.ok.injEq]
    constructor
    · rintro ⟨_, ⟨hf, rfl⟩, hrun⟩
      obtain ⟨hall, hresult⟩ := (ih hkeys.2).mp hrun
      exact ⟨⟨hf, hall⟩, hresult⟩
    · rintro ⟨⟨hf, hall⟩, hresult⟩
      exact ⟨_, ⟨hf, rfl⟩, (ih hkeys.2).mpr ⟨hall, hresult⟩⟩

theorem mergeFields_other {fields metadata : List (String × Value)} {key : String}
    (h : key ∉ fields.map (·.1)) :
    (fields.foldl (fun d f => Dict.upsert f.1 (fun _ => f.2) d) metadata).find?
      (fun e => e.1 = key) = metadata.find? fun e => e.1 = key := by
  induction fields generalizing metadata with
  | nil => rfl
  | cons g rest ih =>
    rw [List.map_cons, List.mem_cons, not_or] at h
    rw [List.foldl_cons, ih h.2, Dict.find?_upsert_other h.1]

/-- A key of the new metadata has the new value. -/
theorem mergeFields_find? {fields metadata : List (String × Value)}
    (hkeys : (fields.map (·.1)).Nodup) {f : String × Value} (hf : f ∈ fields) :
    (fields.foldl (fun d f => Dict.upsert f.1 (fun _ => f.2) d) metadata).find?
      (fun e => e.1 = f.1) = some f := by
  induction fields generalizing metadata with
  | nil => cases hf
  | cons g rest ih =>
    rw [List.map_cons, List.nodup_cons] at hkeys
    rw [List.foldl_cons]
    rcases List.mem_cons.mp hf with rfl | hf
    · rw [mergeFields_other hkeys.1, Dict.find?_upsert_self]
    · exact ih hkeys.2 hf

theorem mergeFields_nodup {fields metadata : List (String × Value)}
    (h : (metadata.map (·.1)).Nodup) :
    ((fields.foldl (fun d f => Dict.upsert f.1 (fun _ => f.2) d) metadata).map (·.1)).Nodup := by
  induction fields generalizing metadata with
  | nil => exact h
  | cons f rest ih => exact ih (Dict.nodup_upsert h)

theorem freezeMapping_get? {fields : List (String × Value)} {m : Mapping}
    (hkeys : (fields.map (·.1)).Nodup) (h : freezeMapping fields = .ok m) (key : String) :
    m.get? key = (fields.find? fun f => f.1 = key).map (·.2) := by
  simp only [freezeMapping, bind_ok, require_ok, exists_const] at h
  obtain ⟨-, -, h⟩ := h
  split at h
  · cases h
    have hfind : fields.find? (fun f => decide (f.1 = key)) =
        (sortOn (fun f : String × Value => f.1) fields).find? (fun f => decide (f.1 = key)) :=
      Table.find?_perm hkeys (sortOn_perm (fun f : String × Value => f.1) fields).symm key
    rw [hfind]
    rfl
  · cases h

/-! ## Union -/

section Union

variable {κ α : Type} [DecidableEq κ]

/-- `{key(value): value for value in old}`. -/
def keyed (key : α → κ) (old : List α) : List (κ × α) :=
  old.foldl (fun result value => Dict.upsert (key value) (fun _ => value) result) []

/-- One value of `new`. -/
def unionStep [BEq α] (key : α → κ) (result : List (κ × α)) (value : α) : Except Err (List (κ × α)) :=
  match result.find? fun e => e.1 = key value with
  | some e => do
    require ((e.2 == value) = true) (.valueError "independent_projection_identity_conflict")
    .ok result
  | none => .ok (result ++ [(key value, value)])

/-- `_union`. -/
def union [BEq α] (key : α → κ) (old new : List α) : Except Err (List α) := do
  let result ← new.foldlM (unionStep key) (keyed key old)
  .ok (result.map (·.2))

variable {key : α → κ} {old new result : List α}

def entriesOf (key : α → κ) (values : List α) : List (κ × α) := values.map fun v => (key v, v)

omit [DecidableEq κ] in
theorem keys_entriesOf (values : List α) : (entriesOf key values).map (·.1) = values.map key := by
  rw [entriesOf, List.map_map]
  rfl

theorem keyed_of_nodup (h : (old.map key).Nodup) : keyed key old = entriesOf key old := by
  have hfold : ∀ done rest : List α, ((done ++ rest).map key).Nodup →
      rest.foldl (fun result value => Dict.upsert (key value) (fun _ => value) result)
        (entriesOf key done) = entriesOf key (done ++ rest) := by
    intro done rest
    induction rest generalizing done with
    | nil =>
      intro _
      rw [List.append_nil]
      rfl
    | cons v rest ih =>
      intro hnodup
      have hsplit : done ++ v :: rest = (done ++ [v]) ++ rest := by simp
      have hnew : key v ∉ (entriesOf key done).map (·.1) := by
        rw [keys_entriesOf]
        intro hmem
        obtain ⟨x, hx, hxv⟩ := List.mem_map.mp hmem
        exact Table.key_ne_of_nodup_append hnodup hx List.mem_cons_self hxv
      rw [List.foldl_cons, Dict.upsert_new hnew, hsplit]
      rw [hsplit] at hnodup
      have hdone : entriesOf key done ++ [(key v, v)] = entriesOf key (done ++ [v]) := by
        simp [entriesOf]
      rw [hdone]
      exact ih (done ++ [v]) hnodup
  exact hfold [] old h

variable [BEq α]

/-- Equal identities must be equal values; only new identities are added. -/
theorem unionFold_ok {base : List α} {d : List (κ × α)} (hbase : (base.map key).Nodup)
    (hnew : (new.map key).Nodup) :
    new.foldlM (unionStep key) (entriesOf key base) = .ok d ↔
      (∀ y ∈ new, ∀ x ∈ base, key x = key y → (x == y) = true) ∧
        d = entriesOf key (base ++ new.filter fun y => key y ∉ base.map key) := by
  induction new generalizing base with
  | nil =>
    simp only [List.foldlM_nil, pure, Except.pure, Except.ok.injEq, List.filter_nil, List.append_nil,
      List.not_mem_nil, false_implies, implies_true, true_and]
    exact eq_comm
  | cons y rest ih =>
    rw [List.map_cons, List.nodup_cons] at hnew
    have hother : ∀ z ∈ rest, key z ≠ key y :=
      fun z hz heq => hnew.1 (List.mem_map.mpr ⟨z, hz, heq⟩)
    rw [List.foldlM_cons, bind_ok]
    by_cases hmem : key y ∈ base.map key
    · obtain ⟨x, hx, hxy⟩ := List.mem_map.mp hmem
      have hfind : (entriesOf key base).find? (fun e => e.1 = key y) = some (key x, x) := by
        have hnodup : ((entriesOf key base).map fun e => e.1).Nodup := by rwa [keys_entriesOf]
        exact Table.find?_eq_of_mem hnodup (List.mem_map.mpr ⟨x, hx, rfl⟩) hxy
      have hstep : ∀ next, unionStep key (entriesOf key base) y = .ok next ↔
          (x == y) = true ∧ next = entriesOf key base := by
        intro next
        simp only [unionStep, hfind, bind_ok, require_ok, exists_const, Except.ok.injEq]
        exact and_congr_right fun _ => eq_comm
      have honly : ∀ z ∈ base, key z = key y → z = x :=
        fun z hz hzy => Table.eq_of_key_eq hbase hz hx (hzy.trans hxy.symm)
      rw [List.filter_cons_of_neg (by simpa using hmem), List.forall_mem_cons]
      constructor
      · rintro ⟨next, hnext, hrun⟩
        obtain ⟨heq, rfl⟩ := (hstep next).mp hnext
        obtain ⟨hall, hd⟩ := (ih hbase hnew.2).mp hrun
        refine ⟨⟨fun z hz hzy => ?_, hall⟩, hd⟩
        rwa [honly z hz hzy]
      · rintro ⟨⟨heq, hall⟩, hd⟩
        exact ⟨_, (hstep _).mpr ⟨heq x hx hxy, rfl⟩, (ih hbase hnew.2).mpr ⟨hall, hd⟩⟩
    · have hfind : (entriesOf key base).find? (fun e => e.1 = key y) = none := by
        rw [List.find?_eq_none]
        intro e he
        obtain ⟨x, hx, rfl⟩ := List.mem_map.mp he
        have hne : key x ≠ key y := fun hxy => hmem (List.mem_map.mpr ⟨x, hx, hxy⟩)
        simpa using hne
      have hstep : unionStep key (entriesOf key base) y = .ok (entriesOf key (base ++ [y])) := by
        rw [unionStep, hfind]
        simp [entriesOf]
      have hbase' : ((base ++ [y]).map key).Nodup := by
        refine Table.nodup_map_append hbase (by simp) fun a ha b hb hba => ?_
        rw [List.mem_singleton.mp ha] at hba
        exact hmem (List.mem_map.mpr ⟨b, hb, hba⟩)
      have hfilter : rest.filter (fun z => key z ∉ (base ++ [y]).map key) =
          rest.filter fun z => key z ∉ base.map key := by
        refine List.filter_congr fun z hz => ?_
        simp [hother z hz]
      have hforall : (∀ z ∈ rest, ∀ x ∈ base ++ [y], key x = key z → (x == z) = true) ↔
          ∀ z ∈ rest, ∀ x ∈ base, key x = key z → (x == z) = true := by
        refine forall₂_congr fun z hz => ?_
        rw [List.forall_mem_append]
        refine and_iff_left ?_
        intro x hx hxz
        rw [List.mem_singleton.mp hx] at hxz
        exact absurd hxz.symm (hother z hz)
      have hcons : (y :: rest).filter (fun z => key z ∉ base.map key) =
          y :: rest.filter fun z => key z ∉ base.map key :=
        List.filter_cons_of_pos (by simpa using hmem)
      rw [hcons, List.forall_mem_cons, hstep]
      simp only [Except.ok.injEq, exists_eq_left', ih hbase' hnew.2, hforall, hfilter]
      rw [List.append_assoc, List.singleton_append]
      refine and_congr_left fun _ => ⟨fun hall => ⟨?_, hall⟩, fun h => h.2⟩
      intro x hx hxy
      exact absurd (List.mem_map.mpr ⟨x, hx, hxy⟩) hmem

theorem union_ok (hold : (old.map key).Nodup) (hnew : (new.map key).Nodup) :
    union key old new = .ok result ↔
      (∀ y ∈ new, ∀ x ∈ old, key x = key y → (x == y) = true) ∧
        result = old ++ new.filter fun y => key y ∉ old.map key := by
  have hvalues : ∀ values : List α, (entriesOf key values).map (·.2) = values := by
    intro values
    rw [entriesOf, List.map_map]
    exact List.map_id' values
  simp only [union, bind_ok, Except.ok.injEq]
  rw [keyed_of_nodup hold]
  constructor
  · rintro ⟨d, hrun, rfl⟩
    obtain ⟨hall, rfl⟩ := (unionFold_ok hold hnew).mp hrun
    exact ⟨hall, hvalues _⟩
  · rintro ⟨hall, rfl⟩
    exact ⟨_, (unionFold_ok hold hnew).mpr ⟨hall, rfl⟩, hvalues _⟩

/-- A union holds the old values and, up to `==`, the new ones. -/
structure Unites (old new result : List α) : Prop where
  kept : ∀ x ∈ old, x ∈ result
  added : ∀ y ∈ new, ∃ x ∈ result, (x == y) = true
  only : ∀ x ∈ result, x ∈ old ∨ x ∈ new

theorem union_unites [ReflBEq α] (hold : (old.map key).Nodup) (hnew : (new.map key).Nodup)
    (h : union key old new = .ok result) : Unites old new result := by
  obtain ⟨hagree, rfl⟩ := (union_ok hold hnew).mp h
  refine ⟨fun x hx => List.mem_append_left _ hx, fun y hy => ?_, fun x hx => ?_⟩
  · by_cases hmem : key y ∈ old.map key
    · obtain ⟨x, hx, hxy⟩ := List.mem_map.mp hmem
      exact ⟨x, List.mem_append_left _ hx, hagree y hy x hx hxy⟩
    · exact ⟨y, List.mem_append_right _ (List.mem_filter.mpr ⟨hy, by simpa using hmem⟩), BEq.rfl⟩
  · rcases List.mem_append.mp hx with hx | hx
    · exact .inl hx
    · exact .inr (List.mem_of_mem_filter hx)

end Union

/-! ## Pruning -/

/-- Slots of outputs of another source generation. -/
def staleSource (generation : Option Value) : List Active → Except Err (List Slot)
  | [] => .ok []
  | a :: rest => do
    let independent ← independentOutput a.rep
    let stale ← staleSource generation rest
    .ok (if !independent && !(generation == some (.str a.output.sourceRevision.text))
      then a.slot :: stale else stale)

/-- What is left of a graph without some representations. -/
def PreparedResourceBatch.dropping (batch : PreparedResourceBatch) (removed : List NonEmptyText) :
    PreparedResourceBatch :=
  let units := batch.units.filter fun u => u.representationId ∉ removed
  { batch with
    representations := batch.representations.filter fun r => r.representationId ∉ removed
    units := units
    vectors := batch.vectors.filter fun v => v.unitId ∈ units.map (·.unitId) }

/-- The slots that pruning drops. -/
def prunedSlots (batch : PreparedResourceBatch) (outputs : List Active) : Except Err (List Slot) := do
  let stale ← staleSource (batch.resource.metadata.get? "source_revision") outputs
  let invalid ← invalidDependencies (outputs.filter fun a => a.slot ∉ stale) []
  .ok (stale ++ invalid)

/-- `prune_graph`. -/
def pruneGraph (batch : PreparedResourceBatch) : Except Err (Option PreparedResourceBatch) := do
  let outputs ← outputsOf batch
  let stale ← prunedSlots batch outputs
  let removed := (outputs.filter fun a => a.slot ∈ stale).map (·.rep.representationId)
  let result := PreparedResourceBatch.dropping batch removed
  if result.representations = [] then .ok none
  else do
    validatePreparedBatch result
    .ok (some result)

/-! ## Reconciliation -/

/-- `any(not independent_output(rep) and output.source_revision != generation)`. -/
def anyForeignSource (generation : NonEmptyText) : List Active → Except Err Bool
  | [] => .ok false
  | a :: rest => do
    if ← independentOutput a.rep then anyForeignSource generation rest
    else if a.output.sourceRevision = generation then anyForeignSource generation rest
    else .ok true

/-- `rep.metadata.get("producer_owner") == owner`. -/
def ownedBy (rep : RepresentationRecord) (owner : String) : Bool :=
  rep.metadata.get? "producer_owner" == some (.str owner)

/-- The representation kinds that the base replaces. -/
def baseKinds (owner : String) (incoming : List RepresentationRecord) : List NonEmptyText :=
  (incoming.filter fun r => (r.metadata.get? "enrichment_v1").isNone || ownedBy r owner).map
    (·.representationKind)

/-- What decides which old representations are kept. -/
structure Preserving where
  owner : String
  remove : List Slot
  incomingSlots : List Slot
  kinds : List NonEmptyText
  changed : Bool

/-- The body of the loop over the old representations. -/
def Preserving.keeps (p : Preserving) (rep : RepresentationRecord) : Except Err Bool := do
  let existing ← outputOf rep
  if existing.any fun o => o.slot ∈ p.remove then .ok false
  else if ← independentOutput rep then .ok true
  else if p.changed then .ok false
  else match existing with
    | some o => .ok (o.slot ∉ p.incomingSlots)
    | none => .ok (!ownedBy rep p.owner && !decide (rep.representationKind ∈ p.kinds))

/-- The checks of a base, before it meets a stored graph. -/
def checkIncoming (current : ResourceSnapshot) (resource : ResourceRecord)
    (generation : NonEmptyText) (incoming : PreparedResourceBatch) : Except Err Unit := do
  validatePreparedBatch incoming
  require ((incoming.resource == resource) = true ∧
    incoming.resource.resourceId = current.state.resourceId) (.valueError "producer_resource_mismatch")
  let outputs ← outputsOf incoming
  let foreign ← anyForeignSource generation outputs
  require (foreign = false) (.staleEnrichment "incoming_source_revision_mismatch")
  if current.batch.isNone then do
    let _ ← invalidDependencies outputs (outputs.map (·.slot))
    .ok ()
  else .ok ()

/-- The source may change only with its generation. -/
def checkGeneration (changed : Bool) (old new : ResourceRecord) : Except Err Unit :=
  require (changed = true ∨ ((raw old == raw new) = true ∧ old.sourceNamespace = new.sourceNamespace ∧
    (old.locator == new.locator) = true ∧ old.resourceKind = new.resourceKind ∧
    old.mediaType = new.mediaType)) (.valueError "source_changed_without_new_generation")

/-- The parts of a graph that its kept representations own. -/
def PreparedResourceBatch.owned (old : PreparedResourceBatch) (preserved : List RepresentationRecord) :
    PreparedResourceBatch :=
  let units := old.units.filter fun u => u.representationId ∈ preserved.map (·.representationId)
  let vectors := old.vectors.filter fun v => v.unitId ∈ units.map (·.unitId)
  { old with
    representations := preserved
    units := units
    vectors := vectors
    spaces := old.spaces.filter fun s => vectors.any fun v => v.spaceId = s.spaceId }

/-- A base without parts. -/
def partsOf {α : Type} (incoming : Option PreparedResourceBatch)
    (part : PreparedResourceBatch → List α) : List α :=
  match incoming with
  | none => []
  | some batch => part batch

/-- The resource of the joined graph. -/
def joinedResource (old resource : ResourceRecord) : Except Err ResourceRecord := do
  let metadata ← mergeMetadata old.metadata resource.metadata
  let frozen ← freezeMapping metadata
  .ok { resource with metadata := frozen, title := resource.title.or old.title }

/-- The kept part of the old graph joined with the base. -/
def joinedGraph (old : PreparedResourceBatch) (preserved : List RepresentationRecord)
    (incoming : Option PreparedResourceBatch) (resource : ResourceRecord) :
    Except Err (Option PreparedResourceBatch) := do
  let kept := PreparedResourceBatch.owned old preserved
  let representations ← union (fun r : RepresentationRecord => r.representationId) preserved
    (partsOf incoming (·.representations))
  if representations = [] then .ok none
  else do
    let actual ← joinedResource old.resource resource
    let units ← union (fun u : SearchUnitRecord => u.unitId) kept.units (partsOf incoming (·.units))
    let spaces ← union (fun s : EmbeddingSpaceRecord => s.spaceId) kept.spaces
      (partsOf incoming (·.spaces))
    let vectors ← union VectorRecord.key kept.vectors (partsOf incoming (·.vectors))
    let facets ← union ResourceFacet.key old.facets (partsOf incoming (·.facets))
    .ok (some ⟨actual, representations, units, spaces, vectors, facets⟩)

/-- Reconciliation with a stored graph. -/
def reconcileWith (old : PreparedResourceBatch) (incoming : Option PreparedResourceBatch)
    (resource : ResourceRecord) (generation : NonEmptyText) (owner : String) (remove : List Slot) :
    Except Err (Option PreparedResourceBatch) := do
  let oldGeneration ← sourceRevision old.resource
  let changed := decide (generation ≠ oldGeneration)
  checkGeneration changed old.resource resource
  let incomingOutputs ← match incoming with
    | none => .ok []
    | some batch => outputsOf batch
  let foreign ← anyForeignSource generation incomingOutputs
  require (foreign = false) (.staleEnrichment "incoming_source_revision_mismatch")
  let p : Preserving := ⟨owner, remove, incomingOutputs.map (·.slot),
    baseKinds owner (partsOf incoming (·.representations)), changed⟩
  let preserved ← keepAll p.keeps old.representations
  match ← joinedGraph old preserved incoming resource with
  | none => .ok none
  | some batch => do
    validatePreparedBatch batch
    let outputs ← outputsOf batch
    let _ ← invalidDependencies outputs p.incomingSlots
    pruneGraph batch

/-- `reconcile`. -/
def reconcile (current : ResourceSnapshot) (incoming : Option PreparedResourceBatch)
    (resource : ResourceRecord) (owner : String) (remove : List Slot) :
    Except Err (Option PreparedResourceBatch) := do
  let generation ← sourceRevision resource
  match incoming with
  | none => .ok ()
  | some batch => checkIncoming current resource generation batch
  match current.batch, incoming with
  | none, none => .ok none
  | none, some batch => pruneGraph batch
  | some old, incoming => reconcileWith old incoming resource generation owner remove

end MDRack.Reindex
