import MDRack.Sqlite.GraphReader
import MDRack.Lib.Transaction

/-!
# The resource store (`SQLiteResourceStore`)

Each operation is one transaction: a body of statements, failure points and token draws between
`BEGIN IMMEDIATE` and `COMMIT`, rolled back on any error.  The tables are those of a v2 catalog
with the builtin vector backend, whose own hooks do nothing.

* `publishBody`, `removeBody`, `deleteBody`, `rebuildBody`, `snapshotBody` — the bodies.
* `Op`, `perform` — the public operations with their error mapping.
-/

namespace MDRack

open Checks Transaction

abbrev Body (α : Type) := Prog Tables Err α

/-! ## Publication states -/

def decodeState (resourceId : NonEmptyText) (row : StateRow) : Except Err PublicationState := do
  let _ ← decodeMapping row.sourceMetadataJson "source.metadata"
  let locator ← decodeLocator row.sourceLocatorKind row.sourceLocatorJson "source_locator"
  let lifecycleId ← requireNonEmpty row.lifecycleId "publication identity"
  let stateToken ← requireNonEmpty row.stateToken "publication identity"
  let sourceNamespace ← requireNonEmpty row.sourceNamespace "publication identity"
  .ok ⟨resourceId, some ⟨row.status, lifecycleId, stateToken, sourceNamespace, locator⟩⟩

/-- `_read_state`. -/
def readState (resourceId : NonEmptyText) (t : Tables) : Except Err PublicationState :=
  match t.states.find? fun s => s.resourceId = resourceId.text with
  | none => .ok (.neverCreated resourceId)
  | some row => decodeState resourceId row

/-- The source binding `_put_state` writes. -/
def stateSource (previous : PublicationState) (batch : Option PreparedResourceBatch) :
    Except Err (NonEmptyText × Locator) :=
  match batch, previous.binding with
  | some b, _ => .ok (b.resource.sourceNamespace, b.resource.locator)
  | none, some binding => .ok (binding.sourceNamespace, binding.sourceLocator)
  | none, none => .error .assertionError

/-- `live source binding cannot change`. -/
def keepsLiveSource (previous : PublicationState) (source : NonEmptyText × Locator) : Bool :=
  match previous.binding with
  | some b => !previous.live || (source.1 == b.sourceNamespace && source.2 == b.sourceLocator)
  | none => true

def stateMetadata (previous : PublicationState) (status : PublicationStatus)
    (batch : Option PreparedResourceBatch) (t : Tables) : Except Err String :=
  match status, batch with
  | .deleted, _ => .ok "{}"
  | _, some b => .ok (canonicalJson b.resource.metadata)
  | _, none => getOr (.typeError "'NoneType' object is not subscriptable")
      ((t.states.find? fun s => s.resourceId = previous.resourceId.text).map (·.sourceMetadataJson))

/-- A live state keeps its lifecycle, any other begins a new one. -/
def nextLifecycle (env : Env) (previous : PublicationState) : Body NonEmptyText :=
  match previous.binding with
  | some b => if previous.live then pure b.lifecycleId else do
      let n ← fresh
      pure (env.uuid n)
  | none => do
      let n ← fresh
      pure (env.uuid n)

/-- `_put_state`. -/
def putState (env : Env) (previous : PublicationState) (status : PublicationStatus)
    (batch : Option PreparedResourceBatch) : Body Unit := do
  let source ← ofExcept (stateSource previous batch)
  ofExcept (require (keepsLiveSource previous source)
    (.valueError "live source binding cannot change"))
  let lifecycle ← nextLifecycle env previous
  let metadata ← query (stateMetadata previous status batch)
  let token ← fresh
  execute (upsertState ⟨previous.resourceId.text, status, lifecycle.text, (env.uuid token).text,
    source.1.text, source.2.kind.text, canonicalJson source.2.payload, metadata⟩)
  failurePoint -- after_state

/-! ## Writing a graph -/

/-- `_check_source_identity`. -/
def checkSourceIdentity (p : Prepared) (t : Tables) : Except Err Unit := do
  let row := p.resourceValues
  require (∀ r ∈ t.resources, r.resourceId = row.resourceId → r.sourceKey = row.sourceKey)
    (.valueError "resource_id is bound to another source identity")
  require (∀ r ∈ t.resources, r.sourceKey = row.sourceKey → r.resourceId = row.resourceId)
    (.valueError "source identity is bound to another resource_id")

/-- `_check_spaces`. -/
def checkSpaces (p : Prepared) (t : Tables) : Except Err Unit :=
  checkAll (fun row => require (∀ s ∈ t.spaces, s.spaceId = row.spaceId → s = row)
    (.valueError "embedding space identity mismatch")) p.spaceValues

/-- The three statements of one facet assignment. -/
def writeFacet (resourceId : String) (f : FacetValues) (t : Tables) : Except Err Tables := do
  let t ← insertFacet f.facetNamespace f.value t
  let facetId ← selectFacetId f.facetNamespace f.value t
  insertResourceFacet
    ⟨resourceId, facetId, f.origin, f.producerIsNull, f.producerValue, f.confidenceJson⟩ t

/-- `_unit_from_row` of a unit joined with its representation. -/
def verifyUnit (t : Tables) (row : UnitRow) : Except Err Unit :=
  match t.representations.find? fun p => p.representationId = row.representationId with
  | none => .ok ()
  | some p => do
    require (p.resourceId = row.resourceId ∧ p.modality = row.modality)
      (.catalogExecution .catalogError)
    let _ ← decodeUnit row
    .ok ()

def verifyVector (t : Tables) (v : VectorRecord) : Except Err Unit := do
  let e ← getOr (.typeError "'NoneType' object is not subscriptable")
    (t.embeddings.find? fun e => e.unitId = v.unitId.text ∧ e.spaceId = v.spaceId.text)
  let _ ← decodeJoinedEmbedding t e
  .ok ()

/-- `_verify`: the written graph is complete and readable. -/
def verifyGraph (env : Env) (batch : PreparedResourceBatch) (t : Tables) : Except Err Unit := do
  let id := batch.resource.resourceId.text
  require ((representationsOf t id).length = batch.representations.length ∧
    (unitsOf t id).length = batch.units.length ∧
    (embeddingsOf t id).length = batch.vectors.length ∧
    (resourceFacetsOf t id).length = batch.facets.length)
    (.runtimeError "resource graph count invariant failed")
  require (∀ p ∈ representationsOf t id, ∃ u ∈ t.units, u.representationId = p.representationId)
    (.runtimeError "representation ownership invariant failed")
  require ((∀ u ∈ unitsOf t id, (∃ f ∈ t.fts, f.unitId = u.unitId) ↔ hasText u.textContent) ∧
    foreignKeysHold t) (.runtimeError "FTS or foreign-key invariant failed")
  let row ← getOr (.typeError "'NoneType' object is not subscriptable")
    (t.resources.find? fun r => r.resourceId = id)
  let _ ← decodeResource env row
  checkAll (verifyUnit t) (unitsOf t id)
  checkAll (verifyVector t) batch.vectors
  checkAll (fun a => validateFacetRow a.producerIsNull a.producerValue a.confidenceJson)
    (resourceFacetsOf t id)

/-- `_write_graph`. -/
def writeGraph (env : Env) (p : Prepared) : Body Unit := do
  let id := p.resourceValues.resourceId
  query (checkSourceIdentity p)
  query (checkSpaces p)
  execute (deleteFts id)
  execute (deleteResourceRow id)
  failurePoint -- after_delete
  execute (insertResource p.resourceValues)
  forEach insertSpace p.spaceValues
  forEach insertRepresentation p.representationValues
  failurePoint -- after_representations
  forEach insertUnit p.unitValues
  failurePoint -- after_units
  forEach insertEmbedding p.vectorValues
  failurePoint -- after_vectors
  forEach (writeFacet id) p.facetValues
  failurePoint -- after_facets
  forEach insertFts p.ftsValues
  failurePoint -- after_fts
  execute pruneFacets
  query (verifyGraph env p.batch)

/-! ## Transaction bodies -/

/-- `_publish`. -/
def publishBody (env : Env) (p : Prepared) (expected : Option ExpectedPublication) :
    Body (Finish × PublicationResult) := do
  failurePoint -- after_begin
  let previous ← query (readState p.batch.resource.resourceId)
  if expected.any fun e => previous != e.state then
    pure (.rollback, ⟨false, previous⟩)
  else
    writeGraph env p
    putState env previous .published (some p.batch)
    failurePoint -- before_commit
    let state ← query (readState p.batch.resource.resourceId)
    pure (.commit, ⟨true, state⟩)

/-- `_remove_if_current`. -/
def removeBody (env : Env) (resourceId : NonEmptyText) (expected : ExpectedPublication)
    (delete : Bool) : Body (Finish × PublicationResult) := do
  let previous ← query (readState resourceId)
  if previous != expected.state then
    pure (.rollback, ⟨false, previous⟩)
  else
    execute (deleteFts resourceId.text)
    execute (deleteResourceRow resourceId.text)
    failurePoint -- after_delete
    putState env previous (if delete then .deleted else .liveWithoutProjections) none
    execute pruneFacets
    let state ← query (readState resourceId)
    failurePoint -- before_commit
    pure (.commit, ⟨true, state⟩)

/-- `_delete_resource`. -/
def deleteBody (env : Env) (resourceId : NonEmptyText) : Body (Finish × Bool) := do
  failurePoint -- after_begin
  let state ← query (readState resourceId)
  execute (deleteFts resourceId.text)
  execute (deleteResourceRow resourceId.text)
  failurePoint -- after_delete
  if state.live then
    putState env state .deleted none
  execute pruneFacets
  failurePoint -- before_commit
  pure (.commit, state.live)

/-- The rows `rebuild_fts_index` inserts. -/
def rebuiltFts (t : Tables) : List FtsRow :=
  (orderBy (fun u : UnitRow => (u.unitId, 0, "")) t.units).filterMap
    fun u => ftsRow? u.unitId u.textContent

/-- `rebuild_fts_index`. -/
def rebuildBody : Body (Finish × Nat) := do
  execute fun t => .ok { t with fts := [] }
  let rows ← query fun t => .ok (rebuiltFts t)
  forEach insertFts rows
  let count ← query fun t => .ok t.fts.length
  failurePoint -- before_commit
  pure (.commit, count)

/-- `read_snapshot`; its transaction is always rolled back. -/
def snapshotBody (env : Env) (resourceId : NonEmptyText) : Body (Finish × ResourceSnapshot) := do
  let state ← query (readState resourceId)
  failurePoint -- after_snapshot_state
  let batch ← query fun t => readGraph env t resourceId.text
  let snapshot ← ofExcept (ResourceSnapshot.make state batch)
  pure (.rollback, snapshot)

/-! ## Public operations -/

inductive Op
  | readSnapshot (resourceId : String)
  | compareAndPublish (batch : PreparedResourceBatch) (expected : ExpectedPublication)
  | withdrawIfCurrent (resourceId : String) (expected : ExpectedPublication)
  | deleteIfCurrent (resourceId : String) (expected : ExpectedPublication)
  | replaceResource (batch : PreparedResourceBatch)
  | deleteResource (resourceId : String)
  | deleteLiveResource (resourceId : String)
  | rebuildFtsIndex

/-- What an operation returns. -/
inductive Answer
  | snapshot (value : ResourceSnapshot)
  | publication (value : PublicationResult)
  | existed (value : Bool)
  | count (value : Nat)
  | done

/-- `sqlite3.OperationalError` and other exceptions become `CatalogExecutionError`. -/
def catalogError : Err → Err
  | .operational busy => .catalogExecution (if busy then .adapterTimeout else .catalogError)
  | .interrupted => .interrupted
  | .catalogExecution category => .catalogExecution category
  | _ => .catalogExecution .catalogError

abbrev Store := Conn Tables

/-- Run one body as a transaction and map its errors. -/
def Store.transaction {α : Type} (store : Store) (faults : Faults Err) (body : Body (Finish × α))
    (answer : α → Answer) (onError : Err → Err) : Except Err Answer × Store :=
  let result := transact faults body store
  ((result.1.map answer).mapError onError, result.2)

/-- `_refuse_external_transaction`, then the operation. -/
def Store.exclusive (store : Store) (run : Unit → Except Err Answer × Store) :
    Except Err Answer × Store :=
  match store.working with
  | some _ => (.error .activeTransaction, store)
  | none => run ()

/-- The withdrawal and deletion share `_remove_safely`. -/
def Store.removeSafely (env : Env) (faults : Faults Err) (resourceId : String)
    (expected : ExpectedPublication) (delete : Bool) (store : Store) : Except Err Answer × Store :=
  if expected.create = true ∨ expected.state.resourceId.text ≠ resourceId then
    (.error (.catalogExecution .catalogError), store)
  else
    store.exclusive fun _ => store.transaction faults
      (removeBody env expected.state.resourceId expected delete) .publication catalogError

def Store.deleteAny (env : Env) (faults : Faults Err) (resourceId : String)
    (answer : Bool → Answer) (store : Store) : Except Err Answer × Store :=
  store.exclusive fun _ =>
    match requireNonEmpty resourceId "resource_id" with
    | .error _ => (.error (.catalogExecution .catalogError), store)
    | .ok resourceId => store.transaction faults (deleteBody env resourceId) answer catalogError

def Op.perform (env : Env) (faults : Faults Err) (store : Store) : Op → Except Err Answer × Store
  | .readSnapshot resourceId =>
    match requireNonEmpty resourceId "resource_id" with
    | .error e => (.error e, store)
    | .ok resourceId => store.exclusive fun _ =>
      store.transaction faults (snapshotBody env resourceId) .snapshot catalogError
  | .compareAndPublish batch expected =>
    match preflight env batch with
    | .error e => (.error e, store)
    | .ok p =>
      if expected.state.resourceId ≠ batch.resource.resourceId then
        (.error (.valueError "invalid expected state"), store)
      else
        store.exclusive fun _ =>
          store.transaction faults (publishBody env p (some expected)) .publication catalogError
  | .withdrawIfCurrent resourceId expected => store.removeSafely env faults resourceId expected false
  | .deleteIfCurrent resourceId expected => store.removeSafely env faults resourceId expected true
  | .replaceResource batch =>
    match preflight env batch, store.working with
    | .ok p, none => store.transaction faults (publishBody env p none) (fun _ => .done) catalogError
    | _, _ => (.error (.catalogExecution .catalogError), store)
  | .deleteResource resourceId => store.deleteAny env faults resourceId fun _ => .done
  | .deleteLiveResource resourceId => store.deleteAny env faults resourceId .existed
  | .rebuildFtsIndex => store.exclusive fun _ =>
      store.transaction faults rebuildBody .count id

/-! ## A small catalog -/

/-- Tokens that count up. -/
def sampleToken (n : Nat) : NonEmptyText :=
  ⟨String.ofList ('u' :: Nat.toDigits 10 n), by simp [hasVisible, isSpace]⟩

theorem sampleToken_injective (m n : Nat) (h : sampleToken m = sampleToken n) : m = n := by
  have hdigits := congrArg (fun t => t.text.toList) h
  simp only [sampleToken, String.toList_ofList, List.cons.injEq, true_and] at hdigits
  simpa [Nat.ofDigitChars_ten_toDigits] using
    congrArg (fun digits => Nat.ofDigitChars 10 digits 0) hdigits

def sampleEnv : Env where
  sha256 _ := "e3b0c44298fc1c149afbf4c8996fb92427ae41e4649b934ca495991b7852b855"
  uuid := sampleToken
  uuid_injective := sampleToken_injective

def sampleResource : ResourceRecord where
  resourceId := ⟨"note", Eq.refl true⟩
  resourceKind := ⟨"document", Eq.refl true⟩
  mediaType := ⟨"text/plain", Eq.refl true⟩
  sourceNamespace := ⟨"notes", Eq.refl true⟩
  locator := ⟨⟨"file", Eq.refl true⟩, .empty⟩
  contentHash := none
  title := some "Note"
  metadata := .empty

/-- One resource with one representation and one unit. -/
def sampleBatch : PreparedResourceBatch where
  resource := sampleResource
  representations := [⟨⟨"body", Eq.refl true⟩, sampleResource.resourceId,
    ⟨"retrieval_text", Eq.refl true⟩, ⟨"text", Eq.refl true⟩, some "hello", none, none, none, .empty⟩]
  units := [⟨⟨"chunk", Eq.refl true⟩, sampleResource.resourceId, ⟨"body", Eq.refl true⟩,
    ⟨"text_chunk", Eq.refl true⟩, ⟨"text", Eq.refl true⟩, some "hello",
    ⟨⟨"chars", Eq.refl true⟩, .empty⟩, 0, none, .empty⟩]
  spaces := []
  vectors := []
  facets := []

/-- A store after one operation without faults. -/
def Store.after (store : Store) (op : Op) : Store := (op.perform sampleEnv noFaults store).2

example : (Store.after (Conn.idle .empty 0) (.replaceResource sampleBatch)).committed.fts =
    [⟨"chunk", "hello"⟩] := by decide +kernel

example : ((Store.after (Conn.idle .empty 0) (.replaceResource sampleBatch)).after
    (.deleteResource "note")).committed.fts = [] := by decide +kernel

end MDRack
