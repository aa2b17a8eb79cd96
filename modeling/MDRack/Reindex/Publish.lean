import MDRack.Reindex.Reconcile
import MDRack.Sqlite.Client

/-!
# Conditional reindex publication (`mdrack.application.reindexing.publish_reindex`)

A prepared job is reconciled with the current snapshot and written, or withdrawn, on the condition
that the snapshot is still stored.  The loop stops at each call of the port, where other writers may
interfere.

Principal result: `enter_cases` — what one pass of the loop checked before it calls the port, or
before it ends.
-/

namespace MDRack.Reindex

open Checks Enrichment Interference
open Json (Value)

structure PreparedReindex where
  snapshot : ResourceSnapshot
  incoming : Option PreparedResourceBatch
  resource : ResourceRecord
  owner : String
  inputs : List Slot
  remove : List Slot
  /-- The port that prepared the job, where it is recorded. -/
  publicationOwner : Option Nat

inductive Status
  | published
  | withdrawn
  | alreadyPublished
  | alreadyWithdrawn
  | conflict
  deriving DecidableEq, Repr

/-- What a result tells of its graph. -/
structure Contents where
  representationIds : List NonEmptyText
  unitIds : List NonEmptyText
  vectorCount : Nat
  deriving DecidableEq

/-- `_ReindexResult`; a conflict tells nothing of a graph. -/
structure ReindexResult where
  resourceId : NonEmptyText
  publicationStatus : Status
  attemptCount : Nat
  contents : Option Contents
  deriving DecidableEq

def contentsOf (batch : Option PreparedResourceBatch) : Contents where
  representationIds := partsOf batch fun b => b.representations.map (·.representationId)
  unitIds := partsOf batch fun b => b.units.map (·.unitId)
  vectorCount := (partsOf batch (·.vectors)).length

/-- `_result`. -/
def resultOf (resourceId : NonEmptyText) (status : Status) (attempts : Nat)
    (batch : Option PreparedResourceBatch) : ReindexResult :=
  ⟨resourceId, status, attempts, some (contentsOf batch)⟩

/-! ## Comparisons -/

/-- `==` of two snapshots. -/
def sameSnapshot (a b : ResourceSnapshot) : Bool := a.state == b.state && a.batch == b.batch

/-- `_slot_projection`. -/
def slotProjection (batch : PreparedResourceBatch) (slot : Slot) : Except Err (Option Projection) := do
  let outputs ← outputsOf batch
  .ok ((lookup outputs slot).map fun a => projection batch a.rep.representationId)

/-- `{key(value): value for value in left} == {key(value): value for value in right}`. -/
def sameKeyed {κ α : Type} [DecidableEq κ] [BEq α] (key : α → κ) (left right : List α) : Bool :=
  (keyed key left).length == (keyed key right).length &&
    (keyed key left).all fun e => ((keyed key right).find? fun f => f.1 = e.1).any fun f => e.2 == f.2

/-- `set(left) == set(right)`. -/
def sameSet {α : Type} [BEq α] (left right : List α) : Bool :=
  left.all (fun x => right.any (x == ·)) && right.all fun y => left.any (y == ·)

/-- `_same_graph`. -/
def sameGraph : Option PreparedResourceBatch → Option PreparedResourceBatch → Bool
  | some left, some right =>
    left.resource == right.resource &&
      sameKeyed (fun r : RepresentationRecord => r.representationId) left.representations
        right.representations &&
      sameKeyed (fun u : SearchUnitRecord => u.unitId) left.units right.units &&
      sameKeyed (fun s : EmbeddingSpaceRecord => s.spaceId) left.spaces right.spaces &&
      sameKeyed VectorRecord.key left.vectors right.vectors && sameSet left.facets right.facets
  | none, none => true
  | _, _ => false

structure SourceIdentity where
  revision : NonEmptyText
  sourceNamespace : NonEmptyText
  locator : Locator
  raw : Value
  resourceKind : NonEmptyText
  mediaType : NonEmptyText
  deriving BEq

/-- `_source_identity`. -/
def sourceIdentity (resource : ResourceRecord) : Except Err SourceIdentity := do
  let revision ← sourceRevision resource
  .ok ⟨revision, resource.sourceNamespace, resource.locator, raw resource, resource.resourceKind,
    resource.mediaType⟩

/-! ## The material of a job, for a later state -/

/-- One captured key: where the job has the captured value, the current one takes its place. -/
def rebaseField (current : Mapping) (metadata : List (String × Value)) (f : String × Value) :
    List (String × Value) :=
  if f.1 ∈ sourceKeys then metadata
  else match field metadata f.1 with
    | none => metadata
    | some own =>
      if own == f.2 then
        match current.get? f.1 with
        | some value => Dict.upsert f.1 (fun _ => value) metadata
        | none => metadata.filter fun e => e.1 ≠ f.1
      else metadata

def rebasedResource (resource captured current : ResourceRecord) : Except Err ResourceRecord := do
  let metadata ← freezeMapping
    (captured.metadata.fields.foldl (rebaseField current.metadata) resource.metadata.fields)
  .ok { resource with
    metadata := metadata
    title := if resource.title = captured.title then current.title else resource.title }

/-- `_rebased_material`. -/
def rebasedMaterial (job : PreparedReindex) (current : ResourceSnapshot) :
    Except Err (Option PreparedResourceBatch × ResourceRecord) := do
  let resource ← match job.snapshot.batch, current.batch with
    | some captured, some now => rebasedResource job.resource captured.resource now.resource
    | _, _ => .ok job.resource
  .ok (job.incoming.map fun batch => { batch with resource := resource }, resource)

/-- The graph that the job asks for where `current` is stored. -/
def desiredGraph (job : PreparedReindex) (current : ResourceSnapshot) :
    Except Err (Option PreparedResourceBatch) := do
  let (incoming, resource) ← rebasedMaterial job current
  reconcile current incoming resource job.owner job.remove

/-! ## A state that changed since the capture -/

def lifecycleOf (state : PublicationState) : Option NonEmptyText :=
  state.binding.map (·.lifecycleId)

def isDeleted (state : PublicationState) : Bool := state.binding.any fun b => b.status == .deleted

def checkLifecycle (original current : ResourceSnapshot) : Except Err Unit :=
  require (lifecycleOf current.state = lifecycleOf original.state ∧
    current.state.live = original.state.live ∧
    (isDeleted current.state = true → (current.state == original.state) = true))
    (.staleEnrichment "producer_lifecycle_changed")

/-- The projection that the job itself brings for a slot. -/
def ownProjection (job : PreparedReindex) (slot : Slot) : Except Err (Option Projection) :=
  match job.incoming with
  | none => .ok none
  | some incoming => slotProjection incoming slot

/-- A slot that the job replaces or removes is as captured, or as the job leaves it. -/
def checkTarget (job : PreparedReindex) (was now : PreparedResourceBatch) (slot : Slot) :
    Except Err Unit := do
  let desired ← ownProjection job slot
  let before ← slotProjection was slot
  let after ← slotProjection now slot
  require ((before == after) = true ∨ (desired == after) = true)
    (.staleEnrichment "producer_target_changed")

/-- A captured input is there at its captured revision. -/
def checkInput (previous active : List Active) (slot : Slot) : Except Err Unit :=
  match lookup previous slot, lookup active slot with
  | some a, some b => require (a.output.artifactRevision = b.output.artifactRevision)
      (.staleEnrichment "producer_immediate_input_changed")
  | _, _ => .error (.staleEnrichment "producer_immediate_input_changed")

/-- The slots of `set(targets) | set(job.remove)`. -/
def targetSlots (job : PreparedReindex) : Except Err (List Slot) := do
  let targets ← match job.incoming with
    | none => .ok []
    | some incoming => outputsOf incoming
  .ok (targets.map (·.slot) ++ job.remove)

def checkSlots (job : PreparedReindex) (was now : PreparedResourceBatch) : Except Err Unit := do
  let previous ← outputsOf was
  let active ← outputsOf now
  let slots ← targetSlots job
  checkAll (checkTarget job was now) slots
  checkAll (checkInput previous active) job.inputs

/-- A lost response: the source is already the job's own, and so is the graph. -/
def lostResponse (job : PreparedReindex) (attempts : Nat) (current : ResourceSnapshot)
    (now : SourceIdentity) : Except Err ReindexResult := do
  require (job.incoming.isSome = true) (.staleEnrichment "producer_source_changed")
  let own ← sourceIdentity job.resource
  require ((now == own) = true) (.staleEnrichment "producer_source_changed")
  let desired ← desiredGraph job current
  require (sameGraph current.batch desired = true) (.staleEnrichment "producer_source_changed")
  .ok (resultOf current.state.resourceId .alreadyPublished attempts desired)

/-- The branch of the loop for a changed state; a result ends the run. -/
def checkChanged (job : PreparedReindex) (attempts : Nat) (current : ResourceSnapshot) :
    Except Err (Option ReindexResult) :=
  if sameSnapshot current job.snapshot then .ok none
  else match job.snapshot.batch, current.batch with
  | some was, some now => do
    let before ← sourceIdentity was.resource
    let after ← sourceIdentity now.resource
    if before == after then do
      checkSlots job was now
      .ok none
    else do
      let result ← lostResponse job attempts current after
      .ok (some result)
  | _, _ => .error (.staleEnrichment "producer_source_unavailable")

/-! ## The loop -/

/-- What a run raises; `validation` is `CoreError(ErrorCategory.VALIDATION)`. -/
inductive Failure
  | raised (e : Err)
  | validation
  deriving DecidableEq, Repr

/-- Where `publish_reindex` waits for the port. -/
inductive Pc
  /-- Before the `read_snapshot` that confirms that there is nothing to write. -/
  | confirm (attempts rebases : Nat) (current : ResourceSnapshot)
      (desired : Option PreparedResourceBatch)
  | write (attempts rebases : Nat) (current : ResourceSnapshot)
      (desired : Option PreparedResourceBatch)
  | refresh (attempts rebases : Nat) (current : ResourceSnapshot)
  | finished (outcome : Except Failure ReindexResult)

def Pc.of : Except Failure Pc → Pc
  | .ok pc => pc
  | .error e => .finished (.error e)

def raising {α : Type} : Except Err α → Except Failure α := Except.mapError .raised

/-- The validation of `index_if_current`. -/
def validated : Option PreparedResourceBatch → Except Failure Unit
  | none => .ok ()
  | some batch => (validatePreparedBatch batch).mapError fun _ => .validation

/-- The loop from its top to the next call. -/
def pass (job : PreparedReindex) (allowNoop : Bool) (attempts rebases : Nat)
    (current : ResourceSnapshot) : Except Failure Pc := do
  raising (checkLifecycle job.snapshot current)
  match ← raising (checkChanged job attempts current) with
  | some result => .ok (.finished (.ok result))
  | none => do
    let desired ← raising (desiredGraph job current)
    if allowNoop && current.state.live && sameGraph current.batch desired then
      .ok (.confirm attempts rebases current desired)
    else do
      raising (require (desired = none → current.state.live = true)
        (.valueError "cannot_create_empty_graph"))
      validated desired
      .ok (.write (attempts + 1) rebases current desired)

def enter (job : PreparedReindex) (allowNoop : Bool) (attempts rebases : Nat)
    (current : ResourceSnapshot) : Pc := .of (pass job allowNoop attempts rebases current)

def start (job : PreparedReindex) (port maxRetries : Nat) (allowNoop : Bool) : Pc := .of do
  raising (require (∀ owner ∈ job.publicationOwner, owner = port)
    (.valueError "prepared_operation_belongs_to_other_context"))
  raising (require (maxRetries ≤ 3) (.valueError "invalid_retry_budget"))
  .ok (enter job allowNoop 0 0 job.snapshot)

/-- `{"publication_status": "conflict"}`. -/
def conflict (current : ResourceSnapshot) (attempts : Nat) : Pc :=
  .finished (.ok ⟨current.state.resourceId, .conflict, attempts, none⟩)

/-- The end of a run that had nothing to write. -/
def already (current : ResourceSnapshot) (attempts : Nat) (desired : Option PreparedResourceBatch) : Pc :=
  .finished (.ok (resultOf current.state.resourceId
    (if desired.isSome then .alreadyPublished else .alreadyWithdrawn) attempts desired))

/-- The end of a run whose write was applied. -/
def applied (current : ResourceSnapshot) (attempts : Nat) (desired : Option PreparedResourceBatch) : Pc :=
  .finished (.ok (resultOf current.state.resourceId
    (if desired.isSome then .published else .withdrawn) attempts desired))

/-- What `index_if_current` raises where the store raises. -/
def indexError : Err → Err
  | .catalogExecution category => .catalogExecution category
  | .interrupted => .interrupted
  | _ => .catalogExecution .catalogError

def writeError (desired : Option PreparedResourceBatch) (e : Err) : Err :=
  if desired.isSome then indexError e else e

/-- `publish_reindex` as a client of the store. -/
def publisher (job : PreparedReindex) (maxRetries : Nat) (allowNoop : Bool) : Client Pc where
  call
    | .confirm _ _ current _ => some (.readSnapshot current.state.resourceId.text)
    | .write _ _ current none =>
      some (.withdrawIfCurrent current.state.resourceId.text (.of current.state))
    | .write _ _ current (some batch) => some (.compareAndPublish batch (.of current.state))
    | .refresh _ _ current => some (.readSnapshot current.state.resourceId.text)
    | .finished _ => none
  resume
    | .confirm attempts rebases current desired, .ok (.snapshot latest) =>
      if latest.state == current.state then already current attempts desired
      else if maxRetries ≤ rebases then conflict current attempts
      else enter job allowNoop attempts (rebases + 1) latest
    | .write attempts rebases current desired, .ok (.publication publication) =>
      if publication.applied then applied current attempts desired
      else if maxRetries ≤ rebases then conflict current attempts
      else .refresh attempts (rebases + 1) current
    | .refresh attempts rebases _, .ok (.snapshot current) => enter job allowNoop attempts rebases current
    | .write _ _ _ desired, .error e => .finished (.error (.raised (writeError desired e)))
    | _, .error e => .finished (.error (.raised e))
    | _, .ok _ => .finished (.error (.raised (.typeError "unexpected answer")))

/-! ## One pass of the loop -/

/-- The checks that a pass made before it asks for `desired`. -/
structure Ready (job : PreparedReindex) (s : ResourceSnapshot)
    (desired : Option PreparedResourceBatch) : Prop where
  lifecycle : checkLifecycle job.snapshot s = .ok ()
  unmoved : ∃ attempts, checkChanged job attempts s = .ok none
  wanted : desiredGraph job s = .ok desired

/-- The graph that the job asks for is stored, by whomever. -/
structure Standing (job : PreparedReindex) (s : ResourceSnapshot)
    (desired : Option PreparedResourceBatch) : Prop where
  wanted : desiredGraph job s = .ok desired
  same : sameGraph s.batch desired = true

section Pass

variable {job : PreparedReindex} {allowNoop : Bool} {attempts rebases : Nat}
  {current : ResourceSnapshot} {desired : Option PreparedResourceBatch}

theorem raising_ok {α : Type} {x : Except Err α} {a : α} : raising x = .ok a ↔ x = .ok a := by
  cases x <;> simp [raising, Except.mapError]

/-- Only a changed state ends the run here, with the graph that is stored already. -/
theorem checkChanged_some {result : ReindexResult}
    (h : checkChanged job attempts current = .ok (some result)) :
    sameSnapshot current job.snapshot = false ∧ ∃ desired, Standing job current desired ∧
      result = resultOf current.state.resourceId .alreadyPublished attempts desired := by
  unfold checkChanged at h
  split at h
  · cases h
  · rename_i hdiffers
    refine ⟨by simpa using hdiffers, ?_⟩
    split at h
    · simp only [bind_ok] at h
      obtain ⟨before, -, after, -, h⟩ := h
      split at h
      · simp only [bind_ok, Except.ok.injEq, reduceCtorEq, and_false, exists_false] at h
      · simp only [bind_ok, lostResponse, require_ok, exists_const, Except.ok.injEq,
          Option.some.injEq] at h
        obtain ⟨_, ⟨-, _, -, -, desired, hdesired, hsame, rfl⟩, rfl⟩ := h
        exact ⟨desired, ⟨hdesired, hsame⟩, rfl⟩
    · cases h

/-- The ways one pass of the loop can go. -/
theorem enter_cases (job : PreparedReindex) (allowNoop : Bool) (attempts rebases : Nat)
    (current : ResourceSnapshot) :
    (∃ desired, Standing job current desired ∧
      enter job allowNoop attempts rebases current = .confirm attempts rebases current desired) ∨
    (∃ desired, Ready job current desired ∧
      enter job allowNoop attempts rebases current = .write (attempts + 1) rebases current desired) ∨
    (∃ desired, Standing job current desired ∧ sameSnapshot current job.snapshot = false ∧
      enter job allowNoop attempts rebases current =
        .finished (.ok (resultOf current.state.resourceId .alreadyPublished attempts desired))) ∨
    ∃ e, enter job allowNoop attempts rebases current = .finished (.error e) := by
  unfold enter
  generalize hrun : pass job allowNoop attempts rebases current = run
  cases run with
  | error e => exact .inr (.inr (.inr ⟨e, rfl⟩))
  | ok pc =>
    simp only [pass, bind_ok, raising_ok] at hrun
    obtain ⟨_, hlifecycle, ended, hended, hrun⟩ := hrun
    cases ended with
    | some result =>
      cases hrun
      obtain ⟨hdiffers, desired, hstanding, rfl⟩ := checkChanged_some hended
      exact .inr (.inr (.inl ⟨desired, hstanding, hdiffers, rfl⟩))
    | none =>
      simp only [bind_ok, raising_ok] at hrun
      obtain ⟨desired, hdesired, hrun⟩ := hrun
      split at hrun
      · rename_i hnoop
        cases hrun
        rw [Bool.and_eq_true] at hnoop
        exact .inl ⟨desired, ⟨hdesired, hnoop.2⟩, rfl⟩
      · simp only [bind_ok, raising_ok, Except.ok.injEq] at hrun
        obtain ⟨_, -, _, -, rfl⟩ := hrun
        exact .inr (.inl ⟨desired, ⟨hlifecycle, ⟨attempts, hended⟩, hdesired⟩, rfl⟩)

end Pass

end MDRack.Reindex
