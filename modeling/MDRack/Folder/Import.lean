import MDRack.Folder.Lifecycle
import MDRack.Folder.Scan
import MDRack.Sqlite.Client

/-!
# Folder import (`FolderImportService.run`)

A run validates the selection, enumerates every selected root, withdraws what has disappeared from
completely enumerated roots, and ingests the candidates it found.

What the system, the model provider and preparation do is given by a `Surroundings`.
-/

namespace MDRack.Folder

open Checks
open Json (Value)

/-! ## Selection -/

/-- What the system says about a selected root; a directory has resolved path components. -/
inductive Root
  | notPath
  | link
  | unavailable
  | notDirectory
  | directory (path : List String) (listing : Listing)

/-- An accepted selection. -/
structure Selected where
  nspace : String
  path : List String
  listing : Listing

/-- `FolderImportError`. -/
def refusal (reason : String) : Err := .runtimeError reason

def isNamespaceChar (c : Char) : Bool := c.isAlphanum || c == '.' || c == '_' || c == '-'

/-- `_NAMESPACE_PATTERN` matches. -/
def validNamespace (nspace : String) : Bool :=
  match nspace.toList with
  | [] => false
  | c :: rest => c.isAlphanum && rest.all isNamespaceChar

def resolveRoot : Root → Except Err (List String × Listing)
  | .notPath => .error (refusal "source_root_invalid")
  | .link => .error (refusal "source_root_link_refused")
  | .unavailable => .error (refusal "source_root_unavailable")
  | .notDirectory => .error (refusal "source_root_not_directory")
  | .directory path listing => .ok (path, listing)

/-- One path contains the other. -/
def overlap (a b : List String) : Bool := a.isPrefixOf b || b.isPrefixOf a

/-- One item of `_validate_selections`. -/
def selectStep (selected : List Selected) (item : String × Root) : Except Err (List Selected) := do
  require (validNamespace item.1 = true) (refusal "namespace_invalid")
  require (∀ s ∈ selected, s.nspace ≠ item.1) (refusal "namespace_duplicate")
  let (path, listing) ← resolveRoot item.2
  require (∀ s ∈ selected, s.path ≠ path) (refusal "source_root_duplicate")
  require (∀ s ∈ selected, overlap s.path path = false) (refusal "source_roots_overlap")
  .ok (selected ++ [⟨item.1, path, listing⟩])

/-- `_validate_selections`. -/
def validateSelections (folders : List (String × Root)) : Except Err (List Selected) := do
  require (folders ≠ []) (refusal "folder_selection_required")
  folders.foldlM selectStep []

/-- `_validate_storage_owners`; an owner without a physical path is refused like an overlap. -/
def validateStorageOwners (selections : List Selected) (storeDir cacheDir : Option (List String)) :
    Except Err Unit := do
  let store ← getOr (refusal "source_overlaps_store") storeDir
  let cache ← getOr (refusal "source_overlaps_cache") cacheDir
  require (∀ s ∈ selections, overlap s.path store = false) (refusal "source_overlaps_store")
  require (∀ s ∈ selections, overlap s.path cache = false) (refusal "source_overlaps_cache")

/-- One selection of `_bind_registry`. -/
def bindStep (bound : List (String × List String)) (s : Selected) :
    Except Err (List (String × List String)) := do
  require (∀ e ∈ bound, e.1 = s.nspace → e.2 = s.path) (refusal "namespace_root_conflict")
  require (∀ e ∈ bound, e.2 = s.path → e.1 = s.nspace) (refusal "root_namespace_conflict")
  .ok (if bound.any fun e => e.1 = s.nspace then bound else bound ++ [(s.nspace, s.path)])

/-- `_bind_registry`. -/
def bindRegistry (entries : List (String × List String)) (selections : List Selected) :
    Except Err (List (String × List String)) := do
  let bound ← selections.foldlM bindStep entries
  .ok (if bound.length = entries.length then entries
    else Sorting.sortOn (fun e : String × List String => e.1) bound)

/-! ## Surroundings -/

/-- `logical_id`. -/
def logicalId (env : Env) (kind : String) (parts : List String) : String :=
  kind ++ "_" ++ String.ofList ((env.sha256 (Json.dumps (.arr (parts.map .str)))).toList.take 32)

/-- `_derived_resource_id`. -/
def derivedResourceId (env : Env) (c : Candidate) : String :=
  logicalId env (match c.kind with | .document => "doc" | .image => "image") [c.nspace, c.sourceRef]

/-- What an ingestion returns; an image has the media type of its bytes. -/
structure Ingested where
  resourceId : String
  resourceId_ne : resourceId ≠ ""
  mediaType : String
  sourceHash : Digest
  sourceBytes : Nat
  unchanged : Bool

/-- An exception that becomes the reason of a result, or one that ends the run. -/
inductive IngestFailure
  | refused (reason : String)
  | interrupted

/-- What preparing and publishing one file does: publications of the resource it was given, and a
result or a failure. -/
structure Ingestion (resourceId : String) where
  writes : List (PreparedResourceBatch × ExpectedPublication)
  own : ∀ x ∈ writes, x.1.resource.resourceId.text = resourceId
  outcome : Except IngestFailure Ingested
  modelCalls : Nat

structure Surroundings (env : Env) where
  storeDir : Option (List String)
  cacheDir : Option (List String)
  lifecycle : Except Err FolderLifecycle
  registry : Except Err (List (String × List String))
  writeRegistry : Except Err Unit
  configuredExclude : List String
  /-- Provider capabilities and the preflight of the catalog's spaces. -/
  requireCapabilities : (hasText hasImage : Bool) → Except Err Unit
  space : EmbeddingSpaceRecord
  ingest : (c : Candidate) → ResourceSnapshot → Ingestion (derivedResourceId env c)
  /-- Faults of the port call after so many others, and whether the ledger is saved then. -/
  faults : Nat → Transaction.Faults Err
  save : Nat → Except Err Unit

structure Request where
  folders : List (String × Root)
  exclude : List String

/-- A run before its first port call. -/
structure Plan where
  scans : List (Selected × ScanOutcome)
  exclude : List String
  lifecycle : FolderLifecycle

def Plan.candidates (plan : Plan) : List Candidate := plan.scans.flatMap (·.2.candidates)

variable {env : Env}

/-- The registry is written when a selection was bound. -/
def saveRegistry (o : Surroundings env) (entries bound : List (String × List String)) :
    Except Err Unit :=
  if bound ≠ entries then o.writeRegistry else .ok ()

/-- `run`, up to the enumeration. -/
def prepare (o : Surroundings env) (request : Request) : Except Err Plan := do
  let selections ← validateSelections request.folders
  validateStorageOwners selections o.storeDir o.cacheDir
  let lifecycle ← o.lifecycle
  let registry ← o.registry
  let bound ← bindRegistry registry selections
  saveRegistry o registry bound
  let exclude := o.configuredExclude ++ request.exclude
  let plan : Plan :=
    ⟨selections.map fun s => (s, scanRoot s.nspace s.listing exclude), exclude, lifecycle⟩
  o.requireCapabilities (plan.candidates.any fun c => c.kind = .document)
    (plan.candidates.any fun c => c.kind = .image)
  .ok plan

/-! ## Reconciling what has disappeared -/

/-- A port call under the faults of its turn. -/
def callPort (o : Surroundings env) (op : Op) (w : World) : Except Err Answer × World :=
  w.perform env (o.faults w.events.length) op

/-- `except Exception`. -/
def translate (reason : String) : Err → Err
  | .interrupted => .interrupted
  | _ => refusal reason

/-- The result for a ledger entry. -/
def entryResult (nspace : String) (entry : LifecycleFile) (status : Status) (reason : String) :
    FileResult :=
  ⟨nspace, entry.sourceRef, some entry.kind, some entry.mediaType, status, some reason,
    some entry.resourceId, 0, entry.sourceBytes⟩

/-- The published graph belongs to the entry and its namespace. -/
def ownsEntry (nspace : String) (entry : LifecycleFile) (before : ResourceSnapshot) : Bool :=
  match before.batch, before.state.binding with
  | some batch, some binding => batch.resource.resourceId.text == entry.resourceId &&
      binding.sourceNamespace.text == nspace && batch.resource.sourceNamespace.text == nspace
  | _, _ => false

/-- The result and the new ledger entry of a file found missing. -/
abbrev Reconciled := FileResult × Option LifecycleFile

def missing (nspace : String) (entry : LifecycleFile) : Reconciled :=
  (entryResult nspace entry .unavailable "source_missing", some (markUnavailable entry))

/-- How a withdrawal is reported. -/
def withdrawn (nspace : String) (entry : LifecycleFile) : Except Err Answer → Except Err Reconciled
  | .ok (.publication outcome) =>
    if outcome.applied then .ok (missing nspace entry)
    else if outcome.state.published then
      .ok (entryResult nspace entry .failed "withdrawal_conflict", none)
    else .ok (missing nspace entry)
  | .ok _ => .error .assertionError
  | .error e => .error (translate "catalog_write_failed" e)

/-- `_reconcile_missing`. -/
def reconcileMissing (o : Surroundings env) (nspace : String) (entry : LifecycleFile) (w : World) :
    Except Err Reconciled × World :=
  match entry.availability with
  | .unavailable reason _ => (.ok (entryResult nspace entry .unavailable reason, none), w)
  | .available =>
    let (answer, w) := callPort o (.readSnapshot entry.resourceId) w
    match answer with
    | .error e => (.error (translate "catalog_read_failed" e), w)
    | .ok (.snapshot before) =>
      if before.state.published then
        if ownsEntry nspace entry before then
          let (answer, w) := callPort o (.withdrawIfCurrent entry.resourceId (.of before.state)) w
          (withdrawn nspace entry answer, w)
        else (.ok (entryResult nspace entry .failed "lifecycle_identity_conflict", none), w)
      else (.ok (missing nspace entry), w)
    | .ok _ => (.error .assertionError, w)

/-- The state of a run. -/
structure Pass where
  world : World
  lifecycle : FolderLifecycle
  results : List FileResult

/-- A step of a run; it leaves a state also when it raises. -/
abbrev Step := Pass → Except Err Unit × Pass

def forEntries {α : Type} (step : α → Step) : List α → Step
  | [], s => (.ok (), s)
  | a :: rest, s =>
    match step a s with
    | (.error e, s) => (.error e, s)
    | (.ok (), s) => forEntries step rest s

/-- `if lifecycle.update(...): self._save_lifecycle(lifecycle)`, then `results.append(result)`. -/
def recordResult (o : Surroundings env) (nspace : String) (reconciled : Reconciled) : Step := fun s =>
  match reconciled.2 with
  | none => (.ok (), { s with results := s.results ++ [reconciled.1] })
  | some entry =>
    let (lifecycle, changed) := s.lifecycle.update nspace entry
    let s := { s with lifecycle := lifecycle }
    match if changed then o.save s.world.events.length else .ok () with
    | .error e => (.error e, s)
    | .ok () => (.ok (), { s with results := s.results ++ [reconciled.1] })

/-- An entry that was not seen, although it could have been. -/
def isMissing (scan : ScanOutcome) (exclude : List String) (entry : LifecycleFile) : Bool :=
  decide (entry.sourceRef ∉ scan.observedRefs) && !matchesAny entry.sourceRef exclude &&
    !scan.blockedPrefixes.any (isUnderRelativePrefix entry.sourceRef)

/-- The body of the loop over the ledger. -/
def reconcileEntry (o : Surroundings env) (exclude : List String) (x : Selected × ScanOutcome)
    (entry : LifecycleFile) : Step := fun s =>
  if isMissing x.2 exclude entry then
    match reconcileMissing o x.1.nspace entry s.world with
    | (.error e, w) => (.error e, { s with world := w })
    | (.ok reconciled, w) => recordResult o x.1.nspace reconciled { s with world := w }
  else (.ok (), s)

/-- The body of the loop over the namespaces. -/
def reconcileRoot (o : Surroundings env) (exclude : List String) (x : Selected × ScanOutcome) : Step :=
  fun s =>
    if x.2.complete then forEntries (reconcileEntry o exclude x) (s.lifecycle.files x.1.nspace) s
    else (.ok (), s)

/-! ## Ingesting candidates -/

/-- `_image_uses_incompatible_space`. -/
def imageUsesIncompatibleSpace (snapshot : ResourceSnapshot) (space : EmbeddingSpaceRecord) : Bool :=
  match snapshot.batch with
  | none => false
  | some batch =>
    let images := batch.units.filter fun u => u.modality.text = "image"
    let used := batch.vectors.filter fun v => images.any fun u => u.unitId = v.unitId
    batch.spaces.any fun s => used.any (fun v => v.spaceId = s.spaceId) && !(s == space)

def candidateResult (c : Candidate) (status : Status) (reason : Option String) : FileResult :=
  ⟨c.nspace, c.sourceRef, some c.kind, some c.mediaType, status, reason, none, 0, none⟩

/-- The result of an ingestion; a document says itself whether it is unchanged, an image is when
the model was not called. -/
def ingestedResult (c : Candidate) (before : ResourceSnapshot) (calls : Nat) (mediaType : String)
    (i : Ingested) : FileResult :=
  let unchanged := match c.kind with
    | .document => i.unchanged
    | .image => calls == 0 && before.batch.isSome
  let status : Status := if unchanged then .skipped
    else if before.state.binding.isNone then .added else .updated
  { candidateResult c status (if unchanged then some "unchanged" else none) with
    mediaType := some mediaType
    resourceId := some i.resourceId
    modelCalls := calls
    sourceBytes := some i.sourceBytes }

/-- The result and the ledger entry of an ingested candidate. -/
def ingestedCandidate (c : Candidate) (before : ResourceSnapshot) (calls : Nat) (i : Ingested) :
    Reconciled :=
  let mediaType := match c.kind with
    | .document => c.mediaType
    | .image => i.mediaType
  if h : validSourceRef c.sourceRef = true ∧ mediaType ≠ "" then
    (ingestedResult c before calls mediaType i, some ⟨c.sourceRef, h.1, c.kind, mediaType, h.2,
      i.resourceId, i.resourceId_ne, .available, some i.sourceHash, some i.sourceBytes⟩)
  else ({ candidateResult c .failed (some "ingest_failed") with modelCalls := calls }, none)

def performWrites (o : Surroundings env) (writes : List (PreparedResourceBatch × ExpectedPublication))
    (w : World) : World :=
  writes.foldl (fun w x => (callPort o (.compareAndPublish x.1 x.2) w).2) w

/-- The part of `_process_candidate` after the snapshot was read. -/
def processRead (o : Surroundings env) (c : Candidate) (before : ResourceSnapshot) (w : World) :
    Except Err Reconciled × World :=
  if before.state.binding.any fun b => b.status = .deleted then
    (.ok (candidateResult c .failed (some "resource_deleted"), none), w)
  else if c.kind = .image ∧ imageUsesIncompatibleSpace before o.space = true then
    (.ok (candidateResult c .failed (some "incompatible_embedding_space"), none), w)
  else
    let ingestion := o.ingest c before
    let w := performWrites o ingestion.writes w
    match ingestion.outcome with
    | .error .interrupted => (.error .interrupted, w)
    | .error (.refused reason) => (.ok ({ candidateResult c .failed (some reason) with
        modelCalls := ingestion.modelCalls }, none), w)
    | .ok i => (.ok (ingestedCandidate c before ingestion.modelCalls i), w)

/-- `_process_candidate`. -/
def processCandidate (o : Surroundings env) (c : Candidate) (w : World) :
    Except Err Reconciled × World :=
  let (answer, w) := callPort o (.readSnapshot (derivedResourceId env c)) w
  match answer with
  | .error e => (.error (translate "catalog_read_failed" e), w)
  | .ok (.snapshot before) => processRead o c before w
  | .ok _ => (.error .assertionError, w)

/-- The body of the loop over the candidates. -/
def candidateStep (o : Surroundings env) (c : Candidate) : Step := fun s =>
  match processCandidate o c s.world with
  | (.error e, w) => (.error e, { s with world := w })
  | (.ok reconciled, w) => recordResult o c.nspace reconciled { s with world := w }

/-! ## The whole run -/

inductive Overall
  | success
  | partialSuccess
  | failed
  deriving DecidableEq, Repr

def isUsable (r : FileResult) : Bool :=
  r.status == .added || r.status == .updated || r.status == .unavailable ||
    (r.status == .skipped && r.reason == some "unchanged")

/-- `_overall_status`. -/
def overallStatus (files : List FileResult) : Overall :=
  if files.any fun r => r.status == .failed || r.status == .unprocessed then
    if files.any isUsable then .partialSuccess else .failed
  else if files.any fun r => r.status == .skipped && r.reason != some "unchanged" then .partialSuccess
  else .success

/-- `FolderRootSummary`. -/
structure RootSummary where
  nspace : String
  files : Nat
  counts : Status → Nat
  excluded : Nat

/-- `FolderImportResult`. -/
structure ImportResult where
  status : Overall
  counts : Status → Nat
  excluded : Nat
  total : Nat
  roots : List RootSummary
  files : List FileResult
  modelCalls : Nat

/-- `_counts`. -/
def countsOf (files : List FileResult) (status : Status) : Nat :=
  files.countP fun r => r.status == status

/-- `_root_summaries`. -/
def rootSummary (files : List FileResult) (x : Selected × ScanOutcome) : RootSummary :=
  let own := files.filter fun r => r.nspace = x.1.nspace
  ⟨x.1.nspace, own.length, countsOf own, x.2.excluded⟩

def importResult (plan : Plan) (results : List FileResult) : ImportResult :=
  let files := Sorting.sortOn (fun r : FileResult => toLex (r.nspace, r.sourceRef)) results
  let excluded := (plan.scans.map (·.2.excluded)).sum
  ⟨overallStatus files, countsOf files, excluded, files.length + excluded,
    plan.scans.map (rootSummary files), files, (files.map (·.modelCalls)).sum⟩

/-- The two loops of a run. -/
def runPlan (o : Surroundings env) (plan : Plan) : Step := fun s =>
  match forEntries (reconcileRoot o plan.exclude) plan.scans s with
  | (.error e, s) => (.error e, s)
  | (.ok (), s) => forEntries (candidateStep o) plan.candidates s

/-- `FolderImportService.run`. -/
def run (o : Surroundings env) (request : Request) (w : World) : Except Err ImportResult × World :=
  match prepare o request with
  | .error e => (.error e, w)
  | .ok plan =>
    match runPlan o plan ⟨w, plan.lifecycle, plan.scans.flatMap (·.2.results)⟩ with
    | (.error e, s) => (.error e, s.world)
    | (.ok (), s) => (.ok (importResult plan s.results), s.world)

end MDRack.Folder
