import MDRack.Search.Fusion
import MDRack.Search.Scope

/-!
# Multi-branch retrieval (`mdrack_core.application.retrieval.RetrievalService`)

A request runs its lexical and vector branches through a search port, validates what they return,
and fuses the branches that succeeded.

Principal result: `degrades_exactly` — with partial results allowed, failing branches change
nothing but the degradations; without, the first one fails the request.
-/

namespace MDRack

open Binary64 Checks Sorting

/-! ## Requests -/

structure LexicalBranch where
  branchId : NonEmptyText
  query : NonEmptyText
  weight : Weight
  candidateLimit : { n : Nat // 0 < n }
  scopeOverride : Option BranchScopeOverride

structure VectorBranch where
  branchId : NonEmptyText
  spaceId : NonEmptyText
  vector : Vector
  weight : Weight
  candidateLimit : { n : Nat // 0 < n }
  expectedFingerprint : Option NonEmptyText
  scopeOverride : Option BranchScopeOverride

inductive Branch
  | lexical (branch : LexicalBranch)
  | vector (branch : VectorBranch)

def Branch.branchId : Branch → NonEmptyText
  | .lexical b => b.branchId
  | .vector b => b.branchId

def Branch.weight : Branch → Weight
  | .lexical b => b.weight
  | .vector b => b.weight

def Branch.candidateLimit : Branch → Nat
  | .lexical b => b.candidateLimit
  | .vector b => b.candidateLimit

def Branch.scopeOverride : Branch → Option BranchScopeOverride
  | .lexical b => b.scopeOverride
  | .vector b => b.scopeOverride

inductive Target
  | unit
  | resource
  deriving DecidableEq, Repr

structure SearchRequest where
  lexicalBranches : List LexicalBranch
  vectorBranches : List VectorBranch
  scope : SearchScope
  target : Target
  limit : { n : Nat // 0 < n }
  rrfK : { n : Nat // 0 < n }
  evidenceLimitPerResource : { n : Nat // 0 < n }
  allowPartial : Bool
  requestId : Option String
  branches_ne : lexicalBranches ≠ [] ∨ vectorBranches ≠ []
  branch_ids : (lexicalBranches.map (·.branchId) ++ vectorBranches.map (·.branchId)).Nodup

/-- The branches in the order in which they run. -/
def SearchRequest.branches (request : SearchRequest) : List Branch :=
  request.lexicalBranches.map .lexical ++ request.vectorBranches.map .vector

/-! ## Branches -/

/-- What a port does: return a list, whose items are candidates or something else, return another
value, or raise. -/
inductive PortAnswer
  | list (items : List (Option RankedCandidate))
  | other
  | branchError (category : BranchErrorCategory)
  | timeoutError
  | exception

structure SearchPort where
  searchLexical : LexicalBranch → SearchScope → PortAnswer
  searchVector : VectorBranch → SearchScope → PortAnswer

def SearchPort.search (port : SearchPort) (scope : SearchScope) : Branch → PortAnswer
  | .lexical b => port.searchLexical b scope
  | .vector b => port.searchVector b scope

/-- The body of the loop of `_validate_candidates`, after the candidates so far. -/
def validateCandidate (branchId : NonEmptyText) (validated : List RankedCandidate) :
    Option RankedCandidate → Except Err (List RankedCandidate)
  | none => .error (.typeError "search ports must return RankedCandidate values")
  | some candidate => do
    require (candidate.branchId = branchId)
      (.valueError "candidate branch_id does not match the executed branch")
    require (candidate.rank.1 = validated.length + 1)
      (.valueError "candidate ranks must match their 1-based positions")
    require (candidate.unitId ∉ validated.map (·.unitId))
      (.valueError "candidate unit_id values must be unique")
    .ok (validated ++ [candidate])

/-- `_validate_candidates` of a returned value. -/
def validateCandidates (branch : Branch) (items : List (Option RankedCandidate)) :
    Except Err (List RankedCandidate) :=
  (items.take branch.candidateLimit).foldlM (validateCandidate branch.branchId) []

/-- `_execute_branch`. -/
def executeBranch (branch : Branch) : PortAnswer → Except BranchFailure (List RankedCandidate)
  | .branchError category => .error ⟨category, branch.branchId⟩
  | .timeoutError => .error ⟨.adapterTimeout, branch.branchId⟩
  | .exception => .error ⟨.adapterError, branch.branchId⟩
  | .other => .error ⟨.adapterError, branch.branchId⟩
  | .list items =>
    match validateCandidates branch items with
    | .ok candidates => .ok candidates
    | .error _ => .error ⟨.adapterError, branch.branchId⟩

/-- The result of a branch; one that no unit can satisfy is not sent to the port. -/
def runBranch (port : SearchPort) (scope : SearchScope) (branch : Branch) :
    Except BranchFailure (List RankedCandidate) :=
  match effectiveScope scope branch.scopeOverride with
  | none => .ok []
  | some scope => executeBranch branch (port.search scope branch)

structure Degradation where
  branchId : NonEmptyText
  category : BranchErrorCategory

structure ExecutedBranch where
  branchId : NonEmptyText
  weight : Weight
  candidates : List RankedCandidate

structure Collected where
  successful : List ExecutedBranch
  degradations : List Degradation
  failures : List BranchFailure

/-- `_collect_result`. -/
def collectResult (allowPartial : Bool) (branch : Branch) (acc : Collected) :
    Except BranchFailure (List RankedCandidate) → Collected
  | .error failure =>
    { acc with
      failures := acc.failures ++ [failure]
      degradations := if allowPartial then acc.degradations ++ [⟨branch.branchId, failure.category⟩]
        else acc.degradations }
  | .ok candidates =>
    { acc with successful := acc.successful ++ [⟨branch.branchId, branch.weight, candidates⟩] }

/-- `if failures and not request.allow_partial: raise failures[0]`. -/
def raiseFirst (allowPartial : Bool) (acc : Collected) : Except SearchErr Collected :=
  match acc.failures with
  | failure :: _ => if allowPartial then .ok acc else .error (.branch failure)
  | [] => .ok acc

/-- The body of the two branch loops. -/
def searchBranch (port : SearchPort) (request : SearchRequest) (acc : Collected) (branch : Branch) :
    Except SearchErr Collected :=
  raiseFirst request.allowPartial
    (collectResult request.allowPartial branch acc (runBranch port request.scope branch))

/-! ## Grouping -/

/-- `_deduplicate_units`. -/
def deduplicateUnits : List RankedCandidate → List NonEmptyText → List FusionCandidate
  | [], _ => []
  | candidate :: rest, seen =>
    if candidate.unitId ∈ seen then deduplicateUnits rest seen
    else ⟨candidate.unitId, candidate, [candidate]⟩ ::
      deduplicateUnits rest (candidate.unitId :: seen)

/-- The first loop of `_group_resources`: the candidates of each resource with their positions. -/
def byResource : List RankedCandidate → Nat → List NonEmptyText →
    List (NonEmptyText × List (Nat × RankedCandidate)) →
    List (NonEmptyText × List (Nat × RankedCandidate))
  | [], _, _, grouped => grouped
  | candidate :: rest, firstSeen, seen, grouped =>
    if candidate.unitId ∈ seen then byResource rest (firstSeen + 1) seen grouped
    else byResource rest (firstSeen + 1) (candidate.unitId :: seen)
      (Dict.upsert candidate.resourceId (fun old => old.getD [] ++ [(firstSeen, candidate)]) grouped)

/-- `(item[1].rank, item[0], item[1].unit_id)`. -/
def entryOrder (e : Nat × RankedCandidate) : Nat ×ₗ Nat ×ₗ String :=
  toLex (e.2.rank.1, toLex (e.1, e.2.unitId.text))

/-- One resource with its smallest position; a group is never empty. -/
def groupOf (evidenceLimit : Nat) (group : NonEmptyText × List (Nat × RankedCandidate)) :
    Except SearchErr (Nat × FusionCandidate) := do
  let ordered := sortOn entryOrder group.2
  let representative ← getOr .indexError (ordered.head?.map (·.2))
  let firstSeen ← getOr (.valueError "min() iterable argument is empty") (group.2.map (·.1)).min?
  .ok (firstSeen, ⟨group.1, representative, (ordered.take evidenceLimit).map (·.2)⟩)

/-- `_group_resources`. -/
def groupResources (evidenceLimit : Nat) (candidates : List RankedCandidate) :
    Except SearchErr (List FusionCandidate) := do
  let grouped ← mapAll (groupOf evidenceLimit) (byResource candidates 0 [] [])
  let order : Nat × FusionCandidate → Nat ×ₗ String := fun e => toLex (e.1, e.2.logicalId.text)
  .ok ((sortOn order grouped).map (·.2))

/-- The candidates of one branch, grouped for the target. -/
def fusionCandidates (request : SearchRequest) (candidates : List RankedCandidate) :
    Except SearchErr (List FusionCandidate) :=
  match request.target with
  | .resource => groupResources request.evidenceLimitPerResource candidates
  | .unit => .ok (deduplicateUnits candidates [])

/-- `_prepare_fusion_branch`. -/
def prepareFusionBranch (request : SearchRequest) (branch : ExecutedBranch) :
    Except SearchErr FusionBranch := do
  let candidates ← fusionCandidates request branch.candidates
  .ok ⟨branch.branchId, branch.weight, candidates⟩

/-! ## Search -/

structure SearchResultItem where
  logicalId : NonEmptyText
  resourceId : NonEmptyText
  unitId : Option NonEmptyText
  score : F64
  rank : Nat
  evidence : List RankedCandidate
  metadata : Mapping

structure SearchResult where
  target : Target
  items : List SearchResultItem
  degradations : List Degradation
  requestId : Option String

/-- `SearchResultItem(...)`; the score must be finite. -/
def resultItem (target : Target) (entry : FusedCandidate × Nat) : Except SearchErr SearchResultItem :=
  if h : entry.1.score.mag < infMag then
    .ok { logicalId := entry.1.logicalId
          resourceId := entry.1.representative.resourceId
          unitId := if target = .resource then none else some entry.1.representative.unitId
          score := ⟨false, entry.1.score.mag, h⟩
          rank := entry.2
          evidence := entry.1.evidence
          metadata := entry.1.representative.metadata }
  else .error (.valueError "score must be a finite number")

/-- The evidence that one result item may have. -/
def evidenceLimit (request : SearchRequest) (successful : List ExecutedBranch) : Nat :=
  match request.target with
  | .resource => request.evidenceLimitPerResource
  | .unit => successful.length

/-- Everything after the branch loops. -/
def fuseResults (request : SearchRequest) (successful : List ExecutedBranch) :
    Except SearchErr (List SearchResultItem) := do
  let fusionBranches ← mapAll (prepareFusionBranch request) successful
  let fused ← weightedRrf fusionBranches request.rrfK (evidenceLimit request successful)
  mapAll (resultItem request.target) ((fused.take request.limit).zipIdx 1)

/-- `RetrievalService.search`. -/
def search (port : SearchPort) (request : SearchRequest) : Except SearchErr SearchResult := do
  let acc ← request.branches.foldlM (searchBranch port request) ⟨[], [], []⟩
  if acc.successful = [] then
    let failure ← getOr .indexError acc.failures.head?
    .error (.branch failure)
  else
    let items ← fuseResults request acc.successful
    .ok ⟨request.target, items, acc.degradations, request.requestId⟩

/-! ## Failing branches -/

section Degrading

variable {port : SearchPort} {request : SearchRequest} {branches : List Branch}

/-- What a branch adds to the successful ones. -/
def executed (port : SearchPort) (scope : SearchScope) (branch : Branch) : Option ExecutedBranch :=
  match runBranch port scope branch with
  | .ok candidates => some ⟨branch.branchId, branch.weight, candidates⟩
  | .error _ => none

/-- Why a branch fails. -/
def failureOf (port : SearchPort) (scope : SearchScope) (branch : Branch) : Option BranchFailure :=
  match runBranch port scope branch with
  | .ok _ => none
  | .error failure => some failure

variable (port request) in
theorem collectResult_successful (branch : Branch) (acc : Collected) :
    (collectResult request.allowPartial branch acc (runBranch port request.scope branch)).successful =
      acc.successful ++ (executed port request.scope branch).toList := by
  unfold executed
  cases runBranch port request.scope branch with
  | ok => rfl
  | error => simp [collectResult]

variable (port request) in
theorem collectResult_failures (branch : Branch) (acc : Collected) :
    (collectResult request.allowPartial branch acc (runBranch port request.scope branch)).failures =
      acc.failures ++ (failureOf port request.scope branch).toList := by
  unfold failureOf
  cases runBranch port request.scope branch with
  | ok => simp [collectResult]
  | error => rfl

/-- A step that does not raise collects the result. -/
theorem searchBranch_ok {acc acc' : Collected} {branch : Branch}
    (h : searchBranch port request acc branch = .ok acc') :
    acc' = collectResult request.allowPartial branch acc (runBranch port request.scope branch) := by
  unfold searchBranch raiseFirst at h
  split at h
  · split at h
    · exact (Except.ok.inj h).symm
    · cases h
  · exact (Except.ok.inj h).symm

theorem searchBranches_ok {acc acc' : Collected}
    (h : branches.foldlM (searchBranch port request) acc = .ok acc') :
    acc'.successful = acc.successful ++ branches.filterMap (executed port request.scope) := by
  induction branches generalizing acc with
  | nil =>
    cases h
    simp
  | cons branch rest ih =>
    rw [List.foldlM_cons] at h
    obtain ⟨next, hstep, hrest⟩ := bind_ok.mp h
    rw [ih hrest, searchBranch_ok hstep, collectResult_successful, List.append_assoc]
    cases hexecuted : executed port request.scope branch with
    | none => rw [List.filterMap_cons_none hexecuted]; rfl
    | some b => rw [List.filterMap_cons_some hexecuted]; rfl

variable (port branches) in
/-- With partial results allowed every branch runs. -/
theorem searchBranches_partial (hallowed : request.allowPartial = true) (acc : Collected) :
    ∃ acc', branches.foldlM (searchBranch port request) acc = .ok acc' := by
  induction branches generalizing acc with
  | nil => exact ⟨acc, rfl⟩
  | cons branch rest ih =>
    have hstep : ∃ next, searchBranch port request acc branch = .ok next := by
      unfold searchBranch raiseFirst
      split
      · exact ⟨_, if_pos hallowed⟩
      · exact ⟨_, rfl⟩
    obtain ⟨next, hnext⟩ := hstep
    obtain ⟨acc', hrest⟩ := ih next
    rw [List.foldlM_cons]
    exact ⟨acc', bind_ok.mpr ⟨next, hnext, hrest⟩⟩

/-- Without, the first failing branch ends the search. -/
theorem searchBranches_strict (hstrict : request.allowPartial = false) (acc : Collected)
    (hacc : acc.failures = []) {failure : BranchFailure}
    (hfail : branches.findSome? (failureOf port request.scope) = some failure) :
    branches.foldlM (searchBranch port request) acc = .error (.branch failure) := by
  induction branches generalizing acc with
  | nil => cases hfail
  | cons branch rest ih =>
    have hfailures := collectResult_failures port request branch acc
    rw [hacc, List.nil_append] at hfailures
    rw [List.findSome?_cons] at hfail
    rw [List.foldlM_cons]
    cases hbranch : failureOf port request.scope branch with
    | some first =>
      rw [hbranch] at hfail hfailures
      cases hfail
      have hstep : searchBranch port request acc branch = .error (.branch failure) := by
        rw [searchBranch, raiseFirst, hfailures]
        simp only [Option.toList_some, hstrict, Bool.false_eq_true, if_false]
      rw [hstep]
      rfl
    | none =>
      rw [hbranch] at hfail hfailures
      have hstep : searchBranch port request acc branch = .ok
          (collectResult request.allowPartial branch acc (runBranch port request.scope branch)) := by
        rw [searchBranch, raiseFirst, hfailures]
        rfl
      rw [hstep]
      exact ih _ hfailures hfail

/-- The items of a search come from its successful branches. -/
theorem search_items (hallowed : request.allowPartial = true)
    (hne : request.branches.filterMap (executed port request.scope) ≠ []) :
    (search port request).map (·.items) =
      fuseResults request (request.branches.filterMap (executed port request.scope)) := by
  obtain ⟨acc, hacc⟩ := searchBranches_partial port request.branches hallowed ⟨[], [], []⟩
  have hsuccessful := searchBranches_ok hacc
  rw [List.nil_append] at hsuccessful
  rw [← hsuccessful] at hne ⊢
  simp only [search, hacc, bind, Except.bind, if_neg hne]
  cases fuseResults request acc.successful <;> rfl

/-- Only the branches that `p` selects. -/
def SearchRequest.keep (request : SearchRequest) (p : Branch → Bool)
    (h : ∃ b ∈ request.branches, p b = true) : SearchRequest :=
  { request with
    lexicalBranches := request.lexicalBranches.filter fun b => p (.lexical b)
    vectorBranches := request.vectorBranches.filter fun b => p (.vector b)
    branches_ne := by
      obtain ⟨b, hb, hp⟩ := h
      rcases List.mem_append.mp hb with hb | hb
      · obtain ⟨x, hx, rfl⟩ := List.mem_map.mp hb
        exact .inl (List.ne_nil_of_mem (List.mem_filter.mpr ⟨hx, hp⟩))
      · obtain ⟨x, hx, rfl⟩ := List.mem_map.mp hb
        exact .inr (List.ne_nil_of_mem (List.mem_filter.mpr ⟨hx, hp⟩))
    branch_ids := request.branch_ids.sublist
      ((List.filter_sublist.map _).append (List.filter_sublist.map _)) }

theorem SearchRequest.keep_branches (p : Branch → Bool)
    (h : ∃ b ∈ request.branches, p b = true) :
    (request.keep p h).branches = request.branches.filter p := by
  unfold branches keep
  rw [List.filter_append, List.filter_map, List.filter_map]
  rfl

def succeeds (port : SearchPort) (scope : SearchScope) (branch : Branch) : Bool :=
  (executed port scope branch).isSome

/-- Failing branches add nothing. -/
theorem executed_filter (scope : SearchScope) :
    (branches.filter (succeeds port scope)).filterMap (executed port scope) =
      branches.filterMap (executed port scope) := by
  rw [List.filterMap_filter]
  refine List.filterMap_congr fun branch _ => ?_
  unfold succeeds
  cases executed port scope branch <;> rfl

/-- Removing the failing branches leaves the items as they are. -/
theorem search_keep (hallowed : request.allowPartial = true)
    (h : ∃ b ∈ request.branches, succeeds port request.scope b = true) :
    (search port request).map (·.items) =
      (search port (request.keep (succeeds port request.scope) h)).map (·.items) := by
  have hne : request.branches.filterMap (executed port request.scope) ≠ [] := by
    obtain ⟨b, hb, hsucceeds⟩ := h
    obtain ⟨x, hx⟩ := Option.isSome_iff_exists.mp hsucceeds
    exact List.ne_nil_of_mem (List.mem_filterMap.mpr ⟨b, hb, hx⟩)
  have hkept : (request.keep (succeeds port request.scope) h).branches.filterMap
      (executed port request.scope) = request.branches.filterMap (executed port request.scope) := by
    rw [SearchRequest.keep_branches, executed_filter]
  have hkeep : (search port (request.keep (succeeds port request.scope) h)).map (·.items) =
      fuseResults request ((request.keep (succeeds port request.scope) h).branches.filterMap
        (executed port request.scope)) := search_items hallowed (by rwa [← hkept] at hne)
  rw [search_items hallowed hne, hkeep, hkept]

end Degrading

/-! ## The result -/

section Result

variable {request : SearchRequest} {candidates : List RankedCandidate}

/-- The logical identity that a candidate counts for. -/
def RankedCandidate.logicalId (c : RankedCandidate) : Target → NonEmptyText
  | .unit => c.unitId
  | .resource => c.resourceId

/-- Candidates of a branch that count for an identity. -/
def FromBranch (request : SearchRequest) (candidates : List RankedCandidate) (id : NonEmptyText)
    (c : RankedCandidate) : Prop :=
  c ∈ candidates ∧ c.logicalId request.target = id

theorem deduplicateUnits_ok {seen : List NonEmptyText} {fused : FusionCandidate}
    (h : fused ∈ deduplicateUnits candidates seen) :
    ∃ c ∈ candidates, fused = ⟨c.unitId, c, [c]⟩ := by
  induction candidates generalizing seen with
  | nil => cases h
  | cons c rest ih =>
    rw [deduplicateUnits] at h
    split at h
    · obtain ⟨x, hx, hfused⟩ := ih h
      exact ⟨x, List.mem_cons_of_mem _ hx, hfused⟩
    · rcases List.mem_cons.mp h with rfl | h
      · exact ⟨c, List.mem_cons_self, rfl⟩
      · obtain ⟨x, hx, hfused⟩ := ih h
        exact ⟨x, List.mem_cons_of_mem _ hx, hfused⟩

/-- A group holds candidates of its resource. -/
def GroupOk (candidates : List RankedCandidate) (id : NonEmptyText)
    (group : List (Nat × RankedCandidate)) : Prop :=
  ∀ e ∈ group, e.2 ∈ candidates ∧ e.2.resourceId = id

theorem byResource_ok {rest : List RankedCandidate} {firstSeen : Nat} {seen : List NonEmptyText}
    {grouped : List (NonEmptyText × List (Nat × RankedCandidate))}
    (hrest : ∀ c ∈ rest, c ∈ candidates) (h : ∀ e ∈ grouped, GroupOk candidates e.1 e.2) :
    ∀ e ∈ byResource rest firstSeen seen grouped, GroupOk candidates e.1 e.2 := by
  induction rest generalizing firstSeen seen grouped with
  | nil => exact h
  | cons c rest ih =>
    have htail : ∀ x ∈ rest, x ∈ candidates := fun x hx => hrest x (List.mem_cons_of_mem _ hx)
    rw [byResource]
    split
    · exact ih htail h
    · refine ih htail (Dict.all_upsert h ?_ fun group hgroup => ?_)
      · intro e he
        rw [List.mem_singleton.mp he]
        exact ⟨hrest c List.mem_cons_self, rfl⟩
      · intro e he
        rcases List.mem_append.mp he with he | he
        · exact hgroup e he
        · rw [List.mem_singleton.mp he]
          exact ⟨hrest c List.mem_cons_self, rfl⟩

theorem groupOf_ok {limit : Nat} {group : NonEmptyText × List (Nat × RankedCandidate)}
    {result : Nat × FusionCandidate} (hgroup : GroupOk candidates group.1 group.2)
    (h : groupOf limit group = .ok result) :
    CandidateOk (fun id c => c ∈ candidates ∧ c.resourceId = id) result.2 := by
  simp only [groupOf, bind_ok, getOr_ok, Except.ok.injEq] at h
  obtain ⟨representative, hhead, _, -, rfl⟩ := h
  obtain ⟨e, hfirst, rfl⟩ := Option.map_eq_some_iff.mp hhead
  refine ⟨hgroup e (mem_sortOn.mp (List.mem_of_head? hfirst)), ?_⟩
  intro item hitem
  obtain ⟨x, hx, rfl⟩ := List.mem_map.mp hitem
  exact hgroup x (mem_sortOn.mp (List.mem_of_mem_take hx))

/-- A prepared branch brings for each identity only candidates of it. -/
theorem prepareFusionBranch_ok {branch : ExecutedBranch} {fusion : FusionBranch}
    (h : prepareFusionBranch request branch = .ok fusion) :
    ∀ c ∈ fusion.candidates, CandidateOk (FromBranch request branch.candidates) c := by
  simp only [prepareFusionBranch, bind_ok, Except.ok.injEq] at h
  obtain ⟨prepared, hprepared, rfl⟩ := h
  unfold fusionCandidates at hprepared
  unfold FromBranch
  cases htarget : request.target with
  | unit =>
    rw [htarget] at hprepared
    cases hprepared
    intro c hc
    obtain ⟨x, hx, rfl⟩ := deduplicateUnits_ok hc
    refine ⟨⟨hx, rfl⟩, fun item hitem => ?_⟩
    rw [List.mem_singleton.mp hitem]
    exact ⟨hx, rfl⟩
  | resource =>
    rw [htarget] at hprepared
    simp only [groupResources, bind_ok, Except.ok.injEq] at hprepared
    obtain ⟨groups, hgroups, rfl⟩ := hprepared
    intro c hc
    obtain ⟨result, hresult, rfl⟩ := List.mem_map.mp hc
    obtain ⟨group, hgroup, hok⟩ := mapAll_ok_mem hgroups result (mem_sortOn.mp hresult)
    exact groupOf_ok (byResource_ok (fun _ hx => hx) (by simp) group hgroup) hok

/-- Candidates of the successful branches that count for an identity. -/
def FromBranches (request : SearchRequest) (successful : List ExecutedBranch) (id : NonEmptyText)
    (c : RankedCandidate) : Prop :=
  ∃ branch ∈ successful, FromBranch request branch.candidates id c

/-- Grouping has nothing to raise: no group is empty. -/
theorem byResource_ne {rest : List RankedCandidate} {firstSeen : Nat} {seen : List NonEmptyText}
    {grouped : List (NonEmptyText × List (Nat × RankedCandidate))} (h : ∀ e ∈ grouped, e.2 ≠ []) :
    ∀ e ∈ byResource rest firstSeen seen grouped, e.2 ≠ [] := by
  induction rest generalizing firstSeen seen grouped with
  | nil => exact h
  | cons c rest ih =>
    rw [byResource]
    split
    · exact ih h
    · refine ih (Dict.all_upsert (P := fun _ group => group ≠ []) h ?_ fun group _ => ?_) <;> simp

theorem fusionCandidates_total (request : SearchRequest) (candidates : List RankedCandidate) :
    ∃ fusion, fusionCandidates request candidates = .ok fusion := by
  unfold fusionCandidates
  cases request.target with
  | unit => exact ⟨_, rfl⟩
  | resource =>
    have hgroup : ∀ group ∈ byResource candidates 0 [] [], ∃ result,
        groupOf request.evidenceLimitPerResource group = .ok result := by
      intro group hmem
      have hne : group.2 ≠ [] := byResource_ne (by simp) group hmem
      have hsorted : sortOn entryOrder group.2 ≠ [] := by
        intro hnil
        have hperm := sortOn_perm entryOrder group.2
        rw [hnil] at hperm
        exact hne hperm.symm.eq_nil
      obtain ⟨first, rest, hfirst⟩ := List.exists_cons_of_ne_nil hsorted
      obtain ⟨x, xs, hx⟩ := List.exists_cons_of_ne_nil hne
      simp only [groupOf, bind_ok, getOr_ok, Except.ok.injEq]
      refine ⟨_, first.2, by rw [hfirst]; rfl, _, by rw [hx]; rfl, rfl⟩
    obtain ⟨groups, hgroups⟩ := mapAll_total hgroup
    exact ⟨_, by rw [groupResources, hgroups]; rfl⟩

/-- What the items of a successful search are like. -/
structure ResultOk (request : SearchRequest) (successful : List ExecutedBranch)
    (items : List SearchResultItem) : Prop where
  limited : items.length ≤ request.limit
  ranks : items.map (·.rank) = List.range' 1 items.length
  ids : (items.map (·.logicalId)).Nodup
  scores : items.Pairwise fun a b => b.score.value ≤ a.score.value
  evidence : ∀ item ∈ items, ∀ c ∈ item.evidence, FromBranches request successful item.logicalId c
  once : ∀ item ∈ items, (item.evidence.map (·.evidenceKey)).Nodup
  bounded : ∀ item ∈ items, item.evidence.length ≤ evidenceLimit request successful

theorem resultItem_ok {target : Target} {entry : FusedCandidate × Nat} {item : SearchResultItem}
    (h : resultItem target entry = .ok item) :
    item.rank = entry.2 ∧ item.logicalId = entry.1.logicalId ∧ item.evidence = entry.1.evidence ∧
      item.score.neg = false ∧ item.score.mag = entry.1.score.mag := by
  unfold resultItem at h
  split at h
  · cases h
    exact ⟨rfl, rfl, rfl, rfl, rfl⟩
  · cases h

/-- Finite scores are ordered by their codes. -/
theorem F64.value_mono {x y : F64} (hx : x.neg = false) (hy : y.neg = false) (h : x.mag ≤ y.mag) :
    x.value ≤ y.value := by
  have hscaled : scaled x.mag ≤ scaled y.mag := (strictMono_nat_of_lt_succ scaled_lt_succ).monotone h
  unfold F64.value
  rw [hx, hy]
  exact Int.ofNat_le.mpr hscaled

/-- A column of the items is that column of the selected candidates. -/
theorem resultItems_column {target : Target} {selected : List FusedCandidate}
    {items : List SearchResultItem} {β : Type} {column : SearchResultItem → β}
    {source : FusedCandidate → β}
    (h : mapAll (resultItem target) (selected.zipIdx 1) = .ok items)
    (hcolumn : ∀ entry item, resultItem target entry = .ok item → column item = source entry.1) :
    items.map column = selected.map source := by
  have hkeys : items.map column = (selected.zipIdx 1).map fun e => source e.1 :=
    mapAll_keys h hcolumn
  have hselected : (selected.zipIdx 1).map (fun e => source e.1) =
      ((selected.zipIdx 1).map Prod.fst).map source := by
    rw [List.map_map]
    rfl
  rw [hkeys, hselected, List.zipIdx_map_fst]

theorem fuseResults_ok {successful : List ExecutedBranch} {items : List SearchResultItem}
    (h : fuseResults request successful = .ok items) : ResultOk request successful items := by
  simp only [fuseResults, bind_ok] at h
  obtain ⟨branches, hbranches, fused, hfused, hitems⟩ := h
  have hcandidates : ∀ b ∈ branches, ∀ c ∈ b.candidates,
      CandidateOk (FromBranches request successful) c := by
    intro b hb c hc
    obtain ⟨branch, hbranch, hprepared⟩ := mapAll_ok_mem hbranches b hb
    obtain ⟨hrepresentative, hevidence⟩ := prepareFusionBranch_ok hprepared c hc
    exact ⟨⟨branch, hbranch, hrepresentative⟩, fun item hitem => ⟨branch, hbranch, hevidence item hitem⟩⟩
  obtain ⟨hids, hscores, hfusedOk⟩ := weightedRrf_spec hcandidates hfused
  have hlength : items.length = (fused.take request.limit).length := by
    rw [mapAll_length hitems, List.length_zipIdx]
  have hmember : ∀ item ∈ items, ∃ c ∈ fused, item.logicalId = c.logicalId ∧
      item.evidence = c.evidence := by
    intro item hitem
    obtain ⟨entry, hentry, hok⟩ := mapAll_ok_mem hitems item hitem
    obtain ⟨-, hid, hevidence, -⟩ := resultItem_ok hok
    exact ⟨entry.1, List.mem_of_mem_take (List.fst_mem_of_mem_zipIdx hentry), hid, hevidence⟩
  have hselected : items.map (·.logicalId) = (fused.take request.limit).map (·.logicalId) :=
    resultItems_column hitems fun _ _ hok => (resultItem_ok hok).2.1
  have hmags : items.map (·.score.mag) = (fused.take request.limit).map (·.score.mag) :=
    resultItems_column hitems fun _ _ hok => (resultItem_ok hok).2.2.2.2
  have hpositive : ∀ item ∈ items, item.score.neg = false := by
    intro item hitem
    obtain ⟨entry, -, hok⟩ := mapAll_ok_mem hitems item hitem
    exact (resultItem_ok hok).2.2.2.1
  refine ⟨?_, ?_, ?_, ?_, ?_, ?_, ?_⟩
  · rw [hlength]
    exact List.length_take_le _ _
  · rw [mapAll_keys hitems fun a b hab => (resultItem_ok hab).1, List.zipIdx_map_snd, hlength]
  · rw [hselected]
    exact hids.sublist ((List.take_sublist _ _).map _)
  · have hordered : (items.map (·.score.mag)).Pairwise fun a b => b ≤ a := by
      rw [hmags, List.pairwise_map]
      exact hscores.sublist (List.take_sublist _ _)
    rw [List.pairwise_map] at hordered
    refine hordered.imp_of_mem fun ha hb hab => ?_
    exact F64.value_mono (hpositive _ hb) (hpositive _ ha) hab
  · intro item hitem c hc
    obtain ⟨f, hf, hid, hevidence⟩ := hmember item hitem
    rw [hid]
    exact (hfusedOk f hf).evidence c (hevidence ▸ hc)
  · intro item hitem
    obtain ⟨f, hf, -, hevidence⟩ := hmember item hitem
    rw [hevidence]
    exact (hfusedOk f hf).once
  · intro item hitem
    obtain ⟨f, hf, -, hevidence⟩ := hmember item hitem
    rw [hevidence]
    exact (hfusedOk f hf).limited

/-- The successful branches of a request. -/
def successfulBranches (port : SearchPort) (request : SearchRequest) : List ExecutedBranch :=
  request.branches.filterMap (executed port request.scope)

theorem search_ok {port : SearchPort} {result : SearchResult} (h : search port request = .ok result) :
    ResultOk request (successfulBranches port request) result.items := by
  simp only [search, bind_ok] at h
  obtain ⟨acc, hacc, hresult⟩ := h
  have hsuccessful := searchBranches_ok hacc
  rw [List.nil_append] at hsuccessful
  split at hresult
  · obtain ⟨_, -, herror⟩ := bind_ok.mp hresult
    cases herror
  · obtain ⟨items, hitems, hok⟩ := bind_ok.mp hresult
    cases hok
    rw [successfulBranches, ← hsuccessful]
    exact fuseResults_ok hitems

end Result

section Hybrid

def hybridWeight : Weight := ⟨⟨⟨false, 0x3FF0000000000000, by decide⟩⟩, by decide +kernel⟩

/-- One branch of words and one of vectors. -/
def hybridRequest : SearchRequest where
  lexicalBranches := [⟨⟨"words", Eq.refl true⟩, ⟨"hello", Eq.refl true⟩, hybridWeight, ⟨10, by decide⟩,
    none⟩]
  vectorBranches := [⟨⟨"dense", Eq.refl true⟩, ⟨"space", Eq.refl true⟩,
    ⟨[⟨F64.zero⟩], List.cons_ne_nil _ _⟩, hybridWeight, ⟨10, by decide⟩, none, none⟩]
  scope := .everything
  target := .resource
  limit := ⟨5, by decide⟩
  rrfK := ⟨60, by decide⟩
  evidenceLimitPerResource := ⟨3, by decide⟩
  allowPartial := true
  requestId := none
  branches_ne := .inl (List.cons_ne_nil _ _)
  branch_ids := by decide

/-- The words are found, the vector branch times out. -/
def hybridPort : SearchPort where
  searchLexical branch _ := .list [some ⟨⟨"chunk", Eq.refl true⟩, ⟨"note", Eq.refl true⟩,
    ⟨"body", Eq.refl true⟩, ⟨1, by decide⟩, ⟨F64.zero⟩, branch.branchId,
    ⟨⟨"chars", Eq.refl true⟩, .empty⟩, .empty⟩]
  searchVector _ _ := .timeoutError

end Hybrid

end MDRack
