import MDRack.Search.Retrieval
import MDRack.Lib.Overfetch

/-!
# Similarity search (`ResourceDiscoveryService.similar`, `_TextualSimilaritySearchPort`)

Both loops ask a vector port for growing prefixes of a ranking.  A port is honest when it answers
every limit with that many first candidates of one ranking, or with all of them.

* `similar` — the service: reads the query, scopes the search to whole resources, over-fetches past
  the query's own resource.
* `textualSearchVector` — the port that filters by the persisted textual identity and ranks again.

Principal results: `similar_ends`, `textual_ends` — with an honest port both loops end;
`similarity_exact` — what they answer.
-/

namespace MDRack

open Json (Value)
open Checks (require)
open Overfetch (Limit)

def similarityBranchId : NonEmptyText := ⟨"similarity", Eq.refl true⟩
def unitWholeResource : NonEmptyText := ⟨"whole_resource", Eq.refl true⟩

/-- `SimilarityRequest`. -/
structure SimilarityRequest where
  queryUnitId : NonEmptyText
  spaceId : NonEmptyText
  similarityBasis : NonEmptyText
  scope : SearchScope
  limit : Limit
  excludeSameResource : Bool

/-- A read of the catalog; `executionError` is `CatalogExecutionError`. -/
inductive CatalogAnswer (α : Type)
  | ok (value : α)
  | executionError (category : ErrorCategory)
  | timeoutError
  | exception

/-- The reads of `ResourceReadPort` that a similarity search makes. -/
structure ResourceReadPort where
  readUnit : NonEmptyText → CatalogAnswer (Option SearchUnitRecord)
  readVector : NonEmptyText → NonEmptyText → CatalogAnswer (Option VectorRecord)

abbrev VectorSearchPort := VectorBranch → SearchScope → PortAnswer

structure SimilarityResult where
  queryUnitId : NonEmptyText
  spaceId : NonEmptyText
  similarityBasis : NonEmptyText
  items : List SearchResultItem
  degradations : List Degradation

/-! ## The service -/

/-- `_CATALOG_ERROR_TO_DEGRADATION`. -/
def catalogErrorToDegradation : ErrorCategory → BranchErrorCategory
  | .catalogError => .adapterError
  | .adapterTimeout => .adapterTimeout

/-- A value read, or the category of the degradation. -/
def CatalogAnswer.read {α : Type} : CatalogAnswer α → Except BranchErrorCategory α
  | .ok value => .ok value
  | .executionError category => .error (catalogErrorToDegradation category)
  | .timeoutError => .error .adapterTimeout
  | .exception => .error .adapterError

/-- The whole-resource unit of the query. -/
def wholeUnit : Option SearchUnitRecord → Except BranchErrorCategory SearchUnitRecord
  | none => .error .branchUnavailable
  | some unit =>
    if unit.unitKind ≠ unitWholeResource then .error .branchUnavailable else .ok unit

/-- The unit of the query and its vector. -/
def queryOf (catalog : ResourceReadPort) (request : SimilarityRequest) :
    Except BranchErrorCategory (SearchUnitRecord × VectorRecord) := do
  let unit ← (catalog.readUnit request.queryUnitId).read
  let unit ← wholeUnit unit
  let vector ← (catalog.readVector request.queryUnitId request.spaceId).read
  let vector ← Checks.getOr .branchUnavailable vector
  .ok (unit, vector)

/-- `_whole_resource_scope`. -/
def wholeResourceScope (scope : SearchScope) : Option SearchScope :=
  if scope.unitKinds ≠ [] ∧ unitWholeResource ∉ scope.unitKinds then none
  else some { scope with unitKinds := [unitWholeResource] }

theorem one_finite : 0x3FF0000000000000 < Binary64.infMag := by decide

theorem one_positive : 0 < (Number.mk ⟨false, 0x3FF0000000000000, one_finite⟩).val.value := by
  decide +kernel

/-- `1.0`. -/
def defaultWeight : Weight := ⟨⟨⟨false, 0x3FF0000000000000, one_finite⟩⟩, one_positive⟩

def similarityBranch (spaceId : NonEmptyText) (vector : Vector) (candidateLimit : Limit) :
    VectorBranch where
  branchId := similarityBranchId
  spaceId := spaceId
  vector := vector
  weight := defaultWeight
  candidateLimit := candidateLimit
  expectedFingerprint := none
  scopeOverride := none

/-- The candidates that are not excluded. -/
def admitted (request : SimilarityRequest) (unit : SearchUnitRecord) (candidate : RankedCandidate) :
    Bool := !request.excludeSameResource || candidate.resourceId != unit.resourceId

/-- What one pass decides from the validated candidates. -/
def selectOrDouble (request : SimilarityRequest) (unit : SearchUnitRecord) (candidateLimit : Limit) :
    Except BranchFailure (List RankedCandidate) →
      Except BranchErrorCategory (List RankedCandidate) ⊕ Unit
  | .error failure => .inl (.error failure.category)
  | .ok candidates =>
    let selected := (candidates.filter (admitted request unit)).take request.limit
    if selected.length = request.limit ∨ candidates.length < candidateLimit then
      .inl (.ok selected)
    else .inr ()

/-- One pass of `while True`. -/
def similarRound (port : VectorSearchPort) (request : SimilarityRequest) (unit : SearchUnitRecord)
    (vector : Vector) (scope : SearchScope) (_ : Unit) (candidateLimit : Limit) :
    Except BranchErrorCategory (List RankedCandidate) ⊕ Unit :=
  selectOrDouble request unit candidateLimit
    (executeBranch (.vector (similarityBranch request.spaceId vector candidateLimit))
      (port (similarityBranch request.spaceId vector candidateLimit) scope))

def firstLimit (request : SimilarityRequest) : Limit :=
  ⟨request.limit + (if request.excludeSameResource then 1 else 0), Nat.add_pos_left request.limit.2 _⟩

def similarityItem (entry : RankedCandidate × Nat) : SearchResultItem where
  logicalId := entry.1.resourceId
  resourceId := entry.1.resourceId
  unitId := some entry.1.unitId
  score := entry.1.rawScore.val
  rank := entry.2
  evidence := [entry.1]
  metadata := .empty

/-- `_completed`. -/
def SimilarityRequest.completed (request : SimilarityRequest) (items : List SearchResultItem)
    (degradations : List Degradation) : SimilarityResult :=
  ⟨request.queryUnitId, request.spaceId, request.similarityBasis, items, degradations⟩

def SimilarityRequest.degraded (request : SimilarityRequest) (category : BranchErrorCategory) :
    SimilarityResult :=
  request.completed [] [⟨similarityBranchId, category⟩]

/-- What the loop's outcome becomes. -/
def SimilarityRequest.outcome (request : SimilarityRequest) :
    Except BranchErrorCategory (List RankedCandidate) → SimilarityResult
  | .error category => request.degraded category
  | .ok selected => request.completed ((selected.zipIdx 1).map similarityItem) []

/-- `similar`, with fuel for the loop. -/
def similar (catalog : ResourceReadPort) (port : VectorSearchPort) (request : SimilarityRequest)
    (fuel : Nat) : Option SimilarityResult :=
  match queryOf catalog request with
  | .error category => some (request.degraded category)
  | .ok (unit, vector) =>
    match wholeResourceScope request.scope with
    | none => some (request.completed [] [])
    | some scope =>
      (Overfetch.rounds (similarRound port request unit vector.vector scope) fuel ()
        (firstLimit request)).map request.outcome

/-! ## The textual port -/

/-- A frozen JSON value is hashable unless it holds an object. -/
def hashable : Value → Bool
  | .obj _ => false
  | .arr items => hashableItems items
  | _ => true
where
  hashableItems : List Value → Bool
    | [] => true
    | v :: rest => hashable v && hashableItems rest

/-- `value in names`, which raises `TypeError` for a value that is not hashable. -/
def isNamed (names : List String) : Option Value → Except Err Bool
  | none => .ok false
  | some (.str text) => .ok (names.contains text)
  | some value => if hashable value then .ok false else .error (.typeError "unhashable type")

def TEXTUAL_AGGREGATIONS : List String := ["direct_text_v1", "token_weighted_centroid_v1"]

def TEXTUAL_SOURCE_BASES : List String :=
  ["frame_caption_text", "image_text_aggregate", "markdown_retrieval_text", "textual_content",
    "transcript_text"]

/-- The predicate of the port. -/
def isTextual (sourceBases : List String) (candidate : RankedCandidate) : Except Err Bool := do
  let basis ← isNamed sourceBases (candidate.metadata.get? "similarity_basis")
  if basis then isNamed TEXTUAL_AGGREGATIONS (candidate.metadata.get? "aggregation") else .ok false

/-- `replace(candidate, rank=rank)`, from a position that counts from zero. -/
def withRank (entry : RankedCandidate × Nat) : RankedCandidate :=
  { entry.1 with rank := ⟨entry.2 + 1, Nat.succ_pos _⟩ }

/-- The ranks of `enumerate(selected[:candidate_limit], start=1)`. -/
def rankAgain (selected : List RankedCandidate) : List RankedCandidate := selected.zipIdx.map withRank

/-- The candidates of an answer; anything but a list of candidates fails when it is read. -/
def rawCandidates : PortAnswer → Except PortAnswer (List RankedCandidate)
  | .list items => Checks.mapAll (Checks.getOr .exception) items
  | .other => .error .exception
  | answer => .error answer

/-- One pass of `while True`; the state is `previous_ids`. -/
def textualRound (catalog : VectorSearchPort) (sourceBases : List String) (branch : VectorBranch)
    (scope : SearchScope) (previousIds : Option (List NonEmptyText)) (fetchLimit : Limit) :
    PortAnswer ⊕ Option (List NonEmptyText) :=
  match rawCandidates (catalog { branch with candidateLimit := fetchLimit } scope) with
  | .error answer => .inl answer
  | .ok raw =>
    match Checks.keepAll (isTextual sourceBases) raw with
    | .error _ => .inl .exception
    | .ok selected =>
      let rawIds := raw.map (·.unitId)
      if branch.candidateLimit ≤ selected.length ∨ raw.length < fetchLimit ∨
          some rawIds = previousIds then
        .inl (.list ((rankAgain (selected.take branch.candidateLimit)).map some))
      else .inr (some rawIds)

/-- `search_vector`, with fuel for the loop. -/
def textualSearchVector (catalog : VectorSearchPort) (sourceBases : List String)
    (branch : VectorBranch) (scope : SearchScope) (fuel : Nat) : Option PortAnswer :=
  Overfetch.rounds (textualRound catalog sourceBases branch scope) fuel none branch.candidateLimit

/-! ## Honest ports -/

/-- Asked for `n` candidates, the port answers the first `n` of the ranking, or all of them. -/
def Honest (port : VectorSearchPort) (branchAt : Limit → VectorBranch) (scope : SearchScope)
    (ranking : List RankedCandidate) : Prop :=
  ∀ n : Limit, port (branchAt n) scope = .list ((ranking.take n).map some)

/-- The candidates of one branch, each unit once, with their positions as ranks. -/
structure Ranked (branchId : NonEmptyText) (ranking : List RankedCandidate) : Prop where
  branch : ∀ c ∈ ranking, c.branchId = branchId
  ranks : ∀ i c, ranking[i]? = some c → c.rank.1 = i + 1
  units : (ranking.map (·.unitId)).Nodup

theorem Ranked.take {branchId : NonEmptyText} {ranking : List RankedCandidate}
    (h : Ranked branchId ranking) (n : Nat) : Ranked branchId (ranking.take n) where
  branch c hc := h.branch c (List.mem_of_mem_take hc)
  ranks i c hc := by
    rw [List.getElem?_take] at hc
    split at hc
    · exact h.ranks i c hc
    · cases hc
  units := by
    rw [List.map_take]
    exact h.units.sublist (List.take_sublist n _)

theorem validateCandidate_length {branchId : NonEmptyText} {items : List (Option RankedCandidate)}
    {done out : List RankedCandidate} (h : items.foldlM (validateCandidate branchId) done = .ok out) :
    out.length = done.length + items.length := by
  induction items generalizing done with
  | nil =>
    cases h
    rfl
  | cons item rest ih =>
    rw [List.foldlM_cons, Checks.bind_ok] at h
    obtain ⟨next, hnext, hrest⟩ := h
    have hlength : next.length = done.length + 1 := by
      cases item with
      | none => cases hnext
      | some candidate =>
        simp only [validateCandidate, Checks.bind_ok, Except.ok.injEq] at hnext
        obtain ⟨-, -, -, -, -, -, rfl⟩ := hnext
        exact List.length_append
    rw [ih hrest, hlength, List.length_cons]
    omega

/-- A ranked list passes validation as it is. -/
theorem validateCandidate_ranked {branchId : NonEmptyText} {done rest : List RankedCandidate}
    (h : Ranked branchId (done ++ rest)) :
    (rest.map some).foldlM (validateCandidate branchId) done = .ok (done ++ rest) := by
  induction rest generalizing done with
  | nil => rw [List.append_nil]; rfl
  | cons candidate rest ih =>
    have hbranch : candidate.branchId = branchId := h.branch candidate (by simp)
    have hrank : candidate.rank.1 = done.length + 1 := h.ranks done.length candidate (by simp)
    have hunit : candidate.unitId ∉ done.map (·.unitId) := by
      have hnodup := h.units
      rw [List.map_append, List.map_cons] at hnodup
      intro hmem
      exact (List.nodup_append.mp hnodup).2.2 _ hmem _ List.mem_cons_self rfl
    have hstep : validateCandidate branchId done (some candidate) = .ok (done ++ [candidate]) := by
      simp only [validateCandidate, require, if_pos hbranch, if_pos hrank, if_pos hunit]
      rfl
    have hassoc : done ++ candidate :: rest = done ++ [candidate] ++ rest := by simp
    rw [List.map_cons, List.foldlM_cons, hstep, hassoc]
    exact ih (hassoc ▸ h)

theorem executeBranch_length {branch : Branch} {items : List (Option RankedCandidate)}
    {candidates : List RankedCandidate} (h : executeBranch branch (.list items) = .ok candidates) :
    candidates.length ≤ items.length := by
  simp only [executeBranch] at h
  cases hvalid : validateCandidates branch items with
  | error e => rw [hvalid] at h; cases h
  | ok out =>
    rw [hvalid] at h
    cases h
    have hlength := validateCandidate_length hvalid
    rw [List.length_take, List.length_nil] at hlength
    omega

theorem executeBranch_ranked {branch : VectorBranch} {ranking : List RankedCandidate}
    (h : Ranked branch.branchId ranking) :
    executeBranch (.vector branch) (.list ((ranking.take branch.candidateLimit).map some)) =
      .ok (ranking.take branch.candidateLimit) := by
  have hvalid : validateCandidates (.vector branch)
      ((ranking.take branch.candidateLimit).map some) = .ok (ranking.take branch.candidateLimit) := by
    unfold validateCandidates
    have htake : ((ranking.take branch.candidateLimit).map some).take
        (Branch.vector branch).candidateLimit = (ranking.take branch.candidateLimit).map some := by
      apply List.take_of_length_le
      rw [List.length_map, List.length_take]
      exact Nat.min_le_left _ _
    rw [htake]
    exact validateCandidate_ranked (h.take _)
  simp only [executeBranch, hvalid]

/-! ## The service ends, and what it answers -/

section Service
variable {catalog : ResourceReadPort} {port : VectorSearchPort} {request : SimilarityRequest}
  {unit : SearchUnitRecord} {vector : VectorRecord} {scope : SearchScope}
  {ranking : List RankedCandidate}

/-- The port answers the service's queries from one ranking. -/
def AnswersFrom (catalog : ResourceReadPort) (port : VectorSearchPort) (request : SimilarityRequest)
    (ranking : List RankedCandidate) : Prop :=
  ∀ unit vector scope, queryOf catalog request = .ok (unit, vector) →
    wholeResourceScope request.scope = some scope →
    Honest port (similarityBranch request.spaceId vector.vector) scope ranking

theorem similarRound_answers (hhonest : Honest port (similarityBranch request.spaceId vector.vector)
    scope ranking) (s : Unit) (n : Limit) (hlt : ranking.length < n.1) :
    ∃ r, similarRound port request unit vector.vector scope s n = .inl r := by
  unfold similarRound
  rw [hhonest n]
  cases hrun : executeBranch (.vector (similarityBranch request.spaceId vector.vector n))
      (.list ((ranking.take n).map some)) with
  | error failure => exact ⟨_, rfl⟩
  | ok candidates =>
    have hlength := executeBranch_length hrun
    rw [List.length_map, List.length_take] at hlength
    exact ⟨_, if_pos (Or.inr (by omega))⟩

theorem similarRound_exact (hhonest : Honest port (similarityBranch request.spaceId vector.vector)
    scope ranking) (hranked : Ranked similarityBranchId ranking) (s : Unit) (n : Limit)
    {r : Except BranchErrorCategory (List RankedCandidate)}
    (h : similarRound port request unit vector.vector scope s n = .inl r) :
    r = .ok ((ranking.filter (admitted request unit)).take request.limit) := by
  have hrun : executeBranch (.vector (similarityBranch request.spaceId vector.vector n))
      (.list ((ranking.take n).map some)) = .ok (ranking.take n) :=
    executeBranch_ranked hranked
  unfold similarRound at h
  rw [hhonest n, hrun] at h
  simp only [selectOrDouble] at h
  split at h
  · rename_i hstop
    cases h
    rw [Overfetch.take_filter_of_full]
    rcases hstop with hstop | hstop
    · refine Or.inl ?_
      rw [List.length_take] at hstop
      omega
    · exact Or.inr hstop
  · cases h

/-- With an honest port the search ends, whatever the ranking. -/
theorem similar_ends (hhonest : AnswersFrom catalog port request ranking) :
    ∃ result, ∀ fuel, ranking.length < fuel → similar catalog port request fuel = some result := by
  unfold similar
  cases hquery : queryOf catalog request with
  | error category => exact ⟨_, fun _ _ => rfl⟩
  | ok found =>
    obtain ⟨unit, vector⟩ := found
    cases hscope : wholeResourceScope request.scope with
    | none => exact ⟨_, fun _ _ => rfl⟩
    | some scope =>
      have hanswers : ∀ s (n : Limit), ranking.length < n.1 →
          ∃ r, similarRound port request unit vector.vector scope s n = .inl r :=
        similarRound_answers (hhonest unit vector scope hquery hscope)
      obtain ⟨r, hr⟩ := Overfetch.rounds_ends ranking.length hanswers () (firstLimit request)
      exact ⟨request.outcome r, fun fuel hfuel => by simp only [hr fuel hfuel, Option.map_some]⟩

/-- Whatever the search answers, it is the first admitted candidates of the ranking. -/
theorem similar_answer (hquery : queryOf catalog request = .ok (unit, vector))
    (hscope : wholeResourceScope request.scope = some scope)
    (hhonest : AnswersFrom catalog port request ranking)
    (hranked : Ranked similarityBranchId ranking) {fuel : Nat} {result : SimilarityResult}
    (h : similar catalog port request fuel = some result) :
    result = request.completed
      ((((ranking.filter (admitted request unit)).take request.limit).zipIdx 1).map similarityItem)
      [] := by
  unfold similar at h
  rw [hquery, hscope] at h
  obtain ⟨r, hr, rfl⟩ := Option.map_eq_some_iff.mp h
  have hexact := Overfetch.rounds_spec
    (fun r => r = .ok ((ranking.filter (admitted request unit)).take request.limit))
    (fun _ _ => True)
    (fun s n r _ hround =>
      similarRound_exact (hhonest unit vector scope hquery hscope) hranked s n hround)
    (fun _ _ _ _ _ => trivial) trivial hr
  rw [hexact]
  rfl

end Service

/-! ## The textual port ends, and what it answers -/

section Textual
variable {catalog : VectorSearchPort} {sourceBases : List String} {branch : VectorBranch}
  {scope : SearchScope} {ranking : List RankedCandidate} {textual : RankedCandidate → Bool}

/-- The catalog answers the port's queries from one ranking. -/
def FetchesFrom (catalog : VectorSearchPort) (branch : VectorBranch) (scope : SearchScope)
    (ranking : List RankedCandidate) : Prop :=
  Honest catalog (fun n => { branch with candidateLimit := n }) scope ranking

theorem rawCandidates_some (candidates : List RankedCandidate) :
    rawCandidates (.list (candidates.map some)) = .ok candidates :=
  Checks.mapAll_map (g := some) (fun _ => rfl) candidates

theorem textualRound_answers (hhonest : FetchesFrom catalog branch scope ranking)
    (previousIds : Option (List NonEmptyText)) (n : Limit) (hlt : ranking.length < n.1) :
    ∃ answer, textualRound catalog sourceBases branch scope previousIds n = .inl answer := by
  unfold textualRound
  rw [hhonest n, rawCandidates_some]
  cases hkept : Checks.keepAll (isTextual sourceBases) (ranking.take n) with
  | error e => exact ⟨.exception, by simp only [hkept]⟩
  | ok selected =>
    simp only [hkept]
    exact ⟨_, if_pos (Or.inr (Or.inl (Overfetch.length_take_lt hlt)))⟩

/-- With an honest catalog the textual port ends, whatever the ranking. -/
theorem textual_ends (sourceBases : List String) (hhonest : FetchesFrom catalog branch scope ranking) :
    ∃ answer, ∀ fuel, ranking.length < fuel →
      textualSearchVector catalog sourceBases branch scope fuel = some answer :=
  Overfetch.rounds_ends ranking.length (textualRound_answers hhonest) none branch.candidateLimit

/-- `previous_ids` are those of the prefix that was fetched before. -/
def PreviousPrefix (ranking : List RankedCandidate) (previousIds : Option (List NonEmptyText))
    (n : Limit) : Prop :=
  ∀ ids, previousIds = some ids → ∃ m < n.1, ids = (ranking.take m).map (·.unitId)

theorem textualRound_exact (hhonest : FetchesFrom catalog branch scope ranking)
    (hdefined : ∀ c ∈ ranking, isTextual sourceBases c = .ok (textual c))
    {previousIds : Option (List NonEmptyText)} {n : Limit}
    (hprevious : PreviousPrefix ranking previousIds n) :
    (∀ answer, textualRound catalog sourceBases branch scope previousIds n = .inl answer →
      answer = .list ((rankAgain ((ranking.filter textual).take branch.candidateLimit)).map some)) ∧
    ∀ next, textualRound catalog sourceBases branch scope previousIds n = .inr next →
      next = some ((ranking.take n).map (·.unitId)) := by
  have hkept : Checks.keepAll (isTextual sourceBases) (ranking.take n) =
      .ok ((ranking.take n).filter textual) :=
    Checks.keepAll_of_forall fun c hc => hdefined c (List.mem_of_mem_take hc)
  unfold textualRound
  rw [hhonest n, rawCandidates_some]
  simp only [hkept]
  constructor
  · intro answer h
    split at h
    · rename_i hstop
      cases h
      rw [Overfetch.take_filter_of_full]
      rcases hstop with hstop | hstop | hstop
      · exact Or.inl hstop
      · exact Or.inr hstop
      · -- the same ids again: the earlier, smaller prefix was the whole ranking
        obtain ⟨m, hm, hids⟩ := hprevious _ hstop.symm
        have hlength := congrArg List.length hids
        simp only [List.length_map, List.length_take] at hlength ⊢
        omega
    · cases h
  · intro next h
    split at h
    · cases h
    · exact (Sum.inr.inj h).symm

/-- Whatever the textual port answers, it is the first textual candidates of the ranking. -/
theorem textual_answer (hhonest : FetchesFrom catalog branch scope ranking)
    (hdefined : ∀ c ∈ ranking, isTextual sourceBases c = .ok (textual c)) {fuel : Nat}
    {answer : PortAnswer}
    (h : textualSearchVector catalog sourceBases branch scope fuel = some answer) :
    answer = .list ((rankAgain ((ranking.filter textual).take branch.candidateLimit)).map some) := by
  refine Overfetch.rounds_spec
    (fun r => r = .list ((rankAgain ((ranking.filter textual).take branch.candidateLimit)).map some))
    (PreviousPrefix ranking) ?_ ?_ ?_ h
  · exact fun previousIds n answer hprevious hround =>
      (textualRound_exact hhonest hdefined hprevious).1 answer hround
  · intro previousIds n next hprevious hround ids hids
    have hnext := (textualRound_exact hhonest hdefined hprevious).2 next hround
    refine ⟨n.1, ?_, Option.some.inj (hids.symm.trans hnext)⟩
    have hpos := n.2
    show n.1 < 2 * n.1
    omega
  · exact fun _ hnone => by cases hnone

end Textual

theorem rankAgain_getElem? (candidates : List RankedCandidate) (i : Nat) :
    (rankAgain candidates)[i]? = candidates[i]?.map fun c => withRank (c, i) := by
  simp [rankAgain, List.getElem?_zipIdx, Function.comp_def]

/-- Cutting and ranking again agree: the textual port is honest for the textual candidates. -/
theorem rankAgain_take (candidates : List RankedCandidate) (n : Nat) :
    rankAgain (candidates.take n) = (rankAgain candidates).take n := by
  apply List.ext_getElem?
  intro i
  rw [rankAgain_getElem?, List.getElem?_take, List.getElem?_take, rankAgain_getElem?]
  split <;> rfl

theorem rankAgain_ranked {branchId : NonEmptyText} {ranking : List RankedCandidate}
    (h : Ranked branchId ranking) (keep : RankedCandidate → Bool) :
    Ranked branchId (rankAgain (ranking.filter keep)) where
  branch c hc := by
    obtain ⟨i, hi⟩ := List.mem_iff_getElem?.mp hc
    rw [rankAgain_getElem?, Option.map_eq_some_iff] at hi
    obtain ⟨candidate, hcandidate, rfl⟩ := hi
    exact h.branch candidate (List.mem_of_mem_filter (List.mem_of_getElem? hcandidate))
  ranks i c hc := by
    rw [rankAgain_getElem?, Option.map_eq_some_iff] at hc
    obtain ⟨candidate, -, rfl⟩ := hc
    rfl
  units := by
    have hids : (rankAgain (ranking.filter keep)).map (·.unitId) =
        (ranking.filter keep).map (·.unitId) := by
      apply List.ext_getElem?
      intro i
      rw [List.getElem?_map, List.getElem?_map, rankAgain_getElem?, Option.map_map]
      rfl
    rw [hids]
    exact h.units.sublist (List.filter_sublist.map _)

/-- The textual port, given the fuel it needs. -/
def textualPort (catalog : VectorSearchPort) (sourceBases : List String) (fuel : Nat) :
    VectorSearchPort :=
  fun branch scope => (textualSearchVector catalog sourceBases branch scope fuel).getD .exception

/-- Over an honest catalog the textual port is honest for the textual candidates, ranked again, so
the service may search through it. -/
theorem textualPort_honest {catalog : VectorSearchPort} {sourceBases : List String}
    {branchAt : Limit → VectorBranch} {scope : SearchScope} {ranking : List RankedCandidate}
    {textual : RankedCandidate → Bool} (hlimit : ∀ n, (branchAt n).candidateLimit = n)
    (hfetches : ∀ n, FetchesFrom catalog (branchAt n) scope ranking)
    (hdefined : ∀ c ∈ ranking, isTextual sourceBases c = .ok (textual c)) :
    Honest (textualPort catalog sourceBases (ranking.length + 1)) branchAt scope
      (rankAgain (ranking.filter textual)) := by
  intro n
  obtain ⟨answer, hanswer⟩ := textual_ends sourceBases (hfetches n)
  have hends := hanswer (ranking.length + 1) (Nat.lt_succ_self _)
  have hexact := textual_answer (hfetches n) hdefined hends
  unfold textualPort
  rw [hends, Option.getD_some, hexact, rankAgain_take, hlimit n]

section Sibling

def siblingCandidate (unitId resourceId : NonEmptyText) (rank : Limit) : RankedCandidate :=
  ⟨unitId, resourceId, resourceId, rank, ⟨.zero⟩, similarityBranchId,
    ⟨⟨"whole", Eq.refl true⟩, .empty⟩, .empty⟩

/-- The first two candidates are units of one resource. -/
def siblingRanking : List RankedCandidate :=
  [siblingCandidate ⟨"whole-1", Eq.refl true⟩ ⟨"twice", Eq.refl true⟩ ⟨1, Nat.succ_pos 0⟩,
    siblingCandidate ⟨"whole-2", Eq.refl true⟩ ⟨"twice", Eq.refl true⟩ ⟨2, Nat.succ_pos 1⟩,
    siblingCandidate ⟨"whole-3", Eq.refl true⟩ ⟨"once", Eq.refl true⟩ ⟨3, Nat.succ_pos 2⟩]

theorem siblingValues_ne_nil : [Number.mk .zero] ≠ [] := List.cons_ne_nil _ _

def siblingCatalog : ResourceReadPort where
  readUnit unitId := .ok (some ⟨unitId, ⟨"query", Eq.refl true⟩, ⟨"body", Eq.refl true⟩,
    unitWholeResource, ⟨"text", Eq.refl true⟩, some "query", ⟨⟨"whole", Eq.refl true⟩, .empty⟩, 0,
    none, .empty⟩)
  readVector unitId spaceId := .ok (some ⟨unitId, spaceId, ⟨[⟨.zero⟩], siblingValues_ne_nil⟩⟩)

def siblingPort : VectorSearchPort :=
  fun branch _ => .list ((siblingRanking.take branch.candidateLimit).map some)

def siblingRequest : SimilarityRequest where
  queryUnitId := ⟨"whole-0", Eq.refl true⟩
  spaceId := ⟨"space", Eq.refl true⟩
  similarityBasis := ⟨"text", Eq.refl true⟩
  scope := .everything
  limit := ⟨2, Nat.succ_pos 1⟩
  excludeSameResource := true

theorem siblingPort_honest (branchAt : Limit → VectorBranch) (scope : SearchScope)
    (h : ∀ n, (branchAt n).candidateLimit = n) : Honest siblingPort branchAt scope siblingRanking := by
  intro n
  show PortAnswer.list ((siblingRanking.take (branchAt n).candidateLimit).map some) = _
  rw [h n]

theorem siblingRanking_ranked : Ranked similarityBranchId siblingRanking where
  branch := by simp [siblingRanking, siblingCandidate]
  ranks i c hc := by
    rcases i with _ | _ | _ | i
    · cases hc
      rfl
    · cases hc
      rfl
    · cases hc
      rfl
    · simp [siblingRanking] at hc
  units := by decide

end Sibling

end MDRack