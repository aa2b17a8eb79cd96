import MDRack.Search.Retrieval
import MDRack.Search.ScopeSql
import MDRack.Search.Similarity
import MDRack.Sqlite.Snapshots
import Mathlib.Data.Multiset.Defs

/-!
# Lexical search (`SQLiteResourceCatalogStore.search_lexical`, `fts.plain_query_fallback`)

The full-text engine is a parameter: whether a query can be parsed and which texts it matches, and
the score of a text among the indexed texts.

* `plainQueryFallback` — the quoted phrase tried when the engine refuses a query.
* `ftsHits` — the matching index rows, in the order of their row ids, joined and scoped.
* `searchLexical` — the statement, with its two tie-breakers, and the candidates.

Principal result: `lexical_content_iff` — two stores with the same graphs answer alike iff the
scope names media types or their indexes list each class of equal scores alike, as far as the
candidate limit reaches into it.
-/

namespace MDRack

open Checks Sorting Transaction

/-! ## The query -/

section Query

variable (wordChar : Char → Bool)

def FTS_OPERATORS : List (List Char) := ["AND", "OR", "NOT", "NEAR"].map String.toList

/-- `\b(?:AND|OR|NOT|NEAR)\b`, after a character that is or is not a word character. -/
def hasOperatorWord : Bool → List Char → Bool
  | _, [] => false
  | afterWord, c :: rest =>
    (!afterWord && FTS_OPERATORS.any fun operator => operator.isPrefixOf (c :: rest) &&
      !((c :: rest).drop operator.length).head?.any wordChar) ||
        hasOperatorWord (wordChar c) rest

/-- `\w+:`. -/
def hasColumnFilter : Bool → List Char → Bool
  | _, [] => false
  | afterWord, c :: rest => (afterWord && c == ':') || hasColumnFilter (wordChar c) rest

/-- `_FTS_OPERATOR_PATTERN.search(query)`. -/
def hasOperator (query : List Char) : Bool :=
  query.any (fun c => c == '"' || c == '(' || c == ')' || c == '*') ||
    hasOperatorWord wordChar false query || hasColumnFilter wordChar false query

def plainQueryFallback (query : String) : Option String :=
  if hasOperator wordChar query.toList then none
  else some (String.ofList ('"' :: (query.toList.flatMap fun c =>
    if c = '"' then ['"', '"'] else [c]) ++ ['"']))

end Query

/-! ## The statement -/

/-- The full-text engine: a query it cannot parse raises, a parsed one says which texts match. -/
structure FtsEngine where
  wordChar : Char → Bool
  parse : String → Option (String → Bool)
  bm25 : Multiset String → String → String → Number

/-- An index row with the rows it joins. -/
structure FtsHit where
  content : String
  row : JoinedRow

/-- The joined rows that the clauses of a scope select. -/
def scopedRows (t : Tables) (scope : SearchScope) : List JoinedRow :=
  (joinedRows t).filter fun row => scopeHolds t scope row == some true

/-- The matching rows of the index, which lists them by row id. -/
def ftsHits (t : Tables) (scope : SearchScope) (matching : String → Bool) : List FtsHit :=
  (t.fts.filter fun f => matching f.content).flatMap fun f =>
    ((scopedRows t scope).filter fun row => row.unit.unitId = f.unitId).map fun row =>
      ⟨f.content, row⟩

def indexedTexts (t : Tables) : Multiset String := ↑(t.fts.map (·.content))

namespace FtsEngine

variable (engine : FtsEngine)

/-- `bm25(core_search_units_fts) AS branch_score`. -/
def branchScore (t : Tables) (query : String) (hit : FtsHit) : Number :=
  engine.bm25 (indexedTexts t) query hit.content

/-- `ORDER BY branch_score ASC, {tie_breaker} LIMIT ?`: the unit id where the scope names media
types, else the row id, which a stable sort keeps. -/
def selectHits (t : Tables) (scope : SearchScope) (query : String) (matching : String → Bool)
    (limit : Nat) : List FtsHit :=
  let hits := ftsHits t scope matching
  let score := fun hit => (engine.branchScore t query hit).val.value
  if scope.mediaTypes ≠ [] then
    (sortOn (fun hit => toLex (score hit, hit.row.unit.unitId)) hits).take limit
  else (sortOn score hits).take limit

/-- The query that is run: the branch's own, or its quoted phrase. -/
def runnable (query : String) : Option (String × (String → Bool)) :=
  match engine.parse query with
  | some matching => some (query, matching)
  | none => (plainQueryFallback engine.wordChar query).bind fun fallback =>
      (engine.parse fallback).map fun matching => (fallback, matching)

end FtsEngine

/-! ## Candidates -/

/-- `_unit_from_row`. -/
def unitFromRow (row : JoinedRow) : Except Err SearchUnitRecord := do
  let resourceId ← requireNonEmpty row.unit.resourceId "resource_id"
  let modality ← requireNonEmpty row.unit.modality "modality"
  let owner ← requireNonEmpty row.representation.resourceId "representation.resource_id"
  let represented ← requireNonEmpty row.representation.modality "representation.modality"
  require (owner = resourceId ∧ represented = modality) (.catalogExecution .catalogError)
  decodeUnit row.unit

/-- `-score`. -/
def Number.negate (x : Number) : Number := ⟨{ x.val with neg := !x.val.neg }⟩

/-- `_candidate`. -/
def candidateOf (branchId : NonEmptyText) (rank : { n : Nat // 0 < n }) (score : Number)
    (row : JoinedRow) : Except Err RankedCandidate := do
  let unit ← unitFromRow row
  .ok ⟨unit.unitId, unit.resourceId, unit.representationId, rank, score.negate, branchId,
    unit.evidenceLocator, unit.metadata⟩

/-- `enumerate(rows, start=1)`. -/
def lexicalCandidates (branchId : NonEmptyText) (score : FtsHit → Number) (hits : List FtsHit) :
    Except Err (List RankedCandidate) :=
  mapAll (fun hit : FtsHit × Nat => candidateOf branchId ⟨hit.2 + 1, Nat.succ_pos _⟩ (score hit.1)
    hit.1.row) hits.zipIdx

namespace FtsEngine

variable (engine : FtsEngine)

/-- `search_lexical`: whatever goes wrong in the branch is a failure of the branch, a graph that
does not hold together is a failure of the catalog. -/
def searchLexical (t : Tables) (branch : LexicalBranch) (scope : SearchScope) :
    Except (BranchFailure ⊕ Err) (List RankedCandidate) :=
  match engine.runnable branch.query.text with
  | none => .error (.inl ⟨.adapterError, branch.branchId⟩)
  | some (query, matching) =>
    match lexicalCandidates branch.branchId (engine.branchScore t query)
        (engine.selectHits t scope query matching branch.candidateLimit) with
    | .ok candidates => .ok candidates
    | .error (.catalogExecution category) => .error (.inr (.catalogExecution category))
    | .error _ => .error (.inl ⟨.adapterError, branch.branchId⟩)

end FtsEngine

/-! ## Stores with the same graphs -/

/-- The same published graphs, in stores that draw their tokens as they like. -/
structure SameGraphs (env env' : Env) (t t' : Tables) : Prop where
  sha256 : env.sha256 = env'.sha256
  graphs : ∀ id, readGraph env t id = readGraph env' t' id

theorem SameGraphs.symm {env env' : Env} {t t' : Tables} (h : SameGraphs env env' t t') :
    SameGraphs env' env t' t := ⟨h.sha256.symm, fun id => (h.graphs id).symm⟩

/-- The graphs are not read from the index. -/
theorem readGraph_with_fts (env : Env) (t : Tables) (fts : List FtsRow) (id : String) :
    readGraph env { t with fts := fts } id = readGraph env t id := rfl

section Same

variable {env env' : Env} {t t' : Tables} {scope : SearchScope}

theorem mem_scopedRows {row : JoinedRow} :
    row ∈ scopedRows t scope ↔ row ∈ joinedRows t ∧ RowAdmitted t scope row := by
  obtain ⟨b, heval, hb⟩ := scopeClauses_holds t scope row
  unfold scopedRows scopeHolds
  rw [List.mem_filter, heval, ← hb]
  simp

/-- A selected row of one store is a selected row of the other. -/
theorem SameGraphs.scopedRows_subset (h : SameGraphs env env' t t') (hc : Coherent env t)
    (hc' : Coherent env' t') : scopedRows t scope ⊆ scopedRows t' scope := by
  intro row hrow
  obtain ⟨hjoined, hadmitted⟩ := mem_scopedRows.mp hrow
  obtain ⟨p, r, u, hp, hs, hj⟩ := hc.joined hjoined
  have hread := readGraph_normalForm hp hs hc.space_ids
  rw [h.graphs] at hread
  obtain ⟨q, hq, hs', hid, hnormal⟩ := hc'.graph_stored hread
  -- the two prepared batches are one graph
  have hsame : SameGraph q.batch p.batch.normalForm := by
    rw [hnormal]
    exact hq.valid.normalForm_same
  have hpsame := hp.valid.normalForm_same
  have hu : u ∈ q.batch.units := hsame.units.mem_iff.mp (hpsame.units.mem_iff.mpr hj.unit)
  have hr : r ∈ q.batch.representations :=
    hsame.representations.mem_iff.mp (hpsame.representations.mem_iff.mpr hj.representation)
  have hresource : q.batch.resource = p.batch.resource :=
    hsame.resource.symm.trans hpsame.resource
  have hrowq : row = ⟨q.resourceValues, representationRow r, unitRow u⟩ := by
    cases row
    simp only [JoinedRow.mk.injEq]
    refine ⟨?_, hj.representation_row, hj.unit_row⟩
    have hhash : resourceRow env p.batch.resource = resourceRow env' p.batch.resource := by
      simp only [resourceRow, locatorFingerprint, h.sha256]
    rw [hq.resource, hresource, ← hhash]
    exact hj.resource_row
  have hjq : JoinsTo env' q.batch row r u :=
    ⟨hu, hr, hj.owner, by rw [hrowq, hq.resource], hj.representation_row, hj.unit_row⟩
  have hsubject : q.batch.subject r u = p.batch.subject r u := by
    simp only [PreparedResourceBatch.subject, hresource]
    congr 1
    ext x
    simp only [← hsame.facets.mem_iff, hpsame.facets.mem_iff]
  refine mem_scopedRows.mpr ⟨?_, ?_⟩
  · rw [hrowq]
    exact hs'.joins hq hu hr hj.owner
  · rw [hjq.admitted hq hc'.facet_ids hs', hsubject]
    exact (hj.admitted hp hc.facet_ids hs).mp hadmitted

theorem scopedRows_ids (scope : SearchScope) (hc : Coherent env t) :
    ((scopedRows t scope).map fun row => row.unit.unitId).Nodup := by
  have h : ((scopedUnits t scope).map (·.unitId)).Nodup := scopedUnits_ids hc
  unfold scopedUnits at h
  rw [List.map_map] at h
  exact h

theorem SameGraphs.scopedRows_perm (scope : SearchScope) (h : SameGraphs env env' t t') (hc : Coherent env t)
    (hc' : Coherent env' t') : (scopedRows t scope).Perm (scopedRows t' scope) := by
  rw [List.perm_ext_iff_of_nodup (scopedRows_ids scope hc).of_map (scopedRows_ids scope hc').of_map]
  intro row
  exact ⟨fun hrow => h.scopedRows_subset hc hc' hrow,
    fun hrow => h.symm.scopedRows_subset hc' hc hrow⟩

/-- Every unit is joined, and a scope without restrictions selects it. -/
theorem unit_selected (hc : Coherent env t) {u : UnitRow} (hu : u ∈ t.units) :
    ∃ row ∈ scopedRows t .everything, row.unit = u := by
  obtain ⟨p, hp, howner, hid⟩ := hc.references.2.1 u hu
  obtain ⟨r, hr, hrid⟩ := hc.references.1 p hp
  refine ⟨⟨r, p, u⟩, mem_scopedRows.mpr ⟨mem_joinedRows.mpr ⟨hu, hp, hr, hid, ?_⟩, ?_⟩, rfl⟩
  · exact hrid.trans howner
  · constructor <;> simp [SearchScope.everything, ColumnIncluded, Selection.Included]

theorem SameGraphs.units_subset (h : SameGraphs env env' t t') (hc : Coherent env t)
    (hc' : Coherent env' t') : t.units ⊆ t'.units := by
  intro u hu
  obtain ⟨row, hrow, rfl⟩ := unit_selected hc hu
  have hrow' := h.scopedRows_subset hc hc' hrow
  exact (mem_joinedRows.mp (mem_scopedRows.mp hrow').1).1

theorem SameGraphs.fts_perm (h : SameGraphs env env' t t') (hc : Coherent env t)
    (hc' : Coherent env' t') : t.fts.Perm t'.fts := by
  have hunits : t.units.Perm t'.units := by
    rw [List.perm_ext_iff_of_nodup hc.unit_ids.of_map hc'.unit_ids.of_map]
    intro u
    exact ⟨fun hu => h.units_subset hc hc' hu, fun hu => h.symm.units_subset hc' hc hu⟩
  exact (hc.fts.trans (hunits.filterMap _)).trans hc'.fts.symm

/-! ## Hits -/

theorem scopedRows_of_unit (scope : SearchScope) (hc : Coherent env t) (unitId : String) :
    ((scopedRows t scope).filter fun row => row.unit.unitId = unitId) = [] ∨
      ∃ row, ((scopedRows t scope).filter fun row => row.unit.unitId = unitId) = [row] ∧
        row.unit.unitId = unitId := by
  rcases Table.filter_key_unique (scopedRows_ids scope hc) unitId with h | ⟨row, h⟩
  · exact .inl h
  · have hrow : row ∈ (scopedRows t scope).filter fun row => row.unit.unitId = unitId := by
      rw [h]
      exact List.mem_singleton_self row
    exact .inr ⟨row, h, of_decide_eq_true (List.mem_filter.mp hrow).2⟩

/-- A unit is found once. -/
theorem ftsHits_ids (scope : SearchScope) (hc : Coherent env t) (matching : String → Bool) :
    ((ftsHits t scope matching).map fun hit => hit.row.unit.unitId).Nodup := by
  have hsub : ((ftsHits t scope matching).map fun hit => hit.row.unit.unitId).Sublist
      ((t.fts.filter fun f => matching f.content).map (·.unitId)) := by
    unfold ftsHits
    induction t.fts.filter fun f => matching f.content with
    | nil => exact .slnil
    | cons f rest ih =>
      rw [List.flatMap_cons, List.map_append, List.map_cons, ← List.singleton_append]
      refine List.Sublist.append ?_ ih
      rcases scopedRows_of_unit scope hc f.unitId with h | ⟨row, h, hid⟩
      · rw [h]
        exact List.nil_sublist _
      · rw [h]
        simp [hid]
  exact (Table.nodup_map_filter _ hc.fts_ids).sublist hsub

theorem SameGraphs.ftsHits_perm (scope : SearchScope) (h : SameGraphs env env' t t') (hc : Coherent env t)
    (hc' : Coherent env' t') (matching : String → Bool) :
    (ftsHits t scope matching).Perm (ftsHits t' scope matching) := by
  have hrows (unitId : String) :
      ((scopedRows t scope).filter fun row => row.unit.unitId = unitId) =
        (scopedRows t' scope).filter fun row => row.unit.unitId = unitId := by
    have hperm := (h.scopedRows_perm scope hc hc').filter fun row =>
      decide (row.unit.unitId = unitId)
    rcases scopedRows_of_unit scope hc unitId with hnone | ⟨row, hone, -⟩
    · rw [hnone] at hperm ⊢
      exact hperm.symm.eq_nil.symm
    · rw [hone] at hperm ⊢
      exact (List.perm_singleton.mp hperm.symm).symm
  unfold ftsHits
  simp only [hrows]
  exact ((h.fts_perm hc hc').filter _).flatMap_right _

theorem SameGraphs.indexedTexts_eq (h : SameGraphs env env' t t') (hc : Coherent env t)
    (hc' : Coherent env' t') : indexedTexts t = indexedTexts t' :=
  Multiset.coe_eq_coe.mpr ((h.fts_perm hc hc').map _)

/-! ## Candidates of a catalog -/

/-- A joined row of a catalog is read back as its unit. -/
theorem Coherent.unitFromRow (hc : Coherent env t) {row : JoinedRow} (hrow : row ∈ joinedRows t) :
    ∃ u : SearchUnitRecord, unitFromRow row = .ok u ∧ u.unitId.text = row.unit.unitId := by
  obtain ⟨p, r, u, hp, hs, hj⟩ := hc.joined hrow
  obtain ⟨r', hr', hid, hmodality⟩ := hp.valid.unit_representation u hj.unit
  obtain rfl : r' = r := Table.eq_of_key_eq hp.valid.representation_ids hr' hj.representation
    (hid.trans hj.owner.symm)
  have howner : r'.resourceId = u.resourceId :=
    (hp.valid.representation_owner r' hr').trans (hp.valid.unit_owner u hj.unit).symm
  refine ⟨u, ?_, congrArg (·.unitId) hj.unit_row.symm⟩
  simp only [MDRack.unitFromRow, bind_ok, require_ok, exists_const]
  rw [hj.unit_row, hj.representation_row]
  exact ⟨_, requireNonEmpty_text _ _, _, requireNonEmpty_text _ _, _, requireNonEmpty_text _ _, _,
    requireNonEmpty_text _ _, ⟨howner, hmodality.symm⟩, decodeUnit_row u⟩

theorem candidateOf_unit {branchId : NonEmptyText} {rank : { n : Nat // 0 < n }} {score : Number}
    {row : JoinedRow} {c : RankedCandidate} (h : candidateOf branchId rank score row = .ok c) :
    c.unitId.text = row.unit.unitId := by
  simp only [candidateOf, MDRack.unitFromRow, bind_ok, require_ok, Except.ok.injEq,
    exists_const] at h
  obtain ⟨u, ⟨_, -, _, -, _, -, _, -, -, hdecode⟩, rfl⟩ := h
  simp only [decodeUnit, bind_ok, Except.ok.injEq] at hdecode
  obtain ⟨_, -, _, -, unitId, hunit, _, -, _, -, _, -, _, -, _, -, rfl⟩ := hdecode
  exact requireNonEmpty_ok hunit

/-- The candidates name the selected units, in their order. -/
theorem Coherent.lexicalCandidates (hc : Coherent env t) (branchId : NonEmptyText)
    (score : FtsHit → Number) {hits : List FtsHit} (hhits : ∀ hit ∈ hits, hit.row ∈ joinedRows t) :
    ∃ cs, lexicalCandidates branchId score hits = .ok cs ∧
      cs.map (·.unitId.text) = hits.map (·.row.unit.unitId) := by
  have hall : ∀ hit ∈ hits.zipIdx, ∃ c, candidateOf branchId ⟨hit.2 + 1, Nat.succ_pos _⟩
      (score hit.1) hit.1.row = .ok c := by
    intro hit hmem
    obtain ⟨u, hu, -⟩ := hc.unitFromRow (hhits hit.1 (List.fst_mem_of_mem_zipIdx hmem))
    unfold candidateOf
    rw [hu]
    exact ⟨_, rfl⟩
  obtain ⟨cs, hcs⟩ := mapAll_total hall
  refine ⟨cs, hcs, ?_⟩
  have hkeys : cs.map (fun c => c.unitId.text) =
      hits.zipIdx.map fun hit => hit.1.row.unit.unitId :=
    mapAll_keys hcs fun _ _ h => candidateOf_unit h
  rw [hkeys]
  conv => rhs; rw [← List.zipIdx_map_fst 0 hits, List.map_map]
  rfl

end Same

/-! ## Content and history -/

namespace FtsEngine

variable (engine : FtsEngine)

/-- Matching units with one score, in the order of the index. -/
def tied (t : Tables) (scope : SearchScope) (query : String) (matching : String → Bool)
    (score : Int) : List String :=
  ((ftsHits t scope matching).filter fun hit =>
    (engine.branchScore t query hit).val.value = score).map (·.row.unit.unitId)

/-- The places left under the limit for the units with a score. -/
def room (t : Tables) (scope : SearchScope) (query : String) (matching : String → Bool)
    (limit : Nat) (score : Int) : Nat :=
  limit - ((ftsHits t scope matching).filter fun hit =>
    (engine.branchScore t query hit).val.value < score).length

/-- The two indexes list units of equal score alike, as far as there are places left. -/
def TiesAgree (t t' : Tables) (scope : SearchScope) (query : String) (matching : String → Bool)
    (limit : Nat) : Prop :=
  ∀ score, (engine.tied t scope query matching score).take
      (engine.room t scope query matching limit score) =
    (engine.tied t' scope query matching score).take
      (engine.room t scope query matching limit score)

variable {engine} {env env' : Env} {t t' : Tables} {scope : SearchScope} {query : String}
  {matching : String → Bool} {limit : Nat}

theorem selectHits_subset {hit : FtsHit} (h : hit ∈ engine.selectHits t scope query matching limit) :
    hit ∈ ftsHits t scope matching := by
  unfold selectHits at h
  simp only at h
  split at h <;> exact mem_sortOn.mp (List.mem_of_mem_take h)

theorem joined_of_selected {hit : FtsHit}
    (h : hit ∈ engine.selectHits t scope query matching limit) : hit.row ∈ joinedRows t := by
  have hmem := selectHits_subset h
  simp only [ftsHits, List.mem_flatMap, List.mem_map, List.mem_filter] at hmem
  obtain ⟨f, -, row, ⟨hrow, -⟩, rfl⟩ := hmem
  exact (mem_scopedRows.mp hrow).1

theorem branchScore_congr (engine : FtsEngine) (h : SameGraphs env env' t t') (hc : Coherent env t)
    (hc' : Coherent env' t') :
    engine.branchScore t = engine.branchScore t' := by
  funext query hit
  unfold branchScore
  rw [h.indexedTexts_eq hc hc']

/-- The selected hits are the same iff the scope names media types or the ties agree. -/
theorem selectHits_iff (h : SameGraphs env env' t t') (hc : Coherent env t) (hc' : Coherent env' t') :
    engine.selectHits t scope query matching limit =
        engine.selectHits t' scope query matching limit ↔
      scope.mediaTypes ≠ [] ∨ engine.TiesAgree t t' scope query matching limit := by
  have hperm := h.ftsHits_perm scope hc hc' matching
  have hscore := branchScore_congr engine h hc hc'
  unfold selectHits TiesAgree tied room
  rw [← hscore]
  by_cases hmedia : scope.mediaTypes = []
  · simp only [hmedia, ne_eq, not_true_eq_false, if_false, false_or]
    rw [take_sortOn_iff hperm]
    refine forall_congr' fun score => ?_
    rw [← List.map_take, ← List.map_take]
    constructor
    · exact fun heq => congrArg _ heq
    · intro heq
      refine Table.eq_of_map_key_eq (ftsHits_ids scope hc matching) ?_ ?_ heq
      · intro hit hmem
        exact (List.mem_filter.mp (List.mem_of_mem_take hmem)).1
      · intro hit hmem
        exact hperm.mem_iff.mpr (List.mem_filter.mp (List.mem_of_mem_take hmem)).1
  · simp only [hmedia, ne_eq, not_false_eq_true, if_true, true_or, iff_true]
    rw [sortOn_congr hperm]
    refine Table.nodup_map_of_key (ftsHits_ids scope hc matching) ?_
    intro a _ b _ hkey
    exact congrArg (fun key => (ofLex key).2) hkey

/-- The answers are the same iff the selected hits are. -/
theorem searchLexical_iff (h : SameGraphs env env' t t') (hc : Coherent env t) (hc' : Coherent env' t')
    (branch : LexicalBranch) :
    engine.searchLexical t branch scope = engine.searchLexical t' branch scope ↔
      ∀ query matching, engine.runnable branch.query.text = some (query, matching) →
        engine.selectHits t scope query matching branch.candidateLimit =
          engine.selectHits t' scope query matching branch.candidateLimit := by
  have hscore := branchScore_congr engine h hc hc'
  unfold searchLexical
  cases hrun : engine.runnable branch.query.text with
  | none => simp
  | some run =>
    obtain ⟨query, matching⟩ := run
    obtain ⟨cs, hcs, hids⟩ := hc.lexicalCandidates branch.branchId (engine.branchScore t query)
      fun hit (hmem : hit ∈ engine.selectHits t scope query matching branch.candidateLimit) =>
        joined_of_selected hmem
    obtain ⟨cs', hcs', hids'⟩ := hc'.lexicalCandidates branch.branchId (engine.branchScore t' query)
      fun hit (hmem : hit ∈ engine.selectHits t' scope query matching branch.candidateLimit) =>
        joined_of_selected hmem
    simp only [hcs, hcs', Except.ok.injEq, Option.some.injEq, Prod.mk.injEq]
    constructor
    · rintro rfl q m ⟨rfl, rfl⟩
      refine Table.eq_of_map_key_eq (ftsHits_ids scope hc matching) ?_ ?_ (hids.symm.trans hids')
      · exact fun hit hmem => selectHits_subset hmem
      · exact fun hit hmem =>
          (h.ftsHits_perm scope hc hc' matching).mem_iff.mpr (selectHits_subset hmem)
    · intro hsame
      rw [hsame query matching ⟨rfl, rfl⟩, hscore, hcs', Except.ok.injEq] at hcs
      exact hcs.symm

end FtsEngine

/-- A note with two units of one text, the second one listed first. -/
def echoBatch : PreparedResourceBatch :=
  { sampleBatch with
    units := [⟨⟨"second", Eq.refl true⟩, sampleResource.resourceId, ⟨"body", Eq.refl true⟩,
        ⟨"text_chunk", Eq.refl true⟩, ⟨"text", Eq.refl true⟩, some "hello",
        ⟨⟨"chars", Eq.refl true⟩, .empty⟩, 0, none, .empty⟩,
      ⟨⟨"first", Eq.refl true⟩, sampleResource.resourceId, ⟨"body", Eq.refl true⟩,
        ⟨"text_chunk", Eq.refl true⟩, ⟨"text", Eq.refl true⟩, some "hello",
        ⟨⟨"chars", Eq.refl true⟩, .empty⟩, 1, none, .empty⟩] }

@[irreducible] def echoStore : Store := emptyStore.after (.replaceResource echoBatch)
@[irreducible] def rebuiltEchoStore : Store := echoStore.after .rebuildFtsIndex

theorem echoHistory : History sampleEnv [emptyStore.event (.replaceResource echoBatch)] echoStore := by
  unfold echoStore
  exact .step .start (.replaceResource echoBatch) noFaults

theorem rebuiltEchoHistory : History sampleEnv
    [echoStore.event .rebuildFtsIndex, emptyStore.event (.replaceResource echoBatch)]
    rebuiltEchoStore := by
  unfold rebuiltEchoStore
  exact .step echoHistory .rebuildFtsIndex noFaults

/-- The index is rebuilt, the graph tables are kept. -/
theorem echo_sameGraphs :
    SameGraphs sampleEnv sampleEnv echoStore.committed rebuiltEchoStore.committed := by
  have hgraph : rebuiltEchoStore.committed =
      { echoStore.committed with fts := rebuiltFts echoStore.committed } := by
    decide +kernel
  refine ⟨rfl, fun id => ?_⟩
  rw [hgraph]
  exact (readGraph_with_fts _ _ _ id).symm

/-- An engine that reads a query as a text and gives every text one score. -/
def exactEngine : FtsEngine where
  wordChar c := c.isAlphanum || c == '_'
  parse query := some fun text => text == query
  bm25 _ _ _ := ⟨.zero⟩

def helloBranch : LexicalBranch :=
  ⟨⟨"lexical", Eq.refl true⟩, ⟨"hello", Eq.refl true⟩, defaultWeight, ⟨1, Nat.one_pos⟩, none⟩

end MDRack
