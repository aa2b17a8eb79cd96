import MDRack.Core.Validation
import MDRack.Lib.Dict
import MDRack.Lib.Sorting

/-!
# Weighted reciprocal-rank fusion (`mdrack_core.application.fusion`)

Branches of ranked candidates are merged into one ranking of logical identities.  Scores are sums
of non-negative doubles, so a score is a magnitude code, up to infinity.

The four dictionaries of the source always have the same keys; one dictionary holds their values.

Principal results: `weightedRrf_spec` — the fused identities are distinct and in order of score,
and their evidence comes from candidates of the identity, once each, within the limit.
-/

namespace MDRack

open Binary64 Checks Sorting

/-- The categories that a branch failure may have. -/
inductive BranchErrorCategory
  | branchUnavailable
  | incompatibleVectorSpace
  | adapterTimeout
  | adapterError
  deriving DecidableEq, Repr

/-- `BranchExecutionError`. -/
structure BranchFailure where
  category : BranchErrorCategory
  branchId : NonEmptyText
  deriving DecidableEq, Repr

/-- What a search raises. -/
inductive SearchErr
  | branch (failure : BranchFailure)
  | overflowError
  | indexError
  | valueError (message : String)
  deriving DecidableEq, Repr

/-! ## Scores -/

/-- A non-negative double, infinity included, by its magnitude code. -/
structure Score where
  mag : Nat
  bounded : mag ≤ infMag
  deriving DecidableEq, Repr

theorem Score.mag_injective : Function.Injective Score.mag := by
  rintro ⟨a, ha⟩ ⟨b, hb⟩ rfl
  rfl

/-- Codes are ordered as the values are. -/
instance : LinearOrder Score := LinearOrder.lift' Score.mag Score.mag_injective

def Score.zero : Score := ⟨0, Nat.zero_le _⟩

def Score.infinite : Score := ⟨infMag, Nat.le_refl _⟩

/-- The correctly rounded ratio. -/
def Score.ofRatio (num den : Nat) : Score := ⟨min (roundMag num den) infMag, Nat.min_le_right _ _⟩

/-- `a + b`. -/
def Score.add (a b : Score) : Score :=
  if a = .infinite ∨ b = .infinite then .infinite else .ofRatio (scaled a.mag + scaled b.mag) unit

/-- A finite positive float. -/
structure Weight where
  number : Number
  positive : 0 < number.val.value

/-- `weight / (rrf_k + branch_rank)`; the integer is converted first. -/
def Weight.share (weight : Weight) (divisor : Nat) : Except SearchErr Score :=
  match Binary64.ofRatio false divisor 1 with
  | none => .error .overflowError
  | some d => .ok (.ofRatio (scaled weight.number.val.mag) (scaled d.mag))

/-! ## Candidates -/

structure RankedCandidate where
  unitId : NonEmptyText
  resourceId : NonEmptyText
  representationId : NonEmptyText
  rank : { n : Nat // 0 < n }
  rawScore : Number
  branchId : NonEmptyText
  evidenceLocator : Locator
  metadata : Mapping

/-- `(item.branch_id, item.unit_id)`. -/
def RankedCandidate.evidenceKey (c : RankedCandidate) : NonEmptyText × NonEmptyText :=
  (c.branchId, c.unitId)

structure FusionCandidate where
  logicalId : NonEmptyText
  representative : RankedCandidate
  evidence : List RankedCandidate

structure FusionBranch where
  branchId : NonEmptyText
  weight : Weight
  candidates : List FusionCandidate

structure FusedCandidate where
  logicalId : NonEmptyText
  score : Score
  firstSeen : Nat
  representative : RankedCandidate
  evidence : List RankedCandidate

/-! ## Fusion -/

/-- `(rank, evidence_ordinal, item)`. -/
abbrev EvidenceEntry := Nat × Nat × RankedCandidate

/-- The values of one logical identity. -/
structure FusedEntry where
  score : Score
  firstSeen : Nat
  representative : RankedCandidate
  evidence : List EvidenceEntry

structure Fusing where
  entries : List (NonEmptyText × FusedEntry)
  candidateOrdinal : Nat
  evidenceOrdinal : Nat

/-- The loop over the evidence of one candidate. -/
def addEvidence : List RankedCandidate → Nat → List EvidenceEntry → List EvidenceEntry
  | [], _, evidence => evidence
  | item :: rest, ordinal, evidence =>
    let known := evidence.map fun e => e.2.2.evidenceKey
    addEvidence rest (ordinal + 1)
      (if item.evidenceKey ∈ known then evidence else evidence ++ [(item.rank.1, ordinal, item)])

def Fusing.add (st : Fusing) (candidate : FusionCandidate) (share : Score) : Fusing where
  entries := Dict.upsert candidate.logicalId (fun old =>
    let entry := old.getD ⟨.zero, st.candidateOrdinal, candidate.representative, []⟩
    { entry with
      score := entry.score.add share
      evidence := addEvidence candidate.evidence st.evidenceOrdinal entry.evidence }) st.entries
  candidateOrdinal := st.candidateOrdinal + 1
  evidenceOrdinal := st.evidenceOrdinal + candidate.evidence.length

/-- The loop over the candidates of one branch. -/
def fuseCandidates (rrfK : Nat) (weight : Weight) :
    List FusionCandidate → List NonEmptyText → Nat → Fusing → Except SearchErr Fusing
  | [], _, _, st => .ok st
  | candidate :: rest, seen, branchRank, st =>
    if candidate.logicalId ∈ seen then fuseCandidates rrfK weight rest seen branchRank st
    else do
      let share ← weight.share (rrfK + (branchRank + 1))
      fuseCandidates rrfK weight rest (candidate.logicalId :: seen) (branchRank + 1)
        (st.add candidate share)

def fuseBranch (rrfK : Nat) (st : Fusing) (branch : FusionBranch) : Except SearchErr Fusing :=
  fuseCandidates rrfK branch.weight branch.candidates [] 0 st

/-- `(-item.score, item.first_seen, item.logical_id)`. -/
def FusedCandidate.orderKey (c : FusedCandidate) : Scoreᵒᵈ ×ₗ Nat ×ₗ String :=
  toLex (OrderDual.toDual c.score, toLex (c.firstSeen, c.logicalId.text))

/-- `(entry[0], entry[1], entry[2].unit_id)`. -/
def evidenceOrder (e : EvidenceEntry) : Nat ×ₗ Nat ×ₗ String :=
  toLex (e.1, toLex (e.2.1, e.2.2.unitId.text))

def fusedOf (evidenceLimit : Nat) (e : NonEmptyText × FusedEntry) : FusedCandidate where
  logicalId := e.1
  score := e.2.score
  firstSeen := e.2.firstSeen
  representative := e.2.representative
  evidence := ((sortOn evidenceOrder e.2.evidence).take evidenceLimit).map (·.2.2)

/-- `weighted_rrf`. -/
def weightedRrf (branches : List FusionBranch) (rrfK evidenceLimit : Nat) :
    Except SearchErr (List FusedCandidate) := do
  require (1 ≤ rrfK) (.valueError "rrf_k must be positive")
  require (1 ≤ evidenceLimit) (.valueError "evidence_limit must be positive")
  let st ← branches.foldlM (fuseBranch rrfK) ⟨[], 0, 0⟩
  .ok (sortOn (·.orderKey) (st.entries.map (fusedOf evidenceLimit)))

/-! ## What fusion keeps -/

section Fusing

variable {From : NonEmptyText → RankedCandidate → Prop} {rrfK evidenceLimit : Nat}

/-- The evidence of an identity is from its candidates, each once. -/
structure EntryOk (From : NonEmptyText → RankedCandidate → Prop) (id : NonEmptyText)
    (entry : FusedEntry) : Prop where
  representative : From id entry.representative
  evidence : ∀ e ∈ entry.evidence, From id e.2.2
  once : (entry.evidence.map fun e => e.2.2.evidenceKey).Nodup

structure FusingOk (From : NonEmptyText → RankedCandidate → Prop) (st : Fusing) : Prop where
  ids : (st.entries.map (·.1)).Nodup
  entries : ∀ e ∈ st.entries, EntryOk From e.1 e.2

/-- What a candidate brings is from its identity. -/
structure CandidateOk (From : NonEmptyText → RankedCandidate → Prop) (c : FusionCandidate) : Prop where
  representative : From c.logicalId c.representative
  evidence : ∀ item ∈ c.evidence, From c.logicalId item

theorem addEvidence_ok {id : NonEmptyText} {items : List RankedCandidate} (ordinal : Nat)
    (evidence : List EvidenceEntry) (hitems : ∀ item ∈ items, From id item)
    (hfrom : ∀ e ∈ evidence, From id e.2.2)
    (honce : (evidence.map fun e => e.2.2.evidenceKey).Nodup) :
    (∀ e ∈ addEvidence items ordinal evidence, From id e.2.2) ∧
      ((addEvidence items ordinal evidence).map fun e => e.2.2.evidenceKey).Nodup := by
  induction items generalizing ordinal evidence with
  | nil => exact ⟨hfrom, honce⟩
  | cons item rest ih =>
    have hrest : ∀ x ∈ rest, From id x := fun x hx => hitems x (List.mem_cons_of_mem _ hx)
    rw [addEvidence]
    split
    · exact ih _ _ hrest hfrom honce
    · rename_i hnew
      refine ih _ _ hrest ?_ ?_
      · intro e he
        rcases List.mem_append.mp he with he | he
        · exact hfrom e he
        · rw [List.mem_singleton.mp he]
          exact hitems item List.mem_cons_self
      · rw [List.map_append]
        refine List.nodup_append.mpr ⟨honce, List.nodup_singleton _, ?_⟩
        intro a ha b hb hab
        rw [hab, List.mem_singleton.mp hb] at ha
        exact hnew ha

theorem Fusing.add_ok {st : Fusing} {c : FusionCandidate} {share : Score} (h : FusingOk From st)
    (hc : CandidateOk From c) : FusingOk From (st.add c share) where
  ids := Dict.nodup_upsert h.ids
  entries := by
    refine Dict.all_upsert h.entries ?_ fun entry hentry => ?_
    · obtain ⟨hfrom, honce⟩ := addEvidence_ok st.evidenceOrdinal [] hc.evidence (by simp) (by simp)
      exact ⟨hc.representative, hfrom, honce⟩
    · obtain ⟨hfrom, honce⟩ := addEvidence_ok st.evidenceOrdinal _ hc.evidence
        hentry.evidence hentry.once
      exact ⟨hentry.representative, hfrom, honce⟩

theorem fuseCandidates_ok {weight : Weight} {candidates : List FusionCandidate}
    {seen : List NonEmptyText} {branchRank : Nat} {st st' : Fusing} (h : FusingOk From st)
    (hc : ∀ c ∈ candidates, CandidateOk From c)
    (hrun : fuseCandidates rrfK weight candidates seen branchRank st = .ok st') :
    FusingOk From st' := by
  induction candidates generalizing seen branchRank st with
  | nil =>
    cases hrun
    exact h
  | cons c rest ih =>
    have hrest : ∀ x ∈ rest, CandidateOk From x := fun x hx => hc x (List.mem_cons_of_mem _ hx)
    rw [fuseCandidates] at hrun
    split at hrun
    · exact ih h hrest hrun
    · obtain ⟨share, -, hnext⟩ := bind_ok.mp hrun
      exact ih (Fusing.add_ok h (hc c List.mem_cons_self)) hrest hnext

theorem fuseBranches_ok {branches : List FusionBranch} {st st' : Fusing} (h : FusingOk From st)
    (hc : ∀ b ∈ branches, ∀ c ∈ b.candidates, CandidateOk From c)
    (hrun : branches.foldlM (fuseBranch rrfK) st = .ok st') : FusingOk From st' := by
  induction branches generalizing st with
  | nil =>
    cases hrun
    exact h
  | cons b rest ih =>
    rw [List.foldlM_cons] at hrun
    obtain ⟨next, hbranch, hnext⟩ := bind_ok.mp hrun
    refine ih (fuseCandidates_ok h (hc b List.mem_cons_self) hbranch) ?_ hnext
    exact fun x hx => hc x (List.mem_cons_of_mem _ hx)

/-- A fused candidate with evidence of its own identity. -/
structure FusedOk (From : NonEmptyText → RankedCandidate → Prop) (evidenceLimit : Nat)
    (c : FusedCandidate) : Prop where
  representative : From c.logicalId c.representative
  evidence : ∀ item ∈ c.evidence, From c.logicalId item
  once : (c.evidence.map (·.evidenceKey)).Nodup
  limited : c.evidence.length ≤ evidenceLimit

theorem fusedOf_ok {e : NonEmptyText × FusedEntry} (h : EntryOk From e.1 e.2) :
    FusedOk From evidenceLimit (fusedOf evidenceLimit e) where
  representative := h.representative
  evidence := by
    intro item hitem
    obtain ⟨x, hx, rfl⟩ := List.mem_map.mp hitem
    exact h.evidence x (mem_sortOn.mp (List.mem_of_mem_take hx))
  once := by
    have hsorted : ((sortOn evidenceOrder e.2.evidence).map fun e => e.2.2.evidenceKey).Nodup :=
      ((sortOn_perm _ _).map _).nodup_iff.mpr h.once
    show ((((sortOn evidenceOrder e.2.evidence).take evidenceLimit).map (·.2.2)).map
      (·.evidenceKey)).Nodup
    rw [List.map_map]
    exact hsorted.sublist ((List.take_sublist _ _).map _)
  limited := by
    show ((((sortOn evidenceOrder e.2.evidence).take evidenceLimit).map (·.2.2))).length ≤ _
    rw [List.length_map]
    exact List.length_take_le _ _

/-- What the result of a fusion is like. -/
structure Ranking (From : NonEmptyText → RankedCandidate → Prop) (evidenceLimit : Nat)
    (fused : List FusedCandidate) : Prop where
  ids : (fused.map (·.logicalId)).Nodup
  scores : fused.Pairwise fun a b => b.score ≤ a.score
  candidates : ∀ c ∈ fused, FusedOk From evidenceLimit c

theorem weightedRrf_spec {branches : List FusionBranch} {fused : List FusedCandidate}
    (hc : ∀ b ∈ branches, ∀ c ∈ b.candidates, CandidateOk From c)
    (h : weightedRrf branches rrfK evidenceLimit = .ok fused) : Ranking From evidenceLimit fused := by
  simp only [weightedRrf, bind_ok, require_ok, Except.ok.injEq, exists_const] at h
  obtain ⟨-, -, st, hrun, rfl⟩ := h
  have hstart : FusingOk From ⟨[], 0, 0⟩ := ⟨List.nodup_nil, by simp⟩
  have hst : FusingOk From st := fuseBranches_ok hstart hc hrun
  refine ⟨?_, ?_, ?_⟩
  · have hperm := (sortOn_perm (fun c : FusedCandidate => c.orderKey)
      (st.entries.map (fusedOf evidenceLimit))).map (·.logicalId)
    rw [hperm.nodup_iff, List.map_map]
    exact hst.ids
  · refine (sortOn_inOrder _ _).imp fun {a b} hab => ?_
    exact OrderDual.toDual_le_toDual.mp (Prod.Lex.monotone_fst _ _ hab)
  · intro c hmem
    obtain ⟨e, he, rfl⟩ := List.mem_map.mp (mem_sortOn.mp hmem)
    exact fusedOf_ok (hst.entries e he)

end Fusing

end MDRack
