import MDRack.Lib.Firsts
import MDRack.Search.Retrieval
import Mathlib.Algebra.BigOperators.Group.List.Basic
import Mathlib.Algebra.Order.Field.Rat
import Mathlib.Tactic.NormNum

/-!
# Fusion in exact arithmetic

`weighted_rrf` with its numbers as a parameter.  The floats of the source are one arithmetic, the
rational numbers another; over these a score is what the definition of reciprocal-rank fusion says.

* `weightedRrf` — the loops of the source, over any arithmetic.
* `weightedRrf_floats` — over the floats it is the fusion that the service runs.
* `FusesTo` — what reciprocal-rank fusion is.
* `GroupsTo` — the candidates of one branch grouped by resource.

Principal result: `weightedRrf_exact` — over the rationals the loops compute reciprocal-rank fusion.
-/

namespace MDRack.Rrf

open Checks Sorting Firsts Dict

/-- The numbers of a fusion: weights `W` and scores `S`. -/
structure Arithmetic (W S : Type) where
  zero : S
  add : S → S → S
  share : W → Nat → Except SearchErr S

structure Branch (W : Type) where
  branchId : NonEmptyText
  weight : W
  candidates : List FusionCandidate

structure Entry (S : Type) where
  score : S
  firstSeen : Nat
  representative : RankedCandidate
  evidence : List EvidenceEntry

structure State (S : Type) where
  entries : List (NonEmptyText × Entry S)
  candidateOrdinal : Nat
  evidenceOrdinal : Nat

structure Fused (S : Type) where
  logicalId : NonEmptyText
  score : S
  firstSeen : Nat
  representative : RankedCandidate
  evidence : List RankedCandidate

section Loops

variable {W S : Type} (numbers : Arithmetic W S)

def State.add (st : State S) (candidate : FusionCandidate) (share : S) : State S where
  entries := upsert candidate.logicalId (fun old =>
    let entry := old.getD ⟨numbers.zero, st.candidateOrdinal, candidate.representative, []⟩
    { entry with
      score := numbers.add entry.score share
      evidence := addEvidence candidate.evidence st.evidenceOrdinal entry.evidence }) st.entries
  candidateOrdinal := st.candidateOrdinal + 1
  evidenceOrdinal := st.evidenceOrdinal + candidate.evidence.length

/-- The loop over the candidates of one branch. -/
def fuseCandidates (rrfK : Nat) (weight : W) :
    List FusionCandidate → List NonEmptyText → Nat → State S → Except SearchErr (State S)
  | [], _, _, st => .ok st
  | candidate :: rest, seen, branchRank, st =>
    if candidate.logicalId ∈ seen then fuseCandidates rrfK weight rest seen branchRank st
    else do
      let share ← numbers.share weight (rrfK + (branchRank + 1))
      fuseCandidates rrfK weight rest (candidate.logicalId :: seen) (branchRank + 1)
        (st.add numbers candidate share)

def fuseBranch (rrfK : Nat) (st : State S) (branch : Branch W) : Except SearchErr (State S) :=
  fuseCandidates numbers rrfK branch.weight branch.candidates [] 0 st

/-- `(-item.score, item.first_seen, item.logical_id)`. -/
def Fused.orderKey [LinearOrder S] (c : Fused S) : Sᵒᵈ ×ₗ Nat ×ₗ String :=
  toLex (OrderDual.toDual c.score, toLex (c.firstSeen, c.logicalId.text))

def fusedOf (evidenceLimit : Nat) (e : NonEmptyText × Entry S) : Fused S where
  logicalId := e.1
  score := e.2.score
  firstSeen := e.2.firstSeen
  representative := e.2.representative
  evidence := ((sortOn evidenceOrder e.2.evidence).take evidenceLimit).map (·.2.2)

/-- `weighted_rrf`. -/
def weightedRrf [LinearOrder S] (branches : List (Branch W)) (rrfK evidenceLimit : Nat) :
    Except SearchErr (List (Fused S)) := do
  require (1 ≤ rrfK) (.valueError "rrf_k must be positive")
  require (1 ≤ evidenceLimit) (.valueError "evidence_limit must be positive")
  let st ← branches.foldlM (fuseBranch numbers rrfK) ⟨[], 0, 0⟩
  .ok (sortOn (·.orderKey) (st.entries.map (fusedOf evidenceLimit)))

end Loops

/-! ## Floats -/

/-- The arithmetic of the source. -/
def floats : Arithmetic Weight Score := ⟨.zero, .add, Weight.share⟩

def branchOf (branch : FusionBranch) : Branch Weight :=
  ⟨branch.branchId, branch.weight, branch.candidates⟩

def entryOf (entry : FusedEntry) : Entry Score :=
  ⟨entry.score, entry.firstSeen, entry.representative, entry.evidence⟩

def stateOf (st : Fusing) : State Score :=
  ⟨st.entries.map fun e => (e.1, entryOf e.2), st.candidateOrdinal, st.evidenceOrdinal⟩

def fusedCandidateOf (c : FusedCandidate) : Fused Score :=
  ⟨c.logicalId, c.score, c.firstSeen, c.representative, c.evidence⟩

theorem map_upsert {κ α β : Type} [DecidableEq κ] {k : κ} {f : Option α → α} {g : Option β → β}
    (φ : α → β) (h : ∀ old, φ (f old) = g (old.map φ)) (d : List (κ × α)) :
    (upsert k f d).map (fun e => (e.1, φ e.2)) = upsert k g (d.map fun e => (e.1, φ e.2)) := by
  induction d with
  | nil => simp [upsert, h none]
  | cons e rest ih =>
    rw [upsert, List.map_cons, upsert]
    split
    · simp [h]
    · simp [ih]

theorem stateOf_add (st : Fusing) (c : FusionCandidate) (share : Score) :
    stateOf (st.add c share) = (stateOf st).add floats c share := by
  have hentries := map_upsert (k := c.logicalId) entryOf (f := fun old =>
      let entry := old.getD ⟨.zero, st.candidateOrdinal, c.representative, []⟩
      { entry with
        score := entry.score.add share
        evidence := addEvidence c.evidence st.evidenceOrdinal entry.evidence })
    (g := fun old =>
      let entry := old.getD ⟨floats.zero, st.candidateOrdinal, c.representative, []⟩
      { entry with
        score := floats.add entry.score share
        evidence := addEvidence c.evidence st.evidenceOrdinal entry.evidence })
    (fun old => by cases old <;> rfl) st.entries
  exact congrArg (fun entries => State.mk entries (st.candidateOrdinal + 1)
    (st.evidenceOrdinal + c.evidence.length)) hentries

theorem fuseCandidates_floats (rrfK : Nat) (weight : Weight) (candidates : List FusionCandidate)
    (seen : List NonEmptyText) (branchRank : Nat) (st : Fusing) :
    fuseCandidates floats rrfK weight candidates seen branchRank (stateOf st) =
      (MDRack.fuseCandidates rrfK weight candidates seen branchRank st).map stateOf := by
  induction candidates generalizing seen branchRank st with
  | nil => rfl
  | cons c rest ih =>
    rw [fuseCandidates, MDRack.fuseCandidates]
    split
    · exact ih _ _ _
    · have hshare : floats.share weight (rrfK + (branchRank + 1)) =
          weight.share (rrfK + (branchRank + 1)) := rfl
      rw [hshare]
      cases weight.share (rrfK + (branchRank + 1)) with
      | error e => rfl
      | ok share =>
        show fuseCandidates floats rrfK weight rest (c.logicalId :: seen) (branchRank + 1)
          ((stateOf st).add floats c share) = _
        rw [← stateOf_add]
        exact ih _ _ _

theorem fuseBranches_floats (rrfK : Nat) (branches : List FusionBranch) (st : Fusing) :
    (branches.map branchOf).foldlM (fuseBranch floats rrfK) (stateOf st) =
      (branches.foldlM (MDRack.fuseBranch rrfK) st).map stateOf := by
  induction branches generalizing st with
  | nil => rfl
  | cons b rest ih =>
    have hbranch : fuseBranch floats rrfK (stateOf st) (branchOf b) =
        (MDRack.fuseBranch rrfK st b).map stateOf := fuseCandidates_floats _ _ _ _ _ _
    rw [List.map_cons, List.foldlM_cons, List.foldlM_cons, hbranch]
    cases MDRack.fuseBranch rrfK st b with
    | error e => rfl
    | ok next => exact ih next

/-- Over the floats, this is the fusion of the service. -/
theorem weightedRrf_floats (branches : List FusionBranch) (rrfK evidenceLimit : Nat) :
    weightedRrf floats (branches.map branchOf) rrfK evidenceLimit =
      (MDRack.weightedRrf branches rrfK evidenceLimit).map (List.map fusedCandidateOf) := by
  have hloop := fuseBranches_floats rrfK branches ⟨[], 0, 0⟩
  have hstart : stateOf ⟨[], 0, 0⟩ = ⟨[], 0, 0⟩ := rfl
  rw [hstart] at hloop
  unfold weightedRrf MDRack.weightedRrf
  rw [hloop]
  by_cases hk : 1 ≤ rrfK
  · by_cases hlimit : 1 ≤ evidenceLimit
    · cases branches.foldlM (MDRack.fuseBranch rrfK) ⟨[], 0, 0⟩ with
      | error e => simp [require, hk, hlimit, bind, Except.bind, Except.map]
      | ok st =>
        have hsort : sortOn (fun c : Fused Score => c.orderKey)
            ((st.entries.map (MDRack.fusedOf evidenceLimit)).map fusedCandidateOf) =
            (sortOn (fun c => (fusedCandidateOf c).orderKey)
              (st.entries.map (MDRack.fusedOf evidenceLimit))).map fusedCandidateOf :=
          sortOn_map _ _
        have hentries : (stateOf st).entries.map (fusedOf evidenceLimit) =
            (st.entries.map (MDRack.fusedOf evidenceLimit)).map fusedCandidateOf := by
          simp only [stateOf, List.map_map]
          rfl
        simp only [require, hk, hlimit, if_true, bind, Except.bind, Except.map, Except.ok.injEq,
          hentries, hsort]
        rfl
    · simp [require, hk, hlimit, bind, Except.bind, Except.map]
  · simp [require, hk, bind, Except.bind, Except.map]

/-! ## What the loops store -/

/-- A candidate that is stored, with what it contributes and the ordinals at that time. -/
structure Addition (S : Type) where
  candidate : FusionCandidate
  share : S
  candidateOrdinal : Nat
  evidenceOrdinal : Nat

/-- Ordinals for candidates that are stored one after the other. -/
def additions {S : Type} : List (FusionCandidate × S) → Nat → Nat → List (Addition S)
  | [], _, _ => []
  | (candidate, share) :: rest, candidateOrdinal, evidenceOrdinal =>
    ⟨candidate, share, candidateOrdinal, evidenceOrdinal⟩ ::
      additions rest (candidateOrdinal + 1) (evidenceOrdinal + candidate.evidence.length)

section Stored

variable {W S : Type} {numbers : Arithmetic W S}

def Addition.logicalId (a : Addition S) : NonEmptyText := a.candidate.logicalId

def Addition.store (numbers : Arithmetic W S) (a : Addition S) (old : Option (Entry S)) : Entry S :=
  let entry := old.getD ⟨numbers.zero, a.candidateOrdinal, a.candidate.representative, []⟩
  { entry with
    score := numbers.add entry.score a.share
    evidence := addEvidence a.candidate.evidence a.evidenceOrdinal entry.evidence }

theorem entries_foldl_add (items : List (FusionCandidate × S)) (st : State S) :
    (items.foldl (fun st item => st.add numbers item.1 item.2) st).entries =
      (additions items st.candidateOrdinal st.evidenceOrdinal).foldl
        (fun d a => upsert a.logicalId (a.store numbers) d) st.entries := by
  induction items generalizing st with
  | nil => rfl
  | cons item rest ih =>
    rw [List.foldl_cons, ih]
    rfl

/-- What one branch contributes: its first candidates, numbered. -/
def contributions (share : W → Nat → S) (rrfK : Nat) (branch : Branch W) :
    List (FusionCandidate × S) :=
  ((firsts (·.logicalId) branch.candidates []).zipIdx 1).map
    fun p => (p.1, share branch.weight (rrfK + p.2))

variable {share : W → Nat → S} {rrfK : Nat}

theorem fuseCandidates_eq (hshare : ∀ w n, numbers.share w n = .ok (share w n)) (weight : W)
    (candidates : List FusionCandidate) (seen : List NonEmptyText) (branchRank : Nat) (st : State S) :
    fuseCandidates numbers rrfK weight candidates seen branchRank st =
      .ok ((((firsts (·.logicalId) candidates seen).zipIdx (branchRank + 1)).map
        fun p => (p.1, share weight (rrfK + p.2))).foldl
          (fun st item => st.add numbers item.1 item.2) st) := by
  induction candidates generalizing seen branchRank st with
  | nil => rfl
  | cons c rest ih =>
    rw [fuseCandidates, firsts]
    split
    · exact ih _ _ _
    · rw [hshare, List.zipIdx_cons, List.map_cons, List.foldl_cons]
      exact ih _ _ _

theorem fuseBranches_eq (hshare : ∀ w n, numbers.share w n = .ok (share w n))
    (branches : List (Branch W)) (st : State S) :
    branches.foldlM (fuseBranch numbers rrfK) st =
      .ok ((branches.flatMap (contributions share rrfK)).foldl
        (fun st item => st.add numbers item.1 item.2) st) := by
  induction branches generalizing st with
  | nil => rfl
  | cons b rest ih =>
    rw [List.foldlM_cons, fuseBranch, fuseCandidates_eq hshare, List.flatMap_cons,
      List.foldl_append]
    exact ih _

/-- The entries after all branches: each identity has stored its own contributions. -/
theorem fused_entries (hshare : ∀ w n, numbers.share w n = .ok (share w n))
    (branches : List (Branch W)) : ∃ st,
    branches.foldlM (fuseBranch numbers rrfK) ⟨[], 0, 0⟩ = .ok st ∧
      st.entries = collect Addition.logicalId (Addition.store numbers)
        (additions (branches.flatMap (contributions share rrfK)) 0 0) :=
  ⟨_, fuseBranches_eq hshare branches _, entries_foldl_add _ _⟩

/-! ### Ordinals -/

theorem additions_items (items : List (FusionCandidate × S)) (i j : Nat) :
    (additions items i j).map (fun a => (a.candidate, a.share)) = items := by
  induction items generalizing i j with
  | nil => rfl
  | cons item rest ih => rw [additions, List.map_cons, ih]

theorem additions_ids (items : List (FusionCandidate × S)) (i j : Nat) :
    (additions items i j).map Addition.logicalId = items.map (·.1.logicalId) := by
  calc (additions items i j).map Addition.logicalId
      = ((additions items i j).map fun a => (a.candidate, a.share)).map (·.1.logicalId) := by
        rw [List.map_map]
        rfl
    _ = items.map (·.1.logicalId) := by rw [additions_items]

/-- The contributions to one identity. -/
theorem additions_filter (items : List (FusionCandidate × S)) (i j : Nat) (id : NonEmptyText) :
    ((additions items i j).filter fun a => a.logicalId = id).map (fun a => (a.candidate, a.share)) =
      items.filter fun item => item.1.logicalId = id := by
  calc ((additions items i j).filter fun a => a.logicalId = id).map
        (fun a => (a.candidate, a.share))
      = (((additions items i j).map fun a => (a.candidate, a.share)).filter
          fun item => item.1.logicalId = id) := by
        rw [List.filter_map]
        rfl
    _ = items.filter fun item => item.1.logicalId = id := by rw [additions_items]

theorem additions_bounds (items : List (FusionCandidate × S)) (i j : Nat) :
    ∀ a ∈ additions items i j, j ≤ a.evidenceOrdinal := by
  induction items generalizing i j with
  | nil => simp [additions]
  | cons item rest ih =>
    rw [additions, List.forall_mem_cons]
    refine ⟨Nat.le_refl j, fun a ha => ?_⟩
    have hlater := ih _ _ a ha
    omega

/-- The ordinals of the evidence of different additions do not overlap. -/
theorem additions_ordered (items : List (FusionCandidate × S)) (i j : Nat) :
    (additions items i j).Pairwise
      fun a b => a.evidenceOrdinal + a.candidate.evidence.length ≤ b.evidenceOrdinal := by
  induction items generalizing i j with
  | nil => exact .nil
  | cons item rest ih =>
    rw [additions, List.pairwise_cons]
    exact ⟨fun a ha => additions_bounds rest _ _ a ha, ih _ _⟩

/-- The first addition of an identity has the position of the identity as its ordinal. -/
theorem additions_first {items : List (FusionCandidate × S)} {id : NonEmptyText}
    (h : id ∈ items.map (·.1.logicalId)) (i j : Nat) :
    ((additions items i j).filter fun a => a.logicalId = id).head?.map (·.candidateOrdinal) =
      some (i + (items.map (·.1.logicalId)).idxOf id) := by
  induction items generalizing i j with
  | nil => simp at h
  | cons item rest ih =>
    rw [additions, List.map_cons]
    by_cases heq : item.1.logicalId = id
    · simp [Addition.logicalId, heq]
    · have hrest : id ∈ rest.map (·.1.logicalId) := (List.mem_cons.mp h).resolve_left (Ne.symm heq)
      have hskip : ¬ decide ((⟨item.1, item.2, i, j⟩ : Addition S).logicalId = id) = true := by
        rw [decide_eq_true_eq]
        exact heq
      rw [List.filter_cons, if_neg hskip, ih hrest, List.idxOf_cons_ne _ heq]
      congr 1
      omega

/-! ### Entries -/

/-- Evidence entries in the order of their ordinals, all below a bound. -/
structure Recorded (bound : Nat) (evidence : List EvidenceEntry) : Prop where
  ranks : ∀ e ∈ evidence, e.1 = e.2.2.rank.1
  ordered : evidence.Pairwise fun a b => a.2.1 < b.2.1
  below : ∀ e ∈ evidence, e.2.1 < bound

theorem Recorded.mono {bound bound' : Nat} {evidence : List EvidenceEntry}
    (h : Recorded bound evidence) (hle : bound ≤ bound') : Recorded bound' evidence :=
  ⟨h.ranks, h.ordered, fun e he => Nat.lt_of_lt_of_le (h.below e he) hle⟩

/-- Evidence that is known is left out, the other is recorded in order. -/
theorem addEvidence_recorded {items : List RankedCandidate} {ordinal : Nat}
    {evidence : List EvidenceEntry} (h : Recorded ordinal evidence) :
    Recorded (ordinal + items.length) (addEvidence items ordinal evidence) ∧
      (addEvidence items ordinal evidence).map (·.2.2) = evidence.map (·.2.2) ++
        firsts (·.evidenceKey) items (evidence.map fun e => e.2.2.evidenceKey) := by
  induction items generalizing ordinal evidence with
  | nil => exact ⟨h, by simp [addEvidence, firsts]⟩
  | cons item rest ih =>
    rw [addEvidence, firsts]
    have hlen : ordinal + (item :: rest).length = ordinal + 1 + rest.length := by
      simp only [List.length_cons]
      omega
    rw [hlen]
    split
    · exact ih (h.mono (Nat.le_succ ordinal))
    · have hnext : Recorded (ordinal + 1) (evidence ++ [(item.rank.1, ordinal, item)]) := by
        refine ⟨?_, ?_, ?_⟩
        · intro e he
          rcases List.mem_append.mp he with he | he
          · exact h.ranks e he
          · rw [List.mem_singleton.mp he]
        · apply List.pairwise_append.mpr
          refine ⟨h.ordered, List.pairwise_singleton _ _, fun e he e' he' => ?_⟩
          rw [List.mem_singleton.mp he']
          exact h.below e he
        · intro e he
          rcases List.mem_append.mp he with he | he
          · exact Nat.lt_succ_of_lt (h.below e he)
          · rw [List.mem_singleton.mp he]
            exact Nat.lt_succ_self ordinal
      obtain ⟨hrecorded, hitems⟩ := ih hnext
      refine ⟨hrecorded, ?_⟩
      have hknown : ∀ key, key ∈ (evidence ++ [(item.rank.1, ordinal, item)]).map
          (fun e => e.2.2.evidenceKey) ↔
          key ∈ item.evidenceKey :: evidence.map fun e => e.2.2.evidenceKey := by
        intro key
        simp [or_comm]
      rw [hitems, firsts_congr rest hknown]
      simp

theorem addEvidences_recorded {xs : List (Addition S)} {bound : Nat} {evidence : List EvidenceEntry}
    (h : Recorded bound evidence) (hbelow : ∀ a ∈ xs, bound ≤ a.evidenceOrdinal)
    (hordered : xs.Pairwise
      fun a b => a.evidenceOrdinal + a.candidate.evidence.length ≤ b.evidenceOrdinal) :
    ∃ bound', Recorded bound' (xs.foldl
        (fun ev a => addEvidence a.candidate.evidence a.evidenceOrdinal ev) evidence) ∧
      (xs.foldl (fun ev a => addEvidence a.candidate.evidence a.evidenceOrdinal ev) evidence).map
          (·.2.2) =
        evidence.map (·.2.2) ++ firsts (·.evidenceKey) (xs.flatMap (·.candidate.evidence))
          (evidence.map fun e => e.2.2.evidenceKey) := by
  induction xs generalizing bound evidence with
  | nil => exact ⟨bound, h, by simp [firsts]⟩
  | cons a rest ih =>
    obtain ⟨hafter, hordered⟩ := List.pairwise_cons.mp hordered
    have hstart := h.mono (hbelow a List.mem_cons_self)
    obtain ⟨hrecorded, hitems⟩ := addEvidence_recorded hstart
    obtain ⟨bound', hrecorded', hitems'⟩ := ih hrecorded hafter hordered
    refine ⟨bound', hrecorded', ?_⟩
    have hkeys : (addEvidence a.candidate.evidence a.evidenceOrdinal evidence).map
        (fun e => e.2.2.evidenceKey) = evidence.map (fun e => e.2.2.evidenceKey) ++
          (firsts (·.evidenceKey) a.candidate.evidence
            (evidence.map fun e => e.2.2.evidenceKey)).map (·.evidenceKey) := by
      have hmapped := congrArg (List.map RankedCandidate.evidenceKey) hitems
      rw [List.map_append, List.map_map, List.map_map] at hmapped
      exact hmapped
    have hknown : firsts (·.evidenceKey) (rest.flatMap (·.candidate.evidence))
        (evidence.map (fun e => e.2.2.evidenceKey) ++
          (firsts (·.evidenceKey) a.candidate.evidence
            (evidence.map fun e => e.2.2.evidenceKey)).map (·.evidenceKey)) =
        firsts (·.evidenceKey) (rest.flatMap (·.candidate.evidence))
          (a.candidate.evidence.map (·.evidenceKey) ++
            evidence.map fun e => e.2.2.evidenceKey) := by
      rw [← firsts_after]
      exact firsts_congr _ fun key => by simp only [List.mem_append, or_comm]
    rw [List.foldl_cons, hitems', hitems, List.flatMap_cons, firsts_append, List.append_assoc,
      hkeys, hknown]

/-- What an identity holds after its additions. -/
theorem folded_store {xs : List (Addition S)} {entry : Entry S}
    (h : folded (Addition.store numbers) xs = some entry) :
    entry.score = (xs.map (·.share)).foldl numbers.add numbers.zero ∧
      xs.head?.map (·.candidateOrdinal) = some entry.firstSeen ∧
      entry.evidence = xs.foldl
        (fun ev a => addEvidence a.candidate.evidence a.evidenceOrdinal ev) [] := by
  induction xs using List.reverseRecOn generalizing entry with
  | nil => cases h
  | append_singleton xs a ih =>
    rw [folded_concat] at h
    obtain rfl := Option.some.inj h
    cases hold : folded (Addition.store numbers) xs with
    | none =>
      obtain rfl : xs = [] := by
        cases xs using List.reverseRecOn with
        | nil => rfl
        | append_singleton xs b =>
          rw [folded_concat] at hold
          cases hold
      exact ⟨rfl, rfl, rfl⟩
    | some old =>
      obtain ⟨hscore, hseen, hevidence⟩ := ih hold
      have hne : xs ≠ [] := by
        rintro rfl
        cases hold
      refine ⟨?_, ?_, ?_⟩
      · rw [List.map_append, List.foldl_append, ← hscore]
        rfl
      · rw [List.head?_append_of_ne_nil _ hne, hseen]
        rfl
      · rw [List.foldl_append, ← hevidence]
        rfl

end Stored

/-! ## Reciprocal-rank fusion -/

/-- A positive weight. -/
abbrev ExactWeight := {q : ℚ // 0 < q}

/-- Exact numbers. -/
def exact : Arithmetic ExactWeight ℚ := ⟨0, (· + ·), fun w n => .ok (w.1 / n)⟩

abbrev ids {W : Type} (branch : Branch W) : List NonEmptyText := branch.candidates.map (·.logicalId)

/-- The identities that all branches list, one branch after the other. -/
def listed {W : Type} (branches : List (Branch W)) : List NonEmptyText := branches.flatMap ids

/-- `weight / (k + best dense rank)`, for a branch with the identity. -/
def branchScore (rrfK : Nat) (id : NonEmptyText) (branch : Branch ExactWeight) : ℚ :=
  match bestRank (ids branch) id with
  | some rank => branch.weight.1 / ((rrfK + rank : Nat) : ℚ)
  | none => 0

def rrfScore (rrfK : Nat) (branches : List (Branch ExactWeight)) (id : NonEmptyText) : ℚ :=
  (branches.map (branchScore rrfK id)).sum

/-- The first candidate of an identity in each branch. -/
def occurrences {W : Type} (branches : List (Branch W)) (id : NonEmptyText) : List FusionCandidate :=
  branches.flatMap fun branch => (branch.candidates.find? fun c => c.logicalId = id).toList

/-- Candidates in the order of their ranks, with equal ranks in their given order. -/
def inRankOrder (items : List RankedCandidate) : List RankedCandidate := sortOn (·.rank.1) items

/-- The fused candidates are those of reciprocal-rank fusion. -/
structure FusesTo (branches : List (Branch ExactWeight)) (rrfK evidenceLimit : Nat)
    (fused : List (Fused ℚ)) : Prop where
  once : (fused.map (·.logicalId)).Nodup
  members : ∀ id, id ∈ fused.map (·.logicalId) ↔ id ∈ listed branches
  scores : ∀ c ∈ fused, c.score = rrfScore rrfK branches c.logicalId
  order : fused.Pairwise fun a b => b.score < a.score ∨ a.score = b.score ∧
    (listed branches).idxOf a.logicalId < (listed branches).idxOf b.logicalId
  evidence : ∀ c ∈ fused, c.evidence = (inRankOrder (firsts (·.evidenceKey)
    ((occurrences branches c.logicalId).flatMap (·.evidence)) [])).take evidenceLimit

section Exact

variable {branches : List (Branch ExactWeight)} {rrfK evidenceLimit : Nat}

/-- The quotient that a rank contributes. -/
def quotient (w : ExactWeight) (n : Nat) : ℚ := w.1 / n

theorem exact_share (w : ExactWeight) (n : Nat) : exact.share w n = .ok (quotient w n) := rfl

theorem foldl_exact (qs : List ℚ) : qs.foldl exact.add exact.zero = qs.sum :=
  (List.sum_eq_foldl).symm

/-- What all branches contribute. -/
def contributed (rrfK : Nat) (branches : List (Branch ExactWeight)) : List (FusionCandidate × ℚ) :=
  branches.flatMap (contributions quotient rrfK)

theorem contributions_filter (branch : Branch ExactWeight) (id : NonEmptyText) :
    (contributions quotient rrfK branch).filter (fun item => item.1.logicalId = id) =
      ((branch.candidates.find? fun c => c.logicalId = id).bind
        fun c => (bestRank (ids branch) id).map
          fun r => (c, quotient branch.weight (rrfK + r))).toList := by
  have hranked : ((firsts (·.logicalId) branch.candidates []).zipIdx 1).filter
      (fun p => p.1.logicalId = id) = ((branch.candidates.find? fun c => c.logicalId = id).bind
        fun c => (bestRank (ids branch) id).map fun r => (c, r)).toList :=
    filter_ranked_firsts _ _
  have hcomm : (contributions quotient rrfK branch).filter (fun item => item.1.logicalId = id) =
      (((firsts (·.logicalId) branch.candidates []).zipIdx 1).filter
        (fun p => p.1.logicalId = id)).map fun p => (p.1, quotient branch.weight (rrfK + p.2)) := by
    rw [contributions, List.filter_map]
    rfl
  rw [hcomm, hranked]
  cases branch.candidates.find? fun c => c.logicalId = id with
  | none => rfl
  | some c => cases bestRank (ids branch) id <;> rfl

/-- A branch has a candidate of an identity where it ranks it. -/
theorem find?_eq_none_iff (branch : Branch ExactWeight) (id : NonEmptyText) :
    (branch.candidates.find? fun c => c.logicalId = id) = none ↔ bestRank (ids branch) id = none := by
  by_cases h : id ∈ ids branch
  · rw [bestRank_eq_some h]
    obtain ⟨c, hc, hid⟩ := List.mem_map.mp h
    simp only [List.find?_eq_none, decide_eq_true_eq, reduceCtorEq, iff_false]
    exact fun hnone => hnone c hc hid
  · rw [bestRank_eq_none h, List.find?_eq_none]
    simp only [decide_eq_true_eq, iff_true]
    rintro c hc rfl
    exact h (List.mem_map_of_mem hc)

theorem contributions_scores (id : NonEmptyText) :
    (((contributed rrfK branches).filter
      fun item => item.1.logicalId = id).map (·.2)).sum = rrfScore rrfK branches id := by
  induction branches with
  | nil => rfl
  | cons branch rest ih =>
    rw [contributed, List.flatMap_cons, ← contributed, List.filter_append, List.map_append,
      List.sum_append, ih, rrfScore, rrfScore, List.map_cons, List.sum_cons, contributions_filter, branchScore]
    congr 1
    have hiff := find?_eq_none_iff branch id
    cases hfind : branch.candidates.find? fun c => c.logicalId = id with
    | none => simp [hiff.mp hfind]
    | some c =>
      cases hrank : bestRank (ids branch) id with
      | none =>
        rw [hiff.mpr hrank] at hfind
        cases hfind
      | some r => simp [quotient]

variable (rrfK) in
theorem contributions_occurrences (id : NonEmptyText) :
    ((contributed rrfK branches).filter
      fun item => item.1.logicalId = id).map (·.1) = occurrences branches id := by
  induction branches with
  | nil => rfl
  | cons branch rest ih =>
    rw [contributed, List.flatMap_cons, ← contributed, List.filter_append, List.map_append, ih,
      occurrences, occurrences,
      List.flatMap_cons, contributions_filter]
    congr 1
    have hiff := find?_eq_none_iff branch id
    cases hfind : branch.candidates.find? fun c => c.logicalId = id with
    | none => rfl
    | some c =>
      cases hrank : bestRank (ids branch) id with
      | none =>
        rw [hiff.mpr hrank] at hfind
        cases hfind
      | some r => rfl

theorem contributions_ids (branch : Branch ExactWeight) :
    (contributions quotient rrfK branch).map (·.1.logicalId) = firsts id (ids branch) [] := by
  have hids : (contributions quotient rrfK branch).map (·.1.logicalId) =
      (((firsts (·.logicalId) branch.candidates []).zipIdx 1).map Prod.fst).map (·.logicalId) := by
    rw [contributions, List.map_map, List.map_map]
    rfl
  rw [hids, List.zipIdx_map_fst, ids, firsts_map]
  rfl

variable (branches rrfK) in
/-- Identities come first where they are listed first. -/
theorem firsts_contributions (seen : List NonEmptyText) :
    firsts id ((contributed rrfK branches).map (·.1.logicalId)) seen =
      firsts id (listed branches) seen := by
  induction branches generalizing seen with
  | nil => rfl
  | cons branch rest ih =>
    rw [contributed, List.flatMap_cons, ← contributed, List.map_append, contributions_ids,
      firsts_append, firsts_firsts _ (by simp), ih, listed, listed, List.flatMap_cons, firsts_append]
    congr 1
    apply firsts_congr
    intro key
    simp [mem_firsts]

variable (branches rrfK) in
theorem mem_contributed (name : NonEmptyText) :
    name ∈ (contributed rrfK branches).map (·.1.logicalId) ↔ name ∈ listed branches := by
  have hsame := firsts_contributions branches rrfK []
  have hleft : name ∈ firsts id ((contributed rrfK branches).map (·.1.logicalId)) [] ↔ _ :=
    mem_firsts
  have hright : name ∈ firsts id (listed branches) [] ↔ _ := mem_firsts
  simp only [List.not_mem_nil, not_false_eq_true, and_true] at hleft hright
  rw [← hleft, ← hright, hsame]

/-- The entries after all branches. -/
def stored (rrfK : Nat) (branches : List (Branch ExactWeight)) : List (NonEmptyText × Entry ℚ) :=
  collect Addition.logicalId (Addition.store exact) (additions (contributed rrfK branches) 0 0)

variable (branches rrfK) in
theorem stored_keys : (stored rrfK branches).map (·.1) = firsts id (listed branches) [] := by
  rw [stored, keys_collect, additions_ids, firsts_contributions]

theorem take_evidence {bound : Nat} {evidence : List EvidenceEntry} (h : Recorded bound evidence) :
    ((sortOn evidenceOrder evidence).take evidenceLimit).map (·.2.2) =
      (inRankOrder (evidence.map (·.2.2))).take evidenceLimit := by
  have hties : sortOn (fun e : EvidenceEntry => toLex (e.1, toLex (e.2.1, e.2.2.unitId.text)))
      evidence = sortOn (·.1) evidence := by
    apply sortOn_ties
    refine h.ordered.imp fun {a b} hlt => ?_
    exact Prod.Lex.toLex_lt_toLex.mpr (.inl hlt)
  have hranks : evidence.map (fun e => (e.2.2.rank.1, e.2)) = evidence := by
    refine (List.map_congr_left fun e he => ?_).trans (List.map_id evidence)
    rw [← h.ranks e he]
    rfl
  have hsort : sortOn (·.1) (evidence.map fun e => (e.2.2.rank.1, e.2)) =
      (sortOn (fun e : EvidenceEntry => e.2.2.rank.1) evidence).map
        fun e => (e.2.2.rank.1, e.2) := sortOn_map _ _
  have hitems : sortOn (fun c : RankedCandidate => c.rank.1) (evidence.map (·.2.2)) =
      (sortOn (fun e : EvidenceEntry => e.2.2.rank.1) evidence).map (·.2.2) := sortOn_map _ _
  rw [hranks] at hsort
  calc ((sortOn evidenceOrder evidence).take evidenceLimit).map (·.2.2)
      = ((sortOn (·.1) evidence).map (·.2.2)).take evidenceLimit := by
        rw [← hties, List.map_take]
        rfl
    _ = (((sortOn (fun e : EvidenceEntry => e.2.2.rank.1) evidence).map
          fun e => (e.2.2.rank.1, e.2)).map (·.2.2)).take evidenceLimit := by rw [hsort]
    _ = (inRankOrder (evidence.map (·.2.2))).take evidenceLimit := by
        rw [inRankOrder, hitems, List.map_map]
        rfl

/-- An entry holds the score, the position and the evidence of its identity. -/
structure EntrySpec (rrfK : Nat) (branches : List (Branch ExactWeight))
    (e : NonEmptyText × Entry ℚ) : Prop where
  listed : e.1 ∈ listed branches
  score : e.2.score = rrfScore rrfK branches e.1
  firstSeen : e.2.firstSeen = ((contributed rrfK branches).map (·.1.logicalId)).idxOf e.1
  evidence : ∃ bound, Recorded bound e.2.evidence ∧ e.2.evidence.map (·.2.2) =
    firsts (·.evidenceKey) ((occurrences branches e.1).flatMap (·.evidence)) []

theorem entry_spec {e : NonEmptyText × Entry ℚ} (he : e ∈ stored rrfK branches) :
    EntrySpec rrfK branches e := by
  have hlisted : e.1 ∈ listed branches := by
    have hin := List.mem_map_of_mem (f := (·.1)) he
    rw [stored_keys] at hin
    exact (firsts_sublist _ _).subset hin
  obtain ⟨hscore, hseen, hevidence⟩ := folded_store (mem_collect he)
  have hfilter := additions_filter (contributed rrfK branches) 0 0 e.1
  refine ⟨hlisted, ?_, ?_, ?_⟩
  · rw [hscore, foldl_exact, ← contributions_scores, ← hfilter, List.map_map]
    rfl
  · rw [additions_first ((mem_contributed branches rrfK e.1).mpr hlisted), Nat.zero_add] at hseen
    exact (Option.some.inj hseen).symm
  · have hordered := (additions_ordered (contributed rrfK branches) 0 0).filter
      fun a => a.logicalId = e.1
    have hstart : Recorded 0 [] := ⟨by simp, .nil, by simp⟩
    obtain ⟨bound, hrecorded, hitems⟩ := addEvidences_recorded hstart (fun a _ => Nat.zero_le _)
      hordered
    refine ⟨bound, hevidence ▸ hrecorded, ?_⟩
    rw [hevidence, hitems, ← contributions_occurrences rrfK, ← hfilter, List.map_map,
      List.flatMap_map]
    rfl

theorem weightedRrf_ok (hk : 1 ≤ rrfK) (hlimit : 1 ≤ evidenceLimit) :
    weightedRrf exact branches rrfK evidenceLimit =
      .ok (sortOn (·.orderKey) ((stored rrfK branches).map (fusedOf evidenceLimit))) := by
  obtain ⟨st, hrun, hentries⟩ : ∃ st, branches.foldlM (fuseBranch exact rrfK) ⟨[], 0, 0⟩ = .ok st ∧
      st.entries = stored rrfK branches := fused_entries exact_share branches
  simp [weightedRrf, require, hk, hlimit, hrun, hentries, bind, Except.bind]

/-- Ties are broken by where identities are listed first. -/
theorem listed_before {e e' : NonEmptyText × Entry ℚ} (h : EntrySpec rrfK branches e)
    (h' : EntrySpec rrfK branches e') (hne : e.1 ≠ e'.1)
    (hle : (fusedOf evidenceLimit e).orderKey ≤ (fusedOf evidenceLimit e').orderKey) :
    e'.2.score < e.2.score ∨ e.2.score = e'.2.score ∧
      (listed branches).idxOf e.1 < (listed branches).idxOf e'.1 := by
  rcases (Prod.Lex.toLex_le_toLex).mp hle with hlt | ⟨heq, hrest⟩
  · exact .inl hlt
  · refine .inr ⟨heq, ?_⟩
    have hin := (mem_contributed branches rrfK _).mpr h.listed
    have hin' := (mem_contributed branches rrfK _).mpr h'.listed
    have hbefore : e.2.firstSeen < e'.2.firstSeen := by
      apply lt_of_le_of_ne (Prod.Lex.monotone_fst _ _ hrest)
      intro hsame
      change e.2.firstSeen = e'.2.firstSeen at hsame
      rw [h.firstSeen, h'.firstSeen] at hsame
      exact hne ((List.idxOf_inj hin).mp hsame)
    rw [h.firstSeen, h'.firstSeen, ← idxOf_firsts hin hin' List.not_mem_nil List.not_mem_nil,
      firsts_contributions, idxOf_firsts h.listed h'.listed List.not_mem_nil List.not_mem_nil]
      at hbefore
    exact hbefore

theorem weightedRrf_fuses (branches : List (Branch ExactWeight)) (hk : 1 ≤ rrfK)
    (hlimit : 1 ≤ evidenceLimit) : ∃ fused,
    weightedRrf exact branches rrfK evidenceLimit = .ok fused ∧
      FusesTo branches rrfK evidenceLimit fused := by
  refine ⟨_, weightedRrf_ok hk hlimit, ?_⟩
  have hmap : ((stored rrfK branches).map (fusedOf evidenceLimit)).map (·.logicalId) =
      firsts id (listed branches) [] := by
    rw [← stored_keys branches rrfK, List.map_map]
    rfl
  have hids := ((sortOn_perm (fun c : Fused ℚ => c.orderKey)
    ((stored rrfK branches).map (fusedOf evidenceLimit))).map (·.logicalId)).trans (.of_eq hmap)
  have honce := hids.nodup_iff.mpr (nodup_firsts_id _ _)
  refine ⟨honce, ?_, ?_, ?_, ?_⟩
  · intro name
    rw [hids.mem_iff, mem_firsts]
    simp
  · intro c hc
    obtain ⟨e, he, rfl⟩ := List.mem_map.mp (mem_sortOn.mp hc)
    exact (entry_spec he).score
  · rw [List.Nodup, List.pairwise_map] at honce
    refine ((sortOn_inOrder _ _).and honce).imp_of_mem fun {a b} ha hb hab => ?_
    obtain ⟨e, he, rfl⟩ := List.mem_map.mp (mem_sortOn.mp ha)
    obtain ⟨e', he', rfl⟩ := List.mem_map.mp (mem_sortOn.mp hb)
    exact listed_before (entry_spec he) (entry_spec he') hab.2 hab.1
  · intro c hc
    obtain ⟨e, he, rfl⟩ := List.mem_map.mp (mem_sortOn.mp hc)
    obtain ⟨bound, hrecorded, hitems⟩ := (entry_spec he).evidence
    exact (take_evidence hrecorded).trans
      (congrArg (fun items => (inRankOrder items).take evidenceLimit) hitems)

end Exact

/-! ## Repeated candidates -/

section Repeats

variable {W S : Type} (numbers : Arithmetic W S) {rrfK : Nat}

theorem fuseCandidates_repeat (weight : W) {xs ys : List FusionCandidate} {c : FusionCandidate}
    {seen : List NonEmptyText} (h : c.logicalId ∈ xs.map (·.logicalId) ∨ c.logicalId ∈ seen)
    (branchRank : Nat) (st : State S) :
    fuseCandidates numbers rrfK weight (xs ++ c :: ys) seen branchRank st =
      fuseCandidates numbers rrfK weight (xs ++ ys) seen branchRank st := by
  induction xs generalizing seen branchRank st with
  | nil =>
    have hseen : c.logicalId ∈ seen := by simpa using h
    rw [List.nil_append, List.nil_append, fuseCandidates, if_pos hseen]
  | cons x rest ih =>
    rw [List.cons_append, List.cons_append, fuseCandidates, fuseCandidates]
    have hnext : c.logicalId ∈ rest.map (·.logicalId) ∨ c.logicalId ∈ x.logicalId :: seen := by
      rcases h with h | h
      · rw [List.map_cons, List.mem_cons] at h
        exact h.elim (fun heq => .inr (heq ▸ List.mem_cons_self)) .inl
      · exact .inr (List.mem_cons_of_mem _ h)
    split
    · rename_i hx
      apply ih
      refine hnext.imp_right fun hmem => ?_
      rcases List.mem_cons.mp hmem with heq | hmem
      · exact heq ▸ hx
      · exact hmem
    · cases numbers.share weight (rrfK + (branchRank + 1)) with
      | error e => rfl
      | ok share => exact ih hnext _ _

/-- A branch that lists an identity again later changes nothing. -/
theorem weightedRrf_repeat [LinearOrder S] (pre post : List (Branch W)) (branch : Branch W)
    (xs ys : List FusionCandidate) (c : FusionCandidate)
    (h : c.logicalId ∈ xs.map (·.logicalId)) (rrfK evidenceLimit : Nat) :
    weightedRrf numbers (pre ++ { branch with candidates := xs ++ c :: ys } :: post) rrfK
        evidenceLimit =
      weightedRrf numbers (pre ++ { branch with candidates := xs ++ ys } :: post) rrfK
        evidenceLimit := by
  have hbranch : ∀ st, fuseBranch numbers rrfK st { branch with candidates := xs ++ c :: ys } =
      fuseBranch numbers rrfK st { branch with candidates := xs ++ ys } :=
    fun st => fuseCandidates_repeat numbers _ (.inl h) 0 st
  have hrun : (pre ++ { branch with candidates := xs ++ c :: ys } :: post).foldlM
        (fuseBranch numbers rrfK) ⟨[], 0, 0⟩ =
      (pre ++ { branch with candidates := xs ++ ys } :: post).foldlM (fuseBranch numbers rrfK)
        ⟨[], 0, 0⟩ := by
    simp only [List.foldlM_append, List.foldlM_cons, hbranch]
  rw [weightedRrf, weightedRrf, hrun]

end Repeats

/-! ## Grouping by resource -/

/-- The groups of a branch: one for each resource, with the distinct units of the resource in the
order of their ranks, cut at the limit. -/
structure GroupsTo (evidenceLimit : Nat) (candidates : List RankedCandidate)
    (groups : List FusionCandidate) : Prop where
  ids : groups.map (·.logicalId) =
    firsts id ((firsts (·.unitId) candidates []).map (·.resourceId)) []
  evidence : ∀ g ∈ groups, g.evidence = (inRankOrder ((firsts (·.unitId) candidates []).filter
    fun c => c.resourceId = g.logicalId)).take evidenceLimit
  representative : ∀ g ∈ groups, some g.representative = (inRankOrder
    ((firsts (·.unitId) candidates []).filter fun c => c.resourceId = g.logicalId)).head?

section Grouping

variable {candidates : List RankedCandidate} {evidenceLimit : Nat}

/-- Candidates with their positions. -/
def placed (candidates : List RankedCandidate) (n : Nat) : List (Nat × RankedCandidate) :=
  (candidates.zipIdx n).map fun p => (p.2, p.1)

/-- The first candidate of each unit, with its position. -/
def distinct (candidates : List RankedCandidate) : List (Nat × RankedCandidate) :=
  firsts (fun e => e.2.unitId) (placed candidates 0) []

def appendEntry (e : Nat × RankedCandidate) (old : Option (List (Nat × RankedCandidate))) :
    List (Nat × RankedCandidate) := old.getD [] ++ [e]

theorem byResource_foldl (rest : List RankedCandidate) (n : Nat) (seen : List NonEmptyText)
    (grouped : List (NonEmptyText × List (Nat × RankedCandidate))) :
    byResource rest n seen grouped = (firsts (fun e => e.2.unitId) (placed rest n) seen).foldl
      (fun d e => upsert e.2.resourceId (appendEntry e) d) grouped := by
  induction rest generalizing n seen grouped with
  | nil => rfl
  | cons c rest ih =>
    have hplaced : placed (c :: rest) n = (n, c) :: placed rest (n + 1) := rfl
    rw [byResource, hplaced, firsts]
    split
    · exact ih _ _ _
    · rw [ih]
      rfl

theorem byResource_eq (candidates : List RankedCandidate) : byResource candidates 0 [] [] =
    collect (fun e => e.2.resourceId) appendEntry (distinct candidates) :=
  byResource_foldl _ _ _ _

theorem placed_ordered (candidates : List RankedCandidate) (n : Nat) :
    (placed candidates n).Pairwise (fun a b => a.1 < b.1) ∧ ∀ e ∈ placed candidates n, n ≤ e.1 := by
  induction candidates generalizing n with
  | nil => exact ⟨.nil, by simp [placed]⟩
  | cons c rest ih =>
    have hplaced : placed (c :: rest) n = (n, c) :: placed rest (n + 1) := rfl
    obtain ⟨hordered, hbound⟩ := ih (n + 1)
    rw [hplaced, List.pairwise_cons, List.forall_mem_cons]
    exact ⟨⟨hbound, hordered⟩, Nat.le_refl n, fun e he => Nat.le_of_succ_le (hbound e he)⟩

theorem distinct_ordered (candidates : List RankedCandidate) :
    (distinct candidates).Pairwise fun a b => a.1 < b.1 :=
  (placed_ordered candidates 0).1.sublist (firsts_sublist _ _)

theorem distinct_items (candidates : List RankedCandidate) :
    (distinct candidates).map (·.2) = firsts (·.unitId) candidates [] := by
  have hplaced : (placed candidates 0).map (·.2) = candidates := by
    rw [placed, List.map_map]
    exact List.zipIdx_map_fst 0 candidates
  have hmap : firsts (·.unitId) ((placed candidates 0).map (·.2)) [] =
      (distinct candidates).map (·.2) := firsts_map _ _ _
  rw [← hmap, hplaced]

theorem folded_appendEntry (xs : List (Nat × RankedCandidate)) :
    folded appendEntry xs = if xs = [] then none else some xs := by
  induction xs using List.reverseRecOn with
  | nil => rfl
  | append_singleton xs e ih =>
    rw [folded_concat, ih]
    by_cases h : xs = []
    · simp [h, appendEntry]
    · simp [h, appendEntry]

/-- The entries of a resource are its distinct candidates, and there is one. -/
theorem resource_entries {e : NonEmptyText × List (Nat × RankedCandidate)}
    (he : e ∈ byResource candidates 0 [] []) :
    e.2 = (distinct candidates).filter (fun x => x.2.resourceId = e.1) ∧ e.2 ≠ [] := by
  rw [byResource_eq] at he
  have hfolded := mem_collect he
  rw [folded_appendEntry] at hfolded
  split at hfolded
  · cases hfolded
  · rename_i hne
    have heq := Option.some.inj hfolded
    exact ⟨heq.symm, heq ▸ hne⟩

/-- What `groupOf` makes of the entries of a resource. -/
structure GroupSpec (evidenceLimit : Nat) (candidates : List RankedCandidate)
    (e : NonEmptyText × List (Nat × RankedCandidate)) (group : Nat × FusionCandidate) : Prop where
  id : group.2.logicalId = e.1
  position : ((distinct candidates).find? fun x => x.2.resourceId = e.1).map (·.1) = some group.1
  evidence : group.2.evidence = (inRankOrder ((firsts (·.unitId) candidates []).filter
    fun c => c.resourceId = e.1)).take evidenceLimit
  representative : some group.2.representative = (inRankOrder
    ((firsts (·.unitId) candidates []).filter fun c => c.resourceId = e.1)).head?

theorem sortOn_entries {entries : List (Nat × RankedCandidate)}
    (h : entries.Pairwise fun a b => a.1 < b.1) :
    (sortOn entryOrder entries).map (·.2) = inRankOrder (entries.map (·.2)) := by
  have hties : sortOn (fun e : Nat × RankedCandidate =>
      toLex (e.2.rank.1, toLex (e.1, e.2.unitId.text))) entries =
      sortOn (fun e => e.2.rank.1) entries := by
    apply sortOn_ties
    refine h.imp fun {a b} hlt => ?_
    exact Prod.Lex.toLex_lt_toLex.mpr (.inl hlt)
  have hitems : sortOn (fun c : RankedCandidate => c.rank.1) (entries.map (·.2)) =
      (sortOn (fun e : Nat × RankedCandidate => e.2.rank.1) entries).map (·.2) := sortOn_map _ _
  rw [inRankOrder, hitems, ← hties]
  rfl

theorem groupOf_spec {e : NonEmptyText × List (Nat × RankedCandidate)}
    (he : e ∈ byResource candidates 0 [] []) :
    ∃ group, groupOf evidenceLimit e = .ok group ∧ GroupSpec evidenceLimit candidates e group := by
  obtain ⟨hentries, hne⟩ := resource_entries he
  have hordered : e.2.Pairwise fun a b => a.1 < b.1 := by
    rw [hentries]
    exact (distinct_ordered candidates).filter _
  have hitems : e.2.map (·.2) = (firsts (·.unitId) candidates []).filter
      fun c => c.resourceId = e.1 := by
    rw [hentries, ← distinct_items, List.filter_map]
    rfl
  have hsorted := sortOn_entries hordered
  rw [hitems] at hsorted
  obtain ⟨first, later, hfirst⟩ := List.exists_cons_of_ne_nil hne
  obtain ⟨top, rest, htop⟩ := List.exists_cons_of_ne_nil (l := sortOn entryOrder e.2) (by
    intro hnil
    have hlen := (sortOn_perm entryOrder e.2).length_eq
    rw [hnil, hfirst] at hlen
    simp at hlen)
  have hmin : (e.2.map (·.1)).min? = some first.1 := by
    rw [List.min?_eq_some_iff, hfirst]
    refine ⟨List.mem_cons_self, fun n hn => ?_⟩
    rcases List.mem_cons.mp hn with rfl | hn
    · exact Nat.le_refl _
    · obtain ⟨x, hx, rfl⟩ := List.mem_map.mp hn
      rw [hfirst] at hordered
      exact Nat.le_of_lt ((List.pairwise_cons.mp hordered).1 x hx)
  refine ⟨(first.1, ⟨e.1, top.2, ((sortOn entryOrder e.2).take evidenceLimit).map (·.2)⟩), ?_, ?_⟩
  · simp [groupOf, getOr, hmin, htop]
  · refine ⟨rfl, ?_, ?_, ?_⟩
    · rw [← List.head?_filter, ← hentries, hfirst]
      rfl
    · rw [← hsorted, List.map_take]
    · rw [← hsorted, htop]
      rfl

theorem groupOf_ok_spec {e : NonEmptyText × List (Nat × RankedCandidate)}
    {group : Nat × FusionCandidate} (he : e ∈ byResource candidates 0 [] [])
    (h : groupOf evidenceLimit e = .ok group) : GroupSpec evidenceLimit candidates e group := by
  obtain ⟨group', hgroup', hspec⟩ := groupOf_spec he
  obtain rfl := Except.ok.inj (hgroup'.symm.trans h)
  exact hspec

/-- Groups stand in the order of their first positions. -/
theorem groups_ordered {groups : List (Nat × FusionCandidate)}
    (h : mapAll (groupOf evidenceLimit) (byResource candidates 0 [] []) = .ok groups) :
    groups.Pairwise fun a b => a.1 < b.1 := by
  have hkeys : (byResource candidates 0 [] []).map (·.1) =
      (firsts (fun e => e.2.resourceId) (distinct candidates) []).map (fun e => e.2.resourceId) := by
    have hmap : firsts id ((distinct candidates).map fun e => e.2.resourceId) [] =
        (firsts (fun e => e.2.resourceId) (distinct candidates) []).map (fun e => e.2.resourceId) :=
      firsts_map _ _ _
    rw [byResource_eq, keys_collect, hmap]
  have hpositions : groups.map (fun g => some g.1) =
      (byResource candidates 0 [] []).map fun e =>
        ((distinct candidates).find? fun x => x.2.resourceId = e.1).map (·.1) :=
    mapAll_keys_of_mem h fun e he group hgroup => (groupOf_ok_spec he hgroup).position.symm
  have hfirsts : groups.map (fun g => some g.1) =
      (firsts (fun e => e.2.resourceId) (distinct candidates) []).map fun e => some e.1 := by
    calc groups.map (fun g => some g.1)
        = ((byResource candidates 0 [] []).map (·.1)).map fun name =>
            ((distinct candidates).find? fun x => x.2.resourceId = name).map (·.1) := by
          rw [hpositions, List.map_map]
          rfl
      _ = (firsts (fun e => e.2.resourceId) (distinct candidates) []).map fun e => some e.1 := by
          rw [hkeys, List.map_map]
          apply List.map_congr_left
          intro e he
          exact congrArg (Option.map (·.1)) (find?_of_mem_firsts he)
  have hsublist : (firsts (fun e => e.2.resourceId) (distinct candidates) []).Pairwise
      fun a b => a.1 < b.1 := (distinct_ordered candidates).sublist (firsts_sublist _ _)
  have hsame : groups.map (·.1) =
      (firsts (fun e => e.2.resourceId) (distinct candidates) []).map (·.1) := by
    have hinj := congrArg (List.map fun o : Option Nat => o.getD 0) hfirsts
    simpa [List.map_map, Function.comp_def] using hinj
  rw [← List.pairwise_map (f := fun g : Nat × FusionCandidate => g.1), hsame, List.pairwise_map]
  exact hsublist

theorem groupResources_groups (evidenceLimit : Nat) (candidates : List RankedCandidate) :
    ∃ groups, groupResources evidenceLimit candidates = .ok groups ∧
      GroupsTo evidenceLimit candidates groups := by
  have htotal : ∀ e ∈ byResource candidates 0 [] [], ∃ group, groupOf evidenceLimit e = .ok group :=
    fun e he => (groupOf_spec he).imp fun _ h => h.1
  obtain ⟨groups, hgroups⟩ := mapAll_total htotal
  have hsorted : sortOn (fun e : Nat × FusionCandidate => toLex (e.1, e.2.logicalId.text)) groups =
      groups := by
    apply InOrder.sortOn
    refine (groups_ordered hgroups).imp fun {a b} hlt => ?_
    exact Prod.Lex.toLex_le_toLex.mpr (.inl hlt)
  have hspec : ∀ g ∈ groups.map (·.2), ∃ e group, g = group.2 ∧
      GroupSpec evidenceLimit candidates e group := by
    intro g hg
    obtain ⟨group, hgroup, rfl⟩ := List.mem_map.mp hg
    obtain ⟨e, he, hok⟩ := mapAll_ok_mem hgroups group hgroup
    exact ⟨e, group, rfl, groupOf_ok_spec he hok⟩
  refine ⟨groups.map (·.2), ?_, ?_, ?_, ?_⟩
  · simp only [groupResources, bind_ok, Except.ok.injEq]
    exact ⟨groups, hgroups, congrArg (List.map (·.2)) hsorted⟩
  · have hids : groups.map (fun g => g.2.logicalId) = (byResource candidates 0 [] []).map (·.1) :=
      mapAll_keys_of_mem hgroups fun e he group hgroup => (groupOf_ok_spec he hgroup).id
    rw [List.map_map]
    refine hids.trans ?_
    rw [byResource_eq, keys_collect, ← distinct_items, List.map_map]
    rfl
  · intro g hg
    obtain ⟨e, group, rfl, h⟩ := hspec g hg
    rw [h.id]
    exact h.evidence
  · intro g hg
    obtain ⟨e, group, rfl, h⟩ := hspec g hg
    rw [h.id]
    exact h.representative

end Grouping

/-- Over exact numbers the loops compute reciprocal-rank fusion, a repeated identity changes
nothing, and the evidence of a group is its distinct candidates in order of rank, up to the limit. -/
theorem weightedRrf_exact (rrfK evidenceLimit : Nat) (hk : 1 ≤ rrfK) (hlimit : 1 ≤ evidenceLimit) :
    (∀ branches : List (Branch ExactWeight), ∃ fused,
      weightedRrf exact branches rrfK evidenceLimit = .ok fused ∧
        FusesTo branches rrfK evidenceLimit fused) ∧
    (∀ (pre post : List (Branch ExactWeight)) (branch : Branch ExactWeight)
      (xs ys : List FusionCandidate) (c : FusionCandidate), c.logicalId ∈ xs.map (·.logicalId) →
      weightedRrf exact (pre ++ { branch with candidates := xs ++ c :: ys } :: post) rrfK
          evidenceLimit =
        weightedRrf exact (pre ++ { branch with candidates := xs ++ ys } :: post) rrfK
          evidenceLimit) ∧
    (∀ candidates : List RankedCandidate, ∃ groups,
      groupResources evidenceLimit candidates = .ok groups ∧
        GroupsTo evidenceLimit candidates groups) :=
  ⟨fun branches => weightedRrf_fuses branches hk hlimit,
    fun pre post branch xs ys c h =>
      weightedRrf_repeat exact pre post branch xs ys c h rrfK evidenceLimit,
    fun candidates => groupResources_groups evidenceLimit candidates⟩

/-! ### Two branches with one unit -/

theorem topRank_pos : 0 < 1 := by decide

def topCandidate : RankedCandidate where
  unitId := ⟨"unit", Eq.refl true⟩
  resourceId := ⟨"note", Eq.refl true⟩
  representationId := ⟨"body", Eq.refl true⟩
  rank := ⟨1, topRank_pos⟩
  rawScore := ⟨Binary64.F64.zero⟩
  branchId := ⟨"lexical", Eq.refl true⟩
  evidenceLocator := ⟨⟨"text", Eq.refl true⟩, .empty⟩
  metadata := .empty

theorem halfWeight_pos : (0 : ℚ) < 1 / 2 := by norm_num

def topBranch (name : NonEmptyText) : Branch ExactWeight where
  branchId := name
  weight := ⟨1 / 2, halfWeight_pos⟩
  candidates := [⟨topCandidate.unitId, topCandidate, [topCandidate]⟩]

def topBranches : List (Branch ExactWeight) :=
  [topBranch ⟨"lexical", Eq.refl true⟩, topBranch ⟨"vector", Eq.refl true⟩]

theorem weightedRrf_exact_top : ∃ fused, weightedRrf exact topBranches 60 1 = .ok fused ∧
    FusesTo topBranches 60 1 fused :=
  (weightedRrf_exact 60 1 (by decide) (by decide)).1 topBranches

end MDRack.Rrf
