import MDRack.Eval.QualityInput
import MDRack.Lib.Discounted

/-!
# Evaluating a case (`quality_v2`)

* `matchRanked` — the greedy matching, rank by rank: the best judgment that is not consumed.
* `evaluateRow` — the metrics at a cutoff.
* `evaluateCase` — the rows of a case.

Arithmetic is exact, and a parameter stands for the logarithmic discount of the ranks.
-/

namespace MDRack.Eval

open Checks
open CodePoints (Text CodePoint)

/-! ## Matching -/

/-- What a credited pair of a temporal case reports. -/
structure TemporalPair where
  iou : Option ℚ
  startError : Option ℚ
  endError : Option ℚ
  timestampError : Option ℚ
  deriving DecidableEq

/-- One place of the three lists of `_match`, with the judgment that was chosen. -/
structure Outcome where
  label : Option Nat
  credited : Option QualityJudgment
  pair : Option TemporalPair
  deriving DecidableEq

def Outcome.grade (outcome : Outcome) : Nat := (outcome.credited.map (·.grade)).getD 0

abbrev Candidate := QualityJudgment × ℚ

def pointNumber : CodePoint → Nat
  | .char c => c.toNat
  | .surrogate n => 0xD800 + n

/-- `a < b` of two strings. -/
def textBefore (a b : Text) : Bool := decide (a.map pointNumber < b.map pointNumber)

/-- Whether the key of one candidate is less: higher affinity first, then the judgment ID. -/
def precedes (a b : Candidate) : Bool :=
  decide (-a.2 < -b.2) || (decide (-a.2 = -b.2) && textBefore a.1.judgmentId b.1.judgmentId)

/-- `min(candidates, key=...)`. -/
def choose (first : Candidate) (rest : List Candidate) : Candidate :=
  rest.foldl (fun best candidate => if precedes candidate best then candidate else best) first

def distanceOf (a b : Nat) : ℚ := (distance a b : ℚ)

/-- `items[0]`. -/
def first {α : Type} (items : List α) : Except Thrown α := getOr .indexError items.head?

/-- `items[-1]`. -/
def last {α : Type} (items : List α) : Except Thrown α := getOr .indexError items.getLast?

def pairOf (rule : Rule) (ranked : QualityItem) (chosen : Candidate) :
    Except Thrown (Option TemporalPair) :=
  match rule.matching with
  | .identity => .ok none
  | .temporal _ _ =>
    if chosen.1.item.intervals ≠ [] then do
      let rankedFirst ← first ranked.intervals
      let chosenFirst ← first chosen.1.item.intervals
      let rankedLast ← last ranked.intervals
      let chosenLast ← last chosen.1.item.intervals
      .ok (some ⟨some chosen.2, some (distanceOf rankedFirst.1 chosenFirst.1),
        some (distanceOf rankedLast.2 chosenLast.2), none⟩)
    else .ok (some ⟨none, none, none, some (-chosen.2)⟩)

/-- The candidates with their affinities to a ranked item. -/
def eligible (rule : Rule) (gold : List QualityJudgment) (ranked : QualityItem) :
    Except Thrown (List Candidate) := do
  let scores ← mapAll (fun j : QualityJudgment => affinity rule ranked j.item) gold
  .ok ((gold.zip scores).filterMap fun p => p.2.map fun score => (p.1, score))

/-- One turn of the loop of `_match`. -/
def matchOne (rule : Rule) (gold : List QualityJudgment) (consumed : List Text) (ranked : QualityItem) :
    Except Thrown Outcome := do
  let found ← eligible rule gold ranked
  let positives := found.filter fun p => 0 < p.1.grade
  let label := if positives ≠ [] then some 1 else if found ≠ [] then some 0 else none
  match positives.filter fun p => p.1.judgmentId ∉ consumed with
  | [] => .ok ⟨label, none, none⟩
  | candidate :: rest => do
    let chosen := choose candidate rest
    let pair ← pairOf rule ranked chosen
    .ok ⟨label, some chosen.1, pair⟩

def consume (consumed : List Text) (outcome : Outcome) : List Text :=
  match outcome.credited with
  | some j => j.judgmentId :: consumed
  | none => consumed

/-- The loop of `_match`. -/
def matchRanked (rule : Rule) (gold : List QualityJudgment) :
    List Text → List QualityItem → Except Thrown (List Outcome)
  | _, [] => .ok []
  | consumed, ranked :: rest => do
    let outcome ← matchOne rule gold consumed ranked
    let more ← matchRanked rule gold (consume consumed outcome) rest
    .ok (outcome :: more)

/-! ## Metrics -/

structure TemporalSummary where
  gold : Nat
  matchCount : Nat
  hit : Nat
  recallRate : Option ℚ
  intervalMatches : Nat
  timestampMatches : Nat
  meanIou : Option ℚ
  meanStartErrorMs : Option ℚ
  meanEndErrorMs : Option ℚ
  meanTimestampErrorMs : Option ℚ
  deriving DecidableEq

structure QualityRow where
  k : Nat
  returned : Nat
  judgedReturned : Nat
  unjudgedReturned : Int
  zeroGradeReturned : Nat
  judgedFraction : Option ℚ
  relevantHits : Option Nat
  recallRate : Option ℚ
  mrr : Option ℚ
  ndcg : Option ℚ
  hit : Option Nat
  negativeReturned : Option Nat
  empty : Option Nat
  temporal : Option TemporalSummary
  deriving DecidableEq

/-- A quotient, where the condition holds. -/
def quotientIf (condition : Prop) [Decidable condition] (a b : ℚ) : Except Thrown (Option ℚ) :=
  if condition then do
    let q ← divide a b
    .ok (some q)
  else .ok none

/-- The mean of a field of the pairs, where there are any. -/
def mean (pairs : List TemporalPair) (value : TemporalPair → Option ℚ) : Except Thrown (Option ℚ) :=
  quotientIf (pairs ≠ []) ((pairs.filterMap value).sum) pairs.length

/-- `_temporal_summary`. -/
def temporalSummary (pairs : List (Option TemporalPair)) (positiveCount : Nat) :
    Except Thrown TemporalSummary := do
  let found := pairs.filterMap id
  let intervals := found.filter fun p => p.iou.isSome
  let timestamps := found.filter fun p => p.timestampError.isSome
  let recallRate ← quotientIf (positiveCount ≠ 0) found.length positiveCount
  let meanIou ← mean intervals (·.iou)
  let meanStart ← mean intervals (·.startError)
  let meanEnd ← mean intervals (·.endError)
  let meanTimestamp ← mean timestamps (·.timestampError)
  .ok { gold := positiveCount, matchCount := found.length, hit := if found ≠ [] then 1 else 0, recallRate,
        intervalMatches := intervals.length, timestampMatches := timestamps.length, meanIou,
        meanStartErrorMs := meanStart, meanEndErrorMs := meanEnd, meanTimestampErrorMs := meanTimestamp }

/-- `2.0**grade - 1.0`. -/
def gain (grade : Nat) : ℚ := 2 ^ grade - 1

/-- `_dcg`. -/
def dcg (discount : Nat → ℚ) (grades : List Nat) : ℚ := Discounted.total discount (grades.map gain)

/-- The positive grades in descending order. -/
def idealGrades (case : QualityCase) : List Nat :=
  (case.positives.map (·.grade)).mergeSort fun a b => decide (b ≤ a)

/-- The reciprocal of the rank of the first hit. -/
def reciprocal (grades : List Nat) : Except Thrown ℚ :=
  match grades.findIdx? fun grade => 0 < grade with
  | some i => divide 1 ((i + 1 : Nat) : ℚ)
  | none => .ok 0

/-- A value that a positive case has. -/
def whenPositive {α : Type} (case : QualityCase) (value : Except Thrown α) : Except Thrown (Option α) :=
  if case.positive then do
    let a ← value
    .ok (some a)
  else .ok none

def whenTemporal (case : QualityCase) (value : Except Thrown TemporalSummary) :
    Except Thrown (Option TemporalSummary) :=
  match case.rule.matching with
  | .identity => .ok none
  | .temporal _ _ => do
    let summary ← value
    .ok (some summary)

def evaluateRow (discount : Nat → ℚ) (case : QualityCase) (outcomes : List Outcome) (k : Nat) :
    Except Thrown QualityRow := do
  let top := (outcomes.map Outcome.grade).take k
  let labels := (outcomes.map (·.label)).take k
  let pairs := (outcomes.map (·.pair)).take k
  let hits := top.countP fun grade => 0 < grade
  let ideal := dcg discount ((idealGrades case).take k)
  let judgedCount := labels.countP Option.isSome
  let judgedFraction ← quotientIf (top ≠ []) judgedCount top.length
  let recallRate ← whenPositive case (divide hits case.positives.length)
  let mrr ← whenPositive case (reciprocal top)
  let ndcg ← whenPositive case (divide (dcg discount top) ideal)
  let temporal ← whenTemporal case (temporalSummary pairs case.positives.length)
  .ok { k, returned := top.length, judgedReturned := judgedCount,
        unjudgedReturned := (top.length : Int) - judgedCount,
        zeroGradeReturned := labels.countP fun label => label = some 0, judgedFraction,
        relevantHits := if case.positive then some hits else none, recallRate, mrr, ndcg,
        hit := if case.positive then some (if 0 < hits then 1 else 0) else none,
        negativeReturned := if case.positive then none else some top.length,
        empty := if case.positive then none else some (if top = [] then 1 else 0), temporal }

structure CaseResult where
  caseOrdinal : Nat
  positive : Bool
  rule : Rule
  complete : Bool
  positiveGold : Nat
  excludedJudgments : Int
  rankedCount : Nat
  cutoffs : List QualityRow

/-- The second check on complete judgments. -/
def checkLabels (case : QualityCase) (outcomes : List Outcome) : Except Thrown Unit :=
  check (¬ (case.complete = true ∧ ∃ outcome ∈ outcomes, outcome.label = none))
    "complete judgments do not cover ranked results"

def evaluateCase (discount : Nat → ℚ) (case : QualityCase) (ordinal : Nat) : Except Thrown CaseResult := do
  let outcomes ← matchRanked case.rule case.gold [] case.ranked
  checkLabels case outcomes
  let rows ← mapAll (evaluateRow discount case outcomes) case.cutoffs
  .ok { caseOrdinal := ordinal, positive := case.positive, rule := case.rule, complete := case.complete,
        positiveGold := case.positives.length,
        excludedJudgments := (case.judgments.length : Int) - case.gold.length,
        rankedCount := case.ranked.length, cutoffs := rows }

end MDRack.Eval
