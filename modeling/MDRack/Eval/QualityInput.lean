import MDRack.Core.Common
import MDRack.Eval.QualityRecords
import MDRack.Lib.Loads

/-!
# The input of the quality evaluator (`quality_v2`)

* `validateItem`, `validateCase`, `validateQualityInput` — the checks of the closed input, in their
  order, from raw JSON values to records.
* `QualityCase.WellFormed` — what the evaluation relies on.

Principal result: `validateCase_wellFormed` — the validator lets only such cases through.
-/

namespace MDRack.Eval

open Binary64 (Double)
open Checks
open CodePoints (Text CodePoint)
open Loads (Value)

abbrev Fields := List (Text × Value)

def name (key : String) : Text := CodePoints.ofChars key.toList

def fail {α : Type} (message : String) : Except Thrown α := .error (.quality message)

def check (condition : Prop) [Decidable condition] (message : String) : Except Thrown Unit :=
  require condition (.quality message)

/-! ## Values -/

/-- `_object`. -/
def object (keys : List String) : Value → Except Thrown Fields
  | .obj fields => do
    check ((∀ field ∈ fields, field.1 ∈ keys.map name) ∧ ∀ key ∈ keys, name key ∈ fields.map (·.1))
      "invalid object fields"
    .ok fields
  | _ => fail "invalid object fields"

/-- `value[key]` of a dictionary that has the key. -/
def field (fields : Fields) (key : String) : Value :=
  ((fields.find? fun f => f.1 = name key).map (·.2)).getD .null

/-- `_array`. -/
def array : Value → Except Thrown (List Value)
  | .arr items => .ok items
  | _ => fail "expected array"

def visible : CodePoint → Bool
  | .char c => !isSpace c
  | .surrogate _ => true

/-- `_text`. -/
def text : Value → Except Thrown Text
  | .str t => do
    check (t.any visible) "expected nonempty identity"
    .ok t
  | _ => fail "expected nonempty identity"

/-- `_integer`. -/
def integer (minimum : Nat) : Value → Except Thrown Nat
  | .int i => do
    check ((minimum : Int) ≤ i ∧ i ≤ 2 ^ 53 - 1) "invalid integer"
    .ok i.toNat
  | _ => fail "invalid integer"

/-- `_enum`, with the choices as their meanings. -/
def enum {α : Type} (choices : List (String × α)) : Value → Except Thrown α
  | .str t => getOr (.quality "invalid enum") ((choices.find? fun c => name c.1 = t).map (·.2))
  | _ => fail "invalid enum"

/-- `_unique`. -/
def unique {α : Type} [DecidableEq α] (values : List α) (message : String) : Except Thrown Unit :=
  check values.Nodup message

/-- A value that may be null. -/
def optional {α : Type} (read : Value → Except Thrown α) : Value → Except Thrown (Option α)
  | .null => .ok none
  | v => do
    let a ← read v
    .ok (some a)

/-! ## Items -/

def itemKeys : List String := ["resource_id", "source_revision", "unit_id", "intervals", "timestamp_ms"]

/-- The loop over the intervals, after one that ends at `previousEnd`. -/
def validateIntervals : Int → List Value → Except Thrown (List Intervals.Interval)
  | _, [] => .ok []
  | previousEnd, interval :: rest => do
    let ends ← array interval
    match ends with
    | [first, second] => do
      let start ← integer 0 first
      let stop ← integer 0 second
      check (start < stop ∧ previousEnd < start)
        "intervals must be sorted separated nonempty half-open ranges"
      let more ← validateIntervals stop rest
      .ok ((start, stop) :: more)
    | _ => fail "invalid interval"

/-- The checks that depend on the rule of the case. -/
def checkCoordinates (rule : Rule) (judgment : Bool) (item : QualityItem) : Except Thrown Unit :=
  match rule.matching with
  | .identity => do
    check (item.intervals = [] ∧ item.timestampMs = none)
      "identity target cannot carry temporal coordinates"
    check (¬ (rule.target = .unit ∧ item.unitId = none)) "unit target requires unit identity"
    check (¬ (judgment = true ∧ rule.target = .resource ∧ item.unitId ≠ none))
      "resource judgment cannot carry unit identity"
  | .temporal _ _ => do
    check (item.intervals = [] ↔ item.timestampMs ≠ none)
      "temporal item requires exactly one coordinate kind"
    check (¬ (judgment = true ∧ item.unitId ≠ none)) "temporal gold is recipe-independent"
    check (¬ (judgment = false ∧ item.unitId = none)) "ranked temporal unit requires identity"

/-- `_validate_item`; `readLabel` reads what a judgment has besides. -/
def validateItem {β : Type} (rule : Rule) (judgment : Bool) (labelKeys : List String)
    (readLabel : Fields → Except Thrown β) (value : Value) : Except Thrown (QualityItem × β) := do
  let fields ← object (itemKeys ++ labelKeys) value
  let resourceId ← text (field fields "resource_id")
  let sourceRevision ← text (field fields "source_revision")
  let unitId ← optional text (field fields "unit_id")
  let rows ← array (field fields "intervals")
  let intervals ← validateIntervals (-1) rows
  let timestampMs ← optional (integer 0) (field fields "timestamp_ms")
  let label ← readLabel fields
  checkCoordinates rule judgment ⟨(resourceId, sourceRevision), unitId, intervals, timestampMs⟩
  .ok (⟨(resourceId, sourceRevision), unitId, intervals, timestampMs⟩, label)

def validateJudgment (rule : Rule) (value : Value) : Except Thrown QualityJudgment := do
  let (item, judgmentId, grade) ← validateItem rule true ["judgment_id", "grade"]
    (fun fields => do
      let judgmentId ← text (field fields "judgment_id")
      let grade ← integer 0 (field fields "grade")
      check (grade ≤ 3) "grade outside 0..3"
      .ok (judgmentId, grade)) value
  .ok ⟨item, judgmentId, grade⟩

def validateRanked (rule : Rule) (value : Value) : Except Thrown QualityItem := do
  let (item, _) ← validateItem rule false [] (fun _ => .ok ()) value
  .ok item

/-! ## Cases -/

def caseKeys : List String := ["case_id", "case_type", "target", "match", "cutoffs", "scope",
  "judgment_policy", "unjudged_policy", "temporal_policy", "judgments", "ranked"]

/-- An entry of the scope. -/
def validateOwner (value : Value) : Except Thrown Owner := do
  let fields ← object ["resource_id", "source_revision"] value
  let resourceId ← text (field fields "resource_id")
  let sourceRevision ← text (field fields "source_revision")
  .ok (resourceId, sourceRevision)

/-- The threshold: a number above zero and no greater than one. -/
def threshold : Value → Except Thrown ℚ
  | .int i => do
    check (0 < i ∧ i ≤ 1) "invalid interval IoU threshold"
    .ok i
  | .float (.finite x) => do
    check (0 < x.value ∧ x.value ≤ Binary64.unit) "invalid interval IoU threshold"
    .ok (x.value / Binary64.unit)
  | _ => fail "invalid interval IoU threshold"

/-- The match of the case with its temporal policy. -/
def validateMatching (temporal : Bool) (target : Target) (policy : Value) : Except Thrown Matching :=
  if temporal then do
    check (target = .unit) "temporal matching requires unit target"
    let fields ← object ["interval_iou", "timestamp_tolerance_ms"] policy
    let intervalIou ← threshold (field fields "interval_iou")
    let tolerance ← integer 0 (field fields "timestamp_tolerance_ms")
    .ok (.temporal intervalIou tolerance)
  else match policy with
    | .null => .ok .identity
    | _ => fail "identity case cannot carry temporal policy"

inductive Signature
  | identity (key : Owner × Option Text)
  | temporal (owner : Owner) (intervals : List Intervals.Interval) (timestampMs : Option Nat)
  deriving DecidableEq

/-- `_signature`. -/
def signature (rule : Rule) (item : QualityItem) : Signature :=
  match rule.matching with
  | .identity => .identity (key rule item)
  | .temporal _ _ => .temporal item.owner item.intervals item.timestampMs

def QualityCase.gold (case : QualityCase) : List QualityJudgment :=
  case.judgments.filter fun j => j.item.owner ∈ case.scope

def QualityCase.positives (case : QualityCase) : List QualityJudgment :=
  case.gold.filter fun j => 0 < j.grade

/-- Whether some scoped judgment meets a ranked item. -/
def judged (rule : Rule) (gold : List QualityJudgment) (ranked : QualityItem) : Except Thrown Bool := do
  let scores ← mapAll (fun j : QualityJudgment => affinity rule ranked j.item) gold
  .ok (scores.any Option.isSome)

def checkScope (target : Target) (scope : List Owner) : Except Thrown Unit :=
  if target = .resource then
    unique (scope.map (·.1)) "resource scope must select one revision"
  else .ok ()

def checkJudgments (rule : Rule) (judgments : List QualityJudgment) : Except Thrown Unit := do
  unique (judgments.map (·.judgmentId)) "duplicate judgment ID"
  unique (judgments.map fun j => signature rule j.item) "duplicate judgment target"

def checkDistinct (case : QualityCase) : Except Thrown Unit :=
  if case.rule.target = .resource then
    unique (case.ranked.map fun r => r.owner.1) "duplicate ranked resource"
  else unique (case.ranked.map fun r => r.unitId) "duplicate ranked unit"

def checkGold (case : QualityCase) : Except Thrown Unit :=
  if case.rule.matching = .identity ∧ case.rule.target = .unit then
    unique (case.gold.map fun j => j.item.unitId) "duplicate scoped unit identity"
  else .ok ()

def checkCovered (case : QualityCase) : Except Thrown Unit :=
  if case.complete then do
    let covered ← mapAll (judged case.rule case.gold) case.ranked
    check (∀ c ∈ covered, c = true) "complete judgments do not cover ranked results"
  else .ok ()

/-- The checks behind the ranked items. -/
def checkCase (case : QualityCase) : Except Thrown Unit := do
  checkDistinct case
  check (∀ r ∈ case.ranked, r.owner ∈ case.scope) "ranked result outside declared scope"
  check (case.positive = true ↔ case.positives ≠ [])
    "declared case type disagrees with scoped positive gold"
  checkGold case
  checkCovered case

def validateCase (value : Value) : Except Thrown QualityCase := do
  let fields ← object caseKeys value
  let caseId ← text (field fields "case_id")
  let positive ← enum [("positive", true), ("negative", false)] (field fields "case_type")
  let target ← enum [("unit", Target.unit), ("resource", Target.resource)] (field fields "target")
  let temporal ← enum [("identity", false), ("temporal", true)] (field fields "match")
  let complete ← enum [("complete", true), ("pooled", false)] (field fields "judgment_policy")
  let unjudged := match field fields "unjudged_policy" with
    | .str t => some t
    | _ => none
  check (unjudged = some (name (if complete then "error" else "nonrelevant")))
    "judgment and unjudged policies disagree"
  let rawCutoffs ← array (field fields "cutoffs")
  check (rawCutoffs.length ≠ 0) "empty cutoffs"
  let cutoffs ← mapAll (integer 1) rawCutoffs
  check (cutoffs.Pairwise (· < ·)) "cutoffs must be increasing unique positive integers"
  let rawScope ← array (field fields "scope")
  check (rawScope.length ≠ 0) "empty scope"
  let scope ← mapAll validateOwner rawScope
  unique scope "duplicate scope identity"
  checkScope target scope
  let matching ← validateMatching temporal target (field fields "temporal_policy")
  let rule : Rule := ⟨target, matching⟩
  let rawJudgments ← array (field fields "judgments")
  let judgments ← mapAll (validateJudgment rule) rawJudgments
  checkJudgments rule judgments
  let rawRanked ← array (field fields "ranked")
  let ranked ← mapAll (validateRanked rule) rawRanked
  checkCase ⟨caseId, positive, rule, complete, cutoffs, scope, judgments, ranked⟩
  .ok ⟨caseId, positive, rule, complete, cutoffs, scope, judgments, ranked⟩

/-! ## Documents -/

structure QualityDocument where
  corpusRef : Text
  judgmentsRef : Text
  implementationRef : Text
  cases : List QualityCase

def hexPoint (point : CodePoint) : Bool := decide (point ∈ name "0123456789abcdef")

/-- `_SHA.fullmatch`. -/
def shaReference : Value → Except Thrown Text
  | .str t => do
    check (name "sha256:" <+: t ∧ (t.drop 7).length = 64 ∧ (t.drop 7).all hexPoint = true)
      "expected sha256 reference"
    .ok t
  | _ => fail "expected sha256 reference"

def supported (contract version : Value) : Bool :=
  match contract, version with
  | .str t, .int i => t == name "mdrack.quality-input" && i == 2
  | _, _ => false

def validateQualityInput (document : Value) : Except Thrown QualityDocument := do
  let fields ← object ["contract", "schema_version", "corpus_ref", "judgments_ref", "implementation_ref",
    "cases"] document
  check (supported (field fields "contract") (field fields "schema_version") = true)
    "unsupported evaluation schema"
  let corpusRef ← shaReference (field fields "corpus_ref")
  let judgmentsRef ← shaReference (field fields "judgments_ref")
  let implementationRef ← shaReference (field fields "implementation_ref")
  let rawCases ← array (field fields "cases")
  check (rawCases.length ≠ 0) "empty case set"
  let cases ← mapAll validateCase rawCases
  unique (cases.map (·.caseId)) "duplicate case ID"
  .ok ⟨corpusRef, judgmentsRef, implementationRef, cases⟩

/-! ## What an accepted case is -/

structure QualityCase.WellFormed (case : QualityCase) : Prop where
  cutoffs_pos : ∀ k ∈ case.cutoffs, 1 ≤ k
  cutoffs_increasing : case.cutoffs.Pairwise (· < ·)
  ids_nodup : (case.judgments.map (·.judgmentId)).Nodup
  judgments_wellFormed : ∀ j ∈ case.judgments, j.item.WellFormed case.rule
  ranked_wellFormed : ∀ r ∈ case.ranked, r.WellFormed case.rule
  declared : case.positive = true ↔ case.positives ≠ []
  covered : case.complete = true → ∀ r ∈ case.ranked, ∃ j ∈ case.gold, Meets case.rule r j.item

@[simp] theorem check_ok {condition : Prop} [Decidable condition] {message : String} {u : Unit} :
    check condition message = .ok u ↔ condition := require_ok

theorem integer_ok {minimum n : Nat} {value : Value} (h : integer minimum value = .ok n) : minimum ≤ n := by
  cases value with
  | int i =>
    simp only [integer, bind_ok, check_ok] at h
    obtain ⟨_, hrange, hn⟩ := h
    obtain rfl := Except.ok.inj hn
    omega
  | _ => cases h

theorem validateIntervals_ok {previousEnd : Int} {rows : List Value} {intervals : List Intervals.Interval}
    (h : validateIntervals previousEnd rows = .ok intervals) :
    Intervals.Separated intervals ∧ ∀ p ∈ intervals, previousEnd < p.1 := by
  induction rows generalizing previousEnd intervals with
  | nil =>
    obtain rfl := Except.ok.inj h
    have hnone : ∀ (P : Intervals.Interval → Prop), ∀ p ∈ ([] : List Intervals.Interval), P p :=
      fun P p hp => absurd hp List.not_mem_nil
    exact ⟨⟨hnone _, List.Pairwise.nil⟩, hnone _⟩
  | cons row rows ih =>
    rw [validateIntervals, bind_ok] at h
    obtain ⟨ends, -, h⟩ := h
    split at h
    · rename_i first second
      simp only [bind_ok, check_ok] at h
      obtain ⟨start, -, stop, -, _, ⟨hlt, hafter⟩, more, hmore, hintervals⟩ := h
      obtain rfl := Except.ok.inj hintervals
      obtain ⟨⟨hne, hpairs⟩, hbeyond⟩ := ih hmore
      refine ⟨⟨?_, ?_⟩, ?_⟩
      · intro p hp
        rcases List.mem_cons.mp hp with rfl | hp
        · exact hlt
        · exact hne p hp
      · apply List.pairwise_cons.mpr
        refine ⟨?_, hpairs⟩
        intro q hq
        exact_mod_cast hbeyond q hq
      · intro p hp
        rcases List.mem_cons.mp hp with rfl | hp
        · exact hafter
        · have hstop := hbeyond p hp
          have hlt' : (start : Int) < stop := by exact_mod_cast hlt
          omega
    · cases h

theorem checkCoordinates_ok {rule : Rule} {judgment : Bool} {item : QualityItem} {u : Unit}
    (hseparated : Intervals.Separated item.intervals) (h : checkCoordinates rule judgment item = .ok u) :
    item.WellFormed rule := by
  refine ⟨hseparated, ?_⟩
  rw [checkCoordinates] at h
  cases hmatching : rule.matching with
  | identity =>
    simp only [hmatching, bind_ok, check_ok] at h
    exact h.choose_spec.1
  | temporal intervalIou tolerance =>
    simp only [hmatching, bind_ok, check_ok] at h
    exact h.choose_spec.1

theorem validateItem_ok {β : Type} {rule : Rule} {judgment : Bool} {labelKeys : List String}
    {readLabel : Fields → Except Thrown β} {value : Value} {item : QualityItem} {label : β}
    (h : validateItem rule judgment labelKeys readLabel value = .ok (item, label)) : item.WellFormed rule := by
  simp only [validateItem, bind_ok] at h
  obtain ⟨fields, -, resourceId, -, sourceRevision, -, unitId, -, rows, -, intervals, hintervals,
    timestampMs, -, label', -, _, hcoordinates, hitem⟩ := h
  obtain ⟨rfl, rfl⟩ := Prod.mk.inj (Except.ok.inj hitem)
  exact checkCoordinates_ok (validateIntervals_ok hintervals).1 hcoordinates

theorem validateJudgment_ok {rule : Rule} {value : Value} {j : QualityJudgment}
    (h : validateJudgment rule value = .ok j) : j.item.WellFormed rule := by
  rw [validateJudgment, bind_ok] at h
  obtain ⟨⟨item, judgmentId, grade⟩, hitem, hj⟩ := h
  obtain rfl := Except.ok.inj hj
  exact validateItem_ok hitem

theorem validateRanked_ok {rule : Rule} {value : Value} {item : QualityItem}
    (h : validateRanked rule value = .ok item) : item.WellFormed rule := by
  rw [validateRanked, bind_ok] at h
  obtain ⟨⟨item', _⟩, hitem, heq⟩ := h
  obtain rfl := Except.ok.inj heq
  exact validateItem_ok hitem

/-- Between well-formed items it is found whether some judgment meets a ranked item. -/
theorem judged_spec {rule : Rule} {gold : List QualityJudgment} {ranked : QualityItem} {b : Bool}
    (hranked : ranked.WellFormed rule) (hgold : ∀ j ∈ gold, j.item.WellFormed rule)
    (h : judged rule gold ranked = .ok b) : b = true ↔ ∃ j ∈ gold, Meets rule ranked j.item := by
  rw [judged, bind_ok] at h
  obtain ⟨scores, hscores, hb⟩ := h
  obtain rfl := Except.ok.inj hb
  rw [List.any_eq_true]
  constructor
  · rintro ⟨score, hscore, hsome⟩
    obtain ⟨j, hj, haffinity⟩ := mapAll_ok_mem hscores score hscore
    obtain ⟨score', hscore', hmeets⟩ := affinity_spec hranked (hgold j hj)
    obtain rfl := Except.ok.inj (haffinity.symm.trans hscore')
    exact ⟨j, hj, hmeets.mp (Option.isSome_iff_ne_none.mp hsome)⟩
  · rintro ⟨j, hj, hmeets⟩
    obtain ⟨score, hscore, haffinity⟩ := mapAll_ok_mem_of_mem hscores j hj
    obtain ⟨score', hscore', hspec⟩ := affinity_spec hranked (hgold j hj)
    obtain rfl := Except.ok.inj (haffinity.symm.trans hscore')
    exact ⟨score, hscore, Option.isSome_iff_ne_none.mpr (hspec.mpr hmeets)⟩

theorem QualityCase.mem_gold {case : QualityCase} {j : QualityJudgment} :
    j ∈ case.gold ↔ j ∈ case.judgments ∧ j.item.owner ∈ case.scope := by
  simp [QualityCase.gold]

theorem checkCovered_ok {case : QualityCase} {u : Unit}
    (hjudgments : ∀ j ∈ case.judgments, j.item.WellFormed case.rule)
    (hranked : ∀ r ∈ case.ranked, r.WellFormed case.rule) (h : checkCovered case = .ok u)
    (hcomplete : case.complete = true) :
    ∀ r ∈ case.ranked, ∃ j ∈ case.gold, Meets case.rule r j.item := by
  rw [checkCovered, if_pos hcomplete, bind_ok] at h
  obtain ⟨covered, hcovered, hall⟩ := h
  rw [check_ok] at hall
  intro r hr
  obtain ⟨b, hb, hjudged⟩ := mapAll_ok_mem_of_mem hcovered r hr
  apply (judged_spec (hranked r hr) _ hjudged).mp (hall b hb)
  intro j hj
  exact hjudgments j (QualityCase.mem_gold.mp hj).1

/-- The validator lets only well-formed cases through. -/
theorem validateCase_wellFormed {value : Value} {case : QualityCase} (h : validateCase value = .ok case) :
    case.WellFormed := by
  simp only [validateCase, bind_ok, check_ok, checkJudgments, unique, checkCase] at h
  obtain ⟨fields, -, caseId, -, positive, -, target, -, temporal, -, complete, -, _, -, rawCutoffs, -, _, -,
    cutoffs, hcutoffs, _, hincreasing, rawScope, -, _, -, scope, -, _, -, _, -, matching, -, rawJudgments, -,
    judgments, hjudgments, _, ⟨_, hids, -⟩, rawRanked, -, ranked, hranked, _,
    ⟨_, -, _, -, _, hdeclared, _, -, hcovered⟩, hcase⟩ := h
  obtain rfl := Except.ok.inj hcase
  have hjudgment : ∀ j ∈ judgments, j.item.WellFormed ⟨target, matching⟩ := by
    intro j hj
    obtain ⟨raw, -, hraw⟩ := mapAll_ok_mem hjudgments j hj
    exact validateJudgment_ok hraw
  have hitem : ∀ r ∈ ranked, r.WellFormed ⟨target, matching⟩ := by
    intro r hr
    obtain ⟨raw, -, hraw⟩ := mapAll_ok_mem hranked r hr
    exact validateRanked_ok hraw
  exact {
    cutoffs_pos := by
      intro k hk
      obtain ⟨raw, -, hraw⟩ := mapAll_ok_mem hcutoffs k hk
      exact integer_ok hraw
    cutoffs_increasing := hincreasing
    ids_nodup := hids
    judgments_wellFormed := hjudgment
    ranked_wellFormed := hitem
    declared := hdeclared
    covered := fun hcomplete => checkCovered_ok hjudgment hitem hcovered hcomplete }

theorem validateQualityInput_wellFormed {document : Value} {accepted : QualityDocument}
    (h : validateQualityInput document = .ok accepted) : ∀ case ∈ accepted.cases, case.WellFormed := by
  simp only [validateQualityInput, bind_ok] at h
  obtain ⟨_, -, _, -, _, -, _, -, _, -, _, -, _, -, cases, hcases, _, -, haccepted⟩ := h
  obtain rfl := Except.ok.inj haccepted
  intro case hcase
  obtain ⟨raw, -, hraw⟩ := mapAll_ok_mem hcases case hcase
  exact validateCase_wellFormed hraw

end MDRack.Eval
