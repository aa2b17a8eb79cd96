import Mathlib.Algebra.Order.Ring.Rat
import MDRack.Lib.Checks
import MDRack.Lib.CodePoints
import MDRack.Lib.Intervals

/-!
# Cases of the quality evaluator (`quality_v2`)

* `QualityItem`, `QualityJudgment`, `QualityCase` — the records of a case that has been validated.
* `affinity` — how well a ranked item meets a judgment, in exact arithmetic.
* `Meets` — the identity rule and the temporal rule: same owner, and the same unit where the target is a
  unit, or near timestamps, or intervals with enough in common.

Principal result: `affinity_spec` — between well-formed items the affinity is found without an error,
and there is one exactly where the rule is met.
-/

namespace MDRack.Eval

open Checks
open CodePoints (Text)

/-- What an evaluation can raise. -/
inductive Thrown
  | quality (message : String)
  | zeroDivisionError
  | indexError
  | valueError
  deriving DecidableEq, Repr

def divide (a b : ℚ) : Except Thrown ℚ := if b = 0 then .error .zeroDivisionError else .ok (a / b)

theorem divide_ok {a b : ℚ} (h : b ≠ 0) : divide a b = .ok (a / b) := if_neg h

/-! ## Records -/

/-- A resource and its revision. -/
abbrev Owner := Text × Text

structure QualityItem where
  owner : Owner
  unitId : Option Text
  intervals : List Intervals.Interval
  timestampMs : Option Nat
  deriving DecidableEq

structure QualityJudgment where
  item : QualityItem
  judgmentId : Text
  grade : Nat
  deriving DecidableEq

inductive Target
  | unit
  | resource
  deriving DecidableEq, Repr

/-- The match of a case, with the temporal policy where there is one. -/
inductive Matching
  | identity
  | temporal (intervalIou : ℚ) (timestampToleranceMs : Nat)
  deriving DecidableEq

/-- The target and the match. -/
structure Rule where
  target : Target
  matching : Matching
  deriving DecidableEq

structure QualityCase where
  caseId : Text
  positive : Bool
  rule : Rule
  complete : Bool
  cutoffs : List Nat
  scope : List Owner
  judgments : List QualityJudgment
  ranked : List QualityItem

/-- `_key`. -/
def key (rule : Rule) (item : QualityItem) : Owner × Option Text :=
  (item.owner, if rule.target = .unit then item.unitId else none)

/-! ## Affinity -/

def distance (a b : Nat) : Nat := (a - b) + (b - a)

/-- The part of `_affinity` behind the timestamps. -/
def intervalAffinity (intervalIou : ℚ) (left right : List Intervals.Interval) : Except Thrown (Option ℚ) :=
  if left = [] ∨ right = [] then .ok none
  else do
    let intersection : Int := Intervals.overlap left right
    let union := Intervals.length left + Intervals.length right - intersection
    let iou ← divide intersection union
    .ok (if intervalIou ≤ iou then some iou else none)

def affinity (rule : Rule) (ranked gold : QualityItem) : Except Thrown (Option ℚ) :=
  if ranked.owner ≠ gold.owner then .ok none
  else match rule.matching with
    | .identity => .ok (if key rule ranked = key rule gold then some 1 else none)
    | .temporal intervalIou tolerance =>
      match ranked.timestampMs, gold.timestampMs with
      | some a, some b => .ok (if distance a b ≤ tolerance then some (-(distance a b : ℚ)) else none)
      | _, _ => intervalAffinity intervalIou ranked.intervals gold.intervals

/-! ## The rule -/

/-- What the validator demands of the coordinates of an item. -/
def QualityItem.WellFormed (rule : Rule) (item : QualityItem) : Prop :=
  Intervals.Separated item.intervals ∧
    match rule.matching with
    | .identity => item.intervals = [] ∧ item.timestampMs = none
    | .temporal _ _ => item.intervals = [] ↔ item.timestampMs ≠ none

/-- The intervals of two items have at least this part of what they cover in common. -/
def SharesEnough (intervalIou : ℚ) (ranked gold : QualityItem) : Prop :=
  ranked.intervals ≠ [] ∧ gold.intervals ≠ [] ∧
    intervalIou * (Intervals.covered ranked.intervals ∪ Intervals.covered gold.intervals).card ≤
      (Intervals.covered ranked.intervals ∩ Intervals.covered gold.intervals).card

/-- The identity rule or the temporal rule of a case. -/
def Meets (rule : Rule) (ranked gold : QualityItem) : Prop :=
  ranked.owner = gold.owner ∧
    match rule.matching with
    | .identity => rule.target = .unit → ranked.unitId = gold.unitId
    | .temporal intervalIou tolerance =>
      (∃ a b, ranked.timestampMs = some a ∧ gold.timestampMs = some b ∧ distance a b ≤ tolerance) ∨
        SharesEnough intervalIou ranked gold

theorem key_eq_iff {rule : Rule} {ranked gold : QualityItem} (howner : ranked.owner = gold.owner) :
    key rule ranked = key rule gold ↔ (rule.target = .unit → ranked.unitId = gold.unitId) := by
  rw [key, key, howner, Prod.mk.injEq]
  by_cases htarget : rule.target = .unit
  · simp [htarget]
  · simp [htarget]

/-- The quotient of the overlap compares as the numbers of covered points do. -/
theorem iou_spec {left right : List Intervals.Interval} (hleft : Intervals.Separated left)
    (hright : Intervals.Separated right) (hne : left ≠ []) :
    ((Intervals.length left + Intervals.length right - (Intervals.overlap left right : Int) : Int) : ℚ) =
        (Intervals.covered left ∪ Intervals.covered right).card ∧
      (0 : ℚ) < (Intervals.covered left ∪ Intervals.covered right).card := by
  have hunion := Intervals.card_union hleft hright
  have hpos : 0 < (Intervals.covered left ∪ Intervals.covered right).card := by
    have hcard := Finset.card_le_card (@Finset.subset_union_left _ _ (Intervals.covered left)
      (Intervals.covered right))
    rw [Intervals.card_covered hleft] at hcard
    exact Nat.lt_of_lt_of_le (Intervals.length_pos hleft hne) hcard
  refine ⟨?_, by exact_mod_cast hpos⟩
  have hint : (Intervals.length left : Int) + Intervals.length right - Intervals.overlap left right =
      (Intervals.covered left ∪ Intervals.covered right).card := by omega
  rw [hint]
  exact Int.cast_natCast _

theorem intervalAffinity_spec (intervalIou : ℚ) {ranked gold : QualityItem}
    (hranked : Intervals.Separated ranked.intervals) (hgold : Intervals.Separated gold.intervals) :
    ∃ score, intervalAffinity intervalIou ranked.intervals gold.intervals = .ok score ∧
      (score ≠ none ↔ SharesEnough intervalIou ranked gold) := by
  rw [intervalAffinity, SharesEnough]
  by_cases hempty : ranked.intervals = [] ∨ gold.intervals = []
  · refine ⟨none, if_pos hempty, ?_⟩
    rcases hempty with h | h
    · simp [h]
    · simp [h]
  · have hne : ranked.intervals ≠ [] := fun h => hempty (.inl h)
    have hne' : gold.intervals ≠ [] := fun h => hempty (.inr h)
    obtain ⟨hunion, hpos⟩ := iou_spec hranked hgold hne
    rw [if_neg hempty]
    simp only [hunion, divide_ok hpos.ne', bind, Except.bind, Int.cast_natCast]
    refine ⟨_, rfl, ?_⟩
    rw [Intervals.card_inter hranked hgold, and_iff_right hne, and_iff_right hne', ← le_div_iff₀ hpos]
    split
    · rename_i hle
      simp [hle]
    · rename_i hle
      simp [hle]

/-- Between well-formed items the affinity raises nothing, and is there exactly where the rule is met. -/
theorem affinity_spec {rule : Rule} {ranked gold : QualityItem} (hranked : ranked.WellFormed rule)
    (hgold : gold.WellFormed rule) :
    ∃ score, affinity rule ranked gold = .ok score ∧ (score ≠ none ↔ Meets rule ranked gold) := by
  by_cases howner : ranked.owner = gold.owner
  · rw [affinity, if_neg (not_not.mpr howner)]
    obtain ⟨target, matching⟩ := rule
    cases matching with
    | identity =>
      refine ⟨_, rfl, ?_⟩
      rw [Meets, and_iff_right howner, ← key_eq_iff howner]
      simp
    | temporal intervalIou tolerance =>
      obtain ⟨hseparated, hkind⟩ := hranked
      obtain ⟨hseparated', hkind'⟩ := hgold
      obtain ⟨score, hscore, hshares⟩ := intervalAffinity_spec intervalIou hseparated hseparated'
      simp only at hkind hkind' ⊢
      rw [Meets, and_iff_right howner]
      cases ha : ranked.timestampMs with
      | none => exact ⟨score, hscore, by simp [hshares]⟩
      | some a =>
        cases hb : gold.timestampMs with
        | none => exact ⟨score, hscore, by simp [hshares]⟩
        | some b =>
          -- an item with a timestamp has no intervals
          have hnone : ranked.intervals = [] := hkind.mpr (by simp [ha])
          have hno : ¬ SharesEnough intervalIou ranked gold := fun h => h.1 hnone
          refine ⟨_, rfl, ?_⟩
          simp [hno]
  · refine ⟨none, if_pos howner, ?_⟩
    simp [Meets, howner]

end MDRack.Eval
