import Mathlib.Algebra.GroupWithZero.Nat
import Mathlib.Order.Interval.Finset.Nat

/-!
# Half-open intervals of natural numbers

* `covered` — the numbers in some interval of a list.
* `Separated` — intervals that are not empty and stand in order with gaps between them.
* `length`, `overlap` — the sums of the lengths, and of the common lengths of all pairs.

Principal results: `card_covered`, `card_inter` — the sums count the covered numbers and the common ones.
-/

namespace Intervals

abbrev Interval := Nat × Nat

def covered : List Interval → Finset Nat
  | [] => ∅
  | p :: rest => Finset.Ico p.1 p.2 ∪ covered rest

def Separated (intervals : List Interval) : Prop :=
  (∀ p ∈ intervals, p.1 < p.2) ∧ intervals.Pairwise fun p q => p.2 < q.1

def length (intervals : List Interval) : Nat := (intervals.map fun p => p.2 - p.1).sum

/-- `max(0, min(b, d) - max(a, c))`. -/
def common (p q : Interval) : Nat := min p.2 q.2 - max p.1 q.1

def overlap (left right : List Interval) : Nat :=
  (left.map fun p => (right.map fun q => common p q).sum).sum

theorem mem_covered {intervals : List Interval} {n : Nat} :
    n ∈ covered intervals ↔ ∃ p ∈ intervals, p.1 ≤ n ∧ n < p.2 := by
  induction intervals with
  | nil => simp [covered]
  | cons p rest ih => simp [covered, ih]

theorem Separated.tail {p : Interval} {rest : List Interval} (h : Separated (p :: rest)) : Separated rest :=
  ⟨fun q hq => h.1 q (List.mem_cons_of_mem p hq), (List.pairwise_cons.mp h.2).2⟩

/-- The first interval shares nothing with the later ones. -/
theorem Separated.disjoint {p : Interval} {rest : List Interval} (h : Separated (p :: rest)) :
    Disjoint (Finset.Ico p.1 p.2) (covered rest) := by
  rw [Finset.disjoint_left]
  intro n hn hrest
  obtain ⟨q, hq, hle, -⟩ := mem_covered.mp hrest
  have hgap := (List.pairwise_cons.mp h.2).1 q hq
  have hlt := (Finset.mem_Ico.mp hn).2
  omega

theorem card_covered {intervals : List Interval} (h : Separated intervals) :
    (covered intervals).card = length intervals := by
  induction intervals with
  | nil => rfl
  | cons p rest ih =>
    rw [covered, Finset.card_union_of_disjoint h.disjoint, ih h.tail, Nat.card_Ico]
    rfl

theorem card_common (p q : Interval) : (Finset.Ico p.1 p.2 ∩ Finset.Ico q.1 q.2).card = common p q := by
  rw [Finset.Ico_inter_Ico, Nat.card_Ico]
  rfl

theorem card_inter_one (p : Interval) {right : List Interval} (h : Separated right) :
    (Finset.Ico p.1 p.2 ∩ covered right).card = (right.map fun q => common p q).sum := by
  induction right with
  | nil => simp [covered]
  | cons q rest ih =>
    have hdisjoint : Disjoint (Finset.Ico p.1 p.2 ∩ Finset.Ico q.1 q.2) (Finset.Ico p.1 p.2 ∩ covered rest) :=
      h.disjoint.mono Finset.inter_subset_right Finset.inter_subset_right
    rw [covered, Finset.inter_union_distrib_left, Finset.card_union_of_disjoint hdisjoint, ih h.tail,
      card_common]
    rfl

/-- The overlap counts the numbers that both lists cover. -/
theorem card_inter {left right : List Interval} (hleft : Separated left) (hright : Separated right) :
    (covered left ∩ covered right).card = overlap left right := by
  induction left with
  | nil => simp [covered, overlap]
  | cons p rest ih =>
    have hdisjoint : Disjoint (Finset.Ico p.1 p.2 ∩ covered right) (covered rest ∩ covered right) :=
      hleft.disjoint.mono Finset.inter_subset_left Finset.inter_subset_left
    rw [covered, Finset.union_inter_distrib_right, Finset.card_union_of_disjoint hdisjoint,
      card_inter_one p hright, ih hleft.tail]
    rfl

theorem card_union {left right : List Interval} (hleft : Separated left) (hright : Separated right) :
    (covered left ∪ covered right).card + overlap left right = length left + length right := by
  rw [← card_inter hleft hright, ← card_covered hleft, ← card_covered hright]
  exact Finset.card_union_add_card_inter _ _

theorem length_pos {intervals : List Interval} (h : Separated intervals) (hne : intervals ≠ []) :
    0 < length intervals := by
  cases intervals with
  | nil => exact absurd rfl hne
  | cons p rest =>
    have hp := h.1 p List.mem_cons_self
    rw [length, List.map_cons, List.sum_cons]
    omega

end Intervals
