import Mathlib.Algebra.BigOperators.Group.List.Basic
import Mathlib.Algebra.GroupWithZero.Nat

/-!
# Worklists

A stack of items; visiting one gives findings and further items, which go on top.  Items shrink,
so every stack is worked off.

Principal result: `mem_run` — the findings are those of the items reached from the stack.
-/

namespace Worklist

variable {ι ο : Type}

structure Explorer (ι ο : Type) where
  visit : ι → List ο × List ι
  size : ι → Nat
  smaller : ∀ i, ((visit i).2.map size).sum < size i

variable (e : Explorer ι ο)

/-- The stack after a visit; the item pushed last is on top. -/
def Explorer.push (i : ι) (rest : List ι) : List ι := (e.visit i).2.reverse ++ rest

/-- Work off a stack. -/
def Explorer.run : List ι → List ο
  | [] => []
  | i :: rest => (e.visit i).1 ++ Explorer.run (e.push i rest)
termination_by stack => (stack.map e.size).sum
decreasing_by
  simp only [Explorer.push, List.map_append, List.sum_append, List.map_reverse, List.sum_reverse,
    List.map_cons, List.sum_cons]
  exact Nat.add_lt_add_right (e.smaller i) _

/-- Items that are on the stack at some time. -/
inductive Explorer.Reached (stack : List ι) : ι → Prop
  | initial {i : ι} (h : i ∈ stack) : Reached stack i
  | pushed {i j : ι} (h : Reached stack i) (hj : j ∈ (e.visit i).2) : Reached stack j

variable {e} {stack stack' : List ι} {i j : ι} {o : ο}

theorem Explorer.Reached.mono (h : e.Reached stack i) (hsub : ∀ j ∈ stack, e.Reached stack' j) :
    e.Reached stack' i := by
  induction h with
  | initial h => exact hsub _ h
  | pushed _ hj ih => exact .pushed ih hj

/-- What is reached from a stack is its top, or reached from what replaces the top. -/
theorem Explorer.reached_cons : e.Reached (i :: stack) j ↔
    j = i ∨ e.Reached (e.push i stack) j := by
  constructor
  · intro h
    induction h with
    | initial h =>
      rcases List.mem_cons.mp h with rfl | h
      · exact .inl rfl
      · exact .inr (.initial (List.mem_append_right _ h))
    | pushed _ hk ih =>
      rcases ih with rfl | ih
      · exact .inr (.initial (List.mem_append_left _ (List.mem_reverse.mpr hk)))
      · exact .inr (.pushed ih hk)
  · rintro (rfl | h)
    · exact .initial List.mem_cons_self
    · refine h.mono fun k hk => ?_
      rcases List.mem_append.mp hk with hk | hk
      · exact .pushed (.initial List.mem_cons_self) (List.mem_reverse.mp hk)
      · exact .initial (List.mem_cons_of_mem _ hk)

/-- The findings of a run are those of the items it reaches. -/
theorem Explorer.mem_run : o ∈ e.run stack ↔ ∃ i, e.Reached stack i ∧ o ∈ (e.visit i).1 := by
  induction stack using Explorer.run.induct e with
  | case1 =>
    rw [Explorer.run]
    refine iff_of_false List.not_mem_nil ?_
    rintro ⟨i, hi, -⟩
    induction hi with
    | initial h => cases h
    | pushed _ _ ih => exact ih
  | case2 i rest ih =>
    rw [Explorer.run, List.mem_append, ih]
    simp only [Explorer.reached_cons]
    constructor
    · rintro (h | ⟨j, hj, ho⟩)
      · exact ⟨i, .inl rfl, h⟩
      · exact ⟨j, .inr hj, ho⟩
    · rintro ⟨j, rfl | hj, ho⟩
      · exact .inl ho
      · exact .inr ⟨j, hj, ho⟩

end Worklist
