import Mathlib.Data.List.Basic
import Mathlib.Data.Nat.Init

/-!
# Grids as lists

A grid of `w` columns and `h` rows is the list of its rows, one after the other.

* `fill` — the grid whose value at column `x` and row `y` is `f x y`.
* `strided` — every so many values of a list, from a position on.
* `rowsOf` — the rows of a list.

Principal results: `getElem?_fill`, `eq_fill` — a list of the right length is the grid of its
values; `strided_fill` — a stride of the width takes out a column; `fill_reverse`.
-/

namespace Grid

variable {α : Type} {w h : Nat} {f g : Nat → Nat → α}

def fill (w h : Nat) (f : Nat → Nat → α) : List α :=
  ((List.range h).map fun y : Nat => (List.range w).map fun x : Nat => f x y).flatten

/-- `values[start::step]` for a positive step. -/
def strided (start step : Nat) (values : List α) : List α :=
  (List.range values.length).filterMap fun k : Nat => values[start + k * step]?

/-- `[values[y * width:(y + 1) * width] for y in range(height)]`. -/
def rowsOf (width height : Nat) (values : List α) : List (List α) :=
  (List.range height).map fun y : Nat => (values.drop (y * width)).take width

theorem fill_succ (w h : Nat) (f : Nat → Nat → α) :
    fill w (h + 1) f = fill w h f ++ (List.range w).map fun x : Nat => f x h := by
  simp [fill, List.range_succ]

theorem length_fill (w h : Nat) (f : Nat → Nat → α) : (fill w h f).length = h * w := by
  induction h with
  | zero => simp [fill]
  | succ h ih => rw [fill_succ, List.length_append, ih, List.length_map, List.length_range, Nat.succ_mul]

/-- A place in an earlier row stands before the next row. -/
theorem place_lt {x y : Nat} (hx : x < w) (hy : y < h) : y * w + x < h * w := by
  have hrow : (y + 1) * w ≤ h * w := Nat.mul_le_mul_right w hy
  rw [Nat.succ_mul] at hrow
  omega

theorem getElem?_fill {x y : Nat} (hx : x < w) (hy : y < h) : (fill w h f)[y * w + x]? = some (f x y) := by
  induction h with
  | zero => exact absurd hy (Nat.not_lt_zero y)
  | succ h ih =>
    rw [fill_succ]
    rcases Nat.lt_succ_iff_lt_or_eq.mp hy with hlt | rfl
    · have hin : y * w + x < (fill w h f).length := by
        rw [length_fill]
        exact place_lt hx hlt
      rw [List.getElem?_append_left hin]
      exact ih hlt
    · have hpast : (fill w y f).length ≤ y * w + x := by
        rw [length_fill]
        exact Nat.le_add_right _ _
      rw [List.getElem?_append_right hpast, length_fill, Nat.add_sub_cancel_left, List.getElem?_map,
        List.getElem?_range hx]
      rfl

theorem fill_congr (hfg : ∀ x < w, ∀ y < h, f x y = g x y) : fill w h f = fill w h g := by
  have hrows : ((List.range h).map fun y : Nat => (List.range w).map fun x : Nat => f x y) =
      (List.range h).map fun y : Nat => (List.range w).map fun x : Nat => g x y := by
    apply List.map_congr_left
    intro y hy
    apply List.map_congr_left
    intro x hx
    exact hfg x (List.mem_range.mp hx) y (List.mem_range.mp hy)
  rw [fill, hrows]
  rfl

/-- A list is the grid of its values. -/
theorem eq_fill [Inhabited α] {values : List α} (hlength : values.length = h * w) :
    values = fill w h fun x y : Nat => values.getD (y * w + x) default := by
  apply List.ext_getElem?
  intro i
  rcases Nat.lt_or_ge i (h * w) with hi | hi
  · have hw : 0 < w := by
      rcases Nat.eq_zero_or_pos w with rfl | hpos
      · simp at hi
      · exact hpos
    have hx : i % w < w := Nat.mod_lt i hw
    have hy : i / w < h := Nat.div_lt_of_lt_mul (by rwa [Nat.mul_comm w h])
    have hplace : i / w * w + i % w = i := Nat.div_add_mod' i w
    have hfill := getElem?_fill (f := fun x y : Nat => values.getD (y * w + x) default) hx hy
    rw [hplace] at hfill
    have hin : i < values.length := by omega
    rw [hfill, List.getD_eq_getElem?_getD, List.getElem?_eq_getElem hin]
    rfl
  · rw [List.getElem?_eq_none (by omega), List.getElem?_eq_none (by rw [length_fill]; exact hi)]

theorem map_range_reverse (n : Nat) (v : Nat → α) :
    ((List.range n).map v).reverse = (List.range n).map fun i : Nat => v (n - 1 - i) := by
  apply List.ext_getElem
  · simp
  · intro i hi hi'
    simp

/-- The values of a list at the first of the places, where the others lie outside. -/
theorem filterMap_range {n : Nat} {look : Nat → Option α} {v : Nat → α} (hn : h ≤ n)
    (hin : ∀ k < h, look k = some (v k)) (hout : ∀ k, h ≤ k → look k = none) :
    (List.range n).filterMap look = (List.range h).map v := by
  induction n, hn using Nat.le_induction with
  | base =>
    rw [← List.filterMap_eq_map]
    apply List.filterMap_congr
    intro k hk
    exact hin k (List.mem_range.mp hk)
  | succ n hn ih =>
    rw [List.range_succ, List.filterMap_append, ih, List.filterMap_cons, hout n hn]
    exact List.append_nil _

/-- A stride of the width takes out a column. -/
theorem strided_fill {x : Nat} (hx : x < w) : strided x w (fill w h f) = (List.range h).map (f x) := by
  apply filterMap_range
  · rw [length_fill]
    exact Nat.le_mul_of_pos_right h (Nat.zero_lt_of_lt hx)
  · intro y hy
    rw [Nat.add_comm]
    exact getElem?_fill hx hy
  · intro y hy
    apply List.getElem?_eq_none
    rw [length_fill]
    exact Nat.le_add_left_of_le (Nat.mul_le_mul_right w hy)

theorem rowsOf_fill : rowsOf w h (fill w h f) =
    (List.range h).map fun y : Nat => (List.range w).map fun x : Nat => f x y := by
  apply List.map_congr_left
  intro y hy
  have hlt := List.mem_range.mp hy
  apply List.ext_getElem?
  intro x
  rcases Nat.lt_or_ge x w with hx | hx
  · rw [List.getElem?_take_of_lt hx, List.getElem?_drop, getElem?_fill hx hlt, List.getElem?_map,
      List.getElem?_range hx]
    rfl
  · rw [List.getElem?_eq_none (by rw [List.length_take]; omega),
      List.getElem?_eq_none (by simpa using hx)]

theorem flatten_columns (v : Nat → Nat → α) :
    ((List.range w).map fun x : Nat => (List.range h).map (v x)).flatten = fill h w fun y x => v x y := rfl

/-- Read backwards, both directions turn round. -/
theorem fill_reverse : (fill w h f).reverse = fill w h fun x y => f (w - 1 - x) (h - 1 - y) := by
  rw [fill, List.reverse_flatten, List.map_map, map_range_reverse]
  rw [fill]
  congr 1
  apply List.map_congr_left
  intro y _
  exact map_range_reverse w fun x => f x (h - 1 - y)

end Grid
