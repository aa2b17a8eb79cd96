import Mathlib.Data.List.Pairwise
import Mathlib.Order.MinMax

/-!
# Items that tile a range

* `Tiles` — nonempty items end to end from one position to another.
* `Tiles.clip` — what meets a window, clipped to it, tiles the window.
* `Tiles.meets_head`, `Tiles.meets_last` — the first item that meets a window holds the window's
  start, the last one holds its end.
-/

namespace Tiling

variable {α β : Type} {start stop : α → Nat} {lo mid hi x y : Nat} {xs ys : List α} {a : α}

def Tiles (start stop : α → Nat) : Nat → List α → Nat → Prop
  | lo, [], hi => lo = hi
  | lo, a :: rest, hi => start a = lo ∧ lo < stop a ∧ Tiles start stop (stop a) rest hi

theorem Tiles.le (h : Tiles start stop lo xs hi) : lo ≤ hi := by
  induction xs generalizing lo with
  | nil => exact Nat.le_of_eq h
  | cons a rest ih =>
    obtain ⟨-, hlt, hrest⟩ := h
    have := ih hrest
    omega

theorem Tiles.append (h : Tiles start stop lo xs mid) (h' : Tiles start stop mid ys hi) :
    Tiles start stop lo (xs ++ ys) hi := by
  induction xs generalizing lo with
  | nil =>
    obtain rfl : lo = mid := h
    exact h'
  | cons a rest ih =>
    obtain ⟨hstart, hlt, hrest⟩ := h
    exact ⟨hstart, hlt, ih hrest⟩

theorem Tiles.mem (h : Tiles start stop lo xs hi) (ha : a ∈ xs) :
    lo ≤ start a ∧ start a < stop a ∧ stop a ≤ hi := by
  induction xs generalizing lo with
  | nil => cases ha
  | cons b rest ih =>
    obtain ⟨hstart, hlt, hrest⟩ := h
    have hle := hrest.le
    rcases List.mem_cons.mp ha with rfl | ha
    · omega
    · have := ih hrest ha
      omega

theorem Tiles.pairwise (h : Tiles start stop lo xs hi) :
    xs.Pairwise fun a b => stop a ≤ start b := by
  induction xs generalizing lo with
  | nil => exact List.Pairwise.nil
  | cons a rest ih =>
    obtain ⟨-, -, hrest⟩ := h
    refine List.pairwise_cons.mpr ⟨?_, ih hrest⟩
    intro b hb
    exact (hrest.mem hb).1

theorem tiles_map (f : β → α) (zs : List β) :
    Tiles start stop lo (zs.map f) hi ↔
      Tiles (fun z => start (f z)) (fun z => stop (f z)) lo zs hi := by
  induction zs generalizing lo with
  | nil => exact Iff.rfl
  | cons z rest ih => simp only [List.map_cons, Tiles, ih]

theorem Tiles.shift (h : Tiles start stop lo xs hi) (hx : x ≤ lo) :
    Tiles (fun a => start a - x) (fun a => stop a - x) (lo - x) xs (hi - x) := by
  induction xs generalizing lo with
  | nil =>
    obtain rfl : lo = hi := h
    rfl
  | cons a rest ih =>
    obtain ⟨hstart, hlt, hrest⟩ := h
    refine ⟨?_, ?_, ih hrest (by omega)⟩
    · show start a - x = lo - x
      rw [hstart]
    · show lo - x < stop a - x
      omega

/-- The item that holds a position splits the list. -/
theorem Tiles.covered (h : Tiles start stop lo xs hi) (hlo : lo ≤ x) (hhi : x < hi) :
    ∃ before a after, xs = before ++ a :: after ∧ start a ≤ x ∧ x < stop a := by
  induction xs generalizing lo with
  | nil =>
    have : lo = hi := h
    omega
  | cons a rest ih =>
    obtain ⟨hstart, -, hrest⟩ := h
    by_cases hx : x < stop a
    · exact ⟨[], a, rest, rfl, by omega, hx⟩
    · obtain ⟨before, b, after, rfl, hb⟩ := ih hrest (Nat.le_of_not_lt hx)
      exact ⟨a :: before, b, after, rfl, hb⟩

/-! ## Windows -/

/-- The item reaches into the window from `x` to `y`. -/
def meets (start stop : α → Nat) (x y : Nat) (a : α) : Bool := x < stop a && start a < y

@[simp] theorem meets_iff : meets start stop x y a = true ↔ x < stop a ∧ start a < y := by
  simp [meets]

theorem Tiles.meets_head (h : Tiles start stop lo xs hi) (hlo : lo ≤ x) (hhi : x < hi)
    (hxy : x < y) : ∃ a ∈ xs, (xs.filter (meets start stop x y)).head? = some a ∧
      start a ≤ x ∧ x < stop a := by
  obtain ⟨before, a, after, rfl, hstart, hstop⟩ := h.covered hlo hhi
  have hbefore : before.filter (meets start stop x y) = [] := by
    rw [List.filter_eq_nil_iff]
    intro b hb hmeets
    have hba := (List.pairwise_append.mp h.pairwise).2.2 b hb a List.mem_cons_self
    have := (meets_iff.mp hmeets).1
    omega
  have hmeets : meets start stop x y a = true := meets_iff.mpr ⟨hstop, by omega⟩
  refine ⟨a, by simp, ?_, hstart, hstop⟩
  rw [List.filter_append, hbefore, List.nil_append, List.filter_cons_of_pos hmeets]
  rfl

theorem Tiles.meets_last (h : Tiles start stop lo xs hi) (hlo : lo < y) (hhi : y ≤ hi)
    (hxy : x < y) : ∃ a ∈ xs, (xs.filter (meets start stop x y)).getLast? = some a ∧
      start a < y ∧ y ≤ stop a := by
  obtain ⟨before, a, after, rfl, hstart, hstop⟩ :=
    h.covered (x := y - 1) (Nat.le_sub_one_of_lt hlo) (by omega)
  have hafter : after.filter (meets start stop x y) = [] := by
    rw [List.filter_eq_nil_iff]
    intro b hb hmeets
    have hab := (List.pairwise_cons.mp (List.pairwise_append.mp h.pairwise).2.1).1 b hb
    have := (meets_iff.mp hmeets).2
    omega
  have hmeets : meets start stop x y a = true := meets_iff.mpr ⟨by omega, by omega⟩
  refine ⟨a, by simp, ?_, by omega, by omega⟩
  rw [List.filter_append, List.filter_cons_of_pos hmeets, hafter, List.getLast?_concat]

/-- A position moved into the window. -/
def clamp (x y n : Nat) : Nat := max x (min n y)

theorem Tiles.clip (h : Tiles start stop lo xs hi) (hxy : x < y) :
    Tiles (fun a => max (start a) x) (fun a => min (stop a) y) (clamp x y lo)
      (xs.filter (meets start stop x y)) (clamp x y hi) := by
  induction xs generalizing lo with
  | nil =>
    obtain rfl : lo = hi := h
    rfl
  | cons a rest ih =>
    obtain ⟨hstart, hlt, hrest⟩ := h
    have ih := ih hrest
    by_cases hmeets : x < stop a ∧ start a < y
    · rw [List.filter_cons_of_pos (meets_iff.mpr hmeets)]
      have hclamp : clamp x y (stop a) = min (stop a) y := by
        simp only [clamp]
        omega
      rw [hclamp] at ih
      refine ⟨?_, ?_, ih⟩
      · simp only [clamp]
        omega
      · simp only [clamp]
        omega
    · -- an item outside the window moves no end of it
      rw [List.filter_cons_of_neg fun hm => hmeets (meets_iff.mp hm)]
      have hclamp : clamp x y lo = clamp x y (stop a) := by
        simp only [clamp]
        omega
      rwa [hclamp]

end Tiling
