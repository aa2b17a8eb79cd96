import Mathlib.Order.Bounds.Basic
import Mathlib.Order.Lattice
import Mathlib.Data.List.Infix
import Mathlib.Data.List.Pairwise

/-!
# Runs of intervals on a line

Items occupy the interval from `start` to `finish` and stand in the order of their starts.

* `Starts`, `Ends` — when a run of items begins and ends.
* `Before` — no item of the first list reaches into the second.
* `part_at_cut` — a partition into parts that are `Before` one another, cut anywhere: one part
  holds the first item after the cut, and what it keeps after the cut is again `Before` the rest.
-/

namespace Timeline

variable {α τ : Type} [LinearOrder τ] {start finish : α → τ}

/-! ## Slices -/

theorem extract_self (xs : List α) (i : Nat) : xs.extract i i = [] := by
  simp [List.extract]

theorem extract_succ {xs : List α} {i j : Nat} {a : α} (hij : i ≤ j) (ha : xs[j]? = some a) :
    xs.extract i (j + 1) = xs.extract i j ++ [a] := by
  have hsub : j + 1 - i = (j - i) + 1 := by omega
  have hget : (xs.drop i)[j - i]? = some a := by
    rw [List.getElem?_drop]
    simpa [Nat.add_sub_cancel' hij] using ha
  show (xs.drop i).take (j + 1 - i) = (xs.drop i).take (j - i) ++ [a]
  rw [hsub, List.take_add_one, hget]
  rfl

theorem extract_append_drop (xs : List α) {i j : Nat} (hij : i ≤ j) :
    xs.extract i j ++ xs.drop j = xs.drop i := by
  have h := List.take_append_drop (j - i) (xs.drop i)
  rw [List.drop_drop] at h
  have hj : i + (j - i) = j := by omega
  rwa [hj] at h

theorem take_append_extract (xs : List α) {i j : Nat} (hij : i ≤ j) :
    xs.take i ++ xs.extract i j = xs.take j := by
  obtain ⟨k, rfl⟩ := Nat.exists_eq_add_of_le hij
  show xs.take i ++ (xs.drop i).take (i + k - i) = xs.take (i + k)
  rw [Nat.add_sub_cancel_left, List.take_add]

theorem extract_infix (xs : List α) (i j : Nat) : xs.extract i j <:+: xs :=
  (List.take_prefix _ _).isInfix.trans (List.drop_suffix _ _).isInfix

theorem extract_prefix (xs : List α) (i : Nat) {j k : Nat} (hjk : j ≤ k) :
    xs.extract i j <+: xs.extract i k := by
  have hsub : j - i ≤ k - i := by omega
  exact List.take_prefix_take_left hsub

theorem infix_flatten {parts : List (List α)} {part : List α} (h : part ∈ parts) :
    part <:+: parts.flatten := by
  obtain ⟨before, after, rfl⟩ := List.append_of_mem h
  rw [List.flatten_append, List.flatten_cons, ← List.append_assoc]
  exact List.infix_append _ _ _

theorem extract_ne_nil {xs : List α} {i j : Nat} (hij : i < j) (hj : i < xs.length) :
    xs.extract i j ≠ [] := by
  intro h
  have hlen := congrArg List.length h
  simp only [List.extract, List.length_take, List.length_drop, List.length_nil] at hlen
  omega

theorem extract_head {xs : List α} {i j : Nat} {a : α} (hij : i < j) (ha : xs[i]? = some a) :
    (xs.extract i j).head? = some a := by
  have hpos : j - i ≠ 0 := by omega
  simp only [List.extract, List.head?_take, hpos, if_false, List.head?_drop, ha]

theorem length_extract (xs : List α) {i j : Nat} (hj : j ≤ xs.length) :
    (xs.extract i j).length = j - i := by
  show ((xs.drop i).take (j - i)).length = _
  rw [List.length_take, List.length_drop]
  omega

theorem extract_of_le (xs : List α) {i j : Nat} (h : j ≤ i) : xs.extract i j = [] := by
  show (xs.drop i).take (j - i) = []
  rw [Nat.sub_eq_zero_of_le h, List.take_zero]

theorem extract_extract (xs : List α) (i j k l : Nat) :
    (xs.extract i j).extract k l = xs.extract (i + k) (min (i + l) j) := by
  show (((xs.drop i).take (j - i)).drop k).take (l - k) =
    (xs.drop (i + k)).take (min (i + l) j - (i + k))
  rw [List.drop_take, List.take_take, List.drop_drop]
  congr 1
  omega

/-- What a window shows of a block, read in the block's own positions. -/
theorem extract_block (xs : List α) (s t p w : Nat) :
    xs.extract (max s p) (min t (p + w)) =
      (xs.extract p (p + w)).extract (min (s - p) w) (min (t - p) w) := by
  rw [extract_extract]
  by_cases hs : p + w ≤ s
  · rw [extract_of_le xs (by omega), extract_of_le xs (by omega)]
  by_cases ht : t ≤ p
  · rw [extract_of_le xs (by omega), extract_of_le xs (by omega)]
  · congr 1 <;> omega

/-! ## Where a run starts and ends -/

def Starts (start : α → τ) (run : List α) (t : τ) : Prop := IsLeast {s | ∃ a ∈ run, start a = s} t

def Ends (finish : α → τ) (run : List α) (t : τ) : Prop :=
  IsGreatest {s | ∃ a ∈ run, finish a = s} t

theorem ends_singleton (a : α) : Ends finish [a] (finish a) := by
  refine ⟨⟨a, List.mem_singleton_self a, rfl⟩, ?_⟩
  rintro s ⟨b, hb, rfl⟩
  rw [List.mem_singleton.mp hb]

theorem Ends.append {run : List α} {t : τ} (h : Ends finish run t) (a : α) :
    Ends finish (run ++ [a]) (max t (finish a)) := by
  obtain ⟨⟨b, hb, rfl⟩, hupper⟩ := h
  constructor
  · rcases le_total (finish a) (finish b) with hle | hle
    · exact ⟨b, List.mem_append_left _ hb, (max_eq_left hle).symm⟩
    · exact ⟨a, by simp, (max_eq_right hle).symm⟩
  · rintro s ⟨c, hc, rfl⟩
    rcases List.mem_append.mp hc with hc | hc
    · exact (hupper ⟨c, hc, rfl⟩).trans (le_max_left _ _)
    · rw [List.mem_singleton.mp hc]
      exact le_max_right _ _

theorem exists_ends {run : List α} (h : run ≠ []) : ∃ t, Ends finish run t := by
  induction run using List.reverseRecOn with
  | nil => exact absurd rfl h
  | append_singleton run a ih =>
    by_cases hrun : run = []
    · subst hrun
      exact ⟨_, ends_singleton a⟩
    · obtain ⟨t, ht⟩ := ih hrun
      exact ⟨_, ht.append a⟩

theorem Ends.le {run : List α} {t : τ} (h : Ends finish run t) {a : α} (ha : a ∈ run) :
    finish a ≤ t := h.2 ⟨a, ha, rfl⟩

theorem Ends.mono {run run' : List α} {t t' : τ} (h : Ends finish run t) (h' : Ends finish run' t')
    (hsub : run ⊆ run') : t ≤ t' := by
  obtain ⟨⟨a, ha, rfl⟩, -⟩ := h
  exact h'.le (hsub ha)

theorem Ends.unique {run : List α} {t t' : τ} (h : Ends finish run t) (h' : Ends finish run t') :
    t = t' := IsGreatest.unique h h'

/-- Items in the order of their starts. -/
def Ordered (start : α → τ) (xs : List α) : Prop := xs.Pairwise fun a b => start a ≤ start b

theorem starts_of_ordered {run : List α} {a : α} (h : Ordered start run) (hhead : run.head? = some a) :
    Starts start run (start a) := by
  obtain ⟨rest, rfl⟩ : ∃ rest, run = a :: rest := by
    cases run with
    | nil => cases hhead
    | cons b rest =>
      obtain rfl : b = a := by simpa using hhead
      exact ⟨rest, rfl⟩
  refine ⟨⟨a, by simp, rfl⟩, ?_⟩
  rintro s ⟨b, hb, rfl⟩
  rcases List.mem_cons.mp hb with rfl | hb
  · exact le_rfl
  · exact (List.pairwise_cons.mp h).1 b hb

/-! ## Cuts -/

def Before (start finish : α → τ) (xs ys : List α) : Prop := ∀ a ∈ xs, ∀ b ∈ ys, finish a ≤ start b

/-- A run that ends no later than the next item starts is before everything that follows. -/
theorem before_of_next {run rest : List α} {t : τ} (h : Ends finish run t)
    (hordered : Ordered start rest) (hnext : ∀ a, rest.head? = some a → t ≤ start a) :
    Before start finish run rest := by
  intro a ha b hb
  cases rest with
  | nil => cases hb
  | cons c rest =>
    have hc : t ≤ start c := hnext c rfl
    have hcb : start c ≤ start b := by
      rcases List.mem_cons.mp hb with rfl | hb
      · exact le_rfl
      · exact (List.pairwise_cons.mp hordered).1 b hb
    exact (h.le ha).trans (hc.trans hcb)

theorem part_at_cut {parts : List (List α)} {done rest : List α}
    (hparts : parts.Pairwise (Before start finish)) (hflat : parts.flatten = done ++ rest)
    (hrest : rest ≠ []) :
    ∃ part ∈ parts, ∃ before after later : List α, part = before ++ after ∧ after ≠ [] ∧
      rest = after ++ later ∧ Before start finish after later := by
  induction parts generalizing done with
  | nil =>
    have : rest = [] := by simpa using (List.append_eq_nil_iff.mp hflat.symm).2
    exact absurd this hrest
  | cons part parts ih =>
    obtain ⟨hfirst, hlater⟩ := List.pairwise_cons.mp hparts
    rw [List.flatten_cons] at hflat
    -- the cut lies inside the first part, or past it
    rcases List.append_eq_append_iff.mp hflat with ⟨more, hdone, hmore⟩ | ⟨after, hpart, hafter⟩
    · obtain ⟨found, hfound, h⟩ := ih hlater hmore
      exact ⟨found, List.mem_cons_of_mem _ hfound, h⟩
    · by_cases hnil : after = []
      · subst hnil
        have hmore : parts.flatten = [] ++ rest := by simpa using hafter.symm
        obtain ⟨found, hfound, h⟩ := ih hlater hmore
        exact ⟨found, List.mem_cons_of_mem _ hfound, h⟩
      · refine ⟨part, List.mem_cons_self, done, after, parts.flatten, hpart, hnil, hafter, ?_⟩
        intro a ha b hb
        obtain ⟨other, hother, hb⟩ := List.mem_flatten.mp hb
        exact hfirst other hother a (hpart ▸ List.mem_append_right _ ha) b hb

end Timeline
