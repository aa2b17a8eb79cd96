import Mathlib.Data.List.Infix

/-!
# Cutting a list at a pattern

* `cutAt` — what is before and after the first occurrence of a pattern.
* `splitPairs` — the parts of a list between pairs of one item, taken from the left.
* the segments of a list between single items are those of `List.splitOn`.

Principal results: `cutAt_eq_none` — a list is not cut where the pattern does not occur;
`splitPairs_run` — a run of the item ends a part, and an odd one leaves its last item to the next.
-/

namespace Cutting

variable {α : Type}

/-! ## Joined parts -/

theorem mem_intercalate {sep : List α} {parts : List (List α)} {c : α}
    (h : c ∈ sep.intercalate parts) : c ∈ sep ∨ ∃ part ∈ parts, c ∈ part := by
  induction parts with
  | nil => cases h
  | cons first rest ih =>
    cases rest with
    | nil =>
      rw [List.intercalate_singleton] at h
      exact .inr ⟨first, List.mem_cons_self, h⟩
    | cons next rest =>
      rw [List.intercalate_cons_cons, List.mem_append, List.mem_append] at h
      rcases h with (hfirst | hsep) | hrest
      · exact .inr ⟨first, List.mem_cons_self, hfirst⟩
      · exact .inl hsep
      · refine (ih hrest).imp id ?_
        rintro ⟨part, hpart, hc⟩
        exact ⟨part, List.mem_cons_of_mem _ hpart, hc⟩

theorem mem_intercalate_of_mem {sep part : List α} {parts : List (List α)} {c : α}
    (hpart : part ∈ parts) (hc : c ∈ part) : c ∈ sep.intercalate parts := by
  induction parts with
  | nil => cases hpart
  | cons first rest ih =>
    cases rest with
    | nil =>
      rw [List.mem_singleton] at hpart
      rwa [List.intercalate_singleton, ← hpart]
    | cons next rest =>
      rw [List.intercalate_cons_cons, List.mem_append, List.mem_append]
      rcases List.mem_cons.mp hpart with rfl | hpart
      · exact .inl (.inl hc)
      · exact .inr (ih hpart)

variable [DecidableEq α]

/-! ## The first occurrence -/

/-- What is before and after the first occurrence of a pattern. -/
def cutAt (pattern : List α) : List α → Option (List α × List α)
  | [] => if pattern = [] then some ([], []) else none
  | a :: rest =>
    if pattern.isPrefixOf (a :: rest) then some ([], (a :: rest).drop pattern.length)
    else (cutAt pattern rest).map fun cut => (a :: cut.1, cut.2)

theorem cutAt_eq_some {pattern as before after : List α} (h : cutAt pattern as = some (before, after)) :
    as = before ++ pattern ++ after := by
  induction as generalizing before with
  | nil =>
    rw [cutAt] at h
    split at h
    · rename_i hnil
      cases h
      rw [hnil]
      rfl
    · cases h
  | cons a rest ih =>
    rw [cutAt] at h
    split at h
    · rename_i hprefix
      obtain ⟨rfl, rfl⟩ := Prod.mk.inj (Option.some.inj h)
      obtain ⟨after, hafter⟩ := List.isPrefixOf_iff_prefix.mp hprefix
      rw [← hafter, List.nil_append, List.drop_left]
    · obtain ⟨cut, hcut, heq⟩ := Option.map_eq_some_iff.mp h
      obtain ⟨rfl, rfl⟩ := Prod.mk.inj heq
      rw [ih hcut]
      rfl

/-- A list is not cut where the pattern does not occur. -/
theorem cutAt_eq_none {pattern as : List α} : cutAt pattern as = none ↔ ¬ pattern <:+: as := by
  induction as with
  | nil =>
    rw [cutAt, List.infix_nil]
    split <;> simp_all
  | cons a rest ih =>
    rw [cutAt, List.infix_cons_iff]
    split
    · rename_i hprefix
      simp [List.isPrefixOf_iff_prefix.mp hprefix]
    · rename_i hprefix
      have hnot : ¬ pattern <+: a :: rest := fun h => hprefix (List.isPrefixOf_iff_prefix.mpr h)
      rw [Option.map_eq_none_iff, ih]
      simp [hnot]

/-- The first item of the pattern does not occur before it. -/
theorem cutAt_first {first : α} {more before after : List α} (h : first ∉ before) :
    cutAt (first :: more) (before ++ (first :: more) ++ after) = some (before, after) := by
  induction before with
  | nil =>
    have hprefix : (first :: more).isPrefixOf (first :: (more ++ after)) = true :=
      List.isPrefixOf_iff_prefix.mpr (List.prefix_append _ _)
    rw [List.nil_append]
    change cutAt (first :: more) (first :: (more ++ after)) = _
    rw [cutAt, if_pos hprefix]
    simp
  | cons a before ih =>
    rw [List.mem_cons, not_or] at h
    have hnot : ¬ (first :: more).isPrefixOf (a :: (before ++ (first :: more) ++ after)) = true := by
      intro hprefix
      obtain ⟨rest, hrest⟩ := List.isPrefixOf_iff_prefix.mp hprefix
      exact h.1 (List.cons.inj hrest).1
    change cutAt (first :: more) (a :: (before ++ (first :: more) ++ after)) = _
    rw [cutAt, if_neg hnot, ih h.2]
    rfl

/-! ## Segments between single items -/

theorem mem_of_mem_splitOn {a c : α} {as part : List α} (h : part ∈ as.splitOn a) (hc : c ∈ part) :
    c ∈ as := by
  have hmem : c ∈ [a].intercalate (as.splitOn a) := mem_intercalate_of_mem h hc
  rwa [List.intercalate_splitOn] at hmem

/-- No segment holds the item at which the list is cut. -/
theorem not_mem_of_mem_splitOn {a : α} {as part : List α} (h : part ∈ as.splitOn a) : a ∉ part := by
  induction as generalizing part with
  | nil =>
    rw [List.splitOn_nil, List.mem_singleton] at h
    rw [h]
    exact List.not_mem_nil
  | cons b as ih =>
    rw [List.splitOn_cons_eq_if_modifyHead] at h
    split at h
    · rcases List.mem_cons.mp h with rfl | h
      · exact List.not_mem_nil
      · exact ih h
    · rename_i hb
      obtain ⟨first, rest, hsplit⟩ := List.exists_cons_of_ne_nil (List.splitOn_ne_nil a as)
      have hfirst : a ∉ first := ih (by rw [hsplit]; exact List.mem_cons_self)
      rw [hsplit, List.modifyHead_cons] at h
      rcases List.mem_cons.mp h with rfl | h
      · rw [List.mem_cons, not_or]
        exact ⟨fun heq => hb (by simp [heq]), hfirst⟩
      · exact ih (by rw [hsplit]; exact List.mem_cons_of_mem _ h)

/-- Neighbours with nothing between them leave an empty segment. -/
theorem nil_mem_splitOn {a : α} {as : List α} (h : [a, a] <:+: as) : [] ∈ as.splitOn a := by
  obtain ⟨before, after, rfl⟩ := h
  have hcut : (before ++ [a, a] ++ after).splitOn a =
      before.splitOn a ++ ([] :: after.splitOn a) := by
    rw [List.append_assoc]
    change (before ++ a :: (a :: after)).splitOn a = _
    rw [List.splitOn_append_cons_self]
    congr 1
    exact List.splitOn_append_cons_self [] after
  rw [hcut]
  exact List.mem_append_right _ List.mem_cons_self

/-! ## Pairs of one item -/

variable (x : α)

/-- An item in front of the first part. -/
def pushPart (a : α) : List (List α) → List (List α)
  | [] => [[a]]
  | part :: parts => (a :: part) :: parts

/-- The parts between pairs of an item. -/
def splitPairs : List α → List (List α)
  | [] => [[]]
  | [a] => [[a]]
  | a :: b :: rest =>
    if a = x ∧ b = x then [] :: splitPairs rest else pushPart a (splitPairs (b :: rest))

/-- No two neighbours are the item, and the last is not. -/
def Separated (as : List α) : Prop := ¬ [x, x] <:+: as ∧ as.getLast? ≠ some x

variable {x}

theorem splitPairs_pair (rest : List α) : splitPairs x (x :: x :: rest) = [] :: splitPairs x rest := by
  rw [splitPairs, if_pos ⟨rfl, rfl⟩]

theorem splitPairs_cons {a : α} {rest : List α} (h : a = x → rest.head? ≠ some x) :
    splitPairs x (a :: rest) = pushPart a (splitPairs x rest) := by
  cases rest with
  | nil => rfl
  | cons b rest =>
    have hnot : ¬ (a = x ∧ b = x) := fun hboth => h hboth.1 (by rw [List.head?_cons, hboth.2])
    rw [splitPairs, if_neg hnot]

/-- A separated list in front of a pair is a part. -/
theorem splitPairs_part {as : List α} (h : Separated x as) (rest : List α) :
    splitPairs x (as ++ x :: x :: rest) = as :: splitPairs x rest := by
  induction as with
  | nil => exact splitPairs_pair rest
  | cons a as ih =>
    obtain ⟨hpair, hlast⟩ := h
    have hrest : Separated x as := by
      refine ⟨fun hin => hpair (hin.trans (List.suffix_cons a as).isInfix), ?_⟩
      cases as with
      | nil => simp
      | cons b as => rwa [List.getLast?_cons_cons] at hlast
    have hnext : a = x → (as ++ x :: x :: rest).head? ≠ some x := by
      rintro rfl hhead
      cases as with
      | nil => exact hlast rfl
      | cons b as =>
        obtain rfl := Option.some.inj hhead
        exact hpair ⟨[], as, rfl⟩
    rw [List.cons_append, splitPairs_cons hnext, ih hrest]
    rfl

/-- A separated list is its only part. -/
theorem splitPairs_alone {as : List α} (h : ¬ [x, x] <:+: as) : splitPairs x as = [as] := by
  induction as with
  | nil => rfl
  | cons a as ih =>
    have hnext : a = x → as.head? ≠ some x := by
      rintro rfl hhead
      obtain ⟨rest, rfl⟩ : ∃ rest, as = a :: rest := by
        cases as with
        | nil => cases hhead
        | cons b rest => exact ⟨rest, by rw [Option.some.inj hhead]⟩
      exact h ⟨[], rest, rfl⟩
    rw [splitPairs_cons hnext, ih fun hin => h (hin.trans (List.suffix_cons a as).isInfix)]
    rfl

/-- An even run of the item holds empty parts only. -/
theorem splitPairs_even (n : Nat) (rest : List α) :
    splitPairs x (List.replicate (2 * n) x ++ rest) = List.replicate n [] ++ splitPairs x rest := by
  induction n with
  | zero => rfl
  | succ n ih =>
    have hsucc : 2 * (n + 1) = 2 * n + 1 + 1 := by omega
    rw [hsucc, List.replicate_succ, List.replicate_succ, List.cons_append, List.cons_append,
      splitPairs_pair, ih, List.replicate_succ, List.cons_append]

/-- A run of at least two ends a part, and an odd run leaves its last item to the next part. -/
theorem splitPairs_run {as : List α} (h : Separated x as) (n : Nat) (rest : List α) :
    splitPairs x (as ++ List.replicate (n + 2) x ++ rest) =
      as :: (List.replicate (n / 2) [] ++
        splitPairs x (List.replicate (n % 2) x ++ rest)) := by
  have hsplit : n = 2 * (n / 2) + n % 2 := (Nat.div_add_mod n 2).symm
  have hrun : as ++ List.replicate (n + 2) x ++ rest =
      as ++ x :: x :: (List.replicate (2 * (n / 2)) x ++ (List.replicate (n % 2) x ++ rest)) := by
    rw [List.replicate_succ, List.replicate_succ, List.append_assoc, ← List.append_assoc
      (List.replicate (2 * (n / 2)) x), ← List.replicate_add, ← hsplit]
    rfl
  rw [hrun, splitPairs_part h, splitPairs_even]

end Cutting
