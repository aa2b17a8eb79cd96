import Mathlib.Algebra.GroupWithZero.Nat
import Mathlib.Data.List.Nodup
import Mathlib.Algebra.BigOperators.Group.List.Basic

/-!
# Dictionaries in the order of last use

A dictionary is the list of its entries, the one not used for longest first.

* `find`, `without`, `store` — look up, take out, put at the end.
* `shed` — drop entries from the front until the rest fits.
* `lastUse` — the position of the last use of a key in a log of uses.

Principal results: `shed_eq_drop` — `shed` drops as few entries as possible; `UsedInOrder.store` —
the order is that of last use.
-/

namespace Recency

variable {κ α : Type} [DecidableEq κ] {k : κ} {v : α} {es : List (κ × α)}

def find (k : κ) (es : List (κ × α)) : Option α := (es.find? fun e => e.1 = k).map (·.2)

def without (k : κ) (es : List (κ × α)) : List (κ × α) := es.filter fun e => e.1 ≠ k

def store (k : κ) (v : α) (es : List (κ × α)) : List (κ × α) := without k es ++ [(k, v)]

theorem mem_of_find (h : find k es = some v) : (k, v) ∈ es := by
  obtain ⟨e, he, rfl⟩ := Option.map_eq_some_iff.mp h
  obtain rfl : e.1 = k := by simpa using List.find?_some he
  exact List.mem_of_find?_eq_some he

theorem not_mem_of_find (h : find k es = none) {e : κ × α} (he : e ∈ es) : e.1 ≠ k := by
  have hnone := List.find?_eq_none.mp (Option.map_eq_none_iff.mp h) e he
  simpa using hnone

theorem mem_without {e : κ × α} : e ∈ without k es ↔ e ∈ es ∧ e.1 ≠ k := by
  simp [without]

theorem mem_store {e : κ × α} : e ∈ store k v es ↔ (e ∈ es ∧ e.1 ≠ k) ∨ e = (k, v) := by
  rw [store, List.mem_append, mem_without, List.mem_singleton]

theorem without_eq_self (h : find k es = none) : without k es = es := by
  apply List.filter_eq_self.mpr
  intro e he
  simpa using not_mem_of_find h he

/-! ## Sizes -/

section Sizes

variable (size : α → Nat)

def total (es : List (κ × α)) : Nat := (es.map fun e => size e.2).sum

omit [DecidableEq κ] in
theorem total_cons (e : κ × α) (es : List (κ × α)) : total size (e :: es) = size e.2 + total size es :=
  List.sum_cons

omit [DecidableEq κ] in
theorem total_append (xs ys : List (κ × α)) : total size (xs ++ ys) = total size xs + total size ys := by
  rw [total, List.map_append, List.sum_append]
  rfl

/-- Where keys are distinct, taking an entry out takes its size off. -/
theorem total_without (hnodup : (es.map (·.1)).Nodup) :
    total size (without k es) + ((find k es).map size).getD 0 = total size es := by
  induction es with
  | nil => rfl
  | cons e rest ih =>
    rw [List.map_cons, List.nodup_cons] at hnodup
    by_cases hk : e.1 = k
    · have hrest : find k rest = none := by
        apply Option.map_eq_none_iff.mpr
        apply List.find?_eq_none.mpr
        intro e' he' heq
        have hsame : e'.1 = e.1 := (of_decide_eq_true heq).trans hk.symm
        exact hnodup.1 (hsame ▸ List.mem_map_of_mem he')
      have hwithout : without k (e :: rest) = rest := by
        rw [without, List.filter_cons_of_neg (by simpa using hk)]
        exact without_eq_self hrest
      rw [hwithout, find, List.find?_cons_of_pos (by simpa using hk), total_cons]
      exact Nat.add_comm _ _
    · have hwithout : without k (e :: rest) = e :: without k rest := by
        rw [without, List.filter_cons_of_pos (by simpa using hk)]
        rfl
      have hfind : find k (e :: rest) = find k rest := by
        rw [find, List.find?_cons_of_neg (by simpa using hk)]
        rfl
      rw [hwithout, hfind, total_cons, total_cons, Nat.add_assoc, ih hnodup.2]

end Sizes

theorem nodup_without (h : (es.map (·.1)).Nodup) : ((without k es).map (·.1)).Nodup :=
  h.sublist (List.filter_sublist.map _)

theorem nodup_store (h : (es.map (·.1)).Nodup) : ((store k v es).map (·.1)).Nodup := by
  rw [store, List.map_append, List.nodup_append]
  refine ⟨nodup_without h, List.nodup_singleton _, ?_⟩
  intro a ha b hb
  obtain ⟨e, he, rfl⟩ := List.mem_map.mp ha
  rw [List.mem_singleton.mp hb]
  exact (mem_without.mp he).2

/-! ## Shedding -/

section Shedding

variable {β : Type} (fits : List β → Prop) [DecidablePred fits]

/-- What is left once entries are dropped from the front until the rest fits. -/
def shed : List β → List β
  | [] => []
  | e :: rest => if fits (e :: rest) then e :: rest else shed rest

/-- As few entries as possible are dropped. -/
theorem shed_eq_drop (xs : List β) :
    ∃ n ≤ xs.length, shed fits xs = xs.drop n ∧ ∀ m < n, ¬ fits (xs.drop m) := by
  induction xs with
  | nil => exact ⟨0, Nat.le_refl 0, rfl, fun m hm => absurd hm (Nat.not_lt_zero m)⟩
  | cons e rest ih =>
    rw [shed]
    split
    · exact ⟨0, Nat.zero_le _, rfl, fun m hm => absurd hm (Nat.not_lt_zero m)⟩
    · rename_i hfull
      obtain ⟨n, hn, heq, hleast⟩ := ih
      refine ⟨n + 1, Nat.succ_le_succ hn, heq, ?_⟩
      intro m hm
      cases m with
      | zero => exact hfull
      | succ m => exact hleast m (Nat.lt_of_succ_lt_succ hm)

variable {fits}

theorem fits_shed (hnil : fits []) (xs : List β) : fits (shed fits xs) := by
  induction xs with
  | nil => exact hnil
  | cons e rest ih =>
    rw [shed]
    split
    · assumption
    · exact ih

theorem shed_sublist (xs : List β) : (shed fits xs).Sublist xs := by
  obtain ⟨n, -, heq, -⟩ := shed_eq_drop fits xs
  rw [heq]
  exact List.drop_sublist n xs

end Shedding

/-! ## Last uses -/

/-- The position of the last use of a key in a log, counted from one; zero where there is none. -/
def lastUse (k : κ) (log : List (Option κ)) : Nat := log.length - log.reverse.idxOf (some k)

theorem lastUse_le (k : κ) (log : List (Option κ)) : lastUse k log ≤ log.length := Nat.sub_le _ _

theorem lastUse_self (k : κ) (log : List (Option κ)) : lastUse k (log ++ [some k]) = log.length + 1 := by
  simp [lastUse]

theorem lastUse_other {x : Option κ} (h : x ≠ some k) (log : List (Option κ)) :
    lastUse k (log ++ [x]) = lastUse k log := by
  rw [lastUse, List.reverse_append, List.reverse_singleton, List.singleton_append,
    List.idxOf_cons_ne _ h, List.length_append, List.length_singleton, Nat.add_sub_add_right]
  rfl

/-- The entries stand in the order of their last uses. -/
def UsedInOrder (log : List (Option κ)) (es : List (κ × α)) : Prop :=
  es.Pairwise fun a b => lastUse a.1 log < lastUse b.1 log

variable {log : List (Option κ)}

theorem UsedInOrder.sublist {xs : List (κ × α)} (h : UsedInOrder log es) (hsub : xs.Sublist es) :
    UsedInOrder log xs := List.Pairwise.sublist hsub h

/-- A use of another key, or of none, keeps the order. -/
theorem UsedInOrder.other {x : Option κ} (h : UsedInOrder log es) (hx : ∀ e ∈ es, x ≠ some e.1) :
    UsedInOrder (log ++ [x]) es := by
  apply List.Pairwise.imp_of_mem _ h
  intro a b ha hb hlt
  rw [lastUse_other (hx a ha), lastUse_other (hx b hb)]
  exact hlt

/-- The key that is used goes to the end. -/
theorem UsedInOrder.store (h : UsedInOrder log es) (v : α) :
    UsedInOrder (log ++ [some k]) (store k v es) := by
  have hothers : UsedInOrder (log ++ [some k]) (without k es) := by
    apply (h.sublist List.filter_sublist).other
    intro e he heq
    exact (mem_without.mp he).2 (Option.some.inj heq).symm
  apply List.pairwise_append.mpr
  refine ⟨hothers, List.pairwise_singleton _ _, ?_⟩
  intro a ha b hb
  have hne : some k ≠ some a.1 := fun heq => (mem_without.mp ha).2 (Option.some.inj heq).symm
  rw [List.mem_singleton.mp hb, lastUse_self, lastUse_other hne]
  exact Nat.lt_succ_of_le (lastUse_le _ _)

end Recency
