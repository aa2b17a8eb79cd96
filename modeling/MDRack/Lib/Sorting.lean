import MDRack.Lib.Checks
import Mathlib.Data.List.Sort
import Mathlib.Data.Prod.Lex
import Mathlib.Data.String.Basic

/-!
# Rows in the order of a key

Rows sorted by a key with values in a linear order.  Where no two rows have the same key, the
sorted list depends on the rows only, not on the order they were given in.

Principal results: `sortOn_congr` — permuted rows with different keys sort to the same list;
`sortOn_map`, `sortOn_filter`, `mapAll_sortOn` — sorting commutes with encoding, selection and
decoding; `take_sortOn_iff` — the first sorted rows of two arrangements agree iff each class of
equal keys is arranged alike as far as it is taken; `sortOn_ties` — breaking ties by position sorts
as the stable sort does.
-/

namespace Sorting

variable {α β κ : Type} [LinearOrder κ] {key : α → κ} {rows rows' : List α}

def InOrder (key : α → κ) (rows : List α) : Prop := rows.Pairwise fun a b => key a ≤ key b

instance (key : α → κ) (rows : List α) : Decidable (InOrder key rows) :=
  inferInstanceAs (Decidable (rows.Pairwise _))

def sortOn (key : α → κ) (rows : List α) : List α := rows.insertionSort fun a b => key a ≤ key b

theorem sortOn_perm (key : α → κ) (rows : List α) : (sortOn key rows).Perm rows :=
  List.perm_insertionSort _ rows

@[simp] theorem mem_sortOn {a : α} : a ∈ sortOn key rows ↔ a ∈ rows :=
  (sortOn_perm key rows).mem_iff

theorem sortOn_inOrder (key : α → κ) (rows : List α) : InOrder key (sortOn key rows) := by
  have : Std.Total fun a b : α => key a ≤ key b := ⟨fun a b => le_total (key a) (key b)⟩
  have : IsTrans α fun a b => key a ≤ key b := ⟨fun _ _ _ => le_trans⟩
  exact List.pairwise_insertionSort _ rows

theorem InOrder.sortOn (h : InOrder key rows) : sortOn key rows = rows :=
  List.Pairwise.insertionSort_eq h

theorem InOrder.filter (h : InOrder key rows) (p : α → Bool) : InOrder key (rows.filter p) :=
  List.Pairwise.filter p h

/-- Two orderings of the same rows by a unique key are the same list. -/
theorem InOrder.eq_of_perm (h : InOrder key rows) (h' : InOrder key rows')
    (hperm : rows.Perm rows') (hkeys : (rows.map key).Nodup) : rows = rows' := by
  refine hperm.eq_of_pairwise (fun a b ha hb hab hba => ?_) h h'
  exact List.inj_on_of_nodup_map hkeys ha (hperm.mem_iff.mpr hb) (le_antisymm hab hba)

theorem sortOn_congr (hperm : rows.Perm rows') (hkeys : (rows.map key).Nodup) :
    sortOn key rows = sortOn key rows' := by
  refine (sortOn_inOrder key rows).eq_of_perm (sortOn_inOrder key rows') ?_ ?_
  · exact ((sortOn_perm key rows).trans hperm).trans (sortOn_perm key rows').symm
  · exact ((sortOn_perm key rows).map key).nodup_iff.mpr hkeys

/-- Rows are in order iff they are the sorted ones. -/
theorem inOrder_iff_sortOn : InOrder key rows ↔ sortOn key rows = rows := by
  constructor
  · exact InOrder.sortOn
  · intro h
    rw [← h]
    exact sortOn_inOrder key rows

theorem sortOn_map {key : β → κ} (f : α → β) (rows : List α) :
    sortOn key (rows.map f) = (sortOn (fun a => key (f a)) rows).map f :=
  (List.map_insertionSort _ _ f rows fun _ _ _ _ => Iff.rfl).symm

theorem sortOn_filter (p : α → Bool) (hkeys : (rows.map key).Nodup) :
    sortOn key (rows.filter p) = (sortOn key rows).filter p := by
  refine (sortOn_inOrder key _).eq_of_perm ((sortOn_inOrder key rows).filter p) ?_ ?_
  · exact (sortOn_perm key _).trans ((sortOn_perm key rows).filter p).symm
  · refine ((sortOn_perm key _).map key).nodup_iff.mpr ?_
    exact hkeys.sublist (List.filter_sublist.map key)

theorem sortOn_sortOn (key : α → κ) (rows : List α) : sortOn key (sortOn key rows) = sortOn key rows :=
  (sortOn_inOrder key rows).sortOn

open Checks in
/-- Decoding sorted rows gives the sorted items. -/
theorem mapAll_sortOn {ε : Type} {f : α → Except ε β} {itemKey : β → κ} {items : List β}
    (h : mapAll f rows = .ok items) (hkey : ∀ a b, f a = .ok b → itemKey b = key a)
    (hkeys : (items.map itemKey).Nodup) : mapAll f (sortOn key rows) = .ok (sortOn itemKey items) := by
  obtain ⟨sorted, hsorted, hperm⟩ := mapAll_perm (sortOn_perm key rows).symm h
  have hmap : sorted.map itemKey = (sortOn key rows).map key := mapAll_keys hsorted hkey
  have horder : InOrder itemKey sorted := by
    have hrows := sortOn_inOrder key rows
    rw [InOrder, ← List.pairwise_map] at hrows ⊢
    rw [hmap]
    exact hrows
  rw [hsorted, horder.eq_of_perm (sortOn_inOrder itemKey items)
    (hperm.trans (sortOn_perm itemKey items).symm) ((hperm.map itemKey).nodup_iff.mpr hkeys)]

/-! ## Rows with one key -/

theorem filter_orderedInsert (s : κ) (a : α) (h : InOrder key rows) :
    (rows.orderedInsert (fun a b => key a ≤ key b) a).filter (fun b => key b = s) =
      (a :: rows).filter fun b => key b = s := by
  induction rows with
  | nil => rfl
  | cons b rest ih =>
    rw [List.orderedInsert_cons]
    split
    case isTrue => rfl
    case isFalse hlt =>
      have hlt : key b < key a := lt_of_not_ge hlt
      rw [List.filter_cons, ih (List.pairwise_cons.mp h).2]
      by_cases ha : key a = s
      · -- what stands before `a` has a smaller key
        have hb : ¬ key b = s := fun hb => (ne_of_lt hlt) (hb.trans ha.symm)
        simp [ha, hb]
      · simp [List.filter_cons, ha]

/-- Sorting is stable. -/
theorem sortOn_stable (s : κ) (rows : List α) :
    (sortOn key rows).filter (fun b => key b = s) = rows.filter fun b => key b = s := by
  induction rows with
  | nil => rfl
  | cons a rest ih =>
    have h := filter_orderedInsert s a (sortOn_inOrder key rest)
    rw [show sortOn key (a :: rest) =
      (sortOn key rest).orderedInsert (fun a b => key a ≤ key b) a from rfl, h]
    simp only [List.filter_cons, ih]

/-- An order that breaks ties by position sorts as the stable sort does. -/
theorem sortOn_ties {τ : Type} [LinearOrder τ] {tie : α → τ}
    (h : rows.Pairwise fun a b => tie a < tie b) :
    sortOn (fun a => toLex (key a, tie a)) rows = sortOn key rows := by
  have horder : InOrder (fun a => toLex (key a, tie a)) (sortOn key rows) := by
    rw [InOrder, List.pairwise_iff_forall_sublist]
    intro a b hab
    have hle : key a ≤ key b :=
      List.pairwise_iff_forall_sublist.mp (sortOn_inOrder key rows) hab
    rcases hle.lt_or_eq with hlt | heq
    · exact (Prod.Lex.toLex_le_toLex).mpr (.inl hlt)
    · -- both stand in one class of equal keys, which keeps its order
      have hclass : [a, b].Sublist (rows.filter fun c => key c = key b) := by
        rw [← sortOn_stable]
        have hfiltered := hab.filter fun c => key c = key b
        simpa [heq] using hfiltered
      have htie : tie a < tie b :=
        List.pairwise_iff_forall_sublist.mp (h.sublist List.filter_sublist) hclass
      exact (Prod.Lex.toLex_le_toLex).mpr (.inr ⟨heq, htie.le⟩)
  refine (sortOn_inOrder _ rows).eq_of_perm horder ?_ ?_
  · exact (sortOn_perm _ rows).trans (sortOn_perm key rows).symm
  · refine ((sortOn_perm _ rows).map _).nodup_iff.mpr ?_
    rw [List.Nodup, List.pairwise_map]
    exact h.imp fun hlt heq => hlt.ne (Prod.ext_iff.mp (toLex_inj.mp heq)).2

/-- Rows in order fall into those before a key, those with it and those after it. -/
theorem InOrder.split (h : InOrder key rows) (s : κ) :
    rows = rows.filter (fun b => key b < s) ++ (rows.filter (fun b => key b = s) ++
      rows.filter fun b => s < key b) := by
  induction rows with
  | nil => rfl
  | cons a rest ih =>
    obtain ⟨hfirst, hrest⟩ := List.pairwise_cons.mp h
    have ih := ih hrest
    rcases lt_trichotomy (key a) s with hlt | heq | hgt
    · rw [List.filter_cons_of_pos (by simpa using hlt),
        List.filter_cons_of_neg (by simpa using ne_of_lt hlt),
        List.filter_cons_of_neg (by simpa using le_of_lt hlt), List.cons_append, ← ih]
    · have hnone : rest.filter (fun b => key b < s) = [] := by
        rw [List.filter_eq_nil_iff]
        intro b hb
        simpa using heq ▸ hfirst b hb
      rw [hnone, List.nil_append] at ih
      rw [List.filter_cons_of_neg (by simp [heq]), List.filter_cons_of_pos (by simpa using heq),
        List.filter_cons_of_neg (by simp [heq]), hnone, List.nil_append, List.cons_append, ← ih]
    · have hnone : rest.filter (fun b => key b < s) = [] := by
        rw [List.filter_eq_nil_iff]
        intro b hb
        simpa using (le_of_lt hgt).trans (hfirst b hb)
      have hsame : rest.filter (fun b => key b = s) = [] := by
        rw [List.filter_eq_nil_iff]
        intro b hb
        simpa using ne_of_gt (lt_of_lt_of_le hgt (hfirst b hb))
      rw [hnone, hsame, List.nil_append, List.nil_append] at ih
      rw [List.filter_cons_of_neg (by simpa using le_of_lt hgt),
        List.filter_cons_of_neg (by simpa using ne_of_gt hgt),
        List.filter_cons_of_pos (by simpa using hgt), hnone, hsame, List.nil_append,
        List.nil_append, ← ih]

/-- How many rows come before a key. -/
def below (key : α → κ) (rows : List α) (s : κ) : Nat := (rows.filter fun b => key b < s).length

/-- The sorted rows from a key on, as far as the class of that key reaches. -/
theorem drop_below_sortOn (key : α → κ) (s : κ) (rows : List α) :
    ∃ later, (sortOn key rows).drop (below key rows s) =
      rows.filter (fun b => key b = s) ++ later := by
  refine ⟨(sortOn key rows).filter fun b => s < key b, ?_⟩
  have hlen : below key rows s = ((sortOn key rows).filter fun b => key b < s).length :=
    (((sortOn_perm key rows).filter _).length_eq).symm
  have hsplit := (sortOn_inOrder key rows).split s
  calc (sortOn key rows).drop (below key rows s)
      = ((sortOn key rows).filter (fun b => key b < s) ++
          ((sortOn key rows).filter (fun b => key b = s) ++
            (sortOn key rows).filter fun b => s < key b)).drop (below key rows s) := by
        rw [← hsplit]
    _ = _ := by rw [hlen, List.drop_left, sortOn_stable]

theorem below_congr (h : rows.Perm rows') (s : κ) : below key rows s = below key rows' s :=
  (h.filter _).length_eq

/-- A sorted row stands within the class of its key. -/
theorem below_le_index {i : Nat} {a : α} (h : (sortOn key rows)[i]? = some a) :
    below key rows (key a) ≤ i ∧
      i < below key rows (key a) + (rows.filter fun b => key b = key a).length := by
  have hsplit := (sortOn_inOrder key rows).split (key a)
  have hbelow : below key rows (key a) =
      ((sortOn key rows).filter fun b => key b < key a).length :=
    (((sortOn_perm key rows).filter _).length_eq).symm
  rw [hbelow, ← sortOn_stable]
  rw [hsplit] at h
  constructor
  · apply Nat.le_of_not_lt
    intro hlt
    rw [List.getElem?_append_left hlt] at h
    have hmem := (List.mem_filter.mp (List.mem_of_getElem? h)).2
    simp at hmem
  · apply Nat.lt_of_not_le
    intro hle
    rw [List.getElem?_append_right (by omega), List.getElem?_append_right (by omega)] at h
    have hmem := (List.mem_filter.mp (List.mem_of_getElem? h)).2
    simp at hmem

/-- The first `n` sorted rows are the same iff every class of equal keys starts with the same rows,
as far as it is taken. -/
theorem take_sortOn_iff (h : rows.Perm rows') (n : Nat) :
    (sortOn key rows).take n = (sortOn key rows').take n ↔
      ∀ s, (rows.filter fun b => key b = s).take (n - below key rows s) =
        (rows'.filter fun b => key b = s).take (n - below key rows s) := by
  have hclass (s : κ) : (rows.filter fun b => key b = s).length =
      (rows'.filter fun b => key b = s).length := (h.filter _).length_eq
  constructor
  · intro heq s
    obtain ⟨later, hdrop⟩ := drop_below_sortOn key s rows
    obtain ⟨later', hdrop'⟩ := drop_below_sortOn key s rows'
    have htake (xs ys : List α) (k : Nat) : ((xs ++ ys).take k).take xs.length = xs.take k := by
      rw [List.take_take, Nat.min_comm, ← List.take_take, List.take_left]
    have hcut := congrArg (List.drop (below key rows s)) heq
    rw [List.drop_take, List.drop_take, hdrop, below_congr h s, hdrop', ← below_congr h s] at hcut
    have hcut := congrArg (List.take (rows.filter fun b => key b = s).length) hcut
    rw [htake, hclass s, htake] at hcut
    exact hcut
  · intro hclasses
    have hlength : (sortOn key rows).length = (sortOn key rows').length :=
      ((sortOn_perm key rows).trans (h.trans (sortOn_perm key rows').symm)).length_eq
    apply List.ext_getElem?
    intro i
    rw [List.getElem?_take, List.getElem?_take]
    split
    case isFalse => rfl
    case isTrue hi =>
      cases hrow : (sortOn key rows)[i]? with
      | none =>
        rw [List.getElem?_eq_none_iff] at hrow
        exact (List.getElem?_eq_none_iff.mpr (hlength ▸ hrow)).symm
      | some a =>
        obtain ⟨hle, hlt⟩ := below_le_index hrow
        obtain ⟨later, hdrop⟩ := drop_below_sortOn key (key a) rows
        obtain ⟨later', hdrop'⟩ := drop_below_sortOn key (key a) rows'
        -- both rows stand at the same place of the class of this key
        have hplace : i - below key rows (key a) < n - below key rows (key a) := by omega
        have hindex : i = below key rows (key a) + (i - below key rows (key a)) := by omega
        have hleft : (sortOn key rows)[i]? =
            (rows.filter fun b => key b = key a)[i - below key rows (key a)]? := by
          rw [hindex, ← List.getElem?_drop, hdrop, Nat.add_sub_cancel_left,
            List.getElem?_append_left (by omega)]
        have hright : (sortOn key rows')[i]? =
            (rows'.filter fun b => key b = key a)[i - below key rows (key a)]? := by
          have hlt' := hclass (key a)
          rw [hindex, below_congr h, ← List.getElem?_drop, hdrop', ← below_congr h,
            Nat.add_sub_cancel_left, List.getElem?_append_left (by omega)]
        have hsame := congrArg (fun xs => xs[i - below key rows (key a)]?) (hclasses (key a))
        simp only [List.getElem?_take, hplace, if_true] at hsame
        rw [← hrow, hleft, hright, hsame]

end Sorting
