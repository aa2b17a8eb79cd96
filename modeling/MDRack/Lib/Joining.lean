import Mathlib.Data.List.ReduceOption
import Mathlib.Data.List.Forall2

/-!
# Joining neighbours

A partial operation joins two neighbours of a list into one item.  A list may also hold gaps, which
nothing is joined across.

* `Made` — an item, and the items that it is joined from.
* `Joins` — a list with gaps, and the items that are left of it.
* `Joins.groups` — what is left is joined from stretches of the list, each item once and in order.
* `having_congr` — when two lists of groups have the same groups with an item of a key.
-/

namespace MDRack.Joining

variable {α β : Type} {join : α → α → Option α}

/-- The items that an item is joined from, from the left to the right. -/
inductive Made (join : α → α → Option α) : List α → α → Prop
  | one (a : α) : Made join [a] a
  | more {parts : List α} {a b c : α} :
      Made join parts a → join a b = some c → Made join (parts ++ [b]) c

inductive Joins (join : α → α → Option α) : List (Option α) → List α → Prop
  | nil : Joins join [] []
  | gap {items : List (Option α)} {left : List α} :
      Joins join items left → Joins join (none :: items) left
  | item {parts : List α} {a : α} {items : List (Option α)} {left : List α} :
      Made join parts a → Joins join items left → Joins join (parts.map some ++ items) (a :: left)

/-! ## One item -/

theorem Made.ne_nil {parts : List α} {a : α} (h : Made join parts a) : parts ≠ [] := by
  cases h <;> simp

theorem Made.eq_of_singleton {part a : α} (h : Made join [part] a) : a = part := by
  generalize hparts : [part] = parts at h
  cases h with
  | one => exact (List.singleton_inj.mp hparts).symm
  | more hmade hjoin =>
    obtain ⟨hnil, -⟩ := List.append_eq_singleton_iff.mp hparts.symm |>.resolve_right
      fun h => absurd h.2 (by simp)
    exact absurd hnil hmade.ne_nil

/-- An image that joining appends is appended over all parts. -/
theorem Made.flatMap {f : α → List β} (hf : ∀ a b c, join a b = some c → f c = f a ++ f b)
    {parts : List α} {a : α} (h : Made join parts a) : f a = parts.flatMap f := by
  induction h with
  | one => simp
  | more _ hjoin ih => rw [hf _ _ _ hjoin, ih, List.flatMap_append, List.flatMap_singleton]

theorem intercalate_append (sep : List β) {xs ys : List (List β)} (hxs : xs ≠ []) (hys : ys ≠ []) :
    sep.intercalate (xs ++ ys) = sep.intercalate xs ++ sep ++ sep.intercalate ys := by
  induction xs with
  | nil => exact absurd rfl hxs
  | cons x xs ih =>
    cases xs with
    | nil => rw [List.singleton_append, List.intercalate_cons_of_ne_nil hys,
        List.intercalate_singleton]
    | cons next xs =>
      rw [List.cons_append, List.intercalate_cons_of_ne_nil (by simp), ih (by simp),
        List.intercalate_cons_cons]
      simp only [List.append_assoc]

theorem Made.intercalate {sep : List β} {f : α → List β}
    (hf : ∀ a b c, join a b = some c → f c = f a ++ sep ++ f b)
    {parts : List α} {a : α} (h : Made join parts a) : f a = sep.intercalate (parts.map f) := by
  induction h with
  | one => simp
  | more hmade hjoin ih =>
    rw [hf _ _ _ hjoin, ih, List.map_append, intercalate_append sep]
    · simp
    · simpa using hmade.ne_nil
    · simp

/-- All parts of a joined item are alike, where only alike items are joined. -/
theorem Made.alike {R : α → α → Prop} (hR : ∀ a b c, join a b = some c → R a c ∧ R b c)
    (htrans : ∀ a b c, R a b → R b c → R a c) {parts : List α} {a : α} (h : Made join parts a)
    (hmany : 2 ≤ parts.length) : ∀ part ∈ parts, R part a := by
  induction h with
  | one => simp at hmany
  | @more parts a b c hmade hjoin ih =>
    obtain ⟨hleft, hright⟩ := hR _ _ _ hjoin
    intro part hpart
    rcases List.mem_append.mp hpart with hpart | hpart
    · by_cases hlong : 2 ≤ parts.length
      · exact htrans _ _ _ (ih hlong part hpart) hleft
      · have hone : parts.length = 1 := by
          have hpos := List.length_pos_iff.mpr hmade.ne_nil
          omega
        obtain ⟨only, rfl⟩ := List.length_eq_one_iff.mp hone
        rw [List.mem_singleton.mp hpart, ← hmade.eq_of_singleton]
        exact hleft
    · rwa [List.mem_singleton.mp hpart]

theorem Made.of_joined {P : α → Prop} (hP : ∀ a b c, join a b = some c → P c)
    {parts : List α} {a : α} (h : Made join parts a) (hmany : 2 ≤ parts.length) : P a := by
  cases h with
  | one => simp at hmany
  | more _ hjoin => exact hP _ _ _ hjoin

/-! ## The whole list -/

theorem Joins.groups {items : List (Option α)} {left : List α} (h : Joins join items left) :
    ∃ groups : List (List α), groups.flatten = items.reduceOption ∧
      List.Forall₂ (Made join) groups left := by
  induction h with
  | nil => exact ⟨[], rfl, .nil⟩
  | gap _ ih =>
    obtain ⟨groups, hflat, hmade⟩ := ih
    exact ⟨groups, by rw [hflat, List.reduceOption_cons_of_none], hmade⟩
  | @item parts a items left hone _ ih =>
    obtain ⟨groups, hflat, hmade⟩ := ih
    refine ⟨parts :: groups, ?_, .cons hone hmade⟩
    rw [List.flatten_cons, hflat, List.reduceOption_append]
    simp [List.reduceOption]

theorem flatMap_of_groups {f : α → List β} (hf : ∀ a b c, join a b = some c → f c = f a ++ f b)
    {groups : List (List α)} {left : List α} (h : List.Forall₂ (Made join) groups left) :
    left.flatMap f = groups.flatten.flatMap f := by
  induction h with
  | nil => rfl
  | cons hmade _ ih =>
    rw [List.flatMap_cons, List.flatten_cons, List.flatMap_append, hmade.flatMap hf, ih]

theorem intercalate_of_groups {sep : List β} {f : α → List β}
    (hf : ∀ a b c, join a b = some c → f c = f a ++ sep ++ f b) {groups : List (List α)}
    {left : List α} (h : List.Forall₂ (Made join) groups left) :
    sep.intercalate (left.map f) = sep.intercalate (groups.flatten.map f) := by
  induction h with
  | nil => rfl
  | @cons parts a groups left hmade hrest ih =>
    have hone := hmade.intercalate hf
    cases hrest with
    | nil => simp [hone]
    | @cons next b groups left hnext hrest =>
      have hmore : (next :: groups).flatten.map f ≠ [] := by
        rw [ne_eq, List.map_eq_nil_iff, List.flatten_cons]
        exact fun hnil => hnext.ne_nil (List.append_eq_nil_iff.mp hnil).1
      have hparts : parts.map f ≠ [] := by simpa using hmade.ne_nil
      have hall : (parts :: next :: groups).flatten.map f =
          parts.map f ++ (next :: groups).flatten.map f := by
        rw [List.flatten_cons, List.map_append]
      rw [List.map_cons, List.intercalate_cons_of_ne_nil (by simp), ih, hone, hall,
        intercalate_append sep hparts hmore]

/-! ## Groups with an item of a key -/

section Keys

variable {κ γ : Type} [DecidableEq κ] {k : κ} {groups groups' : List (List (κ × γ))}

/-- The items of a key. -/
def ofKey (k : κ) (items : List (κ × γ)) : List (κ × γ) :=
  items.filter fun item => decide (item.1 = k)

/-- The groups with an item of a key. -/
def having (k : κ) (groups : List (List (κ × γ))) : List (List (κ × γ)) :=
  groups.filter fun group => decide (k ∈ group.map (·.1))

theorem mem_ofKey {item : κ × γ} {items : List (κ × γ)} :
    item ∈ ofKey k items ↔ item ∈ items ∧ item.1 = k := by
  simp [ofKey]

theorem mem_having {group : List (κ × γ)} :
    group ∈ having k groups ↔ group ∈ groups ∧ k ∈ group.map (·.1) := by
  rw [having, List.mem_filter, decide_eq_true_eq]

theorem mem_ofKey_flatten {group : List (κ × γ)} {item : κ × γ} (hgroup : group ∈ groups)
    (hitem : item ∈ group) : item ∈ ofKey item.1 groups.flatten :=
  mem_ofKey.mpr ⟨List.mem_flatten_of_mem hgroup hitem, rfl⟩

theorem having_eq_nil (h : ofKey k groups.flatten = []) : having k groups = [] := by
  apply List.eq_nil_iff_forall_not_mem.mpr
  intro group hgroup
  obtain ⟨hmem, hkey⟩ := mem_having.mp hgroup
  obtain ⟨item, hitem, rfl⟩ := List.mem_map.mp hkey
  have hin := mem_ofKey_flatten hmem hitem
  rw [h] at hin
  cases hin

/-- There are no more groups with a key than items of it. -/
theorem having_length_le : (having k groups).length ≤ (ofKey k groups.flatten).length := by
  induction groups with
  | nil => exact Nat.le_refl _
  | cons group rest ih =>
    rw [List.flatten_cons, ofKey, List.filter_append, List.length_append, having, List.filter_cons]
    split
    · rename_i hkey
      obtain ⟨item, hitem, hk⟩ := List.mem_map.mp (of_decide_eq_true hkey)
      have hin : item ∈ group.filter fun item => decide (item.1 = k) :=
        List.mem_filter.mpr ⟨hitem, decide_eq_true hk⟩
      have hpos := List.length_pos_of_mem hin
      rw [List.length_cons]
      simp only [having, ofKey] at ih
      omega
    · exact Nat.le_trans ih (Nat.le_add_left _ _)

/-- Where the items of a key stand alone, the groups are the items. -/
theorem having_alone (h : ∀ group ∈ groups, k ∈ group.map (·.1) → group.map (·.1) = [k]) :
    having k groups = (ofKey k groups.flatten).map fun item => [item] := by
  induction groups with
  | nil => rfl
  | cons group rest ih =>
    obtain ⟨hgroup, hrest⟩ := List.forall_mem_cons.mp h
    rw [List.flatten_cons, ofKey, List.filter_append, List.map_append, having, List.filter_cons]
    split
    · rename_i hkey
      obtain ⟨item, rfl, hitem⟩ := List.map_eq_singleton_iff.mp (hgroup (of_decide_eq_true hkey))
      have hown : [item].filter (fun item => decide (item.1 = k)) = [item] := by simp [hitem]
      rw [hown]
      exact congrArg ([item] :: ·) (ih hrest)
    · rename_i hkey
      have hnone : group.filter (fun item => decide (item.1 = k)) = [] := by
        apply List.filter_eq_nil_iff.mpr
        intro item hitem hk
        exact hkey (decide_eq_true (List.mem_map.mpr ⟨item, hitem, of_decide_eq_true hk⟩))
      rw [hnone]
      exact ih hrest

theorem singleton_of_mem {a : α} {as : List α} (h : a ∈ as) (hlength : as.length ≤ 1) : as = [a] := by
  obtain ⟨b, rfl⟩ := List.length_eq_one_iff.mp (Nat.le_antisymm hlength (List.length_pos_of_mem h))
  rw [List.mem_singleton.mp h]

omit [DecidableEq κ] in
theorem group_ext {group group' : List (κ × γ)} (hkeys : group.map (·.1) = group'.map (·.1))
    (h : ∀ item ∈ group, ∀ item' ∈ group', item.1 = item'.1 → item = item') : group = group' := by
  induction group generalizing group' with
  | nil => exact (List.map_eq_nil_iff.mp hkeys.symm).symm
  | cons item rest ih =>
    cases group' with
    | nil => cases hkeys
    | cons item' rest' =>
      obtain ⟨hkey, hrest⟩ := List.cons.inj hkeys
      rw [h item List.mem_cons_self item' List.mem_cons_self hkey, ih hrest fun a ha b hb =>
        h a (List.mem_cons_of_mem _ ha) b (List.mem_cons_of_mem _ hb)]

/-- The groups with a key depend on the items of their keys alone, where one list of keys is that of
each of them, and a group of several items has the only item of each of its keys. -/
theorem having_congr {keys : List κ}
    (hkeys : ∀ group ∈ groups, k ∈ group.map (·.1) → group.map (·.1) = keys)
    (hkeys' : ∀ group ∈ groups', k ∈ group.map (·.1) → group.map (·.1) = keys)
    (hsame : ∀ key ∈ keys, ofKey key groups.flatten = ofKey key groups'.flatten)
    (hone : ∀ group ∈ groups, 2 ≤ group.length → ∀ item ∈ group,
      (ofKey item.1 groups.flatten).length ≤ 1) : having k groups = having k groups' := by
  by_cases hk : k ∈ keys
  · by_cases halone : keys = [k]
    · subst halone
      rw [having_alone hkeys, having_alone hkeys', hsame k hk]
    · cases hitems : ofKey k groups.flatten with
      | nil =>
        rw [having_eq_nil hitems, having_eq_nil (hsame k hk ▸ hitems)]
      | cons first others =>
        have hfirst : first ∈ ofKey k groups.flatten := hitems ▸ List.mem_cons_self
        obtain ⟨hflat, rfl⟩ := mem_ofKey.mp hfirst
        obtain ⟨group, hgroup, hitem⟩ := List.mem_flatten.mp hflat
        have hin : first.1 ∈ group.map (·.1) := List.mem_map_of_mem hitem
        have hgroupKeys := hkeys group hgroup hin
        have hmany : 2 ≤ group.length := by
          rw [← List.length_map (·.1), hgroupKeys]
          rcases keys with _ | ⟨a, _ | ⟨b, more⟩⟩
          · cases hk
          · exact absurd (by rw [List.mem_singleton.mp hk]) halone
          · simp
        -- each key of the group has one item, in both lists
        have honly : ∀ key ∈ keys, (ofKey key groups.flatten).length ≤ 1 := by
          intro key hkey
          rw [← hgroupKeys] at hkey
          obtain ⟨item, hitem, rfl⟩ := List.mem_map.mp hkey
          exact hone group hgroup hmany item hitem
        have hlength : (having first.1 groups).length ≤ 1 :=
          Nat.le_trans having_length_le (honly _ hk)
        have hlength' : (having first.1 groups').length ≤ 1 :=
          Nat.le_trans having_length_le (hsame _ hk ▸ honly _ hk)
        obtain ⟨hflat', -⟩ := mem_ofKey.mp (hsame _ hk ▸ hfirst)
        obtain ⟨group', hgroup', hitem'⟩ := List.mem_flatten.mp hflat'
        have hin' : first.1 ∈ group'.map (·.1) := List.mem_map_of_mem hitem'
        have hgroupKeys' := hkeys' group' hgroup' hin'
        have heq : group = group' := by
          refine group_ext (hgroupKeys.trans hgroupKeys'.symm) fun item hitem item' hitem' hkey => ?_
          have hmem : item.1 ∈ keys := hgroupKeys ▸ List.mem_map_of_mem hitem
          have hleft := mem_ofKey_flatten hgroup hitem
          have hright := mem_ofKey_flatten hgroup' hitem'
          rw [← hkey, ← hsame _ hmem] at hright
          obtain ⟨only, honlyItem⟩ : ∃ only, ofKey item.1 groups.flatten = [only] :=
            List.length_eq_one_iff.mp
              (Nat.le_antisymm (honly _ hmem) (List.length_pos_of_mem hleft))
          rw [honlyItem] at hleft hright
          rw [List.mem_singleton.mp hleft, List.mem_singleton.mp hright]
        have hhas : having first.1 groups = [group] :=
          singleton_of_mem (mem_having.mpr ⟨hgroup, hin⟩) hlength
        have hhas' : having first.1 groups' = [group'] :=
          singleton_of_mem (mem_having.mpr ⟨hgroup', hin'⟩) hlength'
        rw [hhas, hhas', heq]
  · have hnone : ∀ gs : List (List (κ × γ)),
        (∀ group ∈ gs, k ∈ group.map (·.1) → group.map (·.1) = keys) → having k gs = [] := by
      intro gs hgs
      apply List.eq_nil_iff_forall_not_mem.mpr
      intro group hgroup
      obtain ⟨hmem, hkey⟩ := mem_having.mp hgroup
      exact hk (hgs group hmem hkey ▸ hkey)
    rw [hnone _ hkeys, hnone _ hkeys']

end Keys

end MDRack.Joining
