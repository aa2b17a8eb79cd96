import Mathlib.Data.List.Nodup

/-!
# Lists used as keyed tables

Lookup by a key that is distinct over the rows, and what deleting rows leaves.

Principal results: `find?_eq_of_mem`, `exists_find?_iff` — lookup by key finds the row with that
key; `nodup_map_append` — keys stay distinct when new rows bring new keys;
`flatMap_filter_perm` — children grouped by
their parents are all the children; `Column.append_all` — a loop of inserts appends its rows.
-/

namespace Table

variable {α β κ : Type}

/-- Where keys are distinct, finding by key finds the row with that key. -/
theorem find?_eq_of_mem [DecidableEq κ] {key : α → κ} {rows : List α}
    (hnodup : (rows.map key).Nodup) {a : α} (ha : a ∈ rows) {k : κ} (hk : key a = k) :
    rows.find? (fun x => decide (key x = k)) = some a := by
  induction rows with
  | nil => cases ha
  | cons x rest ih =>
    rw [List.map_cons, List.nodup_cons] at hnodup
    rw [List.find?_cons]
    rcases List.mem_cons.mp ha with rfl | ha
    · simp [hk]
    · have hne : key x ≠ k := by
        intro hx
        exact hnodup.1 (List.mem_map.mpr ⟨a, ha, by rw [hk, hx]⟩)
      simp only [hne, decide_false]
      exact ih hnodup.2 ha

/-- The row that is found has the key. -/
theorem key_of_find? [DecidableEq κ] (key : α → κ) {rows : List α} {k : κ} {a : α}
    (h : rows.find? (fun x => decide (key x = k)) = some a) : a ∈ rows ∧ key a = k := by
  have hkey := List.find?_some h
  exact ⟨List.mem_of_find?_eq_some h, by simpa using hkey⟩

theorem exists_find?_iff [DecidableEq κ] (key : α → κ) {rows : List α}
    (hnodup : (rows.map key).Nodup) {k : κ} {P : α → Prop} :
    (∃ a, rows.find? (fun x => decide (key x = k)) = some a ∧ P a) ↔
      ∃ a ∈ rows, key a = k ∧ P a := by
  constructor
  · rintro ⟨a, ha, hp⟩
    have hfound := key_of_find? key ha
    exact ⟨a, hfound.1, hfound.2, hp⟩
  · rintro ⟨a, ha, hk, hp⟩
    exact ⟨a, find?_eq_of_mem hnodup ha hk, hp⟩

/-- Rows with the same distinct key are the same row. -/
theorem eq_of_key_eq {key : α → κ} {rows : List α} (hnodup : (rows.map key).Nodup) {a b : α}
    (ha : a ∈ rows) (hb : b ∈ rows) (h : key a = key b) : a = b :=
  List.inj_on_of_nodup_map hnodup ha hb h

/-- Rows of a table are listed alike where their keys are. -/
theorem eq_of_map_key_eq {key : α → κ} {rows xs ys : List α} (hnodup : (rows.map key).Nodup)
    (hx : xs ⊆ rows) (hy : ys ⊆ rows) (h : xs.map key = ys.map key) : xs = ys := by
  induction xs generalizing ys with
  | nil => exact (List.map_eq_nil_iff.mp h.symm).symm
  | cons a rest ih =>
    cases ys with
    | nil => cases h
    | cons b others =>
      simp only [List.map_cons, List.cons.injEq] at h
      have hab := eq_of_key_eq hnodup (hx List.mem_cons_self) (hy List.mem_cons_self) h.1
      have hrest := ih (fun c hc => hx (List.mem_cons_of_mem _ hc))
        (fun c hc => hy (List.mem_cons_of_mem _ hc)) h.2
      rw [hab, hrest]

/-- Keys differ where what they determine differs. -/
theorem nodup_map_of_key {f : α → β} {key : α → κ} {rows : List α} (h : (rows.map f).Nodup)
    (hkey : ∀ a ∈ rows, ∀ b ∈ rows, key a = key b → f a = f b) : (rows.map key).Nodup := by
  rw [List.Nodup, List.pairwise_map] at h ⊢
  exact h.imp_of_mem fun ha hb hne heq => hne (hkey _ ha _ hb heq)

theorem nodup_map_filter {key : α → κ} {rows : List α} (p : α → Bool)
    (h : (rows.map key).Nodup) : ((rows.filter p).map key).Nodup :=
  h.sublist (List.filter_sublist.map key)

theorem nodup_map_append {key : α → κ} {rows added : List α} (h : (rows.map key).Nodup)
    (ha : (added.map key).Nodup) (hnew : ∀ a ∈ added, ∀ b ∈ rows, key b ≠ key a) :
    ((rows ++ added).map key).Nodup := by
  rw [List.map_append, List.nodup_append]
  refine ⟨h, ha, ?_⟩
  intro x hx y hy hxy
  obtain ⟨b, hb, rfl⟩ := List.mem_map.mp hx
  obtain ⟨a, ha', rfl⟩ := List.mem_map.mp hy
  exact hnew a ha' b hb hxy

theorem key_ne_of_nodup_append {key : α → κ} {rows added : List α}
    (h : ((rows ++ added).map key).Nodup) {a b : α} (ha : a ∈ rows) (hb : b ∈ added) :
    key a ≠ key b := by
  rw [List.map_append, List.nodup_append] at h
  exact h.2.2 _ (List.mem_map.mpr ⟨a, ha, rfl⟩) _ (List.mem_map.mpr ⟨b, hb, rfl⟩)

/-! ## Rows with one key -/

section OneKey

variable [DecidableEq κ] {key : α → κ} {a b : κ}

theorem filter_without_other (h : a ≠ b) (rows : List α) :
    (rows.filter fun r => !decide (key r = b)).filter (fun r => key r = a) =
      rows.filter fun r => key r = a := by
  rw [List.filter_filter]
  refine List.filter_congr fun r _ => ?_
  by_cases hr : key r = a
  · simp [hr, h]
  · simp [hr]

theorem filter_without_self (rows : List α) :
    (rows.filter fun r => !decide (key r = b)).filter (fun r => key r = b) = [] := by
  rw [List.filter_filter, List.filter_eq_nil_iff]
  intro r _
  simp

theorem filter_append_other {rows added : List α} (h : ∀ r ∈ added, key r ≠ a) :
    (rows ++ added).filter (fun r => key r = a) = rows.filter fun r => key r = a := by
  have hnil : added.filter (fun r => decide (key r = a)) = [] := by
    rw [List.filter_eq_nil_iff]
    intro r hr
    simpa using h r hr
  rw [List.filter_append, hnil, List.append_nil]

theorem filter_append_self {rows added : List α} (hrows : ∀ r ∈ rows, key r ≠ a)
    (hadded : ∀ r ∈ added, key r = a) : (rows ++ added).filter (fun r => key r = a) = added := by
  have hnil : rows.filter (fun r => decide (key r = a)) = [] := by
    rw [List.filter_eq_nil_iff]
    intro r hr
    simpa using hrows r hr
  have hall : added.filter (fun r => decide (key r = a)) = added := by
    rw [List.filter_eq_self]
    intro r hr
    simpa using hadded r hr
  rw [List.filter_append, hnil, hall, List.nil_append]

theorem filter_append_added {rows added : List α} (h : ∀ r ∈ rows, key r ≠ a) :
    (rows ++ added).filter (fun r => key r = a) = added.filter fun r => key r = a := by
  have hnil : rows.filter (fun r => decide (key r = a)) = [] := by
    rw [List.filter_eq_nil_iff]
    intro r hr
    simpa using h r hr
  rw [List.filter_append, hnil, List.nil_append]

/-- A filter that every row with the key passes does not change the rows with the key. -/
theorem filter_filter_key {p : α → Bool} {rows : List α}
    (h : ∀ r ∈ rows, key r = a → p r = true) :
    (rows.filter p).filter (fun r => key r = a) = rows.filter fun r => key r = a := by
  rw [List.filter_filter]
  refine List.filter_congr fun r hr => ?_
  by_cases hk : key r = a
  · simp [hk, h r hr hk]
  · simp [hk]

theorem filter_key_self {rows : List α} (hnodup : (rows.map key).Nodup) {r : α} (hr : r ∈ rows) :
    rows.filter (fun x => key x = key r) = [r] := by
  induction rows with
  | nil => cases hr
  | cons x rest ih =>
    rw [List.map_cons, List.nodup_cons] at hnodup
    have hne : ∀ y ∈ rest, key y ≠ key x :=
      fun y hy heq => hnodup.1 (List.mem_map.mpr ⟨y, hy, heq⟩)
    rcases List.mem_cons.mp hr with rfl | hr
    · rw [List.filter_cons_of_pos (by simp), List.filter_eq_nil_iff.mpr]
      intro y hy
      simpa using hne y hy
    · rw [List.filter_cons_of_neg (by simpa using (hne r hr).symm)]
      exact ih hnodup.2 hr

/-- At most one row has a key. -/
theorem filter_key_unique {rows : List α} (hnodup : (rows.map key).Nodup) (a : κ) :
    rows.filter (fun r => key r = a) = [] ∨ ∃ r, rows.filter (fun r => key r = a) = [r] := by
  by_cases h : ∃ r ∈ rows, key r = a
  · obtain ⟨r, hr, rfl⟩ := h
    exact .inr ⟨r, filter_key_self hnodup hr⟩
  · refine .inl (List.filter_eq_nil_iff.mpr fun r hr hkey => h ⟨r, hr, ?_⟩)
    exact of_decide_eq_true hkey

/-- Rows grouped by the distinct keys of their parents are all the rows. -/
theorem flatMap_filter_perm {parentKey : β → κ} {parents : List β}
    (hparents : (parents.map parentKey).Nodup) {rows : List α}
    (h : ∀ r ∈ rows, ∃ p ∈ parents, parentKey p = key r) :
    (parents.flatMap fun p => rows.filter fun r => key r = parentKey p).Perm rows := by
  induction parents generalizing rows with
  | nil =>
    cases rows with
    | nil => exact .refl _
    | cons r rest => simpa using h r List.mem_cons_self
  | cons p ps ih =>
    rw [List.map_cons, List.nodup_cons] at hparents
    have hothers : (ps.flatMap fun q => rows.filter fun r => key r = parentKey q) =
        ps.flatMap fun q => (rows.filter fun r => !decide (key r = parentKey p)).filter
          fun r => key r = parentKey q := by
      refine List.flatMap_congr fun q hq => (filter_without_other ?_ rows).symm
      intro heq
      exact hparents.1 (List.mem_map.mpr ⟨q, hq, heq⟩)
    have hrest : ∀ r ∈ rows.filter fun r => !decide (key r = parentKey p),
        ∃ q ∈ ps, parentKey q = key r := by
      intro r hr
      obtain ⟨hr, hne⟩ := List.mem_filter.mp hr
      obtain ⟨q, hq, hqr⟩ := h r hr
      rcases List.mem_cons.mp hq with rfl | hq
      · simp [hqr] at hne
      · exact ⟨q, hq, hqr⟩
    rw [List.flatMap_cons, hothers]
    exact ((ih hparents.2 hrest).append_left _).trans (List.filter_append_perm _ rows)

/-- Where keys are distinct, the order of the rows does not matter to a lookup. -/
theorem find?_perm {rows rows' : List α} (hnodup : (rows.map key).Nodup) (hperm : rows.Perm rows')
    (k : κ) : rows.find? (fun x => decide (key x = k)) =
      rows'.find? (fun x => decide (key x = k)) := by
  cases hfound : rows'.find? (fun x => decide (key x = k)) with
  | none =>
    rw [List.find?_eq_none] at hfound ⊢
    exact fun x hx => hfound x (hperm.mem_iff.mp hx)
  | some a =>
    obtain ⟨ha, hk⟩ := key_of_find? key hfound
    exact find?_eq_of_mem hnodup (hperm.mem_iff.mpr ha) hk

end OneKey

/-- Rows that are all images form the image of a list. -/
theorem exists_map_eq {f : α → β} {P : α → Prop} {rows : List β}
    (h : ∀ b ∈ rows, ∃ a, P a ∧ f a = b) :
    ∃ as : List α, (∀ a ∈ as, P a) ∧ as.map f = rows := by
  induction rows with
  | nil => exact ⟨[], by simp, rfl⟩
  | cons b rest ih =>
    obtain ⟨a, ha, hab⟩ := h b List.mem_cons_self
    obtain ⟨as, has, hrest⟩ := ih fun c hc => h c (List.mem_cons_of_mem _ hc)
    refine ⟨a :: as, ?_, by rw [List.map_cons, hab, hrest]⟩
    intro c hc
    rcases List.mem_cons.mp hc with rfl | hc
    · exact ha
    · exact has c hc

/-! ## Columns of a record of tables -/

/-- One table of a record of tables. -/
structure Column (T R : Type) where
  get : T → List R
  put : T → List R → T
  get_put : ∀ t rows, get (put t rows) = rows
  put_get : ∀ t, put t (get t) = t
  put_put : ∀ t rows rows', put (put t rows) rows' = put t rows'

variable {T R ε : Type}

/-- A loop whose steps append their row appends all rows. -/
theorem Column.append_all {C : Column T R} {step : T → R → Except ε T}
    (hstep : ∀ t row t', step t row = .ok t' → t' = C.put t (C.get t ++ [row])) {rows : List R}
    {t t' : T} (h : rows.foldlM step t = .ok t') : t' = C.put t (C.get t ++ rows) := by
  induction rows generalizing t with
  | nil =>
    rw [List.foldlM_nil] at h
    rw [List.append_nil, C.put_get]
    exact (Except.ok.inj h).symm
  | cons row rest ih =>
    rw [List.foldlM_cons] at h
    cases hrow : step t row with
    | error e => rw [hrow] at h; cases h
    | ok t₁ =>
      rw [hrow] at h
      rw [ih h, hstep t row t₁ hrow, C.get_put, C.put_put, List.append_assoc]
      rfl

/-- A key that each step checks against the rows already there stays distinct. -/
theorem Column.append_all_nodup {C : Column T R} {step : T → R → Except ε T} (key : R → κ)
    (hstep : ∀ t row t', step t row = .ok t' → t' = C.put t (C.get t ++ [row]))
    (hkey : ∀ t row t', step t row = .ok t' → ∀ x ∈ C.get t, key x ≠ key row) {rows : List R}
    {t t' : T} (h : rows.foldlM step t = .ok t') (hnodup : ((C.get t).map key).Nodup) :
    ((C.get t').map key).Nodup := by
  induction rows generalizing t with
  | nil =>
    rw [List.foldlM_nil] at h
    rw [← Except.ok.inj h]
    exact hnodup
  | cons row rest ih =>
    rw [List.foldlM_cons] at h
    cases hrow : step t row with
    | error e => rw [hrow] at h; cases h
    | ok t₁ =>
      rw [hrow] at h
      refine ih h ?_
      rw [hstep t row t₁ hrow, C.get_put]
      refine nodup_map_append hnodup (by simp) ?_
      intro a ha b hb
      rw [List.mem_singleton] at ha
      rw [ha]
      exact hkey t row t₁ hrow b hb

/-- A loop appends all rows where each row passes its checks against the rows before it. -/
theorem Column.insert_all {C : Column T R} {step : T → R → Except ε T} (I : T → Prop)
    (compat : R → R → Prop) {rows : List R} {t : T}
    (hstep : ∀ t row, row ∈ rows → I t → (∀ x ∈ C.get t, compat x row) →
      step t row = .ok (C.put t (C.get t ++ [row])))
    (hkeep : ∀ t xs, I t → I (C.put t xs)) (hrows : rows.Pairwise compat)
    (hold : ∀ x ∈ C.get t, ∀ row ∈ rows, compat x row) (ht : I t) :
    rows.foldlM step t = .ok (C.put t (C.get t ++ rows)) := by
  induction rows generalizing t with
  | nil =>
    rw [List.foldlM_nil, List.append_nil, C.put_get]
    rfl
  | cons row rest ih =>
    rw [List.pairwise_cons] at hrows
    have hrow := hstep t row List.mem_cons_self ht fun x hx => hold x hx row List.mem_cons_self
    have hrest := ih (t := C.put t (C.get t ++ [row]))
      (fun t' r hr => hstep t' r (List.mem_cons_of_mem _ hr)) hrows.2 ?_ (hkeep _ _ ht)
    · rw [C.get_put, C.put_put, List.append_assoc] at hrest
      rw [List.foldlM_cons, hrow]
      exact hrest
    · intro x hx r hr
      rw [C.get_put] at hx
      rcases List.mem_append.mp hx with hx | hx
      · exact hold x hx r (List.mem_cons_of_mem _ hr)
      · rw [List.mem_singleton] at hx
        rw [hx]
        exact hrows.1 r hr

end Table
