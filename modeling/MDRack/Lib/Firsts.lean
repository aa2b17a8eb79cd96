import MDRack.Lib.Dict
import MDRack.Lib.Table
import Mathlib.Data.Finset.Card
import Mathlib.Data.List.MinMax

/-!
# First rows

* `firsts` — the first row of each key, for a scan that knows the keys it has seen.
* `denseRank`, `bestRank` — how many different keys stand up to a position, and the least such
  number among the positions of a key.
* `Dict.collect` — a dictionary built by storing row after row.

Principal results: `filter_ranked_firsts` — the scan that counts what it keeps numbers each key by
its best dense rank; `Dict.mem_collect`, `Dict.keys_collect` — a collected dictionary has the keys
in the order in which they come first, each with its own rows folded.
-/

namespace Firsts

variable {α κ : Type} [DecidableEq κ]

/-- The first row of each key that has not been seen. -/
def firsts (key : α → κ) : List α → List κ → List α
  | [], _ => []
  | a :: rest, seen =>
    if key a ∈ seen then firsts key rest seen else a :: firsts key rest (key a :: seen)

variable {key : α → κ} {k : κ}

theorem firsts_congr {seen seen' : List κ} (rows : List α) (h : ∀ k, k ∈ seen ↔ k ∈ seen') :
    firsts key rows seen = firsts key rows seen' := by
  induction rows generalizing seen seen' with
  | nil => rfl
  | cons a rest ih =>
    simp only [firsts, h]
    split
    · exact ih h
    · have hnext : ∀ k, k ∈ key a :: seen ↔ k ∈ key a :: seen' := fun k => by simp [h]
      rw [ih hnext]

@[simp] theorem mem_keys_firsts {rows : List α} {seen : List κ} :
    k ∈ (firsts key rows seen).map key ↔ k ∈ rows.map key ∧ k ∉ seen := by
  induction rows generalizing seen with
  | nil => simp [firsts]
  | cons a rest ih =>
    rw [firsts]
    split
    · rename_i hseen
      rw [ih, List.map_cons, List.mem_cons]
      constructor
      · exact fun h => ⟨.inr h.1, h.2⟩
      · rintro ⟨rfl | h, hnot⟩
        · exact absurd hseen hnot
        · exact ⟨h, hnot⟩
    · rename_i hseen
      rw [List.map_cons, List.mem_cons, ih, List.map_cons, List.mem_cons, List.mem_cons]
      constructor
      · rintro (rfl | ⟨h, hnot⟩)
        · exact ⟨.inl rfl, hseen⟩
        · exact ⟨.inr h, fun hk => hnot (.inr hk)⟩
      · rintro ⟨h, hnot⟩
        by_cases heq : k = key a
        · exact .inl heq
        · exact .inr ⟨h.resolve_left heq, by simp [heq, hnot]⟩

theorem firsts_sublist (rows : List α) (seen : List κ) : (firsts key rows seen).Sublist rows := by
  induction rows generalizing seen with
  | nil => exact .slnil
  | cons a rest ih =>
    rw [firsts]
    split
    · exact (ih seen).cons a
    · exact (ih _).cons_cons a

theorem nodup_firsts (rows : List α) (seen : List κ) : ((firsts key rows seen).map key).Nodup := by
  induction rows generalizing seen with
  | nil => exact List.nodup_nil
  | cons a rest ih =>
    rw [firsts]
    split
    · exact ih seen
    · rw [List.map_cons, List.nodup_cons]
      exact ⟨by simp, ih _⟩

theorem firsts_append (rows more : List α) (seen : List κ) :
    firsts key (rows ++ more) seen = firsts key rows seen ++ firsts key more (rows.map key ++ seen) := by
  induction rows generalizing seen with
  | nil => rfl
  | cons a rest ih =>
    rw [List.cons_append, firsts, firsts]
    split
    · rename_i hseen
      have hknown : ∀ k, k ∈ rest.map key ++ seen ↔ k ∈ (a :: rest).map key ++ seen := by
        intro k
        simp only [List.map_cons, List.mem_append, List.mem_cons]
        constructor
        · rintro (h | h)
          · exact .inl (.inr h)
          · exact .inr h
        · rintro ((rfl | h) | h)
          · exact .inr hseen
          · exact .inl h
          · exact .inr h
      rw [ih, firsts_congr more hknown]
    · have hknown : ∀ k, k ∈ rest.map key ++ key a :: seen ↔ k ∈ (a :: rest).map key ++ seen := by
        intro k
        simp only [List.map_cons, List.mem_append, List.mem_cons]
        tauto
      rw [ih, List.cons_append, firsts_congr more hknown]

theorem firsts_map {β : Type} (f : β → α) (rows : List β) (seen : List κ) :
    firsts key (rows.map f) seen = (firsts (fun b => key (f b)) rows seen).map f := by
  induction rows generalizing seen with
  | nil => rfl
  | cons b rest ih =>
    rw [List.map_cons, firsts, firsts]
    split
    · exact ih seen
    · rw [List.map_cons, ih]

/-- Taking first rows again, with more keys seen, is taking them once. -/
theorem firsts_firsts {seen seen' : List κ} (rows : List α) (h : ∀ k ∈ seen, k ∈ seen') :
    firsts key (firsts key rows seen) seen' = firsts key rows seen' := by
  induction rows generalizing seen seen' with
  | nil => rfl
  | cons a rest ih =>
    rw [firsts]
    split
    · rename_i hseen
      rw [ih h, firsts, if_pos (h _ hseen)]
    · rw [firsts, firsts]
      split
      · rename_i hseen'
        refine ih fun k hk => ?_
        rcases List.mem_cons.mp hk with rfl | hk
        · exact hseen'
        · exact h k hk
      · rw [ih]
        intro k hk
        rcases List.mem_cons.mp hk with rfl | hk
        · exact List.mem_cons_self
        · exact List.mem_cons_of_mem _ (h k hk)

/-- Keys have been seen when their first rows have. -/
theorem firsts_after (rows more : List α) (seen : List κ) :
    firsts key more ((firsts key rows seen).map key ++ seen) =
      firsts key more (rows.map key ++ seen) := by
  apply firsts_congr
  intro k
  rw [List.mem_append, List.mem_append, mem_keys_firsts]
  constructor
  · rintro (h | h)
    · exact .inl h.1
    · exact .inr h
  · rintro (h | h)
    · by_cases hseen : k ∈ seen
      · exact .inr hseen
      · exact .inl ⟨h, hseen⟩
    · exact .inr h

theorem mem_firsts {keys seen : List κ} : k ∈ firsts id keys seen ↔ k ∈ keys ∧ k ∉ seen := by
  have h : k ∈ (firsts id keys seen).map id ↔ k ∈ keys.map id ∧ k ∉ seen := mem_keys_firsts
  simpa using h

theorem nodup_firsts_id (keys seen : List κ) : (firsts id keys seen).Nodup := by
  have h : ((firsts id keys seen).map id).Nodup := nodup_firsts keys seen
  simpa using h

/-- A first row is the one that a search for its key finds. -/
theorem find?_of_mem_firsts {rows : List α} {seen : List κ} {a : α} (h : a ∈ firsts key rows seen) :
    rows.find? (fun b => key b = key a) = some a := by
  induction rows generalizing seen with
  | nil => cases h
  | cons b rest ih =>
    have hfresh : key a ∉ seen := (mem_keys_firsts.mp (List.mem_map_of_mem h)).2
    rw [firsts] at h
    split at h
    · rename_i hseen
      have hne : key b ≠ key a := fun heq => hfresh (heq ▸ hseen)
      rw [List.find?_cons_of_neg (by simpa using hne)]
      exact ih h
    · rcases List.mem_cons.mp h with rfl | h
      · simp
      · have hne : key b ≠ key a := by
          intro heq
          have hnew := (mem_keys_firsts.mp (List.mem_map_of_mem (f := key) h)).2
          exact hnew (heq ▸ List.mem_cons_self)
        rw [List.find?_cons_of_neg (by simpa using hne)]
        exact ih h

/-- A repeated key adds nothing. -/
theorem firsts_insert (pre post : List α) {a : α} (h : key a ∈ pre.map key) (seen : List κ) :
    firsts key (pre ++ a :: post) seen = firsts key (pre ++ post) seen := by
  have hseen : key a ∈ pre.map key ++ seen := List.mem_append_left _ h
  rw [firsts_append, firsts_append, firsts, if_pos hseen]

/-- Where keys come first is not changed by leaving repeats out. -/
theorem idxOf_firsts {keys seen : List κ} {a b : κ} (ha : a ∈ keys) (hb : b ∈ keys)
    (hafresh : a ∉ seen) (hbfresh : b ∉ seen) :
    (firsts id keys seen).idxOf a < (firsts id keys seen).idxOf b ↔ keys.idxOf a < keys.idxOf b := by
  induction keys generalizing seen with
  | nil => simp at ha
  | cons x rest ih =>
    rw [firsts]
    split
    · rename_i hseen
      have hax : x ≠ a := fun h => hafresh (h ▸ hseen)
      have hbx : x ≠ b := fun h => hbfresh (h ▸ hseen)
      rw [List.idxOf_cons_ne _ hax, List.idxOf_cons_ne _ hbx, Nat.succ_lt_succ_iff]
      exact ih ((List.mem_cons.mp ha).resolve_left hax.symm)
        ((List.mem_cons.mp hb).resolve_left hbx.symm) hafresh hbfresh
    · by_cases hax : x = a
      · subst hax
        by_cases hbx : x = b
        · simp [hbx]
        · simp [List.idxOf_cons_ne _ hbx]
      · by_cases hbx : x = b
        · subst hbx
          simp
        · rw [List.idxOf_cons_ne _ hax, List.idxOf_cons_ne _ hbx, List.idxOf_cons_ne _ hax,
            List.idxOf_cons_ne _ hbx, Nat.succ_lt_succ_iff, Nat.succ_lt_succ_iff]
          apply ih
          · exact (List.mem_cons.mp ha).resolve_left (Ne.symm hax)
          · exact (List.mem_cons.mp hb).resolve_left (Ne.symm hbx)
          · simp [hafresh, Ne.symm hax]
          · simp [hbfresh, Ne.symm hbx]

/-! ## Dense ranks -/

/-- How many different keys stand up to a position. -/
def denseRank (keys : List κ) (i : Nat) : Nat := (keys.take (i + 1)).toFinset.card

/-- The best dense rank of a key. -/
def bestRank (keys : List κ) (k : κ) : Option Nat :=
  (((List.range keys.length).filter fun i => keys[i]? = some k).map (denseRank keys)).min?

theorem denseRank_mono (keys : List κ) {i j : Nat} (h : i ≤ j) :
    denseRank keys i ≤ denseRank keys j := by
  apply Finset.card_le_card
  intro k hk
  rw [List.mem_toFinset] at hk ⊢
  exact (List.take_sublist_take_left (by omega)).subset hk

theorem idxOf_getElem_le {keys : List κ} {i : Nat} (hi : i < keys.length) :
    keys.idxOf keys[i] ≤ i := by
  apply Nat.le_of_not_lt
  intro hlt
  have hne := List.not_of_lt_findIdx hlt
  simp at hne

theorem bestRank_eq_none {keys : List κ} (h : k ∉ keys) : bestRank keys k = none := by
  have hnone : ((List.range keys.length).filter fun i => keys[i]? = some k) = [] := by
    rw [List.filter_eq_nil_iff]
    intro i _ hi
    simp only [decide_eq_true_eq] at hi
    exact h (List.mem_of_getElem? hi)
  simp [bestRank, hnone]

theorem bestRank_eq_some {keys : List κ} (h : k ∈ keys) :
    bestRank keys k = some (denseRank keys (keys.idxOf k)) := by
  have hlt : keys.idxOf k < keys.length := List.idxOf_lt_length_of_mem h
  rw [bestRank, List.min?_eq_some_iff]
  constructor
  · apply List.mem_map_of_mem
    rw [List.mem_filter, List.mem_range]
    exact ⟨hlt, by simp [hlt]⟩
  · intro rank hrank
    obtain ⟨i, hi, rfl⟩ := List.mem_map.mp hrank
    obtain ⟨hrange, hkey⟩ := List.mem_filter.mp hi
    rw [List.mem_range] at hrange
    apply denseRank_mono
    have hkey : keys[i] = k := by simpa [hrange] using hkey
    rw [← hkey]
    exact idxOf_getElem_le hrange

/-- The keys that the scan has counted before it comes to a key. -/
def countBefore (keys seen : List κ) (k : κ) : Nat :=
  ((keys.take (keys.idxOf k)).toFinset \ seen.toFinset).card

theorem denseRank_idxOf {keys : List κ} (h : k ∈ keys) :
    denseRank keys (keys.idxOf k) = 1 + countBefore keys [] k := by
  have hlt : keys.idxOf k < keys.length := List.idxOf_lt_length_of_mem h
  have hnew : k ∉ (keys.take (keys.idxOf k)).toFinset := by
    rw [List.mem_toFinset]
    intro hmem
    obtain ⟨i, hi, hkey⟩ := List.getElem_of_mem hmem
    rw [List.length_take] at hi
    rw [List.getElem_take] at hkey
    have hle : keys.idxOf k ≤ i := hkey ▸ idxOf_getElem_le (by omega)
    omega
  have hsucc : (keys.take (keys.idxOf k + 1)).toFinset =
      insert k (keys.take (keys.idxOf k)).toFinset := by
    rw [List.take_succ_eq_append_getElem hlt, List.getElem_idxOf hlt]
    ext x
    simp
  rw [denseRank, hsucc, Finset.card_insert_of_notMem hnew, countBefore, List.toFinset_nil,
    Finset.sdiff_empty, Nat.add_comm]

theorem countBefore_seen {keys seen : List κ} {x : κ} (hseen : x ∈ seen) (hne : x ≠ k) :
    countBefore (x :: keys) seen k = countBefore keys seen k := by
  have hmem : x ∈ seen.toFinset := List.mem_toFinset.mpr hseen
  rw [countBefore, countBefore, List.idxOf_cons_ne _ hne, List.take_succ_cons, List.toFinset_cons,
    Finset.insert_sdiff_of_mem _ hmem]

theorem countBefore_new {keys seen : List κ} {x : κ} (hseen : x ∉ seen) (hne : x ≠ k) :
    countBefore (x :: keys) seen k = countBefore keys (x :: seen) k + 1 := by
  have hmem : x ∉ seen.toFinset := fun h => hseen (List.mem_toFinset.mp h)
  rw [countBefore, countBefore, List.idxOf_cons_ne _ hne, List.take_succ_cons, List.toFinset_cons,
    List.toFinset_cons, Finset.insert_sdiff_of_notMem _ hmem, Finset.sdiff_insert,
    ← Finset.card_insert_of_notMem (Finset.notMem_erase x _)]
  apply congrArg Finset.card
  ext y
  by_cases heq : y = x <;> simp [heq]

/-- The scan numbers each key once, by the keys that it has counted before. -/
theorem filter_numbered_firsts {rows : List α} {seen : List κ} {n : Nat} (h : k ∉ seen) :
    ((firsts key rows seen).zipIdx n).filter (fun p => key p.1 = k) =
      ((rows.find? fun a => key a = k).map
        fun a => (a, n + countBefore (rows.map key) seen k)).toList := by
  induction rows generalizing seen n with
  | nil => rfl
  | cons a rest ih =>
    rw [firsts, List.map_cons]
    split
    · rename_i hseen
      have hne : key a ≠ k := fun heq => h (heq ▸ hseen)
      rw [ih h, List.find?_cons_of_neg (by simpa using hne), countBefore_seen hseen hne]
    · rename_i hseen
      rw [List.zipIdx_cons]
      by_cases heq : key a = k
      · have hnone : ((firsts key rest (key a :: seen)).zipIdx (n + 1)).filter
            (fun p => key p.1 = k) = [] := by
          rw [List.filter_eq_nil_iff]
          rintro ⟨b, i⟩ hp hkey
          have hmem : k ∈ (firsts key rest (key a :: seen)).map key := by
            rw [← of_decide_eq_true hkey]
            exact List.mem_map_of_mem (List.fst_mem_of_mem_zipIdx hp)
          exact (mem_keys_firsts.mp hmem).2 (heq ▸ List.mem_cons_self)
        rw [List.filter_cons_of_pos (by simpa using heq), hnone,
          List.find?_cons_of_pos (by simpa using heq)]
        simp [countBefore, heq]
      · have hnew : k ∉ key a :: seen := by simp [h, Ne.symm heq]
        rw [List.filter_cons_of_neg (by simpa using heq), ih hnew,
          List.find?_cons_of_neg (by simpa using heq), countBefore_new hseen heq]
        cases rest.find? fun a => key a = k with
        | none => rfl
        | some b => simp; omega

/-- The scan numbers each key by its best dense rank. -/
theorem filter_ranked_firsts (rows : List α) (k : κ) :
    ((firsts key rows []).zipIdx 1).filter (fun p => key p.1 = k) =
      ((rows.find? fun a => key a = k).bind
        fun a => (bestRank (rows.map key) k).map fun r => (a, r)).toList := by
  rw [filter_numbered_firsts List.not_mem_nil]
  cases hfind : rows.find? fun a => key a = k with
  | none => rfl
  | some a =>
    have hmem : k ∈ rows.map key := by
      have hkey := List.find?_some hfind
      rw [← of_decide_eq_true hkey]
      exact List.mem_map_of_mem (List.mem_of_find?_eq_some hfind)
    rw [bestRank_eq_some hmem, denseRank_idxOf hmem]
    rfl

end Firsts

/-! ## Collecting -/

namespace Dict

open Firsts

variable {α β κ : Type} [DecidableEq κ] {key : α → κ} {step : α → Option β → β}

/-- The dictionary in which each row has been stored under its key. -/
def collect (key : α → κ) (step : α → Option β → β) (rows : List α) : List (κ × β) :=
  rows.foldl (fun d a => upsert (key a) (step a) d) []

/-- What a key holds after its rows. -/
def folded (step : α → Option β → β) (rows : List α) : Option β :=
  rows.foldl (fun old a => some (step a old)) none

theorem collect_concat (rows : List α) (a : α) :
    collect key step (rows ++ [a]) = upsert (key a) (step a) (collect key step rows) := by
  rw [collect, List.foldl_append]
  rfl

theorem folded_concat (rows : List α) (a : α) :
    folded step (rows ++ [a]) = some (step a (folded step rows)) := by
  rw [folded, List.foldl_append]
  rfl

/-- The keys stand in the order in which they come first. -/
theorem keys_collect (rows : List α) :
    (collect key step rows).map (·.1) = firsts id (rows.map key) [] := by
  induction rows using List.reverseRecOn with
  | nil => rfl
  | append_singleton rows a ih =>
    have hmem : key a ∈ firsts id (rows.map key) [] ↔ key a ∈ rows.map key := by
      simp [mem_firsts]
    rw [collect_concat, keys_upsert, ih, List.map_append, List.map_singleton, firsts_append,
      List.map_id, List.append_nil]
    by_cases hold : key a ∈ rows.map key
    · rw [if_pos (hmem.mpr hold)]
      simp [firsts, hold]
    · rw [if_neg (fun h => hold (hmem.mp h))]
      simp [firsts, hold]

theorem lookup_collect (rows : List α) (k : κ) :
    ((collect key step rows).find? fun e => e.1 = k).map (·.2) =
      folded step (rows.filter fun a => key a = k) := by
  induction rows using List.reverseRecOn with
  | nil => rfl
  | append_singleton rows a ih =>
    rw [collect_concat, List.filter_append]
    by_cases heq : key a = k
    · subst heq
      rw [find?_upsert_self, ih]
      simp [folded_concat]
    · rw [find?_upsert_other (Ne.symm heq), ih]
      simp [heq]

/-- Each key holds what its rows make. -/
theorem mem_collect {rows : List α} {e : κ × β} (he : e ∈ collect key step rows) :
    folded step (rows.filter fun a => key a = e.1) = some e.2 := by
  have hnodup : ((collect key step rows).map (·.1)).Nodup := by
    rw [keys_collect]
    exact nodup_firsts_id _ _
  rw [← lookup_collect, Table.find?_eq_of_mem hnodup he rfl]
  rfl

end Dict
