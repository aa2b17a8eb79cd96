import MDRack.Lib.Dict
import Mathlib.Data.List.Count

/-!
# Numbering what occurs again

A scan counts in a dictionary how often it has met each key, and gives each item the number of the
items before it that have its key.

* `numbered` — the scan.
* `ranks` — the number of each key among the equal keys, with an explicit list of the keys before.

Principal results: `numbered_keys` — the scan gives each key its rank, so the numbers depend on the
keys alone; `nodup_ranks` — a key and its rank occur once; `filter_ranks` — the ranks of some of the
keys do not depend on the others.
-/

namespace Occurrences

variable {α κ : Type} [DecidableEq κ]

/-- How often a key has been met. -/
def met (seen : List (κ × Nat)) (k : κ) : Nat := ((seen.find? fun e => e.1 = k).map (·.2)).getD 0

/-- Each item and its number, after the items that `seen` counts. -/
def numbered (key : α → κ) : List (κ × Nat) → List α → List (α × Nat)
  | _, [] => []
  | seen, a :: rest =>
    (a, met seen (key a)) ::
      numbered key (Dict.upsert (key a) (fun _ => met seen (key a) + 1) seen) rest

/-- Each key and its rank, where the keys of `before` came first. -/
def ranks : List κ → List κ → List (κ × Nat)
  | _, [] => []
  | before, k :: rest => (k, before.count k) :: ranks (k :: before) rest

theorem met_upsert (seen : List (κ × Nat)) (k k' : κ) (n : Nat) :
    met (Dict.upsert k (fun _ => n) seen) k' = if k = k' then n else met seen k' := by
  by_cases h : k = k'
  · subst h
    simp [met, Dict.find?_upsert_self]
  · have hne : k' ≠ k := fun heq => h heq.symm
    simp [met, h, Dict.find?_upsert_other hne]

@[simp] theorem numbered_items (key : α → κ) (seen : List (κ × Nat)) (items : List α) :
    (numbered key seen items).map (·.1) = items := by
  induction items generalizing seen with
  | nil => rfl
  | cons a rest ih => simp [numbered, ih]

theorem numbered_keys_from {key : α → κ} {seen : List (κ × Nat)} {before : List κ}
    (h : ∀ k, met seen k = before.count k) (items : List α) :
    (numbered key seen items).map (fun e => (key e.1, e.2)) = ranks before (items.map key) := by
  induction items generalizing seen before with
  | nil => rfl
  | cons a rest ih =>
    have hnext : ∀ k, met (Dict.upsert (key a) (fun _ => met seen (key a) + 1) seen) k =
        (key a :: before).count k := by
      intro k
      rw [met_upsert, List.count_cons, h, h]
      by_cases hk : key a = k <;> simp [hk]
    rw [numbered, List.map_cons, List.map_cons, ranks, ih hnext, h]

/-- The scan numbers each key by its rank. -/
theorem numbered_keys (key : α → κ) (items : List α) :
    (numbered key [] items).map (fun e => (key e.1, e.2)) = ranks [] (items.map key) :=
  numbered_keys_from (fun k => by simp [met]) items

@[simp] theorem ranks_keys (before keys : List κ) : (ranks before keys).map (·.1) = keys := by
  induction keys generalizing before with
  | nil => rfl
  | cons k rest ih => simp [ranks, ih]

/-- A rank counts at least the equal keys that came first. -/
theorem count_le_of_mem_ranks {before keys : List κ} {k : κ} {n : Nat}
    (h : (k, n) ∈ ranks before keys) : before.count k ≤ n := by
  induction keys generalizing before with
  | nil => simp [ranks] at h
  | cons first rest ih =>
    rw [ranks, List.mem_cons, Prod.mk.injEq] at h
    rcases h with ⟨rfl, rfl⟩ | h
    · exact Nat.le_refl _
    · refine Nat.le_trans ?_ (ih h)
      rw [List.count_cons]
      exact Nat.le_add_right _ _

/-- No key has the same rank twice. -/
theorem nodup_ranks (before keys : List κ) : (ranks before keys).Nodup := by
  induction keys generalizing before with
  | nil => exact List.nodup_nil
  | cons k rest ih =>
    rw [ranks, List.nodup_cons]
    refine ⟨fun hmem => ?_, ih _⟩
    have hle := count_le_of_mem_ranks hmem
    rw [List.count_cons_self] at hle
    omega

theorem ranks_congr {before before' keys : List κ}
    (h : ∀ k ∈ keys, before.count k = before'.count k) : ranks before keys = ranks before' keys := by
  induction keys generalizing before before' with
  | nil => rfl
  | cons k rest ih =>
    have hrest : ∀ k' ∈ rest, (k :: before).count k' = (k :: before').count k' := by
      intro k' hk'
      rw [List.count_cons, List.count_cons, h k' (List.mem_cons_of_mem _ hk')]
    rw [ranks, ranks, h k List.mem_cons_self, ih hrest]

/-- Some of the keys keep their ranks when the others are left out. -/
theorem filter_ranks (p : κ → Bool) (before keys : List κ) :
    (ranks before keys).filter (fun e => p e.1) = ranks before (keys.filter p) := by
  induction keys generalizing before with
  | nil => rfl
  | cons k rest ih =>
    cases hk : p k with
    | true => simp only [ranks, List.filter_cons, hk, if_true, ih]
    | false =>
      simp only [ranks, List.filter_cons, hk, Bool.false_eq_true, if_false, ih]
      apply ranks_congr
      intro k' hk'
      have hne : k ≠ k' := by
        rintro rfl
        rw [(List.mem_filter.mp hk').2] at hk
        cases hk
      exact List.count_cons_of_ne hne

/-- A key that occurs once has rank zero. -/
theorem rank_of_once {keys : List κ} {k : κ} {n : Nat}
    (hone : (keys.filter fun k' => decide (k' = k)).length = 1) (h : (k, n) ∈ ranks [] keys) :
    n = 0 := by
  have hmem : (k, n) ∈ (ranks [] keys).filter (fun e => decide (e.1 = k)) :=
    List.mem_filter.mpr ⟨h, decide_eq_true rfl⟩
  rw [filter_ranks (fun k' => decide (k' = k))] at hmem
  obtain ⟨only, honly⟩ := List.length_eq_one_iff.mp hone
  rw [honly] at hmem
  simpa [ranks] using congrArg Prod.snd (List.mem_singleton.mp hmem)

end Occurrences
