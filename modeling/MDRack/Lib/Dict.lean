import Mathlib.Data.List.Nodup

/-!
# Dictionaries in insertion order

A dictionary is the list of its entries.  Storing under a key replaces the value in its place or
adds an entry at the end.

Principal results: `nodup_upsert` — keys stay distinct; `all_upsert` — what holds of every entry is
kept.
-/

namespace Dict

variable {κ α : Type} [DecidableEq κ] {d : List (κ × α)} {k : κ} {f : Option α → α}

/-- Store under a key what `f` makes of the old value, if there is one. -/
def upsert (k : κ) (f : Option α → α) : List (κ × α) → List (κ × α)
  | [] => [(k, f none)]
  | e :: rest => if e.1 = k then (k, f (some e.2)) :: rest else e :: upsert k f rest

theorem keys_upsert :
    (upsert k f d).map (·.1) = if k ∈ d.map (·.1) then d.map (·.1) else d.map (·.1) ++ [k] := by
  induction d with
  | nil => rfl
  | cons e rest ih =>
    rw [upsert]
    split
    · rename_i heq
      simp [heq]
    · rename_i hne
      rw [List.map_cons, ih]
      by_cases hmem : k ∈ rest.map (·.1)
      · have hin : k ∈ (e :: rest).map (·.1) := List.mem_cons_of_mem _ hmem
        rw [if_pos hmem, if_pos hin, List.map_cons]
      · have hnot : k ∉ (e :: rest).map (·.1) := by
          rw [List.map_cons, List.mem_cons]
          rintro (heq | hin)
          · exact hne heq.symm
          · exact hmem hin
        rw [if_neg hmem, if_neg hnot, List.map_cons, List.cons_append]

/-- A new key goes to the end. -/
theorem upsert_new (h : k ∉ d.map (·.1)) : upsert k f d = d ++ [(k, f none)] := by
  induction d with
  | nil => rfl
  | cons e rest ih =>
    rw [List.map_cons, List.mem_cons, not_or] at h
    rw [upsert, if_neg (Ne.symm h.1), ih h.2, List.cons_append]

/-- The value under a key, and under the others. -/
theorem find?_upsert_self : (upsert k f d).find? (fun e => e.1 = k) =
    some (k, f ((d.find? fun e => e.1 = k).map (·.2))) := by
  induction d with
  | nil => simp [upsert]
  | cons e rest ih =>
    rw [upsert]
    split
    · rename_i heq
      simp [heq]
    · rename_i hne
      simp only [List.find?_cons, hne, decide_false]
      exact ih

theorem find?_upsert_other {k' : κ} (hne : k' ≠ k) :
    (upsert k f d).find? (fun e => e.1 = k') = d.find? fun e => e.1 = k' := by
  induction d with
  | nil => simp [upsert, hne.symm]
  | cons e rest ih =>
    rw [upsert]
    split
    · rename_i heq
      simp [heq, hne.symm]
    · rw [List.find?_cons, List.find?_cons, ih]

theorem mem_upsert_other {e : κ × α} (hne : e.1 ≠ k) : e ∈ upsert k f d ↔ e ∈ d := by
  induction d with
  | nil =>
    rw [upsert, List.mem_singleton]
    exact ⟨fun h => absurd (congrArg Prod.fst h) hne, fun h => absurd h List.not_mem_nil⟩
  | cons x rest ih =>
    rw [upsert]
    split
    · rename_i heq
      have hx : e ≠ x := fun h => hne (h ▸ heq)
      have hk : e ≠ (k, f (some x.2)) := fun h => hne (congrArg Prod.fst h)
      rw [List.mem_cons, List.mem_cons]
      exact ⟨fun h => .inr (h.resolve_left hk), fun h => .inr (h.resolve_left hx)⟩
    · rw [List.mem_cons, List.mem_cons, ih]

theorem nodup_upsert (h : (d.map (·.1)).Nodup) : ((upsert k f d).map (·.1)).Nodup := by
  rw [keys_upsert]
  split
  · exact h
  · rename_i hnot
    refine List.nodup_append.mpr ⟨h, List.nodup_singleton k, ?_⟩
    intro a ha b hb
    rw [List.mem_singleton.mp hb]
    rintro rfl
    exact hnot ha

/-- What the new value makes true of its key, and every other entry had, holds afterwards. -/
theorem all_upsert {P : κ → α → Prop} (h : ∀ e ∈ d, P e.1 e.2) (hnew : P k (f none))
    (hold : ∀ v, P k v → P k (f (some v))) : ∀ e ∈ upsert k f d, P e.1 e.2 := by
  induction d with
  | nil =>
    intro e he
    rw [List.mem_singleton.mp he]
    exact hnew
  | cons x rest ih =>
    have hx := h x List.mem_cons_self
    have hrest : ∀ e ∈ rest, P e.1 e.2 := fun e he => h e (List.mem_cons_of_mem _ he)
    rw [upsert]
    split
    · rename_i heq
      intro e he
      rcases List.mem_cons.mp he with rfl | he
      · exact hold x.2 (heq ▸ hx)
      · exact hrest e he
    · intro e he
      rcases List.mem_cons.mp he with rfl | he
      · exact hx
      · exact ih hrest e he

end Dict
