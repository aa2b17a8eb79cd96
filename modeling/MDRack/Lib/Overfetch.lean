import Mathlib.Data.List.Basic

/-!
# Asking for growing prefixes

A loop asks for a prefix of a ranking, filters it, and asks for twice as many items until it has
enough or the ranking is used up.

* `rounds` — the loop, with fuel; a round answers or goes on with a new state and a doubled limit.
* `rounds_ends` — if every round with a limit past a bound answers, some fuel gives an answer and
  more fuel gives the same.
* `take_filter_of_full` — a prefix with enough selected items, or with all items, selects what the
  whole ranking selects.
-/

namespace Overfetch

/-- A positive limit. -/
abbrev Limit := { n : Nat // 0 < n }

def Limit.double (n : Limit) : Limit := ⟨2 * n.1, Nat.mul_pos (Nat.succ_pos 1) n.2⟩

variable {σ β : Type}

def rounds (round : σ → Limit → β ⊕ σ) : Nat → σ → Limit → Option β
  | 0, _, _ => none
  | fuel + 1, s, n =>
    match round s n with
    | .inl b => some b
    | .inr s' => rounds round fuel s' n.double

/-- More fuel does not change an answer. -/
theorem rounds_mono {round : σ → Limit → β ⊕ σ} {fuel : Nat} {s : σ} {n : Limit} {b : β}
    (h : rounds round fuel s n = some b) {fuel' : Nat} (hle : fuel ≤ fuel') :
    rounds round fuel' s n = some b := by
  induction fuel generalizing fuel' s n with
  | zero => cases h
  | succ fuel ih =>
    obtain ⟨fuel', rfl⟩ : ∃ k, fuel' = k + 1 := ⟨fuel' - 1, by omega⟩
    rw [rounds] at h ⊢
    cases hround : round s n with
    | inl b' => simpa [hround] using h
    | inr s' =>
      rw [hround] at h
      exact ih h (by omega)

theorem rounds_ends {round : σ → Limit → β ⊕ σ} (bound : Nat)
    (hround : ∀ s (n : Limit), bound < n.1 → ∃ b, round s n = .inl b) (s : σ) (n : Limit) :
    ∃ b, ∀ fuel, bound < fuel → rounds round fuel s n = some b := by
  have hanswer : ∀ k (s : σ) (n : Limit), bound < n.1 + k → ∃ b, rounds round (k + 1) s n = some b := by
    intro k
    induction k with
    | zero =>
      intro s n hlt
      obtain ⟨b, hb⟩ := hround s n hlt
      exact ⟨b, by rw [rounds, hb]⟩
    | succ k ih =>
      intro s n hlt
      rw [rounds]
      cases hs : round s n with
      | inl b => exact ⟨b, rfl⟩
      | inr s' =>
        have hpos := n.2
        have hdouble : bound < n.double.1 + k := by
          show bound < 2 * n.1 + k
          omega
        exact ih s' n.double hdouble
  have hpos := n.2
  obtain ⟨b, hb⟩ := hanswer bound s n (by omega)
  exact ⟨b, fun fuel hfuel => rounds_mono hb hfuel⟩

/-- An answer has every property that each round's answer has. -/
theorem rounds_spec {round : σ → Limit → β ⊕ σ} (good : β → Prop) (inv : σ → Limit → Prop)
    (hanswer : ∀ s n b, inv s n → round s n = .inl b → good b)
    (hnext : ∀ s n s', inv s n → round s n = .inr s' → inv s' n.double) {fuel : Nat} {s : σ}
    {n : Limit} {b : β} (hinv : inv s n) (h : rounds round fuel s n = some b) : good b := by
  induction fuel generalizing s n with
  | zero => cases h
  | succ fuel ih =>
    rw [rounds] at h
    cases hround : round s n with
    | inl b' =>
      rw [hround] at h
      cases h
      exact hanswer s n _ hinv hround
    | inr s' =>
      rw [hround] at h
      exact ih (hnext s n s' hinv hround) h

/-! ## Prefixes -/

variable {α : Type}

/-- A prefix that selects enough items selects the first ones of the whole. -/
theorem take_filter_of_enough (ranking : List α) (keep : α → Bool) {n limit : Nat}
    (h : limit ≤ ((ranking.take n).filter keep).length) :
    ((ranking.take n).filter keep).take limit = (ranking.filter keep).take limit := by
  have hsplit : (ranking.take n).filter keep ++ (ranking.drop n).filter keep = ranking.filter keep := by
    rw [← List.filter_append, List.take_append_drop]
  rw [← hsplit, List.take_append_of_le_length h]

theorem take_filter_of_full (ranking : List α) (keep : α → Bool) {n limit : Nat}
    (h : limit ≤ ((ranking.take n).filter keep).length ∨ (ranking.take n).length < n) :
    ((ranking.take n).filter keep).take limit = (ranking.filter keep).take limit := by
  rcases h with h | h
  · exact take_filter_of_enough ranking keep h
  · rw [List.length_take] at h
    have hall : ranking.take n = ranking := List.take_of_length_le (by omega)
    rw [hall]

/-- Past the end of the ranking the prefix is short. -/
theorem length_take_lt {ranking : List α} {n : Nat} (h : ranking.length < n) :
    (ranking.take n).length < n := by
  rw [List.length_take]
  omega

end Overfetch
