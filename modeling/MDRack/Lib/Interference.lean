/-!
# A client among other writers

A client with its own local state shares a world with others.  Between any two of its steps the
others may change the world in any way open to them.

Principal results: `Run.invariant` — what every step keeps holds throughout;
`Run.budget` — where each step pays from a finite budget, the number of paid steps is bounded;
`Run.last` — nothing follows a step into a final state.
-/

namespace Interference

variable {P W : Type}

/-- One step of the client: its state and the world before and after. -/
structure Step (P W : Type) where
  pc : P
  world : W
  pc' : P
  world' : W

/-- Runs of a client from one state and world; the trace holds its own steps, latest first. -/
inductive Run (own : P → W → P → W → Prop) (other : W → W → Prop) (p₀ : P) (w₀ : W) :
    List (Step P W) → P → W → Prop
  | start : Run own other p₀ w₀ [] p₀ w₀
  | own {trace : List (Step P W)} {p p' : P} {w w' : W} (h : Run own other p₀ w₀ trace p w)
      (hstep : own p w p' w') : Run own other p₀ w₀ (⟨p, w, p', w'⟩ :: trace) p' w'
  | other {trace : List (Step P W)} {p : P} {w w' : W} (h : Run own other p₀ w₀ trace p w)
      (hstep : other w w') : Run own other p₀ w₀ trace p w'

variable {own : P → W → P → W → Prop} {other : W → W → Prop} {p₀ p : P} {w₀ w : W}
  {trace : List (Step P W)}

/-- What holds at the start and survives every step holds at the end and before each own step. -/
theorem Run.invariant {I : P → W → Prop} (h : Run own other p₀ w₀ trace p w) (hstart : I p₀ w₀)
    (hown : ∀ p w p' w', I p w → own p w p' w' → I p' w')
    (hother : ∀ p w w', I p w → other w w' → I p w') :
    I p w ∧ ∀ s ∈ trace, I s.pc s.world ∧ own s.pc s.world s.pc' s.world' := by
  induction h with
  | start => exact ⟨hstart, by simp⟩
  | own h hstep ih =>
    refine ⟨hown _ _ _ _ ih.1 hstep, fun s hs => ?_⟩
    rcases List.mem_cons.mp hs with rfl | hs
    · exact ⟨ih.1, hstep⟩
    · exact ih.2 s hs
  | other h hstep ih => exact ⟨hother _ _ _ ih.1 hstep, ih.2⟩

/-- Where every own step pays from a budget, paid steps are at most what it allows. -/
theorem Run.budget (h : Run own other p₀ w₀ trace p w) (paid : P → Bool) (budget : P → Nat)
    (hpaid : ∀ s ∈ trace, (paid s.pc).toNat + budget s.pc' ≤ budget s.pc) :
    trace.countP (fun s => paid s.pc) + budget p ≤ budget p₀ := by
  induction h with
  | start => simp
  | own h hstep ih =>
    have hrest := ih fun s hs => hpaid s (List.mem_cons_of_mem _ hs)
    have hlast := hpaid _ List.mem_cons_self
    rw [List.countP_cons]
    cases hp : paid _ <;> simp only [hp, Bool.toNat_true, Bool.toNat_false] at hlast ⊢ <;> simp <;> omega
  | other h hstep ih => exact ih hpaid

/-- A step into a state without further steps is the last one. -/
theorem Run.last {s : Step P W} (h : Run own other p₀ w₀ trace p w) (hs : s ∈ trace)
    (hfinal : ∀ w p' w', ¬ own s.pc' w p' w') : p = s.pc' := by
  induction h with
  | start => cases hs
  | own h hstep ih =>
    rcases List.mem_cons.mp hs with rfl | hs
    · rfl
    · rw [ih hs] at hstep
      exact absurd hstep (hfinal _ _ _)
  | other h hstep ih => exact ih hs

/-- The state at the end is the one that the last own step led to. -/
theorem Run.reached (h : Run own other p₀ w₀ trace p w) :
    (trace = [] ∧ p = p₀) ∨ ∃ s ∈ trace, p = s.pc' := by
  induction h with
  | start => exact .inl ⟨rfl, rfl⟩
  | own h hstep ih => exact .inr ⟨_, List.mem_cons_self, rfl⟩
  | other h hstep ih => exact ih

end Interference
