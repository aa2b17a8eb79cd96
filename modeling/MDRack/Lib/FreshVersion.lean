/-!
# Versions stamped with fresh tokens

A store keeps one version of an item.  Every change of the version stamps the new one with a
token drawn from a counter that never goes back, and tokens of different draws differ.

Principal results: `Run.issued` — every version of a run carries a token already drawn;
`stamped_version_is_new` — a version stamped by a step never occurred before in the run;
`Run.version_of_token` — a
token identifies its version; `left_token_never_returns` — a token that was replaced is never current again.
-/

namespace FreshVersion

variable {σ V τ : Type}

/-- How to read the version and the draw count of a store, and the token of a version. -/
structure Versioned (σ V τ : Type) where
  version : σ → V
  draws : σ → Nat
  token : V → Option τ
  stamp : Nat → τ
  stamp_injective : ∀ m n, stamp m = stamp n → m = n

/-- The version carries no token that is still to be drawn. -/
def Versioned.Issued (M : Versioned σ V τ) (n : Nat) (v : V) : Prop :=
  ∀ t, M.token v = some t → ∃ k < n, t = M.stamp k

/-- The step drew the token that the new version carries. -/
def Versioned.Stamped (M : Versioned σ V τ) (s s' : σ) : Prop :=
  ∃ k, M.draws s ≤ k ∧ k < M.draws s' ∧ M.token (M.version s') = some (M.stamp k)

/-- One step: draws never decrease, and the version is kept or stamped by the step. -/
structure Versioned.Step (M : Versioned σ V τ) (s s' : σ) : Prop where
  draws_le : M.draws s ≤ M.draws s'
  kept_or_stamped : M.version s' = M.version s ∨ M.Stamped s s'

/-- The stores of a run, latest first. -/
inductive Versioned.Run (M : Versioned σ V τ) : List σ → Prop
  | start {s : σ} (h : M.Issued (M.draws s) (M.version s)) : M.Run [s]
  | step {s s' : σ} {past : List σ} (h : M.Run (s :: past)) (hs : M.Step s s') :
      M.Run (s' :: s :: past)

variable {M : Versioned σ V τ} {s s' : σ} {past : List σ}

theorem Versioned.Issued.mono {m n : Nat} {v : V} (h : M.Issued m v) (hmn : m ≤ n) :
    M.Issued n v := by
  intro t ht
  obtain ⟨k, hk, rfl⟩ := h t ht
  exact ⟨k, by omega, rfl⟩

/-- The new version of a step carries an issued token when the old one does. -/
theorem Versioned.Step.issued (hs : M.Step s s') (h : M.Issued (M.draws s) (M.version s)) :
    M.Issued (M.draws s') (M.version s') := by
  rcases hs.kept_or_stamped with heq | ⟨k, -, hk, htoken⟩
  · rw [heq]
    exact h.mono hs.draws_le
  · intro t ht
    rw [htoken, Option.some.injEq] at ht
    exact ⟨k, hk, ht.symm⟩

/-- Every version of a run so far carries an issued token. -/
theorem Versioned.Run.issued {states : List σ} (h : M.Run states) :
    ∀ s past, states = s :: past → ∀ x ∈ states, M.Issued (M.draws s) (M.version x) := by
  induction h with
  | start h0 =>
    intro s past hl x hx
    obtain ⟨rfl, -⟩ := List.cons.inj hl
    rw [List.mem_singleton] at hx
    rw [hx]
    exact h0
  | @step t t' older h hs ih =>
    intro s past hl x hx
    obtain ⟨rfl, -⟩ := List.cons.inj hl
    have hpast := ih t older rfl
    rcases List.mem_cons.mp hx with rfl | hx
    · exact hs.issued (hpast t List.mem_cons_self)
    · exact (hpast x hx).mono hs.draws_le

/-- The token that a step drew is on no earlier version. -/
theorem stamped_token_is_new (h : M.Run (s :: past)) (hs : M.Stamped s s') :
    ∀ x ∈ s :: past, M.token (M.version x) ≠ M.token (M.version s') := by
  intro x hx heq
  obtain ⟨k, hle, -, htoken⟩ := hs
  obtain ⟨j, hj, hjk⟩ := h.issued s past rfl x hx (M.stamp k) (by rw [heq, htoken])
  have := M.stamp_injective k j hjk
  omega

theorem stamped_version_is_new (h : M.Run (s :: past)) (hs : M.Stamped s s') :
    ∀ x ∈ s :: past, M.version x ≠ M.version s' :=
  fun x hx heq => stamped_token_is_new h hs x hx (congrArg M.token heq)

/-- A token identifies its version over a whole run. -/
theorem Versioned.Run.version_of_token (h : M.Run (s :: past)) {x : σ} (hx : x ∈ s :: past)
    (heq : M.token (M.version x) = M.token (M.version s)) : M.version x = M.version s := by
  generalize hstates : s :: past = states at h hx
  induction h generalizing s past with
  | start =>
    obtain ⟨rfl, -⟩ := List.cons.inj hstates
    rw [List.mem_singleton.mp hx]
  | step h hs ih =>
    obtain ⟨rfl, -⟩ := List.cons.inj hstates
    rcases List.mem_cons.mp hx with rfl | hx
    · rfl
    · rcases hs.kept_or_stamped with hkept | hstamped
      · rw [hkept] at heq ⊢
        exact ih heq rfl hx
      · exact absurd heq (stamped_token_is_new h hstamped x hx)

/-- Versions of a run with one token are one version. -/
theorem Versioned.Run.versions_of_token {states : List σ} (h : M.Run states) {x y : σ}
    (hx : x ∈ states) (hy : y ∈ states) (heq : M.token (M.version x) = M.token (M.version y)) :
    M.version x = M.version y := by
  induction h with
  | start => rw [List.mem_singleton.mp hx, List.mem_singleton.mp hy]
  | step h hs ih =>
    have hrun := Versioned.Run.step h hs
    rcases List.mem_cons.mp hy with rfl | hy'
    · exact hrun.version_of_token hx heq
    · rcases List.mem_cons.mp hx with rfl | hx'
      · exact (hrun.version_of_token hy heq.symm).symm
      · exact ih hx' hy'

theorem Versioned.Run.tail {x : σ} {states : List σ} (h : M.Run (x :: states))
    (hne : states ≠ []) : M.Run states := by
  cases h with
  | start => exact absurd rfl hne
  | step h _ => exact h

/-- Once a step has stamped a new version, no token from before it comes back. -/
theorem left_token_never_returns {later : List σ} (h : M.Run (later ++ s' :: s :: past))
    (hs : M.Stamped s s') {y : σ} (hy : y ∈ s :: past) :
    ∀ x ∈ later ++ [s'], M.token (M.version x) ≠ M.token (M.version y) := by
  induction later with
  | nil =>
    intro x hx
    rw [List.nil_append, List.mem_singleton] at hx
    rw [hx]
    exact (stamped_token_is_new (h.tail (List.cons_ne_nil _ _)) hs y hy).symm
  | cons w rest ih =>
    have hrest : M.Run (rest ++ s' :: s :: past) := h.tail (by simp)
    have hpast := ih hrest
    intro x hx
    rcases List.mem_cons.mp hx with rfl | hx
    · -- the latest version is kept from the one before, or new
      obtain ⟨z, tail, hz⟩ : ∃ z tail, rest ++ s' :: s :: past = z :: tail := by
        cases rest <;> exact ⟨_, _, rfl⟩
      have hzmem : z ∈ rest ++ [s'] := by
        cases rest with
        | nil =>
          simp only [List.nil_append, List.cons.injEq] at hz
          simp [hz.1]
        | cons v rest =>
          simp only [List.cons_append, List.cons.injEq] at hz
          simp [hz.1]
      rw [List.cons_append, hz] at h
      cases h with
      | step hrun hstep =>
        rcases hstep.kept_or_stamped with heq | hstamped
        · rw [heq]
          exact hpast z hzmem
        · refine (stamped_token_is_new hrun hstamped y ?_).symm
          rw [← hz]
          exact List.mem_append_right _ (List.mem_cons_of_mem _ hy)
    · exact hpast x hx

end FreshVersion
