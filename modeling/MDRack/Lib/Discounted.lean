import Mathlib.Algebra.Order.Field.Basic
import Mathlib.Data.List.Perm.Subperm
import Mathlib.Tactic.Linarith

/-!
# Discounted sums

The sum of a list of gains, each multiplied by the discount of its place.

* `Falling` — a positive, strictly decreasing discount.
* `total` — the discounted sum.

Principal result: `total_le_ideal` — no sum exceeds that of the same gains in descending order, also
where gains are left out and zeros stand between them.
-/

namespace Discounted

variable {K : Type} [Field K] [LinearOrder K] [IsStrictOrderedRing K] {d : Nat → K}

structure Falling (d : Nat → K) : Prop where
  positive : ∀ n, 0 < d n
  falling : ∀ n, d (n + 1) < d n

omit [IsStrictOrderedRing K] in
theorem Falling.succ (h : Falling d) : Falling fun n => d (n + 1) :=
  ⟨fun n => h.positive (n + 1), fun n => h.falling (n + 1)⟩

def total (d : Nat → K) : List K → K
  | [] => 0
  | gain :: rest => gain * d 0 + total (fun n => d (n + 1)) rest

theorem total_nonneg (h : Falling d) {gains : List K} (hgains : ∀ g ∈ gains, 0 ≤ g) : 0 ≤ total d gains := by
  induction gains generalizing d with
  | nil => exact le_refl 0
  | cons g gains ih =>
    have hrest := ih h.succ fun g' hg' => hgains g' (List.mem_cons_of_mem _ hg')
    exact add_nonneg (mul_nonneg (hgains g List.mem_cons_self) (h.positive 0).le) hrest

theorem total_pos (h : Falling d) {gain : K} {rest : List K} (hgain : 0 < gain)
    (hrest : ∀ g ∈ rest, 0 ≤ g) : 0 < total d (gain :: rest) :=
  add_pos_of_pos_of_nonneg (mul_pos hgain (h.positive 0)) (total_nonneg h.succ hrest)

/-- One place later, the same gains make less. -/
theorem total_succ_le (h : Falling d) {gains : List K} (hgains : ∀ g ∈ gains, 0 ≤ g) :
    total (fun n => d (n + 1)) gains ≤ total d gains := by
  induction gains generalizing d with
  | nil => exact le_refl 0
  | cons g gains ih =>
    have hrest := ih h.succ fun g' hg' => hgains g' (List.mem_cons_of_mem _ hg')
    have hfirst := mul_le_mul_of_nonneg_left (h.falling 0).le (hgains g List.mem_cons_self)
    exact add_le_add hfirst hrest

omit [LinearOrder K] [IsStrictOrderedRing K] in
theorem total_zeros (n : Nat) : total d (List.replicate n 0) = 0 := by
  induction n generalizing d with
  | zero => rfl
  | succ n ih => rw [List.replicate_succ, total, ih, zero_mul, add_zero]

omit [LinearOrder K] [IsStrictOrderedRing K] in
/-- Zeros at the end make no difference. -/
theorem total_append_zeros (gains : List K) (n : Nat) :
    total d (gains ++ List.replicate n 0) = total d gains := by
  induction gains generalizing d with
  | nil => exact total_zeros n
  | cons g gains ih => rw [List.cons_append, total, total, ih]

/-- More places make more. -/
theorem total_take_le (h : Falling d) {gains : List K} (hgains : ∀ g ∈ gains, 0 ≤ g) {m n : Nat}
    (hmn : m ≤ n) : total d (gains.take m) ≤ total d (gains.take n) := by
  induction gains generalizing d m n with
  | nil => simp
  | cons g gains ih =>
    have hrest : ∀ g' ∈ gains, 0 ≤ g' := fun g' hg' => hgains g' (List.mem_cons_of_mem _ hg')
    cases m with
    | zero =>
      apply total_nonneg h
      intro g' hg'
      exact hgains g' (List.mem_of_mem_take hg')
    | succ m =>
      cases n with
      | zero => omega
      | succ n => exact add_le_add (le_refl _) (ih h.succ hrest (Nat.le_of_succ_le_succ hmn))

/-- A gain out of a descending list, put at its front, makes no more than the list itself. -/
theorem total_front_le (h : Falling d) {gains : List K} (hsorted : gains.Pairwise (· ≥ ·)) {x : K}
    (hx : x ∈ gains) (n : Nat) :
    total d (x :: (gains.erase x).take n) ≤ total d (gains.take (n + 1)) := by
  induction gains generalizing d n with
  | nil => cases hx
  | cons y gains ih =>
    rw [List.pairwise_cons] at hsorted
    by_cases heq : y = x
    · subst heq
      rw [List.erase_cons_head, List.take_succ_cons]
    · have hmem : x ∈ gains := (List.mem_cons.mp hx).resolve_left (Ne.symm heq)
      have hle : x ≤ y := hsorted.1 x hmem
      rw [List.erase_cons_tail (by simpa using heq), List.take_succ_cons]
      cases n with
      | zero => exact add_le_add (mul_le_mul_of_nonneg_right hle (h.positive 0).le) (le_refl _)
      | succ n =>
        have hrest := ih h.succ hsorted.2 hmem n
        have hswap : x * d 0 + y * d 1 ≤ y * d 0 + x * d 1 := by
          have hprod := mul_nonneg (sub_nonneg.mpr hle) (sub_nonneg.mpr (h.falling 0).le)
          linarith [hprod]
        rw [List.take_succ_cons]
        simp only [total] at hrest ⊢
        linarith

/-- Gains out of a descending list, with zeros between them, make no more than the list itself. -/
theorem total_le_ideal (h : Falling d) {gains ideal : List K} (hideal : ∀ g ∈ ideal, 0 ≤ g)
    (hsorted : ideal.Pairwise (· ≥ ·)) (hsub : (gains.filter (· ≠ 0)).Subperm ideal) :
    total d gains ≤ total d (ideal.take gains.length) := by
  induction gains generalizing d ideal with
  | nil => simp [total]
  | cons g gains ih =>
    by_cases hg : g = 0
    · subst hg
      rw [List.filter_cons_of_neg (by simp)] at hsub
      calc total d (0 :: gains) = total (fun n => d (n + 1)) gains := by rw [total, zero_mul, zero_add]
        _ ≤ total (fun n => d (n + 1)) (ideal.take gains.length) := ih h.succ hideal hsorted hsub
        _ ≤ total d (ideal.take gains.length) :=
          total_succ_le h fun g' hg' => hideal g' (List.mem_of_mem_take hg')
        _ ≤ total d (ideal.take (gains.length + 1)) := total_take_le h hideal (Nat.le_succ _)
    · rw [List.filter_cons_of_pos (by simpa using hg)] at hsub
      have hmem : g ∈ ideal := hsub.subset List.mem_cons_self
      have hrest : (gains.filter (· ≠ 0)).Subperm (ideal.erase g) := by
        have herase := hsub.erase g
        rwa [List.erase_cons_head] at herase
      have hih := ih h.succ (fun g' hg' => hideal g' (List.mem_of_mem_erase hg'))
        (hsorted.sublist List.erase_sublist) hrest
      calc total d (g :: gains) ≤ total d (g :: (ideal.erase g).take gains.length) :=
          add_le_add (le_refl _) hih
        _ ≤ total d (ideal.take (gains.length + 1)) := total_front_le h hsorted hmem gains.length

end Discounted
