/-!
# Inclusion lists and positional values

`Included` reads an inclusion list: the empty list restricts nothing.  `narrow` intersects two of
them and says when nothing is left.  `evaluate` runs a conjunction of conditions whose placeholders
take their values from one list, left to right.

Principal results: `narrow_some`, `narrow_none`, `evaluate_append`.
-/

namespace Selection

section Inclusion

variable {α : Type} [DecidableEq α] {outer inner values : List α}

/-- An inclusion list admits a value; the empty one admits all. -/
def Included (values : List α) (x : α) : Prop := values ≠ [] → x ∈ values

instance (values : List α) (x : α) : Decidable (Included values x) :=
  inferInstanceAs (Decidable (_ → _))

/-- The intersection of two inclusion lists, or none where it would admit nothing. -/
def narrow (outer inner : List α) : Option (List α) :=
  if inner = [] then some outer
  else if outer = [] then some inner
  else
    let intersection := outer.filter fun x => decide (x ∈ inner)
    if intersection = [] then none else some intersection

theorem narrow_some (h : narrow outer inner = some values) (x : α) :
    Included values x ↔ Included outer x ∧ Included inner x := by
  unfold narrow at h
  split at h
  · rename_i hinner
    cases h
    simp [Included, hinner]
  · rename_i hinner
    split at h
    · rename_i houter
      cases h
      simp [Included, houter]
    · rename_i houter
      dsimp only at h
      split at h
      · cases h
      · rename_i hne
        cases h
        simp only [Included, ne_eq, hne, hinner, houter, not_false_eq_true, forall_const,
          List.mem_filter, decide_eq_true_eq]

/-- An intersection that is left admits some value, unless there are no values at all. -/
theorem narrow_inhabited (h : narrow outer inner = some values) (x : α) :
    ∃ y, Included outer y ∧ Included inner y := by
  cases values with
  | nil => exact ⟨x, (narrow_some h x).mp fun hne => absurd rfl hne⟩
  | cons y rest => exact ⟨y, (narrow_some h y).mp fun _ => List.mem_cons_self⟩

theorem narrow_none (h : narrow outer inner = none) (x : α) :
    ¬ (Included outer x ∧ Included inner x) := by
  unfold narrow at h
  split at h
  · cases h
  · rename_i hinner
    split at h
    · cases h
    · rename_i houter
      dsimp only at h
      split at h
      · rename_i hempty
        rintro ⟨hx, hx'⟩
        have hmem : x ∈ outer.filter fun x => decide (x ∈ inner) :=
          List.mem_filter.mpr ⟨hx houter, decide_eq_true (hx' hinner)⟩
        rw [hempty] at hmem
        cases hmem
      · cases h

end Inclusion

/-! ## Conditions with placeholders -/

section Placeholders

variable {γ π : Type} {slots : γ → Nat} {holds : γ → List π → Bool}

/-- `c₁ AND c₂ AND …`, each condition taking the next values; none when their number is wrong. -/
def evaluate (slots : γ → Nat) (holds : γ → List π → Bool) : List γ → List π → Option Bool
  | [], [] => some true
  | [], _ :: _ => none
  | c :: rest, values =>
    if slots c ≤ values.length then
      (evaluate slots holds rest (values.drop (slots c))).map
        (holds c (values.take (slots c)) && ·)
    else none

/-- A condition appended with its own values restricts what was there. -/
theorem evaluate_append {conditions : List γ} {values added : List π} {c : γ} {b : Bool}
    (h : evaluate slots holds conditions values = some b) (hslots : slots c = added.length) :
    evaluate slots holds (conditions ++ [c]) (values ++ added) = some (b && holds c added) := by
  induction conditions generalizing values b with
  | nil =>
    cases values with
    | nil =>
      simp only [evaluate, Option.some.injEq] at h
      subst h
      simp [evaluate, hslots]
    | cons => cases h
  | cons d rest ih =>
    rw [evaluate] at h
    split at h
    · rename_i hle
      obtain ⟨b', hrest, rfl⟩ := Option.map_eq_some_iff.mp h
      have hlength : slots d ≤ (values ++ added).length := by
        rw [List.length_append]
        omega
      rw [List.cons_append, evaluate, if_pos hlength, List.drop_append_of_le_length hle,
        List.take_append_of_le_length hle, ih hrest, Option.map_some, Bool.and_assoc]
    · cases h

end Placeholders

end Selection
