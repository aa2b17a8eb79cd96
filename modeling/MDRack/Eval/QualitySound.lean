import Mathlib.Data.List.Sort
import MDRack.Eval.QualityEvaluate

/-!
# Soundness of the quality metrics

* `Credits` — what one turn of the matching does: the item gets a judgment that it meets and that is not
  consumed, or there is none.
* `Matched` — the same for the whole list.
* `SoundMatching` — one judgment to one item, greedy from the first rank on.
* `SoundRows` — shares between zero and one, rising with the cutoff, the same from the first ranks alone.

Principal result: `evaluateCase_sound` — the evaluation of every case of an accepted document raises
nothing and is sound, for every falling discount.
-/

namespace MDRack.Eval

open Checks
open CodePoints (Text)
open Loads (Value)
open Discounted (Falling)

variable {rule : Rule} {gold : List QualityJudgment} {ranked : QualityItem} {consumed : List Text}

/-! ## One turn -/

/-- The affinity of a judgment, where it raises nothing. -/
def scoreOf (rule : Rule) (ranked : QualityItem) (j : QualityJudgment) : Option ℚ :=
  match affinity rule ranked j.item with
  | .ok score => score
  | .error _ => none

theorem zip_map_filterMap {α β γ : Type} (xs : List α) (g : α → β) (f : α × β → Option γ) :
    (xs.zip (xs.map g)).filterMap f = xs.filterMap fun x => f (x, g x) := by
  induction xs with
  | nil => rfl
  | cons x xs ih =>
    rw [List.map_cons, List.zip_cons_cons, List.filterMap_cons, List.filterMap_cons, ih]

theorem eligible_eq (hranked : ranked.WellFormed rule) (hgold : ∀ j ∈ gold, j.item.WellFormed rule) :
    eligible rule gold ranked =
      .ok (gold.filterMap fun j => (scoreOf rule ranked j).map fun score => (j, score)) := by
  have hscores : mapAll (fun j : QualityJudgment => affinity rule ranked j.item) gold =
      .ok (gold.map (scoreOf rule ranked)) := by
    apply mapAll_of_forall
    intro j hj
    obtain ⟨score, hscore, -⟩ := affinity_spec hranked (hgold j hj)
    rw [scoreOf, hscore]
  rw [eligible, hscores]
  exact congrArg Except.ok (zip_map_filterMap gold _ _)

theorem mem_found {j : QualityJudgment} {score : ℚ} :
    (j, score) ∈ (gold.filterMap fun j => (scoreOf rule ranked j).map fun score => (j, score)) ↔
      j ∈ gold ∧ scoreOf rule ranked j = some score := by
  rw [List.mem_filterMap]
  constructor
  · rintro ⟨j', hj', hmap⟩
    obtain ⟨score', hscore', heq⟩ := Option.map_eq_some_iff.mp hmap
    obtain ⟨rfl, rfl⟩ := Prod.mk.inj heq
    exact ⟨hj', hscore'⟩
  · rintro ⟨hj, hscore⟩
    exact ⟨j, hj, by rw [hscore]; rfl⟩

theorem scoreOf_spec (hranked : ranked.WellFormed rule) {j : QualityJudgment}
    (hj : j.item.WellFormed rule) : scoreOf rule ranked j ≠ none ↔ Meets rule ranked j.item := by
  obtain ⟨score, hscore, hmeets⟩ := affinity_spec hranked hj
  rw [scoreOf, hscore]
  exact hmeets

theorem choose_mem (first : Candidate) (rest : List Candidate) : choose first rest ∈ first :: rest := by
  induction rest generalizing first with
  | nil => exact List.mem_cons_self
  | cons candidate rest ih =>
    have hstep : choose first (candidate :: rest) =
        choose (if precedes candidate first then candidate else first) rest := rfl
    rw [hstep]
    rcases List.mem_cons.mp (ih (if precedes candidate first then candidate else first)) with heq | hmem
    · rw [heq]
      split
      · exact List.mem_cons_of_mem _ List.mem_cons_self
      · exact List.mem_cons_self
    · exact List.mem_cons_of_mem _ (List.mem_cons_of_mem _ hmem)

/-- A judgment with intervals meets items with intervals only, so that the coordinates of a pair are
there. -/
theorem pairOf_total {chosen : Candidate} (hchosen : chosen.1.item.WellFormed rule)
    (hmeets : Meets rule ranked chosen.1.item) : ∃ pair, pairOf rule ranked chosen = .ok pair := by
  rw [pairOf]
  cases hmatching : rule.matching with
  | identity => exact ⟨none, rfl⟩
  | temporal intervalIou tolerance =>
    by_cases hintervals : chosen.1.item.intervals ≠ []
    · have hranked : ranked.intervals ≠ [] := by
        have hrule := hmeets.2
        have hkind := hchosen.2
        rw [hmatching] at hrule hkind
        rcases hrule with ⟨a, b, -, hb, -⟩ | hshares
        · exact absurd (hkind.mpr (by rw [hb]; exact Option.some_ne_none b)) hintervals
        · exact hshares.1
      obtain ⟨r, rs, hr⟩ := List.exists_cons_of_ne_nil hranked
      obtain ⟨c, cs, hc⟩ := List.exists_cons_of_ne_nil hintervals
      simp only [first, last, hr, hc, List.head?_cons, getOr, bind, Except.bind]
      exact ⟨_, rfl⟩
    · exact ⟨_, if_neg hintervals⟩

/-- What a turn of the matching does. -/
structure Credits (rule : Rule) (gold : List QualityJudgment) (consumed : List Text) (ranked : QualityItem)
    (outcome : Outcome) : Prop where
  credited : ∀ j, outcome.credited = some j →
    j ∈ gold ∧ 0 < j.grade ∧ j.judgmentId ∉ consumed ∧ Meets rule ranked j.item
  uncredited : outcome.credited = none →
    ∀ j ∈ gold, 0 < j.grade → Meets rule ranked j.item → j.judgmentId ∈ consumed
  labelled : (∃ j ∈ gold, Meets rule ranked j.item) → outcome.label ≠ none

theorem matchOne_credits (hranked : ranked.WellFormed rule) (hgold : ∀ j ∈ gold, j.item.WellFormed rule) :
    ∃ outcome, matchOne rule gold consumed ranked = .ok outcome ∧
      Credits rule gold consumed ranked outcome := by
  rw [matchOne, eligible_eq hranked hgold]
  simp only [bind, Except.bind]
  generalize hfound : (gold.filterMap fun j => (scoreOf rule ranked j).map fun score => (j, score)) = found
  have hmem : ∀ c : Candidate, c ∈ found → c.1 ∈ gold ∧ Meets rule ranked c.1.item := by
    intro c hc
    rw [← hfound] at hc
    obtain ⟨hj, hscore⟩ := mem_found.mp hc
    refine ⟨hj, (scoreOf_spec hranked (hgold c.1 hj)).mp ?_⟩
    rw [hscore]
    exact Option.some_ne_none _
  have hall : ∀ j ∈ gold, Meets rule ranked j.item → ∃ score, (j, score) ∈ found := by
    intro j hj hmeets
    obtain ⟨score, hscore⟩ := Option.ne_none_iff_exists'.mp ((scoreOf_spec hranked (hgold j hj)).mpr hmeets)
    refine ⟨score, ?_⟩
    rw [← hfound]
    exact mem_found.mpr ⟨hj, hscore⟩
  have hlabelled : (∃ j ∈ gold, Meets rule ranked j.item) →
      (if (found.filter fun p => 0 < p.1.grade) ≠ [] then some 1
        else if found ≠ [] then some 0 else none) ≠ none := by
    rintro ⟨j, hj, hmeets⟩
    obtain ⟨score, hscore⟩ := hall j hj hmeets
    have hne : found ≠ [] := List.ne_nil_of_mem hscore
    split
    · exact Option.some_ne_none 1
    · exact Option.some_ne_none 0
  split
  · rename_i hnone
    refine ⟨_, rfl, ?_, ?_, hlabelled⟩
    · intro j hj
      cases hj
    · intro _ j hj hgrade hmeets
      obtain ⟨score, hscore⟩ := hall j hj hmeets
      by_contra hfresh
      have hin : (j, score) ∈ ([] : List Candidate) := by
        rw [← hnone, List.mem_filter, List.mem_filter]
        exact ⟨⟨hscore, by simpa using hgrade⟩, by simpa using hfresh⟩
      cases hin
  · rename_i candidate rest hcandidates
    have hchosen := choose_mem candidate rest
    rw [← hcandidates, List.mem_filter, List.mem_filter] at hchosen
    obtain ⟨⟨hin, hgrade⟩, hfresh⟩ := hchosen
    obtain ⟨hj, hmeets⟩ := hmem _ hin
    obtain ⟨pair, hpair⟩ := pairOf_total (hgold _ hj) hmeets
    rw [hpair]
    refine ⟨_, rfl, ?_, ?_, hlabelled⟩
    · intro j hj'
      obtain rfl := Option.some.inj hj'
      exact ⟨hj, by simpa using hgrade, by simpa using hfresh, hmeets⟩
    · intro h
      cases h

/-! ## The whole list -/

inductive Matched (rule : Rule) (gold : List QualityJudgment) :
    List Text → List QualityItem → List Outcome → Prop
  | nil (consumed : List Text) : Matched rule gold consumed [] []
  | cons {consumed : List Text} {ranked : QualityItem} {outcome : Outcome} {rest : List QualityItem}
      {outcomes : List Outcome} (turn : Credits rule gold consumed ranked outcome)
      (more : Matched rule gold (consume consumed outcome) rest outcomes) :
      Matched rule gold consumed (ranked :: rest) (outcome :: outcomes)

theorem matchRanked_matched {items : List QualityItem} (hitems : ∀ r ∈ items, r.WellFormed rule)
    (hgold : ∀ j ∈ gold, j.item.WellFormed rule) :
    ∃ outcomes, matchRanked rule gold consumed items = .ok outcomes ∧
      Matched rule gold consumed items outcomes := by
  induction items generalizing consumed with
  | nil => exact ⟨[], rfl, .nil consumed⟩
  | cons ranked rest ih =>
    obtain ⟨outcome, hone, hturn⟩ := matchOne_credits (hitems ranked List.mem_cons_self) hgold
    obtain ⟨outcomes, hmore, hmatched⟩ := ih fun r hr => hitems r (List.mem_cons_of_mem _ hr)
    refine ⟨outcome :: outcomes, ?_, .cons hturn hmatched⟩
    rw [matchRanked, hone]
    simp only [bind, Except.bind]
    rw [hmore]

/-- The matching of a prefix is the prefix of the matching. -/
theorem matchRanked_take {items : List QualityItem} {outcomes : List Outcome}
    (h : matchRanked rule gold consumed items = .ok outcomes) (k : Nat) :
    matchRanked rule gold consumed (items.take k) = .ok (outcomes.take k) := by
  induction items generalizing consumed outcomes k with
  | nil =>
    obtain rfl := Except.ok.inj h
    simp [matchRanked]
  | cons ranked rest ih =>
    rw [matchRanked, bind_ok] at h
    obtain ⟨outcome, hone, h⟩ := h
    rw [bind_ok] at h
    obtain ⟨more, hmore, heq⟩ := h
    obtain rfl := Except.ok.inj heq
    cases k with
    | zero => rfl
    | succ k =>
      rw [List.take_succ_cons, List.take_succ_cons, matchRanked, hone]
      simp only [bind, Except.bind]
      rw [ih hmore k]

/-- The judgment that is credited at a rank. -/
def creditedAt (outcomes : List Outcome) (i : Nat) : Option QualityJudgment :=
  outcomes[i]?.bind (·.credited)

/-- The judgments that are credited, in the order of the ranks. -/
def creditedOf (outcomes : List Outcome) : List QualityJudgment := outcomes.filterMap (·.credited)

variable {items : List QualityItem} {outcomes : List Outcome}

theorem Matched.length (h : Matched rule gold consumed items outcomes) : outcomes.length = items.length := by
  induction h with
  | nil => rfl
  | cons turn more ih => rw [List.length_cons, List.length_cons, ih]

theorem Matched.take (h : Matched rule gold consumed items outcomes) (k : Nat) :
    Matched rule gold consumed (items.take k) (outcomes.take k) := by
  induction h generalizing k with
  | nil => simpa using Matched.nil _
  | cons turn more ih =>
    cases k with
    | zero => exact .nil _
    | succ k => exact .cons turn (ih k)

theorem consume_subset {outcome : Outcome} {id : Text} (h : id ∈ consumed) : id ∈ consume consumed outcome := by
  rw [consume]
  split
  · exact List.mem_cons_of_mem _ h
  · exact h

/-- A credited judgment is positive, of the gold, not consumed before, and meets its item. -/
theorem Matched.credited (h : Matched rule gold consumed items outcomes) {i : Nat} {j : QualityJudgment}
    (hj : creditedAt outcomes i = some j) :
    j ∈ gold ∧ 0 < j.grade ∧ j.judgmentId ∉ consumed ∧
      ∃ r, items[i]? = some r ∧ Meets rule r j.item := by
  induction h generalizing i with
  | nil =>
    simp [creditedAt] at hj
  | @cons consumed ranked outcome rest outcomes turn more ih =>
    cases i with
    | zero =>
      obtain ⟨hin, hgrade, hfresh, hmeets⟩ := turn.credited j hj
      exact ⟨hin, hgrade, hfresh, ranked, rfl, hmeets⟩
    | succ i =>
      obtain ⟨hin, hgrade, hfresh, hmeets⟩ := ih hj
      exact ⟨hin, hgrade, fun hold => hfresh (consume_subset hold), hmeets⟩

theorem mem_creditedOf {j : QualityJudgment} : j ∈ creditedOf outcomes ↔ ∃ i, creditedAt outcomes i = some j := by
  rw [creditedOf, List.mem_filterMap]
  constructor
  · rintro ⟨outcome, hmem, hj⟩
    obtain ⟨i, hi⟩ := List.mem_iff_getElem?.mp hmem
    exact ⟨i, by rw [creditedAt, hi]; exact hj⟩
  · rintro ⟨i, hi⟩
    obtain ⟨outcome, houtcome, hj⟩ := Option.bind_eq_some_iff.mp hi
    exact ⟨outcome, List.mem_of_getElem? houtcome, hj⟩

/-- No judgment is credited twice. -/
theorem Matched.ids_nodup (h : Matched rule gold consumed items outcomes) :
    ((creditedOf outcomes).map (·.judgmentId)).Nodup := by
  induction h with
  | nil => exact List.nodup_nil
  | @cons consumed ranked outcome rest outcomes turn more ih =>
    cases hcredited : outcome.credited with
    | none =>
      rw [creditedOf, List.filterMap_cons_none hcredited]
      exact ih
    | some j =>
      rw [creditedOf, List.filterMap_cons_some hcredited, List.map_cons, List.nodup_cons]
      refine ⟨?_, ih⟩
      intro hmem
      obtain ⟨j', hj', hid⟩ := List.mem_map.mp hmem
      obtain ⟨i, hi⟩ := mem_creditedOf.mp hj'
      apply (more.credited hi).2.2.1
      rw [hid, consume, hcredited]
      exact List.mem_cons_self

/-- An item is left without a judgment only if every positive judgment that it meets is consumed. -/
theorem Matched.uncredited (h : Matched rule gold consumed items outcomes) {i : Nat} {r : QualityItem}
    (hr : items[i]? = some r) (hnone : creditedAt outcomes i = none) {j : QualityJudgment} (hj : j ∈ gold)
    (hgrade : 0 < j.grade) (hmeets : Meets rule r j.item) :
    j.judgmentId ∈ consumed ∨
      ∃ i' < i, ∃ j', creditedAt outcomes i' = some j' ∧ j'.judgmentId = j.judgmentId := by
  induction h generalizing i with
  | nil => simp at hr
  | @cons consumed ranked outcome rest outcomes turn more ih =>
    cases i with
    | zero =>
      obtain rfl := Option.some.inj hr
      exact .inl (turn.uncredited hnone j hj hgrade hmeets)
    | succ i =>
      rcases ih hr hnone with hold | ⟨i', hi', j', hj', hid⟩
      · cases hcredited : outcome.credited with
        | none =>
          rw [consume, hcredited] at hold
          exact .inl hold
        | some j' =>
          rw [consume, hcredited] at hold
          rcases List.mem_cons.mp hold with hid | hold
          · exact .inr ⟨0, Nat.succ_pos i, j', hcredited, hid.symm⟩
          · exact .inl hold
      · exact .inr ⟨i' + 1, Nat.succ_lt_succ hi', j', hj', hid⟩

/-- Where every item meets some judgment, every item has a label. -/
theorem Matched.labelled (h : Matched rule gold consumed items outcomes)
    (hall : ∀ r ∈ items, ∃ j ∈ gold, Meets rule r j.item) : ∀ o ∈ outcomes, o.label ≠ none := by
  induction h with
  | nil =>
    intro o ho
    cases ho
  | cons turn more ih =>
    intro o ho
    rcases List.mem_cons.mp ho with rfl | ho
    · exact turn.labelled (hall _ List.mem_cons_self)
    · exact ih (fun r hr => hall r (List.mem_cons_of_mem _ hr)) o ho

/-! ## The matching of a case -/

/-- What the matching of a case is. -/
structure SoundMatching (case : QualityCase) (outcomes : List Outcome) : Prop where
  length : outcomes.length = case.ranked.length
  once : ∀ i i' j, creditedAt outcomes i = some j → creditedAt outcomes i' = some j → i = i'
  meets : ∀ i j, creditedAt outcomes i = some j →
    j ∈ case.positives ∧ ∃ r, case.ranked[i]? = some r ∧ Meets case.rule r j.item
  greedy : ∀ i r, case.ranked[i]? = some r → creditedAt outcomes i = none →
    ∀ j ∈ case.positives, Meets case.rule r j.item → ∃ i' < i, creditedAt outcomes i' = some j

variable {case : QualityCase}

theorem QualityCase.mem_positives {j : QualityJudgment} : j ∈ case.positives ↔ j ∈ case.gold ∧ 0 < j.grade := by
  simp [QualityCase.positives]

/-- The judgment IDs of the gold are distinct. -/
theorem QualityCase.WellFormed.gold_inj (hcase : case.WellFormed) {j j' : QualityJudgment}
    (hj : j ∈ case.gold) (hj' : j' ∈ case.gold) (hid : j.judgmentId = j'.judgmentId) : j = j' :=
  List.inj_on_of_nodup_map hcase.ids_nodup (QualityCase.mem_gold.mp hj).1 (QualityCase.mem_gold.mp hj').1 hid

theorem once_of_nodup {outcomes : List Outcome} (h : ((creditedOf outcomes).map (·.judgmentId)).Nodup)
    {i i' : Nat} {j : QualityJudgment} (hi : creditedAt outcomes i = some j)
    (hi' : creditedAt outcomes i' = some j) : i = i' := by
  induction outcomes generalizing i i' with
  | nil => simp [creditedAt] at hi
  | cons outcome outcomes ih =>
    have hrest : ((creditedOf outcomes).map (·.judgmentId)).Nodup := by
      cases hcredited : outcome.credited with
      | none =>
        rw [creditedOf, List.filterMap_cons_none hcredited] at h
        exact h
      | some j' =>
        rw [creditedOf, List.filterMap_cons_some hcredited, List.map_cons, List.nodup_cons] at h
        exact h.2
    have hhead : ∀ {n : Nat}, outcome.credited = some j → ¬ creditedAt outcomes n = some j := by
      intro n hcredited hn
      rw [creditedOf, List.filterMap_cons_some hcredited, List.map_cons, List.nodup_cons] at h
      exact h.1 (List.mem_map_of_mem (mem_creditedOf.mpr ⟨n, hn⟩))
    cases i with
    | zero =>
      cases i' with
      | zero => rfl
      | succ i' => exact absurd hi' (hhead hi)
    | succ i =>
      cases i' with
      | zero => exact absurd hi (hhead hi')
      | succ i' => exact congrArg Nat.succ (ih hrest hi hi')

theorem Matched.sound (hcase : case.WellFormed)
    (h : Matched case.rule case.gold [] case.ranked outcomes) : SoundMatching case outcomes where
  length := h.length
  once i i' j hi hi' := once_of_nodup h.ids_nodup hi hi'
  meets i j hj := by
    obtain ⟨hin, hgrade, -, hmeets⟩ := h.credited hj
    exact ⟨QualityCase.mem_positives.mpr ⟨hin, hgrade⟩, hmeets⟩
  greedy i r hr hnone j hj hmeets := by
    obtain ⟨hin, hgrade⟩ := QualityCase.mem_positives.mp hj
    rcases h.uncredited hr hnone hin hgrade hmeets with hold | ⟨i', hi', j', hj', hid⟩
    · cases hold
    · obtain rfl := hcase.gold_inj (h.credited hj').1 hin hid
      exact ⟨i', hi', hj'⟩

/-! ## Metrics -/

/-- The grades of the credited judgments are the grades that are not zero. -/
theorem filter_grades (hgrade : ∀ j ∈ creditedOf outcomes, 0 < j.grade) :
    (outcomes.map Outcome.grade).filter (fun grade => 0 < grade) = (creditedOf outcomes).map (·.grade) := by
  induction outcomes with
  | nil => rfl
  | cons outcome outcomes ih =>
    cases hcredited : outcome.credited with
    | none =>
      have hzero : outcome.grade = 0 := by rw [Outcome.grade, hcredited]; rfl
      rw [creditedOf, List.filterMap_cons_none hcredited] at hgrade ⊢
      rw [List.map_cons, List.filter_cons_of_neg (by simp [hzero])]
      exact ih hgrade
    | some j =>
      have hj : outcome.grade = j.grade := by rw [Outcome.grade, hcredited]; rfl
      rw [creditedOf, List.filterMap_cons_some hcredited] at hgrade ⊢
      have hpos := hgrade j List.mem_cons_self
      rw [List.map_cons, List.filter_cons_of_pos (by simpa [hj] using hpos), hj, List.map_cons]
      exact congrArg _ (ih fun j' hj' => hgrade j' (List.mem_cons_of_mem _ hj'))

theorem gain_zero : gain 0 = 0 := by norm_num [gain]

theorem gain_pos {grade : Nat} (h : 0 < grade) : 0 < gain grade := by
  have hpow : (1 : ℚ) < 2 ^ grade := one_lt_pow₀ (by norm_num) (Nat.pos_iff_ne_zero.mp h)
  exact sub_pos.mpr hpow

theorem gain_nonneg (grade : Nat) : 0 ≤ gain grade := by
  rcases Nat.eq_zero_or_pos grade with rfl | hpos
  · rw [gain_zero]
  · exact (gain_pos hpos).le

theorem gain_mono {a b : Nat} (h : a ≤ b) : gain a ≤ gain b :=
  sub_le_sub_right (pow_le_pow_right₀ (by norm_num) h) 1

theorem gains_nonneg (grades : List Nat) : ∀ g ∈ grades.map gain, 0 ≤ g := by
  intro g hg
  obtain ⟨grade, -, rfl⟩ := List.mem_map.mp hg
  exact gain_nonneg grade

theorem gains_filter (grades : List Nat) :
    (grades.map gain).filter (· ≠ 0) = (grades.filter fun grade => 0 < grade).map gain := by
  rw [List.filter_map]
  congr 1
  apply List.filter_congr
  intro grade _
  rcases Nat.eq_zero_or_pos grade with rfl | hpos
  · simp [gain_zero]
  · simp [hpos, (gain_pos hpos).ne']

theorem idealGrades_perm (case : QualityCase) : (idealGrades case).Perm (case.positives.map (·.grade)) :=
  List.mergeSort_perm _ _

theorem idealGrades_sorted (case : QualityCase) : ((idealGrades case).map gain).Pairwise (· ≥ ·) := by
  have hsorted : (idealGrades case).Pairwise fun a b => decide (b ≤ a) = true := by
    apply List.pairwise_mergeSort
    · intro a b c hab hbc
      rw [decide_eq_true_eq] at hab hbc ⊢
      exact le_trans hbc hab
    · intro a b
      rw [Bool.or_eq_true, decide_eq_true_eq, decide_eq_true_eq]
      exact le_total b a
  rw [List.pairwise_map]
  apply hsorted.imp
  intro a b hab
  exact gain_mono (of_decide_eq_true hab)

theorem subperm_map {α β : Type} (f : α → β) {xs ys : List α} (h : xs.Subperm ys) :
    (xs.map f).Subperm (ys.map f) := by
  obtain ⟨zs, hperm, hsub⟩ := h
  exact ⟨zs.map f, hperm.map f, hsub.map f⟩

section Rows

variable {discount : Nat → ℚ} (hcase : case.WellFormed)
  (hmatched : Matched case.rule case.gold [] case.ranked outcomes)

/-- The grades of the first ranks. -/
abbrev topGrades (outcomes : List Outcome) (k : Nat) : List Nat := (outcomes.map Outcome.grade).take k

abbrev hits (outcomes : List Outcome) (k : Nat) : Nat := (topGrades outcomes k).countP fun grade => 0 < grade

/-- The value of `reciprocal`. -/
def reciprocalValue (grades : List Nat) : ℚ :=
  match grades.findIdx? fun grade => 0 < grade with
  | some i => 1 / ((i + 1 : Nat) : ℚ)
  | none => 0

include hmatched

theorem credited_positive (k : Nat) : ∀ j ∈ creditedOf (outcomes.take k), j ∈ case.positives := by
  intro j hj
  obtain ⟨i, hi⟩ := mem_creditedOf.mp hj
  obtain ⟨hin, hgrade, -⟩ := (hmatched.take k).credited hi
  exact QualityCase.mem_positives.mpr ⟨hin, hgrade⟩

/-- The credited judgments are some of the positive ones, each at most once. -/
theorem credited_subperm (k : Nat) : (creditedOf (outcomes.take k)).Subperm case.positives := by
  have hnodup : (creditedOf (outcomes.take k)).Nodup := List.Nodup.of_map _ (hmatched.take k).ids_nodup
  exact List.subperm_of_subset hnodup (credited_positive hmatched k)

theorem topGrades_filter (k : Nat) : (topGrades outcomes k).filter (fun grade => 0 < grade) =
    (creditedOf (outcomes.take k)).map (·.grade) := by
  rw [topGrades, ← List.map_take]
  apply filter_grades
  intro j hj
  exact (QualityCase.mem_positives.mp (credited_positive hmatched k j hj)).2

theorem hits_le (k : Nat) : hits outcomes k ≤ case.positives.length := by
  rw [hits, List.countP_eq_length_filter, topGrades_filter hmatched k, List.length_map]
  exact (credited_subperm hmatched k).length_le

/-- The discounted gains of the first ranks do not exceed the ideal ones. -/
theorem dcg_le_ideal (hd : Falling discount) (k : Nat) :
    dcg discount (topGrades outcomes k) ≤ dcg discount ((idealGrades case).take k) := by
  have hsub : ((topGrades outcomes k).map gain |>.filter (· ≠ 0)).Subperm ((idealGrades case).map gain) := by
    rw [gains_filter, topGrades_filter hmatched k]
    have hgrades := subperm_map (·.grade) (credited_subperm hmatched k)
    exact subperm_map gain (hgrades.trans (idealGrades_perm case).symm.subperm)
  have hle := Discounted.total_le_ideal hd (gains_nonneg (idealGrades case)) (idealGrades_sorted case) hsub
  have hlength : ((topGrades outcomes k).map gain).length ≤ k := by
    rw [List.length_map, topGrades, List.length_take]
    exact Nat.min_le_left _ _
  have htake : ((idealGrades case).take k).map gain = ((idealGrades case).map gain).take k := List.map_take
  rw [dcg, dcg, htake]
  exact hle.trans (Discounted.total_take_le hd (gains_nonneg (idealGrades case)) hlength)

omit hmatched

include hcase in
theorem positives_ne (hpositive : case.positive = true) : case.positives ≠ [] := hcase.declared.mp hpositive

include hcase in
/-- The ideal sum of a positive case is positive. -/
theorem ideal_pos (hd : Falling discount) (hpositive : case.positive = true) {k : Nat} (hk : 1 ≤ k) :
    0 < dcg discount ((idealGrades case).take k) := by
  have hne : idealGrades case ≠ [] := by
    intro hempty
    have hperm := idealGrades_perm case
    rw [hempty] at hperm
    exact positives_ne hcase hpositive (List.map_eq_nil_iff.mp hperm.nil_eq.symm)
  obtain ⟨grade, grades, hgrades⟩ := List.exists_cons_of_ne_nil hne
  obtain ⟨k, rfl⟩ := Nat.exists_eq_add_of_le' hk
  have hmem : grade ∈ case.positives.map (·.grade) := by
    apply (idealGrades_perm case).subset
    rw [hgrades]
    exact List.mem_cons_self
  obtain ⟨j, hj, hgrade⟩ := List.mem_map.mp hmem
  have hpos : 0 < grade := hgrade ▸ (QualityCase.mem_positives.mp hj).2
  rw [hgrades, List.take_succ_cons, dcg, List.map_cons]
  exact Discounted.total_pos hd (gain_pos hpos) (gains_nonneg _)

/-! ### One row -/

theorem quotientIf_total {condition : Prop} [Decidable condition] {a b : ℚ} (h : condition → b ≠ 0) :
    ∃ q, quotientIf condition a b = .ok q := by
  rw [quotientIf]
  by_cases hc : condition
  · rw [if_pos hc, divide_ok (h hc)]
    exact ⟨_, rfl⟩
  · exact ⟨none, if_neg hc⟩

theorem mean_total (pairs : List TemporalPair) (value : TemporalPair → Option ℚ) :
    ∃ q, mean pairs value = .ok q := by
  apply quotientIf_total
  intro hne
  have hpos := List.length_pos_iff.mpr hne
  exact_mod_cast hpos.ne'

theorem temporalSummary_total (pairs : List (Option TemporalPair)) (positiveCount : Nat) :
    ∃ summary, temporalSummary pairs positiveCount = .ok summary := by
  have hrecall : ∃ q, quotientIf (positiveCount ≠ 0) ((pairs.filterMap id).length : ℚ) positiveCount = .ok q :=
    quotientIf_total fun h => by exact_mod_cast h
  obtain ⟨recallRate, hrecall⟩ := hrecall
  obtain ⟨iou, hiou⟩ := mean_total ((pairs.filterMap id).filter fun p => p.iou.isSome) (·.iou)
  obtain ⟨start, hstart⟩ := mean_total ((pairs.filterMap id).filter fun p => p.iou.isSome) (·.startError)
  obtain ⟨stop, hstop⟩ := mean_total ((pairs.filterMap id).filter fun p => p.iou.isSome) (·.endError)
  obtain ⟨stamp, hstamp⟩ :=
    mean_total ((pairs.filterMap id).filter fun p => p.timestampError.isSome) (·.timestampError)
  rw [temporalSummary]
  simp only [hrecall, hiou, hstart, hstop, hstamp, bind, Except.bind]
  exact ⟨_, rfl⟩

theorem reciprocal_ok (grades : List Nat) : reciprocal grades = .ok (reciprocalValue grades) := by
  rw [reciprocal, reciprocalValue]
  cases grades.findIdx? fun grade => 0 < grade with
  | none => rfl
  | some i => exact divide_ok (by exact_mod_cast Nat.succ_ne_zero i)

theorem whenTemporal_total (case : QualityCase) (pairs : List (Option TemporalPair)) (positiveCount : Nat) :
    ∃ summary, whenTemporal case (temporalSummary pairs positiveCount) = .ok summary := by
  obtain ⟨summary, hsummary⟩ := temporalSummary_total pairs positiveCount
  rw [whenTemporal, hsummary]
  cases case.rule.matching with
  | identity => exact ⟨none, rfl⟩
  | temporal intervalIou tolerance => exact ⟨some summary, rfl⟩

include hcase in
/-- A row is found without an error, with the metrics of a positive case. -/
theorem evaluateRow_ok (hd : Falling discount) {k : Nat} (hk : 1 ≤ k) (outcomes : List Outcome) :
    ∃ row, evaluateRow discount case outcomes k = .ok row ∧ row.k = k ∧
      (case.positive = true →
        row.recallRate = some ((hits outcomes k : ℚ) / case.positives.length) ∧
        row.mrr = some (reciprocalValue (topGrades outcomes k)) ∧
        row.ndcg = some (dcg discount (topGrades outcomes k) /
          dcg discount ((idealGrades case).take k))) := by
  have hfraction : ∃ q, quotientIf (topGrades outcomes k ≠ [])
      ((((outcomes.map (·.label)).take k).countP Option.isSome : Nat) : ℚ) (topGrades outcomes k).length = .ok q := by
    apply quotientIf_total
    intro hne
    have hpos := List.length_pos_iff.mpr hne
    exact_mod_cast hpos.ne'
  obtain ⟨fraction, hfraction⟩ := hfraction
  obtain ⟨summary, hsummary⟩ :=
    whenTemporal_total case ((outcomes.map (·.pair)).take k) case.positives.length
  rw [evaluateRow]
  simp only [reciprocal_ok, hfraction, hsummary]
  cases hpositive : case.positive with
  | false =>
    simp only [whenPositive, hpositive, bind, Except.bind, Bool.false_eq_true, if_false]
    exact ⟨_, rfl, rfl, fun h => absurd h (by decide)⟩
  | true =>
    have hlength : ((case.positives.length : Nat) : ℚ) ≠ 0 := by
      have hpos := List.length_pos_iff.mpr (positives_ne hcase hpositive)
      exact_mod_cast hpos.ne'
    have hideal := (ideal_pos hcase hd hpositive hk).ne'
    simp only [whenPositive, hpositive, bind, Except.bind, if_true, divide_ok hlength, divide_ok hideal]
    exact ⟨_, rfl, rfl, fun _ => ⟨rfl, rfl, rfl⟩⟩

end Rows

/-! ## Bounds -/

theorem topGrades_mono (outcomes : List Outcome) {k k' : Nat} (h : k ≤ k') :
    topGrades outcomes k <+: topGrades outcomes k' := List.take_prefix_take_left h

theorem hits_mono (outcomes : List Outcome) {k k' : Nat} (h : k ≤ k') : hits outcomes k ≤ hits outcomes k' :=
  (topGrades_mono outcomes h).sublist.countP_le

theorem reciprocalValue_nonneg (grades : List Nat) : 0 ≤ reciprocalValue grades := by
  rw [reciprocalValue]
  split
  · positivity
  · exact le_refl 0

theorem reciprocalValue_le_one (grades : List Nat) : reciprocalValue grades ≤ 1 := by
  rw [reciprocalValue]
  split
  · rename_i i _
    have hone : (1 : ℚ) ≤ ((i + 1 : Nat) : ℚ) := by exact_mod_cast Nat.succ_le_succ (Nat.zero_le i)
    exact div_le_one_of_le₀ hone (by positivity)
  · exact zero_le_one

/-- A first hit stays the first hit when the list grows. -/
theorem findIdx?_prefix {α : Type} {p : α → Bool} {xs ys : List α} (h : xs <+: ys) {i : Nat}
    (hi : xs.findIdx? p = some i) : ys.findIdx? p = some i := by
  obtain ⟨rest, rfl⟩ := h
  rw [List.findIdx?_append, hi]
  rfl

theorem reciprocalValue_mono {grades grades' : List Nat} (h : grades <+: grades') :
    reciprocalValue grades ≤ reciprocalValue grades' := by
  cases hfound : grades.findIdx? fun grade => 0 < grade with
  | none =>
    have hzero : reciprocalValue grades = 0 := by rw [reciprocalValue, hfound]
    rw [hzero]
    exact reciprocalValue_nonneg grades'
  | some i =>
    rw [reciprocalValue, reciprocalValue, hfound, findIdx?_prefix h hfound]

/-- The ideal grades in descending order, with nothing but misses behind them, make the ideal sum. -/
theorem dcg_ideal (discount : Nat → ℚ) {grades ideal : List Nat} {n : Nat}
    (h : grades = ideal ++ List.replicate n 0) : dcg discount grades = dcg discount ideal := by
  rw [h, dcg, dcg, List.map_append, List.map_replicate, gain_zero]
  exact Discounted.total_append_zeros _ n

/-! ## The rows of a case -/

/-- The case with the first ranked items alone. -/
def QualityCase.first (case : QualityCase) (k : Nat) : QualityCase := { case with ranked := case.ranked.take k }

/-- A value that is there and lies between zero and one. -/
def Share (value : Option ℚ) : Prop := ∃ q, value = some q ∧ 0 ≤ q ∧ q ≤ 1

/-- The second of two values that are there is not less. -/
def Rises (value value' : Option ℚ) : Prop := ∃ q q', value = some q ∧ value' = some q' ∧ q ≤ q'

/-- What the rows of a case are. -/
structure SoundRows (discount : Nat → ℚ) (case : QualityCase) (ordinal : Nat) (outcomes : List Outcome)
    (rows : List QualityRow) : Prop where
  cutoffs : rows.map (·.k) = case.cutoffs
  shares : case.positive = true → ∀ row ∈ rows, Share row.recallRate ∧ Share row.mrr ∧ Share row.ndcg
  rises : case.positive = true → ∀ row ∈ rows, ∀ row' ∈ rows, row.k ≤ row'.k →
    Rises row.recallRate row'.recallRate ∧ Rises row.mrr row'.mrr
  ideal : case.positive = true → ∀ row ∈ rows,
    (∃ n, topGrades outcomes row.k = (idealGrades case).take row.k ++ List.replicate n 0) → row.ndcg = some 1
  first : ∀ row ∈ rows, ∃ result, evaluateCase discount (case.first row.k) ordinal = .ok result ∧
    row ∈ result.cutoffs ∧ ∀ row' ∈ result.cutoffs, row'.k = row.k → row' = row

/-- What the evaluation of a case is. -/
def SoundCase (discount : Nat → ℚ) (case : QualityCase) (ordinal : Nat) (result : CaseResult) : Prop :=
  ∃ outcomes, matchRanked case.rule case.gold [] case.ranked = .ok outcomes ∧ SoundMatching case outcomes ∧
    SoundRows discount case ordinal outcomes result.cutoffs

theorem QualityCase.WellFormed.first (hcase : case.WellFormed) (k : Nat) : (case.first k).WellFormed where
  cutoffs_pos := hcase.cutoffs_pos
  cutoffs_increasing := hcase.cutoffs_increasing
  ids_nodup := hcase.ids_nodup
  judgments_wellFormed := hcase.judgments_wellFormed
  ranked_wellFormed := fun r hr => hcase.ranked_wellFormed r (List.mem_of_mem_take hr)
  declared := hcase.declared
  covered := fun hcomplete r hr => hcase.covered hcomplete r (List.mem_of_mem_take hr)

/-- A row depends on the first ranks alone. -/
theorem evaluateRow_first (discount : Nat → ℚ) (case : QualityCase) (outcomes : List Outcome) (k : Nat) :
    evaluateRow discount (case.first k) (outcomes.take k) k = evaluateRow discount case outcomes k := by
  have htake : ∀ {α : Type} (f : Outcome → α),
      ((outcomes.take k).map f).take k = (outcomes.map f).take k := by
    intro α f
    rw [List.map_take, List.take_take, Nat.min_self]
  rw [evaluateRow, evaluateRow, htake, htake, htake]
  rfl

theorem QualityCase.WellFormed.gold_wellFormed (hcase : case.WellFormed) :
    ∀ j ∈ case.gold, j.item.WellFormed case.rule :=
  fun j hj => hcase.judgments_wellFormed j (QualityCase.mem_gold.mp hj).1

/-- A well-formed case is evaluated without an error: its ranks are matched, its rows are found. -/
theorem evaluateCase_ok (hcase : case.WellFormed) {discount : Nat → ℚ} (hd : Falling discount) (ordinal : Nat) :
    ∃ outcomes result, matchRanked case.rule case.gold [] case.ranked = .ok outcomes ∧
      Matched case.rule case.gold [] case.ranked outcomes ∧
      evaluateCase discount case ordinal = .ok result ∧
      mapAll (evaluateRow discount case outcomes) case.cutoffs = .ok result.cutoffs := by
  obtain ⟨outcomes, hmatch, hmatched⟩ := @matchRanked_matched case.rule case.gold []
    case.ranked hcase.ranked_wellFormed hcase.gold_wellFormed
  have hlabels : checkLabels case outcomes = .ok () := by
    rw [checkLabels, check_ok]
    rintro ⟨hcomplete, outcome, houtcome, hnone⟩
    exact hmatched.labelled (hcase.covered hcomplete) outcome houtcome hnone
  obtain ⟨rows, hrows⟩ : ∃ rows, mapAll (evaluateRow discount case outcomes) case.cutoffs = .ok rows := by
    apply mapAll_total
    intro k hk
    obtain ⟨row, hrow, -⟩ := evaluateRow_ok hcase hd (hcase.cutoffs_pos k hk) outcomes
    exact ⟨row, hrow⟩
  rw [evaluateCase, hmatch]
  simp only [bind, Except.bind, hlabels, hrows]
  exact ⟨outcomes, _, rfl, hmatched, rfl, hrows⟩

section Found

variable {discount : Nat → ℚ} {rows : List QualityRow} (hcase : case.WellFormed) (hd : Falling discount)
  (hrows : mapAll (evaluateRow discount case outcomes) case.cutoffs = .ok rows)

include hcase hd

theorem evaluateRow_k {k : Nat} (hk : k ∈ case.cutoffs) {row : QualityRow}
    (h : evaluateRow discount case outcomes k = .ok row) : row.k = k := by
  obtain ⟨row', hrow', heq, -⟩ := evaluateRow_ok hcase hd (hcase.cutoffs_pos k hk) outcomes
  obtain rfl := Except.ok.inj (h.symm.trans hrow')
  exact heq

include hrows

/-- Every row is the row of its cutoff. -/
theorem row_of_mem {row : QualityRow} (h : row ∈ rows) :
    row.k ∈ case.cutoffs ∧ evaluateRow discount case outcomes row.k = .ok row := by
  obtain ⟨k, hk, hrow⟩ := mapAll_ok_mem hrows row h
  rw [evaluateRow_k hcase hd hk hrow]
  exact ⟨hk, hrow⟩

theorem rows_cutoffs : rows.map (·.k) = case.cutoffs := by
  have hkeys : rows.map (·.k) = case.cutoffs.map id :=
    mapAll_keys_of_mem hrows fun k hk row hrow => evaluateRow_k hcase hd hk hrow
  rw [hkeys, List.map_id]

/-- The metrics of the row of a positive case. -/
theorem row_metrics (hpositive : case.positive = true) {row : QualityRow} (h : row ∈ rows) :
    row.recallRate = some ((hits outcomes row.k : ℚ) / case.positives.length) ∧
      row.mrr = some (reciprocalValue (topGrades outcomes row.k)) ∧
      row.ndcg = some (dcg discount (topGrades outcomes row.k) /
        dcg discount ((idealGrades case).take row.k)) := by
  obtain ⟨hk, hrow⟩ := row_of_mem hcase hd hrows h
  obtain ⟨row', hrow', -, hmetrics⟩ := evaluateRow_ok hcase hd (hcase.cutoffs_pos _ hk) outcomes
  obtain rfl := Except.ok.inj (hrow.symm.trans hrow')
  exact hmetrics hpositive

theorem rows_shares (hmatched : Matched case.rule case.gold [] case.ranked outcomes)
    (hpositive : case.positive = true) {row : QualityRow} (h : row ∈ rows) :
    Share row.recallRate ∧ Share row.mrr ∧ Share row.ndcg := by
  obtain ⟨hrecall, hmrr, hndcg⟩ := row_metrics hcase hd hrows hpositive h
  have hk := hcase.cutoffs_pos _ (row_of_mem hcase hd hrows h).1
  have hideal := ideal_pos hcase hd hpositive hk
  have hhits : (hits outcomes row.k : ℚ) ≤ (case.positives.length : ℚ) := by
    exact_mod_cast hits_le hmatched row.k
  refine ⟨⟨_, hrecall, by positivity, ?_⟩, ⟨_, hmrr, reciprocalValue_nonneg _, reciprocalValue_le_one _⟩,
    ⟨_, hndcg, ?_, ?_⟩⟩
  · exact div_le_one_of_le₀ hhits (by positivity)
  · apply div_nonneg _ hideal.le
    exact Discounted.total_nonneg hd (gains_nonneg _)
  · exact div_le_one_of_le₀ (dcg_le_ideal hmatched hd row.k) hideal.le

theorem rows_rise (hpositive : case.positive = true) {row row' : QualityRow} (h : row ∈ rows)
    (h' : row' ∈ rows) (hk : row.k ≤ row'.k) :
    Rises row.recallRate row'.recallRate ∧ Rises row.mrr row'.mrr := by
  obtain ⟨hrecall, hmrr, -⟩ := row_metrics hcase hd hrows hpositive h
  obtain ⟨hrecall', hmrr', -⟩ := row_metrics hcase hd hrows hpositive h'
  have hhits : (hits outcomes row.k : ℚ) ≤ (hits outcomes row'.k : ℚ) := by
    exact_mod_cast hits_mono outcomes hk
  refine ⟨⟨_, _, hrecall, hrecall', ?_⟩, ⟨_, _, hmrr, hmrr', ?_⟩⟩
  · exact div_le_div_of_nonneg_right hhits (by positivity)
  · exact reciprocalValue_mono (topGrades_mono outcomes hk)

theorem rows_ideal (hpositive : case.positive = true) {row : QualityRow} (h : row ∈ rows) {n : Nat}
    (hgrades : topGrades outcomes row.k = (idealGrades case).take row.k ++ List.replicate n 0) :
    row.ndcg = some 1 := by
  obtain ⟨-, -, hndcg⟩ := row_metrics hcase hd hrows hpositive h
  have hk := hcase.cutoffs_pos _ (row_of_mem hcase hd hrows h).1
  rw [hndcg, dcg_ideal discount hgrades, div_self (ideal_pos hcase hd hpositive hk).ne']

/-- The row of a cutoff is the row that the first ranked items alone make. -/
theorem rows_first (hmatch : matchRanked case.rule case.gold [] case.ranked = .ok outcomes) (ordinal : Nat)
    {row : QualityRow} (h : row ∈ rows) :
    ∃ result, evaluateCase discount (case.first row.k) ordinal = .ok result ∧
      row ∈ result.cutoffs ∧ ∀ row' ∈ result.cutoffs, row'.k = row.k → row' = row := by
  have hfirst := hcase.first row.k
  obtain ⟨outcomes', result, hmatch', -, hresult, hrows'⟩ := evaluateCase_ok hfirst hd ordinal
  have htake : outcomes' = outcomes.take row.k :=
    Except.ok.inj (hmatch'.symm.trans (matchRanked_take hmatch row.k))
  subst htake
  obtain ⟨hk, hrow⟩ := row_of_mem hcase hd hrows h
  rw [← evaluateRow_first] at hrow
  refine ⟨result, hresult, ?_, ?_⟩
  · obtain ⟨row', hmem, hrow'⟩ := mapAll_ok_mem_of_mem hrows' row.k hk
    obtain rfl := Except.ok.inj (hrow.symm.trans hrow')
    exact hmem
  · intro row' hmem heq
    obtain ⟨-, hrow'⟩ := row_of_mem hfirst hd hrows' hmem
    rw [heq] at hrow'
    exact Except.ok.inj (hrow'.symm.trans hrow)

end Found

theorem QualityCase.WellFormed.sound (hcase : case.WellFormed) {discount : Nat → ℚ} (hd : Falling discount)
    (ordinal : Nat) :
    ∃ result, evaluateCase discount case ordinal = .ok result ∧ SoundCase discount case ordinal result := by
  obtain ⟨outcomes, result, hmatch, hmatched, hresult, hrows⟩ := evaluateCase_ok hcase hd ordinal
  refine ⟨result, hresult, outcomes, hmatch, hmatched.sound hcase, ?_⟩
  exact {
    cutoffs := rows_cutoffs hcase hd hrows
    shares := fun hpositive _ h => rows_shares hcase hd hrows hmatched hpositive h
    rises := fun hpositive _ h _ h' => rows_rise hcase hd hrows hpositive h h'
    ideal := fun hpositive _ h ⟨_, hgrades⟩ => rows_ideal hcase hd hrows hpositive h hgrades
    first := fun _ h => rows_first hcase hd hrows hmatch ordinal h }

/-- The metrics of every case of an accepted document are sound. -/
theorem evaluateCase_sound {document : Value} {accepted : QualityDocument} {discount : Nat → ℚ}
    (h : validateQualityInput document = .ok accepted) (hd : Falling discount) :
    ∀ case ∈ accepted.cases, ∀ ordinal, ∃ result, evaluateCase discount case ordinal = .ok result ∧
      SoundCase discount case ordinal result :=
  fun case hcase => (validateQualityInput_wellFormed h case hcase).sound hd

/-! ## A document -/

def sampleFields (pairs : List (String × Value)) : Value := .obj (pairs.map fun p => (name p.1, p.2))

def sampleText (text : String) : Value := .str (name text)

def sampleItem (unitId : String) (label : List (String × Value)) : Value :=
  sampleFields ([("resource_id", sampleText "r"), ("source_revision", sampleText "1"),
    ("unit_id", sampleText unitId), ("intervals", .arr []), ("timestamp_ms", .null)] ++ label)

/-- One case: two judgments, of which one is positive, and the positive item at the second rank. -/
def sampleCase : Value :=
  sampleFields [("case_id", sampleText "c"), ("case_type", sampleText "positive"), ("target", sampleText "unit"),
    ("match", sampleText "identity"), ("cutoffs", .arr [.int 1, .int 2]),
    ("scope", .arr [sampleFields [("resource_id", sampleText "r"), ("source_revision", sampleText "1")]]),
    ("judgment_policy", sampleText "complete"), ("unjudged_policy", sampleText "error"),
    ("temporal_policy", .null),
    ("judgments", .arr [sampleItem "a" [("judgment_id", sampleText "1"), ("grade", .int 2)],
      sampleItem "b" [("judgment_id", sampleText "2"), ("grade", .int 0)]]),
    ("ranked", .arr [sampleItem "b" [], sampleItem "a" []])]

def sampleReference : Value := .str (name "sha256:" ++ List.replicate 64 (.char '0'))

def sampleDocument : Value :=
  sampleFields [("contract", sampleText "mdrack.quality-input"), ("schema_version", .int 2),
    ("corpus_ref", sampleReference), ("judgments_ref", sampleReference),
    ("implementation_ref", sampleReference), ("cases", .arr [sampleCase])]

def sampleAccepted : QualityDocument :=
  match validateQualityInput sampleDocument with
  | .ok accepted => accepted
  | .error _ => ⟨[], [], [], []⟩

theorem sample_isOk : (validateQualityInput sampleDocument).toBool = true := by decide +kernel

theorem sample_accepted : validateQualityInput sampleDocument = .ok sampleAccepted := by
  have hok := sample_isOk
  rw [sampleAccepted]
  cases hread : validateQualityInput sampleDocument with
  | ok accepted => rfl
  | error thrown =>
    rw [hread] at hok
    cases hok

theorem sample_positive : sampleAccepted.cases.map (·.positive) = [true] := by decide +kernel

/-- The discount `1 / (n + 1)`. -/
theorem falling_harmonic : Falling fun n : Nat => 1 / ((n : ℚ) + 1) where
  positive n := by positivity
  falling n := by
    apply one_div_lt_one_div_of_lt
    · positivity
    · rw [Nat.cast_succ]
      exact lt_add_one _

theorem evaluateCase_sound_sample : sampleAccepted.cases.map (·.positive) = [true] ∧
    ∀ case ∈ sampleAccepted.cases, ∀ ordinal, ∃ result,
      evaluateCase (fun n : Nat => 1 / ((n : ℚ) + 1)) case ordinal = .ok result ∧
        SoundCase (fun n : Nat => 1 / ((n : ℚ) + 1)) case ordinal result :=
  ⟨sample_positive, evaluateCase_sound sample_accepted falling_harmonic⟩

end MDRack.Eval
