import MDRack.Markdown.Lines
import MDRack.Lib.Checks
import MDRack.Lib.Tiling
import MDRack.Lib.Timeline

/-!
# Splitting a text under a budget (`StructuralChunker._split_range`, `_units`, `_pack_units`)

* `paragraphBoundary`, `sentenceBoundary`, `wordUnit` — the three patterns, at one position.
* `splitRange` — a range that is over the budget is cut into units, which are packed again; a unit
  that alone is over the budget is cut at the next level, at last between characters.

Principal result: `splitRange_tiles` — the pieces of a range lie end to end and fill it.
-/

namespace MDRack.Markdown

open Checks
open Tiling (Tiles)

/-! ## Budgets -/

/-- `len(text.encode("utf-8"))`. -/
def byteLength (text : List Char) : Nat := (text.map Char.utf8Size).sum

structure Budget where
  maxChars : Nat
  maxBytes : Nat

/-- `_within_budget`. -/
def Budget.holds (budget : Budget) (text : List Char) : Bool :=
  text.length ≤ budget.maxChars && byteLength text ≤ budget.maxBytes

theorem Budget.holds_iff {budget : Budget} {text : List Char} : budget.holds text = true ↔
    text.length ≤ budget.maxChars ∧ byteLength text ≤ budget.maxBytes := by
  simp [Budget.holds]

/-! ## Patterns -/

/-- A start and an end offset. -/
abbrev Range := Nat × Nat

section Patterns

variable (text : List Char) (stop : Nat)

/-- Where the characters of one kind end that stand at `i`. -/
def runEnd (kind : Char → Bool) (i : Nat) : Nat := i + ((text.extract i stop).takeWhile kind).length

/-- `\n[ \t]*\n+`. -/
def paragraphBoundary (i : Nat) : Option Nat :=
  let blanks := runEnd text stop (fun c => c == ' ' || c == '\t') (i + 1)
  let boundary := runEnd text stop (fun c => c == '\n') blanks
  if text[i]? = some '\n' ∧ blanks < boundary then some boundary else none

/-- `(?<=[.!?…])\s+`. -/
def sentenceBoundary (i : Nat) : Option Nat :=
  let boundary := runEnd text stop isSpace i
  if i ≠ 0 ∧ (text[i - 1]?.any fun c => ".!?…".toList.contains c) = true ∧ i < boundary then
    some boundary
  else none

/-- `\s*\S+`. -/
def wordUnit (i : Nat) : Option Nat :=
  let word := runEnd text stop isSpace i
  let boundary := runEnd text stop (fun c => !isSpace c) word
  if word < boundary then some boundary else none

/-- `pattern.finditer(text, i, stop)`. -/
def finditer (matchAt : Nat → Option Nat) : Nat → Nat → List Range
  | 0, _ => []
  | fuel + 1, i =>
    if i < stop then
      match matchAt i with
      | some boundary => (i, boundary) :: finditer matchAt fuel boundary
      | none => finditer matchAt fuel (i + 1)
    else []

/-- The units that the matches end, and what is left. -/
def boundaryUnits : Nat → List Range → List Range
  | cursor, [] => [(cursor, stop)]
  | cursor, found :: rest => (cursor, found.2) :: boundaryUnits found.2 rest

/-- The last unit reaches to the end. -/
def extendLast : List Range → List Range
  | [] => []
  | [unit] => [(unit.1, if unit.2 < stop then stop else unit.2)]
  | unit :: rest => unit :: extendLast rest

/-- The first unit reaches to the start. -/
def extendFirst (start : Nat) : List Range → List Range
  | [] => []
  | unit :: rest => (if start < unit.1 then start else unit.1, unit.2) :: rest

end Patterns

inductive Level
  | paragraphs
  | sentences
  | words

/-- `_units`. -/
def Level.units (text : List Char) (start stop : Nat) : Level → List Range
  | .paragraphs =>
    (boundaryUnits stop start (finditer stop (paragraphBoundary text stop) (stop - start) start)).filter
      fun unit => unit.1 < unit.2
  | .sentences =>
    (boundaryUnits stop start (finditer stop (sentenceBoundary text stop) (stop - start) start)).filter
      fun unit => unit.1 < unit.2
  | .words =>
    extendLast stop (extendFirst start (finditer stop (wordUnit text stop) (stop - start) start))

/-! ## Pieces -/

section Pieces

variable (text : List Char) (budget : Budget)

/-- The most characters from the cursor on, of the next `n`, that fit. -/
def fitting (cursor : Nat) : Nat → Nat
  | 0 => 0
  | n + 1 => if byteLength (text.extract cursor (cursor + (n + 1))) ≤ budget.maxBytes then n + 1
    else fitting cursor n

/-- The loop at the last level: `fuel` bounds the characters that are left. -/
def hardPieces (stop : Nat) : Nat → Nat → Except Err (List Range)
  | 0, _ => .ok []
  | fuel + 1, cursor =>
    if cursor < stop then
      let length := fitting text budget cursor (min stop (cursor + budget.maxChars) - cursor)
      if length = 0 then .error (.valueError "chunk limits cannot represent one Unicode character")
      else do
        let pieces ← hardPieces stop fuel (cursor + length)
        .ok ((cursor, cursor + length) :: pieces)
    else .ok []

/-- `_pack_units`, after the units that are packed in `current`. -/
def packUnits (split : Nat → Nat → Except Err (List Range)) :
    Option Range → List Range → Except Err (List Range)
  | current, [] => .ok current.toList
  | current, unit :: rest =>
    if budget.holds (text.extract unit.1 unit.2) then
      match current with
      | none => packUnits split (some unit) rest
      | some packed =>
        if budget.holds (text.extract packed.1 unit.2) then
          packUnits split (some (packed.1, unit.2)) rest
        else do
          let pieces ← packUnits split (some unit) rest
          .ok (packed :: pieces)
    else do
      let inner ← split unit.1 unit.2
      let pieces ← packUnits split none rest
      .ok (current.toList ++ inner ++ pieces)

/-- `_split_range`, with the levels that are left. -/
def splitRange : List Level → Nat → Nat → Except Err (List Range)
  | [], start, stop =>
    if budget.holds (text.extract start stop) then .ok [(start, stop)]
    else hardPieces text budget stop (stop - start) start
  | level :: levels, start, stop =>
    if budget.holds (text.extract start stop) then .ok [(start, stop)]
    else
      let units := level.units text start stop
      if 1 < units.length then packUnits text budget (splitRange levels) none units
      else splitRange levels start stop

/-- `_split_prose_ranges`. -/
def splitProseRanges : Except Err (List Range) :=
  if blank text then .ok []
  else splitRange text budget [.paragraphs, .sentences, .words] 0 text.length

end Pieces

/-! ## Runs and matches -/

section Runs

variable {text : List Char} {stop : Nat} {i boundary : Nat}

theorem runEnd_ge (kind : Char → Bool) (i : Nat) : i ≤ runEnd text stop kind i := Nat.le_add_right _ _

theorem runEnd_le (kind : Char → Bool) (hi : i ≤ stop) : runEnd text stop kind i ≤ stop := by
  have hrun := (List.takeWhile_prefix kind (l := text.extract i stop)).length_le
  have hextract : (text.extract i stop).length ≤ stop - i := List.length_take_le _ _
  unfold runEnd
  omega

theorem extract_runEnd (text : List Char) (stop : Nat) (kind : Char → Bool) (i : Nat) :
    text.extract (runEnd text stop kind i) stop = (text.extract i stop).dropWhile kind := by
  have hsplit := List.takeWhile_append_dropWhile (p := kind) (l := text.extract i stop)
  have hdrop : (text.extract i stop).drop ((text.extract i stop).takeWhile kind).length =
      (text.extract i stop).dropWhile kind := by
    conv => lhs; arg 2; rw [← hsplit]
    exact List.drop_left
  rw [← hdrop, List.extract, List.extract, List.drop_take, List.drop_drop, runEnd, Nat.sub_sub]

/-- A match ends after its start and not after the range. -/
def Advances (stop : Nat) (matchAt : Nat → Option Nat) : Prop :=
  ∀ i boundary, i < stop → matchAt i = some boundary → i < boundary ∧ boundary ≤ stop

theorem paragraphBoundary_advances (text : List Char) (stop : Nat) :
    Advances stop (paragraphBoundary text stop) := by
  intro i boundary hi h
  simp only [paragraphBoundary] at h
  split at h
  · rename_i hmatch
    obtain rfl := Option.some.inj h
    have hblanks : i + 1 ≤ runEnd text stop (fun c => c == ' ' || c == '\t') (i + 1) :=
      runEnd_ge _ _
    refine ⟨by omega, runEnd_le _ (runEnd_le _ hi)⟩
  · cases h

theorem sentenceBoundary_advances (text : List Char) (stop : Nat) :
    Advances stop (sentenceBoundary text stop) := by
  intro i boundary hi h
  simp only [sentenceBoundary] at h
  split at h
  · rename_i hmatch
    obtain rfl := Option.some.inj h
    exact ⟨hmatch.2.2, runEnd_le _ (Nat.le_of_lt hi)⟩
  · cases h

theorem wordUnit_advances (text : List Char) (stop : Nat) : Advances stop (wordUnit text stop) := by
  intro i boundary hi h
  simp only [wordUnit] at h
  split at h
  · rename_i hmatch
    obtain rfl := Option.some.inj h
    have hspace : i ≤ runEnd text stop isSpace i := runEnd_ge _ _
    exact ⟨by omega, runEnd_le _ (runEnd_le _ (Nat.le_of_lt hi))⟩
  · cases h

/-- No word is found from a position on iff only whitespace is left. -/
theorem wordUnit_none : wordUnit text stop i = none ↔ blank (text.extract i stop) = true := by
  have hword := extract_runEnd text stop isSpace i
  simp only [wordUnit, ite_eq_right_iff, reduceCtorEq, imp_false, Nat.not_lt]
  constructor
  · intro hle
    have hrun : (text.extract (runEnd text stop isSpace i) stop).takeWhile (fun c => !isSpace c) =
        [] := by
      refine List.eq_nil_of_length_eq_zero ?_
      unfold runEnd at hle ⊢
      omega
    rw [hword] at hrun
    cases hrest : (text.extract i stop).dropWhile isSpace with
    | nil => exact List.all_eq_true.mpr (List.dropWhile_eq_nil_iff.mp hrest)
    | cons c rest =>
      have hhead := List.head?_dropWhile_not isSpace (text.extract i stop)
      rw [hrest] at hhead hrun
      have hc : isSpace c = false := by simpa using hhead
      simp [hc] at hrun
  · intro hblank
    have hrest : (text.extract i stop).dropWhile isSpace = [] :=
      List.dropWhile_eq_nil_iff.mpr (List.all_eq_true.mp hblank)
    have hrun : runEnd text stop (fun c => !isSpace c) (runEnd text stop isSpace i) =
        runEnd text stop isSpace i := by
      rw [runEnd, hword, hrest]
      rfl
    exact Nat.le_of_eq hrun

theorem wordUnit_none_succ (h : wordUnit text stop i = none) :
    wordUnit text stop (i + 1) = none := by
  rw [wordUnit_none] at h ⊢
  have hdrop : text.extract (i + 1) stop = (text.extract i stop).drop 1 := by
    rw [List.extract, List.extract, List.drop_take, List.drop_drop, Nat.sub_sub]
  rw [hdrop]
  exact List.all_eq_true.mpr fun c hc => List.all_eq_true.mp h c (List.mem_of_mem_drop hc)

end Runs

/-! ## Units fill their range -/

section Units

variable {text : List Char} {start stop : Nat}

theorem boundaryUnits_tiles {matchAt : Nat → Option Nat} (h : Advances stop matchAt)
    (fuel : Nat) {cursor i : Nat} (hcursor : cursor ≤ i) (hi : i ≤ stop) :
    Tiles Prod.fst Prod.snd cursor ((boundaryUnits stop cursor (finditer stop matchAt fuel i)).filter
      fun unit => unit.1 < unit.2) stop := by
  have hlast : Tiles Prod.fst Prod.snd cursor
      (([(cursor, stop)] : List Range).filter fun unit => unit.1 < unit.2) stop := by
    by_cases hlt : cursor < stop
    · simp [hlt, Tiles]
    · have : cursor = stop := by omega
      simp [this, Tiles]
  induction fuel generalizing cursor i with
  | zero => exact hlast
  | succ fuel ih =>
    unfold finditer
    split
    · rename_i hlt
      cases hmatch : matchAt i with
      | none => exact ih (by omega) hlt hlast
      | some boundary =>
        obtain ⟨hboundary, hle⟩ := h i boundary hlt hmatch
        have hkept : cursor < boundary := by omega
        simp only [boundaryUnits, List.filter_cons, hkept, decide_true, if_true]
        refine ⟨rfl, hkept, ih (Nat.le_refl _) hle ?_⟩
        by_cases hstop : boundary < stop
        · simp [hstop, Tiles]
        · have : boundary = stop := by omega
          simp [this, Tiles]
    · exact hlast

theorem finditer_words_none (fuel : Nat) {i : Nat} (h : wordUnit text stop i = none) :
    finditer stop (wordUnit text stop) fuel i = [] := by
  induction fuel generalizing i with
  | zero => rfl
  | succ fuel ih =>
    unfold finditer
    split
    · rw [h]
      exact ih (wordUnit_none_succ h)
    · rfl

theorem finditer_words (text : List Char) (fuel : Nat) {i : Nat} (hi : i ≤ stop) : ∃ last, last ≤ stop ∧
    Tiles Prod.fst Prod.snd i (finditer stop (wordUnit text stop) fuel i) last := by
  induction fuel generalizing i with
  | zero => exact ⟨i, hi, rfl⟩
  | succ fuel ih =>
    unfold finditer
    split
    · rename_i hlt
      cases hmatch : wordUnit text stop i with
      | none =>
        show ∃ last, last ≤ stop ∧
          Tiles Prod.fst Prod.snd i (finditer stop (wordUnit text stop) fuel (i + 1)) last
        rw [finditer_words_none fuel (wordUnit_none_succ hmatch)]
        exact ⟨i, hi, rfl⟩
      | some boundary =>
        obtain ⟨hboundary, hle⟩ := wordUnit_advances text stop i boundary hlt hmatch
        obtain ⟨last, hlast, htiles⟩ := ih hle
        exact ⟨last, hlast, rfl, hboundary, htiles⟩
    · exact ⟨i, hi, rfl⟩

theorem extendFirst_tiles {units : List Range} {last : Nat}
    (h : Tiles Prod.fst Prod.snd start units last) : extendFirst start units = units := by
  cases units with
  | nil => rfl
  | cons unit rest =>
    obtain ⟨hstart, -, -⟩ := h
    show (if start < unit.1 then start else unit.1, unit.2) :: rest = unit :: rest
    rw [if_neg (by omega)]

theorem extendLast_tiles {units : List Range} {last : Nat}
    (h : Tiles Prod.fst Prod.snd start units last) (hlast : last ≤ stop) (hne : units ≠ []) :
    Tiles Prod.fst Prod.snd start (extendLast stop units) stop := by
  induction units generalizing start with
  | nil => exact absurd rfl hne
  | cons unit rest ih =>
    obtain ⟨hstart, hlt, hrest⟩ := h
    cases rest with
    | nil =>
      obtain rfl : unit.2 = last := hrest
      refine ⟨hstart, ?_, ?_⟩ <;> simp only [Tiles] <;> split <;> omega
    | cons next rest => exact ⟨hstart, hlt, ih hrest (List.cons_ne_nil _ _)⟩

theorem Level.units_tiles (level : Level) (h : start ≤ stop)
    (hne : level.units text start stop ≠ []) :
    Tiles Prod.fst Prod.snd start (level.units text start stop) stop := by
  cases level with
  | paragraphs =>
    exact boundaryUnits_tiles (paragraphBoundary_advances text stop) _ (Nat.le_refl _) h
  | sentences =>
    exact boundaryUnits_tiles (sentenceBoundary_advances text stop) _ (Nat.le_refl _) h
  | words =>
    obtain ⟨last, hlast, htiles⟩ := finditer_words text (stop - start) h
    unfold Level.units at hne ⊢
    rw [extendFirst_tiles htiles] at hne ⊢
    refine extendLast_tiles htiles hlast ?_
    rintro heq
    rw [heq] at hne
    exact hne rfl

end Units

/-! ## Pieces fill their range -/

section Pieces

variable {text : List Char} {budget : Budget} {start stop : Nat} {pieces : List Range}

theorem fitting_le (cursor n : Nat) : fitting text budget cursor n ≤ n := by
  induction n with
  | zero => exact Nat.le_refl _
  | succ n ih =>
    unfold fitting
    split
    · exact Nat.le_refl _
    · exact Nat.le_succ_of_le ih

theorem hardPieces_tiles {fuel cursor : Nat} (hfuel : stop - cursor ≤ fuel) (hle : cursor ≤ stop)
    (h : hardPieces text budget stop fuel cursor = .ok pieces) :
    Tiles Prod.fst Prod.snd cursor pieces stop := by
  induction fuel generalizing cursor pieces with
  | zero =>
    obtain rfl : [] = pieces := Except.ok.inj h
    show cursor = stop
    omega
  | succ fuel ih =>
    unfold hardPieces at h
    split at h
    · rename_i hlt
      simp only at h
      split at h
      · cases h
      · rename_i hpos
        have hfit : fitting text budget cursor (min stop (cursor + budget.maxChars) - cursor) ≤
          min stop (cursor + budget.maxChars) - cursor := fitting_le _ _
        obtain ⟨rest, hrest, hpieces⟩ := bind_ok.mp h
        obtain rfl := Except.ok.inj hpieces
        refine ⟨rfl, by omega, ih (by omega) (by omega) hrest⟩
    · obtain rfl : [] = pieces := Except.ok.inj h
      show cursor = stop
      omega

theorem packUnits_tiles {split : Nat → Nat → Except Err (List Range)}
    (hsplit : ∀ start stop pieces, start < stop → split start stop = .ok pieces →
      Tiles Prod.fst Prod.snd start pieces stop)
    {units : List Range} {current : Option Range} {lo mid : Nat}
    (hcurrent : Tiles Prod.fst Prod.snd lo current.toList mid)
    (hunits : Tiles Prod.fst Prod.snd mid units stop)
    (h : packUnits text budget split current units = .ok pieces) :
    Tiles Prod.fst Prod.snd lo pieces stop := by
  induction units generalizing current lo mid pieces with
  | nil =>
    obtain rfl : current.toList = pieces := Except.ok.inj h
    obtain rfl : mid = stop := hunits
    exact hcurrent
  | cons unit rest ih =>
    obtain ⟨hstart, hlt, hrest⟩ := hunits
    have hunit : Tiles Prod.fst Prod.snd mid (some unit).toList unit.2 := ⟨hstart, hlt, rfl⟩
    unfold packUnits at h
    split at h
    · cases current with
      | none =>
        obtain rfl : lo = mid := hcurrent
        exact ih hunit hrest h
      | some packed =>
        obtain ⟨hlo, hpacked, hmid⟩ := hcurrent
        have hmid : packed.2 = mid := hmid
        simp only at h
        split at h
        · have hwider : Tiles Prod.fst Prod.snd lo (some (packed.1, unit.2)).toList unit.2 :=
            ⟨hlo, by show lo < unit.2; omega, rfl⟩
          exact ih hwider hrest h
        · obtain ⟨inner, hinner, hpieces⟩ := bind_ok.mp h
          obtain rfl := Except.ok.inj hpieces
          refine ⟨hlo, hpacked, ?_⟩
          rw [hmid]
          exact ih hunit hrest hinner
    · obtain ⟨inner, hinner, hpacked⟩ := bind_ok.mp h
      obtain ⟨more, hmore, hpieces⟩ := bind_ok.mp hpacked
      obtain rfl := Except.ok.inj hpieces
      have hfilled := hsplit unit.1 unit.2 inner (by omega) hinner
      rw [hstart] at hfilled
      have hnothing : Tiles Prod.fst Prod.snd unit.2 (none : Option Range).toList unit.2 := rfl
      exact (hcurrent.append hfilled).append (ih hnothing hrest hmore)

/-- The pieces of a range lie end to end and fill it. -/
theorem splitRange_tiles {levels : List Level} (hlt : start < stop)
    (h : splitRange text budget levels start stop = .ok pieces) :
    Tiles Prod.fst Prod.snd start pieces stop := by
  induction levels generalizing start stop pieces with
  | nil =>
    unfold splitRange at h
    split at h
    · obtain rfl := Except.ok.inj h
      exact ⟨rfl, hlt, rfl⟩
    · exact hardPieces_tiles (Nat.le_refl _) (Nat.le_of_lt hlt) h
  | cons level levels ih =>
    unfold splitRange at h
    split at h
    · obtain rfl := Except.ok.inj h
      exact ⟨rfl, hlt, rfl⟩
    · simp only at h
      split at h
      · rename_i hmany
        have hne : level.units text start stop ≠ [] := by
          rintro heq
          rw [heq] at hmany
          cases hmany
        have hnothing : Tiles Prod.fst Prod.snd start (none : Option Range).toList start := rfl
        exact packUnits_tiles (fun _ _ _ => ih) hnothing
          (level.units_tiles (Nat.le_of_lt hlt) hne) h
      · exact ih hlt h

end Pieces

end MDRack.Markdown
