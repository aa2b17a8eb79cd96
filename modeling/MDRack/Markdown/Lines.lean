import MDRack.Markdown.Text
import Mathlib.Algebra.BigOperators.Group.List.Basic

/-!
# Lines of a text

* `linesOf` — `str.splitlines`: each line with the characters that end it.
* `lineStarts`, `lineContentEnd` — offsets of the lines, as the chunker computes them.
* `unifyEndings`, `SameText` — a text up to the form of its line ends and its outer whitespace.
* `normalizeCrlf` — the form in which a text is searched that is not found as it stands.

Principal results: `linesOf_slice` — whole lines cut out of a text are its lines;
`Formed.sameText` — they are the same text as their contents joined by `"\n"`.
-/

namespace MDRack.Markdown

/-! ## Splitting -/

/-- Where `str.splitlines` ends a line. -/
def isLineBreak (c : Char) : Bool :=
  let n := c.toNat
  (0x0A ≤ n && n ≤ 0x0D) || (0x1C ≤ n && n ≤ 0x1E) || n == 0x85 || n == 0x2028 || n == 0x2029

structure Line where
  content : List Char
  ending : List Char
  deriving DecidableEq

def Line.kept (line : Line) : List Char := line.content ++ line.ending

/-- A character in front of a line that follows it. -/
def Line.push (c : Char) : List Line → List Line
  | [] => [⟨[c], []⟩]
  | line :: lines => { line with content := c :: line.content } :: lines

def linesOf : List Char → List Line
  | [] => []
  | '\r' :: '\n' :: rest => ⟨[], ['\r', '\n']⟩ :: linesOf rest
  | c :: rest => if isLineBreak c then ⟨[], [c]⟩ :: linesOf rest else Line.push c (linesOf rest)

/-- `text.splitlines()`. -/
def splitlines (text : List Char) : List (List Char) := (linesOf text).map (·.content)

/-- `"\n".join(lines)`. -/
def joinLines (lines : List (List Char)) : List Char := ['\n'].intercalate lines

/-! ## Offsets -/

/-- `_line_starts`. -/
def lineStarts (text : List Char) : List Nat :=
  let starts := (linesOf text).scanl (fun start line => start + line.kept.length) 0
  if starts.getLastD 0 < text.length then starts ++ [text.length] else starts

/-- `_line_content_end`, which is also `line_starts[line]` of a line that exists. -/
def lineContentEnd (text : List Char) (lineStarts : List Nat) (endLine : Nat) : Nat :=
  lineStarts.getD endLine text.length

/-- Where the lines from one on begin. -/
def lineStart (text : List Char) (line : Nat) : Nat :=
  (((linesOf text).take line).map (·.kept.length)).sum

/-! ## Normal forms -/

/-- Every line end in the form `"\n"`. -/
def unifyEndings : List Char → List Char
  | [] => []
  | '\r' :: '\n' :: rest => '\n' :: unifyEndings rest
  | c :: rest => (if isLineBreak c then '\n' else c) :: unifyEndings rest

/-- The same text up to the form of the line ends and outer whitespace. -/
def SameText (a b : List Char) : Prop := strip (unifyEndings a) = strip (unifyEndings b)

def normalizeCrlf : List Char → List Char
  | [] => []
  | '\r' :: '\n' :: rest => '\n' :: normalizeCrlf rest
  | c :: rest => c :: normalizeCrlf rest

/-- `normalized_to_raw`, from a raw index on. -/
def normalizedToRaw (rawIndex : Nat) : List Char → List Nat
  | [] => [rawIndex]
  | '\r' :: '\n' :: rest => rawIndex :: normalizedToRaw (rawIndex + 2) rest
  | _ :: rest => rawIndex :: normalizedToRaw (rawIndex + 1) rest

/-! ## Lines that stand together -/

/-- The line is complete before `rest`. -/
structure Line.Ends (line : Line) (rest : List Char) : Prop where
  content : ∀ c ∈ line.content, isLineBreak c = false
  ending : (line.ending = [] ∧ line.content ≠ [] ∧ rest = []) ∨ line.ending = ['\r', '\n'] ∨
    ∃ c, line.ending = [c] ∧ isLineBreak c = true ∧ (c = '\r' → rest.head? ≠ some '\n')

def Formed : List Line → Prop
  | [] => True
  | line :: lines => line.Ends (lines.flatMap Line.kept) ∧ Formed lines

theorem Line.Ends.kept_ne_nil {line : Line} {rest : List Char} (h : line.Ends rest) :
    line.kept ≠ [] := by
  rcases h.ending with ⟨-, hne, -⟩ | hend | ⟨c, hend, -⟩ <;> simp [kept, *]

theorem linesOf_cons_break {c : Char} {rest : List Char} (hc : isLineBreak c = true)
    (hcr : c = '\r' → rest.head? ≠ some '\n') : linesOf (c :: rest) = ⟨[], [c]⟩ :: linesOf rest := by
  cases rest with
  | nil => simp [linesOf, hc]
  | cons d rest =>
    rw [linesOf]
    · simp [hc]
    · rintro _ rfl heq
      cases heq
      exact hcr rfl rfl

theorem linesOf_cons_other {c : Char} {rest : List Char} (hc : isLineBreak c = false) :
    linesOf (c :: rest) = Line.push c (linesOf rest) := by
  have hcr : c ≠ '\r' := by
    rintro rfl
    exact absurd hc (by decide)
  cases rest with
  | nil => simp [linesOf, hc]
  | cons d rest =>
    rw [linesOf]
    · simp [hc]
    · rintro _ rfl heq
      exact absurd rfl hcr

theorem Line.push_flatMap (c : Char) (lines : List Line) :
    (Line.push c lines).flatMap Line.kept = c :: lines.flatMap Line.kept := by
  cases lines <;> rfl

@[simp] theorem linesOf_flatMap (text : List Char) : (linesOf text).flatMap Line.kept = text := by
  fun_induction linesOf text with
  | case1 => rfl
  | case2 rest ih => simp [Line.kept, ih]
  | case3 c rest hcr hc ih => simp [Line.kept, ih]
  | case4 c rest hcr hc ih => rw [Line.push_flatMap, ih]

theorem linesOf_formed (text : List Char) : Formed (linesOf text) := by
  fun_induction linesOf text with
  | case1 => trivial
  | case2 rest ih => exact ⟨⟨by simp, .inr (.inl rfl)⟩, ih⟩
  | case3 c rest hcr hc ih =>
    refine ⟨⟨by simp, .inr (.inr ⟨c, rfl, hc, ?_⟩)⟩, ih⟩
    rw [linesOf_flatMap]
    rintro rfl hhead
    cases rest with
    | nil => cases hhead
    | cons d rest =>
      obtain rfl : d = '\n' := Option.some.inj hhead
      exact hcr rest rfl rfl
  | case4 c rest hcr hc ih =>
    have hc : isLineBreak c = false := by simpa using hc
    cases hlines : linesOf rest with
    | nil => exact ⟨⟨by simpa using hc, .inl ⟨rfl, by simp, rfl⟩⟩, trivial⟩
    | cons line lines =>
      rw [hlines] at ih
      refine ⟨⟨?_, ?_⟩, ih.2⟩
      · exact List.forall_mem_cons.mpr ⟨hc, ih.1.content⟩
      · rcases ih.1.ending with ⟨hend, -, hrest⟩ | hend | hend
        · exact .inl ⟨hend, List.cons_ne_nil _ _, hrest⟩
        · exact .inr (.inl hend)
        · exact .inr (.inr hend)

/-- A complete line is the first line. -/
theorem Line.Ends.first_line {line : Line} {rest : List Char} (h : line.Ends rest) :
    linesOf (line.kept ++ rest) = line :: linesOf rest := by
  obtain ⟨content, ending⟩ := line
  obtain ⟨hcontent, hending⟩ := h
  induction content with
  | nil =>
    rcases hending with ⟨-, hne, -⟩ | hend | ⟨c, hend, hc, hcr⟩
    · exact absurd rfl hne
    · obtain rfl : ending = ['\r', '\n'] := hend
      rfl
    · obtain rfl : ending = [c] := hend
      exact linesOf_cons_break hc hcr
  | cons c content ih =>
    obtain ⟨hc, hcontent⟩ := List.forall_mem_cons.mp hcontent
    show linesOf (c :: (content ++ ending ++ rest)) = _
    rw [linesOf_cons_other hc]
    by_cases hnil : content = []
    · subst hnil
      rcases hending with ⟨hend, -, hrest⟩ | hend | ⟨d, hend, hd, hcr⟩
      · obtain rfl : ending = [] := hend
        rw [hrest]
        rfl
      · obtain rfl : ending = ['\r', '\n'] := hend
        rfl
      · obtain rfl : ending = [d] := hend
        show Line.push c (linesOf (d :: rest)) = _
        rw [linesOf_cons_break hd hcr]
        rfl
    · have ih := ih hcontent (hending.imp_left fun hend => ⟨hend.1, hnil, hend.2.2⟩)
      have hkept : content ++ ending ++ rest = (Line.mk content ending).kept ++ rest := rfl
      rw [hkept, ih]
      rfl

theorem Formed.lines_eq {lines : List Line} (h : Formed lines) :
    linesOf (lines.flatMap Line.kept) = lines := by
  induction lines with
  | nil => rfl
  | cons line lines ih =>
    rw [List.flatMap_cons, h.1.first_line, ih h.2]

theorem Formed.drop {lines : List Line} (h : Formed lines) (n : Nat) : Formed (lines.drop n) := by
  induction n generalizing lines with
  | zero => exact h
  | succ n ih =>
    cases lines with
    | nil => trivial
    | cons line lines => exact ih h.2

/-- A line is complete before less text. -/
theorem Line.Ends.mono {line : Line} {rest before : List Char} (h : line.Ends rest)
    (hbefore : before <+: rest) : line.Ends before := by
  refine ⟨h.content, ?_⟩
  rcases h.ending with ⟨hend, hne, rfl⟩ | hend | ⟨c, hend, hc, hcr⟩
  · exact .inl ⟨hend, hne, List.prefix_nil.mp hbefore⟩
  · exact .inr (.inl hend)
  · refine .inr (.inr ⟨c, hend, hc, fun heq => ?_⟩)
    obtain ⟨after, rfl⟩ := hbefore
    cases before with
    | nil => simp
    | cons d before => exact hcr heq

theorem Formed.take {lines : List Line} (h : Formed lines) (n : Nat) : Formed (lines.take n) := by
  induction lines generalizing n with
  | nil => simp [Formed]
  | cons line lines ih =>
    cases n with
    | zero => trivial
    | succ n =>
      refine ⟨h.1.mono ?_, ih h.2 n⟩
      conv => rhs; rw [← List.take_append_drop n lines, List.flatMap_append]
      exact List.prefix_append _ _

/-- Whole lines cut out of a text are its lines. -/
theorem linesOf_slice (text : List Char) (first count : Nat) :
    linesOf ((((linesOf text).drop first).take count).flatMap Line.kept) =
      ((linesOf text).drop first).take count :=
  (((linesOf_formed text).drop first).take count).lines_eq

/-! ## Line ends -/

theorem unifyEndings_cons {c : Char} {rest : List Char}
    (hcr : c = '\r' → rest.head? ≠ some '\n') :
    unifyEndings (c :: rest) = (if isLineBreak c then '\n' else c) :: unifyEndings rest := by
  cases rest with
  | nil => simp [unifyEndings]
  | cons d rest =>
    rw [unifyEndings]
    rintro _ rfl heq
    cases heq
    exact hcr rfl rfl

theorem cr_isLineBreak : isLineBreak '\r' = true := by decide

/-- A line with its end in the form `"\n"`. -/
def Line.unified (line : Line) : List Char :=
  line.content ++ if line.ending = [] then [] else ['\n']

theorem Line.Ends.unify {line : Line} {rest : List Char} (h : line.Ends rest) :
    unifyEndings (line.kept ++ rest) = line.unified ++ unifyEndings rest := by
  obtain ⟨content, ending⟩ := line
  obtain ⟨hcontent, hending⟩ := h
  have hplain : ∀ tail, unifyEndings (content ++ tail) =
      content ++ unifyEndings tail := by
    intro tail
    clear hending
    induction content with
    | nil => rfl
    | cons c content ih =>
      obtain ⟨hc, hcontent⟩ := List.forall_mem_cons.mp hcontent
      rw [List.cons_append, unifyEndings_cons, hc, ih hcontent]
      · rfl
      · rintro rfl
        rw [cr_isLineBreak] at hc
        cases hc
  show unifyEndings (content ++ ending ++ rest) = _
  rw [List.append_assoc, hplain]
  show _ = content ++ (if ending = [] then [] else ['\n']) ++ _
  rw [List.append_assoc]
  congr 1
  rcases hending with ⟨hend, -, hrest⟩ | hend | ⟨c, hend, hc, hcr⟩
  · obtain rfl : ending = [] := hend
    rfl
  · obtain rfl : ending = ['\r', '\n'] := hend
    rfl
  · obtain rfl : ending = [c] := hend
    rw [List.singleton_append, unifyEndings_cons hcr, hc]
    rfl

theorem Formed.unify {lines : List Line} (h : Formed lines) :
    unifyEndings (lines.flatMap Line.kept) = lines.flatMap Line.unified := by
  induction lines with
  | nil => rfl
  | cons line lines ih =>
    rw [List.flatMap_cons, List.flatMap_cons, h.1.unify, ih h.2]

/-- The lines joined by `"\n"`, with or without an end of the last one. -/
theorem Formed.unified_join {lines : List Line} (h : Formed lines) :
    lines.flatMap Line.unified = joinLines (lines.map (·.content)) ∨
      lines.flatMap Line.unified = joinLines (lines.map (·.content)) ++ ['\n'] := by
  induction lines with
  | nil => exact .inl rfl
  | cons line lines ih =>
    cases lines with
    | nil =>
      by_cases hend : line.ending = []
      · exact .inl (by simp [Line.unified, joinLines, hend])
      · exact .inr (by simp [Line.unified, joinLines, hend])
    | cons next lines =>
      have hend : line.ending ≠ [] := by
        rcases h.1.ending with ⟨-, -, hrest⟩ | hend | ⟨c, hend, -⟩
        · rw [List.flatMap_cons] at hrest
          exact absurd (List.append_eq_nil_iff.mp hrest).1 h.2.1.kept_ne_nil
        · simp [hend]
        · simp [hend]
      have hjoin : joinLines ((line :: next :: lines).map (·.content)) =
          line.unified ++ joinLines ((next :: lines).map (·.content)) := by
        simp [joinLines, Line.unified, hend, List.intercalate]
      rw [List.flatMap_cons, hjoin]
      rcases ih h.2 with heq | heq
      · exact .inl (by rw [heq])
      · exact .inr (by rw [heq, List.append_assoc])

theorem unifyEndings_of_plain {text : List Char} (h : ∀ c ∈ text, isLineBreak c = true → c = '\n') :
    unifyEndings text = text := by
  induction text with
  | nil => rfl
  | cons c rest ih =>
    obtain ⟨hc, hrest⟩ := List.forall_mem_cons.mp h
    have hcr : c ≠ '\r' := by
      rintro rfl
      exact absurd (hc cr_isLineBreak) (by decide)
    rw [unifyEndings_cons (fun heq => absurd heq hcr), ih hrest]
    by_cases hbreak : isLineBreak c = true
    · rw [if_pos hbreak, hc hbreak]
    · rw [if_neg hbreak]

theorem Formed.content_plain {lines : List Line} (h : Formed lines) :
    ∀ line ∈ lines, ∀ c ∈ line.content, isLineBreak c = false := by
  induction lines with
  | nil => simp
  | cons line lines ih => exact List.forall_mem_cons.mpr ⟨h.1.content, ih h.2⟩

theorem mem_joinLines {lines : List (List Char)} {c : Char} (h : c ∈ joinLines lines) :
    c = '\n' ∨ ∃ line ∈ lines, c ∈ line := by
  induction lines with
  | nil => simp [joinLines] at h
  | cons line lines ih =>
    cases lines with
    | nil => exact .inr ⟨line, List.mem_cons_self, by simpa [joinLines] using h⟩
    | cons next lines =>
      have hjoin : joinLines (line :: next :: lines) =
          line ++ '\n' :: joinLines (next :: lines) := by
        simp [joinLines, List.intercalate]
      rw [hjoin, List.mem_append, List.mem_cons] at h
      rcases h with h | rfl | h
      · exact .inr ⟨line, List.mem_cons_self, h⟩
      · exact .inl rfl
      · rcases ih h with rfl | ⟨found, hfound, hc⟩
        · exact .inl rfl
        · exact .inr ⟨found, List.mem_cons_of_mem _ hfound, hc⟩

theorem strip_append_newline (text : List Char) : strip (text ++ ['\n']) = strip text := by
  have hspace : isSpace '\n' = true := by decide
  unfold strip
  by_cases hblank : blank text = true
  · have hleft : lstrip text = [] := List.dropWhile_eq_nil_iff.mpr (List.all_eq_true.mp hblank)
    have hboth : lstrip (text ++ ['\n']) = [] := by
      refine List.dropWhile_eq_nil_iff.mpr fun c hc => ?_
      rcases List.mem_append.mp hc with hc | hc
      · exact List.all_eq_true.mp hblank c hc
      · rwa [List.mem_singleton.mp hc]
    rw [hleft, hboth]
  · have hleft : lstrip (text ++ ['\n']) = lstrip text ++ ['\n'] := by
      have hne : (text.dropWhile isSpace).isEmpty ≠ true := by
        rw [ne_eq, List.isEmpty_iff, List.dropWhile_eq_nil_iff]
        simpa [blank] using hblank
      unfold lstrip
      rw [List.dropWhile_append, if_neg hne]
    rw [hleft]
    simp [rstrip, hspace]

/-- Whole lines of a text are the same text as their contents joined by `"\n"`. -/
theorem Formed.sameText {lines : List Line} (h : Formed lines) :
    SameText (lines.flatMap Line.kept) (joinLines (lines.map (·.content))) := by
  have hjoined : unifyEndings (joinLines (lines.map (·.content))) =
      joinLines (lines.map (·.content)) := by
    refine unifyEndings_of_plain fun c hc hbreak => ?_
    rcases mem_joinLines hc with rfl | ⟨content, hmem, hc⟩
    · rfl
    · obtain ⟨line, hline, rfl⟩ := List.mem_map.mp hmem
      exact absurd hbreak (by simp [h.content_plain line hline c hc])
  unfold SameText
  rw [h.unify, hjoined]
  rcases h.unified_join with heq | heq
  · rw [heq]
  · rw [heq, strip_append_newline]

/-! ## Line offsets -/

section Offsets

variable (text : List Char) {i j : Nat}

theorem lineStart_eq (i : Nat) :
    lineStart text i = (((linesOf text).take i).flatMap Line.kept).length := by
  rw [lineStart, List.length_flatMap]

theorem lineStart_of_le (h : (linesOf text).length ≤ i) : lineStart text i = text.length := by
  rw [lineStart_eq, List.take_of_length_le h, linesOf_flatMap]

theorem foldl_lengths (lines : List Line) (start : Nat) :
    lines.foldl (fun start line => start + line.kept.length) start =
      start + (lines.map (·.kept.length)).sum := by
  induction lines generalizing start with
  | nil => simp
  | cons line lines ih => simp [ih, Nat.add_assoc]

theorem lineContentEnd_eq (i : Nat) :
    lineContentEnd text (lineStarts text) i = lineStart text i := by
  have hlast : ((linesOf text).scanl (fun start line => start + line.kept.length) 0).getLastD 0 =
      text.length := by
    rw [List.getLastD_eq_getLast?, List.getLast?_scanl, foldl_lengths,
      ← lineStart_of_le text (Nat.le_refl _), lineStart, List.take_length]
    simp
  unfold lineContentEnd lineStarts
  simp only [hlast, Nat.lt_irrefl, if_false, List.getD_eq_getElem?_getD, List.getElem?_scanl]
  split
  · simp [foldl_lengths, lineStart]
  · rename_i hlong
    exact (lineStart_of_le text (by omega)).symm

theorem lineStart_mono (h : i ≤ j) : lineStart text i ≤ lineStart text j := by
  rw [lineStart_eq, lineStart_eq, ← Nat.add_sub_cancel' h, List.take_add, List.flatMap_append,
    List.length_append]
  exact Nat.le_add_right _ _

theorem Formed.kept_ne_nil {lines : List Line} (h : Formed lines) :
    ∀ line ∈ lines, line.kept ≠ [] := by
  induction lines with
  | nil => simp
  | cons line lines ih => exact List.forall_mem_cons.mpr ⟨h.1.kept_ne_nil, ih h.2⟩

theorem lineStart_succ (h : i < (linesOf text).length) :
    lineStart text i < lineStart text (i + 1) := by
  have hkept := (linesOf_formed text).kept_ne_nil _ (List.getElem_mem h)
  have hpos := List.length_pos_iff.mpr hkept
  rw [lineStart, lineStart, List.take_succ_eq_append_getElem h, List.map_append, List.sum_append]
  simpa using hpos

theorem lineStart_lt (hij : i < j) (hi : i < (linesOf text).length) :
    lineStart text i < lineStart text j :=
  Nat.lt_of_lt_of_le (lineStart_succ text hi) (lineStart_mono text hij)

theorem lineStart_le (i : Nat) : lineStart text i ≤ text.length := by
  rw [← lineStart_of_le text (i := max i (linesOf text).length) (Nat.le_max_right _ _)]
  exact lineStart_mono text (Nat.le_max_left _ _)

/-- The text between the starts of two lines. -/
theorem extract_lines (h : i ≤ j) : text.extract (lineStart text i) (lineStart text j) =
    (((linesOf text).drop i).take (j - i)).flatMap Line.kept := by
  have hsplit : text = ((linesOf text).take i).flatMap Line.kept ++
      ((((linesOf text).drop i).take (j - i)).flatMap Line.kept ++
        ((linesOf text).drop j).flatMap Line.kept) := by
    rw [← List.flatMap_append, ← List.flatMap_append, ← Nat.add_sub_cancel' h,
      ← List.drop_drop, Nat.add_sub_cancel_left, List.take_append_drop, List.take_append_drop,
      linesOf_flatMap]
  have hlength : lineStart text j - lineStart text i =
      ((((linesOf text).drop i).take (j - i)).flatMap Line.kept).length := by
    rw [lineStart_eq, lineStart_eq, ← Nat.add_sub_cancel' h, List.take_add, List.flatMap_append,
      List.length_append, Nat.add_sub_cancel_left, Nat.add_sub_cancel_left]
  have hdrop := congrArg (List.drop (lineStart text i)) hsplit
  rw [lineStart_eq text i, List.drop_left, ← lineStart_eq] at hdrop
  rw [List.extract, hlength, hdrop, List.take_left]

theorem sameText_lines (h : i ≤ j) :
    SameText (text.extract (lineStart text i) (lineStart text j))
      (joinLines (((splitlines text).drop i).take (j - i))) := by
  have hformed := ((linesOf_formed text).drop i).take (j - i)
  rw [extract_lines text h, splitlines, ← List.map_drop, ← List.map_take]
  exact hformed.sameText

end Offsets

/-! ## Carriage returns -/

/-- The raw index of a character of the normalized text. -/
def rawIndex : List Char → Nat → Nat
  | [], _ => 0
  | _, 0 => 0
  | '\r' :: '\n' :: rest, n + 1 => rawIndex rest n + 2
  | _ :: rest, n + 1 => rawIndex rest n + 1

theorem normalizeCrlf_cons {c : Char} {rest : List Char}
    (hcr : c = '\r' → rest.head? ≠ some '\n') :
    normalizeCrlf (c :: rest) = c :: normalizeCrlf rest := by
  cases rest with
  | nil => simp [normalizeCrlf]
  | cons d rest =>
    rw [normalizeCrlf]
    rintro _ rfl heq
    cases heq
    exact hcr rfl rfl

theorem rawIndex_cons {c : Char} {rest : List Char} (hcr : c = '\r' → rest.head? ≠ some '\n')
    (n : Nat) : rawIndex (c :: rest) (n + 1) = rawIndex rest n + 1 := by
  cases rest with
  | nil => simp [rawIndex]
  | cons d rest =>
    rw [rawIndex]
    rintro _ rfl heq
    cases heq
    exact hcr rfl rfl

@[simp] theorem rawIndex_zero (raw : List Char) : rawIndex raw 0 = 0 := by
  cases raw <;> rfl

/-- A text is empty, starts with a `"\r\n"`, or with a character that does not belong to one. -/
theorem crlf_cases {motive : List Char → Prop} (nil : motive [])
    (crlf : ∀ rest, motive rest → motive ('\r' :: '\n' :: rest))
    (cons : ∀ c rest, (c = '\r' → rest.head? ≠ some '\n') → motive rest → motive (c :: rest))
    (raw : List Char) : motive raw := by
  fun_induction normalizeCrlf raw with
  | case1 => exact nil
  | case2 rest ih => exact crlf rest ih
  | case3 c rest hcr ih =>
    refine cons c rest (fun hc hhead => ?_) ih
    cases rest with
    | nil => cases hhead
    | cons d rest => exact hcr rest hc (by rw [Option.some.inj hhead])

theorem normalizedToRaw_eq (raw : List Char) (start n : Nat) (h : n ≤ (normalizeCrlf raw).length) :
    (normalizedToRaw start raw).getD n 0 = start + rawIndex raw n := by
  induction raw using crlf_cases generalizing start n with
  | nil =>
    obtain rfl : n = 0 := Nat.le_zero.mp h
    rfl
  | crlf rest ih =>
    cases n with
    | zero => rfl
    | succ n =>
      show (normalizedToRaw (start + 2) rest).getD n 0 = start + (rawIndex rest n + 2)
      rw [ih _ _ (Nat.le_of_succ_le_succ h)]
      omega
  | cons c rest hcr ih =>
    rw [normalizeCrlf_cons hcr] at h
    have hmap : normalizedToRaw start (c :: rest) = start :: normalizedToRaw (start + 1) rest := by
      cases rest with
      | nil => simp [normalizedToRaw]
      | cons d rest =>
        rw [normalizedToRaw]
        rintro _ rfl heq
        cases heq
        exact hcr rfl rfl
    rw [hmap]
    cases n with
    | zero => rw [rawIndex_zero]; rfl
    | succ n =>
      rw [rawIndex_cons hcr]
      show (normalizedToRaw (start + 1) rest).getD n 0 = _
      rw [ih _ _ (Nat.le_of_succ_le_succ h)]
      omega

theorem rawIndex_le (raw : List Char) (n : Nat) : rawIndex raw n ≤ raw.length := by
  induction raw using crlf_cases generalizing n with
  | nil => exact Nat.zero_le _
  | crlf rest ih =>
    cases n with
    | zero => exact Nat.zero_le _
    | succ n => exact Nat.add_le_add_right (ih n) 2
  | cons c rest hcr ih =>
    cases n with
    | zero => simp
    | succ n =>
      rw [rawIndex_cons hcr]
      exact Nat.add_le_add_right (ih n) 1

/-- What follows a character of the normalized text is the normalized text of what follows. -/
theorem normalizeCrlf_drop (raw : List Char) (n : Nat) :
    normalizeCrlf (raw.drop (rawIndex raw n)) = (normalizeCrlf raw).drop n := by
  induction raw using crlf_cases generalizing n with
  | nil => simp [normalizeCrlf]
  | crlf rest ih =>
    cases n with
    | zero => rfl
    | succ n => exact ih n
  | cons c rest hcr ih =>
    cases n with
    | zero => simp
    | succ n =>
      rw [rawIndex_cons hcr, normalizeCrlf_cons hcr]
      exact ih n

theorem normalizeCrlf_take (raw : List Char) (n : Nat) :
    normalizeCrlf (raw.take (rawIndex raw n)) = (normalizeCrlf raw).take n := by
  induction raw using crlf_cases generalizing n with
  | nil => simp [normalizeCrlf]
  | crlf rest ih =>
    cases n with
    | zero => rfl
    | succ n =>
      show '\n' :: normalizeCrlf (rest.take (rawIndex rest n)) = _
      rw [ih n]
      rfl
  | cons c rest hcr ih =>
    cases n with
    | zero => simp [normalizeCrlf]
    | succ n =>
      rw [rawIndex_cons hcr, normalizeCrlf_cons hcr, List.take_succ_cons, List.take_succ_cons,
        normalizeCrlf_cons, ih n]
      intro hc hhead
      refine hcr hc ?_
      rw [List.head?_take] at hhead
      split at hhead
      · cases hhead
      · exact hhead

theorem rawIndex_add (raw : List Char) (n m : Nat) :
    rawIndex raw (n + m) = rawIndex raw n + rawIndex (raw.drop (rawIndex raw n)) m := by
  induction raw using crlf_cases generalizing n with
  | nil => simp [rawIndex]
  | crlf rest ih =>
    cases n with
    | zero => simp
    | succ n =>
      have h := ih n
      rw [Nat.succ_add]
      show rawIndex rest (n + m) + 2 = rawIndex rest n + 2 + rawIndex (rest.drop (rawIndex rest n)) m
      omega
  | cons c rest hcr ih =>
    cases n with
    | zero => simp
    | succ n =>
      have h := ih n
      rw [Nat.succ_add, rawIndex_cons hcr, rawIndex_cons hcr, List.drop_succ_cons]
      omega

theorem rawIndex_pos {raw : List Char} (hraw : raw ≠ []) {n : Nat} (hn : 0 < n) :
    0 < rawIndex raw n := by
  obtain ⟨n, rfl⟩ := Nat.exists_eq_succ_of_ne_zero (Nat.ne_of_gt hn)
  cases raw using crlf_cases with
  | nil => exact absurd rfl hraw
  | crlf rest => exact Nat.succ_pos _
  | cons c rest hcr =>
    rw [rawIndex_cons hcr]
    exact Nat.succ_pos _

theorem rawIndex_lt (raw : List Char) {i j : Nat} (hij : i < j)
    (hj : j ≤ (normalizeCrlf raw).length) : rawIndex raw i < rawIndex raw j := by
  have hleft : raw.drop (rawIndex raw i) ≠ [] := by
    intro hnil
    have hlength := congrArg List.length (normalizeCrlf_drop raw i)
    rw [hnil, List.length_drop] at hlength
    have hzero : (normalizeCrlf []).length = 0 := rfl
    omega
  have hpos := rawIndex_pos hleft (Nat.sub_pos_of_lt hij)
  have hadd := rawIndex_add raw i (j - i)
  rw [Nat.add_sub_cancel' (Nat.le_of_lt hij)] at hadd
  omega

/-- A stretch of the normalized text is the normalized text of its raw stretch. -/
theorem normalizeCrlf_extract (raw : List Char) {i j : Nat} (h : i ≤ j) :
    normalizeCrlf (raw.extract (rawIndex raw i) (rawIndex raw j)) =
      (normalizeCrlf raw).extract i j := by
  have hj : rawIndex raw j - rawIndex raw i =
      rawIndex (raw.drop (rawIndex raw i)) (j - i) := by
    conv => lhs; rw [← Nat.add_sub_cancel' h, rawIndex_add]
    omega
  rw [List.extract, List.extract, hj, normalizeCrlf_take, normalizeCrlf_drop]

theorem unifyEndings_normalizeCrlf {raw : List Char} (h : '\r' ∉ normalizeCrlf raw) :
    unifyEndings (normalizeCrlf raw) = unifyEndings raw := by
  induction raw using crlf_cases with
  | nil => rfl
  | crlf rest ih =>
    have hrest : '\r' ∉ normalizeCrlf rest := fun hmem => h (List.mem_cons_of_mem _ hmem)
    show unifyEndings ('\n' :: normalizeCrlf rest) = '\n' :: unifyEndings rest
    rw [unifyEndings_cons (fun heq => absurd heq (by decide)), ih hrest]
    rfl
  | cons c rest hcr ih =>
    rw [normalizeCrlf_cons hcr] at h ⊢
    rw [List.mem_cons, not_or] at h
    rw [unifyEndings_cons (fun heq => absurd heq.symm h.1), unifyEndings_cons hcr, ih h.2]

end MDRack.Markdown
