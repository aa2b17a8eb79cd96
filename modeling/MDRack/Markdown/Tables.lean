import MDRack.Markdown.Evidence
import MDRack.Markdown.Location

/-!
# Chunks of tables

The rows of a table are packed greedily under its two header lines.  A chunk owns the lines of its
rows, and the one with the first row owns the header lines too.

* `tableGroups` — the packing: the rows of each chunk, and the index of the first of them.
* `Covers` — a span that covers lines of the raw text and nothing else.
* `TableKept` — no row is lost, and each chunk covers the lines that it owns.
* `ReadsBack` — offsets that stay what they are when the projection is asked for them.

Principal result: `tableDrafts_kept_iff` — tables are kept exactly where the offsets of all chunks
read back, the first row fits under the header and every line ends with a newline.
-/

namespace MDRack.Markdown

open Checks StructuralChunker
open Tiling (Tiles)

/-! ## Line numbers -/

section Newlines

/-- The first lines of a text end with a newline. -/
def NewlineEnded (text : List Char) (count : Nat) : Prop :=
  ∀ line ∈ (linesOf text).take count, '\n' ∈ line.ending

theorem NewlineEnded.mono {text : List Char} {i j : Nat} (h : NewlineEnded text j) (hij : i ≤ j) :
    NewlineEnded text i :=
  fun line hline => h line ((List.take_prefix_take_left hij).subset hline)

theorem Line.Ends.count_kept_eq {line : Line} {rest : List Char} (h : line.Ends rest) :
    line.kept.count '\n' = 1 ↔ '\n' ∈ line.ending := by
  unfold Line.kept
  rw [List.count_append, h.count_content, Nat.zero_add]
  rcases h.ending with ⟨hend, -⟩ | hend | ⟨c, hend, -⟩
  · simp [hend]
  · simp [hend]
  · by_cases hc : c = '\n'
    · simp [hend, hc]
    · simp [hend, hc, Ne.symm hc]

/-- Before the last character of a line there is no newline in it. -/
theorem Line.Ends.count_take {line : Line} {rest : List Char} (h : line.Ends rest) {n : Nat}
    (hn : n < line.kept.length) : (line.kept.take n).count '\n' = 0 := by
  rw [List.count_eq_zero]
  intro hmem
  obtain ⟨i, hi, hget⟩ := List.getElem_of_mem hmem
  have hlength : i < line.kept.length - 1 := by
    rw [List.length_take] at hi
    omega
  rw [List.getElem_take] at hget
  have hcontent : '\n' ∉ line.content := List.count_eq_zero.mp h.count_content
  unfold Line.kept at hlength hget
  rcases h.ending with ⟨hend, -⟩ | hend | ⟨c, hend, -⟩
  · simp only [hend, List.append_nil] at hget
    exact hcontent (hget ▸ List.getElem_mem _)
  · simp only [hend, List.length_append, List.length_cons, List.length_nil] at hlength
    rcases Nat.lt_or_ge i line.content.length with hlt | hge
    · rw [List.getElem_append_left hlt] at hget
      exact hcontent (hget ▸ List.getElem_mem _)
    · obtain rfl : i = line.content.length := by omega
      simp [hend] at hget
  · simp only [hend, List.length_append, List.length_cons, List.length_nil] at hlength
    have hlt : i < line.content.length := by omega
    rw [List.getElem_append_left hlt] at hget
    exact hcontent (hget ▸ List.getElem_mem _)

theorem Formed.count_kept_eq {lines : List Line} (h : Formed lines) :
    (lines.flatMap Line.kept).count '\n' = lines.length ↔ ∀ line ∈ lines, '\n' ∈ line.ending := by
  induction lines with
  | nil => simp
  | cons line lines ih =>
    have hline := h.1.count_kept
    have hrest := h.2.count_kept
    rw [List.flatMap_cons, List.count_append, List.length_cons, List.forall_mem_cons,
      ← h.1.count_kept_eq, ← ih h.2]
    omega

variable {text : List Char} {line position : Nat}

/-- The newlines before a position are its line number where all lines before end with one. -/
theorem newlinesBefore_eq_iff (hstart : lineStart text line ≤ position)
    (hstop : position < lineStart text (line + 1)) :
    newlinesBefore text position = line ↔ NewlineEnded text line := by
  have hlong : line < (linesOf text).length := by
    by_contra hshort
    rw [lineStart_of_le text (by omega)] at hstart
    have := lineStart_le text (line + 1)
    omega
  have hformed := linesOf_formed text
  have hsplit : text = ((linesOf text).take line).flatMap Line.kept ++
      ((linesOf text)[line].kept ++ ((linesOf text).drop (line + 1)).flatMap Line.kept) := by
    rw [← List.flatMap_cons, ← List.flatMap_append, ← List.drop_eq_getElem_cons hlong,
      List.take_append_drop, linesOf_flatMap]
  have hline : (linesOf text)[line].Ends (((linesOf text).drop (line + 1)).flatMap Line.kept) := by
    have hdrop := hformed.drop line
    rw [List.drop_eq_getElem_cons hlong] at hdrop
    exact hdrop.1
  have hwidth : lineStart text (line + 1) =
      lineStart text line + (linesOf text)[line].kept.length := by
    rw [lineStart, lineStart, List.take_succ_eq_append_getElem hlong, List.map_append,
      List.sum_append, List.map_singleton, List.sum_singleton]
  have htake : text.take position = ((linesOf text).take line).flatMap Line.kept ++
      (linesOf text)[line].kept.take (position - lineStart text line) := by
    conv => lhs; rw [hsplit]
    rw [List.take_append, ← lineStart_eq, List.take_of_length_le (by rw [← lineStart_eq]; exact hstart),
      List.take_append_of_le_length (by omega)]
  have hcount := (hformed.take line).count_kept_eq
  rw [List.length_take, Nat.min_eq_left (Nat.le_of_lt hlong)] at hcount
  rw [newlinesBefore, htake, List.count_append, hline.count_take (by omega), Nat.add_zero, hcount]
  exact Iff.rfl

end Newlines

/-! ## Asking a projection for offsets of the raw text -/

/-- A projection never puts text behind where it comes from. -/
def Behind (spans : List ProjectionSpan) : Prop :=
  ∀ s ∈ spans, s.projectedStart ≤ s.rawStart ∧ s.rawStart ≤ s.textStart

/-- The offsets stay what they are, or no row of the projection meets them. -/
def SourceBlock.ReadsBack (block : SourceBlock) (range : Range) : Prop :=
  ∀ spans ∈ block.projectionSpans, ∀ bounds ∈ projectedRawBounds spans range.1 range.2,
    bounds = range

/-- What the chunker takes offsets of the raw text for. -/
def SourceBlock.rawBounds (block : SourceBlock) (range : Range) : Range :=
  (block.projectionSpans.bind fun spans => projectedRawBounds spans range.1 range.2).getD range

section Reading

variable {block : SourceBlock} {range : Range}

theorem rawBounds_eq_iff : block.rawBounds range = range ↔ block.ReadsBack range := by
  unfold SourceBlock.rawBounds SourceBlock.ReadsBack
  cases block.projectionSpans with
  | none => simp
  | some spans =>
    simp only [Option.bind_some, Option.mem_def, Option.some.injEq, forall_eq']
    cases projectedRawBounds spans range.1 range.2 <;> simp

theorem readsBack_of_unprojected (h : block.projectionSpans = none) : block.ReadsBack range := by
  intro spans hspans
  rw [h] at hspans
  cases hspans

theorem rawBounds_ge (range : Range) (hbehind : ∀ spans ∈ block.projectionSpans, Behind spans) :
    range.1 ≤ (block.rawBounds range).1 := by
  unfold SourceBlock.rawBounds
  cases hspans : block.projectionSpans with
  | none => exact Nat.le_refl _
  | some spans =>
    simp only [Option.bind_some, projectedRawBounds]
    split
    · rename_i first last hfirst hlast
      obtain ⟨hshift, htext⟩ := hbehind spans hspans first
        (List.mem_of_mem_filter (List.mem_of_mem_head? hfirst))
      simp only [Option.getD_some]
      split <;> omega
    · exact Nat.le_refl _

/-- Only text that no reference stands before reads back. -/
theorem readsBack_unshifted {spans : List ProjectionSpan} (hspans : block.projectionSpans = some spans)
    (hbehind : Behind spans) {first : ProjectionSpan}
    (hfirst : (spans.filter (Tiling.meets (·.projectedStart) (·.projectedStop) range.1
      range.2)).head? = some first) (h : block.ReadsBack range) :
    first.rawStart = first.projectedStart := by
  obtain ⟨hshift, htext⟩ := hbehind first (List.mem_of_mem_filter (List.mem_of_mem_head? hfirst))
  have hbounds := h spans hspans
  unfold projectedRawBounds at hbounds
  simp only [hfirst] at hbounds
  obtain ⟨last, hlast⟩ : ∃ last, (spans.filter (Tiling.meets (·.projectedStart) (·.projectedStop)
      range.1 range.2)).getLast? = some last := by
    refine ⟨_, List.getLast?_eq_some_getLast fun hnil => ?_⟩
    rw [hnil] at hfirst
    cases hfirst
  rw [hlast] at hbounds
  have hstart := congrArg Prod.fst (hbounds _ rfl)
  simp only at hstart
  split at hstart <;> omega

theorem find_self (text : List Char) : find text text 0 text.length = some 0 := by
  cases hfind : find text text 0 text.length with
  | none => exact absurd hfind (find_infix_ne_none (List.infix_refl text))
  | some i =>
    have hwithin := find_within hfind
    rw [show i = 0 by omega]

theorem spanForTextSlice_raw : spanForTextSlice block block.rawMarkdown range.1 range.2 =
    SourceSpan.make
      (block.sourceSpan.startLine + newlinesBefore block.rawMarkdown (block.rawBounds range).1)
      (block.sourceSpan.startLine + newlinesBefore block.rawMarkdown
        (max (block.rawBounds range).1 ((block.rawBounds range).2 - 1)))
      (block.sourceSpan.offsets.map fun offsets =>
        (offsets.1 + (block.rawBounds range).1, offsets.1 + (block.rawBounds range).2)) := by
  unfold spanForTextSlice SourceBlock.rawBounds
  cases block.projectionSpans.bind fun spans => projectedRawBounds spans range.1 range.2 with
  | none => simp [textRawBounds, find_self, bind, Except.bind]
  | some bounds => rfl

end Reading

/-! ## Packing rows -/

section Packing

variable (header : List (List Char)) (budget : Budget) (limit : Nat)

/-- The rows of the next chunk: those that fit under the header, or one row that does not. -/
def packedRows (row : List Char) (rest : List (List Char)) : List (List Char) :=
  let selected := selectRows header budget limit [] (row :: rest)
  if selected = [] then [row] else selected

/-- The chunks of rows, each with the index of its first row: `fuel` bounds the rows left. -/
def rowGroups : Nat → Nat → List (List Char) → List (Nat × List (List Char))
  | 0, _, _ => []
  | _, _, [] => []
  | fuel + 1, start, row :: rest =>
    let rows := packedRows header budget limit row rest
    (start, rows) :: rowGroups fuel (start + rows.length) ((row :: rest).drop rows.length)

/-- The rows are shown under the header. -/
def Fits (rows : List (List Char)) : Prop := budget.holds (joinLines (header ++ rows)) = true

instance (rows : List (List Char)) : Decidable (Fits header budget rows) := by
  unfold Fits
  infer_instance

theorem selectRows_spec (selected rows : List (List Char))
    (hselected : selected = [] ∨ Fits header budget selected) :
    ∃ k ≤ rows.length, selectRows header budget limit selected rows = selected ++ rows.take k ∧
      (selectRows header budget limit selected rows = [] ∨
        Fits header budget (selectRows header budget limit selected rows)) := by
  induction limit generalizing selected rows with
  | zero => exact ⟨0, Nat.zero_le _, by simp [selectRows], by simpa [selectRows] using hselected⟩
  | succ limit ih =>
    cases rows with
    | nil => exact ⟨0, Nat.zero_le _, by simp [selectRows], by simpa [selectRows] using hselected⟩
    | cons row rest =>
      unfold selectRows
      split
      · rename_i hfits
        have hmore : Fits header budget (selected ++ [row]) := by
          rw [Fits, ← List.append_assoc]
          exact hfits
        obtain ⟨k, hk, heq, hshown⟩ := ih (selected ++ [row]) rest (.inr hmore)
        refine ⟨k + 1, Nat.succ_le_succ hk, ?_, hshown⟩
        rw [heq, List.append_assoc, List.singleton_append, List.take_succ_cons]
      · exact ⟨0, Nat.zero_le _, by simp, hselected⟩

theorem packedRows_spec (row : List Char) (rest : List (List Char)) : ∃ k, 0 < k ∧
    k ≤ rest.length + 1 ∧ packedRows header budget limit row rest = (row :: rest).take k := by
  obtain ⟨k, hk, heq, -⟩ := selectRows_spec header budget limit [] (row :: rest) (.inl rfl)
  rw [List.nil_append] at heq
  unfold packedRows
  simp only [heq]
  by_cases hzero : k = 0
  · exact ⟨1, Nat.one_pos, by omega, by simp [hzero]⟩
  · refine ⟨k, Nat.pos_of_ne_zero hzero, hk, if_neg ?_⟩
    obtain ⟨k, rfl⟩ := Nat.exists_eq_succ_of_ne_zero hzero
    simp

theorem selectRows_nil_iff (hlimit : 0 < limit) (row : List Char) (rest : List (List Char)) :
    selectRows header budget limit [] (row :: rest) = [] ↔ ¬ Fits header budget [row] := by
  obtain ⟨limit, rfl⟩ := Nat.exists_eq_succ_of_ne_zero (Nat.ne_of_gt hlimit)
  by_cases hrow : Fits header budget [row]
  · obtain ⟨k, -, heq, -⟩ := selectRows_spec header budget limit [row] rest (.inr hrow)
    have hstep : selectRows header budget (limit + 1) [] (row :: rest) =
        selectRows header budget limit [row] rest := by
      rw [selectRows, if_pos (by simpa [Fits] using hrow), List.nil_append]
    simp [hstep, heq, hrow]
  · simp only [hrow, not_false_eq_true, iff_true]
    rw [selectRows, if_neg (by simpa [Fits] using hrow)]

/-- The chunk shows its rows exactly if the first of them fits under the header. -/
theorem packedRows_fits (hlimit : 0 < limit) (row : List Char) (rest : List (List Char)) :
    Fits header budget (packedRows header budget limit row rest) ↔ Fits header budget [row] := by
  have hnil := selectRows_nil_iff header budget limit hlimit row rest
  obtain ⟨-, -, -, hshown⟩ := selectRows_spec header budget limit [] (row :: rest) (.inl rfl)
  unfold packedRows
  simp only
  split
  · exact Iff.rfl
  · rename_i hne
    exact iff_of_true (hshown.resolve_left hne) (not_not.mp (hne ∘ hnil.mpr))

/-- A chunk that does not show its rows has only one. -/
theorem packedRows_single (row : List Char) (rest : List (List Char))
    (h : ¬ Fits header budget (packedRows header budget limit row rest)) :
    packedRows header budget limit row rest = [row] := by
  obtain ⟨-, -, -, hshown⟩ := selectRows_spec header budget limit [] (row :: rest) (.inl rfl)
  unfold packedRows at h ⊢
  simp only at h ⊢
  split
  · rfl
  · rename_i hne
    rw [if_neg hne] at h
    exact absurd (hshown.resolve_left hne) h

variable {header budget limit} {fuel start : Nat} {rows : List (List Char)}

/-- No row is lost, and the rows keep their order. -/
theorem rowGroups_rows (hfuel : rows.length ≤ fuel) :
    (rowGroups header budget limit fuel start rows).flatMap (·.2) = rows := by
  induction fuel generalizing start rows with
  | zero =>
    rw [List.length_eq_zero_iff.mp (Nat.le_zero.mp hfuel)]
    rfl
  | succ fuel ih =>
    cases rows with
    | nil => rfl
    | cons row rest =>
      obtain ⟨k, hpos, hk, heq⟩ := packedRows_spec header budget limit row rest
      have hlength : (packedRows header budget limit row rest).length = k := by
        rw [heq, List.length_take, List.length_cons]
        omega
      rw [rowGroups, List.flatMap_cons, ih]
      · rw [hlength, heq, List.take_append_drop]
      · rw [hlength, List.length_drop]
        omega

/-- The chunks stand one after the other. -/
theorem rowGroups_tiles (hfuel : rows.length ≤ fuel) :
    Tiles (fun group : Nat × List (List Char) => group.1) (fun group => group.1 + group.2.length)
      start (rowGroups header budget limit fuel start rows) (start + rows.length) := by
  induction fuel generalizing start rows with
  | zero =>
    rw [List.length_eq_zero_iff.mp (Nat.le_zero.mp hfuel)]
    rfl
  | succ fuel ih =>
    cases rows with
    | nil => rfl
    | cons row rest =>
      obtain ⟨k, hpos, hk, heq⟩ := packedRows_spec header budget limit row rest
      have hlength : (packedRows header budget limit row rest).length = k := by
        rw [heq, List.length_take, List.length_cons]
        omega
      refine ⟨rfl, ?_, ?_⟩
      · show start < start + (packedRows header budget limit row rest).length
        omega
      · rw [List.length_cons] at hfuel ⊢
        have hdrop : ((row :: rest).drop k).length = rest.length + 1 - k := by
          rw [List.length_drop, List.length_cons]
        have hrest : Tiles _ _ (start + k) (rowGroups header budget limit fuel (start + k)
            ((row :: rest).drop k)) (start + k + ((row :: rest).drop k).length) := ih (by omega)
        rw [hdrop, show start + k + (rest.length + 1 - k) = start + (rest.length + 1) by omega]
          at hrest
        simpa only [hlength] using hrest

/-- Each chunk shows its rows, or has only one. -/
theorem rowGroups_single : ∀ group ∈ rowGroups header budget limit fuel start rows,
    Fits header budget group.2 ∨ ∃ row, group.2 = [row] := by
  induction fuel generalizing start rows with
  | zero => simp [rowGroups]
  | succ fuel ih =>
    cases rows with
    | nil => simp [rowGroups]
    | cons row rest =>
      intro group hgroup
      rcases List.mem_cons.mp hgroup with rfl | hgroup
      · by_cases hfits : Fits header budget (packedRows header budget limit row rest)
        · exact .inl hfits
        · exact .inr ⟨row, packedRows_single header budget limit row rest hfits⟩
      · exact ih group hgroup

end Packing

/-! ## The drafts of a table -/

section Drafts

variable (chunker : StructuralChunker) (block : SourceBlock)

def SourceBlock.header : List (List Char) := (splitlines block.rawMarkdown).take 2

def SourceBlock.rows : List (List Char) := (splitlines block.rawMarkdown).drop 2

/-- The limits of the chunks of a table. -/
abbrev StructuralChunker.tableLimits : Budget := chunker.bodyLimits block .table false

/-- The chunks of a table: one of no rows, if the table has none. -/
def StructuralChunker.tableGroups : List (Nat × List (List Char)) :=
  if block.rows = [] then [(0, [])]
  else rowGroups block.header (chunker.tableLimits block) chunker.config.tableRowsPerChunk
    (splitlines block.rawMarkdown).length 0 block.rows

/-- The lines of a table that a chunk owns. -/
def ownedLines (group : Nat × List (List Char)) : Range :=
  (if group.1 = 0 then 0 else 2 + group.1, 2 + group.1 + group.2.length)

/-- The offsets of lines. -/
def SourceBlock.lineOffsets (lines : Range) : Range :=
  (lineStart block.rawMarkdown lines.1, lineStart block.rawMarkdown lines.2)

/-- The span covers the lines of the block and nothing else. -/
structure Covers (lines : Range) (span : SourceSpan) : Prop where
  offsets : ∀ own ∈ block.sourceSpan.offsets, span.offsets =
    some (own.1 + (block.lineOffsets lines).1, own.1 + (block.lineOffsets lines).2)
  startLine : span.startLine = block.sourceSpan.startLine + lines.1
  endLine : span.endLine + 1 = block.sourceSpan.startLine + lines.2

/-- A chunk shows its rows under the header lines, or the marker of its one row.  A table without
rows is shown as it is, or by its marker. -/
def Shows (rows : List (List Char)) (display : List Char) : Prop :=
  (rows ≠ [] ∧ display = joinLines (block.header ++ rows)) ∨
    (∃ row, rows = [row] ∧
      chunker.boundedMarker "table row" row (chunker.tableLimits block) = .ok display) ∨
    (rows = [] ∧ (display = block.rawMarkdown ∨
      chunker.boundedMarker "table" block.rawMarkdown (chunker.tableLimits block) = .ok display))

/-- No row is lost, and each chunk covers the lines that it owns. -/
structure TableKept (drafts : List Draft) : Prop where
  rows : (chunker.tableGroups block).flatMap (·.2) = block.rows
  shown : List.Forall₂ (fun group draft => Shows chunker block group.2 draft.display)
    (chunker.tableGroups block) drafts
  located : List.Forall₂ (fun group draft => Covers block (ownedLines group) draft.span)
    (chunker.tableGroups block) drafts
  ordered : drafts.Pairwise fun a b => a.span.endLine < b.span.startLine ∧
    ∀ first ∈ a.span.offsets, ∀ second ∈ b.span.offsets, first.2 ≤ second.1

/-- What the parser promises of a table: its span covers its raw text, which has two header lines,
and a projection is never longer than what it stands for. -/
structure FromTable : Prop where
  offsets : ∃ start, block.sourceSpan.offsets = some (start, start + block.rawMarkdown.length)
  lines : block.sourceSpan.endLine + 1 =
    block.sourceSpan.startLine + (splitlines block.rawMarkdown).length
  header : 2 ≤ (splitlines block.rawMarkdown).length
  projection : ∀ spans ∈ block.projectionSpans, Behind spans

/-- The first row fits under the header, all lines but the last end with a newline, and the offsets
of every chunk read back. -/
structure StructuralChunker.TableReadable : Prop where
  first : ∀ row ∈ block.rows.head?, Fits block.header (chunker.tableLimits block) [row]
  newlines : NewlineEnded block.rawMarkdown ((splitlines block.rawMarkdown).length - 1)
  readsBack : ∀ group ∈ chunker.tableGroups block,
    block.ReadsBack (block.lineOffsets (ownedLines group))

/-- The lines that the chunker takes for a chunk. -/
def askedLines (budget : Budget) (group : Nat × List (List Char)) : Range :=
  if Fits block.header budget group.2 then ownedLines group else (2 + group.1, 3 + group.1)

/-- What a chunk of rows shows. -/
def tableDisplay (rows : List (List Char)) : Except Err (List Char) :=
  if Fits block.header (chunker.tableLimits block) rows then .ok (joinLines (block.header ++ rows))
  else chunker.boundedMarker "table row" (rows.headD []) (chunker.tableLimits block)

/-- The draft of a chunk of rows. -/
def tableDraft (group : Nat × List (List Char)) : Except Err Draft := do
  let display ← tableDisplay chunker block group.2
  draftOf block .table block.rawMarkdown false
    (block.lineOffsets (askedLines block (chunker.tableLimits block) group), display)

variable {chunker block}

/-- The loop makes the drafts of the chunks, in order. -/
theorem tableRowDrafts_eq {fuel start : Nat} {rows : List (List Char)}
    (hfuel : rows.length ≤ fuel) :
    chunker.tableRowDrafts block block.header (chunker.tableLimits block) fuel start rows =
      mapAll (tableDraft chunker block) (rowGroups block.header (chunker.tableLimits block)
        chunker.config.tableRowsPerChunk fuel start rows) := by
  induction fuel generalizing start rows with
  | zero => simp [tableRowDrafts, rowGroups, mapAll]
  | succ fuel ih =>
    cases rows with
    | nil => simp [tableRowDrafts, rowGroups, mapAll]
    | cons row rest =>
      have hlimit : 0 < chunker.config.tableRowsPerChunk := chunker.config.positive _ (by simp)
      obtain ⟨k, hpos, hk, heq⟩ := packedRows_spec block.header (chunker.tableLimits block)
        chunker.config.tableRowsPerChunk row rest
      have hrest : tableRowDrafts chunker block block.header (chunker.tableLimits block) fuel
          (start + k) ((row :: rest).drop k) = _ := ih (by
        rw [List.length_drop]
        omega)
      have hfits := packedRows_fits block.header (chunker.tableLimits block)
        chunker.config.tableRowsPerChunk hlimit row rest
      have hnil := selectRows_nil_iff block.header (chunker.tableLimits block)
        chunker.config.tableRowsPerChunk hlimit row rest
      have hlength : (packedRows block.header (chunker.tableLimits block)
          chunker.config.tableRowsPerChunk row rest).length = k := by
        rw [heq, List.length_take, List.length_cons]
        omega
      simp only [rowGroups, mapAll, hlength, ← hrest, tableDraft, tableDisplay, hfits, askedLines]
      rw [tableRowDrafts]
      split
      · rename_i hselected
        have hpacked : packedRows block.header (chunker.tableLimits block)
            chunker.config.tableRowsPerChunk row rest = [row] := by
          simp [packedRows, hselected]
        obtain rfl : k = 1 := by rw [← hlength, hpacked, List.length_singleton]
        simp only [if_neg (hnil.mp hselected), hpacked, List.headD_cons, lineContentEnd_eq,
          SourceBlock.lineOffsets, bind_assoc, List.drop_one, List.tail_cons]
      · rename_i selected hselected
        have hpacked : packedRows block.header (chunker.tableLimits block)
            chunker.config.tableRowsPerChunk row rest = selectRows block.header
              (chunker.tableLimits block) chunker.config.tableRowsPerChunk [] (row :: rest) :=
          if_neg hselected
        rw [hpacked] at hlength ⊢
        simp only [if_pos (not_not.mp (hselected ∘ hnil.mpr)), hlength, lineContentEnd_eq,
          SourceBlock.lineOffsets, ownedLines]
        rfl

theorem tableDrafts_rows (hrows : block.rows ≠ []) : chunker.tableDrafts block =
      mapAll (tableDraft chunker block) (chunker.tableGroups block) := by
  have hlength : ¬ (splitlines block.rawMarkdown).length ≤ 2 := fun hle =>
    hrows (List.drop_eq_nil_iff.mpr hle)
  unfold tableDrafts
  simp only [if_neg hlength]
  rw [StructuralChunker.tableGroups, if_neg hrows]
  refine tableRowDrafts_eq ?_
  rw [List.length_drop]
  exact Nat.sub_le _ _

theorem boundedMarker_total (chunker : StructuralChunker) (kind : String) (source : List Char)
    (block : SourceBlock) (contentType : RetrievalContentType) (useTarget : Bool) :
    ∃ marker, chunker.boundedMarker kind source (chunker.bodyLimits block contentType useTarget) =
      .ok marker := by
  have hshort : (chunker.bodyLimits block contentType useTarget).holds ['~'] = true := by
    have hbyte : byteLength ['~'] = 1 := by decide
    rw [Budget.holds_iff, hbyte]
    exact ⟨Nat.le_max_left _ _, Nat.le_max_left _ _⟩
  unfold boundedMarker
  simp only
  split
  · exact ⟨_, rfl⟩
  · rename_i hnone
    have hlast := List.find?_eq_none.mp hnone ['~'] (by simp)
    exact absurd hshort hlast

/-! ## One chunk -/

theorem lineStart_zero (text : List Char) : lineStart text 0 = 0 := by simp [lineStart]

variable {lines : Range}

theorem lineOffsets_lt (hlt : lines.1 < lines.2)
    (hle : lines.2 ≤ (splitlines block.rawMarkdown).length) :
    (block.lineOffsets lines).1 < (block.lineOffsets lines).2 := by
  rw [splitlines_length] at hle
  exact lineStart_lt block.rawMarkdown hlt (by omega)

theorem covers_iff (hlt : lines.1 < lines.2)
    (hle : lines.2 ≤ (splitlines block.rawMarkdown).length) {own : Range}
    (hown : block.sourceSpan.offsets = some own) {span : SourceSpan}
    (h : spanForTextSlice block block.rawMarkdown (block.lineOffsets lines).1
      (block.lineOffsets lines).2 = .ok span) :
    Covers block lines span ↔
      block.ReadsBack (block.lineOffsets lines) ∧ NewlineEnded block.rawMarkdown (lines.2 - 1) := by
  rw [spanForTextSlice_raw] at h
  obtain ⟨hstart, hend, hoffsets⟩ := SourceSpan.make_ok h
  have hpos := lineOffsets_lt hlt hle
  rw [splitlines_length] at hle
  obtain ⟨last, hlast⟩ : ∃ last, lines.2 = last + 1 := ⟨lines.2 - 1, by omega⟩
  have hwidth := lineStart_succ block.rawMarkdown (i := last) (by omega)
  have hfinal : newlinesBefore block.rawMarkdown ((block.lineOffsets lines).2 - 1) = last ↔
      NewlineEnded block.rawMarkdown last := by
    apply newlinesBefore_eq_iff
    · show lineStart _ last ≤ lineStart _ lines.2 - 1
      rw [hlast]
      omega
    · show lineStart _ lines.2 - 1 < lineStart _ (last + 1)
      rw [hlast]
      omega
  have hprobe : max (block.lineOffsets lines).1 ((block.lineOffsets lines).2 - 1) =
      (block.lineOffsets lines).2 - 1 := by omega
  rw [hlast, Nat.add_sub_cancel]
  constructor
  · intro hcovers
    have hraw : block.rawBounds (block.lineOffsets lines) = block.lineOffsets lines := by
      have heq := hcovers.offsets own hown
      rw [hoffsets, hown, Option.map_some, Option.some.injEq, Prod.mk.injEq] at heq
      exact Prod.ext (Nat.add_left_cancel heq.1) (Nat.add_left_cancel heq.2)
    refine ⟨rawBounds_eq_iff.mp hraw, hfinal.mp ?_⟩
    have hlines := hcovers.endLine
    rw [hend, hraw, hprobe, hlast] at hlines
    omega
  · rintro ⟨hback, hended⟩
    have hraw := rawBounds_eq_iff.mpr hback
    have hfirst := (newlinesBefore_eq_iff (Nat.le_refl (lineStart block.rawMarkdown lines.1))
      (lineStart_succ block.rawMarkdown (by omega))).mpr (hended.mono (by omega))
    rw [hraw] at hstart hend hoffsets
    exact {
      offsets := fun own' hown' => by rw [hoffsets, Option.mem_def.mp hown', Option.map_some]
      startLine := by
        rw [hstart]
        exact congrArg _ hfirst
      endLine := by
        rw [hend, hprobe, hfinal.mpr hended, hlast]
        rfl }

theorem span_ok (hlt : lines.1 < lines.2)
    (hle : lines.2 ≤ (splitlines block.rawMarkdown).length)
    (hback : block.ReadsBack (block.lineOffsets lines)) : ∃ span,
      spanForTextSlice block block.rawMarkdown (block.lineOffsets lines).1
        (block.lineOffsets lines).2 = .ok span := by
  have hpos := lineOffsets_lt hlt hle
  rw [spanForTextSlice_raw, rawBounds_eq_iff.mpr hback]
  unfold SourceSpan.make
  have hlines := newlinesBefore_mono block.rawMarkdown
    (Nat.le_max_left (block.lineOffsets lines).1 ((block.lineOffsets lines).2 - 1))
  have hpositive := block.sourceSpan.positive
  rw [dif_pos ⟨by omega, by omega⟩, dif_pos]
  · exact ⟨_, rfl⟩
  · intro range hrange
    obtain ⟨own, -, rfl⟩ := Option.map_eq_some_iff.mp hrange
    show own.1 + _ ≤ own.1 + _
    omega

/-! ## All chunks -/

/-- The chunks of a table with rows, one after the other, each with at least one row. -/
theorem tableGroups_tiles (chunker : StructuralChunker) (hrows : block.rows ≠ []) :
    Tiles (fun group : Nat × List (List Char) => group.1) (fun group => group.1 + group.2.length) 0
      (chunker.tableGroups block) block.rows.length := by
  have hfuel : block.rows.length ≤ (splitlines block.rawMarkdown).length := by
    rw [SourceBlock.rows, List.length_drop]
    exact Nat.sub_le _ _
  have htiles : Tiles _ _ 0 (rowGroups block.header (chunker.tableLimits block)
      chunker.config.tableRowsPerChunk (splitlines block.rawMarkdown).length 0 block.rows)
      (0 + block.rows.length) := rowGroups_tiles hfuel
  rw [Nat.zero_add] at htiles
  rw [StructuralChunker.tableGroups, if_neg hrows]
  exact htiles

theorem tableGroups_rows : (chunker.tableGroups block).flatMap (·.2) = block.rows := by
  unfold StructuralChunker.tableGroups
  split
  · rename_i hrows
    rw [hrows]
    rfl
  · apply rowGroups_rows
    rw [SourceBlock.rows, List.length_drop]
    exact Nat.sub_le _ _

theorem rows_length (block : SourceBlock) : block.rows.length + 2 = max 2 (splitlines block.rawMarkdown).length := by
  rw [SourceBlock.rows, List.length_drop]
  omega

/-- The lines that a chunk owns are lines of the table. -/
theorem ownedLines_within (hrows : block.rows ≠ []) {group : Nat × List (List Char)}
    (hgroup : group ∈ chunker.tableGroups block) :
    (ownedLines group).1 < (ownedLines group).2 ∧
      (ownedLines group).2 ≤ (splitlines block.rawMarkdown).length := by
  have hmem := (tableGroups_tiles chunker hrows).mem hgroup
  have hpos := List.length_pos_iff.mpr hrows
  have hlength := rows_length block
  unfold ownedLines
  simp only
  split <;> omega

/-- Where the first row fits, the chunker takes for each chunk the lines that it owns. -/
theorem askedLines_eq (hrows : block.rows ≠ [])
    (hfirst : ∀ group ∈ chunker.tableGroups block, group.1 = 0 →
      Fits block.header (chunker.tableLimits block) group.2)
    {group : Nat × List (List Char)} (hgroup : group ∈ chunker.tableGroups block) :
    askedLines block (chunker.tableLimits block) group = ownedLines group := by
  unfold askedLines
  split
  · rfl
  · rename_i hfits
    have hgroups := hgroup
    rw [StructuralChunker.tableGroups, if_neg hrows] at hgroups
    obtain ⟨row, hrow⟩ := (rowGroups_single group hgroups).resolve_left hfits
    have hlater : group.1 ≠ 0 := fun hzero => hfits (hfirst group hgroup hzero)
    simp only [ownedLines, if_neg hlater, hrow, List.length_singleton, Prod.mk.injEq, true_and]
    omega

/-- The first chunk shows its rows exactly if the first row fits. -/
theorem first_fits_iff (hrows : block.rows ≠ []) :
    (∀ group ∈ chunker.tableGroups block, group.1 = 0 →
        Fits block.header (chunker.tableLimits block) group.2) ↔
      ∀ row ∈ block.rows.head?, Fits block.header (chunker.tableLimits block) [row] := by
  have hlimit : 0 < chunker.config.tableRowsPerChunk := chunker.config.positive _ (by simp)
  have htiles := tableGroups_tiles chunker hrows
  obtain ⟨row, rest, hcons⟩ := List.exists_cons_of_ne_nil hrows
  obtain ⟨fuel, hfuel⟩ : ∃ fuel, (splitlines block.rawMarkdown).length = fuel + 1 := by
    have hlength := rows_length block
    rw [hcons, List.length_cons] at hlength
    exact ⟨(splitlines block.rawMarkdown).length - 1, by omega⟩
  have hfits := packedRows_fits block.header (chunker.tableLimits block)
    chunker.config.tableRowsPerChunk hlimit row rest
  rw [StructuralChunker.tableGroups, if_neg hrows, hcons, hfuel, rowGroups] at htiles ⊢
  simp only [List.head?_cons, Option.mem_some_iff, forall_eq', List.forall_mem_cons, hfits,
    forall_const]
  refine ⟨fun h => h.1, fun h => ⟨h, fun group hgroup hzero => ?_⟩⟩
  -- the chunks after the first one start behind it
  have hlater := (htiles.2.2.mem hgroup).1
  have hpos := htiles.2.1
  simp only at hlater hpos
  omega

theorem tableDraft_ok {group : Nat × List (List Char)} {draft : Draft}
    (hsingle : Fits block.header (chunker.tableLimits block) group.2 ∨ ∃ row, group.2 = [row])
    (hne : group.2 ≠ []) (h : tableDraft chunker block group = .ok draft) :
    Shows chunker block group.2 draft.display ∧
      spanForTextSlice block block.rawMarkdown
        (block.lineOffsets (askedLines block (chunker.tableLimits block) group)).1
        (block.lineOffsets (askedLines block (chunker.tableLimits block) group)).2 =
        .ok draft.span := by
  obtain ⟨display, hdisplay, hdraft⟩ := bind_ok.mp h
  obtain ⟨hspan, rfl, -⟩ := draftOf_ok hdraft
  refine ⟨?_, hspan⟩
  unfold tableDisplay at hdisplay
  split at hdisplay
  · exact .inl ⟨hne, (Except.ok.inj hdisplay).symm⟩
  · rename_i hfits
    obtain ⟨row, hrow⟩ := hsingle.resolve_left hfits
    rw [hrow, List.headD_cons] at hdisplay
    exact .inr (.inl ⟨row, hrow, hdisplay⟩)

theorem tableDraft_total {group : Nat × List (List Char)} {span : SourceSpan}
    (h : spanForTextSlice block block.rawMarkdown
        (block.lineOffsets (askedLines block (chunker.tableLimits block) group)).1
        (block.lineOffsets (askedLines block (chunker.tableLimits block) group)).2 = .ok span) :
    ∃ draft, tableDraft chunker block group = .ok draft := by
  obtain ⟨display, hdisplay⟩ : ∃ display, tableDisplay chunker block group.2 = .ok display := by
    unfold tableDisplay
    split
    · exact ⟨_, rfl⟩
    · exact boundedMarker_total chunker _ _ _ _ _
  refine ⟨⟨block, [], display, .table, span, false⟩, bind_ok.mpr ⟨display, hdisplay, ?_⟩⟩
  simp [draftOf, h]

theorem exists_of_forall₂ {α β : Type} {R S : α → β → Prop} {as : List α} {bs : List β}
    (hR : List.Forall₂ R as bs) (hS : List.Forall₂ S as bs) : ∀ a ∈ as, ∃ b, R a b ∧ S a b := by
  induction hR with
  | nil => simp
  | cons hab _ ih =>
    cases hS with
    | cons hab' hS => exact List.forall_mem_cons.mpr ⟨⟨_, hab, hab'⟩, ih hS⟩

/-- Chunks that cover what they own stand one after the other. -/
theorem ordered_of_located {drafts : List Draft} (hrows : block.rows ≠ [])
    (hoffsets : block.sourceSpan.offsets ≠ none)
    (h : List.Forall₂ (fun group draft => Covers block (ownedLines group) draft.span)
      (chunker.tableGroups block) drafts) :
    drafts.Pairwise fun a b => a.span.endLine < b.span.startLine ∧
      ∀ first ∈ a.span.offsets, ∀ second ∈ b.span.offsets, first.2 ≤ second.1 := by
  obtain ⟨own, hown⟩ := Option.ne_none_iff_exists'.mp hoffsets
  have htiles := tableGroups_tiles chunker hrows
  refine pairwise_of_forall₂ h htiles.pairwise ?_
  intro first hfirst second hsecond a b ha hb hle
  have hstart := (htiles.mem hfirst).2.1
  have hlines : (ownedLines first).2 ≤ (ownedLines second).1 := by
    unfold ownedLines
    simp only at hstart hle ⊢
    rw [if_neg (by omega)]
    omega
  refine ⟨?_, ?_⟩
  · have hend := ha.endLine
    have hnext := hb.startLine
    omega
  · intro x hx y hy
    rw [ha.offsets own hown] at hx
    rw [hb.offsets own hown] at hy
    obtain rfl := Option.some.inj hx
    obtain rfl := Option.some.inj hy
    exact Nat.add_le_add_left (lineStart_mono block.rawMarkdown hlines) own.1

/-- A table without rows is one chunk with the span of its block. -/
theorem tableDrafts_bare (hblock : FromTable block) (hrows : block.rows = []) :
    ∃ drafts, chunker.tableDrafts block = .ok drafts ∧ TableKept chunker block drafts := by
  have hlength : (splitlines block.rawMarkdown).length = 2 :=
    Nat.le_antisymm (List.drop_eq_nil_iff.mp hrows) hblock.header
  have hgroups : chunker.tableGroups block = [(0, [])] := by
    rw [StructuralChunker.tableGroups, if_pos hrows]
  obtain ⟨start, hoffsets⟩ := hblock.offsets
  have hcovers : Covers block (ownedLines (0, [])) block.sourceSpan := {
    offsets := by
      intro own hown
      have hfull : lineStart block.rawMarkdown 2 = block.rawMarkdown.length :=
        lineStart_of_le _ (by rw [← splitlines_length, hlength])
      obtain rfl : (start, start + block.rawMarkdown.length) = own :=
        Option.some.inj (hoffsets.symm.trans hown)
      show _ = some (start + lineStart block.rawMarkdown 0, start + lineStart block.rawMarkdown 2)
      rw [hoffsets, lineStart_zero, hfull]
      rfl
    startLine := rfl
    endLine := by rw [hblock.lines, hlength]; rfl }
  have hkept (display : List Char) (hshown : display = block.rawMarkdown ∨
      chunker.boundedMarker "table" block.rawMarkdown (chunker.tableLimits block) = .ok display) :
      TableKept chunker block [⟨block, [], display, .table, block.sourceSpan, false⟩] := {
    rows := tableGroups_rows
    shown := hgroups ▸ .cons (.inr (.inr ⟨rfl, hshown⟩)) .nil
    located := hgroups ▸ .cons hcovers .nil
    ordered := List.pairwise_singleton _ _ }
  unfold tableDrafts
  simp only [hlength, Nat.le_refl, if_true]
  split
  · exact ⟨_, rfl, hkept _ (.inl rfl)⟩
  · obtain ⟨marker, hmarker⟩ :=
      boundedMarker_total chunker "table" block.rawMarkdown block .table false
    refine ⟨_, bind_ok.mpr ⟨marker, hmarker, rfl⟩, hkept marker (.inr hmarker)⟩

/-- Every row of a table is kept, and every chunk covers the lines that it owns, exactly if the
table has no rows or can be read back. -/
theorem tableDrafts_kept_iff (hblock : FromTable block) :
    (∃ drafts, chunker.tableDrafts block = .ok drafts ∧ TableKept chunker block drafts) ↔
      block.rows = [] ∨ chunker.TableReadable block := by
  by_cases hrows : block.rows = []
  · exact iff_of_true (tableDrafts_bare hblock hrows) (.inl hrows)
  rw [or_iff_right hrows]
  obtain ⟨start, hoffsets⟩ := hblock.offsets
  have htiles := tableGroups_tiles chunker hrows
  have hpos := List.length_pos_iff.mpr hrows
  have hlength := rows_length block
  have hne (group : Nat × List (List Char)) (hgroup : group ∈ chunker.tableGroups block) :
      group.2 ≠ [] := by
    have hmem := (htiles.mem hgroup).2.1
    rintro hnil
    simp [hnil] at hmem
  have hsingle (group : Nat × List (List Char)) (hgroup : group ∈ chunker.tableGroups block) :
      Fits block.header (chunker.tableLimits block) group.2 ∨ ∃ row, group.2 = [row] := by
    rw [StructuralChunker.tableGroups, if_neg hrows] at hgroup
    exact rowGroups_single group hgroup
  rw [tableDrafts_rows hrows]
  constructor
  · rintro ⟨drafts, hdrafts, hkept⟩
    have hboth := exists_of_forall₂ (mapAll_forall₂ hdrafts) hkept.located
    have hfirst : ∀ group ∈ chunker.tableGroups block, group.1 = 0 →
        Fits block.header (chunker.tableLimits block) group.2 := by
      intro group hgroup hzero
      by_contra hfits
      obtain ⟨draft, hdraft, hcovers⟩ := hboth group hgroup
      have hspan := (tableDraft_ok (hsingle group hgroup) (hne group hgroup) hdraft).2
      rw [askedLines, if_neg hfits, hzero, spanForTextSlice_raw] at hspan
      -- the marker of the first row starts behind the header lines
      have hreal := hcovers.offsets _ hoffsets
      rw [(SourceSpan.make_ok hspan).2.2, hoffsets, Option.map_some, Option.some.injEq,
        Prod.mk.injEq] at hreal
      have hge := rawBounds_ge (block.lineOffsets (2 + 0, 3 + 0)) hblock.projection
      have hheader : 0 < lineStart block.rawMarkdown 2 := by
        have hlt := lineStart_lt block.rawMarkdown Nat.zero_lt_two (by
          rw [← splitlines_length]
          omega)
        rwa [lineStart_zero] at hlt
      have howned : (block.lineOffsets (ownedLines group)).1 = 0 := by
        simp only [SourceBlock.lineOffsets, ownedLines, hzero, if_true, lineStart_zero]
      have hasked : (block.lineOffsets (2 + 0, 3 + 0)).1 = lineStart block.rawMarkdown 2 := rfl
      omega
    have hread (group : Nat × List (List Char)) (hgroup : group ∈ chunker.tableGroups block) :
        block.ReadsBack (block.lineOffsets (ownedLines group)) ∧
          NewlineEnded block.rawMarkdown ((ownedLines group).2 - 1) := by
      obtain ⟨draft, hdraft, hcovers⟩ := hboth group hgroup
      have hspan := (tableDraft_ok (hsingle group hgroup) (hne group hgroup) hdraft).2
      rw [askedLines_eq hrows hfirst hgroup] at hspan
      have hwithin := ownedLines_within hrows hgroup
      exact (covers_iff hwithin.1 hwithin.2 hoffsets hspan).mp hcovers
    refine ⟨(first_fits_iff hrows).mp hfirst, ?_, fun group hgroup => (hread group hgroup).1⟩
    obtain ⟨before, last, after, hsplit, -, hlast⟩ :=
      htiles.covered (x := block.rows.length - 1) (Nat.zero_le _) (by omega)
    have hmem : last ∈ chunker.tableGroups block := by
      rw [hsplit]
      exact List.mem_append_right _ List.mem_cons_self
    have hstop := (htiles.mem hmem).2.2
    have hended := (hread last hmem).2
    have hall : (ownedLines last).2 = (splitlines block.rawMarkdown).length := by
      unfold ownedLines
      simp only at hlast hstop ⊢
      omega
    rwa [hall] at hended
  · intro hreadable
    have hasked (group : Nat × List (List Char)) (hgroup : group ∈ chunker.tableGroups block) :=
      askedLines_eq hrows ((first_fits_iff hrows).mpr hreadable.first) hgroup
    have htotal : ∀ group ∈ chunker.tableGroups block,
        ∃ draft, tableDraft chunker block group = .ok draft := by
      intro group hgroup
      have hwithin := ownedLines_within hrows hgroup
      obtain ⟨span, hspan⟩ := span_ok hwithin.1 hwithin.2 (hreadable.readsBack group hgroup)
      rw [← hasked group hgroup] at hspan
      exact tableDraft_total hspan
    obtain ⟨drafts, hdrafts⟩ := mapAll_total htotal
    have hpairs : List.Forall₂ (fun group draft => Shows chunker block group.2 draft.display ∧
        Covers block (ownedLines group) draft.span) (chunker.tableGroups block) drafts := by
      refine (List.forall₂_iff_get.mpr ⟨(mapAll_length hdrafts).symm, ?_⟩)
      intro i hi hi'
      have hgroup := List.get_mem (chunker.tableGroups block) ⟨i, hi⟩
      have hdraft := (List.forall₂_iff_get.mp (mapAll_forall₂ hdrafts)).2 i hi hi'
      obtain ⟨hshown, hspan⟩ := tableDraft_ok (hsingle _ hgroup) (hne _ hgroup) hdraft
      rw [hasked _ hgroup] at hspan
      have hwithin := ownedLines_within hrows hgroup
      refine ⟨hshown, (covers_iff hwithin.1 hwithin.2 hoffsets hspan).mpr
        ⟨hreadable.readsBack _ hgroup, hreadable.newlines.mono ?_⟩⟩
      omega
    have hlocated := hpairs.imp fun _ _ h => h.2
    exact ⟨drafts, hdrafts, tableGroups_rows, hpairs.imp fun _ _ h => h.1, hlocated,
      ordered_of_located hrows (by rw [hoffsets]; simp) hlocated⟩

end Drafts

/-! ## Projections of the parser -/

section Projections

variable {raw : List Char} {references : List (Reference raw)}

theorem nonOverlapping_subset (cursor : Nat) (references : List (Reference raw)) :
    nonOverlapping cursor references ⊆ references := by
  induction references generalizing cursor with
  | nil => exact List.Subset.refl _
  | cons r rest ih =>
    unfold nonOverlapping
    split
    · exact List.cons_subset_cons r (ih r.sourceEnd)
    · exact List.subset_cons_of_subset r (ih cursor)

/-- Pieces no longer than what they stand for are never laid out behind it. -/
theorem layout_behind {ps : List (Piece raw)} {offset : Nat} (hstart : ∀ p ∈ ps, offset ≤ p.start)
    (hps : ps.Pairwise fun p q => p.stop ≤ q.start)
    (hshort : ∀ p ∈ ps, p.start + p.text.length ≤ p.stop) :
    ∀ s ∈ layout offset ps, s.projectedStart ≤ s.rawStart := by
  induction ps generalizing offset with
  | nil => simp [layout]
  | cons p rest ih =>
    obtain ⟨hfirst, hrest⟩ := List.pairwise_cons.mp hps
    obtain ⟨hlength, hlater⟩ := List.forall_mem_cons.mp hshort
    obtain ⟨hle, -⟩ := List.forall_mem_cons.mp hstart
    intro s hs
    rcases List.mem_cons.mp hs with rfl | hs
    · rw [Piece.row_projectedStart, Piece.row_rawStart]
      exact hle
    · refine ih (fun q hq => ?_) hrest hlater s hs
      have hnext := hfirst q hq
      omega

/-- The parser's projections keep their promise, as no finder's projection is longer than its
reference. -/
theorem behind_of_projectImageSyntax {p : Projection}
    (hshort : ∀ r ∈ references, r.sourceStart + r.projection.length ≤ r.sourceEnd)
    (h : projectImageSyntax references = some p) : Behind p.spans := by
  obtain rfl : p = projected (selectReferences references) := by
    unfold projectImageSyntax at h
    split at h
    · cases h
    · exact (Option.some.inj h).symm
  have harranged : Arranged 0 (selectReferences references) := nonOverlapping_arranged 0 _
  have hpieces := pieces_from harranged
  have hall : ∀ s ∈ untrimmed (selectReferences references), s.projectedStart ≤ s.rawStart := by
    refine layout_behind (fun _ _ => Nat.zero_le _) (pieces_pairwise harranged) fun piece hpiece => ?_
    have hfrom := (hpieces piece hpiece).1
    cases piece with
    | literal start stop =>
      obtain ⟨hlt, hlength, -⟩ := hfrom
      show start + (raw.extract start stop).length ≤ stop
      rw [List.extract, List.length_take, List.length_drop]
      omega
    | replaced r =>
      exact hshort r (Sorting.mem_sortOn.mp (nonOverlapping_subset 0 _ hfrom.1))
  intro s hs
  rw [projected_spans] at hs
  obtain ⟨row, hrow, rfl⟩ := List.mem_map.mp hs
  have hmem := List.mem_of_mem_filter hrow
  have hle := hall row hmem
  have htext : row.rawStart ≤ row.textStart := rawStart_le_textStart harranged hmem
  simp only [trimmed, ProjectionSpan.adjust]
  omega

end Projections

/-! ## A table with an image -/

section Samples

theorem rowConfig_positive : ∀ value ∈ [1, 3200, 8000, 2000, 80, 1, 80], 1 ≤ value := by decide

/-- One row in each chunk. -/
def rowChunker : StructuralChunker :=
  ⟨⟨1, 3200, 8000, 2000, 80, 1, 80, rowConfig_positive, default_target_within, default_min_within⟩,
    fun text => text, noPython⟩

def imageTableText : List Char := "|a|\n|-|\n|![b](c)|\n|d|".toList

theorem imageReference_nonempty : 9 < 16 := by decide

theorem imageReference_inside : 16 ≤ imageTableText.length := by decide

theorem imageReference_stripped : strip ['b'] = ['b'] := by decide

def imageTableReferences : List (Reference imageTableText) :=
  [⟨9, 16, ['b'], imageReference_nonempty, imageReference_inside, imageReference_stripped⟩]

theorem tableSpan_starts : 1 ≤ 1 := Nat.le_refl 1

theorem tableSpan_lines : 1 ≤ 4 := by decide

theorem tableSpan_offsets : ∀ range ∈ some ((0, 21) : Range), range.1 ≤ range.2 := by
  rintro range ⟨⟩
  decide

/-- A table on the first four lines of a document, with a projection or without one. -/
def imageTable (projectionSpans : Option (List ProjectionSpan)) : SourceBlock where
  blockId := ⟨"table", Eq.refl true⟩
  blockType := .table
  rawMarkdown := imageTableText
  plainText := none
  language := none
  headingPath := []
  sourceSpan := ⟨1, 4, some (0, 21), tableSpan_starts, tableSpan_lines, tableSpan_offsets⟩
  projectionSpans := projectionSpans

def projectedTable : SourceBlock :=
  imageTable ((projectImageSyntax imageTableReferences).map (·.spans))

theorem imageTable_fromTable {projectionSpans : Option (List ProjectionSpan)}
    (h : ∀ spans ∈ projectionSpans, Behind spans) : FromTable (imageTable projectionSpans) where
  offsets := ⟨0, rfl⟩
  lines := by
    show 4 + 1 = 1 + (splitlines imageTableText).length
    decide
  header := by
    show 2 ≤ (splitlines imageTableText).length
    decide
  projection := h

theorem tableDrafts_kept_sample : ∃ drafts, rowChunker.tableDrafts (imageTable none) = .ok drafts ∧
    TableKept rowChunker (imageTable none) drafts := by
  refine (tableDrafts_kept_iff (imageTable_fromTable (by simp))).mpr (.inr ⟨?_, ?_, ?_⟩)
  · decide +kernel
  · unfold NewlineEnded
    decide +kernel
  · exact fun group _ => readsBack_of_unprojected rfl

/-- The chunk of the row with the image runs to the end of the table, over the chunk after it. -/
theorem imageTable_overlaps : FromTable projectedTable ∧
    ¬ ∃ drafts, rowChunker.tableDrafts projectedTable = .ok drafts ∧
      TableKept rowChunker projectedTable drafts := by
  refine ⟨imageTable_fromTable ?_, ?_⟩
  · intro spans hspans
    obtain ⟨p, hp, rfl⟩ := Option.map_eq_some_iff.mp hspans
    exact behind_of_projectImageSyntax (by decide) hp
  · rintro ⟨drafts, hdrafts, hkept⟩
    have hspans : (rowChunker.tableDrafts projectedTable).map (fun drafts => drafts.map
        (·.span.offsets)) = .ok [some (0, 21), some (18, 21)] := by
      decide +kernel
    rw [hdrafts] at hspans
    have hoffsets := Except.ok.inj hspans
    obtain ⟨first, drafts, rfl, hfirst, hrest⟩ := List.map_eq_cons_iff.mp hoffsets
    obtain ⟨second, drafts, rfl, hsecond, -⟩ := List.map_eq_cons_iff.mp hrest
    have hordered := ((List.pairwise_cons.mp hkept.ordered).1 second List.mem_cons_self).2
    exact absurd (hordered _ hfirst _ hsecond) (by decide)

end Samples

end MDRack.Markdown
