import MDRack.Markdown.Chunking

/-!
# Where chunks come from

A block that is chunked without projection searches its text in its raw text, and every slice of
the text gets its source range from the place that is found.

* `Locates` — the place: positions of the text in the raw text.
* `Faithful` — ranges in order inside the block, with the text of their chunks.
* `OnBodyLines` — line numbers between the fences of a code block.

Principal results: `faithful_of_slices` — slices of one text are faithful evidence, wherever the
text is found; `chunk_evidence_iff` — and their lines are lines of the code iff the text is found
between the fences.
-/

namespace MDRack.Markdown

open Checks StructuralChunker
open Tiling (Tiles)

/-! ## The place of a text -/

/-- Raw positions of the positions of a text. -/
structure Locates (raw text : List Char) (place : Nat → Nat) : Prop where
  bounds : ∀ start stop, start ≤ text.length → stop ≤ text.length →
    textRawBounds raw text start stop = .ok (place start, place stop)
  inside : ∀ i ≤ text.length, place i ≤ raw.length
  strict : ∀ i j, i < j → j ≤ text.length → place i < place j
  same : ∀ i j, i ≤ j → j ≤ text.length →
    unifyEndings (raw.extract (place i) (place j)) = unifyEndings (text.extract i j)

/-- The text stands in the raw text as it is, or has its line ends normalized. -/
def TakenFrom (raw text : List Char) : Prop := text <:+: raw ∨ '\r' ∉ text

theorem extract_within (xs : List Char) (i : Nat) {j start stop : Nat} (h : start + j ≤ stop) :
    (xs.extract start stop).extract i j = xs.extract (start + i) (start + j) := by
  rw [Timeline.extract_extract, Nat.min_eq_left h]

theorem locates_of_bounds {raw text : List Char} {start stop : Nat} {found : Range}
    (htaken : TakenFrom raw text) (h : textRawBounds raw text start stop = .ok found) :
    ∃ place, Locates raw text place := by
  unfold textRawBounds at h
  cases hdirect : find raw text 0 raw.length with
  | some direct =>
    obtain ⟨-, hend⟩ := find_within hdirect
    have htext := find_extract hdirect
    refine ⟨fun i => direct + i, ?_, ?_, ?_, ?_⟩
    · intro start stop _ _
      simp only [textRawBounds, hdirect]
    · intro i hi
      show direct + i ≤ raw.length
      omega
    · intro i j hij _
      show direct + i < direct + j
      omega
    · intro i j hij hj
      conv => rhs; rw [← htext]
      rw [extract_within raw i (Nat.add_le_add_left hj direct)]
  | none =>
    rw [hdirect] at h
    have hcr : '\r' ∉ text := htaken.resolve_left fun hinside => find_infix_ne_none hinside hdirect
    cases hnormal : find (normalizeCrlf raw) text 0 (normalizeCrlf raw).length with
    | none =>
      simp only [hnormal] at h
      cases h
    | some first =>
      obtain ⟨-, hend⟩ := find_within hnormal
      have htext := find_extract hnormal
      have hindex (i : Nat) (hi : i ≤ text.length) :
          (normalizedToRaw 0 raw).getD (first + i) 0 = rawIndex raw (first + i) := by
        rw [normalizedToRaw_eq raw 0 (first + i) (by omega), Nat.zero_add]
      refine ⟨fun i => rawIndex raw (first + i), ?_, ?_, ?_, ?_⟩
      · intro start stop hstart hstop
        simp only [textRawBounds, hdirect, hnormal, hindex start hstart, hindex stop hstop]
      · intro i _
        exact rawIndex_le raw _
      · intro i j hij hj
        exact rawIndex_lt raw (Nat.add_lt_add_left hij first) (by omega)
      · intro i j hij hj
        have hslice := normalizeCrlf_extract raw (Nat.add_le_add_left hij first)
        rw [← extract_within (normalizeCrlf raw) i (Nat.add_le_add_left hj first), htext]
          at hslice
        rw [← hslice, unifyEndings_normalizeCrlf]
        rw [hslice]
        exact fun hmem => hcr ((Timeline.extract_infix text i j).subset hmem)

/-! ## Spans -/

theorem SourceSpan.make_ok {startLine endLine : Nat} {offsets : Option Range} {span : SourceSpan}
    (h : SourceSpan.make startLine endLine offsets = .ok span) :
    span.startLine = startLine ∧ span.endLine = endLine ∧ span.offsets = offsets := by
  unfold SourceSpan.make at h
  split at h
  · split at h
    · obtain rfl := Except.ok.inj h
      exact ⟨rfl, rfl, rfl⟩
    · cases h
  · cases h

theorem newlinesBefore_mono (raw : List Char) {i j : Nat} (h : i ≤ j) :
    newlinesBefore raw i ≤ newlinesBefore raw j :=
  (List.take_prefix_take_left h).sublist.count_le '\n'

/-- A chunk's text and where it comes from. -/
abbrev Evidence := List Char × SourceSpan

def Draft.evidence (draft : Draft) : Evidence := (draft.display, draft.span)

/-- What the span of a slice says, for a text that is found at a place. -/
structure SpanAt (block : SourceBlock) (place : Nat → Nat) (range : Range) (span : SourceSpan) :
    Prop where
  startLine : span.startLine =
    block.sourceSpan.startLine + newlinesBefore block.rawMarkdown (place range.1)
  endLine : span.endLine =
    block.sourceSpan.startLine + newlinesBefore block.rawMarkdown (place range.2 - 1)
  offsets : span.offsets = block.sourceSpan.offsets.map fun own =>
    (own.1 + place range.1, own.1 + place range.2)

/-! ## Faithful evidence -/

/-- What the parser and the raw text ingestion promise of a block: its offsets and lines cover its
raw text, and its plain text is raw text or has no carriage return. -/
structure FromParser (block : SourceBlock) : Prop where
  offsets : ∃ start, block.sourceSpan.offsets = some (start, start + block.rawMarkdown.length)
  lines : block.sourceSpan.startLine + block.rawMarkdown.count '\n' ≤ block.sourceSpan.endLine
  text : ∀ text ∈ block.plainText, TakenFrom block.rawMarkdown text

/-! ### The parser's slices -/

/-- `text.rstrip("\r\n")`. -/
def rstripNewlines (text : List Char) : List Char :=
  (text.reverse.dropWhile fun c => c == '\r' || c == '\n').reverse

/-- The raw text of the lines from `start` to `stop` (`_source_slice`). -/
def sourceSlice (content : List Char) (start stop : Nat) : List Char :=
  rstripNewlines (content.extract (lineContentEnd content (lineStarts content) start)
    (lineContentEnd content (lineStarts content) stop))

/-- The span that goes with it. -/
def sourceSpan (content : List Char) (start stop : Nat) : SourceSpan where
  startLine := start + 1
  endLine := max (start + 1) stop
  offsets := some (lineContentEnd content (lineStarts content) start,
    lineContentEnd content (lineStarts content) start + (sourceSlice content start stop).length)
  positive := Nat.succ_pos _
  lines_ordered := Nat.le_max_left _ _
  offsets_ordered := by
    rintro range ⟨⟩
    exact Nat.le_add_right _ _

theorem rstripNewlines_le (text : List Char) : rstripNewlines text <+: text := by
  have h := List.dropWhile_suffix (fun c => c == '\r' || c == '\n') (l := text.reverse)
  rw [← List.reverse_prefix, List.reverse_reverse] at h
  exact h

theorem rstripNewlines_append {text ending : List Char}
    (h : ∀ c ∈ ending, (c == '\r' || c == '\n') = true) :
    rstripNewlines (text ++ ending) <+: text := by
  have hdrop : (text ++ ending).reverse.dropWhile (fun c => c == '\r' || c == '\n') =
      text.reverse.dropWhile fun c => c == '\r' || c == '\n' := by
    rw [List.reverse_append, List.dropWhile_append_of_pos]
    simpa using h
  unfold rstripNewlines
  rw [hdrop]
  exact rstripNewlines_le text

theorem newline_isLineBreak : isLineBreak '\n' = true := by decide

theorem Line.Ends.count_content {line : Line} {rest : List Char} (h : line.Ends rest) :
    line.content.count '\n' = 0 := by
  rw [List.count_eq_zero]
  intro hmem
  have hbreak := h.content '\n' hmem
  rw [newline_isLineBreak] at hbreak
  cases hbreak

theorem Line.Ends.count_kept {line : Line} {rest : List Char} (h : line.Ends rest) :
    line.kept.count '\n' ≤ 1 := by
  unfold Line.kept
  rw [List.count_append, h.count_content]
  rcases h.ending with ⟨hend, -⟩ | hend | ⟨c, hend, -⟩
  · simp [hend]
  · rw [hend]
    decide
  · rw [hend, Nat.zero_add]
    exact List.count_le_length

theorem Formed.count_kept {lines : List Line} (h : Formed lines) :
    (lines.flatMap Line.kept).count '\n' ≤ lines.length := by
  induction lines with
  | nil => exact Nat.zero_le _
  | cons line lines ih =>
    have hline := h.1.count_kept
    have hrest := ih h.2
    rw [List.flatMap_cons, List.count_append, List.length_cons]
    omega

/-- All lines but the last end with at most one newline, and the last one's is stripped. -/
theorem Formed.count_rstrip {lines : List Line} (h : Formed lines) :
    (rstripNewlines (lines.flatMap Line.kept)).count '\n' ≤ lines.length - 1 := by
  have hinit (text : List Char) (hnil : ∀ before, rstripNewlines (before ++ text) <+: before ∨
      text.count '\n' = 0) (before : List Char) :
      (rstripNewlines (before ++ text)).count '\n' ≤ before.count '\n' := by
    rcases hnil before with hle | hzero
    · exact hle.sublist.count_le '\n'
    · have hall := (rstripNewlines_le (before ++ text)).sublist.count_le '\n'
      rw [List.count_append, hzero, Nat.add_zero] at hall
      exact hall
  induction lines using List.reverseRecOn with
  | nil => exact Nat.zero_le _
  | append_singleton before last _ =>
    have hlast : last.Ends [] := by
      have hdrop := h.drop before.length
      rw [List.drop_left] at hdrop
      exact hdrop.1
    have hbefore : Formed before := by
      have htake := h.take before.length
      rwa [List.take_left] at htake
    have hcount := hbefore.count_kept
    have hkept : (before ++ [last]).flatMap Line.kept =
        (before.flatMap Line.kept ++ last.content) ++ last.ending := by
      simp [Line.kept]
    have hending : ∀ front, rstripNewlines (front ++ last.ending) <+: front ∨
        last.ending.count '\n' = 0 := by
      intro front
      rcases hlast.ending with ⟨hend, -⟩ | hend | ⟨c, hend, -⟩
      · exact .inr (by rw [hend]; rfl)
      · exact .inl (rstripNewlines_append (by simp [hend]))
      · by_cases hc : c = '\n'
        · exact .inl (rstripNewlines_append (by simp [hend, hc]))
        · exact .inr (by simp [hend, hc])
    have hstripped := hinit last.ending hending (before.flatMap Line.kept ++ last.content)
    rw [List.count_append, hlast.count_content, Nat.add_zero] at hstripped
    rw [hkept, List.length_append, List.length_singleton, Nat.add_sub_cancel]
    exact hstripped.trans hcount

/-- A block that is cut out of a source keeps the promise. -/
theorem fromParser_of_source {content : List Char} {start stop : Nat} {block : SourceBlock}
    (hraw : block.rawMarkdown = sourceSlice content start stop)
    (hspan : block.sourceSpan = sourceSpan content start stop)
    (htext : ∀ text ∈ block.plainText, '\r' ∉ text) : FromParser block where
  offsets := ⟨_, by rw [hspan, hraw]; rfl⟩
  text := fun text hmem => .inr (htext text hmem)
  lines := by
    rw [hspan, hraw]
    show start + 1 + (sourceSlice content start stop).count '\n' ≤ max (start + 1) stop
    unfold sourceSlice
    rw [lineContentEnd_eq, lineContentEnd_eq]
    rcases Nat.le_total start stop with hle | hle
    · rw [extract_lines content hle]
      have hcount := (((linesOf_formed content).drop start).take (stop - start)).count_rstrip
      have hlength : (((linesOf content).drop start).take (stop - start)).length ≤ stop - start :=
        List.length_take_le _ _
      omega
    · rw [Timeline.extract_of_le content (lineStart_mono content hle)]
      exact Nat.le_max_left _ _

structure Faithful (block : SourceBlock) (items : List Evidence) : Prop where
  lines_inside : ∀ item ∈ items, block.sourceSpan.startLine ≤ item.2.startLine ∧
    item.2.endLine ≤ block.sourceSpan.endLine
  offsets_inside : ∀ item ∈ items, ∃ own ∈ block.sourceSpan.offsets, ∃ range ∈ item.2.offsets,
    own.1 ≤ range.1 ∧ range.2 ≤ own.2 ∧
      SameText (block.rawMarkdown.extract (range.1 - own.1) (range.2 - own.1)) item.1
  ordered : items.Pairwise fun a b => a.2.startLine ≤ b.2.startLine ∧
    ∀ first ∈ a.2.offsets, ∀ second ∈ b.2.offsets, first.1 ≤ second.1

/-- Slices of a text, in order, each with a text that is the slice's. -/
structure SlicesOf (text : List Char) (lo hi : Nat) (slices : List (Range × List Char)) : Prop where
  ordered : slices.Pairwise fun a b => a.1.2 ≤ b.1.1
  inside : ∀ slice ∈ slices, lo ≤ slice.1.1 ∧ slice.1.1 < slice.1.2 ∧ slice.1.2 ≤ hi
  same : ∀ slice ∈ slices, SameText (text.extract slice.1.1 slice.1.2) slice.2

section Slices

variable {block : SourceBlock} {text : List Char} {place : Nat → Nat}

theorem spanAt_of_slice (hproj : block.projectionSpans = none)
    (hplace : Locates block.rawMarkdown text place) {range : Range} {span : SourceSpan}
    (hlt : range.1 < range.2) (hle : range.2 ≤ text.length)
    (h : spanForTextSlice block text range.1 range.2 = .ok span) :
    SpanAt block place range span := by
  have hbounds := hplace.bounds range.1 range.2 (by omega) hle
  have hplaces := hplace.strict range.1 range.2 hlt hle
  have hprobe : max (place range.1) (place range.2 - 1) = place range.2 - 1 := by omega
  simp only [spanForTextSlice, hproj, Option.bind_none, hbounds] at h
  obtain ⟨hstart, hend, hoffsets⟩ := SourceSpan.make_ok h
  rw [hprobe] at hend
  exact ⟨hstart, hend, hoffsets⟩

theorem draftOf_ok {contentType : RetrievalContentType} {mergeable : Bool}
    {slice : Range × List Char} {draft : Draft}
    (h : draftOf block contentType text mergeable slice = .ok draft) :
    spanForTextSlice block text slice.1.1 slice.1.2 = .ok draft.span ∧ draft.display = slice.2 ∧
      draft.blocks = [block] ∧ draft.mergeable = mergeable := by
  obtain ⟨span, hspan, hdraft⟩ := bind_ok.mp h
  obtain rfl := Except.ok.inj hdraft
  exact ⟨hspan, rfl, rfl, rfl⟩

/-- A text that has a span is found. -/
theorem locates_of_span (hproj : block.projectionSpans = none)
    (htaken : TakenFrom block.rawMarkdown text) {start stop : Nat} {span : SourceSpan}
    (h : spanForTextSlice block text start stop = .ok span) :
    ∃ place, Locates block.rawMarkdown text place := by
  simp only [spanForTextSlice, hproj, Option.bind_none, bind_ok] at h
  obtain ⟨found, hfound, -⟩ := h
  exact locates_of_bounds htaken hfound

theorem Locates.mono (hplace : Locates block.rawMarkdown text place) {i j : Nat} (hij : i ≤ j)
    (hj : j ≤ text.length) : place i ≤ place j := by
  rcases Nat.eq_or_lt_of_le hij with rfl | hlt
  · exact Nat.le_refl _
  · exact Nat.le_of_lt (hplace.strict i j hlt hj)

/-- The drafts of slices, with their spans. -/
theorem drafts_spanAt (hproj : block.projectionSpans = none)
    (hplace : Locates block.rawMarkdown text place) {contentType : RetrievalContentType}
    {mergeable : Bool} {slices : List (Range × List Char)} {drafts : List Draft}
    (hslices : SlicesOf text 0 text.length slices)
    (h : mapAll (draftOf block contentType text mergeable) slices = .ok drafts) :
    List.Forall₂ (fun slice draft => SpanAt block place slice.1 draft.span ∧
      draft.display = slice.2) slices drafts := by
  have hpairs := mapAll_forall₂ h
  have hinside := hslices.inside
  clear h hslices
  induction hpairs with
  | nil => exact .nil
  | cons hdraft _ ih =>
    obtain ⟨hfirst, hrest⟩ := List.forall_mem_cons.mp hinside
    obtain ⟨hspan, hdisplay, -⟩ := draftOf_ok hdraft
    exact .cons ⟨spanAt_of_slice hproj hplace hfirst.2.1 hfirst.2.2 hspan, hdisplay⟩ (ih hrest)

theorem Draft.mem_evidence {drafts : List Draft} {item : Evidence} :
    item ∈ drafts.map Draft.evidence ↔ ∃ draft ∈ drafts, draft.evidence = item := List.mem_map

/-- Slices of one text are faithful evidence, wherever the text is found. -/
theorem faithful_of_slices (hblock : FromParser block) (hproj : block.projectionSpans = none)
    (htaken : TakenFrom block.rawMarkdown text) {contentType : RetrievalContentType}
    {mergeable : Bool} {slices : List (Range × List Char)} {drafts : List Draft}
    (hslices : SlicesOf text 0 text.length slices)
    (h : mapAll (draftOf block contentType text mergeable) slices = .ok drafts) :
    Faithful block (drafts.map Draft.evidence) := by
  cases slices with
  | nil =>
    obtain rfl : [] = drafts := Except.ok.inj h
    exact ⟨by simp, by simp, .nil⟩
  | cons first rest =>
    obtain ⟨draft, hdraft, -⟩ := bind_ok.mp h
    obtain ⟨place, hplace⟩ := locates_of_span hproj htaken (draftOf_ok hdraft).1
    have hpairs := drafts_spanAt hproj hplace hslices h
    obtain ⟨start, hown⟩ := hblock.offsets
    have hmem : ∀ draft ∈ drafts, ∃ slice ∈ first :: rest,
        SpanAt block place slice.1 draft.span ∧ draft.display = slice.2 := by
      intro draft hdraft
      obtain ⟨i, hi, rfl⟩ := List.getElem_of_mem hdraft
      have hlen := hpairs.length_eq
      exact ⟨_, List.getElem_mem (by omega), hpairs.get (by omega) hi⟩
    constructor
    · intro item hitem
      obtain ⟨draft, hdraft, rfl⟩ := List.mem_map.mp hitem
      obtain ⟨slice, hslice, hspan, -⟩ := hmem draft hdraft
      have hcount : newlinesBefore block.rawMarkdown (place slice.1.2 - 1) ≤
          block.rawMarkdown.count '\n' := (List.take_sublist _ _).count_le '\n'
      have hlines := hblock.lines
      refine ⟨?_, ?_⟩
      · show _ ≤ draft.span.startLine
        rw [hspan.startLine]
        exact Nat.le_add_right _ _
      · show draft.span.endLine ≤ _
        rw [hspan.endLine]
        omega
    · intro item hitem
      obtain ⟨draft, hdraft, rfl⟩ := List.mem_map.mp hitem
      obtain ⟨slice, hslice, hspan, hdisplay⟩ := hmem draft hdraft
      obtain ⟨-, hlt, hle⟩ := hslices.inside slice hslice
      have hend := hplace.inside slice.1.2 hle
      refine ⟨_, hown, (start + place slice.1.1, start + place slice.1.2), ?_, ?_, ?_, ?_⟩
      · show _ ∈ draft.span.offsets
        rw [hspan.offsets, hown]
        rfl
      · exact Nat.le_add_right _ _
      · show start + place slice.1.2 ≤ start + block.rawMarkdown.length
        omega
      · show SameText (block.rawMarkdown.extract (start + place slice.1.1 - start)
          (start + place slice.1.2 - start)) draft.display
        have hsame := hplace.same slice.1.1 slice.1.2 (Nat.le_of_lt hlt) hle
        rw [Nat.add_sub_cancel_left, Nat.add_sub_cancel_left, hdisplay, SameText, hsame]
        exact hslices.same slice hslice
    · rw [List.pairwise_map]
      refine pairwise_of_forall₂ hpairs hslices.ordered ?_
      intro a ha b hb d d' hd hd' hab
      have hplaces : place a.1.1 ≤ place b.1.1 := by
        have ha := hslices.inside a ha
        have hb := hslices.inside b hb
        exact hplace.mono (by omega) (by omega)
      refine ⟨?_, ?_⟩
      · show d.span.startLine ≤ d'.span.startLine
        rw [hd.1.startLine, hd'.1.startLine]
        exact Nat.add_le_add_left (newlinesBefore_mono _ hplaces) _
      · intro r hr r' hr'
        replace hr : r ∈ d.span.offsets := hr
        replace hr' : r' ∈ d'.span.offsets := hr'
        rw [hd.1.offsets, hown] at hr
        rw [hd'.1.offsets, hown] at hr'
        obtain rfl := Option.some.inj hr
        obtain rfl := Option.some.inj hr'
        exact Nat.add_le_add_left hplaces start

end Slices

/-! ## Slices of prose -/

section Cutting

variable {text : List Char} {lo mid hi : Nat} {slices more : List (Range × List Char)}

theorem SlicesOf.nil (lo hi : Nat) : SlicesOf text lo hi [] := ⟨.nil, by simp, by simp⟩

/-- Slices that lie end to end, each with a text that is the slice's. -/
structure Fills (text : List Char) (lo : Nat) (slices : List (Range × List Char)) (hi : Nat) :
    Prop where
  tiles : Tiles (fun slice : Range × List Char => slice.1.1) (fun slice => slice.1.2) lo slices hi
  same : ∀ slice ∈ slices, SameText (text.extract slice.1.1 slice.1.2) slice.2

theorem Fills.slicesOf (h : Fills text lo slices hi) : SlicesOf text lo hi slices :=
  ⟨h.tiles.pairwise, fun _ hslice => h.tiles.mem hslice, h.same⟩

theorem Fills.append (h : Fills text lo slices mid) (h' : Fills text mid more hi) :
    Fills text lo (slices ++ more) hi :=
  ⟨h.tiles.append h'.tiles, List.forall_mem_append.mpr ⟨h.same, h'.same⟩⟩

theorem Fills.singleton {display : List Char} (hlt : lo < hi)
    (hsame : SameText (text.extract lo hi) display) : Fills text lo [((lo, hi), display)] hi :=
  ⟨⟨rfl, hlt, rfl⟩, by simpa using hsame⟩

theorem SlicesOf.filter (h : SlicesOf text lo hi slices) (keep : Range × List Char → Bool) :
    SlicesOf text lo hi (slices.filter keep) where
  ordered := h.ordered.sublist List.filter_sublist
  inside := fun slice hslice => h.inside slice (List.mem_of_mem_filter hslice)
  same := fun slice hslice => h.same slice (List.mem_of_mem_filter hslice)

theorem SlicesOf.append (h : SlicesOf text lo mid slices) (h' : SlicesOf text mid hi more)
    (hlo : lo ≤ mid) (hhi : mid ≤ hi) : SlicesOf text lo hi (slices ++ more) where
  ordered := by
    refine List.pairwise_append.mpr ⟨h.ordered, h'.ordered, fun a ha b hb => ?_⟩
    have ha := h.inside a ha
    have hb := h'.inside b hb
    omega
  inside := by
    intro slice hslice
    rcases List.mem_append.mp hslice with hslice | hslice
    · have := h.inside slice hslice
      omega
    · have := h'.inside slice hslice
      omega
  same := by
    intro slice hslice
    rcases List.mem_append.mp hslice with hslice | hslice
    · exact h.same slice hslice
    · exact h'.same slice hslice

/-- Pieces with their own text. -/
def slicesAt (text : List Char) (pieces : List Range) : List (Range × List Char) :=
  pieces.map fun piece => (piece, text.extract piece.1 piece.2)

theorem slicesAt_fills (text : List Char) {pieces : List Range} (h : Tiles Prod.fst Prod.snd lo pieces hi) :
    Fills text lo (slicesAt text pieces) hi where
  tiles := (Tiling.tiles_map _ pieces).mpr h
  same := by
    intro slice hslice
    obtain ⟨piece, -, rfl⟩ := List.mem_map.mp hslice
    rfl

end Cutting

section Blocks

variable {chunker : StructuralChunker} {block : SourceBlock} {drafts : List Draft}

theorem takenFrom_prose (hblock : FromParser block) (hproj : block.projectionSpans = none) :
    TakenFrom block.rawMarkdown (proseText block) := by
  unfold proseText
  simp only [hproj, Option.isSome_none, Bool.false_eq_true, false_or]
  split
  · cases hplain : block.plainText with
    | none => exact .inr (by simp)
    | some text => exact hblock.text text hplain
  · exact .inl List.infix_rfl

theorem splitProseRanges_tiles {text : List Char} {budget : Budget} {pieces : List Range}
    (h : splitProseRanges text budget = .ok pieces) :
    pieces = [] ∨ Tiles Prod.fst Prod.snd 0 pieces text.length := by
  unfold splitProseRanges at h
  split at h
  · exact .inl (Except.ok.inj h).symm
  · rename_i hvisible
    refine .inr (splitRange_tiles ?_ h)
    refine List.length_pos_iff.mpr ?_
    rintro rfl
    exact hvisible rfl

theorem proseDrafts_slices (h : chunker.proseDrafts block = .ok drafts) :
    ∃ slices mergeable, SlicesOf (proseText block) 0 (proseText block).length slices ∧
      mapAll (draftOf block (proseType block.blockType) (proseText block) mergeable) slices =
        .ok drafts := by
  obtain ⟨ranged, hranged, hdrafts⟩ := bind_ok.mp h
  refine ⟨_, _, ?_, hdrafts⟩
  refine SlicesOf.filter ?_ _
  rcases splitProseRanges_tiles hranged with rfl | htiles
  · exact SlicesOf.nil _ _
  · exact (slicesAt_fills _ htiles).slicesOf

end Blocks

/-! ## Slices of code -/

theorem unifyEndings_append_newline (text : List Char) :
    unifyEndings (text ++ ['\n']) = unifyEndings text ∨
      unifyEndings (text ++ ['\n']) = unifyEndings text ++ ['\n'] := by
  induction text using crlf_cases with
  | nil => exact .inr rfl
  | crlf rest ih =>
    rcases ih with ih | ih
    · exact .inl (congrArg ('\n' :: ·) ih)
    · exact .inr (congrArg ('\n' :: ·) ih)
  | cons c rest hcr ih =>
    by_cases hlast : c = '\r' ∧ rest = []
    · obtain ⟨rfl, rfl⟩ := hlast
      exact .inl (by decide)
    · have hcr' : c = '\r' → (rest ++ ['\n']).head? ≠ some '\n' := by
        intro hc
        cases rest with
        | nil => exact absurd ⟨hc, rfl⟩ hlast
        | cons d rest => exact hcr hc
      rw [List.cons_append, unifyEndings_cons hcr', unifyEndings_cons hcr]
      rcases ih with ih | ih
      · exact .inl (by rw [ih])
      · exact .inr (by rw [ih]; rfl)

theorem sameText_append_newline (text : List Char) : SameText (text ++ ['\n']) text := by
  unfold SameText
  rcases unifyEndings_append_newline text with h | h
  · rw [h]
  · rw [h, strip_append_newline]

theorem sameText_cons_newline (text : List Char) : SameText ('\n' :: text) text := by
  unfold SameText
  rw [unifyEndings_cons (fun heq => absurd heq (by decide))]
  rfl

theorem sameText_stripNewlines (text : List Char) : SameText text (stripNewlines text) := by
  have hleft : SameText text (text.dropWhile (· == '\n')) := by
    induction text with
    | nil => rfl
    | cons c rest ih =>
      by_cases hc : c = '\n'
      · subst hc
        exact (sameText_cons_newline rest).trans ih
      · rw [List.dropWhile_cons_of_neg (by simpa using hc)]
        rfl
  refine hleft.trans ?_
  unfold stripNewlines
  induction text.dropWhile (· == '\n') using List.reverseRecOn with
  | nil => rfl
  | append_singleton rest c ih =>
    by_cases hc : c = '\n'
    · subst hc
      rw [List.reverse_append, List.reverse_singleton, List.singleton_append,
        List.dropWhile_cons_of_pos (by decide)]
      exact (sameText_append_newline rest).trans ih
    · rw [List.reverse_append, List.reverse_singleton, List.singleton_append,
        List.dropWhile_cons_of_neg (by simpa using hc)]
      simp

theorem stripNewlines_within (text : List Char) : stripNewlines text <:+: text := by
  refine List.IsInfix.trans ?_ (List.dropWhile_suffix (· == '\n')).isInfix
  have h := (List.dropWhile_suffix (· == '\n') (l := (text.dropWhile (· == '\n')).reverse))
  exact (List.reverse_prefix.mpr h).isInfix.trans (by rw [List.reverse_reverse])

theorem TakenFrom.stripNewlines {raw text : List Char} (h : TakenFrom raw text) :
    TakenFrom raw (stripNewlines text) := by
  refine h.imp (fun hinside => (stripNewlines_within text).trans hinside) fun hcr hmem => ?_
  exact hcr ((stripNewlines_within text).subset hmem)

section Lines

variable {content : List Char} {budget : Budget} {windowLines : Nat}
  {groups : List (Range × List Char)}

theorem splitlines_length (content : List Char) :
    (splitlines content).length = (linesOf content).length := List.length_map _

/-- The lines since the start of a group, as a group. -/
theorem openGroup {current : List (List Char)} {lineIndex groupStart : Nat}
    (hcurrent : ((splitlines content).drop groupStart).take (lineIndex - groupStart) = current)
    (hle : groupStart ≤ lineIndex) (hindex : lineIndex ≤ (splitlines content).length) :
    (current = [] → groupStart = lineIndex) ∧
      (current ≠ [] → lineStart content groupStart < lineStart content lineIndex ∧
        SameText (content.extract (lineStart content groupStart) (lineStart content lineIndex))
          (joinLines current)) := by
  refine ⟨fun hnil => ?_, fun hne => ?_⟩
  · have hlength := congrArg List.length (hcurrent.trans hnil)
    rw [List.length_take, List.length_drop, List.length_nil] at hlength
    omega
  · have hlt : groupStart < lineIndex := by
      refine Nat.lt_of_le_of_ne hle ?_
      rintro rfl
      rw [Nat.sub_self, List.take_zero] at hcurrent
      exact hne hcurrent.symm
    have hcount := splitlines_length content
    rw [← hcurrent]
    exact ⟨lineStart_lt content hlt (by omega), sameText_lines content hle⟩

/-- The groups fill the text from the start of the first group on, and show its lines. -/
theorem lineGroups_fills {lines current : List (List Char)} {lineIndex groupStart : Nat}
    (hlines : (splitlines content).drop lineIndex = lines)
    (hcurrent : ((splitlines content).drop groupStart).take (lineIndex - groupStart) = current)
    (hle : groupStart ≤ lineIndex) (hindex : lineIndex ≤ (splitlines content).length)
    (h : lineGroups content budget windowLines lineIndex groupStart current lines = .ok groups) :
    Fills content (lineStart content groupStart) groups content.length := by
  have hcount := splitlines_length content
  induction lines generalizing lineIndex groupStart current groups with
  | nil =>
    have hlast : lineStart content lineIndex = content.length := by
      have hdone := List.drop_eq_nil_iff.mp hlines
      exact lineStart_of_le content (by omega)
    obtain ⟨hempty, hgroup⟩ := openGroup hcurrent hle hindex
    unfold lineGroups at h
    simp only [lineContentEnd_eq] at h
    obtain rfl := Except.ok.inj h
    by_cases hnil : current = []
    · rw [if_pos hnil, hempty hnil, hlast]
      exact ⟨rfl, by simp⟩
    · rw [if_neg hnil, ← hlast]
      obtain ⟨hlt, hsame⟩ := hgroup hnil
      exact Fills.singleton hlt hsame
  | cons line rest ih =>
    have hlt : lineIndex < (splitlines content).length := by
      by_contra hge
      rw [List.drop_of_length_le (Nat.le_of_not_lt hge)] at hlines
      cases hlines
    have hnext : (splitlines content).drop (lineIndex + 1) = rest := by
      rw [← List.tail_drop, hlines]
      rfl
    have hline : ((splitlines content).drop lineIndex).take (lineIndex + 1 - lineIndex) = [line] := by
      rw [hlines, Nat.add_sub_cancel_left]
      rfl
    obtain ⟨hempty, hgroup⟩ := openGroup hcurrent hle hindex
    unfold lineGroups at h
    simp only [lineContentEnd_eq] at h
    split at h
    · split at h
      · -- the group is full: the line begins the next one
        rename_i hfull
        obtain ⟨more, hmore, hgroups⟩ := bind_ok.mp h
        obtain rfl := Except.ok.inj hgroups
        obtain ⟨hstart, hshown⟩ := hgroup hfull.1
        exact (Fills.singleton hstart hshown).append (ih hnext hline (Nat.le_succ _) hlt hmore)
      · refine ih hnext ?_ (Nat.le_succ_of_le hle) hlt h
        have hsucc : lineIndex + 1 - groupStart = (lineIndex - groupStart) + 1 := by omega
        have hdrop : ((splitlines content).drop groupStart).drop (lineIndex - groupStart) =
            line :: rest := by
          rw [List.drop_drop, Nat.add_sub_cancel' hle, hlines]
        rw [hsucc, List.take_add, hcurrent, hdrop]
        rfl
    · -- an overlong line is cut on its own, after the group before it
      obtain ⟨pieces, hpieces, hrest⟩ := bind_ok.mp h
      obtain ⟨more, hmore, hgroups⟩ := bind_ok.mp hrest
      obtain rfl := Except.ok.inj hgroups
      have hcut := splitRange_tiles (lineStart_succ content (by omega)) hpieces
      have hafter := (slicesAt_fills content hcut).append
        (ih hnext (by rw [Nat.sub_self, List.take_zero]) (Nat.le_refl _) hlt hmore)
      rw [List.append_assoc]
      by_cases hnil : current = []
      · rw [if_pos hnil, hempty hnil]
        exact hafter
      · rw [if_neg hnil]
        obtain ⟨hstart, hshown⟩ := hgroup hnil
        exact (Fills.singleton hstart hshown).append hafter

end Lines

/-! ## Slices of Python -/

section Python

variable {chunker : StructuralChunker} {block : SourceBlock} {content : List Char}
  {budget : Budget} {endLine : Nat} {drafts : List Draft}

theorem window_pos (chunker : StructuralChunker) : 0 < chunker.config.codeWindowLines :=
  chunker.config.positive _ (by simp)

theorem selectEnd_le {cursor fuel selectedEnd : Nat} (h : selectedEnd ≤ endLine) :
    selectedEnd ≤ chunker.selectEnd content budget endLine cursor fuel selectedEnd ∧
      chunker.selectEnd content budget endLine cursor fuel selectedEnd ≤ endLine := by
  induction fuel generalizing selectedEnd with
  | zero => exact ⟨Nat.le_refl _, h⟩
  | succ fuel ih =>
    unfold selectEnd
    split
    · rename_i hmore
      simp only
      split
      · obtain ⟨hge, hle⟩ := ih hmore.1
        exact ⟨Nat.le_of_succ_le hge, hle⟩
      · split <;> omega
    · exact ⟨Nat.le_refl _, h⟩

/-- At least one line is selected. -/
theorem selectEnd_gt {cursor fuel : Nat} (h : cursor < endLine) (hfuel : 0 < fuel) :
    cursor < chunker.selectEnd content budget endLine cursor fuel cursor := by
  obtain ⟨fuel, rfl⟩ := Nat.exists_eq_succ_of_ne_zero (Nat.ne_of_gt hfuel)
  have hwindow := window_pos chunker
  unfold selectEnd
  rw [if_pos ⟨h, by omega⟩]
  simp only [Nat.lt_irrefl, if_false]
  split
  · exact (selectEnd_le h).1
  · exact Nat.lt_succ_self _

theorem fills_draft {start stop : Nat} (h : start < stop) :
    Fills content start [((start, stop), stripNewlines (content.extract start stop))] stop :=
  Fills.singleton h (sameText_stripNewlines _)

theorem rangeDrafts_fills {fuel cursor : Nat} (hfuel : endLine - cursor ≤ fuel)
    (hcursor : cursor ≤ endLine) (hcount : endLine ≤ (splitlines content).length)
    (h : chunker.rangeDrafts content budget endLine block fuel cursor = .ok drafts) :
    ∃ slices, Fills content (lineStart content cursor) slices (lineStart content endLine) ∧
      mapAll (draftOf block .code content false) slices = .ok drafts := by
  rw [splitlines_length] at hcount
  induction fuel generalizing cursor drafts with
  | zero =>
    obtain rfl : [] = drafts := Except.ok.inj h
    obtain rfl : cursor = endLine := by omega
    exact ⟨[], ⟨rfl, by simp⟩, rfl⟩
  | succ fuel ih =>
    unfold rangeDrafts at h
    split at h
    · rename_i hlt
      simp only [lineContentEnd_eq] at h
      split at h
      · obtain ⟨draft, hdraft, hrest⟩ := bind_ok.mp h
        obtain ⟨more, hmore, hdrafts⟩ := bind_ok.mp hrest
        obtain rfl := Except.ok.inj hdrafts
        have hgt : cursor < chunker.selectEnd content budget endLine cursor (endLine - cursor)
          cursor := selectEnd_gt hlt (Nat.sub_pos_of_lt hlt)
        have hle : chunker.selectEnd content budget endLine cursor (endLine - cursor) cursor ≤
          endLine := (selectEnd_le hcursor).2
        obtain ⟨slices, hslices, hmapped⟩ := ih (by omega) hle hmore
        refine ⟨_ :: slices, (fills_draft (lineStart_lt content hgt (by omega))).append hslices, ?_⟩
        simp only [mapAll, bind_ok]
        exact ⟨draft, hdraft, more, hmapped, rfl⟩
      · obtain ⟨pieces, hpieces, hrest⟩ := bind_ok.mp h
        obtain ⟨inner, hinner, hrest⟩ := bind_ok.mp hrest
        obtain ⟨more, hmore, hdrafts⟩ := bind_ok.mp hrest
        obtain rfl := Except.ok.inj hdrafts
        have hcut := splitRange_tiles (lineStart_succ content (by omega)) hpieces
        obtain ⟨slices, hslices, hmapped⟩ := ih (by omega) hlt hmore
        exact ⟨slicesAt content pieces ++ slices, (slicesAt_fills content hcut).append hslices,
          mapAll_append.mpr ⟨inner, more, hinner, hmapped, rfl⟩⟩
    · obtain rfl : [] = drafts := Except.ok.inj h
      obtain rfl : cursor = endLine := by omega
      exact ⟨[], ⟨rfl, by simp⟩, rfl⟩

/-- The drafts of a range of lines fill it. -/
theorem pythonRangeDrafts_fills {range : Range} (hlt : range.1 < range.2)
    (hcount : range.2 ≤ (splitlines content).length)
    (h : chunker.pythonRangeDrafts block content range = .ok drafts) :
    ∃ slices, Fills content (lineStart content range.1) slices (lineStart content range.2) ∧
      mapAll (draftOf block .code content false) slices = .ok drafts := by
  have hlines := splitlines_length content
  unfold pythonRangeDrafts at h
  simp only [lineContentEnd_eq] at h
  split at h
  · obtain ⟨draft, hdraft, hdrafts⟩ := bind_ok.mp h
    obtain rfl := Except.ok.inj hdrafts
    refine ⟨[_], fills_draft (lineStart_lt content hlt (by omega)), ?_⟩
    simp only [mapAll, bind_ok]
    exact ⟨draft, hdraft, [], rfl, rfl⟩
  · exact rangeDrafts_fills (Nat.le_refl _) (Nat.le_of_lt hlt) hcount h

/-- The ranges of a module fill its lines. -/
theorem pythonRanges_tiles {nodes : List PythonNode} {cursor lineCount : Nat}
    (h : Placed cursor nodes lineCount) :
    Tiles Prod.fst Prod.snd cursor (pythonRanges lineCount cursor nodes) lineCount := by
  induction nodes generalizing cursor with
  | nil =>
    unfold pythonRanges
    split
    · rename_i hlt
      exact ⟨rfl, hlt, rfl⟩
    · rename_i hge
      exact Nat.le_antisymm h (Nat.le_of_not_lt hge)
  | cons node rest ih =>
    obtain ⟨hfirst, hnode, hrest⟩ := h
    unfold pythonRanges
    split
    · rename_i hlt
      exact ⟨rfl, hlt, rfl, hnode, ih hrest⟩
    · rename_i hge
      exact ⟨Nat.le_antisymm (Nat.le_of_not_lt hge) hfirst, Nat.lt_of_le_of_lt hfirst hnode,
        ih hrest⟩

/-- A start and an end of slices. -/
def Ends (slices : List (Range × List Char)) (kept : Option Range) : Prop :=
  slices.head?.map (·.1.1) = kept.map (·.1) ∧ slices.getLast?.map (·.1.2) = kept.map (·.2)

theorem Fills.ends {lo hi : Nat} {slices : List (Range × List Char)}
    (h : Fills content lo slices hi) (hlt : lo < hi) : Ends slices (some (lo, hi)) := by
  have htiles := h.tiles
  clear h
  induction slices generalizing lo with
  | nil => exact absurd htiles (Nat.ne_of_lt hlt)
  | cons slice rest ih =>
    obtain ⟨hstart, hslice, hrest⟩ := htiles
    refine ⟨congrArg some hstart, ?_⟩
    cases rest with
    | nil => exact congrArg some hrest
    | cons next rest =>
      rw [List.getLast?_cons_cons]
      have hle := hrest.mem List.mem_cons_self
      exact (ih (by omega) hrest).2

/-- The drafts of ranges of lines that stand in order, as slices. -/
theorem visible_slices {ranges : List Range} {parts : List (List Draft)} {lo : Nat}
    (hordered : ranges.Pairwise fun a b => a.2 ≤ b.1)
    (hinside : ∀ range ∈ ranges, lo ≤ lineStart content range.1 ∧ range.1 < range.2 ∧
      range.2 ≤ (splitlines content).length)
    (h : mapAll (chunker.pythonRangeDrafts block content) ranges = .ok parts) :
    ∃ slices, SlicesOf content lo content.length slices ∧
      mapAll (draftOf block .code content false) slices = .ok parts.flatten ∧
      slices.head?.map (·.1.1) = ranges.head?.map (fun range => lineStart content range.1) ∧
      slices.getLast?.map (·.1.2) = ranges.getLast?.map fun range => lineStart content range.2 := by
  induction ranges generalizing parts lo with
  | nil =>
    obtain rfl : [] = parts := Except.ok.inj h
    exact ⟨[], SlicesOf.nil _ _, rfl, rfl, rfl⟩
  | cons range rest ih =>
    simp only [mapAll, bind_ok, Except.ok.injEq] at h
    obtain ⟨part, hpart, more, hmore, rfl⟩ := h
    obtain ⟨hlo, hlt, hcount⟩ := hinside range List.mem_cons_self
    obtain ⟨hafter, hordered⟩ := List.pairwise_cons.mp hordered
    obtain ⟨slices, hfills, hmapped⟩ := pythonRangeDrafts_fills hlt hcount hpart
    have hinside' : ∀ next ∈ rest, lineStart content range.2 ≤ lineStart content next.1 ∧
        next.1 < next.2 ∧ next.2 ≤ (splitlines content).length := fun next hnext =>
      ⟨lineStart_mono content (hafter next hnext), (hinside next (List.mem_cons_of_mem _ hnext)).2⟩
    obtain ⟨others, hothers, hmapped', hhead, hlast⟩ := ih hordered hinside' hmore
    have hrange := lineStart_lt content hlt (by rw [← splitlines_length]; omega)
    obtain ⟨hfirst, hend⟩ := hfills.ends hrange
    refine ⟨slices ++ others, ?_, ?_, ?_, ?_⟩
    · have hslices := hfills.slicesOf
      refine SlicesOf.append ⟨hslices.ordered, fun slice hslice => ?_, hslices.same⟩ hothers
        (by omega) (lineStart_le content _)
      have := hslices.inside slice hslice
      omega
    · exact mapAll_append.mpr ⟨part, more.flatten, hmapped, hmapped', rfl⟩
    · have hne : slices ≠ [] := by
        rintro rfl
        cases hfirst
      rw [List.head?_append_of_ne_nil _ hne, hfirst]
      rfl
    · cases rest with
      | nil =>
        have hnone : others = [] := by
          cases others with
          | nil => rfl
          | cons slice others => cases hhead
        rw [hnone, List.append_nil, hend]
        rfl
      | cons next rest =>
        have hne : others ≠ [] := by
          rintro rfl
          cases hhead
        rw [List.getLast?_append_of_ne_nil _ hne, hlast, List.getLast?_cons_cons]

end Python

/-! ## Code blocks -/

/-- From the start of the first range of lines to the end of the last one. -/
def linesRange (content : List Char) (ranges : List Range) : Option Range :=
  ranges.head?.bind fun first => ranges.getLast?.map fun last =>
    (lineStart content first.1, lineStart content last.2)

theorem ends_linesRange {content : List Char} {ranges : List Range}
    {slices : List (Range × List Char)}
    (hhead : slices.head?.map (·.1.1) = ranges.head?.map fun range => lineStart content range.1)
    (hlast : slices.getLast?.map (·.1.2) =
      ranges.getLast?.map fun range => lineStart content range.2) :
    Ends slices (linesRange content ranges) := by
  unfold Ends linesRange
  rw [hhead, hlast]
  cases ranges with
  | nil => exact ⟨rfl, rfl⟩
  | cons range rest =>
    rw [List.getLast?_eq_some_getLast (List.cons_ne_nil range rest)]
    exact ⟨rfl, rfl⟩

/-- The text of a code block. -/
def codeText (block : SourceBlock) : List Char := stripNewlines (block.plainText.getD [])

def SourceBlock.isFence (block : SourceBlock) : Prop :=
  block.blockType = .code ∨ block.blockType = .mermaid

namespace StructuralChunker

variable (chunker : StructuralChunker)

/-- The stretch of a code block's text that is chunked: all of it, or, for Python with definitions,
what is left without the blank stretches around them. -/
def keptRange (block : SourceBlock) : Option Range :=
  let content := codeText block
  if content = [] then none
  else
    match (if block.blockType = .code ∧ isPython block then chunker.python.parse content
      else .ok none) with
    | .ok (some (node :: nodes)) => linesRange content (visibleRanges content (node :: nodes))
    | _ => some (0, content.length)

end StructuralChunker

section Code

variable {chunker : StructuralChunker} {block : SourceBlock} {drafts : List Draft}

theorem ends_all {content : List Char} {slices : List (Range × List Char)}
    (h : Fills content 0 slices content.length) :
    Ends slices (if content = [] then none else some (0, content.length)) := by
  by_cases hnil : content = []
  · subst hnil
    cases slices with
    | nil => exact ⟨rfl, rfl⟩
    | cons slice rest =>
      obtain ⟨-, hlt, hle⟩ := h.tiles.mem List.mem_cons_self
      exact absurd hle (Nat.not_le_of_lt (Nat.lt_of_le_of_lt (Nat.zero_le _) hlt))
  · rw [if_neg hnil]
    exact h.ends (List.length_pos_iff.mpr hnil)

theorem lineDrafts_slices {contentType : RetrievalContentType} {windowLines : Nat}
    (h : chunker.lineDrafts block contentType windowLines = .ok drafts) :
    ∃ slices, SlicesOf (codeText block) 0 (codeText block).length slices ∧
      mapAll (draftOf block contentType (codeText block) false) slices = .ok drafts ∧
      Ends slices (if codeText block = [] then none else some (0, (codeText block).length)) := by
  obtain ⟨groups, hgroups, hdrafts⟩ := bind_ok.mp h
  have hfills : Fills (codeText block) (lineStart (codeText block) 0) groups
    (codeText block).length := lineGroups_fills rfl rfl (Nat.le_refl 0) (Nat.zero_le _) hgroups
  have hzero : lineStart (codeText block) 0 = 0 := rfl
  rw [hzero] at hfills
  exact ⟨groups, hfills.slicesOf, hdrafts, ends_all hfills⟩

theorem visibleRanges_ordered {content : List Char} {nodes : List PythonNode}
    (h : Placed 0 nodes (splitlines content).length) :
    (visibleRanges content nodes).Pairwise (fun a b => a.2 ≤ b.1) ∧
      ∀ range ∈ visibleRanges content nodes, 0 ≤ lineStart content range.1 ∧ range.1 < range.2 ∧
        range.2 ≤ (splitlines content).length := by
  have htiles := pythonRanges_tiles h
  refine ⟨htiles.pairwise.sublist List.filter_sublist, fun range hrange => ?_⟩
  have hmem := htiles.mem (List.mem_of_mem_filter hrange)
  exact ⟨Nat.zero_le _, hmem.2.1, hmem.2.2⟩

/-- The drafts of a code block are slices of its text, from the start of what is kept to its end. -/
theorem code_slices (hfence : block.isFence) (h : chunker.blockDrafts block = .ok drafts) :
    ∃ slices contentType, SlicesOf (codeText block) 0 (codeText block).length slices ∧
      mapAll (draftOf block contentType (codeText block) false) slices = .ok drafts ∧
      Ends slices (chunker.keptRange block) := by
  unfold blockDrafts at h
  rcases hfence with hcode | hmermaid
  · rw [hcode] at h
    simp only [codeDrafts] at h
    unfold keptRange
    simp only [hcode, true_and]
    by_cases hpython : isPython block = true
    · rw [if_pos hpython] at h ⊢
      obtain ⟨answer, hanswer, hrest⟩ := bind_ok.mp h
      unfold pythonDrafts at hanswer
      simp only at hanswer
      split at hanswer
      · rename_i hnil
        obtain rfl := Except.ok.inj hanswer
        obtain rfl : [] = drafts := Except.ok.inj hrest
        have hempty : codeText block = [] := hnil
        rw [if_pos hempty]
        exact ⟨[], .code, SlicesOf.nil _ _, rfl, rfl, rfl⟩
      · rename_i hnil
        obtain ⟨parsed, hparsed, hmade⟩ := bind_ok.mp hanswer
        have hparsed : chunker.python.parse (codeText block) = .ok parsed := hparsed
        have hvisible : codeText block ≠ [] := hnil
        rw [if_neg hvisible, hparsed]
        cases parsed with
        | none =>
          obtain rfl := Except.ok.inj hmade
          obtain ⟨slices, hslices, hmapped, hends⟩ := lineDrafts_slices hrest
          rw [if_neg hvisible] at hends
          exact ⟨slices, .code, hslices, hmapped, hends⟩
        | some nodes =>
          cases nodes with
          | nil =>
            obtain ⟨own, hown, rfl⟩ := map_ok.mp hmade
            obtain rfl : own = drafts := Except.ok.inj hrest
            obtain ⟨slices, hslices, hmapped, hends⟩ := lineDrafts_slices hown
            rw [if_neg hvisible] at hends
            exact ⟨slices, .code, hslices, hmapped, hends⟩
          | cons node nodes =>
            obtain ⟨parts, hparts, hflat⟩ := bind_ok.mp hmade
            obtain rfl := Except.ok.inj hflat
            obtain rfl : parts.flatten = drafts := Except.ok.inj hrest
            have hplaced := chunker.python.placed _ _ hparsed
            obtain ⟨hordered, hinside⟩ := visibleRanges_ordered hplaced
            obtain ⟨slices, hslices, hmapped, hhead, hlast⟩ :=
              visible_slices hordered hinside hparts
            exact ⟨slices, .code, hslices, hmapped, ends_linesRange hhead hlast⟩
    · rw [if_neg hpython] at h ⊢
      obtain ⟨slices, hslices, hmapped, hends⟩ := lineDrafts_slices h
      exact ⟨slices, .code, hslices, hmapped, hends⟩
  · rw [hmermaid] at h
    obtain ⟨slices, hslices, hmapped, hends⟩ := lineDrafts_slices h
    refine ⟨slices, .mermaid, hslices, hmapped, ?_⟩
    unfold keptRange
    simp only [hmermaid, reduceCtorEq, false_and, if_false]
    exact hends

end Code

/-! ## Lines of the code body -/

/-- The last line of a code block that is not a fence. -/
def SourceBlock.bodyEnd (block : SourceBlock) (closed : Bool) : Nat :=
  if closed then block.sourceSpan.endLine - 1 else block.sourceSpan.endLine

/-- Line numbers after the opening fence and before the closing one, if there is one. -/
def OnBodyLines (block : SourceBlock) (closed : Bool) (items : List Evidence) : Prop :=
  ∀ item ∈ items, block.sourceSpan.startLine < item.2.startLine ∧
    item.2.endLine ≤ block.bodyEnd closed

/-- What is kept of the code, where the text is first found in the block, begins after a newline
and ends on a body line. -/
def StructuralChunker.FoundInBody (chunker : StructuralChunker) (block : SourceBlock)
    (closed : Bool) : Prop :=
  ∀ kept ∈ chunker.keptRange block, ∀ found,
    textRawBounds block.rawMarkdown (codeText block) kept.1 kept.2 = .ok found →
      0 < newlinesBefore block.rawMarkdown found.1 ∧
        block.sourceSpan.startLine + newlinesBefore block.rawMarkdown (found.2 - 1) ≤
          block.bodyEnd closed

section Body

variable {chunker : StructuralChunker} {block : SourceBlock} {drafts : List Draft} {closed : Bool}

theorem takenFrom_code (hblock : FromParser block) : TakenFrom block.rawMarkdown (codeText block) := by
  refine TakenFrom.stripNewlines ?_
  cases hplain : block.plainText with
  | none => exact .inr (by simp)
  | some text => exact hblock.text text hplain

theorem onBodyLines_iff (hproj : block.projectionSpans = none)
    (htaken : TakenFrom block.rawMarkdown (codeText block)) {contentType : RetrievalContentType}
    {slices : List (Range × List Char)}
    (hslices : SlicesOf (codeText block) 0 (codeText block).length slices)
    (hends : Ends slices (chunker.keptRange block))
    (h : mapAll (draftOf block contentType (codeText block) false) slices = .ok drafts) :
    OnBodyLines block closed (drafts.map Draft.evidence) ↔ chunker.FoundInBody block closed := by
  unfold StructuralChunker.FoundInBody
  obtain ⟨hhead, hlast⟩ := hends
  cases slices with
  | nil =>
    obtain rfl : [] = drafts := Except.ok.inj h
    have hnone : chunker.keptRange block = none := Option.map_eq_none_iff.mp hhead.symm
    rw [hnone]
    constructor
    · rintro - kept ⟨⟩
    · rintro - item ⟨⟩
  | cons first rest =>
    obtain ⟨draft, hdraft, -⟩ := bind_ok.mp h
    obtain ⟨place, hplace⟩ := locates_of_span hproj htaken (draftOf_ok hdraft).1
    have hmem := mapAll_ok_mem h
    have hmem' := mapAll_ok_mem_of_mem h
    have hspan : ∀ slice ∈ first :: rest, ∀ draft,
        draftOf block contentType (codeText block) false slice = .ok draft →
          SpanAt block place slice.1 draft.span := by
      intro slice hslice draft hof
      obtain ⟨-, hlt, hle⟩ := hslices.inside slice hslice
      exact spanAt_of_slice hproj hplace hlt hle (draftOf_ok hof).1
    rw [List.getLast?_eq_some_getLast (List.cons_ne_nil first rest)] at hlast
    generalize hfinal : (first :: rest).getLast (List.cons_ne_nil first rest) = final at hlast
    have hfinalmem : final ∈ first :: rest := hfinal ▸ List.getLast_mem _
    obtain ⟨kept, hkept, hstart⟩ := Option.map_eq_some_iff.mp hhead.symm
    replace hstart : kept.1 = first.1.1 := hstart
    rw [hkept] at hlast ⊢
    have hstop : final.1.2 = kept.2 := Option.some.inj hlast
    have hfirst := hslices.inside first List.mem_cons_self
    have hfinish := hslices.inside final hfinalmem
    have hbounds := hplace.bounds kept.1 kept.2 (by omega) (by omega)
    constructor
    · rintro hlines _ ⟨⟩ found hfound
      rw [hbounds] at hfound
      obtain rfl := Except.ok.inj hfound
      obtain ⟨d, hd, hof⟩ := hmem' first List.mem_cons_self
      obtain ⟨d', hd', hof'⟩ := hmem' final hfinalmem
      have hline := (hlines _ (List.mem_map_of_mem hd)).1
      have hline' := (hlines _ (List.mem_map_of_mem hd')).2
      replace hline : block.sourceSpan.startLine < d.span.startLine := hline
      replace hline' : d'.span.endLine ≤ block.bodyEnd closed := hline'
      rw [(hspan first List.mem_cons_self d hof).startLine, ← hstart] at hline
      rw [(hspan final hfinalmem d' hof').endLine, hstop] at hline'
      exact ⟨Nat.lt_add_right_iff_pos.mp hline, hline'⟩
    · intro hfound item hitem
      obtain ⟨hbefore, hafter⟩ := hfound kept rfl _ hbounds
      replace hbefore : 0 < newlinesBefore block.rawMarkdown (place kept.1) := hbefore
      replace hafter : block.sourceSpan.startLine + newlinesBefore block.rawMarkdown
        (place kept.2 - 1) ≤ block.bodyEnd closed := hafter
      obtain ⟨d, hd, rfl⟩ := List.mem_map.mp hitem
      obtain ⟨slice, hslice, hof⟩ := hmem d hd
      have hat := hspan slice hslice d hof
      have hinside := hslices.inside slice hslice
      -- no slice starts before the first one or stops after the last one
      have hleft : kept.1 ≤ slice.1.1 := by
        rcases List.mem_cons.mp hslice with rfl | hrest
        · omega
        · have := (List.pairwise_cons.mp hslices.ordered).1 slice hrest
          omega
      have hright : slice.1.2 ≤ kept.2 := by
        obtain ⟨before, hsplit⟩ : ∃ before, first :: rest = before ++ [final] :=
          ⟨_, hfinal ▸ (List.dropLast_append_getLast (List.cons_ne_nil first rest)).symm⟩
        have hordered := hslices.ordered
        rw [hsplit] at hslice hordered
        rcases List.mem_append.mp hslice with hbefore | hlast
        · have := (List.pairwise_append.mp hordered).2.2 slice hbefore final
            (List.mem_singleton_self _)
          omega
        · rw [List.mem_singleton.mp hlast]
          omega
      have hplaces : place kept.1 ≤ place slice.1.1 := hplace.mono hleft (by omega)
      have hplaces' : place slice.1.2 - 1 ≤ place kept.2 - 1 :=
        Nat.sub_le_sub_right (hplace.mono hright (by omega)) 1
      have hcount := newlinesBefore_mono block.rawMarkdown hplaces
      have hcount' := newlinesBefore_mono block.rawMarkdown hplaces'
      refine ⟨?_, ?_⟩
      · show _ < d.span.startLine
        rw [hat.startLine]
        omega
      · show d.span.endLine ≤ _
        rw [hat.endLine]
        omega

/-- Blocks that are cut into chunks of their own text. -/
def SourceBlock.chunked (block : SourceBlock) : Prop :=
  block.blockType ∈ [.paragraph, .list, .blockquote, .callout, .unknown, .code, .mermaid]

theorem blockDrafts_prose (hchunked : block.chunked) (hfence : ¬ block.isFence) :
    chunker.blockDrafts block = chunker.proseDrafts block := by
  unfold blockDrafts
  simp only [SourceBlock.chunked, SourceBlock.isFence] at hchunked hfence
  split <;> simp_all

/-- The drafts of a block are faithful, and on body lines iff the code is found there. -/
theorem block_evidence_iff (hblock : FromParser block) (hproj : block.projectionSpans = none)
    (hchunked : block.chunked) (h : chunker.blockDrafts block = .ok drafts) (closed : Bool) :
    Faithful block (drafts.map Draft.evidence) ∧ (block.isFence →
      (OnBodyLines block closed (drafts.map Draft.evidence) ↔
        chunker.FoundInBody block closed)) := by
  by_cases hfence : block.isFence
  · have htaken := takenFrom_code hblock
    obtain ⟨slices, contentType, hslices, hmapped, hends⟩ := code_slices hfence h
    exact ⟨faithful_of_slices hblock hproj htaken hslices hmapped,
      fun _ => onBodyLines_iff hproj htaken hslices hends hmapped⟩
  · refine ⟨?_, fun hfence' => absurd hfence' hfence⟩
    rw [blockDrafts_prose hchunked hfence] at h
    obtain ⟨slices, mergeable, hslices, hmapped⟩ := proseDrafts_slices h
    exact faithful_of_slices hblock hproj (takenFrom_prose hblock hproj) hslices hmapped

end Body

/-! ## Chunks of a document -/

section Merging

variable (chunker : StructuralChunker)

theorem merge_fixed {draft : Draft} (h : draft.mergeable = false) (pending : Option Draft)
    (stream : List (Option Draft)) :
    chunker.mergeSmallDrafts pending (some draft :: stream) =
      pending.toList ++ draft :: chunker.mergeSmallDrafts none stream := by
  simp [mergeSmallDrafts, h]

theorem merge_first {draft : Draft} (h : draft.mergeable = true) (stream : List (Option Draft)) :
    chunker.mergeSmallDrafts none (some draft :: stream) =
      chunker.mergeSmallDrafts (some draft) stream := by
  simp [mergeSmallDrafts, h]

/-- A mergeable draft is merged with the pending one, or takes its place. -/
theorem merge_next {draft : Draft} (h : draft.mergeable = true) (waiting : Draft)
    (stream : List (Option Draft)) :
    (∃ candidate, chunker.mergePair waiting draft = some candidate ∧
      chunker.mergeSmallDrafts (some waiting) (some draft :: stream) =
        chunker.mergeSmallDrafts (some candidate) stream) ∨
    chunker.mergeSmallDrafts (some waiting) (some draft :: stream) =
      waiting :: chunker.mergeSmallDrafts (some draft) stream := by
  simp only [mergeSmallDrafts, h, if_true]
  cases hpair : chunker.mergePair waiting draft with
  | none => exact .inr rfl
  | some candidate =>
    by_cases hsmall : waiting.display.length < chunker.config.minChars ∨
        draft.display.length < chunker.config.minChars
    · exact .inl ⟨candidate, rfl, if_pos hsmall⟩
    · exact .inr (if_neg hsmall)

/-- A draft that is not mergeable ends what is pending. -/
theorem mergeSmallDrafts_split {draft : Draft} (h : draft.mergeable = false)
    (pending : Option Draft) (before after : List (Option Draft)) :
    chunker.mergeSmallDrafts pending (before ++ some draft :: after) =
      chunker.mergeSmallDrafts pending before ++ draft :: chunker.mergeSmallDrafts none after := by
  induction before generalizing pending with
  | nil => simp [mergeSmallDrafts, h]
  | cons item before ih =>
    cases item with
    | none => simp [mergeSmallDrafts, ih]
    | some other =>
      simp only [List.cons_append, mergeSmallDrafts]
      split
      · cases pending with
        | none => exact ih _
        | some waiting =>
          simp only
          split
          · split
            · exact ih _
            · rw [ih, List.cons_append]
          · rw [ih, List.cons_append]
      · rw [ih, List.append_assoc, List.cons_append]

theorem mergeSmallDrafts_own {own : List Draft} (h : ∀ draft ∈ own, draft.mergeable = false)
    (hne : own ≠ []) (pending : Option Draft) (before after : List (Option Draft)) :
    chunker.mergeSmallDrafts pending (before ++ own.map some ++ after) =
      chunker.mergeSmallDrafts pending before ++ own ++ chunker.mergeSmallDrafts none after := by
  induction own generalizing pending before with
  | nil => exact absurd rfl hne
  | cons draft rest ih =>
    obtain ⟨hdraft, hrest⟩ := List.forall_mem_cons.mp h
    have hsplit := mergeSmallDrafts_split chunker hdraft pending before
      (rest.map some ++ after)
    rw [List.map_cons, List.append_assoc, List.cons_append, hsplit]
    by_cases hnil : rest = []
    · subst hnil
      simp
    · have hafter := ih hrest hnil none []
      rw [List.nil_append] at hafter
      rw [hafter]
      simp [mergeSmallDrafts]

/-- What a draft becomes: itself, or part of a merged draft. -/
def Becomes (draft merged : Draft) : Prop :=
  merged = draft ∨ (draft.blocks ⊆ merged.blocks ∧ 2 ≤ merged.blocks.length)

variable {chunker} in
theorem mergePair_becomes {left right candidate : Draft}
    (h : chunker.mergePair left right = some candidate) :
    candidate.blocks = left.blocks ++ right.blocks := by
  unfold mergePair at h
  simp only at h
  split at h
  · obtain rfl := Option.some.inj h
    rfl
  · cases h

variable {chunker} in
theorem Becomes.of_merged {draft left right candidate merged : Draft}
    (hpair : chunker.mergePair left right = some candidate) (hof : draft = left ∨ draft = right)
    (h : Becomes candidate merged) : Becomes draft merged := by
  have hblocks := mergePair_becomes hpair
  have hsub : draft.blocks ⊆ candidate.blocks := by
    rw [hblocks]
    rcases hof with rfl | rfl
    · exact List.subset_append_left _ _
    · exact List.subset_append_right _ _
  rcases h with rfl | ⟨hmore, hlength⟩
  · refine .inr ⟨hsub, ?_⟩
    rw [hblocks, List.length_append]
    simp only [Draft.blocks, List.length_cons]
    omega
  · exact .inr ⟨fun block hblock => hmore (hsub hblock), hlength⟩

theorem pending_becomes (draft : Draft) (stream : List (Option Draft)) :
    ∃ merged ∈ chunker.mergeSmallDrafts (some draft) stream, Becomes draft merged := by
  induction stream generalizing draft with
  | nil => exact ⟨draft, List.mem_singleton_self _, .inl rfl⟩
  | cons item stream ih =>
    cases item with
    | none => exact ⟨draft, List.mem_cons_self, .inl rfl⟩
    | some other =>
      cases hother : other.mergeable with
      | false =>
        rw [merge_fixed chunker hother]
        exact ⟨draft, List.mem_cons_self, .inl rfl⟩
      | true =>
        rcases merge_next chunker hother draft stream with
          ⟨candidate, hpair, heq⟩ | heq
        · obtain ⟨merged, hmerged, hbecomes⟩ := ih candidate
          exact ⟨merged, heq ▸ hmerged, hbecomes.of_merged hpair (.inl rfl)⟩
        · rw [heq]
          exact ⟨draft, List.mem_cons_self, .inl rfl⟩

/-- No draft of the stream is lost. -/
theorem stream_becomes {draft : Draft} {stream : List (Option Draft)} (h : some draft ∈ stream)
    (pending : Option Draft) :
    ∃ merged ∈ chunker.mergeSmallDrafts pending stream, Becomes draft merged := by
  induction stream generalizing pending with
  | nil => cases h
  | cons item stream ih =>
    cases item with
    | none =>
      obtain ⟨merged, hmerged, hbecomes⟩ := ih (by simpa using h) none
      exact ⟨merged, List.mem_append_right _ hmerged, hbecomes⟩
    | some other =>
      -- the draft or what it becomes is found after the head, whatever is pending there
      have hrest : some draft ∈ stream → ∀ pending, ∃ merged ∈
          chunker.mergeSmallDrafts pending stream, Becomes draft merged := fun h pending => ih h pending
      have hcases : draft = other ∨ some draft ∈ stream := by simpa using h
      have htaken : ∃ merged ∈ chunker.mergeSmallDrafts (some other) stream,
          Becomes draft merged := by
        rcases hcases with rfl | hlater
        · exact pending_becomes chunker draft stream
        · exact hrest hlater _
      cases hother : other.mergeable with
      | false =>
        rw [merge_fixed chunker hother]
        rcases hcases with rfl | hlater
        · exact ⟨draft, List.mem_append_right _ List.mem_cons_self, .inl rfl⟩
        · obtain ⟨merged, hmerged, hbecomes⟩ := hrest hlater none
          exact ⟨merged, List.mem_append_right _ (List.mem_cons_of_mem _ hmerged), hbecomes⟩
      | true =>
        cases pending with
        | none =>
          rw [merge_first chunker hother]
          exact htaken
        | some waiting =>
          rcases merge_next chunker hother waiting stream with
            ⟨candidate, hpair, heq⟩ | heq
          · rw [heq]
            rcases hcases with rfl | hlater
            · obtain ⟨merged, hmerged, hbecomes⟩ :=
                pending_becomes chunker candidate stream
              exact ⟨merged, hmerged, hbecomes.of_merged hpair (.inr rfl)⟩
            · exact hrest hlater _
          · rw [heq]
            obtain ⟨merged, hmerged, hbecomes⟩ := htaken
            exact ⟨merged, List.mem_cons_of_mem _ hmerged, hbecomes⟩

end Merging

def StructuralChunker.RetrievalChunk.evidence (chunk : RetrievalChunk) : Evidence :=
  (chunk.displayContent, chunk.sourceSpan)

/-- The chunks of a document that are made of one block alone: those of its drafts, in place, unless
its only draft has been merged with a neighbour's. -/
inductive OwnChunks (block : SourceBlock) (drafts : List Draft) (chunks : List RetrievalChunk) :
    List RetrievalChunk → Prop
  | alone {before own after : List RetrievalChunk} : chunks = before ++ own ++ after →
      own.map RetrievalChunk.evidence = drafts.map Draft.evidence →
      (∀ chunk ∈ own, chunk.parentBlockIds = [block.blockId]) → OwnChunks block drafts chunks own
  | merged {chunk : RetrievalChunk} : chunk ∈ chunks → block.blockId ∈ chunk.parentBlockIds →
      2 ≤ chunk.parentBlockIds.length → OwnChunks block drafts chunks []

section Documents

variable {chunker : StructuralChunker} {document : Document} {chunks : List RetrievalChunk}
  {before after : List SourceBlock} {block : SourceBlock}

theorem drafts_of_prose {drafts : List Draft} (h : chunker.proseDrafts block = .ok drafts) :
    (∀ draft ∈ drafts, draft.blocks = [block]) ∧
      ((∀ draft ∈ drafts, draft.mergeable = false) ∨ drafts.length ≤ 1) := by
  obtain ⟨ranged, hranged, hdrafts⟩ := bind_ok.mp h
  have hmem := mapAll_ok_mem hdrafts
  refine ⟨fun draft hdraft => ?_, ?_⟩
  · obtain ⟨slice, -, hof⟩ := hmem draft hdraft
    exact (draftOf_ok hof).2.2.1
  · by_cases hone : ranged.length = 1
    · right
      rw [mapAll_length hdrafts]
      refine (List.length_filter_le _ _).trans ?_
      rw [List.length_map, hone]
    · left
      intro draft hdraft
      obtain ⟨slice, -, hof⟩ := hmem draft hdraft
      rw [(draftOf_ok hof).2.2.2]
      simp [hone]

theorem drafts_of_block {drafts : List Draft} (hchunked : block.chunked)
    (h : chunker.blockDrafts block = .ok drafts) :
    (∀ draft ∈ drafts, draft.blocks = [block]) ∧
      ((∀ draft ∈ drafts, draft.mergeable = false) ∨ drafts.length ≤ 1 ∧ ¬ block.isFence) := by
  by_cases hfence : block.isFence
  · obtain ⟨slices, contentType, -, hmapped, -⟩ := code_slices hfence h
    have hmem := mapAll_ok_mem hmapped
    refine ⟨fun draft hdraft => ?_, .inl fun draft hdraft => ?_⟩
    · obtain ⟨slice, -, hof⟩ := hmem draft hdraft
      exact (draftOf_ok hof).2.2.1
    · obtain ⟨slice, -, hof⟩ := hmem draft hdraft
      exact (draftOf_ok hof).2.2.2
  · obtain ⟨hblocks, hmergeable⟩ := drafts_of_prose (blockDrafts_prose hchunked hfence ▸ h)
    exact ⟨hblocks, hmergeable.imp_right fun hone => ⟨hone, hfence⟩⟩

/-- What a chunk keeps of its draft. -/
def Draft.trace (draft : Draft) : Evidence × List NonEmptyText :=
  (draft.evidence, draft.blocks.map (·.blockId))

def StructuralChunker.RetrievalChunk.trace (chunk : RetrievalChunk) :
    Evidence × List NonEmptyText := (chunk.evidence, chunk.parentBlockIds)

theorem traces_of_chunks {drafts : List Draft}
    (h : mapAll (chunker.chunkOf document) drafts.zipIdx = .ok chunks) :
    chunks.map RetrievalChunk.trace = drafts.map Draft.trace := by
  have hof : ∀ (draft : Draft × Nat) (chunk : RetrievalChunk),
      chunker.chunkOf document draft = .ok chunk → chunk.trace = draft.1.trace := by
    intro draft chunk hchunk
    have hfacts := chunkOf_ok hchunk
    exact Prod.ext (Prod.ext hfacts.display hfacts.span) hfacts.parents
  rw [mapAll_keys h hof]
  conv => rhs; rw [← List.zipIdx_map_fst 0 drafts, List.map_map]
  rfl

theorem blockStream_chunked (hchunked : block.chunked) :
    chunker.blockStream block = (chunker.blockDrafts block).map fun drafts => drafts.map some := by
  refine if_neg ?_
  simp only [SourceBlock.chunked, List.mem_cons, List.not_mem_nil, or_false] at hchunked
  rcases hchunked with h | h | h | h | h | h | h <;> simp [h]

/-- Chunks of drafts that stand together. -/
theorem ownChunks_alone {drafts first last : List Draft}
    (hblocks : ∀ draft ∈ drafts, draft.blocks = [block])
    (h : chunks.map RetrievalChunk.trace = (first ++ drafts ++ last).map Draft.trace) :
    ∃ own, OwnChunks block drafts chunks own ∧
      own.map RetrievalChunk.evidence = drafts.map Draft.evidence := by
  rw [List.map_append, List.map_append] at h
  obtain ⟨head, tail, rfl, hhead, -⟩ := List.map_eq_append_iff.mp h
  obtain ⟨before, own, rfl, -, hown⟩ := List.map_eq_append_iff.mp hhead
  have hevidence : own.map RetrievalChunk.evidence = drafts.map Draft.evidence := by
    have hfst := congrArg (List.map Prod.fst) hown
    rwa [List.map_map, List.map_map] at hfst
  refine ⟨own, .alone rfl hevidence fun chunk hchunk => ?_, hevidence⟩
  have hmem : chunk.trace ∈ drafts.map Draft.trace := hown ▸ List.mem_map_of_mem hchunk
  obtain ⟨draft, hdraft, htrace⟩ := List.mem_map.mp hmem
  have hparents := congrArg Prod.snd htrace
  rw [← show draft.blocks.map (·.blockId) = chunk.parentBlockIds from hparents, hblocks draft hdraft]
  rfl

/-- The drafts of a block that are not mergeable are its chunks; one that is may be merged. -/
theorem ownChunks_of_build (hchunked : block.chunked)
    (hdocument : document.blocks = before ++ block :: after)
    (h : chunker.build document = .ok chunks) :
    ∃ drafts own, chunker.blockDrafts block = .ok drafts ∧ OwnChunks block drafts chunks own ∧
      (own = [] ∧ ¬ block.isFence ∨
        own.map RetrievalChunk.evidence = drafts.map Draft.evidence) := by
  obtain ⟨stream, hstream, hchunks⟩ := bind_ok.mp h
  rw [hdocument] at hstream
  obtain ⟨early, rest, hearly, hrest, rfl⟩ := mapAll_append.mp hstream
  simp only [mapAll, bind_ok, Except.ok.injEq] at hrest
  obtain ⟨items, hitems, late, hlate, rfl⟩ := hrest
  rw [blockStream_chunked hchunked] at hitems
  obtain ⟨drafts, hdrafts, rfl⟩ := map_ok.mp hitems
  obtain ⟨hblocks, hmergeable⟩ := drafts_of_block hchunked hdrafts
  have htraces := traces_of_chunks hchunks
  rw [List.flatten_append, List.flatten_cons, ← List.append_assoc] at htraces
  by_cases hfixed : (∀ draft ∈ drafts, draft.mergeable = false) ∧ drafts ≠ []
  · rw [mergeSmallDrafts_own chunker hfixed.1 hfixed.2] at htraces
    obtain ⟨own, hown, hevidence⟩ := ownChunks_alone hblocks htraces
    exact ⟨drafts, own, hdrafts, hown, .inr hevidence⟩
  · cases drafts with
    | nil =>
      have hsplit : chunks = [] ++ [] ++ chunks := rfl
      have hnone : OwnChunks block [] chunks [] := .alone hsplit rfl (by simp)
      exact ⟨[], [], hdrafts, hnone, .inr rfl⟩
    | cons draft rest =>
      -- the only draft of a prose block: what it becomes is the draft of some chunk
      obtain ⟨hone, hfence⟩ := hmergeable.resolve_left fun hall =>
        hfixed ⟨hall, List.cons_ne_nil _ _⟩
      obtain rfl : rest = [] := List.eq_nil_of_length_eq_zero (by simpa using hone)
      have hdraft : some draft ∈ early.flatten ++ [draft].map some ++ late.flatten := by simp
      obtain ⟨merged, hmerged, hbecomes⟩ := stream_becomes chunker hdraft none
      obtain ⟨chunk, hchunk, htrace⟩ : ∃ chunk ∈ chunks, chunk.trace = merged.trace := by
        have hmem := List.mem_map_of_mem (f := Draft.trace) hmerged
        rw [← htraces] at hmem
        exact List.mem_map.mp hmem
      rcases hbecomes with rfl | ⟨hsub, hlength⟩
      · obtain ⟨first, last, hsplit⟩ := List.append_of_mem hmerged
        rw [hsplit, ← List.singleton_append, ← List.append_assoc] at htraces
        obtain ⟨own, hown, hevidence⟩ := ownChunks_alone hblocks htraces
        exact ⟨_, own, hdrafts, hown, .inr hevidence⟩
      · have hparents : chunk.parentBlockIds = merged.blocks.map (·.blockId) :=
          congrArg Prod.snd htrace
        have hhead : block ∈ merged.blocks := hsub (by simp [hblocks draft List.mem_cons_self])
        refine ⟨_, [], hdrafts, .merged hchunk ?_ ?_, .inl ⟨rfl, hfence⟩⟩
        · rw [hparents]
          exact List.mem_map_of_mem hhead
        · rw [hparents, List.length_map]
          exact hlength

/-- For every block of a document that is chunked without projection, the evidence of its own
chunks is faithful; the lines of a code block's chunks lie between the fences iff its text is found
there. -/
theorem chunk_evidence_iff (hdocument : document.blocks = before ++ block :: after)
    (hblock : FromParser block) (hproj : block.projectionSpans = none) (hchunked : block.chunked)
    (h : chunker.build document = .ok chunks) (closed : Bool) :
    ∃ drafts own, chunker.blockDrafts block = .ok drafts ∧ OwnChunks block drafts chunks own ∧
      ((Faithful block (own.map RetrievalChunk.evidence) ∧
          (block.isFence → OnBodyLines block closed (own.map RetrievalChunk.evidence))) ↔
        (block.isFence → chunker.FoundInBody block closed)) := by
  obtain ⟨drafts, own, hdrafts, hown, hevidence⟩ := ownChunks_of_build hchunked hdocument h
  obtain ⟨hfaithful, hbody⟩ := block_evidence_iff hblock hproj hchunked hdrafts closed
  refine ⟨drafts, own, hdrafts, hown, ?_⟩
  rcases hevidence with ⟨rfl, hfence⟩ | hevidence
  · constructor
    · exact fun _ hfence' => absurd hfence' hfence
    · intro _
      exact ⟨⟨by simp, by simp, .nil⟩, fun hfence' => absurd hfence' hfence⟩
  · rw [hevidence]
    constructor
    · exact fun hall hfence => (hbody hfence).mp (hall.2 hfence)
    · exact fun hfound => ⟨hfaithful, fun hfence => (hbody hfence).mpr (hfound hfence)⟩

end Documents

theorem sampleCode_fromParser (body : Char) (hbody : body = 'a' ∨ body = 'b') :
    FromParser (sampleCode body) where
  offsets := ⟨0, rfl⟩
  lines := by rcases hbody with rfl | rfl <;> decide
  text := by
    rintro text ⟨⟩
    rcases hbody with rfl | rfl <;> exact .inr (by decide)

theorem chunk_evidence_sample : ∃ chunks drafts own,
    plainChunker.build (sampleDocument 'b') = .ok chunks ∧
      plainChunker.blockDrafts (sampleCode 'b') = .ok drafts ∧
      OwnChunks (sampleCode 'b') drafts chunks own ∧
      ((Faithful (sampleCode 'b') (own.map RetrievalChunk.evidence) ∧
          ((sampleCode 'b').isFence →
            OnBodyLines (sampleCode 'b') true (own.map RetrievalChunk.evidence))) ↔
        ((sampleCode 'b').isFence → plainChunker.FoundInBody (sampleCode 'b') true)) := by
  obtain ⟨chunk, hbuild, -⟩ := sampleDocument_built 'b' (.inr rfl)
  have hsplit : (sampleDocument 'b').blocks = [] ++ sampleCode 'b' :: [] := rfl
  obtain ⟨drafts, own, hrest⟩ := chunk_evidence_iff hsplit (sampleCode_fromParser 'b' (.inr rfl)) rfl
    (by simp [SourceBlock.chunked, sampleCode]) hbuild true
  exact ⟨[chunk], drafts, own, hbuild, hrest⟩

/-- A body that stands in the info string: its chunk names the line of the opening fence. -/
theorem fence_line_recorded :
    ¬ ∀ (chunker : StructuralChunker) (document : Document) block chunks,
      document.blocks = [block] → FromParser block → block.projectionSpans = none →
      block.isFence → chunker.build document = .ok chunks →
      OnBodyLines block true (chunks.map RetrievalChunk.evidence) := by
  intro hclaim
  obtain ⟨chunk, hbuild, -, hline⟩ := sampleDocument_built 'a' (.inl rfl)
  have hlines := hclaim plainChunker (sampleDocument 'a') (sampleCode 'a') [chunk] rfl
    (sampleCode_fromParser 'a' (.inl rfl)) rfl (.inl rfl) hbuild
  have hafter := (hlines _ (List.mem_singleton_self chunk.evidence)).1
  replace hafter : 1 < chunk.sourceSpan.startLine := hafter
  rw [hline] at hafter
  exact absurd hafter (by decide)

end MDRack.Markdown
