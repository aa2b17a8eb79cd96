import MDRack.Markdown.Text
import MDRack.Lib.Tiling
import MDRack.Lib.Sorting
import MDRack.Lib.Timeline

/-!
# Paragraph projection (`MarkdownItParser._project_image_syntax`) and chunk source bounds

A paragraph is rewritten by putting each image reference's author text in its place; rows of six
offsets say where each stretch of the projected text comes from.

* `projectImageSyntax` — selection of the references, the loop that builds the rows, the trim.
* `projectedRawBounds` — the chunker's reading of the rows (`_projected_raw_bounds`).
* `pieces` — what the substituted text is made of, in order.

Principal results: `projectReferences_eq` — the loop lays the pieces out end to end;
`pieces_from` — a piece is a stretch outside all references, or a reference.
-/

namespace MDRack.Markdown

open Sorting (sortOn)
open Tiling (Tiles)

variable {raw : List Char}

/-- A reference found in a paragraph and its projection, which each of the finders strips. -/
structure Reference (raw : List Char) where
  sourceStart : Nat
  sourceEnd : Nat
  projection : List Char
  nonempty : sourceStart < sourceEnd
  inside : sourceEnd ≤ raw.length
  stripped : strip projection = projection

/-- One row of `projection_spans`. -/
structure ProjectionSpan where
  projectedStart : Nat
  projectedStop : Nat
  rawStart : Nat
  rawEnd : Nat
  textStart : Nat
  textEnd : Nat
  deriving DecidableEq, Repr

/-! ## Selection -/

/-- `key=lambda item: (item[0], -(item[1] - item[0]))`. -/
def Reference.key (r : Reference raw) : Nat ×ₗ Int :=
  toLex (r.sourceStart, -((r.sourceEnd : Int) - r.sourceStart))

def nonOverlapping : Nat → List (Reference raw) → List (Reference raw)
  | _, [] => []
  | cursor, r :: rest =>
    if cursor ≤ r.sourceStart then r :: nonOverlapping r.sourceEnd rest
    else nonOverlapping cursor rest

/-- The references that are projected, in the order of the text. -/
def selectReferences (references : List (Reference raw)) : List (Reference raw) :=
  nonOverlapping 0 (sortOn Reference.key references)

/-! ## The loop -/

structure Projecting where
  result : List Char
  spans : List ProjectionSpan
  projectedOffset : Nat
  cursor : Nat

/-- The literal text before `sourceStart`, if there is any. -/
def Projecting.literal (raw : List Char) (p : Projecting) (sourceStart : Nat) : Projecting :=
  if p.cursor < sourceStart then
    let literal := raw.extract p.cursor sourceStart
    { p with
      result := p.result ++ literal
      spans := p.spans ++ [⟨p.projectedOffset, p.projectedOffset + literal.length, p.cursor,
        sourceStart, p.cursor, sourceStart⟩]
      projectedOffset := p.projectedOffset + literal.length }
  else p

/-- `raw_paragraph.find(projection, source_start, source_end)`, or the start of the reference. -/
def Reference.projectionSource (r : Reference raw) : Nat :=
  (find raw r.projection r.sourceStart r.sourceEnd).getD r.sourceStart

def Projecting.replace (p : Projecting) (r : Reference raw) : Projecting :=
  if r.projection ≠ [] then
    { result := p.result ++ r.projection
      spans := p.spans ++ [⟨p.projectedOffset, p.projectedOffset + r.projection.length,
        r.sourceStart, r.sourceEnd, r.projectionSource,
        min r.sourceEnd (r.projectionSource + r.projection.length)⟩]
      projectedOffset := p.projectedOffset + r.projection.length
      cursor := r.sourceEnd }
  else { p with cursor := r.sourceEnd }

def Projecting.reference (p : Projecting) (r : Reference raw) : Projecting :=
  (p.literal raw r.sourceStart).replace r

def Projecting.init : Projecting := ⟨[], [], 0, 0⟩

def projectReferences (references : List (Reference raw)) : Projecting :=
  (references.foldl Projecting.reference .init).literal raw raw.length

/-! ## The trim -/

/-- The row without what is stripped off the projected text. -/
def ProjectionSpan.adjust (leading projectedEnd : Nat) (s : ProjectionSpan) : ProjectionSpan :=
  { s with
    projectedStart := max s.projectedStart leading - leading
    projectedStop := min s.projectedStop projectedEnd - leading }

structure Projection where
  plainText : Option (List Char)
  spans : List ProjectionSpan

/-- The projected text; `projected or None` stands for an empty one. -/
def Projection.text (p : Projection) : List Char := p.plainText.getD []

def Projecting.trim (p : Projecting) : Projection :=
  let projected := strip p.result
  let projectedEnd := p.result.length - trailing p.result
  { plainText := if projected = [] then none else some projected
    spans := (p.spans.filter (Tiling.meets (·.projectedStart) (·.projectedStop) (leading p.result)
      projectedEnd)).map (·.adjust (leading p.result) projectedEnd) }

/-- `none` where the paragraph has no reference: it is then not projected. -/
def projectImageSyntax (references : List (Reference raw)) : Option Projection :=
  match selectReferences references with
  | [] => none
  | selected => some (projectReferences selected).trim

/-! ## Source bounds of a chunk -/

def projectedRawBounds (value : List ProjectionSpan) (start stop : Nat) : Option (Nat × Nat) :=
  let rows := value.filter (Tiling.meets (·.projectedStart) (·.projectedStop) start stop)
  match rows.head?, rows.getLast? with
  | some first, some last =>
    some (if start ≤ first.projectedStart then first.rawStart
        else first.textStart + start - first.projectedStart,
      if last.projectedStop ≤ stop then last.rawEnd
        else last.textStart + stop - last.projectedStart)
  | _, _ => none

/-! ## The pieces of the substituted text -/

inductive Piece (raw : List Char) where
  | literal (start stop : Nat)
  | replaced (reference : Reference raw)

def Piece.text : Piece raw → List Char
  | .literal start stop => raw.extract start stop
  | .replaced r => r.projection

def Piece.row (offset : Nat) : Piece raw → ProjectionSpan
  | .literal start stop =>
    ⟨offset, offset + (raw.extract start stop).length, start, stop, start, stop⟩
  | .replaced r => ⟨offset, offset + r.projection.length, r.sourceStart, r.sourceEnd,
      r.projectionSource, min r.sourceEnd (r.projectionSource + r.projection.length)⟩

def literalPiece (raw : List Char) (start stop : Nat) : List (Piece raw) :=
  if start < stop then [.literal start stop] else []

def Reference.piece (r : Reference raw) : List (Piece raw) :=
  if r.projection ≠ [] then [.replaced r] else []

def pieces : Nat → List (Reference raw) → List (Piece raw)
  | cursor, [] => literalPiece raw cursor raw.length
  | cursor, r :: rest => literalPiece raw cursor r.sourceStart ++ r.piece ++ pieces r.sourceEnd rest

def texts (ps : List (Piece raw)) : List Char := (ps.map Piece.text).flatten

def layout : Nat → List (Piece raw) → List ProjectionSpan
  | _, [] => []
  | offset, p :: rest => p.row offset :: layout (offset + p.text.length) rest

@[simp] theorem texts_nil : texts ([] : List (Piece raw)) = [] := rfl

@[simp] theorem texts_cons (p : Piece raw) (ps : List (Piece raw)) :
    texts (p :: ps) = p.text ++ texts ps := rfl

@[simp] theorem texts_append (ps qs : List (Piece raw)) :
    texts (ps ++ qs) = texts ps ++ texts qs := by
  simp [texts]

theorem layout_append (offset : Nat) (ps qs : List (Piece raw)) :
    layout offset (ps ++ qs) = layout offset ps ++ layout (offset + (texts ps).length) qs := by
  induction ps generalizing offset with
  | nil => rfl
  | cons p rest ih => simp [layout, ih, Nat.add_assoc]

/-- The state with the pieces put at its end. -/
def Projecting.put (p : Projecting) (ps : List (Piece raw)) (cursor : Nat) : Projecting :=
  ⟨p.result ++ texts ps, p.spans ++ layout p.projectedOffset ps,
    p.projectedOffset + (texts ps).length, cursor⟩

theorem Projecting.put_put (p : Projecting) (ps qs : List (Piece raw)) (cursor cursor' : Nat) :
    (p.put ps cursor).put qs cursor' = p.put (ps ++ qs) cursor' := by
  simp [put, layout_append, Nat.add_assoc]

theorem Projecting.literal_eq (p : Projecting) (sourceStart : Nat) :
    p.literal raw sourceStart = p.put (literalPiece raw p.cursor sourceStart) p.cursor := by
  unfold literal literalPiece
  split <;> simp [put, layout, Piece.row, Piece.text]

theorem Projecting.replace_eq (p : Projecting) (r : Reference raw) :
    p.replace r = p.put r.piece r.sourceEnd := by
  unfold replace Reference.piece
  split <;> simp [put, layout, Piece.row, Piece.text]

theorem project_put (p : Projecting) (references : List (Reference raw)) :
    ∃ cursor, (references.foldl Projecting.reference p).literal raw raw.length =
      p.put (pieces p.cursor references) cursor := by
  induction references generalizing p with
  | nil => exact ⟨_, p.literal_eq raw.length⟩
  | cons r rest ih =>
    obtain ⟨cursor, h⟩ := ih (p.reference r)
    refine ⟨cursor, ?_⟩
    have hstep : p.reference r =
        p.put (literalPiece raw p.cursor r.sourceStart ++ r.piece) r.sourceEnd := by
      rw [Projecting.reference, Projecting.literal_eq, Projecting.replace_eq, Projecting.put_put]
    rw [List.foldl_cons, h, hstep, Projecting.put_put]
    rfl

/-- The loop lays the pieces out one after the other. -/
theorem projectReferences_eq (references : List (Reference raw)) :
    (projectReferences references).result = texts (pieces 0 references) ∧
      (projectReferences references).spans = layout 0 (pieces 0 references) := by
  obtain ⟨cursor, h⟩ := project_put .init references
  have h : projectReferences references = Projecting.init.put (pieces 0 references) cursor := h
  rw [h]
  simp [Projecting.put, Projecting.init]

/-! ## Where the pieces come from -/

def Arranged : Nat → List (Reference raw) → Prop
  | _, [] => True
  | cursor, r :: rest => cursor ≤ r.sourceStart ∧ Arranged r.sourceEnd rest

theorem nonOverlapping_arranged (cursor : Nat) (references : List (Reference raw)) :
    Arranged cursor (nonOverlapping cursor references) := by
  induction references generalizing cursor with
  | nil => trivial
  | cons r rest ih =>
    unfold nonOverlapping
    split
    case isTrue hle => exact ⟨hle, ih r.sourceEnd⟩
    case isFalse => exact ih cursor

theorem Arranged.mono {cursor cursor' : Nat} {references : List (Reference raw)}
    (h : Arranged cursor references) (hle : cursor' ≤ cursor) : Arranged cursor' references := by
  cases references with
  | nil => trivial
  | cons r rest => exact ⟨hle.trans h.1, h.2⟩

theorem Arranged.mem {cursor : Nat} {references : List (Reference raw)}
    (h : Arranged cursor references) {r : Reference raw} (hr : r ∈ references) :
    cursor ≤ r.sourceStart := by
  induction references generalizing cursor with
  | nil => cases hr
  | cons first rest ih =>
    rcases List.mem_cons.mp hr with rfl | hr
    · exact h.1
    · have hfirst := first.nonempty
      have := ih h.2 hr
      have := h.1
      omega

def Piece.start : Piece raw → Nat
  | .literal start _ => start
  | .replaced r => r.sourceStart

def Piece.stop : Piece raw → Nat
  | .literal _ stop => stop
  | .replaced r => r.sourceEnd

/-- A literal piece is a stretch outside all references, any other piece is one of them. -/
def Piece.From (references : List (Reference raw)) : Piece raw → Prop
  | .literal start stop => start < stop ∧ stop ≤ raw.length ∧
      ∀ r ∈ references, stop ≤ r.sourceStart ∨ r.sourceEnd ≤ start
  | .replaced r => r ∈ references ∧ r.projection ≠ []

theorem mem_literalPiece {start stop : Nat} {p : Piece raw} :
    p ∈ literalPiece raw start stop ↔ start < stop ∧ p = .literal start stop := by
  unfold literalPiece
  split <;> simp [*]

theorem Reference.mem_piece {r : Reference raw} {p : Piece raw} :
    p ∈ r.piece ↔ r.projection ≠ [] ∧ p = .replaced r := by
  unfold Reference.piece
  split <;> simp [*]

theorem Piece.From.cons {references : List (Reference raw)} {r : Reference raw} {p : Piece raw}
    (h : p.From references) (hr : r.sourceEnd ≤ p.start) : p.From (r :: references) := by
  cases p with
  | literal start stop =>
    obtain ⟨hlt, hlen, hout⟩ := h
    refine ⟨hlt, hlen, ?_⟩
    intro r' hr'
    rcases List.mem_cons.mp hr' with rfl | hr'
    · exact .inr hr
    · exact hout r' hr'
  | replaced r' => exact ⟨List.mem_cons_of_mem _ h.1, h.2⟩

theorem pieces_from {cursor : Nat} {references : List (Reference raw)}
    (h : Arranged cursor references) :
    ∀ p ∈ pieces cursor references, p.From references ∧ cursor ≤ p.start := by
  induction references generalizing cursor with
  | nil =>
    intro p hp
    obtain ⟨hlt, rfl⟩ := mem_literalPiece.mp hp
    refine ⟨⟨hlt, Nat.le_refl _, ?_⟩, Nat.le_refl _⟩
    intro r hr
    cases hr
  | cons r rest ih =>
    intro p hp
    have hr := r.nonempty
    have hcursor := h.1
    rw [pieces, List.mem_append, List.mem_append] at hp
    rcases hp with (hp | hp) | hp
    · obtain ⟨hlt, rfl⟩ := mem_literalPiece.mp hp
      refine ⟨⟨hlt, ?_, ?_⟩, Nat.le_refl _⟩
      · have := r.inside
        omega
      · intro r' hr'
        rcases List.mem_cons.mp hr' with rfl | hr'
        · exact .inl (Nat.le_refl _)
        · have := h.2.mem hr'
          exact .inl (by omega)
    · obtain ⟨hne, rfl⟩ := Reference.mem_piece.mp hp
      exact ⟨⟨List.mem_cons_self, hne⟩, h.1⟩
    · obtain ⟨hfrom, hle⟩ := ih h.2 p hp
      exact ⟨hfrom.cons hle, by omega⟩

theorem pieces_pairwise {cursor : Nat} {references : List (Reference raw)}
    (h : Arranged cursor references) :
    (pieces cursor references).Pairwise fun p q => p.stop ≤ q.start := by
  induction references generalizing cursor with
  | nil =>
    rw [pieces]
    unfold literalPiece
    split <;> simp
  | cons r rest ih =>
    have hr := r.nonempty
    rw [pieces, List.append_assoc, List.pairwise_append, List.pairwise_append]
    refine ⟨?_, ⟨?_, ih h.2, ?_⟩, ?_⟩
    · unfold literalPiece
      split <;> simp
    · unfold Reference.piece
      split <;> simp
    · intro p hp q hq
      obtain ⟨-, rfl⟩ := Reference.mem_piece.mp hp
      exact (pieces_from h.2 q hq).2
    · intro p hp q hq
      obtain ⟨-, rfl⟩ := mem_literalPiece.mp hp
      rcases List.mem_append.mp hq with hq | hq
      · obtain ⟨-, rfl⟩ := Reference.mem_piece.mp hq
        exact Nat.le_refl _
      · have := (pieces_from h.2 q hq).2
        simp only [Piece.stop]
        omega

theorem Piece.From.text_ne_nil {references : List (Reference raw)} {p : Piece raw}
    (h : p.From references) : p.text ≠ [] := by
  cases p with
  | literal start stop =>
    obtain ⟨hlt, hlen, -⟩ := h
    exact Timeline.extract_ne_nil hlt (by omega)
  | replaced r => exact h.2

/-! ## The rows before the trim -/

theorem mem_layout {offset : Nat} {ps : List (Piece raw)} {s : ProjectionSpan} :
    s ∈ layout offset ps ↔ ∃ before p after, ps = before ++ p :: after ∧
      s = p.row (offset + (texts before).length) := by
  constructor
  · intro h
    induction ps generalizing offset with
    | nil => cases h
    | cons p rest ih =>
      rcases List.mem_cons.mp h with rfl | h
      · exact ⟨[], p, rest, rfl, rfl⟩
      · obtain ⟨before, q, after, rfl, rfl⟩ := ih h
        exact ⟨p :: before, q, after, rfl, by simp [Nat.add_assoc]⟩
  · rintro ⟨before, p, after, rfl, rfl⟩
    rw [layout_append]
    exact List.mem_append_right _ List.mem_cons_self

@[simp] theorem Piece.row_projectedStart (p : Piece raw) (offset : Nat) :
    (p.row offset).projectedStart = offset := by
  cases p <;> rfl

@[simp] theorem Piece.row_projectedStop (p : Piece raw) (offset : Nat) :
    (p.row offset).projectedStop = offset + p.text.length := by
  cases p <;> rfl

@[simp] theorem Piece.row_rawStart (p : Piece raw) (offset : Nat) :
    (p.row offset).rawStart = p.start := by
  cases p <;> rfl

@[simp] theorem Piece.row_rawEnd (p : Piece raw) (offset : Nat) :
    (p.row offset).rawEnd = p.stop := by
  cases p <;> rfl

theorem layout_tiles {offset : Nat} {ps : List (Piece raw)} (h : ∀ p ∈ ps, p.text ≠ []) :
    Tiles (·.projectedStart) (·.projectedStop) offset (layout offset ps)
      (offset + (texts ps).length) := by
  induction ps generalizing offset with
  | nil => rfl
  | cons p rest ih =>
    have hpos := List.length_pos_iff.mpr (h p List.mem_cons_self)
    have hrest : Tiles (·.projectedStart) (·.projectedStop) (offset + p.text.length)
        (layout (offset + p.text.length) rest) (offset + p.text.length + (texts rest).length) :=
      ih fun q hq => h q (List.mem_cons_of_mem _ hq)
    refine ⟨p.row_projectedStart offset, ?_, ?_⟩
    · show offset < (p.row offset).projectedStop
      rw [Piece.row_projectedStop]
      omega
    · simpa [Nat.add_assoc] using hrest

/-- Rows stand in the order of the text, before and after. -/
def Precedes (s t : ProjectionSpan) : Prop :=
  s.projectedStop ≤ t.projectedStart ∧ s.rawEnd ≤ t.rawStart

theorem layout_pairwise {offset : Nat} {ps : List (Piece raw)} (h : ∀ p ∈ ps, p.text ≠ [])
    (hps : ps.Pairwise fun p q => p.stop ≤ q.start) : (layout offset ps).Pairwise Precedes := by
  have hraw : (layout offset ps).Pairwise fun s t => s.rawEnd ≤ t.rawStart := by
    clear h
    induction ps generalizing offset with
    | nil => exact List.Pairwise.nil
    | cons p rest ih =>
      obtain ⟨hfirst, hrest⟩ := List.pairwise_cons.mp hps
      refine List.pairwise_cons.mpr ⟨?_, ih hrest⟩
      intro s hs
      obtain ⟨before, q, after, rfl, rfl⟩ := mem_layout.mp hs
      simpa using hfirst q (by simp)
  exact (layout_tiles h).pairwise.and hraw

end MDRack.Markdown
