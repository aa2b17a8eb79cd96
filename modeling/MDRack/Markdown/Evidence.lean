import MDRack.Markdown.Projection
import Mathlib.Algebra.Order.BigOperators.Group.List

/-!
# When projected spans are exact

* `Projection.Exact` — the rows tile the projected text, literal rows show their source, replaced
  rows name a reference, and every cut of the projected text has its literal parts at the source
  range recorded for it.
* `Intact` — the strip takes nothing from a literal stretch that keeps other text.
* `Contained` — no projection is so much longer than its reference that its offsets reach literal
  text.

Principal result: `projection_exact_iff` — a projected paragraph is exact iff it is intact and
contained.
-/

namespace MDRack.Markdown

open Tiling (Tiles meets meets_iff)
open Timeline (length_extract extract_extract extract_block extract_of_le)

variable {raw : List Char} {references : List (Reference raw)}

/-! ## Exactness -/

/-- The row's source lies outside all references. -/
def ProjectionSpan.Literal (references : List (Reference raw)) (s : ProjectionSpan) : Prop :=
  ∀ r ∈ references, s.rawEnd ≤ r.sourceStart ∨ r.sourceEnd ≤ s.rawStart

instance (s : ProjectionSpan) : Decidable (s.Literal references) :=
  inferInstanceAs (Decidable (∀ r ∈ references, _))

/-- The stretches of the paragraph between the references. -/
def gaps : Nat → List (Reference raw) → List (Nat × Nat)
  | cursor, [] => [(cursor, raw.length)]
  | cursor, r :: rest => (cursor, r.sourceStart) :: gaps r.sourceEnd rest

/-- What a window shows of some stretches of a text, where it shows anything. -/
def parts (text : List Char) (stretches : List (Nat × Nat)) (start stop : Nat) :
    List (List Char) :=
  (stretches.map fun g => text.extract (max start g.1) (min stop g.2)).filter (!·.isEmpty)

def Projection.literals (references : List (Reference raw)) (p : Projection) : List (Nat × Nat) :=
  (p.spans.filter fun s => s.Literal references).map fun s => (s.projectedStart, s.projectedStop)

structure Projection.Exact (references : List (Reference raw)) (p : Projection) : Prop where
  tiles : Tiles (·.projectedStart) (·.projectedStop) 0 p.spans p.text.length
  literal : ∀ s ∈ p.spans, s.Literal references →
    p.text.extract s.projectedStart s.projectedStop = raw.extract s.textStart s.textEnd
  replaced : ∀ s ∈ p.spans, ¬ s.Literal references →
    ∃ r ∈ references, s.rawStart = r.sourceStart ∧ s.rawEnd = r.sourceEnd
  cuts : ∀ start stop, start < stop → stop ≤ p.text.length → ∃ rawStart rawEnd,
    projectedRawBounds p.spans start stop = some (rawStart, rawEnd) ∧
      parts raw (gaps 0 references) rawStart rawEnd =
        parts p.text (p.literals references) start stop

/-! ## The condition -/

def Intact (references : List (Reference raw)) : Prop :=
  ∀ before start stop after, pieces 0 references = before ++ .literal start stop :: after →
    blank (raw.extract start stop) = false →
      ¬ (blank (texts before) = true ∧ (raw.extract start stop).head?.any isSpace = true) ∧
        ¬ (blank (texts after) = true ∧ (raw.extract start stop).getLast?.any isSpace = true)

def Contained (references : List (Reference raw)) : Prop :=
  ∀ r ∈ references, ∀ position < raw.length, r.sourceEnd ≤ position →
    (∀ r' ∈ references, position < r'.sourceStart ∨ r'.sourceEnd ≤ position) →
      r.projectionSource + r.projection.length ≤ position + 1

/-! ## Rows and pieces -/

theorem Reference.projectionSource_ge (r : Reference raw) : r.sourceStart ≤ r.projectionSource := by
  unfold projectionSource
  cases h : find raw r.projection r.sourceStart r.sourceEnd with
  | none => exact Nat.le_refl _
  | some i => exact (find_within h).1

/-- A projection that is found in its reference stays inside it. -/
theorem Reference.projectionSource_eq (r : Reference raw)
    (h : r.sourceEnd < r.projectionSource + r.projection.length) :
    r.projectionSource = r.sourceStart := by
  unfold projectionSource at h ⊢
  cases hfind : find raw r.projection r.sourceStart r.sourceEnd with
  | none => rfl
  | some i =>
    have := (find_within hfind).2
    rw [hfind, Option.getD_some] at h
    omega

/-- What a row says about its piece. -/
inductive RowOf (references : List (Reference raw)) (text : List Char) (s : ProjectionSpan) : Prop
  | literal (hliteral : s.Literal references) (hstart : s.textStart = s.rawStart)
      (hend : s.textEnd = s.rawEnd) (hlt : s.rawStart < s.rawEnd) (hlen : s.rawEnd ≤ raw.length)
      (hwidth : s.projectedStop = s.projectedStart + (s.rawEnd - s.rawStart))
      (htext : text.extract s.projectedStart s.projectedStop = raw.extract s.rawStart s.rawEnd)
  | replaced (r : Reference raw) (hr : r ∈ references) (hliteral : ¬ s.Literal references)
      (hrawStart : s.rawStart = r.sourceStart) (hrawEnd : s.rawEnd = r.sourceEnd)
      (hstart : s.textStart = r.projectionSource) (hne : r.projection ≠ [])
      (hwidth : s.projectedStop = s.projectedStart + r.projection.length)

theorem extract_middle (a b c : List Char) :
    (a ++ (b ++ c)).extract a.length (a.length + b.length) = b := by
  show ((a ++ (b ++ c)).drop a.length).take (a.length + b.length - a.length) = b
  rw [List.drop_left, Nat.add_sub_cancel_left, List.take_left]

theorem Piece.From.rowOf {before after : List (Piece raw)} {p : Piece raw}
    (h : p.From references) :
    RowOf references (texts (before ++ p :: after)) (p.row (texts before).length) := by
  cases p with
  | literal start stop =>
    obtain ⟨hlt, hlen, hout⟩ := h
    refine .literal hout rfl rfl hlt hlen ?_ ?_
    · show _ + (raw.extract start stop).length = _
      rw [length_extract raw hlen]
      rfl
    · rw [texts_append, texts_cons]
      exact extract_middle _ _ _
  | replaced r =>
    refine .replaced r h.1 ?_ rfl rfl rfl h.2 rfl
    intro hliteral
    have := hliteral r h.1
    have := r.nonempty
    simp only [Piece.row] at *
    omega

theorem rows_rowOf (h : Arranged 0 references) {s : ProjectionSpan}
    (hs : s ∈ layout 0 (pieces 0 references)) :
    RowOf references (texts (pieces 0 references)) s := by
  obtain ⟨before, p, after, hsplit, rfl⟩ := mem_layout.mp hs
  have hfrom := (pieces_from h p (hsplit ▸ by simp)).1
  rw [hsplit, Nat.zero_add]
  exact hfrom.rowOf

def Piece.stretch : Piece raw → Option (Nat × Nat)
  | .literal start stop => some (start, stop)
  | .replaced _ => none

theorem pieces_stretches (cursor : Nat) (references : List (Reference raw)) :
    (pieces cursor references).filterMap Piece.stretch =
      (gaps cursor references).filter fun g => g.1 < g.2 := by
  have hliteral (start stop : Nat) : (literalPiece raw start stop).filterMap Piece.stretch =
      [(start, stop)].filter fun g => g.1 < g.2 := by
    unfold literalPiece
    split <;> simp [Piece.stretch, *]
  induction references generalizing cursor with
  | nil => exact hliteral cursor raw.length
  | cons r rest ih =>
    have hpiece : r.piece.filterMap Piece.stretch = [] := by
      unfold Reference.piece
      split <;> simp [Piece.stretch]
    rw [pieces, List.filterMap_append, List.filterMap_append, hliteral, hpiece, ih, gaps,
      List.append_nil, ← List.filter_append]
    rfl

theorem layout_stretches {ps : List (Piece raw)} (h : ∀ p ∈ ps, p.From references) (offset : Nat) :
    ((layout offset ps).filter fun s => s.Literal references).map
        (fun s => (s.rawStart, s.rawEnd)) = ps.filterMap Piece.stretch := by
  induction ps generalizing offset with
  | nil => rfl
  | cons p rest ih =>
    have ih := ih (fun q hq => h q (List.mem_cons_of_mem _ hq)) (offset + p.text.length)
    have hp := h p List.mem_cons_self
    cases p with
    | literal start stop =>
      have hliteral : (Piece.row offset (.literal start stop : Piece raw)).Literal references :=
        hp.2.2
      rw [layout, List.filter_cons_of_pos (by simpa using hliteral), List.map_cons, ih]
      rfl
    | replaced r =>
      have hliteral : ¬ (Piece.row offset (.replaced r)).Literal references := by
        intro hliteral
        have := hliteral r hp.1
        have := r.nonempty
        simp only [Piece.row] at *
        omega
      rw [layout, List.filter_cons_of_neg (by simpa using hliteral), ih]
      rfl

/-- The literal rows are the gaps that are not empty. -/
theorem literal_rows (h : Arranged 0 references) :
    ((layout 0 (pieces 0 references)).filter fun s => s.Literal references).map
        (fun s => (s.rawStart, s.rawEnd)) =
      (gaps 0 references).filter fun g => g.1 < g.2 := by
  rw [layout_stretches fun p hp => (pieces_from h p hp).1, pieces_stretches]

/-! ## The trim and the rows -/

section Trim

variable {before after : List (Piece raw)} {p : Piece raw} {text : List Char}

/-- The strip cuts into the row's own text. -/
def Cut (text : List Char) (s : ProjectionSpan) : Prop :=
  s.projectedStart < leading text ∨ text.length - trailing text < s.projectedStop

theorem cut_iff (hp : p.text ≠ []) :
    Cut (texts (before ++ p :: after)) (p.row (texts before).length) ↔
      (blank (texts before) = true ∧ p.text.head?.any isSpace = true) ∨
        (blank (texts after) = true ∧ p.text.getLast?.any isSpace = true) := by
  have hne : p.text ++ texts after ≠ [] := by simp [hp]
  have hhead : (p.text ++ texts after).head? = p.text.head? := by
    cases h : p.text with
    | nil => exact absurd h hp
    | cons c rest => rfl
  have hlast : (texts before ++ p.text).getLast? = p.text.getLast? :=
    List.getLast?_append_of_ne_nil _ hp
  have hleft := lt_leading_append (a := texts before) hne
  have hright := lt_trailing_append (b := texts before ++ p.text) (c := texts after) (by simp [hp])
  rw [hhead] at hleft
  rw [hlast, List.append_assoc] at hright
  have hle := trailing_le (texts before ++ (p.text ++ texts after))
  rw [texts_append, texts_cons, ← hleft, ← hright]
  unfold Cut
  rw [Piece.row_projectedStart, Piece.row_projectedStop]
  simp only [List.length_append] at hle ⊢
  omega

theorem row_meets_iff :
    meets (·.projectedStart) (·.projectedStop) (leading (texts (before ++ p :: after)))
        ((texts (before ++ p :: after)).length - trailing (texts (before ++ p :: after)))
        (p.row (texts before).length) = true ↔
      blank (texts before ++ p.text) = false ∧ blank (p.text ++ texts after) = false := by
  have hleft := le_leading_append (texts before ++ p.text) (texts after)
  have hright := le_trailing_append (texts before) (p.text ++ texts after)
  have hle := trailing_le (texts before ++ (p.text ++ texts after))
  rw [List.append_assoc] at hleft
  rw [meets_iff, texts_append, texts_cons, ← Bool.not_eq_true, ← Bool.not_eq_true, ← hleft,
    ← hright, Piece.row_projectedStart, Piece.row_projectedStop]
  simp only [List.length_append] at hle ⊢
  omega

theorem Reference.outer (r : Reference raw) (hne : r.projection ≠ []) :
    blank r.projection = false ∧ r.projection.head?.any isSpace = false ∧
      r.projection.getLast?.any isSpace = false := by
  have hpos := List.length_pos_iff.mpr hne
  have hlen := length_strip r.projection
  rw [r.stripped] at hlen
  have hleft := lt_leading_append (a := []) hne
  have hright := lt_trailing_append (b := r.projection) (c := []) hne
  rw [List.nil_append] at hleft
  rw [List.append_nil] at hright
  refine ⟨?_, ?_, ?_⟩
  · cases hblank : blank r.projection with
    | false => rfl
    | true =>
      have := leading_of_blank hblank
      omega
  · cases hhead : r.projection.head?.any isSpace with
    | false => rfl
    | true =>
      have := hleft.mpr ⟨rfl, hhead⟩
      omega
  · cases hlast : r.projection.getLast?.any isSpace with
    | false => rfl
    | true =>
      have := hright.mpr ⟨rfl, hlast⟩
      omega

/-- A replaced row keeps its whole projection. -/
theorem replaced_kept (r : Reference raw) (hne : r.projection ≠ []) :
    meets (·.projectedStart) (·.projectedStop)
        (leading (texts (before ++ .replaced r :: after)))
        ((texts (before ++ .replaced r :: after)).length -
          trailing (texts (before ++ .replaced r :: after)))
        (Piece.row (texts before).length (.replaced r)) = true ∧
      ¬ Cut (texts (before ++ .replaced r :: after))
        (Piece.row (texts before).length (.replaced r)) := by
  obtain ⟨hblank, hhead, hlast⟩ := r.outer hne
  constructor
  · rw [row_meets_iff, blank_append, blank_append]
    simp [Piece.text, hblank]
  · rw [cut_iff (p := .replaced r) hne]
    simp [Piece.text, hhead, hlast]

end Trim

/-! ## The projected paragraph -/

def substituted (references : List (Reference raw)) : List Char := texts (pieces 0 references)

def untrimmed (references : List (Reference raw)) : List ProjectionSpan :=
  layout 0 (pieces 0 references)

/-- The row keeps some of its text. -/
def Kept (references : List (Reference raw)) (s : ProjectionSpan) : Bool :=
  meets (·.projectedStart) (·.projectedStop) (leading (substituted references))
    ((substituted references).length - trailing (substituted references)) s

theorem kept_iff {s : ProjectionSpan} : Kept references s = true ↔
    leading (substituted references) < s.projectedStop ∧
      s.projectedStart < (substituted references).length - trailing (substituted references) :=
  meets_iff

/-- What is left of a row. -/
def trimmed (references : List (Reference raw)) (s : ProjectionSpan) : ProjectionSpan :=
  s.adjust (leading (substituted references))
    ((substituted references).length - trailing (substituted references))

def projected (references : List (Reference raw)) : Projection :=
  (projectReferences references).trim

theorem trim_text (p : Projecting) : p.trim.text = strip p.result := by
  unfold Projecting.trim Projection.text
  by_cases h : strip p.result = [] <;> simp [h]

theorem projected_text (references : List (Reference raw)) :
    (projected references).text = (substituted references).extract
      (leading (substituted references))
      ((substituted references).length - trailing (substituted references)) := by
  rw [projected, trim_text, (projectReferences_eq references).1, strip_eq_extract]
  rfl

theorem projected_spans (references : List (Reference raw)) :
    (projected references).spans =
      ((untrimmed references).filter (Kept references)).map (trimmed references) := by
  show ((projectReferences references).spans.filter _).map _ = _
  rw [(projectReferences_eq references).1, (projectReferences_eq references).2]
  rfl

theorem trimmed_literal {s : ProjectionSpan} :
    (trimmed references s).Literal references ↔ s.Literal references := Iff.rfl

theorem length_projected (references : List (Reference raw)) :
    (projected references).text.length = (substituted references).length -
      trailing (substituted references) - leading (substituted references) := by
  rw [projected_text, length_extract _ (Nat.sub_le _ _)]

/-- A row that stays says which piece of the paragraph it shows. -/
theorem untrimmed_rowOf (h : Arranged 0 references) {s : ProjectionSpan}
    (hs : s ∈ untrimmed references) : RowOf references (substituted references) s :=
  rows_rowOf h hs

theorem untrimmed_tiles (h : Arranged 0 references) :
    Tiles (·.projectedStart) (·.projectedStop) 0 (untrimmed references)
      (substituted references).length := by
  have htiles : Tiles (·.projectedStart) (·.projectedStop) 0 (untrimmed references)
      (0 + (substituted references).length) :=
    layout_tiles fun p hp => (pieces_from h p hp).1.text_ne_nil
  rwa [Nat.zero_add] at htiles

theorem untrimmed_pairwise (h : Arranged 0 references) :
    (untrimmed references).Pairwise Precedes :=
  layout_pairwise (fun p hp => (pieces_from h p hp).1.text_ne_nil) (pieces_pairwise h)

/-- The rows tile the projected text, whatever the strip takes. -/
theorem projected_tiles (h : Arranged 0 references) :
    Tiles (·.projectedStart) (·.projectedStop) 0 (projected references).spans
      (projected references).text.length := by
  rw [projected_spans, length_projected, Tiling.tiles_map]
  cases hblank : blank (substituted references) with
  | true =>
    have hall : (untrimmed references).filter (Kept references) = [] := by
      rw [List.filter_eq_nil_iff]
      intro s hs hkept
      have hkept := (kept_iff.mp hkept).1
      have hstop := ((untrimmed_tiles h).mem hs).2.2
      rw [leading_of_blank hblank] at hkept
      omega
    rw [hall, leading_of_blank hblank, trailing_of_blank hblank]
    show 0 = _
    omega
  | false =>
    have hlt := leading_add_trailing_lt hblank
    have hclip := ((untrimmed_tiles h).clip (x := leading (substituted references))
      (y := (substituted references).length - trailing (substituted references))
      (by omega)).shift (x := leading (substituted references)) (Nat.le_max_left _ _)
    have hlo : Tiling.clamp (leading (substituted references)) ((substituted references).length -
        trailing (substituted references)) 0 - leading (substituted references) = 0 := by
      simp only [Tiling.clamp]
      omega
    have hhi : Tiling.clamp (leading (substituted references)) ((substituted references).length -
        trailing (substituted references)) (substituted references).length -
          leading (substituted references) = (substituted references).length -
            trailing (substituted references) - leading (substituted references) := by
      simp only [Tiling.clamp]
      omega
    rw [hlo, hhi] at hclip
    exact hclip

/-! ## Rows that are not cut -/

/-- No row that stays is cut. -/
def Whole (references : List (Reference raw)) : Prop :=
  ∀ s ∈ untrimmed references, Kept references s = true → ¬ Cut (substituted references) s

theorem whole_iff_intact (h : Arranged 0 references) : Whole references ↔ Intact references := by
  constructor
  · intro hwhole before start stop after hsplit hvisible
    have hfrom := (pieces_from h (.literal start stop) (hsplit ▸ by simp)).1
    have hkept : Kept references (Piece.row (texts before).length (.literal start stop : Piece raw)) =
        true := by
      unfold Kept substituted
      rw [hsplit, row_meets_iff, blank_append, blank_append]
      simp [Piece.text, hvisible]
    have hmem : Piece.row (texts before).length (.literal start stop : Piece raw) ∈
        untrimmed references := mem_layout.mpr ⟨before, _, after, hsplit, by rw [Nat.zero_add]⟩
    have hcut := hwhole _ hmem hkept
    unfold substituted at hcut
    rw [hsplit, cut_iff hfrom.text_ne_nil] at hcut
    exact not_or.mp hcut
  · intro hintact s hs hkept
    obtain ⟨before, p, after, hsplit, rfl⟩ := mem_layout.mp hs
    have hfrom := (pieces_from h p (hsplit ▸ by simp)).1
    unfold Kept at hkept
    unfold substituted at hkept ⊢
    rw [hsplit, Nat.zero_add] at hkept ⊢
    cases p with
    | replaced r => exact (replaced_kept r hfrom.2).2
    | literal start stop =>
      rw [cut_iff hfrom.text_ne_nil]
      rw [row_meets_iff, blank_append, blank_append] at hkept
      show ¬ (_ ∨ _)
      rw [not_or]
      cases hblank : blank (raw.extract start stop) with
      | false => exact hintact before start stop after hsplit hblank
      | true =>
        -- a stretch of whitespace stays only between visible texts
        simp only [Piece.text, hblank, Bool.and_true, Bool.true_and] at hkept
        simp [hkept.1, hkept.2]

/-- Where no row is cut, a row that stays shows its text at its new place. -/
theorem trimmed_extract {s : ProjectionSpan} (hkept : Kept references s = true)
    (hcut : ¬ Cut (substituted references) s) :
    (projected references).text.extract (trimmed references s).projectedStart
        (trimmed references s).projectedStop =
      (substituted references).extract s.projectedStart s.projectedStop := by
  obtain ⟨hstop, hstart⟩ := kept_iff.mp hkept
  have hleft : leading (substituted references) ≤ s.projectedStart :=
    Nat.le_of_not_lt fun hlt => hcut (.inl hlt)
  have hright : s.projectedStop ≤ (substituted references).length -
      trailing (substituted references) := Nat.le_of_not_lt fun hlt => hcut (.inr hlt)
  rw [projected_text, extract_extract]
  simp only [trimmed, ProjectionSpan.adjust]
  congr 1 <;> omega

theorem literal_exact_iff (h : Arranged 0 references) :
    (∀ s ∈ (projected references).spans, s.Literal references →
      (projected references).text.extract s.projectedStart s.projectedStop =
        raw.extract s.textStart s.textEnd) ↔ Whole references := by
  have htiles := projected_tiles h
  rw [projected_spans] at htiles ⊢
  constructor
  · intro hexact s hs hkept
    have hmem : trimmed references s ∈
        ((untrimmed references).filter (Kept references)).map (trimmed references) :=
      List.mem_map_of_mem (List.mem_filter.mpr ⟨hs, hkept⟩)
    cases untrimmed_rowOf h hs with
    | literal hliteral hstart hend hlt hlen hwidth htext =>
      -- a cut would leave fewer characters than the source has
      have hlength := congrArg List.length (hexact _ hmem hliteral)
      have hstop := (htiles.mem hmem).2.2
      rw [length_extract _ hstop] at hlength
      have hraw : (raw.extract (trimmed references s).textStart (trimmed references s).textEnd).length
          = s.rawEnd - s.rawStart := by
        show (raw.extract s.textStart s.textEnd).length = _
        rw [hstart, hend, length_extract raw hlen]
      rw [hraw] at hlength
      have hkept := kept_iff.mp hkept
      simp only [trimmed, ProjectionSpan.adjust] at hlength
      unfold Cut
      omega
    | replaced r hr hliteral hrawStart hrawEnd hstart hne hwidth =>
      obtain ⟨before, p, after, hsplit, rfl⟩ := mem_layout.mp hs
      have hfrom := (pieces_from h p (hsplit ▸ by simp)).1
      cases p with
      | literal start stop => exact absurd hfrom.2.2 hliteral
      | replaced r =>
        unfold substituted
        rw [hsplit, Nat.zero_add]
        exact (replaced_kept r hfrom.2).2
  · intro hwhole s hs hliteral
    obtain ⟨t, ht, rfl⟩ := List.mem_map.mp hs
    obtain ⟨ht, hkept⟩ := List.mem_filter.mp ht
    rw [trimmed_extract hkept (hwhole t ht hkept)]
    cases untrimmed_rowOf h ht with
    | literal _ hstart hend _ _ _ htext =>
      show _ = raw.extract t.textStart t.textEnd
      rw [htext, hstart, hend]
    | replaced _ _ hnot => exact absurd hliteral hnot

theorem replaced_exact (h : Arranged 0 references) :
    ∀ s ∈ (projected references).spans, ¬ s.Literal references →
      ∃ r ∈ references, s.rawStart = r.sourceStart ∧ s.rawEnd = r.sourceEnd := by
  intro s hs hliteral
  rw [projected_spans] at hs
  obtain ⟨t, ht, rfl⟩ := List.mem_map.mp hs
  cases untrimmed_rowOf h (List.mem_filter.mp ht).1 with
  | literal hnot => exact absurd hnot hliteral
  | replaced r hr _ hrawStart hrawEnd => exact ⟨r, hr, hrawStart, hrawEnd⟩

/-! ## Windows onto the projected text -/

/-- Dropping what shows nothing does not change what is shown. -/
theorem map_filter_nonempty {α β : Type} {xs : List α} {keep : α → Bool} {f : α → List β}
    (g : α → List β) (hkeep : ∀ a ∈ xs, keep a = true → f a = g a)
    (hdrop : ∀ a ∈ xs, keep a = false → g a = []) :
    ((xs.filter keep).map f).filter (!·.isEmpty) = (xs.map g).filter (!·.isEmpty) := by
  induction xs with
  | nil => rfl
  | cons a rest ih =>
    have ih := ih (fun b hb => hkeep b (List.mem_cons_of_mem _ hb))
      fun b hb => hdrop b (List.mem_cons_of_mem _ hb)
    cases ha : keep a with
    | false =>
      rw [List.filter_cons_of_neg (by simpa using ha), ih, List.map_cons,
        hdrop a List.mem_cons_self ha]
      rfl
    | true =>
      rw [List.filter_cons_of_pos ha, List.map_cons, List.map_cons, List.filter_cons,
        List.filter_cons, ih, hkeep a List.mem_cons_self ha]

theorem parts_gaps (h : Arranged 0 references) (start stop : Nat) :
    parts raw (gaps 0 references) start stop =
      (((untrimmed references).filter fun s => s.Literal references).map fun s =>
        raw.extract (max start s.rawStart) (min stop s.rawEnd)).filter (!·.isEmpty) := by
  have hrows : ((untrimmed references).filter fun s => s.Literal references).map
      (fun s => raw.extract (max start s.rawStart) (min stop s.rawEnd)) =
      ((gaps 0 references).filter fun g => g.1 < g.2).map fun g =>
        raw.extract (max start g.1) (min stop g.2) := by
    rw [← literal_rows h, List.map_map]
    rfl
  rw [hrows]
  refine (map_filter_nonempty _ (fun _ _ _ => rfl) ?_).symm
  intro g _ hg
  have hg : ¬ g.1 < g.2 := by simpa using hg
  exact extract_of_le raw (by omega)

/-- The chunk's literal parts, read off the text before the strip. -/
theorem parts_literals {start stop : Nat} (hlt : start < stop)
    (hstop : stop ≤ (projected references).text.length) :
    parts (projected references).text ((projected references).literals references) start stop =
      (((untrimmed references).filter fun s => s.Literal references).map fun s =>
        (substituted references).extract
          (max (start + leading (substituted references)) s.projectedStart)
          (min (stop + leading (substituted references)) s.projectedStop)).filter
            (!·.isEmpty) := by
  have hkept (s : ProjectionSpan) (hs : Kept references s = true) :
      (projected references).text.extract (max start (trimmed references s).projectedStart)
          (min stop (trimmed references s).projectedStop) =
        (substituted references).extract
          (max (start + leading (substituted references)) s.projectedStart)
          (min (stop + leading (substituted references)) s.projectedStop) := by
    have hs := kept_iff.mp hs
    rw [length_projected] at hstop
    rw [projected_text, extract_extract]
    simp only [trimmed, ProjectionSpan.adjust]
    congr 1 <;> omega
  have hgone (s : ProjectionSpan) (hs : Kept references s = false) :
      (substituted references).extract
          (max (start + leading (substituted references)) s.projectedStart)
          (min (stop + leading (substituted references)) s.projectedStop) = [] := by
    have hs : ¬ (_ ∧ _) := fun hk => Bool.false_ne_true (hs.symm.trans (kept_iff.mpr hk))
    rw [length_projected] at hstop
    apply extract_of_le
    omega
  have hrows : (((untrimmed references).filter (Kept references)).map (trimmed references)).filter
      (fun s => s.Literal references) =
      (((untrimmed references).filter fun s => s.Literal references).filter (Kept references)).map
        (trimmed references) := by
    rw [List.filter_map, List.filter_filter, List.filter_filter]
    congr 2
    funext s
    exact Bool.and_comm _ _
  unfold parts Projection.literals
  rw [projected_spans, hrows, List.map_map, List.map_map]
  exact map_filter_nonempty _ (fun s _ hs => hkept s hs) fun s _ hs => hgone s hs

/-! ## Source bounds of a cut -/

def ProjectionSpan.rowStart (s : ProjectionSpan) (start : Nat) : Nat :=
  if start ≤ s.projectedStart then s.rawStart else s.textStart + start - s.projectedStart

def ProjectionSpan.rowEnd (s : ProjectionSpan) (stop : Nat) : Nat :=
  if s.projectedStop ≤ stop then s.rawEnd else s.textStart + stop - s.projectedStart

/-- A cut inside the projected text has bounds, read off the rows at its two ends. -/
theorem projectedRawBounds_eq (h : Arranged 0 references) (hwhole : Whole references)
    {start stop : Nat} (hlt : start < stop) (hstop : stop ≤ (projected references).text.length) :
    ∃ first ∈ untrimmed references, ∃ last ∈ untrimmed references,
      (first.projectedStart ≤ start + leading (substituted references) ∧
        start + leading (substituted references) < first.projectedStop) ∧
      (last.projectedStart < stop + leading (substituted references) ∧
        stop + leading (substituted references) ≤ last.projectedStop) ∧
      projectedRawBounds (projected references).spans start stop =
        some (first.rowStart (start + leading (substituted references)),
          last.rowEnd (stop + leading (substituted references))) := by
  have htiles := projected_tiles h
  obtain ⟨first', hfirst', hhead, hfirst⟩ :=
    htiles.meets_head (Nat.zero_le start) (Nat.lt_of_lt_of_le hlt hstop) hlt
  obtain ⟨last', hlast', hgetLast, hlast⟩ :=
    htiles.meets_last (Nat.zero_lt_of_lt hlt) hstop hlt
  have hbounds : projectedRawBounds (projected references).spans start stop =
      some (first'.rowStart start, last'.rowEnd stop) := by
    unfold projectedRawBounds
    simp only [hhead, hgetLast]
    rfl
  rw [projected_spans] at hfirst' hlast'
  obtain ⟨first, hf, rfl⟩ := List.mem_map.mp hfirst'
  obtain ⟨last, hl, rfl⟩ := List.mem_map.mp hlast'
  obtain ⟨hf, hfkept⟩ := List.mem_filter.mp hf
  obtain ⟨hl, hlkept⟩ := List.mem_filter.mp hl
  have hfcut := hwhole first hf hfkept
  have hlcut := hwhole last hl hlkept
  unfold Cut at hfcut hlcut
  have hfkept := kept_iff.mp hfkept
  have hlkept := kept_iff.mp hlkept
  simp only [trimmed, ProjectionSpan.adjust] at hfirst hlast
  refine ⟨first, hf, last, hl, by omega, by omega, ?_⟩
  have hstarts : (trimmed references first).rowStart start =
      first.rowStart (start + leading (substituted references)) := by
    have hle : start ≤ max first.projectedStart (leading (substituted references)) -
        leading (substituted references) ↔
          start + leading (substituted references) ≤ first.projectedStart := by omega
    simp only [trimmed, ProjectionSpan.adjust, ProjectionSpan.rowStart, hle]
    split
    · rfl
    · omega
  have hstops : (trimmed references last).rowEnd stop =
      last.rowEnd (stop + leading (substituted references)) := by
    have hle : min last.projectedStop ((substituted references).length -
        trailing (substituted references)) - leading (substituted references) ≤ stop ↔
          last.projectedStop ≤ stop + leading (substituted references) := by omega
    simp only [trimmed, ProjectionSpan.adjust, ProjectionSpan.rowEnd, hle]
    split
    · rfl
    · omega
  rw [hbounds, hstarts, hstops]

theorem precedes_or {s t : ProjectionSpan} (h : Arranged 0 references)
    (hs : s ∈ untrimmed references) (ht : t ∈ untrimmed references) :
    s = t ∨ Precedes s t ∨ Precedes t s := by
  by_cases heq : s = t
  · exact .inl heq
  · have hsymm : Std.Symm fun a b : ProjectionSpan => Precedes a b ∨ Precedes b a :=
      ⟨fun _ _ => Or.symm⟩
    have hpairwise : (untrimmed references).Pairwise fun a b => Precedes a b ∨ Precedes b a :=
      (untrimmed_pairwise h).imp Or.inl
    exact .inr (hpairwise.forall hs ht heq)

theorem rawStart_le_textStart {s : ProjectionSpan} (h : Arranged 0 references)
    (hs : s ∈ untrimmed references) : s.rawStart ≤ s.textStart := by
  cases untrimmed_rowOf h hs with
  | literal _ hstart => exact Nat.le_of_eq hstart.symm
  | replaced r _ _ hrawStart _ hstart =>
    rw [hrawStart, hstart]
    exact r.projectionSource_ge

/-- No offset inside a row reaches the literal text after it. -/
theorem Contained.row (h : Arranged 0 references) (hcontained : Contained references)
    {s t : ProjectionSpan} (hs : s ∈ untrimmed references) (ht : t ∈ untrimmed references)
    (hliteral : t.Literal references) (hst : Precedes s t) :
    s.textStart + (s.projectedStop - s.projectedStart) ≤ t.rawStart + 1 := by
  have hafter := hst.2
  cases untrimmed_rowOf h hs with
  | literal _ hstart _ hlt _ hwidth => omega
  | replaced r hr _ _ hrawEnd hstart _ hwidth =>
    cases untrimmed_rowOf h ht with
    | replaced _ _ hnot => exact absurd hliteral hnot
    | literal _ _ _ hlt hlen =>
      have hout : ∀ r' ∈ references, t.rawStart < r'.sourceStart ∨ r'.sourceEnd ≤ t.rawStart := by
        intro r' hr'
        rcases hliteral r' hr' with hle | hle
        · exact .inl (by omega)
        · exact .inr hle
      have := hcontained r hr t.rawStart (by omega) (by omega) hout
      omega

section Blocks

variable {s t : ProjectionSpan} {position : Nat}

/-- A cut's start splits every literal row as the recorded start splits its source. -/
theorem start_splits (h : Arranged 0 references) (hcontained : Contained references)
    (hs : s ∈ untrimmed references) (ht : t ∈ untrimmed references)
    (hliteral : t.Literal references) (hstart : s.projectedStart ≤ position)
    (hstop : position < s.projectedStop) :
    min (position - t.projectedStart) (t.projectedStop - t.projectedStart) =
      min (s.rowStart position - t.rawStart) (t.projectedStop - t.projectedStart) := by
  have htext := rawStart_le_textStart h hs
  unfold ProjectionSpan.rowStart
  rcases precedes_or h ht hs with rfl | hts | hst
  · cases untrimmed_rowOf h ht with
    | replaced _ _ hnot => exact absurd hliteral hnot
    | literal _ hraw => split <;> omega
  · obtain ⟨hprojected, hraw⟩ := hts
    cases untrimmed_rowOf h ht with
    | replaced _ _ hnot => exact absurd hliteral hnot
    | literal _ _ _ _ _ hwidth => split <;> omega
  · have hreach := hcontained.row h hs ht hliteral hst
    obtain ⟨hprojected, hraw⟩ := hst
    split <;> omega

theorem stop_splits (h : Arranged 0 references) (hcontained : Contained references)
    (hs : s ∈ untrimmed references) (ht : t ∈ untrimmed references)
    (hliteral : t.Literal references) (hstart : s.projectedStart < position)
    (hstop : position ≤ s.projectedStop) :
    min (position - t.projectedStart) (t.projectedStop - t.projectedStart) =
      min (s.rowEnd position - t.rawStart) (t.projectedStop - t.projectedStart) := by
  have htext := rawStart_le_textStart h hs
  unfold ProjectionSpan.rowEnd
  rcases precedes_or h ht hs with rfl | hts | hst
  · cases untrimmed_rowOf h ht with
    | replaced _ _ hnot => exact absurd hliteral hnot
    | literal _ hraw _ _ _ hwidth => split <;> omega
  · obtain ⟨hprojected, hraw⟩ := hts
    cases untrimmed_rowOf h ht with
    | replaced _ _ hnot => exact absurd hliteral hnot
    | literal _ _ _ _ _ hwidth =>
      cases untrimmed_rowOf h hs with
      | literal _ _ _ hlt => split <;> omega
      | replaced r _ _ hrawStart hrawEnd =>
        have := r.nonempty
        split <;> omega
  · have hreach := hcontained.row h hs ht hliteral hst
    obtain ⟨hprojected, hraw⟩ := hst
    split <;> omega

end Blocks

theorem cuts_exact (h : Arranged 0 references) (hwhole : Whole references)
    (hcontained : Contained references) {start stop : Nat} (hlt : start < stop)
    (hstop : stop ≤ (projected references).text.length) : ∃ rawStart rawEnd,
      projectedRawBounds (projected references).spans start stop = some (rawStart, rawEnd) ∧
        parts raw (gaps 0 references) rawStart rawEnd =
          parts (projected references).text ((projected references).literals references) start
            stop := by
  obtain ⟨first, hfirst, last, hlast, hstart, hend, hbounds⟩ :=
    projectedRawBounds_eq h hwhole hlt hstop
  refine ⟨_, _, hbounds, ?_⟩
  rw [parts_gaps h, parts_literals hlt hstop]
  congr 1
  apply List.map_congr_left
  intro t ht
  obtain ⟨ht, hliteral⟩ := List.mem_filter.mp ht
  have hliteral : t.Literal references := by simpa using hliteral
  have hstarts := start_splits h hcontained hfirst ht hliteral hstart.1 hstart.2
  have hstops := stop_splits h hcontained hlast ht hliteral hend.1 hend.2
  cases untrimmed_rowOf h ht with
  | replaced _ _ hnot => exact absurd hliteral hnot
  | literal _ _ _ hrawlt _ hwidth htext =>
    have hraw : t.rawEnd = t.rawStart + (t.projectedStop - t.projectedStart) := by omega
    have hproj : t.projectedStop = t.projectedStart + (t.projectedStop - t.projectedStart) := by
      omega
    rw [hraw] at htext ⊢
    rw [extract_block, hproj, extract_block, ← hproj, htext, hstarts, hstops]

/-! ## A projection that reaches too far -/

theorem replaced_mem (cursor : Nat) {r : Reference raw} (hr : r ∈ references)
    (hne : r.projection ≠ []) : .replaced r ∈ pieces cursor references := by
  induction references generalizing cursor with
  | nil => cases hr
  | cons first rest ih =>
    rw [pieces, List.mem_append, List.mem_append]
    rcases List.mem_cons.mp hr with rfl | hr
    · exact .inl (.inr (Reference.mem_piece.mpr ⟨hne, rfl⟩))
    · exact .inr (ih _ hr)

/-- A position outside all references lies in a literal piece. -/
theorem literal_at {cursor position : Nat} (hle : cursor ≤ position) (hlt : position < raw.length)
    (hout : ∀ r ∈ references, position < r.sourceStart ∨ r.sourceEnd ≤ position) :
    ∃ start stop, .literal start stop ∈ pieces cursor references ∧ start ≤ position ∧
      position < stop := by
  induction references generalizing cursor with
  | nil => exact ⟨cursor, raw.length, mem_literalPiece.mpr ⟨by omega, rfl⟩, hle, hlt⟩
  | cons r rest ih =>
    rcases hout r List.mem_cons_self with hbefore | hafter
    · refine ⟨cursor, r.sourceStart, ?_, hle, hbefore⟩
      rw [pieces, List.mem_append, List.mem_append]
      exact .inl (.inl (mem_literalPiece.mpr ⟨by omega, rfl⟩))
    · obtain ⟨start, stop, hmem, h⟩ :=
        ih hafter fun r' hr' => hout r' (List.mem_cons_of_mem _ hr')
      refine ⟨start, stop, ?_, h⟩
      rw [pieces, List.mem_append]
      exact .inr hmem

theorem row_of_piece {p : Piece raw} (hp : p ∈ pieces 0 references) :
    ∃ before after, pieces 0 references = before ++ p :: after ∧
      p.row (texts before).length ∈ untrimmed references := by
  obtain ⟨before, after, hsplit⟩ := List.append_of_mem hp
  exact ⟨before, after, hsplit, mem_layout.mpr ⟨before, p, after, hsplit, by rw [Nat.zero_add]⟩⟩

theorem sum_length_nonempty {α : Type} (xss : List (List α)) :
    (xss.filter (!·.isEmpty)).flatten.length = (xss.map List.length).sum := by
  rw [List.flatten_filter_not_isEmpty, List.length_flatten]

/-- The cut that ends one character before the end of such a projection. -/
theorem cut_overreaches (h : Arranged 0 references) (hwhole : Whole references)
    {s t : ProjectionSpan} (hs : s ∈ untrimmed references) (ht : t ∈ untrimmed references)
    (hkept : Kept references s = true) (hnot : ¬ s.Literal references)
    (hliteral : t.Literal references) (hst : Precedes s t)
    (hwidth : s.projectedStart + 1 < s.projectedStop)
    (hreach : t.rawStart + 1 < s.textStart + (s.projectedStop - s.projectedStart)) :
    ∃ stop, 0 < stop ∧ stop ≤ (projected references).text.length ∧ ∀ rawStart rawEnd,
      projectedRawBounds (projected references).spans 0 stop = some (rawStart, rawEnd) →
        parts raw (gaps 0 references) rawStart rawEnd ≠
          parts (projected references).text ((projected references).literals references) 0 stop := by
  have hcut := hwhole s hs hkept
  unfold Cut at hcut
  have hkept := kept_iff.mp hkept
  have hstop : s.projectedStop - 1 - leading (substituted references) ≤
      (projected references).text.length := by
    rw [length_projected]
    omega
  have hpos : 0 < s.projectedStop - 1 - leading (substituted references) := by omega
  refine ⟨s.projectedStop - 1 - leading (substituted references), hpos, hstop, ?_⟩
  intro rawStart rawEnd hbounds heq
  obtain ⟨first, hfirst, last, hlast, hstarts, hends, hformula⟩ :=
    projectedRawBounds_eq h hwhole hpos hstop
  rw [hformula, Option.some.injEq, Prod.mk.injEq] at hbounds
  obtain ⟨rfl, rfl⟩ := hbounds
  have hposition : s.projectedStop - 1 - leading (substituted references) +
      leading (substituted references) = s.projectedStop - 1 := by omega
  rw [hposition] at hends heq
  rw [Nat.zero_add] at hstarts heq
  -- the last row of the cut is the projection's own
  have hlastrow : last = s := by
    rcases precedes_or h hlast hs with heq | hprec | hprec
    · exact heq
    · have := hprec.1
      omega
    · have := hprec.1
      omega
  subst hlastrow
  have hend : last.rowEnd (last.projectedStop - 1) =
      last.textStart + (last.projectedStop - 1) - last.projectedStart := by
    unfold ProjectionSpan.rowEnd
    rw [if_neg (by omega)]
  -- the first row starts where the projected text does
  have hfirstcut := hwhole first hfirst (kept_iff.mpr ⟨by omega, by omega⟩)
  unfold Cut at hfirstcut
  have hstart : first.rowStart (leading (substituted references)) = first.rawStart := by
    unfold ProjectionSpan.rowStart
    rw [if_pos (by omega)]
  have htext := rawStart_le_textStart h hs
  rw [hend, hstart, parts_gaps h, parts_literals hpos hstop, Nat.zero_add, hposition] at heq
  have hsum := congrArg (fun xss : List (List Char) => xss.flatten.length) heq
  simp only [sum_length_nonempty, List.map_map] at hsum
  -- every literal row shows at least as much of its source, and one shows more
  refine Nat.ne_of_gt (List.sum_lt_sum _ _ ?_ ⟨t, ?_, ?_⟩) hsum
  · intro u hu
    obtain ⟨hu, huliteral⟩ := List.mem_filter.mp hu
    have huliteral : u.Literal references := by simpa using huliteral
    have hustop := ((untrimmed_tiles h).mem hu).2.2
    have hus := precedes_or h hu hs
    have huf := precedes_or h hu hfirst
    cases untrimmed_rowOf h hu with
    | replaced _ _ hnot => exact absurd huliteral hnot
    | literal _ _ _ hlt hlen hw =>
      simp only [Function.comp_apply]
      rw [length_extract _ (by omega), length_extract _ (by omega)]
      rcases hus with rfl | hus | hus
      · exact absurd huliteral hnot
      · obtain ⟨hus, hus'⟩ := hus
        rcases huf with rfl | huf | huf
        · omega
        · obtain ⟨huf, -⟩ := huf
          omega
        · obtain ⟨huf, huf'⟩ := huf
          cases untrimmed_rowOf h hfirst with
          | literal _ _ _ hflt => omega
          | replaced r _ _ hrs hre =>
            have := r.nonempty
            omega
      · obtain ⟨hus, -⟩ := hus
        omega
  · exact List.mem_filter.mpr ⟨ht, by simpa using hliteral⟩
  · have htstop := ((untrimmed_tiles h).mem ht).2.2
    have htf := precedes_or h ht hfirst
    obtain ⟨hst, hst'⟩ := hst
    cases untrimmed_rowOf h ht with
    | replaced _ _ hnot => exact absurd hliteral hnot
    | literal _ _ _ hlt hlen hw =>
      simp only [Function.comp_apply]
      rw [length_extract _ (by omega), length_extract _ (by omega)]
      rcases htf with rfl | htf | htf
      · omega
      · obtain ⟨htf, -⟩ := htf
        omega
      · obtain ⟨-, htf⟩ := htf
        cases untrimmed_rowOf h hfirst with
        | literal _ _ _ hflt => omega
        | replaced r _ _ hrs hre =>
          have := r.nonempty
          omega

theorem contained_of_cuts (h : Arranged 0 references) (hwhole : Whole references)
    (hcuts : ∀ start stop, start < stop → stop ≤ (projected references).text.length →
      ∃ rawStart rawEnd,
        projectedRawBounds (projected references).spans start stop = some (rawStart, rawEnd) ∧
          parts raw (gaps 0 references) rawStart rawEnd =
            parts (projected references).text ((projected references).literals references) start
              stop) : Contained references := by
  intro r hr position hlen hafter hout
  apply Nat.le_of_not_lt
  intro hreach
  have hrne := r.nonempty
  have hsource := r.projectionSource_eq (by omega)
  have hne : r.projection ≠ [] := by
    intro hnil
    rw [hnil, List.length_nil] at hreach
    omega
  -- the row of the reference, and the literal row its offsets reach
  obtain ⟨before, after, hsplit, hrow⟩ := row_of_piece (replaced_mem 0 hr hne)
  obtain ⟨start, stop, hmem, hposition⟩ := literal_at (Nat.zero_le position) hlen hout
  obtain ⟨before', after', hsplit', hrow'⟩ := row_of_piece hmem
  have hliteral := (pieces_from h _ hmem).1.2.2
  have hkept : Kept references (Piece.row (texts before).length (.replaced r)) = true := by
    unfold Kept substituted
    rw [hsplit]
    exact (replaced_kept r hne).1
  have hnot : ¬ (Piece.row (texts before).length (.replaced r)).Literal references := by
    intro hliteral
    have := hliteral r hr
    simp only [Piece.row] at this
    omega
  have hprecedes : Precedes (Piece.row (texts before).length (.replaced r))
      (Piece.row (texts before').length (.literal start stop : Piece raw)) := by
    rcases precedes_or h hrow hrow' with heq | hprec | hprec
    · exact absurd (heq ▸ hliteral) hnot
    · exact hprec
    · have := hprec.2
      simp only [Piece.row] at this
      omega
  obtain ⟨stop', hpos, hstop', hwrong⟩ := cut_overreaches h hwhole hrow hrow' hkept hnot hliteral
    hprecedes (by simp only [Piece.row]; omega) (by simp only [Piece.row]; omega)
  obtain ⟨rawStart, rawEnd, hbounds, hparts⟩ := hcuts 0 stop' hpos hstop'
  exact hwrong rawStart rawEnd hbounds hparts

/-! ## Exactness -/

theorem exact_iff (h : Arranged 0 references) :
    (projected references).Exact references ↔ Intact references ∧ Contained references := by
  rw [← whole_iff_intact h]
  constructor
  · intro hexact
    have hwhole := (literal_exact_iff h).mp hexact.literal
    exact ⟨hwhole, contained_of_cuts h hwhole hexact.cuts⟩
  · rintro ⟨hwhole, hcontained⟩
    exact ⟨projected_tiles h, (literal_exact_iff h).mpr hwhole, replaced_exact h,
      fun _ _ => cuts_exact h hwhole hcontained⟩

/-- Projected spans and the source ranges read off them are exact iff the strip takes nothing from
a literal stretch that keeps other text and no projection reaches past its reference into literal
text. -/
theorem projection_exact_iff (raw : List Char) (references : List (Reference raw)) :
    (∀ p, projectImageSyntax references = some p → p.Exact (selectReferences references)) ↔
      (selectReferences references ≠ [] →
        Intact (selectReferences references) ∧ Contained (selectReferences references)) := by
  have h : Arranged 0 (selectReferences references) := nonOverlapping_arranged 0 _
  unfold projectImageSyntax
  cases hselected : selectReferences references with
  | nil => simp
  | cons r rest =>
    rw [hselected] at h
    rw [← exact_iff h]
    simp [projected]

/-! ## An indented paragraph -/

section Indented

def indentedParagraph : List Char := "  a ![b](c)".toList

def indentedReferences : List (Reference indentedParagraph) :=
  [⟨4, 11, ['b'], by decide, by decide, by decide⟩]

/-- The strip takes the indent off the literal stretch, and its row still starts at the indent. -/
theorem indented_not_exact : ∃ p, projectImageSyntax indentedReferences = some p ∧
    p.plainText = some "a b".toList ∧ p.spans = [⟨0, 2, 0, 4, 0, 4⟩, ⟨2, 3, 4, 11, 6, 7⟩] ∧
    projectedRawBounds p.spans 1 3 = some (1, 11) ∧
    ¬ p.Exact (selectReferences indentedReferences) := by
  refine ⟨projected (selectReferences indentedReferences), rfl, by decide, by decide, by decide, ?_⟩
  intro hexact
  exact absurd (hexact.literal ⟨0, 2, 0, 4, 0, 4⟩ (by decide) (by decide)) (by decide)

end Indented

end MDRack.Markdown
