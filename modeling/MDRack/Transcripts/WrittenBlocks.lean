import MDRack.Transcripts.Stamps

/-!
# Blocks of lines as they are written

* `BlockLines` — the lines of a block: none is empty, and something can be seen.
* `writeBlocks` — blocks with an odd number of empty lines between them, and line ends behind the last.
* `LineEnd`, `respell` — the same text with another form of line ends.

Principal results: `blocksOf_writeBlocks` — the blocks are found again;
`normalizeNewlines_respell` — and the form of the line ends makes no difference.
-/

namespace MDRack.Transcripts

open Checks CodePoints Cutting Markdown

/-! ## One block -/

structure BlockLines (lines : List (List Char)) : Prop where
  oneLine : ∀ line ∈ lines, OneLine line
  not_empty : ∀ line ∈ lines, line ≠ []
  visible : ∃ line ∈ lines, ∃ c ∈ line, isSpace c = false

theorem newline_free {line : List Char} (h : OneLine line) : '\n' ∉ line := by
  intro hmem
  exact absurd (h '\n' hmem) (by decide)

theorem BlockLines.ne_nil {lines : List (List Char)} (h : BlockLines lines) : lines ≠ [] := by
  rintro rfl
  obtain ⟨line, hline, -⟩ := h.visible
  cases hline

theorem joinLines_cons {line next : List Char} {lines : List (List Char)} :
    joinLines (line :: next :: lines) = line ++ '\n' :: joinLines (next :: lines) := by
  rw [joinLines, joinLines, List.intercalate_cons_cons, List.append_assoc]
  rfl

theorem mem_joinLines {line : List Char} {lines : List (List Char)} (hline : line ∈ lines) {c : Char}
    (hc : c ∈ line) : c ∈ joinLines lines := by
  rw [joinLines]
  exact mem_intercalate_of_mem hline hc

theorem BlockLines.not_blank {lines : List (List Char)} (h : BlockLines lines) (ending : List Char) :
    blank (joinLines lines ++ ending) = false := by
  obtain ⟨line, hline, c, hc, hspace⟩ := h.visible
  rw [blank, List.all_eq_false]
  refine ⟨c, List.mem_append_left _ (mem_joinLines hline hc), ?_⟩
  simp [hspace]

/-- In front of a text without a pair, a text without the item makes none. -/
theorem pair_free_append {x : Char} {front rest : List Char} (hfront : x ∉ front)
    (hrest : ¬ [x, x] <:+: rest) : ¬ [x, x] <:+: front ++ rest := by
  induction front with
  | nil => exact hrest
  | cons c front ih =>
    rw [List.mem_cons, not_or] at hfront
    rw [List.cons_append, List.infix_cons_iff]
    rintro (⟨tail, htail⟩ | hin)
    · exact hfront.1 (List.cons.inj htail).1
    · exact ih hfront.2 hin

theorem pair_free_cons {x : Char} {rest : List Char} (hhead : rest.head? ≠ some x)
    (hrest : ¬ [x, x] <:+: rest) : ¬ [x, x] <:+: x :: rest := by
  rw [List.infix_cons_iff]
  rintro (⟨tail, htail⟩ | hin)
  · obtain ⟨-, hnext⟩ := List.cons.inj htail
    rw [← hnext] at hhead
    exact hhead rfl
  · exact hrest hin

/-- Lines that are joined hold no empty line, and do not end with a line end. -/
theorem joinLines_separated {lines : List (List Char)} (hline : ∀ line ∈ lines, OneLine line)
    (hne : ∀ line ∈ lines, line ≠ []) : Separated '\n' (joinLines lines) := by
  have hhead : ∀ lines : List (List Char), (∀ line ∈ lines, OneLine line) → (∀ line ∈ lines, line ≠ []) →
      (joinLines lines).head? ≠ some '\n' := by
    intro lines hline hne heq
    cases lines with
    | nil => cases heq
    | cons line lines =>
      obtain ⟨c, rest, rfl⟩ := List.exists_cons_of_ne_nil (hne line List.mem_cons_self)
      have hfirst : (joinLines ((c :: rest) :: lines)).head? = some c := by
        cases lines with
        | nil => rfl
        | cons next lines =>
          rw [joinLines_cons]
          rfl
      rw [hfirst] at heq
      obtain rfl := Option.some.inj heq
      exact newline_free (hline _ List.mem_cons_self) List.mem_cons_self
  induction lines with
  | nil =>
    refine ⟨?_, by simp [joinLines]⟩
    intro hin
    have hlength := hin.length_le
    simp [joinLines] at hlength
  | cons line lines ih =>
    obtain ⟨hone, hlines⟩ := List.forall_mem_cons.mp hline
    obtain ⟨hfirst, hrest⟩ := List.forall_mem_cons.mp hne
    have hfree := newline_free hone
    cases lines with
    | nil =>
      rw [joinLines, List.intercalate_singleton]
      constructor
      · intro hin
        exact hfree (hin.subset List.mem_cons_self)
      · intro hlast
        exact hfree (List.mem_of_mem_getLast? hlast)
    | cons next lines =>
      obtain ⟨hpair, hlast⟩ := ih hlines hrest
      rw [joinLines_cons]
      constructor
      · exact pair_free_append hfree (pair_free_cons (hhead _ hlines hrest) hpair)
      · have hjoined : joinLines (next :: lines) ≠ [] := by
          intro hnil
          obtain ⟨c, hc⟩ := List.exists_mem_of_ne_nil _ (hrest next List.mem_cons_self)
          have hmem : c ∈ joinLines (next :: lines) := mem_joinLines List.mem_cons_self hc
          rw [hnil] at hmem
          cases hmem
        rw [List.getLast?_append_of_ne_nil _ (List.cons_ne_nil _ _), List.getLast?_cons]
        cases hof : (joinLines (next :: lines)).getLast? with
        | none => exact absurd (List.getLast?_eq_none_iff.mp hof) hjoined
        | some c =>
          rw [hof] at hlast
          simpa using hlast

/-! ## All blocks -/

/-- Blocks, each but the last with an odd number of empty lines behind it: `2 * gap + 1` of them. -/
def writeBlocks (trailing : Nat) : List (List (List Char) × Nat) → List Char
  | [] => List.replicate trailing '\n'
  | [(lines, _)] => joinLines lines ++ List.replicate trailing '\n'
  | (lines, gap) :: next :: more =>
    joinLines lines ++ List.replicate (2 * gap + 2) '\n' ++ writeBlocks trailing (next :: more)

/-- No part of a run of line ends is a block. -/
theorem blocksOf_run (n : Nat) : blocksOf (List.replicate n '\n') = [] := by
  have hsplit : n = 2 * (n / 2) + n % 2 := (Nat.div_add_mod n 2).symm
  have hrun : List.replicate n '\n' = List.replicate (2 * (n / 2)) '\n' ++ List.replicate (n % 2) '\n' := by
    rw [← List.replicate_add, ← hsplit]
  have hrest : (splitPairs '\n' (List.replicate (n % 2) '\n')).filter (fun block => !blank block) = [] := by
    rcases Nat.mod_two_eq_zero_or_one n with h | h
    · rw [h]
      decide
    · rw [h]
      decide
  rw [blocksOf, hrun, splitPairs_even, List.filter_append, hrest, List.append_nil, List.filter_eq_nil_iff]
  intro block hblock
  rw [List.eq_of_mem_replicate hblock]
  decide

theorem filter_empties (gap : Nat) (parts : List (List Char)) :
    (List.replicate gap [] ++ parts).filter (fun block => !blank block) =
      parts.filter fun block => !blank block := by
  have hnone : (List.replicate gap ([] : List Char)).filter (fun block => !blank block) = [] := by
    rw [List.filter_eq_nil_iff]
    intro block hblock
    rw [List.eq_of_mem_replicate hblock]
    decide
  rw [List.filter_append, hnone, List.nil_append]

/-- The last block is found with at most one line end behind it. -/
theorem blocksOf_last {lines : List (List Char)} (h : BlockLines lines) (trailing : Nat) :
    ∃ ending, (ending = [] ∨ ending = ['\n']) ∧
      blocksOf (joinLines lines ++ List.replicate trailing '\n') = [joinLines lines ++ ending] := by
  have hseparated := joinLines_separated h.oneLine h.not_empty
  have hkept : ∀ ending, [joinLines lines ++ ending].filter (fun block => !blank block) =
      [joinLines lines ++ ending] := by
    intro ending
    rw [List.filter_cons_of_pos (by rw [h.not_blank ending]; rfl), List.filter_nil]
  match trailing with
  | 0 =>
    refine ⟨[], .inl rfl, ?_⟩
    have halone : splitPairs '\n' (joinLines lines ++ []) = [joinLines lines ++ []] := by
      rw [List.append_nil]
      exact splitPairs_alone hseparated.1
    rw [List.replicate_zero, blocksOf, halone, hkept]
  | 1 =>
    refine ⟨['\n'], .inr rfl, ?_⟩
    have hpair : ¬ ['\n', '\n'] <:+: joinLines lines ++ ['\n'] := by
      rw [List.infix_concat_iff]
      rintro (⟨front, hfront⟩ | hin)
      · have hlast : joinLines lines = front ++ ['\n'] := by
          have hsame : (front ++ ['\n']) ++ ['\n'] = joinLines lines ++ ['\n'] := by
            rw [← hfront, List.append_assoc]
            rfl
          exact (List.append_cancel_right hsame).symm
        apply hseparated.2
        rw [hlast, List.getLast?_concat]
      · exact hseparated.1 hin
    have halone := splitPairs_alone hpair
    show blocksOf (joinLines lines ++ ['\n']) = _
    rw [blocksOf, halone, hkept]
  | n + 2 =>
    refine ⟨[], .inl rfl, ?_⟩
    have hrun := splitPairs_run hseparated n []
    rw [List.append_nil, List.append_nil] at hrun
    have hrest : (splitPairs '\n' (List.replicate (n % 2) '\n')).filter (fun block => !blank block) = [] :=
      blocksOf_run (n % 2)
    rw [blocksOf, hrun, List.filter_cons_of_pos, filter_empties, hrest, List.append_nil]
    have hvisible := h.not_blank []
    rw [List.append_nil] at hvisible
    rw [hvisible]
    rfl

/-- The blocks are found again. -/
theorem blocksOf_writeBlocks {blocks : List (List (List Char) × Nat)} (h : ∀ b ∈ blocks, BlockLines b.1)
    (trailing : Nat) : (blocksOf (writeBlocks trailing blocks)).map splitlines = blocks.map (·.1) := by
  induction blocks with
  | nil => rw [writeBlocks, blocksOf_run]; rfl
  | cons b more ih =>
    obtain ⟨lines, gap⟩ := b
    have hlines : BlockLines lines := h _ List.mem_cons_self
    have hmore : ∀ b ∈ more, BlockLines b.1 := fun b hb => h b (List.mem_cons_of_mem _ hb)
    cases more with
    | nil =>
      obtain ⟨ending, hending, hblocks⟩ := blocksOf_last hlines trailing
      rw [writeBlocks, hblocks, List.map_cons, List.map_nil,
        splitlines_joinLines hlines.oneLine hlines.not_empty hlines.ne_nil hending]
      rfl
    | cons next more =>
      have hseparated := joinLines_separated hlines.oneLine hlines.not_empty
      have hrun := splitPairs_run hseparated (2 * gap) (writeBlocks trailing (next :: more))
      have heven : 2 * gap % 2 = 0 ∧ 2 * gap / 2 = gap := by omega
      rw [heven.1, heven.2, List.replicate_zero, List.nil_append] at hrun
      have hvisible : (!blank (joinLines lines)) = true := by
        have hnot := hlines.not_blank []
        rw [List.append_nil] at hnot
        rw [hnot]
        rfl
      have hself : splitlines (joinLines lines) = lines := by
        have hjoined := splitlines_joinLines hlines.oneLine hlines.not_empty hlines.ne_nil (.inl rfl)
        rwa [List.append_nil] at hjoined
      have hrest := ih hmore
      rw [blocksOf] at hrest
      have hkept : (joinLines lines :: (List.replicate gap [] ++
          splitPairs '\n' (writeBlocks trailing (next :: more)))).filter (fun block => !blank block) =
          joinLines lines :: (splitPairs '\n' (writeBlocks trailing (next :: more))).filter
            fun block => !blank block := by
        rw [List.filter_cons_of_pos (by rw [hvisible]), filter_empties]
      rw [writeBlocks, blocksOf, hrun, hkept, List.map_cons, hself, hrest]
      rfl

/-! ## Line ends -/

inductive LineEnd
  | lf
  | crlf
  | cr
  deriving DecidableEq, Repr

def LineEnd.chars : LineEnd → List Char
  | .lf => ['\n']
  | .crlf => ['\r', '\n']
  | .cr => ['\r']

/-- The text with its line ends in one form. -/
def respell (lineEnd : LineEnd) (text : List Char) : List Char :=
  text.flatMap fun c => if c = '\n' then lineEnd.chars else [c]

theorem normalizeCrlf_free {text : List Char} (h : '\n' ∉ text ∨ '\r' ∉ text) : normalizeCrlf text = text := by
  induction text with
  | nil => rfl
  | cons c text ih =>
    have hrest : '\n' ∉ text ∨ '\r' ∉ text := by
      rcases h with h | h
      · exact .inl fun hmem => h (List.mem_cons_of_mem _ hmem)
      · exact .inr fun hmem => h (List.mem_cons_of_mem _ hmem)
    have hpair : ∀ rest, c = '\r' → text = '\n' :: rest → False := by
      rintro rest rfl rfl
      rcases h with h | h
      · exact h (List.mem_cons_of_mem _ List.mem_cons_self)
      · exact h List.mem_cons_self
    rw [normalizeCrlf, ih hrest]
    exact hpair

theorem normalizeCrlf_crlf {text : List Char} (h : '\r' ∉ text) :
    normalizeCrlf (respell .crlf text) = text := by
  induction text with
  | nil => rfl
  | cons c text ih =>
    rw [List.mem_cons, not_or] at h
    have hrest := ih h.2
    rw [respell] at hrest
    rw [respell, List.flatMap_cons]
    by_cases hc : c = '\n'
    · rw [if_pos hc, hc]
      exact congrArg ('\n' :: ·) hrest
    · rw [if_neg hc, List.singleton_append, normalizeCrlf, hrest]
      rintro _ heq
      exact absurd heq.symm h.1

theorem map_eq_self {f : Char → Char} {text : List Char} (h : ∀ c ∈ text, f c = c) : text.map f = text :=
  (List.map_congr_left h).trans (List.map_id' text)

/-- Whatever the form of the line ends, the text is read. -/
theorem normalizeNewlines_respell (lineEnd : LineEnd) {text : List Char} (h : '\r' ∉ text) :
    normalizeNewlines (respell lineEnd text) = text := by
  have hmap : ∀ as : List Char, '\r' ∉ as → as.map (fun c => if c = '\r' then '\n' else c) = as := by
    intro as has
    apply map_eq_self
    intro c hc
    rw [if_neg]
    rintro rfl
    exact has hc
  cases lineEnd with
  | lf =>
    have hsame : respell .lf text = text := by
      rw [respell]
      have hsingle : ∀ c ∈ text, (if c = '\n' then LineEnd.lf.chars else [c]) = [c] := by
        intro c _
        split
        · rename_i hc
          rw [hc]
          rfl
        · rfl
      rw [List.flatMap_congr hsingle, List.flatMap_singleton']
    rw [normalizeNewlines, hsame, normalizeCrlf_free (.inr h), hmap text h]
  | crlf => rw [normalizeNewlines, normalizeCrlf_crlf h, hmap text h]
  | cr =>
    have hsame : respell .cr text = text.map fun c => if c = '\n' then '\r' else c := by
      rw [respell, List.map_eq_flatMap]
      apply List.flatMap_congr
      intro c _
      split
      · rfl
      · rfl
    have hfree : '\n' ∉ respell .cr text := by
      rw [hsame]
      intro hmem
      obtain ⟨c, -, hc⟩ := List.mem_map.mp hmem
      split at hc
      · exact absurd hc (by decide)
      · rename_i hne
        exact hne hc
    rw [normalizeNewlines, normalizeCrlf_free (.inl hfree), hsame, List.map_map]
    apply map_eq_self
    intro c hc
    have hne : c ≠ '\r' := by
      rintro rfl
      exact h hc
    simp only [Function.comp_apply]
    by_cases hnew : c = '\n'
    · simp [hnew]
    · simp [hnew, hne]

end MDRack.Transcripts
