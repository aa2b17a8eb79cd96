import MDRack.Lib.Joining
import MDRack.Markdown.Location

/-!
# What small drafts are merged into

Neighbouring drafts are joined from the left to the right.  A heading, a rule or the front matter
leaves a gap in the stream, and a draft that is not mergeable ends what is pending.

* `mergeDrafts` — the join of two neighbours.
* `JoinedFrom` — a draft that is left, and the drafts of the stream that it is joined from.

Principal result: `mergeSmallDrafts_keeps` — merging keeps the blocks and the text of the drafts,
joins only drafts of one kind under one heading, and stays within the limits.
-/

namespace MDRack.Markdown

open Joining StructuralChunker

/-! ## Limits of embedding texts -/

theorem byteLength_append (a b : List Char) : byteLength (a ++ b) = byteLength a + byteLength b := by
  simp [byteLength]

theorem byteLength_prefix_le {a b : List Char} (h : a <+: b) : byteLength a ≤ byteLength b := by
  obtain ⟨rest, rfl⟩ := h
  rw [byteLength_append]
  exact Nat.le_add_right _ _

theorem fitting_within (text : List Char) (budget : Budget) (cursor n : Nat) :
    byteLength (text.extract cursor (cursor + fitting text budget cursor n)) ≤ budget.maxBytes := by
  induction n with
  | zero => simp [fitting, byteLength, List.extract]
  | succ n ih =>
    unfold fitting
    split
    · assumption
    · exact ih

section Merging

variable (chunker : StructuralChunker)

/-- What stands before a text leaves at least one token for it. -/
theorem embeddingHead_within (block : SourceBlock) (contentType : RetrievalContentType) :
    byteLength (chunker.embeddingHead block contentType) ≤ chunker.config.maxTokens * 4 - 6 := by
  unfold embeddingHead
  simp only
  split
  · simp [byteLength]
  · generalize joinLines _ = head
    have hfit := fitting_within head ⟨head.length, chunker.config.maxTokens * 4 - 6⟩ 0 head.length
    rw [Nat.zero_add] at hfit
    have hstrip (text : List Char) : rstrip text <+: text := by
      rw [rstrip_eq_take]
      exact List.take_prefix _ _
    refine (byteLength_prefix_le (hstrip _)).trans ?_
    simpa [List.extract] using hfit

theorem tokens_pos : 1 ≤ chunker.config.maxTokens :=
  chunker.config.positive _ (by simp)

/-- A text within the limits of its body is within the token limit with what stands before it. -/
theorem estimateTokens_within {block : SourceBlock} {contentType : RetrievalContentType}
    {useTarget : Bool} {display : List Char}
    (h : (chunker.bodyLimits block contentType useTarget).holds display = true) :
    estimateTokens (chunker.embeddingText block display contentType) ≤ chunker.config.maxTokens := by
  have hhead := embeddingHead_within chunker block contentType
  have htokens := tokens_pos chunker
  have hbytes := (Budget.holds_iff.mp h).2
  simp only [bodyLimits] at hbytes
  unfold estimateTokens embeddingText
  simp only
  split
  · rename_i hnil
    have hzero : byteLength ([] : List Char) = 0 := rfl
    rw [hnil, hzero, if_pos rfl] at hbytes
    omega
  · rename_i hne
    have hsep : byteLength "\n\n".toList = 2 := by decide
    rw [byteLength_append, byteLength_append, hsep]
    rw [if_neg hne] at hbytes
    omega

theorem target_chars (block : SourceBlock) (contentType : RetrievalContentType) :
    (chunker.bodyLimits block contentType true).maxChars = chunker.config.targetChars := by
  have htarget := chunker.config.target_within
  have hpos : 1 ≤ chunker.config.targetChars := chunker.config.positive _ (by simp)
  simp only [bodyLimits, if_true]
  omega

/-! ## Joining two drafts -/

/-- The kinds of text that are joined. -/
def joinable : List RetrievalContentType := [.text, .list, .blockquote]

/-- Two neighbours that are both mergeable. -/
def mergeDrafts (left right : Draft) : Option Draft :=
  if left.mergeable ∧ right.mergeable then chunker.mergePair left right else none

/-- Both drafts are mergeable, of one joinable kind and under one heading. -/
structure Alike (a b : Draft) : Prop where
  mergeable : a.mergeable = true
  joinable : a.contentType ∈ joinable
  contentType : a.contentType = b.contentType
  headingPath : a.head.headingPath = b.head.headingPath

theorem Alike.trans {a b c : Draft} (hab : Alike a b) (hbc : Alike b c) : Alike a c :=
  ⟨hab.mergeable, hab.joinable, hab.contentType.trans hbc.contentType,
    hab.headingPath.trans hbc.headingPath⟩

/-- A draft within the target, the hard limit and the token limit. -/
structure Within (draft : Draft) : Prop where
  target : draft.display.length ≤ chunker.config.targetChars
  hard : draft.display.length ≤ chunker.config.hardLimitChars
  tokens : estimateTokens (chunker.embeddingText draft.head draft.display draft.contentType) ≤
    chunker.config.maxTokens

/-- What joining two drafts does. -/
structure Joined (left right merged : Draft) : Prop where
  blocks : merged.blocks = left.blocks ++ right.blocks
  display : merged.display = left.display ++ "\n\n".toList ++ right.display
  alike_left : Alike left merged
  alike_right : Alike right merged
  mergeable : merged.mergeable = true
  within_limits : Within chunker merged

variable {chunker}

theorem mergeDrafts_joined {left right merged : Draft}
    (h : mergeDrafts chunker left right = some merged) : Joined chunker left right merged := by
  unfold mergeDrafts at h
  split at h
  · rename_i hmergeable
    unfold mergePair at h
    simp only at h
    split at h
    · rename_i hjoin
      obtain rfl := Option.some.inj h
      obtain ⟨htype, hpath, hkind, hholds⟩ := hjoin
      have hchars := (Budget.holds_iff.mp hholds).1
      rw [target_chars] at hchars
      exact {
        blocks := rfl
        display := rfl
        alike_left := ⟨hmergeable.1, hkind, rfl, rfl⟩
        alike_right := ⟨hmergeable.2, htype ▸ hkind, htype.symm, hpath.symm⟩
        mergeable := rfl
        within_limits := ⟨hchars, hchars.trans chunker.config.target_within,
          estimateTokens_within chunker hholds⟩ }
    · cases h
  · cases h

/-! ## The loop -/

/-- What is pending is mergeable, and made of the drafts before the rest of the stream. -/
theorem mergeSmallDrafts_pending {parts : List Draft} {waiting : Draft}
    (hmade : Made (mergeDrafts chunker) parts waiting) (hwaiting : waiting.mergeable = true)
    {stream : List (Option Draft)}
    (hnone : ∀ rest, rest <:+ stream →
      Joins (mergeDrafts chunker) rest (chunker.mergeSmallDrafts none rest)) :
    Joins (mergeDrafts chunker) (parts.map some ++ stream)
      (chunker.mergeSmallDrafts (some waiting) stream) := by
  induction stream generalizing parts waiting with
  | nil => exact .item hmade .nil
  | cons item rest ih =>
    have hrest := hnone rest (List.suffix_cons _ _)
    cases item with
    | none => exact .item hmade (.gap hrest)
    | some draft =>
      cases hmergeable : draft.mergeable with
      | false =>
        rw [merge_fixed chunker hmergeable]
        exact .item hmade (.item (.one draft) hrest)
      | true =>
        rcases merge_next chunker hmergeable waiting rest with ⟨candidate, hpair, heq⟩ | heq
        · have hjoin : mergeDrafts chunker waiting draft = some candidate := by
            rw [mergeDrafts, if_pos ⟨hwaiting, hmergeable⟩, hpair]
          have hmore := ih (hmade.more hjoin) (mergeDrafts_joined hjoin).mergeable
            fun suffix hsuffix => hnone suffix (hsuffix.trans (List.suffix_cons _ _))
          rw [heq]
          simpa using hmore
        · have hnext := ih (.one draft) hmergeable
            fun suffix hsuffix => hnone suffix (hsuffix.trans (List.suffix_cons _ _))
          rw [heq]
          exact .item hmade hnext

/-- The loop only joins neighbours, and never across a gap. -/
theorem mergeSmallDrafts_joins (stream : List (Option Draft)) :
    Joins (mergeDrafts chunker) stream (chunker.mergeSmallDrafts none stream) := by
  have hall : ∀ n, ∀ stream : List (Option Draft), stream.length ≤ n →
      Joins (mergeDrafts chunker) stream (chunker.mergeSmallDrafts none stream) := by
    intro n
    induction n with
    | zero =>
      intro stream hlength
      rw [List.length_eq_zero_iff.mp (Nat.le_zero.mp hlength)]
      exact .nil
    | succ n ih =>
      intro stream hlength
      cases stream with
      | nil => exact .nil
      | cons item rest =>
        have hrest : rest.length ≤ n := Nat.le_of_succ_le_succ hlength
        cases item with
        | none => exact .gap (ih rest hrest)
        | some draft =>
          cases hmergeable : draft.mergeable with
          | false =>
            rw [merge_fixed chunker hmergeable]
            exact .item (.one draft) (ih rest hrest)
          | true =>
            rw [merge_first chunker hmergeable]
            exact mergeSmallDrafts_pending (.one draft) hmergeable fun later hlater =>
              ih later (hlater.length_le.trans hrest)
  exact hall stream.length stream (Nat.le_refl _)

/-! ## What is left -/

variable (chunker) in
/-- A draft that is left after merging, and the drafts that it is joined from. -/
structure JoinedFrom (parts : List Draft) (merged : Draft) : Prop where
  blocks : merged.blocks = parts.flatMap Draft.blocks
  display : merged.display = "\n\n".toList.intercalate (parts.map (·.display))
  alone : ∀ draft, parts = [draft] → merged = draft
  alike : 2 ≤ parts.length → ∀ part ∈ parts, Alike part merged
  within_limits : 2 ≤ parts.length → Within chunker merged

theorem joinedFrom_of_made {parts : List Draft} {merged : Draft}
    (h : Made (mergeDrafts chunker) parts merged) : JoinedFrom chunker parts merged where
  blocks := h.flatMap fun _ _ _ hjoin => (mergeDrafts_joined hjoin).blocks
  display := h.intercalate fun _ _ _ hjoin => (mergeDrafts_joined hjoin).display
  alone := fun draft hparts => by
    subst hparts
    exact h.eq_of_singleton
  alike := fun hmany => h.alike (R := Alike)
    (fun _ _ _ hjoin => ⟨(mergeDrafts_joined hjoin).alike_left,
      (mergeDrafts_joined hjoin).alike_right⟩)
    (fun _ _ _ => Alike.trans) hmany
  within_limits := h.of_joined fun _ _ _ hjoin => (mergeDrafts_joined hjoin).within_limits

/-- Merging keeps the blocks and the text of the drafts.  What is left is joined from drafts that
follow each other, of one joinable kind and under one heading, within the limits. -/
theorem mergeSmallDrafts_keeps (stream : List (Option Draft)) :
    (chunker.mergeSmallDrafts none stream).flatMap Draft.blocks =
        stream.reduceOption.flatMap Draft.blocks ∧
      "\n\n".toList.intercalate ((chunker.mergeSmallDrafts none stream).map (·.display)) =
        "\n\n".toList.intercalate (stream.reduceOption.map (·.display)) ∧
      ∃ groups : List (List Draft), groups.flatten = stream.reduceOption ∧
        List.Forall₂ (JoinedFrom chunker) groups (chunker.mergeSmallDrafts none stream) := by
  have hjoins : Joins (mergeDrafts chunker) stream (chunker.mergeSmallDrafts none stream) :=
    mergeSmallDrafts_joins stream
  obtain ⟨groups, hflat, hmade⟩ := hjoins.groups
  refine ⟨?_, ?_, groups, hflat, hmade.imp fun _ _ => joinedFrom_of_made⟩
  · rw [← hflat]
    exact flatMap_of_groups (fun _ _ _ hjoin => (mergeDrafts_joined hjoin).blocks) hmade
  · rw [← hflat]
    exact intercalate_of_groups (fun _ _ _ hjoin => (mergeDrafts_joined hjoin).display) hmade

end Merging

end MDRack.Markdown
