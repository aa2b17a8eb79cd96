import MDRack.Markdown.Merging

/-!
# What a block is cut into, wherever it stands

An edit elsewhere in the document moves a block: its lines and offsets are others.  The pieces that
it is cut into are the same at the new place, up to their spans.

* `SourceBlock.moved` — the block at another place.
* `SameCut` — drafts of a block and of the moved block with the same contents.

Principal result: `blockStream_moved` — a block puts the same contents into the stream of drafts
wherever it stands; several drafts of one block are not mergeable.
-/

namespace MDRack.Markdown

open Checks StructuralChunker

/-- The block under another identity, at another place. -/
def SourceBlock.moved (block : SourceBlock) (id : NonEmptyText) (span : SourceSpan) : SourceBlock :=
  { block with blockId := id, sourceSpan := span }

/-- What a draft is besides its blocks and their place. -/
def Draft.content (draft : Draft) : List Char × RetrievalContentType × Bool :=
  (draft.display, draft.contentType, draft.mergeable)

/-- The drafts are of one block and have these contents. -/
def CutInto (block : SourceBlock) (contents : List (List Char × RetrievalContentType × Bool))
    (drafts : List Draft) : Prop :=
  drafts.map (fun draft => (draft.blocks, draft.content)) = contents.map fun content => ([block], content)

/-- Drafts of two blocks with the same contents, of which none is mergeable. -/
def FixedCut (block block' : SourceBlock) (drafts drafts' : List Draft) : Prop :=
  ∃ contents, CutInto block contents drafts ∧ CutInto block' contents drafts' ∧
    ∀ content ∈ contents, content.2.2 = false

/-- Drafts of two blocks with the same contents; several are not mergeable. -/
def SameCut (block block' : SourceBlock) (drafts drafts' : List Draft) : Prop :=
  ∃ contents, CutInto block contents drafts ∧ CutInto block' contents drafts' ∧
    ((∀ content ∈ contents, content.2.2 = false) ∨ contents.length ≤ 1)

theorem FixedCut.same {block block' : SourceBlock} {drafts drafts' : List Draft}
    (h : FixedCut block block' drafts drafts') : SameCut block block' drafts drafts' := by
  obtain ⟨contents, hcut, hcut', hfixed⟩ := h
  exact ⟨contents, hcut, hcut', .inl hfixed⟩

theorem FixedCut.nil (block block' : SourceBlock) : FixedCut block block' [] [] :=
  ⟨[], rfl, rfl, fun _ h => absurd h List.not_mem_nil⟩

theorem FixedCut.append {block block' : SourceBlock} {ds es ds' es' : List Draft}
    (hd : FixedCut block block' ds ds') (he : FixedCut block block' es es') :
    FixedCut block block' (ds ++ es) (ds' ++ es') := by
  obtain ⟨contents, hcut, hcut', hfixed⟩ := hd
  obtain ⟨more, hmore, hmore', hmoreFixed⟩ := he
  refine ⟨contents ++ more, ?_, ?_, ?_⟩
  · rw [CutInto, List.map_append, List.map_append, hcut, hmore]
  · rw [CutInto, List.map_append, List.map_append, hcut', hmore']
  · intro content hcontent
    exact (List.mem_append.mp hcontent).elim (hfixed content) (hmoreFixed content)

theorem cutInto_of_slices {block : SourceBlock} {contentType : RetrievalContentType}
    {text : List Char} {mergeable : Bool} {slices : List (Range × List Char)} {drafts : List Draft}
    (h : mapAll (draftOf block contentType text mergeable) slices = .ok drafts) :
    CutInto block (slices.map fun slice => (slice.2, contentType, mergeable)) drafts := by
  rw [CutInto, List.map_map]
  apply mapAll_keys h
  intro slice draft hof
  obtain ⟨span, -, hdraft⟩ := bind_ok.mp hof
  obtain rfl := Except.ok.inj hdraft
  rfl

section Slices

variable {block block' : SourceBlock} {contentType : RetrievalContentType} {text : List Char}
  {slices : List (Range × List Char)}

theorem fixedCut_of_slices {drafts drafts' : List Draft}
    (h : mapAll (draftOf block contentType text false) slices = .ok drafts)
    (h' : mapAll (draftOf block' contentType text false) slices = .ok drafts') :
    FixedCut block block' drafts drafts' := by
  refine ⟨_, cutInto_of_slices h, cutInto_of_slices h', fun content hcontent => ?_⟩
  obtain ⟨slice, -, rfl⟩ := List.mem_map.mp hcontent
  rfl

theorem fixedCut_of_slice {slice : Range × List Char} {draft draft' : Draft}
    (h : draftOf block contentType text false slice = .ok draft)
    (h' : draftOf block' contentType text false slice = .ok draft') :
    FixedCut block block' [draft] [draft'] := by
  have hslices : mapAll (draftOf block contentType text false) [slice] = .ok [draft] := by
    simp [mapAll, h, bind, Except.bind]
  have hslices' : mapAll (draftOf block' contentType text false) [slice] = .ok [draft'] := by
    simp [mapAll, h', bind, Except.bind]
  exact fixedCut_of_slices hslices hslices'

/-- Drafts that are cut range after range. -/
theorem fixedCut_flatten {cut cut' : Range → Except Err (List Draft)} {ranges : List Range}
    (hcut : ∀ range ds ds', cut range = .ok ds → cut' range = .ok ds' → FixedCut block block' ds ds')
    {dss dss' : List (List Draft)} (h : mapAll cut ranges = .ok dss)
    (h' : mapAll cut' ranges = .ok dss') : FixedCut block block' dss.flatten dss'.flatten := by
  induction ranges generalizing dss dss' with
  | nil =>
    obtain rfl := Except.ok.inj h
    obtain rfl := Except.ok.inj h'
    exact .nil _ _
  | cons range rest ih =>
    simp only [mapAll, bind_ok, Except.ok.injEq] at h h'
    obtain ⟨ds, hds, more, hmore, rfl⟩ := h
    obtain ⟨ds', hds', more', hmore', rfl⟩ := h'
    exact (hcut range ds ds' hds hds').append (ih hmore hmore')

end Slices

section Blocks

variable {chunker : StructuralChunker} {block : SourceBlock} {id : NonEmptyText} {span : SourceSpan}
  {drafts drafts' : List Draft}

/-! ## Prose and code -/

theorem proseDrafts_moved (h : chunker.proseDrafts block = .ok drafts)
    (h' : chunker.proseDrafts (block.moved id span) = .ok drafts') :
    SameCut block (block.moved id span) drafts drafts' := by
  obtain ⟨ranged, hranged, hdrafts⟩ := bind_ok.mp h
  obtain ⟨ranged', hranged', hdrafts'⟩ := bind_ok.mp h'
  obtain rfl : ranged = ranged' := Except.ok.inj (hranged.symm.trans hranged')
  refine ⟨_, cutInto_of_slices hdrafts, cutInto_of_slices hdrafts', ?_⟩
  by_cases hone : ranged.length = 1
  · right
    rw [List.length_map]
    refine (List.length_filter_le _ _).trans ?_
    rw [List.length_map, hone]
  · left
    intro content hcontent
    obtain ⟨slice, -, rfl⟩ := List.mem_map.mp hcontent
    simp [hone]

theorem lineDrafts_moved {contentType : RetrievalContentType} {windowLines : Nat}
    (h : chunker.lineDrafts block contentType windowLines = .ok drafts)
    (h' : chunker.lineDrafts (block.moved id span) contentType windowLines = .ok drafts') :
    FixedCut block (block.moved id span) drafts drafts' := by
  obtain ⟨groups, hgroups, hdrafts⟩ := bind_ok.mp h
  obtain ⟨groups', hgroups', hdrafts'⟩ := bind_ok.mp h'
  obtain rfl : groups = groups' := Except.ok.inj (hgroups.symm.trans hgroups')
  exact fixedCut_of_slices hdrafts hdrafts'

theorem rangeDrafts_moved {content : List Char} {budget : Budget} {endLine fuel cursor : Nat}
    (h : chunker.rangeDrafts content budget endLine block fuel cursor = .ok drafts)
    (h' : chunker.rangeDrafts content budget endLine (block.moved id span) fuel cursor =
      .ok drafts') : FixedCut block (block.moved id span) drafts drafts' := by
  induction fuel generalizing cursor drafts drafts' with
  | zero =>
    obtain rfl := Except.ok.inj h
    obtain rfl := Except.ok.inj h'
    exact .nil _ _
  | succ fuel ih =>
    unfold rangeDrafts at h h'
    simp only at h h'
    split at h
    · rename_i hlt
      rw [if_pos hlt] at h'
      split at h
      · rename_i hholds
        rw [if_pos hholds] at h'
        simp only [bind_ok, Except.ok.injEq] at h h'
        obtain ⟨draft, hdraft, more, hmore, rfl⟩ := h
        obtain ⟨draft', hdraft', more', hmore', rfl⟩ := h'
        exact (fixedCut_of_slice hdraft hdraft').append (ih hmore hmore')
      · rename_i hholds
        rw [if_neg hholds] at h'
        simp only [bind_ok, Except.ok.injEq] at h h'
        obtain ⟨pieces, hpieces, inner, hinner, more, hmore, rfl⟩ := h
        obtain ⟨pieces', hpieces', inner', hinner', more', hmore', rfl⟩ := h'
        obtain rfl := Except.ok.inj (hpieces.symm.trans hpieces')
        exact (fixedCut_of_slices hinner hinner').append (ih hmore hmore')
    · rename_i hlt
      rw [if_neg hlt] at h'
      obtain rfl := Except.ok.inj h
      obtain rfl := Except.ok.inj h'
      exact .nil _ _

theorem pythonRangeDrafts_moved {content : List Char} {range : Range}
    (h : chunker.pythonRangeDrafts block content range = .ok drafts)
    (h' : chunker.pythonRangeDrafts (block.moved id span) content range = .ok drafts') :
    FixedCut block (block.moved id span) drafts drafts' := by
  unfold pythonRangeDrafts at h h'
  simp only at h h'
  split at h
  · rename_i hholds
    have hsame : chunker.bodyLimits (block.moved id span) .code false =
        chunker.bodyLimits block .code false := rfl
    rw [hsame, if_pos hholds] at h'
    simp only [bind_ok, Except.ok.injEq] at h h'
    obtain ⟨draft, hdraft, rfl⟩ := h
    obtain ⟨draft', hdraft', rfl⟩ := h'
    exact fixedCut_of_slice hdraft hdraft'
  · rename_i hholds
    have hsame : chunker.bodyLimits (block.moved id span) .code false =
        chunker.bodyLimits block .code false := rfl
    rw [hsame, if_neg hholds] at h'
    exact rangeDrafts_moved h h'

/-- Whether the text is Python does not depend on its place. -/
theorem pythonDrafts_moved {answer answer' : Option (List Draft)}
    (h : chunker.pythonDrafts block = .ok answer)
    (h' : chunker.pythonDrafts (block.moved id span) = .ok answer') :
    answer = none ∧ answer' = none ∨ ∃ drafts drafts', answer = some drafts ∧
      answer' = some drafts' ∧ FixedCut block (block.moved id span) drafts drafts' := by
  unfold pythonDrafts at h h'
  simp only at h h'
  have htext : (block.moved id span).plainText = block.plainText := rfl
  rw [htext] at h'
  split at h
  · rename_i hnil
    rw [if_pos hnil] at h'
    obtain rfl := Except.ok.inj h
    obtain rfl := Except.ok.inj h'
    exact .inr ⟨[], [], rfl, rfl, .nil _ _⟩
  · rename_i hnil
    rw [if_neg hnil] at h'
    obtain ⟨nodes, hnodes, h⟩ := bind_ok.mp h
    obtain ⟨nodes', hnodes', h'⟩ := bind_ok.mp h'
    obtain rfl := Except.ok.inj (hnodes.symm.trans hnodes')
    split at h
    · obtain rfl := Except.ok.inj h
      obtain rfl := Except.ok.inj h'
      exact .inl ⟨rfl, rfl⟩
    · obtain ⟨lines, hlines, rfl⟩ := map_ok.mp h
      obtain ⟨lines', hlines', rfl⟩ := map_ok.mp h'
      exact .inr ⟨lines, lines', rfl, rfl, lineDrafts_moved hlines hlines'⟩
    · obtain ⟨dss, hdss, h⟩ := bind_ok.mp h
      obtain rfl := Except.ok.inj h
      simp only [bind_ok, Except.ok.injEq] at h'
      obtain ⟨dss', hdss', rfl⟩ := h'
      exact .inr ⟨_, _, rfl, rfl, fixedCut_flatten (fun _ _ _ => pythonRangeDrafts_moved) hdss hdss'⟩

theorem codeDrafts_moved (h : chunker.codeDrafts block = .ok drafts)
    (h' : chunker.codeDrafts (block.moved id span) = .ok drafts') :
    FixedCut block (block.moved id span) drafts drafts' := by
  obtain ⟨answer, hanswer, h⟩ := bind_ok.mp h
  obtain ⟨answer', hanswer', h'⟩ := bind_ok.mp h'
  have hlang : isPython (block.moved id span) = isPython block := rfl
  rw [hlang] at hanswer'
  have hanswers : answer = none ∧ answer' = none ∨ ∃ drafts drafts', answer = some drafts ∧
      answer' = some drafts' ∧ FixedCut block (block.moved id span) drafts drafts' := by
    cases hpython : isPython block with
    | true =>
      rw [hpython] at hanswer hanswer'
      exact pythonDrafts_moved hanswer hanswer'
    | false =>
      rw [hpython] at hanswer hanswer'
      exact .inl ⟨(Except.ok.inj hanswer).symm, (Except.ok.inj hanswer').symm⟩
  rcases hanswers with ⟨rfl, rfl⟩ | ⟨ds, ds', rfl, rfl, hcut⟩
  · exact lineDrafts_moved h h'
  · obtain rfl := Except.ok.inj h
    obtain rfl := Except.ok.inj h'
    exact hcut

/-! ## Tables -/

theorem tableRowDrafts_moved {header : List (List Char)} {budget : Budget} {fuel start : Nat}
    {rows : List (List Char)}
    (h : chunker.tableRowDrafts block header budget fuel start rows = .ok drafts)
    (h' : chunker.tableRowDrafts (block.moved id span) header budget fuel start rows = .ok drafts') :
    FixedCut block (block.moved id span) drafts drafts' := by
  induction fuel generalizing start rows drafts drafts' with
  | zero =>
    obtain rfl := Except.ok.inj h
    obtain rfl := Except.ok.inj h'
    exact .nil _ _
  | succ fuel ih =>
    cases rows with
    | nil =>
      obtain rfl := Except.ok.inj h
      obtain rfl := Except.ok.inj h'
      exact .nil _ _
    | cons row rest =>
      unfold tableRowDrafts at h h'
      simp only at h h'
      split at h
      · rename_i hselected
        rw [hselected] at h'
        simp only [bind_ok, Except.ok.injEq] at h h'
        obtain ⟨marker, hmarker, draft, hdraft, more, hmore, rfl⟩ := h
        obtain ⟨marker', hmarker', draft', hdraft', more', hmore', rfl⟩ := h'
        obtain rfl := Except.ok.inj (hmarker.symm.trans hmarker')
        exact (fixedCut_of_slice hdraft hdraft').append (ih hmore hmore')
      · rename_i selected hselected
        simp only [bind_ok, Except.ok.injEq] at h
        obtain ⟨draft, hdraft, more, hmore, rfl⟩ := h
        split at h'
        · rename_i hnone
          exact absurd hnone hselected
        · simp only [bind_ok, Except.ok.injEq] at h'
          obtain ⟨draft', hdraft', more', hmore', rfl⟩ := h'
          exact (fixedCut_of_slice hdraft hdraft').append (ih hmore hmore')

theorem tableDrafts_moved (h : chunker.tableDrafts block = .ok drafts)
    (h' : chunker.tableDrafts (block.moved id span) = .ok drafts') :
    FixedCut block (block.moved id span) drafts drafts' := by
  have hone (display : List Char) : FixedCut block (block.moved id span)
      [⟨block, [], display, .table, block.sourceSpan, false⟩]
      [⟨block.moved id span, [], display, .table, (block.moved id span).sourceSpan, false⟩] :=
    ⟨[(display, .table, false)], rfl, rfl, by simp⟩
  unfold tableDrafts at h h'
  simp only at h h'
  have hraw : (block.moved id span).rawMarkdown = block.rawMarkdown := rfl
  have hlimits : chunker.bodyLimits (block.moved id span) .table false =
      chunker.bodyLimits block .table false := rfl
  rw [hraw, hlimits] at h'
  split at h
  · rename_i hshort
    rw [if_pos hshort] at h'
    split at h
    · rename_i hholds
      rw [if_pos hholds] at h'
      obtain rfl := Except.ok.inj h
      obtain rfl := Except.ok.inj h'
      exact hone _
    · rename_i hholds
      rw [if_neg hholds] at h'
      simp only [bind_ok, Except.ok.injEq] at h h'
      obtain ⟨marker, hmarker, rfl⟩ := h
      obtain ⟨marker', hmarker', rfl⟩ := h'
      obtain rfl := Except.ok.inj (hmarker.symm.trans hmarker')
      exact hone _
  · rename_i hshort
    rw [if_neg hshort] at h'
    exact tableRowDrafts_moved h h'

/-! ## Blocks -/

theorem blockDrafts_moved (h : chunker.blockDrafts block = .ok drafts)
    (h' : chunker.blockDrafts (block.moved id span) = .ok drafts') :
    SameCut block (block.moved id span) drafts drafts' := by
  unfold blockDrafts at h h'
  have htype : (block.moved id span).blockType = block.blockType := rfl
  rw [htype] at h'
  cases hkind : block.blockType <;> rw [hkind] at h h' <;>
    first
    | exact proseDrafts_moved h h'
    | exact (codeDrafts_moved h h').same
    | exact (lineDrafts_moved h h').same
    | exact (tableDrafts_moved h h').same

/-- A block puts the same contents into the stream of drafts wherever it stands. -/
theorem blockStream_moved {items items' : List (Option Draft)}
    (h : chunker.blockStream block = .ok items)
    (h' : chunker.blockStream (block.moved id span) = .ok items') :
    SameCut block (block.moved id span) items.reduceOption items'.reduceOption := by
  unfold blockStream at h h'
  have htype : (block.moved id span).blockType = block.blockType := rfl
  rw [htype] at h'
  split at h
  · rename_i hgap
    rw [if_pos hgap] at h'
    obtain rfl := Except.ok.inj h
    obtain rfl := Except.ok.inj h'
    exact (FixedCut.nil _ _).same
  · rename_i hgap
    rw [if_neg hgap] at h'
    obtain ⟨ds, hds, rfl⟩ := map_ok.mp h
    obtain ⟨ds', hds', rfl⟩ := map_ok.mp h'
    have hreduce (ds : List Draft) : (ds.map some).reduceOption = ds := by
      simp [List.reduceOption]
    rw [hreduce, hreduce]
    exact blockDrafts_moved hds hds'

end Blocks

end MDRack.Markdown
