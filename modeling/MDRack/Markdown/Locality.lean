import MDRack.Markdown.Identities
import MDRack.Markdown.Moving

/-!
# What an edit leaves as it is

Two versions of a document differ in one block.  Another block that is known by its content keeps
its identity.  Its chunks keep theirs where small drafts are merged from the same blocks.

* `OneBlockEdited` — two versions of a document.
* `Settled` — a place whose block is known by its content in both versions.
* `Grouped` — the chunks of a document, and the drafts that each is merged from.

Principal result: `identities_unique_and_local`; `merged_neighbour_changes` — a chunk that is merged
with the edited block gets another identity.
-/

namespace MDRack.Markdown

open Checks Joining Occurrences StructuralChunker

/-! ## Versions of a document -/

/-- A block that is not edited may stand at another place, under another heading. -/
structure Untouched (block block' : SourceBlock) : Prop where
  blockType : block.blockType = block'.blockType
  rawMarkdown : block.rawMarkdown = block'.rawMarkdown
  plainText : block.plainText = block'.plainText
  language : block.language = block'.language
  projectionSpans : block.projectionSpans = block'.projectionSpans

/-- The versions differ only in the block at one place. -/
structure OneBlockEdited (v w : Document) (edited : Nat) : Prop where
  documentId : v.documentId = w.documentId
  length : v.blocks.length = w.blocks.length
  others : ∀ (i : Nat) (block block' : SourceBlock), i ≠ edited → v.blocks[i]? = some block →
    w.blocks[i]? = some block' → Untouched block block'

theorem Untouched.moved {block block' : SourceBlock} (h : Untouched block block')
    (hpath : block.headingPath = block'.headingPath) :
    block' = block.moved block'.blockId block'.sourceSpan := by
  obtain ⟨htype, hraw, hplain, hlanguage, hprojection⟩ := h
  cases block'
  simp_all [SourceBlock.moved]

namespace IndexingService

variable (service : IndexingService)

/-- Heading path and content of a block. -/
def underHeading (block : SourceBlock) : List (List Char) × List Char :=
  (service.normalizeHeadingPath block.headingPath, normalizedContent block.rawMarkdown)

/-- No other block has the content under the same heading path. -/
def OccursOnce (document : Document) (block : SourceBlock) : Prop :=
  (document.blocks.filter fun other =>
    decide (service.underHeading other = service.underHeading block)).length = 1

/-- Another place than the edited one, where both versions have a block under the same heading path
whose content occurs once. -/
def Settled (v w : Document) (edited i : Nat) : Prop :=
  i ≠ edited ∧ ∃ block block', v.blocks[i]? = some block ∧ w.blocks[i]? = some block' ∧
    block.headingPath = block'.headingPath ∧ service.OccursOnce v block ∧ service.OccursOnce w block'

variable {service}

/-! ## Blocks -/

variable (service) in
theorem stable_getElem? {document : Document} {i : Nat} {block : SourceBlock}
    (h : document.blocks[i]? = some block) :
    ∃ n, (service.blockKey block, n) ∈ ranks [] (document.blocks.map service.blockKey) ∧
      (service.stableDocumentIdentities document).blocks[i]? =
        some (block.moved (service.blockIdentity document.documentId (service.blockKey block, n))
          block.sourceSpan) := by
  have hitems := numbered_items service.blockKey [] document.blocks
  rw [← hitems, List.getElem?_map] at h
  obtain ⟨e, he, rfl⟩ := Option.map_eq_some_iff.mp h
  refine ⟨e.2, ?_, ?_⟩
  · rw [← numbered_keys]
    exact List.mem_map.mpr ⟨e, List.mem_of_getElem? he, rfl⟩
  · rw [stableDocumentIdentities, List.getElem?_map, he]
    rfl

/-- Blocks of one key have one content under one heading path. -/
theorem key_of_once (hsha : Function.Injective service.chunker.sha256) {document : Document}
    {block : SourceBlock} (hmem : block ∈ document.blocks) (h : service.OccursOnce document block) :
    ((document.blocks.map service.blockKey).filter
      fun key => decide (key = service.blockKey block)).length = 1 := by
  rw [List.filter_map, List.length_map]
  apply Nat.le_antisymm
  · rw [OccursOnce] at h
    rw [← h]
    apply List.Sublist.length_le
    apply List.monotone_filter_right
    intro other hkey
    have heq : service.blockKey other = service.blockKey block := of_decide_eq_true hkey
    simp only [blockKey, Prod.mk.injEq] at heq
    exact decide_eq_true (Prod.ext heq.2.1 (String.ofList_injective (hsha heq.2.2)))
  · exact List.length_pos_of_mem (List.mem_filter.mpr ⟨hmem, decide_eq_true rfl⟩)

theorem blockKey_settled {block block' : SourceBlock} (h : Untouched block block')
    (hpath : block.headingPath = block'.headingPath) :
    service.blockKey block = service.blockKey block' := by
  rw [blockKey, blockKey, h.blockType, hpath, h.rawMarkdown]

/-- The block at a settled place is the same, up to its span. -/
theorem settled_parsed (hsha : Function.Injective service.chunker.sha256) {v w : Document}
    {edited i : Nat} (hedit : OneBlockEdited v w edited) (h : service.Settled v w edited i) :
    ∃ block span, (service.stableDocumentIdentities v).blocks[i]? = some block ∧
      (service.stableDocumentIdentities w).blocks[i]? = some (block.moved block.blockId span) := by
  obtain ⟨hother, block, block', hblock, hblock', hpath, honce, honce'⟩ := h
  have huntouched := hedit.others i block block' hother hblock hblock'
  obtain ⟨n, hn, hparsed⟩ := stable_getElem? service hblock
  obtain ⟨n', hn', hparsed'⟩ := stable_getElem? service hblock'
  obtain rfl := rank_of_once (key_of_once hsha (List.mem_of_getElem? hblock) honce) hn
  obtain rfl := rank_of_once (key_of_once hsha (List.mem_of_getElem? hblock') honce') hn'
  refine ⟨_, block'.sourceSpan, hparsed, ?_⟩
  rw [hparsed', huntouched.moved hpath, ← hedit.documentId]
  congr 1

end IndexingService

/-! ## Chunks and the drafts that they are merged from -/

/-- The place of the block, and the content of the draft. -/
def Draft.tagged (ids : List NonEmptyText) (draft : Draft) :
    Nat × (List Char × RetrievalContentType × Bool) :=
  (ids.idxOf draft.head.blockId, draft.content)

/-- The chunk that a group of drafts is merged to. -/
structure MergedTo (ids : List NonEmptyText)
    (group : List (Nat × (List Char × RetrievalContentType × Bool))) (chunk : RetrievalChunk) :
    Prop where
  parents : chunk.parentBlockIds.map some = group.map fun part => ids[part.1]?
  places : chunk.parentBlockIds.map ids.idxOf = group.map (·.1)
  contentType : some chunk.contentType = group.head?.map fun part => part.2.2.1
  display : chunk.displayContent = "\n\n".toList.intercalate (group.map fun part => part.2.1)

section Groups

variable {chunker : StructuralChunker}

theorem chunkOf_contentType {document : Document} {draft : Draft × Nat} {chunk : RetrievalChunk}
    (h : chunker.chunkOf document draft = .ok chunk) : chunk.contentType = draft.1.contentType := by
  simp only [chunkOf, bind_ok, require_ok, exists_const] at h
  obtain ⟨-, -, h⟩ := h
  split at h
  · obtain rfl := Except.ok.inj h
    rfl
  · cases h

/-- What a block puts into the stream is of this block, and several drafts are not mergeable. -/
theorem blockStream_own {block : SourceBlock} {items : List (Option Draft)}
    (h : chunker.blockStream block = .ok items) :
    (∀ draft ∈ items.reduceOption, draft.blocks = [block]) ∧
      ((∃ draft ∈ items.reduceOption, draft.mergeable = true) → items.reduceOption.length ≤ 1) := by
  have hself : chunker.blockStream (block.moved block.blockId block.sourceSpan) = .ok items := h
  obtain ⟨contents, hcut, -, hmany⟩ := blockStream_moved h hself
  have hof : ∀ draft ∈ items.reduceOption, draft.blocks = [block] ∧ draft.content ∈ contents := by
    intro draft hdraft
    have hmem : (draft.blocks, draft.content) ∈ contents.map fun content => ([block], content) := by
      rw [← hcut]
      exact List.mem_map.mpr ⟨draft, hdraft, rfl⟩
    obtain ⟨content, hcontent, heq⟩ := List.mem_map.mp hmem
    obtain ⟨hblocks, rfl⟩ := Prod.mk.inj heq
    exact ⟨hblocks.symm, hcontent⟩
  refine ⟨fun draft hdraft => (hof draft hdraft).1, ?_⟩
  rintro ⟨draft, hdraft, hmergeable⟩
  rcases hmany with hfixed | hone
  · have hfalse := hfixed _ (hof draft hdraft).2
    rw [show draft.content.2.2 = draft.mergeable from rfl, hmergeable] at hfalse
    cases hfalse
  · have hlength := congrArg List.length hcut
    rw [List.length_map, List.length_map] at hlength
    omega

theorem head_of_blocks {draft : Draft} {block : SourceBlock} (h : draft.blocks = [block]) :
    draft.head = block := (List.cons.inj h).1

/-- The drafts of a stream are of blocks of the document, and those of one block are its own. -/
theorem stream_own {blocks : List SourceBlock} {streams : List (List (Option Draft))}
    (h : mapAll chunker.blockStream blocks = .ok streams) :
    (∀ draft ∈ streams.flatten.reduceOption, draft.blocks = [draft.head] ∧ draft.head ∈ blocks) ∧
      ((blocks.map (·.blockId)).Nodup → ∀ block ∈ blocks, ∃ items,
        chunker.blockStream block = .ok items ∧ streams.flatten.reduceOption.filter
          (fun draft => decide (draft.head.blockId = block.blockId)) = items.reduceOption) := by
  induction blocks generalizing streams with
  | nil =>
    obtain rfl := Except.ok.inj h
    exact ⟨fun _ hdraft => absurd hdraft List.not_mem_nil, fun _ _ hblock =>
      absurd hblock List.not_mem_nil⟩
  | cons first rest ih =>
    simp only [mapAll, bind_ok, Except.ok.injEq] at h
    obtain ⟨items, hitems, more, hmore, rfl⟩ := h
    obtain ⟨hrest, hown⟩ := ih hmore
    have hfirst := (blockStream_own hitems).1
    rw [List.flatten_cons, List.reduceOption_append]
    refine ⟨fun draft hdraft => ?_, fun hnodup block hblock => ?_⟩
    · rcases List.mem_append.mp hdraft with hdraft | hdraft
      · have hblocks := hfirst draft hdraft
        obtain rfl := head_of_blocks hblocks
        exact ⟨hblocks, List.mem_cons_self⟩
      · exact ⟨(hrest draft hdraft).1, List.mem_cons_of_mem _ (hrest draft hdraft).2⟩
    · rw [List.map_cons, List.nodup_cons] at hnodup
      rw [List.filter_append]
      rcases List.mem_cons.mp hblock with rfl | hblock
      · refine ⟨items, hitems, ?_⟩
        have hall : items.reduceOption.filter
            (fun draft => decide (draft.head.blockId = block.blockId)) = items.reduceOption := by
          apply List.filter_eq_self.mpr
          intro draft hdraft
          exact decide_eq_true (congrArg _ (head_of_blocks (hfirst draft hdraft)))
        have hnone : more.flatten.reduceOption.filter
            (fun draft => decide (draft.head.blockId = block.blockId)) = [] := by
          apply List.filter_eq_nil_iff.mpr
          intro draft hdraft hid
          apply hnodup.1
          rw [← of_decide_eq_true hid]
          exact List.mem_map_of_mem (hrest draft hdraft).2
        rw [hall, hnone, List.append_nil]
      · obtain ⟨own, hstream, hfilter⟩ := hown hnodup.2 block hblock
        refine ⟨own, hstream, ?_⟩
        have hnone : items.reduceOption.filter
            (fun draft => decide (draft.head.blockId = block.blockId)) = [] := by
          apply List.filter_eq_nil_iff.mpr
          intro draft hdraft hid
          apply hnodup.1
          rw [← head_of_blocks (hfirst draft hdraft), of_decide_eq_true hid]
          exact List.mem_map_of_mem hblock
        rw [hnone, List.nil_append, hfilter]

/-- The chunks of a document, and the groups of drafts that they are merged from. -/
structure Grouped (chunker : StructuralChunker) (document : Document) (chunks : List RetrievalChunk)
    (groups : List (List Draft)) : Prop where
  merged : List.Forall₂ (fun group chunk => MergedTo (document.blocks.map (·.blockId))
    (group.map (Draft.tagged (document.blocks.map (·.blockId)))) chunk) groups chunks
  heads : ∀ draft ∈ groups.flatten, draft.head ∈ document.blocks
  own : ∀ block ∈ document.blocks, ∃ items, chunker.blockStream block = .ok items ∧
    groups.flatten.filter (fun draft => decide (draft.head.blockId = block.blockId)) =
      items.reduceOption
  mergeable : ∀ group ∈ groups, 2 ≤ group.length → ∀ part ∈ group, part.mergeable = true

theorem mergedTo_of_group {document : Document} {group : List Draft} {merged : Draft}
    {chunk : RetrievalChunk} (hjoined : JoinedFrom chunker group merged)
    (hown : ∀ draft ∈ group, draft.blocks = [draft.head] ∧ draft.head ∈ document.blocks)
    (hparents : chunk.parentBlockIds = merged.blocks.map (·.blockId))
    (htype : chunk.contentType = merged.contentType) (hdisplay : chunk.displayContent = merged.display) :
    MergedTo (document.blocks.map (·.blockId))
      (group.map (Draft.tagged (document.blocks.map (·.blockId)))) chunk := by
  have hheads : merged.blocks = group.map (·.head) := by
    rw [hjoined.blocks, List.map_eq_flatMap]
    exact List.flatMap_congr fun draft hdraft => (hown draft hdraft).1
  rw [hheads, List.map_map] at hparents
  refine ⟨?_, ?_, ?_, ?_⟩
  · rw [hparents, List.map_map, List.map_map]
    apply List.map_congr_left
    intro draft hdraft
    have hmem : draft.head.blockId ∈ document.blocks.map (·.blockId) :=
      List.mem_map_of_mem (hown draft hdraft).2
    have hlt := List.idxOf_lt_length_of_mem hmem
    simp only [Function.comp_apply, Draft.tagged]
    rw [List.getElem?_eq_getElem hlt, List.getElem_idxOf]
  · rw [hparents, List.map_map, List.map_map]
    rfl
  · rw [htype]
    match group, hjoined, hheads with
    | [], _, hheads => cases hheads
    | [draft], hjoined, _ =>
      rw [hjoined.alone draft rfl]
      rfl
    | first :: second :: rest, hjoined, _ =>
      have halike := hjoined.alike (by simp) first List.mem_cons_self
      rw [← halike.contentType]
      rfl
  · rw [hdisplay, hjoined.display, List.map_map]
    rfl

theorem build_grouped {document : Document} {chunks : List RetrievalChunk}
    (hnodup : (document.blocks.map (·.blockId)).Nodup) (h : chunker.build document = .ok chunks) :
    ∃ groups, Grouped chunker document chunks groups := by
  obtain ⟨streams, hstreams, hchunks⟩ := bind_ok.mp h
  obtain ⟨-, -, groups, hflat, hjoined⟩ := @mergeSmallDrafts_keeps chunker streams.flatten
  obtain ⟨hheads, hown⟩ := stream_own hstreams
  rw [← hflat] at hheads
  simp only [← hflat] at hown
  have hchunkOf := mapAll_forall₂ hchunks
  refine ⟨groups, ?_, fun draft hdraft => (hheads draft hdraft).2, hown hnodup, ?_⟩
  · have hzip : List.Forall₂ (fun merged chunk => chunk.parentBlockIds =
        (merged : Draft).blocks.map (·.blockId) ∧ chunk.contentType = merged.contentType ∧
        chunk.displayContent = merged.display)
        (chunker.mergeSmallDrafts none streams.flatten) chunks := by
      rw [← List.zipIdx_map_fst 0 (chunker.mergeSmallDrafts none streams.flatten),
        List.forall₂_map_left_iff]
      exact hchunkOf.imp fun draft chunk hof =>
        ⟨(chunkOf_ok hof).parents, chunkOf_contentType hof, (chunkOf_ok hof).display⟩
    have hgroup : ∀ group ∈ groups, ∀ draft ∈ group,
        draft.blocks = [draft.head] ∧ draft.head ∈ document.blocks :=
      fun group hgroup draft hdraft => hheads draft (List.mem_flatten_of_mem hgroup hdraft)
    clear hchunkOf hchunks hflat hown hheads h hstreams
    revert hjoined hzip
    generalize chunker.mergeSmallDrafts none streams.flatten = drafts
    intro hjoined hzip
    induction hjoined generalizing chunks with
    | nil =>
      cases hzip
      exact .nil
    | cons hfirst hrest ih =>
      cases hzip with
      | cons hchunk hmore =>
        obtain ⟨hhead, htail⟩ := List.forall_mem_cons.mp hgroup
        exact .cons (mergedTo_of_group hfirst hhead hchunk.1 hchunk.2.1 hchunk.2.2)
          (ih htail hmore)
  · intro group hgroup hmany part hpart
    obtain ⟨i, hi, rfl⟩ := List.getElem_of_mem hgroup
    have hof := hjoined.get hi (hjoined.length_eq ▸ hi)
    exact (hof.alike hmany part hpart).mergeable

/-! ## The drafts of a place -/

/-- The groups of drafts with their places. -/
def Document.taggedGroups (document : Document) (groups : List (List Draft)) :
    List (List (Nat × (List Char × RetrievalContentType × Bool))) :=
  groups.map fun group => group.map (Draft.tagged (document.blocks.map (·.blockId)))

/-- The drafts of a place are those of its block. -/
theorem Grouped.ofKey_tagged {document : Document} {chunks : List RetrievalChunk}
    {groups : List (List Draft)} (h : Grouped chunker document chunks groups)
    (hnodup : (document.blocks.map (·.blockId)).Nodup) {i : Nat} {block : SourceBlock}
    (hblock : document.blocks[i]? = some block) :
    ∃ items, chunker.blockStream block = .ok items ∧
      (∀ draft ∈ groups.flatten, draft.head.blockId = block.blockId → draft ∈ items.reduceOption) ∧
      ofKey i (document.taggedGroups groups).flatten =
        items.reduceOption.map fun draft => (i, draft.content) := by
  obtain ⟨items, hitems, hfilter⟩ := h.own block (List.mem_of_getElem? hblock)
  have hplace : ∀ draft ∈ groups.flatten,
      (draft.tagged (document.blocks.map (·.blockId))).1 = i ↔ draft.head.blockId = block.blockId := by
    intro draft hdraft
    obtain ⟨hlt, rfl⟩ := List.getElem?_eq_some_iff.mp hblock
    have hlength : i < (document.blocks.map (·.blockId)).length := by rwa [List.length_map]
    have hid : (document.blocks.map (·.blockId))[i] = document.blocks[i].blockId :=
      List.getElem_map _
    have hmem : draft.head.blockId ∈ document.blocks.map (·.blockId) :=
      List.mem_map_of_mem (h.heads draft hdraft)
    rw [Draft.tagged, ← hid]
    constructor
    · rintro rfl
      exact (List.getElem_idxOf _).symm
    · rintro heq
      rw [heq]
      exact hnodup.idxOf_getElem i hlength
  refine ⟨items, hitems, fun draft hdraft hid => ?_, ?_⟩
  · rw [← hfilter]
    exact List.mem_filter.mpr ⟨hdraft, decide_eq_true hid⟩
  · have hflat : (document.taggedGroups groups).flatten =
        groups.flatten.map (Draft.tagged (document.blocks.map (·.blockId))) := by
      rw [Document.taggedGroups, List.map_flatten]
    have hcongr : groups.flatten.filter ((fun item => decide (item.1 = i)) ∘
        Draft.tagged (document.blocks.map (·.blockId))) = items.reduceOption := by
      rw [← hfilter]
      apply List.filter_congr
      intro draft hdraft
      exact decide_eq_decide.mpr (hplace draft hdraft)
    rw [hflat, ofKey, List.filter_map, hcongr]
    apply List.map_congr_left
    intro draft hdraft
    rw [← hcongr] at hdraft
    obtain ⟨-, hkey⟩ := List.mem_filter.mp hdraft
    exact Prod.ext (of_decide_eq_true hkey) rfl

/-- A group of several drafts has the only draft of each of its blocks. -/
theorem Grouped.only_draft {document : Document} {chunks : List RetrievalChunk}
    {groups : List (List Draft)} (h : Grouped chunker document chunks groups)
    (hnodup : (document.blocks.map (·.blockId)).Nodup) :
    ∀ group ∈ document.taggedGroups groups, 2 ≤ group.length → ∀ item ∈ group,
      (ofKey item.1 (document.taggedGroups groups).flatten).length ≤ 1 := by
  intro tagged htagged hmany item hitem
  obtain ⟨group, hgroup, rfl⟩ := List.mem_map.mp htagged
  obtain ⟨part, hpart, rfl⟩ := List.mem_map.mp hitem
  rw [List.length_map] at hmany
  have hflat : part ∈ groups.flatten := List.mem_flatten_of_mem hgroup hpart
  have hmem := h.heads part hflat
  have hid : part.head.blockId ∈ document.blocks.map (·.blockId) := List.mem_map_of_mem hmem
  have hlt := List.idxOf_lt_length_of_mem hid
  have hget : (document.blocks.map (·.blockId))[(document.blocks.map (·.blockId)).idxOf
      part.head.blockId]? = some part.head.blockId := by
    rw [List.getElem?_eq_getElem hlt, List.getElem_idxOf]
  rw [List.getElem?_map] at hget
  obtain ⟨block, hblock, hblockId⟩ := Option.map_eq_some_iff.mp hget
  obtain ⟨items, hitems, hin, hkey⟩ := h.ofKey_tagged hnodup hblock
  have hpartIn := hin part hflat hblockId.symm
  have hlength := (blockStream_own hitems).2 ⟨part, hpartIn, h.mergeable group hgroup hmany part hpart⟩
  rw [show (part.tagged (document.blocks.map (·.blockId))).1 =
    (document.blocks.map (·.blockId)).idxOf part.head.blockId from rfl, hkey, List.length_map]
  exact hlength

end Groups

/-! ## The chunks of a place -/

/-- The places of the blocks that a chunk is from. -/
def Document.places (document : Document) (chunk : RetrievalChunk) : List Nat :=
  chunk.parentBlockIds.map (document.blocks.map (·.blockId)).idxOf

/-- The chunks that are from the block at a place. -/
def Document.chunksOf (document : Document) (chunks : List RetrievalChunk) (i : Nat) :
    List RetrievalChunk := chunks.filter fun chunk => decide (i ∈ document.places chunk)

theorem Grouped.chunksOf_having {chunker : StructuralChunker} {document : Document}
    {chunks : List RetrievalChunk} {groups : List (List Draft)}
    (h : Grouped chunker document chunks groups) (i : Nat) :
    List.Forall₂ (MergedTo (document.blocks.map (·.blockId)))
      (having i (document.taggedGroups groups)) (document.chunksOf chunks i) := by
  have hmerged : List.Forall₂ (MergedTo (document.blocks.map (·.blockId)))
      (document.taggedGroups groups) chunks := List.forall₂_map_left_iff.mpr h.merged
  apply List.rel_filter _ hmerged
  intro group chunk hof
  simp only [decide_eq_true_eq]
  rw [← hof.places]
  rfl

/-- Chunks that are merged from the same groups have the same keys, where the blocks of the groups
have the same identities. -/
theorem keys_of_merged (service : IndexingService) {ids ids' : List NonEmptyText}
    {groups : List (List (Nat × (List Char × RetrievalContentType × Bool)))}
    {chunks chunks' : List RetrievalChunk} (h : List.Forall₂ (MergedTo ids) groups chunks)
    (h' : List.Forall₂ (MergedTo ids') groups chunks')
    (hids : ∀ group ∈ groups, ∀ part ∈ group, ids[part.1]? = ids'[part.1]?) :
    chunks.map service.chunkKey = chunks'.map service.chunkKey := by
  induction groups generalizing chunks chunks' with
  | nil =>
    cases h
    cases h'
    rfl
  | cons group rest ih =>
    cases h with
    | cons hfirst hrest =>
      cases h' with
      | cons hfirst' hrest' =>
        obtain ⟨hgroup, hmore⟩ := List.forall_mem_cons.mp hids
        have hparents := hfirst.parents.trans
          ((List.map_congr_left hgroup).trans hfirst'.parents.symm)
        have htype := Option.some.inj (hfirst.contentType.trans hfirst'.contentType.symm)
        rw [List.map_cons, List.map_cons, ih hrest hrest' hmore]
        congr 1
        rw [IndexingService.chunkKey, IndexingService.chunkKey, htype,
          hfirst.display.trans hfirst'.display.symm,
          List.map_injective_iff.mpr (Option.some_injective _) hparents]

namespace IndexingService

variable {service : IndexingService}

/-- The identities of the chunks of a place are made of the keys of these chunks alone. -/
theorem chunkIds_chunksOf (document : Document) (documentId : NonEmptyText)
    (chunks : List RetrievalChunk) (i : Nat) :
    (document.chunksOf (service.stableChunkIdentities documentId chunks) i).map (·.chunkId) =
      (ranks [] ((document.chunksOf chunks i).map service.chunkKey)).map
        (service.chunkIdentity documentId) := by
  have hkeys : (document.chunksOf chunks i).map service.chunkKey =
      (chunks.map service.chunkKey).filter fun key =>
        decide (i ∈ key.1.map (document.blocks.map (·.blockId)).idxOf) := by
    rw [List.filter_map]
    rfl
  rw [hkeys, ← filter_ranks, ← numbered_keys, List.filter_map, List.map_map, Document.chunksOf,
    stableChunkIdentities, List.filter_map, List.map_map]
  rfl

variable (service) in
theorem chunksOf_places (document : Document) (documentId : NonEmptyText)
    {chunks : List RetrievalChunk} {i : Nat} {chunk : RetrievalChunk}
    (h : chunk ∈ document.chunksOf chunks i) :
    ∃ stable ∈ document.chunksOf (service.stableChunkIdentities documentId chunks) i,
      document.places stable = document.places chunk := by
  obtain ⟨hmem, hplace⟩ := List.mem_filter.mp h
  rw [← numbered_items service.chunkKey [] chunks] at hmem
  obtain ⟨e, he, rfl⟩ := List.mem_map.mp hmem
  exact ⟨_, List.mem_filter.mpr ⟨List.mem_map.mpr ⟨e, he, rfl⟩, hplace⟩, rfl⟩

/-- The chunks of a place keep their identities where they are merged from the same settled places
in both versions. -/
theorem chunkIds_settled (hsha : Function.Injective service.chunker.sha256)
    (hdigest : Function.Injective service.shortDigest) {v w : Document} {edited i : Nat}
    (hedit : OneBlockEdited v w edited) {parsed parsed' : Document}
    {chunks chunks' : List RetrievalChunk}
    (hv : service.prepareStructuralFile v = .ok (parsed, chunks))
    (hw : service.prepareStructuralFile w = .ok (parsed', chunks')) {places : List Nat}
    (hplaces : ∀ place ∈ places, service.Settled v w edited place)
    (hfrom : ∀ chunk ∈ parsed.chunksOf chunks i, parsed.places chunk = places)
    (hfrom' : ∀ chunk ∈ parsed'.chunksOf chunks' i, parsed'.places chunk = places) :
    (parsed.chunksOf chunks i).map (·.chunkId) = (parsed'.chunksOf chunks' i).map (·.chunkId) := by
  obtain ⟨built, hbuilt, hresult⟩ := bind_ok.mp hv
  obtain ⟨rfl, rfl⟩ := Prod.mk.inj (Except.ok.inj hresult)
  obtain ⟨built', hbuilt', hresult'⟩ := bind_ok.mp hw
  obtain ⟨rfl, rfl⟩ := Prod.mk.inj (Except.ok.inj hresult')
  have hnodup := blockIds_nodup hdigest v
  have hnodup' := blockIds_nodup hdigest w
  obtain ⟨groups, hgroups⟩ := build_grouped hnodup hbuilt
  obtain ⟨groups', hgroups'⟩ := build_grouped hnodup' hbuilt'
  have hmerged := hgroups.chunksOf_having i
  have hmerged' := hgroups'.chunksOf_having i
  -- each group with the place is from the places
  have hkeys : ∀ group ∈ having i ((service.stableDocumentIdentities v).taggedGroups groups),
      group.map (·.1) = places := by
    intro group hgroup
    obtain ⟨n, hn, rfl⟩ := List.getElem_of_mem hgroup
    have hof := hmerged.get hn (hmerged.length_eq ▸ hn)
    obtain ⟨stable, hstable, heq⟩ := chunksOf_places service _ v.documentId
      (List.get_mem _ ⟨n, hmerged.length_eq ▸ hn⟩)
    exact (hof.places.symm.trans heq.symm).trans (hfrom stable hstable)
  have hkeys' : ∀ group ∈ having i ((service.stableDocumentIdentities w).taggedGroups groups'),
      group.map (·.1) = places := by
    intro group hgroup
    obtain ⟨n, hn, rfl⟩ := List.getElem_of_mem hgroup
    have hof := hmerged'.get hn (hmerged'.length_eq ▸ hn)
    obtain ⟨stable, hstable, heq⟩ := chunksOf_places service _ w.documentId
      (List.get_mem _ ⟨n, hmerged'.length_eq ▸ hn⟩)
    exact (hof.places.symm.trans heq.symm).trans (hfrom' stable hstable)
  have hsame : ∀ place ∈ places,
      ofKey place ((service.stableDocumentIdentities v).taggedGroups groups).flatten =
        ofKey place ((service.stableDocumentIdentities w).taggedGroups groups').flatten := by
    intro place hplace
    obtain ⟨block, span, hblock, hblock'⟩ := settled_parsed hsha hedit (hplaces place hplace)
    obtain ⟨items, hitems, -, hkey⟩ := hgroups.ofKey_tagged hnodup hblock
    obtain ⟨items', hitems', -, hkey'⟩ := hgroups'.ofKey_tagged hnodup' hblock'
    obtain ⟨contents, hcut, hcut', -⟩ := blockStream_moved hitems hitems'
    have hcontents (b : SourceBlock) (drafts : List Draft) (h : CutInto b contents drafts) :
        drafts.map (fun draft => (place, draft.content)) = contents.map (place, ·) := by
      have hsnd := congrArg (List.map fun e => (place, e.2)) h
      rwa [List.map_map, List.map_map] at hsnd
    rw [hkey, hkey', hcontents _ _ hcut, hcontents _ _ hcut']
  have hhaving : having i ((service.stableDocumentIdentities v).taggedGroups groups) =
      having i ((service.stableDocumentIdentities w).taggedGroups groups') :=
    having_congr (fun group hgroup hi => hkeys group (mem_having.mpr ⟨hgroup, hi⟩))
      (fun group hgroup hi => hkeys' group (mem_having.mpr ⟨hgroup, hi⟩)) hsame
      (hgroups.only_draft hnodup)
  rw [chunkIds_chunksOf, chunkIds_chunksOf]
  rw [← hhaving] at hmerged'
  have hchunkKeys := keys_of_merged service hmerged hmerged' fun group hgroup part hpart => by
    have hplace : part.1 ∈ places := hkeys group hgroup ▸ List.mem_map_of_mem hpart
    obtain ⟨block, span, hblock, hblock'⟩ := settled_parsed hsha hedit (hplaces _ hplace)
    rw [List.getElem?_map, List.getElem?_map, hblock, hblock']
    rfl
  rw [hchunkKeys]
  exact congrArg (fun id => List.map (service.chunkIdentity id) _) hedit.documentId

/-- The identities of the blocks and chunks of a document are distinct.  When one block is edited,
every other block under the same heading path, whose content occurs once there in both versions,
keeps its identity; and its chunks keep theirs if they are merged from the same such blocks in both
versions, as they are where the block is merged with no other. -/
theorem identities_unique_and_local (service : IndexingService)
    (hsha : Function.Injective service.chunker.sha256)
    (hdigest : Function.Injective service.shortDigest) :
    (∀ document parsed chunks, service.prepareStructuralFile document = .ok (parsed, chunks) →
      (parsed.blocks.map (·.blockId.text) ++ chunks.map (·.chunkId)).Nodup) ∧
    ∀ v w edited parsed chunks parsed' chunks', OneBlockEdited v w edited →
      service.prepareStructuralFile v = .ok (parsed, chunks) →
      service.prepareStructuralFile w = .ok (parsed', chunks') →
      ∀ i, service.Settled v w edited i →
        (∃ block block', parsed.blocks[i]? = some block ∧ parsed'.blocks[i]? = some block' ∧
          block.blockId = block'.blockId) ∧
        ∀ places, (∀ place ∈ places, service.Settled v w edited place) →
          (∀ chunk ∈ parsed.chunksOf chunks i, parsed.places chunk = places) →
          (∀ chunk ∈ parsed'.chunksOf chunks' i, parsed'.places chunk = places) →
          (parsed.chunksOf chunks i).map (·.chunkId) =
            (parsed'.chunksOf chunks' i).map (·.chunkId) := by
  constructor
  · intro document parsed chunks h
    exact identities_nodup hdigest h
  · intro v w edited parsed chunks parsed' chunks' hedit hv hw i hi
    constructor
    · obtain ⟨built, -, hresult⟩ := bind_ok.mp hv
      obtain ⟨rfl, -⟩ := Prod.mk.inj (Except.ok.inj hresult)
      obtain ⟨built', -, hresult'⟩ := bind_ok.mp hw
      obtain ⟨rfl, -⟩ := Prod.mk.inj (Except.ok.inj hresult')
      obtain ⟨block, span, hblock, hblock'⟩ := settled_parsed hsha hedit hi
      exact ⟨_, _, hblock, hblock', rfl⟩
    · intro places hplaces hfrom hfrom'
      exact chunkIds_settled hsha hdigest hedit hv hw hplaces hfrom hfrom'

end IndexingService

/-! ## Two versions of a document -/

theorem lineSpan_offsets (range : Range) (h : range ∈ (none : Option Range)) : range.1 ≤ range.2 := by
  cases h

/-- A paragraph of one character on a line of its own. -/
def sampleParagraph (body : Char) (line : Nat) (h : 1 ≤ line) : SourceBlock where
  blockId := ⟨"block", Eq.refl true⟩
  blockType := .paragraph
  rawMarkdown := [body]
  plainText := some [body]
  language := none
  headingPath := []
  sourceSpan := ⟨line, line, none, h, Nat.le_refl line, lineSpan_offsets⟩
  projectionSpans := none

theorem first_line : 1 ≤ 1 := by decide

theorem third_line : 1 ≤ 3 := by decide

/-- Two paragraphs, of which the first is edited. -/
def sampleVersion (first : Char) : Document :=
  ⟨⟨"document", Eq.refl true⟩,
    [sampleParagraph first 1 first_line, sampleParagraph 'b' 3 third_line]⟩

theorem indexing_positive : ∀ value ∈ [1200, 3200, 8000, 2000, 80, 40, 80], 1 ≤ value := by decide

theorem indexing_min_within : 1200 ≤ 3200 := by decide

/-- `ChunkingConfig()` of the application. -/
def indexingChunking : StructuralChunkingConfig :=
  ⟨1200, 3200, 8000, 2000, 80, 40, 80, indexing_positive, default_target_within, indexing_min_within⟩

def sampleService (config : StructuralChunkingConfig) : IndexingService :=
  ⟨⟨config, fun text => text, noPython⟩, "1", "2", fun part => part, fun text => text⟩

theorem sampleVersion_edited : OneBlockEdited (sampleVersion 'a') (sampleVersion 'c') 0 where
  documentId := rfl
  length := rfl
  others := by
    intro i block block' hother hblock hblock'
    match i with
    | 0 => exact absurd rfl hother
    | 1 =>
      obtain rfl := Option.some.inj hblock
      obtain rfl := Option.some.inj hblock'
      exact ⟨rfl, rfl, rfl, rfl, rfl⟩
    | i + 2 => cases hblock

theorem sampleVersion_settled (config : StructuralChunkingConfig) :
    (sampleService config).Settled (sampleVersion 'a') (sampleVersion 'c') 0 1 := by
  have honce (first : Char) (h : first = 'a' ∨ first = 'c') :
      (sampleService config).OccursOnce (sampleVersion first)
        (sampleParagraph 'b' 3 third_line) := by
    have hcount : ((sampleVersion first).blocks.filter fun other =>
        decide ((sampleService defaultChunking).underHeading other =
          (sampleService defaultChunking).underHeading
            (sampleParagraph 'b' 3 third_line))).length = 1 := by
      rcases h with rfl | rfl <;> decide
    exact hcount
  exact ⟨Nat.one_ne_zero, _, _, rfl, rfl, rfl, honce 'a' (.inl rfl), honce 'c' (.inr rfl)⟩

theorem sampleVersion_prepared (config : StructuralChunkingConfig)
    (hconfig : config = defaultChunking ∨ config = indexingChunking) (first : Char)
    (hfirst : first = 'a' ∨ first = 'c') : ∃ parsed chunks,
      (sampleService config).prepareStructuralFile (sampleVersion first) = .ok (parsed, chunks) := by
  have hok : ((sampleService config).prepareStructuralFile (sampleVersion first)).isOk = true := by
    rcases hconfig with rfl | rfl <;> rcases hfirst with rfl | rfl <;> decide +kernel
  cases h : (sampleService config).prepareStructuralFile (sampleVersion first) with
  | ok result => exact ⟨result.1, result.2, rfl⟩
  | error e =>
    rw [h] at hok
    cases hok

/-- Where no small drafts are merged, the second paragraph is a chunk of its own. -/
theorem sampleVersion_places (first : Char) (hfirst : first = 'a' ∨ first = 'c') {parsed : Document}
    {chunks : List RetrievalChunk}
    (h : (sampleService defaultChunking).prepareStructuralFile (sampleVersion first) =
      .ok (parsed, chunks)) :
    ∀ chunk ∈ parsed.chunksOf chunks 1, parsed.places chunk = [1] := by
  have hplaces : ((sampleService defaultChunking).prepareStructuralFile (sampleVersion first)).map
      (fun result => (result.1.chunksOf result.2 1).map fun chunk => result.1.places chunk) =
      .ok [[1]] := by
    rcases hfirst with rfl | rfl <;> decide +kernel
  rw [h] at hplaces
  intro chunk hchunk
  have hmem : parsed.places chunk ∈ [[1]] :=
    Except.ok.inj hplaces ▸ List.mem_map.mpr ⟨chunk, hchunk, rfl⟩
  exact List.mem_singleton.mp hmem

theorem identities_sample : ∃ parsed chunks parsed' chunks',
    (sampleService defaultChunking).prepareStructuralFile (sampleVersion 'a') = .ok (parsed, chunks) ∧
    (sampleService defaultChunking).prepareStructuralFile (sampleVersion 'c') =
      .ok (parsed', chunks') ∧
    (parsed.blocks.map (·.blockId.text) ++ chunks.map (·.chunkId)).Nodup ∧
    (parsed.chunksOf chunks 1).map (·.chunkId) = (parsed'.chunksOf chunks' 1).map (·.chunkId) := by
  obtain ⟨parsed, chunks, hv⟩ := sampleVersion_prepared defaultChunking (.inl rfl) 'a' (.inl rfl)
  obtain ⟨parsed', chunks', hw⟩ := sampleVersion_prepared defaultChunking (.inl rfl) 'c' (.inr rfl)
  obtain ⟨hunique, hlocal⟩ := IndexingService.identities_unique_and_local
    (sampleService defaultChunking) (fun _ _ h => h) (fun _ _ h => h)
  have hsettled := sampleVersion_settled defaultChunking
  obtain ⟨-, hchunks⟩ := hlocal _ _ 0 _ _ _ _ sampleVersion_edited hv hw 1 hsettled
  refine ⟨parsed, chunks, parsed', chunks', hv, hw, hunique _ _ _ hv, hchunks [1] ?_ ?_ ?_⟩
  · intro place hplace
    obtain rfl := List.mem_singleton.mp hplace
    exact hsettled
  · exact sampleVersion_places 'a' (.inl rfl) hv
  · exact sampleVersion_places 'c' (.inr rfl) hw

/-- With the limits of the application both paragraphs are one chunk, so that an edit of the first
changes the identity of the only chunk of the second. -/
theorem merged_neighbour_changes : ¬ ∀ service : IndexingService,
    Function.Injective service.chunker.sha256 → Function.Injective service.shortDigest →
    (∀ document parsed chunks, service.prepareStructuralFile document = .ok (parsed, chunks) →
      (parsed.blocks.map (·.blockId.text) ++ chunks.map (·.chunkId)).Nodup) ∧
    ∀ v w edited parsed chunks parsed' chunks', OneBlockEdited v w edited →
      service.prepareStructuralFile v = .ok (parsed, chunks) →
      service.prepareStructuralFile w = .ok (parsed', chunks') →
      ∀ i, service.Settled v w edited i →
        (∃ block block', parsed.blocks[i]? = some block ∧ parsed'.blocks[i]? = some block' ∧
          block.blockId = block'.blockId) ∧
        (parsed.chunksOf chunks i).map (·.chunkId) = (parsed'.chunksOf chunks' i).map (·.chunkId) := by
  intro hclaim
  obtain ⟨parsed, chunks, hv⟩ := sampleVersion_prepared indexingChunking (.inr rfl) 'a' (.inl rfl)
  obtain ⟨parsed', chunks', hw⟩ := sampleVersion_prepared indexingChunking (.inr rfl) 'c' (.inr rfl)
  have hids := ((hclaim (sampleService indexingChunking) (fun _ _ h => h) (fun _ _ h => h)).2
    _ _ 0 _ _ _ _ sampleVersion_edited hv hw 1 (sampleVersion_settled indexingChunking)).2
  have hne : ((sampleService indexingChunking).prepareStructuralFile (sampleVersion 'a')).map
        (fun result => (result.1.chunksOf result.2 1).map (·.chunkId)) ≠
      ((sampleService indexingChunking).prepareStructuralFile (sampleVersion 'c')).map
        (fun result => (result.1.chunksOf result.2 1).map (·.chunkId)) := by
    decide +kernel
  apply hne
  rw [hv, hw]
  exact congrArg Except.ok hids

end MDRack.Markdown
