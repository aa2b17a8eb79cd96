import MDRack.Markdown.Projection
import MDRack.Markdown.Splitting

/-!
# Structural chunking (`StructuralChunker`)

Blocks of a document become drafts, small drafts of neighbouring blocks are merged, and every draft
that is left becomes a chunk.  The Python parser and the hash function are parameters.

* `spanForTextSlice` — where in the source a slice of a block's text comes from.
* `blockDrafts` — prose, code, Python and table blocks.
* `mergeSmallDrafts`, `build` — the chunks of a document.

Principal result: `chunks_within_budget` — no chunk is over the limits of the configuration.
-/

namespace MDRack.Markdown

open Checks

/-! ## Blocks -/

inductive BlockType
  | frontmatter
  | heading
  | paragraph
  | list
  | blockquote
  | callout
  | code
  | mermaid
  | table
  | thematicBreak
  | unknown
  deriving DecidableEq, Repr

inductive RetrievalContentType
  | text
  | list
  | blockquote
  | callout
  | code
  | table
  | mermaid
  | unknown
  | heading
  deriving DecidableEq, Repr

def RetrievalContentType.value : RetrievalContentType → String
  | .text => "text"
  | .list => "list"
  | .blockquote => "blockquote"
  | .callout => "callout"
  | .code => "code"
  | .table => "table"
  | .mermaid => "mermaid"
  | .unknown => "unknown"
  | .heading => "heading"

/-- Lines from one on, both ends included, and half-open character offsets. -/
structure SourceSpan where
  startLine : Nat
  endLine : Nat
  offsets : Option Range
  positive : 1 ≤ startLine
  lines_ordered : startLine ≤ endLine
  offsets_ordered : ∀ range ∈ offsets, range.1 ≤ range.2

def SourceSpan.make (startLine endLine : Nat) (offsets : Option Range) : Except Err SourceSpan :=
  if hlines : 1 ≤ startLine ∧ startLine ≤ endLine then
    if hoffsets : ∀ range ∈ offsets, range.1 ≤ range.2 then
      .ok ⟨startLine, endLine, offsets, hlines.1, hlines.2, hoffsets⟩
    else .error (.valueError "source offsets must be non-negative and ordered")
  else .error (.valueError "source span must use positive ordered line numbers")

/-- The fields of a block that the chunker reads; `attributes` only for its projection. -/
structure SourceBlock where
  blockId : NonEmptyText
  blockType : BlockType
  rawMarkdown : List Char
  plainText : Option (List Char)
  language : Option (List Char)
  headingPath : List (List Char)
  sourceSpan : SourceSpan
  projectionSpans : Option (List ProjectionSpan)

structure Document where
  documentId : NonEmptyText
  blocks : List SourceBlock

/-! ## Source bounds -/

/-- `_text_raw_bounds`. -/
def textRawBounds (raw text : List Char) (start stop : Nat) : Except Err Range :=
  match find raw text 0 raw.length with
  | some direct => .ok (direct + start, direct + stop)
  | none =>
    match find (normalizeCrlf raw) text 0 (normalizeCrlf raw).length with
    | some normalizedStart =>
      .ok ((normalizedToRaw 0 raw).getD (normalizedStart + start) 0,
        (normalizedToRaw 0 raw).getD (normalizedStart + stop) 0)
    | none => .error (.valueError "chunk text cannot be located in its source block")

/-- `raw_markdown.count("\n", 0, offset)`. -/
def newlinesBefore (raw : List Char) (offset : Nat) : Nat := (raw.take offset).count '\n'

/-- `_span_for_text_slice`. -/
def spanForTextSlice (block : SourceBlock) (text : List Char) (start stop : Nat) :
    Except Err SourceSpan := do
  let (rawStart, rawEnd) ←
    match block.projectionSpans.bind fun spans => projectedRawBounds spans start stop with
    | some bounds => .ok bounds
    | none => textRawBounds block.rawMarkdown text start stop
  SourceSpan.make (block.sourceSpan.startLine + newlinesBefore block.rawMarkdown rawStart)
    (block.sourceSpan.startLine + newlinesBefore block.rawMarkdown (max rawStart (rawEnd - 1)))
    (block.sourceSpan.offsets.map fun offsets => (offsets.1 + rawStart, offsets.1 + rawEnd))

/-! ## Drafts -/

/-- `blocks` is `head` and what is merged to it. -/
structure Draft where
  head : SourceBlock
  tail : List SourceBlock
  display : List Char
  contentType : RetrievalContentType
  span : SourceSpan
  mergeable : Bool

def Draft.blocks (draft : Draft) : List SourceBlock := draft.head :: draft.tail

structure StructuralChunkingConfig where
  minChars : Nat
  targetChars : Nat
  hardLimitChars : Nat
  maxTokens : Nat
  codeWindowLines : Nat
  tableRowsPerChunk : Nat
  mermaidWindowLines : Nat
  positive : ∀ value ∈ [minChars, targetChars, hardLimitChars, maxTokens, codeWindowLines,
    tableRowsPerChunk, mermaidWindowLines], 1 ≤ value
  target_within : targetChars ≤ hardLimitChars
  min_within : minChars ≤ targetChars

/-- A class or function definition of a module body. -/
structure PythonNode where
  lineno : Nat
  decoratorLines : List Nat
  endLineno : Option Nat

def PythonNode.startLine (node : PythonNode) : Nat := node.decoratorLines.foldl min node.lineno - 1

def PythonNode.endLine (node : PythonNode) : Nat := node.endLineno.getD node.lineno

/-- The definitions stand one after the other on the lines from `first` to `last`. -/
def Placed : Nat → List PythonNode → Nat → Prop
  | first, [], last => first ≤ last
  | first, node :: rest, last =>
    first ≤ node.startLine ∧ node.startLine < node.endLine ∧ Placed node.endLine rest last

/-- `ast.parse`: the definitions of a module, or `none` for a syntax error. -/
structure PythonParser where
  parse : List Char → Except Err (Option (List PythonNode))
  placed : ∀ content nodes, parse content = .ok (some nodes) →
    Placed 0 nodes (splitlines content).length

structure StructuralChunker where
  config : StructuralChunkingConfig
  sha256 : String → String
  python : PythonParser

/-- `text.strip("\n")`. -/
def stripNewlines (text : List Char) : List Char :=
  ((text.dropWhile (· == '\n')).reverse.dropWhile (· == '\n')).reverse

/-- `content_fingerprint`. -/
def contentFingerprint (sha256 : String → String) (content : List Char) : String :=
  sha256 (String.ofList (strip ((normalizeCrlf content).map fun c => if c = '\r' then '\n' else c)))

/-- `estimate_tokens`. -/
def estimateTokens (text : List Char) : Nat := max 1 ((byteLength text + 3) / 4)

namespace StructuralChunker

variable (chunker : StructuralChunker)

/-! ## Embedding texts -/

/-- `_embedding_prefix`. -/
def embeddingHead (block : SourceBlock) (contentType : RetrievalContentType) : List Char :=
  let heading := " > ".toList.intercalate block.headingPath
  let label := match contentType with
    | .code =>
      let language := block.language.getD []
      "[code:".toList ++ (if language = [] then "text".toList else language) ++ [']']
    | .mermaid => "[mermaid diagram]".toList
    | .text => []
    | other => '[' :: other.value.toList ++ [']']
  let head := joinLines ([heading, label].filter (· ≠ []))
  let maxBytes := chunker.config.maxTokens * 4 - 6
  if maxBytes = 0 then []
  else rstrip (head.take (fitting head ⟨head.length, maxBytes⟩ 0 head.length))

/-- `_embedding_text`. -/
def embeddingText (block : SourceBlock) (display : List Char) (contentType : RetrievalContentType) :
    List Char :=
  let head := chunker.embeddingHead block contentType
  if head = [] then display else head ++ "\n\n".toList ++ display

/-- `_body_limits`. -/
def bodyLimits (block : SourceBlock) (contentType : RetrievalContentType) (useTarget : Bool) :
    Budget :=
  let head := chunker.embeddingHead block contentType
  let separatorBytes := if head = [] then 0 else 2
  let charLimit := if useTarget then chunker.config.targetChars else chunker.config.hardLimitChars
  ⟨max 1 (min charLimit chunker.config.hardLimitChars),
    max 1 (chunker.config.maxTokens * 4 - byteLength head - separatorBytes)⟩

/-! ## Prose -/

/-- A draft of one block. -/
def draftOf (block : SourceBlock) (contentType : RetrievalContentType) (text : List Char)
    (mergeable : Bool) (slice : Range × List Char) : Except Err Draft := do
  let span ← spanForTextSlice block text slice.1.1 slice.1.2
  .ok ⟨block, [], slice.2, contentType, span, mergeable⟩

def proseType : BlockType → RetrievalContentType
  | .paragraph => .text
  | .list => .list
  | .blockquote => .blockquote
  | .callout => .callout
  | _ => .unknown

/-- The text of a prose block that is cut into pieces. -/
def proseText (block : SourceBlock) : List Char :=
  (if block.projectionSpans.isSome ∨ block.blockType = .paragraph then block.plainText
    else some block.rawMarkdown).getD []

def proseDrafts (block : SourceBlock) : Except Err (List Draft) := do
  let display := proseText block
  let contentType := proseType block.blockType
  let ranged ← splitProseRanges display
    (chunker.bodyLimits block contentType (block.blockType = .paragraph))
  let mergeable := decide (block.blockType ∈ [.paragraph, .list, .blockquote])
  mapAll (draftOf block contentType display (mergeable && ranged.length == 1))
    ((ranged.map fun range => (range, display.extract range.1 range.2)).filter
      fun slice => !blank slice.2)

/-! ## Lines of code -/

/-- The loop of `_line_drafts`, at a line: `current` holds the lines since `groupStart`. -/
def lineGroups (content : List Char) (budget : Budget) (windowLines : Nat) :
    Nat → Nat → List (List Char) → List (List Char) → Except Err (List (Range × List Char))
  | lineIndex, groupStart, current, [] =>
    let starts := lineStarts content
    .ok (if current = [] then [] else
      [((lineContentEnd content starts groupStart, lineContentEnd content starts lineIndex),
        joinLines current)])
  | lineIndex, groupStart, current, line :: rest =>
    let starts := lineStarts content
    let group := ((lineContentEnd content starts groupStart,
      lineContentEnd content starts lineIndex), joinLines current)
    let full := current ≠ [] ∧ (windowLines ≤ current.length ∨
      ¬ budget.holds (joinLines (current ++ [line])))
    if budget.holds line then
      if full then do
        let groups ← lineGroups content budget windowLines (lineIndex + 1) lineIndex [line] rest
        .ok (group :: groups)
      else lineGroups content budget windowLines (lineIndex + 1) groupStart (current ++ [line]) rest
    else do
      let pieces ← splitRange content budget [] (lineContentEnd content starts lineIndex)
        (lineContentEnd content starts (lineIndex + 1))
      let groups ← lineGroups content budget windowLines (lineIndex + 1) (lineIndex + 1) [] rest
      .ok ((if current = [] then [] else [group]) ++
        pieces.map (fun piece => (piece, content.extract piece.1 piece.2)) ++ groups)

/-- `_line_drafts`. -/
def lineDrafts (block : SourceBlock) (contentType : RetrievalContentType) (windowLines : Nat) :
    Except Err (List Draft) := do
  let content := stripNewlines (block.plainText.getD [])
  let groups ← lineGroups content (chunker.bodyLimits block contentType false) windowLines 0 0 []
    (splitlines content)
  mapAll (draftOf block contentType content false) groups

/-! ## Python -/

/-- Ranges of lines: the definitions and what is between them. -/
def pythonRanges (lineCount : Nat) : Nat → List PythonNode → List Range
  | cursor, [] => if cursor < lineCount then [(cursor, lineCount)] else []
  | cursor, node :: rest =>
    (if cursor < node.startLine then [(cursor, node.startLine)] else []) ++
      (node.startLine, node.endLine) :: pythonRanges lineCount node.endLine rest

section Windows

variable (content : List Char) (budget : Budget) (endLine : Nat)

/-- The inner loop of `_line_drafts_for_range`. -/
def selectEnd (cursor : Nat) : Nat → Nat → Nat
  | 0, selectedEnd => selectedEnd
  | fuel + 1, selectedEnd =>
    if selectedEnd < endLine ∧ selectedEnd - cursor < chunker.config.codeWindowLines then
      let starts := lineStarts content
      if budget.holds (content.extract (lineContentEnd content starts cursor)
          (lineContentEnd content starts (selectedEnd + 1))) then
        selectEnd cursor fuel (selectedEnd + 1)
      else if cursor < selectedEnd then selectedEnd
      else selectedEnd + 1
    else selectedEnd

/-- `_line_drafts_for_range`, from a line on: `fuel` bounds the lines that are left. -/
def rangeDrafts (block : SourceBlock) : Nat → Nat → Except Err (List Draft)
  | 0, _ => .ok []
  | fuel + 1, cursor =>
    if cursor < endLine then
      let starts := lineStarts content
      let selectedEnd := chunker.selectEnd content budget endLine cursor (endLine - cursor) cursor
      let start := lineContentEnd content starts cursor
      let stop := lineContentEnd content starts selectedEnd
      if budget.holds (content.extract start stop) then do
        let draft ← draftOf block .code content false
          ((start, stop), stripNewlines (content.extract start stop))
        let drafts ← rangeDrafts block fuel selectedEnd
        .ok (draft :: drafts)
      else do
        let pieces ← splitRange content budget [] start (lineContentEnd content starts (cursor + 1))
        let inner ← mapAll (draftOf block .code content false)
          (pieces.map fun piece => (piece, content.extract piece.1 piece.2))
        let drafts ← rangeDrafts block fuel (cursor + 1)
        .ok (inner ++ drafts)
    else .ok []

end Windows

/-- The drafts of one range of lines. -/
def pythonRangeDrafts (block : SourceBlock) (content : List Char) (range : Range) :
    Except Err (List Draft) :=
  let budget := chunker.bodyLimits block .code false
  let starts := lineStarts content
  let start := lineContentEnd content starts range.1
  let stop := lineContentEnd content starts range.2
  if budget.holds (content.extract start stop) ∧
      range.2 - range.1 ≤ chunker.config.codeWindowLines then do
    let draft ← draftOf block .code content false
      ((start, stop), stripNewlines (content.extract start stop))
    .ok [draft]
  else chunker.rangeDrafts content budget range.2 block (range.2 - range.1) range.1

/-- The ranges of a module that are not blank. -/
def visibleRanges (content : List Char) (nodes : List PythonNode) : List Range :=
  (pythonRanges (splitlines content).length 0 nodes).filter fun range =>
    !blank (content.extract (lineContentEnd content (lineStarts content) range.1)
      (lineContentEnd content (lineStarts content) range.2))

/-- `_python_drafts`: `none` where the text is not Python. -/
def pythonDrafts (block : SourceBlock) : Except Err (Option (List Draft)) := do
  let content := stripNewlines (block.plainText.getD [])
  if content = [] then .ok (some [])
  else
    match ← chunker.python.parse content with
    | none => .ok none
    | some [] => (chunker.lineDrafts block .code chunker.config.codeWindowLines).map some
    | some nodes => do
      let drafts ← mapAll (chunker.pythonRangeDrafts block content) (visibleRanges content nodes)
      .ok (some drafts.flatten)

/-- `(block.language or "").casefold() in {"py", "python"}`. -/
def isPython (block : SourceBlock) : Bool :=
  let language := (block.language.getD []).map Char.toLower
  language = "py".toList || language = "python".toList

def codeDrafts (block : SourceBlock) : Except Err (List Draft) := do
  match ← (if isPython block then chunker.pythonDrafts block else .ok none) with
  | some drafts => .ok drafts
  | none => chunker.lineDrafts block .code chunker.config.codeWindowLines

/-! ## Tables -/

/-- `_bounded_marker`. -/
def boundedMarker (kind : String) (source : List Char) (budget : Budget) :
    Except Err (List Char) :=
  let digest := ((contentFingerprint chunker.sha256 source).toList.take 12)
  let opening := '[' :: kind.toList ++ " omitted".toList
  let candidates := [
    opening ++ "; chars=".toList ++ Nat.toDigits 10 source.length ++ "; sha256=".toList ++ digest ++ [']'],
    opening ++ "; sha256=".toList ++ digest ++ [']'],
    opening ++ [']'],
    ['~']]
  match candidates.find? budget.holds with
  | some candidate => .ok candidate
  | none => .error (.valueError ("chunk limits cannot represent bounded " ++ kind ++ " marker"))

/-- The rows that fit under the header, at most `limit`. -/
def selectRows (header : List (List Char)) (budget : Budget) :
    Nat → List (List Char) → List (List Char) → List (List Char)
  | 0, selected, _ => selected
  | _, selected, [] => selected
  | limit + 1, selected, row :: rest =>
    if budget.holds (joinLines (header ++ selected ++ [row])) then
      selectRows header budget limit (selected ++ [row]) rest
    else selected

/-- The loop over the rows of a table: `fuel` bounds the rows that are left. -/
def tableRowDrafts (block : SourceBlock) (header : List (List Char)) (budget : Budget) :
    Nat → Nat → List (List Char) → Except Err (List Draft)
  | 0, _, _ => .ok []
  | _, _, [] => .ok []
  | fuel + 1, start, row :: rest => do
    let raw := block.rawMarkdown
    let starts := lineStarts raw
    match selectRows header budget chunker.config.tableRowsPerChunk [] (row :: rest) with
    | [] =>
      let marker ← chunker.boundedMarker "table row" row budget
      let draft ← draftOf block .table raw false ((lineContentEnd raw starts (2 + start),
        lineContentEnd raw starts (3 + start)), marker)
      let drafts ← tableRowDrafts block header budget fuel (start + 1) rest
      .ok (draft :: drafts)
    | selected =>
      let ownedStartLine := if start = 0 then 0 else 2 + start
      let draft ← draftOf block .table raw false ((lineContentEnd raw starts ownedStartLine,
        lineContentEnd raw starts (2 + start + selected.length)), joinLines (header ++ selected))
      let drafts ← tableRowDrafts block header budget fuel (start + selected.length)
        ((row :: rest).drop selected.length)
      .ok (draft :: drafts)

/-- `_table_drafts`. -/
def tableDrafts (block : SourceBlock) : Except Err (List Draft) := do
  let lines := splitlines block.rawMarkdown
  let budget := chunker.bodyLimits block .table false
  if lines.length ≤ 2 then
    if budget.holds block.rawMarkdown then
      .ok [⟨block, [], block.rawMarkdown, .table, block.sourceSpan, false⟩]
    else do
      let marker ← chunker.boundedMarker "table" block.rawMarkdown budget
      .ok [⟨block, [], marker, .table, block.sourceSpan, false⟩]
  else chunker.tableRowDrafts block (lines.take 2) budget lines.length 0 (lines.drop 2)

/-! ## Blocks and documents -/

/-- `_block_drafts`. -/
def blockDrafts (block : SourceBlock) : Except Err (List Draft) :=
  match block.blockType with
  | .code => chunker.codeDrafts block
  | .mermaid => chunker.lineDrafts block .mermaid chunker.config.mermaidWindowLines
  | .table => chunker.tableDrafts block
  | _ => chunker.proseDrafts block

/-- `_union_span`. -/
def unionSpan (left right : SourceSpan) : SourceSpan where
  startLine := min left.startLine right.startLine
  endLine := max left.endLine right.endLine
  offsets := match left.offsets, right.offsets with
    | some l, some r => some (min l.1 r.1, max l.2 r.2)
    | _, _ => none
  positive := Nat.le_min.mpr ⟨left.positive, right.positive⟩
  lines_ordered := Nat.le_trans (Nat.min_le_left _ _)
    (Nat.le_trans left.lines_ordered (Nat.le_max_left _ _))
  offsets_ordered := by
    intro range hrange
    split at hrange
    · rename_i l r hl hr
      obtain rfl := Option.some.inj hrange
      exact Nat.le_trans (Nat.min_le_left _ _)
        (Nat.le_trans (left.offsets_ordered l hl) (Nat.le_max_left _ _))
    · cases hrange

/-- `_merge_pair`. -/
def mergePair (left right : Draft) : Option Draft :=
  let display := left.display ++ "\n\n".toList ++ right.display
  if left.contentType = right.contentType ∧ left.head.headingPath = right.head.headingPath ∧
      left.contentType ∈ [.text, .list, .blockquote] ∧
      (chunker.bodyLimits left.head left.contentType true).holds display then
    some ⟨left.head, left.tail ++ right.blocks, display, left.contentType,
      unionSpan left.span right.span, true⟩
  else none

/-- The loop of `_merge_small_drafts`. -/
def mergeSmallDrafts : Option Draft → List (Option Draft) → List Draft
  | pending, [] => pending.toList
  | pending, none :: rest => pending.toList ++ mergeSmallDrafts none rest
  | pending, some draft :: rest =>
    if draft.mergeable then
      match pending with
      | none => mergeSmallDrafts (some draft) rest
      | some waiting =>
        match chunker.mergePair waiting draft with
        | some candidate =>
          if waiting.display.length < chunker.config.minChars ∨
              draft.display.length < chunker.config.minChars then
            mergeSmallDrafts (some candidate) rest
          else waiting :: mergeSmallDrafts (some draft) rest
        | none => waiting :: mergeSmallDrafts (some draft) rest
    else pending.toList ++ draft :: mergeSmallDrafts none rest

structure RetrievalChunk where
  chunkId : String
  documentId : NonEmptyText
  parentBlockIds : List NonEmptyText
  displayContent : List Char
  embeddingText : List Char
  contentType : RetrievalContentType
  chunkIndex : Nat
  headingPath : List (List Char)
  sourceSpan : SourceSpan
  estimatedTokens : Nat
  display_visible : blank displayContent = false
  embedding_visible : blank embeddingText = false

/-- `logical_id`. -/
def logicalId (kind : String) (parts : List Json.Value) : String :=
  kind ++ "_" ++ String.ofList ((chunker.sha256 (Json.dumps (.arr parts))).toList.take 32)

/-- The body of the loop of `build`. -/
def chunkOf (document : Document) (draft : Draft × Nat) : Except Err RetrievalChunk := do
  let display := draft.1.display
  let parents := draft.1.blocks.map (·.blockId)
  let embedding := chunker.embeddingText draft.1.head display draft.1.contentType
  require (display.length ≤ chunker.config.hardLimitChars)
    (.valueError "chunk display content exceeds hard character limit")
  require (estimateTokens embedding ≤ chunker.config.maxTokens)
    (.valueError "chunk embedding text exceeds estimated token limit")
  let chunkId := chunker.logicalId "chunk" (.str document.documentId.text ::
    parents.map (fun parent => .str parent.text) ++ [.int draft.2,
      .str (contentFingerprint chunker.sha256 display), .str "2"])
  if h : blank display = false ∧ blank embedding = false then
    .ok ⟨chunkId, document.documentId, parents, display, embedding, draft.1.contentType, draft.2,
      draft.1.head.headingPath, draft.1.span, estimateTokens embedding, h.1, h.2⟩
  else .error (.valueError "display_content and embedding_text are required")

/-- What a block puts into the stream of drafts. -/
def blockStream (block : SourceBlock) : Except Err (List (Option Draft)) :=
  if block.blockType ∈ [.frontmatter, .heading, .thematicBreak] then .ok [none]
  else (chunker.blockDrafts block).map fun drafts => drafts.map some

def build (document : Document) : Except Err (List RetrievalChunk) := do
  let stream ← mapAll chunker.blockStream document.blocks
  mapAll (chunker.chunkOf document) (chunker.mergeSmallDrafts none stream.flatten).zipIdx

end StructuralChunker

/-! ## Budgets of chunks -/

namespace StructuralChunker

variable {chunker : StructuralChunker} {document : Document}

/-- What a chunk takes from its draft, and what has been checked. -/
structure ChunkOf (chunker : StructuralChunker) (draft : Draft) (chunk : RetrievalChunk) :
    Prop where
  display : chunk.displayContent = draft.display
  embedding : chunk.embeddingText =
    chunker.embeddingText draft.head draft.display draft.contentType
  span : chunk.sourceSpan = draft.span
  parents : chunk.parentBlockIds = draft.blocks.map (·.blockId)
  estimated : chunk.estimatedTokens = estimateTokens chunk.embeddingText
  chars_within : chunk.displayContent.length ≤ chunker.config.hardLimitChars
  tokens_within : estimateTokens chunk.embeddingText ≤ chunker.config.maxTokens

theorem chunkOf_ok {draft : Draft × Nat} {chunk : RetrievalChunk}
    (h : chunker.chunkOf document draft = .ok chunk) : ChunkOf chunker draft.1 chunk := by
  simp only [chunkOf, bind_ok, require_ok, exists_const] at h
  obtain ⟨hchars, htokens, h⟩ := h
  split at h
  · obtain rfl := Except.ok.inj h
    exact ⟨rfl, rfl, rfl, rfl, rfl, hchars, htokens⟩
  · cases h

/-- Whichever path produced a chunk, it is within the limits of the configuration. -/
theorem chunks_within_budget {chunks : List RetrievalChunk}
    (h : chunker.build document = .ok chunks) :
    ∀ chunk ∈ chunks, chunk.displayContent.length ≤ chunker.config.hardLimitChars ∧
      estimateTokens chunk.embeddingText ≤ chunker.config.maxTokens := by
  intro chunk hchunk
  obtain ⟨stream, -, hchunks⟩ := bind_ok.mp h
  obtain ⟨draft, -, hof⟩ := mapAll_ok_mem hchunks chunk hchunk
  have hfacts := chunkOf_ok hof
  exact ⟨hfacts.chars_within, hfacts.tokens_within⟩

end StructuralChunker

theorem default_positive : ∀ value ∈ [1, 3200, 8000, 2000, 80, 40, 80], 1 ≤ value := by decide

theorem default_target_within : 3200 ≤ 8000 := by decide

theorem default_min_within : 1 ≤ 3200 := by decide

/-- `StructuralChunkingConfig()`. -/
def defaultChunking : StructuralChunkingConfig :=
  ⟨1, 3200, 8000, 2000, 80, 40, 80, default_positive, default_target_within, default_min_within⟩

theorem noPython_placed (content : List Char) (nodes : List PythonNode)
    (h : (Except.ok none : Except Err (Option (List PythonNode))) = .ok (some nodes)) :
    Placed 0 nodes (splitlines content).length := by
  cases h

/-- A parser that takes nothing for Python. -/
def noPython : PythonParser := ⟨fun _ => .ok none, noPython_placed⟩

def plainChunker : StructuralChunker := ⟨defaultChunking, fun text => text, noPython⟩

theorem sampleSpan_lines : 1 ≤ 3 := by decide

theorem sampleSpan_offsets : ∀ range ∈ some ((0, 10) : Range), range.1 ≤ range.2 := by
  rintro range ⟨⟩
  decide

/-- A code block on the first three lines of a document. -/
def sampleCode (body : Char) : SourceBlock where
  blockId := ⟨"block", Eq.refl true⟩
  blockType := .code
  rawMarkdown := "```a\n".toList ++ body :: "\n```".toList
  plainText := some [body]
  language := some ['a']
  headingPath := []
  sourceSpan := ⟨1, 3, some (0, 10), Nat.le_refl 1, sampleSpan_lines, sampleSpan_offsets⟩
  projectionSpans := none

def sampleDocument (body : Char) : Document := ⟨⟨"document", Eq.refl true⟩, [sampleCode body]⟩

theorem sampleDocument_built (body : Char) (hbody : body = 'a' ∨ body = 'b') :
    ∃ chunk, plainChunker.build (sampleDocument body) = .ok [chunk] ∧
      chunk.displayContent = [body] ∧ chunk.sourceSpan.startLine = if body = 'a' then 1 else 2 := by
  have hbuild : (plainChunker.build (sampleDocument body)).map (fun chunks => chunks.map fun chunk =>
      (chunk.displayContent, chunk.sourceSpan.startLine)) =
      .ok [([body], if body = 'a' then 1 else 2)] := by
    rcases hbody with rfl | rfl <;> decide +kernel
  obtain ⟨chunks, hchunks, hmap⟩ := map_ok.mp hbuild
  obtain ⟨chunk, rfl, hfields⟩ := List.map_eq_singleton_iff.mp hmap
  obtain ⟨hdisplay, hline⟩ := Prod.mk.inj hfields
  exact ⟨chunk, hchunks, hdisplay, hline⟩

theorem chunks_within_budget_sample : ∃ chunks,
    plainChunker.build (sampleDocument 'b') = .ok chunks ∧ ∀ chunk ∈ chunks,
      chunk.displayContent.length ≤ 8000 ∧ estimateTokens chunk.embeddingText ≤ 2000 := by
  obtain ⟨chunk, hbuild, -⟩ := sampleDocument_built 'b' (.inr rfl)
  exact ⟨[chunk], hbuild, StructuralChunker.chunks_within_budget hbuild⟩

end MDRack.Markdown
