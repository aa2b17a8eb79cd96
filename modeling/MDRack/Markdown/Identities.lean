import MDRack.Lib.Occurrences
import MDRack.Markdown.Chunking
import Mathlib.Data.List.Nodup

/-!
# Identities of blocks and chunks (`IndexingService`)

The identity of a block is made of its kind, its heading path, its content and the number of the
blocks before it that agree with it in these.  The identity of a chunk is made of the blocks that it
is from, its kind, its text and such a number.

* `stableDocumentIdentities`, `stableChunkIdentities` — the identities of a document.

Principal result: `identities_nodup` — all identities of a document are distinct.
-/

namespace MDRack.Markdown

open Json (Value)
open Occurrences

def BlockType.value : BlockType → String
  | .frontmatter => "frontmatter"
  | .heading => "heading"
  | .paragraph => "paragraph"
  | .list => "list"
  | .blockquote => "blockquote"
  | .callout => "callout"
  | .code => "code"
  | .mermaid => "mermaid"
  | .table => "table"
  | .thematicBreak => "thematic_break"
  | .unknown => "unknown"

/-- `_WHITESPACE.sub(" ", text)`; `inside` tells whether the character before is a blank. -/
def collapseBlanks : Bool → List Char → List Char
  | _, [] => []
  | inside, c :: rest =>
    if isSpace c then
      if inside then collapseBlanks true rest else ' ' :: collapseBlanks true rest
    else c :: collapseBlanks false rest

/-- The content that `content_fingerprint` hashes. -/
def normalizedContent (content : List Char) : List Char :=
  strip ((normalizeCrlf content).map fun c => if c = '\r' then '\n' else c)

/-- What identities depend on besides the document.  `shortDigest` is `hexdigest()[:32]` of the
SHA-256 of a text, and `casefold` is `str.casefold`. -/
structure IndexingService where
  chunker : StructuralChunker
  parserVersion : String
  chunkerVersion : String
  casefold : List Char → List Char
  shortDigest : String → String

namespace IndexingService

variable (service : IndexingService)

def normalizeHeadingPath (parts : List (List Char)) : List (List Char) :=
  parts.map fun part => service.casefold (strip (collapseBlanks false part))

/-- `logical_id`. -/
def logicalId (kind : String) (parts : List Value) : String :=
  kind ++ "_" ++ service.shortDigest (Json.dumps (.arr parts))

theorem logicalId_visible {kind : String} (h : hasVisible kind = true) (parts : List Value) :
    hasVisible (service.logicalId kind parts) = true := by
  unfold hasVisible at h ⊢
  rw [logicalId, String.toList_append, String.toList_append, List.any_append, List.any_append, h]
  rfl

theorem block_visible : hasVisible "block" = true := by decide

/-! ## Blocks -/

/-- Kind, heading path and fingerprint of a block. -/
def blockKey (block : SourceBlock) : String × List (List Char) × String :=
  (block.blockType.value, service.normalizeHeadingPath block.headingPath,
    contentFingerprint service.chunker.sha256 block.rawMarkdown)

def blockParts (documentId : NonEmptyText) (e : (String × List (List Char) × String) × Nat) :
    List Value :=
  [.str documentId.text, .str e.1.1, .arr (e.1.2.1.map fun part => .str (String.ofList part)),
    .str e.1.2.2, .int e.2, .str service.parserVersion]

def blockIdentity (documentId : NonEmptyText) (e : (String × List (List Char) × String) × Nat) :
    NonEmptyText :=
  ⟨service.logicalId "block" (service.blockParts documentId e),
    service.logicalId_visible block_visible _⟩

/-- `_stable_document_identities`. -/
def stableDocumentIdentities (document : Document) : Document :=
  { document with
    blocks := (numbered service.blockKey [] document.blocks).map fun e =>
      { e.1 with
        blockId := service.blockIdentity document.documentId (service.blockKey e.1, e.2) } }

/-! ## Chunks -/

/-- Blocks, kind and fingerprint of a chunk. -/
def chunkKey (chunk : StructuralChunker.RetrievalChunk) : List NonEmptyText × String × String :=
  (chunk.parentBlockIds, chunk.contentType.value,
    contentFingerprint service.chunker.sha256 chunk.displayContent)

def chunkParts (documentId : NonEmptyText) (e : (List NonEmptyText × String × String) × Nat) :
    List Value :=
  [.str documentId.text, .arr (e.1.1.map fun parent => .str parent.text), .str e.1.2.1,
    .str e.1.2.2, .int e.2, .str service.chunkerVersion]

def chunkIdentity (documentId : NonEmptyText) (e : (List NonEmptyText × String × String) × Nat) :
    String :=
  service.logicalId "chunk" (service.chunkParts documentId e)

/-- `_stable_chunk_identities`. -/
def stableChunkIdentities (documentId : NonEmptyText)
    (chunks : List StructuralChunker.RetrievalChunk) : List StructuralChunker.RetrievalChunk :=
  (numbered service.chunkKey [] chunks).map fun e =>
    { e.1 with chunkId := service.chunkIdentity documentId (service.chunkKey e.1, e.2) }

/-- The part of `_prepare_structural_file` that gives a parsed document its identities. -/
def prepareStructuralFile (document : Document) :
    Except Err (Document × List StructuralChunker.RetrievalChunk) := do
  let parsed := service.stableDocumentIdentities document
  let chunks ← service.chunker.build parsed
  .ok (parsed, service.stableChunkIdentities parsed.documentId chunks)

/-! ## Distinct identities -/

variable {service}

theorem blockIds_eq (document : Document) :
    (service.stableDocumentIdentities document).blocks.map (·.blockId) =
      (ranks [] (document.blocks.map service.blockKey)).map
        (service.blockIdentity document.documentId) := by
  rw [← numbered_keys, stableDocumentIdentities, List.map_map, List.map_map]
  rfl

theorem chunkIds_eq (documentId : NonEmptyText) (chunks : List StructuralChunker.RetrievalChunk) :
    (service.stableChunkIdentities documentId chunks).map (·.chunkId) =
      (ranks [] (chunks.map service.chunkKey)).map (service.chunkIdentity documentId) := by
  rw [← numbered_keys, stableChunkIdentities, List.map_map, List.map_map]
  rfl

section Injective

variable (hdigest : Function.Injective service.shortDigest)

include hdigest

theorem logicalId_injective {kind : String} {parts parts' : List Value}
    (h : service.logicalId kind parts = service.logicalId kind parts') : parts = parts' := by
  have hdumps := hdigest ((String.append_right_inj _).mp h)
  exact Json.Value.arr.inj (Json.dumps_injective hdumps)

theorem blockIdentity_injective (documentId : NonEmptyText) :
    Function.Injective (service.blockIdentity documentId) := by
  rintro ⟨⟨kind, path, content⟩, n⟩ ⟨⟨kind', path', content'⟩, n'⟩ h
  have hparts := logicalId_injective hdigest (congrArg NonEmptyText.text h)
  simp only [blockParts, List.cons.injEq, Value.str.injEq, Value.arr.injEq, Value.int.injEq,
    true_and, and_true] at hparts
  obtain ⟨rfl, hpath, rfl, hn⟩ := hparts
  have hinj : Function.Injective fun part : List Char => Value.str (String.ofList part) :=
    fun a b hab => String.ofList_injective (Value.str.inj hab)
  obtain rfl := List.map_injective_iff.mpr hinj hpath
  obtain rfl := Int.ofNat.inj hn
  rfl

theorem chunkIdentity_injective (documentId : NonEmptyText) :
    Function.Injective (service.chunkIdentity documentId) := by
  rintro ⟨⟨parents, kind, content⟩, n⟩ ⟨⟨parents', kind', content'⟩, n'⟩ h
  have hparts := logicalId_injective hdigest h
  simp only [chunkParts, List.cons.injEq, Value.str.injEq, Value.arr.injEq, Value.int.injEq,
    true_and, and_true] at hparts
  obtain ⟨hparents, rfl, rfl, hn⟩ := hparts
  have hinj : Function.Injective fun parent : NonEmptyText => Value.str parent.text :=
    fun a b hab => NonEmptyText.ext_text (Value.str.inj hab)
  obtain rfl := List.map_injective_iff.mpr hinj hparents
  obtain rfl := Int.ofNat.inj hn
  rfl

theorem blockIds_nodup (document : Document) :
    ((service.stableDocumentIdentities document).blocks.map (·.blockId)).Nodup := by
  rw [blockIds_eq]
  exact (nodup_ranks _ _).map (blockIdentity_injective hdigest _)

theorem chunkIds_nodup (documentId : NonEmptyText)
    (chunks : List StructuralChunker.RetrievalChunk) :
    ((service.stableChunkIdentities documentId chunks).map (·.chunkId)).Nodup := by
  rw [chunkIds_eq]
  exact (nodup_ranks _ _).map (chunkIdentity_injective hdigest _)

end Injective

/-- The kinds of identities differ in their first letter. -/
theorem blockId_ne_chunkId (documentId : NonEmptyText)
    (e : (String × List (List Char) × String) × Nat)
    (e' : (List NonEmptyText × String × String) × Nat) :
    (service.blockIdentity documentId e).text ≠ service.chunkIdentity documentId e' := by
  intro h
  have hhead := congrArg (fun text => text.toList.head?) h
  simp [blockIdentity, chunkIdentity, logicalId] at hhead

/-- All identities of a document are distinct. -/
theorem identities_nodup (hdigest : Function.Injective service.shortDigest) {document parsed : Document}
    {chunks : List StructuralChunker.RetrievalChunk}
    (h : service.prepareStructuralFile document = .ok (parsed, chunks)) :
    (parsed.blocks.map (·.blockId.text) ++ chunks.map (·.chunkId)).Nodup := by
  obtain ⟨built, -, hresult⟩ := Checks.bind_ok.mp h
  obtain ⟨rfl, rfl⟩ := Prod.mk.inj (Except.ok.inj hresult)
  apply List.Nodup.append
  · have htext : Function.Injective NonEmptyText.text := fun _ _ hab => NonEmptyText.ext_text hab
    have hids := (blockIds_nodup hdigest document).map htext
    rwa [List.map_map] at hids
  · exact chunkIds_nodup hdigest _ _
  · intro id hblock hchunk
    have hblocks := congrArg (List.map NonEmptyText.text) (@blockIds_eq service document)
    rw [List.map_map] at hblocks
    have hleft : id ∈ ((service.stableDocumentIdentities document).blocks.map
        (NonEmptyText.text ∘ (·.blockId))) := hblock
    rw [hblocks, List.map_map] at hleft
    rw [chunkIds_eq] at hchunk
    obtain ⟨e, -, rfl⟩ := List.mem_map.mp hleft
    obtain ⟨e', -, heq⟩ := List.mem_map.mp hchunk
    exact blockId_ne_chunkId _ _ _ heq.symm

end IndexingService

end MDRack.Markdown
