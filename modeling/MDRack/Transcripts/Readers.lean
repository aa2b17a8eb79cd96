import MDRack.Transcripts.Accounting

/-!
# Subtitle readers (`read_srt`, `read_vtt`)

* `blocksOf` — the blocks of a source, between empty lines.
* `readBlock` — one cue as a raw atom; the formats differ in what stands behind the arrow.
* `readSrt`, `readVtt` — the readers.

Principal result: `subtitles_accounted` — each cue block becomes an atom or a diagnostic, and strict mode
succeeds exactly where nothing is to report, with the same result.
-/

namespace MDRack.Transcripts

open Checks CodePoints Cutting Markdown
open Media (HexDigest)

/-! ## Blocks -/

def arrow : List Char := ['-', '-', '>']

/-- `[block for block in text.split("\n\n") if block.strip()]`. -/
def blocksOf (text : List Char) : List (List Char) := (splitPairs '\n' text).filter fun block => !blank block

/-- The line with the arrow, among the first two. -/
def timingIndex (lines : List (List Char)) : Option Nat :=
  (lines.take 2).findIdx? fun line => decide (arrow <:+: line)

/-- What a reader takes as the end time from behind the arrow. -/
abbrev EndTime := List Char → Except Thrown (List Char)

/-- `right.strip()`. -/
def srtEnd : EndTime := fun right => .ok (strip right)

/-- `right.strip().split(maxsplit=1)[0]`. -/
def vttEnd : EndTime := fun right => getOr .indexError (wordsFrom [] right).head?

/-- The times of a cue; outside strict mode an invalid time is put off as an empty interval. -/
def readTimes (strict : Bool) (index : Nat) (left right : List Char) : Except Thrown (Nat × Nat) :=
  match (do
      let startMs ← subtitleTimestampToMs left
      let endMs ← subtitleTimestampToMs right
      .ok (startMs, endMs) : Except Thrown (Nat × Nat)) with
  | .ok times => .ok times
  | .error (.readError code _) =>
    if strict then .error (.readError code (some index)) else .ok (0, 0)
  | .error e => .error e

def millisecond : Text := ofChars ['m', 'i', 'l', 'l', 'i', 's', 'e', 'c', 'o', 'n', 'd']

section

variable (decodeReferences : List Char → Except Thrown (List Char)) (endTime : EndTime)

/-- The turn of the loop for a block of lines. -/
def readBlock (strict : Bool) (index : Nat) (lines : List (List Char)) : Except Thrown RawAtom :=
  match timingIndex lines with
  | none => if strict then .error (.readError .invalidSubtitle (some index)) else .ok (.empty index)
  | some i => do
    let (left, right) ← getOr (.valueError "not enough values to unpack") (cutAt arrow (lines.getD i []))
    let rightTime ← endTime right
    let (startMs, endMs) ← readTimes strict index (strip left) rightTime
    let text ← cleanSubtitleText decodeReferences (joinLines (lines.drop (i + 1)))
    .ok { startMs, endMs, text := .str (ofChars text), sourceOrdinal := index,
          cueId := if i = 1 then .str (ofChars (strip (lines.getD 0 []))) else .null,
          speaker := .null, confidence := .null, timingPrecision := .str millisecond }

/-- The loop over the blocks, from an ordinal on. -/
def readBlocks (strict : Bool) : Nat → List (List (List Char)) → Except Thrown (List RawAtom)
  | _, [] => .ok []
  | index, lines :: rest => do
    let raw ← readBlock decodeReferences endTime strict index lines
    let raws ← readBlocks strict (index + 1) rest
    .ok (raw :: raws)

end

/-! ## Readers -/

section

variable (sha256 : ByteArray → HexDigest) (decodeReferences : List Char → Except Thrown (List Char))
  (caller : Caller)

/-- `source_fingerprint`. -/
def sourceFingerprint (content : ByteArray) : String := "sha256:" ++ (sha256 content).text

/-- The blocks of lines that a reader takes for cues. -/
abbrev CuesOf := List Char → Except Thrown (List (List (List Char)))

/-- The bytes of a source with its cues. -/
def sourceCues (cuesOf : CuesOf) (source : Source) : Except Thrown (ByteArray × List (List (List Char))) := do
  let encoded ← sourceBytes .invalidSubtitle source
  let decoded ← decodeSig .invalidSubtitle encoded
  let cues ← cuesOf (normalizeNewlines decoded)
  .ok (encoded, cues)

/-- What both readers do. -/
def readSubtitles (endTime : EndTime) (detectedFormat : String) (cuesOf : CuesOf) (source : Source)
    (language : Loaded) (strict : Bool) : Except Thrown (TranscriptReadResult sha256) := do
  let (encoded, cues) ← sourceCues cuesOf source
  let raws ← readBlocks decodeReferences endTime strict 0 cues
  buildArtifact sha256 caller strict raws language detectedFormat (sourceFingerprint sha256 encoded) none

def srtCues : CuesOf := fun text => .ok ((blocksOf text).map splitlines)

def readSrt : Source → Loaded → Bool → Except Thrown (TranscriptReadResult sha256) :=
  readSubtitles sha256 decodeReferences caller srtEnd "srt" srtCues

/-- `("NOTE", "STYLE", "REGION")`. -/
def commentStarts : List (List Char) := ["NOTE".toList, "STYLE".toList, "REGION".toList]

/-- Whether a block of lines is skipped. -/
def isComment (lines : List (List Char)) : Bool :=
  match lines with
  | [] => true
  | first :: _ => commentStarts.any fun start => start.isPrefixOf (strip first)

def vttHeader : List Char := ['W', 'E', 'B', 'V', 'T', 'T']

/-- The blocks behind the header. -/
def vttCues : CuesOf := fun text => do
  require (vttHeader.isPrefixOf text = true) (.readError .invalidSubtitle none)
  let body := match cutAt ['\n', '\n'] text with
    | none => []
    | some (_, body) => body
  .ok (((blocksOf body).map splitlines).filter fun lines => !isComment lines)

def readVtt : Source → Loaded → Bool → Except Thrown (TranscriptReadResult sha256) :=
  readSubtitles sha256 decodeReferences caller vttEnd "webvtt" vttCues

end

/-! ## Modes -/

section

variable {decodeReferences : List Char → Except Thrown (List Char)} {endTime : EndTime}

/-- The times that strict mode reads are read outside strict mode too. -/
theorem readTimes_strict {index : Nat} {left right : List Char} {times : Nat × Nat}
    (h : readTimes true index left right = .ok times) : readTimes false index left right = .ok times := by
  rw [readTimes] at h ⊢
  split at h
  · exact h
  · cases h
  · cases h

/-- Times that make an interval were not put off. -/
theorem readTimes_positive {index : Nat} {left right : List Char} {times : Nat × Nat}
    (h : readTimes false index left right = .ok times) (hpositive : times.1 < times.2) :
    readTimes true index left right = .ok times := by
  rw [readTimes] at h ⊢
  split at h
  · exact h
  · obtain rfl := Except.ok.inj h
    exact absurd hpositive (Nat.lt_irrefl 0)
  · cases h

theorem readBlock_ok {strict : Bool} {index : Nat} {lines : List (List Char)} {raw : RawAtom} {i : Nat}
    (hindex : timingIndex lines = some i) :
    readBlock decodeReferences endTime strict index lines = .ok raw ↔
      ∃ left right rightTime times text, cutAt arrow (lines.getD i []) = some (left, right) ∧
        endTime right = .ok rightTime ∧ readTimes strict index (strip left) rightTime = .ok times ∧
        cleanSubtitleText decodeReferences (joinLines (lines.drop (i + 1))) = .ok text ∧
        raw = ⟨times.1, times.2, .str (ofChars text), index,
          if i = 1 then .str (ofChars (strip (lines.getD 0 []))) else .null, .null, .null,
          .str millisecond⟩ := by
  rw [readBlock, hindex]
  simp only [bind_ok, getOr_ok]
  constructor
  · rintro ⟨⟨left, right⟩, hcut, rightTime, hright, times, htimes, text, htext, hraw⟩
    exact ⟨left, right, rightTime, times, text, hcut, hright, htimes, htext, (Except.ok.inj hraw).symm⟩
  · rintro ⟨left, right, rightTime, times, text, hcut, hright, htimes, htext, rfl⟩
    exact ⟨(left, right), hcut, rightTime, hright, times, htimes, text, htext, rfl⟩

theorem readBlock_ordinal {strict : Bool} {index : Nat} {lines : List (List Char)} {raw : RawAtom}
    (h : readBlock decodeReferences endTime strict index lines = .ok raw) : raw.sourceOrdinal = index := by
  cases hindex : timingIndex lines with
  | none =>
    rw [readBlock, hindex] at h
    simp only at h
    split at h
    · cases h
    · obtain rfl := Except.ok.inj h
      rfl
  | some i =>
    obtain ⟨_, _, _, _, _, -, -, -, -, rfl⟩ := (readBlock_ok hindex).mp h
    rfl

/-- The raw atom that strict mode reads from a block is read outside strict mode too. -/
theorem readBlock_strict {index : Nat} {lines : List (List Char)} {raw : RawAtom}
    (h : readBlock decodeReferences endTime true index lines = .ok raw) :
    readBlock decodeReferences endTime false index lines = .ok raw := by
  cases hindex : timingIndex lines with
  | none =>
    rw [readBlock, hindex] at h
    cases h
  | some i =>
    obtain ⟨left, right, rightTime, times, text, hcut, hright, htimes, htext, hraw⟩ := (readBlock_ok hindex).mp h
    exact (readBlock_ok hindex).mpr
      ⟨left, right, rightTime, times, text, hcut, hright, readTimes_strict htimes, htext, hraw⟩

/-- A raw atom with an interval was not put off. -/
theorem readBlock_positive {index : Nat} {lines : List (List Char)} {raw : RawAtom}
    (h : readBlock decodeReferences endTime false index lines = .ok raw) (hpositive : raw.startMs < raw.endMs) :
    readBlock decodeReferences endTime true index lines = .ok raw := by
  cases hindex : timingIndex lines with
  | none =>
    rw [readBlock, hindex] at h
    obtain rfl := Except.ok.inj h
    exact absurd hpositive (Nat.lt_irrefl 0)
  | some i =>
    obtain ⟨left, right, rightTime, times, text, hcut, hright, htimes, htext, rfl⟩ := (readBlock_ok hindex).mp h
    exact (readBlock_ok hindex).mpr
      ⟨left, right, rightTime, times, text, hcut, hright, readTimes_positive htimes hpositive, htext, rfl⟩

theorem readBlocks_cons {strict : Bool} {index : Nat} {lines : List (List Char)}
    {rest : List (List (List Char))} {raws : List RawAtom} :
    readBlocks decodeReferences endTime strict index (lines :: rest) = .ok raws ↔
      ∃ raw more, readBlock decodeReferences endTime strict index lines = .ok raw ∧
        readBlocks decodeReferences endTime strict (index + 1) rest = .ok more ∧ raws = raw :: more := by
  rw [readBlocks]
  simp only [bind_ok]
  constructor
  · rintro ⟨raw, hraw, more, hmore, hraws⟩
    exact ⟨raw, more, hraw, hmore, (Except.ok.inj hraws).symm⟩
  · rintro ⟨raw, more, hraw, hmore, rfl⟩
    exact ⟨raw, hraw, more, hmore, rfl⟩

theorem readBlocks_strict {index : Nat} {blocks : List (List (List Char))} {raws : List RawAtom}
    (h : readBlocks decodeReferences endTime true index blocks = .ok raws) :
    readBlocks decodeReferences endTime false index blocks = .ok raws := by
  induction blocks generalizing index raws with
  | nil => exact h
  | cons lines rest ih =>
    obtain ⟨raw, more, hraw, hmore, rfl⟩ := readBlocks_cons.mp h
    exact readBlocks_cons.mpr ⟨raw, more, readBlock_strict hraw, ih hmore, rfl⟩

theorem readBlocks_positive {index : Nat} {blocks : List (List (List Char))} {raws : List RawAtom}
    (h : readBlocks decodeReferences endTime false index blocks = .ok raws)
    (hpositive : ∀ raw ∈ raws, raw.startMs < raw.endMs) :
    readBlocks decodeReferences endTime true index blocks = .ok raws := by
  induction blocks generalizing index raws with
  | nil => exact h
  | cons lines rest ih =>
    obtain ⟨raw, more, hraw, hmore, rfl⟩ := readBlocks_cons.mp h
    obtain ⟨hfirst, hrest⟩ := List.forall_mem_cons.mp hpositive
    exact readBlocks_cons.mpr ⟨raw, more, readBlock_positive hraw hfirst, ih hmore hrest, rfl⟩

/-- The raw atoms carry the numbers of their blocks. -/
theorem readBlocks_ordinals {strict : Bool} {index : Nat} {blocks : List (List (List Char))}
    {raws : List RawAtom} (h : readBlocks decodeReferences endTime strict index blocks = .ok raws) :
    raws.map (·.sourceOrdinal) = List.range' index blocks.length := by
  induction blocks generalizing index raws with
  | nil =>
    obtain rfl := Except.ok.inj h
    rfl
  | cons lines rest ih =>
    obtain ⟨raw, more, hraw, hmore, rfl⟩ := readBlocks_cons.mp h
    rw [List.map_cons, readBlock_ordinal hraw, ih hmore, List.length_cons, List.range'_succ]

end

section

variable {sha256 : ByteArray → HexDigest} {caller : Caller} {raws : List RawAtom}
  {result : TranscriptReadResult sha256}

/-- Where nothing is reported, every raw atom has an interval. -/
theorem Accounted.positive (h : Accounted caller raws result) (hnone : result.diagnostics = []) :
    ∀ raw ∈ raws, raw.startMs < raw.endMs := by
  obtain ⟨outcomes, late, hof, -, hdiagnostics, -⟩ := h.outcomes
  rw [hnone] at hdiagnostics
  obtain ⟨hright, -⟩ := List.append_eq_nil_iff.mp hdiagnostics.symm
  clear hdiagnostics hnone h
  induction hof with
  | nil =>
    intro raw hraw
    cases hraw
  | @cons raw outcome raws outcomes hbecomes _ ih =>
    cases hbecomes with
    | diagnostic code => cases hright
    | atom atom hstart hstop _ =>
      intro raw' hraw'
      rcases List.mem_cons.mp hraw' with rfl | hraw'
      · rw [← hstart, ← hstop]
        exact atom.atom.starts_before_end
      · exact ih hright raw' hraw'

variable {decodeReferences : List Char → Except Thrown (List Char)} {endTime : EndTime}
  {detectedFormat : String} {cuesOf : CuesOf} {source : Source} {language : Loaded} {strict : Bool}

theorem readSubtitles_ok :
    readSubtitles sha256 decodeReferences caller endTime detectedFormat cuesOf source language strict =
        .ok result ↔
      ∃ encoded cues raws, sourceCues cuesOf source = .ok (encoded, cues) ∧
        readBlocks decodeReferences endTime strict 0 cues = .ok raws ∧
        buildArtifact sha256 caller strict raws language detectedFormat (sourceFingerprint sha256 encoded)
          none = .ok result := by
  simp only [readSubtitles, bind_ok]
  constructor
  · rintro ⟨⟨encoded, cues⟩, hcues, raws, hraws, hresult⟩
    exact ⟨encoded, cues, raws, hcues, hraws, hresult⟩
  · rintro ⟨encoded, cues, raws, hcues, hraws, hresult⟩
    exact ⟨(encoded, cues), hcues, raws, hraws, hresult⟩

theorem readSubtitles_aligned :
    readSubtitles sha256 decodeReferences caller endTime detectedFormat cuesOf source language true =
        .ok result ↔
      readSubtitles sha256 decodeReferences caller endTime detectedFormat cuesOf source language false =
          .ok result ∧ result.diagnostics = [] := by
  rw [readSubtitles_ok, readSubtitles_ok]
  constructor
  · rintro ⟨encoded, cues, raws, hcues, hraws, hresult⟩
    obtain ⟨hresult, hnone⟩ := buildArtifact_aligned.mp hresult
    exact ⟨⟨encoded, cues, raws, hcues, readBlocks_strict hraws, hresult⟩, hnone⟩
  · rintro ⟨⟨encoded, cues, raws, hcues, hraws, hresult⟩, hnone⟩
    have hpositive := (buildArtifact_accounts hresult).positive hnone
    exact ⟨encoded, cues, raws, hcues, readBlocks_positive hraws hpositive,
      buildArtifact_aligned.mpr ⟨hresult, hnone⟩⟩

/-- A result in which the cues are accounted for, each under its number. -/
def CuesAccounted (caller : Caller) (cues : List (List (List Char))) (result : TranscriptReadResult sha256) :
    Prop :=
  ∃ raws, raws.map (·.sourceOrdinal) = List.range' 0 cues.length ∧ Accounted caller raws result

theorem readSubtitles_accounts
    (h : readSubtitles sha256 decodeReferences caller endTime detectedFormat cuesOf source language false =
      .ok result) :
    ∃ encoded cues, sourceCues cuesOf source = .ok (encoded, cues) ∧ CuesAccounted caller cues result := by
  obtain ⟨encoded, cues, raws, hcues, hraws, hresult⟩ := readSubtitles_ok.mp h
  exact ⟨encoded, cues, hcues, raws, readBlocks_ordinals hraws, buildArtifact_accounts hresult⟩

end

end MDRack.Transcripts
