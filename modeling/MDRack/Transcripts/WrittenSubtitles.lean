import Mathlib.Data.List.Chain
import MDRack.Transcripts.WrittenBlocks

/-!
# Subtitle files as they are written

* `WrittenCue` — a cue: an identifier or none, two timestamps, and text in lines.
* `SubtitleFile` — blocks of lines with a form of line ends, and a byte order mark or none.

Principal results: `srt_read` — a SubRip file is read as it was written; `vtt_read` — and so is a WebVTT
file, whatever its comments and cue settings are.
-/

namespace MDRack.Transcripts

open Checks CodePoints Cutting Markdown
open Media (HexDigest)

/-! ## Cues -/

/-- A line that can stand for an identifier: it is not empty and holds no arrow. -/
def IdLine (line : List Char) : Prop := line ≠ [] ∧ OneLine line ∧ ¬ arrow <:+: line

/-- A line of text without markup and references. -/
def PlainLine (line : List Char) : Prop := line ≠ [] ∧ OneLine line ∧ '<' ∉ line ∧ '&' ∉ line

structure WrittenCue where
  id : Option (List Char)
  indent : List Char
  start : Stamp
  before : List Char
  after : List Char
  stop : Stamp
  behind : List Char
  lines : List (List Char)
  id_line : ∀ line ∈ id, IdLine line
  indent_blank : Padding indent
  before_blank : Padding before
  after_blank : Padding after
  behind_line : OneLine behind
  plain : ∀ line ∈ lines, PlainLine line
  visible : collapseText (joinLines lines) ≠ []
  positive : start.ms < stop.ms

namespace WrittenCue

variable (cue : WrittenCue)

/-- What stands in front of the arrow. -/
def left : List Char := cue.indent ++ cue.start.write ++ cue.before

/-- What stands behind the arrow. -/
def right : List Char := cue.after ++ cue.stop.write ++ cue.behind

def timing : List Char := cue.left ++ arrow ++ cue.right

def blockLines : List (List Char) := cue.id.toList ++ cue.timing :: cue.lines

/-- The raw atom that a reader makes of the cue. -/
def raw (index : Nat) : RawAtom where
  startMs := cue.start.ms
  endMs := cue.stop.ms
  text := .str (ofChars (joinLines cue.lines))
  sourceOrdinal := index
  cueId := match cue.id with
    | some id => .str (ofChars (strip id))
    | none => .null
  speaker := .null
  confidence := .null
  timingPrecision := .str millisecond

/-- What an atom that is read from the cue shows. -/
def shown : Nat × Nat × List Char × List (String × Json.Value) :=
  (cue.start.ms, cue.stop.ms, collapseText (joinLines cue.lines),
    (match cue.id with
      | some id => [("source_cue_id", .str (String.ofList (strip id)))]
      | none => []) ++ [("timing_precision", .str "millisecond")])

variable {cue}

theorem left_spaces {c : Char} (h : c ∈ cue.left) : isLineBreak c = false ∧ c ≠ '-' := by
  have hpadding : ∀ {pad : List Char}, Padding pad → c ∈ pad → isLineBreak c = false ∧ c ≠ '-' := by
    intro pad hpad hc
    obtain ⟨hspace, hbreak⟩ := hpad c hc
    refine ⟨hbreak, ?_⟩
    rintro rfl
    exact absurd hspace (by decide)
  rw [left, List.mem_append, List.mem_append] at h
  rcases h with (h | h) | h
  · exact hpadding cue.indent_blank h
  · obtain ⟨-, hbreak, hdash, -⟩ := mem_write h
    exact ⟨hbreak, hdash⟩
  · exact hpadding cue.before_blank h

theorem timing_oneLine : OneLine cue.timing := by
  intro c hc
  rw [timing, List.mem_append, List.mem_append] at hc
  rcases hc with (hc | hc) | hc
  · exact (left_spaces hc).1
  · have hall : OneLine arrow := by decide
    exact hall c hc
  · rw [right, List.mem_append, List.mem_append] at hc
    rcases hc with (hc | hc) | hc
    · exact (cue.after_blank c hc).2
    · exact (mem_write hc).2.1
    · exact cue.behind_line c hc

theorem cut_timing : cutAt arrow cue.timing = some (cue.left, cue.right) :=
  cutAt_first fun hmem => (left_spaces hmem).2 rfl

theorem timing_ne_nil : cue.timing ≠ [] := by
  rw [timing]
  simp [arrow]

theorem arrow_timing : arrow <:+: cue.timing := ⟨cue.left, cue.right, rfl⟩

theorem blockLines_lawful : BlockLines cue.blockLines where
  oneLine := by
    intro line hline
    rcases List.mem_append.mp hline with hline | hline
    · exact (cue.id_line line (Option.mem_toList.mp hline)).2.1
    · rcases List.mem_cons.mp hline with rfl | hline
      · exact timing_oneLine
      · exact (cue.plain line hline).2.1
  not_empty := by
    intro line hline
    rcases List.mem_append.mp hline with hline | hline
    · exact (cue.id_line line (Option.mem_toList.mp hline)).1
    · rcases List.mem_cons.mp hline with rfl | hline
      · exact timing_ne_nil
      · exact (cue.plain line hline).1
  visible := by
    refine ⟨cue.timing, List.mem_append_right _ List.mem_cons_self, '-', ?_, by decide⟩
    rw [timing]
    simp [arrow]

/-- The arrow is found on the first line, or on the second behind an identifier. -/
theorem timingIndex_written : timingIndex cue.blockLines = some cue.id.toList.length := by
  have htiming : decide (arrow <:+: cue.timing) = true := decide_eq_true arrow_timing
  rw [timingIndex, blockLines]
  cases hid : cue.id with
  | none =>
    simp [htiming, List.findIdx?_cons]
  | some id =>
    have hnone : decide (arrow <:+: id) = false := decide_eq_false (cue.id_line id hid).2.2
    simp [htiming, hnone, List.findIdx?_cons]

theorem stripTags_plain {text : List Char} (h : '<' ∉ text) : stripTags false text = text := by
  induction text with
  | nil => rfl
  | cons c text ih =>
    rw [List.mem_cons, not_or] at h
    rw [stripTags, if_neg fun hopen => h.1 hopen.1.symm, ih h.2]

theorem clean_written (decodeReferences : List Char → Except Thrown (List Char)) :
    cleanSubtitleText decodeReferences (joinLines cue.lines) = .ok (joinLines cue.lines) := by
  have hfree : ∀ c, c ≠ '\n' → (∀ line ∈ cue.lines, c ∉ line) → c ∉ joinLines cue.lines := by
    intro c hc hnone hmem
    rw [joinLines] at hmem
    rcases mem_intercalate hmem with hsep | ⟨line, hline, hin⟩
    · exact hc (List.mem_singleton.mp hsep)
    · exact hnone line hline hin
  have hopen := hfree '<' (by decide) fun line hline => (cue.plain line hline).2.2.1
  have hreference := hfree '&' (by decide) fun line hline => (cue.plain line hline).2.2.2
  rw [cleanSubtitleText, stripTags_plain hopen, unescape, if_neg hreference]

/-- The end time is read from behind the arrow. -/
def EndsRead (endTime : EndTime) (cue : WrittenCue) : Prop :=
  ∃ right, endTime cue.right = .ok right ∧ subtitleTimestampToMs right = .ok cue.stop.ms

theorem readTimes_ok {strict : Bool} {index : Nat} {left right : List Char} {startMs endMs : Nat}
    (hleft : subtitleTimestampToMs left = .ok startMs) (hright : subtitleTimestampToMs right = .ok endMs) :
    readTimes strict index left right = .ok (startMs, endMs) := by
  rw [readTimes, hleft, hright]
  rfl

/-- A written cue is read as its raw atom. -/
theorem readBlock_written {decodeReferences : List Char → Except Thrown (List Char)} {endTime : EndTime}
    (h : EndsRead endTime cue) (strict : Bool) (index : Nat) :
    readBlock decodeReferences endTime strict index cue.blockLines = .ok (cue.raw index) := by
  obtain ⟨right, hright, hstop⟩ := h
  have hstart : subtitleTimestampToMs (strip cue.left) = .ok cue.start.ms := by
    have hpad : ∀ {pad : List Char}, Padding pad → ∀ c ∈ pad, isSpace c = true :=
      fun hpad c hc => (hpad c hc).1
    rw [left, strip_padded (hpad cue.indent_blank) (hpad cue.before_blank) write_trimmed]
    have hread := @Stamp.read cue.start [] [] (by simp) (by simp)
    rwa [List.nil_append, List.append_nil] at hread
  have hline : cue.blockLines.getD cue.id.toList.length [] = cue.timing := by
    rw [blockLines, List.getD_eq_getElem?_getD, List.getElem?_append_right (Nat.le_refl _), Nat.sub_self]
    rfl
  have hrest : cue.blockLines.drop (cue.id.toList.length + 1) = cue.lines := by
    rw [blockLines, ← List.drop_drop, List.drop_left]
    rfl
  apply (readBlock_ok timingIndex_written).mpr
  refine ⟨cue.left, cue.right, right, (cue.start.ms, cue.stop.ms), joinLines cue.lines, ?_, hright,
    readTimes_ok hstart hstop, ?_, ?_⟩
  · rw [hline, cut_timing]
  · rw [hrest, clean_written]
  · cases hid : cue.id with
    | none => simp [raw, hid]
    | some id => simp [raw, hid, blockLines]

/-! ## The end time -/

theorem endsRead_srt (h : ∀ c ∈ cue.behind, isSpace c = true) : EndsRead srtEnd cue := by
  have hafter : ∀ c ∈ cue.after, isSpace c = true := fun c hc => (cue.after_blank c hc).1
  have hread := @Stamp.read cue.stop [] [] (by simp) (by simp)
  rw [List.nil_append, List.append_nil] at hread
  refine ⟨cue.stop.write, ?_, hread⟩
  rw [srtEnd, right, strip_padded hafter h write_trimmed]

theorem wordsFrom_blanks {pad : List Char} (h : ∀ c ∈ pad, isSpace c = true) (rest : List Char) :
    wordsFrom [] (pad ++ rest) = wordsFrom [] rest := by
  induction pad with
  | nil => rfl
  | cons c pad ih =>
    obtain ⟨hc, hpad⟩ := List.forall_mem_cons.mp h
    rw [List.cons_append, wordsFrom, if_pos hc, if_pos rfl, ih hpad]

/-- Settings behind the end time are not read. -/
theorem endsRead_vtt (h : ∀ c ∈ cue.behind.head?, isSpace c = true) : EndsRead vttEnd cue := by
  have hafter : ∀ c ∈ cue.after, isSpace c = true := fun c hc => (cue.after_blank c hc).1
  have hword : ∀ c ∈ cue.stop.write, isSpace c = false := fun c hc => (mem_write hc).1
  have hread := @Stamp.read cue.stop [] [] (by simp) (by simp)
  rw [List.nil_append, List.append_nil] at hread
  refine ⟨cue.stop.write, ?_, hread⟩
  have hhead : (wordsFrom [] cue.right).head? = some cue.stop.write := by
    rw [right, List.append_assoc, wordsFrom_blanks hafter, wordsFrom_word hword, List.nil_append]
    cases hbehind : cue.behind with
    | nil => rw [wordsFrom, if_neg write_ne_nil]; rfl
    | cons c rest =>
      rw [hbehind] at h
      rw [wordsFrom, if_pos (h c rfl), if_neg write_ne_nil]
      rfl
  rw [vttEnd, hhead]
  rfl

/-! ## The raw atom -/

theorem acceptRaw_written {previousEnd : Int} (h : previousEnd ≤ cue.start.ms) (index : Nat) :
    acceptRaw previousEnd (cue.raw index) =
      .ok ⟨cue.start.ms, cue.stop.ms, collapseText (joinLines cue.lines), none, none⟩ := by
  have htext : normalizeText (cue.raw index).text = .ok (collapseText (joinLines cue.lines)) := by
    show normalizeText (.str (ofChars (joinLines cue.lines))) = _
    rw [normalizeText, characters?_ofChars]
    exact if_neg cue.visible
  simp only [acceptRaw, bind_ok, require_ok, exists_const]
  exact ⟨cue.positive, _, htext, h, none, rfl, none, rfl, rfl⟩

theorem encodable_raw (index : Nat) : Encodable (cue.raw index) := by
  intro text htext
  rw [raw] at htext
  cases hid : cue.id with
  | none =>
    rw [hid] at htext
    cases htext
  | some id =>
    rw [hid] at htext
    obtain rfl : ofChars (strip id) = text := by simpa using htext
    rw [characters?_ofChars]
    rfl

theorem millisecond_trimmed : stripBlanks isSpace millisecond = millisecond := by decide

theorem plainTiming_raw (index : Nat) : PlainTiming (cue.raw index) := by
  intro text htext
  obtain rfl : millisecond = text := by simpa [raw] using htext
  rw [millisecond_trimmed, millisecond, characters?_ofChars]
  rfl

theorem freezeMetadata_raw (index : Nat) :
    freezeMetadata (safeAtomMetadata (cue.raw index)) = .ok cue.shown.2.2.2 := by
  have hfield : freezeField "timing_precision" (.str millisecond) =
      .ok ("timing_precision", .str "millisecond") := by
    rw [freezeField, millisecond, characters?_ofChars]
  have htiming : safeAtomMetadata (cue.raw index) =
      (match cue.id with
        | some id => [("source_cue_id", .str (ofChars (strip id)))]
        | none => []) ++ [("timing_precision", .str millisecond)] := by
    have hne : millisecond ≠ [] := by decide
    rw [safeAtomMetadata, raw]
    simp only [millisecond_trimmed, if_neg hne]
    cases cue.id with
    | none => rfl
    | some id => rfl
  rw [htiming, freezeMetadata, shown]
  cases cue.id with
  | none =>
    simp only [List.nil_append, mapAll, hfield, bind, Except.bind]
  | some id =>
    have hid : freezeField "source_cue_id" (.str (ofChars (strip id))) =
        .ok ("source_cue_id", .str (String.ofList (strip id))) := by
      rw [freezeField, characters?_ofChars]
    simp only [List.cons_append, List.nil_append, mapAll, hid, hfield, bind, Except.bind]

end WrittenCue

/-! ## All cues -/

/-- Cues one after the other in time, from a time on. -/
def Follow : Int → List WrittenCue → Prop
  | _, [] => True
  | previousEnd, cue :: rest => previousEnd ≤ cue.start.ms ∧ Follow cue.stop.ms rest

theorem follow_of_isChain {previousEnd : Int} {cues : List WrittenCue}
    (h : cues.IsChain fun a b => a.stop.ms ≤ b.start.ms)
    (hfirst : ∀ cue ∈ cues.head?, previousEnd ≤ cue.start.ms) : Follow previousEnd cues := by
  induction cues generalizing previousEnd with
  | nil => trivial
  | cons cue rest ih =>
    obtain ⟨hnext, hrest⟩ := List.isChain_cons.mp h
    refine ⟨hfirst cue rfl, ih hrest ?_⟩
    intro next hmem
    exact_mod_cast hnext next hmem

def rawsFrom : Nat → List WrittenCue → List RawAtom
  | _, [] => []
  | index, cue :: rest => cue.raw index :: rawsFrom (index + 1) rest

theorem rawsFrom_length (index : Nat) (cues : List WrittenCue) : (rawsFrom index cues).length = cues.length := by
  induction cues generalizing index with
  | nil => rfl
  | cons cue rest ih => rw [rawsFrom, List.length_cons, ih, List.length_cons]

theorem readBlocks_written {decodeReferences : List Char → Except Thrown (List Char)} {endTime : EndTime}
    {cues : List WrittenCue} (h : ∀ cue ∈ cues, cue.EndsRead endTime) (strict : Bool) (index : Nat) :
    readBlocks decodeReferences endTime strict index (cues.map (·.blockLines)) = .ok (rawsFrom index cues) := by
  induction cues generalizing index with
  | nil => rfl
  | cons cue rest ih =>
    obtain ⟨hcue, hrest⟩ := List.forall_mem_cons.mp h
    exact readBlocks_cons.mpr
      ⟨_, _, WrittenCue.readBlock_written hcue strict index, ih hrest (index + 1), rfl⟩

section

variable {sha256 : ByteArray → HexDigest} {caller : Caller}

/-- What an atom shows of its cue. -/
def TranscriptAtom.shown (atom : TranscriptAtom sha256) :
    Nat × Nat × List Char × List (String × Json.Value) :=
  (atom.atom.startMs, atom.atom.endMs, atom.atom.text.toList, atom.metadata)

theorem buildAtoms_written {n ordinal index : Nat} {previousEnd : Int} {cues : List WrittenCue}
    (hids : caller.Identified sha256 n) (hn : ordinal + cues.length ≤ n) (h : Follow previousEnd cues)
    (strict : Bool) :
    ∃ atoms, buildAtoms sha256 caller strict ordinal previousEnd (rawsFrom index cues) = .ok (atoms, []) ∧
      atoms.map (·.shown) = cues.map (·.shown) := by
  induction cues generalizing ordinal index previousEnd with
  | nil => exact ⟨[], rfl, rfl⟩
  | cons cue rest ih =>
    rw [List.length_cons] at hn
    have haccept := WrittenCue.acceptRaw_written h.1 index
    obtain ⟨id, hid, -⟩ := hids ordinal (by omega)
    obtain ⟨atom, hatom⟩ := makeAtom_total (acceptRaw_ok haccept) hid (WrittenCue.encodable_raw index)
      (WrittenCue.plainTiming_raw index)
    obtain ⟨atoms, hatoms, hshown⟩ := @ih (ordinal + 1) (index + 1) cue.stop.ms (by omega) h.2
    have hmade := (makeAtom_ok hatom).1
    refine ⟨atom :: atoms, ?_, ?_⟩
    · rw [rawsFrom, buildAtoms_accepted haccept]
      simp only [bind_ok]
      exact ⟨atom, hatom, (atoms, []), hatoms, rfl⟩
    · have hmetadata : atom.metadata = cue.shown.2.2.2 :=
        Except.ok.inj (hmade.metadata.symm.trans (WrittenCue.freezeMetadata_raw index))
      have hfirst : atom.shown = cue.shown := by
        rw [TranscriptAtom.shown, hmade.startMs, hmade.endMs, hmade.text, hmetadata, String.toList_ofList]
        rfl
      rw [List.map_cons, List.map_cons, hfirst, hshown]

/-- Written cues make an artifact, with nothing to report. -/
theorem buildArtifact_written {n : Nat} {cues : List WrittenCue} (hids : caller.Identified sha256 n)
    (hn : cues.length ≤ n) (h : cues.IsChain fun a b => a.stop.ms ≤ b.start.ms) (strict : Bool)
    (detectedFormat sourceDigest : String) :
    ∃ result, buildArtifact sha256 caller strict (rawsFrom 0 cues) .null detectedFormat sourceDigest none =
        .ok result ∧
      result.diagnostics = [] ∧ result.artifact.atoms.map (·.shown) = cues.map (·.shown) := by
  have hfollow : Follow (-1) cues := by
    apply follow_of_isChain h
    intro cue _
    omega
  obtain ⟨atoms, hatoms, hshown⟩ := @buildAtoms_written sha256 caller n 0 0 (-1) cues hids (by omega) hfollow strict
  obtain ⟨horder, hlength⟩ := buildAtoms_inOrder hatoms
  rw [rawsFrom_length] at hlength
  have hduration : ∀ duration ∈ atoms.getLast?.map (·.atom.endMs), ∀ last ∈ atoms.getLast?,
      last.atom.endMs ≤ duration := by
    intro duration hduration last hlast
    rw [hlast] at hduration
    obtain rfl := Option.some.inj hduration
    exact Nat.le_refl _
  obtain ⟨artifact, hartifact⟩ : ∃ artifact, makeArtifact sha256 caller atoms none
      (atoms.getLast?.map (·.atom.endMs)) (0, detectedFormat, sourceDigest) = .ok artifact :=
    makeArtifact_total horder hids (Nat.le_trans hlength hn) hduration _
  refine ⟨⟨artifact, detectedFormat, sourceDigest, []⟩, ?_, rfl, ?_⟩
  · exact buildArtifact_ok.mpr ⟨none, (atoms, []), (atoms.getLast?.map (·.atom.endMs), []), artifact, rfl, hatoms,
      rfl, hartifact, rfl⟩
  · show artifact.atoms.map _ = _
    rw [(makeArtifact_fields hartifact).1, hshown]

end

/-! ## Files -/

/-- A file: a byte order mark or none, and the text with its line ends in one form. -/
def fileOf (mark : Bool) (lineEnd : LineEnd) (text : List Char) : List Char :=
  (if mark then [byteOrderMark] else []) ++ respell lineEnd text

/-- A source that holds a file as text, or as its UTF-8 form. -/
inductive SourceOf (file : List Char) : Source → Prop
  | str : SourceOf file (.str (ofChars file))
  | bytes : SourceOf file (.bytes (String.ofList file).toUTF8)

/-- A first character that would be taken for a byte order mark stands behind one. -/
def Marked (mark : Bool) (text : List Char) : Prop := mark = true ∨ text.head? ≠ some byteOrderMark

theorem dropMark_cons {c : Char} (h : c ≠ byteOrderMark) (rest : List Char) : dropMark (c :: rest) = c :: rest :=
  if_neg h

theorem dropMark_file {mark : Bool} {lineEnd : LineEnd} {text : List Char} (h : Marked mark text) :
    dropMark (fileOf mark lineEnd text) = respell lineEnd text := by
  cases mark with
  | true => rfl
  | false =>
    have hhead : text.head? ≠ some byteOrderMark := h.resolve_left (by decide)
    show dropMark (respell lineEnd text) = respell lineEnd text
    cases text with
    | nil => rfl
    | cons c text =>
      have hc : c ≠ byteOrderMark := fun heq => hhead (congrArg some heq)
      rw [respell, List.flatMap_cons]
      split
      · have hfeed : '\n' ≠ byteOrderMark := by decide
        have hreturn : '\r' ≠ byteOrderMark := by decide
        cases lineEnd with
        | lf => exact dropMark_cons hfeed _
        | crlf => exact dropMark_cons hreturn _
        | cr => exact dropMark_cons hreturn _
      · exact dropMark_cons hc _

theorem sourceCues_written {cuesOf : CuesOf} {mark : Bool} {lineEnd : LineEnd} {text : List Char}
    {cues : List (List (List Char))} (hmark : Marked mark text) (hfree : '\r' ∉ text)
    (hcues : cuesOf text = .ok cues) {source : Source} (hsource : SourceOf (fileOf mark lineEnd text) source) :
    ∃ encoded, sourceCues cuesOf source = .ok (encoded, cues) := by
  refine ⟨(String.ofList (fileOf mark lineEnd text)).toUTF8, ?_⟩
  have hbytes : sourceBytes .invalidSubtitle source =
      .ok (String.ofList (fileOf mark lineEnd text)).toUTF8 := by
    cases hsource with
    | str => exact sourceBytes_str _ _
    | bytes => rfl
  have hdecode := decodeSig_toUTF8 .invalidSubtitle (fileOf mark lineEnd text)
  rw [dropMark_file hmark] at hdecode
  simp only [sourceCues, bind_ok]
  refine ⟨_, hbytes, _, hdecode, cues, ?_, rfl⟩
  rw [normalizeNewlines_respell lineEnd hfree, hcues]

theorem writeBlocks_free {blocks : List (List (List Char) × Nat)} (h : ∀ b ∈ blocks, BlockLines b.1)
    (trailing : Nat) : '\r' ∉ writeBlocks trailing blocks := by
  have hrun : ∀ n, '\r' ∉ List.replicate n '\n' := by
    intro n hmem
    exact absurd (List.eq_of_mem_replicate hmem) (by decide)
  have hlines : ∀ lines, BlockLines lines → '\r' ∉ joinLines lines := by
    intro lines hlines hmem
    rw [joinLines] at hmem
    rcases mem_intercalate hmem with hsep | ⟨line, hline, hin⟩
    · exact absurd (List.mem_singleton.mp hsep) (by decide)
    · exact absurd (hlines.oneLine line hline '\r' hin) (by decide)
  induction blocks with
  | nil => exact hrun trailing
  | cons b more ih =>
    obtain ⟨lines, gap⟩ := b
    have hb : BlockLines lines := h _ List.mem_cons_self
    have hmore : ∀ b ∈ more, BlockLines b.1 := fun b hb => h b (List.mem_cons_of_mem _ hb)
    cases more with
    | nil =>
      rw [writeBlocks, List.mem_append, not_or]
      exact ⟨hlines lines hb, hrun trailing⟩
    | cons next more =>
      rw [writeBlocks, List.mem_append, List.mem_append, not_or, not_or]
      exact ⟨⟨hlines lines hb, hrun _⟩, ih hmore⟩

/-- The result of a reading shows the cues, with nothing to report. -/
def Shows {sha256 : ByteArray → HexDigest} (cues : List WrittenCue) (result : TranscriptReadResult sha256) : Prop :=
  result.diagnostics = [] ∧ result.artifact.atoms.map (·.shown) = cues.map (·.shown)

/-- Cues that a reader can tell apart: enough identifiers, in order, and without overlap. -/
structure Readable (sha256 : ByteArray → HexDigest) (caller : Caller) (cues : List WrittenCue) : Prop where
  identified : caller.Identified sha256 cues.length
  ordered : cues.IsChain fun a b => a.stop.ms ≤ b.start.ms

theorem readSubtitles_written {sha256 : ByteArray → HexDigest} {caller : Caller} {cuesOf : CuesOf}
    {endTime : EndTime} {cues : List WrittenCue} {source : Source} {encoded : ByteArray}
    (hreadable : Readable sha256 caller cues) (hends : ∀ cue ∈ cues, cue.EndsRead endTime)
    (hcues : sourceCues cuesOf source = .ok (encoded, cues.map (·.blockLines)))
    (decodeReferences : List Char → Except Thrown (List Char)) (detectedFormat : String) (strict : Bool) :
    ∃ result, readSubtitles sha256 decodeReferences caller endTime detectedFormat cuesOf source .null strict =
      .ok result ∧ Shows cues result := by
  obtain ⟨result, hresult, hnone, hshown⟩ := buildArtifact_written hreadable.identified (Nat.le_refl _)
    hreadable.ordered strict detectedFormat (sourceFingerprint sha256 encoded)
  exact ⟨result, readSubtitles_ok.mpr ⟨encoded, _, _, hcues, readBlocks_written hends strict 0, hresult⟩,
    hnone, hshown⟩

/-! ## SubRip -/

def srtText (trailing : Nat) (cues : List (WrittenCue × Nat)) : List Char :=
  writeBlocks trailing (cues.map fun c => (c.1.blockLines, c.2))

theorem sample_hex : Media.isHex64 (String.ofList (List.replicate 64 '0')).toList = true := by decide +kernel

def sampleHex : HexDigest := ⟨String.ofList (List.replicate 64 '0'), sample_hex⟩

def sampleSha : ByteArray → HexDigest := fun _ => sampleHex

def sampleCaller : Caller := ⟨.ofDigest .resource sampleHex, .ofDigest .producer sampleHex⟩

theorem sample_identified : sampleCaller.Identified sampleSha 1 := by
  intro i hi
  obtain rfl : i = 0 := by omega
  refine ⟨_, bind_ok.mpr ⟨_, if_pos ?_, rfl⟩, ?_⟩
  · simp [Json.intsWithin, Json.intsWithinItems, Json.intsWithinFields, maxIntDigits]
  · intro j hj
    omega

theorem sample_hours : ['0', '0'].all Char.isDigit = true := by decide

theorem sample_short : ['0', '0'].length ≤ maxIntDigits := by decide

theorem sample_zero : 0 < 60 := by decide

theorem sample_millis : 500 < 1000 := by decide

theorem sample_point : ',' = '.' ∨ ',' = ',' := .inr rfl

/-- `00:00:01,500`, with the seconds as given. -/
def sampleStamp (seconds : Nat) (h : seconds < 60) : Stamp :=
  ⟨['0', '0'], 0, seconds, 500, ',', sample_hours, sample_short, sample_zero, h, sample_millis, sample_point⟩

theorem sample_id : ∀ line ∈ some ['7'], IdLine line := by
  intro line hline
  obtain rfl := Option.some.inj hline
  exact ⟨by decide, by decide, by decide⟩

theorem sample_plain : ∀ line ∈ [['H', 'i', ' ', ' ', 'u'], [' ', '!']], PlainLine line := by
  intro line hline
  simp only [List.mem_cons, List.not_mem_nil, or_false] at hline
  rcases hline with rfl | rfl
  · exact ⟨by decide, by decide, by decide, by decide⟩
  · exact ⟨by decide, by decide, by decide, by decide⟩

theorem sample_blank : Padding [' '] := by decide

theorem sample_none : Padding [] := by decide

theorem sample_line : OneLine [] := by decide

theorem sample_visible : collapseText (joinLines [['H', 'i', ' ', ' ', 'u'], [' ', '!']]) ≠ [] := by decide

theorem sample_one : 1 < 60 := by decide

theorem sample_two : 2 < 60 := by decide

theorem sample_positive : (sampleStamp 1 sample_one).ms < (sampleStamp 2 sample_two).ms := by decide

/-- Cue `7`, of one second, with text on two lines. -/
def sampleCue : WrittenCue :=
  ⟨some ['7'], [], sampleStamp 1 sample_one, [' '], [' '], sampleStamp 2 sample_two, [],
    [['H', 'i', ' ', ' ', 'u'], [' ', '!']], sample_id, sample_none, sample_blank, sample_blank, sample_line,
    sample_plain, sample_visible, sample_positive⟩

theorem sample_readable : Readable sampleSha sampleCaller [sampleCue] :=
  ⟨sample_identified, List.isChain_singleton _⟩

/-- A block of a WebVTT file. -/
inductive VttItem
  | cue (written : WrittenCue)
  | comment (lines : List (List Char))

def VttItem.lines : VttItem → List (List Char)
  | .cue written => written.blockLines
  | .comment lines => lines

def VttItem.cue? : VttItem → Option WrittenCue
  | .cue written => some written
  | .comment _ => none

/-- A cue whose identifier is not taken for a comment and with settings behind a blank, or a comment. -/
def VttItem.Lawful : VttItem → Prop
  | .cue written =>
    (∀ id ∈ written.id, isComment [id] = false) ∧ ∀ p ∈ written.behind.head?, isSpace p = true
  | .comment lines => BlockLines lines ∧ isComment lines = true

/-- The header with what stands behind it up to the first empty line. -/
structure VttStart where
  rest : List Char
  gap : Nat
  separated : Separated '\n' (vttHeader ++ rest)
  no_return : '\r' ∉ rest

def vttText (start : VttStart) (trailing : Nat) (items : List (VttItem × Nat)) : List Char :=
  vttHeader ++ start.rest ++ '\n' :: '\n' :: (List.replicate (2 * start.gap) '\n' ++
    writeBlocks trailing (items.map fun i => (i.1.lines, i.2)))

/-- A separated text in front of a pair is cut at the pair. -/
theorem cutAt_pair {x : Char} {front : List Char} (h : Separated x front) (rest : List Char) :
    cutAt [x, x] (front ++ x :: x :: rest) = some (front, rest) := by
  induction front with
  | nil =>
    have hprefix : [x, x].isPrefixOf (x :: x :: rest) = true := List.isPrefixOf_iff_prefix.mpr ⟨rest, rfl⟩
    rw [List.nil_append, cutAt, if_pos hprefix]
    rfl
  | cons a front ih =>
    obtain ⟨hpair, hlast⟩ := h
    have hrest : Separated x front := by
      refine ⟨fun hin => hpair (hin.trans (List.suffix_cons a front).isInfix), ?_⟩
      cases front with
      | nil => simp
      | cons b front => rwa [List.getLast?_cons_cons] at hlast
    have hnot : ¬ [x, x].isPrefixOf (a :: (front ++ x :: x :: rest)) = true := by
      intro hprefix
      obtain ⟨tail, htail⟩ := List.isPrefixOf_iff_prefix.mp hprefix
      obtain ⟨hfirst, hnext⟩ := List.cons.inj htail
      subst hfirst
      cases front with
      | nil => exact hlast rfl
      | cons b front =>
        have hsecond := (List.cons.inj hnext).1
        subst hsecond
        exact hpair ⟨[], front, rfl⟩
    rw [List.cons_append, cutAt, if_neg hnot, ih hrest]
    rfl

/-- The first character that is no blank begins the stripped text. -/
theorem strip_head {pad rest : List Char} {c : Char} (hpad : ∀ p ∈ pad, isSpace p = true)
    (hc : isSpace c = false) : (strip (pad ++ c :: rest)).head? = some c := by
  have hleft : lstrip (pad ++ c :: rest) = c :: rest := by
    rw [lstrip, List.dropWhile_append_of_pos hpad]
    exact dropWhile_of_head fun d hd => Option.some.inj hd ▸ hc
  have hreverse : (c :: rest).reverse.dropWhile isSpace ≠ [] := by
    intro hnil
    have hall := List.dropWhile_eq_nil_iff.mp hnil c (List.mem_reverse.mpr List.mem_cons_self)
    rw [hc] at hall
    cases hall
  obtain ⟨front, hfront⟩ := List.dropWhile_suffix (l := (c :: rest).reverse) isSpace
  have hsplit := congrArg List.reverse hfront
  rw [List.reverse_append, List.reverse_reverse] at hsplit
  rw [strip, hleft, rstrip]
  obtain ⟨d, more, hmore⟩ := List.exists_cons_of_ne_nil (fun hnil => hreverse (List.reverse_eq_nil_iff.mp hnil))
  rw [hmore] at hsplit ⊢
  obtain ⟨rfl, -⟩ := List.cons.inj hsplit
  rfl

/-- A line that begins with no letter begins no comment. -/
theorem isComment_head {first : List Char} {lines : List (List Char)} {c : Char}
    (h : (strip first).head? = some c) (hc : c.isAlpha = false) : isComment (first :: lines) = false := by
  rw [isComment, List.any_eq_false]
  intro start hstart hprefix
  obtain ⟨rest, hrest⟩ := List.isPrefixOf_iff_prefix.mp hprefix
  have hletter : ∀ start ∈ commentStarts, ∃ d, start.head? = some d ∧ d.isAlpha = true := by
    intro start hstart
    simp only [commentStarts, List.mem_cons, List.not_mem_nil, or_false] at hstart
    rcases hstart with rfl | rfl | rfl
    · exact ⟨'N', by decide, by decide⟩
    · exact ⟨'S', by decide, by decide⟩
    · exact ⟨'R', by decide, by decide⟩
  obtain ⟨d, hd, halpha⟩ := hletter start hstart
  have hhead : (strip first).head? = some d := by
    rw [← hrest, List.head?_append, hd]
    rfl
  rw [h] at hhead
  obtain rfl := Option.some.inj hhead
  rw [hc] at halpha
  cases halpha

theorem isComment_cue {cue : WrittenCue} (h : ∀ id ∈ cue.id, isComment [id] = false) :
    isComment cue.blockLines = false := by
  cases hid : cue.id with
  | some id =>
    have hnone := h id hid
    rw [WrittenCue.blockLines, hid]
    exact hnone
  | none =>
    obtain ⟨c, rest, hstamp⟩ := List.exists_cons_of_ne_nil (@write_ne_nil cue.start)
    have hmem : c ∈ cue.start.write := by
      rw [hstamp]
      exact List.mem_cons_self
    obtain ⟨hspace, -, -, halpha⟩ := mem_write hmem
    have htiming : cue.timing = cue.indent ++ c :: (rest ++ cue.before ++ arrow ++ cue.right) := by
      rw [WrittenCue.timing, WrittenCue.left, hstamp]
      simp only [List.append_assoc, List.cons_append]
    have hpad : ∀ p ∈ cue.indent, isSpace p = true := fun p hp => (cue.indent_blank p hp).1
    rw [WrittenCue.blockLines, hid]
    apply isComment_head _ halpha
    rw [htiming, strip_head hpad hspace]

theorem VttItem.Lawful.blockLines {item : VttItem} (h : item.Lawful) : BlockLines item.lines := by
  cases item with
  | cue written => exact WrittenCue.blockLines_lawful
  | comment lines => exact h.1

/-- Of the blocks the cues are kept. -/
theorem filter_items {items : List VttItem} (h : ∀ item ∈ items, item.Lawful) :
    (items.map (·.lines)).filter (fun lines => !isComment lines) =
      (items.filterMap (·.cue?)).map (·.blockLines) := by
  induction items with
  | nil => rfl
  | cons item items ih =>
    obtain ⟨hitem, hitems⟩ := List.forall_mem_cons.mp h
    cases item with
    | cue written =>
      have hkept : (!isComment (VttItem.cue written).lines) = true := by
        rw [Bool.not_eq_true']
        exact isComment_cue hitem.1
      rw [List.map_cons, List.filter_cons, if_pos hkept, ih hitems]
      rfl
    | comment lines =>
      have hdropped : ¬ (!isComment (VttItem.comment lines).lines) = true := by
        rw [Bool.not_eq_true', Bool.not_eq_false]
        exact hitem.2
      rw [List.map_cons, List.filter_cons, if_neg hdropped, ih hitems]
      rfl

/-- The cues of the items. -/
def cuesIn (items : List (VttItem × Nat)) : List WrittenCue := (items.map (·.1)).filterMap (·.cue?)

theorem vttCues_written (start : VttStart) (trailing : Nat) {items : List (VttItem × Nat)}
    (h : ∀ i ∈ items, i.1.Lawful) :
    vttCues (vttText start trailing items) = .ok ((cuesIn items).map (·.blockLines)) := by
  have hheader : vttHeader.isPrefixOf (vttText start trailing items) = true := by
    apply List.isPrefixOf_iff_prefix.mpr
    rw [vttText, List.append_assoc]
    exact List.prefix_append _ _
  have hlawful : ∀ b ∈ items.map (fun i : VttItem × Nat => (i.1.lines, i.2)), BlockLines b.1 := by
    intro b hb
    obtain ⟨i, hi, rfl⟩ := List.mem_map.mp hb
    exact (h i hi).blockLines
  have hitems : ∀ item ∈ items.map (·.1), item.Lawful := by
    intro item hitem
    obtain ⟨i, hi, rfl⟩ := List.mem_map.mp hitem
    exact h i hi
  have hblocks := blocksOf_writeBlocks hlawful trailing
  rw [List.map_map] at hblocks
  have hbody : ∀ body, blocksOf (List.replicate (2 * start.gap) '\n' ++ body) = blocksOf body := by
    intro body
    rw [blocksOf, splitPairs_even, filter_empties]
    rfl
  simp only [vttCues, bind_ok, require_ok, exists_const]
  refine ⟨hheader, ?_⟩
  rw [vttText, cutAt_pair start.separated]
  simp only [hbody, hblocks]
  rw [cuesIn, ← filter_items hitems, List.map_map]
  rfl

theorem sample_separated : Separated '\n' (vttHeader ++ []) := ⟨by decide, by decide⟩

theorem sample_no_return : '\r' ∉ [] := List.not_mem_nil

def sampleStart : VttStart := ⟨[], 1, sample_separated, sample_no_return⟩

theorem sample_comment : (VttItem.comment [['N', 'O', 'T', 'E']]).Lawful := by
  refine ⟨⟨?_, ?_, ['N', 'O', 'T', 'E'], List.mem_cons_self, 'N', List.mem_cons_self, by decide⟩, by decide⟩
  · intro line hline
    obtain rfl := List.mem_singleton.mp hline
    decide
  · intro line hline
    obtain rfl := List.mem_singleton.mp hline
    decide

theorem sample_cue : (VttItem.cue sampleCue).Lawful := by
  constructor
  · intro id hid
    obtain rfl := Option.some.inj hid
    decide
  · intro p hp
    cases hp

end MDRack.Transcripts
