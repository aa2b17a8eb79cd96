import MDRack.Lib.CodePoints
import MDRack.Lib.Checks
import MDRack.Lib.Cutting
import MDRack.Markdown.Lines
import MDRack.Media.Records

/-!
# Transcript sources (`mdrack.ingestion.transcripts.common`)

* `Thrown` — the exceptions of the readers.
* `Source`, `sourceBytes`, `decodeSig` — a source as text or bytes, and its text.
* `collapseText`, `cleanSubtitleText` — the text of a cue.
* `subtitleTimestampToMs` — the time that a timestamp shows.

The bytes of a source are hashed; the hash function and the table of HTML references are parameters.
-/

namespace MDRack.Transcripts

open Checks CodePoints Cutting Markdown

/-! ## Errors -/

/-- The codes of a `TranscriptReadError`. -/
inductive ReadCode
  | invalidJson
  | invalidRoot
  | missingSegments
  | invalidAtom
  | invalidTiming
  | emptyText
  | overlappingInterval
  | invalidSubtitle
  deriving DecidableEq, Repr

def ReadCode.value : ReadCode → String
  | .invalidJson => "invalid_json"
  | .invalidRoot => "invalid_root"
  | .missingSegments => "missing_segments"
  | .invalidAtom => "invalid_atom"
  | .invalidTiming => "invalid_timing"
  | .emptyText => "empty_text"
  | .overlappingInterval => "overlapping_interval"
  | .invalidSubtitle => "invalid_subtitle"

/-- `_ERROR_MESSAGES`. -/
def ReadCode.message : ReadCode → String
  | .invalidJson => "transcript source is not valid JSON"
  | .invalidRoot => "transcript source has an invalid root shape"
  | .missingSegments => "transcript source does not contain a segments array"
  | .invalidAtom => "transcript atom has an invalid shape"
  | .invalidTiming => "transcript atom has invalid timing"
  | .emptyText => "transcript atom text is empty"
  | .overlappingInterval => "transcript atoms overlap or are out of order"
  | .invalidSubtitle => "subtitle source has an invalid cue structure"

/-- What a reader raises: `TranscriptReadError`, or another exception. -/
inductive Thrown
  | readError (code : ReadCode) (sourceOrdinal : Option Nat)
  | media (failure : Media.Failure)
  | indexError
  | overflowError
  | valueError (message : String)
  | recursionError
  deriving DecidableEq, Repr

/-- Only a `TranscriptReadError` is raised. -/
def Thrown.isReadError : Thrown → Bool
  | .readError _ _ => true
  | _ => false

/-! ## Bytes and text -/

/-- A `str`, or `bytes`. -/
inductive Source
  | str (text : Text)
  | bytes (content : ByteArray)

/-- `source_bytes`, with the code that stands for a text without UTF-8 form. -/
def sourceBytes (code : ReadCode) : Source → Except Thrown ByteArray
  | .str text =>
    match characters? text with
    | some cs => .ok (String.ofList cs).toUTF8
    | none => .error (.readError code none)
  | .bytes content => .ok content

def byteOrderMark : Char := '\uFEFF'

def dropMark : List Char → List Char
  | c :: rest => if c = byteOrderMark then rest else c :: rest
  | [] => []

/-- `encoded.decode("utf-8-sig", "strict")`. -/
def decodeSig (code : ReadCode) (encoded : ByteArray) : Except Thrown (List Char) :=
  match String.fromUTF8? encoded with
  | some text => .ok (dropMark text.toList)
  | none => .error (.readError code none)

theorem sourceBytes_str (code : ReadCode) (cs : List Char) :
    sourceBytes code (.str (ofChars cs)) = .ok (String.ofList cs).toUTF8 := by
  rw [sourceBytes, characters?_ofChars]

theorem decodeSig_toUTF8 (code : ReadCode) (cs : List Char) :
    decodeSig code (String.ofList cs).toUTF8 = .ok (dropMark cs) := by
  have hdecode : String.fromUTF8? (String.ofList cs).toUTF8 = some (String.ofList cs) := by
    simp only [String.fromUTF8?, String.toUTF8_eq_toByteArray, dif_pos (String.ofList cs).isValidUTF8]
    rfl
  rw [decodeSig, hdecode]
  simp

/-- `text.replace("\r\n", "\n").replace("\r", "\n")`. -/
def normalizeNewlines (text : List Char) : List Char :=
  (normalizeCrlf text).map fun c => if c = '\r' then '\n' else c

/-! ## Cue text -/

/-- `text.split()`, with the word that has begun. -/
def wordsFrom : List Char → List Char → List (List Char)
  | word, [] => if word = [] then [] else [word]
  | word, c :: rest =>
    if isSpace c then
      if word = [] then wordsFrom [] rest else word :: wordsFrom [] rest
    else wordsFrom (word ++ [c]) rest

/-- `" ".join(text.split())`. -/
def collapseText (text : List Char) : List Char := [' '].intercalate (wordsFrom [] text)

theorem wordsFrom_word {w : List Char} (h : ∀ c ∈ w, isSpace c = false) (word rest : List Char) :
    wordsFrom word (w ++ rest) = wordsFrom (word ++ w) rest := by
  induction w generalizing word with
  | nil => simp
  | cons c w ih =>
    obtain ⟨hc, hw⟩ := List.forall_mem_cons.mp h
    rw [List.cons_append, wordsFrom, hc]
    simp [ih hw]

/-- Words are not empty, and no character of them is a blank. -/
theorem wordsFrom_spec {word text : List Char} (hword : ∀ c ∈ word, isSpace c = false) :
    ∀ w ∈ wordsFrom word text, w ≠ [] ∧ ∀ c ∈ w, isSpace c = false := by
  induction text generalizing word with
  | nil =>
    rw [wordsFrom]
    split
    · simp
    · rename_i hne
      intro w hw
      rw [List.mem_singleton.mp hw]
      exact ⟨hne, hword⟩
  | cons c rest ih =>
    rw [wordsFrom]
    split
    · split
      · exact ih fun c hc => absurd hc List.not_mem_nil
      · rename_i hne
        intro w hw
        rcases List.mem_cons.mp hw with rfl | hw
        · exact ⟨hne, hword⟩
        · exact ih (fun c hc => absurd hc List.not_mem_nil) w hw
    · rename_i hc
      apply ih
      intro d hd
      rcases List.mem_append.mp hd with hd | hd
      · exact hword d hd
      · rw [List.mem_singleton.mp hd]
        simpa using hc

/-- Words that are joined by blanks are the words of the joined text. -/
theorem words_joined {words : List (List Char)}
    (h : ∀ w ∈ words, w ≠ [] ∧ ∀ c ∈ w, isSpace c = false) :
    wordsFrom [] ([' '].intercalate words) = words := by
  induction words with
  | nil => rfl
  | cons w rest ih =>
    obtain ⟨⟨hne, hw⟩, hrest⟩ := List.forall_mem_cons.mp h
    cases rest with
    | nil =>
      have hword := wordsFrom_word hw [] []
      rw [List.append_nil, List.nil_append] at hword
      rw [List.intercalate_singleton, hword, wordsFrom, if_neg hne]
    | cons next rest =>
      have hspace : isSpace ' ' = true := by decide
      rw [List.intercalate_cons_cons, List.append_assoc, wordsFrom_word hw, List.nil_append,
        List.singleton_append, wordsFrom, if_pos hspace, if_neg hne, ih hrest]

theorem no_word (c : Char) (h : c ∈ ([] : List Char)) : isSpace c = false := absurd h List.not_mem_nil

@[simp] theorem collapseText_idem (text : List Char) : collapseText (collapseText text) = collapseText text := by
  rw [collapseText, collapseText, words_joined (wordsFrom_spec no_word)]

/-- A text with a word has something to see when it is collapsed. -/
theorem collapseText_visible {text : List Char} (h : collapseText text ≠ []) :
    hasVisible (String.ofList (collapseText text)) = true := by
  have hspec : ∀ w ∈ wordsFrom [] text, w ≠ [] ∧ ∀ c ∈ w, isSpace c = false :=
    wordsFrom_spec no_word
  unfold collapseText at h ⊢
  cases hwords : wordsFrom [] text with
  | nil =>
    rw [hwords] at h
    exact absurd rfl h
  | cons w rest =>
    obtain ⟨hne, hw⟩ := hspec w (hwords ▸ List.mem_cons_self)
    obtain ⟨c, w, rfl⟩ := List.exists_cons_of_ne_nil hne
    have hprefix : c ∈ [' '].intercalate ((c :: w) :: rest) := by
      cases rest with
      | nil => simp
      | cons next rest =>
        rw [List.intercalate_cons_cons]
        simp
    unfold hasVisible
    rw [String.toList_ofList]
    exact List.any_eq_true.mpr ⟨c, hprefix, by simp [hw c List.mem_cons_self]⟩

theorem any_dropWhile (p : Char → Bool) (text : List Char) :
    (text.dropWhile p).any (fun c => !p c) = text.any fun c => !p c := by
  induction text with
  | nil => rfl
  | cons c rest ih =>
    rw [List.dropWhile_cons]
    split
    · rename_i hc
      rw [ih, List.any_cons, hc]
      rfl
    · rfl

/-- What is left of a text that is not blank is not blank. -/
theorem strip_visible {text : List Char} (h : blank text = false) :
    hasVisible (String.ofList (strip text)) = true := by
  have hany : text.any (fun c => !isSpace c) = true := by
    simpa [blank] using h
  unfold hasVisible strip rstrip lstrip
  rw [String.toList_ofList, List.any_reverse, any_dropWhile, List.any_reverse, any_dropWhile, hany]

/-- Whether a tag goes on behind its `<`: something stands before the next `>`. -/
def opensTag (rest : List Char) : Bool :=
  match rest with
  | [] => false
  | c :: more => c != '>' && more.contains '>'

/-- `_SUBTITLE_TAG_PATTERN.sub("", text)`; `inside` tells that a tag has been opened. -/
def stripTags : Bool → List Char → List Char
  | _, [] => []
  | true, c :: rest => stripTags (c != '>') rest
  | false, c :: rest =>
    if c = '<' ∧ opensTag rest then stripTags true rest else c :: stripTags false rest

section
variable (decodeReferences : List Char → Except Thrown (List Char))

/-- `html.unescape`, where `decodeReferences` replaces the references that a text with `&` has, or
raises what converting a number raises. -/
def unescape (text : List Char) : Except Thrown (List Char) :=
  if '&' ∈ text then decodeReferences text else .ok text

def cleanSubtitleText (text : List Char) : Except Thrown (List Char) :=
  unescape decodeReferences (stripTags false text)

end

/-! ## Timestamps -/

/-- The values of a stretch of `\d`. -/
def digitValues (digits : List Char) : Option (List Nat) :=
  digits.mapM fun c => decimalValue (.char c)

/-- `(\d{2}):(\d{2})[.,](\d{3})`: minutes, seconds and milliseconds. -/
def clockParts (minutes clock : List Char) : Option (Nat × Nat × Nat) :=
  match minutes, clock with
  | [m, n], [s, t, point, a, b, c] =>
    if point = '.' ∨ point = ',' then do
      let minutes ← digitValues [m, n]
      let seconds ← digitValues [s, t]
      let millis ← digitValues [a, b, c]
      some (ofDigitValues minutes, ofDigitValues seconds, ofDigitValues millis)
    else none
  | _, _ => none

/-- The groups of `_TIMESTAMP_PATTERN`; the hours as digits, if there are any. -/
def timestampParts (value : List Char) : Option (List Nat × Nat × Nat × Nat) :=
  match cutAt [':'] value with
  | none => none
  | some (first, rest) =>
    match cutAt [':'] rest with
    | none => (clockParts first rest).map fun clock => ([], clock)
    | some (minutes, clock) =>
      if first = [] then none
      else do
        let hours ← digitValues first
        let parts ← clockParts minutes clock
        some (hours, parts)

/-- `subtitle_timestamp_to_ms`. -/
def subtitleTimestampToMs (value : List Char) : Except Thrown Nat :=
  match timestampParts (strip value) with
  | none => .error (.readError .invalidTiming none)
  | some (hours, minutes, seconds, millis) =>
    -- `int` refuses more digits than the interpreter converts
    if maxIntDigits < hours.length then .error (.readError .invalidTiming none)
    else if 60 ≤ minutes ∨ 60 ≤ seconds then .error (.readError .invalidTiming none)
    else .ok (((ofDigitValues hours * 60 + minutes) * 60 + seconds) * 1000 + millis)

end MDRack.Transcripts
