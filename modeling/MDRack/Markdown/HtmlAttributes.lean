import Mathlib.Data.List.DropRight
import MDRack.Markdown.HtmlImages

/-!
# Attributes of an image tag

* `Attribute`, `WrittenTag` — a tag as the attribute grammar writes it.
* `altValue` — the value of the first `alt` attribute that has one.

Principal result: `written_tag_read` — a written tag is found whole in a text without another `<`,
and its `alt` value is read.
-/

namespace MDRack.Markdown.Html

open CodePoints (Text CodePoint)
open Cutting

/-! ## The grammar -/

def Blank (text : Text) : Prop := ∀ p ∈ text, isBlank p = true

instance (text : Text) : Decidable (Blank text) :=
  inferInstanceAs (Decidable (∀ p ∈ text, isBlank p = true))

/-- The marks of a value: in quotes everything but the quote, without quotes no blank and no reserved
mark. -/
inductive ValueForm
  | quoted (quote : CodePoint)
  | unquoted

def ValueForm.Admits : ValueForm → Text → Prop
  | .quoted quote, text => isQuote quote = true ∧ quote ∉ text
  | .unquoted, text => text ≠ [] ∧ ∀ p ∈ text, isBlank p = false ∧ isReserved p = false

instance (form : ValueForm) (text : Text) : Decidable (form.Admits text) :=
  match form with
  | .quoted quote => inferInstanceAs (Decidable (isQuote quote = true ∧ quote ∉ text))
  | .unquoted =>
    inferInstanceAs (Decidable (text ≠ [] ∧ ∀ p ∈ text, isBlank p = false ∧ isReserved p = false))

structure AttributeValue where
  before : Text
  after : Text
  form : ValueForm
  text : Text
  before_blank : Blank before
  after_blank : Blank after
  lawful : form.Admits text

structure Attribute where
  blanks : Text
  name : Text
  value : Option AttributeValue
  blanks_ne : blanks ≠ []
  blanks_blank : Blank blanks
  name_ne : name ≠ []
  name_marks : ∀ p ∈ name, isNameMark p = true

def ValueForm.write : ValueForm → Text → Text
  | .quoted quote, text => quote :: (text ++ [quote])
  | .unquoted, text => text

def AttributeValue.write (value : AttributeValue) : Text :=
  value.before ++ .char '=' :: (value.after ++ value.form.write value.text)

def Attribute.write (a : Attribute) : Text :=
  a.blanks ++ (a.name ++ (a.value.map AttributeValue.write).getD [])

def writeAttributes (attributes : List Attribute) : Text := attributes.flatMap Attribute.write

/-- Blanks, or blanks, a slash and blanks. -/
structure Ending where
  blanks : Text
  slash : Option Text
  blanks_blank : Blank blanks
  slash_blank : ∀ after ∈ slash, Blank after

def Ending.write (ending : Ending) : Text :=
  ending.blanks ++ match ending.slash with
    | some after => .char '/' :: after
    | none => []

def Attribute.isUnquoted (a : Attribute) : Bool :=
  match a.value with
  | some ⟨_, _, .unquoted, _, _, _, _⟩ => true
  | _ => false

/-- A slash right behind an unquoted value would be part of the value. -/
def Apart (attributes : List Attribute) (ending : Ending) : Prop :=
  ∀ a ∈ attributes.getLast?, a.isUnquoted = true → ending.slash ≠ none → ending.blanks ≠ []

structure WrittenTag where
  name : Text
  attributes : List Attribute
  ending : Ending
  name_length : name.length = 3
  named : isNamed name = true
  apart : Apart attributes ending

def WrittenTag.body (tag : WrittenTag) : Text := writeAttributes tag.attributes ++ tag.ending.write

def WrittenTag.write (tag : WrittenTag) : Text :=
  .char '<' :: (tag.name ++ (tag.body ++ [.char '>']))

/-! ## Marks -/

theorem blank_marks {p : CodePoint} (h : isBlank p = true) :
    isQuote p = false ∧ p ≠ .char '<' ∧ p ≠ .char '>' ∧ p ≠ .char '/' ∧ p ≠ .char '=' ∧
      isNameMark p = false := by
  have hnot : ∀ c : Char, isBlank (.char c) = false → p ≠ .char c := by
    rintro c hc rfl
    rw [h] at hc
    cases hc
  have hquote : isQuote p = false := by
    simp only [isQuote, Bool.or_eq_false_iff, beq_eq_false_iff_ne]
    exact ⟨hnot _ (by decide), hnot _ (by decide)⟩
  refine ⟨hquote, hnot _ (by decide), hnot _ (by decide), hnot _ (by decide), hnot _ (by decide), ?_⟩
  simp [isNameMark, h]

theorem nameMark_marks {p : CodePoint} (h : isNameMark p = true) :
    isBlank p = false ∧ isReserved p = false ∧ p ≠ .char '/' := by
  simpa [isNameMark, and_assoc] using h

theorem plain_of_unreserved {p : CodePoint} (h : isReserved p = false) :
    isQuote p = false ∧ p ≠ .char '=' ∧ p ≠ .char '<' ∧ p ≠ .char '>' := by
  simp only [isReserved, Bool.or_eq_false_iff, beq_eq_false_iff_ne] at h
  exact ⟨h.1.1.1.1, h.1.1.1.2, h.1.1.2, h.1.2⟩

/-! ## A written tag is a tag -/

theorem inner_plain {text : Text}
    (h : ∀ p ∈ text, isQuote p = false ∧ p ≠ .char '<' ∧ p ≠ .char '>') : Inner none text := by
  induction text with
  | nil => exact inner_nil.mpr rfl
  | cons p text ih =>
    obtain ⟨hquote, hlt, hgt⟩ := h p List.mem_cons_self
    have hstep : quoteStep none p = none := by simp [quoteStep, hquote]
    rw [inner_cons, hstep]
    exact ⟨fun _ => ⟨hlt, hgt⟩, ih fun q hq => h q (List.mem_cons_of_mem _ hq)⟩

/-- In quotes a text is hidden up to the quote. -/
theorem inner_open {quote : CodePoint} {text : Text} (h : quote ∉ text) :
    Inner (some quote) (text ++ [quote]) := by
  induction text with
  | nil =>
    rw [List.nil_append, inner_cons, inner_nil]
    exact ⟨fun h => absurd h (Option.some_ne_none _), if_pos rfl⟩
  | cons p text ih =>
    rw [List.mem_cons, not_or] at h
    have hstep : quoteStep (some quote) p = some quote := if_neg (Ne.symm h.1)
    rw [List.cons_append, inner_cons, hstep]
    exact ⟨fun h => absurd h (Option.some_ne_none _), ih h.2⟩

theorem inner_quoted {quote : CodePoint} (hquote : isQuote quote = true) {text : Text} (h : quote ∉ text) :
    Inner none (quote :: (text ++ [quote])) := by
  have hstep : quoteStep none quote = some quote := if_pos hquote
  rw [inner_cons, hstep]
  refine ⟨fun _ => ⟨?_, ?_⟩, inner_open h⟩
  · rintro rfl
    exact absurd hquote (by decide)
  · rintro rfl
    exact absurd hquote (by decide)

theorem inner_blank {text : Text} (h : Blank text) : Inner none text := by
  apply inner_plain
  intro p hp
  obtain ⟨hquote, hlt, hgt, -⟩ := blank_marks (h p hp)
  exact ⟨hquote, hlt, hgt⟩

theorem AttributeValue.inner (value : AttributeValue) : Inner none value.write := by
  have hequals : Inner none [CodePoint.char '='] := inner_plain (by decide)
  have hform : Inner none (value.form.write value.text) := by
    have hlawful := value.lawful
    cases hvalue : value.form with
    | quoted quote =>
      rw [hvalue] at hlawful
      exact inner_quoted hlawful.1 hlawful.2
    | unquoted =>
      rw [hvalue] at hlawful
      apply inner_plain
      intro p hp
      obtain ⟨hquote, -, hlt, hgt⟩ := plain_of_unreserved (hlawful.2 p hp).2
      exact ⟨hquote, hlt, hgt⟩
  rw [AttributeValue.write, inner_append (inner_blank value.before_blank), ← List.singleton_append,
    inner_append hequals, inner_append (inner_blank value.after_blank)]
  exact hform

theorem Attribute.inner (a : Attribute) : Inner none a.write := by
  have hname : Inner none a.name := by
    apply inner_plain
    intro p hp
    obtain ⟨-, hreserved, -⟩ := nameMark_marks (a.name_marks p hp)
    obtain ⟨hquote, -, hlt, hgt⟩ := plain_of_unreserved hreserved
    exact ⟨hquote, hlt, hgt⟩
  rw [Attribute.write, inner_append (inner_blank a.blanks_blank), inner_append hname]
  cases a.value with
  | none => exact inner_nil.mpr rfl
  | some value => exact value.inner

theorem writeAttributes_inner (attributes : List Attribute) : Inner none (writeAttributes attributes) := by
  induction attributes with
  | nil => exact inner_nil.mpr rfl
  | cons a attributes ih =>
    rw [writeAttributes, List.flatMap_cons, inner_append a.inner]
    exact ih

theorem Ending.inner (ending : Ending) : Inner none ending.write := by
  rw [Ending.write, inner_append (inner_blank ending.blanks_blank)]
  cases hslash : ending.slash with
  | none => exact inner_nil.mpr rfl
  | some after =>
    have hsolidus : Inner none [CodePoint.char '/'] := inner_plain (by decide)
    show Inner none ([CodePoint.char '/'] ++ after)
    rw [inner_append hsolidus]
    exact inner_blank (ending.slash_blank after hslash)

theorem WrittenTag.inner (tag : WrittenTag) : Inner none tag.body := by
  rw [WrittenTag.body, inner_append (writeAttributes_inner tag.attributes)]
  exact tag.ending.inner

theorem isBoundary_blank {text rest : Text} (hne : text ≠ []) (h : Blank text) :
    isBoundary (text ++ rest) = true := by
  obtain ⟨p, text, rfl⟩ := List.exists_cons_of_ne_nil hne
  simp [isBoundary, h p List.mem_cons_self]

theorem WrittenTag.boundary (tag : WrittenTag) : isBoundary (tag.body ++ [.char '>']) = true := by
  rw [WrittenTag.body]
  cases tag.attributes with
  | nil =>
    by_cases hblanks : tag.ending.blanks = []
    · rw [Ending.write, hblanks]
      cases tag.ending.slash with
      | none => rfl
      | some after => rfl
    · rw [Ending.write, writeAttributes, List.flatMap_nil, List.nil_append, List.append_assoc]
      exact isBoundary_blank hblanks tag.ending.blanks_blank
  | cons a attributes =>
    rw [writeAttributes, List.flatMap_cons, Attribute.write, List.append_assoc, List.append_assoc,
      List.append_assoc]
    exact isBoundary_blank a.blanks_ne a.blanks_blank

theorem WrittenTag.isTag (tag : WrittenTag) : ImageTag tag.write :=
  ⟨tag.name, tag.body, rfl, tag.name_length, tag.named, tag.boundary, tag.inner⟩

/-- Where no `<` stands, nothing is found. -/
theorem tagsFrom_free {before : Text} (h : .char '<' ∉ before) (start : Nat) (rest : Text) :
    tagsFrom start (before ++ rest) = tagsFrom (start + before.length) rest := by
  induction before generalizing start with
  | nil => rfl
  | cons p before ih =>
    rw [List.mem_cons, not_or] at h
    rw [List.cons_append, tagsFrom, if_neg fun hopen => h.1 hopen.1.symm, ih h.2, List.length_cons,
      Nat.add_assoc, Nat.add_comm 1]

/-- In a text without another `<` exactly the written tag is found. -/
theorem written_tag_found (tag : WrittenTag) {before after : Text} (hbefore : .char '<' ∉ before)
    (hafter : .char '<' ∉ after) :
    htmlImageTags (before ++ (tag.write ++ after)) =
      [(before.length, before.length + tag.write.length, tag.write)] := by
  have hrest : ∀ start, tagsFrom start after = [] := by
    intro start
    have hfree := tagsFrom_free hafter start []
    rw [List.append_nil] at hfree
    rw [hfree, tagsFrom]
  rw [htmlImageTags, tagsFrom_free hbefore, tagsFrom_tag tag.isTag, hrest, Nat.zero_add]

/-! ## Reading an attribute -/

theorem span_run {f : CodePoint → Bool} {text rest : Text} (htext : ∀ p ∈ text, f p = true)
    (hrest : ∀ p ∈ rest.head?, f p = false) :
    (text ++ rest).takeWhile f = text ∧ (text ++ rest).dropWhile f = rest := by
  have hstop : rest.takeWhile f = [] ∧ rest.dropWhile f = rest := by
    cases rest with
    | nil => exact ⟨rfl, rfl⟩
    | cons p rest =>
      have hp := hrest p rfl
      simp [hp]
  rw [List.takeWhile_append_of_pos htext, List.dropWhile_append_of_pos htext, hstop.1, hstop.2,
    List.append_nil]
  exact ⟨rfl, rfl⟩

/-- What can stand behind an attribute: nothing, a blank, or a slash with blanks. -/
inductive Follows : Text → Prop
  | nothing : Follows []
  | blank {p : CodePoint} (rest : Text) (h : isBlank p = true) : Follows (p :: rest)
  | slash {after : Text} (h : Blank after) : Follows (.char '/' :: after)

theorem Follows.not_name {rest : Text} (h : Follows rest) : ∀ p ∈ rest.head?, isNameMark p = false := by
  intro p hp
  cases h with
  | nothing => cases hp
  | blank rest h =>
    obtain rfl := Option.some.inj hp
    exact (blank_marks h).2.2.2.2.2
  | slash h =>
    obtain rfl := Option.some.inj hp
    decide

theorem follows_blank {text : Text} (hne : text ≠ []) (h : Blank text) (rest : Text) :
    Follows (text ++ rest) := by
  obtain ⟨p, text, rfl⟩ := List.exists_cons_of_ne_nil hne
  exact .blank _ (h p List.mem_cons_self)

theorem dropWhile_blank {text : Text} (h : Blank text) {rest : Text}
    (hrest : ∀ p ∈ rest.head?, isBlank p = false) : (text ++ rest).dropWhile isBlank = rest :=
  (span_run h hrest).2

theorem dropWhile_blank_self {text : Text} (h : Blank text) : text.dropWhile isBlank = [] := by
  have hdrop : (text ++ []).dropWhile isBlank = [] := dropWhile_blank h (by simp)
  rwa [List.append_nil] at hdrop

/-- What comes behind the blanks of an ending. -/
theorem Ending.dropWhile (ending : Ending) :
    ending.write.dropWhile isBlank = match ending.slash with
      | some after => .char '/' :: after
      | none => [] := by
  rw [Ending.write]
  apply dropWhile_blank ending.blanks_blank
  intro p hp
  cases hslash : ending.slash with
  | none =>
    rw [hslash] at hp
    cases hp
  | some after =>
    rw [hslash] at hp
    obtain rfl := Option.some.inj hp
    decide

theorem Ending.follows (ending : Ending) : Follows ending.write := by
  by_cases hblanks : ending.blanks = []
  · rw [Ending.write, hblanks]
    cases hslash : ending.slash with
    | none => exact .nothing
    | some after => exact .slash (ending.slash_blank after hslash)
  · exact follows_blank hblanks ending.blanks_blank _

theorem Attribute.write_append (a : Attribute) (rest : Text) :
    a.write ++ rest = a.blanks ++ (a.name ++ ((a.value.map AttributeValue.write).getD [] ++ rest)) := by
  rw [Attribute.write, List.append_assoc, List.append_assoc]

theorem Attribute.dropWhile (a : Attribute) (rest : Text) :
    (a.write ++ rest).dropWhile isBlank =
      a.name ++ ((a.value.map AttributeValue.write).getD [] ++ rest) := by
  rw [a.write_append]
  apply dropWhile_blank a.blanks_blank
  intro p hp
  obtain ⟨q, name, hname⟩ := List.exists_cons_of_ne_nil a.name_ne
  rw [hname] at hp
  obtain rfl := Option.some.inj hp
  exact (nameMark_marks (a.name_marks q (by rw [hname]; exact List.mem_cons_self))).1

/-- What stands behind an attribute of a written tag. -/
structure Continues (rest : Text) : Prop where
  follows : Follows rest
  no_equals : ∀ p ∈ (rest.dropWhile isBlank).head?, p ≠ .char '='

theorem continues_write (attributes : List Attribute) (ending : Ending) :
    Continues (writeAttributes attributes ++ ending.write) := by
  cases attributes with
  | nil =>
    refine ⟨ending.follows, ?_⟩
    intro p hp
    rw [writeAttributes, List.flatMap_nil, List.nil_append, ending.dropWhile] at hp
    cases hslash : ending.slash with
    | none =>
      rw [hslash] at hp
      cases hp
    | some after =>
      rw [hslash] at hp
      obtain rfl := Option.some.inj hp
      decide
  | cons a attributes =>
    rw [writeAttributes, List.flatMap_cons, List.append_assoc]
    constructor
    · rw [a.write_append]
      exact follows_blank a.blanks_ne a.blanks_blank _
    · intro p hp
      rw [a.dropWhile] at hp
      obtain ⟨q, name, hname⟩ := List.exists_cons_of_ne_nil a.name_ne
      have hmark := a.name_marks q (by rw [hname]; exact List.mem_cons_self)
      rw [hname] at hp
      obtain rfl := Option.some.inj hp
      rintro rfl
      exact absurd hmark (by decide)

/-- Two rests of a tag that read alike. -/
def SameRest (left rest : Text) : Prop := ∀ fold alt, altFrom fold alt left = altFrom fold alt rest

theorem altFrom_eq (fold : CodePoint → Text) (alt : Option Text) (text : Text) :
    altFrom fold alt text = match text.dropWhile isBlank with
      | [] => some (strip (alt.getD []))
      | p :: rest =>
        if p = .char '/' ∧ rest.all isBlank = true then some (strip (alt.getD []))
        else match readAttribute (p :: rest) with
          | none => none
          | some (name, value, left) => altFrom fold (keepAlt fold alt name value) left := by
  rw [altFrom]
  split
  · rename_i hblank
    rw [hblank]
  · rename_i p rest hblank
    rw [hblank]
    simp only
    split
    · rfl
    · split
      · rename_i hread
        rw [hread]
      · rename_i hread
        rw [hread]

theorem sameRest_dropWhile (rest : Text) : SameRest (rest.dropWhile isBlank) rest := by
  intro fold alt
  have hsame : (rest.dropWhile isBlank).dropWhile isBlank = rest.dropWhile isBlank :=
    List.dropWhile_idempotent ..
  rw [altFrom_eq, altFrom_eq, hsame]

theorem sameRest_slash {after : Text} (h : Blank after) : SameRest [] (.char '/' :: after) := by
  intro fold alt
  have hslash : (CodePoint.char '/' :: after).dropWhile isBlank = .char '/' :: after :=
    List.dropWhile_cons_of_neg (by decide)
  have hall : after.all isBlank = true := List.all_eq_true.mpr h
  rw [altFrom_eq, altFrom_eq, hslash, List.dropWhile_nil]
  simp [hall]

/-- The text behind an unquoted value begins with a blank, where there is any. -/
def Separate (form : ValueForm) (rest : Text) : Prop :=
  form = .unquoted → ∀ p ∈ rest.head?, isBlank p = true

theorem readValue_quoted {quote : CodePoint} (hquote : isQuote quote = true) {text rest : Text}
    (htext : quote ∉ text) (hrest : Follows rest) :
    ∃ left, readValue (quote :: (text ++ [quote]) ++ rest) = some (text, left) ∧ SameRest left rest := by
  have hcut : cutAt [quote] (text ++ [quote] ++ rest) = some (text, rest) := cutAt_first htext
  rw [List.cons_append, readValue, if_pos hquote, hcut]
  cases hrest with
  | nothing => exact ⟨[], rfl, fun _ _ => rfl⟩
  | @blank p rest h =>
    simp only [h, if_true]
    exact ⟨p :: rest, rfl, fun _ _ => rfl⟩
  | @slash after h =>
    have hsolidus : isBlank (.char '/') = false := by decide
    have hall : after.all isBlank = true := List.all_eq_true.mpr h
    simp only [hsolidus, hall, Bool.false_eq_true, if_false, and_self, if_true]
    exact ⟨[], rfl, sameRest_slash h⟩

theorem readValue_unquoted {text rest : Text} (hne : text ≠ [])
    (htext : ∀ p ∈ text, isBlank p = false ∧ isReserved p = false)
    (hrest : ∀ p ∈ rest.head?, isBlank p = true) : readValue (text ++ rest) = some (text, rest) := by
  have hspan : (text ++ rest).takeWhile (fun q => !isBlank q) = text ∧
      (text ++ rest).dropWhile (fun q => !isBlank q) = rest := by
    apply span_run
    · intro p hp
      simp [(htext p hp).1]
    · intro p hp
      simp [hrest p hp]
  have hany : text.any isReserved = false := by
    rw [List.any_eq_false]
    intro p hp
    simp [(htext p hp).2]
  obtain ⟨p, more, rfl⟩ := List.exists_cons_of_ne_nil hne
  have hquote : isQuote p = false := (plain_of_unreserved (htext p List.mem_cons_self).2).1
  have hneither : ¬ (p :: more = [] ∨ (p :: more).any isReserved = true) := by
    rw [hany]
    simp
  rw [List.cons_append] at hspan ⊢
  rw [readValue, if_neg (by simp [hquote]), hspan.1, hspan.2]
  exact if_neg hneither

/-- A value is read as it was written. -/
theorem readValue_write (value : AttributeValue) {rest : Text} (hrest : Follows rest)
    (hseparate : Separate value.form rest) :
    ∃ left, readValue (value.form.write value.text ++ rest) = some (value.text, left) ∧
      SameRest left rest := by
  have hlawful := value.lawful
  cases hform : value.form with
  | quoted quote =>
    rw [hform] at hlawful
    exact readValue_quoted hlawful.1 hlawful.2 hrest
  | unquoted =>
    rw [hform] at hlawful
    exact ⟨rest, readValue_unquoted hlawful.1 hlawful.2 (hseparate hform), fun _ _ => rfl⟩

theorem AttributeValue.head_not_blank (value : AttributeValue) (rest : Text) :
    ∀ p ∈ (value.form.write value.text ++ rest).head?, isBlank p = false := by
  intro p hp
  have hlawful := value.lawful
  cases hform : value.form with
  | quoted quote =>
    rw [hform] at hlawful hp
    obtain rfl := Option.some.inj hp
    cases hblank : isBlank quote with
    | false => rfl
    | true => exact absurd hlawful.1 (by simp [(blank_marks hblank).1])
  | unquoted =>
    rw [hform] at hlawful hp
    obtain ⟨q, text, htext⟩ := List.exists_cons_of_ne_nil hlawful.1
    have hq := hlawful.2 q (by rw [htext]; exact List.mem_cons_self)
    rw [htext] at hp
    obtain rfl := Option.some.inj hp
    exact hq.1

/-- The text behind an attribute, where it fits. -/
structure Fits (a : Attribute) (rest : Text) : Prop where
  continues : Continues rest
  separate : ∀ value ∈ a.value, Separate value.form rest

/-- An attribute is read as it was written. -/
theorem readAttribute_write (a : Attribute) {rest : Text} (h : Fits a rest) :
    ∃ left, readAttribute (a.name ++ ((a.value.map AttributeValue.write).getD [] ++ rest)) =
      some (a.name, a.value.map (·.text), left) ∧ SameRest left rest := by
  have hspan : ∀ tail : Text, (∀ p ∈ tail.head?, isNameMark p = false) →
      (a.name ++ tail).takeWhile isNameMark = a.name ∧ (a.name ++ tail).dropWhile isNameMark = tail :=
    fun tail htail => span_run a.name_marks htail
  have hfollows := h.continues.follows
  cases hvalue : a.value with
  | none =>
    obtain ⟨htake, hdrop⟩ := hspan rest hfollows.not_name
    show ∃ left, readAttribute (a.name ++ ([] ++ rest)) = some (a.name, none, left) ∧ _
    rw [List.nil_append, readAttribute, htake, hdrop]
    simp only [if_neg a.name_ne]
    cases hblank : rest.dropWhile isBlank with
    | nil =>
      refine ⟨[], rfl, ?_⟩
      rw [← hblank]
      exact sameRest_dropWhile rest
    | cons p more =>
      have hequals : p ≠ .char '=' := h.continues.no_equals p (by rw [hblank]; rfl)
      simp only [if_neg hequals]
      refine ⟨p :: more, rfl, ?_⟩
      rw [← hblank]
      exact sameRest_dropWhile rest
  | some value =>
    have hhead : ∀ p ∈ (value.write ++ rest).head?, isNameMark p = false := by
      intro p hp
      rw [AttributeValue.write, List.append_assoc] at hp
      cases hbefore : value.before with
      | nil =>
        rw [hbefore] at hp
        obtain rfl := Option.some.inj hp
        decide
      | cons q before =>
        rw [hbefore] at hp
        obtain rfl := Option.some.inj hp
        have hq := value.before_blank q (by rw [hbefore]; exact List.mem_cons_self)
        exact (blank_marks hq).2.2.2.2.2
    obtain ⟨htake, hdrop⟩ := hspan (value.write ++ rest) hhead
    have hequals : (value.write ++ rest).dropWhile isBlank =
        .char '=' :: (value.after ++ (value.form.write value.text ++ rest)) := by
      rw [AttributeValue.write, List.append_assoc, List.cons_append, List.append_assoc]
      apply dropWhile_blank value.before_blank
      intro p hp
      obtain rfl := Option.some.inj hp
      decide
    have hblank : (value.after ++ (value.form.write value.text ++ rest)).dropWhile isBlank =
        value.form.write value.text ++ rest :=
      dropWhile_blank value.after_blank (value.head_not_blank rest)
    obtain ⟨left, hread, hsame⟩ := readValue_write value hfollows (h.separate value hvalue)
    show ∃ left, readAttribute (a.name ++ (value.write ++ rest)) = some (a.name, some value.text, left) ∧ _
    rw [readAttribute, htake, hdrop, hequals]
    simp only [if_neg a.name_ne, if_true, hblank, hread, Option.map_some]
    exact ⟨left, rfl, hsame⟩

/-! ## The value of `alt` -/

/-- Whether a name is `alt`, in any case. -/
def isAlt : Text → Bool
  | [a, l, t] => (a == .char 'a' || a == .char 'A') && (l == .char 'l' || l == .char 'L') &&
      (t == .char 't' || t == .char 'T')
  | _ => false

/-- The value of the first `alt` attribute that has one. -/
def altValue (attributes : List Attribute) : Option Text :=
  attributes.findSome? fun a => if isAlt a.name then a.value.map (·.text) else none

/-- What the foldings do: letters of ASCII become small, and nothing else becomes a part of `alt`. -/
structure Folding (fold : CodePoint → Text) : Prop where
  ascii : ∀ c : Char, c.toNat < 128 → fold (.char c) = [.char c.toLower]
  other : ∀ p, (∀ c : Char, p = .char c → 128 ≤ c.toNat) → ¬ fold p <:+: altName

section

variable {fold : CodePoint → Text}

theorem toLower_marks {c : Char} (h : c.toNat < 128) :
    (c.toLower = 'a' → c = 'a' ∨ c = 'A') ∧ (c.toLower = 'l' → c = 'l' ∨ c = 'L') ∧
      (c.toLower = 't' → c = 't' ∨ c = 'T') := by
  have hall : ∀ n : Fin 128, ((Char.ofNat n).toLower = 'a' → Char.ofNat n = 'a' ∨ Char.ofNat n = 'A') ∧
      ((Char.ofNat n).toLower = 'l' → Char.ofNat n = 'l' ∨ Char.ofNat n = 'L') ∧
      ((Char.ofNat n).toLower = 't' → Char.ofNat n = 't' ∨ Char.ofNat n = 'T') := by decide
  have hc := hall ⟨c.toNat, h⟩
  rwa [Char.ofNat_toNat] at hc

/-- A point whose folding is a part of `alt` is a letter of ASCII. -/
theorem Folding.letter (hfold : Folding fold) {p : CodePoint} (h : fold p <:+: altName) :
    ∃ c : Char, p = .char c ∧ c.toNat < 128 := by
  by_contra hnone
  refine hfold.other p ?_ h
  intro c hc
  by_contra hlt
  exact hnone ⟨c, hc, Nat.lt_of_not_le hlt⟩

/-- A name folds to `alt` exactly where it is `alt` in some case. -/
theorem casefold_eq_alt (hfold : Folding fold) {name : Text} : casefold fold name = altName ↔ isAlt name = true := by
  constructor
  · intro h
    have hletters : ∀ p ∈ name, ∃ c : Char, p = .char c ∧ c.toNat < 128 := by
      intro p hp
      apply hfold.letter
      rw [← h]
      obtain ⟨front, back, rfl⟩ := List.append_of_mem hp
      refine ⟨casefold fold front, casefold fold back, ?_⟩
      simp [casefold]
    have hlength : name.length = 3 := by
      have hone : ∀ p ∈ name, (fold p).length = 1 := by
        intro p hp
        obtain ⟨c, rfl, hc⟩ := hletters p hp
        rw [hfold.ascii c hc]
        rfl
      have hsum := congrArg List.length h
      rw [casefold, List.length_flatMap, List.map_congr_left hone] at hsum
      simpa [altName, CodePoints.ofChars] using hsum
    obtain ⟨a, l, t, rfl⟩ := List.length_eq_three.mp hlength
    obtain ⟨a, rfl, ha⟩ := hletters a (by simp)
    obtain ⟨l, rfl, hl⟩ := hletters l (by simp)
    obtain ⟨t, rfl, ht⟩ := hletters t (by simp)
    simp only [casefold, List.flatMap_cons, List.flatMap_nil, hfold.ascii a ha, hfold.ascii l hl,
      hfold.ascii t ht, altName, CodePoints.ofChars, List.map_cons, List.map_nil, List.singleton_append,
      List.cons.injEq, CodePoint.char.injEq, and_true] at h
    simp only [isAlt, Bool.and_eq_true, Bool.or_eq_true, beq_iff_eq, CodePoint.char.injEq]
    exact ⟨⟨(toLower_marks ha).1 h.1, (toLower_marks hl).2.1 h.2.1⟩, (toLower_marks ht).2.2 h.2.2⟩
  · intro h
    match name, h with
    | [a, l, t], h =>
      simp only [isAlt, Bool.and_eq_true, Bool.or_eq_true, beq_iff_eq] at h
      obtain ⟨⟨ha | ha, hl | hl⟩, ht | ht⟩ := h <;>
        · subst ha hl ht
          simp only [casefold, List.flatMap_cons, List.flatMap_nil]
          rw [hfold.ascii _ (by decide), hfold.ascii _ (by decide), hfold.ascii _ (by decide)]
          decide

theorem keepAlt_or (hfold : Folding fold) (alt : Option Text) (a : Attribute) (attributes : List Attribute) :
    (keepAlt fold alt a.name (a.value.map (·.text))).or (altValue attributes) =
      alt.or (altValue (a :: attributes)) := by
  rw [keepAlt, altValue, altValue, List.findSome?_cons]
  by_cases hname : isAlt a.name = true
  · simp only [casefold_eq_alt hfold, hname, true_and, if_true]
    cases alt with
    | some text => rfl
    | none => cases a.value <;> rfl
  · simp [casefold_eq_alt hfold, hname]

/-- One turn of the loop. -/
theorem altFrom_attribute (alt : Option Text) (a : Attribute) {rest : Text} (h : Fits a rest) :
    altFrom fold alt (a.write ++ rest) =
      altFrom fold (keepAlt fold alt a.name (a.value.map (·.text))) rest := by
  obtain ⟨left, hread, hsame⟩ := readAttribute_write a h
  obtain ⟨p, name, hname⟩ := List.exists_cons_of_ne_nil a.name_ne
  have hmark := a.name_marks p (by rw [hname]; exact List.mem_cons_self)
  have hslash : p ≠ .char '/' := (nameMark_marks hmark).2.2
  rw [altFrom_eq, a.dropWhile, hname, List.cons_append]
  rw [hname, List.cons_append] at hread
  simp only [hslash, false_and, if_false, hread]
  exact hsame fold _

theorem fits_first {a : Attribute} {attributes : List Attribute} {ending : Ending}
    (h : Apart (a :: attributes) ending) : Fits a (writeAttributes attributes ++ ending.write) where
  continues := continues_write attributes ending
  separate := by
    intro value hvalue hform p hp
    cases attributes with
    | cons b attributes =>
      rw [writeAttributes, List.flatMap_cons, List.append_assoc, b.write_append] at hp
      obtain ⟨q, blanks, hblanks⟩ := List.exists_cons_of_ne_nil b.blanks_ne
      rw [hblanks] at hp
      obtain rfl := Option.some.inj hp
      exact b.blanks_blank q (by rw [hblanks]; exact List.mem_cons_self)
    | nil =>
      have hunquoted : a.isUnquoted = true := by
        obtain ⟨before, after, form, text, hb, ha, hl⟩ := value
        obtain rfl := hform
        rw [Attribute.isUnquoted, hvalue]
      have hblanks := h a rfl hunquoted
      rw [writeAttributes, List.flatMap_nil, List.nil_append, Ending.write] at hp
      cases hb : ending.blanks with
      | cons q blanks =>
        rw [hb] at hp
        obtain rfl := Option.some.inj hp
        exact ending.blanks_blank q (by rw [hb]; exact List.mem_cons_self)
      | nil =>
        have hslash : ending.slash = none := by
          by_contra hslash
          exact hblanks hslash hb
        rw [hb, hslash] at hp
        cases hp

/-- The loop finds the first value of `alt`, where none was found before. -/
theorem altFrom_write (hfold : Folding fold) (alt : Option Text) {attributes : List Attribute}
    {ending : Ending} (h : Apart attributes ending) :
    altFrom fold alt (writeAttributes attributes ++ ending.write) =
      some (strip ((alt.or (altValue attributes)).getD [])) := by
  induction attributes generalizing alt with
  | nil =>
    have hnone : altValue [] = none := rfl
    rw [writeAttributes, List.flatMap_nil, List.nil_append, hnone, Option.or_none, altFrom_eq,
      ending.dropWhile]
    cases hslash : ending.slash with
    | none => rfl
    | some after =>
      have hall : after.all isBlank = true := List.all_eq_true.mpr (ending.slash_blank after hslash)
      exact if_pos ⟨rfl, hall⟩
  | cons a attributes ih =>
    have hrest : Apart attributes ending := by
      intro b hb
      apply h b
      cases attributes with
      | nil => cases hb
      | cons b' attributes => exact hb
    have hsplit : writeAttributes (a :: attributes) ++ ending.write =
        a.write ++ (writeAttributes attributes ++ ending.write) := by
      rw [writeAttributes, List.flatMap_cons, List.append_assoc]
      rfl
    rw [hsplit, altFrom_attribute alt a (fits_first h), ih _ hrest, keepAlt_or hfold]

theorem casefold_start (hfold : Folding fold) {name : Text} (hlength : name.length = 3)
    (hnamed : isNamed name = true) (rest : Text) :
    imgStart.isPrefixOf (casefold fold (.char '<' :: (name ++ rest))) = true := by
  match name, hlength with
  | [i, m, g], _ =>
    simp only [isNamed, Bool.and_eq_true, Bool.or_eq_true, beq_iff_eq] at hnamed
    have hfront : casefold fold [.char '<', i, m, g] = imgStart := by
      obtain ⟨⟨hi | hi, hm | hm⟩, hg | hg⟩ := hnamed <;>
        · subst hi hm hg
          simp only [casefold, List.flatMap_cons, List.flatMap_nil]
          rw [hfold.ascii _ (by decide), hfold.ascii _ (by decide), hfold.ascii _ (by decide),
            hfold.ascii _ (by decide)]
          decide
    apply List.isPrefixOf_iff_prefix.mpr
    refine ⟨casefold fold rest, ?_⟩
    rw [← hfront]
    simp [casefold]

/-- In a text without another `<` a written tag is found whole, and the value that is read is that of
its first `alt` attribute with a value. -/
theorem written_tag_read (hfold : Folding fold) (tag : WrittenTag) {before after : Text}
    (hbefore : .char '<' ∉ before) (hafter : .char '<' ∉ after) :
    htmlImageTags (before ++ (tag.write ++ after)) =
        [(before.length, before.length + tag.write.length, tag.write)] ∧
      htmlImageAlt fold tag.write = some (strip ((altValue tag.attributes).getD [])) := by
  refine ⟨written_tag_found tag hbefore hafter, ?_⟩
  have hstart := casefold_start hfold tag.name_length tag.named (tag.body ++ [.char '>'])
  have hsplit : tag.write = .char '<' :: (tag.name ++ (tag.body ++ [.char '>'])) := rfl
  have hlast : tag.write.getLast? = some (.char '>') := by
    rw [hsplit, ← List.append_assoc, ← List.cons_append, List.getLast?_concat]
  have hbody : (tag.write.drop 4).dropLast = tag.body := by
    rw [hsplit, List.drop_succ_cons, List.drop_left' tag.name_length, List.dropLast_concat]
  rw [htmlImageAlt, if_pos ⟨hstart, hlast⟩, hbody, WrittenTag.body, altFrom_write hfold none tag.apart,
    Option.none_or]

end

/-! ## A tag -/

/-- The folding of ASCII. -/
def foldAscii (p : CodePoint) : Text :=
  match p with
  | .char c => [.char c.toLower]
  | .surrogate n => [.surrogate n]

theorem toLower_large {c : Char} (h : 128 ≤ c.toNat) : c.toLower = c := by
  refine dif_neg ?_
  rintro ⟨-, hupper⟩
  have hle : c.toNat ≤ 90 := hupper
  omega

theorem folding_ascii : Folding foldAscii where
  ascii c _ := rfl
  other p h hpart := by
    have hmem : p ∈ altName → False := by
      intro hp
      have hchars : ∃ c : Char, p = .char c ∧ c.toNat < 128 := by
        simp only [altName, CodePoints.ofChars, List.map_cons, List.map_nil, List.mem_cons,
          List.not_mem_nil, or_false] at hp
        rcases hp with rfl | rfl | rfl
        · exact ⟨_, rfl, by decide⟩
        · exact ⟨_, rfl, by decide⟩
        · exact ⟨_, rfl, by decide⟩
      obtain ⟨c, hc, hlt⟩ := hchars
      have hge := h c hc
      omega
    apply hmem
    apply hpart.subset
    cases p with
    | char c =>
      rw [foldAscii, toLower_large (h c rfl)]
      exact List.mem_cons_self
    | surrogate n => exact List.mem_cons_self

def sampleText (text : String) : Text := CodePoints.ofChars text.toList

theorem sample_blank : Blank (sampleText " ") := by decide

theorem sample_empty : Blank [] := by decide

theorem sample_quoted : (ValueForm.quoted (.char '"')).Admits (sampleText "a>alt=b") := by decide

theorem sample_unquoted : ValueForm.unquoted.Admits (sampleText "x") := by decide

theorem sample_src : ∀ p ∈ sampleText "src", isNameMark p = true := by decide

theorem sample_alt : ∀ p ∈ sampleText "ALT", isNameMark p = true := by decide

theorem sample_blank_ne : sampleText " " ≠ [] := by decide

theorem sample_src_ne : sampleText "src" ≠ [] := by decide

theorem sample_alt_ne : sampleText "ALT" ≠ [] := by decide

def sampleSource : Attribute :=
  ⟨sampleText " ", sampleText "src", some ⟨[], [], .quoted (.char '"'), sampleText "a>alt=b",
    sample_empty, sample_empty, sample_quoted⟩, sample_blank_ne, sample_blank, sample_src_ne, sample_src⟩

def sampleAlt : Attribute :=
  ⟨sampleText " ", sampleText "ALT", some ⟨[], sampleText " ", .unquoted, sampleText "x",
    sample_empty, sample_blank, sample_unquoted⟩, sample_blank_ne, sample_blank, sample_alt_ne, sample_alt⟩

theorem sample_slash : ∀ after ∈ some ([] : Text), Blank after := by
  intro after hafter
  obtain rfl := Option.some.inj hafter
  exact sample_empty

def sampleEnding : Ending := ⟨sampleText " ", some [], sample_blank, sample_slash⟩

theorem sample_length : (sampleText "Img").length = 3 := rfl

theorem sample_named : isNamed (sampleText "Img") = true := by decide

theorem sample_apart : Apart [sampleSource, sampleAlt] sampleEnding :=
  fun _ _ _ _ => sample_blank_ne

/-- `<Img src="a>alt=b" ALT= x />`. -/
def sampleTag : WrittenTag :=
  ⟨sampleText "Img", [sampleSource, sampleAlt], sampleEnding, sample_length, sample_named, sample_apart⟩

theorem written_tag_read_sample :
    htmlImageTags (sampleText "> " ++ (sampleTag.write ++ sampleText ">")) =
        [(2, 2 + sampleTag.write.length, sampleTag.write)] ∧
      htmlImageAlt foldAscii sampleTag.write = some (strip (sampleText "x")) :=
  written_tag_read folding_ascii sampleTag (by decide) (by decide)

end MDRack.Markdown.Html
