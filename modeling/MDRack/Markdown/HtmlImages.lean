import MDRack.Core.Common
import MDRack.Lib.CodePoints
import MDRack.Lib.Cutting

/-!
# HTML image tags (`parser.py`)

* `htmlImageTags` — the complete `img` tags of a text, with their offsets.
* `htmlImageAlt` — the value of the `alt` attribute of one tag.
* `ImageTag` — `<img`, a boundary, and everything up to the first `>` outside quotes.

Principal result: `htmlImageTags_exact` — the slices are tags, disjoint and in order, and no tag outside
them is missed.
-/

namespace MDRack.Markdown.Html

open CodePoints (Text CodePoint)
open Cutting

/-! ## Marks -/

def isBlank : CodePoint → Bool := CodePoints.blankPoint isSpace

def strip (text : Text) : Text := CodePoints.stripBlanks isSpace text

def isQuote (p : CodePoint) : Bool := p == .char '"' || p == .char '\''

/-- What ends an unquoted value. -/
def isReserved (p : CodePoint) : Bool :=
  isQuote p || p == .char '=' || p == .char '<' || p == .char '>' || p == .char (Char.ofNat 0x60)

/-- A character of a name. -/
def isNameMark (p : CodePoint) : Bool := !isBlank p && !isReserved p && p != .char '/'

/-! ## Tags -/

/-- The tail of a tag up to the first `>` outside quotes, where no `<` stands before it. -/
def closing : Option CodePoint → Text → Option Text
  | _, [] => none
  | some quote, p :: rest => (closing (if p = quote then none else some quote) rest).map (p :: ·)
  | none, p :: rest =>
    if isQuote p then (closing (some p) rest).map (p :: ·)
    else if p = .char '>' then some [p]
    else if p = .char '<' then none
    else (closing none rest).map (p :: ·)

/-- Whether `img` comes next, in any case. -/
def isNamed : Text → Bool
  | i :: m :: g :: _ => (i == .char 'i' || i == .char 'I') && (m == .char 'm' || m == .char 'M') &&
      (g == .char 'g' || g == .char 'G')
  | _ => false

/-- Whether the name ends here. -/
def isBoundary : Text → Bool
  | p :: _ => isBlank p || p == .char '/' || p == .char '>'
  | [] => false

/-- The loop of `_html_image_tags` on the rest of the text from an offset on. -/
def tagsFrom (start : Nat) (raw : Text) : List (Nat × Nat × Text) :=
  match raw with
  | [] => []
  | p :: rest =>
    if p = .char '<' ∧ isNamed rest = true then
      if isBoundary (rest.drop 3) then
        match closing none (rest.drop 3) with
        | some tail => (start, start + 4 + tail.length, (p :: rest).take (4 + tail.length)) ::
            tagsFrom (start + 4 + tail.length) ((rest.drop 3).drop tail.length)
        | none => tagsFrom (start + 4) (rest.drop 3)
      else tagsFrom (start + 4) (rest.drop 3)
    else tagsFrom (start + 1) rest
termination_by raw.length
decreasing_by all_goals simp only [List.length_drop, List.length_cons]; omega

def htmlImageTags (raw : Text) : List (Nat × Nat × Text) := tagsFrom 0 raw

/-! ## Attributes -/

/-- The value that stands here, and what comes after it. -/
def readValue : Text → Option (Text × Text)
  | [] => none
  | p :: rest =>
    if isQuote p then
      match cutAt [p] rest with
      | none => none
      | some (value, []) => some (value, [])
      | some (value, q :: after) =>
        if isBlank q then some (value, q :: after)
        else if q = .char '/' ∧ after.all isBlank = true then some (value, [])
        else none
    else
      let value := (p :: rest).takeWhile fun q => !isBlank q
      if value = [] ∨ value.any isReserved = true then none
      else some (value, (p :: rest).dropWhile fun q => !isBlank q)

theorem readValue_length {text value rest : Text} (h : readValue text = some (value, rest)) :
    rest.length ≤ text.length := by
  unfold readValue at h
  split at h
  · cases h
  · rename_i p more
    split at h
    · split at h
      · cases h
      · obtain ⟨-, rfl⟩ := Prod.mk.inj (Option.some.inj h)
        exact Nat.zero_le _
      · rename_i value' q after hcut
        have hlength := congrArg List.length (cutAt_eq_some hcut)
        simp only [List.length_append, List.length_cons] at hlength
        split at h
        · obtain ⟨-, rfl⟩ := Prod.mk.inj (Option.some.inj h)
          simp only [List.length_cons]
          omega
        · split at h
          · obtain ⟨-, rfl⟩ := Prod.mk.inj (Option.some.inj h)
            exact Nat.zero_le _
          · cases h
    · simp only at h
      split at h
      · cases h
      · obtain ⟨-, rfl⟩ := Prod.mk.inj (Option.some.inj h)
        exact (List.dropWhile_sublist _).length_le

/-- The attribute that begins here: its name, its value where it has one, and what comes after it. -/
def readAttribute (text : Text) : Option (Text × Option Text × Text) :=
  let name := text.takeWhile isNameMark
  if name = [] then none
  else match (text.dropWhile isNameMark).dropWhile isBlank with
    | [] => some (name, none, [])
    | p :: rest =>
      if p = .char '=' then (readValue (rest.dropWhile isBlank)).map fun read => (name, some read.1, read.2)
      else some (name, none, p :: rest)

theorem length_dropWhile_le (f : CodePoint → Bool) (text : Text) :
    (text.dropWhile f).length ≤ text.length := (List.dropWhile_sublist f).length_le

/-- An attribute takes at least its name. -/
theorem readAttribute_length {text name left : Text} {value : Option Text}
    (h : readAttribute text = some (name, value, left)) : left.length < text.length := by
  have hspan := congrArg List.length (List.takeWhile_append_dropWhile (p := isNameMark) (l := text))
  rw [List.length_append] at hspan
  unfold readAttribute at h
  simp only at h
  split at h
  · cases h
  · rename_i hname
    have hpos := List.length_pos_iff.mpr hname
    have hdrop := length_dropWhile_le isBlank (text.dropWhile isNameMark)
    split at h
    · obtain ⟨-, -, rfl⟩ : _ ∧ _ ∧ [] = left := by simpa using h
      simp only [List.length_nil]
      omega
    · rename_i p rest hrest
      rw [hrest, List.length_cons] at hdrop
      split at h
      · obtain ⟨read, hread, heq⟩ := Option.map_eq_some_iff.mp h
        obtain ⟨-, -, rfl⟩ : _ ∧ _ ∧ read.2 = left := by simpa using heq
        have hle := readValue_length hread
        have hblank := length_dropWhile_le isBlank rest
        omega
      · obtain ⟨-, -, rfl⟩ : _ ∧ _ ∧ p :: rest = left := by simpa using h
        simp only [List.length_cons]
        omega

section

variable (fold : CodePoint → Text)

/-- `str.casefold`, with the folding of one code point as a parameter. -/
def casefold (text : Text) : Text := text.flatMap fold

def altName : Text := CodePoints.ofChars ['a', 'l', 't']

def imgStart : Text := CodePoints.ofChars ['<', 'i', 'm', 'g']

/-- The first `alt` value is kept. -/
def keepAlt (alt : Option Text) (name : Text) (value : Option Text) : Option Text :=
  if casefold fold name = altName ∧ alt = none then value else alt

/-- The loop of `_html_image_alt`. -/
def altFrom (alt : Option Text) (attributes : Text) : Option Text :=
  match hblank : attributes.dropWhile isBlank with
  | [] => some (strip (alt.getD []))
  | p :: rest =>
    if p = .char '/' ∧ rest.all isBlank = true then some (strip (alt.getD []))
    else match hread : readAttribute (p :: rest) with
      | none => none
      | some (name, value, left) => altFrom (keepAlt fold alt name value) left
termination_by attributes.length
decreasing_by
  have hleft := readAttribute_length hread
  have hdrop := length_dropWhile_le isBlank attributes
  rw [hblank] at hdrop
  omega

def htmlImageAlt (tag : Text) : Option Text :=
  if imgStart.isPrefixOf (casefold fold tag) ∧ tag.getLast? = some (.char '>') then
    altFrom fold none ((tag.drop 4).dropLast)
  else none

end

/-! ## What a tag is -/

def quoteStep (quote : Option CodePoint) (p : CodePoint) : Option CodePoint :=
  match quote with
  | some q => if p = q then none else some q
  | none => if isQuote p then some p else none

/-- The quote that is open behind a text. -/
def quoteAfter (quote : Option CodePoint) (text : Text) : Option CodePoint := text.foldl quoteStep quote

/-- A text that ends outside quotes and has `<` and `>` in quotes only. -/
structure Inner (quote : Option CodePoint) (body : Text) : Prop where
  closed : quoteAfter quote body = none
  hidden : ∀ before p after, body = before ++ p :: after → p = .char '<' ∨ p = .char '>' →
    quoteAfter quote before ≠ none

theorem inner_nil {quote : Option CodePoint} : Inner quote [] ↔ quote = none := by
  constructor
  · intro h
    exact h.closed
  · intro h
    refine ⟨h, ?_⟩
    intro before p after heq
    simp at heq

theorem inner_cons {quote : Option CodePoint} {p : CodePoint} {rest : Text} :
    Inner quote (p :: rest) ↔
      (quote = none → p ≠ .char '<' ∧ p ≠ .char '>') ∧ Inner (quoteStep quote p) rest := by
  constructor
  · rintro ⟨hclosed, hhidden⟩
    refine ⟨?_, hclosed, ?_⟩
    · intro hnone
      constructor
      · intro hp
        exact hhidden [] p rest rfl (.inl hp) hnone
      · intro hp
        exact hhidden [] p rest rfl (.inr hp) hnone
    · intro before q after heq hq
      exact hhidden (p :: before) q after (congrArg _ heq) hq
  · rintro ⟨hfirst, hclosed, hhidden⟩
    refine ⟨hclosed, ?_⟩
    intro before q after heq hq hnone
    cases before with
    | nil =>
      obtain ⟨rfl, -⟩ := List.cons.inj heq
      obtain ⟨hlt, hgt⟩ := hfirst hnone
      rcases hq with hq | hq
      · exact hlt hq
      · exact hgt hq
    | cons q' before =>
      obtain ⟨rfl, hrest⟩ := List.cons.inj heq
      exact hhidden before q after hrest hq hnone

theorem inner_append {quote : Option CodePoint} {first second : Text} (h : Inner quote first) :
    Inner quote (first ++ second) ↔ Inner none second := by
  induction first generalizing quote with
  | nil =>
    obtain rfl := inner_nil.mp h
    rfl
  | cons p first ih =>
    obtain ⟨hp, hrest⟩ := inner_cons.mp h
    rw [List.cons_append, inner_cons, ih hrest, and_iff_right hp]

theorem closing_cons (quote : Option CodePoint) (p : CodePoint) (rest : Text) :
    closing quote (p :: rest) =
      if quote = none ∧ p = .char '>' then some [p]
      else if quote = none ∧ p = .char '<' then none
      else (closing (quoteStep quote p) rest).map (p :: ·) := by
  cases quote with
  | some q => simp [closing, quoteStep]
  | none =>
    by_cases hquote : isQuote p = true
    · have hgt : p ≠ .char '>' := by
        rintro rfl
        exact absurd hquote (by decide)
      have hlt : p ≠ .char '<' := by
        rintro rfl
        exact absurd hquote (by decide)
      simp [closing, quoteStep, hquote, hgt, hlt]
    · simp [closing, quoteStep, hquote]

/-- The tail of a tag is what comes up to the first `>` outside quotes. -/
theorem closing_eq_some {quote : Option CodePoint} {text tail : Text} :
    closing quote text = some tail ↔
      ∃ body after, Inner quote body ∧ tail = body ++ [.char '>'] ∧ text = tail ++ after := by
  induction text generalizing quote tail with
  | nil =>
    rw [closing]
    constructor
    · intro h
      cases h
    · rintro ⟨body, after, -, rfl, heq⟩
      simp at heq
  | cons p rest ih =>
    rw [closing_cons]
    constructor
    · intro h
      split at h
      · rename_i hend
        obtain ⟨rfl, rfl⟩ := hend
        obtain rfl := Option.some.inj h
        exact ⟨[], rest, inner_nil.mpr rfl, rfl, rfl⟩
      · rename_i hgt
        split at h
        · cases h
        · rename_i hlt
          obtain ⟨tail', htail, rfl⟩ := Option.map_eq_some_iff.mp h
          obtain ⟨body, after, hbody, rfl, rfl⟩ := ih.mp htail
          refine ⟨p :: body, after, inner_cons.mpr ⟨?_, hbody⟩, rfl, rfl⟩
          intro hnone
          exact ⟨fun hp => hlt ⟨hnone, hp⟩, fun hp => hgt ⟨hnone, hp⟩⟩
    · rintro ⟨body, after, hbody, rfl, heq⟩
      cases body with
      | nil =>
        obtain ⟨rfl, -⟩ := List.cons.inj heq
        exact if_pos ⟨inner_nil.mp hbody, rfl⟩
      | cons q body =>
        obtain ⟨rfl, rfl⟩ := List.cons.inj heq
        obtain ⟨hfirst, hinner⟩ := inner_cons.mp hbody
        rw [if_neg fun hend => (hfirst hend.1).2 hend.2, if_neg fun hopen => (hfirst hopen.1).1 hopen.2,
          ih.mpr ⟨body, after, hinner, rfl, rfl⟩]
        rfl

/-- `<img` in any case, a boundary, and everything up to the first `>` outside quotes. -/
structure ImageTag (tag : Text) : Prop where
  parts : ∃ name body, tag = .char '<' :: (name ++ (body ++ [.char '>'])) ∧ name.length = 3 ∧
    isNamed name = true ∧ isBoundary (body ++ [.char '>']) = true ∧ Inner none body

theorem isNamed_append {name rest : Text} (h : name.length = 3) : isNamed (name ++ rest) = isNamed name := by
  match name, h with
  | [_, _, _], _ => rfl

theorem isBoundary_append {text rest : Text} (h : text ≠ []) : isBoundary (text ++ rest) = isBoundary text := by
  cases text with
  | nil => exact absurd rfl h
  | cons p text => rfl

/-- A named text is its name and what follows. -/
theorem split_named {rest : Text} (h : isNamed rest = true) :
    ∃ name, rest = name ++ rest.drop 3 ∧ name.length = 3 ∧ isNamed name = true ∧ .char '<' ∉ name := by
  match rest, h with
  | i :: m :: g :: rest, h =>
    refine ⟨[i, m, g], rfl, rfl, h, ?_⟩
    intro hmem
    simp only [isNamed, Bool.and_eq_true, Bool.or_eq_true, beq_iff_eq] at h
    simp only [List.mem_cons, List.not_mem_nil, or_false] at hmem
    rcases hmem with rfl | rfl | rfl <;> simp at h

/-! ## The scan -/

/-- A tag that begins the text is found. -/
theorem tagsFrom_tag {tag : Text} (h : ImageTag tag) (start : Nat) (after : Text) :
    tagsFrom start (tag ++ after) =
      (start, start + tag.length, tag) :: tagsFrom (start + tag.length) after := by
  obtain ⟨name, body, rfl, hlength, hnamed, hboundary, hinner⟩ := h.parts
  have hdrop : (name ++ (body ++ [CodePoint.char '>']) ++ after).drop 3 = body ++ [.char '>'] ++ after := by
    rw [List.append_assoc, List.drop_left' hlength]
  have hclosing : closing none (body ++ [.char '>'] ++ after) = some (body ++ [.char '>']) :=
    closing_eq_some.mpr ⟨body, after, hinner, rfl, rfl⟩
  have hname : isNamed (name ++ (body ++ [.char '>']) ++ after) = true := by
    rw [List.append_assoc, isNamed_append hlength]
    exact hnamed
  have hbound : isBoundary (body ++ [.char '>'] ++ after) = true := by
    rw [isBoundary_append (by simp)]
    exact hboundary
  have hsize : 4 + (body ++ [CodePoint.char '>']).length =
      (CodePoint.char '<' :: (name ++ (body ++ [.char '>']))).length := by
    simp only [List.length_cons, List.length_append, hlength]
    omega
  have htake : (CodePoint.char '<' :: (name ++ (body ++ [.char '>']) ++ after)).take
      (4 + (body ++ [CodePoint.char '>']).length) = .char '<' :: (name ++ (body ++ [.char '>'])) := by
    rw [hsize, ← List.cons_append]
    exact List.take_left
  rw [List.cons_append, tagsFrom, if_pos ⟨rfl, hname⟩, hdrop, if_pos hbound, hclosing]
  simp only [htake, List.drop_left, Nat.add_assoc]
  rw [hsize]

/-- Where no tag begins, the scan goes on behind the place, at most behind the name. -/
theorem tagsFrom_skip {p : CodePoint} {rest : Text}
    (h : ∀ tag after, ImageTag tag → p :: rest ≠ tag ++ after) (start : Nat) :
    ∃ skipped left, rest = skipped ++ left ∧ .char '<' ∉ skipped ∧
      tagsFrom start (p :: rest) = tagsFrom (start + (1 + skipped.length)) left := by
  rw [tagsFrom]
  split
  · rename_i hopen
    obtain ⟨rfl, hnamed⟩ := hopen
    obtain ⟨name, hrest, hlength, hname, hfree⟩ := split_named hnamed
    have hnone : isBoundary (rest.drop 3) = true → closing none (rest.drop 3) = none := by
      intro hboundary
      by_contra hsome
      obtain ⟨tail, htail⟩ := Option.ne_none_iff_exists'.mp hsome
      obtain ⟨body, after, hinner, rfl, heq⟩ := closing_eq_some.mp htail
      rw [heq, isBoundary_append (by simp)] at hboundary
      refine h _ after ⟨name, body, rfl, hlength, hname, hboundary, hinner⟩ ?_
      rw [List.cons_append, List.append_assoc, ← heq]
      exact congrArg _ hrest
    refine ⟨name, rest.drop 3, hrest, hfree, ?_⟩
    rw [hlength]
    split
    · rename_i hboundary
      rw [hnone hboundary]
    · rfl
  · exact ⟨[], rest, rfl, List.not_mem_nil, rfl⟩

/-- A slice that is found: its offsets are those of a tag in the text. -/
structure Found (start : Nat) (raw : Text) (slice : Nat × Nat × Text) : Prop where
  tag : ImageTag slice.2.2
  stop : slice.2.1 = slice.1 + slice.2.2.length
  place : ∃ before after, raw = before ++ slice.2.2 ++ after ∧ slice.1 = start + before.length

theorem Found.shift {start : Nat} {front raw : Text} {slice : Nat × Nat × Text}
    (h : Found (start + front.length) raw slice) : Found start (front ++ raw) slice := by
  obtain ⟨before, after, rfl, hstart⟩ := h.place
  refine ⟨h.tag, h.stop, front ++ before, after, ?_, ?_⟩
  · rw [List.append_assoc, List.append_assoc, List.append_assoc]
  · rw [hstart, List.length_append]
    omega

theorem Found.start_le {start : Nat} {raw : Text} {slice : Nat × Nat × Text}
    (h : Found start raw slice) : start ≤ slice.1 := by
  obtain ⟨before, -, -, hstart⟩ := h.place
  omega

/-- The two ways on from a place in the text. -/
theorem tagsFrom_cases (start : Nat) (p : CodePoint) (rest : Text) :
    (∃ tag after, ImageTag tag ∧ p :: rest = tag ++ after ∧
      tagsFrom start (p :: rest) =
        (start, start + tag.length, tag) :: tagsFrom (start + tag.length) after) ∨
    (∃ skipped left, p :: rest = (p :: skipped) ++ left ∧ .char '<' ∉ skipped ∧
      (∀ tag after, ImageTag tag → p :: rest ≠ tag ++ after) ∧
      tagsFrom start (p :: rest) = tagsFrom (start + (p :: skipped).length) left) := by
  by_cases h : ∃ tag after, ImageTag tag ∧ p :: rest = tag ++ after
  · obtain ⟨tag, after, htag, heq⟩ := h
    refine .inl ⟨tag, after, htag, heq, ?_⟩
    rw [heq, tagsFrom_tag htag]
  · have hnone : ∀ tag after, ImageTag tag → p :: rest ≠ tag ++ after :=
      fun tag after htag heq => h ⟨tag, after, htag, heq⟩
    obtain ⟨skipped, left, rfl, hfree, heq⟩ := tagsFrom_skip hnone start
    refine .inr ⟨skipped, left, rfl, hfree, hnone, ?_⟩
    rw [heq, List.length_cons, Nat.add_comm 1]

theorem ImageTag.length_pos {tag : Text} (h : ImageTag tag) : 0 < tag.length := by
  obtain ⟨name, body, rfl, -⟩ := h.parts
  exact Nat.succ_pos _

/-- The slices of a scan are tags, one behind the other. -/
theorem tagsFrom_sound (start : Nat) (raw : Text) :
    (∀ slice ∈ tagsFrom start raw, Found start raw slice) ∧
      (tagsFrom start raw).Pairwise fun a b => a.2.1 ≤ b.1 := by
  induction hn : raw.length using Nat.strong_induction_on generalizing start raw with
  | _ n ih =>
    cases raw with
    | nil =>
      have hnil : tagsFrom start [] = [] := by rw [tagsFrom]
      rw [hnil]
      exact ⟨fun slice hslice => absurd hslice List.not_mem_nil, List.Pairwise.nil⟩
    | cons p rest =>
      rcases tagsFrom_cases start p rest with
        ⟨tag, after, htag, heq, htags⟩ | ⟨skipped, left, heq, -, -, htags⟩
      · have hpos := htag.length_pos
        have hlt : after.length < n := by
          rw [← hn, heq, List.length_append]
          omega
        obtain ⟨hfound, hpairs⟩ := ih after.length hlt (start + tag.length) after rfl
        rw [htags, heq]
        constructor
        · intro slice hslice
          rcases List.mem_cons.mp hslice with rfl | hslice
          · exact ⟨htag, rfl, [], after, rfl, rfl⟩
          · exact (hfound slice hslice).shift
        · apply List.pairwise_cons.mpr
          exact ⟨fun slice hslice => (hfound slice hslice).start_le, hpairs⟩
      · have hlt : left.length < n := by
          rw [← hn, heq, List.length_append, List.length_cons]
          omega
        obtain ⟨hfound, hpairs⟩ := ih left.length hlt (start + (p :: skipped).length) left rfl
        rw [htags, heq]
        exact ⟨fun slice hslice => (hfound slice hslice).shift, hpairs⟩

theorem split_front {a b c d : Text} (h : a ++ b = c ++ d) (hle : c.length ≤ a.length) :
    ∃ e, a = c ++ e ∧ d = e ++ b := by
  obtain ⟨e, he⟩ := List.prefix_of_prefix_length_le (List.prefix_append c d) (h ▸ List.prefix_append a b) hle
  refine ⟨e, he.symm, ?_⟩
  rw [← he, List.append_assoc] at h
  exact (List.append_cancel_left h).symm

/-- A tag of the text begins a slice, or begins inside one. -/
theorem tagsFrom_complete (start : Nat) {before tag after : Text} (htag : ImageTag tag) :
    ∃ slice ∈ tagsFrom start (before ++ (tag ++ after)), slice.1 ≤ start + before.length ∧
      start + before.length < slice.2.1 ∧ (slice.1 = start + before.length → slice.2.2 = tag) := by
  induction hn : before.length using Nat.strong_induction_on generalizing start before with
  | _ n ih =>
    cases before with
    | nil =>
      have hpos := htag.length_pos
      rw [List.nil_append, tagsFrom_tag htag]
      refine ⟨_, List.mem_cons_self, Nat.le_add_right _ _, ?_, fun _ => rfl⟩
      simp only [List.length_nil] at hn ⊢
      omega
    | cons p before =>
      rw [List.length_cons] at hn
      rw [List.cons_append]
      rcases tagsFrom_cases start p (before ++ (tag ++ after)) with
        ⟨tag', after', htag', heq, htags⟩ | ⟨skipped, left, heq, hfree, -, htags⟩
      · rw [htags]
        by_cases hinside : n < tag'.length
        · refine ⟨_, List.mem_cons_self, Nat.le_add_right _ _, ?_, ?_⟩
          · simp only
            omega
          · intro hsame
            simp only at hsame
            omega
        · have hle : tag'.length ≤ (p :: before).length := by
            rw [List.length_cons]
            omega
          obtain ⟨before', hbefore, rfl⟩ := split_front (a := p :: before) heq hle
          have hlength := congrArg List.length hbefore
          rw [List.length_append, List.length_cons] at hlength
          have hpos := htag'.length_pos
          obtain ⟨slice, hmem, hstart, hstop, hsame⟩ := ih before'.length (by omega) (start + tag'.length) rfl
          have hplace : start + tag'.length + before'.length = start + n := by omega
          rw [hplace] at hstart hstop hsame
          exact ⟨slice, List.mem_cons_of_mem _ hmem, hstart, hstop, hsame⟩
      · rw [htags]
        have hle : (p :: skipped).length ≤ (p :: before).length := by
          by_contra hlong
          -- the tag would begin inside what is skipped
          obtain ⟨e, he, hd⟩ := split_front (a := p :: skipped) heq.symm (Nat.le_of_not_le hlong)
          obtain ⟨name, body, rfl, -⟩ := htag.parts
          cases e with
          | nil =>
            rw [he, List.append_nil] at hlong
            exact hlong (Nat.le_refl _)
          | cons q e =>
            obtain ⟨rfl, -⟩ := List.cons.inj hd
            obtain ⟨-, rfl⟩ := List.cons.inj he
            exact hfree (List.mem_append_right _ List.mem_cons_self)
        obtain ⟨before', hbefore, rfl⟩ := split_front (a := p :: before) heq hle
        have hlength := congrArg List.length hbefore
        rw [List.length_append, List.length_cons] at hlength
        simp only [List.length_cons] at hlength ⊢
        obtain ⟨slice, hmem, hstart, hstop, hsame⟩ :=
          ih before'.length (by omega) (start + (skipped.length + 1)) rfl
        have hplace : start + (skipped.length + 1) + before'.length = start + n := by omega
        rw [hplace] at hstart hstop hsame
        exact ⟨slice, hmem, hstart, hstop, hsame⟩

/-- The slices are tags of the text, disjoint and in order, and no tag of the text is missed: each begins
a slice, or begins inside one. -/
theorem htmlImageTags_exact (raw : Text) :
    (∀ slice ∈ htmlImageTags raw, Found 0 raw slice) ∧
      (htmlImageTags raw).Pairwise (fun a b => a.2.1 ≤ b.1) ∧
      ∀ before tag after, raw = before ++ (tag ++ after) → ImageTag tag →
        ∃ slice ∈ htmlImageTags raw, slice.1 ≤ before.length ∧ before.length < slice.2.1 ∧
          (slice.1 = before.length → slice.2.2 = tag) := by
  obtain ⟨hfound, hpairs⟩ := tagsFrom_sound 0 raw
  refine ⟨hfound, hpairs, ?_⟩
  rintro before tag after rfl htag
  have hcomplete := @tagsFrom_complete 0 before tag after htag
  rwa [Nat.zero_add] at hcomplete

end MDRack.Markdown.Html
