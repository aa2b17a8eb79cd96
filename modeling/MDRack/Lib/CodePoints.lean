import Mathlib.Data.List.Basic

/-!
# Texts of code points

A text is a list of code points, where a half of a surrogate pair may stand alone.

* `characters?` — the characters of a text that has a UTF-8 form.
* `decimalValue`, `isDigit` — digits of all scripts.
* `readInt` — an integer in the digits of any script, with a sign, outer blanks and underscores.

Principal result: `readInt_digits` — digits of ASCII are read as their number, up to a limit.
-/

namespace CodePoints

inductive CodePoint
  | char (c : Char)
  | surrogate (n : Fin 0x800)
  deriving DecidableEq

abbrev Text := List CodePoint

instance : LawfulBEq Text := inferInstance

instance : LawfulBEq (Text × Text) := inferInstance

def ofChars (cs : List Char) : Text := cs.map .char

/-- The characters of a text in which no surrogate stands alone. -/
def characters? : Text → Option (List Char)
  | [] => some []
  | .char c :: rest => (characters? rest).map (c :: ·)
  | .surrogate _ :: _ => none

@[simp] theorem characters?_ofChars (cs : List Char) : characters? (ofChars cs) = some cs := by
  induction cs with
  | nil => rfl
  | cons c cs ih =>
    show (characters? (ofChars cs)).map _ = _
    rw [ih]
    rfl

theorem characters?_eq_some {text : Text} {cs : List Char} :
    characters? text = some cs ↔ text = ofChars cs := by
  constructor
  · intro h
    induction text generalizing cs with
    | nil =>
      obtain rfl := Option.some.inj h
      rfl
    | cons point rest ih =>
      cases point with
      | char c =>
        obtain ⟨cs, hrest, rfl⟩ := Option.map_eq_some_iff.mp h
        rw [ih hrest]
        rfl
      | surrogate n => cases h
  · rintro rfl
    exact characters?_ofChars cs

theorem ofChars_injective {a b : List Char} (h : ofChars a = ofChars b) : a = b := by
  have ha := characters?_ofChars a
  rw [h, characters?_ofChars] at ha
  exact (Option.some.inj ha).symm

/-! ## Digits -/

/-- The zeros of the scripts other than ASCII that write numbers with ten digits. -/
def scriptZeros : List Nat := [
  0x660, 0x6F0, 0x7C0, 0x966, 0x9E6, 0xA66, 0xAE6, 0xB66, 0xBE6, 0xC66, 0xCE6, 0xD66, 0xDE6,
  0xE50, 0xED0, 0xF20, 0x1040, 0x1090, 0x17E0, 0x1810, 0x1946, 0x19D0, 0x1A80, 0x1A90, 0x1B50,
  0x1BB0, 0x1C40, 0x1C50, 0xA620, 0xA8D0, 0xA900, 0xA9D0, 0xA9F0, 0xAA50, 0xABF0, 0xFF10, 0x104A0,
  0x10D30, 0x11066, 0x110F0, 0x11136, 0x111D0, 0x112F0, 0x11450, 0x114D0, 0x11650, 0x116C0, 0x11730,
  0x118E0, 0x11950, 0x11C50, 0x11D50, 0x11DA0, 0x16A60, 0x16AC0, 0x16B50, 0x1D7CE, 0x1D7D8, 0x1D7E2,
  0x1D7EC, 0x1D7F6, 0x1E140, 0x1E2F0, 0x1E950, 0x1FBF0]

/-- Digits that are no decimal digits: superscripts, subscripts, circled digits and the like. -/
def otherDigits : List (Nat × Nat) := [
  (0xB2, 0xB3), (0xB9, 0xB9), (0x1369, 0x1371), (0x19DA, 0x19DA), (0x2070, 0x2070), (0x2074, 0x2079),
  (0x2080, 0x2089), (0x2460, 0x2468), (0x2474, 0x247C), (0x2488, 0x2490), (0x24EA, 0x24EA),
  (0x24F5, 0x24FD), (0x24FF, 0x24FF), (0x2776, 0x277E), (0x2780, 0x2788), (0x278A, 0x2792),
  (0x10A40, 0x10A43), (0x10E60, 0x10E68), (0x11052, 0x1105A), (0x1F100, 0x1F10A)]

/-- The value of a decimal digit. -/
def decimalValue : CodePoint → Option Nat
  | .char c =>
    if c.isDigit then some (c.toNat - 48)
    else (scriptZeros.find? fun first => first ≤ c.toNat && c.toNat < first + 10).map
      fun first => c.toNat - first
  | .surrogate _ => none

/-- `str.isdigit` of one code point. -/
def isDigit (point : CodePoint) : Bool :=
  (decimalValue point).isSome || match point with
    | .char c => otherDigits.any fun range => range.1 ≤ c.toNat && c.toNat ≤ range.2
    | .surrogate _ => false

theorem decimalValue_ascii {c : Char} (h : c.isDigit = true) :
    decimalValue (.char c) = some (c.toNat - 48) := if_pos h

theorem isDigit_ascii {c : Char} (h : c.isDigit = true) : isDigit (.char c) = true := by
  simp [isDigit, decimalValue_ascii h]

/-! ## Integers -/

section Integers

variable (isBlank : Char → Bool) (limit : Nat)

def blankPoint : CodePoint → Bool
  | .char c => isBlank c
  | .surrogate _ => false

def stripBlanks (text : Text) : Text :=
  ((text.dropWhile (blankPoint isBlank)).reverse.dropWhile (blankPoint isBlank)).reverse

/-- Digits with single underscores between them; `after` tells whether a digit stands before. -/
def readDigits : Bool → Text → Option (List Nat)
  | after, [] => if after then some [] else none
  | after, point :: rest =>
    if point = .char '_' then if after then readDigits false rest else none
    else match decimalValue point with
      | some digit => (readDigits true rest).map (digit :: ·)
      | none => none

def ofDigitValues (digits : List Nat) : Nat := digits.foldl (fun n digit => 10 * n + digit) 0

/-- Whether a number is negative, and its digits. -/
def splitSign : Text → Bool × Text
  | .char '-' :: rest => (true, rest)
  | .char '+' :: rest => (false, rest)
  | text => (false, text)

/-- `int(text)`, where a number may have no more than `limit` digits. -/
def readInt (text : Text) : Option Int :=
  let signed := splitSign (stripBlanks isBlank text)
  (readDigits false signed.2).bind fun digits =>
    if digits.length ≤ limit then
      some (if signed.1 then -(ofDigitValues digits : Int) else ofDigitValues digits)
    else none

variable {isBlank limit}

theorem readDigits_ascii {ds : List Char} (h : ds.all Char.isDigit) (after : Bool)
    (hne : after = true ∨ ds ≠ []) :
    readDigits after (ofChars ds) = some (ds.map fun c => c.toNat - 48) := by
  induction ds generalizing after with
  | nil =>
    rw [hne.resolve_right (fun h => h rfl)]
    rfl
  | cons c ds ih =>
    rw [List.all_cons, Bool.and_eq_true] at h
    have hunderscore : CodePoint.char c ≠ .char '_' := by
      rintro heq
      obtain rfl := CodePoint.char.inj heq
      exact absurd h.1 (by decide)
    show readDigits after (.char c :: ofChars ds) = _
    rw [readDigits, if_neg hunderscore, decimalValue_ascii h.1, ih h.2 true (.inl rfl)]
    rfl

theorem ofDigitValues_ascii (ds : List Char) :
    ofDigitValues (ds.map fun c => c.toNat - 48) = Nat.ofDigitChars 10 ds 0 := by
  rw [ofDigitValues, List.foldl_map]
  rfl

/-- Neither end of the text is blank. -/
theorem stripBlanks_of_ends {cs : List Char} (hfirst : ∀ c ∈ cs.head?, isBlank c = false)
    (hlast : ∀ c ∈ cs.getLast?, isBlank c = false) :
    stripBlanks isBlank (ofChars cs) = ofChars cs := by
  have hleft : (ofChars cs).dropWhile (blankPoint isBlank) = ofChars cs := by
    cases cs with
    | nil => rfl
    | cons c cs =>
      show List.dropWhile _ (.char c :: ofChars cs) = .char c :: ofChars cs
      rw [List.dropWhile_cons_of_neg]
      simp [blankPoint, hfirst c rfl]
  have hright : (ofChars cs).reverse.dropWhile (blankPoint isBlank) = (ofChars cs).reverse := by
    rw [ofChars, ← List.map_reverse]
    cases hcs : cs.reverse with
    | nil => rfl
    | cons c rest =>
      rw [List.map_cons, List.dropWhile_cons_of_neg]
      have hget : cs.getLast? = some c := by
        rw [← List.head?_reverse, hcs, List.head?_cons]
      simp [blankPoint, hlast c hget]
  rw [stripBlanks, hleft, hright, List.reverse_reverse]

theorem readInt_signed {ds : List Char} (h : ds.all Char.isDigit) (hne : ds ≠ [])
    {text : Text} {neg : Bool} (hsign : splitSign (stripBlanks isBlank text) = (neg, ofChars ds)) :
    readInt isBlank limit text = if ds.length ≤ limit then
      some (if neg then -(Nat.ofDigitChars 10 ds 0 : Int) else Nat.ofDigitChars 10 ds 0) else none := by
  simp only [readInt, hsign, readDigits_ascii h false (.inr hne), Option.bind_some,
    List.length_map, ofDigitValues_ascii]

theorem splitSign_digits {ds : List Char} (h : ds.all Char.isDigit) :
    splitSign (ofChars ds) = (false, ofChars ds) := by
  cases ds with
  | nil => rfl
  | cons c ds =>
    rw [List.all_cons, Bool.and_eq_true] at h
    have hminus : c ≠ '-' := by
      rintro rfl
      exact absurd h.1 (by decide)
    have hplus : c ≠ '+' := by
      rintro rfl
      exact absurd h.1 (by decide)
    show splitSign (.char c :: ofChars ds) = _
    unfold splitSign
    split
    · rename_i heq
      exact absurd (CodePoint.char.inj (List.cons.inj heq).1) hminus
    · rename_i heq
      exact absurd (CodePoint.char.inj (List.cons.inj heq).1) hplus
    · rfl

/-- No part of a number is blank. -/
def NotInNumbers (isBlank : Char → Bool) : Prop :=
  ∀ c, c = '-' ∨ c.isDigit = true → isBlank c = false

theorem readInt_digits (hblank : NotInNumbers isBlank) {ds : List Char} (h : ds.all Char.isDigit)
    (hne : ds ≠ []) : readInt isBlank limit (ofChars ds) = if ds.length ≤ limit then
      some (Nat.ofDigitChars 10 ds 0 : Int) else none := by
  have hdigits (c : Char) (hc : c ∈ ds) : isBlank c = false :=
    hblank c (.inr (List.all_eq_true.mp h c hc))
  have hstrip : stripBlanks isBlank (ofChars ds) = ofChars ds :=
    stripBlanks_of_ends (fun c hc => hdigits c (List.mem_of_mem_head? hc))
      (fun c hc => hdigits c (List.mem_of_getLast? hc))
  rw [readInt_signed h hne (by rw [hstrip, splitSign_digits h])]
  rfl

theorem readInt_negative (hblank : NotInNumbers isBlank) {ds : List Char} (h : ds.all Char.isDigit)
    (hne : ds ≠ []) : readInt isBlank limit (ofChars ('-' :: ds)) = if ds.length ≤ limit then
      some (-(Nat.ofDigitChars 10 ds 0 : Int)) else none := by
  have hstrip : stripBlanks isBlank (ofChars ('-' :: ds)) = ofChars ('-' :: ds) := by
    refine stripBlanks_of_ends (fun c hc => ?_) (fun c hc => ?_)
    · obtain rfl := Option.some.inj hc
      exact hblank _ (.inl rfl)
    · rcases List.mem_cons.mp (List.mem_of_getLast? hc) with rfl | hmem
      · exact hblank _ (.inl rfl)
      · exact hblank c (.inr (List.all_eq_true.mp h c hmem))
  have hsign : splitSign (stripBlanks isBlank (ofChars ('-' :: ds))) = (true, ofChars ds) := by
    rw [hstrip]
    rfl
  rw [readInt_signed h hne hsign]
  rfl

end Integers

end CodePoints
