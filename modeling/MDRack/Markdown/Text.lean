import MDRack.Core.Common
import Mathlib.Data.List.TakeWhile

/-!
# Strings as lists of characters

The operations of `str` that the parser and the chunker use, with indices in characters.

* `lstrip`, `rstrip`, `strip` — outer whitespace; `strip_eq_extract` says what is left as a slice.
* `find` — `str.find` within a window.
-/

namespace MDRack.Markdown

/-- `not text.strip()`. -/
def blank (text : List Char) : Bool := text.all isSpace

def lstrip (text : List Char) : List Char := text.dropWhile isSpace
def rstrip (text : List Char) : List Char := (text.reverse.dropWhile isSpace).reverse
def strip (text : List Char) : List Char := rstrip (lstrip text)

/-- `len(text) - len(text.lstrip())`. -/
def leading (text : List Char) : Nat := text.length - (lstrip text).length

/-- `len(text) - len(text.rstrip())`. -/
def trailing (text : List Char) : Nat := text.length - (rstrip text).length

theorem leading_eq (text : List Char) : leading text = (text.takeWhile isSpace).length := by
  have h := congrArg List.length (List.takeWhile_append_dropWhile (p := isSpace) (l := text))
  rw [List.length_append] at h
  simp only [leading, lstrip]
  omega

theorem trailing_eq (text : List Char) : trailing text = leading text.reverse := by
  simp [trailing, leading, lstrip, rstrip]

theorem leading_le (text : List Char) : leading text ≤ text.length := Nat.sub_le _ _

theorem trailing_le (text : List Char) : trailing text ≤ text.length := Nat.sub_le _ _

theorem length_takeWhile_take (p : Char → Bool) (text : List Char) (n : Nat) :
    ((text.take n).takeWhile p).length = min n (text.takeWhile p).length := by
  induction text generalizing n with
  | nil => simp
  | cons c rest ih =>
    cases n with
    | zero => simp
    | succ n =>
      rw [List.take_succ_cons]
      cases hc : p c with
      | false => simp [hc]
      | true =>
        simp only [List.takeWhile_cons, hc, if_true, List.length_cons, ih]
        omega

theorem lstrip_eq_drop (text : List Char) : lstrip text = text.drop (leading text) := by
  rw [leading_eq]
  have h := congrArg (List.drop (text.takeWhile isSpace).length)
    (List.takeWhile_append_dropWhile (p := isSpace) (l := text))
  rwa [List.drop_left] at h

theorem rstrip_eq_take (text : List Char) :
    rstrip text = text.take (text.length - trailing text) := by
  have h := lstrip_eq_drop text.reverse
  have hrstrip : rstrip text = (lstrip text.reverse).reverse := rfl
  rw [hrstrip, h, ← trailing_eq, List.drop_reverse, List.reverse_reverse]

theorem strip_eq_extract (text : List Char) :
    strip text = text.extract (leading text) (text.length - trailing text) := by
  have htrailing : trailing (text.drop (leading text)) =
      min (text.length - leading text) (trailing text) := by
    rw [trailing_eq, leading_eq, List.reverse_drop, length_takeWhile_take, trailing_eq,
      leading_eq text.reverse]
  rw [strip, lstrip_eq_drop, rstrip_eq_take, htrailing, List.length_drop]
  show _ = (text.drop (leading text)).take (text.length - trailing text - leading text)
  congr 1
  omega

theorem length_strip (text : List Char) :
    (strip text).length = text.length - trailing text - leading text := by
  rw [strip_eq_extract]
  show ((text.drop (leading text)).take (text.length - trailing text - leading text)).length = _
  rw [List.length_take, List.length_drop]
  omega

/-- At least `n` characters are stripped on the left iff the first `n` are all whitespace. -/
theorem le_leading_iff {text : List Char} {n : Nat} (hn : n ≤ text.length) :
    n ≤ leading text ↔ blank (text.take n) = true := by
  have h := length_takeWhile_take isSpace text n
  rw [leading_eq]
  constructor
  · intro hle
    have hall : (text.take n).takeWhile isSpace = text.take n := by
      apply List.IsPrefix.eq_of_length (List.takeWhile_prefix _)
      rw [h, List.length_take]
      omega
    exact List.all_eq_true.mpr (List.takeWhile_eq_self_iff.mp hall)
  · intro hblank
    have hall : (text.take n).takeWhile isSpace = text.take n :=
      List.takeWhile_eq_self_iff.mpr (List.all_eq_true.mp hblank)
    rw [hall, List.length_take] at h
    omega

theorem blank_append (a b : List Char) : blank (a ++ b) = (blank a && blank b) :=
  List.all_append

theorem blank_reverse (a : List Char) : blank a.reverse = blank a := List.all_reverse

theorem blank_take_leading (text : List Char) : blank (text.take (leading text)) = true :=
  (le_leading_iff (leading_le text)).mp (Nat.le_refl _)

/-- The strip on the left reaches past `a` iff `a` is whitespace and `b` starts with some. -/
theorem lt_leading_append {a b : List Char} (hb : b ≠ []) :
    a.length < leading (a ++ b) ↔ blank a = true ∧ b.head?.any isSpace = true := by
  cases b with
  | nil => exact absurd rfl hb
  | cons c rest =>
    have hlen : a.length + 1 ≤ (a ++ c :: rest).length := by simp
    have htake : (a ++ c :: rest).take (a.length + 1) = a ++ [c] := by
      rw [List.take_length_add_append]
      rfl
    rw [Nat.lt_iff_add_one_le, le_leading_iff hlen, htake, blank_append]
    simp [blank]

theorem le_leading_append (a b : List Char) : a.length ≤ leading (a ++ b) ↔ blank a = true := by
  rw [le_leading_iff (by simp), List.take_left]

theorem lt_trailing_append {b c : List Char} (hb : b ≠ []) :
    c.length < trailing (b ++ c) ↔ blank c = true ∧ b.getLast?.any isSpace = true := by
  have h := lt_leading_append (a := c.reverse) (b := b.reverse) (by simpa using hb)
  rwa [← List.reverse_append, ← trailing_eq, blank_reverse, List.length_reverse,
    List.head?_reverse] at h

theorem le_trailing_append (b c : List Char) : c.length ≤ trailing (b ++ c) ↔ blank c = true := by
  have h := le_leading_append c.reverse b.reverse
  rwa [← List.reverse_append, ← trailing_eq, blank_reverse, List.length_reverse] at h

/-- Where something is visible, the strips on the two sides do not meet. -/
theorem leading_add_trailing_lt {text : List Char} (h : blank text = false) :
    leading text + trailing text < text.length := by
  obtain ⟨c, hc, hvisible⟩ : ∃ c ∈ text, isSpace c = false := by
    simpa [blank] using h
  obtain ⟨a, b, rfl⟩ := List.append_of_mem hc
  have hleft : ¬ a.length < leading (a ++ c :: b) := by
    rw [lt_leading_append (List.cons_ne_nil c b)]
    simp [hvisible]
  have hright : ¬ b.length < trailing ((a ++ [c]) ++ b) := by
    rw [lt_trailing_append (by simp)]
    simp [hvisible]
  rw [List.append_assoc, List.singleton_append] at hright
  simp only [List.length_append, List.length_cons]
  omega

theorem leading_of_blank {text : List Char} (h : blank text = true) :
    leading text = text.length := by
  have hle : text.length ≤ leading text := (le_leading_iff (Nat.le_refl _)).mpr (by simpa using h)
  exact Nat.le_antisymm (leading_le text) hle

theorem trailing_of_blank {text : List Char} (h : blank text = true) :
    trailing text = text.length := by
  rw [trailing_eq, leading_of_blank (by rwa [blank_reverse]), List.length_reverse]

/-- `str.find(pattern, start, stop)`. -/
def find (text pattern : List Char) (start stop : Nat) : Option Nat :=
  (List.range' start (stop + 1 - start)).find? fun i =>
    decide (i + pattern.length ≤ stop) && pattern.isPrefixOf (text.drop i)

theorem find_within {text pattern : List Char} {start stop i : Nat}
    (h : find text pattern start stop = some i) : start ≤ i ∧ i + pattern.length ≤ stop := by
  have hmem := List.mem_of_find?_eq_some h
  have hi := List.find?_some h
  simp only [List.mem_range'_1] at hmem
  simp only [Bool.and_eq_true, decide_eq_true_eq] at hi
  exact ⟨hmem.1, hi.1⟩

theorem find_extract {text pattern : List Char} {start stop i : Nat}
    (h : find text pattern start stop = some i) :
    text.extract i (i + pattern.length) = pattern := by
  have hi := List.find?_some h
  simp only [Bool.and_eq_true, List.isPrefixOf_iff_prefix] at hi
  rw [List.extract, Nat.add_sub_cancel_left]
  exact (List.prefix_iff_eq_take.mp hi.2).symm

/-- What stands somewhere in a text is found in it. -/
theorem find_infix_ne_none {text pattern : List Char} (h : pattern <:+: text) :
    find text pattern 0 text.length ≠ none := by
  obtain ⟨before, after, rfl⟩ := h
  intro hnone
  have hlength : before.length + pattern.length ≤ (before ++ pattern ++ after).length := by simp
  have hmem : before.length ∈ List.range' 0 ((before ++ pattern ++ after).length + 1 - 0) := by
    rw [List.mem_range'_1]
    omega
  have hat := List.find?_eq_none.mp hnone before.length hmem
  simp only [Bool.and_eq_true, decide_eq_true_eq, List.isPrefixOf_iff_prefix] at hat
  refine hat ⟨hlength, ?_⟩
  rw [List.append_assoc, List.drop_left]
  exact List.prefix_append _ _

end MDRack.Markdown
