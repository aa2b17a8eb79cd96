import MDRack.Lib.CodePoints
import MDRack.Lib.Json

/-!
# JSON pointers (RFC 6901)

* `Tokens` — the reference tokens of a pointer, unescaped.
* `arrayIndex` — a token that is an array index: `0`, or digits of ASCII without a leading zero.
* `Designates` — the value that tokens designate in a document.
* `walk` — the evaluation, with a reader of array indices.

Principal result: `walk_arrayIndex_iff` — the evaluation finds what is designated, and nothing else.
-/

namespace Pointer

open CodePoints
open Json (Value)

/-! ## Tokens -/

/-- Every `~` with `escape` after it becomes `point`. -/
def replaceEscape (escape point : CodePoint) : Text → Text
  | .char '~' :: next :: rest =>
    if next = escape then point :: replaceEscape escape point rest
    else .char '~' :: replaceEscape escape point (next :: rest)
  | c :: rest => c :: replaceEscape escape point rest
  | [] => []

/-- First `~1` becomes `/`, then `~0` becomes `~`. -/
def unescape (token : Text) : Text :=
  replaceEscape (.char '0') (.char '~') (replaceEscape (.char '1') (.char '/') token)

/-- The tokens of a pointer: it is empty, or each token stands behind a `/`. -/
inductive Tokens : Text → List Text → Prop
  | empty : Tokens [] []
  | slash (rest : Text) : Tokens (.char '/' :: rest) ((rest.splitOn (.char '/')).map unescape)

/-! ## Evaluation -/

def member (fields : List (String × Value)) (token : Text) : Option Value :=
  (fields.find? fun field => decide (ofChars field.1.toList = token)).map (·.2)

def arrayIndex (token : Text) : Option Nat :=
  match characters? token with
  | some cs =>
    if cs ≠ [] ∧ cs.all Char.isDigit = true ∧ (cs.head? = some '0' → cs = ['0']) then
      some (Nat.ofDigitChars 10 cs 0)
    else none
  | none => none

/-- The value that tokens designate. -/
inductive Designates : Value → List Text → Value → Prop
  | here (value : Value) : Designates value [] value
  | member {fields : List (String × Value)} {token : Text} {value found : Value}
      {rest : List Text} : member fields token = some value → Designates value rest found →
      Designates (.obj fields) (token :: rest) found
  | element {items : List Value} {token : Text} {index : Nat} {value found : Value}
      {rest : List Text} : arrayIndex token = some index → items[index]? = some value →
      Designates value rest found → Designates (.arr items) (token :: rest) found

/-- The evaluation of tokens, where `index` reads array indices. -/
def walk (index : Text → Option Nat) : Value → List Text → Option Value
  | value, [] => some value
  | .obj fields, token :: rest => (member fields token).bind fun value => walk index value rest
  | .arr items, token :: rest =>
    ((index token).bind fun n => items[n]?).bind fun value => walk index value rest
  | _, _ :: _ => none

theorem walk_arrayIndex_iff {document found : Value} {tokens : List Text} :
    walk arrayIndex document tokens = some found ↔ Designates document tokens found := by
  constructor
  · intro h
    induction tokens generalizing document with
    | nil =>
      obtain rfl : document = found := by simpa [walk] using h
      exact .here document
    | cons token rest ih =>
      cases document with
      | obj fields =>
        obtain ⟨value, hmember, hrest⟩ := Option.bind_eq_some_iff.mp h
        exact .member hmember (ih hrest)
      | arr items =>
        obtain ⟨value, hvalue, hrest⟩ := Option.bind_eq_some_iff.mp h
        obtain ⟨index, hindex, helement⟩ := Option.bind_eq_some_iff.mp hvalue
        exact .element hindex helement (ih hrest)
      | _ => cases h
  · intro h
    induction h with
    | here => simp [walk]
    | member hmember _ ih => simp [walk, hmember, ih]
    | element hindex helement _ ih => simp [walk, hindex, helement, ih]

/-- At most one value is designated. -/
theorem Designates.unique {document a b : Value} {tokens : List Text}
    (ha : Designates document tokens a) (hb : Designates document tokens b) : a = b := by
  rw [← walk_arrayIndex_iff] at ha hb
  rw [ha] at hb
  exact Option.some.inj hb

end Pointer
