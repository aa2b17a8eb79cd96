import MDRack.Core.Common
import Mathlib.Data.List.Infix

/-!
# Relative references (`scanner`, `raw_source_provenance`, `folder_import`)

Glob exclusion, the grammar of portable relative references, and the routing of file names.
-/

namespace MDRack.Folder

/-! ## Globs -/

/-- A part of a translated glob pattern. -/
inductive Token
  | anyPath
  | anySegment
  | anyChar
  | char (c : Char)

/-- `_glob_to_regex`. -/
def globToRegex : List Char → List Token
  | '*' :: '*' :: '/' :: rest => .anyPath :: globToRegex rest
  | '*' :: '*' :: rest => .anyPath :: globToRegex rest
  | '*' :: rest => .anySegment :: globToRegex rest
  | '?' :: rest => .anyChar :: globToRegex rest
  | c :: rest => .char c :: globToRegex rest
  | [] => []

/-- A repeated class of characters, then the rest. -/
def repeated (allowed : Char → Bool) (next : List Char → Bool) : List Char → Bool
  | [] => next []
  | c :: cs => next (c :: cs) || (allowed c && repeated allowed next cs)

def single (allowed : Char → Bool) (next : List Char → Bool) : List Char → Bool
  | [] => false
  | c :: cs => allowed c && next cs

/-- The match of a whole reference; the final anchor admits one line end. -/
def regexMatches : List Token → List Char → Bool
  | [] => fun s => s == [] || s == ['\n']
  | .anyPath :: rest => repeated (· != '\n') (regexMatches rest)
  | .anySegment :: rest => repeated (· != '/') (regexMatches rest)
  | .anyChar :: rest => single (· != '/') (regexMatches rest)
  | .char c :: rest => single (· == c) (regexMatches rest)

/-- `_matches_any`. -/
def matchesAny (rel : String) (patterns : List String) : Bool :=
  patterns.any fun pattern =>
    regexMatches (globToRegex (pattern.toList.map fun c => if c = '\\' then '/' else c)) rel.toList

example : matchesAny "drafts/a/b.md" ["drafts/**"] = true := by decide +kernel

/-! ## References -/

/-- `PurePosixPath(source_ref).parts` of a reference that is not absolute. -/
def posixParts (ref : List Char) : List (List Char) :=
  (ref.splitOn '/').filter fun part => part ≠ [] ∧ part ≠ ['.']

/-- `str(path)`. -/
def posixText (parts : List (List Char)) : List Char :=
  if parts = [] then ['.'] else ['/'].intercalate parts

/-- `validate_source_ref` accepts. -/
def validSourceRef (ref : String) : Bool :=
  let s := ref.toList
  decide (s ≠ [] ∧ '\\' ∉ s ∧ s.head? ≠ some '/' ∧ ':' ∉ s ∧ ¬ ['/', '/'] <:+: s ∧
    posixText (posixParts s) = s ∧ ['.', '.'] ∉ posixParts s)

/-- `f"{rel_directory}/{name}" if rel_directory else name`. -/
def join (relDirectory name : String) : String :=
  if relDirectory = "" then name else relDirectory ++ "/" ++ name

/-- `_is_under_relative_prefix`. -/
def isUnderRelativePrefix (sourceRef blocked : String) : Bool :=
  sourceRef == blocked || (blocked ++ "/").toList.isPrefixOf sourceRef.toList

theorem isUnder_join (dir name : String) : isUnderRelativePrefix (dir ++ "/" ++ name) dir = true := by
  simp [isUnderRelativePrefix]

/-! ## Routing -/

inductive FileKind
  | document
  | image
  deriving DecidableEq, Repr

/-- `Path(name).suffix`. -/
def suffix (name : List Char) : List Char :=
  let back := name.reverse.takeWhile (· != '.')
  if back = [] ∨ name.length ≤ back.length + 1 then [] else '.' :: back.reverse

/-- `str.casefold`, where its result can be in a listed suffix. -/
def foldChar (c : Char) : Char := if c = '\u212A' then 'k' else c.toLower

def textSuffixes : List (String × String) :=
  [(".md", "text/markdown"), (".markdown", "text/markdown"), (".txt", "text/plain")]

def imageSuffixes : List (String × String) :=
  [(".jpg", "image/jpeg"), (".jpeg", "image/jpeg"), (".png", "image/png"), (".webp", "image/webp")]

/-- `_classify`. -/
def classify (name : String) : Option (FileKind × String) :=
  let folded := String.ofList ((suffix name.toList).map foldChar)
  match textSuffixes.find? fun e => e.1 = folded, imageSuffixes.find? fun e => e.1 = folded with
  | some e, _ => some (.document, e.2)
  | none, some e => some (.image, e.2)
  | none, none => none

/-- `_ALWAYS_IGNORED`. -/
def alwaysIgnored : List String := [".git", ".venv", "node_modules", ".mdrack", "__pycache__"]

end MDRack.Folder
