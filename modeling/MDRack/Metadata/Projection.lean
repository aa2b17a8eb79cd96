import MDRack.Core.Records
import MDRack.Lib.Pointer
import MDRack.Metadata.Facets

/-!
# Metadata projection (`MetadataProjectionPolicy.project`)

A policy is a list of rules, each with a JSON pointer.  What a pointer finds becomes a title,
facets or lexical values, as the mode of its rule says.

* `parsePointer`, `resolvePointer` — pointers, with `str.isdigit` and `int` for array indices.
* `project` — the loop over the rules.
* `RuleReadable` — what keeps a rule to RFC 6901.

Principal result: `project_designated_iff` — a policy projects what its pointers designate exactly
if each of its rules is readable.
-/

namespace MDRack.Metadata

open CodePoints Checks
open Json (Value)
open Pointer (Tokens Designates member arrayIndex walk unescape replaceEscape)

/-! ## Pointers -/

/-- `_decode_pointer_token`. -/
def decodePointerToken : Text → Except Err Text
  | [] => .ok []
  | .char '~' :: .char '0' :: rest => (decodePointerToken rest).map (.char '~' :: ·)
  | .char '~' :: .char '1' :: rest => (decodePointerToken rest).map (.char '/' :: ·)
  | .char '~' :: _ => .error (.valueError "JSON Pointer contains an invalid escape")
  | c :: rest => (decodePointerToken rest).map (c :: ·)

/-- `_parse_pointer`. -/
def parsePointer : Text → Except Err (List Text)
  | [] => .ok []
  | .char '/' :: rest => mapAll decodePointerToken (rest.splitOn (.char '/'))
  | _ => .error (.valueError "JSON Pointer must be empty or start with '/'")

/-- `token.isdigit()`, and no `0` before other digits. -/
def looksLikeIndex (token : Text) : Bool :=
  token ≠ [] && token.all isDigit && !(1 < token.length && token.head? = some (.char '0'))

/-- `resolve_json_pointer` for the tokens of a pointer; `none` stands for `KeyError`. -/
def resolveTokens : Value → List Text → Except Err (Option Value)
  | current, [] => .ok (some current)
  | .obj fields, token :: rest =>
    match member fields token with
    | none => .ok none
    | some value => resolveTokens value rest
  | .arr items, token :: rest =>
    if looksLikeIndex token then
      match readInt isSpace maxIntDigits token with
      | none => .error (.valueError "invalid literal for int() with base 10")
      | some index =>
        match items[index.toNat]? with
        | none => .ok none
        | some value => resolveTokens value rest
    else .ok none
  | _, _ :: _ => .ok none

/-- `_resolve_or_missing`. -/
def resolvePointer (document : Value) (pointer : Text) : Except Err (Option Value) := do
  let tokens ← parsePointer pointer
  resolveTokens document tokens

/-! ## Policies -/

inductive MetadataProjectionMode
  | storeOnly
  | canonicalTitle
  | facet
  | facetMany
  | lexicalText
  | ignore
  deriving DecidableEq

def MetadataProjectionMode.value : MetadataProjectionMode → String
  | .storeOnly => "store_only"
  | .canonicalTitle => "canonical_title"
  | .facet => "facet"
  | .facetMany => "facet_many"
  | .lexicalText => "lexical_text"
  | .ignore => "ignore"

def MetadataProjectionMode.needsNamespace (mode : MetadataProjectionMode) : Bool :=
  mode = .facet || mode = .facetMany

/-- A rule that the constructor accepts. -/
structure MetadataProjection where
  path : Text
  mode : MetadataProjectionMode
  facetNamespace : Option Text
  parses : ∃ tokens, parsePointer path = .ok tokens
  not_root : path ≠ []
  namespace_given : mode.needsNamespace = true → ∃ name, facetNamespace = some name ∧ name ≠ []
  namespace_absent : mode.needsNamespace = false → facetNamespace = none

structure MetadataProjectionPolicy where
  projections : List MetadataProjection
  unique : (projections.map (·.path)).Nodup

/-! ### Fingerprints -/

def hexPoint (n : Nat) : List Char :=
  ['\\', 'u', Json.hexDigit (n / 4096 % 16), Json.hexDigit (n / 256 % 16),
    Json.hexDigit (n / 16 % 16), Json.hexDigit (n % 16)]

/-- `json.dumps` of a code point in a string, in ASCII. -/
def escapeAscii : CodePoint → List Char
  | .char c =>
    if c.toNat < 0x7F then Json.escapeChar c
    else if c.toNat < 0x10000 then hexPoint c.toNat
    else hexPoint (0xD800 + (c.toNat - 0x10000) / 1024) ++
      hexPoint (0xDC00 + (c.toNat - 0x10000) % 1024)
  | .surrogate n => hexPoint (0xD800 + n)

def asciiText (text : Text) : List Char := '"' :: text.flatMap escapeAscii ++ ['"']

def MetadataProjection.payload (rule : MetadataProjection) : List Char :=
  "\x7b\"mode\":".toList ++ Json.quote rule.mode.value.toList ++ ",\"namespace\":".toList ++
    (match rule.facetNamespace with
      | none => "null".toList
      | some name => asciiText name) ++
    ",\"path\":".toList ++ asciiText rule.path ++ "\x7d".toList

/-- `MetadataProjectionPolicy.fingerprint`. -/
def MetadataProjectionPolicy.fingerprint (sha256 : String → String)
    (policy : MetadataProjectionPolicy) : String :=
  "sha256:" ++ sha256 (String.ofList ("\x7b\"projections\":[".toList ++
    [','].intercalate (policy.projections.map (·.payload)) ++
    "],\"version\":\"metadata-projection-v1\"\x7d".toList))

/-! ## Projection -/

/-- `_is_scalar`, with the scalar. -/
def toScalar : Value → Option Scalar
  | .null => some .null
  | .bool b => some (.bool b)
  | .int i => some (.int i)
  | .float x => some (.float x)
  | .str s => some (.str (ofChars s.toList))
  | _ => none

/-- The scalars of an array that holds nothing else. -/
def scalarItems : Value → Option (List Scalar)
  | .arr items => items.mapM toScalar
  | _ => none

/-- `_lexical_scalar`. -/
def lexicalScalar : Scalar → Except Err Text
  | .null => .ok (ofChars "null".toList)
  | .bool b => .ok (ofChars (if b then "true".toList else "false".toList))
  | .int i => (strInt i).map ofChars
  | .float x => .ok (ofChars (Binary64.repr x))
  | .str text => .ok text

/-- `require_non_empty` for a text of code points. -/
def requireText (text : Text) (fieldName : String) : Except Err NonEmptyText :=
  if text.all (blankPoint isSpace) then
    .error (.valueError (fieldName ++ " must be a non-empty string"))
  else
    match characters? text with
    | some cs => requireNonEmpty (String.ofList cs) fieldName
    | none => .error (.valueError (fieldName ++ " must be UTF-8 encodable"))

structure MetadataProjectionResult where
  canonicalTitle : Option String
  facets : List Facet
  lexicalValues : List Text
  policyFingerprint : String

/-- The variables of the loop. -/
structure Projected where
  title : Option String
  facets : List Facet
  seenFacets : List (Text × Text)
  lexicalValues : List Text

/-- `_append_facet`. -/
def appendFacet (name : Text) (state : Projected) (value : Scalar) : Except Err Projected := do
  let encoded ← encode value
  if (name, encoded) ∈ state.seenFacets then .ok state
  else do
    let facetNamespace ← requireText name "namespace"
    let facetValue ← requireText encoded "value"
    .ok { state with
      facets := state.facets ++ [⟨facetNamespace, facetValue⟩]
      seenFacets := (name, encoded) :: state.seenFacets }

def appendLexical (state : Projected) (value : Scalar) : Except Err Projected := do
  let rendered ← lexicalScalar value
  .ok (if rendered = [] ∨ rendered ∈ state.lexicalValues then state
    else { state with lexicalValues := state.lexicalValues ++ [rendered] })

/-- The scalars that a rule takes from a value. -/
def MetadataProjectionMode.scalars (mode : MetadataProjectionMode) (value : Value) : List Scalar :=
  match mode with
  | .facet => (toScalar value).toList
  | .facetMany => (scalarItems value).getD []
  | .lexicalText =>
    match toScalar value with
    | some scalar => [scalar]
    | none => (scalarItems value).getD []
  | _ => []

/-- What the loop does with a value that a rule has found. -/
def MetadataProjection.applyTo (rule : MetadataProjection) (state : Projected) (value : Value) :
    Except Err Projected :=
  match rule.mode with
  | .storeOnly | .ignore => .ok state
  | .canonicalTitle =>
    match value with
    | .str text => .ok (if text = "" then state else { state with title := some text })
    | _ => .ok state
  | .facet | .facetMany =>
    (rule.mode.scalars value).foldlM (appendFacet (rule.facetNamespace.getD [])) state
  | .lexicalText => (rule.mode.scalars value).foldlM appendLexical state

/-- The body of the loop of `project`. -/
def projectStep (source : Value) (state : Projected) (rule : MetadataProjection) :
    Except Err Projected := do
  let found ← resolvePointer source rule.path
  match found with
  | none => .ok state
  | some value => rule.applyTo state value

/-- `MetadataProjectionPolicy.project`. -/
def MetadataProjectionPolicy.project (sha256 : String → String) (policy : MetadataProjectionPolicy)
    (source : List (String × Value)) (fallbackTitle : Option String) :
    Except Err MetadataProjectionResult := do
  let state ← policy.projections.foldlM (projectStep (.obj source)) ⟨fallbackTitle, [], [], []⟩
  .ok ⟨state.title, state.facets, state.lexicalValues, policy.fingerprint sha256⟩

/-! ## What pointers find -/

theorem replaceEscape_cons {c : CodePoint} (h : c ≠ .char '~') (escape point : CodePoint)
    (text : Text) : replaceEscape escape point (c :: text) = c :: replaceEscape escape point text := by
  cases text with
  | nil => simp [replaceEscape]
  | cons next text =>
    rw [replaceEscape]
    rintro _ _ rfl
    exact absurd rfl h

theorem replaceEscape_hit (escape point : CodePoint) (text : Text) :
    replaceEscape escape point (.char '~' :: escape :: text) =
      point :: replaceEscape escape point text := by
  rw [replaceEscape, if_pos rfl]

theorem replaceEscape_miss {escape next : CodePoint} (h : next ≠ escape) (point : CodePoint)
    (text : Text) : replaceEscape escape point (.char '~' :: next :: text) =
      .char '~' :: replaceEscape escape point (next :: text) := by
  rw [replaceEscape, if_neg h]

/-- Tokens are unescaped as RFC 6901 says. -/
theorem decodePointerToken_ok {token decoded : Text} (h : decodePointerToken token = .ok decoded) :
    decoded = unescape token := by
  unfold unescape
  fun_induction decodePointerToken token generalizing decoded with
  | case1 =>
    obtain rfl := Except.ok.inj h
    rfl
  | case2 rest ih =>
    obtain ⟨tail, htail, rfl⟩ := map_ok.mp h
    rw [replaceEscape_miss (by decide), replaceEscape_cons (c := .char '0') (by decide),
      replaceEscape_hit, ← ih htail]
  | case3 rest ih =>
    obtain ⟨tail, htail, rfl⟩ := map_ok.mp h
    rw [replaceEscape_hit, replaceEscape_cons (by decide), ← ih htail]
  | case4 => cases h
  | case5 c rest _ _ hother ih =>
    obtain ⟨tail, htail, rfl⟩ := map_ok.mp h
    rw [replaceEscape_cons hother, replaceEscape_cons hother, ← ih htail]

theorem decodePointerTokens_ok {tokens decoded : List Text}
    (h : mapAll decodePointerToken tokens = .ok decoded) : decoded = tokens.map unescape := by
  have hpairs := mapAll_forall₂ h
  clear h
  induction hpairs with
  | nil => rfl
  | cons hdecoded _ ih => rw [List.map_cons, ← ih, decodePointerToken_ok hdecoded]

theorem parsePointer_ok {pointer : Text} {tokens : List Text} (h : parsePointer pointer = .ok tokens) :
    Tokens pointer tokens := by
  unfold parsePointer at h
  split at h
  · obtain rfl := Except.ok.inj h
    exact .empty
  · rename_i rest
    rw [decodePointerTokens_ok h]
    exact .slash rest
  · cases h

theorem Tokens.unique {pointer : Text} {tokens tokens' : List Text} (h : Tokens pointer tokens)
    (h' : Tokens pointer tokens') : tokens = tokens' := by
  cases h <;> cases h' <;> rfl

/-! ### Indices in any script -/

/-- The index that the code reads: digits of any script, without an ASCII `0` in front. -/
def codeIndex (token : Text) : Option Nat :=
  if looksLikeIndex token then (readInt isSpace maxIntDigits token).map Int.toNat else none

/-- A token that looks like an index and is none for `int`: some digit is not decimal, or there are
more digits than it converts. -/
def Refused (token : Text) : Prop :=
  looksLikeIndex token = true ∧ readInt isSpace maxIntDigits token = none

/-- The evaluation meets a token at an array that `int` refuses. -/
def Faulty : Value → List Text → Prop
  | .obj fields, token :: rest => ∃ value ∈ member fields token, Faulty value rest
  | .arr items, token :: rest =>
    Refused token ∨ ∃ index ∈ codeIndex token, ∃ value ∈ items[index]?, Faulty value rest
  | _, _ => False

/-- Every token that the evaluation meets at an array is an index in ASCII. -/
def AsciiIndices : Value → List Text → Prop
  | .obj fields, token :: rest => ∀ value ∈ member fields token, AsciiIndices value rest
  | .arr items, token :: rest => ∃ index, arrayIndex token = some index ∧
      ∀ value ∈ items[index]?, AsciiIndices value rest
  | _, _ => True

theorem arrayIndex_some {token : Text} {index : Nat} (h : arrayIndex token = some index) :
    ∃ cs, token = ofChars cs ∧ cs ≠ [] ∧ cs.all Char.isDigit = true ∧
      (cs.head? = some '0' → cs = ['0']) ∧ index = Nat.ofDigitChars 10 cs 0 := by
  unfold arrayIndex at h
  split at h
  · rename_i cs hcs
    split at h
    · rename_i hindex
      exact ⟨cs, characters?_eq_some.mp hcs, hindex.1, hindex.2.1, hindex.2.2,
        (Option.some.inj h).symm⟩
    · cases h
  · cases h

/-- An index in ASCII looks like one, and `int` reads it unless it is too long. -/
theorem looksLikeIndex_of_arrayIndex {token : Text} {index : Nat}
    (h : arrayIndex token = some index) : looksLikeIndex token = true ∧
      (readInt isSpace maxIntDigits token = none ∨ codeIndex token = some index) := by
  obtain ⟨cs, rfl, hne, hall, hzero, rfl⟩ := arrayIndex_some h
  have hlooks : looksLikeIndex (ofChars cs) = true := by
    have hdigits : (ofChars cs).all isDigit = true := by
      rw [ofChars, List.all_map, List.all_eq_true]
      exact fun c hc => isDigit_ascii (List.all_eq_true.mp hall c hc)
    have hlead : ¬ (1 < (ofChars cs).length ∧ (ofChars cs).head? = some (.char '0')) := by
      rintro ⟨hlong, hhead⟩
      rw [ofChars, List.head?_map, Option.map_eq_some_iff] at hhead
      obtain ⟨c, hc, heq⟩ := hhead
      obtain rfl := CodePoint.char.inj heq
      rw [hzero hc] at hlong
      simp [ofChars] at hlong
    have hnil : ofChars cs ≠ [] := by simpa [ofChars] using hne
    simp only [looksLikeIndex, hdigits, Bool.and_true, Bool.and_eq_true, decide_eq_true_eq,
      Bool.not_eq_true', Bool.and_eq_false_iff, decide_eq_false_iff_not, ne_eq, hnil,
      not_false_eq_true, true_and]
    exact not_and_or.mp hlead
  refine ⟨hlooks, ?_⟩
  unfold codeIndex
  rw [if_pos hlooks, readInt_digits notInNumbers_isSpace hall hne]
  split
  · exact .inr rfl
  · exact .inl rfl

/-- The code either stops at a token that `int` refuses, or evaluates with indices in any script. -/
theorem resolveTokens_eq (document : Value) (tokens : List Text) :
    (Faulty document tokens → ∃ message, resolveTokens document tokens =
      .error (.valueError message)) ∧
    (¬ Faulty document tokens →
      resolveTokens document tokens = .ok (walk codeIndex document tokens)) := by
  induction tokens generalizing document with
  | nil => exact ⟨fun h => by simp [Faulty] at h, fun _ => by simp [resolveTokens, walk]⟩
  | cons token rest ih =>
    cases document with
    | obj fields =>
      simp only [Faulty, resolveTokens, walk]
      cases hmember : member fields token with
      | none => simp
      | some value => simpa using ih value
    | arr items =>
      simp only [Faulty, Refused, codeIndex, resolveTokens, walk]
      by_cases hlooks : looksLikeIndex token = true
      · cases hread : readInt isSpace maxIntDigits token with
        | none => simp [hlooks]
        | some index =>
          cases hitem : items[index.toNat]? with
          | none => simp [hlooks, hitem]
          | some value => simpa [hlooks, hitem] using ih value
      · simp [hlooks]
    | _ => exact ⟨fun h => by simp [Faulty] at h, fun _ => by simp [resolveTokens, walk]⟩

/-- Where nothing is refused, what is designated is found, along indices in ASCII. -/
theorem walk_codeIndex_of_designates {document found : Value} {tokens : List Text}
    (hfaulty : ¬ Faulty document tokens) (h : Designates document tokens found) :
    walk codeIndex document tokens = some found ∧ AsciiIndices document tokens := by
  induction h with
  | here => simp [walk, AsciiIndices]
  | member hmember _ ih =>
    simp only [Faulty, hmember, walk, AsciiIndices, Option.mem_def, Option.some.injEq,
      exists_eq_left', forall_eq', Option.bind_some] at hfaulty ⊢
    exact ih hfaulty
  | element hindex hitem _ ih =>
    obtain ⟨hlooks, hread⟩ := looksLikeIndex_of_arrayIndex hindex
    simp only [Faulty, not_or] at hfaulty
    have hcode := hread.resolve_left fun hnone => hfaulty.1 ⟨hlooks, hnone⟩
    simp only [hcode, hitem, Option.mem_def, Option.some.injEq, exists_eq_left'] at hfaulty
    obtain ⟨hwalk, hascii⟩ := ih hfaulty.2
    refine ⟨by simp [walk, hcode, hitem, hwalk], _, hindex, ?_⟩
    simpa [hitem] using hascii

/-- What is found along indices in ASCII is designated. -/
theorem designates_of_ascii {document found : Value} {tokens : List Text}
    (hfaulty : ¬ Faulty document tokens) (hascii : AsciiIndices document tokens)
    (h : walk codeIndex document tokens = some found) : Designates document tokens found := by
  induction tokens generalizing document with
  | nil =>
    obtain rfl : document = found := by simpa [walk] using h
    exact .here document
  | cons token rest ih =>
    cases document with
    | obj fields =>
      obtain ⟨value, hmember, hrest⟩ := Option.bind_eq_some_iff.mp h
      simp only [Faulty, AsciiIndices, hmember, Option.mem_def, Option.some.injEq, exists_eq_left',
        forall_eq'] at hfaulty hascii
      exact .member hmember (ih hfaulty hascii hrest)
    | arr items =>
      obtain ⟨value, hvalue, hrest⟩ := Option.bind_eq_some_iff.mp h
      obtain ⟨n, hcode, hitem⟩ := Option.bind_eq_some_iff.mp hvalue
      obtain ⟨index, hindex, hinside⟩ := hascii
      obtain ⟨hlooks, hread⟩ := looksLikeIndex_of_arrayIndex hindex
      simp only [Faulty, not_or] at hfaulty
      have hsame := hread.resolve_left fun hnone => hfaulty.1 ⟨hlooks, hnone⟩
      obtain rfl : n = index := Option.some.inj (hcode.symm.trans hsame)
      simp only [hcode, hitem, Option.mem_def, Option.some.injEq, exists_eq_left'] at hfaulty
      exact .element hindex hitem (ih hfaulty.2 (hinside value hitem) hrest)
    | _ => cases h

/-- A pointer that meets no refused token, and finds values only along indices in ASCII. -/
structure PointerReadable (document : Value) (tokens : List Text) : Prop where
  accepted : ¬ Faulty document tokens
  ascii : walk codeIndex document tokens ≠ none → AsciiIndices document tokens

theorem resolveTokens_designated_iff {document : Value} {tokens : List Text} :
    (∃ found, resolveTokens document tokens = .ok found ∧
      ∀ value, found = some value ↔ Designates document tokens value) ↔
      PointerReadable document tokens := by
  obtain ⟨hstops, hwalks⟩ := resolveTokens_eq document tokens
  constructor
  · rintro ⟨found, hfound, hiff⟩
    have haccepted : ¬ Faulty document tokens := by
      intro hfaulty
      obtain ⟨message, herror⟩ := hstops hfaulty
      rw [herror] at hfound
      cases hfound
    rw [hwalks haccepted] at hfound
    obtain rfl := Except.ok.inj hfound
    refine ⟨haccepted, fun hsome => ?_⟩
    obtain ⟨value, hvalue⟩ := Option.ne_none_iff_exists'.mp hsome
    exact (walk_codeIndex_of_designates haccepted ((hiff value).mp hvalue)).2
  · rintro ⟨haccepted, hascii⟩
    refine ⟨_, hwalks haccepted, fun value => ⟨fun hfound => ?_, fun hdesignates => ?_⟩⟩
    · exact designates_of_ascii haccepted (hascii (by rw [hfound]; simp)) hfound
    · exact (walk_codeIndex_of_designates haccepted hdesignates).1

/-! ## What rules project -/

/-- A text that `require_non_empty` lets through. -/
def Nameable (text : Text) : Prop := ∃ t : NonEmptyText, text = ofChars t.text.toList

theorem requireText_ok {text : Text} {fieldName : String} {t : NonEmptyText} :
    requireText text fieldName = .ok t ↔ text = ofChars t.text.toList := by
  unfold requireText
  constructor
  · intro h
    split at h
    · cases h
    · split at h
      · rename_i cs hcs
        rw [requireNonEmpty_ok h, String.toList_ofList]
        exact characters?_eq_some.mp hcs
      · cases h
  · rintro rfl
    have hvisible : ¬ (ofChars t.text.toList).all (blankPoint isSpace) = true := by
      obtain ⟨c, hc, hspace⟩ := List.any_eq_true.mp t.visible
      rw [List.all_eq_true]
      intro hall
      have hblank := hall (.char c) (List.mem_map_of_mem hc)
      simp only [blankPoint] at hblank
      simp [hblank] at hspace
    rw [if_neg hvisible]
    simp only [characters?_ofChars, String.ofList_toList, requireNonEmpty_text]

theorem encode_nameable {value : Scalar} {encoded : Text} (h : encode value = .ok encoded) :
    Nameable encoded := by
  have htagged (tag : Char) (cs : List Char) (htag : isSpace tag = false) :
      Nameable (ofChars (tag :: cs)) :=
    ⟨⟨String.ofList (tag :: cs), by simp [hasVisible, htag]⟩, by simp⟩
  cases value with
  | null =>
    obtain rfl := Except.ok.inj h
    exact htagged 'z' _ (by decide)
  | bool b =>
    obtain rfl := Except.ok.inj h
    cases b
    · exact htagged 'b' _ (by decide)
    · exact htagged 'b' _ (by decide)
  | int i =>
    obtain ⟨digits, -, rfl⟩ := map_ok.mp h
    exact htagged 'i' _ (by decide)
  | float x =>
    obtain rfl := Except.ok.inj h
    exact htagged 'f' _ (by decide)
  | str text =>
    obtain ⟨cs, rfl⟩ := encodable_of_encode h
    obtain rfl : ofChars ('s' :: ':' :: Percent.quote cs) = encoded := by simpa [encode] using h
    exact htagged 's' _ (by decide)

/-- A facet of a scalar under a namespace. -/
structure FacetFor (name : Text) (value : Scalar) (facet : Facet) : Prop where
  named : name = ofChars facet.facetNamespace.text.toList
  encoded : encode value = .ok (ofChars facet.value.text.toList)

/-- The namespaces seen are those of facets. -/
def SeenNameable (state : Projected) : Prop := ∀ seen ∈ state.seenFacets, Nameable seen.1

section Rules

variable {name : Text} {state state' : Projected} {value : Scalar}

theorem appendFacet_ok (hseen : SeenNameable state) (h : appendFacet name state value = .ok state') :
    Encodable value ∧ Nameable name ∧ SeenNameable state' ∧
      ∀ facet ∈ state'.facets, facet ∈ state.facets ∨ FacetFor name value facet := by
  obtain ⟨encoded, hencode, h⟩ := bind_ok.mp h
  refine ⟨encodable_of_encode hencode, ?_⟩
  split at h
  · rename_i hmem
    obtain rfl := Except.ok.inj h
    exact ⟨hseen _ hmem, hseen, fun facet hfacet => .inl hfacet⟩
  · simp only [bind_ok, requireText_ok] at h
    obtain ⟨facetNamespace, hname, facetValue, hvalue, h⟩ := h
    obtain rfl := Except.ok.inj h
    refine ⟨⟨facetNamespace, hname⟩, List.forall_mem_cons.mpr ⟨⟨facetNamespace, hname⟩, hseen⟩,
      fun facet hfacet => ?_⟩
    rcases List.mem_append.mp hfacet with hfacet | hfacet
    · exact .inl hfacet
    · rw [List.mem_singleton.mp hfacet]
      exact .inr ⟨hname, hvalue ▸ hencode⟩

theorem appendFacet_total (state : Projected) (hvalue : Encodable value) (hname : Nameable name) :
    ∃ state', appendFacet name state value = .ok state' := by
  obtain ⟨encoded, hencode⟩ := encode_total hvalue
  obtain ⟨t, ht⟩ := hname
  obtain ⟨u, hu⟩ := encode_nameable hencode
  by_cases hmem : (name, encoded) ∈ state.seenFacets
  · exact ⟨state, bind_ok.mpr ⟨encoded, hencode, if_pos hmem⟩⟩
  · refine ⟨{ state with
      facets := state.facets ++ [⟨t, u⟩]
      seenFacets := (name, encoded) :: state.seenFacets }, ?_⟩
    apply bind_ok.mpr
    refine ⟨encoded, hencode, (if_neg hmem).trans ?_⟩
    simp only [bind_ok]
    exact ⟨t, requireText_ok.mpr ht, u, requireText_ok.mpr hu, rfl⟩

theorem lexicalScalar_ok_iff (hstr : ∀ text, value = .str text → Encodable value) :
    (∃ rendered, lexicalScalar value = .ok rendered) ↔ Encodable value := by
  cases value with
  | int i =>
    simp only [lexicalScalar, map_ok, strInt_ok]
    constructor
    · rintro ⟨_, _, ⟨hlimit, -⟩, -⟩
      exact hlimit
    · exact fun hlimit => ⟨_, _, ⟨hlimit, rfl⟩, rfl⟩
  | str text => exact iff_of_true ⟨_, rfl⟩ (hstr text rfl)
  | _ => exact iff_of_true ⟨_, rfl⟩ trivial

theorem appendLexical_ok_iff (state : Projected)
    (hstr : ∀ text, value = .str text → Encodable value) :
    (∃ state', appendLexical state value = .ok state') ↔ Encodable value := by
  rw [← lexicalScalar_ok_iff hstr]
  constructor
  · rintro ⟨state', h⟩
    obtain ⟨rendered, hrendered, -⟩ := bind_ok.mp h
    exact ⟨rendered, hrendered⟩
  · rintro ⟨rendered, hrendered⟩
    exact ⟨_, bind_ok.mpr ⟨rendered, hrendered, rfl⟩⟩

theorem appendLexical_frame (h : appendLexical state value = .ok state') :
    state'.facets = state.facets ∧ state'.seenFacets = state.seenFacets := by
  obtain ⟨rendered, -, h⟩ := bind_ok.mp h
  obtain rfl := Except.ok.inj h
  split <;> exact ⟨rfl, rfl⟩

end Rules

/-! ### A rule -/

theorem mem_of_mapM {α β : Type} {f : α → Option β} {as : List α} {bs : List β}
    (h : as.mapM f = some bs) : ∀ b ∈ bs, ∃ a ∈ as, f a = some b := by
  induction as generalizing bs with
  | nil =>
    obtain rfl : bs = [] := by simpa using h
    simp
  | cons a rest ih =>
    simp only [List.mapM_cons, Option.pure_def, Option.bind_eq_bind, Option.bind_eq_some_iff,
      Option.some.injEq] at h
    obtain ⟨b, hb, bs', hbs, rfl⟩ := h
    rw [List.forall_mem_cons]
    refine ⟨⟨a, List.mem_cons_self, hb⟩, fun c hc => ?_⟩
    obtain ⟨a', ha', hc'⟩ := ih hbs c hc
    exact ⟨a', List.mem_cons_of_mem _ ha', hc'⟩

theorem toScalar_str {value : Value} {text : Text} (h : toScalar value = some (.str text)) :
    Encodable (.str text) := by
  cases value with
  | str s =>
    obtain rfl : ofChars s.toList = text := by simpa [toScalar] using h
    exact ⟨s.toList, rfl⟩
  | _ => simp [toScalar] at h

theorem scalarItems_str {value : Value} {items : List Scalar} {text : Text}
    (h : scalarItems value = some items) (hmem : .str text ∈ items) : Encodable (.str text) := by
  cases value with
  | arr values =>
    obtain ⟨value, -, hvalue⟩ := mem_of_mapM h _ hmem
    exact toScalar_str hvalue
  | _ => simp [scalarItems] at h

/-- Strings of a document can be encoded. -/
theorem scalars_str {mode : MetadataProjectionMode} {value : Value} {text : Text}
    (h : .str text ∈ mode.scalars value) : Encodable (.str text) := by
  have hitems (hmem : .str text ∈ (scalarItems value).getD []) : Encodable (.str text) := by
    cases hitems : scalarItems value with
    | none => simp [hitems] at hmem
    | some items =>
      rw [hitems] at hmem
      exact scalarItems_str hitems hmem
  cases mode with
  | facet => exact toScalar_str (Option.mem_toList.mp h)
  | facetMany => exact hitems h
  | lexicalText =>
    simp only [MetadataProjectionMode.scalars] at h
    split at h
    · rename_i scalar hscalar
      rw [← List.mem_singleton.mp h] at hscalar
      exact toScalar_str hscalar
    · exact hitems h
  | _ => simp [MetadataProjectionMode.scalars] at h

/-- What a rule takes from a value can be written down. -/
structure Takes (rule : MetadataProjection) (value : Value) : Prop where
  encodable : ∀ scalar ∈ rule.mode.scalars value, Encodable scalar
  nameable : rule.mode.needsNamespace = true → rule.mode.scalars value ≠ [] →
    Nameable (rule.facetNamespace.getD [])

/-- A facet that a rule makes of a value. -/
def FacetOf (rule : MetadataProjection) (value : Value) (facet : Facet) : Prop :=
  rule.mode.needsNamespace = true ∧
    ∃ scalar ∈ rule.mode.scalars value, FacetFor (rule.facetNamespace.getD []) scalar facet

section Step

variable {rule : MetadataProjection} {value : Value} {state state' : Projected}

theorem appendFacets_ok {name : Text} {scalars : List Scalar} (hseen : SeenNameable state)
    (h : scalars.foldlM (appendFacet name) state = .ok state') :
    (∀ scalar ∈ scalars, Encodable scalar) ∧ (scalars ≠ [] → Nameable name) ∧
      SeenNameable state' ∧ ∀ facet ∈ state'.facets,
        facet ∈ state.facets ∨ ∃ scalar ∈ scalars, FacetFor name scalar facet := by
  have hrun := foldlM_invariant (I := fun s => SeenNameable s ∧ ∀ facet ∈ s.facets,
    facet ∈ state.facets ∨ ∃ scalar ∈ scalars, FacetFor name scalar facet) ?_
    ⟨hseen, fun facet hfacet => .inl hfacet⟩ h
  · obtain ⟨⟨hseen', hfacets⟩, hsteps⟩ := hrun
    refine ⟨fun scalar hscalar => ?_, fun hne => ?_, hseen', hfacets⟩
    · obtain ⟨c, c', hc, hstep⟩ := hsteps scalar hscalar
      exact (appendFacet_ok hc.1 hstep).1
    · obtain ⟨scalar, hscalar⟩ := List.exists_mem_of_ne_nil scalars hne
      obtain ⟨c, c', hc, hstep⟩ := hsteps scalar hscalar
      exact (appendFacet_ok hc.1 hstep).2.1
  · intro scalar hscalar c c' hc hstep
    obtain ⟨-, -, hseen', hfacets⟩ := appendFacet_ok hc.1 hstep
    refine ⟨hseen', fun facet hfacet => ?_⟩
    rcases hfacets facet hfacet with hold | hnew
    · exact hc.2 facet hold
    · exact .inr ⟨scalar, hscalar, hnew⟩

theorem appendLexicals_ok {scalars : List Scalar}
    (hstr : ∀ text, .str text ∈ scalars → Encodable (.str text))
    (h : scalars.foldlM appendLexical state = .ok state') :
    (∀ scalar ∈ scalars, Encodable scalar) ∧ state'.facets = state.facets ∧
      state'.seenFacets = state.seenFacets := by
  obtain ⟨hframe, hsteps⟩ := foldlM_invariant
    (I := fun s => s.facets = state.facets ∧ s.seenFacets = state.seenFacets)
    (fun scalar _ c c' hc hstep => ⟨(appendLexical_frame hstep).1.trans hc.1,
      (appendLexical_frame hstep).2.trans hc.2⟩) ⟨rfl, rfl⟩ h
  refine ⟨fun scalar hscalar => ?_, hframe⟩
  obtain ⟨c, c', -, hstep⟩ := hsteps scalar hscalar
  exact (appendLexical_ok_iff c fun text htext => htext ▸ hstr text (htext ▸ hscalar)).mp ⟨c', hstep⟩

theorem applyTo_ok (hseen : SeenNameable state) (h : rule.applyTo state value = .ok state') :
    Takes rule value ∧ SeenNameable state' ∧
      ∀ facet ∈ state'.facets, facet ∈ state.facets ∨ FacetOf rule value facet := by
  unfold MetadataProjection.applyTo at h
  have hfacets (hneeds : rule.mode.needsNamespace = true)
      (h : (rule.mode.scalars value).foldlM (appendFacet (rule.facetNamespace.getD [])) state =
        .ok state') : Takes rule value ∧ SeenNameable state' ∧
      ∀ facet ∈ state'.facets, facet ∈ state.facets ∨ FacetOf rule value facet := by
    obtain ⟨hencodable, hnameable, hseen', hfacets⟩ := appendFacets_ok hseen h
    refine ⟨⟨hencodable, fun _ => hnameable⟩, hseen', fun facet hfacet => ?_⟩
    exact (hfacets facet hfacet).imp_right fun hnew => ⟨hneeds, hnew⟩
  have hnothing (hnone : rule.mode.scalars value = []) (hframe : state'.facets = state.facets ∧
      state'.seenFacets = state.seenFacets) : Takes rule value ∧ SeenNameable state' ∧
      ∀ facet ∈ state'.facets, facet ∈ state.facets ∨ FacetOf rule value facet := by
    refine ⟨⟨by simp [hnone], fun _ hne => absurd hnone hne⟩, ?_, fun facet hfacet => .inl ?_⟩
    · unfold SeenNameable
      rw [hframe.2]
      exact hseen
    · rw [← hframe.1]
      exact hfacet
  cases hmode : rule.mode with
  | storeOnly =>
    obtain rfl : state = state' := by simpa [hmode] using h
    exact hnothing (by simp [hmode, MetadataProjectionMode.scalars]) ⟨rfl, rfl⟩
  | ignore =>
    obtain rfl : state = state' := by simpa [hmode] using h
    exact hnothing (by simp [hmode, MetadataProjectionMode.scalars]) ⟨rfl, rfl⟩
  | canonicalTitle =>
    refine hnothing (by simp [hmode, MetadataProjectionMode.scalars]) ?_
    simp only [hmode] at h
    split at h
    · obtain rfl := Except.ok.inj h
      split <;> exact ⟨rfl, rfl⟩
    · obtain rfl := Except.ok.inj h
      exact ⟨rfl, rfl⟩
  | facet =>
    apply hfacets (by simp [hmode, MetadataProjectionMode.needsNamespace])
    simpa [hmode] using h
  | facetMany =>
    apply hfacets (by simp [hmode, MetadataProjectionMode.needsNamespace])
    simpa [hmode] using h
  | lexicalText =>
    have hlexical : (rule.mode.scalars value).foldlM appendLexical state = .ok state' := by
      simpa [hmode] using h
    obtain ⟨hencodable, hsame, hseenSame⟩ := appendLexicals_ok
      (fun text => scalars_str) hlexical
    refine ⟨⟨hencodable, fun hneeds => ?_⟩, ?_, fun facet hfacet => .inl (hsame ▸ hfacet)⟩
    · simp [hmode, MetadataProjectionMode.needsNamespace] at hneeds
    · unfold SeenNameable
      rw [hseenSame]
      exact hseen

theorem applyTo_total (state : Projected) (h : Takes rule value) :
    ∃ state', rule.applyTo state value = .ok state' := by
  unfold MetadataProjection.applyTo
  have hfacets (hneeds : rule.mode.needsNamespace = true) :
      ∃ state', (rule.mode.scalars value).foldlM (appendFacet (rule.facetNamespace.getD [])) state =
        .ok state' := by
    apply foldlM_total (I := fun _ => True) _ trivial
    intro scalar hscalar c _
    obtain ⟨c', hc'⟩ := appendFacet_total c (h.encodable scalar hscalar)
      (h.nameable hneeds (List.ne_nil_of_mem hscalar))
    exact ⟨c', hc', trivial⟩
  cases hmode : rule.mode with
  | storeOnly => exact ⟨state, rfl⟩
  | ignore => exact ⟨state, rfl⟩
  | canonicalTitle => cases value <;> exact ⟨_, rfl⟩
  | facet =>
    simpa [hmode] using hfacets (by simp [hmode, MetadataProjectionMode.needsNamespace])
  | facetMany =>
    simpa [hmode] using hfacets (by simp [hmode, MetadataProjectionMode.needsNamespace])
  | lexicalText =>
    simp only
    apply foldlM_total (I := fun _ => True) _ trivial
    intro scalar hscalar c _
    rw [← hmode] at hscalar
    obtain ⟨c', hc'⟩ := (appendLexical_ok_iff c fun text htext => htext ▸ scalars_str
      (htext ▸ hscalar)).mpr (h.encodable scalar hscalar)
    exact ⟨c', hc', trivial⟩

end Step

/-! ### A policy -/

/-- A rule that reads its source as RFC 6901 says: its pointer is read so, and what it designates
can be written down. -/
structure RuleReadable (source : Value) (rule : MetadataProjection) : Prop where
  pointer : ∀ tokens, Tokens rule.path tokens → PointerReadable source tokens
  takes : ∀ tokens value, Tokens rule.path tokens → Designates source tokens value →
    Takes rule value

/-- What a rule finds is what its pointer designates. -/
def Resolves (source : Value) (rule : MetadataProjection) : Prop :=
  ∃ tokens found, Tokens rule.path tokens ∧ resolvePointer source rule.path = .ok found ∧
    ∀ value, found = some value ↔ Designates source tokens value

/-- A facet that comes from what a rule's pointer designates. -/
def Sourced (source : Value) (rules : List MetadataProjection) (facet : Facet) : Prop :=
  ∃ rule ∈ rules, ∃ tokens value, Tokens rule.path tokens ∧ Designates source tokens value ∧
    FacetOf rule value facet

/-- A policy returns, and projects what its pointers designate. -/
structure ProjectsDesignated (sha256 : String → String) (policy : MetadataProjectionPolicy)
    (source : List (String × Value)) (fallbackTitle : Option String) : Prop where
  resolved : ∀ rule ∈ policy.projections, Resolves (.obj source) rule
  returned : ∃ result, policy.project sha256 source fallbackTitle = .ok result ∧
    ∀ facet ∈ result.facets, Sourced (.obj source) policy.projections facet

theorem resolvePointer_eq {document : Value} {rule : MetadataProjection} {tokens : List Text}
    (htokens : Tokens rule.path tokens) :
    resolvePointer document rule.path = resolveTokens document tokens := by
  obtain ⟨parsed, hparsed⟩ := rule.parses
  rw [resolvePointer, hparsed, Tokens.unique htokens (parsePointer_ok hparsed)]
  rfl

theorem resolves_iff {source : Value} {rule : MetadataProjection} :
    Resolves source rule ↔ ∀ tokens, Tokens rule.path tokens → PointerReadable source tokens := by
  constructor
  · rintro ⟨tokens, found, htokens, hfound, hiff⟩ tokens' htokens'
    rw [Tokens.unique htokens' htokens]
    rw [resolvePointer_eq htokens] at hfound
    exact resolveTokens_designated_iff.mp ⟨found, hfound, hiff⟩
  · intro h
    obtain ⟨tokens, hparsed⟩ := rule.parses
    have htokens := parsePointer_ok hparsed
    obtain ⟨found, hfound, hiff⟩ := resolveTokens_designated_iff.mpr (h tokens htokens)
    exact ⟨tokens, found, htokens, (resolvePointer_eq htokens).trans hfound, hiff⟩

section Policy

variable {source : Value} {rule : MetadataProjection} {state state' : Projected}

theorem projectStep_ok (hresolves : Resolves source rule) (hseen : SeenNameable state)
    (h : projectStep source state rule = .ok state') : RuleReadable source rule ∧
      SeenNameable state' ∧ ∀ facet ∈ state'.facets, facet ∈ state.facets ∨
        ∃ tokens value, Tokens rule.path tokens ∧ Designates source tokens value ∧
          FacetOf rule value facet := by
  have hpointer := resolves_iff.mp hresolves
  obtain ⟨tokens, found, htokens, hfound, hiff⟩ := hresolves
  obtain ⟨found', hfound', h⟩ := bind_ok.mp h
  obtain rfl : found = found' := Except.ok.inj (hfound.symm.trans hfound')
  cases hcase : found with
  | none =>
    rw [hcase] at h hiff
    obtain rfl := Except.ok.inj h
    refine ⟨⟨hpointer, fun tokens' value htokens' hvalue => ?_⟩, hseen, fun facet hfacet => .inl hfacet⟩
    rw [Tokens.unique htokens' htokens, ← hiff] at hvalue
    cases hvalue
  | some value =>
    rw [hcase] at h hiff
    obtain ⟨htakes, hseen', hfacets⟩ := applyTo_ok hseen h
    refine ⟨⟨hpointer, fun tokens' value' htokens' hvalue => ?_⟩, hseen', fun facet hfacet => ?_⟩
    · rw [Tokens.unique htokens' htokens, ← hiff] at hvalue
      rw [← Option.some.inj hvalue]
      exact htakes
    · exact (hfacets facet hfacet).imp_right fun hof =>
        ⟨tokens, value, htokens, (hiff value).mp rfl, hof⟩

theorem projectStep_total (state : Projected) (h : RuleReadable source rule) :
    ∃ state', projectStep source state rule = .ok state' := by
  obtain ⟨tokens, found, htokens, hfound, hiff⟩ := resolves_iff.mpr h.pointer
  cases hcase : found with
  | none => exact ⟨state, bind_ok.mpr ⟨none, hcase ▸ hfound, rfl⟩⟩
  | some value =>
    obtain ⟨state', hstate'⟩ := applyTo_total state
      (h.takes tokens value htokens ((hiff value).mp hcase))
    exact ⟨state', bind_ok.mpr ⟨some value, hcase ▸ hfound, hstate'⟩⟩

end Policy

/-- A policy projects what its pointers designate if and only if each of its rules is readable. -/
theorem project_designated_iff (sha256 : String → String) (policy : MetadataProjectionPolicy)
    (source : List (String × Value)) (fallbackTitle : Option String) :
    ProjectsDesignated sha256 policy source fallbackTitle ↔
      ∀ rule ∈ policy.projections, RuleReadable (.obj source) rule := by
  let I := fun s : Projected => SeenNameable s ∧
    ∀ facet ∈ s.facets, Sourced (.obj source) policy.projections facet
  have hstart : I ⟨fallbackTitle, [], [], []⟩ := by simp [I, SeenNameable]
  have hstep (hresolved : ∀ rule ∈ policy.projections, Resolves (.obj source) rule) :
      ∀ rule ∈ policy.projections, ∀ c c', I c → projectStep (.obj source) c rule = .ok c' → I c' := by
    intro rule hrule c c' hc hstep
    obtain ⟨-, hseen', hfacets⟩ := projectStep_ok (hresolved rule hrule) hc.1 hstep
    refine ⟨hseen', fun facet hfacet => ?_⟩
    rcases hfacets facet hfacet with hold | hnew
    · exact hc.2 facet hold
    · exact ⟨rule, hrule, hnew⟩
  constructor
  · rintro ⟨hresolved, result, hresult, -⟩
    obtain ⟨state, hloop, -⟩ := bind_ok.mp hresult
    obtain ⟨-, hsteps⟩ := foldlM_invariant (hstep hresolved) hstart hloop
    intro rule hrule
    obtain ⟨c, c', hc, hok⟩ := hsteps rule hrule
    exact (projectStep_ok (hresolved rule hrule) hc.1 hok).1
  · intro hreadable
    have hresolved : ∀ rule ∈ policy.projections, Resolves (.obj source) rule :=
      fun rule hrule => resolves_iff.mpr (hreadable rule hrule).pointer
    have htotal : ∀ rule ∈ policy.projections, ∀ c, I c →
        ∃ c', projectStep (.obj source) c rule = .ok c' ∧ I c' := by
      intro rule hrule c hc
      obtain ⟨c', hc'⟩ := projectStep_total c (hreadable rule hrule)
      exact ⟨c', hc', hstep hresolved rule hrule c c' hc hc'⟩
    obtain ⟨state, hloop⟩ := foldlM_total htotal hstart
    obtain ⟨⟨-, hfacets⟩, -⟩ := foldlM_invariant (hstep hresolved) hstart hloop
    exact ⟨hresolved, _, bind_ok.mpr ⟨state, hloop, rfl⟩, hfacets⟩

/-! ### Digits that are no index -/

/-- The pointer `/a/²`. -/
def squarePath : Text := ofChars ['/', 'a', '/', '²']

def squareRule : MetadataProjection where
  path := squarePath
  mode := .storeOnly
  facetNamespace := none
  parses := ⟨[ofChars ['a'], ofChars ['²']], rfl⟩
  not_root := by decide
  namespace_given := by decide
  namespace_absent := by decide

def squarePolicy : MetadataProjectionPolicy := ⟨[squareRule], by simp⟩

def arraySource : List (String × Value) := [("a", .arr [.null])]

/-- A superscript passes for a digit, and `int` refuses it. -/
theorem square_raises : ¬ ∀ (sha256 : String → String) (policy : MetadataProjectionPolicy)
    (source : List (String × Value)) (fallbackTitle : Option String),
    ProjectsDesignated sha256 policy source fallbackTitle := by
  intro h
  obtain ⟨result, hresult, -⟩ := (h id squarePolicy arraySource none).returned
  obtain ⟨state, hloop, -⟩ := bind_ok.mp hresult
  have herror : squarePolicy.projections.foldlM (projectStep (.obj arraySource))
      ⟨none, [], [], []⟩ =
      .error (.valueError "invalid literal for int() with base 10") := by rfl
  rw [herror] at hloop
  cases hloop

end MDRack.Metadata
