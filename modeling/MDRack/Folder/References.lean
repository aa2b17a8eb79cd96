import MDRack.Folder.Paths
import MDRack.Lib.CodePoints
import MDRack.Lib.Cutting

/-!
# Portable references (`validate_source_ref`, `_portable_relative_path`)

Two validators of references: one reads the parts of a path library, one the raw segments.

* `validateSourceRef`, `portableRelativePath` — the validators.
* `Portable` — the references that both are for: names with `/` between them.
* `place` — where a reference leads from a directory.

Principal result: `oneNotion_iff` — the validators agree with `Portable`, except at `"."`.
-/

namespace MDRack.Folder

open CodePoints Cutting

abbrev slash : CodePoint := .char '/'
abbrev dot : CodePoint := .char '.'
abbrev backslash : CodePoint := .char '\\'
abbrev colon : CodePoint := .char ':'

/-! ## The validators -/

/-- `PurePosixPath(source_ref).parts` of a reference that is not absolute. -/
def purePosixParts (ref : Text) : List Text :=
  (ref.splitOn slash).filter fun part => part ≠ [] ∧ part ≠ [dot]

/-- `str(path)`. -/
def purePosixText (parts : List Text) : Text :=
  if parts = [] then [dot] else [slash].intercalate parts

/-- `{"", ".", ".."}`. -/
def reservedParts : List Text := [[], [dot], [dot, dot]]

inductive RawSourceErrorCode
  | sourceRefInvalid
  deriving DecidableEq, Repr

/-- `validate_source_ref`. -/
def validateSourceRef (sourceRef : Text) : Except RawSourceErrorCode Text :=
  if sourceRef = [] ∨ backslash ∈ sourceRef then .error .sourceRefInvalid
  else if sourceRef.head? = some slash ∨ colon ∈ sourceRef ∨ [slash, slash] <:+: sourceRef then
    .error .sourceRefInvalid
  else if purePosixText (purePosixParts sourceRef) ≠ sourceRef ∨
      ∃ part ∈ purePosixParts sourceRef, part ∈ reservedParts then
    .error .sourceRefInvalid
  else .ok sourceRef

/-- `_portable_relative_path` of a text. -/
def portableRelativePath (value : Text) : Option Text :=
  if value = [] then none
  else if (value.head? = some slash ∨ value.head? = some backslash) ∨ backslash ∈ value ∨
      colon ∈ value then none
  else if ∃ part ∈ value.splitOn slash, part ∈ reservedParts then none
  else some value

/-! ## What they are for -/

/-- A name of a file or a directory that a reference may go through. -/
structure IsName (name : Text) : Prop where
  notReserved : name ∉ reservedParts
  noSlash : slash ∉ name
  noBackslash : backslash ∉ name
  noColon : colon ∉ name

/-- A relative path of names. -/
def Portable (ref : Text) : Prop :=
  ∃ names, names ≠ [] ∧ (∀ name ∈ names, IsName name) ∧ ref = [slash].intercalate names

/-- The directory after one segment of a path. -/
def enter (directory : List Text) (segment : Text) : List Text :=
  if segment = [] ∨ segment = [dot] then directory
  else if segment = [dot, dot] then directory.dropLast
  else directory ++ [segment]

/-- Where a path leads from a directory; an absolute one starts at the top. -/
def place (root : List Text) (ref : Text) : List Text :=
  (ref.splitOn slash).foldl enter (if ref.head? = some slash then [] else root)

/-- A place that is neither the root directory nor outside it. -/
def Inside (root place : List Text) : Prop := ∃ below, below ≠ [] ∧ place = root ++ below

/-- Both validators mean the same references, and none of these leads out of a root. -/
structure OneNotion (ref : Text) : Prop where
  agree : validateSourceRef ref = .ok ref ↔ portableRelativePath ref = some ref
  source : validateSourceRef ref = .ok ref ↔ Portable ref
  resource : portableRelativePath ref = some ref ↔ Portable ref
  inside : validateSourceRef ref = .ok ref ∨ portableRelativePath ref = some ref →
    ∀ root, Inside root (place root ref)

/-! ## Segments -/

variable {ref : Text}

theorem splitOn_names {names : List Text} (hne : names ≠ []) (h : ∀ name ∈ names, IsName name) :
    ([slash].intercalate names).splitOn slash = names :=
  List.splitOn_intercalate slash (fun name hname => (h name hname).noSlash) hne

theorem not_mem_names {names : List Text} {point : CodePoint} (hslash : point ≠ slash)
    (h : ∀ name ∈ names, point ∉ name) : point ∉ [slash].intercalate names := by
  intro hmem
  rcases mem_intercalate hmem with hsep | ⟨name, hname, hpoint⟩
  · exact hslash (List.mem_singleton.mp hsep)
  · exact h name hname hpoint

/-- The segments of a portable reference are its names. -/
theorem portable_iff : Portable ref ↔ backslash ∉ ref ∧ colon ∉ ref ∧
    ∀ segment ∈ ref.splitOn slash, segment ∉ reservedParts := by
  constructor
  · rintro ⟨names, hne, hnames, rfl⟩
    refine ⟨?_, ?_, ?_⟩
    · exact not_mem_names (by decide) fun name hname => (hnames name hname).noBackslash
    · exact not_mem_names (by decide) fun name hname => (hnames name hname).noColon
    · rw [splitOn_names hne hnames]
      exact fun name hname => (hnames name hname).notReserved
  · rintro ⟨hbackslash, hcolon, hsegments⟩
    refine ⟨ref.splitOn slash, List.splitOn_ne_nil _ _, fun name hname => ?_, ?_⟩
    · exact ⟨hsegments name hname, not_mem_of_mem_splitOn hname,
        fun h => hbackslash (mem_of_mem_splitOn hname h),
        fun h => hcolon (mem_of_mem_splitOn hname h)⟩
    · exact (List.intercalate_splitOn slash).symm

theorem Portable.ne_nil (h : Portable ref) : ref ≠ [] := by
  rintro rfl
  obtain ⟨-, -, hsegments⟩ := portable_iff.mp h
  exact hsegments [] List.mem_cons_self List.mem_cons_self

/-- A reference that begins with the separator has an empty first segment. -/
theorem nil_mem_of_head (h : ref.head? = some slash) : [] ∈ ref.splitOn slash := by
  obtain ⟨rest, rfl⟩ := List.head?_eq_some_iff.mp h
  have hcut : ((slash :: rest : Text)).splitOn slash = [] :: rest.splitOn slash :=
    List.splitOn_append_cons_self [] rest
  rw [hcut]
  exact List.mem_cons_self

theorem Portable.head (h : Portable ref) : ref.head? ≠ some slash := by
  intro hhead
  obtain ⟨-, -, hsegments⟩ := portable_iff.mp h
  exact hsegments [] (nil_mem_of_head hhead) List.mem_cons_self

/-! ## The resource layer -/

theorem portableRelativePath_some : portableRelativePath ref = some ref ↔ Portable ref := by
  rw [portable_iff]
  unfold portableRelativePath
  constructor
  · intro h
    split at h
    · cases h
    · split at h
      · cases h
      · rename_i hmarks
        split at h
        · cases h
        · rename_i hsegments
          push Not at hmarks hsegments
          exact ⟨hmarks.2.1, hmarks.2.2, hsegments⟩
  · rintro ⟨hbackslash, hcolon, hsegments⟩
    have hportable : Portable ref := portable_iff.mpr ⟨hbackslash, hcolon, hsegments⟩
    have hhead : ref.head? ≠ some backslash := fun h => hbackslash (List.mem_of_mem_head? h)
    have hnone : ¬ ∃ part ∈ ref.splitOn slash, part ∈ reservedParts := by
      rintro ⟨part, hpart, hreserved⟩
      exact hsegments part hpart hreserved
    rw [if_neg hportable.ne_nil, if_neg, if_neg hnone]
    rintro ((h | h) | h | h)
    · exact hportable.head h
    · exact hhead h
    · exact hbackslash h
    · exact hcolon h

/-! ## Raw sources -/

/-- The path library drops no segment of a portable reference. -/
theorem purePosixParts_portable (h : Portable ref) : purePosixParts ref = ref.splitOn slash := by
  obtain ⟨-, -, hsegments⟩ := portable_iff.mp h
  apply List.filter_eq_self.mpr
  intro segment hsegment
  have hreserved : segment ∉ reservedParts := hsegments segment hsegment
  simp only [reservedParts, List.mem_cons, not_or] at hreserved
  simp [hreserved.1, hreserved.2.1]

theorem purePosixText_portable (h : Portable ref) : purePosixText (purePosixParts ref) = ref := by
  rw [purePosixParts_portable h, purePosixText, if_neg (List.splitOn_ne_nil _ _),
    List.intercalate_splitOn]

/-- A text that the path library gives back is made of the parts, or of none. -/
theorem portable_of_parts (hbackslash : backslash ∉ ref) (hcolon : colon ∉ ref)
    (htext : purePosixText (purePosixParts ref) = ref)
    (hparts : ∀ part ∈ purePosixParts ref, part ∉ reservedParts) :
    Portable ref ∨ ref = [dot] := by
  by_cases hne : purePosixParts ref = []
  · rw [purePosixText, if_pos hne] at htext
    exact .inr htext.symm
  · rw [purePosixText, if_neg hne] at htext
    refine .inl ⟨purePosixParts ref, hne, fun part hpart => ?_, htext.symm⟩
    have hsegment : part ∈ ref.splitOn slash := List.mem_of_mem_filter hpart
    exact ⟨hparts part hpart, not_mem_of_mem_splitOn hsegment,
      fun h => hbackslash (mem_of_mem_splitOn hsegment h),
      fun h => hcolon (mem_of_mem_splitOn hsegment h)⟩

/-- The path library shows `"."` as itself, with no part that could be refused. -/
theorem validateSourceRef_dot : validateSourceRef [dot] = .ok [dot] := by decide

theorem validateSourceRef_ok : validateSourceRef ref = .ok ref ↔ Portable ref ∨ ref = [dot] := by
  constructor
  · intro h
    unfold validateSourceRef at h
    split at h
    · cases h
    · rename_i hfirst
      split at h
      · cases h
      · rename_i hmarks
        split at h
        · cases h
        · rename_i hpath
          push Not at hfirst hmarks hpath
          exact portable_of_parts hfirst.2 hmarks.2.1 hpath.1 hpath.2
  · rintro (h | rfl)
    · obtain ⟨hbackslash, hcolon, hsegments⟩ := portable_iff.mp h
      have hdouble : ¬ [slash, slash] <:+: ref := fun hin =>
        hsegments [] (nil_mem_splitOn hin) List.mem_cons_self
      have hparts : ¬ ∃ part ∈ purePosixParts ref, part ∈ reservedParts := by
        rw [purePosixParts_portable h]
        rintro ⟨part, hpart, hreserved⟩
        exact hsegments part hpart hreserved
      unfold validateSourceRef
      rw [if_neg, if_neg, if_neg]
      · rintro (hne | hex)
        · exact hne (purePosixText_portable h)
        · exact hparts hex
      · rintro (hhead | hin | hin)
        · exact h.head hhead
        · exact hcolon hin
        · exact hdouble hin
      · rintro (hnil | hin)
        · exact h.ne_nil hnil
        · exact hbackslash hin
    · exact validateSourceRef_dot

/-! ## References of characters -/

theorem splitOn_ofChars (cs : List Char) :
    (ofChars cs).splitOn slash = (cs.splitOn '/').map ofChars := by
  induction cs with
  | nil => rfl
  | cons c cs ih =>
    change (CodePoint.char c :: ofChars cs).splitOn slash = _
    rw [List.splitOn_cons_eq_if_modifyHead, List.splitOn_cons_eq_if_modifyHead, ih]
    by_cases hc : c = '/'
    · simp [hc, ofChars]
    · obtain ⟨first, rest, hsplit⟩ := List.exists_cons_of_ne_nil (List.splitOn_ne_nil '/' cs)
      simp [hc, hsplit, ofChars]

theorem ofChars_intercalate (parts : List (List Char)) :
    ofChars (['/'].intercalate parts) = [slash].intercalate (parts.map ofChars) := by
  induction parts with
  | nil => rfl
  | cons first rest ih =>
    cases rest with
    | nil => simp
    | cons next rest =>
      rw [List.intercalate_cons_cons, List.map_cons, List.map_cons, List.intercalate_cons_cons,
        ← List.map_cons, ← ih]
      simp [ofChars]

theorem ofChars_inj {a b : List Char} : ofChars a = ofChars b ↔ a = b :=
  ⟨ofChars_injective, congrArg ofChars⟩

theorem purePosixParts_ofChars (cs : List Char) :
    purePosixParts (ofChars cs) = (posixParts cs).map ofChars := by
  rw [purePosixParts, posixParts, splitOn_ofChars, List.filter_map]
  congr 1
  apply List.filter_congr
  intro part _
  have hnil : ofChars part = [] ↔ part = [] := ofChars_inj (b := [])
  have hdot : ofChars part = [dot] ↔ part = ['.'] := ofChars_inj (b := ['.'])
  simp [hnil, hdot]

theorem purePosixText_ofChars (parts : List (List Char)) :
    purePosixText (parts.map ofChars) = ofChars (posixText parts) := by
  by_cases h : parts = []
  · rw [h]
    rfl
  · rw [purePosixText, posixText, if_neg h, if_neg (by simpa using h), ofChars_intercalate]

theorem mem_ofChars {c : Char} {cs : List Char} : CodePoint.char c ∈ ofChars cs ↔ c ∈ cs := by
  constructor
  · intro h
    obtain ⟨d, hd, heq⟩ := List.mem_map.mp h
    rwa [← CodePoint.char.inj heq]
  · exact fun h => List.mem_map_of_mem h

/-- References of folders, which are texts without surrogates, are validated alike. -/
theorem validSourceRef_iff (ref : String) : validSourceRef ref = true ↔
    validateSourceRef (ofChars ref.toList) = .ok (ofChars ref.toList) := by
  rw [validateSourceRef_ok]
  unfold validSourceRef
  rw [decide_eq_true_iff]
  constructor
  · rintro ⟨-, hbackslash, -, hcolon, -, htext, hdots⟩
    apply portable_of_parts
    · exact fun h => hbackslash (mem_ofChars.mp h)
    · exact fun h => hcolon (mem_ofChars.mp h)
    · rw [purePosixParts_ofChars, purePosixText_ofChars, htext]
    · intro part hpart hreserved
      have hkept := List.of_mem_filter hpart
      rw [purePosixParts_ofChars] at hpart
      obtain ⟨cs, hcs, rfl⟩ := List.mem_map.mp hpart
      simp only [reservedParts, List.mem_cons, List.not_mem_nil, or_false] at hreserved
      simp only [ne_eq, decide_eq_true_eq] at hkept
      rcases hreserved with h | h | h
      · exact hkept.1 h
      · exact hkept.2 h
      · obtain rfl := ofChars_injective (b := ['.', '.']) h
        exact hdots hcs
  · rintro (h | h)
    · obtain ⟨hbackslash, hcolon, hsegments⟩ := portable_iff.mp h
      have hnil (hin : [] ∈ ref.toList.splitOn '/') : False := by
        apply hsegments [] _ List.mem_cons_self
        rw [splitOn_ofChars]
        exact List.mem_map_of_mem (f := ofChars) hin
      refine ⟨?_, ?_, ?_, ?_, ?_, ?_, ?_⟩
      · exact fun heq => h.ne_nil (by rw [heq]; rfl)
      · exact fun hin => hbackslash (mem_ofChars.mpr hin)
      · intro hhead
        obtain ⟨rest, hrest⟩ := List.head?_eq_some_iff.mp hhead
        exact h.head (by rw [hrest]; rfl)
      · exact fun hin => hcolon (mem_ofChars.mpr hin)
      · exact fun hin => hnil (nil_mem_splitOn hin)
      · apply ofChars_injective
        rw [← purePosixText_ofChars, ← purePosixParts_ofChars, purePosixText_portable h]
      · intro hin
        have hpart : ofChars ['.', '.'] ∈ purePosixParts (ofChars ref.toList) := by
          rw [purePosixParts_ofChars]
          exact List.mem_map_of_mem hin
        rw [purePosixParts_portable h] at hpart
        exact hsegments _ hpart (by decide)
    · obtain heq := ofChars_injective (b := ['.']) h
      rw [heq]
      decide

/-! ## Places -/

theorem foldl_enter {names : List Text} (h : ∀ name ∈ names, IsName name) (directory : List Text) :
    names.foldl enter directory = directory ++ names := by
  induction names generalizing directory with
  | nil => exact (List.append_nil directory).symm
  | cons name names ih =>
    obtain ⟨hname, hnames⟩ := List.forall_mem_cons.mp h
    have hreserved := hname.notReserved
    simp only [reservedParts, List.mem_cons, List.not_mem_nil, or_false, not_or] at hreserved
    have henter : enter directory name = directory ++ [name] := by
      rw [enter, if_neg (by simp [hreserved]), if_neg hreserved.2.2]
    rw [List.foldl_cons, henter, ih hnames, List.append_assoc, List.singleton_append]

/-- A portable reference leads below the root. -/
theorem Portable.inside (h : Portable ref) (root : List Text) : Inside root (place root ref) := by
  obtain ⟨names, hne, hnames, heq⟩ := id h
  refine ⟨names, hne, ?_⟩
  rw [place, if_neg h.head, heq, splitOn_names hne hnames, foldl_enter hnames]

theorem not_portable_dot : ¬ Portable [dot] := by
  intro h
  obtain ⟨-, -, hsegments⟩ := portable_iff.mp h
  exact hsegments [dot] (by decide) (by decide)

/-- The two layers have one notion of a reference, except that one of them takes `"."`. -/
theorem oneNotion_iff (ref : Text) : OneNotion ref ↔ ref ≠ [dot] := by
  constructor
  · rintro h rfl
    exact not_portable_dot (h.source.mp validateSourceRef_dot)
  · intro hdot
    have hsource : validateSourceRef ref = .ok ref ↔ Portable ref := by
      rw [validateSourceRef_ok, or_iff_left hdot]
    refine ⟨?_, hsource, portableRelativePath_some, ?_⟩
    · rw [hsource, portableRelativePath_some]
    · rintro (h | h) root
      · exact (hsource.mp h).inside root
      · exact (portableRelativePath_some.mp h).inside root

/-- `"."` is taken for a source, and is the root itself. -/
theorem dot_is_the_root : validateSourceRef [dot] = .ok [dot] ∧ portableRelativePath [dot] = none ∧
    ¬ Portable [dot] ∧ place [ofChars ['d']] [dot] = [ofChars ['d']] ∧ ¬ OneNotion [dot] :=
  ⟨by decide, by decide, not_portable_dot, by decide,
    fun h => not_portable_dot (h.source.mp validateSourceRef_dot)⟩

end MDRack.Folder
