import MDRack.Folder.Paths
import MDRack.Lib.Sorting
import MDRack.Lib.Worklist

/-!
# Enumeration of a selected root (`_scan_root`)

The walk over a folder tree collects what it observed, which prefixes it did not enter, and
whether it could read everything.

Principal result: `scanRoot_covers` — after a complete walk every path of the tree was observed or
lies under a blocked prefix.
-/

namespace MDRack.Folder

open Worklist

/-- A name in a directory. -/
structure FileName where
  text : String
  nonempty : text ≠ ""
  noSlash : '/' ∉ text.toList

/-- What the system says about an entry, and what is below it.  A directory may refuse to be
listed, an unreadable entry does not say what it is, and links are not followed. -/
inductive Entry
  | link (entries : List (FileName × Entry))
  | directory (readable : Bool) (entries : List (FileName × Entry))
  | regular
  | special
  | unreadable (entries : List (FileName × Entry))

abbrev Entries := List (FileName × Entry)

/-- A directory as `os.scandir` finds it. -/
structure Listing where
  readable : Bool
  entries : Entries

mutual

def Entry.size : Entry → Nat
  | .directory _ entries => 1 + sizes entries
  | _ => 1

def sizes : Entries → Nat
  | [] => 0
  | (_, e) :: rest => Entry.size e + sizes rest

end

def Entry.contents : Entry → Entries
  | .link entries | .directory _ entries | .unreadable entries => entries
  | .regular | .special => []

/-- A path that exists below some entries. -/
inductive Present : Entries → String → Prop
  | here {entries : Entries} {name : FileName} {e : Entry} (h : (name, e) ∈ entries) :
      Present entries name.text
  | inner {entries : Entries} {name : FileName} {e : Entry} {path : String}
      (h : (name, e) ∈ entries) (hp : Present e.contents path) :
      Present entries (name.text ++ "/" ++ path)

theorem not_present_nil {path : String} : ¬ Present [] path := by
  intro h
  generalize hentries : ([] : Entries) = entries at h
  cases h with
  | here h | inner h =>
    subst hentries
    cases h

/-! ## Results -/

inductive Status
  | added
  | updated
  | skipped
  | failed
  | unprocessed
  | unavailable
  deriving DecidableEq, Repr

/-- `FolderFileResult`; `kind` is `None` for the kind `other`. -/
structure FileResult where
  nspace : String
  sourceRef : String
  kind : Option FileKind
  mediaType : Option String
  status : Status
  reason : Option String
  resourceId : Option String
  modelCalls : Nat
  sourceBytes : Option Nat
  deriving DecidableEq, Repr

/-- A result without a resource. -/
def FileResult.plain (nspace sourceRef : String) (status : Status) (reason : String) : FileResult :=
  ⟨nspace, sourceRef, none, none, status, some reason, none, 0, none⟩

/-- `_Candidate`. -/
structure Candidate where
  nspace : String
  sourceRef : String
  kind : FileKind
  mediaType : String
  deriving DecidableEq, Repr

/-! ## The walk -/

/-- What a visit adds to the collections of the walk. -/
inductive Finding
  | observed (rel : String)
  | blocked (rel : String)
  | incomplete
  | excluded
  | result (r : FileResult)
  | candidate (c : Candidate)
  deriving DecidableEq

/-- The findings of a regular file. -/
def fileFindings (nspace : String) (exclude : List String) (name rel : String) : List Finding :=
  if validSourceRef rel = false then
    [.result (.plain nspace rel .skipped "source_ref_invalid")]
  else if matchesAny rel exclude then [.excluded]
  else match classify name with
    | none => [.result (.plain nspace rel .skipped "unsupported_media_type")]
    | some (kind, mediaType) => [.candidate ⟨nspace, rel, kind, mediaType⟩]

/-- The findings of one entry. -/
def entryFindings (nspace : String) (exclude : List String) (dir : String) (x : FileName × Entry) :
    List Finding :=
  let rel := join dir x.1.text
  .observed rel :: match x.2 with
    | .link _ => [.blocked rel, .result (.plain nspace rel .skipped "link_not_followed")]
    | .directory _ _ => if x.1.text ∈ alwaysIgnored then [.blocked rel] else []
    | .regular => fileFindings nspace exclude x.1.text rel
    | .special => [.result (.plain nspace rel .skipped "not_regular_file")]
    | .unreadable _ => [.incomplete, .result (.plain nspace rel .unprocessed "source_unavailable")]

/-- The directory that an entry pushes. -/
def pushed (dir : String) (x : FileName × Entry) : Option (Listing × String) :=
  match x.2 with
  | .directory readable entries =>
    if x.1.text ∈ alwaysIgnored then none else some (⟨readable, entries⟩, join dir x.1.text)
  | _ => none

/-- The body of the loop over the stack. -/
def visit (nspace : String) (exclude : List String) (x : Listing × String) :
    List Finding × List (Listing × String) :=
  if x.1.readable then
    (x.1.entries.flatMap (entryFindings nspace exclude x.2), x.1.entries.filterMap (pushed x.2))
  else
    ([.incomplete, .result (.plain nspace (if x.2 = "" then "." else x.2) .unprocessed
      "directory_unavailable")], [])

def listingSize (x : Listing × String) : Nat := 1 + sizes x.1.entries

theorem pushed_sizes (dir : String) (entries : Entries) :
    ((entries.filterMap (pushed dir)).map listingSize).sum ≤ sizes entries := by
  induction entries with
  | nil => exact Nat.le_refl 0
  | cons x rest ih =>
    obtain ⟨name, e⟩ := x
    rw [sizes]
    cases hpushed : pushed dir (name, e) with
    | none =>
      rw [List.filterMap_cons_none hpushed]
      omega
    | some item =>
      rw [List.filterMap_cons_some hpushed, List.map_cons, List.sum_cons]
      unfold pushed at hpushed
      split at hpushed
      · rename_i readable entries heq
        split at hpushed
        · cases hpushed
        · cases hpushed
          simp only at heq
          rw [heq, Entry.size]
          exact Nat.add_le_add_left ih _
      · cases hpushed

/-- The walk as a worklist of directories. -/
def walk (nspace : String) (exclude : List String) : Explorer (Listing × String) Finding where
  visit := visit nspace exclude
  size := listingSize
  smaller x := by
    have hsizes := pushed_sizes x.2 x.1.entries
    unfold visit listingSize
    split
    · show ((x.1.entries.filterMap (pushed x.2)).map listingSize).sum < 1 + sizes x.1.entries
      omega
    · exact Nat.add_pos_left Nat.one_pos _

/-- `_ScanOutcome`. -/
structure ScanOutcome where
  candidates : List Candidate
  results : List FileResult
  excluded : Nat
  observedRefs : List String
  blockedPrefixes : List String
  complete : Bool

/-- The findings of a walk, collected. -/
def collectFindings (findings : List Finding) : ScanOutcome where
  candidates := Sorting.sortOn (fun c : Candidate => toLex (c.nspace, c.sourceRef))
    (findings.filterMap fun | .candidate c => some c | _ => none)
  results := Sorting.sortOn
    (fun r : FileResult => toLex (r.nspace, toLex (r.sourceRef, r.reason.getD "")))
    (findings.filterMap fun | .result r => some r | _ => none)
  excluded := findings.countP fun | .excluded => true | _ => false
  observedRefs := findings.filterMap fun | .observed rel => some rel | _ => none
  blockedPrefixes := findings.filterMap fun | .blocked rel => some rel | _ => none
  complete := decide (Finding.incomplete ∉ findings)

/-- `_scan_root`. -/
def scanRoot (nspace : String) (root : Listing) (exclude : List String) : ScanOutcome :=
  collectFindings ((walk nspace exclude).run [(root, "")])

/-! ## What a walk covers -/

section Covers

variable {nspace : String} {exclude : List String} {root listing : Listing}
  {stack : List (Listing × String)} {dir path rel : String} {findings : List Finding}
  {entries : Entries} {readable : Bool}

@[simp] theorem mem_observedRefs :
    rel ∈ (collectFindings findings).observedRefs ↔ Finding.observed rel ∈ findings := by
  simp only [collectFindings, List.mem_filterMap]
  constructor
  · rintro ⟨f, hf, hrel⟩
    split at hrel <;> cases hrel
    exact hf
  · exact fun h => ⟨_, h, rfl⟩

@[simp] theorem mem_blockedPrefixes :
    rel ∈ (collectFindings findings).blockedPrefixes ↔ Finding.blocked rel ∈ findings := by
  simp only [collectFindings, List.mem_filterMap]
  constructor
  · rintro ⟨f, hf, hrel⟩
    split at hrel <;> cases hrel
    exact hf
  · exact fun h => ⟨_, h, rfl⟩

@[simp] theorem complete_iff :
    (collectFindings findings).complete = true ↔ Finding.incomplete ∉ findings := by
  simp [collectFindings]

theorem join_append (dir name path : String) : join dir (name ++ "/" ++ path) =
    join dir name ++ "/" ++ path := by
  unfold join
  split
  · rfl
  · simp [String.append_assoc]

theorem join_ne {name : FileName} : join dir name.text ≠ "" := by
  unfold join
  split
  · exact name.nonempty
  · intro h
    have hlength := congrArg String.length h
    simp at hlength

/-- A directory that a complete walk reaches could be listed. -/
theorem readable_of_reached (hreached : (walk nspace exclude).Reached stack (listing, dir))
    (hcomplete : Finding.incomplete ∉ (walk nspace exclude).run stack) :
    listing.readable = true := by
  by_contra hunreadable
  refine hcomplete (Explorer.mem_run.mpr ⟨_, hreached, ?_⟩)
  simp [walk, visit, hunreadable]

/-- Findings of the entries of a directory that is reached. -/
theorem mem_run_of_entry (hreached : (walk nspace exclude).Reached stack (listing, dir))
    (hreadable : listing.readable = true) {x : FileName × Entry} (hx : x ∈ listing.entries)
    {f : Finding} (hf : f ∈ entryFindings nspace exclude dir x) :
    f ∈ (walk nspace exclude).run stack := by
  refine Explorer.mem_run.mpr ⟨_, hreached, ?_⟩
  change f ∈ (visit nspace exclude (listing, dir)).1
  rw [visit, if_pos hreadable]
  exact List.mem_flatMap.mpr ⟨x, hx, hf⟩

/-- A path below a directory that a complete walk reaches is observed or blocked. -/
theorem walk_covers (hpresent : Present entries path)
    (hreached : (walk nspace exclude).Reached stack (⟨readable, entries⟩, dir))
    (hcomplete : Finding.incomplete ∉ (walk nspace exclude).run stack) :
    Finding.observed (join dir path) ∈ (walk nspace exclude).run stack ∨
      ∃ rel, Finding.blocked rel ∈ (walk nspace exclude).run stack ∧
        isUnderRelativePrefix (join dir path) rel = true := by
  induction hpresent generalizing dir readable with
  | here h =>
    exact .inl (mem_run_of_entry hreached (readable_of_reached hreached hcomplete) h
      List.mem_cons_self)
  | @inner entries name e path h hp ih =>
    have hreadable := readable_of_reached hreached hcomplete
    have hunder := isUnder_join (join dir name.text) path
    rw [join_append]
    cases e with
    | link inner =>
      refine .inr ⟨join dir name.text, mem_run_of_entry hreached hreadable h ?_, hunder⟩
      simp [entryFindings]
    | directory readable' inner =>
      by_cases hignored : name.text ∈ alwaysIgnored
      · refine .inr ⟨join dir name.text, mem_run_of_entry hreached hreadable h ?_, hunder⟩
        simp [entryFindings, hignored]
      · have hpushed : (⟨readable', inner⟩, join dir name.text) ∈
            ((walk nspace exclude).visit (⟨readable, entries⟩, dir)).2 := by
          change _ ∈ (visit nspace exclude (⟨readable, entries⟩, dir)).2
          rw [visit, if_pos hreadable]
          exact List.mem_filterMap.mpr ⟨_, h, by simp [pushed, hignored]⟩
        have hinner := ih (.pushed hreached hpushed)
        rwa [show join (join dir name.text) path = join dir name.text ++ "/" ++ path from
          if_neg join_ne] at hinner
    | regular | special => exact absurd hp not_present_nil
    | unreadable inner =>
      -- such an entry would have made the walk incomplete
      refine absurd (mem_run_of_entry hreached hreadable h ?_) hcomplete
      simp [entryFindings]

/-- After a complete enumeration every path of the tree was observed or is blocked. -/
theorem scanRoot_covers (hcomplete : (scanRoot nspace root exclude).complete = true)
    (hpresent : Present root.entries path) :
    path ∈ (scanRoot nspace root exclude).observedRefs ∨
      ∃ rel ∈ (scanRoot nspace root exclude).blockedPrefixes,
        isUnderRelativePrefix path rel = true := by
  simp only [scanRoot, complete_iff] at hcomplete
  simp only [scanRoot, mem_observedRefs, mem_blockedPrefixes]
  have hcovers := walk_covers hpresent
    (show (walk nspace exclude).Reached [(root, "")] (root, "") from .initial List.mem_cons_self)
    hcomplete
  exact hcovers

end Covers

end MDRack.Folder
