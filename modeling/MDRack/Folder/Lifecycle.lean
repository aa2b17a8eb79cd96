import MDRack.Folder.Paths
import MDRack.Lib.Dict
import MDRack.Lib.Sorting

/-!
# Selected-file lifecycle (`mdrack.application.folder_lifecycle`)

The ledger keeps, for each namespace, the last completed outcome of every selected reference.

Principal result: `FolderLifecycle.Descends` is kept by marking an entry unavailable — the ledger
of a run names no resource that the loaded one did not name, except those it ingested.
-/

namespace MDRack.Folder

/-- `sha256:` and 64 hexadecimal digits. -/
def isDigest (text : String) : Bool :=
  let digits := text.toList.drop 7
  "sha256:".toList.isPrefixOf text.toList && digits.length == 64 &&
    digits.all fun c => c.isDigit || ('a' ≤ c && c ≤ 'f')

structure Digest where
  text : String
  valid : isDigest text = true
  deriving DecidableEq

/-- An unavailable file carries a reason, an available one none. -/
inductive Availability
  | available
  | unavailable (reason : String) (nonempty : reason ≠ "")
  deriving DecidableEq

/-- `LifecycleFile`. -/
structure LifecycleFile where
  sourceRef : String
  valid : validSourceRef sourceRef = true
  kind : FileKind
  mediaType : String
  mediaType_ne : mediaType ≠ ""
  resourceId : String
  resourceId_ne : resourceId ≠ ""
  availability : Availability
  sourceHash : Option Digest
  sourceBytes : Option Nat
  deriving DecidableEq

/-- `mark_unavailable`. -/
def markUnavailable (entry : LifecycleFile) : LifecycleFile :=
  { entry with availability := .unavailable "source_missing" (by decide) }

/-- `FolderLifecycle`: entries by namespace and reference. -/
structure FolderLifecycle where
  roots : List (String × List (String × LifecycleFile))

namespace FolderLifecycle

/-- `self._roots.get(namespace, {})`. -/
def root (lifecycle : FolderLifecycle) (nspace : String) : List (String × LifecycleFile) :=
  ((lifecycle.roots.find? fun e => e.1 = nspace).map (·.2)).getD []

/-- `files`. -/
def files (lifecycle : FolderLifecycle) (nspace : String) : List LifecycleFile :=
  (Sorting.sortOn (fun e : String × LifecycleFile => e.1) (lifecycle.root nspace)).map (·.2)

/-- `update`: the ledger afterwards, and whether it changed. -/
def update (lifecycle : FolderLifecycle) (nspace : String) (entry : LifecycleFile) :
    FolderLifecycle × Bool :=
  if (lifecycle.root nspace).find? (fun e => e.1 = entry.sourceRef) =
      some (entry.sourceRef, entry) then (lifecycle, false)
  else
    let files := Dict.upsert entry.sourceRef (fun _ => entry) (lifecycle.root nspace)
    (⟨Dict.upsert nspace (fun _ => files) lifecycle.roots⟩, true)

/-- Every entry has the reference and the resource of a known one. -/
def Descends (known : String → LifecycleFile → Prop) (lifecycle : FolderLifecycle) : Prop :=
  ∀ nspace, ∀ f ∈ lifecycle.files nspace, ∃ k, known nspace k ∧ k.sourceRef = f.sourceRef ∧
    k.resourceId = f.resourceId

variable {lifecycle : FolderLifecycle} {known : String → LifecycleFile → Prop} {nspace other : String}
  {entry f : LifecycleFile}

theorem mem_files : f ∈ lifecycle.files nspace ↔ ∃ ref, (ref, f) ∈ lifecycle.root nspace := by
  simp [files]

theorem root_update (h : (lifecycle.update nspace entry).1 ≠ lifecycle) :
    (lifecycle.update nspace entry).1.root other =
      if other = nspace then Dict.upsert entry.sourceRef (fun _ => entry) (lifecycle.root nspace)
      else lifecycle.root other := by
  unfold update at h ⊢
  split at h
  · exact absurd rfl h
  · rename_i hnew
    rw [if_neg hnew]
    split
    · rename_i heq
      subst heq
      simp only [root, Dict.find?_upsert_self, Option.map_some, Option.getD_some]
    · rename_i hne
      simp only [root, Dict.find?_upsert_other hne]

/-- A stored entry is an old one or the new one. -/
theorem mem_files_update (h : f ∈ (lifecycle.update nspace entry).1.files other) :
    f ∈ lifecycle.files other ∨ other = nspace ∧ f = entry := by
  by_cases hsame : (lifecycle.update nspace entry).1 = lifecycle
  · rw [hsame] at h
    exact .inl h
  · obtain ⟨ref, href⟩ := mem_files.mp h
    rw [root_update hsame] at href
    split at href
    · rename_i heq
      subst heq
      have hall := Dict.all_upsert (d := lifecycle.root other) (k := entry.sourceRef)
        (f := fun _ => entry) (P := fun _ g => (∃ r, (r, g) ∈ lifecycle.root other) ∨ g = entry)
        (fun e he => .inl ⟨e.1, he⟩) (.inr rfl) (fun _ _ => .inr rfl) _ href
      rcases hall with hold | hnew
      · exact .inl (mem_files.mpr hold)
      · exact .inr ⟨rfl, hnew⟩
    · exact .inl (mem_files.mpr ⟨ref, href⟩)

/-- Recording a file whose reference and resource are known. -/
theorem Descends.update (h : Descends known lifecycle)
    (hentry : ∃ k, known nspace k ∧ k.sourceRef = entry.sourceRef ∧ k.resourceId = entry.resourceId) :
    Descends known (lifecycle.update nspace entry).1 := by
  intro other f hf
  rcases mem_files_update hf with hold | ⟨rfl, rfl⟩
  · exact h other f hold
  · exact hentry

end FolderLifecycle

end MDRack.Folder
