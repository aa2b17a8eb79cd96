import MDRack.Media.Grouper
import Mathlib.Data.List.Forall2

/-!
# Timed grouping is a faithful partition

* `PassageOf` — a passage is that of a run of atoms: their ids, first start, latest end, joined
  text and token count, flagged exactly when it is over a hard limit.
* `Progress` — the loop has cut off runs that make up the atoms before its index.
* `groupFrom_yields`, `groupTimedAtoms_yields` — a call fails with a category, or on an integer
  that is too long to render, or gives a partition; the final assertions hold.
-/

namespace MDRack.Media

open Json (Value)
open Checks (getOr require)
open Outcome
open Timeline (Starts Ends Before Ordered)

variable {sha256 : String → HexDigest}

/-! ## Integers that enter an identifier -/

/-- Every number of the policy and every atom time can be rendered. -/
def Rendered (policy : TimedChunkingPolicy) (atoms : List (TimedTextAtom sha256)) : Prop :=
  (∀ entry ∈ policy.numbers, Renders entry.2) ∧
    ∀ a ∈ atoms, Renders a.startMs ∧ Renders a.endMs

theorem renders_iff (n : Nat) : Renders n ↔ n < 10 ^ maxIntDigits :=
  Nat.length_toDigits_le_iff (by decide) (by decide)

/-- How a call may fail. -/
def Fails (policy : TimedChunkingPolicy) (atoms : List (TimedTextAtom sha256)) (f : Failure) : Prop :=
  Categorical f ∨ ((∃ message, f = .valueError message) ∧ ¬ Rendered policy atoms)

theorem require_yields (c : Prop) [Decidable c] (code : String) :
    Yields Categorical (fun _ => c) (require c (.timedGrouping code)) := by
  unfold require
  split
  · rename_i h
    exact h
  · exact ⟨_, rfl⟩

theorem canonicalJson_yields (value : Value) :
    Yields (fun f => (∃ message, f = .valueError message) ∧ Json.intsWithin maxIntDigits value = false)
      (fun _ => Json.intsWithin maxIntDigits value = true) (canonicalJson value) := by
  unfold canonicalJson
  split
  · rename_i h
    exact h
  · rename_i h
    exact ⟨⟨_, rfl⟩, by simpa using h⟩

theorem stableMediaId_yields (kind : IdKind) (parts : List Value) :
    Yields (fun f => (∃ message, f = .valueError message) ∧
        Json.intsWithinItems maxIntDigits parts = false)
      (fun _ => Json.intsWithinItems maxIntDigits parts = true) (stableMediaId sha256 kind parts) := by
  have hparts : Json.intsWithin maxIntDigits (.obj [("contract", .str "mdrack.media-id.v1"),
      ("kind", .str kind.name), ("parts", .arr parts)]) = Json.intsWithinItems maxIntDigits parts := by
    simp [Json.intsWithin, Json.intsWithinFields]
  have h := canonicalJson_yields (.obj [("contract", .str "mdrack.media-id.v1"),
    ("kind", .str kind.name), ("parts", .arr parts)])
  rw [hparts] at h
  unfold stableMediaId
  exact h.bind fun _ _ hwithin => hwithin

/-- An atom exists only where its ordinal could be rendered. -/
theorem TimedTextAtom.renders_ordinal (a : TimedTextAtom sha256) : Renders a.ordinal := by
  have h := (stableMediaId_yields .atom
    [.str a.resourceId.text, .str a.producerFingerprint.value, .int a.ordinal]).of_ok a.atom_id_expected
  simp only [Json.intsWithinItems, Json.intsWithin, Bool.true_and, Bool.and_true,
    decide_eq_true_eq] at h
  exact h

theorem passageId_yields (resourceIdentifier : MediaId .resource) (grouperFingerprint : String)
    (ordinal : Nat) (firstAtomId lastAtomId : MediaId .atom) (startMs endMs : Nat)
    (textDigest : String) :
    Yields (fun f => (∃ message, f = .valueError message) ∧
        ¬ (Renders ordinal ∧ Renders startMs ∧ Renders endMs))
      (fun _ => True) (passageId sha256 resourceIdentifier grouperFingerprint ordinal firstAtomId
        lastAtomId startMs endMs textDigest) := by
  refine (stableMediaId_yields .passage _).mono ?_ fun _ _ => trivial
  rintro f ⟨hmessage, h⟩
  refine ⟨hmessage, ?_⟩
  rintro ⟨hordinal, hstart, hend⟩
  unfold Renders at hordinal hstart hend
  simp [Json.intsWithinItems, Json.intsWithin, hordinal, hstart, hend] at h

theorem intsWithinFields_numbers (numbers : List (String × Nat)) :
    Json.intsWithinFields maxIntDigits (numbers.map fun entry => (entry.1, .int entry.2)) =
      decide (∀ entry ∈ numbers, Renders entry.2) := by
  induction numbers with
  | nil => simp [Json.intsWithinFields]
  | cons entry rest ih =>
    rw [List.map_cons, Json.intsWithinFields, ih]
    show (decide (Renders entry.2) && _) = _
    rw [Bool.eq_iff_iff, Bool.and_eq_true, decide_eq_true_eq, decide_eq_true_eq, decide_eq_true_eq,
      List.forall_mem_cons]

theorem intsWithin_fingerprintPayload (policy : TimedChunkingPolicy)
    (fingerprint : Fingerprint .tokenCounter) (tokenCountKind unsplittable : String) :
    Json.intsWithin maxIntDigits (fingerprintPayload policy fingerprint tokenCountKind unsplittable) =
      decide (∀ entry ∈ policy.numbers, Renders entry.2) := by
  have hpolicy : Json.intsWithin maxIntDigits policy.toDict =
      decide (∀ entry ∈ policy.numbers, Renders entry.2) := intsWithinFields_numbers policy.numbers
  have hweights : Json.intsWithin maxIntDigits SCORE_WEIGHTS.toDict = true := by decide
  have hzero : Json.intsWithin maxIntDigits (.int 0) = true := by decide
  have hone : Json.intsWithin maxIntDigits (.int 1) = true := by decide
  have hstr : ∀ s : String, Json.intsWithin maxIntDigits (.str s) = true := fun _ => rfl
  have horder : Json.intsWithin maxIntDigits (.arr [.str "score_desc", .str "token_distance_asc",
      .str "duration_distance_asc", .str "boundary_asc"]) = true := rfl
  unfold fingerprintPayload
  rw [Json.intsWithin]
  simp only [Json.intsWithinFields, hstr, hzero, hone, horder, hpolicy, hweights, Bool.true_and,
    Bool.and_true]

/-! ## One passage -/

/-- The passage of a run of atoms. -/
structure PassageOf (policy : TimedChunkingPolicy) (counter : TokenCounter)
    (run : List (TimedTextAtom sha256)) (p : TimedPassage) : Prop where
  nonempty : run ≠ []
  sources : p.sourceAtomIds = run.map (·.atomId)
  starts : Starts (·.startMs) run p.startMs
  ends : Ends (·.endMs) run p.endMs
  joined : joinAtomTexts run = .ok p.text
  counted : countTokens counter p.text = .ok p.tokenCount.count
  flagged : p.metadata.unsplittable = exceedsHardLimit policy p.tokenCount.count (p.endMs - p.startMs)
  exceeded : p.metadata.hardLimitExceeded = p.metadata.unsplittable

theorem hasVisible_append (a b : String) : hasVisible (a ++ b) = (hasVisible a || hasVisible b) := by
  unfold hasVisible
  rw [String.toList_append, List.any_append]

theorem joinText_visible (value : String) (item : TimedTextAtom sha256) (h : hasVisible value = true) :
    hasVisible (joinText value item) = true := by
  unfold joinText
  split <;> rw [hasVisible_append, h, Bool.true_or]

theorem joinAtomTexts_visible {run : List (TimedTextAtom sha256)} {text : String}
    (h : joinAtomTexts run = .ok text) : hasVisible text = true := by
  cases run with
  | nil => cases h
  | cons first rest =>
    obtain rfl := Except.ok.inj h
    clear h
    have hstart : ∀ value, hasVisible value = true → hasVisible (rest.foldl joinText value) = true := by
      induction rest with
      | nil => exact fun _ h => h
      | cons item rest ih => exact fun value h => ih _ (joinText_visible value item h)
    exact hstart first.text first.text_visible

theorem exists_run_of_mem {policy : TimedChunkingPolicy} {counter : TokenCounter}
    {runs : List (List (TimedTextAtom sha256))} {passages : List TimedPassage}
    (h : List.Forall₂ (PassageOf policy counter) runs passages) {p : TimedPassage}
    (hp : p ∈ passages) : ∃ run ∈ runs, PassageOf policy counter run p := by
  induction h with
  | nil => cases hp
  | cons hfirst _ ih =>
    rcases List.mem_cons.mp hp with rfl | hp
    · exact ⟨_, List.mem_cons_self, hfirst⟩
    · obtain ⟨run, hrun, h⟩ := ih hp
      exact ⟨run, List.mem_cons_of_mem _ hrun, h⟩

theorem TimedPassage.make_ok (passageId : MediaId .passage) (resourceId : MediaId .resource)
    (representationId : MediaId .representation) {startMs endMs : Nat} {text : String}
    (ordinal : Nat) (tokenCount : TokenCount) {sourceAtomIds : List (MediaId .atom)}
    (grouperFingerprint : Fingerprint .grouper) (metadata : PassageMetadata)
    (hTimes : startMs < endMs) (hText : hasVisible text = true) (hSources : sourceAtomIds ≠ [])
    (hUnique : sourceAtomIds.Nodup) :
    TimedPassage.make passageId resourceId representationId startMs endMs text ordinal tokenCount
      sourceAtomIds grouperFingerprint metadata =
    .ok { passageId, resourceId, representationId, startMs, endMs, text, ordinal, tokenCount,
          sourceAtomIds, grouperFingerprint, metadata, starts_before_end := hTimes,
          text_visible := hText, sources_nonempty := hSources, sources_unique := hUnique } := by
  unfold TimedPassage.make
  rw [dif_pos hTimes, dif_pos hText, dif_pos hSources, dif_pos hUnique]

section
variable {atoms : List (TimedTextAtom sha256)} {policy : TimedChunkingPolicy}
  {counter : TokenCounter} {tokenCountKind unsplittable : String}
  {resourceIdentifier : MediaId .resource} {passageRepresentationId : MediaId .representation}
  {grouperFingerprint : Fingerprint .grouper}

/-- Atoms that passed `validateAtoms`, in terms of the whole list. -/
structure Canonical (atoms : List (TimedTextAtom sha256)) : Prop where
  ordered : Ordered (·.startMs) atoms
  unique : (atoms.map (·.atomId)).Nodup
  ordinals : atoms.map (·.ordinal) = List.range atoms.length

theorem Canonical.renders_index (h : Canonical atoms) {i : Nat} (hi : i < atoms.length) : Renders i := by
  have hget : (atoms.map (·.ordinal))[i]? = (List.range atoms.length)[i]? := by rw [h.ordinals]
  rw [List.getElem?_map, List.getElem?_range hi, List.getElem?_eq_getElem hi] at hget
  have hi' : atoms[i].ordinal = i := by simpa using hget
  have := atoms[i].renders_ordinal
  rwa [hi'] at this

/-- A selected boundary gives the passage of its run. -/
theorem passageOf_yields (hatoms : Canonical atoms) (hkind : tokenCountKind ∈ tokenCountKinds)
    {startIndex ordinal : Nat} {first : TimedTextAtom sha256} {selected : SelectedBoundary}
    (hfirst : atoms[startIndex]? = some first) (hordinal : Renders ordinal)
    (hsel : Selects atoms startIndex policy counter first selected) :
    Yields (Fails policy atoms)
      (PassageOf policy counter (atoms.extract startIndex (selected.candidate.endIndex + 1)))
      (passageOf counter tokenCountKind resourceIdentifier passageRepresentationId
        grouperFingerprint (atoms.extract startIndex (selected.candidate.endIndex + 1)) selected
        ordinal) := by
  obtain ⟨hcloses, hflagged, hunsplittable⟩ := hsel
  have hlt : startIndex < selected.candidate.endIndex + 1 := Nat.lt_succ_of_le hcloses.starts
  have hhead := Timeline.extract_head hlt hfirst
  have hjoined := hcloses.joined
  have hlatest := hcloses.latest
  have hsub : (atoms.extract startIndex (selected.candidate.endIndex + 1)).Sublist atoms :=
    (List.take_sublist _ _).trans (List.drop_sublist _ _)
  revert hhead hjoined hlatest hsub
  generalize atoms.extract startIndex (selected.candidate.endIndex + 1) = run
  intro hhead hjoined hlatest hsub
  have hmem : first ∈ run := List.mem_of_head? hhead
  have hne : run ≠ [] := List.ne_nil_of_mem hmem
  have hstarts : Starts (·.startMs) run first.startMs :=
    Timeline.starts_of_ordered (hatoms.ordered.sublist hsub) hhead
  have htimes : first.startMs < selected.candidate.endMs :=
    first.starts_before_end.trans_le (hlatest.le hmem)
  have hunique : (run.map (·.atomId)).Nodup := hatoms.unique.sublist (hsub.map _)
  obtain ⟨last, hlast⟩ : ∃ a, run.getLast? = some a := ⟨_, List.getLast?_eq_getLast_of_ne_nil hne⟩
  unfold passageOf
  rw [hhead, hlast]
  refine ((passageId_yields resourceIdentifier grouperFingerprint.value ordinal first.atomId
    last.atomId first.startMs selected.candidate.endMs _).mono ?_ fun _ h => h).bind
      fun passageIdentifier _ _ => ?_
  · rintro f ⟨hmessage, hrenders⟩
    refine Or.inr ⟨hmessage, fun hall => hrenders ⟨hordinal, ?_, ?_⟩⟩
    · exact (hall.2 first (hsub.subset hmem)).1
    · obtain ⟨⟨a, ha, hend⟩, -⟩ := hlatest
      rw [← hend]
      exact (hall.2 a (hsub.subset ha)).2
  unfold TokenCount.make
  rw [dif_pos hkind]
  show Yields _ _ (TimedPassage.make _ _ _ _ _ _ _ _ _ _ _)
  rw [TimedPassage.make_ok _ _ _ _ _ _ _ htimes (joinAtomTexts_visible hjoined) (by simpa using hne) hunique]
  exact ⟨hne, rfl, hstarts, hlatest, hjoined, hcloses.counted, hunsplittable.trans hflagged,
    hunsplittable.symm⟩

/-! ## The loop -/

/-- The atoms before `index` are cut into runs, each with its passage, and none reaches into what
follows it. -/
structure Progress (atoms : List (TimedTextAtom sha256)) (policy : TimedChunkingPolicy)
    (counter : TokenCounter) (index : Nat) (runs : List (List (TimedTextAtom sha256)))
    (grouped : List TimedPassage) : Prop where
  flat : runs.flatten = atoms.take index
  passages : List.Forall₂ (PassageOf policy counter) runs grouped
  apart : runs.Pairwise (Before (·.startMs) (·.endMs))
  cut : ∀ run ∈ runs, Before (·.startMs) (·.endMs) run (atoms.drop index)

theorem Progress.start : Progress atoms policy counter 0 [] [] where
  flat := rfl
  passages := .nil
  apart := .nil
  cut := by simp

/-- Each run has atoms of its own. -/
theorem Progress.length_le {index : Nat} {runs : List (List (TimedTextAtom sha256))}
    {grouped : List TimedPassage} (h : Progress atoms policy counter index runs grouped) :
    grouped.length ≤ index := by
  have hruns : ∀ {runs : List (List (TimedTextAtom sha256))} {grouped : List TimedPassage},
      List.Forall₂ (PassageOf policy counter) runs grouped → grouped.length ≤ runs.flatten.length := by
    intro runs grouped h
    induction h with
    | nil => exact Nat.zero_le _
    | cons hp _ ih =>
      have := List.length_pos_iff.mpr hp.nonempty
      simp only [List.length_cons, List.flatten_cons, List.length_append]
      omega
  have hlen := hruns h.passages
  rw [h.flat, List.length_take] at hlen
  omega

/-- One pass of the loop. -/
theorem Progress.step (hatoms : Canonical atoms) {startIndex : Nat}
    {runs : List (List (TimedTextAtom sha256))} {grouped : List TimedPassage} {passage : TimedPassage}
    (h : Progress atoms policy counter startIndex runs grouped) {c : BoundaryCandidate}
    (hcloses : Closes atoms startIndex counter c)
    (hpassage : PassageOf policy counter (atoms.extract startIndex (c.endIndex + 1)) passage) :
    Progress atoms policy counter (c.endIndex + 1)
      (runs ++ [atoms.extract startIndex (c.endIndex + 1)]) (grouped ++ [passage]) := by
  have hle : startIndex ≤ c.endIndex + 1 := Nat.le_succ_of_le hcloses.starts
  have happend := Timeline.extract_append_drop atoms hle
  have hnext : ∀ a, (atoms.drop (c.endIndex + 1)).head? = some a → c.endMs ≤ a.startMs := by
    intro a ha
    have hsafe := hcloses.safe
    rw [List.head?_drop] at ha
    simpa [isSafeBoundary, ha] using hsafe
  have hnew : Before (·.startMs) (·.endMs) (atoms.extract startIndex (c.endIndex + 1))
      (atoms.drop (c.endIndex + 1)) :=
    Timeline.before_of_next hcloses.latest (hatoms.ordered.sublist (List.drop_sublist _ _)) hnext
  have hinto : ∀ run ∈ runs, ∀ a ∈ run, ∀ b ∈ atoms.drop startIndex, a.endMs ≤ b.startMs := h.cut
  refine ⟨?_, ?_, ?_, ?_⟩
  · rw [List.flatten_append, h.flat, List.flatten_singleton]
    exact Timeline.take_append_extract atoms hle
  · exact List.rel_append h.passages (.cons hpassage .nil)
  · rw [List.pairwise_append]
    refine ⟨h.apart, List.pairwise_singleton _ _, ?_⟩
    intro run hrun new hnew a ha b hb
    rw [List.mem_singleton.mp hnew] at hb
    refine hinto run hrun a ha b ?_
    rw [← happend]
    exact List.mem_append_left _ hb
  · intro run hrun a ha b hb
    rcases List.mem_append.mp hrun with hrun | hrun
    · refine hinto run hrun a ha b ?_
      rw [← happend]
      exact List.mem_append_right _ hb
    · rw [List.mem_singleton.mp hrun] at ha
      exact hnew a ha b hb

/-- A call partitions its atoms into the runs of its passages. -/
def Partitions (atoms : List (TimedTextAtom sha256)) (policy : TimedChunkingPolicy)
    (counter : TokenCounter) (passages : List TimedPassage) : Prop :=
  ∃ runs : List (List (TimedTextAtom sha256)), runs.flatten = atoms ∧
    List.Forall₂ (PassageOf policy counter) runs passages ∧
    runs.Pairwise (Before (·.startMs) (·.endMs))

theorem groupFrom_yields (hatoms : Canonical atoms) (hkind : tokenCountKind ∈ tokenCountKinds)
    (startIndex : Nat) (grouped : List TimedPassage)
    (h : ∃ runs, Progress atoms policy counter startIndex runs grouped) :
    Yields (Fails policy atoms) (Partitions atoms policy counter)
      (groupFrom atoms policy counter tokenCountKind unsplittable resourceIdentifier
        passageRepresentationId grouperFingerprint startIndex grouped) := by
  fun_induction groupFrom with
  | case1 startIndex grouped hlt failure hfound =>
    have hfirst := List.getElem?_eq_getElem hlt
    exact Or.inl ((findBoundary_yields hfirst).of_error hfound)
  | case2 startIndex grouped hlt selected hfound failure hpassage =>
    have hfirst := List.getElem?_eq_getElem hlt
    have hsel := (findBoundary_yields hfirst).of_ok hfound
    obtain ⟨runs, hprogress⟩ := h
    have hordinal := hatoms.renders_index (hprogress.length_le.trans_lt hlt)
    exact (passageOf_yields hatoms hkind hfirst hordinal hsel).of_error hpassage
  | case3 startIndex grouped hlt selected hfound passage hpassage ih =>
    have hfirst := List.getElem?_eq_getElem hlt
    have hsel := (findBoundary_yields hfirst).of_ok hfound
    obtain ⟨runs, hprogress⟩ := h
    have hordinal := hatoms.renders_index (hprogress.length_le.trans_lt hlt)
    have hof := (passageOf_yields hatoms hkind hfirst hordinal hsel).of_ok hpassage
    exact ih ⟨_, hprogress.step hatoms hsel.closes hof⟩
  | case4 startIndex grouped hge =>
    obtain ⟨runs, hprogress⟩ := h
    refine ⟨runs, ?_, hprogress.passages, hprogress.apart⟩
    rw [hprogress.flat, List.take_of_length_le (Nat.le_of_not_lt hge)]

/-! ## The final assertions -/

theorem Partitions.sources {passages : List TimedPassage} (h : Partitions atoms policy counter passages) :
    passages.flatMap (·.sourceAtomIds) = atoms.map (·.atomId) := by
  obtain ⟨runs, rfl, hruns, -⟩ := h
  induction hruns with
  | nil => rfl
  | cons hp _ ih => rw [List.flatMap_cons, List.flatten_cons, List.map_append, ih, hp.sources]

/-- Passages do not overlap in time. -/
theorem Partitions.apart {passages : List TimedPassage} (h : Partitions atoms policy counter passages) :
    passages.Pairwise fun p q => p.endMs ≤ q.startMs := by
  obtain ⟨runs, -, hruns, hapart⟩ := h
  induction hruns with
  | nil => exact .nil
  | @cons run p runs passages hp hrest ih =>
    obtain ⟨hfirst, hlater⟩ := List.pairwise_cons.mp hapart
    refine List.pairwise_cons.mpr ⟨fun q hq => ?_, ih hlater⟩
    obtain ⟨later, hlater, hq⟩ := exists_run_of_mem hrest hq
    obtain ⟨⟨a, ha, hend⟩, -⟩ := hp.ends
    obtain ⟨⟨b, hb, hstart⟩, -⟩ := hq.starts
    rw [← hend, ← hstart]
    exact hfirst later hlater a ha b hb

theorem outputOverlaps_eq_zero {passages : List TimedPassage}
    (h : passages.Pairwise fun p q => p.endMs ≤ q.startMs) : outputOverlaps passages = 0 := by
  unfold outputOverlaps
  rw [List.countP_eq_zero]
  rintro ⟨p, q⟩ hpair
  have hle : p.endMs ≤ q.startMs := by
    induction passages with
    | nil => cases hpair
    | cons first rest ih =>
      cases rest with
      | nil => simp at hpair
      | cons second rest =>
        obtain ⟨hfirst, hrest⟩ := List.pairwise_cons.mp h
        rcases List.mem_cons.mp (show (p, q) ∈ (first, second) :: (second :: rest).zip rest from hpair)
          with heq | hpair
        · obtain ⟨rfl, rfl⟩ := Prod.mk.inj heq
          exact hfirst _ List.mem_cons_self
        · exact ih hrest hpair
  simpa using hle

/-! ## The call -/

theorem startsInOrder_spec (h : startsInOrder atoms = true) : Ordered (·.startMs) atoms := by
  have hchain : atoms.IsChain fun a b => a.startMs ≤ b.startMs := by
    induction atoms with
    | nil => exact .nil
    | cons first rest ih =>
      cases rest with
      | nil => exact .singleton _
      | cons second rest =>
        have hsplit : (first :: second :: rest).zip (first :: second :: rest).tail =
            (first, second) :: (second :: rest).zip (second :: rest).tail := rfl
        unfold startsInOrder at h
        rw [hsplit, List.all_cons, Bool.and_eq_true] at h
        exact .cons_cons (by simpa using h.1) (ih h.2)
  exact hchain.pairwise

theorem checkAtoms_yields :
    Yields Categorical (fun _ => Canonical atoms) (checkAtoms resourceIdentifier atoms) := by
  cases atoms with
  | nil => exact ⟨.nil, .nil, rfl⟩
  | cons first rest =>
    unfold checkAtoms
    refine (require_yields _ _).bind fun _ _ _ => (require_yields _ _).bind fun _ _ hordinals =>
      (require_yields _ _).bind fun _ _ hunique => (require_yields _ _).mono (fun _ h => h)
        fun _ hordered => ?_
    exact ⟨startsInOrder_spec hordered, hunique, hordinals⟩

theorem validateAtoms_yields (identifier : Option String) :
    Yields Categorical (fun _ => Canonical atoms) (validateAtoms atoms identifier) := by
  have hresource : Yields Categorical (fun _ => True) (resourceOf atoms identifier) := by
    unfold resourceOf
    split
    · exact trivial
    · split
      · exact ⟨_, rfl⟩
      · exact trivial
  have hvalid : ∀ text, Yields Categorical (fun _ => True) (validResource text) := by
    intro text
    unfold validResource
    split
    · exact trivial
    · exact ⟨_, rfl⟩
  exact hresource.bind fun text _ _ => (hvalid text).bind fun _ _ _ =>
    checkAtoms_yields.bind fun _ _ hcanonical => hcanonical

theorem effectiveNormalization_yields (normalization : Option (Fingerprint .normalization)) :
    Yields Categorical (fun _ => True) (effectiveNormalization atoms normalization) := by
  unfold effectiveNormalization
  split
  · split
    · exact ⟨_, rfl⟩
    · exact trivial
  · split
    · exact trivial
    · split
      · exact ⟨_, rfl⟩
      · exact trivial

theorem groupValidated_yields (hatoms : Canonical atoms) (hkind : tokenCountKind ∈ tokenCountKinds)
    (normalization : Fingerprint .normalization) :
    Yields (Fails policy atoms) (fun r => Partitions atoms policy counter r.passages)
      (groupValidated atoms policy counter tokenCountKind unsplittable resourceIdentifier
        normalization) := by
  have hfingerprint : Yields (Fails policy atoms) (fun _ => True)
      (Fingerprint.fromPayload sha256 .grouper
        (fingerprintPayload policy counter.fingerprint tokenCountKind unsplittable)) := by
    refine ((canonicalJson_yields _).mono ?_ fun _ _ => trivial).bind fun _ _ _ => trivial
    rintro f ⟨hmessage, h⟩
    rw [intsWithin_fingerprintPayload] at h
    exact Or.inr ⟨hmessage, fun hall => (of_decide_eq_false h) hall.1⟩
  have hrepresentation : ∀ grouper : String, Yields (Fails policy atoms) (fun _ => True)
      (representationId sha256 resourceIdentifier REPRESENTATION_TIMED_PASSAGE grouper
        normalization.value) := by
    intro grouper
    refine (stableMediaId_yields .representation _).mono ?_ fun _ _ => trivial
    rintro f ⟨-, h⟩
    cases h
  refine hfingerprint.bind fun grouper _ _ => (hrepresentation grouper.value).bind fun _ _ _ =>
    (groupFrom_yields hatoms hkind 0 [] ⟨[], Progress.start⟩).bind fun passages _ hpart => ?_
  -- both assertions hold of a partition
  have hoverlaps : (buildMetrics atoms passages).outputOverlapCount = 0 :=
    outputOverlaps_eq_zero hpart.apart
  simp only [require, hpart.sources, hoverlaps, if_true]
  exact hpart

theorem groupTimedAtoms_yields (tokenCountKind : String) (identifier : Option String)
    (normalization : Option (Fingerprint .normalization)) (unsplittable : String) :
    Yields (Fails policy atoms)
      (fun r => Canonical atoms ∧ Partitions atoms policy counter r.passages)
      (groupTimedAtoms atoms policy counter tokenCountKind identifier normalization unsplittable) := by
  have hcategorical : ∀ {α : Type} {post : α → Prop} {x : Except Failure α},
      Yields Categorical post x → Yields (Fails policy atoms) post x :=
    fun h => h.mono (fun _ hf => Or.inl hf) fun _ hp => hp
  refine (hcategorical (require_yields _ _)).bind fun _ _ _ =>
    (hcategorical (require_yields _ _)).bind fun _ _ _ =>
    (hcategorical (require_yields _ _)).bind fun _ _ hkind =>
    (hcategorical (validateAtoms_yields identifier)).bind fun resource _ hatoms =>
    (hcategorical (effectiveNormalization_yields normalization)).bind fun effective _ _ => ?_
  exact (groupValidated_yields hatoms hkind effective).mono (fun _ h => h) fun _ h => ⟨hatoms, h⟩

end

/-! ## The partition law -/

theorem hasVisible_mediaId {kind : IdKind} (id : MediaId kind) : hasVisible id.text = true := by
  have h := id.wf
  simp only [isMediaId, isFramed, Bool.and_eq_true, List.isPrefixOf_iff_prefix] at h
  obtain ⟨⟨rest, hrest⟩, -⟩ := h
  unfold hasVisible
  rw [← hrest, List.any_append]
  cases kind <;> rfl

theorem validateMediaId_text {kind : IdKind} (id : MediaId kind) (fieldName : String) :
    validateMediaId id.text fieldName kind = .ok id := by
  unfold validateMediaId
  rw [if_neg (by simp [hasVisible_mediaId id]), dif_pos id.wf]

theorem validResource_text (id : MediaId .resource) : validResource id.text = .ok id := by
  unfold validResource
  rw [validateMediaId_text]

theorem validateAtoms_nil (id : MediaId .resource) :
    validateAtoms ([] : List (TimedTextAtom sha256)) (some id.text) = .ok id := by
  show (validResource id.text >>= fun resource => .ok resource) = _
  rw [validResource_text]
  rfl

theorem checkAtoms_of {first : TimedTextAtom sha256} {rest : List (TimedTextAtom sha256)}
    {resourceIdentifier : MediaId .resource}
    (hsame : ∀ item ∈ first :: rest, item.resourceId = resourceIdentifier ∧
      item.producerFingerprint = first.producerFingerprint ∧
      item.normalizationFingerprint = first.normalizationFingerprint)
    (hordinals : (first :: rest).map (·.ordinal) = List.range (first :: rest).length)
    (hunique : ((first :: rest).map (·.atomId)).Nodup)
    (hordered : startsInOrder (first :: rest) = true) :
    checkAtoms resourceIdentifier (first :: rest) = .ok () := by
  unfold checkAtoms
  simp only [require, if_pos hsame, if_pos hordinals, if_pos hunique, if_pos hordered]
  rfl

theorem validateAtoms_of_checked {first : TimedTextAtom sha256} {rest : List (TimedTextAtom sha256)}
    (h : checkAtoms first.resourceId (first :: rest) = .ok ()) :
    validateAtoms (first :: rest) none = .ok first.resourceId := by
  show (validResource first.resourceId.text >>= _) = _
  rw [validResource_text]
  show (checkAtoms first.resourceId (first :: rest) >>= _) = _
  rw [h]
  rfl

theorem groupTimedAtoms_of_valid {atoms : List (TimedTextAtom sha256)} {policy : TimedChunkingPolicy}
    {counter : TokenCounter} {tokenCountKind unsplittable : String} {identifier : Option String}
    {fingerprint : Option (Fingerprint .normalization)} {resourceIdentifier : MediaId .resource}
    {normalization : Fingerprint .normalization} (hoverlap : policy.overlapAtoms = 0)
    (hpolicy : unsplittable ∈ UNSPLITTABLE_POLICIES) (hkind : tokenCountKind ∈ tokenCountKinds)
    (hatoms : validateAtoms atoms identifier = .ok resourceIdentifier)
    (hnormalization : effectiveNormalization atoms fingerprint = .ok normalization) :
    groupTimedAtoms atoms policy counter tokenCountKind identifier fingerprint unsplittable =
      groupValidated atoms policy counter tokenCountKind unsplittable resourceIdentifier
        normalization := by
  unfold groupTimedAtoms
  simp only [require, if_pos hoverlap, if_pos hpolicy, if_pos hkind, hatoms, hnormalization]
  rfl

/-- A failure of the loop is the failure of the call. -/
theorem groupValidated_of_loop_error {atoms : List (TimedTextAtom sha256)}
    {policy : TimedChunkingPolicy} {counter : TokenCounter} {tokenCountKind unsplittable : String}
    {resourceIdentifier : MediaId .resource} {normalization : Fingerprint .normalization}
    {failure : Failure} (hnumbers : ∀ entry ∈ policy.numbers, Renders entry.2)
    (hloop : ∀ representation grouper, groupFrom atoms policy counter tokenCountKind unsplittable
      resourceIdentifier representation grouper 0 [] = .error failure) :
    groupValidated atoms policy counter tokenCountKind unsplittable resourceIdentifier
      normalization = .error failure := by
  have hpayload : Json.intsWithin maxIntDigits
      (fingerprintPayload policy counter.fingerprint tokenCountKind unsplittable) = true := by
    rw [intsWithin_fingerprintPayload, decide_eq_true hnumbers]
  obtain ⟨grouper, hgrouper⟩ : ∃ grouper, Fingerprint.fromPayload sha256 .grouper
      (fingerprintPayload policy counter.fingerprint tokenCountKind unsplittable) = .ok grouper := by
    unfold Fingerprint.fromPayload canonicalJson
    rw [if_pos hpayload]
    exact ⟨_, rfl⟩
  obtain ⟨representation, hrepresentation⟩ : ∃ id, representationId sha256 resourceIdentifier
      REPRESENTATION_TIMED_PASSAGE grouper.value normalization.value = .ok id := ⟨_, rfl⟩
  unfold groupValidated
  simp only [hgrouper, ok_bind, hrepresentation, hloop, error_bind]

/-! ## Limits that cannot be rendered -/

theorem groupValidated_oversized {atoms : List (TimedTextAtom sha256)} {policy : TimedChunkingPolicy}
    (h : ¬ ∀ entry ∈ policy.numbers, Renders entry.2) (counter : TokenCounter)
    (tokenCountKind unsplittable : String) (resourceIdentifier : MediaId .resource)
    (normalization : Fingerprint .normalization) :
    groupValidated atoms policy counter tokenCountKind unsplittable resourceIdentifier normalization =
      .error (.valueError "Exceeds the limit (4300 digits) for integer string conversion") := by
  have hpayload : canonicalJson
      (fingerprintPayload policy counter.fingerprint tokenCountKind unsplittable) =
      .error (.valueError "Exceeds the limit (4300 digits) for integer string conversion") := by
    unfold canonicalJson
    rw [intsWithin_fingerprintPayload, decide_eq_false h]
    rfl
  unfold groupValidated Fingerprint.fromPayload
  show ((canonicalJson _ >>= _) >>= _) = _
  rw [hpayload]
  rfl

/-- Default limits, with another hard token limit. -/
def policyWithHardMax (hardMaxTokens : Nat) (h : 480 ≤ hardMaxTokens) : TimedChunkingPolicy where
  softMinTokens := 180
  targetTokens := 320
  softMaxTokens := 480
  hardMaxTokens := hardMaxTokens
  softMinDurationMs := 20000
  targetDurationMs := 60000
  softMaxDurationMs := 90000
  hardMaxDurationMs := 120000
  mediumPauseMs := 700
  strongPauseMs := 1500
  overlapAtoms := 0
  tokens_positive := by omega
  durations_positive := by omega
  tokens_ordered := ⟨by omega, by omega, h⟩
  durations_ordered := by omega
  pauses_ordered := by omega

def zeroDigest : HexDigest :=
  ⟨"0000000000000000000000000000000000000000000000000000000000000000", by decide⟩

def oneCounter : TokenCounter := ⟨Fingerprint.ofDigest .tokenCounter zeroDigest, fun _ => .int 1⟩

def zeroResource : MediaId .resource := MediaId.ofDigest .resource zeroDigest

theorem groupTimedAtoms_oversized {n : Nat} (h : 480 ≤ n) (hn : ¬ Renders n) :
    groupTimedAtoms ([] : List (TimedTextAtom fun _ => zeroDigest)) (policyWithHardMax n h) oneCounter
      "exact" (some zeroResource.text) (some (Fingerprint.ofDigest .normalization zeroDigest)) "reject" =
    .error (.valueError "Exceeds the limit (4300 digits) for integer string conversion") := by
  have hover : ¬ ∀ entry ∈ (policyWithHardMax n h).numbers, Renders entry.2 :=
    fun hall => hn (hall ("hard_max_tokens", n)
      (by simp [TimedChunkingPolicy.numbers, policyWithHardMax]))
  unfold groupTimedAtoms
  rw [validateAtoms_nil]
  exact groupValidated_oversized hover _ _ _ _ _

theorem default_soft_max_le : 480 ≤ 10 ^ maxIntDigits :=
  (show 480 ≤ 10 ^ 3 by omega).trans (Nat.pow_le_pow_right (by omega) (by decide))

/-- The smallest hard token limit that the interpreter does not render. -/
def oversizedPolicy : TimedChunkingPolicy :=
  policyWithHardMax (10 ^ maxIntDigits) default_soft_max_le

end MDRack.Media
