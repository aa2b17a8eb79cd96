import MDRack.Media.Unsplittable

/-!
# When the reports of a call are truthful

A `Call` visits starts: the loop reaches them with the passages grouped so far.  At each start the
report is truthful exactly when the scan keeps a legal end if there is one (`truthful_iff`).  Where
that holds at every visited start, a partition of all atoms into legal passages excludes every
report (`unreported_of_partition`).
-/

namespace MDRack.Media

open Json (Value)
open Checks (getOr require)
open Outcome
open Timeline (Starts Ends Before Ordered)

variable {sha256 : String → HexDigest}

/-- The arguments of `group_timed_atoms`. -/
structure Call (sha256 : String → HexDigest) where
  atoms : List (TimedTextAtom sha256)
  policy : TimedChunkingPolicy
  counter : TokenCounter
  tokenCountKind : String
  resourceIdentifier : Option String
  normalization : Option (Fingerprint .normalization)
  unsplittable : String

namespace Call

def result (call : Call sha256) : Except Failure (TimedGroupingResult sha256) :=
  groupTimedAtoms call.atoms call.policy call.counter call.tokenCountKind call.resourceIdentifier
    call.normalization call.unsplittable

def find (call : Call sha256) (startIndex : Nat) : Except Failure SelectedBoundary :=
  findBoundary call.atoms startIndex call.policy call.counter call.unsplittable

/-- What the call has computed when it enters the loop. -/
structure Enters (call : Call sha256) (resourceIdentifier : MediaId .resource)
    (representation : MediaId .representation) (grouper : Fingerprint .grouper) : Prop where
  validated : validateAtoms call.atoms call.resourceIdentifier = .ok resourceIdentifier
  fingerprinted : Fingerprint.fromPayload sha256 .grouper (fingerprintPayload call.policy
    call.counter.fingerprint call.tokenCountKind call.unsplittable) = .ok grouper
  represented : ∃ normalization, effectiveNormalization call.atoms call.normalization =
      .ok normalization ∧
    representationId sha256 resourceIdentifier REPRESENTATION_TIMED_PASSAGE grouper.value
      normalization.value = .ok representation
  supported : call.policy.overlapAtoms = 0 ∧ call.unsplittable ∈ UNSPLITTABLE_POLICIES ∧
    call.tokenCountKind ∈ tokenCountKinds

section
variable (call : Call sha256) (resourceIdentifier : MediaId .resource)
  (representation : MediaId .representation) (grouper : Fingerprint .grouper)

def passage (startIndex : Nat) (selected : SelectedBoundary) (ordinal : Nat) :
    Except Failure TimedPassage :=
  passageOf call.counter call.tokenCountKind resourceIdentifier representation grouper
    (call.atoms.extract startIndex (selected.candidate.endIndex + 1)) selected ordinal

def loop (startIndex : Nat) (grouped : List TimedPassage) : Except Failure (List TimedPassage) :=
  groupFrom call.atoms call.policy call.counter call.tokenCountKind call.unsplittable
    resourceIdentifier representation grouper startIndex grouped

/-- The values that `start_index` and `grouped` take. -/
inductive Visits : Nat → List TimedPassage → Prop
  | enter (h : call.Enters resourceIdentifier representation grouper) : Visits 0 []
  | next {startIndex : Nat} {grouped : List TimedPassage} {selected : SelectedBoundary}
      {passage : TimedPassage} (h : Visits startIndex grouped) (hlt : startIndex < call.atoms.length)
      (hfound : call.find startIndex = .ok selected)
      (hpassage : call.passage resourceIdentifier representation grouper startIndex selected
        grouped.length = .ok passage) :
      Visits (selected.candidate.endIndex + 1) (grouped ++ [passage])

end

theorem Visits.enters {call : Call sha256} {resourceIdentifier : MediaId .resource}
    {representation : MediaId .representation} {grouper : Fingerprint .grouper} {startIndex : Nat}
    {grouped : List TimedPassage}
    (h : call.Visits resourceIdentifier representation grouper startIndex grouped) :
    call.Enters resourceIdentifier representation grouper := by
  induction h with
  | enter h => exact h
  | next _ _ _ _ ih => exact ih

/-- The loop scans from this start. -/
def ScansFrom (call : Call sha256) (startIndex : Nat) : Prop :=
  startIndex < call.atoms.length ∧ ∃ resourceIdentifier representation grouper grouped,
    call.Visits resourceIdentifier representation grouper startIndex grouped

/-- A legal end from a start. -/
def HasLegalEnd (call : Call sha256) (startIndex : Nat) : Prop :=
  ∃ first, call.atoms[startIndex]? = some first ∧
    ∃ c, LegalEnd call.atoms startIndex call.policy call.counter first c

/-- A legal end from a start that the scan keeps. -/
def KeepsLegalEnd (call : Call sha256) (startIndex : Nat) : Prop :=
  ∃ first, call.atoms[startIndex]? = some first ∧
    ∃ c, LegalEnd call.atoms startIndex call.policy call.counter first c ∧
      Collects call.atoms startIndex call.policy call.counter first c

/-- A report of this start says what is so. -/
def Truthful (call : Call sha256) (startIndex : Nat) : Prop :=
  Reports (call.find startIndex) → ¬ call.HasLegalEnd startIndex

theorem reports_iff {call : Call sha256} (hcounts : CountsRuns call.atoms call.counter)
    {startIndex : Nat} (hlt : startIndex < call.atoms.length) :
    Reports (call.find startIndex) ↔ ¬ call.KeepsLegalEnd startIndex := by
  have hfirst := List.getElem?_eq_getElem hlt
  have h : Reports (call.find startIndex) ↔ _ := findBoundary_reports_iff hcounts hfirst
  rw [h]
  constructor
  · rintro hnone ⟨first, hfirst', c, hlegal, hcollects⟩
    obtain rfl := Option.some.inj (hfirst.symm.trans hfirst')
    exact hnone c hlegal hcollects
  · intro hnone c hlegal hcollects
    exact hnone ⟨_, hfirst, c, hlegal, hcollects⟩

/-- At each start: truthful exactly when the scan keeps a legal end if there is one. -/
theorem truthful_iff {call : Call sha256} (hcounts : CountsRuns call.atoms call.counter)
    {startIndex : Nat} (hlt : startIndex < call.atoms.length) :
    call.Truthful startIndex ↔ (call.HasLegalEnd startIndex → call.KeepsLegalEnd startIndex) := by
  unfold Truthful
  rw [reports_iff hcounts hlt]
  constructor
  · intro h hlegal
    by_contra hnone
    exact h hnone hlegal
  · exact fun h hnone hlegal => hnone (h hlegal)

/-! ## Where an outward report comes from -/

theorem passage_unrejected (call : Call sha256) (resourceIdentifier : MediaId .resource)
    (representation : MediaId .representation) (grouper : Fingerprint .grouper) (startIndex : Nat)
    (selected : SelectedBoundary) (ordinal : Nat) :
    Yields (· ≠ rejected) (fun p => p.metadata.hardLimitExceeded = selected.hardLimitExceeded ∧
        p.sourceAtomIds =
          (call.atoms.extract startIndex (selected.candidate.endIndex + 1)).map (·.atomId))
      (call.passage resourceIdentifier representation grouper startIndex selected ordinal) := by
  refine (getOr_unrejected _).bind fun first _ _ => (getOr_unrejected _).bind fun last _ _ => ?_
  refine ((passageId_yields resourceIdentifier grouper.value ordinal first.atomId last.atomId
    first.startMs selected.candidate.endMs _).mono ?_ fun _ h => h).bind fun _ _ _ => ?_
  · rintro f ⟨⟨message, rfl⟩, -⟩
    simp [rejected]
  have hcount : Yields (· ≠ rejected) (fun _ => True)
      (TokenCount.make selected.candidate.tokenCount call.tokenCountKind call.counter.fingerprint) := by
    unfold TokenCount.make
    split <;> simp [rejected]
  refine hcount.bind fun tokenCount _ _ => ?_
  unfold TimedPassage.make
  split
  · split
    · split
      · split
        · exact ⟨rfl, rfl⟩
        · simp [rejected]
      · simp [rejected]
    · simp [rejected]
  · simp [rejected]

theorem loop_of_find_error {call : Call sha256} {resourceIdentifier : MediaId .resource}
    {representation : MediaId .representation} {grouper : Fingerprint .grouper} {startIndex : Nat}
    {grouped : List TimedPassage} {failure : Failure} (hlt : startIndex < call.atoms.length)
    (hfind : call.find startIndex = .error failure) :
    call.loop resourceIdentifier representation grouper startIndex grouped = .error failure := by
  unfold loop
  unfold find at hfind
  rw [groupFrom, dif_pos hlt]
  split
  · rename_i failure' hfound
    rw [hfind] at hfound
    cases hfound
    rfl
  · rename_i selected hfound
    rw [hfind] at hfound
    cases hfound

/-- A passage comes from a scan: its atoms and its flag are those of the boundary found. -/
def ComesFrom (call : Call sha256) (startIndex : Nat) (p : TimedPassage) : Prop :=
  ∃ selected, call.find startIndex = .ok selected ∧
    p.metadata.hardLimitExceeded = selected.hardLimitExceeded ∧
    p.sourceAtomIds =
      (call.atoms.extract startIndex (selected.candidate.endIndex + 1)).map (·.atomId)

theorem loop_reports {call : Call sha256} {resourceIdentifier : MediaId .resource}
    {representation : MediaId .representation} {grouper : Fingerprint .grouper} {startIndex : Nat}
    {grouped : List TimedPassage}
    (h : call.Visits resourceIdentifier representation grouper startIndex grouped)
    (hgrouped : ∀ p ∈ grouped, ∃ s, call.ScansFrom s ∧ call.ComesFrom s p) :
    Yields (fun f => f = rejected → ∃ s, call.ScansFrom s ∧ call.find s = .error rejected)
      (fun passages => ∀ p ∈ passages, ∃ s, call.ScansFrom s ∧ call.ComesFrom s p)
      (call.loop resourceIdentifier representation grouper startIndex grouped) := by
  unfold loop
  fun_induction groupFrom with
  | case1 startIndex grouped hlt failure hfound =>
    rintro rfl
    exact ⟨startIndex, ⟨hlt, _, _, _, _, h⟩, hfound⟩
  | case2 startIndex grouped hlt selected hfound failure hpassage =>
    rintro rfl
    have hno := (call.passage_unrejected resourceIdentifier representation grouper startIndex
      selected grouped.length).of_error hpassage
    exact absurd rfl hno
  | case3 startIndex grouped hlt selected hfound passage hpassage ih =>
    have hof := (call.passage_unrejected resourceIdentifier representation grouper startIndex
      selected grouped.length).of_ok hpassage
    refine ih (.next h hlt hfound hpassage) ?_
    intro p hp
    rcases List.mem_append.mp hp with hp | hp
    · exact hgrouped p hp
    · rw [List.mem_singleton.mp hp]
      exact ⟨startIndex, ⟨hlt, _, _, _, _, h⟩, selected, hfound, hof⟩
  | case4 => exact hgrouped

theorem require_unrejected (c : Prop) [Decidable c] {e : Failure} (he : e ≠ rejected) :
    Yields (· ≠ rejected) (fun _ => c) (require c e) := by
  unfold require
  split
  · rename_i h
    exact h
  · exact he

theorem validateAtoms_unrejected (atoms : List (TimedTextAtom sha256)) (identifier : Option String) :
    Yields (· ≠ rejected) (fun _ => True) (validateAtoms atoms identifier) := by
  have hresource : Yields (· ≠ rejected) (fun _ => True) (resourceOf atoms identifier) := by
    unfold resourceOf
    split
    · exact trivial
    · split <;> simp [rejected]
  have hvalid : ∀ text, Yields (· ≠ rejected) (fun _ => True) (validResource text) := by
    intro text
    unfold validResource
    split <;> simp [rejected]
  have hcheck : ∀ resource, Yields (· ≠ rejected) (fun _ => True) (checkAtoms resource atoms) := by
    intro resource
    unfold checkAtoms
    split
    · exact trivial
    · exact (require_unrejected _ (by simp [rejected])).bind fun _ _ _ =>
        (require_unrejected _ (by simp [rejected])).bind fun _ _ _ =>
        (require_unrejected _ (by simp [rejected])).bind fun _ _ _ =>
        (require_unrejected _ (by simp [rejected])).mono (fun _ h => h) fun _ _ => trivial
  exact hresource.bind fun text _ _ => (hvalid text).bind fun resource _ _ =>
    (hcheck resource).bind fun _ _ _ => trivial

theorem effectiveNormalization_unrejected (atoms : List (TimedTextAtom sha256))
    (normalization : Option (Fingerprint .normalization)) :
    Yields (· ≠ rejected) (fun _ => True) (effectiveNormalization atoms normalization) := by
  unfold effectiveNormalization
  split
  · split <;> simp [rejected]
  · split
    · exact trivial
    · split <;> simp [rejected]

theorem valueError_unrejected {α : Type} {fails : Failure → Prop} {post : α → Prop}
    {x : Except Failure α} (h : Yields (fun f => (∃ message, f = .valueError message) ∧ fails f) post x) :
    Yields (· ≠ rejected) (fun _ => True) x := by
  refine h.mono ?_ fun _ _ => trivial
  rintro f ⟨⟨message, rfl⟩, -⟩
  simp [rejected]

/-- A rejection, and every passage, come from a start that the loop scans. -/
theorem result_reports (call : Call sha256) :
    Yields (fun f => f = rejected → ∃ s, call.ScansFrom s ∧ call.find s = .error rejected)
      (fun r => ∀ p ∈ r.passages, ∃ s, call.ScansFrom s ∧ call.ComesFrom s p) call.result := by
  have lift : ∀ {α : Type} {post : α → Prop} {x : Except Failure α}, Yields (· ≠ rejected) post x →
      Yields (fun f => f = rejected → ∃ s, call.ScansFrom s ∧ call.find s = .error rejected) post x :=
    fun h => h.mono (fun _ hf heq => absurd heq hf) fun _ hp => hp
  unfold result groupTimedAtoms
  refine (lift (require_unrejected _ (by simp [rejected]))).bind fun _ _ hoverlap =>
    (lift (require_unrejected _ (by simp [rejected]))).bind fun _ _ hpolicy =>
    (lift (require_unrejected _ (by simp [rejected]))).bind fun _ _ hkind =>
    (lift (validateAtoms_unrejected _ _)).bind fun resource hresource _ =>
    (lift (effectiveNormalization_unrejected _ _)).bind fun normalization hnormalization _ => ?_
  have hfingerprint : Yields (· ≠ rejected) (fun _ => True)
      (Fingerprint.fromPayload sha256 .grouper (fingerprintPayload call.policy
        call.counter.fingerprint call.tokenCountKind call.unsplittable)) :=
    (valueError_unrejected (canonicalJson_yields _)).bind fun _ _ _ => trivial
  refine (lift hfingerprint).bind fun grouper hgrouper _ =>
    (lift (valueError_unrejected (stableMediaId_yields .representation _))).bind
      fun representation hrepresentation _ => ?_
  have hvisits : call.Visits resource representation grouper 0 [] :=
    .enter ⟨hresource, hgrouper, ⟨normalization, hnormalization, hrepresentation⟩,
      hoverlap, hpolicy, hkind⟩
  exact (loop_reports hvisits (by simp)).bind fun passages _ hpassages =>
    (lift (require_unrejected _ (by simp [rejected]))).bind fun _ _ _ =>
    (lift (require_unrejected _ (by simp [rejected]))).bind fun _ _ _ => hpassages

/-! ## Partitions into legal passages -/

/-- A run within the hard limits. -/
def InLimits (call : Call sha256) (run : List (TimedTextAtom sha256)) : Prop :=
  ∃ text tokens startMs endMs, joinAtomTexts run = .ok text ∧
    countTokens call.counter text = .ok tokens ∧ Starts (·.startMs) run startMs ∧
    Ends (·.endMs) run endMs ∧ exceedsHardLimit call.policy tokens (endMs - startMs) = false

/-- Some partition of all atoms at safe boundaries keeps every passage within the hard limits. -/
def LegallyDivisible (call : Call sha256) : Prop :=
  ∃ runs : List (List (TimedTextAtom sha256)), runs.flatten = call.atoms ∧
    (∀ run ∈ runs, call.InLimits run) ∧ runs.Pairwise (Before (·.startMs) (·.endMs))

/-- Where a legal partition exists, every start has a legal end: what is left of the part that
holds the start. -/
theorem hasLegalEnd_of_partition {call : Call sha256}
    (hcounts : CountsRuns call.atoms call.counter) (hdivisible : call.LegallyDivisible)
    {startIndex : Nat} (hlt : startIndex < call.atoms.length) : call.HasLegalEnd startIndex := by
  obtain ⟨runs, hflat, hlimits, hapart⟩ := hdivisible
  obtain ⟨first, hfirst⟩ : ∃ a, call.atoms[startIndex]? = some a := ⟨_, List.getElem?_eq_getElem hlt⟩
  have hsplit : runs.flatten = call.atoms.take startIndex ++ call.atoms.drop startIndex := by
    rw [hflat, List.take_append_drop]
  have hrest : call.atoms.drop startIndex ≠ [] := by
    rw [Ne, List.drop_eq_nil_iff]
    omega
  obtain ⟨run, hrun, before, after, later, hparts, hne, hdrop, hbefore⟩ :=
    Timeline.part_at_cut hapart hsplit hrest
  obtain ⟨text, n, s, t, hjoined, hcounted, hstarts, hends, hwithin⟩ := hlimits run hrun
  have hpos := List.length_pos_iff.mpr hne
  have hhead : after.head? = some first := by
    rw [← hfirst, ← List.head?_drop, hdrop]
    exact (List.head?_append_of_ne_nil after hne).symm
  have hsub : after ⊆ run := hparts ▸ List.subset_append_right before after
  obtain ⟨endMs, hafter⟩ : ∃ t, Ends (fun a : TimedTextAtom sha256 => a.endMs) after t :=
    Timeline.exists_ends hne
  -- the end index of what is left
  have hextract : call.atoms.extract startIndex (startIndex + after.length - 1 + 1) = after := by
    have hsub1 : startIndex + after.length - 1 + 1 - startIndex = after.length := by omega
    show (call.atoms.drop startIndex).take (startIndex + after.length - 1 + 1 - startIndex) = after
    rw [hsub1, hdrop, List.take_left]
  have hlength : startIndex + after.length ≤ call.atoms.length := by
    have hlen := congrArg List.length hdrop
    rw [List.length_drop, List.length_append] at hlen
    omega
  obtain ⟨c, -, hreads⟩ := candidate_of_counts call.policy hcounts hfirst
    (startIndex + after.length - 1) (by omega) (by omega) endMs false
  have hsafe : isSafeBoundary call.atoms (startIndex + after.length - 1) endMs = true := by
    unfold isSafeBoundary
    cases hnext : call.atoms[startIndex + after.length - 1 + 1]? with
    | none => rfl
    | some next =>
      have hmem : next ∈ later := by
        have hindex : startIndex + after.length - 1 + 1 = startIndex + (after.length + 0) := by omega
        rw [hindex, ← List.getElem?_drop, hdrop, List.getElem?_append_right (by omega)] at hnext
        exact List.mem_of_getElem? hnext
      obtain ⟨⟨a, ha, rfl⟩, -⟩ := hafter
      simpa using hbefore a ha next hmem
  have hcloses : Closes call.atoms startIndex call.counter c :=
    hreads.closes (by omega) (by omega) (by rwa [hextract]) hsafe
  refine ⟨first, hfirst, c, hcloses, ?_⟩
  -- the rest of a legal part is within the limits of the part
  have hinfix : run <:+: call.atoms := hflat ▸ Timeline.infix_flatten hrun
  obtain ⟨m, n', hm, hn', hmn⟩ := hcounts hinfix (hparts ▸ (List.suffix_append before after).isInfix)
    (hextract ▸ hreads.joined) hjoined
  rw [hreads.counted] at hm
  rw [hcounted] at hn'
  cases hm
  cases hn'
  have htime : c.endMs ≤ t := by
    rw [hreads.time]
    exact hafter.mono hends hsub
  have hstart : s ≤ first.startMs := hstarts.2 ⟨first, hsub (List.mem_of_head? hhead), rfl⟩
  simp only [Overruns, exceedsHardLimit, Bool.or_eq_false_iff, decide_eq_false_iff_not] at hwithin ⊢
  omega

theorem scans_of_rejected {call : Call sha256} (h : call.result = .error rejected) :
    ∃ s, call.ScansFrom s ∧ call.find s = .error rejected := call.result_reports.of_error h rfl

theorem ScansFrom.zero {call : Call sha256} {s : Nat} (h : call.ScansFrom s) : call.ScansFrom 0 := by
  obtain ⟨hlt, resource, representation, grouper, grouped, hvisits⟩ := h
  exact ⟨by omega, resource, representation, grouper, [], .enter hvisits.enters⟩

/-- The run law: the reports are truthful at every start scanned exactly when the scan keeps a legal
end at each of these that has one.  Every rejection and every flag comes from a start scanned, and
under that condition a legal partition of all atoms excludes both. -/
theorem reports_truthful_iff_kept (call : Call sha256) (hcounts : CountsRuns call.atoms call.counter) :
    ((∀ s, call.ScansFrom s → call.Truthful s) ↔
      ∀ s, call.ScansFrom s → call.HasLegalEnd s → call.KeepsLegalEnd s) ∧
    (call.result = .error rejected → ∃ s, call.ScansFrom s ∧ call.find s = .error rejected) ∧
    (∀ r, call.result = .ok r → ∀ p ∈ r.passages, ∃ s, call.ScansFrom s ∧ call.ComesFrom s p) ∧
    ((∀ s, call.ScansFrom s → call.HasLegalEnd s → call.KeepsLegalEnd s) → call.LegallyDivisible →
      call.result ≠ .error rejected ∧
      ∀ r, call.result = .ok r → ∀ p ∈ r.passages, p.metadata.hardLimitExceeded = false) := by
  have hpassages : ∀ r, call.result = .ok r → ∀ p ∈ r.passages,
      ∃ s, call.ScansFrom s ∧ call.ComesFrom s p :=
    fun r h => call.result_reports.of_ok h
  refine ⟨?_, scans_of_rejected, hpassages, fun hkeeps hdivisible => ?_⟩
  · exact ⟨fun h s hs => (truthful_iff hcounts hs.1).mp (h s hs),
      fun h s hs => (truthful_iff hcounts hs.1).mpr (h s hs)⟩
  have hunreported : ∀ s, call.ScansFrom s → ¬ Reports (call.find s) := fun s hs =>
    fun hreports => (reports_iff hcounts hs.1).mp hreports
      (hkeeps s hs (hasLegalEnd_of_partition hcounts hdivisible hs.1))
  constructor
  · intro h
    obtain ⟨s, hs, hfind⟩ := scans_of_rejected h
    refine hunreported s hs ?_
    rw [hfind]
    rfl
  · intro r h p hp
    obtain ⟨s, hs, selected, hfind, hflag, -⟩ := hpassages r h p hp
    cases hflagged : p.metadata.hardLimitExceeded with
    | false => rfl
    | true =>
      refine absurd ?_ (hunreported s hs)
      rw [hfind]
      exact hflag.symm.trans hflagged

/-! ## A chain of overlaps that begins past a legal end

Three atoms: the first ends a legal passage below the soft minimum duration; the other two overlap,
and together with the first they last longer than the hard maximum. -/

theorem crossing_tokens_positive : 1 ≤ 1 := Nat.le_refl 1

theorem crossing_durations_positive : 1 ≤ 3000 := by omega

theorem crossing_tokens_ordered : 1 ≤ 1 ∧ 1 ≤ 2 ∧ 2 ≤ 2 := by omega

theorem crossing_durations_ordered : 3000 ≤ 3000 ∧ 3000 ≤ 4500 ∧ 4500 ≤ 5000 := by omega

theorem crossing_pauses_ordered : 700 ≤ 1500 := by omega

def crossingPolicy : TimedChunkingPolicy where
  softMinTokens := 1
  targetTokens := 1
  softMaxTokens := 2
  hardMaxTokens := 2
  softMinDurationMs := 3000
  targetDurationMs := 3000
  softMaxDurationMs := 4500
  hardMaxDurationMs := 5000
  mediumPauseMs := 700
  strongPauseMs := 1500
  overlapAtoms := 0
  tokens_positive := crossing_tokens_positive
  durations_positive := crossing_durations_positive
  tokens_ordered := crossing_tokens_ordered
  durations_ordered := crossing_durations_ordered
  pauses_ordered := crossing_pauses_ordered

def zeroProducer : Fingerprint .producer := Fingerprint.ofDigest .producer zeroDigest

/-- The text that is hashed for the id of an atom. -/
def atomPayload (ordinal : Nat) : Value :=
  .obj [("contract", .str "mdrack.media-id.v1"), ("kind", .str "atom"),
    ("parts", .arr [.str zeroResource.text, .str zeroProducer.value, .int ordinal])]

/-- SHA-256 on the texts that this call hashes. -/
def crossingSha256 (text : String) : HexDigest :=
  if text = Json.dumps (atomPayload 0) then
    ⟨"79e6a61963fda57f3bed8c4cb89726ff09627054a9e569162309b6047adcf55f", by decide⟩
  else if text = Json.dumps (atomPayload 1) then
    ⟨"8c5593b661bdafad4c381b509bcf99d7302dbbe302c6b6eb244163fabf0fbd1b", by decide⟩
  else if text = Json.dumps (atomPayload 2) then
    ⟨"e3b46194cee00779b59297ef8055b66541b219ad700010628acf89e28891a056", by decide⟩
  else if text = Json.dumps (fingerprintPayload crossingPolicy oneCounter.fingerprint "exact"
      "reject") then
    ⟨"33e55928f83e600ee71115b36f38052f6a5769387641144b24332d0ddd629b66", by decide⟩
  else ⟨"3e3b227faf01f1f0b3e3c7a9d0395c6608ffc34e18c20ce9c420f5e98c8c5324", by decide⟩

theorem atomId_crossing {ordinal : Nat} (h : Renders ordinal) :
    atomId crossingSha256 zeroResource zeroProducer.value ordinal =
      .ok (.ofDigest .atom (crossingSha256 (Json.dumps (atomPayload ordinal)))) := by
  have hwithin : Json.intsWithin maxIntDigits (atomPayload ordinal) = true := by
    unfold Renders at h
    simp [atomPayload, Json.intsWithin, Json.intsWithinFields, Json.intsWithinItems, h]
  unfold atomId stableMediaId canonicalJson
  show ((if Json.intsWithin maxIntDigits (atomPayload ordinal) then _ else _) >>= _) = _
  rw [if_pos hwithin]
  rfl

def crossingAtom (ordinal startMs endMs : Nat) (text : String) (h : Renders ordinal)
    (htimes : startMs < endMs) (htext : hasVisible text = true) : TimedTextAtom crossingSha256 where
  atomId := .ofDigest .atom (crossingSha256 (Json.dumps (atomPayload ordinal)))
  resourceId := zeroResource
  startMs := startMs
  endMs := endMs
  text := text
  ordinal := ordinal
  producerFingerprint := zeroProducer
  normalizationFingerprint := Fingerprint.ofDigest .normalization zeroDigest
  speaker := none
  starts_before_end := htimes
  text_visible := htext
  atom_id_expected := atomId_crossing h

def crossingAtoms : List (TimedTextAtom crossingSha256) :=
  [crossingAtom 0 0 1000 "one" (by decide) (by omega) (by decide),
    crossingAtom 1 1000 4000 "two" (by decide) (by omega) (by decide),
    crossingAtom 2 3000 6000 "three" (by decide) (by omega) (by decide)]

def crossingCall : Call crossingSha256 where
  atoms := crossingAtoms
  policy := crossingPolicy
  counter := oneCounter
  tokenCountKind := "exact"
  resourceIdentifier := none
  normalization := none
  unsplittable := "reject"

theorem oneCounter_counts {sha256 : String → HexDigest} (atoms : List (TimedTextAtom sha256)) :
    CountsRuns atoms oneCounter := fun _ _ _ _ _ _ _ _ => ⟨1, 1, rfl, rfl, le_rfl⟩

theorem crossing_find : crossingCall.find 0 = .error rejected := by
  rfl

theorem crossing_ids : (crossingAtoms.map (·.atomId)).Nodup := by
  have h0 : crossingSha256 (Json.dumps (atomPayload 0)) =
      ⟨"79e6a61963fda57f3bed8c4cb89726ff09627054a9e569162309b6047adcf55f", by decide⟩ := if_pos rfl
  have hne : ∀ {m n : Nat}, m ≠ n → Json.dumps (atomPayload m) ≠ Json.dumps (atomPayload n) := by
    intro m n hmn h
    have := Json.dumps_injective h
    simp only [atomPayload, Value.obj.injEq, List.cons.injEq, Prod.mk.injEq, Value.arr.injEq,
      Value.int.injEq, true_and, and_true] at this
    exact hmn (Int.ofNat.inj this)
  have h1 : crossingSha256 (Json.dumps (atomPayload 1)) =
      ⟨"8c5593b661bdafad4c381b509bcf99d7302dbbe302c6b6eb244163fabf0fbd1b", by decide⟩ := by
    unfold crossingSha256
    rw [if_neg (hne (by omega)), if_pos rfl]
  have h2 : crossingSha256 (Json.dumps (atomPayload 2)) =
      ⟨"e3b46194cee00779b59297ef8055b66541b219ad700010628acf89e28891a056", by decide⟩ := by
    unfold crossingSha256
    rw [if_neg (hne (by omega)), if_neg (hne (by omega)), if_pos rfl]
  simp only [crossingAtoms, crossingAtom, List.map_cons, List.map_nil, h0, h1, h2]
  decide

theorem crossing_checked : checkAtoms zeroResource crossingAtoms = .ok () := by
  have hsame : ∀ item ∈ crossingAtoms, item.resourceId = zeroResource ∧
      item.producerFingerprint = zeroProducer ∧
      item.normalizationFingerprint = Fingerprint.ofDigest .normalization zeroDigest := by
    simp [crossingAtoms, crossingAtom]
  exact checkAtoms_of hsame rfl crossing_ids rfl

theorem crossing_rejected : crossingCall.result = .error rejected := by
  have hfingerprint : ∀ entry ∈ crossingPolicy.numbers, Renders entry.2 := by decide
  have hloop : ∀ resource representation grouper,
      crossingCall.loop resource representation grouper 0 [] = .error rejected :=
    fun _ _ _ => loop_of_find_error (by decide) crossing_find
  have hvalid : crossingCall.result = groupValidated crossingAtoms crossingPolicy oneCounter "exact"
      "reject" zeroResource (Fingerprint.ofDigest .normalization zeroDigest) :=
    groupTimedAtoms_of_valid rfl (by decide) (by decide) (validateAtoms_of_checked crossing_checked) rfl
  rw [hvalid]
  exact groupValidated_of_loop_error hfingerprint (hloop _)
theorem crossing_divisible : crossingCall.LegallyDivisible := by
  have hone : (crossingAtoms.take 1).head? =
      some (crossingAtom 0 0 1000 "one" (by decide) (by omega) (by decide)) := rfl
  have htwo : (crossingAtoms.drop 1).head? =
      some (crossingAtom 1 1000 4000 "two" (by decide) (by omega) (by decide)) := rfl
  refine ⟨[crossingAtoms.take 1, crossingAtoms.drop 1], rfl, ?_, ?_⟩
  · intro run hrun
    rcases List.mem_cons.mp hrun with rfl | hrun
    · exact ⟨"one", 1, 0, 1000, rfl, rfl, Timeline.starts_of_ordered (startsInOrder_spec rfl) hone,
        Timeline.ends_singleton _, rfl⟩
    · obtain rfl := List.mem_singleton.mp hrun
      refine ⟨"two three", 1, 1000, 6000, rfl, rfl, ?_, ?_, rfl⟩
      · exact Timeline.starts_of_ordered (startsInOrder_spec rfl) htwo
      · exact (Timeline.ends_singleton _).append _
  · refine List.pairwise_pair.mpr fun a ha b hb => ?_
    obtain rfl : a = _ := List.mem_singleton.mp ha
    simp only [crossingAtoms, List.drop_succ_cons, List.drop_zero, List.mem_cons,
      List.not_mem_nil, or_false] at hb
    rcases hb with rfl | rfl
    · show 1000 ≤ 1000
      omega
    · show 1000 ≤ 3000
      omega

/-- All atoms divide into legal passages, and the call rejects them. -/
theorem divisible_atoms_rejected : CountsRuns crossingCall.atoms crossingCall.counter ∧
    crossingCall.LegallyDivisible ∧ crossingCall.ScansFrom 0 ∧ crossingCall.HasLegalEnd 0 ∧
    crossingCall.result = .error rejected := by
  have hcounts : CountsRuns crossingCall.atoms crossingCall.counter := oneCounter_counts crossingAtoms
  have hlt : 0 < crossingCall.atoms.length := Nat.succ_pos _
  have hlegal : crossingCall.HasLegalEnd 0 := hasLegalEnd_of_partition hcounts crossing_divisible hlt
  obtain ⟨s, hscans, -⟩ := scans_of_rejected crossing_rejected
  exact ⟨hcounts, crossing_divisible, hscans.zero, hlegal, crossing_rejected⟩

/-- The law at that call. -/
theorem reports_truthful_crossing :
    ((∀ s, crossingCall.ScansFrom s → crossingCall.Truthful s) ↔
      ∀ s, crossingCall.ScansFrom s → crossingCall.HasLegalEnd s → crossingCall.KeepsLegalEnd s) ∧
    crossingCall.result = .error rejected :=
  ⟨(reports_truthful_iff_kept crossingCall (oneCounter_counts crossingAtoms)).1, crossing_rejected⟩

end Call

end MDRack.Media
