import MDRack.Media.Grouping

/-!
# Which runs are reported unsplittable

`findBoundary` reports a start when it rejects it or flags its passage.  The report is truthful
when no end from that start is legal: a run within the hard limits that no atom crosses.

* `CountsRuns` — the counter never counts fewer tokens for a run of atoms than for a part of it.
* `Collects` — what makes the scan keep a legal end: the soft minimums, a soft maximum, a next atom
  over a hard limit, or the end of the input.
* `findBoundary_reports_iff` — a start is reported exactly when no legal end is one the scan keeps.
  The scan drops a legal end below the soft minimums, so it may report a start that has one.
-/

namespace MDRack.Media

open Checks (getOr require)
open Outcome
open Timeline (Starts Ends Before Ordered)

variable {sha256 : String → HexDigest}

def rejected : Failure := .timedGrouping "unsplittable_hard_limit"

/-- The scan rejects its start, or flags the passage from it. -/
def Reports : Except Failure SelectedBoundary → Prop
  | .ok b => b.hardLimitExceeded = true
  | .error f => f = rejected

/-- The counter counts runs of these atoms, and no part of a run for more than the run. -/
def CountsRuns (atoms : List (TimedTextAtom sha256)) (counter : TokenCounter) : Prop :=
  ∀ ⦃part run : List (TimedTextAtom sha256)⦄ ⦃partText runText : String⦄,
    run <:+: atoms → part <:+: run → joinAtomTexts part = .ok partText →
    joinAtomTexts run = .ok runText →
    ∃ m n, countTokens counter partText = .ok m ∧ countTokens counter runText = .ok n ∧ m ≤ n

section
variable (atoms : List (TimedTextAtom sha256)) (startIndex : Nat) (policy : TimedChunkingPolicy)
  (counter : TokenCounter) (first : TimedTextAtom sha256)

/-- A safe boundary that ends a passage within the hard limits. -/
def LegalEnd (c : BoundaryCandidate) : Prop :=
  Closes atoms startIndex counter c ∧ Overruns first policy c = false

/-- The scan keeps a run that ends here as a candidate. -/
def Collects (c : BoundaryCandidate) : Prop :=
  isEligible policy c.tokenCount (c.endMs - first.startMs) = true ∨
  nextWouldExceedHardLimit atoms startIndex policy counter c.endIndex c.endMs = .ok true ∨
  reachesSoftMax policy c.tokenCount (c.endMs - first.startMs) = true ∨
  atoms[c.endIndex + 1]? = none

end

section
variable {atoms : List (TimedTextAtom sha256)} {startIndex : Nat} {policy : TimedChunkingPolicy}
  {counter : TokenCounter} {unsplittable : String} {first : TimedTextAtom sha256}

/-! ## A scan that holds a candidate never reports -/

theorem joinAtomTexts_unrejected (run : List (TimedTextAtom sha256)) :
    Yields (· ≠ rejected) (fun _ => True) (joinAtomTexts run) := by
  cases run <;> simp [joinAtomTexts, rejected]

theorem countTokens_unrejected (text : String) :
    Yields (· ≠ rejected) (fun _ => True) (countTokens counter text) := by
  unfold countTokens
  split <;> simp [rejected]

theorem getOr_unrejected {α : Type} (o : Option α) :
    Yields (· ≠ rejected) (fun _ => True) (getOr Failure.indexError o) := by
  cases o <;> simp [getOr, rejected]

theorem boundaryScore_unrejected (endIndex tokenCount durationMs endMs : Nat) (risk : Bool) :
    Yields (· ≠ rejected) (fun _ => True)
      (boundaryScore atoms endIndex tokenCount durationMs endMs policy risk) :=
  (getOr_unrejected _).bind fun _ _ _ => trivial

theorem candidate_unrejected (endIndex endMs : Nat) (risk : Bool) :
    Yields (· ≠ rejected) (fun _ => True)
      (candidate atoms startIndex policy counter endIndex endMs risk) :=
  (joinAtomTexts_unrejected _).bind fun _ _ _ => (countTokens_unrejected _).bind fun _ _ _ =>
    (getOr_unrejected _).bind fun _ _ _ => (boundaryScore_unrejected _ _ _ _ _).bind
      fun _ _ _ => trivial

theorem nextWouldExceedHardLimit_unrejected (endIndex endMs : Nat) :
    Yields (· ≠ rejected) (fun _ => True)
      (nextWouldExceedHardLimit atoms startIndex policy counter endIndex endMs) := by
  unfold nextWouldExceedHardLimit
  split
  · exact trivial
  · exact (joinAtomTexts_unrejected _).bind fun _ _ _ => (countTokens_unrejected _).bind
      fun _ _ _ => (getOr_unrejected _).bind fun _ _ _ => trivial

theorem selectCandidate_unrejected (candidates : List BoundaryCandidate) (reason : String) :
    Yields (· ≠ rejected) (fun b => b.hardLimitExceeded = false)
      (selectCandidate candidates reason) := by
  cases candidates <;> simp [selectCandidate, rejected]

/-- One pass keeps the candidates it has, or selects one of them unflagged. -/
def KeepsCandidate : ScanState ⊕ SelectedBoundary → Prop
  | .inl state => state.candidates ≠ []
  | .inr b => b.hardLimitExceeded = false

theorem withCurrent_unrejected (keep hardRisk : Bool) (endIndex endMs : Nat)
    (candidates : List BoundaryCandidate) :
    Yields (· ≠ rejected) (fun cs => (keep = true ∨ candidates ≠ []) → cs ≠ [])
      (withCurrent atoms startIndex policy counter keep hardRisk endIndex endMs candidates) := by
  unfold withCurrent
  cases keep with
  | false => exact fun h => h.resolve_left (by simp)
  | true => exact (candidate_unrejected _ _ _).bind fun _ _ _ => by simp

/-- A kept candidate ends the scan unreported, within a hard limit or over it. -/
theorem withinHardLimit_kept {current : BoundaryCandidate} {durationMs : Nat} {state : ScanState}
    (hsafe : isSafeBoundary atoms current.endIndex current.endMs = true)
    (hkeep : state.candidates ≠ [] ∨
      isEligible policy current.tokenCount durationMs = true ∨
      nextWouldExceedHardLimit atoms startIndex policy counter current.endIndex current.endMs =
        .ok true ∨
      reachesSoftMax policy current.tokenCount durationMs = true ∨
      atoms[current.endIndex + 1]? = none) :
    Yields (· ≠ rejected) KeepsCandidate
      (withinHardLimit atoms startIndex policy counter current durationMs state) := by
  unfold withinHardLimit
  rw [if_neg (by simp [hsafe])]
  refine (nextWouldExceedHardLimit_unrejected _ _).bind fun hardRisk hrisk _ => ?_
  refine (withCurrent_unrejected _ _ _ _ _).bind fun candidates _ hne => ?_
  have hselect : ∀ reason, Yields (· ≠ rejected) KeepsCandidate
      ((selectCandidate candidates reason).map .inr) :=
    fun reason => Yields.map (f := Sum.inr) (selectCandidate_unrejected candidates reason)
  have hne : candidates ≠ [] := by
    apply hne
    rcases hkeep with h | h | h | h | h
    · exact Or.inr h
    · simp [h]
    · rw [h] at hrisk
      simp [← Except.ok.inj hrisk]
    · simp [h]
    · simp [h]
  split
  · exact hselect _
  split
  · exact hselect _
  split
  · exact hselect _
  · exact hne

theorem scanStep_kept {endIndex : Nat} {state : ScanState} (hne : state.candidates ≠ []) :
    Yields (· ≠ rejected) KeepsCandidate
      (scanStep atoms startIndex policy counter unsplittable endIndex state) := by
  refine (getOr_unrejected _).bind fun first _ _ => (getOr_unrejected _).bind fun last _ _ =>
    (candidate_unrejected _ _ _).bind fun current _ _ => ?_
  show Yields _ _ (if exceedsHardLimit policy current.tokenCount _ = true then _ else _)
  split
  · unfold overHardLimit
    obtain ⟨last', hlast'⟩ : ∃ c, state.candidates.getLast? = some c :=
      ⟨_, List.getLast?_eq_getLast_of_ne_nil hne⟩
    simp only [hlast']
    exact (candidate_unrejected _ _ _).bind fun _ _ _ =>
      (selectCandidate_unrejected _ _).bind fun _ _ hunflagged => hunflagged
  · by_cases hsafe : isSafeBoundary atoms current.endIndex current.endMs = true
    · exact withinHardLimit_kept hsafe (Or.inl hne)
    · unfold withinHardLimit
      rw [if_pos (by simpa using hsafe)]
      exact hne

theorem scan_kept (ends : List Nat) {state : ScanState} (hne : state.candidates ≠ []) :
    Yields (· ≠ rejected) (fun b => b.hardLimitExceeded = false)
      (scan atoms startIndex policy counter unsplittable ends state) := by
  induction ends generalizing state with
  | nil =>
    unfold scan
    split <;> simp [rejected]
  | cons endIndex ends ih =>
    refine (scanStep_kept hne).bind fun r _ hr => ?_
    cases r with
    | inl state' => exact ih hr
    | inr b => exact hr

theorem not_reports {x : Except Failure SelectedBoundary}
    (h : Yields (· ≠ rejected) (fun b => b.hardLimitExceeded = false) x) : ¬ Reports x := by
  cases x with
  | ok b =>
    intro hreports
    exact Bool.noConfusion (hreports.symm.trans h)
  | error f => exact h

/-! ## A longer run over a limit -/

/-- Where a run is over a hard limit, every longer run from the same start is. -/
theorem Overruns.mono (hcounts : CountsRuns atoms counter) {c c' : BoundaryCandidate}
    (hc : Closes atoms startIndex counter c) (hc' : Closes atoms startIndex counter c')
    (hle : c.endIndex ≤ c'.endIndex) (hover : Overruns first policy c = true) :
    Overruns first policy c' = true := by
  have hprefix := Timeline.extract_prefix atoms startIndex (Nat.succ_le_succ hle)
  have hend : c.endMs ≤ c'.endMs := hc.latest.mono hc'.latest hprefix.subset
  obtain ⟨m, n, hm, hn, hmn⟩ := hcounts (Timeline.extract_infix atoms _ _) hprefix.isInfix
    hc.joined hc'.joined
  rw [hc.counted] at hm
  rw [hc'.counted] at hn
  cases hm
  cases hn
  simp only [Overruns, exceedsHardLimit, Bool.or_eq_true, decide_eq_true_eq] at hover ⊢
  omega

/-! ## A scan without candidates -/

/-- Candidates that close the same run agree. -/
theorem Closes.agree {c c' : BoundaryCandidate} (hc : Closes atoms startIndex counter c)
    (hc' : Closes atoms startIndex counter c') (hindex : c'.endIndex = c.endIndex) :
    c'.tokenCount = c.tokenCount ∧ c'.endMs = c.endMs := by
  have hjoined := hc'.joined
  rw [hindex, hc.joined] at hjoined
  have hcounted := hc'.counted
  rw [← Except.ok.inj hjoined, hc.counted] at hcounted
  have hlatest := hc'.latest
  rw [hindex] at hlatest
  exact ⟨(Except.ok.inj hcounted).symm, hlatest.unique hc.latest⟩

theorem Collects.agree {c c' : BoundaryCandidate} (hindex : c'.endIndex = c.endIndex)
    (hagree : c'.tokenCount = c.tokenCount ∧ c'.endMs = c.endMs)
    (h : Collects atoms startIndex policy counter first c') :
    Collects atoms startIndex policy counter first c := by
  obtain ⟨hcount, htime⟩ := hagree
  unfold Collects at h ⊢
  rwa [hindex, hcount, htime] at h

/-- With a counter that counts, the candidate of a run exists. -/
theorem candidate_of_counts (policy : TimedChunkingPolicy) (hcounts : CountsRuns atoms counter)
    (hfirst : atoms[startIndex]? = some first) (endIndex : Nat) (hs : startIndex ≤ endIndex)
    (he : endIndex < atoms.length) (endMs : Nat) (risk : Bool) :
    ∃ c, candidate atoms startIndex policy counter endIndex endMs risk = .ok c ∧
      Reads atoms startIndex counter endIndex endMs c := by
  obtain ⟨text, htext⟩ := joinAtomTexts_extract hfirst (endIndex + 1) (Nat.lt_succ_of_le hs)
  obtain ⟨m, _, hm, -, -⟩ := hcounts (Timeline.extract_infix atoms _ _) (List.infix_refl _) htext htext
  obtain ⟨score, hscore⟩ := boundaryScore_ok policy he m (endMs - first.startMs) endMs risk
  have hread : candidate atoms startIndex policy counter endIndex endMs risk =
      .ok ⟨endIndex, text, m, endMs, score.1, score.2.1, score.2.2⟩ := by
    unfold candidate
    rw [htext]
    show (countTokens counter text >>= _) = _
    rw [hm, hfirst]
    show (boundaryScore atoms endIndex m (endMs - first.startMs) endMs policy risk >>= _) = _
    rw [hscore]
    rfl
  exact ⟨_, hread, rfl, rfl, htext, hm⟩

theorem nextWouldExceedHardLimit_of_counts (policy : TimedChunkingPolicy)
    (hcounts : CountsRuns atoms counter) {endIndex : Nat}
    (hfirst : atoms[startIndex]? = some first) (hs : startIndex ≤ endIndex) (endMs : Nat) :
    ∃ risk, nextWouldExceedHardLimit atoms startIndex policy counter endIndex endMs = .ok risk := by
  unfold nextWouldExceedHardLimit
  split
  · exact ⟨_, rfl⟩
  · obtain ⟨text, htext⟩ := joinAtomTexts_extract hfirst (endIndex + 2) (by omega)
    obtain ⟨m, _, hm, -, -⟩ :=
      hcounts (Timeline.extract_infix atoms _ _) (List.infix_refl _) htext htext
    rw [htext, hfirst]
    show ∃ risk, (countTokens counter text >>= _) = _
    rw [hm]
    exact ⟨_, rfl⟩

/-- A legal end that the scan does not keep is passed over. -/
theorem withinHardLimit_dropped (hcounts : CountsRuns atoms counter)
    (hfirst : atoms[startIndex]? = some first) {current : BoundaryCandidate} {state : ScanState}
    (hs : startIndex ≤ current.endIndex)
    (hsafe : isSafeBoundary atoms current.endIndex current.endMs = true)
    (hdrop : ¬ Collects atoms startIndex policy counter first current) :
    withinHardLimit atoms startIndex policy counter current (current.endMs - first.startMs) state =
      .ok (.inl state) := by
  obtain ⟨risk, hrisk⟩ := nextWouldExceedHardLimit_of_counts policy hcounts hfirst hs
    current.endMs
  simp only [Collects, not_or, hrisk, Except.ok.injEq, Bool.not_eq_true] at hdrop
  obtain ⟨heligible, rfl, hsoft, hnext⟩ := hdrop
  have hlast : atoms[current.endIndex + 1]?.isNone = false := by
    simpa [Option.isNone_eq_false_iff, Option.isSome_iff_ne_none] using hnext
  unfold withinHardLimit
  rw [if_neg (by simp [hsafe]), hrisk]
  simp only [heligible, hsoft, hlast]
  rfl

/-- What one pass does when the scan holds no candidate. -/
inductive EmptyStep (atoms : List (TimedTextAtom sha256)) (startIndex : Nat)
    (policy : TimedChunkingPolicy) (counter : TokenCounter) (first : TimedTextAtom sha256)
    (endIndex : Nat) : Except Failure (ScanState ⊕ SelectedBoundary) → Prop
  /-- The run is not legal, or the scan does not keep it. -/
  | passed {state : ScanState} (hempty : state.candidates = [])
      (hdropped : ∀ c, LegalEnd atoms startIndex policy counter first c → c.endIndex = endIndex →
        ¬ Collects atoms startIndex policy counter first c) :
      EmptyStep atoms startIndex policy counter first endIndex (.ok (.inl state))
  | kept {r : Except Failure (ScanState ⊕ SelectedBoundary)} {c : BoundaryCandidate}
      (hlegal : LegalEnd atoms startIndex policy counter first c) (hindex : c.endIndex = endIndex)
      (hcollects : Collects atoms startIndex policy counter first c)
      (hkept : Yields (· ≠ rejected) KeepsCandidate r) :
      EmptyStep atoms startIndex policy counter first endIndex r
  | reported {r : Except Failure SelectedBoundary} {c : BoundaryCandidate}
      (hcloses : Closes atoms startIndex counter c) (hindex : c.endIndex = endIndex)
      (hover : Overruns first policy c = true) (hreports : Reports r) :
      EmptyStep atoms startIndex policy counter first endIndex (r.map .inr)

theorem overHardLimit_empty {endIndex : Nat} {current : BoundaryCandidate} {state : ScanState}
    (hs : startIndex ≤ endIndex) (he : endIndex < atoms.length)
    (hends : Ends (·.endMs) (atoms.extract startIndex (endIndex + 1)) state.endMs)
    (hreads : Reads atoms startIndex counter endIndex state.endMs current)
    (hover : Overruns first policy current = true) (hempty : state.candidates = []) :
    EmptyStep atoms startIndex policy counter first endIndex
      (overHardLimit atoms startIndex policy counter unsplittable current state) := by
  obtain ⟨hindex, htime, -, -⟩ := id hreads
  unfold overHardLimit
  rw [hempty]
  show EmptyStep _ _ _ _ _ _ (if isSafeBoundary atoms current.endIndex current.endMs = false then _ else _)
  by_cases hsafe : isSafeBoundary atoms current.endIndex current.endMs = false
  · rw [if_pos hsafe]
    refine .passed rfl fun c hc hcindex _ => ?_
    -- a legal end at this index would be safe
    have hcends := hc.1.latest
    rw [hcindex] at hcends
    have hcsafe := hc.1.safe
    rw [hcindex, hcends.unique hends, ← hindex, ← htime, hsafe] at hcsafe
    cases hcsafe
  · rw [if_neg hsafe]
    have hcloses : Closes atoms startIndex counter current :=
      hreads.closes hs he hends (by rw [← hindex, ← htime]; simpa using hsafe)
    split
    · exact .reported (r := .error rejected) hcloses hindex hover rfl
    · exact .reported (r := .ok _) hcloses hindex hover rfl

theorem withinHardLimit_empty (hcounts : CountsRuns atoms counter)
    (hfirst : atoms[startIndex]? = some first) {endIndex : Nat} {current : BoundaryCandidate}
    {state : ScanState} (hs : startIndex ≤ endIndex) (he : endIndex < atoms.length)
    (hends : Ends (·.endMs) (atoms.extract startIndex (endIndex + 1)) state.endMs)
    (hreads : Reads atoms startIndex counter endIndex state.endMs current)
    (hwithin : Overruns first policy current = false) (hempty : state.candidates = []) :
    EmptyStep atoms startIndex policy counter first endIndex
      (withinHardLimit atoms startIndex policy counter current (current.endMs - first.startMs) state) := by
  obtain ⟨hindex, htime, -, -⟩ := id hreads
  by_cases hsafe : isSafeBoundary atoms current.endIndex current.endMs = true
  · have hcloses : Closes atoms startIndex counter current :=
      hreads.closes hs he hends (by rwa [← hindex, ← htime])
    by_cases hcollects : Collects atoms startIndex policy counter first current
    · exact .kept ⟨hcloses, hwithin⟩ hindex hcollects (withinHardLimit_kept hsafe (Or.inr hcollects))
    · rw [withinHardLimit_dropped hcounts hfirst (hindex ▸ hs) hsafe hcollects]
      refine .passed hempty fun c hc hcindex h => hcollects ?_
      have hsame : c.endIndex = current.endIndex := hcindex.trans hindex.symm
      exact h.agree hsame (hcloses.agree hc.1 hsame)
  · unfold withinHardLimit
    rw [if_pos (by simpa using hsafe)]
    refine .passed hempty fun c hc hcindex _ => hsafe ?_
    have hcends := hc.1.latest
    rw [hcindex] at hcends
    have hcsafe := hc.1.safe
    rwa [hcindex, hcends.unique hends, ← hindex, ← htime] at hcsafe

theorem scanStep_empty (unsplittable : String) (hcounts : CountsRuns atoms counter)
    (hfirst : atoms[startIndex]? = some first) {endIndex : Nat} (he : endIndex < atoms.length)
    {state : ScanState} (hinv : ScanInv atoms startIndex policy counter first endIndex state)
    (hempty : state.candidates = []) :
    EmptyStep atoms startIndex policy counter first endIndex
      (scanStep atoms startIndex policy counter unsplittable endIndex state) := by
  obtain ⟨last, hlast⟩ : ∃ a, atoms[endIndex]? = some a := ⟨_, List.getElem?_eq_getElem he⟩
  have hends := hinv.latest last hlast
  obtain ⟨current, hcurrent, hreads⟩ := candidate_of_counts policy hcounts hfirst endIndex
    hinv.bound he (max state.endMs last.endMs) false
  have hover : Overruns first policy current = exceedsHardLimit policy current.tokenCount
      (max state.endMs last.endMs - first.startMs) := by
    unfold Overruns
    rw [hreads.time]
  unfold scanStep
  rw [hfirst, hlast]
  show EmptyStep _ _ _ _ _ _ (candidate atoms startIndex policy counter endIndex _ false >>= _)
  rw [hcurrent]
  show EmptyStep _ _ _ _ _ _
    (if exceedsHardLimit policy current.tokenCount (max state.endMs last.endMs - first.startMs) = true
      then _ else _)
  rw [← hover]
  split
  · rename_i h
    exact overHardLimit_empty hinv.bound he hends hreads h hempty
  · rename_i h
    have hwithin : EmptyStep atoms startIndex policy counter first endIndex
        (withinHardLimit atoms startIndex policy counter current (current.endMs - first.startMs)
          { state with endMs := max state.endMs last.endMs }) :=
      withinHardLimit_empty hcounts hfirst hinv.bound he hends hreads (by simpa using h) hempty
    rwa [hreads.time] at hwithin

/-- One pass of a scan without candidates, given what the rest of the scan does. -/
theorem scan_cons_reports_iff (hcounts : CountsRuns atoms counter)
    (hfirst : atoms[startIndex]? = some first) {endIndex : Nat} (he : endIndex < atoms.length)
    {state : ScanState} (hinv : ScanInv atoms startIndex policy counter first endIndex state)
    (hempty : state.candidates = []) (rest : List Nat)
    (hnext : ∀ state', endIndex + 1 < atoms.length →
      ScanInv atoms startIndex policy counter first (endIndex + 1) state' → state'.candidates = [] →
      (Reports (scan atoms startIndex policy counter unsplittable rest state') ↔
        ∀ c, LegalEnd atoms startIndex policy counter first c → endIndex + 1 ≤ c.endIndex →
          ¬ Collects atoms startIndex policy counter first c)) :
    Reports (scan atoms startIndex policy counter unsplittable (endIndex :: rest) state) ↔
      ∀ c, LegalEnd atoms startIndex policy counter first c → endIndex ≤ c.endIndex →
        ¬ Collects atoms startIndex policy counter first c := by
  have hstep := scanStep_empty unsplittable hcounts hfirst he hinv hempty
  have hpost : Yields Categorical (StepPost atoms startIndex policy counter first endIndex)
      (scanStep atoms startIndex policy counter unsplittable endIndex state) :=
    scanStep_yields hfirst he hinv
  show Reports (scanStep atoms startIndex policy counter unsplittable endIndex state >>= _) ↔ _
  revert hstep hpost
  generalize scanStep atoms startIndex policy counter unsplittable endIndex state = r
  intro hstep hpost
  cases hstep with
  | @passed state' hempty' hdropped =>
    show Reports (scan atoms startIndex policy counter unsplittable rest state') ↔ _
    rw [hnext state' hpost.1 hpost.2 hempty']
    constructor
    · intro h c hc hle
      rcases Nat.eq_or_lt_of_le hle with heq | hlt
      · exact hdropped c hc heq.symm
      · exact h c hc hlt
    · exact fun h c hc hle => h c hc (by omega)
  | kept hlegal hindex hcollects hkept =>
    refine iff_of_false (not_reports (hkept.bind fun r _ hr => ?_)) fun h => ?_
    · cases r with
      | inl state' => exact scan_kept rest hr
      | inr b => exact hr
    · exact h _ hlegal (by omega) hcollects
  | @reported r c hcloses hindex hover hreports =>
    refine iff_of_true ?_ fun c' hc' hle => ?_
    · cases r with
      | ok b => exact hreports
      | error f => exact hreports
    · have := Overruns.mono hcounts hcloses hc'.1 (by omega) hover
      rw [hc'.2] at this
      cases this

/-- A scan without candidates reports exactly when no legal end ahead is one it keeps. -/
theorem scan_reports_iff (hcounts : CountsRuns atoms counter)
    (hfirst : atoms[startIndex]? = some first) (count endIndex : Nat) (state : ScanState)
    (hcount : endIndex + count + 1 = atoms.length)
    (hinv : ScanInv atoms startIndex policy counter first endIndex state)
    (hempty : state.candidates = []) :
    Reports (scan atoms startIndex policy counter unsplittable
        (List.range' endIndex (count + 1)) state) ↔
      ∀ c, LegalEnd atoms startIndex policy counter first c → endIndex ≤ c.endIndex →
        ¬ Collects atoms startIndex policy counter first c := by
  induction count generalizing endIndex state with
  | zero =>
    refine scan_cons_reports_iff hcounts hfirst (by omega) hinv hempty [] fun state' hlt _ _ => ?_
    omega
  | succ count ih =>
    rw [List.range'_succ]
    exact scan_cons_reports_iff hcounts hfirst (by omega) hinv hempty _
      fun state' _ hinv' hempty' => ih (endIndex + 1) state' (by omega) hinv' hempty'

/-- A start is reported exactly when no legal end from it is one the scan keeps. -/
theorem findBoundary_reports_iff (hcounts : CountsRuns atoms counter)
    (hfirst : atoms[startIndex]? = some first) :
    Reports (findBoundary atoms startIndex policy counter unsplittable) ↔
      ∀ c, LegalEnd atoms startIndex policy counter first c →
        ¬ Collects atoms startIndex policy counter first c := by
  have hlt : startIndex < atoms.length := (List.getElem?_eq_some_iff.mp hfirst).1
  obtain ⟨count, hcount⟩ : ∃ count, atoms.length - startIndex = count + 1 :=
    ⟨atoms.length - startIndex - 1, by omega⟩
  unfold findBoundary
  rw [hfirst, hcount]
  show Reports (scan atoms startIndex policy counter unsplittable _ _) ↔ _
  rw [scan_reports_iff hcounts hfirst count startIndex _ (by omega) (scanInv_start hfirst) rfl]
  exact ⟨fun h c hc => h c hc hc.1.starts, fun h c hc _ => h c hc⟩

end

end MDRack.Media
