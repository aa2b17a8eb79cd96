import MDRack.Media.Records
import MDRack.Lib.Outcome
import MDRack.Lib.Timeline

/-!
# Where a passage ends (`mdrack_media.grouper._find_boundary`)

* `candidate`, `boundaryScore` — the run from a start to an end index, joined, counted and scored.
* `scanStep`, `scan`, `findBoundary` — the loop over end indices from one start.

Principal result: `findBoundary_yields` — from every start the scan ends, with a categorical
failure or with a run that no atom crosses (`Closes`); the run is reported unsplittable exactly
when it is over a hard limit.

Times and counts are natural numbers, as the record constructors demand; a duration is the end of
a run less the start of its first atom, which is never later.
-/

namespace MDRack.Media

open Json (Value)
open Checks (getOr require)

def GROUPER_ALGORITHM : String := "deterministic-window-v1"
def JOIN_POLICY : String := "preserve-boundary-whitespace-v1"
def UNSPLITTABLE_REJECT : String := "reject"
def UNSPLITTABLE_FLAG : String := "flag"
def UNSPLITTABLE_POLICIES : List String := [UNSPLITTABLE_REJECT, UNSPLITTABLE_FLAG]
def REPRESENTATION_TIMED_PASSAGE : String := "timed_passage"

structure ScoreWeights where
  hardLimitRisk : Int
  speakerChange : Int
  sentenceEnd : Int
  strongPause : Int
  softMax : Int
  mediumPause : Int
  lineBreak : Int
  targetTokens : Int
  targetDuration : Int

def SCORE_WEIGHTS : ScoreWeights := ⟨100, 45, 40, 35, 20, 15, 15, 10, 10⟩

def ScoreWeights.toDict (w : ScoreWeights) : Value :=
  .obj [("hard_limit_risk", .int w.hardLimitRisk), ("line_break", .int w.lineBreak),
    ("medium_pause", .int w.mediumPause), ("sentence_end", .int w.sentenceEnd),
    ("soft_max", .int w.softMax), ("speaker_change", .int w.speakerChange),
    ("strong_pause", .int w.strongPause), ("target_duration", .int w.targetDuration),
    ("target_tokens", .int w.targetTokens)]

def SENTENCE_ENDINGS : List Char := ".!?。！？…".toList

structure BoundaryCandidate where
  endIndex : Nat
  text : String
  tokenCount : Nat
  endMs : Nat
  score : Int
  tokenDistance : Nat
  durationDistance : Nat
  deriving DecidableEq, Repr

structure SelectedBoundary where
  candidate : BoundaryCandidate
  reason : String
  hardLimitExceeded : Bool
  unsplittable : Bool
  deriving DecidableEq, Repr

variable {sha256 : String → HexDigest}

/-! ## Candidates -/

def endsWithSpace (text : String) : Bool := text.toList.getLast?.any isSpace
def startsWithSpace (text : String) : Bool := text.toList.head?.any isSpace

def joinText (value : String) (item : TimedTextAtom sha256) : String :=
  if endsWithSpace value || startsWithSpace item.text then value ++ item.text
  else value ++ (" " ++ item.text)

def joinAtomTexts : List (TimedTextAtom sha256) → Except Failure String
  | [] => .error (.assertionError "at least one atom is required")
  | first :: rest => .ok (rest.foldl joinText first.text)

def countTokens (counter : TokenCounter) (text : String) : Except Failure Nat :=
  match counter.count text with
  | .int (.ofNat value) => .ok value
  | _ => .error (.timedGrouping "invalid_token_count")

/-- `_distance`; a target is positive. -/
def distance (value target : Nat) : Nat := ((value : Int) - target).natAbs * 10 / target

def speakerChanges (current following : TimedTextAtom sha256) : Bool :=
  current.speaker.isSome && following.speaker.isSome && current.speaker != following.speaker

def followingScore (policy : TimedChunkingPolicy) (current : TimedTextAtom sha256) (endMs : Nat) :
    Option (TimedTextAtom sha256) → Int
  | none => 0
  | some following =>
    let gapMs : Int := following.startMs - endMs
    (if speakerChanges current following then SCORE_WEIGHTS.speakerChange else 0) +
      (if gapMs ≥ policy.strongPauseMs then SCORE_WEIGHTS.strongPause
      else if gapMs ≥ policy.mediumPauseMs then SCORE_WEIGHTS.mediumPause else 0)

/-- `text.rstrip()[-1] in _SENTENCE_ENDINGS`. -/
def endsSentence (text : String) : Bool :=
  (text.toList.reverse.dropWhile isSpace).head?.any fun c => SENTENCE_ENDINGS.contains c

def reachesSoftMax (policy : TimedChunkingPolicy) (tokenCount durationMs : Nat) : Bool :=
  decide (policy.softMaxTokens ≤ tokenCount) || decide (policy.softMaxDurationMs ≤ durationMs)

def boundaryScore (atoms : List (TimedTextAtom sha256)) (endIndex tokenCount durationMs endMs : Nat)
    (policy : TimedChunkingPolicy) (hardLimitRisk : Bool) : Except Failure (Int × Nat × Nat) := do
  let current ← getOr .indexError atoms[endIndex]?
  let score : Int :=
    (if hardLimitRisk then SCORE_WEIGHTS.hardLimitRisk else 0) +
    followingScore policy current endMs atoms[endIndex + 1]? +
    (if endsSentence current.text then SCORE_WEIGHTS.sentenceEnd else 0) +
    (if current.text.toList.contains '\n' then SCORE_WEIGHTS.lineBreak else 0) +
    (if reachesSoftMax policy tokenCount durationMs then SCORE_WEIGHTS.softMax else 0) +
    (if policy.targetTokens ≤ tokenCount then SCORE_WEIGHTS.targetTokens else 0) +
    (if policy.targetDurationMs ≤ durationMs then SCORE_WEIGHTS.targetDuration else 0)
  let tokenDistance := distance tokenCount policy.targetTokens
  let durationDistance := distance durationMs policy.targetDurationMs
  .ok (score - tokenDistance - durationDistance, tokenDistance, durationDistance)

/-- The tuple that `max` compares. -/
def BoundaryCandidate.key (c : BoundaryCandidate) : List Int :=
  [c.score, -c.tokenDistance, -c.durationDistance, -c.endIndex]

/-- `max` keeps the earlier of two equal candidates. -/
def better (best item : BoundaryCandidate) : BoundaryCandidate :=
  if best.key < item.key then item else best

def selectCandidate (candidates : List BoundaryCandidate) (reason : String) :
    Except Failure SelectedBoundary :=
  match candidates with
  | [] => .error (.valueError "max() iterable argument is empty")
  | first :: rest => .ok ⟨rest.foldl better first, reason, false, false⟩

section
variable (atoms : List (TimedTextAtom sha256)) (startIndex : Nat)
  (policy : TimedChunkingPolicy) (counter : TokenCounter)

def candidate (endIndex endMs : Nat) (hardLimitRisk : Bool) : Except Failure BoundaryCandidate := do
  let text ← joinAtomTexts (atoms.extract startIndex (endIndex + 1))
  let tokenCount ← countTokens counter text
  let first ← getOr .indexError atoms[startIndex]?
  let (score, tokenDistance, durationDistance) ←
    boundaryScore atoms endIndex tokenCount (endMs - first.startMs) endMs policy hardLimitRisk
  .ok { endIndex, text, tokenCount, endMs, score, tokenDistance, durationDistance }

def nextWouldExceedHardLimit (endIndex endMs : Nat) : Except Failure Bool :=
  match atoms[endIndex + 1]? with
  | none => .ok false
  | some next => do
    let nextText ← joinAtomTexts (atoms.extract startIndex (endIndex + 2))
    let tokenCount ← countTokens counter nextText
    let first ← getOr .indexError atoms[startIndex]?
    .ok (decide (policy.hardMaxTokens < tokenCount) ||
      decide (policy.hardMaxDurationMs < max endMs next.endMs - first.startMs))

/-! ## The boundary scan -/

/-- The variables of the loop over `end_index`. -/
structure ScanState where
  endMs : Nat
  candidates : List BoundaryCandidate
  hardExceededWithoutSafeBoundary : Bool

/-- No atom crosses from the run that ends at `end_ms` into the next atom. -/
def isSafeBoundary (endIndex endMs : Nat) : Bool :=
  atoms[endIndex + 1]?.all fun next => decide (endMs ≤ next.startMs)

def exceedsHardLimit (tokenCount durationMs : Nat) : Bool :=
  decide (policy.hardMaxTokens < tokenCount) || decide (policy.hardMaxDurationMs < durationMs)

def isEligible (tokenCount durationMs : Nat) : Bool :=
  decide (policy.softMinTokens ≤ tokenCount) && decide (policy.softMinDurationMs ≤ durationMs)

/-- The branch for a run over a hard limit: fall back on the last candidate, else go on to the
next safe boundary and report it. -/
def overHardLimit (unsplittable : String) (current : BoundaryCandidate) (state : ScanState) :
    Except Failure (ScanState ⊕ SelectedBoundary) :=
  match state.candidates.getLast? with
  | some last => do
    let boosted ← candidate atoms startIndex policy counter last.endIndex last.endMs true
    let selected ← selectCandidate (state.candidates.dropLast ++ [boosted]) "hard_limit"
    .ok (.inr selected)
  | none =>
    if isSafeBoundary atoms current.endIndex current.endMs = false then
      .ok (.inl { state with hardExceededWithoutSafeBoundary := true })
    else if unsplittable = UNSPLITTABLE_REJECT then
      .error (.timedGrouping "unsplittable_hard_limit")
    else .ok (.inr ⟨current, "unsplittable", true, true⟩)

/-- `candidates`, with the run that ends here when it may be selected. -/
def withCurrent (keep hardRisk : Bool) (endIndex endMs : Nat) (candidates : List BoundaryCandidate) :
    Except Failure (List BoundaryCandidate) :=
  if keep then do
    let current ← candidate atoms startIndex policy counter endIndex endMs hardRisk
    .ok (candidates ++ [current])
  else .ok candidates

/-- The branch for a run within both hard limits. -/
def withinHardLimit (current : BoundaryCandidate) (durationMs : Nat) (state : ScanState) :
    Except Failure (ScanState ⊕ SelectedBoundary) :=
  if isSafeBoundary atoms current.endIndex current.endMs = false then .ok (.inl state)
  else do
    let hardRisk ←
      nextWouldExceedHardLimit atoms startIndex policy counter current.endIndex current.endMs
    let softMaxReached := reachesSoftMax policy current.tokenCount durationMs
    let isLast := atoms[current.endIndex + 1]?.isNone
    let candidates ← withCurrent atoms startIndex policy counter
      (isEligible policy current.tokenCount durationMs || hardRisk || softMaxReached || isLast)
      hardRisk current.endIndex current.endMs state.candidates
    if hardRisk then (selectCandidate candidates "hard_limit").map .inr
    else if softMaxReached then (selectCandidate candidates "soft_max").map .inr
    else if isLast then (selectCandidate candidates "end_of_input").map .inr
    else .ok (.inl { state with candidates })

/-- One pass of the loop over `end_index`. -/
def scanStep (unsplittable : String) (endIndex : Nat) (state : ScanState) :
    Except Failure (ScanState ⊕ SelectedBoundary) := do
  let first ← getOr .indexError atoms[startIndex]?
  let last ← getOr .indexError atoms[endIndex]?
  let endMs := max state.endMs last.endMs
  let current ← candidate atoms startIndex policy counter endIndex endMs false
  let durationMs := endMs - first.startMs
  if exceedsHardLimit policy current.tokenCount durationMs then
    overHardLimit atoms startIndex policy counter unsplittable current { state with endMs }
  else withinHardLimit atoms startIndex policy counter current durationMs { state with endMs }

def scan (unsplittable : String) : List Nat → ScanState → Except Failure SelectedBoundary
  | [], state =>
    if state.hardExceededWithoutSafeBoundary then
      .error (.assertionError "an unsplittable boundary must terminate at end of input")
    else .error (.assertionError "the final atom must terminate a passage")
  | endIndex :: rest, state => do
    match ← scanStep atoms startIndex policy counter unsplittable endIndex state with
    | .inl state => scan unsplittable rest state
    | .inr selected => .ok selected

def findBoundary (unsplittable : String) : Except Failure SelectedBoundary := do
  let first ← getOr .indexError atoms[startIndex]?
  scan atoms startIndex policy counter unsplittable
    (List.range' startIndex (atoms.length - startIndex)) ⟨first.endMs, [], false⟩

end

/-! ## What the scan guarantees -/

open Outcome
open Timeline (Ends)

/-- A `TimedGroupingError`. -/
def Categorical (f : Failure) : Prop := ∃ code, f = .timedGrouping code

/-- The candidate reads the run from `start_index` to its end index, and no atom of the run
reaches into the next one. -/
structure Closes (atoms : List (TimedTextAtom sha256)) (startIndex : Nat) (counter : TokenCounter)
    (c : BoundaryCandidate) : Prop where
  starts : startIndex ≤ c.endIndex
  ends : c.endIndex < atoms.length
  joined : joinAtomTexts (atoms.extract startIndex (c.endIndex + 1)) = .ok c.text
  counted : countTokens counter c.text = .ok c.tokenCount
  latest : Ends (·.endMs) (atoms.extract startIndex (c.endIndex + 1)) c.endMs
  safe : isSafeBoundary atoms c.endIndex c.endMs = true

/-- The candidate reads the run to `endIndex`, whose latest end is `endMs`. -/
structure Reads (atoms : List (TimedTextAtom sha256)) (startIndex : Nat) (counter : TokenCounter)
    (endIndex endMs : Nat) (c : BoundaryCandidate) : Prop where
  index : c.endIndex = endIndex
  time : c.endMs = endMs
  joined : joinAtomTexts (atoms.extract startIndex (endIndex + 1)) = .ok c.text
  counted : countTokens counter c.text = .ok c.tokenCount

section
variable {atoms : List (TimedTextAtom sha256)} {startIndex : Nat} {policy : TimedChunkingPolicy}
  {counter : TokenCounter} {unsplittable : String} {first : TimedTextAtom sha256}

theorem countTokens_yields (text : String) :
    Yields Categorical (fun n => countTokens counter text = .ok n) (countTokens counter text) := by
  unfold countTokens
  split
  · rfl
  · exact ⟨_, rfl⟩

theorem joinAtomTexts_of_ne_nil {run : List (TimedTextAtom sha256)} (h : run ≠ []) :
    ∃ text, joinAtomTexts run = .ok text := by
  cases run with
  | nil => exact absurd rfl h
  | cons a rest => exact ⟨_, rfl⟩

theorem joinAtomTexts_extract (hfirst : atoms[startIndex]? = some first) (stop : Nat)
    (hstop : startIndex < stop) :
    ∃ text, joinAtomTexts (atoms.extract startIndex stop) = .ok text := by
  have hlt : startIndex < atoms.length := (List.getElem?_eq_some_iff.mp hfirst).1
  exact joinAtomTexts_of_ne_nil (Timeline.extract_ne_nil hstop hlt)

theorem boundaryScore_ok (policy : TimedChunkingPolicy) {endIndex : Nat}
    (he : endIndex < atoms.length) (tokenCount durationMs endMs : Nat) (hardLimitRisk : Bool) :
    ∃ score, boundaryScore atoms endIndex tokenCount durationMs endMs policy hardLimitRisk =
      .ok score := by
  obtain ⟨current, hcurrent⟩ : ∃ a, atoms[endIndex]? = some a := ⟨_, List.getElem?_eq_getElem he⟩
  unfold boundaryScore
  rw [hcurrent]
  exact ⟨_, rfl⟩

/-- What a candidate is: only its token count can fail. -/
theorem candidate_yields {endIndex : Nat} (hfirst : atoms[startIndex]? = some first)
    (hs : startIndex ≤ endIndex) (he : endIndex < atoms.length) (endMs : Nat) (risk : Bool) :
    Yields Categorical (Reads atoms startIndex counter endIndex endMs)
      (candidate atoms startIndex policy counter endIndex endMs risk) := by
  obtain ⟨text, htext⟩ := joinAtomTexts_extract hfirst (endIndex + 1) (Nat.lt_succ_of_le hs)
  unfold candidate
  rw [htext, hfirst]
  refine (countTokens_yields text).bind fun tokenCount _ hcount => ?_
  obtain ⟨score, hscore⟩ := boundaryScore_ok policy he tokenCount
    (endMs - first.startMs) endMs risk
  show Yields _ _ (boundaryScore atoms endIndex tokenCount (endMs - first.startMs) endMs policy risk >>= _)
  rw [hscore]
  exact ⟨rfl, rfl, htext, hcount⟩

theorem nextWouldExceedHardLimit_yields (hfirst : atoms[startIndex]? = some first) {endIndex : Nat}
    (hs : startIndex ≤ endIndex) (endMs : Nat) :
    Yields Categorical (fun _ => True)
      (nextWouldExceedHardLimit atoms startIndex policy counter endIndex endMs) := by
  unfold nextWouldExceedHardLimit
  split
  · exact trivial
  · obtain ⟨text, htext⟩ := joinAtomTexts_extract hfirst (endIndex + 2) (by omega)
    rw [htext, hfirst]
    exact (countTokens_yields text).bind fun _ _ _ => trivial

/-! ### Selection -/

theorem foldl_better_mem (first : BoundaryCandidate) (rest : List BoundaryCandidate) :
    rest.foldl better first ∈ first :: rest := by
  induction rest generalizing first with
  | nil => exact List.mem_singleton_self _
  | cons item rest ih =>
    rw [List.foldl_cons]
    have h := ih (better first item)
    have hbetter : better first item = first ∨ better first item = item := by
      unfold better
      split
      · exact Or.inr rfl
      · exact Or.inl rfl
    rcases List.mem_cons.mp h with h | h
    · rw [h]
      rcases hbetter with hb | hb <;> simp [hb]
    · exact List.mem_cons_of_mem _ (List.mem_cons_of_mem _ h)

theorem selectCandidate_ok {candidates : List BoundaryCandidate} (h : candidates ≠ [])
    (reason : String) : ∃ c ∈ candidates, selectCandidate candidates reason = .ok ⟨c, reason, false, false⟩ := by
  cases candidates with
  | nil => exact absurd rfl h
  | cons item rest => exact ⟨_, foldl_better_mem item rest, rfl⟩

/-! ### Invariant of the scan -/

/-- The run that a candidate reads is over a hard limit. -/
def Overruns (first : TimedTextAtom sha256) (policy : TimedChunkingPolicy) (c : BoundaryCandidate) :
    Bool := exceedsHardLimit policy c.tokenCount (c.endMs - first.startMs)

/-- The loop variables before the pass for `endIndex`. -/
structure ScanInv (atoms : List (TimedTextAtom sha256)) (startIndex : Nat)
    (policy : TimedChunkingPolicy) (counter : TokenCounter) (first : TimedTextAtom sha256)
    (endIndex : Nat) (state : ScanState) : Prop where
  bound : startIndex ≤ endIndex
  latest : ∀ last, atoms[endIndex]? = some last →
    Ends (·.endMs) (atoms.extract startIndex (endIndex + 1)) (max state.endMs last.endMs)
  kept : ∀ c ∈ state.candidates, Closes atoms startIndex counter c ∧ Overruns first policy c = false

/-- A selected boundary closes a run, and is flagged exactly when the run is over a hard limit. -/
structure Selects (atoms : List (TimedTextAtom sha256)) (startIndex : Nat)
    (policy : TimedChunkingPolicy) (counter : TokenCounter) (first : TimedTextAtom sha256)
    (b : SelectedBoundary) : Prop where
  closes : Closes atoms startIndex counter b.candidate
  flagged : b.hardLimitExceeded = Overruns first policy b.candidate
  unsplittable : b.unsplittable = b.hardLimitExceeded

/-- After one pass the loop goes on to an end index that exists, or returns. -/
def StepPost (atoms : List (TimedTextAtom sha256)) (startIndex : Nat)
    (policy : TimedChunkingPolicy) (counter : TokenCounter) (first : TimedTextAtom sha256)
    (endIndex : Nat) : ScanState ⊕ SelectedBoundary → Prop
  | .inl state => endIndex + 1 < atoms.length ∧
      ScanInv atoms startIndex policy counter first (endIndex + 1) state
  | .inr b => Selects atoms startIndex policy counter first b

theorem Reads.closes {endIndex endMs : Nat} {c : BoundaryCandidate}
    (h : Reads atoms startIndex counter endIndex endMs c) (hs : startIndex ≤ endIndex)
    (he : endIndex < atoms.length) (hends : Ends (·.endMs) (atoms.extract startIndex (endIndex + 1)) endMs)
    (hsafe : isSafeBoundary atoms endIndex endMs = true) : Closes atoms startIndex counter c := by
  obtain ⟨rfl, rfl, hjoined, hcounted⟩ := h
  exact ⟨hs, he, hjoined, hcounted, hends, hsafe⟩

/-- A candidate read again at the same place covers the same run with the same count. -/
theorem Reads.same (first : TimedTextAtom sha256) (policy : TimedChunkingPolicy)
    {c c' : BoundaryCandidate} (hc : Closes atoms startIndex counter c)
    (h : Reads atoms startIndex counter c.endIndex c.endMs c') :
    Closes atoms startIndex counter c' ∧ Overruns first policy c' = Overruns first policy c := by
  obtain ⟨hindex, htime, hjoined, hcounted⟩ := h
  have htext : c'.text = c.text := by
    have := hc.joined
    rw [hjoined] at this
    exact Except.ok.inj this
  have hcount : c'.tokenCount = c.tokenCount := by
    have := hc.counted
    rw [← htext, hcounted] at this
    exact Except.ok.inj this
  refine ⟨⟨?_, ?_, ?_, hcounted, ?_, ?_⟩, ?_⟩
  · rw [hindex]
    exact hc.starts
  · rw [hindex]
    exact hc.ends
  · rwa [hindex]
  · rw [hindex, htime]
    exact hc.latest
  · rw [hindex, htime]
    exact hc.safe
  · unfold Overruns
    rw [hcount, htime]

theorem ScanInv.next {endIndex endMs : Nat} (hs : startIndex ≤ endIndex)
    (hends : Ends (·.endMs) (atoms.extract startIndex (endIndex + 1)) endMs)
    {state : ScanState} (htime : state.endMs = endMs)
    (hkept : ∀ c ∈ state.candidates,
      Closes atoms startIndex counter c ∧ Overruns first policy c = false) :
    ScanInv atoms startIndex policy counter first (endIndex + 1) state where
  bound := by omega
  latest last hlast := by
    rw [Timeline.extract_succ (by omega) hlast, htime]
    exact hends.append last
  kept := hkept

theorem lt_of_not_safe {endIndex endMs : Nat} (h : isSafeBoundary atoms endIndex endMs = false) :
    endIndex + 1 < atoms.length := by
  unfold isSafeBoundary at h
  cases hnext : atoms[endIndex + 1]? with
  | none => simp [hnext] at h
  | some next => exact (List.getElem?_eq_some_iff.mp hnext).1

/-- Selecting among kept candidates gives a run within the limits. -/
theorem selectCandidate_selects {candidates : List BoundaryCandidate} (hne : candidates ≠ [])
    (hkept : ∀ c ∈ candidates, Closes atoms startIndex counter c ∧ Overruns first policy c = false)
    (reason : String) :
    Yields Categorical (Selects atoms startIndex policy counter first)
      (selectCandidate candidates reason) := by
  obtain ⟨c, hc, h⟩ := selectCandidate_ok hne reason
  rw [h]
  obtain ⟨hcloses, hwithin⟩ := hkept c hc
  exact ⟨hcloses, hwithin.symm, rfl⟩

theorem overHardLimit_yields {endIndex : Nat} {current : BoundaryCandidate} {state : ScanState}
    (hfirst : atoms[startIndex]? = some first) (hs : startIndex ≤ endIndex)
    (he : endIndex < atoms.length)
    (hends : Ends (·.endMs) (atoms.extract startIndex (endIndex + 1)) state.endMs)
    (hreads : Reads atoms startIndex counter endIndex state.endMs current)
    (hover : Overruns first policy current = true)
    (hkept : ∀ c ∈ state.candidates,
      Closes atoms startIndex counter c ∧ Overruns first policy c = false) :
    Yields Categorical (StepPost atoms startIndex policy counter first endIndex)
      (overHardLimit atoms startIndex policy counter unsplittable current state) := by
  unfold overHardLimit
  cases hlast : state.candidates.getLast? with
  | some last =>
    obtain ⟨hcloses, hwithin⟩ := hkept last (List.mem_of_getLast? hlast)
    refine (candidate_yields hfirst hcloses.starts hcloses.ends last.endMs true).bind
      fun boosted _ hboosted => ?_
    obtain ⟨hcloses', hsame⟩ := Reads.same first policy hcloses hboosted
    have hselects : Yields Categorical (Selects atoms startIndex policy counter first)
        (selectCandidate (state.candidates.dropLast ++ [boosted]) "hard_limit") := by
      refine selectCandidate_selects (by simp) (fun c hc => ?_) _
      rcases List.mem_append.mp hc with hc | hc
      · exact hkept c (List.dropLast_subset _ hc)
      · rw [List.mem_singleton.mp hc]
        exact ⟨hcloses', hsame.trans hwithin⟩
    exact hselects.bind fun selected _ hselected => hselected
  | none =>
    obtain ⟨hindex, htime, -, -⟩ := id hreads
    show Yields _ _ (if isSafeBoundary atoms current.endIndex current.endMs = false then _ else _)
    rw [hindex, htime]
    by_cases hsafe : isSafeBoundary atoms endIndex state.endMs = false
    · rw [if_pos hsafe]
      exact ⟨lt_of_not_safe hsafe, ScanInv.next hs hends rfl hkept⟩
    · rw [if_neg hsafe]
      split
      · exact ⟨_, rfl⟩
      · have hclosed := hreads.closes hs he hends (by simpa using hsafe)
        exact ⟨hclosed, hover.symm, rfl⟩

theorem withCurrent_yields {endIndex endMs : Nat} {keep hardRisk : Bool} {current : BoundaryCandidate}
    {candidates : List BoundaryCandidate} (hfirst : atoms[startIndex]? = some first)
    (hcurrent : Closes atoms startIndex counter current) (hwithin : Overruns first policy current = false)
    (hindex : current.endIndex = endIndex) (htime : current.endMs = endMs)
    (hkept : ∀ c ∈ candidates, Closes atoms startIndex counter c ∧ Overruns first policy c = false) :
    Yields Categorical
      (fun cs => (keep = true → cs ≠ []) ∧
        ∀ c ∈ cs, Closes atoms startIndex counter c ∧ Overruns first policy c = false)
      (withCurrent atoms startIndex policy counter keep hardRisk endIndex endMs candidates) := by
  subst hindex htime
  unfold withCurrent
  cases keep with
  | false => exact ⟨by simp, hkept⟩
  | true =>
    refine (candidate_yields hfirst hcurrent.starts hcurrent.ends current.endMs hardRisk).bind
      fun c _ hc => ?_
    obtain ⟨hcloses, hsame⟩ := Reads.same first policy hcurrent hc
    refine ⟨by simp, ?_⟩
    intro c' hc'
    rcases List.mem_append.mp hc' with hc' | hc'
    · exact hkept c' hc'
    · rw [List.mem_singleton.mp hc']
      exact ⟨hcloses, hsame.trans hwithin⟩

theorem withinHardLimit_yields {endIndex durationMs : Nat} {current : BoundaryCandidate}
    {state : ScanState} (hfirst : atoms[startIndex]? = some first) (hs : startIndex ≤ endIndex)
    (he : endIndex < atoms.length)
    (hends : Ends (·.endMs) (atoms.extract startIndex (endIndex + 1)) state.endMs)
    (hreads : Reads atoms startIndex counter endIndex state.endMs current)
    (hwithin : Overruns first policy current = false)
    (hkept : ∀ c ∈ state.candidates,
      Closes atoms startIndex counter c ∧ Overruns first policy c = false) :
    Yields Categorical (StepPost atoms startIndex policy counter first endIndex)
      (withinHardLimit atoms startIndex policy counter current durationMs state) := by
  obtain ⟨hindex, htime, -, -⟩ := id hreads
  unfold withinHardLimit
  rw [hindex, htime]
  by_cases hsafe : isSafeBoundary atoms endIndex state.endMs = false
  · rw [if_pos hsafe]
    exact ⟨lt_of_not_safe hsafe, ScanInv.next hs hends rfl hkept⟩
  rw [if_neg hsafe]
  have hclosed := hreads.closes hs he hends (by simpa using hsafe)
  refine (nextWouldExceedHardLimit_yields hfirst hs state.endMs).bind fun hardRisk _ _ => ?_
  refine (withCurrent_yields hfirst hclosed hwithin hindex htime hkept).bind
    fun candidates _ hcandidates => ?_
  obtain ⟨hne, hkept'⟩ := hcandidates
  have hselect : ∀ reason, candidates ≠ [] →
      Yields Categorical (StepPost atoms startIndex policy counter first endIndex)
        ((selectCandidate candidates reason).map .inr) :=
    fun reason h => Yields.map (f := Sum.inr) (selectCandidate_selects h hkept' reason)
  split
  · rename_i hrisk
    exact hselect _ (hne (by simp [hrisk]))
  split
  · rename_i hsoft
    exact hselect _ (hne (by simp [hsoft]))
  split
  · rename_i hlast
    exact hselect _ (hne (by simp [hlast]))
  · rename_i hlast
    have hlt : endIndex + 1 < atoms.length := by
      by_contra hge
      exact hlast (by simp [List.getElem?_eq_none (Nat.le_of_not_lt hge)])
    exact ⟨hlt, ScanInv.next hs hends rfl hkept'⟩

theorem scanStep_yields {endIndex : Nat} {state : ScanState}
    (hfirst : atoms[startIndex]? = some first) (he : endIndex < atoms.length)
    (hinv : ScanInv atoms startIndex policy counter first endIndex state) :
    Yields Categorical (StepPost atoms startIndex policy counter first endIndex)
      (scanStep atoms startIndex policy counter unsplittable endIndex state) := by
  obtain ⟨last, hlast⟩ : ∃ a, atoms[endIndex]? = some a := ⟨_, List.getElem?_eq_getElem he⟩
  have hends := hinv.latest last hlast
  unfold scanStep
  rw [hfirst, hlast]
  refine (candidate_yields hfirst hinv.bound he (max state.endMs last.endMs) false).bind
    fun current _ hreads => ?_
  have hover : Overruns first policy current = exceedsHardLimit policy current.tokenCount
      (max state.endMs last.endMs - first.startMs) := by
    unfold Overruns
    rw [hreads.time]
  show Yields _ _ (if exceedsHardLimit policy current.tokenCount _ = true then _ else _)
  split
  · rename_i h
    exact overHardLimit_yields hfirst hinv.bound he hends hreads (hover.trans h) hinv.kept
  · rename_i h
    exact withinHardLimit_yields hfirst hinv.bound he hends hreads (hover.trans (by simpa using h)) hinv.kept

/-- The loop over the end indices that are left: it never runs out of them. -/
theorem scan_yields (hfirst : atoms[startIndex]? = some first) (count endIndex : Nat)
    (state : ScanState) (hcount : endIndex + count + 1 = atoms.length)
    (hinv : ScanInv atoms startIndex policy counter first endIndex state) :
    Yields Categorical (Selects atoms startIndex policy counter first)
      (scan atoms startIndex policy counter unsplittable
        (List.range' endIndex (count + 1)) state) := by
  induction count generalizing endIndex state with
  | zero =>
    refine (scanStep_yields hfirst (by omega) hinv).bind fun r _ hr => ?_
    cases r with
    | inl state' =>
      have : endIndex + 1 < atoms.length := hr.1
      omega
    | inr b => exact hr
  | succ count ih =>
    rw [List.range'_succ]
    refine (scanStep_yields hfirst (by omega) hinv).bind fun r _ hr => ?_
    cases r with
    | inl state' => exact ih (endIndex + 1) state' (by omega) hr.2
    | inr b => exact hr

theorem scanInv_start (hfirst : atoms[startIndex]? = some first) :
    ScanInv atoms startIndex policy counter first startIndex ⟨first.endMs, [], false⟩ where
  bound := le_rfl
  latest last hlast := by
    obtain rfl : first = last := Option.some.inj (hfirst.symm.trans hlast)
    rw [Timeline.extract_succ le_rfl hlast, Timeline.extract_self, max_self]
    exact Timeline.ends_singleton first
  kept := by simp

/-- From every start the scan fails with a category or selects a boundary. -/
theorem findBoundary_yields (hfirst : atoms[startIndex]? = some first) :
    Yields Categorical (Selects atoms startIndex policy counter first)
      (findBoundary atoms startIndex policy counter unsplittable) := by
  have hlt : startIndex < atoms.length := (List.getElem?_eq_some_iff.mp hfirst).1
  obtain ⟨count, hcount⟩ : ∃ count, atoms.length - startIndex = count + 1 :=
    ⟨atoms.length - startIndex - 1, by omega⟩
  unfold findBoundary
  rw [hfirst, hcount]
  exact scan_yields hfirst count startIndex _ (by omega) (scanInv_start hfirst)

end

end MDRack.Media
