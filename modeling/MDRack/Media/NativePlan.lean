import Mathlib.Data.List.Chain
import Mathlib.Data.List.Pairwise
import MDRack.Lib.Checks

/-!
# The temporal decoding plan (`native_media`, `native_decoding`, `native`)

* `NativeMediaPolicy` — the recipe: a range of a source, windows in it and a grid of frames.
* `frameTimestamps`, `chooseFrames` — the frames of the range and those that the grid takes.
* `planUnits` — the intervals, or the times of frames, that `prepare` yields.
* `acceptUnits` — the checks on order and range in `_build`.
-/

namespace MDRack.Media.Native

open Checks

inductive NativeError
  | durationBudgetExceeded
  | rangeInvalid
  | unitBudgetExceeded
  | frameTimelineUnsupported
  | rangeHasNoFrames
  | observationsRequired
  | segmentInvalid
  | observationOutsideRange
  | observationOrderInvalid
  deriving DecidableEq, Repr

/-- The text of the `ValueError`. -/
def NativeError.message : NativeError → String
  | .durationBudgetExceeded => "native_duration_budget_exceeded"
  | .rangeInvalid => "native_range_invalid"
  | .unitBudgetExceeded => "native_unit_budget_exceeded"
  | .frameTimelineUnsupported => "native_frame_timeline_unsupported"
  | .rangeHasNoFrames => "native_range_has_no_frames"
  | .observationsRequired => "native_observations_required"
  | .segmentInvalid => "native_segment_invalid"
  | .observationOutsideRange => "native_observation_outside_range"
  | .observationOrderInvalid => "native_observation_order_invalid"

inductive NativeMediaKind
  | frames
  | audio
  | video
  deriving DecidableEq, Repr

/-- A start and an end in milliseconds. -/
abbrev Interval := Int × Int

/-! ## Windows -/

structure NativeMediaPolicy where
  startMs : Int
  endMs : Option Int
  windowMs : Int
  hopMs : Int
  frameStepMs : Int
  maxUnits : Int
  maxDurationMs : Int
  start_nonneg : 0 ≤ startMs
  end_after : ∀ stop ∈ endMs, startMs < stop
  positive : ∀ value ∈ [windowMs, hopMs, frameStepMs, maxUnits, maxDurationMs], 1 ≤ value
  units_bounded : maxUnits ≤ 10000

def NativeMediaPolicy.range (policy : NativeMediaPolicy) (durationMs : Int) :
    Except NativeError Interval := do
  let stop := policy.endMs.getD durationMs
  require (¬ policy.maxDurationMs < durationMs) .durationBudgetExceeded
  require (0 ≤ policy.startMs ∧ policy.startMs < stop ∧ stop ≤ durationMs) .rangeInvalid
  .ok (policy.startMs, stop)

/-- `range(start, stop, step)` for a positive step. -/
def pyRange (start stop step : Int) : List Int :=
  (List.range ((stop - start + step - 1) / step).toNat).map fun k : Nat => start + (k : Int) * step

def NativeMediaPolicy.windows (policy : NativeMediaPolicy) (durationMs : Int) :
    Except NativeError (List Interval) := do
  let range ← policy.range durationMs
  let count := (range.2 - range.1 + policy.hopMs - 1) / policy.hopMs
  require (¬ policy.maxUnits < count) .unitBudgetExceeded
  .ok ((pyRange range.1 range.2 policy.hopMs).map fun s => (s, min (s + policy.windowMs) range.2))

/-! ## Frames -/

/-- The loop over the decoded frames, after a frame at `previous` and with `last` kept at last. -/
def readFrames (start stop : Int) :
    Nat → Int → Option Int → List Int → Except NativeError (List (Nat × Int))
  | _, _, _, [] => .ok []
  | index, previous, last, stamp :: rest =>
    if stamp < previous then .error .frameTimelineUnsupported
    else if start ≤ stamp ∧ stamp < stop ∧ ∀ l ∈ last, l < stamp then do
      let more ← readFrames start stop (index + 1) stamp (some stamp) rest
      .ok ((index, stamp) :: more)
    else readFrames start stop (index + 1) stamp last rest

/-- The positions and times of the frames of a range. -/
def frameTimestamps (start stop : Int) (frames : List Int) :
    Except NativeError (List (Nat × Int)) := do
  let timestamps ← readFrames start stop 0 (-1) none frames
  require (timestamps ≠ []) .rangeHasNoFrames
  .ok timestamps

/-- The frames that the grid takes, from a threshold on. -/
def chooseFrames (start step : Int) : Int → List (Nat × Int) → List (Nat × Int)
  | _, [] => []
  | threshold, frame :: rest =>
    if threshold ≤ frame.2 then
      frame :: chooseFrames start step (start + ((frame.2 - start) / step + 1) * step) rest
    else chooseFrames start step threshold rest

/-- A window that begins with its first frame. -/
def videoUnit (timestamps : List (Nat × Int)) (window : Interval) : Except NativeError Interval :=
  match timestamps.find? fun frame => window.1 ≤ frame.2 && frame.2 < window.2 with
  | some frame => .ok (frame.2, window.2)
  | none => .error .rangeHasNoFrames

/-- What `prepare` yields for a source with these frames. -/
def planUnits (policy : NativeMediaPolicy) (kind : NativeMediaKind) (durationMs : Int)
    (frames : List Int) : Except NativeError (List Interval) := do
  let range ← policy.range durationMs
  match kind with
  | .frames =>
    let timestamps ← frameTimestamps range.1 range.2 frames
    let chosen := chooseFrames range.1 policy.frameStepMs range.1 timestamps
    require (¬ policy.maxUnits < (chosen.length : Int)) .unitBudgetExceeded
    .ok (chosen.map fun frame => (frame.2, frame.2))
  | .audio => policy.windows durationMs
  | .video =>
    let timestamps ← frameTimestamps range.1 range.2 frames
    let windows ← policy.windows durationMs
    mapAll (videoUnit timestamps) windows

/-! ## The batch builders -/

/-- The coordinate of an observation, which is compared as a tuple. -/
def coordinate : NativeMediaKind → Interval → List Int
  | .frames, unit => [unit.1]
  | _, unit => [unit.1, unit.2]

/-- The range that an observation may be in. -/
def withinRange (start stop : Int) : NativeMediaKind → Interval → Prop
  | .frames, unit => start ≤ unit.1 ∧ unit.1 < stop
  | _, unit => start ≤ unit.1 ∧ unit.1 < unit.2 ∧ unit.2 ≤ stop

instance (start stop : Int) (unit : Interval) :
    (kind : NativeMediaKind) → Decidable (withinRange start stop kind unit)
  | .frames => inferInstanceAs (Decidable (start ≤ unit.1 ∧ unit.1 < stop))
  | .audio => inferInstanceAs (Decidable (start ≤ unit.1 ∧ unit.1 < unit.2 ∧ unit.2 ≤ stop))
  | .video => inferInstanceAs (Decidable (start ≤ unit.1 ∧ unit.1 < unit.2 ∧ unit.2 ≤ stop))

/-- The constructor of an observation: a segment does not end before it starts. -/
def observe (kind : NativeMediaKind) (unit : Interval) : Except NativeError Unit :=
  require (kind ≠ .frames → ¬ unit.2 ≤ unit.1) .segmentInvalid

/-- The loop of `_build`, after the observation at `previous`. -/
def checkOrder (kind : NativeMediaKind) (start stop : Int) :
    Option (List Int) → List Interval → Except NativeError Unit
  | _, [] => .ok ()
  | previous, unit :: rest => do
    require (withinRange start stop kind unit) .observationOutsideRange
    require (∀ p ∈ previous, p < coordinate kind unit) .observationOrderInvalid
    checkOrder kind start stop (some (coordinate kind unit)) rest

/-- The checks of a batch builder on the order of its observations. -/
def acceptUnits (kind : NativeMediaKind) (start stop : Int) (units : List Interval) :
    Except NativeError Unit := do
  checkAll (observe kind) units
  require (units ≠ []) .observationsRequired
  checkOrder kind start stop none units

end MDRack.Media.Native
