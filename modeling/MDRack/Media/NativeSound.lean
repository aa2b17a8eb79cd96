import MDRack.Media.NativePlan

/-!
# The temporal decoding plan is sound, where its windows stay apart

* `WindowsSound`, `FirstOnGrid` — what the windows and the chosen frames are.
* `WindowsApart` — windows that end together have a frame between their starts.

Principal result: `planSound_iff` — the plan is sound exactly where the windows of a video stay apart.
-/

namespace MDRack.Media.Native

open Checks

/-! ## Windows -/

section Windows

variable {start stop step : Int}

/-- `k` is before the number of steps iff the step at `k` is before the end. -/
theorem lt_stepCount (hstep : 1 ≤ step) (k : Nat) :
    k < ((stop - start + step - 1) / step).toNat ↔ start + (k : Int) * step < stop := by
  have hpos : 0 < step := hstep
  have hdiv : (k : Int) + 1 ≤ (stop - start + step - 1) / step ↔
      ((k : Int) + 1) * step ≤ stop - start + step - 1 := Int.le_ediv_iff_mul_le hpos
  rw [Int.add_mul, Int.one_mul] at hdiv
  omega

theorem mem_pyRange (hstep : 1 ≤ step) {s : Int} :
    s ∈ pyRange start stop step ↔ ∃ k : Nat, s = start + (k : Int) * step ∧ s < stop := by
  unfold pyRange
  rw [List.mem_map]
  constructor
  · rintro ⟨k, hk, rfl⟩
    exact ⟨k, rfl, (lt_stepCount hstep k).mp (List.mem_range.mp hk)⟩
  · rintro ⟨k, rfl, hlt⟩
    exact ⟨k, List.mem_range.mpr ((lt_stepCount hstep k).mpr hlt), rfl⟩

theorem pyRange_increasing (hstep : 1 ≤ step) : (pyRange start stop step).Pairwise (· < ·) := by
  unfold pyRange
  rw [List.pairwise_map]
  apply List.pairwise_lt_range.imp
  intro i j hij
  have hlt : (i : Int) * step < (j : Int) * step :=
    Int.mul_lt_mul_of_pos_right (by omega) (by omega)
  omega

end Windows

section Policy

variable {policy : NativeMediaPolicy} {durationMs start stop : Int}

theorem NativeMediaPolicy.window_pos (policy : NativeMediaPolicy) : 1 ≤ policy.windowMs :=
  policy.positive _ (by simp)

theorem NativeMediaPolicy.hop_pos (policy : NativeMediaPolicy) : 1 ≤ policy.hopMs :=
  policy.positive _ (by simp)

theorem NativeMediaPolicy.frameStep_pos (policy : NativeMediaPolicy) : 1 ≤ policy.frameStepMs :=
  policy.positive _ (by simp)

theorem NativeMediaPolicy.range_ok (h : policy.range durationMs = .ok (start, stop)) :
    0 ≤ start ∧ start < stop ∧ stop ≤ durationMs := by
  simp only [NativeMediaPolicy.range, bind_ok, require_ok, exists_const] at h
  obtain ⟨-, hrange, hresult⟩ := h
  obtain ⟨rfl, rfl⟩ := Prod.mk.inj (Except.ok.inj hresult)
  exact hrange

/-- At most the allowed number of nonempty windows in the range, which they cover if no gap is
between them. -/
structure WindowsSound (policy : NativeMediaPolicy) (start stop : Int)
    (windows : List Interval) : Prop where
  count : (windows.length : Int) ≤ policy.maxUnits
  inside : ∀ window ∈ windows, start ≤ window.1 ∧ window.1 < window.2 ∧ window.2 ≤ stop
  increasing : (windows.map Prod.fst).Pairwise (· < ·)
  covers : policy.hopMs ≤ policy.windowMs → ∀ t, start ≤ t → t < stop →
    ∃ window ∈ windows, window.1 ≤ t ∧ t < window.2

theorem NativeMediaPolicy.windows_ok (hrange : policy.range durationMs = .ok (start, stop))
    {windows : List Interval} (h : policy.windows durationMs = .ok windows) :
    windows = (pyRange start stop policy.hopMs).map
        (fun s => (s, min (s + policy.windowMs) stop)) ∧
      (windows.length : Int) ≤ policy.maxUnits := by
  simp only [NativeMediaPolicy.windows, hrange, bind_ok, require_ok, exists_const,
    Except.ok.injEq, exists_eq_left'] at h
  obtain ⟨hcount, rfl⟩ := h
  refine ⟨rfl, ?_⟩
  rw [pyRange, List.length_map, List.length_map, List.length_range]
  have hmax : 1 ≤ policy.maxUnits := policy.positive _ (by simp)
  omega

theorem windows_sound (hrange : policy.range durationMs = .ok (start, stop))
    {windows : List Interval} (h : policy.windows durationMs = .ok windows) :
    WindowsSound policy start stop windows := by
  have hhop := policy.hop_pos
  have hwindow := policy.window_pos
  obtain ⟨-, hlt, -⟩ := NativeMediaPolicy.range_ok hrange
  obtain ⟨rfl, hcount⟩ := NativeMediaPolicy.windows_ok hrange h
  refine ⟨hcount, ?_, ?_, ?_⟩
  · intro window hmem
    obtain ⟨s, hs, rfl⟩ := List.mem_map.mp hmem
    obtain ⟨k, rfl, hstop⟩ := (mem_pyRange hhop).mp hs
    have hk : 0 ≤ (k : Int) * policy.hopMs := Int.mul_nonneg (by omega) (by omega)
    simp only
    omega
  · rw [List.map_map]
    have hfst : (Prod.fst ∘ fun s => (s, min (s + policy.windowMs) stop)) = (id : Int → Int) := rfl
    rw [hfst, List.map_id]
    exact pyRange_increasing hhop
  · intro hcover t ht htstop
    have hk : 0 ≤ (t - start) / policy.hopMs := Int.ediv_nonneg (by omega) (by omega)
    have hdiv := Int.mul_ediv_add_emod (t - start) policy.hopMs
    have hmod := Int.emod_lt_of_pos (t - start) (show 0 < policy.hopMs from hhop)
    have hmod' := Int.emod_nonneg (t - start) (show policy.hopMs ≠ 0 by omega)
    rw [Int.mul_comm] at hdiv
    refine ⟨_, List.mem_map_of_mem ((mem_pyRange hhop).mpr
      ⟨((t - start) / policy.hopMs).toNat, rfl, ?_⟩), ?_, ?_⟩
    · rw [Int.toNat_of_nonneg hk]
      omega
    · simp only [Int.toNat_of_nonneg hk]
      omega
    · simp only [Int.toNat_of_nonneg hk]
      omega

end Policy

/-! ## Frames -/

section Frames

variable {start stop : Int}

theorem readFrames_sorted {index : Nat} {previous : Int} {last : Option Int} {frames : List Int}
    {timestamps : List (Nat × Int)}
    (h : readFrames start stop index previous last frames = .ok timestamps) :
    (∀ stamp ∈ frames, previous ≤ stamp) ∧ frames.Pairwise (· ≤ ·) := by
  induction frames generalizing index previous last timestamps with
  | nil => exact ⟨fun _ hmem => absurd hmem List.not_mem_nil, .nil⟩
  | cons stamp rest ih =>
    unfold readFrames at h
    split at h
    · cases h
    · rename_i hprevious
      have hrest : (∀ other ∈ rest, stamp ≤ other) ∧ rest.Pairwise (· ≤ ·) := by
        split at h
        · obtain ⟨more, hmore, -⟩ := bind_ok.mp h
          exact ih hmore
        · exact ih h
      refine ⟨List.forall_mem_cons.mpr ⟨by omega, fun other hother => ?_⟩,
        List.pairwise_cons.mpr hrest⟩
      have hle := hrest.1 other hother
      omega

/-- A frame is kept iff it is in the range, and every frame before it is earlier. -/
theorem mem_readFrames {index : Nat} {previous : Int} {last : Option Int} {frames : List Int}
    {timestamps : List (Nat × Int)}
    (h : readFrames start stop index previous last frames = .ok timestamps) (i : Nat) (stamp : Int) :
    (i, stamp) ∈ timestamps ↔ ∃ n, i = index + n ∧ frames[n]? = some stamp ∧
      (start ≤ stamp ∧ stamp < stop) ∧ (∀ l ∈ last, l < stamp) ∧
      ∀ m < n, ∀ other, frames[m]? = some other → other < stamp := by
  induction frames generalizing index previous last timestamps with
  | nil =>
    obtain rfl : [] = timestamps := Except.ok.inj h
    simp
  | cons first rest ih =>
    obtain ⟨-, hsorted⟩ := readFrames_sorted h
    obtain ⟨hfirst, -⟩ := List.pairwise_cons.mp hsorted
    unfold readFrames at h
    split at h
    · cases h
    · split at h
      · rename_i hkept
        obtain ⟨more, hmore, htimestamps⟩ := bind_ok.mp h
        obtain rfl := Except.ok.inj htimestamps
        rw [List.mem_cons, ih hmore]
        constructor
        · rintro (heq | ⟨n, rfl, hn, hin, hlast, hbefore⟩)
          · obtain ⟨rfl, rfl⟩ := Prod.mk.inj heq
            exact ⟨0, rfl, rfl, ⟨hkept.1, hkept.2.1⟩, hkept.2.2, fun m hm => absurd hm (by omega)⟩
          · have hlater : first < stamp := hlast first rfl
            refine ⟨n + 1, by omega, hn, hin, fun l hl => ?_, fun m hm other hother => ?_⟩
            · have hl := hkept.2.2 l hl
              omega
            · cases m with
              | zero =>
                obtain rfl := Option.some.inj hother
                exact hlater
              | succ m => exact hbefore m (by omega) other hother
        · rintro ⟨n, rfl, hn, hin, hlast, hbefore⟩
          cases n with
          | zero =>
            obtain rfl := Option.some.inj hn
            exact .inl rfl
          | succ n =>
            refine .inr ⟨n, by omega, hn, hin, fun l hl => ?_, fun m hm other hother => ?_⟩
            · obtain rfl := Option.some.inj hl
              exact hbefore 0 (by omega) first rfl
            · exact hbefore (m + 1) (by omega) other hother
      · rename_i hdropped
        rw [ih h]
        constructor
        · rintro ⟨n, rfl, hn, hin, hlast, hbefore⟩
          refine ⟨n + 1, by omega, hn, hin, hlast, fun m hm other hother => ?_⟩
          cases m with
          | succ m => exact hbefore m (by omega) other hother
          | zero =>
            obtain rfl := Option.some.inj hother
            have hle : first ≤ stamp := hfirst stamp (List.mem_of_getElem? hn)
            by_contra hnot
            apply hdropped
            obtain rfl : first = stamp := by omega
            exact ⟨hin.1, hin.2, hlast⟩
        · rintro ⟨n, rfl, hn, hin, hlast, hbefore⟩
          cases n with
          | zero =>
            obtain rfl := Option.some.inj hn
            exact absurd ⟨hin.1, hin.2, hlast⟩ hdropped
          | succ n =>
            exact ⟨n, by omega, hn, hin, hlast, fun m hm other hother =>
              hbefore (m + 1) (by omega) other hother⟩

/-- Every time in the range is kept, at its first frame. -/
theorem readFrames_complete {index : Nat} {previous : Int} {last : Option Int} {frames : List Int}
    {timestamps : List (Nat × Int)}
    (h : readFrames start stop index previous last frames = .ok timestamps) {stamp : Int}
    (hstamp : stamp ∈ frames) (hin : start ≤ stamp ∧ stamp < stop) (hlast : ∀ l ∈ last, l < stamp) :
    ∃ i, (i, stamp) ∈ timestamps := by
  induction frames generalizing index previous last timestamps with
  | nil => cases hstamp
  | cons first rest ih =>
    obtain ⟨-, hsorted⟩ := readFrames_sorted h
    obtain ⟨hfirst, -⟩ := List.pairwise_cons.mp hsorted
    unfold readFrames at h
    split at h
    · cases h
    · split at h
      · obtain ⟨more, hmore, htimestamps⟩ := bind_ok.mp h
        obtain rfl := Except.ok.inj htimestamps
        by_cases heq : first = stamp
        · exact ⟨index, by rw [heq]; exact List.mem_cons_self⟩
        · have hrest : stamp ∈ rest := (List.mem_cons.mp hstamp).resolve_left (Ne.symm heq)
          have hle := hfirst stamp hrest
          obtain ⟨i, hi⟩ := ih hmore hrest fun l hl => by
            obtain rfl := Option.some.inj hl
            omega
          exact ⟨i, List.mem_cons_of_mem _ hi⟩
      · rename_i hdropped
        rcases List.mem_cons.mp hstamp with rfl | hrest
        · exact absurd ⟨hin.1, hin.2, hlast⟩ hdropped
        · exact ih h hrest hlast

/-- Kept frames stand in the order of their positions and of their times. -/
theorem readFrames_increasing {index : Nat} {previous : Int} {last : Option Int} {frames : List Int}
    {timestamps : List (Nat × Int)}
    (h : readFrames start stop index previous last frames = .ok timestamps) :
    timestamps.Pairwise fun a b => a.1 < b.1 ∧ a.2 < b.2 := by
  induction frames generalizing index previous last timestamps with
  | nil =>
    obtain rfl : [] = timestamps := Except.ok.inj h
    exact .nil
  | cons first rest ih =>
    unfold readFrames at h
    split at h
    · cases h
    · split at h
      · obtain ⟨more, hmore, htimestamps⟩ := bind_ok.mp h
        obtain rfl := Except.ok.inj htimestamps
        refine List.pairwise_cons.mpr ⟨fun frame hframe => ?_, ih hmore⟩
        obtain ⟨n, hn, -, -, hlast, -⟩ := (mem_readFrames hmore frame.1 frame.2).mp hframe
        have hlater := hlast first rfl
        exact ⟨by omega, hlater⟩
      · exact ih h

/-- Frames that do not go back in time are read. -/
theorem readFrames_total {index : Nat} {previous : Int} {last : Option Int} {frames : List Int}
    (hprevious : ∀ stamp ∈ frames, previous ≤ stamp) (hsorted : frames.Pairwise (· ≤ ·)) :
    ∃ timestamps, readFrames start stop index previous last frames = .ok timestamps := by
  induction frames generalizing index previous last with
  | nil => exact ⟨[], rfl⟩
  | cons first rest ih =>
    obtain ⟨hfirst, hrest⟩ := List.forall_mem_cons.mp hprevious
    obtain ⟨hle, hsorted⟩ := List.pairwise_cons.mp hsorted
    unfold readFrames
    rw [if_neg (by omega)]
    split
    · have hmore : ∃ more, readFrames start stop (index + 1) first (some first) rest = .ok more :=
        ih hle hsorted
      obtain ⟨more, hmore⟩ := hmore
      exact ⟨_, bind_ok.mpr ⟨more, hmore, rfl⟩⟩
    · exact ih hle hsorted

end Frames

/-! ## The grid -/

section Grid

variable {start stop step : Int}

/-- The chosen frames, each once and in order, are the first ones at or after the points of the
grid whose cells hold a frame. -/
structure FirstOnGrid (start stop step : Int) (frames : List Int)
    (chosen : List (Nat × Int)) : Prop where
  order : (chosen.map Prod.fst).Pairwise (· < ·)
  exact : ∀ index stamp, (index, stamp) ∈ chosen ↔ frames[index]? = some stamp ∧ stamp < stop ∧
    ∃ k : Nat, start + (k : Int) * step ≤ stamp ∧ stamp < start + ((k : Int) + 1) * step ∧
      ∀ j < index, ∀ other, frames[j]? = some other → other < start + (k : Int) * step

/-- The cell of the grid that holds a time. -/
def cell (start step t : Int) : Int := (t - start) / step

theorem le_cell (hstep : 1 ≤ step) {c t : Int} : c ≤ cell start step t ↔ start + c * step ≤ t := by
  have hdiv : c ≤ (t - start) / step ↔ c * step ≤ t - start :=
    Int.le_ediv_iff_mul_le (show 0 < step from hstep)
  unfold cell
  omega

theorem cell_lt (hstep : 1 ≤ step) {c t : Int} : cell start step t < c ↔ t < start + c * step := by
  have hle : c ≤ cell start step t ↔ start + c * step ≤ t := le_cell hstep
  omega

theorem chooseFrames_sublist (threshold : Int) (timestamps : List (Nat × Int)) :
    (chooseFrames start step threshold timestamps).Sublist timestamps := by
  induction timestamps generalizing threshold with
  | nil => exact .slnil
  | cons frame rest ih =>
    unfold chooseFrames
    split
    · exact (ih _).cons_cons _
    · exact (ih _).cons _

variable (start) in
/-- From the start of a cell on, a frame is chosen iff no earlier frame is in its cell. -/
theorem mem_chooseFrames (hstep : 1 ≤ step) (c : Int) {timestamps : List (Nat × Int)}
    (hincreasing : timestamps.Pairwise fun a b => a.1 < b.1 ∧ a.2 < b.2) (frame : Nat × Int) :
    frame ∈ chooseFrames start step (start + c * step) timestamps ↔ frame ∈ timestamps ∧
      c ≤ cell start step frame.2 ∧
      ∀ other ∈ timestamps, other.2 < frame.2 → cell start step other.2 < cell start step frame.2 := by
  induction timestamps generalizing c with
  | nil => simp [chooseFrames]
  | cons first rest ih =>
    obtain ⟨hfirst, hrest⟩ := List.pairwise_cons.mp hincreasing
    have hlater : ∀ other ∈ rest, first.2 < other.2 := fun other hother => (hfirst other hother).2
    have hthreshold : c ≤ cell start step first.2 ↔ start + c * step ≤ first.2 := le_cell hstep
    unfold chooseFrames
    split
    · rename_i htaken
      have hc := hthreshold.mpr htaken
      have hnext : start + ((first.2 - start) / step + 1) * step =
          start + (cell start step first.2 + 1) * step := rfl
      rw [hnext, List.mem_cons, ih _ hrest]
      constructor
      · rintro (rfl | ⟨hmem, hcell, hall⟩)
        · refine ⟨List.mem_cons_self, hc, fun other hother hlt => ?_⟩
          rcases List.mem_cons.mp hother with rfl | hother
          · omega
          · have := hlater other hother
            omega
        · refine ⟨List.mem_cons_of_mem _ hmem, by omega, fun other hother hlt => ?_⟩
          rcases List.mem_cons.mp hother with rfl | hother
          · omega
          · exact hall other hother hlt
      · rintro ⟨hmem, hcell, hall⟩
        rcases List.mem_cons.mp hmem with rfl | hmem
        · exact .inl rfl
        · have hbefore := hall first List.mem_cons_self (hlater frame hmem)
          exact .inr ⟨hmem, by omega, fun other hother =>
            hall other (List.mem_cons_of_mem _ hother)⟩
    · rename_i hskipped
      have hc : cell start step first.2 < c := by
        rw [← hthreshold] at hskipped
        omega
      rw [ih c hrest]
      constructor
      · rintro ⟨hmem, hcell, hall⟩
        refine ⟨List.mem_cons_of_mem _ hmem, hcell, fun other hother hlt => ?_⟩
        rcases List.mem_cons.mp hother with rfl | hother
        · omega
        · exact hall other hother hlt
      · rintro ⟨hmem, hcell, hall⟩
        rcases List.mem_cons.mp hmem with rfl | hmem
        · omega
        · exact ⟨hmem, hcell, fun other hother => hall other (List.mem_cons_of_mem _ hother)⟩

/-- What is kept of the frames of a range. -/
structure Kept (start stop : Int) (frames : List Int) (timestamps : List (Nat × Int)) : Prop where
  sorted : frames.Pairwise (· ≤ ·)
  increasing : timestamps.Pairwise fun a b => a.1 < b.1 ∧ a.2 < b.2
  exact : ∀ index stamp, (index, stamp) ∈ timestamps ↔ frames[index]? = some stamp ∧
    (start ≤ stamp ∧ stamp < stop) ∧ ∀ j < index, ∀ other, frames[j]? = some other → other < stamp
  complete : ∀ stamp ∈ frames, start ≤ stamp → stamp < stop → ∃ index, (index, stamp) ∈ timestamps
  nonempty : timestamps ≠ []

theorem frameTimestamps_kept {frames : List Int} {timestamps : List (Nat × Int)}
    (h : frameTimestamps start stop frames = .ok timestamps) : Kept start stop frames timestamps := by
  simp only [frameTimestamps, bind_ok, require_ok, exists_const] at h
  obtain ⟨kept, hkept, hsome, hresult⟩ := h
  obtain rfl := Except.ok.inj hresult
  refine ⟨(readFrames_sorted hkept).2, readFrames_increasing hkept, fun index stamp => ?_, ?_, hsome⟩
  · rw [mem_readFrames hkept]
    constructor
    · rintro ⟨n, rfl, hn, hin, -, hbefore⟩
      rw [Nat.zero_add]
      exact ⟨hn, hin, hbefore⟩
    · rintro ⟨hn, hin, hbefore⟩
      exact ⟨index, by omega, hn, hin, fun l hl => absurd hl (by simp), hbefore⟩
  · intro stamp hstamp hstart hstop
    exact readFrames_complete hkept hstamp ⟨hstart, hstop⟩ fun l hl => absurd hl (by simp)

/-- Frames that do not go back in time are kept, if one is in the range. -/
theorem frameTimestamps_total {frames : List Int} (hfirst : ∀ stamp ∈ frames, -1 ≤ stamp)
    (hsorted : frames.Pairwise (· ≤ ·)) (hsome : ∃ stamp ∈ frames, start ≤ stamp ∧ stamp < stop) :
    ∃ timestamps, frameTimestamps start stop frames = .ok timestamps := by
  have hread : ∃ timestamps, readFrames start stop 0 (-1) none frames = .ok timestamps :=
    readFrames_total hfirst hsorted
  obtain ⟨timestamps, htimestamps⟩ := hread
  obtain ⟨stamp, hstamp, hin⟩ := hsome
  obtain ⟨index, hindex⟩ := readFrames_complete htimestamps hstamp hin fun l hl => absurd hl (by simp)
  refine ⟨timestamps, bind_ok.mpr ⟨timestamps, htimestamps, bind_ok.mpr ⟨(), ?_, rfl⟩⟩⟩
  exact require_ok.mpr (List.ne_nil_of_mem hindex)

theorem chooseFrames_first (hstep : 1 ≤ step) {frames : List Int} {timestamps : List (Nat × Int)}
    (h : Kept start stop frames timestamps) :
    FirstOnGrid start stop step frames (chooseFrames start step start timestamps) := by
  have hexact (frame : Nat × Int) : frame ∈ chooseFrames start step start timestamps ↔
      frame ∈ timestamps ∧ 0 ≤ cell start step frame.2 ∧ ∀ other ∈ timestamps,
        other.2 < frame.2 → cell start step other.2 < cell start step frame.2 := by
    have hmem := mem_chooseFrames start hstep 0 h.increasing frame
    rwa [Int.zero_mul, Int.add_zero] at hmem
  refine ⟨?_, fun index stamp => ?_⟩
  · rw [List.pairwise_map]
    exact (h.increasing.sublist (chooseFrames_sublist _ _)).imp fun hlt => hlt.1
  · rw [hexact, h.exact]
    constructor
    · rintro ⟨⟨hget, ⟨hle, hlt⟩, hbefore⟩, hcell, hall⟩
      have hat : start + cell start step stamp * step ≤ stamp := (le_cell hstep).mp (Int.le_refl _)
      have hnext : stamp < start + (cell start step stamp + 1) * step :=
        (cell_lt hstep).mp (by omega)
      refine ⟨hget, hlt, (cell start step stamp).toNat, ?_⟩
      rw [Int.toNat_of_nonneg hcell]
      refine ⟨hat, hnext, fun j hj other hother => ?_⟩
      have hearlier : other < stamp := hbefore j hj other hother
      rw [← cell_lt hstep]
      by_cases hin : start ≤ other
      · obtain ⟨i, hi⟩ := h.complete other (List.mem_of_getElem? hother) hin (by omega)
        exact hall (i, other) hi hearlier
      · have hneg : cell start step other < 0 := (cell_lt hstep).mpr (by omega)
        exact Int.lt_of_lt_of_le hneg hcell
    · rintro ⟨hget, hlt, k, hat, hnext, hbefore⟩
      have hk : 0 ≤ (k : Int) * step := Int.mul_nonneg (by omega) (by omega)
      have hcell : (k : Int) ≤ cell start step stamp := (le_cell hstep).mpr hat
      refine ⟨⟨hget, ⟨by omega, hlt⟩, fun j hj other hother => ?_⟩, ?_, fun other hother hearlier => ?_⟩
      · have := hbefore j hj other hother
        omega
      · simp only
        omega
      · obtain ⟨hgetOther, -, -⟩ := (h.exact other.1 other.2).mp hother
        have hindex : other.1 < index := by
          by_contra hnot
          obtain ⟨hi, hstamp⟩ := List.getElem?_eq_some_iff.mp hget
          obtain ⟨hj, hothers⟩ := List.getElem?_eq_some_iff.mp hgetOther
          rcases Nat.lt_or_ge index other.1 with hlater | hsame
          · have hle := List.pairwise_iff_getElem.mp h.sorted index other.1 hi hj hlater
            omega
          · have heq : index = other.1 := by omega
            subst heq
            omega
        have hcellOther : cell start step other.2 < k :=
          (cell_lt hstep).mpr (hbefore other.1 hindex other.2 hgetOther)
        simp only
        omega

end Grid

/-! ## What a builder accepts -/

section Accepting

variable {kind : NativeMediaKind} {start stop : Int}

theorem checkOrder_ok {previous : Option (List Int)} {units : List Interval} :
    checkOrder kind start stop previous units = .ok () ↔
      (∀ unit ∈ units, withinRange start stop kind unit) ∧
      (∀ p ∈ previous, ∀ unit ∈ units.head?, p < coordinate kind unit) ∧
      units.IsChain fun a b => coordinate kind a < coordinate kind b := by
  induction units generalizing previous with
  | nil => simp [checkOrder]
  | cons unit rest ih =>
    simp only [checkOrder, bind_ok, require_ok, exists_const, ih, List.forall_mem_cons,
      List.isChain_cons, List.head?_cons, Option.mem_some_iff, forall_eq']
    constructor
    · rintro ⟨hin, hprevious, hrest, hnext, hchain⟩
      exact ⟨⟨hin, hrest⟩, hprevious, hnext, hchain⟩
    · rintro ⟨⟨hin, hrest⟩, hprevious, hnext, hchain⟩
      exact ⟨hin, hprevious, hrest, hnext, hchain⟩

/-- A builder accepts observations in the range with strictly increasing coordinates. -/
theorem acceptUnits_ok {units : List Interval} : acceptUnits kind start stop units = .ok () ↔
    units ≠ [] ∧ (∀ unit ∈ units, withinRange start stop kind unit) ∧
      units.IsChain fun a b => coordinate kind a < coordinate kind b := by
  simp only [acceptUnits, bind_ok, checkAll_ok, require_ok, exists_const, checkOrder_ok]
  constructor
  · rintro ⟨-, hne, hin, -, hchain⟩
    exact ⟨hne, hin, hchain⟩
  · rintro ⟨hne, hin, hchain⟩
    refine ⟨fun unit hunit => ?_, hne, hin, fun p hp => absurd hp (by simp), hchain⟩
    have hwithin := hin unit hunit
    rw [observe, require_ok]
    intro hkind
    cases kind with
    | frames => exact absurd rfl hkind
    | audio =>
      have := hwithin.2.1
      omega
    | video =>
      have := hwithin.2.1
      omega

theorem coordinate_video (unit : Interval) : coordinate .video unit = [unit.1, unit.2] := rfl

theorem pair_lt {a b c d : Int} : ([a, b] : List Int) < [c, d] ↔ a < c ∨ a = c ∧ b < d := by
  simp [List.cons_lt_cons_iff]

variable {policy : NativeMediaPolicy} {durationMs : Int} {frames : List Int}

theorem windows_ne_nil (hrange : policy.range durationMs = .ok (start, stop))
    {windows : List Interval} (h : policy.windows durationMs = .ok windows) : windows ≠ [] := by
  obtain ⟨-, hlt, -⟩ := NativeMediaPolicy.range_ok hrange
  obtain ⟨rfl, -⟩ := NativeMediaPolicy.windows_ok hrange h
  have hfirst : start ∈ pyRange start stop policy.hopMs :=
    (mem_pyRange policy.hop_pos).mpr ⟨0, by simp, hlt⟩
  exact List.ne_nil_of_mem (List.mem_map_of_mem hfirst)

theorem audio_accepted (hrange : policy.range durationMs = .ok (start, stop))
    {windows : List Interval} (h : policy.windows durationMs = .ok windows) :
    acceptUnits .audio start stop windows = .ok () := by
  have hsound := windows_sound hrange h
  refine acceptUnits_ok.mpr ⟨windows_ne_nil hrange h, hsound.inside, ?_⟩
  have hstarts := hsound.increasing
  rw [List.pairwise_map] at hstarts
  exact (hstarts.imp fun hlt => pair_lt.mpr (.inl hlt)).isChain

theorem frames_accepted {timestamps : List (Nat × Int)} (h : Kept start stop frames timestamps) :
    acceptUnits .frames start stop ((chooseFrames start policy.frameStepMs start timestamps).map
      fun frame => (frame.2, frame.2)) = .ok () := by
  have hsublist : (chooseFrames start policy.frameStepMs start timestamps).Sublist timestamps :=
    chooseFrames_sublist start timestamps
  have hin (frame : Nat × Int) (hframe : frame ∈ timestamps) : start ≤ frame.2 ∧ frame.2 < stop :=
    ((h.exact frame.1 frame.2).mp hframe).2.1
  refine acceptUnits_ok.mpr ⟨?_, ?_, ?_⟩
  · obtain ⟨first, rest, rfl⟩ := List.exists_cons_of_ne_nil h.nonempty
    have hfirst := (hin first List.mem_cons_self).1
    simp [chooseFrames, hfirst]
  · intro unit hunit
    obtain ⟨frame, hframe, rfl⟩ := List.mem_map.mp hunit
    exact hin frame (hsublist.subset hframe)
  · have hincreasing := h.increasing.sublist hsublist
    apply List.Pairwise.isChain
    rw [List.pairwise_map]
    apply hincreasing.imp
    intro a b hab
    simp [coordinate, List.cons_lt_cons_iff, hab.2]

/-! ## Videos -/

/-- A window starts at its first frame. -/
theorem videoUnit_ok {timestamps : List (Nat × Int)} (h : Kept start stop frames timestamps)
    {window unit : Interval} (hunit : videoUnit timestamps window = .ok unit) :
    unit.2 = window.2 ∧ (window.1 ≤ unit.1 ∧ unit.1 < window.2) ∧
      (unit.1 ∈ frames ∧ unit.1 < stop) ∧
      ∀ frame ∈ timestamps, window.1 ≤ frame.2 → unit.1 ≤ frame.2 := by
  unfold videoUnit at hunit
  split at hunit
  · rename_i frame hfind
    obtain rfl := Except.ok.inj hunit
    obtain ⟨hin, before, after, hsplit, hbefore⟩ := List.find?_eq_some_iff_append.mp hfind
    rw [Bool.and_eq_true, decide_eq_true_eq, decide_eq_true_eq] at hin
    have hmem : frame ∈ timestamps := List.mem_of_find?_eq_some hfind
    obtain ⟨hget, hrange, -⟩ := (h.exact frame.1 frame.2).mp hmem
    refine ⟨rfl, hin, ⟨List.mem_of_getElem? hget, hrange.2⟩, fun other hother hle => ?_⟩
    have hincreasing := h.increasing
    rw [hsplit] at hother hincreasing
    rcases List.mem_append.mp hother with hother | hother
    · have hnot := hbefore other hother
      simp only [Bool.not_eq_true', Bool.and_eq_false_iff, decide_eq_false_iff_not] at hnot
      rcases hnot with hnot | hnot
      · exact absurd hle hnot
      · simp only
        omega
    · rcases List.mem_cons.mp hother with rfl | hother
      · exact Int.le_refl _
      · have hafter := (List.pairwise_cons.mp (List.pairwise_append.mp hincreasing).2.1).1 other hother
        exact Int.le_of_lt hafter.2
  · cases hunit

/-- Windows that end together have a frame between their starts. -/
def WindowsApart (frames : List Int) (windows : List Interval) : Prop :=
  windows.IsChain fun window next =>
    window.2 = next.2 → ∃ stamp ∈ frames, window.1 ≤ stamp ∧ stamp < next.1

/-- Neighbouring windows give increasing units iff they do not end together, or are apart. -/
theorem videoUnits_lt {timestamps : List (Nat × Int)} (h : Kept start stop frames timestamps)
    {window next unit nextUnit : Interval} (hunit : videoUnit timestamps window = .ok unit)
    (hnextUnit : videoUnit timestamps next = .ok nextUnit) (hstart : start ≤ window.1)
    (hstarts : window.1 < next.1) (hends : window.2 ≤ next.2) :
    coordinate .video unit < coordinate .video nextUnit ↔
      (window.2 = next.2 → ∃ stamp ∈ frames, window.1 ≤ stamp ∧ stamp < next.1) := by
  obtain ⟨hend, hin, ⟨hframe, hstop⟩, hfirst⟩ := videoUnit_ok h hunit
  obtain ⟨hnextEnd, hnextIn, ⟨hnextFrame, hnextStop⟩, hnextFirst⟩ := videoUnit_ok h hnextUnit
  have hordered : unit.1 ≤ nextUnit.1 := by
    obtain ⟨i, hi⟩ := h.complete nextUnit.1 hnextFrame (by omega) hnextStop
    exact hfirst (i, nextUnit.1) hi (by simp only; omega)
  rw [coordinate_video, coordinate_video, pair_lt]
  constructor
  · rintro (hlt | ⟨-, hlt⟩) heq
    · refine ⟨unit.1, hframe, hin.1, ?_⟩
      by_contra hnot
      obtain ⟨i, hi⟩ := h.complete unit.1 hframe (by omega) hstop
      have hle : nextUnit.1 ≤ unit.1 := hnextFirst (i, unit.1) hi (by simp only; omega)
      omega
    · omega
  · intro hapart
    by_cases heq : window.2 = next.2
    · obtain ⟨stamp, hstamp, hle, hlt⟩ := hapart heq
      obtain ⟨i, hi⟩ := h.complete stamp hstamp (by omega) (by omega)
      have hearly : unit.1 ≤ stamp := hfirst (i, stamp) hi hle
      exact .inl (by omega)
    · rcases Int.lt_or_eq_of_le hordered with hlt | hsame
      · exact .inl hlt
      · exact .inr ⟨hsame, by omega⟩

/-- The units of a video increase iff its windows are apart. -/
theorem videoUnits_increasing {timestamps : List (Nat × Int)} (h : Kept start stop frames timestamps)
    {windows units : List Interval}
    (hunits : List.Forall₂ (fun window unit => videoUnit timestamps window = .ok unit) windows units)
    (hstart : ∀ window ∈ windows, start ≤ window.1)
    (hordered : windows.IsChain fun a b => a.1 < b.1 ∧ a.2 ≤ b.2) :
    (units.IsChain fun a b => coordinate .video a < coordinate .video b) ↔
      WindowsApart frames windows := by
  unfold WindowsApart
  induction hunits with
  | nil => simp
  | @cons window unit windows units hunit hrest ih =>
    obtain ⟨hfirst, hstart⟩ := List.forall_mem_cons.mp hstart
    cases hrest with
    | nil => simp
    | cons hnextUnit hmore =>
      rw [List.isChain_cons_cons] at hordered ⊢
      rw [List.isChain_cons_cons, ih hstart hordered.2,
        videoUnits_lt h hunit hnextUnit hfirst hordered.1.1 hordered.1.2]

theorem windows_ordered (hrange : policy.range durationMs = .ok (start, stop))
    {windows : List Interval} (h : policy.windows durationMs = .ok windows) :
    windows.IsChain fun a b => a.1 < b.1 ∧ a.2 ≤ b.2 := by
  obtain ⟨rfl, -⟩ := NativeMediaPolicy.windows_ok hrange h
  apply List.Pairwise.isChain
  rw [List.pairwise_map]
  apply (pyRange_increasing policy.hop_pos).imp
  intro a b hab
  exact ⟨hab, by simp only; omega⟩

theorem video_accepted_iff (hrange : policy.range durationMs = .ok (start, stop))
    {timestamps : List (Nat × Int)} (h : Kept start stop frames timestamps)
    {windows units : List Interval} (hwindows : policy.windows durationMs = .ok windows)
    (hunits : mapAll (videoUnit timestamps) windows = .ok units) :
    acceptUnits .video start stop units = .ok () ↔ WindowsApart frames windows := by
  have hsound := windows_sound hrange hwindows
  have hpairs := mapAll_forall₂ hunits
  rw [acceptUnits_ok, videoUnits_increasing h hpairs (fun w hw => (hsound.inside w hw).1)
    (windows_ordered hrange hwindows)]
  constructor
  · exact fun hall => hall.2.2
  · intro hapart
    refine ⟨?_, fun unit hunit => ?_, hapart⟩
    · rintro rfl
      cases hpairs
      exact windows_ne_nil hrange hwindows rfl
    · obtain ⟨window, hwindow, hof⟩ := mapAll_ok_mem hunits unit hunit
      obtain ⟨hend, hin, -, -⟩ := videoUnit_ok h hof
      have hinside := hsound.inside window hwindow
      exact ⟨by omega, by omega, by omega⟩

end Accepting

/-! ## The plan -/

section Plan

variable (policy : NativeMediaPolicy) (durationMs : Int) (frames : List Int) (start stop : Int)

/-- The windows of a range are sound, its frames are chosen on the grid, and whatever a plan
yields is accepted by the builder of its kind. -/
structure PlanSound : Prop where
  windows : ∀ windows, policy.windows durationMs = .ok windows →
    WindowsSound policy start stop windows
  chosen : ∀ timestamps, frameTimestamps start stop frames = .ok timestamps →
    FirstOnGrid start stop policy.frameStepMs frames
      (chooseFrames start policy.frameStepMs start timestamps)
  accepted : ∀ kind units, planUnits policy kind durationMs frames = .ok units →
    acceptUnits kind start stop units = .ok ()

/-- The windows are apart, if all of them hold a frame; a frame before `-1` is not read. -/
def Apart : Prop :=
  (∀ stamp ∈ frames, -1 ≤ stamp) → ∀ windows, policy.windows durationMs = .ok windows →
    (∀ window ∈ windows, ∃ stamp ∈ frames, window.1 ≤ stamp ∧ stamp < window.2) →
    WindowsApart frames windows

variable {policy durationMs frames start stop}

/-- Every window that holds a frame of the source has a first one. -/
theorem videoUnits_total (hrange : policy.range durationMs = .ok (start, stop))
    {timestamps : List (Nat × Int)} (h : Kept start stop frames timestamps)
    {windows : List Interval} (hwindows : policy.windows durationMs = .ok windows)
    (hheld : ∀ window ∈ windows, ∃ stamp ∈ frames, window.1 ≤ stamp ∧ stamp < window.2) :
    ∃ units, mapAll (videoUnit timestamps) windows = .ok units := by
  apply mapAll_total
  intro window hwindow
  obtain ⟨stamp, hstamp, hle, hlt⟩ := hheld window hwindow
  have hinside := (windows_sound hrange hwindows).inside window hwindow
  obtain ⟨i, hi⟩ := h.complete stamp hstamp (by omega) (by omega)
  unfold videoUnit
  split
  · exact ⟨_, rfl⟩
  · rename_i hnone
    have hnot := List.find?_eq_none.mp hnone (i, stamp) hi
    simp [hle, hlt] at hnot

theorem planUnits_video (hrange : policy.range durationMs = .ok (start, stop))
    {units : List Interval} : planUnits policy .video durationMs frames = .ok units ↔
      ∃ timestamps, frameTimestamps start stop frames = .ok timestamps ∧
        ∃ windows, policy.windows durationMs = .ok windows ∧
          mapAll (videoUnit timestamps) windows = .ok units := by
  simp only [planUnits, hrange, bind_ok, Except.ok.injEq, exists_eq_left']

theorem plan_accepted (hrange : policy.range durationMs = .ok (start, stop))
    (hapart : Apart policy durationMs frames) {kind : NativeMediaKind} {units : List Interval}
    (h : planUnits policy kind durationMs frames = .ok units) :
    acceptUnits kind start stop units = .ok () := by
  cases kind with
  | frames =>
    simp only [planUnits, hrange, bind_ok, require_ok, Except.ok.injEq, exists_eq_left',
      exists_const] at h
    obtain ⟨timestamps, htimestamps, -, rfl⟩ := h
    exact frames_accepted (frameTimestamps_kept htimestamps)
  | audio =>
    simp only [planUnits, hrange, bind_ok, Except.ok.injEq, exists_eq_left'] at h
    exact audio_accepted hrange h
  | video =>
    obtain ⟨timestamps, htimestamps, windows, hwindows, hunits⟩ := (planUnits_video hrange).mp h
    have hkept := frameTimestamps_kept htimestamps
    rw [video_accepted_iff hrange hkept hwindows hunits]
    refine hapart ?_ windows hwindows fun window hwindow => ?_
    · obtain ⟨kept, hkept, -⟩ := bind_ok.mp htimestamps
      exact (readFrames_sorted hkept).1
    · obtain ⟨unit, -, hunit⟩ := mapAll_ok_mem_of_mem hunits window hwindow
      obtain ⟨-, hin, ⟨hframe, -⟩, -⟩ := videoUnit_ok hkept hunit
      exact ⟨unit.1, hframe, hin⟩

/-- The decoding plan is sound iff windows that end together have frames between their starts. -/
theorem planSound_iff (hrange : policy.range durationMs = .ok (start, stop))
    (hsorted : frames.Pairwise (· ≤ ·)) :
    PlanSound policy durationMs frames start stop ↔ Apart policy durationMs frames := by
  constructor
  · intro hsound hfirst windows hwindows hheld
    have hwindow := windows_sound hrange hwindows
    obtain ⟨window, hmem⟩ := List.exists_mem_of_ne_nil _ (windows_ne_nil hrange hwindows)
    obtain ⟨stamp, hstamp, hle, hlt⟩ := hheld window hmem
    have hinside := hwindow.inside window hmem
    have hread : ∃ timestamps, frameTimestamps start stop frames = .ok timestamps :=
      frameTimestamps_total hfirst hsorted ⟨stamp, hstamp, by omega, by omega⟩
    obtain ⟨timestamps, htimestamps⟩ := hread
    have hkept := frameTimestamps_kept htimestamps
    obtain ⟨units, hunits⟩ := videoUnits_total hrange hkept hwindows hheld
    rw [← video_accepted_iff hrange hkept hwindows hunits]
    exact hsound.accepted .video units
      ((planUnits_video hrange).mpr ⟨timestamps, htimestamps, windows, hwindows, hunits⟩)
  · intro hapart
    exact ⟨fun _ => windows_sound hrange,
      fun _ htimestamps => chooseFrames_first policy.frameStep_pos (frameTimestamps_kept htimestamps),
      fun _ _ => plan_accepted hrange hapart⟩

end Plan

/-! ## Windows that overlap -/

theorem overlapping_end_after : ∀ stop ∈ (none : Option Int), (0 : Int) < stop := by decide

theorem overlapping_positive : ∀ value ∈ [(2000 : Int), 1000, 1000, 128, 60000], 1 ≤ value := by
  decide

theorem overlapping_bounded : (128 : Int) ≤ 10000 := by decide

/-- Windows of two seconds every second. -/
def overlapping : NativeMediaPolicy :=
  ⟨0, none, 2000, 1000, 1000, 128, 60000, Int.le_refl 0, overlapping_end_after,
    overlapping_positive, overlapping_bounded⟩

theorem overlapping_range : overlapping.range 3000 = .ok (0, 3000) := by decide

/-- The last two windows begin with the same frame. -/
theorem overlapping_refused : ¬ PlanSound overlapping 3000 [500, 2500] 0 3000 := by
  intro h
  have hplan : planUnits overlapping .video 3000 [500, 2500] =
      .ok [(500, 2000), (2500, 3000), (2500, 3000)] := by decide +kernel
  have hrefused : acceptUnits .video 0 3000 [(500, 2000), (2500, 3000), (2500, 3000)] =
      .error .observationOrderInvalid := by decide +kernel
  have haccepted := h.accepted .video _ hplan
  rw [hrefused] at haccepted
  cases haccepted

theorem planSound_iff_overlapping :
    overlapping.range 3000 = .ok (0, 3000) ∧
      (PlanSound overlapping 3000 [500, 1500, 2500] 0 3000 ↔
        Apart overlapping 3000 [500, 1500, 2500]) :=
  ⟨overlapping_range, planSound_iff overlapping_range (by decide)⟩

end MDRack.Media.Native
