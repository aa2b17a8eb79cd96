import Mathlib.Data.List.Chain
import MDRack.Markdown.Merging

/-!
# Splitting is a greedy partition (`_split_range`, `_pack_units`)

* `Partitioned` — ranges within the budget that fill a range end to end.
* `Block` — what one call of `packUnits` makes: a range of whole units, or the ranges into which
  one unit over the budget is cut.

Principal result: `splitRange_partitions` — splitting ends without an error in a partition, and no
two neighbouring ranges of whole units fit together within the budget.
-/

namespace MDRack.Markdown

open Checks
open Tiling (Tiles)

/-- The levels that are tried from a level on. -/
def levelsFrom (level : Nat) : List Level := [Level.paragraphs, .sentences, .words].drop level

/-- Nonempty ranges within the budget, end to end. -/
structure Partitioned (text : List Char) (budget : Budget) (start stop : Nat)
    (pieces : List Range) : Prop where
  tiles : Tiles Prod.fst Prod.snd start pieces stop
  within : ∀ piece ∈ pieces, budget.holds (text.extract piece.1 piece.2) = true

/-! ## Budgets -/

section Budgets

variable {text : List Char} {budget : Budget}

theorem extract_prefix (text : List Char) (i : Nat) {j k : Nat} (h : j ≤ k) :
    text.extract i j <+: text.extract i k := by
  rw [List.extract, List.extract]
  exact List.take_prefix_take_left (Nat.sub_le_sub_right h i)

/-- A text that is over the budget is over it when it goes on. -/
theorem Budget.over_mono {i j k : Nat} (hjk : j ≤ k)
    (h : budget.holds (text.extract i j) = false) : budget.holds (text.extract i k) = false := by
  have hprefix := extract_prefix text i hjk
  have hlength := hprefix.length_le
  have hbytes := byteLength_prefix_le hprefix
  rw [Bool.eq_false_iff] at h ⊢
  intro hk
  rw [Budget.holds_iff] at hk
  apply h
  rw [Budget.holds_iff]
  omega

theorem byteLength_le_of_length_le_one {cs : List Char} (h : cs.length ≤ 1) : byteLength cs ≤ 4 := by
  cases cs with
  | nil => exact Nat.zero_le 4
  | cons c rest =>
    have hrest : rest = [] := List.eq_nil_of_length_eq_zero (by simpa using h)
    subst hrest
    simpa [byteLength] using c.utf8Size_le_four

/-- One character always fits. -/
theorem fitting_pos (hbytes : 4 ≤ budget.maxBytes) (cursor : Nat) {n : Nat} (hn : 0 < n) :
    0 < fitting text budget cursor n := by
  induction n with
  | zero => omega
  | succ n ih =>
    unfold fitting
    split
    · exact Nat.succ_pos n
    · rename_i hover
      apply ih
      rcases Nat.eq_zero_or_pos n with rfl | hn
      · have hlength : (text.extract cursor (cursor + (0 + 1))).length ≤ 1 := by
          rw [List.extract, List.length_take]
          omega
        have hone := byteLength_le_of_length_le_one hlength
        omega
      · exact hn

end Budgets

/-! ## The last level -/

section Pieces

variable {text : List Char} {budget : Budget} {start stop : Nat} {pieces : List Range}

theorem hardPieces_total (hchars : 1 ≤ budget.maxChars) (hbytes : 4 ≤ budget.maxBytes)
    (fuel cursor : Nat) : ∃ pieces, hardPieces text budget stop fuel cursor = .ok pieces := by
  induction fuel generalizing cursor with
  | zero => exact ⟨[], rfl⟩
  | succ fuel ih =>
    unfold hardPieces
    split
    · have hpos : 0 < fitting text budget cursor (min stop (cursor + budget.maxChars) - cursor) :=
        fitting_pos hbytes cursor (by omega)
      obtain ⟨rest, hrest⟩ := ih (cursor +
        fitting text budget cursor (min stop (cursor + budget.maxChars) - cursor))
      simp only
      rw [if_neg (by omega), hrest]
      exact ⟨_, rfl⟩
    · exact ⟨[], rfl⟩

theorem hardPieces_within {fuel cursor : Nat}
    (h : hardPieces text budget stop fuel cursor = .ok pieces) :
    ∀ piece ∈ pieces, budget.holds (text.extract piece.1 piece.2) = true := by
  induction fuel generalizing cursor pieces with
  | zero =>
    obtain rfl : [] = pieces := Except.ok.inj h
    exact fun piece hpiece => absurd hpiece List.not_mem_nil
  | succ fuel ih =>
    unfold hardPieces at h
    split at h
    · simp only at h
      split at h
      · cases h
      · obtain ⟨rest, hrest, hpieces⟩ := bind_ok.mp h
        obtain rfl := Except.ok.inj hpieces
        have hfit : fitting text budget cursor (min stop (cursor + budget.maxChars) - cursor) ≤
          min stop (cursor + budget.maxChars) - cursor := fitting_le _ _
        refine List.forall_mem_cons.mpr ⟨?_, ih hrest⟩
        rw [Budget.holds_iff]
        refine ⟨?_, fitting_within text budget cursor _⟩
        rw [List.extract, List.length_take]
        omega
    · obtain rfl : [] = pieces := Except.ok.inj h
      exact fun piece hpiece => absurd hpiece List.not_mem_nil

/-! ## Packing -/

theorem packUnits_total {split : Nat → Nat → Except Err (List Range)} {units : List Range}
    (hsplit : ∀ unit ∈ units, ∃ pieces, split unit.1 unit.2 = .ok pieces) (current : Option Range) :
    ∃ pieces, packUnits text budget split current units = .ok pieces := by
  induction units generalizing current with
  | nil => exact ⟨_, rfl⟩
  | cons unit rest ih =>
    obtain ⟨hunit, hrest⟩ := List.forall_mem_cons.mp hsplit
    unfold packUnits
    split
    · cases current with
      | none => exact ih hrest _
      | some packed =>
        simp only
        split
        · exact ih hrest _
        · obtain ⟨more, hmore⟩ := ih hrest (some unit)
          exact ⟨_, bind_ok.mpr ⟨more, hmore, rfl⟩⟩
    · obtain ⟨inner, hinner⟩ := hunit
      obtain ⟨more, hmore⟩ := ih hrest none
      exact ⟨_, bind_ok.mpr ⟨inner, hinner, bind_ok.mpr ⟨more, hmore, rfl⟩⟩⟩

theorem packUnits_within {split : Nat → Nat → Except Err (List Range)} {units : List Range}
    (hsplit : ∀ unit ∈ units, ∀ inner, split unit.1 unit.2 = .ok inner →
      ∀ piece ∈ inner, budget.holds (text.extract piece.1 piece.2) = true)
    {current : Option Range}
    (hcurrent : ∀ packed ∈ current, budget.holds (text.extract packed.1 packed.2) = true)
    (h : packUnits text budget split current units = .ok pieces) :
    ∀ piece ∈ pieces, budget.holds (text.extract piece.1 piece.2) = true := by
  induction units generalizing current pieces with
  | nil =>
    obtain rfl : current.toList = pieces := Except.ok.inj h
    exact fun piece hpiece => hcurrent piece (Option.mem_toList.mp hpiece)
  | cons unit rest ih =>
    obtain ⟨hinner, hrest⟩ := List.forall_mem_cons.mp hsplit
    have hsome {range : Range} (hrange : budget.holds (text.extract range.1 range.2) = true) :
        ∀ packed ∈ some range, budget.holds (text.extract packed.1 packed.2) = true := by
      intro packed hpacked
      obtain rfl := Option.some.inj hpacked
      exact hrange
    unfold packUnits at h
    split at h
    · rename_i hunit
      cases current with
      | none => exact ih hrest (hsome hunit) h
      | some packed =>
        simp only at h
        split at h
        · rename_i hjoined
          exact ih hrest (hsome hjoined) h
        · obtain ⟨more, hmore, hpieces⟩ := bind_ok.mp h
          obtain rfl := Except.ok.inj hpieces
          exact List.forall_mem_cons.mpr ⟨hcurrent packed rfl, ih hrest (hsome hunit) hmore⟩
    · obtain ⟨inner, hsplitted, hpacked⟩ := bind_ok.mp h
      obtain ⟨more, hmore, hpieces⟩ := bind_ok.mp hpacked
      obtain rfl := Except.ok.inj hpieces
      intro piece hpiece
      rw [List.mem_append, List.mem_append] at hpiece
      rcases hpiece with (hpiece | hpiece) | hpiece
      · exact hcurrent piece (Option.mem_toList.mp hpiece)
      · exact hinner inner hsplitted piece hpiece
      · exact ih hrest (fun packed hnone => absurd hnone (by simp)) hmore piece hpiece

end Pieces

/-! ## Blocks -/

/-- A range of whole units, or the ranges of a unit that is cut. -/
inductive Block
  | whole (range : Range) (units : List Range)
  | cut (unit : Range) (ranges : List Range)

namespace Block

def ranges : Block → List Range
  | .whole range _ => [range]
  | .cut _ ranges => ranges

def units : Block → List Range
  | .whole _ units => units
  | .cut unit _ => [unit]

section

variable (text : List Char) (budget : Budget)

/-- How one call makes a block: units within the budget are joined within the budget, and only a
unit over the budget is cut. -/
inductive Made (split : Nat → Nat → Except Err (List Range)) : Block → Prop
  | whole {range : Range} {units : List Range} : units ≠ [] →
      (∀ unit ∈ units, budget.holds (text.extract unit.1 unit.2) = true) →
      budget.holds (text.extract range.1 range.2) = true →
      Tiles Prod.fst Prod.snd range.1 units range.2 → Made split (.whole range units)
  | cut {unit : Range} {ranges : List Range} :
      budget.holds (text.extract unit.1 unit.2) = false → split unit.1 unit.2 = .ok ranges →
      Made split (.cut unit ranges)

/-- Two ranges of whole units do not fit together. -/
def Apart : Block → Block → Prop
  | .whole left _, .whole right _ => budget.holds (text.extract left.1 right.2) = false
  | _, _ => True

/-- The ranges of a call are those of blocks that take up its units in order, and no two
neighbouring blocks of whole units fit together. -/
structure Packed (split : Nat → Nat → Except Err (List Range)) (units pieces : List Range)
    (blocks : List Block) : Prop where
  ranges : blocks.flatMap Block.ranges = pieces
  units : blocks.flatMap Block.units = units
  made : ∀ block ∈ blocks, Made text budget split block
  greedy : blocks.IsChain (Apart text budget)

end

variable {text : List Char} {budget : Budget} {split : Nat → Nat → Except Err (List Range)}
  {units pieces : List Range} {blocks : List Block}

theorem Packed.cons {block : Block} (hblock : Made text budget split block)
    (hapart : ∀ next ∈ blocks.head?, Apart text budget block next)
    (h : Packed text budget split units pieces blocks) :
    Packed text budget split (block.units ++ units) (block.ranges ++ pieces) (block :: blocks) where
  ranges := by rw [List.flatMap_cons, h.ranges]
  units := by rw [List.flatMap_cons, h.units]
  made := List.forall_mem_cons.mpr ⟨hblock, h.made⟩
  greedy := List.isChain_cons.mpr ⟨hapart, h.greedy⟩

/-- The blocks of a call that has begun with units packed in a range. -/
structure Begun (text : List Char) (budget : Budget)
    (split : Nat → Nat → Except Err (List Range)) (packed : Range) (units pieces : List Range)
    (range : Range) (joined : List Range) (more : List Block) : Prop where
  packs : Packed text budget split units pieces (.whole range joined :: more)
  start : range.1 = packed.1
  stop : packed.2 ≤ range.2

/-- A range that is closed does not fit together with the next one, which has begun with a unit. -/
theorem Begun.close {packed unit range : Range} {before joined : List Range} {more : List Block}
    (hmade : Made text budget split (.whole packed before))
    (hover : budget.holds (text.extract packed.1 unit.2) = false)
    (h : Begun text budget split unit units pieces range joined more) :
    Packed text budget split (before ++ units) (packed :: pieces)
      (.whole packed before :: .whole range joined :: more) := by
  apply h.packs.cons hmade
  intro next hnext
  obtain rfl := Option.some.inj hnext
  exact Budget.over_mono h.stop hover

end Block

section Packing

variable {text : List Char} {budget : Budget} {split : Nat → Nat → Except Err (List Range)}

theorem tiles_snoc {lo mid : Nat} {units : List Range} {unit : Range}
    (h : Tiles Prod.fst Prod.snd lo units mid) (hstart : unit.1 = mid) (hlt : mid < unit.2) :
    Tiles Prod.fst Prod.snd lo (units ++ [unit]) unit.2 :=
  h.append ⟨hstart, hlt, rfl⟩

/-- Both states of the loop: nothing is packed, or a range of the units before. -/
theorem packUnits_begun {mid stop : Nat} {units pieces : List Range}
    (hunits : Tiles Prod.fst Prod.snd mid units stop) :
    (packUnits text budget split none units = .ok pieces →
      ∃ blocks, Block.Packed text budget split units pieces blocks) ∧
    ∀ packed before, Block.Made text budget split (.whole packed before) → packed.2 = mid →
      packUnits text budget split (some packed) units = .ok pieces →
      ∃ range joined more,
        Block.Begun text budget split packed (before ++ units) pieces range joined more := by
  induction units generalizing mid pieces with
  | nil =>
    constructor
    · intro h
      obtain rfl : [] = pieces := Except.ok.inj h
      exact ⟨[], rfl, rfl, fun _ hblock => absurd hblock List.not_mem_nil, .nil⟩
    · intro packed before hmade _ h
      obtain rfl : [packed] = pieces := Except.ok.inj h
      refine ⟨packed, before, [], ?_, rfl, Nat.le_refl _⟩
      have hnothing : Block.Packed text budget split [] [] [] :=
        ⟨rfl, rfl, fun _ hblock => absurd hblock List.not_mem_nil, .nil⟩
      exact hnothing.cons hmade fun next hnext => absurd hnext (by simp)
  | cons unit rest ih =>
    obtain ⟨hstart, hlt, hrest⟩ := hunits
    have halone (hunit : budget.holds (text.extract unit.1 unit.2) = true) :
        Block.Made text budget split (.whole unit [unit]) := by
      refine .whole (List.cons_ne_nil _ _) ?_ hunit ⟨rfl, by omega, rfl⟩
      intro other hother
      rwa [List.mem_singleton.mp hother]
    constructor
    · intro h
      unfold packUnits at h
      split at h
      · rename_i hunit
        obtain ⟨range, joined, more, hbegun⟩ := (ih hrest).2 unit [unit] (halone hunit) rfl h
        exact ⟨_, hbegun.packs⟩
      · rename_i hunit
        obtain ⟨inner, hinner, hpacked⟩ := bind_ok.mp h
        obtain ⟨rest, hmore, hpieces⟩ := bind_ok.mp hpacked
        obtain rfl := Except.ok.inj hpieces
        obtain ⟨blocks, hblocks⟩ := (ih hrest).1 hmore
        have hcut : Block.Made text budget split (.cut unit inner) :=
          .cut (by simpa using hunit) hinner
        exact ⟨_, hblocks.cons hcut fun next _ => by cases next <;> trivial⟩
    · intro packed before hmade hpacked h
      unfold packUnits at h
      split at h
      · rename_i hunit
        simp only at h
        split at h
        · rename_i hjoined
          have hwider : Block.Made text budget split (.whole (packed.1, unit.2) (before ++ [unit])) := by
            cases hmade with
            | whole hne hall hholds htiles =>
              refine .whole (by simp) ?_ hjoined
                (tiles_snoc htiles (hstart.trans hpacked.symm) (by omega))
              intro other hother
              rcases List.mem_append.mp hother with hother | hother
              · exact hall other hother
              · rwa [List.mem_singleton.mp hother]
          obtain ⟨range, joined, more, hbegun⟩ :=
            (ih hrest).2 (packed.1, unit.2) (before ++ [unit]) hwider rfl h
          refine ⟨range, joined, more, ?_, hbegun.start, ?_⟩
          · have hpacks := hbegun.packs
            rwa [List.append_assoc, List.singleton_append] at hpacks
          · have hstop : unit.2 ≤ range.2 := hbegun.stop
            omega
        · rename_i hover
          obtain ⟨more, hmore, hpieces⟩ := bind_ok.mp h
          obtain rfl := Except.ok.inj hpieces
          obtain ⟨range, joined, blocks, hbegun⟩ := (ih hrest).2 unit [unit] (halone hunit) rfl hmore
          exact ⟨packed, before, _, hbegun.close hmade (by simpa using hover), rfl, Nat.le_refl _⟩
      · rename_i hunit
        obtain ⟨inner, hinner, hrestPacked⟩ := bind_ok.mp h
        obtain ⟨more, hmore, hpieces⟩ := bind_ok.mp hrestPacked
        obtain rfl := Except.ok.inj hpieces
        obtain ⟨blocks, hblocks⟩ := (ih hrest).1 hmore
        have hcut : Block.Made text budget split (.cut unit inner) :=
          .cut (by simpa using hunit) hinner
        have hblocks := (hblocks.cons hcut fun next _ => by cases next <;> trivial).cons hmade
          fun next hnext => by
            obtain rfl := Option.some.inj hnext
            trivial
        refine ⟨packed, before, .cut unit inner :: blocks, ?_, rfl, Nat.le_refl _⟩
        rw [List.append_assoc]
        exact hblocks

/-- One call takes up its units in blocks, greedily. -/
theorem packUnits_packed {start stop : Nat} {units pieces : List Range}
    (hunits : Tiles Prod.fst Prod.snd start units stop)
    (h : packUnits text budget split none units = .ok pieces) :
    ∃ blocks, Block.Packed text budget split units pieces blocks := (packUnits_begun hunits).1 h

end Packing

/-! ## All levels -/

section Splitting

variable {text : List Char} {budget : Budget} {start stop : Nat} {pieces : List Range}

theorem splitRange_total (hchars : 1 ≤ budget.maxChars) (hbytes : 4 ≤ budget.maxBytes)
    (levels : List Level) (start stop : Nat) :
    ∃ pieces, splitRange text budget levels start stop = .ok pieces := by
  induction levels generalizing start stop with
  | nil =>
    unfold splitRange
    split
    · exact ⟨_, rfl⟩
    · exact hardPieces_total hchars hbytes _ _
  | cons level levels ih =>
    unfold splitRange
    split
    · exact ⟨_, rfl⟩
    · simp only
      split
      · exact packUnits_total (fun unit _ => ih unit.1 unit.2) none
      · exact ih start stop

theorem splitRange_within {levels : List Level}
    (h : splitRange text budget levels start stop = .ok pieces) :
    ∀ piece ∈ pieces, budget.holds (text.extract piece.1 piece.2) = true := by
  induction levels generalizing start stop pieces with
  | nil =>
    unfold splitRange at h
    split at h
    · rename_i hholds
      obtain rfl := Except.ok.inj h
      exact fun piece hpiece => by rwa [List.mem_singleton.mp hpiece]
    · exact hardPieces_within h
  | cons level levels ih =>
    unfold splitRange at h
    split at h
    · rename_i hholds
      obtain rfl := Except.ok.inj h
      exact fun piece hpiece => by rwa [List.mem_singleton.mp hpiece]
    · simp only at h
      split at h
      · exact packUnits_within (fun unit _ inner hinner => ih hinner)
          (fun packed hnone => absurd hnone (by simp)) h
      · exact ih h

/-- The calls of `packUnits` that lead to some pieces of a range: the ranges that a call makes of
whole units do not fit together, and each unit that it cuts is split in the same way. -/
inductive Greedy (text : List Char) (budget : Budget) : List Level → Nat → Nat → List Range → Prop
  | fits {levels : List Level} {start stop : Nat} :
      budget.holds (text.extract start stop) = true → Greedy text budget levels start stop [(start, stop)]
  | characters {start stop : Nat} {pieces : List Range} :
      budget.holds (text.extract start stop) = false →
      hardPieces text budget stop (stop - start) start = .ok pieces →
      Greedy text budget [] start stop pieces
  | alone {level : Level} {levels : List Level} {start stop : Nat} {pieces : List Range} :
      budget.holds (text.extract start stop) = false → (level.units text start stop).length ≤ 1 →
      Greedy text budget levels start stop pieces →
      Greedy text budget (level :: levels) start stop pieces
  | packed {level : Level} {levels : List Level} {start stop : Nat} {pieces : List Range}
      (blocks : List Block) : budget.holds (text.extract start stop) = false →
      1 < (level.units text start stop).length →
      Block.Packed text budget (splitRange text budget levels) (level.units text start stop) pieces
        blocks →
      (∀ unit ranges, .cut unit ranges ∈ blocks → Greedy text budget levels unit.1 unit.2 ranges) →
      Greedy text budget (level :: levels) start stop pieces

/-- The units of a level fill their range, if there are any. -/
theorem Level.units_fill {level : Level} (hlt : start < stop)
    (hmany : 1 < (level.units text start stop).length) :
    Tiles Prod.fst Prod.snd start (level.units text start stop) stop := by
  apply level.units_tiles (Nat.le_of_lt hlt)
  intro hnil
  rw [hnil] at hmany
  exact absurd hmany (by simp)

theorem splitRange_greedy {levels : List Level} (hlt : start < stop)
    (h : splitRange text budget levels start stop = .ok pieces) :
    Greedy text budget levels start stop pieces := by
  induction levels generalizing start stop pieces with
  | nil =>
    unfold splitRange at h
    split at h
    · rename_i hholds
      obtain rfl := Except.ok.inj h
      exact .fits hholds
    · rename_i hover
      exact .characters (by simpa using hover) h
  | cons level levels ih =>
    unfold splitRange at h
    split at h
    · rename_i hholds
      obtain rfl := Except.ok.inj h
      exact .fits hholds
    · rename_i hover
      simp only at h
      split at h
      · rename_i hmany
        have hunits : Tiles Prod.fst Prod.snd start (level.units text start stop) stop :=
          Level.units_fill hlt hmany
        obtain ⟨blocks, hblocks⟩ := packUnits_packed hunits h
        refine .packed blocks (by simpa using hover) hmany hblocks fun unit ranges hcut => ?_
        have hmem : unit ∈ level.units text start stop := by
          rw [← hblocks.units, List.mem_flatMap]
          exact ⟨_, hcut, List.mem_cons_self⟩
        cases hblocks.made _ hcut with
        | cut _ hranges => exact ih (hunits.mem hmem).2.1 hranges
      · rename_i hfew
        exact .alone (by simpa using hover) (Nat.le_of_not_lt hfew) (ih hlt h)

end Splitting

example : splitRange "Aa. Bb.\n\ncc dd".toList ⟨6, 40⟩ (levelsFrom 0) 0 14 =
    .ok [(0, 4), (4, 9), (9, 14)] := by decide +kernel

end MDRack.Markdown
