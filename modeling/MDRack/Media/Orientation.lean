import MDRack.Lib.Grid

/-!
# Moving the pixels of a picture (`image_preprocessing`)

* `applyOrientation` — the picture as it is meant to be seen, from its stored rows and the EXIF
  orientation.
* `Orientation.displayed` — where EXIF puts the stored pixel of a column and a row, from the sides at
  which the first row and the first column are meant to be seen.

Principal results: `applyOrientation_moves` — each pixel goes where EXIF puts it; `displayed_bijective`;
`applyOrientation_inverse` — the inverse orientation gives the stored picture back.
-/

namespace MDRack.Media.Image

open Grid (fill rowsOf strided)

/-- An exception, with the code of the ones that the image boundary raises itself. -/
inductive Raised
  | preparation (code : String)
  | os
  | value (text : String)
  | struct
  | other (name : String)
  deriving DecidableEq, Repr

variable {α : Type}

/-- The pixels with the new width and height. -/
def applyOrientation (pixels : List α) (width height orientation : Int) :
    Except Raised (List α × Int × Int) :=
  if width < 1 ∨ height < 1 ∨ (pixels.length : Int) ≠ width * height then
    .error (.preparation "image_decode_failed")
  else
    let w := width.toNat
    let rows := rowsOf w height.toNat pixels
    let columns := fun f : Nat → List α => ((List.range w).map f).flatten
    match orientation with
    | 1 => .ok (pixels, width, height)
    | 2 => .ok ((rows.map List.reverse).flatten, width, height)
    | 3 => .ok (pixels.reverse, width, height)
    | 4 => .ok (rows.reverse.flatten, width, height)
    | 5 => .ok (columns fun x => strided x w pixels, height, width)
    | 6 => .ok (columns fun x => (strided x w pixels).reverse, height, width)
    | 7 => .ok (columns fun x => (strided (w - 1 - x) w pixels).reverse, height, width)
    | 8 => .ok (columns fun x => strided (w - 1 - x) w pixels, height, width)
    | _ => .error (.preparation "image_decode_failed")

/-! ## What EXIF prescribes -/

inductive Side
  | top
  | bottom
  | left
  | right
  deriving DecidableEq, Repr

/-- The eight orientations by their numbers. -/
inductive Orientation
  | topLeft
  | topRight
  | bottomRight
  | bottomLeft
  | leftTop
  | rightTop
  | rightBottom
  | leftBottom
  deriving DecidableEq, Repr

namespace Orientation

def number : Orientation → Int
  | topLeft => 1
  | topRight => 2
  | bottomRight => 3
  | bottomLeft => 4
  | leftTop => 5
  | rightTop => 6
  | rightBottom => 7
  | leftBottom => 8

/-- The side at which the first stored row is seen. -/
def rowSide : Orientation → Side
  | topLeft | topRight => .top
  | bottomRight | bottomLeft => .bottom
  | leftTop | leftBottom => .left
  | rightTop | rightBottom => .right

/-- The side at which the first stored column is seen. -/
def columnSide : Orientation → Side
  | topLeft | bottomLeft => .left
  | topRight | bottomRight => .right
  | leftTop | rightTop => .top
  | rightBottom | leftBottom => .bottom

/-- Rows are seen as columns. -/
def turned (o : Orientation) : Bool := o.rowSide == .left || o.rowSide == .right

/-- The orientation that undoes this one. -/
def inverse : Orientation → Orientation
  | rightTop => leftBottom
  | leftBottom => rightTop
  | o => o

theorem inverse_inverse (o : Orientation) : o.inverse.inverse = o := by cases o <;> rfl

theorem turned_inverse (o : Orientation) : o.inverse.turned = o.turned := by cases o <;> rfl

/-- Every number from one to eight is the number of an orientation. -/
theorem exists_number {n : Int} (h : 1 ≤ n ∧ n ≤ 8) : ∃ o : Orientation, o.number = n := by
  have hcases : n = 1 ∨ n = 2 ∨ n = 3 ∨ n = 4 ∨ n = 5 ∨ n = 6 ∨ n = 7 ∨ n = 8 := by omega
  rcases hcases with rfl | rfl | rfl | rfl | rfl | rfl | rfl | rfl
  · exact ⟨topLeft, rfl⟩
  · exact ⟨topRight, rfl⟩
  · exact ⟨bottomRight, rfl⟩
  · exact ⟨bottomLeft, rfl⟩
  · exact ⟨leftTop, rfl⟩
  · exact ⟨rightTop, rfl⟩
  · exact ⟨rightBottom, rfl⟩
  · exact ⟨leftBottom, rfl⟩

end Orientation

/-- The coordinate that lies so far from a side, among so many. -/
def Side.away : Side → Nat → Nat → Nat
  | .top, _, d => d
  | .left, _, d => d
  | .bottom, count, d => count - 1 - d
  | .right, count, d => count - 1 - d

namespace Orientation

/-- Width and height as seen, of a stored picture of `w` columns and `h` rows. -/
def seenWidth (o : Orientation) (w h : Nat) : Nat := if o.turned then h else w

def seenHeight (o : Orientation) (w h : Nat) : Nat := if o.turned then w else h

/-- The column and row at which the stored pixel of column `x` and row `y` is seen. -/
def displayed (o : Orientation) (w h x y : Nat) : Nat × Nat :=
  if o.turned then (o.rowSide.away h y, o.columnSide.away w x)
  else (o.columnSide.away w x, o.rowSide.away h y)

/-- A pixel is seen inside the picture. -/
theorem displayed_lt (o : Orientation) {w h x y : Nat} (hx : x < w) (hy : y < h) :
    (o.displayed w h x y).1 < o.seenWidth w h ∧ (o.displayed w h x y).2 < o.seenHeight w h := by
  cases o <;> simp [displayed, seenWidth, seenHeight, turned, rowSide, columnSide, Side.away] <;> omega

/-- The inverse orientation leads back. -/
theorem displayed_inverse (o : Orientation) {w h x y : Nat} (hx : x < w) (hy : y < h) :
    o.inverse.displayed (o.seenWidth w h) (o.seenHeight w h) (o.displayed w h x y).1
      (o.displayed w h x y).2 = (x, y) := by
  cases o <;>
    simp [displayed, seenWidth, seenHeight, turned, rowSide, columnSide, inverse, Side.away] <;> omega

theorem seen_inverse (o : Orientation) (w h : Nat) :
    o.inverse.seenWidth (o.seenWidth w h) (o.seenHeight w h) = w ∧
      o.inverse.seenHeight (o.seenWidth w h) (o.seenHeight w h) = h := by
  cases o <;> exact ⟨rfl, rfl⟩

/-- The pixels of the stored picture and of the seen one correspond one to one. -/
theorem displayed_bijective (o : Orientation) (w h : Nat) {vx vy : Nat} (hvx : vx < o.seenWidth w h)
    (hvy : vy < o.seenHeight w h) :
    ∃! p : Nat × Nat, (p.1 < w ∧ p.2 < h) ∧ o.displayed w h p.1 p.2 = (vx, vy) := by
  obtain ⟨hw, hh⟩ := o.seen_inverse w h
  have hin := o.inverse.displayed_lt hvx hvy
  have hback := o.inverse.displayed_inverse hvx hvy
  rw [hw, hh] at hin
  rw [hw, hh, o.inverse_inverse] at hback
  refine ⟨_, ⟨hin, hback⟩, ?_⟩
  rintro ⟨x, y⟩ ⟨⟨hx, hy⟩, hseen⟩
  have hfirst := o.displayed_inverse hx hy
  rw [hseen] at hfirst
  exact hfirst.symm

end Orientation

/-! ## What the code does -/

section Moves

variable {w h : Nat} (f : Nat → Nat → α)

/-- The seen picture, by the stored pixel at each of its places. -/
theorem applyOrientation_fill (o : Orientation) (hw : 1 ≤ w) (hh : 1 ≤ h) :
    applyOrientation (fill w h f) w h o.number =
      .ok (fill (o.seenWidth w h) (o.seenHeight w h) (fun vx vy =>
        f (o.inverse.displayed (o.seenWidth w h) (o.seenHeight w h) vx vy).1
          (o.inverse.displayed (o.seenWidth w h) (o.seenHeight w h) vx vy).2),
        (o.seenWidth w h : Int), (o.seenHeight w h : Int)) := by
  have hsize : ¬ ((w : Int) < 1 ∨ (h : Int) < 1 ∨ ((fill w h f).length : Int) ≠ w * h) := by
    rw [Grid.length_fill]
    push_cast
    rw [Int.mul_comm (h : Int)]
    omega
  rw [applyOrientation, if_neg hsize]
  simp only [Int.toNat_natCast, Grid.rowsOf_fill]
  cases o with
  | topLeft => rfl
  | topRight =>
    simp only [Orientation.number, List.map_map]
    refine congrArg (fun p => Except.ok (p, (w : Int), (h : Int))) ?_
    refine congrArg List.flatten (List.map_congr_left ?_)
    intro y _
    exact Grid.map_range_reverse w fun x => f x y
  | bottomRight =>
    simp only [Orientation.number]
    exact congrArg (fun p => Except.ok (p, (w : Int), (h : Int))) Grid.fill_reverse
  | bottomLeft =>
    simp only [Orientation.number]
    refine congrArg (fun p => Except.ok (p, (w : Int), (h : Int))) ?_
    refine congrArg List.flatten ?_
    exact Grid.map_range_reverse h fun y => (List.range w).map fun x => f x y
  | leftTop =>
    simp only [Orientation.number]
    refine congrArg (fun p => Except.ok (p, (h : Int), (w : Int))) ?_
    refine congrArg List.flatten (List.map_congr_left ?_)
    intro x hx
    exact Grid.strided_fill (List.mem_range.mp hx)
  | rightTop =>
    simp only [Orientation.number]
    refine congrArg (fun p => Except.ok (p, (h : Int), (w : Int))) ?_
    refine congrArg List.flatten (List.map_congr_left ?_)
    intro x hx
    rw [Grid.strided_fill (List.mem_range.mp hx)]
    exact Grid.map_range_reverse h (f x)
  | rightBottom =>
    simp only [Orientation.number]
    refine congrArg (fun p => Except.ok (p, (h : Int), (w : Int))) ?_
    refine congrArg List.flatten (List.map_congr_left ?_)
    intro x hx
    have hlast : w - 1 - x < w := by omega
    rw [Grid.strided_fill hlast]
    exact Grid.map_range_reverse h (f (w - 1 - x))
  | leftBottom =>
    simp only [Orientation.number]
    refine congrArg (fun p => Except.ok (p, (h : Int), (w : Int))) ?_
    refine congrArg List.flatten (List.map_congr_left ?_)
    intro x hx
    have hlast : w - 1 - x < w := by omega
    exact Grid.strided_fill hlast

variable {f}

/-- The seen pixel of a stored one. -/
theorem displayed_fill (o : Orientation) {x y : Nat} (hx : x < w) (hy : y < h) :
    (fill (o.seenWidth w h) (o.seenHeight w h) (fun vx vy =>
        f (o.inverse.displayed (o.seenWidth w h) (o.seenHeight w h) vx vy).1
          (o.inverse.displayed (o.seenWidth w h) (o.seenHeight w h) vx vy).2))[(o.displayed w h x y).2 *
            o.seenWidth w h + (o.displayed w h x y).1]? = some (f x y) := by
  obtain ⟨hvx, hvy⟩ := o.displayed_lt hx hy
  rw [Grid.getElem?_fill hvx hvy, o.displayed_inverse hx hy]

end Moves

section Pictures

variable [Inhabited α] {w h : Nat} {pixels : List α}

/-- Each stored pixel goes to the place at which EXIF has it seen. -/
theorem applyOrientation_moves (o : Orientation) (hw : 1 ≤ w) (hh : 1 ≤ h)
    (hlength : pixels.length = h * w) :
    ∃ out, applyOrientation pixels w h o.number =
        .ok (out, (o.seenWidth w h : Int), (o.seenHeight w h : Int)) ∧
      out.length = o.seenHeight w h * o.seenWidth w h ∧
      ∀ x < w, ∀ y < h, out[(o.displayed w h x y).2 * o.seenWidth w h + (o.displayed w h x y).1]? =
        pixels[y * w + x]? := by
  have hgrid := Grid.eq_fill hlength
  rw [hgrid]
  refine ⟨_, applyOrientation_fill _ o hw hh, Grid.length_fill _ _ _, ?_⟩
  intro x hx y hy
  have hseen := displayed_fill (f := fun x y => pixels.getD (y * w + x) default) o hx hy
  have hstored := Grid.getElem?_fill (f := fun x y => pixels.getD (y * w + x) default) hx hy
  exact hseen.trans hstored.symm

theorem Orientation.seen_pos (o : Orientation) (hw : 1 ≤ w) (hh : 1 ≤ h) :
    1 ≤ o.seenWidth w h ∧ 1 ≤ o.seenHeight w h := by
  unfold Orientation.seenWidth Orientation.seenHeight
  cases o.turned with
  | true => exact ⟨hh, hw⟩
  | false => exact ⟨hw, hh⟩

/-- The inverse orientation gives the stored picture back. -/
theorem applyOrientation_inverse (o : Orientation) (hw : 1 ≤ w) (hh : 1 ≤ h)
    (hlength : pixels.length = h * w) {out : List α} {w' h' : Int}
    (hout : applyOrientation pixels w h o.number = .ok (out, w', h')) :
    applyOrientation out w' h' o.inverse.number = .ok (pixels, (w : Int), (h : Int)) := by
  have hgrid := Grid.eq_fill hlength
  rw [hgrid] at hout ⊢
  rw [applyOrientation_fill _ o hw hh, Except.ok.injEq, Prod.mk.injEq, Prod.mk.injEq] at hout
  obtain ⟨rfl, rfl, rfl⟩ := hout
  obtain ⟨hsw, hsh⟩ := o.seen_pos hw hh
  obtain ⟨hwback, hhback⟩ := o.seen_inverse w h
  rw [applyOrientation_fill _ o.inverse hsw hsh, hwback, hhback, o.inverse_inverse]
  refine congrArg (fun p => Except.ok (p, (w : Int), (h : Int))) ?_
  apply Grid.fill_congr
  intro x hx y hy
  rw [o.displayed_inverse hx hy]

end Pictures

end MDRack.Media.Image
