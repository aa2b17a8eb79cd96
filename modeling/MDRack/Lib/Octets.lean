import Mathlib.Data.List.Basic
import Mathlib.Algebra.Order.Ring.Nat

/-!
# Reading numbers and ranges from octets

* `slice` — the octets from a place up to another, as many as there are.
* `within` — the same, and an error where the range ends outside.
* `Endian.read`, `Endian.write` — numbers in a fixed count of octets, in either order.

Principal results: `read_write` — a number is read as it was written; `within_split` — a
range that is known to stand in the octets is found there.
-/

namespace Octets

abbrev Bytes := List UInt8

def ascii (text : String) : Bytes := text.toList.map fun c => UInt8.ofNat c.toNat

/-- `content[start:stop]`. -/
def slice (content : Bytes) (start stop : Nat) : Bytes := (content.drop start).take (stop - start)

/-- A read that reaches outside the octets. -/
inductive Outside
  | outside
  deriving DecidableEq, Repr

def within (content : Bytes) (start stop : Nat) : Except Outside Bytes :=
  if start ≤ stop ∧ stop ≤ content.length then .ok (slice content start stop) else .error .outside

def byteAt (content : Bytes) (index : Nat) : Except Outside UInt8 :=
  match content[index]? with
  | some byte => .ok byte
  | none => .error .outside

/-! ## Numbers -/

def big (bytes : Bytes) : Nat := bytes.foldl (fun n byte => n * 256 + byte.toNat) 0

def little (bytes : Bytes) : Nat := bytes.foldr (fun byte n => byte.toNat + 256 * n) 0

def toLittle : Nat → Nat → Bytes
  | 0, _ => []
  | count + 1, n => UInt8.ofNat (n % 256) :: toLittle count (n / 256)

def toBig (count n : Nat) : Bytes := (toLittle count n).reverse

theorem length_toLittle (count n : Nat) : (toLittle count n).length = count := by
  induction count generalizing n with
  | zero => rfl
  | succ count ih => rw [toLittle, List.length_cons, ih]

theorem little_toLittle (count : Nat) {n : Nat} (h : n < 256 ^ count) : little (toLittle count n) = n := by
  induction count generalizing n with
  | zero =>
    rw [Nat.pow_zero] at h
    exact (Nat.lt_one_iff.mp h).symm
  | succ count ih =>
    have hrest : n / 256 < 256 ^ count := Nat.div_lt_of_lt_mul (by rwa [Nat.pow_succ, Nat.mul_comm] at h)
    have hstep : little (toLittle (count + 1) n) =
        (UInt8.ofNat (n % 256)).toNat + 256 * little (toLittle count (n / 256)) := rfl
    have hoctet : (UInt8.ofNat (n % 256)).toNat = n % 256 :=
      Nat.mod_eq_of_lt (Nat.mod_lt n (by decide))
    rw [hstep, ih hrest, hoctet]
    exact Nat.mod_add_div n 256

theorem big_reverse (bytes : Bytes) : big bytes.reverse = little bytes := by
  rw [big, List.foldl_reverse, little]
  congr 1
  funext byte n
  omega

inductive Endian
  | little
  | big
  deriving DecidableEq, Repr

namespace Endian

def read : Endian → Bytes → Nat
  | .little => Octets.little
  | .big => Octets.big

def write : Endian → Nat → Nat → Bytes
  | .little => toLittle
  | .big => toBig

theorem length_write (endian : Endian) (count n : Nat) : (endian.write count n).length = count := by
  cases endian with
  | little => exact length_toLittle count n
  | big => exact List.length_reverse.trans (length_toLittle count n)

theorem read_write (endian : Endian) (count : Nat) {n : Nat} (h : n < 256 ^ count) :
    endian.read (endian.write count n) = n := by
  cases endian with
  | little => exact little_toLittle count h
  | big => exact (big_reverse _).trans (little_toLittle count h)

/-- `struct.unpack` of one number at a place. -/
def readAt (endian : Endian) (content : Bytes) (start stop : Nat) : Except Outside Nat := do
  let bytes ← within content start stop
  .ok (endian.read bytes)

end Endian

/-! ## Reads inside -/

variable {content : Bytes} {start stop : Nat}

theorem within_ok (h : start ≤ stop) (hstop : stop ≤ content.length) :
    within content start stop = .ok (slice content start stop) := if_pos ⟨h, hstop⟩

theorem readAt_ok (endian : Endian) (h : start ≤ stop) (hstop : stop ≤ content.length) :
    endian.readAt content start stop = .ok (endian.read (slice content start stop)) := by
  rw [Endian.readAt, within_ok h hstop]
  rfl

theorem byteAt_ok {index : Nat} (h : index < content.length) :
    byteAt content index = .ok content[index] := by
  rw [byteAt, List.getElem?_eq_getElem h]

/-- A computation that reads nothing outside. -/
def Inside {α : Type} (result : Except Outside α) : Prop := ∃ a, result = .ok a

theorem inside_ok {α : Type} (a : α) : Inside (.ok a) := ⟨a, rfl⟩

theorem inside_bind {α β : Type} {x : Except Outside α} {f : α → Except Outside β} (hx : Inside x)
    (hf : ∀ a, x = .ok a → Inside (f a)) : Inside (x >>= f) := by
  obtain ⟨a, ha⟩ := hx
  rw [ha]
  exact hf a ha

theorem inside_within (h : start ≤ stop) (hstop : stop ≤ content.length) :
    Inside (within content start stop) := ⟨_, within_ok h hstop⟩

theorem inside_readAt (endian : Endian) (h : start ≤ stop) (hstop : stop ≤ content.length) :
    Inside (endian.readAt content start stop) := ⟨_, readAt_ok endian h hstop⟩

theorem inside_byteAt {index : Nat} (h : index < content.length) : Inside (byteAt content index) :=
  ⟨_, byteAt_ok h⟩

/-- What stands between two parts is read at its place. -/
theorem within_split {before middle after : Bytes} (hcontent : content = before ++ (middle ++ after))
    (hstart : start = before.length) (hstop : stop = start + middle.length) :
    within content start stop = .ok middle := by
  subst hcontent hstart hstop
  rw [within_ok (Nat.le_add_right _ _) (by simp), slice, List.drop_left, Nat.add_sub_cancel_left,
    List.take_left]

theorem readAt_split (endian : Endian) {before after : Bytes} {count n : Nat} (hn : n < 256 ^ count)
    (hcontent : content = before ++ (endian.write count n ++ after)) (hstart : start = before.length)
    (hstop : stop = start + count) : endian.readAt content start stop = .ok n := by
  rw [Endian.readAt, within_split hcontent hstart (by rw [endian.length_write, hstop])]
  exact congrArg Except.ok (endian.read_write count hn)

theorem byteAt_split {before after : Bytes} {byte : UInt8} {index : Nat}
    (hcontent : content = before ++ byte :: after) (hindex : index = before.length) :
    byteAt content index = .ok byte := by
  subst hcontent hindex
  rw [byteAt, List.getElem?_append_right (Nat.le_refl _), Nat.sub_self]
  rfl

/-- A walk that passes each part of a list passes all of them. -/
theorem walk_over {α β : Type} (walk : Nat → β) (enc : α → Bytes) (passed : α → Prop)
    (hstep : ∀ before part after, content = before ++ (enc part ++ after) → passed part →
      walk before.length = walk (before.length + (enc part).length))
    (parts : List α) (hparts : ∀ part ∈ parts, passed part) {before after : Bytes}
    (hcontent : content = before ++ (parts.flatMap enc ++ after)) :
    walk before.length = walk (before.length + (parts.flatMap enc).length) := by
  induction parts generalizing before with
  | nil => rfl
  | cons part parts ih =>
    rw [List.flatMap_cons, List.append_assoc] at hcontent
    have hfirst := hstep before part _ hcontent (hparts part List.mem_cons_self)
    have hsplit : content = (before ++ enc part) ++ (parts.flatMap enc ++ after) := by
      rw [hcontent, List.append_assoc]
    have hrest := ih (fun p hp => hparts p (List.mem_cons_of_mem _ hp)) hsplit
    rw [List.length_append] at hrest
    rw [hfirst, hrest, List.flatMap_cons, List.length_append, Nat.add_assoc]

end Octets
