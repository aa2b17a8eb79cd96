import Mathlib.Tactic.Ring
import Mathlib.Tactic.Linarith

/-!
# Finite binary64 numbers and their shortest decimal text

A finite IEEE 754 double is a sign and a magnitude code (exponent and mantissa fields read
as one number).  Every finite double is an integer multiple of `2 ^ (-1074)`, so values are
compared as integers in that unit and no rational arithmetic is needed.

* `ofRatio` — correctly rounded (half to even) conversion of a ratio, `none` on overflow.
* `repr` — the shortest decimal text that reads back as the same number, nearest first,
  positional for decimal points in `(-4, 16]` and scientific otherwise.
* `parse` — the reader of that grammar.

Principal results: `ofRatio_scaled` — rounding is exact on representable values;
`parse_repr` — reading the text of a number gives the number back, sign of zero included.
-/

namespace Binary64

/-- The smallest positive double is `2 ^ (-scaleExp)`. -/
def scaleExp : Nat := 1074

/-- Number of units `2 ^ (-1074)` in one. -/
def unit : Nat := 2 ^ scaleExp

theorem unit_pos : 0 < unit := Nat.two_pow_pos scaleExp

/-- The first magnitude code that is not finite. -/
def infMag : Nat := 0x7FF0000000000000

/-- A finite double: the sign and the remaining 63 bits. -/
structure F64 where
  neg : Bool
  mag : Nat
  finite : mag < infMag
  deriving DecidableEq, Repr

def F64.zero : F64 := ⟨false, 0, by decide⟩

/-- The 64-bit pattern. -/
def F64.bits (x : F64) : Nat := (if x.neg then 2 ^ 63 else 0) + x.mag

/-- Magnitude in units of `2 ^ (-1074)`. -/
def scaled (mag : Nat) : Nat :=
  if mag < 2 ^ 52 then mag else (2 ^ 52 + mag % 2 ^ 52) * 2 ^ (mag / 2 ^ 52 - 1)

/-- Signed value in units of `2 ^ (-1074)`. -/
def F64.value (x : F64) : Int := if x.neg then -(scaled x.mag : Int) else scaled x.mag

/-- The largest magnitude code whose value does not exceed `n` units. -/
def floorMag (n : Nat) : Nat := (n.log2 - 52) * 2 ^ 52 + n / 2 ^ (n.log2 - 52)

/-- Equality of numbers: the two zeros are equal. -/
def F64.sameNumber (x y : F64) : Bool := x.value == y.value

/-- Round `num / den` to the nearest magnitude code, ties to the even code. -/
def roundMag (num den : Nat) : Nat :=
  let x := num * unit
  let b := floorMag (x / den)
  let mid := (scaled b + scaled (b + 1)) * den
  if 2 * x < mid then b
  else if mid < 2 * x then b + 1
  else if b % 2 = 0 then b else b + 1

/-- Correctly rounded conversion; `none` where the result is infinite. -/
def ofRatio (neg : Bool) (num den : Nat) : Option F64 :=
  if h : roundMag num den < infMag then some ⟨neg, roundMag num den, h⟩ else none

theorem scaled_small {n : Nat} (h : n < 2 ^ 52) : scaled n = n := by rw [scaled, if_pos h]

/-- A magnitude code at or above `2 ^ 52` is a normal number. -/
theorem scaled_normal {m : Nat} (h : 2 ^ 52 ≤ m) :
    scaled m = (2 ^ 52 + m % 2 ^ 52) * 2 ^ (m / 2 ^ 52 - 1) := by
  rw [scaled, if_neg (Nat.not_lt.mpr h)]

theorem scaled_lt_succ (m : Nat) : scaled m < scaled (m + 1) := by
  unfold scaled
  by_cases h1 : m + 1 < 2 ^ 52
  · rw [if_pos h1, if_pos (show m < 2 ^ 52 by omega)]
    omega
  by_cases h2 : m < 2 ^ 52
  · have hm : m + 1 = 2 ^ 52 := by omega
    rw [if_pos h2, if_neg h1, hm]
    norm_num
    omega
  rw [if_neg h2, if_neg h1]
  by_cases hc : m % 2 ^ 52 + 1 < 2 ^ 52
  · have hd : (m + 1) / 2 ^ 52 = m / 2 ^ 52 := by omega
    have hr : (m + 1) % 2 ^ 52 = m % 2 ^ 52 + 1 := by omega
    rw [hd, hr]
    exact Nat.mul_lt_mul_of_pos_right (by omega) (by positivity)
  · -- the mantissa wraps and the exponent grows by one
    have hd : (m + 1) / 2 ^ 52 = m / 2 ^ 52 + 1 := by omega
    have hr : (m + 1) % 2 ^ 52 = 0 := by omega
    have he : m / 2 ^ 52 + 1 - 1 = (m / 2 ^ 52 - 1) + 1 := by omega
    rw [hd, hr, he, pow_succ]
    have hp : 0 < 2 ^ (m / 2 ^ 52 - 1) := by positivity
    have : (2 ^ 52 + m % 2 ^ 52) < 2 ^ 52 * 2 := by omega
    calc (2 ^ 52 + m % 2 ^ 52) * 2 ^ (m / 2 ^ 52 - 1)
        < (2 ^ 52 * 2) * 2 ^ (m / 2 ^ 52 - 1) := Nat.mul_lt_mul_of_pos_right this hp
      _ = (2 ^ 52 + 0) * (2 ^ (m / 2 ^ 52 - 1) * 2) := by ring

/-- `floorMag` inverts `scaled`. -/
theorem floorMag_scaled (m : Nat) : floorMag (scaled m) = m := by
  by_cases h : m < 2 ^ 52
  · rw [scaled_small h]
    have hl : m.log2 - 52 = 0 := by
      by_cases h0 : m = 0
      · subst h0; simp
      · have := (Nat.log2_lt h0).mpr h
        omega
    simp [floorMag, hl]
  · have hm : 2 ^ 52 ≤ m := by omega
    rw [scaled_normal hm]
    have hlo : 2 ^ 52 ≤ 2 ^ 52 + m % 2 ^ 52 := by omega
    have hhi : 2 ^ 52 + m % 2 ^ 52 < 2 ^ 53 := by omega
    generalize hs : 2 ^ 52 + m % 2 ^ 52 = s at hlo hhi ⊢
    generalize hk : m / 2 ^ 52 - 1 = k
    have hpos : s * 2 ^ k ≠ 0 := by positivity
    have hlog : (s * 2 ^ k).log2 = 52 + k := by
      apply Nat.le_antisymm
      · have : (s * 2 ^ k).log2 < 53 + k := by
          rw [Nat.log2_lt hpos, pow_add]
          exact Nat.mul_lt_mul_of_pos_right hhi (by positivity)
        omega
      · rw [Nat.le_log2 hpos, pow_add]
        exact Nat.mul_le_mul_right _ hlo
    have hdiv : s * 2 ^ k / 2 ^ k = s := Nat.mul_div_cancel _ (by positivity)
    unfold floorMag
    rw [hlog, Nat.add_sub_cancel_left, hdiv]
    omega

/-- Rounding is exact on representable magnitudes, in any expansion of the ratio. -/
theorem roundMag_scaled (m c : Nat) (hc : 0 < c) : roundMag (scaled m * c) (unit * c) = m := by
  have hu : 0 < unit * c := Nat.mul_pos unit_pos hc
  have hdiv : scaled m * c * unit / (unit * c) = scaled m := by
    rw [show scaled m * c * unit = scaled m * (unit * c) by ring]
    exact Nat.mul_div_cancel _ hu
  have hlt : 2 * (scaled m * c * unit) < (scaled m + scaled (m + 1)) * (unit * c) := by
    have := scaled_lt_succ m
    calc 2 * (scaled m * c * unit) = (scaled m + scaled m) * (unit * c) := by ring
      _ < (scaled m + scaled (m + 1)) * (unit * c) :=
          Nat.mul_lt_mul_of_pos_right (by omega) hu
  unfold roundMag
  simp only [hdiv, floorMag_scaled]
  rw [if_pos hlt]

theorem ofRatio_scaled (x : F64) (c : Nat) (hc : 0 < c) :
    ofRatio x.neg (scaled x.mag * c) (unit * c) = some x := by
  obtain ⟨neg, mag, hfin⟩ := x
  simp only [ofRatio, roundMag_scaled mag c hc]
  rw [dif_pos hfin]

/-! ## Decimal text -/

/-- The number `digits * 10 ^ e`. -/
def ofDecimal (neg : Bool) (digits : Nat) (e : Int) : Option F64 :=
  if 0 ≤ e then ofRatio neg (digits * 10 ^ e.toNat) 1
  else ofRatio neg digits (10 ^ (-e).toNat)

/-- Optional sign and digits of an exponent. -/
def parseExponent : List Char → Option Int
  | '-' :: ds => if ds ≠ [] ∧ ds.all Char.isDigit then some (-(Nat.ofDigitChars 10 ds 0 : Int)) else none
  | '+' :: ds => if ds ≠ [] ∧ ds.all Char.isDigit then some (Nat.ofDigitChars 10 ds 0) else none
  | ds => if ds ≠ [] ∧ ds.all Char.isDigit then some (Nat.ofDigitChars 10 ds 0) else none

/-- Digits of a fraction part and what follows it. -/
def splitFraction : List Char → List Char × List Char
  | '.' :: ds => (ds.takeWhile Char.isDigit, ds.dropWhile Char.isDigit)
  | rest => ([], rest)

/-- Decimal exponent of the remaining text. -/
def parseScale : List Char → Option Int
  | [] => some 0
  | 'e' :: ds => parseExponent ds
  | _ => none

/-- Digits, optional fraction, optional exponent. -/
def parseUnsigned (neg : Bool) (cs : List Char) : Option F64 :=
  let whole := cs.takeWhile Char.isDigit
  let (frac, tail) := splitFraction (cs.dropWhile Char.isDigit)
  if whole = [] then none
  else match parseScale tail with
    | some e => ofDecimal neg (Nat.ofDigitChars 10 (whole ++ frac) 0) (e - frac.length)
    | none => none

def parse : List Char → Option F64
  | '-' :: cs => parseUnsigned true cs
  | cs => parseUnsigned false cs

/-- Decimal exponent text: sign and at least two digits. -/
def exponentText (e : Int) : List Char :=
  let ds := Nat.toDigits 10 e.natAbs
  (if e < 0 then '-' else '+') :: (if ds.length < 2 then '0' :: ds else ds)

/-- Lay out significant digits with the decimal point after `point` of them. -/
def layout (ds : List Char) (point : Int) : List Char :=
  if -4 < point ∧ point ≤ 16 then
    if point ≤ 0 then '0' :: '.' :: (List.replicate (-point).toNat '0' ++ ds)
    else if ds.length ≤ point.toNat then
      ds ++ List.replicate (point.toNat - ds.length) '0' ++ ['.', '0']
    else ds.take point.toNat ++ '.' :: ds.drop point.toNat
  else
    ds.take 1 ++ (if 1 < ds.length then '.' :: ds.drop 1 else []) ++
      'e' :: exponentText (point - 1)

/-- Text of `digits * 10 ^ shift`. -/
def decimalText (digits : Nat) (shift : Int) : List Char :=
  let ds := Nat.toDigits 10 digits
  layout ((ds.reverse.dropWhile (· == '0')).reverse) (ds.length + shift)

/-- Decimal exponent of the leading digit of `s` units. -/
def leadExponent (s : Nat) : Int :=
  if unit ≤ s then ((Nat.toDigits 10 (s / unit)).length : Int) - 1
  else match (List.range 325).find? (fun j => unit ≤ s * 10 ^ j) with
    | some j => -(j : Int)
    | none => 0

/-- The two `n`-digit decimals around `s` units, the nearer one first. -/
def candidates (s n : Nat) : List (List Char) :=
  let shift := leadExponent s - n + 1
  let num := if 0 ≤ shift then s else s * 10 ^ (-shift).toNat
  let den := if 0 ≤ shift then unit * 10 ^ shift.toNat else unit
  let below := decimalText (num / den) shift
  let above := decimalText (num / den + 1) shift
  if 2 * (num % den) ≤ den then [below, above] else [above, below]

/-- Exact expansion; seventeen digits always identify a double, so it is never reached and
only makes `reprMag` total. -/
def exactText (s : Nat) : List Char :=
  Nat.toDigits 10 (s * 5 ^ scaleExp) ++ 'e' :: '-' :: Nat.toDigits 10 scaleExp

/-- Magnitude text of a nonzero number: the first candidate that reads back. -/
def reprMag (x : F64) : List Char :=
  (((List.range 17).flatMap (fun n => candidates (scaled x.mag) (n + 1))).find?
    (fun t => parseUnsigned x.neg t == some x)).getD (exactText (scaled x.mag))

/-- Magnitude text, zero included. -/
def reprAbs (x : F64) : List Char := if x.mag = 0 then ['0', '.', '0'] else reprMag x

/-- `float.__repr__`. -/
def repr (x : F64) : List Char := if x.neg then '-' :: reprAbs x else reprAbs x

/-- Characters of a number token. -/
def numChar (c : Char) : Bool := c.isDigit || c == '.' || c == 'e' || c == '+' || c == '-'

/-- A point or an exponent mark tells a float token from an integer token. -/
def floatMark (c : Char) : Bool := c == '.' || c == 'e'

/-! ### The text reads back -/

theorem takeWhile_digits_append {ds r : List Char} (hd : ds.all Char.isDigit)
    (hr : r.head?.all (fun c => !c.isDigit)) :
    (ds ++ r).takeWhile Char.isDigit = ds ∧ (ds ++ r).dropWhile Char.isDigit = r := by
  induction ds with
  | nil =>
    cases r with
    | nil => simp
    | cons c r => simp at hr; simp [hr]
  | cons d ds ih =>
    simp only [List.all_cons, Bool.and_eq_true] at hd
    simp [hd.1, ih hd.2]

theorem toDigits_all_digit (n : Nat) : (Nat.toDigits 10 n).all Char.isDigit := by
  simp only [List.all_eq_true]
  exact fun c hc => Nat.isDigit_of_mem_toDigits (by decide) (by decide) hc

/-- Digits followed by an exponent part. -/
theorem parseUnsigned_scientific (neg : Bool) (n : Nat) {ds : List Char} {e : Int}
    (he : parseExponent ds = some e) :
    parseUnsigned neg (Nat.toDigits 10 n ++ 'e' :: ds) = ofDecimal neg n e := by
  have hsplit := takeWhile_digits_append (r := 'e' :: ds) (toDigits_all_digit n) (by simp)
  simp [parseUnsigned, hsplit.1, hsplit.2, splitFraction, parseScale, he,
    Nat.ofDigitChars_ten_toDigits]

theorem parseExponent_neg (k : Nat) : parseExponent ('-' :: Nat.toDigits 10 k) = some (-(k : Int)) := by
  simp [parseExponent, toDigits_all_digit, Nat.toDigits_ne_nil, Nat.ofDigitChars_ten_toDigits]

theorem ofDecimal_neg (neg : Bool) (n : Nat) {k : Nat} (hk : 0 < k) :
    ofDecimal neg n (-(k : Int)) = ofRatio neg n (10 ^ k) := by
  rw [ofDecimal, if_neg (by omega)]
  simp

theorem parseUnsigned_exactText (x : F64) : parseUnsigned x.neg (exactText (scaled x.mag)) = some x := by
  have hpos : 0 < scaleExp := by decide
  have hten : (10 : Nat) ^ scaleExp = unit * 5 ^ scaleExp := by
    rw [unit, ← Nat.mul_pow]
  unfold exactText
  rw [parseUnsigned_scientific _ _ (parseExponent_neg scaleExp), ofDecimal_neg _ _ hpos, hten]
  exact ofRatio_scaled x (5 ^ scaleExp) (Nat.pow_pos (by decide))

theorem roundMag_zero {den : Nat} (h : 0 < den) : roundMag 0 den = 0 := by
  have h0 : scaled 0 = 0 := rfl
  have h1 : scaled (0 + 1) = 1 := rfl
  have hf : floorMag 0 = 0 := by simp [floorMag]
  unfold roundMag
  simp only [Nat.zero_mul, Nat.zero_div, hf, h0, h1]
  rw [if_pos (by omega)]

theorem parseUnsigned_zero (neg : Bool) :
    parseUnsigned neg ['0', '.', '0'] = some ⟨neg, 0, by decide⟩ := by
  have hround : ofRatio neg 0 (10 ^ 1) = some ⟨neg, 0, by decide⟩ := by
    have h := roundMag_zero (show 0 < 10 ^ 1 by decide)
    unfold ofRatio
    simp only [h]
    rw [dif_pos (by decide)]
  have hdigits : parseUnsigned neg ['0', '.', '0'] = ofDecimal neg 0 (-((1 : Nat) : Int)) := by
    simp [parseUnsigned, splitFraction, parseScale, Nat.ofDigitChars]
  rw [hdigits, ofDecimal_neg _ _ (by decide), hround]

theorem parseUnsigned_reprMag (x : F64) : parseUnsigned x.neg (reprMag x) = some x := by
  unfold reprMag
  cases hf : List.find? (fun t => parseUnsigned x.neg t == some x)
      ((List.range 17).flatMap (fun n => candidates (scaled x.mag) (n + 1))) with
  | none =>
    rw [Option.getD_none]
    exact parseUnsigned_exactText x
  | some t =>
    have hp := List.find?_some hf
    rw [beq_iff_eq] at hp
    rw [Option.getD_some]
    exact hp

theorem parseUnsigned_reprAbs (x : F64) : parseUnsigned x.neg (reprAbs x) = some x := by
  unfold reprAbs
  split
  · rename_i h
    obtain ⟨neg, mag, hfin⟩ := x
    simp only at h
    subst h
    exact parseUnsigned_zero neg
  · exact parseUnsigned_reprMag x

/-- Whatever parses starts with a digit. -/
theorem head_of_parseUnsigned {neg : Bool} {cs : List Char} {x : F64}
    (h : parseUnsigned neg cs = some x) : ∃ d rest, cs = d :: rest ∧ d.isDigit = true := by
  unfold parseUnsigned at h
  cases cs with
  | nil => simp at h
  | cons d rest =>
    refine ⟨d, rest, rfl, ?_⟩
    by_contra hd
    simp [hd] at h

theorem parse_repr (x : F64) : parse (repr x) = some x := by
  have h := parseUnsigned_reprAbs x
  unfold repr
  split
  · rename_i hneg
    rw [hneg] at h
    exact h
  · rename_i hneg
    obtain ⟨d, rest, hcs, hd⟩ := head_of_parseUnsigned h
    have hneg' : x.neg = false := by simpa using hneg
    rw [hneg'] at h
    rw [hcs] at h ⊢
    unfold parse
    split
    · rename_i heq
      rw [List.cons.injEq] at heq
      rw [heq.1] at hd
      exact absurd hd (by decide)
    · exact h

/-! ### Shape of the text -/

theorem digits_numChar {ds : List Char} (h : ds.all Char.isDigit) : ds.all numChar := by
  simp only [List.all_eq_true] at h ⊢
  intro c hc
  simp [numChar, h c hc]

theorem takeWhile_digit_numChar (cs : List Char) : (cs.takeWhile Char.isDigit).all numChar :=
  digits_numChar (List.all_takeWhile ..)

theorem parseExponent_numChar {ds : List Char} {e : Int} (h : parseExponent ds = some e) :
    ds.all numChar := by
  unfold parseExponent at h
  split at h <;> split at h
  all_goals first
    | (rename_i hd
       simp only [List.all_cons]
       have := digits_numChar hd.2
       simp [this, numChar])
    | exact digits_numChar (by rename_i hd; exact hd.2)
    | cases h

theorem parseScale_numChar {tail : List Char} {e : Int} (h : parseScale tail = some e) :
    tail.all numChar := by
  unfold parseScale at h
  split at h
  · rfl
  · simpa [numChar] using parseExponent_numChar h
  · cases h

theorem splitFraction_numChar {rest : List Char} (h : (splitFraction rest).2.all numChar) :
    rest.all numChar := by
  unfold splitFraction at h
  split at h
  · rename_i ds
    have hds : ds = ds.takeWhile Char.isDigit ++ ds.dropWhile Char.isDigit :=
      List.takeWhile_append_dropWhile.symm
    rw [List.all_cons, hds, List.all_append, takeWhile_digit_numChar, h]
    decide
  · exact h

/-- Whatever parses consists of number characters. -/
theorem numChar_of_parseUnsigned {neg : Bool} {cs : List Char} {x : F64}
    (h : parseUnsigned neg cs = some x) : cs.all numChar := by
  have hcs : cs = cs.takeWhile Char.isDigit ++ cs.dropWhile Char.isDigit :=
    List.takeWhile_append_dropWhile.symm
  unfold parseUnsigned at h
  simp only at h
  split at h
  · cases h
  split at h
  · rename_i e he
    rw [hcs, List.all_append, takeWhile_digit_numChar,
      splitFraction_numChar (parseScale_numChar he)]
    rfl
  · cases h

theorem repr_numChar (x : F64) : (repr x).all numChar := by
  have h := numChar_of_parseUnsigned (parseUnsigned_reprAbs x)
  unfold repr
  split
  · simpa [numChar] using h
  · exact h

theorem layout_mark (ds : List Char) (point : Int) : (layout ds point).any floatMark := by
  unfold layout
  rw [List.any_eq_true]
  split
  · refine ⟨'.', ?_, rfl⟩
    split
    · simp
    split <;> simp
  · exact ⟨'e', by simp, rfl⟩

theorem decimalText_mark (digits : Nat) (shift : Int) : (decimalText digits shift).any floatMark := by
  unfold decimalText
  exact layout_mark _ _

theorem mem_ordered_pair {α : Type} {c : Prop} [Decidable c] {t a b : α}
    (h : t ∈ if c then [a, b] else [b, a]) : t = a ∨ t = b := by
  split at h <;> simp only [List.mem_cons, List.not_mem_nil, or_false] at h <;> tauto

theorem candidates_mark {s n : Nat} {t : List Char} (h : t ∈ candidates s n) : t.any floatMark := by
  unfold candidates at h
  simp only at h
  have hpair := mem_ordered_pair h
  rcases hpair with ht | ht <;> rw [ht] <;> exact decimalText_mark _ _

theorem exactText_mark (s : Nat) : (exactText s).any floatMark := by
  unfold exactText
  exact List.any_eq_true.mpr ⟨'e', List.mem_append_right _ List.mem_cons_self, rfl⟩

theorem reprMag_mark (x : F64) : (reprMag x).any floatMark := by
  unfold reprMag
  cases hf : List.find? (fun t => parseUnsigned x.neg t == some x)
      ((List.range 17).flatMap (fun n => candidates (scaled x.mag) (n + 1))) with
  | none =>
    rw [Option.getD_none]
    exact exactText_mark _
  | some t =>
    rw [Option.getD_some]
    obtain ⟨n, -, hn⟩ := List.mem_flatMap.mp (List.mem_of_find?_eq_some hf)
    exact candidates_mark hn

theorem reprAbs_mark (x : F64) : (reprAbs x).any floatMark := by
  unfold reprAbs
  split
  · rfl
  · exact reprMag_mark x

theorem repr_mark (x : F64) : (repr x).any floatMark := by
  unfold repr
  split
  · simp [reprAbs_mark]
  · exact reprAbs_mark x

/-! ## All doubles -/

/-- A double. -/
inductive Double
  | finite (x : F64)
  | infinite (neg : Bool)
  | nan
  deriving DecidableEq, Repr

/-- `float(i)`; `none` where it overflows. -/
def ofInt (i : Int) : Option F64 := ofRatio (decide (i < 0)) i.natAbs 1

end Binary64
