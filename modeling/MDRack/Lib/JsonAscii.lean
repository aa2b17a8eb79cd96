import MDRack.Lib.CodePoints
import MDRack.Lib.Json

/-!
# JSON text in ASCII

The text of a value in which every character outside printable ASCII is written as the UTF-16
units of its code point.

* `escapePoint` — one code point; a half of a surrogate pair is written as its own unit.
* `asciiText` — the compact text of a value.
* `plain` — the text with the characters themselves in place of their units.

Principal results: `plain_asciiText` — `plain` gives the text of `dumps`, so the ASCII text
determines the value (`asciiDumps_injective`); `asciiText_ascii` — no character is outside ASCII;
`quoted_inj` — a quoted string is determined by any text that begins with it.
-/

namespace Json

open CodePoints (CodePoint Text)

/-! ## Writing -/

/-- `\uXXXX`. -/
def escapeUnit (n : Nat) : List Char :=
  ['\\', 'u', hexDigit (n / 4096 % 16), hexDigit (n / 256 % 16), hexDigit (n / 16 % 16), hexDigit (n % 16)]

def escapeAscii (c : Char) : List Char :=
  if c = '"' then ['\\', '"']
  else if c = '\\' then ['\\', '\\']
  else if c = '\n' then ['\\', 'n']
  else if c = '\r' then ['\\', 'r']
  else if c = '\t' then ['\\', 't']
  else if c = '\x08' then ['\\', 'b']
  else if c = '\x0c' then ['\\', 'f']
  else if 0x20 ≤ c.toNat ∧ c.toNat ≤ 0x7E then [c]
  else if c.toNat < 0x10000 then escapeUnit c.toNat
  else escapeUnit (0xD800 + (c.toNat - 0x10000) / 0x400) ++
    escapeUnit (0xDC00 + (c.toNat - 0x10000) % 0x400)

def escapePoint : CodePoint → List Char
  | .char c => escapeAscii c
  | .surrogate n => escapeUnit (0xD800 + n)

def quotePoints (t : Text) : List Char := '"' :: (t.flatMap escapePoint ++ ['"'])

def quoteAscii (s : List Char) : List Char := '"' :: (s.flatMap escapeAscii ++ ['"'])

theorem quotePoints_ofChars (s : List Char) : quotePoints (CodePoints.ofChars s) = quoteAscii s := by
  rw [quotePoints, CodePoints.ofChars, List.flatMap_map]
  rfl

mutual

def asciiText : Value → List Char
  | .str s => quoteAscii s.toList
  | .arr items => '[' :: asciiItems true items
  | .obj fields => '{' :: asciiFields true fields
  | v => text v

def asciiItems (first : Bool) : List Value → List Char
  | [] => [']']
  | v :: rest => (if first then [] else [',']) ++ (asciiText v ++ asciiItems false rest)

def asciiFields (first : Bool) : List (String × Value) → List Char
  | [] => ['}']
  | (k, v) :: rest =>
    (if first then [] else [',']) ++
      (quoteAscii k.toList ++ ':' :: (asciiText v ++ asciiFields false rest))

end

def asciiDumps (v : Value) : String := String.ofList (asciiText v)

/-! ## The characters in place of their units -/

def hexUnit (a b c d : Char) : Nat :=
  (((hexValue a).getD 0 * 16 + (hexValue b).getD 0) * 16 + (hexValue c).getD 0) * 16 +
    (hexValue d).getD 0

/-- The reader after a first half of a pair, `high`. -/
def plainAfter : Nat → List Char → List Char
  | high, '\\' :: 'u' :: a :: b :: c :: d :: rest =>
    if hexUnit a b c d < 0x20 then '\\' :: 'u' :: a :: b :: c :: d :: plainAfter 0 rest
    else if hexUnit a b c d < 0xD800 ∨ 0xE000 ≤ hexUnit a b c d then
      Char.ofNat (hexUnit a b c d) :: plainAfter 0 rest
    else if hexUnit a b c d < 0xDC00 then plainAfter (hexUnit a b c d - 0xD800) rest
    else Char.ofNat (0x10000 + high * 0x400 + (hexUnit a b c d - 0xDC00)) :: plainAfter 0 rest
  | _, '\\' :: c :: rest => '\\' :: c :: plainAfter 0 rest
  | _, c :: rest => c :: plainAfter 0 rest
  | _, [] => []

def plain (cs : List Char) : List Char := plainAfter 0 cs

theorem hexUnit_digits {n : Nat} (h : n < 0x10000) :
    hexUnit (hexDigit (n / 4096 % 16)) (hexDigit (n / 256 % 16)) (hexDigit (n / 16 % 16))
      (hexDigit (n % 16)) = n := by
  rw [hexUnit, hexValue_hexDigit (Nat.mod_lt _ (by omega)), hexValue_hexDigit (Nat.mod_lt _ (by omega)),
    hexValue_hexDigit (Nat.mod_lt _ (by omega)), hexValue_hexDigit (Nat.mod_lt _ (by omega))]
  simp only [Option.getD_some]
  omega

theorem plain_cons {c : Char} (h : c ≠ '\\') (rest : List Char) : plain (c :: rest) = c :: plain rest := by
  rw [plain, plainAfter.eq_def]
  split
  · rename_i heq
    exact absurd (List.cons.inj heq).1 h
  · rename_i heq
    exact absurd (List.cons.inj heq).1 h
  · rename_i heq
    obtain ⟨rfl, rfl⟩ := List.cons.inj heq
    rfl
  · rename_i heq
    cases heq

theorem plain_append {cs : List Char} (h : '\\' ∉ cs) (rest : List Char) :
    plain (cs ++ rest) = cs ++ plain rest := by
  induction cs with
  | nil => rfl
  | cons c cs ih =>
    rw [List.mem_cons, not_or] at h
    rw [List.cons_append, plain_cons (Ne.symm h.1), ih h.2, List.cons_append]

theorem plain_short {c : Char} (h : c ≠ 'u') (rest : List Char) :
    plain ('\\' :: c :: rest) = '\\' :: c :: plain rest := by
  rw [plain, plainAfter.eq_def]
  split
  · rename_i heq
    exact absurd (List.cons.inj (List.cons.inj heq).2).1 h
  · rename_i heq
    obtain ⟨rfl, rfl⟩ := List.cons.inj (List.cons.inj heq).2
    rfl
  · rename_i hshort heq
    obtain ⟨rfl, rfl⟩ := List.cons.inj heq
    exact absurd rfl (hshort _ _ rfl)
  · rename_i heq
    cases heq

theorem plainAfter_escapeUnit (high : Nat) {n : Nat} (hn : n < 0x10000) (rest : List Char) :
    plainAfter high (escapeUnit n ++ rest) =
      if n < 0x20 then escapeUnit n ++ plain rest
      else if n < 0xD800 ∨ 0xE000 ≤ n then Char.ofNat n :: plain rest
      else if n < 0xDC00 then plainAfter (n - 0xD800) rest
      else Char.ofNat (0x10000 + high * 0x400 + (n - 0xDC00)) :: plain rest := by
  simp only [escapeUnit, List.cons_append, List.nil_append, plainAfter, hexUnit_digits hn]
  rfl

theorem plain_escapeUnit {n : Nat} (h : n < 0xD800 ∨ 0xE000 ≤ n) (hn : n < 0x10000) (rest : List Char) :
    plain (escapeUnit n ++ rest) =
      if n < 0x20 then escapeUnit n ++ plain rest else Char.ofNat n :: plain rest := by
  rw [plain, plainAfter_escapeUnit 0 hn, if_pos h]

theorem plain_pair {hi lo : Nat} (hhi : hi < 0x400) (hlo : lo < 0x400) (rest : List Char) :
    plain (escapeUnit (0xD800 + hi) ++ (escapeUnit (0xDC00 + lo) ++ rest)) =
      Char.ofNat (0x10000 + hi * 0x400 + lo) :: plain rest := by
  rw [plain, plainAfter_escapeUnit 0 (by omega), if_neg (by omega), if_neg (by omega), if_pos (by omega),
    plainAfter_escapeUnit _ (by omega), if_neg (by omega), if_neg (by omega), if_neg (by omega),
    Nat.add_sub_cancel_left, Nat.add_sub_cancel_left]

theorem hexDigit_zero : hexDigit 0 = '0' := rfl

/-- A control character has the same escape in both texts. -/
theorem escapeUnit_control {n : Nat} (h : n < 0x20) :
    escapeUnit n = ['\\', 'u', '0', '0', hexDigit (n / 16), hexDigit (n % 16)] := by
  have h1 : n / 4096 % 16 = 0 := by omega
  have h2 : n / 256 % 16 = 0 := by omega
  have h3 : n / 16 % 16 = n / 16 := by omega
  rw [escapeUnit, h1, h2, h3, hexDigit_zero]

theorem plain_escapeAscii (c : Char) (rest : List Char) :
    plain (escapeAscii c ++ rest) = escapeChar c ++ plain rest := by
  unfold escapeAscii escapeChar
  by_cases hq : c = '"'
  · simp only [if_pos hq]
    exact plain_short (by decide) rest
  by_cases hb : c = '\\'
  · simp only [if_neg hq, if_pos hb]
    exact plain_short (by decide) rest
  by_cases hn : c = '\n'
  · simp only [if_neg hq, if_neg hb, if_pos hn]
    exact plain_short (by decide) rest
  by_cases hr : c = '\r'
  · simp only [if_neg hq, if_neg hb, if_neg hn, if_pos hr]
    exact plain_short (by decide) rest
  by_cases ht : c = '\t'
  · simp only [if_neg hq, if_neg hb, if_neg hn, if_neg hr, if_pos ht]
    exact plain_short (by decide) rest
  by_cases hbs : c = '\x08'
  · simp only [if_neg hq, if_neg hb, if_neg hn, if_neg hr, if_neg ht, if_pos hbs]
    exact plain_short (by decide) rest
  by_cases hf : c = '\x0c'
  · simp only [if_neg hq, if_neg hb, if_neg hn, if_neg hr, if_neg ht, if_neg hbs, if_pos hf]
    exact plain_short (by decide) rest
  simp only [if_neg hq, if_neg hb, if_neg hn, if_neg hr, if_neg ht, if_neg hbs, if_neg hf]
  by_cases hprint : 0x20 ≤ c.toNat ∧ c.toNat ≤ 0x7E
  · rw [if_pos hprint, if_neg (by omega : ¬ c.toNat < 0x20)]
    exact plain_cons hb rest
  rw [if_neg hprint]
  by_cases hlow : c.toNat < 0x10000
  · have hvalid : c.toNat < 0xD800 ∨ 0xE000 ≤ c.toNat := by
      have hv := c.valid
      simp only [UInt32.isValidChar, Nat.isValidChar] at hv
      have htoNat : c.toNat = c.val.toNat := rfl
      omega
    rw [if_pos hlow, plain_escapeUnit hvalid hlow]
    split
    · rename_i hcontrol
      rw [escapeUnit_control hcontrol]
    · rw [Char.ofNat_toNat]
      rfl
  · have htop : c.toNat < 0x110000 := by
      have hv := c.valid
      simp only [UInt32.isValidChar, Nat.isValidChar] at hv
      have htoNat : c.toNat = c.val.toNat := rfl
      omega
    have hpoint : 0x10000 + (c.toNat - 0x10000) / 0x400 * 0x400 + (c.toNat - 0x10000) % 0x400 = c.toNat := by
      omega
    rw [if_neg hlow, if_neg (by omega : ¬ c.toNat < 0x20), List.append_assoc,
      plain_pair (by omega) (Nat.mod_lt _ (by omega)), hpoint, Char.ofNat_toNat]
    rfl

theorem plain_flatMap (s : List Char) (rest : List Char) :
    plain (s.flatMap escapeAscii ++ rest) = s.flatMap escapeChar ++ plain rest := by
  induction s with
  | nil => rfl
  | cons c s ih =>
    rw [List.flatMap_cons, List.append_assoc, plain_escapeAscii, ih, List.flatMap_cons,
      List.append_assoc]

theorem plain_quoteAscii (s : List Char) (rest : List Char) :
    plain (quoteAscii s ++ rest) = quote s ++ plain rest := by
  rw [quoteAscii, List.cons_append, plain_cons (by decide), List.append_assoc, plain_flatMap,
    List.cons_append, plain_cons (by decide), quote]
  simp

theorem no_backslash {cs : List Char} (h : cs.all Binary64.numChar) : '\\' ∉ cs := by
  intro hmem
  exact absurd (List.all_eq_true.mp h _ hmem) (by decide)

mutual

theorem plain_asciiText : ∀ (v : Value) (rest : List Char),
    plain (asciiText v ++ rest) = text v ++ plain rest
  | .null, rest => plain_append (by decide) rest
  | .bool true, rest => plain_append (by decide) rest
  | .bool false, rest => plain_append (by decide) rest
  | .int i, rest => plain_append (no_backslash (intText_numChar i)) rest
  | .float x, rest => plain_append (no_backslash (Binary64.repr_numChar x)) rest
  | .str s, rest => plain_quoteAscii s.toList rest
  | .arr items, rest => by
    rw [asciiText, List.cons_append, plain_cons (by decide), plain_asciiItems items true rest, text,
      List.cons_append]
  | .obj fields, rest => by
    rw [asciiText, List.cons_append, plain_cons (by decide), plain_asciiFields fields true rest, text,
      List.cons_append]

theorem plain_asciiItems : ∀ (vs : List Value) (first : Bool) (rest : List Char),
    plain (asciiItems first vs ++ rest) = itemsText first vs ++ plain rest
  | [], _, rest => plain_cons (by decide) rest
  | v :: vs, first, rest => by
    have hcomma : '\\' ∉ (if first then [] else [',']) := by cases first <;> decide
    rw [asciiItems, itemsText, List.append_assoc, plain_append hcomma, List.append_assoc,
      plain_asciiText v, plain_asciiItems vs false rest, List.append_assoc, List.append_assoc]

theorem plain_asciiFields : ∀ (fs : List (String × Value)) (first : Bool) (rest : List Char),
    plain (asciiFields first fs ++ rest) = fieldsText first fs ++ plain rest
  | [], _, rest => plain_cons (by decide) rest
  | (k, v) :: fs, first, rest => by
    have hcomma : '\\' ∉ (if first then [] else [',']) := by cases first <;> decide
    rw [asciiFields, fieldsText, List.append_assoc, plain_append hcomma, List.append_assoc,
      plain_quoteAscii, List.cons_append, plain_cons (by decide), List.append_assoc,
      plain_asciiText v, plain_asciiFields fs false rest]
    simp only [List.append_assoc, List.cons_append]

end

/-! ## Its characters -/

def isAscii (c : Char) : Bool := decide (c.toNat < 128)

theorem hexDigit_ascii (n : Nat) : isAscii (hexDigit n) = true := by
  have hdigits : "0123456789abcdef".toList.all isAscii = true := by decide
  unfold hexDigit
  rw [List.getD_eq_getElem?_getD]
  cases hdigit : "0123456789abcdef".toList[n]? with
  | none => decide
  | some c => exact List.all_eq_true.mp hdigits c (List.mem_of_getElem? hdigit)

theorem escapeUnit_ascii (n : Nat) : (escapeUnit n).all isAscii = true := by
  have hmarks : isAscii '\\' = true ∧ isAscii 'u' = true := by decide
  simp only [escapeUnit, List.all_cons, List.all_nil, hexDigit_ascii, hmarks.1, hmarks.2, Bool.and_self]

theorem escapeAscii_ascii (c : Char) : (escapeAscii c).all isAscii = true := by
  unfold escapeAscii
  split
  · decide
  split
  · decide
  split
  · decide
  split
  · decide
  split
  · decide
  split
  · decide
  split
  · decide
  split
  · rename_i hprintable
    rw [List.all_cons, List.all_nil, Bool.and_true, isAscii, decide_eq_true_eq]
    omega
  split
  · exact escapeUnit_ascii _
  · rw [List.all_append, escapeUnit_ascii, escapeUnit_ascii]
    rfl

theorem quoteAscii_ascii (s : List Char) : (quoteAscii s).all isAscii = true := by
  have hquote : isAscii '"' = true := by decide
  have hbody : (s.flatMap escapeAscii).all isAscii = true := by
    rw [List.all_flatMap]
    exact List.all_eq_true.mpr fun c _ => escapeAscii_ascii c
  rw [quoteAscii, List.all_cons, List.all_append, hbody, List.all_cons, List.all_nil, hquote]
  rfl

theorem numChar_ascii {cs : List Char} (h : cs.all Binary64.numChar = true) : cs.all isAscii = true := by
  refine List.all_eq_true.mpr fun c hc => ?_
  have hnum := List.all_eq_true.mp h c hc
  simp only [Binary64.numChar, Bool.or_eq_true, beq_iff_eq] at hnum
  rcases hnum with (((hdigit | rfl) | rfl) | rfl) | rfl
  · simp only [Char.isDigit, Bool.and_eq_true, decide_eq_true_eq, UInt32.le_iff_toNat_le] at hdigit
    rw [isAscii, decide_eq_true_eq]
    exact Nat.lt_of_le_of_lt hdigit.2 (by decide)
  all_goals decide

mutual

/-- No character of the text is outside ASCII. -/
theorem asciiText_ascii : ∀ v : Value, (asciiText v).all isAscii = true
  | .null => by decide
  | .bool true => by decide
  | .bool false => by decide
  | .int i => numChar_ascii (intText_numChar i)
  | .float x => numChar_ascii (Binary64.repr_numChar x)
  | .str s => quoteAscii_ascii s.toList
  | .arr items => by
    rw [asciiText, List.all_cons, asciiItems_ascii items true]
    decide
  | .obj fields => by
    rw [asciiText, List.all_cons, asciiFields_ascii fields true]
    decide

theorem asciiItems_ascii : ∀ (vs : List Value) (first : Bool), (asciiItems first vs).all isAscii = true
  | [], _ => by
    rw [asciiItems]
    decide
  | v :: vs, first => by
    have hcomma : (if first then [] else [',']).all isAscii = true := by cases first <;> decide
    rw [asciiItems, List.all_append, List.all_append, hcomma, asciiText_ascii v, asciiItems_ascii vs false]
    rfl

theorem asciiFields_ascii : ∀ (fs : List (String × Value)) (first : Bool),
    (asciiFields first fs).all isAscii = true
  | [], _ => by
    rw [asciiFields]
    decide
  | (k, v) :: fs, first => by
    have hcomma : (if first then [] else [',']).all isAscii = true := by cases first <;> decide
    have hcolon : isAscii ':' = true := by decide
    rw [asciiFields, List.all_append, List.all_append, List.all_cons, List.all_append, hcomma, hcolon,
      quoteAscii_ascii, asciiText_ascii v, asciiFields_ascii fs false]
    rfl

end

/-! ## What the text determines -/

/-- Equal ASCII texts are texts of one value. -/
theorem asciiDumps_injective {v w : Value} (h : asciiDumps v = asciiDumps w) : v = w := by
  have htext : asciiText v = asciiText w := String.ofList_injective h
  apply dumps_injective
  have hv := plain_asciiText v []
  have hw := plain_asciiText w []
  rw [htext] at hv
  have heq : text v ++ plain [] = text w ++ plain [] := hv.symm.trans hw
  exact congrArg String.ofList (List.append_cancel_right heq)

theorem asciiText_injective {v w : Value} (h : asciiText v = asciiText w) : v = w :=
  asciiDumps_injective (congrArg String.ofList h)

/-- A quoted string at the head of a text, and what stands behind it in the plain text. -/
theorem quoted_inj {s t : List Char} {rest rest' : List Char}
    (h : quote s ++ plain rest = quote t ++ plain rest') : s = t ∧ plain rest = plain rest' := by
  have htail : s.flatMap escapeChar ++ '"' :: plain rest = t.flatMap escapeChar ++ '"' :: plain rest' := by
    simpa [quote] using h
  have hs := readString_quoted s (plain rest)
  rw [htail, readString_quoted t (plain rest')] at hs
  obtain ⟨rfl, hrest⟩ := Prod.mk.inj (Option.some.inj hs)
  exact ⟨rfl, hrest.symm⟩

end Json
