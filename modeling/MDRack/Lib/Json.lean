import MDRack.Lib.Binary64

/-!
# JSON values and their canonical text

The value type keeps integers and binary64 numbers apart, as the text does: `1` and `1.0` are
different values with different texts.  Objects are association lists in text order.

* `dumps` — compact text, no blanks, characters outside ASCII kept.
* `loads` — the reader of that text.
* `pyEq` — equality of the loaded values, where numbers compare by value.

Principal results: `loads_dumps` — reading the text of a value gives the value back, so the
text determines the value (`dumps_injective`); `pyEq_refl`.
-/

namespace Json

open Binary64 (F64)

inductive Value where
  | null
  | bool (b : Bool)
  | int (i : Int)
  | float (x : F64)
  | str (s : String)
  | arr (items : List Value)
  | obj (fields : List (String × Value))

/-! ## Text -/

def hexDigit (n : Nat) : Char := "0123456789abcdef".toList.getD n '0'

def escapeChar (c : Char) : List Char :=
  if c = '"' then ['\\', '"']
  else if c = '\\' then ['\\', '\\']
  else if c = '\n' then ['\\', 'n']
  else if c = '\r' then ['\\', 'r']
  else if c = '\t' then ['\\', 't']
  else if c = '\x08' then ['\\', 'b']
  else if c = '\x0c' then ['\\', 'f']
  else if c.toNat < 0x20 then ['\\', 'u', '0', '0', hexDigit (c.toNat / 16), hexDigit (c.toNat % 16)]
  else [c]

def quote (s : List Char) : List Char := '"' :: (s.flatMap escapeChar ++ ['"'])

def intText (i : Int) : List Char :=
  if i < 0 then '-' :: Nat.toDigits 10 i.natAbs else Nat.toDigits 10 i.natAbs

mutual

def text : Value → List Char
  | .null => ['n', 'u', 'l', 'l']
  | .bool true => ['t', 'r', 'u', 'e']
  | .bool false => ['f', 'a', 'l', 's', 'e']
  | .int i => intText i
  | .float x => Binary64.repr x
  | .str s => quote s.toList
  | .arr items => '[' :: itemsText true items
  | .obj fields => '{' :: fieldsText true fields

/-- The rest of an array; `first` tells whether a comma is due before the next item. -/
def itemsText (first : Bool) : List Value → List Char
  | [] => [']']
  | v :: rest => (if first then [] else [',']) ++ (text v ++ itemsText false rest)

def fieldsText (first : Bool) : List (String × Value) → List Char
  | [] => ['}']
  | (k, v) :: rest =>
    (if first then [] else [',']) ++ (quote k.toList ++ ':' :: (text v ++ fieldsText false rest))

end

def dumps (v : Value) : String := String.ofList (text v)

/-! ## Reader -/

def hexValue (c : Char) : Option Nat :=
  "0123456789abcdef".toList.findIdx? (· == c)

def unescape (c : Char) : Option Char :=
  if c = '"' then some '"'
  else if c = '\\' then some '\\'
  else if c = 'n' then some '\n'
  else if c = 'r' then some '\r'
  else if c = 't' then some '\t'
  else if c = 'b' then some '\x08'
  else if c = 'f' then some '\x0c'
  else none

/-- Characters up to the closing quote, and what follows it. -/
def readString : List Char → Option (List Char × List Char)
  | [] => none
  | '"' :: rest => some ([], rest)
  | '\\' :: 'u' :: '0' :: '0' :: hi :: lo :: rest =>
    match hexValue hi, hexValue lo with
    | some h, some l => (readString rest).map fun p => (Char.ofNat (16 * h + l) :: p.1, p.2)
    | _, _ => none
  | '\\' :: c :: rest =>
    match unescape c with
    | some d => (readString rest).map fun p => (d :: p.1, p.2)
    | none => none
  | c :: rest => (readString rest).map fun p => (c :: p.1, p.2)

/-- A token with a point or an exponent is a float, any other an integer. -/
def readNumber (token : List Char) : Option Value :=
  if token.any Binary64.floatMark then (Binary64.parse token).map .float
  else match token with
    | '-' :: ds => if ds ≠ [] ∧ ds.all Char.isDigit
        then some (.int (-(Nat.ofDigitChars 10 ds 0 : Int))) else none
    | ds => if ds ≠ [] ∧ ds.all Char.isDigit then some (.int (Nat.ofDigitChars 10 ds 0)) else none

def skipComma (first : Bool) (cs : List Char) : Option (List Char) :=
  if first then some cs
  else match cs with
    | ',' :: rest => some rest
    | _ => none

mutual

def readValue : Nat → List Char → Option (Value × List Char)
  | 0, _ => none
  | fuel + 1, cs =>
    match cs with
    | 'n' :: 'u' :: 'l' :: 'l' :: rest => some (.null, rest)
    | 't' :: 'r' :: 'u' :: 'e' :: rest => some (.bool true, rest)
    | 'f' :: 'a' :: 'l' :: 's' :: 'e' :: rest => some (.bool false, rest)
    | '"' :: rest => (readString rest).map fun p => (.str (String.ofList p.1), p.2)
    | '[' :: rest => (readItems fuel true rest).map fun p => (.arr p.1, p.2)
    | '{' :: rest => (readFields fuel true rest).map fun p => (.obj p.1, p.2)
    | cs => (readNumber (cs.takeWhile Binary64.numChar)).map fun v =>
        (v, cs.dropWhile Binary64.numChar)

def readItems : Nat → Bool → List Char → Option (List Value × List Char)
  | 0, _, _ => none
  | fuel + 1, first, cs =>
    match cs with
    | ']' :: rest => some ([], rest)
    | cs =>
      match skipComma first cs with
      | none => none
      | some cs =>
        match readValue fuel cs with
        | none => none
        | some (v, rest) => (readItems fuel false rest).map fun p => (v :: p.1, p.2)

def readFields : Nat → Bool → List Char → Option (List (String × Value) × List Char)
  | 0, _, _ => none
  | fuel + 1, first, cs =>
    match cs with
    | '}' :: rest => some ([], rest)
    | cs =>
      match skipComma first cs with
      | some ('"' :: cs) =>
        match readString cs with
        | some (k, ':' :: cs) =>
          match readValue fuel cs with
          | none => none
          | some (v, rest) =>
            (readFields fuel false rest).map fun p => ((String.ofList k, v) :: p.1, p.2)
        | _ => none
      | _ => none

end

def loads (s : String) : Option Value :=
  match readValue (s.toList.length + 1) s.toList with
  | some (v, []) => some v
  | _ => none

/-! ## Reading back a token -/

theorem hexValue_hexDigit {n : Nat} (h : n < 16) : hexValue (hexDigit n) = some n := by
  have hall : ∀ k : Fin 16, hexValue (hexDigit k) = some k.val := by decide
  exact hall ⟨n, h⟩

theorem readString_escapeChar (c : Char) (cs : List Char) :
    readString (escapeChar c ++ cs) = (readString cs).map fun p => (c :: p.1, p.2) := by
  unfold escapeChar
  split
  · rename_i h; subst h; simp [readString, unescape]
  split
  · rename_i h; subst h; simp [readString, unescape]
  split
  · rename_i h; subst h; simp [readString, unescape]
  split
  · rename_i h; subst h; simp [readString, unescape]
  split
  · rename_i h; subst h; simp [readString, unescape]
  split
  · rename_i h; subst h; simp [readString, unescape]
  split
  · rename_i h; subst h; simp [readString, unescape]
  split
  · rename_i hlow
    have hhi := hexValue_hexDigit (n := c.toNat / 16) (by omega)
    have hlo := hexValue_hexDigit (n := c.toNat % 16) (by omega)
    have hchar : Char.ofNat (16 * (c.toNat / 16) + c.toNat % 16) = c := by
      rw [Nat.div_add_mod, Char.ofNat_toNat]
    simp [readString, hhi, hlo, hchar]
  · rename_i hb _ _ _ _ _ _
    simp [readString, hb]

theorem readString_quoted (s rest : List Char) :
    readString (s.flatMap escapeChar ++ '"' :: rest) = some (s, rest) := by
  induction s with
  | nil => rfl
  | cons c cs ih =>
    rw [List.flatMap_cons, List.append_assoc, readString_escapeChar, ih]
    rfl

/-- What may follow a value: never a character that would extend a number. -/
def Stops (rest : List Char) : Prop := rest.head?.all fun c => !Binary64.numChar c

theorem takeWhile_stops {token rest : List Char} (ht : token.all Binary64.numChar)
    (hr : Stops rest) :
    (token ++ rest).takeWhile Binary64.numChar = token ∧
      (token ++ rest).dropWhile Binary64.numChar = rest := by
  induction token with
  | nil =>
    cases rest with
    | nil => simp
    | cons c rest => simp [Stops] at hr; simp [hr]
  | cons d ds ih =>
    simp only [List.all_cons, Bool.and_eq_true] at ht
    simp [ht.1, ih ht.2]

theorem digits_not_mark {ds : List Char} (h : ds.all Char.isDigit) :
    ds.any Binary64.floatMark = false := by
  simp only [List.all_eq_true, List.any_eq_false] at h ⊢
  intro c hc
  have hd := h c hc
  unfold Binary64.floatMark
  by_contra hm
  simp only [Bool.or_eq_true, beq_iff_eq] at hm
  rcases hm with rfl | rfl <;> revert hd <;> decide

theorem intText_numChar (i : Int) : (intText i).all Binary64.numChar := by
  have h := Binary64.digits_numChar (Binary64.toDigits_all_digit i.natAbs)
  unfold intText
  split
  · simpa [Binary64.numChar] using h
  · exact h

theorem readNumber_intText (i : Int) : readNumber (intText i) = some (.int i) := by
  have hall := Binary64.toDigits_all_digit i.natAbs
  have hmark := digits_not_mark hall
  have hne : Nat.toDigits 10 i.natAbs ≠ [] := Nat.toDigits_ne_nil
  unfold intText readNumber
  split
  · have hm : ('-' :: Nat.toDigits 10 i.natAbs).any Binary64.floatMark = false := by
      simpa [Binary64.floatMark] using hmark
    rw [hm]
    simp only [hne, hall, Bool.false_eq_true, ↓reduceIte, ne_eq, not_false_eq_true, and_self,
      Nat.ofDigitChars_ten_toDigits]
    congr; omega
  · rw [hmark]
    split
    · contradiction
    · split
      · rename_i ds heq
        rw [heq] at hall
        revert hall; simp
      · simp only [hne, hall, ne_eq, not_false_eq_true, and_self, ↓reduceIte,
          Nat.ofDigitChars_ten_toDigits]
        congr; omega

theorem readNumber_repr (x : F64) : readNumber (Binary64.repr x) = some (.float x) := by
  unfold readNumber
  rw [if_pos (Binary64.repr_mark x), Binary64.parse_repr]
  rfl

/-- A number token is a nonempty run of number characters. -/
structure IsNumber (token : List Char) (v : Value) : Prop where
  chars : token.all Binary64.numChar
  reads : readNumber token = some v
  nonempty : token ≠ []

theorem isNumber_int (i : Int) : IsNumber (intText i) (.int i) := by
  refine ⟨intText_numChar i, readNumber_intText i, ?_⟩
  have hne : Nat.toDigits 10 i.natAbs ≠ [] := Nat.toDigits_ne_nil
  unfold intText
  split
  · exact List.cons_ne_nil _ _
  · exact hne

theorem isNumber_float (x : F64) : IsNumber (Binary64.repr x) (.float x) := by
  refine ⟨Binary64.repr_numChar x, readNumber_repr x, ?_⟩
  intro hnil
  have := Binary64.repr_mark x
  rw [hnil] at this
  cases this

/-- Number characters open none of the other values. -/
theorem readValue_numChar {c : Char} (hc : Binary64.numChar c) (fuel : Nat) (cs : List Char) :
    readValue (fuel + 1) (c :: cs) = (readNumber ((c :: cs).takeWhile Binary64.numChar)).map fun v =>
      (v, (c :: cs).dropWhile Binary64.numChar) := by
  have hne : c ≠ 'n' ∧ c ≠ 't' ∧ c ≠ 'f' ∧ c ≠ '"' ∧ c ≠ '[' ∧ c ≠ '{' := by
    refine ⟨?_, ?_, ?_, ?_, ?_, ?_⟩ <;> rintro rfl <;> revert hc <;> decide
  obtain ⟨h1, h2, h3, h4, h5, h6⟩ := hne
  simp [readValue, h1, h2, h3, h4, h5, h6]

theorem readValue_number {token rest : List Char} {v : Value} (h : IsNumber token v)
    (hr : Stops rest) (fuel : Nat) : readValue (fuel + 1) (token ++ rest) = some (v, rest) := by
  have hspan := takeWhile_stops h.chars hr
  cases htoken : token with
  | nil => exact absurd htoken h.nonempty
  | cons c cs =>
    have hc : Binary64.numChar c := by
      have := h.chars
      rw [htoken, List.all_cons, Bool.and_eq_true] at this
      exact this.1
    rw [List.cons_append, readValue_numChar hc, ← List.cons_append, ← htoken, hspan.1, hspan.2,
      h.reads]
    rfl

/-! ## Reading back a value -/

/-- No value opens with a closing bracket. -/
theorem text_head (v : Value) : ∃ c cs, text v = c :: cs ∧ c ≠ ']' := by
  have hnumber : ∀ {token w}, IsNumber token w → ∃ c cs, token = c :: cs ∧ c ≠ ']' := by
    intro token w h
    cases htoken : token with
    | nil => exact absurd htoken h.nonempty
    | cons c cs =>
      refine ⟨c, cs, rfl, ?_⟩
      rintro rfl
      have := h.chars
      rw [htoken] at this
      revert this
      simp [Binary64.numChar]
  cases v with
  | null => exact ⟨'n', _, rfl, by decide⟩
  | bool b => cases b <;> exact ⟨_, _, rfl, by decide⟩
  | int i => exact hnumber (isNumber_int i)
  | float x => exact hnumber (isNumber_float x)
  | str s => exact ⟨'"', _, rfl, by decide⟩
  | arr items => exact ⟨'[', _, rfl, by decide⟩
  | obj fields => exact ⟨'{', _, rfl, by decide⟩

theorem text_pos (v : Value) : 0 < (text v).length := by
  obtain ⟨c, cs, h, -⟩ := text_head v
  rw [h]
  exact Nat.succ_pos _

theorem itemsText_pos (first : Bool) (vs : List Value) : 0 < (itemsText first vs).length := by
  cases vs with
  | nil => simp [itemsText]
  | cons v rest =>
    have := text_pos v
    simp [itemsText]
    omega

theorem fieldsText_pos (first : Bool) (fs : List (String × Value)) :
    0 < (fieldsText first fs).length := by
  cases fs with
  | nil => simp [fieldsText]
  | cons f rest => simp [fieldsText]

theorem itemsText_stops (vs : List Value) (rest : List Char) : Stops (itemsText false vs ++ rest) := by
  cases vs <;> simp [itemsText, Stops, Binary64.numChar]

theorem fieldsText_stops (fs : List (String × Value)) (rest : List Char) :
    Stops (fieldsText false fs ++ rest) := by
  cases fs <;> simp [fieldsText, Stops, Binary64.numChar]

theorem readItems_cons {fuel : Nat} {first : Bool} {v : Value} {vs : List Value} {rest : List Char}
    (hv : readValue fuel (text v ++ (itemsText false vs ++ rest)) =
      some (v, itemsText false vs ++ rest))
    (hvs : readItems fuel false (itemsText false vs ++ rest) = some (vs, rest)) :
    readItems (fuel + 1) first (itemsText first (v :: vs) ++ rest) = some (v :: vs, rest) := by
  obtain ⟨c, cs, hc, hne⟩ := text_head v
  cases first with
  | true =>
    rw [hc] at hv
    simp only [itemsText, hc, ↓reduceIte, List.nil_append, List.append_assoc,
      List.cons_append] at hv ⊢
    simp [readItems, skipComma, hne, hv, hvs]
  | false =>
    simp only [itemsText, Bool.false_eq_true, ↓reduceIte, List.append_assoc, List.cons_append,
      List.nil_append]
    simp [readItems, skipComma, hv, hvs]

theorem readFields_cons {fuel : Nat} {first : Bool} {k : String} {v : Value}
    {fs : List (String × Value)} {rest : List Char}
    (hv : readValue fuel (text v ++ (fieldsText false fs ++ rest)) =
      some (v, fieldsText false fs ++ rest))
    (hfs : readFields fuel false (fieldsText false fs ++ rest) = some (fs, rest)) :
    readFields (fuel + 1) first (fieldsText first ((k, v) :: fs) ++ rest) =
      some ((k, v) :: fs, rest) := by
  have hk := readString_quoted k.toList (':' :: (text v ++ (fieldsText false fs ++ rest)))
  cases first with
  | true =>
    simp only [fieldsText, quote, ↓reduceIte, List.nil_append, List.append_assoc, List.cons_append]
    simp [readFields, skipComma, hk, hv, hfs]
  | false =>
    simp only [fieldsText, quote, Bool.false_eq_true, ↓reduceIte, List.append_assoc,
      List.cons_append, List.nil_append]
    simp [readFields, skipComma, hk, hv, hfs]

mutual

theorem readValue_text : ∀ (v : Value) (fuel : Nat) (rest : List Char),
    (text v).length ≤ fuel → Stops rest → readValue fuel (text v ++ rest) = some (v, rest)
  | v, 0, _, hf, _ => absurd (text_pos v) (by omega)
  | .null, _ + 1, _, _, _ => by simp [text, readValue]
  | .bool true, _ + 1, _, _, _ => by simp [text, readValue]
  | .bool false, _ + 1, _, _, _ => by simp [text, readValue]
  | .int i, fuel + 1, _, _, hr => readValue_number (isNumber_int i) hr fuel
  | .float x, fuel + 1, _, _, hr => readValue_number (isNumber_float x) hr fuel
  | .str s, _ + 1, rest, _, _ => by
    have hs := readString_quoted s.toList rest
    simp [text, quote, readValue, hs]
  | .arr items, fuel + 1, rest, hf, _ => by
    have hlen : (itemsText true items).length ≤ fuel := by simp [text] at hf; omega
    simp [text, readValue, readItems_text items true fuel rest hlen]
  | .obj fields, fuel + 1, rest, hf, _ => by
    have hlen : (fieldsText true fields).length ≤ fuel := by simp [text] at hf; omega
    simp [text, readValue, readFields_text fields true fuel rest hlen]

theorem readItems_text : ∀ (vs : List Value) (first : Bool) (fuel : Nat) (rest : List Char),
    (itemsText first vs).length ≤ fuel →
      readItems fuel first (itemsText first vs ++ rest) = some (vs, rest)
  | [], _, fuel, _, hf => by
    cases fuel with
    | zero => simp [itemsText] at hf
    | succ fuel => simp [itemsText, readItems]
  | v :: vs, first, fuel, rest, hf => by
    have hpos := text_pos v
    have hpos' := itemsText_pos false vs
    simp only [itemsText, List.length_append] at hf
    obtain ⟨n, rfl⟩ : ∃ n, fuel = n + 1 := ⟨fuel - 1, by omega⟩
    refine readItems_cons (readValue_text v n _ (by omega) (itemsText_stops vs rest)) ?_
    exact readItems_text vs false n rest (by omega)

theorem readFields_text : ∀ (fs : List (String × Value)) (first : Bool) (fuel : Nat)
    (rest : List Char), (fieldsText first fs).length ≤ fuel →
      readFields fuel first (fieldsText first fs ++ rest) = some (fs, rest)
  | [], _, fuel, _, hf => by
    cases fuel with
    | zero => simp [fieldsText] at hf
    | succ fuel => simp [fieldsText, readFields]
  | (k, v) :: fs, first, fuel, rest, hf => by
    have hpos := text_pos v
    have hpos' := fieldsText_pos false fs
    simp only [fieldsText, List.length_append, List.length_cons] at hf
    obtain ⟨n, rfl⟩ : ∃ n, fuel = n + 1 := ⟨fuel - 1, by omega⟩
    refine readFields_cons (readValue_text v n _ (by omega) (fieldsText_stops fs rest)) ?_
    exact readFields_text fs false n rest (by omega)

end

theorem loads_dumps (v : Value) : loads (dumps v) = some v := by
  have h := readValue_text v ((text v).length + 1) [] (Nat.le_succ _) (by simp [Stops])
  rw [List.append_nil] at h
  simp [loads, dumps, h]

theorem dumps_injective {v w : Value} (h : dumps v = dumps w) : v = w := by
  have hv := loads_dumps v
  rw [h, loads_dumps w] at hv
  exact (Option.some.inj hv).symm

/-! ## Equality of loaded values -/

/-- Numeric value in units of the smallest double; truth values count as `0` and `1`. -/
def Value.number? : Value → Option Int
  | .bool b => some (if b then Binary64.unit else 0)
  | .int i => some (i * Binary64.unit)
  | .float x => some x.value
  | _ => none

def scalarEq : Value → Value → Bool
  | .null, .null => true
  | .str s, .str t => s == t
  | .int i, .int j => i == j
  | .bool b, .bool c => b == c
  | v, w =>
    match v.number?, w.number? with
    | some m, some n => m == n
    | _, _ => false

mutual

/-- `==` on values: containers item by item, numbers by value. -/
def pyEq : Value → Value → Bool
  | .arr xs, .arr ys => pyEqItems xs ys
  | .obj xs, .obj ys => pyEqFields xs ys
  | v, w => scalarEq v w

def pyEqItems : List Value → List Value → Bool
  | [], [] => true
  | x :: xs, y :: ys => pyEq x y && pyEqItems xs ys
  | _, _ => false

def pyEqFields : List (String × Value) → List (String × Value) → Bool
  | [], [] => true
  | (k, x) :: xs, (l, y) :: ys => k == l && pyEq x y && pyEqFields xs ys
  | _, _ => false

end

instance : BEq Value := ⟨pyEq⟩

mutual

theorem pyEq_refl : ∀ v : Value, pyEq v v = true
  | .null => rfl
  | .bool b => by simp [pyEq, scalarEq]
  | .int i => by simp [pyEq, scalarEq]
  | .float x => by simp [pyEq, scalarEq, Value.number?]
  | .str s => by simp [pyEq, scalarEq]
  | .arr items => by rw [pyEq]; exact pyEqItems_refl items
  | .obj fields => by rw [pyEq]; exact pyEqFields_refl fields

theorem pyEqItems_refl : ∀ vs : List Value, pyEqItems vs vs = true
  | [] => rfl
  | v :: vs => by simp [pyEqItems, pyEq_refl v, pyEqItems_refl vs]

theorem pyEqFields_refl : ∀ fs : List (String × Value), pyEqFields fs fs = true
  | [] => rfl
  | (k, v) :: fs => by simp [pyEqFields, pyEq_refl v, pyEqFields_refl fs]

end

instance : ReflBEq Value := ⟨pyEq_refl _⟩

/-- What a scalar is equal by. -/
def scalarKey : Value → Option (Option (String ⊕ Int))
  | .null => some none
  | .str s => some (some (.inl s))
  | v => v.number?.map fun n => some (.inr n)

theorem scalarEq_iff {v w : Value} :
    scalarEq v w = true ↔ (scalarKey v).isSome ∧ scalarKey v = scalarKey w := by
  have hunit : Binary64.unit ≠ 0 := Binary64.unit_pos.ne'
  -- the unit is a large power of two: it stays opaque
  cases v <;> cases w <;> simp only [scalarEq, scalarKey, Value.number?] <;>
    generalize Binary64.unit = unit at hunit ⊢
  case bool.bool b c => cases b <;> cases c <;> simp [hunit, eq_comm]
  all_goals simp [hunit]

/-- A scalar is compared as one. -/
theorem pyEq_scalar {v : Value} (h : (scalarKey v).isSome) (w : Value) : pyEq v w = scalarEq v w := by
  cases v <;> cases w <;> first | rfl | cases h

theorem pyEq_symm_scalar {v w : Value} (hv : (scalarKey v).isSome) (h : pyEq v w = true) :
    pyEq w v = true := by
  rw [pyEq_scalar hv, scalarEq_iff] at h
  rw [pyEq_scalar (h.2 ▸ h.1), scalarEq_iff]
  exact ⟨h.2 ▸ h.1, h.2.symm⟩

theorem pyEq_trans_scalar {u v w : Value} (hu : (scalarKey u).isSome) (h : pyEq u v = true)
    (h' : pyEq v w = true) : pyEq u w = true := by
  rw [pyEq_scalar hu, scalarEq_iff] at h
  rw [pyEq_scalar (h.2 ▸ h.1), scalarEq_iff] at h'
  rw [pyEq_scalar hu, scalarEq_iff]
  exact ⟨h.1, h.2.trans h'.2⟩

mutual

theorem pyEq_symm {v w : Value} (h : pyEq v w = true) : pyEq w v = true := by
  cases v with
  | arr xs =>
    cases w with
    | arr ys => rw [pyEq] at h ⊢; exact pyEqItems_symm h
    | _ => exact absurd h Bool.false_ne_true
  | obj xs =>
    cases w with
    | obj ys => rw [pyEq] at h ⊢; exact pyEqFields_symm h
    | _ => exact absurd h Bool.false_ne_true
  | _ => exact pyEq_symm_scalar rfl h

theorem pyEqItems_symm {vs ws : List Value} (h : pyEqItems vs ws = true) : pyEqItems ws vs = true := by
  cases vs with
  | nil => cases ws <;> simp_all [pyEqItems]
  | cons v vs =>
    cases ws with
    | nil => simp [pyEqItems] at h
    | cons w ws =>
      rw [pyEqItems, Bool.and_eq_true] at h ⊢
      exact ⟨pyEq_symm h.1, pyEqItems_symm h.2⟩

theorem pyEqFields_symm {fs gs : List (String × Value)} (h : pyEqFields fs gs = true) :
    pyEqFields gs fs = true := by
  cases fs with
  | nil => cases gs <;> simp_all [pyEqFields]
  | cons f fs =>
    cases gs with
    | nil => simp [pyEqFields] at h
    | cons g gs =>
      simp only [pyEqFields, Bool.and_eq_true, beq_iff_eq] at h ⊢
      exact ⟨⟨h.1.1.symm, pyEq_symm h.1.2⟩, pyEqFields_symm h.2⟩

end

mutual

theorem pyEq_trans {u v w : Value} (h : pyEq u v = true) (h' : pyEq v w = true) : pyEq u w = true := by
  cases u with
  | arr xs =>
    cases v with
    | arr ys =>
      cases w with
      | arr zs => rw [pyEq] at h h' ⊢; exact pyEqItems_trans h h'
      | _ => exact absurd h' Bool.false_ne_true
    | _ => exact absurd h Bool.false_ne_true
  | obj xs =>
    cases v with
    | obj ys =>
      cases w with
      | obj zs => rw [pyEq] at h h' ⊢; exact pyEqFields_trans h h'
      | _ => exact absurd h' Bool.false_ne_true
    | _ => exact absurd h Bool.false_ne_true
  | _ => exact pyEq_trans_scalar rfl h h'
termination_by structural u

theorem pyEqItems_trans {us vs ws : List Value} (h : pyEqItems us vs = true)
    (h' : pyEqItems vs ws = true) : pyEqItems us ws = true := by
  cases us with
  | nil => cases vs <;> simp_all [pyEqItems]
  | cons u us =>
    cases vs with
    | nil => simp [pyEqItems] at h
    | cons v vs =>
      cases ws with
      | nil => simp [pyEqItems] at h'
      | cons w ws =>
        rw [pyEqItems, Bool.and_eq_true] at h h' ⊢
        exact ⟨pyEq_trans h.1 h'.1, pyEqItems_trans h.2 h'.2⟩
termination_by structural us

theorem pyEqFields_trans {fs gs hs : List (String × Value)} (h : pyEqFields fs gs = true)
    (h' : pyEqFields gs hs = true) : pyEqFields fs hs = true := by
  cases fs with
  | nil => cases gs <;> simp_all [pyEqFields]
  | cons f fs =>
    cases gs with
    | nil => simp [pyEqFields] at h
    | cons g gs =>
      cases hs with
      | nil => simp [pyEqFields] at h'
      | cons k hs =>
        simp only [pyEqFields, Bool.and_eq_true, beq_iff_eq] at h h' ⊢
        exact ⟨⟨h.1.1.trans h'.1.1, pyEq_trans h.1.2 h'.1.2⟩, pyEqFields_trans h.2 h'.2⟩
termination_by structural fs

end

instance : EquivBEq Value where
  symm := pyEq_symm
  trans := pyEq_trans

/-! ## Size limits -/

mutual

/-- Longest chain of containers below a value. -/
def depth : Value → Nat
  | .arr items => depthItems items
  | .obj fields => depthFields fields
  | _ => 0

def depthItems : List Value → Nat
  | [] => 0
  | v :: vs => max (depth v + 1) (depthItems vs)

def depthFields : List (String × Value) → Nat
  | [] => 0
  | (_, v) :: fs => max (depth v + 1) (depthFields fs)

end

mutual

/-- Number of items and members in all containers. -/
def itemCount : Value → Nat
  | .arr items => itemCountItems items
  | .obj fields => itemCountFields fields
  | _ => 0

def itemCountItems : List Value → Nat
  | [] => 0
  | v :: vs => 1 + itemCount v + itemCountItems vs

def itemCountFields : List (String × Value) → Nat
  | [] => 0
  | (_, v) :: fs => 1 + itemCount v + itemCountFields fs

end

mutual

/-- Every object lists its members in strictly increasing key order. -/
def sortedKeys : Value → Bool
  | .arr items => sortedKeysItems items
  | .obj fields => sortedKeysFields none fields
  | _ => true

def sortedKeysItems : List Value → Bool
  | [] => true
  | v :: vs => sortedKeys v && sortedKeysItems vs

def sortedKeysFields (previous : Option String) : List (String × Value) → Bool
  | [] => true
  | (k, v) :: fs => previous.all (fun p => decide (p < k)) && sortedKeys v && sortedKeysFields (some k) fs

end

theorem sortedKeysFields_spec {previous : Option String} {fields : List (String × Value)}
    (h : sortedKeysFields previous fields = true) :
    (fields.map (·.1)).Nodup ∧ ∀ f ∈ fields, ∀ p ∈ previous, p < f.1 := by
  induction fields generalizing previous with
  | nil => exact ⟨List.nodup_nil, by simp⟩
  | cons f rest ih =>
    obtain ⟨k, v⟩ := f
    simp only [sortedKeysFields, Bool.and_eq_true, Option.all_eq_true, decide_eq_true_eq] at h
    obtain ⟨⟨hprevious, -⟩, hrest⟩ := h
    obtain ⟨hnodup, hlater⟩ := ih hrest
    have hk : ∀ f ∈ rest, k < f.1 := fun f hf => hlater f hf k rfl
    refine ⟨?_, ?_⟩
    · rw [List.map_cons, List.nodup_cons]
      refine ⟨fun hmem => ?_, hnodup⟩
      obtain ⟨f, hf, heq⟩ := List.mem_map.mp hmem
      have hlt := hk f hf
      rw [heq] at hlt
      exact String.lt_irrefl k hlt
    · intro f hf p hp
      rcases List.mem_cons.mp hf with rfl | hf
      · exact hprevious p hp
      · exact String.lt_trans (hprevious p hp) (hk f hf)

mutual

/-- Every integer has at most `limit` decimal digits. -/
def intsWithin (limit : Nat) : Value → Bool
  | .int i => decide ((Nat.toDigits 10 i.natAbs).length ≤ limit)
  | .arr items => intsWithinItems limit items
  | .obj fields => intsWithinFields limit fields
  | _ => true

def intsWithinItems (limit : Nat) : List Value → Bool
  | [] => true
  | v :: vs => intsWithin limit v && intsWithinItems limit vs

def intsWithinFields (limit : Nat) : List (String × Value) → Bool
  | [] => true
  | (_, v) :: fs => intsWithin limit v && intsWithinFields limit fs

end

end Json
