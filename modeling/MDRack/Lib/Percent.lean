import MDRack.Lib.CodePoints

/-!
# Percent encoding

* `quote` — the octets of a text in UTF-8, all but the unreserved characters as `%XX`.
* `unquote` — the reader: stretches of ASCII are read as octets, other code points stand for
  themselves.

Principal result: `unquote_quote` — what is quoted is read back, so texts are told apart by their
quoted form (`quote_injective`).
-/

namespace Percent

open CodePoints

/-! ## Quoting -/

def hexDigits : List Char :=
  ['0', '1', '2', '3', '4', '5', '6', '7', '8', '9', 'A', 'B', 'C', 'D', 'E', 'F']

def upperHex (n : Nat) : Char := hexDigits.getD n '0'

/-- Letters, digits and `_.-~`. -/
def unreserved (octet : UInt8) : Bool :=
  let n := octet.toNat
  (48 ≤ n && n ≤ 57) || (65 ≤ n && n ≤ 90) || (97 ≤ n && n ≤ 122) ||
    n == 95 || n == 46 || n == 45 || n == 126

def quoteOctet (octet : UInt8) : List Char :=
  if unreserved octet then [Char.ofNat octet.toNat]
  else ['%', upperHex (octet.toNat / 16), upperHex (octet.toNat % 16)]

/-- `quote(text, safe="")`. -/
def quote (cs : List Char) : List Char := (cs.flatMap String.utf8EncodeChar).flatMap quoteOctet

/-! ## Reading -/

def hexValue (c : Char) : Option Nat :=
  if 'a' ≤ c ∧ c ≤ 'f' then some (c.toNat - 87) else hexDigits.findIdx? (· == c)

/-- `unquote_to_bytes`. -/
def unquoteOctets : List Char → List UInt8
  | '%' :: high :: low :: rest =>
    match hexValue high, hexValue low with
    | some h, some l => UInt8.ofNat (16 * h + l) :: unquoteOctets rest
    | _, _ => UInt8.ofNat 37 :: unquoteOctets (high :: low :: rest)
  | c :: rest => UInt8.ofNat c.toNat :: unquoteOctets rest
  | [] => []

/-- The text of a stretch of ASCII; `none` where its octets are no UTF-8. -/
def unquoteStretch (stretch : List Char) : Option (List Char) :=
  (unquoteOctets stretch).toByteArray.utf8Decode?.map Array.toList

/-- `unquote(text, errors="strict")`, after the stretch of ASCII that is open. -/
def unquoteFrom (stretch : List Char) : Text → Option Text
  | [] => (unquoteStretch stretch).map ofChars
  | point :: rest =>
    match point with
    | .char c =>
      if c.toNat < 128 then unquoteFrom (stretch ++ [c]) rest
      else (unquoteStretch stretch).bind fun before =>
        (unquoteFrom [] rest).map fun after => ofChars before ++ .char c :: after
    | .surrogate n => (unquoteStretch stretch).bind fun before =>
        (unquoteFrom [] rest).map fun after => ofChars before ++ .surrogate n :: after

def unquote (text : Text) : Option Text := unquoteFrom [] text

/-! ## Octets -/

theorem hexValue_upperHex {n : Nat} (h : n < 16) : hexValue (upperHex n) = some n := by
  have hall : ∀ k : Fin 16, hexValue (upperHex k) = some k.val := by decide
  exact hall ⟨n, h⟩

theorem toNat_ofNat_octet (octet : UInt8) : (Char.ofNat octet.toNat).toNat = octet.toNat := by
  have hsmall := octet.toNat_lt
  have hvalid : octet.toNat.isValidChar := .inl (by omega)
  rw [Char.ofNat, dif_pos hvalid]
  exact UInt32.toNat_ofNatLT

theorem unreserved_ne_percent {octet : UInt8} (h : unreserved octet = true) :
    Char.ofNat octet.toNat ≠ '%' := by
  intro heq
  have hn := congrArg Char.toNat heq
  rw [toNat_ofNat_octet] at hn
  have h37 : '%'.toNat = 37 := by decide
  simp only [unreserved, hn, h37] at h
  exact absurd h (by decide)

/-- One octet is read back. -/
theorem unquoteOctets_quoteOctet (octet : UInt8) (rest : List Char) :
    unquoteOctets (quoteOctet octet ++ rest) = octet :: unquoteOctets rest := by
  unfold quoteOctet
  split
  · rename_i h
    have hne := unreserved_ne_percent h
    have hoctet : UInt8.ofNat (Char.ofNat octet.toNat).toNat = octet := by
      rw [toNat_ofNat_octet, UInt8.ofNat_toNat]
    rw [List.singleton_append, unquoteOctets, hoctet]
    rintro - - - heq
    exact absurd heq hne
  · have hsmall := octet.toNat_lt
    have hhigh := hexValue_upperHex (n := octet.toNat / 16) (by omega)
    have hlow := hexValue_upperHex (n := octet.toNat % 16) (by omega)
    simp only [List.cons_append, List.nil_append, unquoteOctets, hhigh, hlow, Nat.div_add_mod,
      UInt8.ofNat_toNat]

theorem unquoteOctets_quoted (octets : List UInt8) :
    unquoteOctets (octets.flatMap quoteOctet) = octets := by
  induction octets with
  | nil => rfl
  | cons octet octets ih => rw [List.flatMap_cons, unquoteOctets_quoteOctet, ih]

theorem unquoteStretch_quote (cs : List Char) : unquoteStretch (quote cs) = some cs := by
  have hencode : (cs.flatMap String.utf8EncodeChar).toByteArray = cs.utf8Encode := rfl
  rw [unquoteStretch, quote, unquoteOctets_quoted, hencode, List.utf8Decode?_utf8Encode]
  rfl

/-! ## Texts -/

theorem upperHex_ascii {n : Nat} (h : n < 16) : (upperHex n).toNat < 128 := by
  have hall : ∀ k : Fin 16, (upperHex k).toNat < 128 := by decide
  exact hall ⟨n, h⟩

theorem quoteOctet_ascii (octet : UInt8) : ∀ c ∈ quoteOctet octet, c.toNat < 128 := by
  have hsmall := octet.toNat_lt
  unfold quoteOctet
  split
  · rename_i h
    simp only [List.mem_singleton, forall_eq, toNat_ofNat_octet]
    simp only [unreserved, Bool.or_eq_true, Bool.and_eq_true, decide_eq_true_eq, beq_iff_eq] at h
    omega
  · simp only [List.mem_cons, List.not_mem_nil, or_false, forall_eq_or_imp, forall_eq]
    exact ⟨by decide, upperHex_ascii (by omega), upperHex_ascii (by omega)⟩

theorem quote_ascii (cs : List Char) : ∀ c ∈ quote cs, c.toNat < 128 := by
  intro c hc
  obtain ⟨octet, -, hmem⟩ := List.mem_flatMap.mp hc
  exact quoteOctet_ascii octet c hmem

theorem unquoteFrom_ascii {cs : List Char} (h : ∀ c ∈ cs, c.toNat < 128) (stretch : List Char) :
    unquoteFrom stretch (ofChars cs) = (unquoteStretch (stretch ++ cs)).map ofChars := by
  induction cs generalizing stretch with
  | nil => rw [List.append_nil]; rfl
  | cons c cs ih =>
    obtain ⟨hc, hcs⟩ := List.forall_mem_cons.mp h
    show unquoteFrom stretch (.char c :: ofChars cs) = _
    rw [unquoteFrom]
    simp only [if_pos hc]
    rw [ih hcs, List.append_assoc, List.singleton_append]

/-- What is quoted is read back. -/
theorem unquote_quote (cs : List Char) : unquote (ofChars (quote cs)) = some (ofChars cs) := by
  rw [unquote, unquoteFrom_ascii (quote_ascii cs), List.nil_append, unquoteStretch_quote]
  rfl

theorem quote_injective {a b : List Char} (h : quote a = quote b) : a = b := by
  have ha := unquoteStretch_quote a
  rw [h, unquoteStretch_quote b] at ha
  exact (Option.some.inj ha).symm

end Percent
