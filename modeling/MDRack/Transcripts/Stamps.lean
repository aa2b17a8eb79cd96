import MDRack.Transcripts.Readers

/-!
# Timestamps and lines as they are written

* `Stamp` — a timestamp of a subtitle: hours in any number of digits, or none.
* `splitlines_joinLines` — lines that are joined are the lines of the text.

Principal result: `Stamp.read` — a timestamp with blanks around it is read as its time.
-/

namespace MDRack.Transcripts

open Checks CodePoints Cutting Markdown

/-! ## Blanks -/

/-- Blanks within a line. -/
def Padding (pad : List Char) : Prop := ∀ c ∈ pad, isSpace c = true ∧ isLineBreak c = false

instance (pad : List Char) : Decidable (Padding pad) :=
  List.decidableBAll (fun c => isSpace c = true ∧ isLineBreak c = false) pad

/-- Neither end of a text is a blank. -/
structure Trimmed (text : List Char) : Prop where
  first : ∀ c ∈ text.head?, isSpace c = false
  last : ∀ c ∈ text.getLast?, isSpace c = false

theorem dropWhile_of_head {text : List Char} (h : ∀ c ∈ text.head?, isSpace c = false) :
    text.dropWhile isSpace = text := by
  cases text with
  | nil => rfl
  | cons c text => simp [h c rfl]

/-- A text that is trimmed is what stripping leaves of it, with any blanks around it. -/
theorem strip_padded {before text after : List Char} (hbefore : ∀ c ∈ before, isSpace c = true)
    (hafter : ∀ c ∈ after, isSpace c = true) (h : Trimmed text) : strip (before ++ text ++ after) = text := by
  have hback : ∀ c ∈ text.reverse.head?, isSpace c = false := by
    rw [List.head?_reverse]
    exact h.last
  have hreverse : ∀ c ∈ after.reverse, isSpace c = true := fun c hc => hafter c (List.mem_reverse.mp hc)
  have hright : rstrip (text ++ after) = text := by
    rw [rstrip, List.reverse_append, List.dropWhile_append_of_pos hreverse, dropWhile_of_head hback,
      List.reverse_reverse]
  by_cases hempty : text = []
  · subst hempty
    have hall : ∀ c ∈ before ++ [] ++ after, isSpace c = true := by
      intro c hc
      rw [List.append_nil] at hc
      rcases List.mem_append.mp hc with hc | hc
      · exact hbefore c hc
      · exact hafter c hc
    rw [strip, lstrip, List.dropWhile_eq_nil_iff.mpr hall]
    rfl
  · have hfront : (text ++ after).dropWhile isSpace = text ++ after := by
      apply dropWhile_of_head
      obtain ⟨c, rest, rfl⟩ := List.exists_cons_of_ne_nil hempty
      exact h.first
    rw [strip, lstrip, List.append_assoc, List.dropWhile_append_of_pos hbefore, hfront, hright]

/-! ## Lines -/

/-- A text within a line. -/
def OneLine (line : List Char) : Prop := ∀ c ∈ line, isLineBreak c = false

instance (line : List Char) : Decidable (OneLine line) :=
  List.decidableBAll (fun c => isLineBreak c = false) line

theorem splitlines_cons {line : List Char} (h : OneLine line) (rest : List Char) :
    splitlines (line ++ '\n' :: rest) = line :: splitlines rest := by
  have hlines : linesOf (line ++ '\n' :: rest) = ⟨line, ['\n']⟩ :: linesOf rest := by
    induction line with
    | nil =>
      apply linesOf_cons_break (by decide)
      intro heq
      exact absurd heq (by decide)
    | cons c line ih =>
      obtain ⟨hc, hline⟩ := List.forall_mem_cons.mp h
      rw [List.cons_append, linesOf_cons_other hc, ih hline]
      rfl
  rw [splitlines, hlines]
  rfl

theorem splitlines_last {line : List Char} (h : OneLine line) (hne : line ≠ []) : splitlines line = [line] := by
  have hlines : linesOf line = [⟨line, []⟩] := by
    induction line with
    | nil => exact absurd rfl hne
    | cons c line ih =>
      obtain ⟨hc, hline⟩ := List.forall_mem_cons.mp h
      rw [linesOf_cons_other hc]
      cases line with
      | nil => rfl
      | cons d line =>
        rw [ih hline (List.cons_ne_nil _ _)]
        rfl
  rw [splitlines, hlines]
  rfl

/-- Lines that are joined are the lines of the text, and a line end behind them adds none. -/
theorem splitlines_joinLines {lines : List (List Char)} (h : ∀ line ∈ lines, OneLine line)
    (hne : ∀ line ∈ lines, line ≠ []) (hsome : lines ≠ []) {ending : List Char}
    (hending : ending = [] ∨ ending = ['\n']) : splitlines (joinLines lines ++ ending) = lines := by
  induction lines with
  | nil => exact absurd rfl hsome
  | cons line lines ih =>
    obtain ⟨hline, hlines⟩ := List.forall_mem_cons.mp h
    obtain ⟨hfirst, hrest⟩ := List.forall_mem_cons.mp hne
    cases lines with
    | nil =>
      rw [joinLines, List.intercalate_singleton]
      rcases hending with rfl | rfl
      · rw [List.append_nil]
        exact splitlines_last hline hfirst
      · rw [splitlines_cons hline]
        rfl
    | cons next lines =>
      have hjoin : joinLines (line :: next :: lines) ++ ending =
          line ++ '\n' :: (joinLines (next :: lines) ++ ending) := by
        rw [joinLines, joinLines, List.intercalate_cons_cons]
        simp only [List.append_assoc, List.cons_append, List.nil_append]
      rw [hjoin, splitlines_cons hline, ih hlines hrest (List.cons_ne_nil _ _)]

/-! ## Digits -/

def digit (n : Nat) : Char := Nat.digitChar (n % 10)

theorem digit_spec (n : Nat) : (digit n).isDigit = true ∧ (digit n).toNat - 48 = n % 10 ∧
    isSpace (digit n) = false ∧ isLineBreak (digit n) = false ∧ digit n ≠ ':' ∧ digit n ≠ '-' ∧
    (digit n).isAlpha = false := by
  have hall : ∀ d : Fin 10, (Nat.digitChar d).isDigit = true ∧ (Nat.digitChar d).toNat - 48 = d ∧
      isSpace (Nat.digitChar d) = false ∧ isLineBreak (Nat.digitChar d) = false ∧
      Nat.digitChar d ≠ ':' ∧ Nat.digitChar d ≠ '-' ∧ (Nat.digitChar d).isAlpha = false := by decide
  exact hall ⟨n % 10, Nat.mod_lt n (by decide)⟩

theorem isDigit_marks {c : Char} (h : c.isDigit = true) :
    isSpace c = false ∧ isLineBreak c = false ∧ c ≠ ':' ∧ c ≠ '-' ∧ c.isAlpha = false := by
  have hrange : 48 ≤ c.toNat ∧ c.toNat ≤ 57 := by
    simpa [Char.isDigit, UInt32.le_iff_toNat_le] using h
  have hc : c = digit (c.toNat - 48) := by
    have hall : ∀ d : Fin 10, Char.ofNat (d + 48) = Nat.digitChar d := by decide
    have hofNat := hall ⟨c.toNat - 48, by omega⟩
    have hsum : c.toNat - 48 + 48 = c.toNat := by omega
    have hmod : (c.toNat - 48) % 10 = c.toNat - 48 := by omega
    simp only [hsum, Char.ofNat_toNat] at hofNat
    rw [digit, hmod]
    exact hofNat
  obtain ⟨-, -, hspace, hbreak, hcolon, hdash, halpha⟩ := digit_spec (c.toNat - 48)
  rw [hc]
  exact ⟨hspace, hbreak, hcolon, hdash, halpha⟩

theorem digitValues_cons {n : Nat} {rest : List Char} {values : List Nat} (h : digitValues rest = some values) :
    digitValues (digit n :: rest) = some (n % 10 :: values) := by
  obtain ⟨hdigit, hvalue, -⟩ := digit_spec n
  rw [digitValues, List.mapM_cons, decimalValue_ascii hdigit, hvalue]
  rw [digitValues] at h
  rw [h]
  rfl

/-- Digits of ASCII are read as their values. -/
theorem digitValues_ascii {ds : List Char} (h : ds.all Char.isDigit = true) :
    digitValues ds = some (ds.map fun c => c.toNat - 48) := by
  induction ds with
  | nil => rfl
  | cons c ds ih =>
    rw [List.all_cons, Bool.and_eq_true] at h
    have hrest := ih h.2
    rw [digitValues] at hrest ⊢
    rw [List.mapM_cons, decimalValue_ascii h.1, hrest]
    rfl

/-! ## Timestamps -/

/-- A timestamp: hours in digits, or without hours; a point or a comma before the milliseconds. -/
structure Stamp where
  hours : List Char
  minutes : Nat
  seconds : Nat
  millis : Nat
  point : Char
  hours_digits : hours.all Char.isDigit = true
  hours_short : hours.length ≤ maxIntDigits
  minutes_lt : minutes < 60
  seconds_lt : seconds < 60
  millis_lt : millis < 1000
  point_mark : point = '.' ∨ point = ','

def twoDigits (n : Nat) : List Char := [digit (n / 10), digit n]

def threeDigits (n : Nat) : List Char := [digit (n / 100), digit (n / 10), digit n]

def Stamp.clock (stamp : Stamp) : List Char :=
  twoDigits stamp.seconds ++ stamp.point :: threeDigits stamp.millis

def Stamp.short (stamp : Stamp) : List Char := twoDigits stamp.minutes ++ ':' :: stamp.clock

def Stamp.write (stamp : Stamp) : List Char :=
  if stamp.hours = [] then stamp.short else stamp.hours ++ ':' :: stamp.short

/-- The time of a timestamp. -/
def Stamp.ms (stamp : Stamp) : Nat :=
  ((Nat.ofDigitChars 10 stamp.hours 0 * 60 + stamp.minutes) * 60 + stamp.seconds) * 1000 + stamp.millis

variable {stamp : Stamp}

theorem clockParts_written :
    clockParts (twoDigits stamp.minutes) stamp.clock = some (stamp.minutes, stamp.seconds, stamp.millis) := by
  have hnil : digitValues [] = some [] := rfl
  have htwo : ∀ n < 60, (digitValues (twoDigits n)).map ofDigitValues = some n := by
    intro n hn
    rw [twoDigits, digitValues_cons (digitValues_cons hnil), Option.map_some]
    congr 1
    simp only [ofDigitValues, List.foldl_cons, List.foldl_nil]
    omega
  have hthree : ∀ n < 1000, (digitValues (threeDigits n)).map ofDigitValues = some n := by
    intro n hn
    rw [threeDigits, digitValues_cons (digitValues_cons (digitValues_cons hnil)), Option.map_some]
    congr 1
    simp only [ofDigitValues, List.foldl_cons, List.foldl_nil]
    omega
  obtain ⟨minutes, hminutes, hm⟩ := Option.map_eq_some_iff.mp (htwo stamp.minutes stamp.minutes_lt)
  obtain ⟨seconds, hseconds, hs⟩ := Option.map_eq_some_iff.mp (htwo stamp.seconds stamp.seconds_lt)
  obtain ⟨millis, hmillis, hk⟩ := Option.map_eq_some_iff.mp (hthree stamp.millis stamp.millis_lt)
  rw [twoDigits] at hminutes hseconds
  rw [threeDigits] at hmillis
  show (if stamp.point = '.' ∨ stamp.point = ',' then _ else _) = _
  rw [if_pos stamp.point_mark, hminutes, hseconds, hmillis]
  show some (ofDigitValues minutes, ofDigitValues seconds, ofDigitValues millis) = _
  rw [hm, hs, hk]

theorem not_colon_of_digits {ds : List Char} (h : ds.all Char.isDigit = true) : ':' ∉ ds := by
  intro hmem
  exact absurd (List.all_eq_true.mp h ':' hmem) (by decide)

theorem cut_colon {first rest : List Char} (h : ':' ∉ first) :
    cutAt [':'] (first ++ ':' :: rest) = some (first, rest) := by
  have hcut := @cutAt_first Char _ ':' [] first rest h
  rwa [List.append_assoc] at hcut

theorem twoDigits_no_colon (n : Nat) : ':' ∉ twoDigits n := by
  have hfirst := (digit_spec (n / 10)).2.2.2.2.1
  have hsecond := (digit_spec n).2.2.2.2.1
  simp only [twoDigits, List.mem_cons, List.not_mem_nil, or_false, not_or]
  exact ⟨Ne.symm hfirst, Ne.symm hsecond⟩

theorem clock_no_colon : ':' ∉ stamp.clock := by
  have hpoint : ':' ≠ stamp.point := by
    rcases stamp.point_mark with h | h
    · rw [h]
      decide
    · rw [h]
      decide
  have hmillis : ':' ∉ threeDigits stamp.millis := by
    have hfirst := (digit_spec (stamp.millis / 100)).2.2.2.2.1
    have hsecond := (digit_spec (stamp.millis / 10)).2.2.2.2.1
    have hthird := (digit_spec stamp.millis).2.2.2.2.1
    simp only [threeDigits, List.mem_cons, List.not_mem_nil, or_false, not_or]
    exact ⟨Ne.symm hfirst, Ne.symm hsecond, Ne.symm hthird⟩
  rw [Stamp.clock, List.mem_append, List.mem_cons]
  rintro (h | h | h)
  · exact twoDigits_no_colon _ h
  · exact hpoint h
  · exact hmillis h

theorem timestampParts_written : timestampParts stamp.write =
    some (stamp.hours.map (fun c => c.toNat - 48), stamp.minutes, stamp.seconds, stamp.millis) := by
  have hshort : cutAt [':'] stamp.short = some (twoDigits stamp.minutes, stamp.clock) :=
    cut_colon (twoDigits_no_colon _)
  have hclock : cutAt [':'] stamp.clock = none := by
    rw [cutAt_eq_none]
    intro hin
    exact clock_no_colon (hin.subset List.mem_cons_self)
  rw [Stamp.write]
  by_cases hhours : stamp.hours = []
  · rw [if_pos hhours, timestampParts, hshort]
    simp only [hclock, clockParts_written, Option.map_some, hhours, List.map_nil]
  · have hfirst : cutAt [':'] (stamp.hours ++ ':' :: stamp.short) = some (stamp.hours, stamp.short) :=
      cut_colon (not_colon_of_digits stamp.hours_digits)
    rw [if_neg hhours, timestampParts, hfirst]
    simp only [hshort, if_neg hhours, digitValues_ascii stamp.hours_digits, clockParts_written]
    rfl

/-- Every character of a written timestamp is a digit, a colon or a point. -/
theorem mem_write {c : Char} (h : c ∈ stamp.write) :
    isSpace c = false ∧ isLineBreak c = false ∧ c ≠ '-' ∧ c.isAlpha = false := by
  have hdigit : ∀ n, isSpace (digit n) = false ∧ isLineBreak (digit n) = false ∧ digit n ≠ '-' ∧
      (digit n).isAlpha = false := by
    intro n
    obtain ⟨-, -, hspace, hbreak, -, hdash, halpha⟩ := digit_spec n
    exact ⟨hspace, hbreak, hdash, halpha⟩
  have hcolon : isSpace ':' = false ∧ isLineBreak ':' = false ∧ ':' ≠ '-' ∧ Char.isAlpha ':' = false := by decide
  have hpoint : isSpace stamp.point = false ∧ isLineBreak stamp.point = false ∧ stamp.point ≠ '-' ∧
      stamp.point.isAlpha = false := by
    rcases stamp.point_mark with h | h
    · rw [h]
      decide
    · rw [h]
      decide
  have hshort : c ∈ stamp.short → isSpace c = false ∧ isLineBreak c = false ∧ c ≠ '-' ∧ c.isAlpha = false := by
    intro hc
    simp only [Stamp.short, Stamp.clock, twoDigits, threeDigits, List.cons_append, List.nil_append,
      List.mem_cons, List.not_mem_nil, or_false] at hc
    rcases hc with rfl | rfl | rfl | rfl | rfl | rfl | rfl | rfl | rfl
    · exact hdigit _
    · exact hdigit _
    · exact hcolon
    · exact hdigit _
    · exact hdigit _
    · exact hpoint
    · exact hdigit _
    · exact hdigit _
    · exact hdigit _
  rw [Stamp.write] at h
  split at h
  · exact hshort h
  · rcases List.mem_append.mp h with h | h
    · obtain ⟨hspace, hbreak, -, hdash, halpha⟩ := isDigit_marks (List.all_eq_true.mp stamp.hours_digits c h)
      exact ⟨hspace, hbreak, hdash, halpha⟩
    · rcases List.mem_cons.mp h with rfl | h
      · exact hcolon
      · exact hshort h

theorem write_ne_nil : stamp.write ≠ [] := by
  rw [Stamp.write]
  split
  · exact List.cons_ne_nil _ _
  · simp

theorem write_trimmed : Trimmed stamp.write where
  first _ hc := (mem_write (List.mem_of_mem_head? hc)).1
  last _ hc := (mem_write (List.mem_of_mem_getLast? hc)).1

/-- A timestamp is read as its time, with any blanks around it. -/
theorem Stamp.read {before after : List Char} (hbefore : ∀ c ∈ before, isSpace c = true)
    (hafter : ∀ c ∈ after, isSpace c = true) :
    subtitleTimestampToMs (before ++ stamp.write ++ after) = .ok stamp.ms := by
  have hlong : ¬ maxIntDigits < (stamp.hours.map fun c => c.toNat - 48).length := by
    rw [List.length_map]
    exact Nat.not_lt.mpr stamp.hours_short
  have hlarge : ¬ (60 ≤ stamp.minutes ∨ 60 ≤ stamp.seconds) := by
    have hminutes := stamp.minutes_lt
    have hseconds := stamp.seconds_lt
    omega
  rw [subtitleTimestampToMs, strip_padded hbefore hafter write_trimmed, timestampParts_written]
  simp only [if_neg hlong, if_neg hlarge, ofDigitValues_ascii]
  rfl

end MDRack.Transcripts
