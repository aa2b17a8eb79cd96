import Mathlib.Data.List.Nodup
import MDRack.Transcripts.Build

/-!
# Every raw atom is accounted for

* `Becomes` — a raw atom becomes an atom, or a diagnostic with its ordinal.
* `Unguarded` — an exception that no check of the reader stands in front of.

Principal results: `buildArtifact_aligned` — strict mode succeeds exactly where the other mode has
nothing to report, with the same result; `buildAtoms_total` — outside strict mode only an
unguarded raw atom ends the reading; `buildArtifact_accounts`.
-/

namespace MDRack.Transcripts

open Binary64 Checks CodePoints Markdown
open Media (HexDigest MediaId Fingerprint TimedTextAtom)

/-! ## One raw atom -/

structure AcceptedAs (previousEnd : Int) (raw : RawAtom) (accepted : Accepted) : Prop where
  startMs : accepted.startMs = raw.startMs
  endMs : accepted.endMs = raw.endMs
  text : normalizeText raw.text = .ok accepted.text
  speaker : optionalText raw.speaker = .ok accepted.speaker
  positive : accepted.startMs < accepted.endMs
  ordered : previousEnd ≤ accepted.startMs

theorem acceptRaw_ok {previousEnd : Int} {raw : RawAtom} {accepted : Accepted}
    (h : acceptRaw previousEnd raw = .ok accepted) : AcceptedAs previousEnd raw accepted := by
  simp only [acceptRaw, bind_ok, require_ok, exists_const] at h
  obtain ⟨hpositive, text, htext, hordered, speaker, hspeaker, confidence, -, hresult⟩ := h
  obtain rfl := Except.ok.inj hresult
  exact ⟨rfl, rfl, htext, hspeaker, hpositive, hordered⟩

theorem normalizeText_error {value : Loaded} {e : Thrown} (h : normalizeText value = .error e) :
    e.isReadError = true := by
  unfold normalizeText refuse at h
  split at h
  · split at h
    · obtain rfl := Except.error.inj h
      rfl
    · split at h
      · obtain rfl := Except.error.inj h
        rfl
      · cases h
  · obtain rfl := Except.error.inj h
    rfl

theorem optionalText_error {value : Loaded} {e : Thrown} (h : optionalText value = .error e) :
    e.isReadError = true := by
  unfold optionalText refuse at h
  split at h
  · cases h
  · split at h
    · obtain rfl := Except.error.inj h
      rfl
    · split at h
      · obtain rfl := Except.error.inj h
        rfl
      · cases h
  · obtain rfl := Except.error.inj h
    rfl

theorem normalizeText_ok {value : Loaded} {text : List Char} (h : normalizeText value = .ok text) :
    text ≠ [] ∧ ∃ cs, value = .str (ofChars cs) ∧ text = collapseText cs := by
  unfold normalizeText at h
  split at h
  · split at h
    · cases h
    · rename_i points cs hcs
      split at h
      · cases h
      · rename_i hne
        obtain rfl := Except.ok.inj h
        exact ⟨hne, cs, by rw [characters?_eq_some.mp hcs], rfl⟩
  · cases h

theorem optionalText_ok {value : Loaded} {text : List Char} (h : optionalText value = .ok (some text)) :
    ∃ cs, blank cs = false ∧ text = strip cs := by
  unfold optionalText at h
  split at h
  · cases h
  · split at h
    · cases h
    · rename_i cs _
      split at h
      · cases h
      · rename_i hblank
        obtain rfl := Option.some.inj (Except.ok.inj h)
        exact ⟨cs, by simpa using hblank, rfl⟩
  · cases h

theorem probability_error {x : F64} {e : Thrown} (h : probability x = .error e) :
    e.isReadError = true := by
  by_cases hx : 0 ≤ x.value ∧ x.value ≤ unit
  · rw [probability, if_pos hx] at h
    cases h
  · rw [probability, if_neg hx] at h
    obtain rfl := Except.error.inj h
    rfl

theorem optionalProbability_error {value : Loaded} {e : Thrown}
    (h : optionalProbability value = .error e) : e.isReadError = true ∨ e = .overflowError := by
  have hrefused (h : (refuse .invalidAtom : Except Thrown (Option F64)) = .error e) :
      e.isReadError = true := by
    obtain rfl := Except.error.inj h
    rfl
  cases value with
  | null => cases h
  | int i =>
    rcases bind_error.mp h with h | ⟨x, -, h⟩
    · exact .inr (getOr_error.mp h).2.symm
    · exact .inl (probability_error h)
  | float x =>
    cases x with
    | finite x => exact .inl (probability_error h)
    | infinite neg => exact .inl (hrefused h)
    | nan => exact .inl (hrefused h)
  | bool b => exact .inl (hrefused h)
  | str text => exact .inl (hrefused h)
  | arr items => exact .inl (hrefused h)
  | obj fields => exact .inl (hrefused h)

/-- Only the conversion of a confidence is not guarded. -/
theorem acceptRaw_error {previousEnd : Int} {raw : RawAtom} {e : Thrown}
    (h : acceptRaw previousEnd raw = .error e) : e.isReadError = true ∨ e = .overflowError := by
  simp only [acceptRaw, bind_error, require_error, require_ok, exists_const] at h
  rcases h with ⟨-, rfl⟩ | ⟨-, h | ⟨text, -, ⟨-, rfl⟩ | ⟨-, h | ⟨speaker, -, h | ⟨confidence, -, h⟩⟩⟩⟩⟩
  · exact .inl rfl
  · exact .inl (normalizeText_error h)
  · exact .inl rfl
  · exact .inl (optionalText_error h)
  · exact optionalProbability_error h
  · cases h

/-! ## One atom -/

/-- The identifier of the cue has a UTF-8 form, if it is a text. -/
def Encodable (raw : RawAtom) : Prop := ∀ text, raw.cueId = .str text → (characters? text).isSome

/-- The timing precision, which the reader sets, has a UTF-8 form. -/
def PlainTiming (raw : RawAtom) : Prop :=
  ∀ text, raw.timingPrecision = .str text → (characters? (stripBlanks isSpace text)).isSome

theorem freezeField_text {name : String} {text : Text} :
    (∃ field, freezeField name (.str text) = .ok field) ↔ (characters? text).isSome := by
  unfold freezeField
  cases h : characters? text <;> simp [h]

theorem freezeMetadata_total {raw : RawAtom} (hcue : Encodable raw) (htiming : PlainTiming raw) :
    ∃ metadata, freezeMetadata (safeAtomMetadata raw) = .ok metadata := by
  apply mapAll_total
  intro field hfield
  rcases List.mem_append.mp hfield with hfield | hfield
  · split at hfield
    · rename_i text htext
      rw [List.mem_singleton.mp hfield, htext]
      exact freezeField_text.mpr (hcue text htext)
    · rename_i i hi
      rw [List.mem_singleton.mp hfield, hi]
      exact ⟨_, rfl⟩
    · cases hfield
  · split at hfield
    · rename_i text htext
      split at hfield
      · cases hfield
      · rw [List.mem_singleton.mp hfield]
        exact freezeField_text.mpr (htiming text htext)
    · cases hfield

theorem freezeMetadata_encodable {raw : RawAtom} {metadata : List (String × Json.Value)}
    (h : freezeMetadata (safeAtomMetadata raw) = .ok metadata) : Encodable raw := by
  intro text htext
  have hfield : ("source_cue_id", raw.cueId) ∈ safeAtomMetadata raw := by
    apply List.mem_append_left
    rw [htext]
    exact List.mem_cons_self
  obtain ⟨value, -, hvalue⟩ := mapAll_ok_mem_of_mem h _ hfield
  rw [htext] at hvalue
  exact freezeField_text.mp ⟨value, hvalue⟩

section

variable {sha256 : ByteArray → HexDigest} {caller : Caller}

/-- What an atom takes from its raw atom. -/
structure Made (ordinal : Nat) (raw : RawAtom) (accepted : Accepted)
    (atom : TranscriptAtom sha256) : Prop where
  startMs : atom.atom.startMs = accepted.startMs
  endMs : atom.atom.endMs = accepted.endMs
  text : atom.atom.text = String.ofList accepted.text
  ordinal : atom.atom.ordinal = ordinal
  metadata : freezeMetadata (safeAtomMetadata raw) = .ok atom.metadata

theorem makeAtom_ok {ordinal : Nat} {raw : RawAtom} {accepted : Accepted}
    {atom : TranscriptAtom sha256} (h : makeAtom sha256 caller ordinal raw accepted = .ok atom) :
    Made ordinal raw accepted atom ∧ caller.atomId sha256 ordinal = .ok atom.atom.atomId := by
  unfold makeAtom at h
  split at h
  · cases h
  · rename_i atomId hid
    split at h
    · split at h
      · simp only [bind_ok] at h
        obtain ⟨speaker, -, metadata, hmetadata, hatom⟩ := h
        obtain rfl := Except.ok.inj hatom
        exact ⟨⟨rfl, rfl, rfl, rfl, hmetadata⟩, hid⟩
      · cases h
    · cases h

theorem makeAtom_total {previousEnd : Int} {ordinal : Nat} {raw : RawAtom} {accepted : Accepted}
    (haccepted : AcceptedAs previousEnd raw accepted) {atomId : MediaId .atom}
    (hid : caller.atomId sha256 ordinal = .ok atomId) (hcue : Encodable raw)
    (htiming : PlainTiming raw) : ∃ atom, makeAtom sha256 caller ordinal raw accepted = .ok atom := by
  obtain ⟨metadata, hmetadata⟩ := freezeMetadata_total hcue htiming
  obtain ⟨hne, cs, -, htext⟩ := normalizeText_ok haccepted.text
  have hvisible : hasVisible (String.ofList accepted.text) = true := by
    rw [htext] at hne ⊢
    exact collapseText_visible hne
  have hspeaker : ∃ speaker, requireSpeaker accepted.speaker = .ok speaker := by
    cases hof : accepted.speaker with
    | none => exact ⟨none, rfl⟩
    | some speaker =>
      obtain ⟨cs, hblank, rfl⟩ := optionalText_ok (hof ▸ haccepted.speaker)
      exact ⟨_, dif_pos (strip_visible hblank)⟩
  obtain ⟨speaker, hspeaker⟩ := hspeaker
  unfold makeAtom
  split
  · rename_i failure herror
    rw [hid] at herror
    cases herror
  · rw [dif_pos haccepted.positive, dif_pos hvisible, hspeaker, hmetadata]
    exact ⟨_, rfl⟩

/-! ## The loop -/

/-- The first `n` atoms of the caller have identifiers of their own. -/
def Caller.Identified (caller : Caller) (sha256 : ByteArray → HexDigest) (n : Nat) : Prop :=
  ∀ i < n, ∃ id, caller.atomId sha256 i = .ok id ∧ ∀ j < i, caller.atomId sha256 j ≠ .ok id

/-- No raw atom raises what no check stands in front of, when the refused ones are left out. -/
def Guarded : Int → List RawAtom → Prop
  | _, [] => True
  | previousEnd, raw :: rest =>
    match acceptRaw previousEnd raw with
    | .ok accepted => Encodable raw ∧ Guarded accepted.endMs rest
    | .error e => e.isReadError = true ∧ Guarded previousEnd rest

/-- An atom, or a diagnostic with the ordinal of the raw atom. -/
inductive Becomes (raw : RawAtom) : TranscriptAtom sha256 ⊕ TranscriptDiagnostic → Prop
  | atom (atom : TranscriptAtom sha256) : atom.atom.startMs = raw.startMs →
      atom.atom.endMs = raw.endMs → normalizeText raw.text = .ok atom.atom.text.toList →
      Becomes raw (.inl atom)
  | diagnostic (code : ReadCode) : Becomes raw (.inr ⟨code, some raw.sourceOrdinal⟩)

theorem buildAtoms_accepted {strict : Bool} {ordinal : Nat} {previousEnd : Int} {raw : RawAtom}
    {rest : List RawAtom} {accepted : Accepted} (h : acceptRaw previousEnd raw = .ok accepted) :
    buildAtoms sha256 caller strict ordinal previousEnd (raw :: rest) = (do
      let atom ← makeAtom sha256 caller ordinal raw accepted
      let built ← buildAtoms sha256 caller strict (ordinal + 1) accepted.endMs rest
      .ok (atom :: built.1, built.2)) := by
  rw [buildAtoms, h]

theorem buildAtoms_refused {strict : Bool} {ordinal : Nat} {previousEnd : Int} {raw : RawAtom}
    {rest : List RawAtom} {code : ReadCode} {place : Option Nat}
    (h : acceptRaw previousEnd raw = .error (.readError code place)) :
    buildAtoms sha256 caller strict ordinal previousEnd (raw :: rest) =
      (if strict then .error (.readError code (some raw.sourceOrdinal))
      else do
        let built ← buildAtoms sha256 caller strict ordinal previousEnd rest
        .ok (built.1, ⟨code, some raw.sourceOrdinal⟩ :: built.2)) := by
  rw [buildAtoms, h]

theorem buildAtoms_raised {strict : Bool} {ordinal : Nat} {previousEnd : Int} {raw : RawAtom}
    {rest : List RawAtom} (h : acceptRaw previousEnd raw = .error .overflowError) :
    buildAtoms sha256 caller strict ordinal previousEnd (raw :: rest) = .error .overflowError := by
  rw [buildAtoms, h]

/-- A raw atom is accepted, refused, or raises an unguarded exception. -/
theorem acceptRaw_cases (previousEnd : Int) (raw : RawAtom) :
    (∃ accepted, acceptRaw previousEnd raw = .ok accepted) ∨
      (∃ code place, acceptRaw previousEnd raw = .error (.readError code place)) ∨
      acceptRaw previousEnd raw = .error .overflowError := by
  cases h : acceptRaw previousEnd raw with
  | ok accepted => exact .inl ⟨accepted, rfl⟩
  | error e =>
    rcases acceptRaw_error h with hread | rfl
    · cases e with
      | readError code place => exact .inr (.inl ⟨code, place, rfl⟩)
      | _ => cases hread
    · exact .inr (.inr rfl)

/-- Strict mode succeeds exactly where the other mode has nothing to report. -/
theorem buildAtoms_aligned {ordinal : Nat} {previousEnd : Int} {raws : List RawAtom}
    {built : List (TranscriptAtom sha256) × List TranscriptDiagnostic} :
    buildAtoms sha256 caller true ordinal previousEnd raws = .ok built ↔
      buildAtoms sha256 caller false ordinal previousEnd raws = .ok built ∧ built.2 = [] := by
  induction raws generalizing ordinal previousEnd built with
  | nil =>
    simp only [buildAtoms, Except.ok.injEq]
    constructor
    · rintro rfl
      exact ⟨rfl, rfl⟩
    · exact fun h => h.1
  | cons raw rest ih =>
    rcases acceptRaw_cases previousEnd raw with ⟨accepted, h⟩ | ⟨code, place, h⟩ | h
    · rw [buildAtoms_accepted h, buildAtoms_accepted h]
      simp only [bind_ok, Except.ok.injEq, ih]
      constructor
      · rintro ⟨atom, hatom, more, ⟨hmore, hnone⟩, rfl⟩
        exact ⟨⟨atom, hatom, more, hmore, rfl⟩, hnone⟩
      · rintro ⟨⟨atom, hatom, more, hmore, rfl⟩, hnone⟩
        exact ⟨atom, hatom, more, ⟨hmore, hnone⟩, rfl⟩
    · rw [buildAtoms_refused h, buildAtoms_refused h]
      constructor
      · intro herror
        cases herror
      · rintro ⟨hok, hnone⟩
        simp only [Bool.false_eq_true, if_false, bind_ok, Except.ok.injEq] at hok
        obtain ⟨more, -, rfl⟩ := hok
        cases hnone
    · rw [buildAtoms_raised h, buildAtoms_raised h]
      constructor
      · intro herror
        cases herror
      · rintro ⟨herror, -⟩
        cases herror

/-- Outside strict mode the loop ends exactly where all raw atoms are guarded. -/
theorem buildAtoms_total {n ordinal : Nat} {previousEnd : Int} {raws : List RawAtom}
    (hids : caller.Identified sha256 n) (hn : ordinal + raws.length ≤ n)
    (htiming : ∀ raw ∈ raws, PlainTiming raw) :
    (∃ built, buildAtoms sha256 caller false ordinal previousEnd raws = .ok built) ↔
      Guarded previousEnd raws := by
  induction raws generalizing ordinal previousEnd with
  | nil => exact ⟨fun _ => trivial, fun _ => ⟨_, rfl⟩⟩
  | cons raw rest ih =>
    obtain ⟨hraw, hrest⟩ := List.forall_mem_cons.mp htiming
    rw [List.length_cons] at hn
    rcases acceptRaw_cases previousEnd raw with ⟨accepted, h⟩ | ⟨code, place, h⟩ | h
    · have hmore : (∃ built, buildAtoms sha256 caller false (ordinal + 1) accepted.endMs rest =
          .ok built) ↔ Guarded accepted.endMs rest := ih (by omega) hrest
      rw [buildAtoms_accepted h]
      simp only [Guarded, h, ← hmore]
      constructor
      · rintro ⟨built, hbuilt⟩
        simp only [bind_ok] at hbuilt
        obtain ⟨atom, hatom, more, hmore, -⟩ := hbuilt
        exact ⟨freezeMetadata_encodable (makeAtom_ok hatom).1.metadata, more, hmore⟩
      · rintro ⟨hcue, more, hmore⟩
        obtain ⟨id, hid, -⟩ := hids ordinal (by omega)
        obtain ⟨atom, hatom⟩ := makeAtom_total (acceptRaw_ok h) hid hcue hraw
        exact ⟨_, bind_ok.mpr ⟨atom, hatom, bind_ok.mpr ⟨more, hmore, rfl⟩⟩⟩
    · have hmore : (∃ built, buildAtoms sha256 caller false ordinal previousEnd rest =
          .ok built) ↔ Guarded previousEnd rest := ih (by omega) hrest
      rw [buildAtoms_refused h]
      simp only [Guarded, h, ← hmore, Bool.false_eq_true, if_false]
      constructor
      · rintro ⟨built, hbuilt⟩
        obtain ⟨more, hmore, -⟩ := bind_ok.mp hbuilt
        exact ⟨rfl, more, hmore⟩
      · rintro ⟨-, more, hmore⟩
        exact ⟨_, bind_ok.mpr ⟨more, hmore, rfl⟩⟩
    · rw [buildAtoms_raised h]
      simp only [Guarded, h]
      constructor
      · rintro ⟨built, herror⟩
        cases herror
      · rintro ⟨herror, -⟩
        cases herror

/-- Each raw atom becomes an atom, in order, or a diagnostic. -/
theorem buildAtoms_accounted {ordinal : Nat} {previousEnd : Int} {raws : List RawAtom}
    {built : List (TranscriptAtom sha256) × List TranscriptDiagnostic}
    (h : buildAtoms sha256 caller false ordinal previousEnd raws = .ok built) :
    ∃ outcomes, List.Forall₂ Becomes raws outcomes ∧ built.1 = outcomes.filterMap (·.getLeft?) ∧
      built.2 = outcomes.filterMap (·.getRight?) := by
  induction raws generalizing ordinal previousEnd built with
  | nil =>
    obtain rfl := Except.ok.inj h
    exact ⟨[], .nil, rfl, rfl⟩
  | cons raw rest ih =>
    rcases acceptRaw_cases previousEnd raw with ⟨accepted, ha⟩ | ⟨code, place, ha⟩ | ha
    · rw [buildAtoms_accepted ha] at h
      simp only [bind_ok] at h
      obtain ⟨atom, hatom, more, hmore, hbuilt⟩ := h
      obtain rfl := Except.ok.inj hbuilt
      obtain ⟨outcomes, hof, hatoms, hdiagnostics⟩ := ih hmore
      have haccepted := acceptRaw_ok ha
      have hmade := (makeAtom_ok hatom).1
      refine ⟨.inl atom :: outcomes, .cons (.atom atom ?_ ?_ ?_) hof, ?_, ?_⟩
      · rw [hmade.startMs, haccepted.startMs]
      · rw [hmade.endMs, haccepted.endMs]
      · rw [hmade.text, String.toList_ofList, haccepted.text]
      · exact congrArg (atom :: ·) hatoms
      · exact hdiagnostics
    · rw [buildAtoms_refused ha] at h
      simp only [Bool.false_eq_true, if_false, bind_ok] at h
      obtain ⟨more, hmore, hbuilt⟩ := h
      obtain rfl := Except.ok.inj hbuilt
      obtain ⟨outcomes, hof, hatoms, hdiagnostics⟩ := ih hmore
      refine ⟨.inr ⟨code, some raw.sourceOrdinal⟩ :: outcomes, .cons (.diagnostic code) hof, ?_, ?_⟩
      · exact hatoms
      · exact congrArg (⟨code, some raw.sourceOrdinal⟩ :: ·) hdiagnostics
    · rw [buildAtoms_raised ha] at h
      cases h

/-- Atoms with consecutive ordinals and their identifiers, one after the other in time. -/
structure InOrder (caller : Caller) (previousEnd : Int) (ordinal : Nat)
    (atoms : List (TranscriptAtom sha256)) : Prop where
  ordinals : atoms.map (·.atom.ordinal) = List.range' ordinal atoms.length
  ids : atoms.map (fun atom => .ok atom.atom.atomId) =
    (List.range' ordinal atoms.length).map (caller.atomId sha256)
  after : ∀ atom ∈ atoms, previousEnd ≤ atom.atom.startMs
  ordered : atoms.Pairwise fun a b => a.atom.endMs ≤ b.atom.startMs
  normalized : ∀ atom ∈ atoms, collapseText atom.atom.text.toList = atom.atom.text.toList

theorem InOrder.nil (previousEnd : Int) (ordinal : Nat) :
    InOrder caller previousEnd ordinal ([] : List (TranscriptAtom sha256)) :=
  ⟨rfl, rfl, fun _ h => absurd h List.not_mem_nil, .nil, fun _ h => absurd h List.not_mem_nil⟩

theorem InOrder.cons {previousEnd : Int} {ordinal : Nat} {raw : RawAtom} {accepted : Accepted}
    {atom : TranscriptAtom sha256} {atoms : List (TranscriptAtom sha256)}
    (haccepted : AcceptedAs previousEnd raw accepted) (hmade : Made ordinal raw accepted atom)
    (hid : caller.atomId sha256 ordinal = .ok atom.atom.atomId)
    (h : InOrder caller accepted.endMs (ordinal + 1) atoms) :
    InOrder caller previousEnd ordinal (atom :: atoms) where
  ordinals := by rw [List.map_cons, hmade.ordinal, h.ordinals, List.length_cons, List.range'_succ]
  ids := by rw [List.map_cons, h.ids, List.length_cons, List.range'_succ, List.map_cons, hid]
  after := by
    have hfirst : previousEnd ≤ atom.atom.startMs := by
      rw [hmade.startMs]
      exact haccepted.ordered
    intro other hother
    rcases List.mem_cons.mp hother with rfl | hother
    · exact hfirst
    · have hafter := h.after other hother
      have hpositive := haccepted.positive
      have hordered := haccepted.ordered
      omega
  ordered := by
    refine List.pairwise_cons.mpr ⟨fun other hother => ?_, h.ordered⟩
    have hafter := h.after other hother
    rw [hmade.endMs]
    omega
  normalized := by
    intro other hother
    rcases List.mem_cons.mp hother with rfl | hother
    · obtain ⟨-, cs, -, htext⟩ := normalizeText_ok haccepted.text
      rw [hmade.text, String.toList_ofList, htext, collapseText_idem]
    · exact h.normalized other hother

theorem buildAtoms_inOrder {strict : Bool} {ordinal : Nat} {previousEnd : Int}
    {raws : List RawAtom} {built : List (TranscriptAtom sha256) × List TranscriptDiagnostic}
    (h : buildAtoms sha256 caller strict ordinal previousEnd raws = .ok built) :
    InOrder caller previousEnd ordinal built.1 ∧ built.1.length ≤ raws.length := by
  induction raws generalizing ordinal previousEnd built with
  | nil =>
    obtain rfl := Except.ok.inj h
    exact ⟨.nil _ _, Nat.le_refl _⟩
  | cons raw rest ih =>
    rcases acceptRaw_cases previousEnd raw with ⟨accepted, ha⟩ | ⟨code, place, ha⟩ | ha
    · rw [buildAtoms_accepted ha] at h
      simp only [bind_ok] at h
      obtain ⟨atom, hatom, more, hmore, hbuilt⟩ := h
      obtain rfl := Except.ok.inj hbuilt
      obtain ⟨hmade, hid⟩ := makeAtom_ok hatom
      obtain ⟨horder, hlength⟩ := ih hmore
      refine ⟨.cons (acceptRaw_ok ha) hmade hid horder, ?_⟩
      rw [List.length_cons, List.length_cons]
      omega
    · rw [buildAtoms_refused ha] at h
      split at h
      · cases h
      · obtain ⟨more, hmore, hbuilt⟩ := bind_ok.mp h
        obtain rfl := Except.ok.inj hbuilt
        obtain ⟨horder, hlength⟩ := ih hmore
        exact ⟨horder, Nat.le_succ_of_le hlength⟩
    · rw [buildAtoms_raised ha] at h
      cases h

/-! ## The artifact -/

theorem InOrder.nodup {n : Nat} {previousEnd : Int} {atoms : List (TranscriptAtom sha256)}
    (h : InOrder caller previousEnd 0 atoms) (hids : caller.Identified sha256 n)
    (hn : atoms.length ≤ n) : (atoms.map (·.atom.atomId)).Nodup := by
  apply List.Nodup.of_map (fun id : MediaId .atom => (.ok id : Except Media.Failure (MediaId .atom)))
  rw [List.map_map]
  have hmap : atoms.map ((fun id : MediaId .atom => (.ok id : Except Media.Failure (MediaId .atom))) ∘
      (·.atom.atomId)) = (List.range' 0 atoms.length).map (caller.atomId sha256) := h.ids
  rw [hmap]
  apply List.Nodup.map_on _ List.nodup_range'
  intro i hi j hj heq
  have hi := List.mem_range'_1.mp hi
  have hj := List.mem_range'_1.mp hj
  by_contra hne
  rcases Nat.lt_or_gt_of_ne hne with hlt | hlt
  · obtain ⟨id, hid, hother⟩ := hids j (by omega)
    exact hother i hlt (heq.trans hid)
  · obtain ⟨id, hid, hother⟩ := hids i (by omega)
    exact hother j hlt (heq.symm.trans hid)

theorem representationId_total (sha256 : ByteArray → HexDigest) (caller : Caller) : ∃ id, Media.representationId (textDigest sha256)
    caller.resourceId "audio_transcript" caller.producerFingerprint.value
    (normalizationFingerprint sha256).value = .ok id := by
  refine ⟨_, bind_ok.mpr ⟨_, if_pos ?_, rfl⟩⟩
  simp [Json.intsWithin, Json.intsWithinItems, Json.intsWithinFields]

theorem makeArtifact_total {n : Nat} {previousEnd : Int} {atoms : List (TranscriptAtom sha256)}
    (h : InOrder caller previousEnd 0 atoms) (hids : caller.Identified sha256 n)
    (hn : atoms.length ≤ n) {language : Option (List Char)} {durationMs : Option Nat}
    (hduration : ∀ duration ∈ durationMs, ∀ last ∈ atoms.getLast?, last.atom.endMs ≤ duration)
    (metadata : Nat × String × String) : ∃ artifact,
      makeArtifact sha256 caller atoms language durationMs metadata = .ok artifact := by
  obtain ⟨id, hid⟩ := representationId_total sha256 caller
  have hordinals : atoms.map (·.atom.ordinal) = List.range atoms.length := by
    rw [h.ordinals, List.range_eq_range']
  refine ⟨⟨id, atoms, language, durationMs, metadata⟩, ?_⟩
  rw [makeArtifact, hid]
  simp only [bind_ok, require_ok, exists_const]
  exact ⟨h.nodup hids hn, hordinals, h.ordered.isChain, hduration, trivial⟩

theorem resolveDuration_aligned {computed duration : Option Nat}
    {resolved : Option Nat × List TranscriptDiagnostic} :
    resolveDuration true computed duration = .ok resolved ↔
      resolveDuration false computed duration = .ok resolved ∧ resolved.2 = [] := by
  unfold resolveDuration refuse
  split
  · simp only [Except.ok.injEq]
    constructor
    · rintro rfl
      exact ⟨rfl, rfl⟩
    · exact fun h => h.1
  · split
    · simp only [if_true, Bool.false_eq_true, if_false, Except.ok.injEq, reduceCtorEq, false_iff,
        not_and]
      rintro rfl
      simp
    · simp only [Except.ok.injEq]
      constructor
      · rintro rfl
        exact ⟨rfl, rfl⟩
      · exact fun h => h.1

/-- A duration that is resolved is not shorter than what is computed; late diagnostics are for it. -/
theorem resolveDuration_ok {strict : Bool} {computed duration : Option Nat}
    {resolved : Option Nat × List TranscriptDiagnostic}
    (h : resolveDuration strict computed duration = .ok resolved) :
    (∀ d ∈ resolved.1, ∀ last ∈ computed, last ≤ d) ∧
      (resolved.2 = [] ∨ resolved.2 = [⟨.invalidTiming, none⟩]) := by
  unfold resolveDuration refuse at h
  split at h
  · obtain rfl := Except.ok.inj h
    refine ⟨fun d hd last hlast => ?_, .inl rfl⟩
    obtain rfl := Option.some.inj (hd.symm.trans hlast)
    exact Nat.le_refl _
  · split at h
    · split at h
      · cases h
      · obtain rfl := Except.ok.inj h
        refine ⟨fun d hd last hlast => ?_, .inr rfl⟩
        obtain rfl := Option.some.inj (hd.symm.trans hlast)
        exact Nat.le_refl _
    · rename_i hlong
      obtain rfl := Except.ok.inj h
      refine ⟨fun d hd last hlast => ?_, .inl rfl⟩
      obtain rfl := Option.some.inj hd
      by_contra hlt
      exact hlong ⟨last, hlast, Nat.lt_of_not_le hlt⟩

/-! ## All raw atoms -/

/-- Diagnostics of atoms carry an ordinal, the one of the duration carries none. -/
def LateDiagnostics (late : List TranscriptDiagnostic) : Prop := late = [] ∨ late = [⟨.invalidTiming, none⟩]

/-- What a result says about the raw atoms. -/
structure Accounted (caller : Caller) (raws : List RawAtom) (result : TranscriptReadResult sha256) : Prop where
  outcomes : ∃ outcomes late, List.Forall₂ Becomes raws outcomes ∧
    result.artifact.atoms = outcomes.filterMap (·.getLeft?) ∧
    result.diagnostics = outcomes.filterMap (·.getRight?) ++ late ∧ LateDiagnostics late
  inOrder : InOrder caller (-1) 0 result.artifact.atoms
  duration : ∀ d ∈ result.artifact.durationMs, ∀ last ∈ result.artifact.atoms.getLast?, last.atom.endMs ≤ d
  counted : result.artifact.metadata.1 = result.diagnostics.length

variable {strict : Bool} {raws : List RawAtom} {language : Loaded} {detectedFormat sourceDigest : String}
  {durationMs : Option Nat} {result : TranscriptReadResult sha256}

theorem makeArtifact_fields {atoms : List (TranscriptAtom sha256)} {language : Option (List Char)}
    {durationMs : Option Nat} {metadata : Nat × String × String} {artifact : TranscriptArtifact sha256}
    (h : makeArtifact sha256 caller atoms language durationMs metadata = .ok artifact) :
    artifact.atoms = atoms ∧ artifact.durationMs = durationMs ∧ artifact.metadata = metadata := by
  unfold makeArtifact at h
  split at h
  · cases h
  · simp only [bind_ok, require_ok, exists_const] at h
    obtain ⟨-, -, -, -, hresult⟩ := h
    obtain rfl := Except.ok.inj hresult
    exact ⟨rfl, rfl, rfl⟩

/-- The steps of a reading that succeeds. -/
theorem buildArtifact_ok :
    buildArtifact sha256 caller strict raws language detectedFormat sourceDigest durationMs = .ok result ↔
      ∃ resolvedLanguage built resolved artifact, optionalText language = .ok resolvedLanguage ∧
        buildAtoms sha256 caller strict 0 (-1) raws = .ok built ∧
        resolveDuration strict (built.1.getLast?.map (·.atom.endMs)) durationMs = .ok resolved ∧
        makeArtifact sha256 caller built.1 resolvedLanguage resolved.1
          ((built.2 ++ resolved.2).length, detectedFormat, sourceDigest) = .ok artifact ∧
        result = ⟨artifact, detectedFormat, sourceDigest, built.2 ++ resolved.2⟩ := by
  simp only [buildArtifact, bind_ok]
  constructor
  · rintro ⟨resolvedLanguage, hlanguage, built, hbuilt, resolved, hresolved, artifact, hartifact, hresult⟩
    obtain rfl := Except.ok.inj hresult
    exact ⟨resolvedLanguage, built, resolved, artifact, hlanguage, hbuilt, hresolved, hartifact, rfl⟩
  · rintro ⟨resolvedLanguage, built, resolved, artifact, hlanguage, hbuilt, hresolved, hartifact, rfl⟩
    exact ⟨resolvedLanguage, hlanguage, built, hbuilt, resolved, hresolved, artifact, hartifact, rfl⟩

/-- Strict mode succeeds exactly where the other mode has nothing to report, with the same result. -/
theorem buildArtifact_aligned :
    buildArtifact sha256 caller true raws language detectedFormat sourceDigest durationMs = .ok result ↔
      buildArtifact sha256 caller false raws language detectedFormat sourceDigest durationMs = .ok result ∧
        result.diagnostics = [] := by
  rw [buildArtifact_ok, buildArtifact_ok]
  constructor
  · rintro ⟨resolvedLanguage, built, resolved, artifact, hlanguage, hbuilt, hresolved, hartifact, rfl⟩
    obtain ⟨hbuilt, hnone⟩ := buildAtoms_aligned.mp hbuilt
    obtain ⟨hresolved, hnone'⟩ := resolveDuration_aligned.mp hresolved
    refine ⟨⟨resolvedLanguage, built, resolved, artifact, hlanguage, hbuilt, hresolved, hartifact, rfl⟩, ?_⟩
    show built.2 ++ resolved.2 = []
    rw [hnone, hnone']
    rfl
  · rintro ⟨⟨resolvedLanguage, built, resolved, artifact, hlanguage, hbuilt, hresolved, hartifact, rfl⟩, hnone⟩
    obtain ⟨hnone, hnone'⟩ := List.append_eq_nil_iff.mp hnone
    exact ⟨resolvedLanguage, built, resolved, artifact, hlanguage, buildAtoms_aligned.mpr ⟨hbuilt, hnone⟩,
      resolveDuration_aligned.mpr ⟨hresolved, hnone'⟩, hartifact, rfl⟩

theorem buildArtifact_accounts
    (h : buildArtifact sha256 caller false raws language detectedFormat sourceDigest durationMs = .ok result) :
    Accounted caller raws result := by
  obtain ⟨resolvedLanguage, built, resolved, artifact, -, hbuilt, hresolved, hartifact, rfl⟩ :=
    buildArtifact_ok.mp h
  obtain ⟨hatoms, hduration, hmetadata⟩ := makeArtifact_fields hartifact
  obtain ⟨outcomes, hof, hleft, hright⟩ := buildAtoms_accounted hbuilt
  obtain ⟨hlong, hlate⟩ := resolveDuration_ok hresolved
  refine ⟨⟨outcomes, resolved.2, hof, ?_, ?_, hlate⟩, ?_, ?_, ?_⟩
  · exact hatoms.trans hleft
  · show built.2 ++ resolved.2 = _
    rw [hright]
  · show InOrder caller (-1) 0 artifact.atoms
    rw [hatoms]
    exact (buildAtoms_inOrder hbuilt).1
  · intro d hd last hlast
    apply hlong d
    · rw [← hduration]
      exact hd
    · rw [← hatoms]
      exact Option.mem_map_of_mem _ hlast
  · exact congrArg Prod.fst hmetadata

end

end MDRack.Transcripts
