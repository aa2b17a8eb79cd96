import MDRack.Core.Validation
import MDRack.Lib.Dependencies

/-!
# Enrichment outputs (`mdrack.application.enrichment`)

A representation may declare in its metadata which slot it owns and which revisions of other
slots it was made from.

Principal results: `outputsOf_ok` — the outputs of a batch are those its representations declare,
with distinct slots; `outputOf_congr` — equal representations declare equal outputs.
-/

namespace MDRack.Enrichment

open Checks
open Json (Value pyEq pyEqItems pyEqFields)

/-- Purpose and explicit variant. -/
abbrev Slot := NonEmptyText × NonEmptyText

structure Output where
  slot : Slot
  sourceRevision : NonEmptyText
  artifactRevision : NonEmptyText
  dependencies : List (Slot × NonEmptyText)
  sourceIndependent : Bool
  deriving DecidableEq

/-- `info.get(key)`. -/
def field (fields : List (String × Value)) (key : String) : Option Value :=
  (fields.find? fun f => f.1 == key).map (·.2)

/-- `_text`. -/
def text : Option Value → Except Err NonEmptyText
  | some (.str s) =>
    if h : hasVisible s = true then .ok ⟨s, h⟩
    else .error (.valueError "nonempty provenance value required")
  | _ => .error (.valueError "nonempty provenance value required")

/-- A flag that defaults to `False` and must be a `bool`. -/
def flag (message : String) : Option Value → Except Err Bool
  | none => .ok false
  | some (.bool b) => .ok b
  | some _ => .error (.valueError message)

/-- One entry of `dependencies`. -/
def dependency (slot : Slot) (parsed : List (Slot × NonEmptyText)) :
    Value → Except Err (Slot × NonEmptyText)
  | .obj fields => do
    let purpose ← text (field fields "purpose")
    let variant ← text (field fields "variant")
    require ((purpose, variant) ≠ slot ∧ ∀ p ∈ parsed, p.1 ≠ (purpose, variant))
      (.valueError "self or duplicate dependency")
    let revision ← text (field fields "revision")
    .ok ((purpose, variant), revision)
  | _ => .error (.valueError "invalid dependency")

def parseDependencies (slot : Slot) (parsed : List (Slot × NonEmptyText)) :
    List Value → Except Err (List (Slot × NonEmptyText))
  | [] => .ok parsed
  | item :: rest => do
    let d ← dependency slot parsed item
    parseDependencies slot (parsed ++ [d]) rest

def dependencyItems : Option Value → Except Err (List Value)
  | some (.arr items) => .ok items
  | _ => .error (.valueError "explicit immediate dependencies required")

/-- What an `enrichment_v1` block declares. -/
def parseOutput (info : List (String × Value)) : Except Err Output := do
  let purpose ← text (field info "purpose")
  let variant ← text (field info "variant")
  let _ ← text (field info "recipe")
  let _ ← text (field info "producer")
  let items ← dependencyItems (field info "dependencies")
  let parsed ← parseDependencies (purpose, variant) [] items
  let independent ← flag "source-independent output cannot have source/artifact dependencies"
    (field info "source_independent")
  require (independent = true → parsed = [])
    (.valueError "source-independent output cannot have source/artifact dependencies")
  let sourceRevision ← text (field info "source_revision")
  let artifactRevision ← text (field info "artifact_revision")
  .ok ⟨(purpose, variant), sourceRevision, artifactRevision, parsed, independent⟩

/-- `_output`. -/
def outputOf (rep : RepresentationRecord) : Except Err (Option Output) :=
  match rep.metadata.get? "enrichment_v1" with
  | none => .ok none
  | some (.obj info) => (parseOutput info).map some
  | some _ => .error (.valueError "invalid enrichment provenance")

/-- An entry of the dictionary of outputs. -/
structure Active where
  rep : RepresentationRecord
  output : Output

def Active.slot (a : Active) : Slot := a.output.slot

/-- The entry of a slot. -/
def lookup (actives : List Active) (slot : Slot) : Option Active :=
  actives.find? fun a => a.slot = slot

def collect (result : List Active) : List RepresentationRecord → Except Err (List Active)
  | [] => .ok result
  | rep :: rest => do
    match ← outputOf rep with
    | none => collect result rest
    | some output => do
      require (∀ a ∈ result, a.slot ≠ output.slot)
        (.valueError "multiple owners of active purpose/variant")
      collect (result ++ [⟨rep, output⟩]) rest

/-- `_outputs`: slot owners in the order of their representations. -/
def outputsOf (batch : PreparedResourceBatch) : Except Err (List Active) :=
  collect [] batch.representations

def Active.node (a : Active) : Dependencies.Node Slot NonEmptyText :=
  ⟨a.slot, a.output.artifactRevision, a.output.dependencies⟩

/-- `_acyclic`. -/
def acyclic (outputs : List Active) : Except Err Unit :=
  require (Dependencies.peel (Dependencies.pendingOf (outputs.map (·.node))) = true)
    (.valueError "cyclic immediate artifact dependencies")

/-- `invalid_dependencies`. -/
def invalidDependencies (active : List Active) (isProtected : List Slot) :
    Except Err (List Slot) := do
  acyclic active
  Dependencies.invalidate (.staleEnrichment "immediate artifact revision changed")
    (active.map (·.node)) isProtected []

/-- `independent_output`. -/
def independentOutput (rep : RepresentationRecord) : Except Err Bool := do
  let output ← outputOf rep
  let independent ← flag "explicit source independence must be boolean"
    (rep.metadata.get? "source_independent")
  require (independent = true → ∀ o ∈ output, o.dependencies = [])
    (.valueError "independent output has immediate dependencies")
  .ok (independent || output.any (·.sourceIndependent))

/-- `any(output.source_revision != source and not independent_output(rep))`. -/
def anyOldSource (source : NonEmptyText) : List Active → Except Err Bool
  | [] => .ok false
  | a :: rest =>
    if a.output.sourceRevision = source then anyOldSource source rest
    else do
      if ← independentOutput a.rep then anyOldSource source rest else .ok true

/-- `_source`: the source revision of a published snapshot. -/
def sourceOf (snapshot : ResourceSnapshot) : Except Err NonEmptyText := do
  require (snapshot.state.live = true) (.staleEnrichment "published source required")
  let batch ← getOr (.staleEnrichment "published source required") snapshot.batch
  validatePreparedBatch batch
  let binding ← getOr (.staleEnrichment "published source required") snapshot.state.binding
  require (batch.resource.sourceNamespace = binding.sourceNamespace ∧
    (batch.resource.locator == binding.sourceLocator) = true)
    (.staleEnrichment "source binding differs from graph")
  let source ← text (batch.resource.metadata.get? "source_revision")
  let outputs ← outputsOf batch
  let old ← anyOldSource source outputs
  require (old = false) (.staleEnrichment "existing output belongs to an old source revision")
  .ok source

/-! ## The outputs of a batch -/

/-- The entry that a representation declares. -/
def declared (rep : RepresentationRecord) : Option Active :=
  match outputOf rep with
  | .ok (some output) => some ⟨rep, output⟩
  | _ => none

section Outputs

variable {reps : List RepresentationRecord} {result actives : List Active} {a : Active}

theorem declared_rep {rep : RepresentationRecord} (h : declared rep = some a) :
    a.rep = rep ∧ outputOf rep = .ok (some a.output) := by
  unfold declared at h
  split at h
  · rename_i output houtput
    cases h
    exact ⟨rfl, houtput⟩
  · cases h

theorem collect_ok (hresult : (result.map (·.slot)).Nodup) :
    collect result reps = .ok actives ↔ (∀ rep ∈ reps, ∃ o, outputOf rep = .ok o) ∧
      actives = result ++ reps.filterMap declared ∧ (actives.map (·.slot)).Nodup := by
  induction reps generalizing result with
  | nil =>
    simp only [collect, Except.ok.injEq, List.not_mem_nil, false_implies, implies_true,
      List.filterMap_nil, List.append_nil, true_and]
    constructor
    · rintro rfl
      exact ⟨rfl, hresult⟩
    · rintro ⟨rfl, -⟩
      rfl
  | cons rep rest ih =>
    rw [collect]
    cases houtput : outputOf rep with
    | error e =>
      simp [bind, Except.bind, houtput]
    | ok o =>
      cases o with
      | none =>
        simp only [bind, Except.bind, List.filterMap_cons, declared, houtput, List.forall_mem_cons]
        rw [ih hresult]
        simp
      | some output =>
        have hdeclared : declared rep = some ⟨rep, output⟩ := by simp [declared, houtput]
        have hlist : result ++ (rep :: rest).filterMap declared =
            (result ++ [⟨rep, output⟩]) ++ rest.filterMap declared := by
          rw [List.filterMap_cons_some hdeclared]
          simp
        have hforall : (∀ r ∈ rep :: rest, ∃ o, outputOf r = .ok o) ↔
            ∀ r ∈ rest, ∃ o, outputOf r = .ok o := by
          simp [houtput]
        simp only [bind_ok, Except.ok.injEq, exists_eq_left', require_ok, exists_const]
        rw [hforall, hlist]
        by_cases hnew : ∀ a ∈ result, a.slot ≠ output.slot
        · have hnodup : ((result ++ [(⟨rep, output⟩ : Active)]).map (·.slot)).Nodup :=
            Table.nodup_map_append hresult (by simp) fun a ha b hb => by
              rw [List.mem_singleton] at ha
              rw [ha]
              exact hnew b hb
          rw [ih hnodup]
          exact and_iff_right hnew
        · -- a second owner of the slot: neither side holds
          constructor
          · exact fun h => absurd h.1 hnew
          · rintro ⟨-, rfl, hnodup⟩
            exfalso
            refine hnew fun a ha heq => ?_
            rw [List.map_append, List.map_append, List.nodup_append] at hnodup
            have := (List.nodup_append.mp hnodup.1).2.2 a.slot (List.mem_map.mpr ⟨a, ha, rfl⟩)
              output.slot (by simp [Active.slot])
            exact this heq

theorem outputsOf_ok {batch : PreparedResourceBatch} : outputsOf batch = .ok actives ↔
    (∀ rep ∈ batch.representations, ∃ o, outputOf rep = .ok o) ∧
      actives = batch.representations.filterMap declared ∧ (actives.map (·.slot)).Nodup := by
  have hnil : (([] : List Active).map (·.slot)).Nodup := List.nodup_nil
  rw [outputsOf, collect_ok hnil, List.nil_append]

/-- An output belongs to a representation of its batch. -/
theorem mem_outputs {batch : PreparedResourceBatch} (h : outputsOf batch = .ok actives)
    (ha : a ∈ actives) : a.rep ∈ batch.representations ∧ outputOf a.rep = .ok (some a.output) := by
  obtain ⟨-, rfl, -⟩ := outputsOf_ok.mp h
  obtain ⟨rep, hrep, hdeclared⟩ := List.mem_filterMap.mp ha
  obtain ⟨rfl, houtput⟩ := declared_rep hdeclared
  exact ⟨hrep, houtput⟩

theorem declared_of_mem {batch : PreparedResourceBatch} (h : outputsOf batch = .ok actives)
    (ha : a ∈ actives) : declared a.rep = some a := by
  obtain ⟨-, houtput⟩ := mem_outputs h ha
  simp [declared, houtput]

theorem mem_of_declared {batch : PreparedResourceBatch} (h : outputsOf batch = .ok actives)
    {p : RepresentationRecord} (hp : p ∈ batch.representations) (ha : declared p = some a) :
    a ∈ actives := by
  obtain ⟨-, rfl, -⟩ := outputsOf_ok.mp h
  exact List.mem_filterMap.mpr ⟨p, hp, ha⟩

theorem lookup_mem {slot : Slot} (h : lookup actives slot = some a) :
    a ∈ actives ∧ a.slot = slot := Table.key_of_find? Active.slot h

theorem lookup_of_mem (hslots : (actives.map (·.slot)).Nodup) (ha : a ∈ actives) :
    lookup actives a.slot = some a := Table.find?_eq_of_mem hslots ha rfl

theorem lookup_none {slot : Slot} : lookup actives slot = none ↔ ∀ a ∈ actives, a.slot ≠ slot := by
  simp [lookup]

theorem nodes_keys (actives : List Active) :
    (actives.map (·.node)).map (·.key) = actives.map (·.slot) := by
  rw [List.map_map]
  rfl

end Outputs

/-! ## Equal representations -/

theorem eq_of_pyEq_str {s : String} {v : Value} (h : pyEq (.str s) v = true) : v = .str s := by
  cases v with
  | str t =>
    have hst : (s == t) = true := h
    rw [eq_of_beq hst]
  | null | bool | int | float | arr | obj => exact absurd h Bool.false_ne_true

theorem eq_str_of_pyEq {s : String} {v : Value} (h : pyEq v (.str s) = true) : v = .str s := by
  cases v with
  | str t =>
    have hst : (t == s) = true := h
    rw [eq_of_beq hst]
  | null | bool | int | float | arr | obj => exact absurd h Bool.false_ne_true

/-- Equal objects have equal members. -/
theorem field_congr {fields fields' : List (String × Value)} (h : pyEqFields fields fields' = true)
    (key : String) : (field fields key = none ∧ field fields' key = none) ∨
      ∃ v v', field fields key = some v ∧ field fields' key = some v' ∧ pyEq v v' = true := by
  induction fields generalizing fields' with
  | nil =>
    cases fields' with
    | nil => exact .inl ⟨rfl, rfl⟩
    | cons f rest => simp [pyEqFields] at h
  | cons f rest ih =>
    obtain ⟨k, v⟩ := f
    cases fields' with
    | nil => simp [pyEqFields] at h
    | cons f' rest' =>
      obtain ⟨k', v'⟩ := f'
      simp only [pyEqFields, Bool.and_eq_true, beq_iff_eq] at h
      obtain ⟨⟨rfl, hv⟩, hrest⟩ := h
      by_cases hk : k = key
      · exact .inr ⟨v, v', by simp [field, hk], by simp [field, hk], hv⟩
      · simpa [field, hk] using ih hrest

/-- Texts read from equal members are equal. -/
theorem text_congr {fields fields' : List (String × Value)} (h : pyEqFields fields fields' = true)
    {key : String} {t t' : NonEmptyText} (ht : text (field fields key) = .ok t)
    (ht' : text (field fields' key) = .ok t') : t = t' := by
  rcases field_congr h key with ⟨hnone, -⟩ | ⟨v, v', hv, hv', heq⟩
  · rw [hnone] at ht
    cases ht
  · rw [hv] at ht
    rw [hv'] at ht'
    cases v <;> simp only [text, reduceCtorEq] at ht
    obtain rfl := eq_of_pyEq_str heq
    exact Except.ok.inj (ht.symm.trans ht')

theorem flag_congr {fields fields' : List (String × Value)} (h : pyEqFields fields fields' = true)
    {key message : String} {b b' : Bool} (hb : flag message (field fields key) = .ok b)
    (hb' : flag message (field fields' key) = .ok b') : b = b' := by
  rcases field_congr h key with ⟨hnone, hnone'⟩ | ⟨v, v', hv, hv', heq⟩
  · rw [hnone] at hb
    rw [hnone'] at hb'
    exact Except.ok.inj (hb.symm.trans hb')
  · rw [hv] at hb
    rw [hv'] at hb'
    cases v <;> simp only [flag, reduceCtorEq] at hb
    cases v' <;> simp only [flag, reduceCtorEq] at hb'
    simp_all [pyEq, Json.scalarEq]

theorem dependency_congr {slot : Slot} {parsed : List (Slot × NonEmptyText)} {v v' : Value}
    (h : pyEq v v' = true) {d d' : Slot × NonEmptyText} (hd : dependency slot parsed v = .ok d)
    (hd' : dependency slot parsed v' = .ok d') : d = d' := by
  cases v <;> simp only [dependency, reduceCtorEq] at hd
  cases v' <;> simp only [dependency, reduceCtorEq] at hd'
  rw [pyEq] at h
  simp only [bind_ok, Except.ok.injEq] at hd hd'
  obtain ⟨p, hp, w, hw, -, -, r, hr, rfl⟩ := hd
  obtain ⟨p', hp', w', hw', -, -, r', hr', rfl⟩ := hd'
  rw [text_congr h hp hp', text_congr h hw hw', text_congr h hr hr']

theorem parseDependencies_congr {slot : Slot} {items items' : List Value}
    (h : pyEqItems items items' = true) {parsed ds ds' : List (Slot × NonEmptyText)}
    (hd : parseDependencies slot parsed items = .ok ds)
    (hd' : parseDependencies slot parsed items' = .ok ds') : ds = ds' := by
  induction items generalizing items' parsed with
  | nil =>
    cases items' with
    | nil => exact Except.ok.inj (hd.symm.trans hd')
    | cons v rest => simp [pyEqItems] at h
  | cons v rest ih =>
    cases items' with
    | nil => simp [pyEqItems] at h
    | cons v' rest' =>
      rw [pyEqItems, Bool.and_eq_true] at h
      simp only [parseDependencies, bind_ok] at hd hd'
      obtain ⟨d, hd, hrest⟩ := hd
      obtain ⟨d', hd', hrest'⟩ := hd'
      obtain rfl := dependency_congr h.1 hd hd'
      exact ih h.2 hrest hrest'

theorem parseOutput_congr {info info' : List (String × Value)} (h : pyEqFields info info' = true)
    {o o' : Output} (ho : parseOutput info = .ok o) (ho' : parseOutput info' = .ok o') : o = o' := by
  simp only [parseOutput, bind_ok, Except.ok.injEq] at ho ho'
  obtain ⟨p, hp, w, hw, -, -, -, -, items, hitems, ds, hds, b, hb, -, -, s, hs, r, hr, rfl⟩ := ho
  obtain ⟨p', hp', w', hw', -, -, -, -, items', hitems', ds', hds', b', hb', -, -, s', hs', r', hr',
    rfl⟩ := ho'
  obtain rfl := text_congr h hp hp'
  obtain rfl := text_congr h hw hw'
  have hequal : pyEqItems items items' = true := by
    rcases field_congr h "dependencies" with ⟨hnone, -⟩ | ⟨v, v', hv, hv', heq⟩
    · rw [hnone] at hitems
      cases hitems
    · rw [hv] at hitems
      rw [hv'] at hitems'
      cases v <;> simp only [dependencyItems, reduceCtorEq] at hitems
      cases v' <;> simp only [dependencyItems, reduceCtorEq] at hitems'
      cases hitems
      cases hitems'
      rwa [pyEq] at heq
  rw [parseDependencies_congr hequal hds hds', flag_congr h hb hb', text_congr h hs hs',
    text_congr h hr hr']

/-- Equal representations declare equal outputs. -/
theorem outputOf_congr {rep rep' : RepresentationRecord} (h : rep == rep') {o o' : Output}
    (ho : outputOf rep = .ok (some o)) (ho' : outputOf rep' = .ok (some o')) : o = o' := by
  have hfields : pyEqFields rep.metadata.fields rep'.metadata.fields = true :=
    RepresentationRecord.metadata_of_beq h
  have hinfo := field_congr hfields "enrichment_v1"
  unfold outputOf at ho ho'
  rcases hinfo with ⟨hnone, -⟩ | ⟨v, v', hv, hv', heq⟩
  · rw [show rep.metadata.get? "enrichment_v1" = none from hnone] at ho
    cases ho
  · rw [show rep.metadata.get? "enrichment_v1" = some v from hv] at ho
    rw [show rep'.metadata.get? "enrichment_v1" = some v' from hv'] at ho'
    cases v <;> simp only [reduceCtorEq] at ho
    cases v' <;> simp only [reduceCtorEq] at ho'
    rw [pyEq] at heq
    obtain ⟨p, hp, hpo⟩ := map_ok.mp ho
    obtain ⟨p', hp', hpo'⟩ := map_ok.mp ho'
    cases hpo
    cases hpo'
    exact parseOutput_congr heq hp hp'

end MDRack.Enrichment
