import MDRack.Sqlite.RoundTrip

/-!
# Isolation of resources

An operation on one resource leaves the graph, the publication state and the full-text rows of
every other resource as they were, although facets, embedding spaces and the full-text table are
shared.

Principal result: `isolated` — for every operation of a history under any faults.
-/

namespace MDRack

open Checks Transaction

/-- The resource an operation is about. -/
def Op.target : Op → Option String
  | .readSnapshot resourceId => some resourceId
  | .compareAndPublish batch _ => some batch.resource.resourceId.text
  | .withdrawIfCurrent resourceId _ => some resourceId
  | .deleteIfCurrent resourceId _ => some resourceId
  | .replaceResource batch => some batch.resource.resourceId.text
  | .deleteResource resourceId => some resourceId
  | .deleteLiveResource resourceId => some resourceId
  | .rebuildFtsIndex => none

/-- The full-text rows of the units of one resource. -/
def ftsOf (t : Tables) (resourceId : String) : List FtsRow :=
  t.fts.filter fun f => (unitsOf t resourceId).any fun u => u.unitId = f.unitId

/-- `SELECT * FROM core_publication_states WHERE resource_id=?`. -/
def stateOf (t : Tables) (resourceId : String) : Option StateRow :=
  t.states.find? fun s => s.resourceId = resourceId

/-- Everything that is read of one resource is the same. -/
structure Untouched (env : Env) (id : String) (t t' : Tables) : Prop where
  graph : readGraph env t' id = readGraph env t id
  state : stateOf t' id = stateOf t id
  fts : ftsOf t' id = ftsOf t id

section Tables

variable {env : Env} {id own : String} {t t₁ t₂ t₃ t' : Tables} {p : Prepared}

theorem Untouched.refl (t : Tables) : Untouched env id t t := ⟨rfl, rfl, rfl⟩

theorem Untouched.trans (h : Untouched env id t t₁) (h' : Untouched env id t₁ t₂) :
    Untouched env id t t₂ :=
  ⟨h'.graph.trans h.graph, h'.state.trans h.state, h'.fts.trans h.fts⟩

theorem unitsOf_without (t : Tables) (hne : id ≠ own) : unitsOf (t.without own) id = unitsOf t id :=
  Table.filter_without_other hne t.units

/-- Full-text rows of another resource stay when this one is removed. -/
theorem ftsOf_without (hids : (t.units.map (·.unitId)).Nodup) (hne : id ≠ own) :
    ftsOf (t.without own) id = ftsOf t id := by
  unfold ftsOf
  rw [unitsOf_without t hne]
  simp only [Tables.without, List.filter_filter]
  refine List.filter_congr fun f _ => ?_
  cases hother : (unitsOf t id).any fun u => u.unitId = f.unitId with
  | false => rfl
  | true =>
    obtain ⟨u, hu, huf⟩ := List.any_eq_true.mp hother
    obtain ⟨hmem, hid⟩ := List.mem_filter.mp hu
    rw [decide_eq_true_eq] at huf hid
    have hown := unitsOf_any hids own hmem
    rw [huf] at hown
    simp [hown, hid, hne]

/-- Rows written for one resource are no full-text rows of another. -/
theorem Filled.ftsOf_other (hp : IsPrepared env p) (h : Filled t t' p)
    (hne : id ≠ p.resourceValues.resourceId) : ftsOf t' id = ftsOf t id := by
  have hunits : unitsOf t' id = unitsOf t id := by
    unfold unitsOf
    rw [h.units]
    exact Table.filter_append_other fun u hu => by rw [hp.unit_owner u hu]; exact hne.symm
  have hadded : (p.ftsValues.filter fun f => (unitsOf t id).any fun u => u.unitId = f.unitId) = [] := by
    rw [List.filter_eq_nil_iff]
    intro f hf hany
    obtain ⟨u, hu, huf⟩ := List.any_eq_true.mp hany
    rw [← hp.fts_eq] at hf
    obtain ⟨v, hv, hvf⟩ := List.mem_filterMap.mp hf
    apply h.unit_new (List.mem_of_mem_filter hu) hv
    rw [decide_eq_true_eq] at huf
    rw [huf, ftsRow?_unitId hvf]
  unfold ftsOf
  rw [hunits, h.fts, List.filter_append, hadded, List.append_nil]

theorem Put.stateOf_other {previous : PublicationState} {status : PublicationStatus}
    {batch : Option PreparedResourceBatch} {n n' : Nat} {b : PublicationBinding} {metadata : String}
    (h : Put env previous status batch t n t' n' b metadata) (id : String) (hne : id ≠ previous.resourceId.text) :
    stateOf t' id = stateOf t id := by
  obtain ⟨rfl, -⟩ := upsertState_ok h.upsert
  exact find?_upserted (fun heq => hne heq.symm) t.states

/-- Publishing one resource does not touch another. -/
theorem untouched_published {previous : PublicationState} {batch : Option PreparedResourceBatch}
    {n n' m : Nat} {u : Unit} {b : PublicationBinding} {metadata : String} (hc : Catalog env t)
    (hp : IsPrepared env p) (hread : readState p.batch.resource.resourceId t = .ok previous)
    (hwrite : Ends (writeGraph env p) t n u t₁ m)
    (hput : Put env previous .published batch t₁ n t' n' b metadata)
    (hne : id ≠ p.batch.resource.resourceId.text) : Untouched env id t t' := by
  obtain ⟨hw, -⟩ := writeGraph_written hp hc.coherent hwrite
  obtain ⟨t₂, hfilled, hprune, -⟩ := writeGraph_filled hp hc.coherent hwrite
  obtain ⟨hprev, -⟩ := readState_spec hc.encoded hread
  have hother : id ≠ p.resourceValues.resourceId := by rwa [hp.resourceId]
  refine ⟨?_, ?_, ?_⟩
  · rw [hput.graph (hw.states ▸ hc.encoded), hw.graph_other hc.coherent hother]
  · rw [hput.stateOf_other id (by rwa [hprev])]
    unfold stateOf
    rw [hw.states]
  · obtain ⟨rfl, -⟩ := upsertState_ok hput.upsert
    cases hprune
    have hkept := hfilled.ftsOf_other hp hother
    rw [ftsOf_without hc.coherent.unit_ids hother] at hkept
    exact hkept

/-- Removing one resource does not touch another. -/
theorem untouched_removed (states : List StateRow) (hc : Coherent env t) (hne : id ≠ own)
    (hstates : stateOf { t with states := states } id = stateOf t id)
    (hprune : pruneFacets { t.without own with states := states } = .ok t') :
    Untouched env id t t' := by
  refine ⟨readGraph_removed hc hne hprune, ?_, ?_⟩
  · cases hprune
    exact hstates
  · cases hprune
    exact ftsOf_without hc.unit_ids hne

theorem DeleteEnds.untouched {own : NonEmptyText} {r : Finish × Bool} {n n' : Nat}
    (h : DeleteEnds env own t n r t' n') (hc : Catalog env t) (hne : id ≠ own.text) :
    Untouched env id t t' := by
  cases h with
  | ended read live fts rows put prune =>
    obtain ⟨hprev, -⟩ := readState_spec hc.encoded read
    obtain rfl := removeRows_eq hc.coherent.references fts rows
    have hstates := put.stateOf_other id (by rwa [hprev])
    obtain ⟨m, rfl, -⟩ := put.states hc.encoded
    exact untouched_removed _ hc.coherent hne hstates prune
  | nothing read dead fts rows prune =>
    obtain rfl := removeRows_eq hc.coherent.references fts rows
    exact untouched_removed t.states hc.coherent hne rfl prune

end Tables

section Operations

variable {env : Env} {op : Op} {answer : Except Err Answer} {store store' : Store} {own id : String}

/-- One operation leaves every other resource as it was. -/
theorem Performed.untouched (h : Performed env store op answer store')
    (hc : Catalog env store.committed) (hown : op.target = some own) (hne : id ≠ own) :
    Untouched env id store.committed store'.committed := by
  cases h with
  | failed same => exact same ▸ .refl _
  | snapshot same => exact same ▸ .refl _
  | refused same => exact same ▸ .refl _
  | @published _ batch _ _ _ _ _ _ _ _ _ verb prepared read wrote put draws =>
    have htarget : op.target = some batch.resource.resourceId.text := by
      rcases verb with ⟨_, _, rfl, -⟩ | ⟨rfl, -⟩ <;> rfl
    obtain rfl := Option.some.inj (hown.symm.trans htarget)
    obtain ⟨hp, rfl⟩ := preflight_ok prepared
    exact untouched_published hc hp read (draws ▸ wrote) (draws ▸ put) hne
  | @removed _ e _ _ _ _ _ _ _ _ _ verb live read current fts rows put prune reread =>
    have htarget : op.target = some e.state.resourceId.text := by
      rcases verb with ⟨rfl, -⟩ | ⟨rfl, -⟩ <;> rfl
    obtain rfl := Option.some.inj (hown.symm.trans htarget)
    obtain ⟨hprev, -⟩ := readState_spec hc.encoded read
    obtain rfl := removeRows_eq hc.coherent.references fts rows
    have hstates := put.stateOf_other id (by rwa [hprev])
    obtain ⟨m, rfl, -⟩ := put.states hc.encoded
    exact untouched_removed _ hc.coherent hne hstates prune
  | @deleted _ own' _ _ _ verb ends =>
    have htarget : op.target = some own'.text := by
      rcases verb with ⟨rfl, -⟩ | ⟨rfl, -⟩ <;> rfl
    obtain rfl := Option.some.inj (hown.symm.trans htarget)
    exact ends.untouched hc hne
  | rebuilt => cases hown

theorem Performed.read_unchanged (h : Performed env store (.readSnapshot id) answer store') :
    store'.committed = store.committed := by
  generalize hop : Op.readSnapshot id = op at h
  cases h with
  | failed same => exact same
  | snapshot same => exact same
  | refused same => exact same
  | published verb => rcases verb with ⟨_, _, rfl, -⟩ | ⟨rfl, -⟩ <;> cases hop
  | removed verb => rcases verb with ⟨rfl, -⟩ | ⟨rfl, -⟩ <;> cases hop
  | deleted verb => rcases verb with ⟨rfl, -⟩ | ⟨rfl, -⟩ <;> cases hop
  | rebuilt => cases hop

/-- An operation on one resource, whatever its outcome, changes nothing of any other. -/
theorem isolated {events : List Event} (h : History env events store) (op : Op)
    (faults : Faults Err) (hown : op.target = some own) (hne : id ≠ own) :
    ((op.event env faults store).after.exportGraph env noFaults id).1 =
        (store.exportGraph env noFaults id).1 ∧
      stateOf (op.event env faults store).after.committed id = stateOf store.committed id ∧
      (∀ other : NonEmptyText, other.text = id →
        readState other (op.event env faults store).after.committed =
          readState other store.committed) ∧
      ftsOf (op.event env faults store).after.committed id = ftsOf store.committed id := by
  obtain ⟨hidle, hc⟩ := h.catalog
  have hresult := perform_result env faults store op hidle
  have hsame := hresult.performed.untouched hc hown hne
  refine ⟨?_, hsame.state, ?_, hsame.fts⟩
  · show (Store.exportGraph env noFaults id (op.perform env faults store).2).1 = _
    rw [Store.exportGraph_eq hresult.idle, Store.exportGraph_eq hidle]
    exact hsame.graph
  · rintro other rfl
    have hfind := hsame.state
    unfold stateOf at hfind
    unfold readState Op.event
    rw [hfind]

theorem isolated_note :
    ftsOf ((Op.deleteResource "draft").event sampleEnv noFaults
        (emptyStore.after creation)).after.committed "note" =
      ftsOf (emptyStore.after creation).committed "note" :=
  have history : History sampleEnv [emptyStore.event creation] (emptyStore.after creation) :=
    .step .start creation noFaults
  (isolated history (.deleteResource "draft") noFaults
    (show (Op.deleteResource "draft").target = some "draft" from rfl) (by decide)).2.2.2

end Operations

end MDRack
