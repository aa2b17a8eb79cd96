import MDRack.Sqlite.Admission
import MDRack.Sqlite.Client

/-!
# Store round trip (`export_graph`)

What was published is read back in its normal form, and the normal form can be published again.

Principal result: `round_trip` — for every history that ends with a publication.
-/

namespace MDRack

open Checks Transaction Sorting

/-- The read session of `export_graph`. -/
def exportBody (env : Env) (resourceId : String) :
    Body (Finish × Option PreparedResourceBatch) := do
  let batch ← query fun t => readGraph env t resourceId
  pure (.rollback, batch)

/-- `export_graph`; it joins a session that is open already. -/
def Store.exportGraph (env : Env) (faults : Faults Err) (resourceId : String) (store : Store) :
    Except Err (Option PreparedResourceBatch) × Store :=
  match store.working with
  | some _ =>
    let result := (exportBody env resourceId).run faults store
    (result.1.map (·.2), result.2)
  | none => transact faults (exportBody env resourceId) store

/-- The operation as an event of its own. -/
def Op.event (env : Env) (faults : Faults Err) (store : Store) (op : Op) : Event :=
  ⟨op, store, (op.perform env faults store).1, (op.perform env faults store).2⟩

/-- The event published the batch. -/
def Event.wrote (e : Event) (batch : PreparedResourceBatch) : Prop :=
  match e.op with
  | .replaceResource b => b = batch ∧ e.answer = .ok .done
  | .compareAndPublish b _ => b = batch ∧ e.applied
  | _ => False

/-- Each part in the order of its key. -/
structure PreparedResourceBatch.Ordered (b : PreparedResourceBatch) : Prop where
  representations : InOrder (fun p => columnsKey p.orderKey) b.representations
  units : InOrder (fun u => columnsKey u.orderKey) b.units
  spaces : InOrder (fun s => columnsKey s.orderKey) b.spaces
  vectors : InOrder (fun v => columnsKey v.orderKey) b.vectors
  facets : InOrder (fun f => (facetValues f).orderKey) b.facets

theorem PreparedResourceBatch.normalForm_ordered (b : PreparedResourceBatch) :
    b.normalForm.Ordered :=
  ⟨orderBy_inOrder _ _, orderBy_inOrder _ _, orderBy_inOrder _ _, orderBy_inOrder _ _,
    sortOn_inOrder _ _⟩

section Exporting

variable {env : Env} {store : Store} {id : String}

theorem exportBody_ends {t t' : Tables} {n n' : Nat}
    {r : Finish × Option PreparedResourceBatch} (h : Ends (exportBody env id) t n r t' n') :
    r.1 = .rollback ∧ readGraph env t id = .ok r.2 := by
  simp only [exportBody, ends_query_bind, ends_pure] at h
  obtain ⟨batch, hread, rfl, -⟩ := h
  exact ⟨rfl, hread⟩

/-- An export gives the graph that is stored. -/
theorem Store.exportGraph_ok {faults : Faults Err} {batch : Option PreparedResourceBatch}
    (hidle : store.working = none) (h : (store.exportGraph env faults id).1 = .ok batch) :
    readGraph env store.committed id = .ok batch := by
  unfold Store.exportGraph at h
  rw [hidle] at h
  have houtcome := transact_outcome faults (exportBody env id) store hidle
  simp only at h
  rw [h] at houtcome
  cases houtcome with
  | rolledBack same idle draws ends => exact (exportBody_ends ends).2
  | committed idle draws ends => cases (exportBody_ends ends).1

theorem Store.exportGraph_of {batch : Option PreparedResourceBatch} (hidle : store.working = none)
    (h : readGraph env store.committed id = .ok batch) :
    (store.exportGraph env noFaults id).1 = .ok batch := by
  have hends : Ends (exportBody env id) store.committed store.draws (.rollback, batch)
      store.committed store.draws := by
    simp only [exportBody, ends_query_bind, ends_pure]
    exact ⟨batch, h, rfl, trivial, trivial⟩
  obtain ⟨c', htransact, -⟩ := transact_of_rollback hends
  unfold Store.exportGraph
  rw [hidle]
  exact congrArg Prod.fst htransact

/-- Without faults an export is a reading of the committed tables. -/
theorem Store.exportGraph_eq (hidle : store.working = none) :
    (store.exportGraph env noFaults id).1 = readGraph env store.committed id := by
  cases hread : readGraph env store.committed id with
  | ok batch => exact Store.exportGraph_of hidle hread
  | error e =>
    have heval : (exportBody env id).eval store.committed store.draws = .error e := by
      unfold exportBody
      rw [show (query _ >>= _ : Body _) = Prog.bind _ _ from rfl, eval_bind]
      simp only [query, Prog.eval, hread]
      rfl
    obtain ⟨c', htransact, -⟩ := transact_of_error heval
    unfold Store.exportGraph
    rw [hidle]
    exact congrArg Prod.fst htransact

/-- Without faults a snapshot is answered. -/
theorem readSnapshot_of {id : NonEmptyText} {state : PublicationState}
    {batch : Option PreparedResourceBatch} (hidle : store.working = none)
    (hstate : readState id store.committed = .ok state)
    (hbatch : readGraph env store.committed id.text = .ok batch)
    (hagree : batch.isSome = state.published)
    (howned : ∀ b ∈ batch, b.resource.resourceId = state.resourceId) :
    ∃ snapshot store', (Op.readSnapshot id.text).perform env noFaults store =
      (.ok (.snapshot snapshot), store') ∧ snapshot.state = state ∧ snapshot.batch = batch := by
  have hmake : ResourceSnapshot.make state batch = .ok ⟨state, batch, hagree, howned⟩ := by
    unfold ResourceSnapshot.make
    rw [dif_pos hagree, dif_pos howned]
  have hends : Ends (snapshotBody env id) store.committed store.draws
      (.rollback, ⟨state, batch, hagree, howned⟩) store.committed store.draws := by
    simp only [snapshotBody, ends_query_bind, ends_failurePoint_bind, ends_ofExcept_bind, ends_pure]
    exact ⟨state, hstate, batch, hbatch, _, hmake, rfl, trivial, trivial⟩
  obtain ⟨c', htransact, -⟩ := transact_of_rollback hends
  refine ⟨⟨state, batch, hagree, howned⟩, c', ?_, rfl, rfl⟩
  simp only [Op.perform, requireNonEmpty_text, Store.exclusive, hidle, Store.transaction, htransact]
  rfl

/-- Without faults a body that ends in a commit is a publication. -/
theorem replaceResource_of {batch : PreparedResourceBatch} {p : Prepared} {r : PublicationResult}
    {t' : Tables} {n' : Nat} (hidle : store.working = none) (hp : preflight env batch = .ok p)
    (h : Ends (publishBody env p none) store.committed store.draws (.commit, r) t' n') :
    ((Op.replaceResource batch).perform env noFaults store).1 = .ok .done := by
  obtain ⟨c', htransact, -⟩ := transact_of_commit h
  simp only [Op.perform, hp, hidle, Store.transaction, htransact]
  rfl

theorem compareAndPublish_of {batch : PreparedResourceBatch} {p : Prepared}
    {expected : ExpectedPublication} {r : PublicationResult} {t' : Tables} {n' : Nat}
    (hidle : store.working = none) (hp : preflight env batch = .ok p)
    (hid : expected.state.resourceId = batch.resource.resourceId)
    (h : Ends (publishBody env p (some expected)) store.committed store.draws (.commit, r) t' n') :
    ((Op.compareAndPublish batch expected).perform env noFaults store).1 = .ok (.publication r) := by
  obtain ⟨c', htransact, -⟩ := transact_of_commit h
  simp only [Op.perform, hp, hid, ne_eq, not_true_eq_false, ↓reduceIte, Store.exclusive, hidle,
    Store.transaction, htransact]
  rfl

end Exporting

/-! ## Sources over a history -/

section Sources

variable {env : Env} {events : List Event} {store store' : Store} {op : Op}
  {answer : Except Err Answer}

theorem DeleteEnds.sources {id : NonEmptyText} {r : Finish × Bool} {t t' : Tables} {n n' : Nat}
    (h : DeleteEnds env id t n r t' n') (hc : Catalog env t)
    (hsources : (t.resources.map (·.sourceKey)).Nodup) : (t'.resources.map (·.sourceKey)).Nodup := by
  cases h with
  | ended read live fts rows put prune =>
    obtain rfl := removeRows_eq hc.coherent.references fts rows
    obtain ⟨m, rfl, -⟩ := put.states hc.encoded
    rw [← Except.ok.inj prune]
    exact Table.nodup_map_filter _ hsources
  | nothing read dead fts rows prune =>
    obtain rfl := removeRows_eq hc.coherent.references fts rows
    rw [← Except.ok.inj prune]
    exact Table.nodup_map_filter _ hsources

theorem Performed.sources (h : Performed env store op answer store')
    (hc : Catalog env store.committed)
    (hsources : (store.committed.resources.map (·.sourceKey)).Nodup) :
    (store'.committed.resources.map (·.sourceKey)).Nodup := by
  cases h with
  | failed same => rwa [same]
  | snapshot same => rwa [same]
  | refused same => rwa [same]
  | published verb prepared read wrote put draws =>
    obtain ⟨hp, rfl⟩ := preflight_ok prepared
    obtain ⟨hw, -⟩ := writeGraph_written hp hc.coherent wrote
    obtain ⟨m, hput, -⟩ := put.states (hw.states ▸ hc.encoded)
    have hwritten := writeGraph_sources hp hc.coherent hsources wrote
    rw [hput]
    exact hwritten
  | removed verb live read current fts rows put prune reread =>
    obtain rfl := removeRows_eq hc.coherent.references fts rows
    obtain ⟨m, rfl, -⟩ := put.states hc.encoded
    rw [← Except.ok.inj prune]
    exact Table.nodup_map_filter _ hsources
  | deleted verb ends => exact ends.sources hc hsources
  | rebuilt fts => rwa [fts]

/-- Stored resources have distinct source columns. -/
theorem History.sources (h : History env events store) :
    (store.committed.resources.map (·.sourceKey)).Nodup := by
  induction h with
  | start => exact List.nodup_nil
  | step h op faults ih =>
    obtain ⟨hidle, hc⟩ := h.catalog
    exact (perform_result env faults _ op hidle).performed.sources hc ih

end Sources

/-! ## The round trip -/

section RoundTrip

variable {env : Env} {events : List Event} {store : Store} {e : Event}
  {batch : PreparedResourceBatch}

/-- A graph that reads back is that of a stored batch. -/
theorem Coherent.graph_stored {t : Tables} {id : String} {b : PreparedResourceBatch} (hc : Coherent env t)
    (h : readGraph env t id = .ok (some b)) : ∃ p, IsPrepared env p ∧ Stored t p ∧
      p.resourceValues.resourceId = id ∧ b = p.batch.normalForm := by
  by_cases hrow : ∃ r ∈ t.resources, r.resourceId = id
  · obtain ⟨r, hr, rfl⟩ := hrow
    obtain ⟨p, hp, rfl, hs⟩ := hc.stored r hr
    rw [readGraph_normalForm hp hs hc.space_ids, Except.ok.injEq, Option.some.injEq] at h
    exact ⟨p, hp, hs, rfl, h.symm⟩
  · rw [readGraph_missing fun r hr hid => hrow ⟨r, hr, hid⟩] at h
    cases h

/-- What a publication leaves in the store. -/
structure Published (env : Env) (t : Tables) (p : Prepared) (b : PublicationBinding) : Prop where
  prepared : IsPrepared env p
  stored : Stored t p
  storable : Storable p
  read : readState p.batch.resource.resourceId t = .ok ⟨p.batch.resource.resourceId, some b⟩
  status : b.status = .published
  state : StateStorable p.batch.resource.resourceId b.lifecycleId b.sourceNamespace
    b.sourceLocator.kind
  sourceNamespace : p.batch.resource.sourceNamespace = b.sourceNamespace
  locator : p.batch.resource.locator = b.sourceLocator

theorem Published.of_put {t t₁ t' : Tables} {p : Prepared} {b : PublicationBinding}
    {previous : PublicationState} {metadata : String} {n m : Nat} {u : Unit}
    (hc : Catalog env t) (hp : preflight env batch = .ok p)
    (hread : readState batch.resource.resourceId t = .ok previous)
    (hwrote : Ends (writeGraph env p) t n u t₁ n)
    (hput : Put env previous .published (some batch) t₁ n t' m b metadata) :
    Published env t' p b := by
  obtain ⟨hprepared, rfl⟩ := preflight_ok hp
  obtain ⟨hw, -⟩ := writeGraph_written hprepared hc.coherent hwrote
  obtain ⟨hprev, -⟩ := readState_spec hc.encoded hread
  have hordinals : (p.batch.units.map (·.ordinalKey)).Nodup := by
    simp only [preflight, bind_ok, require_ok, exists_const] at hp
    obtain ⟨-, -, hordinals, -⟩ := hp
    exact hordinals
  have hstate := hput.read_after (hw.states ▸ hc.state_ids) (hw.states ▸ hc.encoded)
    p.batch.resource.resourceId
  rw [if_pos hprev.symm] at hstate
  have hsource := hput.source
  simp only [stateSource, Except.ok.injEq, Prod.mk.injEq] at hsource
  have hstorable := hput.storable
  rw [hprev] at hstorable
  obtain ⟨m, rfl, -⟩ := hput.states (hw.states ▸ hc.encoded)
  exact ⟨hprepared, hw.stored.with_states _, storable_of_write hordinals hprepared hwrote, hstate,
    hput.status_eq, hstorable, hsource.1, hsource.2⟩

/-- What an event published is stored afterwards. -/
theorem Performed.wrote_published {op : Op} {answer : Except Err Answer} {store' : Store}
    (h : Performed env store op answer store') (hc : Catalog env store.committed)
    (hw : Event.wrote ⟨op, store, answer, store'⟩ batch) :
    ∃ p b, preflight env batch = .ok p ∧ p.batch = batch ∧ Published env store'.committed p b := by
  cases h with
  | failed =>
    cases op <;> simp [Event.wrote, Event.applied] at hw
  | snapshot => exact hw.elim
  | refused =>
    cases op <;> simp [Event.wrote, Event.applied] at hw
  | published verb prepared read wrote put =>
    have hbatch : (Event.mk op store (.ok _) store').wrote batch := hw
    rcases verb with ⟨_, _, rfl, -⟩ | ⟨rfl, -⟩
    · obtain ⟨rfl, -⟩ := hbatch
      exact ⟨_, _, prepared, (preflight_ok prepared).2, .of_put hc prepared read wrote put⟩
    · obtain ⟨rfl, -⟩ := hbatch
      exact ⟨_, _, prepared, (preflight_ok prepared).2, .of_put hc prepared read wrote put⟩
  | removed verb => rcases verb with ⟨rfl, -⟩ | ⟨rfl, -⟩ <;> exact hw.elim
  | deleted verb => rcases verb with ⟨rfl, -⟩ | ⟨rfl, -⟩ <;> exact hw.elim
  | rebuilt => exact hw.elim

theorem History.published (h : History env (e :: events) store) (hw : e.wrote batch) :
    ∃ p b, preflight env batch = .ok p ∧ p.batch = batch ∧ Published env store.committed p b := by
  have hafter : store = e.after := by
    cases h
    rfl
  subst hafter
  have hsplit : History env ([] ++ e :: events) e.after := h
  have hfacts := hsplit.facts
  exact hfacts.performed.wrote_published hfacts.catalog hw

/-- The stored graph is the normal form of the batch. -/
theorem History.graph_written (h : History env (e :: events) store) (hw : e.wrote batch) :
    readGraph env store.committed batch.resource.resourceId.text = .ok (some batch.normalForm) := by
  obtain ⟨p, b, -, rfl, hpub⟩ := h.published hw
  obtain ⟨-, hc⟩ := h.catalog
  rw [← hpub.prepared.resourceId]
  exact readGraph_normalForm hpub.prepared hpub.stored hc.coherent.space_ids

/-- A published graph can be published again in its normal form. -/
theorem Published.again {p : Prepared} {b : PublicationBinding} {t : Tables} {n : Nat}
    (h : Published env t p b) (hc : Catalog env t)
    (hsources : (t.resources.map (·.sourceKey)).Nodup) (htokens : env.TokensPositive)
    (hp : preflight env p.batch = .ok p) (expected : Option ExpectedPublication)
    (hcurrent : ∀ x ∈ expected,
      (PublicationState.mk p.batch.resource.resourceId (some b)) == x.state) :
    ∃ q, preflight env p.batch.normalForm = .ok q ∧ ∃ state t' n',
      Ends (publishBody env q expected) t n (.commit, ⟨true, state⟩) t' n' := by
  have hsame := h.prepared.valid.normalForm_same
  obtain ⟨q, hq⟩ := hsame.preflight hp
  obtain ⟨hprepared, hbatch⟩ := preflight_ok hq
  rw [← hbatch] at hsame
  have hadmitted := h.stored.admits_same h.prepared hprepared hc.coherent hsources h.storable hsame
  have hresource : q.batch.resource = p.batch.resource := hsame.resource
  have hlive : PublicationState.live ⟨p.batch.resource.resourceId, some b⟩ := by
    simp [PublicationState.live, h.status]
  refine ⟨q, hq, ?_⟩
  apply publishBody_of (b := b) hc hprepared hadmitted htokens <;> rw [hresource]
  · exact h.read
  · exact hlive
  · exact h.state
  · exact h.sourceNamespace
  · exact h.locator
  · exact hcurrent

/-- Reading back what was published, and publishing it again. -/
theorem round_trip (h : History env (e :: events) store) (hw : e.wrote batch) :
    (batch.normalForm.Ordered ∧ SameGraph batch batch.normalForm ∧
      batch.normalForm.normalForm = batch.normalForm) ∧
    ((store.exportGraph env noFaults batch.resource.resourceId.text).1 = .ok (some batch.normalForm) ∧
      ∀ faults graph, (store.exportGraph env faults batch.resource.resourceId.text).1 = .ok graph →
        graph = some batch.normalForm) ∧
    ((∃ snapshot, ((Op.readSnapshot batch.resource.resourceId.text).perform env noFaults store).1 =
        .ok (.snapshot snapshot) ∧ snapshot.batch = some batch.normalForm) ∧
      ∀ faults snapshot, ((Op.readSnapshot batch.resource.resourceId.text).perform env faults store).1 =
        .ok (.snapshot snapshot) → snapshot.batch = some batch.normalForm) ∧
    (∀ (op : Op) faults, (op.event env faults store).wrote batch.normalForm →
      ((op.event env faults store).after.exportGraph env noFaults batch.resource.resourceId.text).1 =
        .ok (some batch.normalForm)) ∧
    (env.TokensPositive →
      ((Op.replaceResource batch.normalForm).event env noFaults store).wrote batch.normalForm ∧
      ∃ state, readState batch.resource.resourceId store.committed = .ok state ∧
        ((Op.compareAndPublish batch.normalForm (.of state)).event env noFaults store).wrote
          batch.normalForm) := by
  obtain ⟨hidle, hc⟩ := h.catalog
  have hgraph := h.graph_written hw
  obtain ⟨p, b, hp, rfl, hpub⟩ := h.published hw
  have hvalid := hpub.prepared.valid
  have hagree : (some p.batch.normalForm).isSome =
      PublicationState.published ⟨p.batch.resource.resourceId, some b⟩ := by
    simp [PublicationState.published, hpub.status]
  refine ⟨⟨p.batch.normalForm_ordered, hvalid.normalForm_same, hvalid.normalForm_normalForm⟩,
    ⟨Store.exportGraph_of hidle hgraph, ?_⟩, ⟨?_, ?_⟩, ?_, ?_⟩
  · intro faults graph hexport
    have hread := Store.exportGraph_ok hidle hexport
    rw [hgraph, Except.ok.injEq] at hread
    exact hread.symm
  · obtain ⟨snapshot, store', hperform, -, hbatch⟩ := readSnapshot_of hidle hpub.read hgraph hagree
      fun g hg => by
        rw [← Option.some.inj hg]
        rfl
    exact ⟨snapshot, congrArg Prod.fst hperform, hbatch⟩
  · intro faults snapshot hanswer
    have hperformed := (perform_result env faults store
      (.readSnapshot p.batch.resource.resourceId.text) hidle).performed
    have hid := hperformed.snapshot_resource hanswer
    obtain ⟨-, hread⟩ := hperformed.snapshot_read hanswer
    rw [hid, hgraph, Except.ok.injEq] at hread
    exact hread.symm
  · intro op faults hwrote
    have hnext : History env (op.event env faults store :: e :: events)
        (op.event env faults store).after := .step h op faults
    have hread := hnext.graph_written hwrote
    rw [hvalid.normalForm_normalForm] at hread
    exact Store.exportGraph_of hnext.catalog.1 hread
  · intro htokens
    refine ⟨?_, _, hpub.read, ?_⟩
    · obtain ⟨q, hq, state, t', n', hends⟩ := hpub.again hc h.sources htokens hp none
        (by simp)
      exact ⟨rfl, replaceResource_of hidle hq hends⟩
    · obtain ⟨q, hq, state, t', n', hends⟩ := hpub.again hc h.sources htokens hp
        (some (.of ⟨p.batch.resource.resourceId, some b⟩)) (by simp [ExpectedPublication.of])
      exact ⟨rfl, state, compareAndPublish_of hidle hq rfl hends⟩

theorem sampleEnv_tokens : sampleEnv.TokensPositive := by
  intro n
  have hhead : (sampleEnv.uuid n).text.toList.head? = some 'u' := by
    simp [sampleEnv, sampleToken]
  unfold positiveLength
  rw [hhead]
  decide

theorem round_trip_created :
    ((emptyStore.after creation).exportGraph sampleEnv noFaults "note").1 =
        .ok (some sampleBatch.normalForm) ∧
      ((Op.replaceResource sampleBatch.normalForm).event sampleEnv noFaults
        (emptyStore.after creation)).wrote sampleBatch.normalForm :=
  have history : History sampleEnv [emptyStore.event creation] (emptyStore.after creation) :=
    .step .start creation noFaults
  have applied : isApplied (emptyStore.event creation).answer = true := by decide +kernel
  have wrote : (emptyStore.event creation).wrote sampleBatch := ⟨rfl, isApplied_eq applied⟩
  have trip := round_trip history wrote
  ⟨trip.2.1.1, (trip.2.2.2.2 sampleEnv_tokens).1⟩

end RoundTrip

end MDRack
