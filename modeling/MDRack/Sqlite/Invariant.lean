import MDRack.Sqlite.Publication

/-!
# The catalog invariant

`Catalog` couples the graph tables with the publication states: a resource row exists exactly for
a published state and agrees with its binding, and live states have distinct sources.

Principal results: `perform_result` — what a public operation can do under any faults;
`Performed.catalog` — every operation keeps the invariant.
-/

namespace MDRack

open Checks Transaction

structure Catalog (env : Env) (t : Tables) : Prop where
  coherent : Coherent env t
  used : facetsUsed t
  state_ids : (t.states.map (·.resourceId)).Nodup
  encoded : ∀ row ∈ t.states, row.Encoded
  published : ∀ row ∈ t.states, row.status = .published →
    ∃ r ∈ t.resources, r.resourceId = row.resourceId
  bound : ∀ r ∈ t.resources, ∃ row ∈ t.states, row.resourceId = r.resourceId ∧
    row.status = .published ∧ row.sourceNamespace = r.sourceNamespace ∧
    row.sourceLocatorKind = r.locatorKind ∧ row.sourceLocatorJson = r.locatorJson
  live_source : ∀ a ∈ t.states, ∀ b ∈ t.states, a.live → b.live → a.liveSource = b.liveSource →
    a.resourceId = b.resourceId

theorem catalog_empty (env : Env) : Catalog env Tables.empty := by
  refine ⟨coherent_empty env, ?_, ?_, ?_, ?_, ?_, ?_⟩ <;> simp [Tables.empty, facetsUsed]

section Steps

variable {env : Env} {t t₁ t₂ t₃ t' : Tables} {n n' : Nat} {previous : PublicationState}
  {status : PublicationStatus} {batch : Option PreparedResourceBatch} {b : PublicationBinding}
  {metadata : String}

/-- The graph invariant does not read the state rows. -/
theorem Coherent.with_states (h : Coherent env t) (states : List StateRow) :
    Coherent env { t with states := states } where
  resource_ids := h.resource_ids
  representation_ids := h.representation_ids
  unit_ids := h.unit_ids
  space_ids := h.space_ids
  facet_ids := h.facet_ids
  references := h.references
  stored row hrow := by
    obtain ⟨p, hp, hr, hs⟩ := h.stored row hrow
    exact ⟨p, hp, hr, hs.with_states states⟩
  fts := h.fts

/-- The metadata column of a written state is canonical. -/
theorem Put.metadata_encoded (h : Put env previous status batch t n t' n' b metadata)
    (hv : ∀ row ∈ t.states, row.Encoded) : ∃ m : Mapping, metadata = canonicalJson m := by
  have hmetadata := h.metadata_eq
  unfold stateMetadata at hmetadata
  split at hmetadata
  · cases hmetadata
    exact ⟨.empty, by decide⟩
  · rename_i rb _
    cases hmetadata
    exact ⟨rb.resource.metadata, rfl⟩
  · simp only [getOr_ok, Option.map_eq_some_iff] at hmetadata
    obtain ⟨row, hrow, rfl⟩ := hmetadata
    obtain ⟨_, _, m, rfl⟩ := hv row (List.mem_of_find?_eq_some hrow)
    exact ⟨m, rfl⟩

/-- A written state is one encoded row, put in place of the old one. -/
theorem Put.states (h : Put env previous status batch t n t' n' b metadata)
    (hv : ∀ row ∈ t.states, row.Encoded) : ∃ m,
      t' = { t with states := upserted (stateRow previous.resourceId b m) t.states } ∧
      ((stateRow previous.resourceId b m).live → ∀ s ∈ t.states,
        s.resourceId ≠ previous.resourceId.text → s.live →
        s.liveSource ≠ (stateRow previous.resourceId b m).liveSource) := by
  obtain ⟨m, rfl⟩ := h.metadata_encoded hv
  exact ⟨m, upsertState_ok h.upsert⟩

/-- State rows after a put stay well-formed. -/
theorem Put.state_rows (h : Put env previous status batch t n t' n' b metadata)
    (hids : (t.states.map (·.resourceId)).Nodup) (hv : ∀ row ∈ t.states, row.Encoded)
    (hlive : ∀ a ∈ t.states, ∀ b ∈ t.states, a.live → b.live → a.liveSource = b.liveSource →
      a.resourceId = b.resourceId) :
    (t'.states.map (·.resourceId)).Nodup ∧ (∀ row ∈ t'.states, row.Encoded) ∧
      ∀ a ∈ t'.states, ∀ b ∈ t'.states, a.live → b.live → a.liveSource = b.liveSource →
        a.resourceId = b.resourceId := by
  obtain ⟨m, rfl, hunique⟩ := h.states hv
  refine ⟨upserted_ids hids, ?_, ?_⟩
  · intro row hrow
    rcases mem_upserted.mp hrow with rfl | ⟨hrow, -⟩
    · exact ⟨_, _, _, rfl⟩
    · exact hv row hrow
  · intro x hx y hy hxl hyl hsource
    rcases mem_upserted.mp hx with rfl | ⟨hx, hxid⟩ <;> rcases mem_upserted.mp hy with rfl | ⟨hy, hyid⟩
    · rfl
    · exact absurd hsource.symm (hunique hxl y hy hyid hyl)
    · exact absurd hsource (hunique hyl x hx hxid hxl)
    · exact hlive x hx y hy hxl hyl hsource

theorem Catalog.published_step {p : Prepared} {u : Unit} (hc : Catalog env t)
    (hp : IsPrepared env p) (hread : readState p.batch.resource.resourceId t = .ok previous)
    (hwrite : Ends (writeGraph env p) t n u t₁ n)
    (hput : Put env previous .published (some p.batch) t₁ n t' n' b metadata) :
    Catalog env t' := by
  obtain ⟨hw, -⟩ := writeGraph_written hp hc.coherent hwrite
  obtain ⟨hprev, -⟩ := readState_spec hc.encoded hread
  obtain ⟨hids, henc, hlive⟩ := hput.state_rows (hw.states ▸ hc.state_ids) (hw.states ▸ hc.encoded)
    (hw.states ▸ hc.live_source)
  obtain ⟨m, rfl, -⟩ := hput.states (hw.states ▸ hc.encoded)
  have hid : (stateRow previous.resourceId b m).resourceId = p.resourceValues.resourceId := by
    rw [hp.resourceId, ← hprev]
    rfl
  have hsource := hput.source
  simp only [stateSource, Except.ok.injEq, Prod.mk.injEq] at hsource
  refine ⟨hw.coherent.with_states _, hw.used, hids, henc, ?_, ?_, hlive⟩
  · intro row hrow hstatus
    rw [hw.resources]
    rcases mem_upserted.mp hrow with rfl | ⟨hrow, hne⟩
    · exact ⟨p.resourceValues, List.mem_append_right _ (by simp), hid.symm⟩
    · rw [hw.states] at hrow
      obtain ⟨r, hr, hrid⟩ := hc.published row hrow hstatus
      refine ⟨r, List.mem_append_left _ (List.mem_filter.mpr ⟨hr, ?_⟩), hrid⟩
      rw [hid] at hne
      rw [hrid]
      simpa using hne
  · intro r hr
    rw [hw.resources] at hr
    rcases List.mem_append.mp hr with hr | hr
    · obtain ⟨hr, hrid⟩ := List.mem_filter.mp hr
      obtain ⟨row, hrow, hrowid, hrest⟩ := hc.bound r hr
      refine ⟨row, mem_upserted.mpr (.inr ⟨by rw [hw.states]; exact hrow, ?_⟩), hrowid, hrest⟩
      rw [hrowid, hid]
      simpa using hrid
    · rw [List.mem_singleton] at hr
      refine ⟨_, mem_upserted.mpr (.inl rfl), by rw [hr]; exact hid, hput.status_eq, ?_⟩
      rw [hr, hp.resource]
      simp only [stateRow, resourceRow, ← hsource.1, ← hsource.2, and_self]

/-- Rows of one resource go, its state row changes to one that is not published. -/
theorem Catalog.removed_step {id : NonEmptyText} (hc : Catalog env t)
    (hread : readState id t = .ok previous) (hfts : deleteFts id.text t = .ok t₁)
    (hrows : deleteResourceRow id.text t₁ = .ok t₂)
    (hput : Put env previous status none t₂ n t₃ n' b metadata)
    (hstatus : status ≠ .published) (hprune : pruneFacets t₃ = .ok t') : Catalog env t' := by
  obtain rfl := removeRows_eq hc.coherent.references hfts hrows
  obtain ⟨hprev, -⟩ := readState_spec hc.encoded hread
  obtain ⟨hids, henc, hlive⟩ := hput.state_rows hc.state_ids hc.encoded hc.live_source
  obtain ⟨m, rfl, -⟩ := hput.states hc.encoded
  obtain ⟨hcoherent, hused⟩ := ((hc.coherent.without id.text).with_states _).prune hprune
  have hid : (stateRow previous.resourceId b m).resourceId = id.text := by rw [hprev]; rfl
  cases hprune
  refine ⟨hcoherent, hused, hids, henc, ?_, ?_, hlive⟩
  · intro row hrow hpub
    rcases mem_upserted.mp hrow with rfl | ⟨hrow, hne⟩
    · exact absurd (hput.status_eq.symm.trans hpub) hstatus
    · obtain ⟨r, hr, hrid⟩ := hc.published row hrow hpub
      refine ⟨r, List.mem_filter.mpr ⟨hr, ?_⟩, hrid⟩
      rw [hid] at hne
      rw [hrid]
      simpa using hne
  · intro r hr
    obtain ⟨hr, hrid⟩ := List.mem_filter.mp hr
    obtain ⟨row, hrow, hrowid, hrest⟩ := hc.bound r hr
    refine ⟨row, mem_upserted.mpr (.inr ⟨hrow, ?_⟩), hrowid, hrest⟩
    rw [hrowid, hid]
    simpa using hrid

/-- A state that is not live has no rows to lose. -/
theorem Catalog.dropped_step {id : NonEmptyText} (hc : Catalog env t)
    (hread : readState id t = .ok previous) (hdead : previous.live = false)
    (hfts : deleteFts id.text t = .ok t₁) (hrows : deleteResourceRow id.text t₁ = .ok t₂)
    (hprune : pruneFacets t₂ = .ok t') : Catalog env t' := by
  obtain rfl := removeRows_eq hc.coherent.references hfts hrows
  obtain ⟨hcoherent, hused⟩ := (hc.coherent.without id.text).prune hprune
  have hne : ∀ row ∈ t.states, row.status = .published → row.resourceId ≠ id.text := by
    intro row hrow hpub hid
    obtain ⟨rid, rb, m, rfl⟩ := hc.encoded row hrow
    have heq : rid = id := NonEmptyText.ext_text hid
    subst heq
    rw [readState_of_row hc.state_ids hrow] at hread
    cases hread
    have hstatus : rb.status = .published := hpub
    simp [PublicationState.live, hstatus] at hdead
  cases hprune
  refine ⟨hcoherent, hused, hc.state_ids, hc.encoded, ?_, ?_, hc.live_source⟩
  · intro row hrow hpub
    obtain ⟨r, hr, hrid⟩ := hc.published row hrow hpub
    refine ⟨r, List.mem_filter.mpr ⟨hr, ?_⟩, hrid⟩
    rw [hrid]
    simpa using hne row hrow hpub
  · intro r hr
    exact hc.bound r (List.mem_of_mem_filter hr)

theorem DeleteEnds.catalog {id : NonEmptyText} {r : Finish × Bool}
    (h : DeleteEnds env id t n r t' n') (hc : Catalog env t) : Catalog env t' := by
  cases h with
  | ended read live fts rows put prune =>
    exact hc.removed_step read fts rows put (by decide) prune
  | nothing read dead fts rows prune => exact hc.dropped_step read dead fts rows prune

theorem rebuiltFts_perm (t : Tables) : (rebuiltFts t).Perm (expectedFts t.units) :=
  (orderBy_perm _ t.units).filterMap _

theorem Catalog.rebuilt_step (hc : Catalog env t) :
    Catalog env { t with fts := rebuiltFts t } where
  coherent := by
    have h := hc.coherent
    refine ⟨h.resource_ids, h.representation_ids, h.unit_ids, h.space_ids, h.facet_ids,
      h.references, ?_, rebuiltFts_perm t⟩
    intro row hrow
    obtain ⟨p, hp, hr, hs⟩ := h.stored row hrow
    exact ⟨p, hp, hr, hs.resource, hs.representations, hs.units, hs.embeddings, hs.facets,
      hs.joined, hs.spaces⟩
  used := hc.used
  state_ids := hc.state_ids
  encoded := hc.encoded
  published := hc.published
  bound := hc.bound
  live_source := hc.live_source

/-- `rebuild_fts_index` replaces the full-text rows. -/
theorem rebuildBody_ends {r : Finish × Nat} (h : Ends rebuildBody t n r t' n') :
    t' = { t with fts := rebuiltFts t } ∧ r = (.commit, (rebuiltFts t).length) ∧ n' = n := by
  simp only [rebuildBody, ends_execute_bind, ends_query_bind, ends_forEach_bind,
    ends_failurePoint_bind, ends_pure, Except.ok.injEq] at h
  obtain ⟨t₁, rfl, rows, rfl, t₂, hinsert, count, rfl, rfl, rfl, rfl⟩ := h
  have hfts := ftsColumn.append_all (fun t row t' h => (Except.ok.inj h).symm) hinsert
  subst hfts
  exact ⟨rfl, rfl, rfl⟩

end Steps

/-! ## Operations -/

/-- The operation's own expectation, for conditional operations. -/
def Op.expected : Op → Option ExpectedPublication
  | .compareAndPublish _ e => some e
  | .withdrawIfCurrent _ e => some e
  | .deleteIfCurrent _ e => some e
  | _ => none

/-- What one operation on an idle store can do. -/
inductive Performed (env : Env) (store : Store) : Op → Except Err Answer → Store → Prop
  | failed {op : Op} {e : Err} {store' : Store} (same : store'.committed = store.committed) :
      Performed env store op (.error e) store'
  | snapshot {id : NonEmptyText} {value : ResourceSnapshot} {store' : Store}
      (same : store'.committed = store.committed)
      (state : readState id store.committed = .ok value.state)
      (batch : readGraph env store.committed id.text = .ok value.batch) :
      Performed env store (.readSnapshot id.text) (.ok (.snapshot value)) store'
  | refused {op : Op} {e : ExpectedPublication} {previous : PublicationState} {store' : Store}
      (same : store'.committed = store.committed) (expected : op.expected = some e)
      (read : readState e.state.resourceId store.committed = .ok previous)
      (differs : (previous == e.state) = false) :
      Performed env store op (.ok (.publication ⟨false, previous⟩)) store'
  | published {op : Op} {batch : PreparedResourceBatch} {p : Prepared} {previous : PublicationState}
      {answer : Answer} {t₁ : Tables} {n : Nat} {u : Unit} {b : PublicationBinding}
      {metadata : String} {store' : Store}
      (verb : (∃ e state, op = .compareAndPublish batch e ∧ e.state.resourceId = batch.resource.resourceId ∧
          previous == e.state ∧ answer = .publication ⟨true, state⟩ ∧
          readState batch.resource.resourceId store'.committed = .ok state) ∨
        (op = .replaceResource batch ∧ answer = .done))
      (prepared : preflight env batch = .ok p)
      (read : readState batch.resource.resourceId store.committed = .ok previous)
      (wrote : Ends (writeGraph env p) store.committed n u t₁ n)
      (put : Put env previous .published (some batch) t₁ n store'.committed store'.draws b metadata)
      (draws : n = store.draws) :
      Performed env store op (.ok answer) store'
  | removed {op : Op} {e : ExpectedPublication} {previous state : PublicationState}
      {status : PublicationStatus} {t₁ t₂ t₃ : Tables} {b : PublicationBinding} {metadata : String}
      {store' : Store}
      (verb : (op = .withdrawIfCurrent e.state.resourceId.text e ∧ status = .liveWithoutProjections) ∨
        (op = .deleteIfCurrent e.state.resourceId.text e ∧ status = .deleted))
      (live : e.create = false)
      (read : readState e.state.resourceId store.committed = .ok previous)
      (current : previous == e.state)
      (fts : deleteFts e.state.resourceId.text store.committed = .ok t₁)
      (rows : deleteResourceRow e.state.resourceId.text t₁ = .ok t₂)
      (put : Put env previous status none t₂ store.draws t₃ store'.draws b metadata)
      (prune : pruneFacets t₃ = .ok store'.committed)
      (reread : readState e.state.resourceId store'.committed = .ok state) :
      Performed env store op (.ok (.publication ⟨true, state⟩)) store'
  | deleted {op : Op} {id : NonEmptyText} {existed : Bool} {answer : Answer} {store' : Store}
      (verb : (op = .deleteResource id.text ∧ answer = .done) ∨
        (op = .deleteLiveResource id.text ∧ answer = .existed existed))
      (ends : DeleteEnds env id store.committed store.draws (.commit, existed) store'.committed
        store'.draws) :
      Performed env store op (.ok answer) store'
  | rebuilt {store' : Store}
      (fts : store'.committed = { store.committed with fts := rebuiltFts store.committed }) :
      Performed env store .rebuildFtsIndex (.ok (.count (rebuiltFts store.committed).length)) store'

/-- The result of an operation on an idle store: idle again, draws not going back. -/
structure Result (env : Env) (store : Store) (op : Op) (result : Except Err Answer × Store) : Prop where
  idle : result.2.working = none
  draws : store.draws ≤ result.2.draws
  performed : Performed env store op result.1 result.2

section Perform

variable {env : Env} {faults : Faults Err} {store : Store} {op : Op}

theorem result_failed {e : Err} (hidle : store.working = none) :
    Result env store op (.error e, store) := ⟨hidle, Nat.le_refl _, .failed rfl⟩

/-- A body's outcome as the outcome of the operation that runs it. -/
theorem transaction_result {α : Type} {body : Body (Finish × α)} {answer : α → Answer}
    {onError : Err → Err} (hidle : store.working = none)
    (hrollback : ∀ a t n, Ends body store.committed store.draws (.rollback, a) t n →
      ∀ store' : Store, store'.committed = store.committed →
        Performed env store op (.ok (answer a)) store')
    (hcommit : ∀ a (store' : Store),
      Ends body store.committed store.draws (.commit, a) store'.committed store'.draws →
        Performed env store op (.ok (answer a)) store') :
    Result env store op (store.transaction faults body answer onError) := by
  have houtcome := transact_outcome faults body store hidle
  unfold Store.transaction
  generalize transact faults body store = result at houtcome ⊢
  obtain ⟨r, store'⟩ := result
  cases houtcome with
  | failed same idle draws => exact ⟨idle, draws, .failed same⟩
  | rolledBack same idle draws ends => exact ⟨idle, draws, hrollback _ _ _ ends _ same⟩
  | committed idle draws ends => exact ⟨idle, draws, hcommit _ _ ends⟩

theorem removeSafely_result {resourceId : String} {e : ExpectedPublication} (delete : Bool)
    (hidle : store.working = none)
    (hop : op = if delete then .deleteIfCurrent resourceId e else .withdrawIfCurrent resourceId e) :
    Result env store op (store.removeSafely env faults resourceId e delete) := by
  unfold Store.removeSafely
  split
  · exact result_failed hidle
  · rename_i hcond
    rw [not_or, Bool.not_eq_true, not_not] at hcond
    obtain ⟨hcreate, rfl⟩ := hcond
    simp only [Store.exclusive, hidle]
    have hexpected : op.expected = some e := by
      rw [hop]
      cases delete <;> rfl
    refine transaction_result hidle ?_ ?_
    · intro a t n hends store' hsame
      cases removeBody_ends hends with
      | refused read differs => exact .refused hsame hexpected read differs
    · intro a store' hends
      cases removeBody_ends hends with
      | applied read current fts rows put prune reread =>
        refine .removed ?_ hcreate read current fts rows put prune reread
        cases delete
        · exact .inl ⟨hop, rfl⟩
        · exact .inr ⟨hop, rfl⟩

theorem deleteAny_result {resourceId : String} {answer : Bool → Answer}
    (hidle : store.working = none)
    (hop : (op = .deleteResource resourceId ∧ answer = fun _ => .done) ∨
      (op = .deleteLiveResource resourceId ∧ answer = .existed)) :
    Result env store op (store.deleteAny env faults resourceId answer) := by
  simp only [Store.deleteAny, Store.exclusive, hidle]
  split
  · exact result_failed hidle
  · rename_i id hid
    obtain rfl := requireNonEmpty_ok hid
    refine transaction_result hidle ?_ ?_
    · intro a t n hends
      cases deleteBody_ends hends
    · intro a store' hends
      refine .deleted ?_ (deleteBody_ends hends)
      rcases hop with ⟨rfl, rfl⟩ | ⟨rfl, rfl⟩
      · exact .inl ⟨rfl, rfl⟩
      · exact .inr ⟨rfl, rfl⟩

/-- `ResourceSnapshot(state, batch)` holds what it was made of. -/
theorem ResourceSnapshot.make_ok {state : PublicationState} {batch : Option PreparedResourceBatch}
    {value : ResourceSnapshot} (h : ResourceSnapshot.make state batch = .ok value) :
    value.state = state ∧ value.batch = batch := by
  unfold ResourceSnapshot.make at h
  split at h
  · split at h <;> cases h
    exact ⟨rfl, rfl⟩
  · cases h

theorem snapshotBody_ends {id : NonEmptyText} {t t' : Tables} {n n' : Nat}
    {r : Finish × ResourceSnapshot} (h : Ends (snapshotBody env id) t n r t' n') :
    r.1 = .rollback ∧ readState id t = .ok r.2.state ∧ readGraph env t id.text = .ok r.2.batch := by
  simp only [snapshotBody, ends_query_bind, ends_failurePoint_bind, ends_ofExcept_bind,
    ends_pure] at h
  obtain ⟨state, hstate, batch, hbatch, value, hvalue, rfl, -⟩ := h
  obtain ⟨hs, hb⟩ := ResourceSnapshot.make_ok hvalue
  exact ⟨rfl, by rw [hs]; exact hstate, by rw [hb]; exact hbatch⟩

theorem perform_result (env : Env) (faults : Faults Err) (store : Store) (op : Op)
    (hidle : store.working = none) : Result env store op (op.perform env faults store) := by
  cases op with
  | readSnapshot resourceId =>
    simp only [Op.perform]
    split
    · exact result_failed hidle
    · rename_i id hid
      obtain rfl := requireNonEmpty_ok hid
      simp only [Store.exclusive, hidle]
      refine transaction_result hidle ?_ ?_
      · intro a t n hends store' hsame
        obtain ⟨-, hstate, hbatch⟩ := snapshotBody_ends hends
        exact .snapshot hsame hstate hbatch
      · intro a store' hends
        cases (snapshotBody_ends hends).1
  | compareAndPublish batch e =>
    simp only [Op.perform]
    split
    · exact result_failed hidle
    rename_i p hp
    obtain ⟨-, rfl⟩ := preflight_ok hp
    split
    · exact result_failed hidle
    rename_i hsame
    rw [not_not] at hsame
    simp only [Store.exclusive, hidle]
    refine transaction_result hidle ?_ ?_
    · intro a t n hends store' hkept
      cases publishBody_ends hends with
      | refused hexp read differs =>
        cases hexp
        exact .refused hkept rfl (by rw [hsame]; exact read) differs
    · intro a store' hends
      cases publishBody_ends hends with
      | applied read current wrote put reread =>
        exact .published (.inl ⟨e, _, rfl, hsame, current e rfl, rfl, reread⟩) hp read wrote put rfl
  | withdrawIfCurrent resourceId e => exact removeSafely_result false hidle rfl
  | deleteIfCurrent resourceId e => exact removeSafely_result true hidle rfl
  | replaceResource batch =>
    simp only [Op.perform]
    split
    · rename_i p hp _
      obtain ⟨-, rfl⟩ := preflight_ok hp
      refine transaction_result hidle ?_ ?_
      · intro a t n hends store' hkept
        cases publishBody_ends hends with
        | refused hexp read differs => cases hexp
      · intro a store' hends
        cases publishBody_ends hends with
        | applied read current wrote put reread =>
          exact .published (.inr ⟨rfl, rfl⟩) hp read wrote put rfl
    · exact result_failed hidle
  | deleteResource resourceId => exact deleteAny_result hidle (.inl ⟨rfl, rfl⟩)
  | deleteLiveResource resourceId => exact deleteAny_result hidle (.inr ⟨rfl, rfl⟩)
  | rebuildFtsIndex =>
    simp only [Op.perform, Store.exclusive, hidle]
    refine transaction_result hidle ?_ ?_
    · intro a t n hends
      cases (rebuildBody_ends hends).2.1
    · intro a store' hends
      obtain ⟨hfts, hcount, -⟩ := rebuildBody_ends hends
      cases hcount
      exact .rebuilt hfts

/-- Every operation keeps the catalog invariant. -/
theorem Performed.catalog {answer : Except Err Answer} {store' : Store}
    (h : Performed env store op answer store') (hc : Catalog env store.committed) :
    Catalog env store'.committed := by
  cases h with
  | failed same => rwa [same]
  | snapshot same => rwa [same]
  | refused same => rwa [same]
  | published _ prepared read wrote put _ =>
    obtain ⟨hp, rfl⟩ := preflight_ok prepared
    exact hc.published_step hp read wrote put
  | removed verb _ read _ fts rows put prune _ =>
    refine hc.removed_step read fts rows put ?_ prune
    rcases verb with ⟨-, rfl⟩ | ⟨-, rfl⟩ <;> decide
  | deleted _ ends => exact ends.catalog hc
  | rebuilt fts =>
    rw [fts]
    exact hc.rebuilt_step

end Perform

end MDRack
