import MDRack.Sqlite.Invariant
import MDRack.Lib.FreshVersion

/-!
# Histories of the publication store

A history is the sequence of operations of any number of clients on one store: each operation is
one transaction, so every interleaving is some order of whole operations, each under its own
faults.

Principal result: `no_lost_update` — conditional operations act on exactly the state they expect,
every change of a state is one that the resource never had before, and a stale expectation is
never applied.
-/

namespace MDRack

open Checks Transaction FreshVersion

/-- One operation of a history. -/
structure Event where
  op : Op
  before : Store
  answer : Except Err Answer
  after : Store

/-- The events of a history from an empty store, latest first, and the store they lead to. -/
inductive History (env : Env) : List Event → Store → Prop
  | start : History env [] (Conn.idle Tables.empty 0)
  | step {events : List Event} {store : Store} (h : History env events store) (op : Op)
      (faults : Faults Err) :
      History env (⟨op, store, (op.perform env faults store).1, (op.perform env faults store).2⟩ ::
        events) (op.perform env faults store).2

/-- A conditional operation reported that it was applied. -/
def Event.applied (e : Event) : Prop := ∃ state, e.answer = .ok (.publication ⟨true, state⟩)

/-- The event created the resource, or published, withdrew or deleted it. -/
def Event.installs (e : Event) (id : NonEmptyText) : Prop :=
  match e.op with
  | .compareAndPublish batch _ => e.applied ∧ batch.resource.resourceId = id
  | .withdrawIfCurrent resourceId _ => e.applied ∧ resourceId = id.text
  | .deleteIfCurrent resourceId _ => e.applied ∧ resourceId = id.text
  | .replaceResource batch => (∃ a, e.answer = .ok a) ∧ batch.resource.resourceId = id
  | .deleteResource resourceId => (∃ a, e.answer = .ok a) ∧ resourceId = id.text ∧
      ∃ state, readState id e.before.committed = .ok state ∧ state.live
  | .deleteLiveResource resourceId => (∃ a, e.answer = .ok a) ∧ resourceId = id.text ∧
      ∃ state, readState id e.before.committed = .ok state ∧ state.live
  | _ => False

/-- The token of a state that was read. -/
def stateToken : Except Err PublicationState → Option NonEmptyText
  | .ok state => state.binding.map (·.stateToken)
  | .error _ => none

/-- The publication state of one resource as a version stamped with fresh tokens. -/
def publicationVersion (env : Env) (id : NonEmptyText) :
    Versioned Store (Except Err PublicationState) NonEmptyText where
  version store := readState id store.committed
  draws store := store.draws
  token := stateToken
  stamp := env.uuid
  stamp_injective := env.uuid_injective

/-- Equal states carry the same token. -/
theorem stateToken_of_beq {a b : PublicationState} (h : a == b) :
    stateToken (.ok a) = stateToken (.ok b) := by
  obtain ⟨aid, abinding⟩ := a
  obtain ⟨bid, bbinding⟩ := b
  have hbinding : (abinding == bbinding) = true := by
    have : (aid == bid && abinding == bbinding) = true := h
    rw [Bool.and_eq_true] at this
    exact this.2
  cases abinding with
  | none =>
    cases bbinding with
    | none => rfl
    | some y => cases hbinding
  | some x =>
    cases bbinding with
    | none => cases hbinding
    | some y =>
      have hxy : (x == y) = true := hbinding
      obtain ⟨xs, xl, xt, xn, xloc⟩ := x
      obtain ⟨ys, yl, yt, yn, yloc⟩ := y
      have hparts : (xs == ys && (xl == yl && (xt == yt && (xn == yn && xloc == yloc)))) = true := hxy
      simp only [Bool.and_eq_true, beq_iff_eq] at hparts
      simp only [stateToken, Option.map_some, hparts.2.2.1]

section Steps

variable {env : Env} {t t' : Tables} {n n' : Nat} {previous : PublicationState}
  {status : PublicationStatus} {batch : Option PreparedResourceBatch} {b : PublicationBinding}
  {metadata : String}

/-- A put decides the state of its own resource and of no other. -/
theorem Put.read_after (h : Put env previous status batch t n t' n' b metadata)
    (hids : (t.states.map (·.resourceId)).Nodup) (hv : ∀ row ∈ t.states, row.Encoded)
    (id : NonEmptyText) :
    readState id t' = if id = previous.resourceId then .ok ⟨id, some b⟩ else readState id t := by
  obtain ⟨m, rfl, -⟩ := h.states hv
  split
  · rename_i hid
    subst hid
    exact readState_of_row (upserted_ids hids) (mem_upserted.mpr (.inl rfl))
  · rename_i hid
    have hne : (stateRow previous.resourceId b m).resourceId ≠ id.text :=
      fun heq => hid (NonEmptyText.ext_text heq.symm)
    unfold readState
    simp only [find?_upserted hne]

/-- A put stamps the state of its own resource and keeps every other. -/
theorem Put.step (store store' : Store)
    (h : Put env previous status batch t n t' store'.draws b metadata)
    (hids : (t.states.map (·.resourceId)).Nodup) (hv : ∀ row ∈ t.states, row.Encoded)
    (hstates : t.states = store.committed.states) (hstates' : store'.committed.states = t'.states)
    (hn : n = store.draws) (id : NonEmptyText) :
    if id = previous.resourceId then (publicationVersion env id).Stamped store store'
    else readState id store'.committed = readState id store.committed := by
  have hread := h.read_after hids hv id
  split
  · rename_i hid
    obtain ⟨k, hle, hlt, htoken⟩ := h.token
    rw [if_pos hid] at hread
    rw [hn] at hle
    refine ⟨k, hle, hlt, ?_⟩
    change stateToken (readState id store'.committed) = some (env.uuid k)
    rw [readState_congr hstates', hread, ← htoken]
    rfl
  · rename_i hid
    rw [if_neg hid] at hread
    rw [readState_congr hstates', hread, readState_congr hstates]

theorem rebuilt_read (t : Tables) (fts : List FtsRow) (id : NonEmptyText) :
    readState id { t with fts := fts } = readState id t := rfl

theorem prune_states (h : pruneFacets t = .ok t') : t'.states = t.states := by
  cases h
  rfl

theorem remove_states {id : String} {t₁ t₂ : Tables} (hfts : deleteFts id t = .ok t₁)
    (hrows : deleteResourceRow id t₁ = .ok t₂) : t₂.states = t.states := by
  cases hfts
  cases hrows
  rfl

/-- Deletion stamps a live state of its resource and keeps every other state. -/
theorem DeleteEnds.step {own : NonEmptyText} {r : Finish × Bool} (store store' : Store)
    (h : DeleteEnds env own store.committed store.draws r t' n') (ht : store'.committed = t')
    (hn : store'.draws = n') (hc : Catalog env store.committed) (id : NonEmptyText) :
    (readState id store'.committed = readState id store.committed ∧
      ¬ (id = own ∧ ∃ state, readState id store.committed = .ok state ∧ state.live)) ∨
      (publicationVersion env id).Stamped store store' := by
  cases h with
  | ended read live fts rows put prune =>
    obtain ⟨hprev, -⟩ := readState_spec hc.encoded read
    have hstates := remove_states fts rows
    rw [← hn] at put
    rw [← ht] at prune
    have hstep := put.step store store' (hstates ▸ hc.state_ids) (hstates ▸ hc.encoded)
      hstates (prune_states prune) rfl id
    rw [hprev] at hstep
    split at hstep
    · exact .inr hstep
    · rename_i hid
      exact .inl ⟨hstep, fun hlive => hid hlive.1⟩
  | nothing read dead fts rows prune =>
    rw [← ht] at prune
    refine .inl ⟨readState_congr ((prune_states prune).trans (remove_states fts rows)), ?_⟩
    rintro ⟨rfl, state, hstate, hlive⟩
    rw [read] at hstate
    cases hstate
    rw [dead] at hlive
    cases hlive

/-- Every operation keeps or stamps the state of a resource, and stamps what it installs. -/
theorem Performed.version {op : Op} {answer : Except Err Answer} {store store' : Store}
    (h : Performed env store op answer store') (hc : Catalog env store.committed)
    (id : NonEmptyText) :
    (readState id store'.committed = readState id store.committed ∨
      (publicationVersion env id).Stamped store store') ∧
      (Event.installs ⟨op, store, answer, store'⟩ id →
        (publicationVersion env id).Stamped store store') := by
  cases h with
  | failed same =>
    refine ⟨.inl (by rw [same]), fun hi => ?_⟩
    cases op <;> simp [Event.installs, Event.applied] at hi
  | snapshot same => exact ⟨.inl (by rw [same]), fun hi => hi.elim⟩
  | refused same expected =>
    refine ⟨.inl (by rw [same]), fun hi => ?_⟩
    cases op <;> simp [Event.installs, Event.applied, Op.expected] at hi expected
  | published verb prepared read wrote put draws =>
    obtain ⟨hp, rfl⟩ := preflight_ok prepared
    obtain ⟨hw, -⟩ := writeGraph_written hp hc.coherent wrote
    obtain ⟨hprev, -⟩ := readState_spec hc.encoded read
    have hstep := put.step store store' (hw.states ▸ hc.state_ids) (hw.states ▸ hc.encoded)
      hw.states rfl draws id
    rw [hprev] at hstep
    split at hstep
    · exact ⟨.inr hstep, fun _ => hstep⟩
    · rename_i hid
      refine ⟨.inl hstep, fun hi => absurd ?_ hid⟩
      rcases verb with ⟨e, state, rfl, -⟩ | ⟨rfl, -⟩
      · exact hi.2.symm
      · exact hi.2.symm
  | removed verb live read current fts rows put prune reread =>
    obtain ⟨hprev, -⟩ := readState_spec hc.encoded read
    have hstates := remove_states fts rows
    have hstep := put.step store store' (hstates ▸ hc.state_ids) (hstates ▸ hc.encoded)
      hstates (prune_states prune) rfl id
    rw [hprev] at hstep
    split at hstep
    · exact ⟨.inr hstep, fun _ => hstep⟩
    · rename_i hid
      refine ⟨.inl hstep, fun hi => absurd ?_ hid⟩
      rcases verb with ⟨rfl, -⟩ | ⟨rfl, -⟩
      · exact NonEmptyText.ext_text hi.2.symm
      · exact NonEmptyText.ext_text hi.2.symm
  | deleted verb ends =>
    rcases ends.step store store' rfl rfl hc id with ⟨hkept, hother⟩ | hstamped
    · refine ⟨.inl hkept, fun hi => absurd ?_ hother⟩
      rcases verb with ⟨rfl, -⟩ | ⟨rfl, -⟩
      · exact ⟨NonEmptyText.ext_text hi.2.1.symm, hi.2.2⟩
      · exact ⟨NonEmptyText.ext_text hi.2.1.symm, hi.2.2⟩
    · exact ⟨.inr hstamped, fun _ => hstamped⟩
  | rebuilt fts => exact ⟨.inl (by rw [fts, rebuilt_read]), fun hi => hi.elim⟩

/-- A conditional operation that is applied finds the state it expects and installs another. -/
theorem Performed.conditional {op : Op} {answer : Except Err Answer} {store store' : Store}
    (h : Performed env store op answer store') {x : ExpectedPublication}
    (hx : op.expected = some x) (happlied : Event.applied ⟨op, store, answer, store'⟩) :
    (∃ state, readState x.state.resourceId store.committed = .ok state ∧ state == x.state) ∧
      Event.installs ⟨op, store, answer, store'⟩ x.state.resourceId := by
  obtain ⟨new, hnew⟩ := happlied
  simp only at hnew
  subst hnew
  cases h with
  | published verb prepared read wrote put draws =>
    rcases verb with ⟨e, state, rfl, hid, hcurrent, -⟩ | ⟨rfl, -⟩
    · cases hx
      exact ⟨⟨_, by rw [hid]; exact read, hcurrent⟩, ⟨⟨_, rfl⟩, hid.symm⟩⟩
    · cases hx
  | removed verb live read current =>
    rcases verb with ⟨rfl, -⟩ | ⟨rfl, -⟩
    · cases hx
      exact ⟨⟨_, read, current⟩, ⟨⟨_, rfl⟩, rfl⟩⟩
    · cases hx
      exact ⟨⟨_, read, current⟩, ⟨⟨_, rfl⟩, rfl⟩⟩
  | deleted verb =>
    rcases verb with ⟨rfl, -⟩ | ⟨rfl, -⟩ <;> cases hx

/-- A snapshot is what was stored. -/
theorem Performed.snapshot_read {op : Op} {answer : Except Err Answer} {store store' : Store}
    (h : Performed env store op answer store') {snapshot : ResourceSnapshot}
    (hsnapshot : answer = .ok (.snapshot snapshot)) :
    readState snapshot.state.resourceId store.committed = .ok snapshot.state ∧
      readGraph env store.committed snapshot.state.resourceId.text = .ok snapshot.batch := by
  cases h with
  | failed => cases hsnapshot
  | snapshot same state batch =>
    cases hsnapshot
    rw [readState_resourceId state]
    exact ⟨state, batch⟩
  | refused => cases hsnapshot
  | published verb =>
    rcases verb with ⟨_, _, -, -, -, rfl, -⟩ | ⟨-, rfl⟩ <;> cases hsnapshot
  | removed => cases hsnapshot
  | deleted verb =>
    rcases verb with ⟨-, rfl⟩ | ⟨-, rfl⟩ <;> cases hsnapshot
  | rebuilt => cases hsnapshot

/-- An operation that fails or is refused leaves the tables as they were. -/
theorem Performed.unchanged {op : Op} {answer : Except Err Answer} {store store' : Store}
    (h : Performed env store op answer store')
    (hnot : (∃ e, answer = .error e) ∨
      op.expected.isSome ∧ ¬ Event.applied ⟨op, store, answer, store'⟩) :
    store'.committed = store.committed := by
  cases h with
  | failed same => exact same
  | snapshot same => exact same
  | refused same => exact same
  | published verb =>
    rcases hnot with ⟨e, he⟩ | ⟨hexp, hnot⟩
    · cases he
    · rcases verb with ⟨_, state, -, -, -, rfl, -⟩ | ⟨rfl, -⟩
      · exact absurd ⟨state, rfl⟩ hnot
      · cases hexp
  | removed verb =>
    rcases hnot with ⟨e, he⟩ | ⟨-, hnot⟩
    · cases he
    · exact absurd ⟨_, rfl⟩ hnot
  | deleted verb =>
    rcases hnot with ⟨e, he⟩ | ⟨hexp, -⟩
    · cases he
    · rcases verb with ⟨rfl, -⟩ | ⟨rfl, -⟩ <;> cases hexp
  | rebuilt =>
    rcases hnot with ⟨e, he⟩ | ⟨hexp, -⟩
    · cases he
    · cases hexp

end Steps

/-! ## Whole histories -/

section Histories

variable {env : Env} {events later earlier : List Event} {store : Store} {e : Event}

/-- Between operations no transaction is open and the catalog invariant holds. -/
theorem History.catalog (h : History env events store) :
    store.working = none ∧ Catalog env store.committed := by
  induction h with
  | start => exact ⟨rfl, catalog_empty env⟩
  | step h op faults ih =>
    have hresult := perform_result env faults _ op ih.1
    exact ⟨hresult.idle, hresult.performed.catalog ih.2⟩

/-- The stores of a history form a run of versions of each resource. -/
theorem History.run (h : History env events store) (id : NonEmptyText) :
    (publicationVersion env id).Run (store :: events.map (·.before)) := by
  induction h with
  | start =>
    refine .start fun t ht => ?_
    cases ht
  | step h op faults ih =>
    obtain ⟨hidle, hc⟩ := h.catalog
    have hresult := perform_result env faults _ op hidle
    exact .step ih ⟨hresult.draws, (hresult.performed.version hc id).1⟩

/-- What is known of one event of a history. -/
structure EventFacts (env : Env) (e : Event) (earlier : List Event) : Prop where
  past : History env earlier e.before
  catalog : Catalog env e.before.committed
  performed : Performed env e.before e.op e.answer e.after
  draws : e.before.draws ≤ e.after.draws
  idle : e.after.working = none

theorem History.facts (h : History env (later ++ e :: earlier) store) : EventFacts env e earlier := by
  induction later generalizing store with
  | nil =>
    cases h with
    | step h op faults =>
      obtain ⟨hidle, hc⟩ := h.catalog
      have hresult := perform_result env faults _ op hidle
      exact ⟨h, hc, hresult.performed, hresult.draws, hresult.idle⟩
  | cons f rest ih =>
    cases h with
    | step h op faults => exact ih h

/-- The store after an event is where the later events begin. -/
theorem History.after_mem (h : History env (later ++ e :: earlier) store) :
    ∃ stores, store :: later.map (·.before) = stores ++ [e.after] := by
  induction later generalizing store with
  | nil =>
    cases h with
    | step h op faults => exact ⟨[], rfl⟩
  | cons f rest ih =>
    cases h with
    | step h op faults =>
      obtain ⟨stores, hstores⟩ := ih h
      exact ⟨_ :: stores, congrArg _ hstores⟩

/-- After an event that installs a state, no token from before it is current again. -/
theorem History.token_left (h : History env (later ++ e :: earlier) store) {id : NonEmptyText}
    (hi : e.installs id) : ∀ f ∈ later, ∀ s ∈ e.before :: earlier.map (·.before),
      stateToken (readState id f.before.committed) ≠ stateToken (readState id s.committed) := by
  have hfacts := h.facts
  have hstamped := (hfacts.performed.version hfacts.catalog id).2 hi
  obtain ⟨stores, hstores⟩ := h.after_mem
  have hrun := h.run id
  rw [List.map_append, List.map_cons, ← List.cons_append, hstores, List.append_assoc] at hrun
  intro f hf s hs
  refine left_token_never_returns hrun hstamped hs f.before ?_
  rw [← hstores]
  exact List.mem_cons_of_mem _ (List.mem_map.mpr ⟨f, hf, rfl⟩)

/-- An installed state differs from every state the resource had before. -/
theorem History.installs_new (h : History env (later ++ e :: earlier) store) {id : NonEmptyText}
    (hi : e.installs id) : ∃ new, readState id e.after.committed = .ok new ∧
      ∀ s ∈ e.before :: earlier.map (·.before), ∀ old, readState id s.committed = .ok old →
        (old == new) = false := by
  have hfacts := h.facts
  have hstamped := (hfacts.performed.version hfacts.catalog id).2 hi
  have hcatalog := hfacts.performed.catalog hfacts.catalog
  obtain ⟨new, hnew⟩ := readState_total hcatalog.state_ids hcatalog.encoded id
  refine ⟨new, hnew, fun s hs old hold => ?_⟩
  have hne := stamped_token_is_new (hfacts.past.run id) hstamped s hs
  change stateToken (readState id s.committed) ≠ stateToken (readState id e.after.committed) at hne
  rw [hold, hnew] at hne
  by_contra hbeq
  exact hne (stateToken_of_beq (by simpa using hbeq))

/-- Where a conditional operation is applied, the expected token is current. -/
theorem EventFacts.expected_token (hf : EventFacts env e earlier) {x : ExpectedPublication}
    (hx : e.op.expected = some x) (happlied : e.applied) :
    stateToken (readState x.state.resourceId e.before.committed) = stateToken (.ok x.state) ∧
      e.installs x.state.resourceId := by
  obtain ⟨⟨state, hread, hbeq⟩, hi⟩ := hf.performed.conditional hx happlied
  rw [hread]
  exact ⟨stateToken_of_beq hbeq, hi⟩

theorem resourceId_of_beq {a b : PublicationState} (h : a == b) : a.resourceId = b.resourceId := by
  have : (a.resourceId == b.resourceId && a.binding == b.binding) = true := h
  simp only [Bool.and_eq_true, beq_iff_eq] at this
  exact this.1

/-- Two conditional operations that expect one state are not both applied. -/
theorem History.expected_once {between : List Event} {e₁ e₂ : Event}
    (h : History env (later ++ e₂ :: (between ++ e₁ :: earlier)) store)
    {x₁ x₂ : ExpectedPublication} (h₁ : e₁.op.expected = some x₁) (h₂ : e₂.op.expected = some x₂)
    (hsame : x₁.state == x₂.state) : ¬ (e₁.applied ∧ e₂.applied) := by
  rintro ⟨ha₁, ha₂⟩
  have hsplit : History env ((later ++ e₂ :: between) ++ e₁ :: earlier) store := by
    simpa using h
  obtain ⟨htoken₁, hi⟩ := hsplit.facts.expected_token h₁ ha₁
  obtain ⟨htoken₂, -⟩ := h.facts.expected_token h₂ ha₂
  refine hsplit.token_left hi e₂ (by simp) e₁.before List.mem_cons_self ?_
  rw [htoken₁, resourceId_of_beq hsame, htoken₂, stateToken_of_beq hsame]

/-- A snapshot older than an installed state is never the expectation of an applied operation. -/
theorem History.snapshot_stale {between middle : List Event} {e₀ e₁ e₂ : Event}
    (h : History env (later ++ e₂ :: (between ++ e₁ :: (middle ++ e₀ :: earlier))) store)
    {snapshot : ResourceSnapshot} {x : ExpectedPublication}
    (hsnapshot : e₀.answer = .ok (.snapshot snapshot)) (hx : e₂.op.expected = some x)
    (hsame : x.state == snapshot.state) (hi : e₁.installs snapshot.state.resourceId) :
    ¬ e₂.applied := by
  intro happlied
  have hfirst : History env ((later ++ e₂ :: (between ++ e₁ :: middle)) ++ e₀ :: earlier) store := by
    simpa using h
  have hmid : History env ((later ++ e₂ :: between) ++ e₁ :: (middle ++ e₀ :: earlier)) store := by
    simpa using h
  obtain ⟨htoken, -⟩ := h.facts.expected_token hx happlied
  have hread := (hfirst.facts.performed.snapshot_read hsnapshot).1
  refine hmid.token_left hi e₂ (by simp) e₀.before (by simp) ?_
  rw [hread, ← resourceId_of_beq hsame, htoken, stateToken_of_beq hsame]

/-- No lost update and no ABA, for every history of any number of clients under any faults. -/
theorem no_lost_update (h : History env events store) :
    (∀ e ∈ events, ∀ x, e.op.expected = some x → e.applied →
      ∃ state, readState x.state.resourceId e.before.committed = .ok state ∧ state == x.state) ∧
    (∀ e ∈ events, ((∃ error, e.answer = .error error) ∨ (e.op.expected.isSome ∧ ¬ e.applied)) →
      e.after.committed = e.before.committed) ∧
    (∀ later e earlier, events = later ++ e :: earlier → ∀ id, e.installs id →
      ∃ new, readState id e.after.committed = .ok new ∧
        ∀ s ∈ e.before :: earlier.map (·.before), ∀ old, readState id s.committed = .ok old →
          (old == new) = false) ∧
    (∀ later e₂ between e₁ earlier, events = later ++ e₂ :: (between ++ e₁ :: earlier) →
      ∀ x₁ x₂, e₁.op.expected = some x₁ → e₂.op.expected = some x₂ → x₁.state == x₂.state →
        ¬ (e₁.applied ∧ e₂.applied)) ∧
    ∀ later e₂ between e₁ middle e₀ earlier,
      events = later ++ e₂ :: (between ++ e₁ :: (middle ++ e₀ :: earlier)) →
      ∀ snapshot x, e₀.answer = .ok (.snapshot snapshot) → e₁.installs snapshot.state.resourceId →
        e₂.op.expected = some x → x.state == snapshot.state → ¬ e₂.applied := by
  have hfacts : ∀ e ∈ events, ∃ earlier, EventFacts env e earlier := by
    intro e he
    obtain ⟨later, earlier, rfl⟩ := List.append_of_mem he
    exact ⟨earlier, h.facts⟩
  refine ⟨?_, ?_, ?_, ?_, ?_⟩
  · intro e he x hx happlied
    obtain ⟨_, hf⟩ := hfacts e he
    exact (hf.performed.conditional hx happlied).1
  · intro e he hnot
    obtain ⟨_, hf⟩ := hfacts e he
    exact hf.performed.unchanged hnot
  · rintro later e earlier rfl id hi
    exact h.installs_new hi
  · rintro later e₂ between e₁ earlier rfl x₁ x₂ h₁ h₂ hsame
    exact h.expected_once h₁ h₂ hsame
  · rintro later e₂ between e₁ middle e₀ earlier rfl snapshot x hsnapshot hi hx hsame
    exact h.snapshot_stale hsnapshot hx hsame hi

end Histories

/-- Two clients create one resource, both expecting that it does not exist. -/
def creation : Op := .compareAndPublish sampleBatch (.of (.neverCreated sampleResource.resourceId))

def emptyStore : Store := Conn.idle Tables.empty 0

/-- The event of an operation without faults. -/
def Store.event (store : Store) (op : Op) : Event :=
  ⟨op, store, (op.perform sampleEnv noFaults store).1, store.after op⟩

theorem no_lost_update_two_creations :
    ¬ ((emptyStore.event creation).applied ∧ ((emptyStore.after creation).event creation).applied) :=
  have history : History sampleEnv
      [(emptyStore.after creation).event creation, emptyStore.event creation]
      ((emptyStore.after creation).after creation) := .step (.step .start creation noFaults) creation noFaults
  (no_lost_update history).2.2.2.1 [] _ [] _ [] rfl
    (.of (.neverCreated sampleResource.resourceId)) (.of (.neverCreated sampleResource.resourceId))
    rfl rfl (by decide)

end MDRack
