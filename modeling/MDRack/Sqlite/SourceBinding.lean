import MDRack.Sqlite.Isolation

/-!
# The source binding of a lifecycle (`_put_state`, `_check_source_identity`)

A live state keeps its lifecycle and the new source must equal the bound one, but numbers are
compared by value: a locator in another notation passes, and its canonical text is stored.  Only
the digest of a stored resource row tells the notations apart, and a withdrawal removes that row.

Principal results: `source_fixed` — where no publication changes the notation, a lifecycle keeps
its source over a whole history; `source_fixed_fails` — a withdrawal and a publication of `1.0`
for `1` change it.
-/

namespace MDRack

open Checks Transaction FreshVersion

/-- The batch that the operation publishes. -/
def Op.publishes : Op → Option PreparedResourceBatch
  | .compareAndPublish batch _ => some batch
  | .replaceResource batch => some batch
  | _ => none

/-- The columns that bind a state to its source. -/
def PublicationBinding.source (b : PublicationBinding) : String × String × String :=
  (b.sourceNamespace.text, b.sourceLocator.kind.text, canonicalJson b.sourceLocator.payload)

/-- States of one lifecycle have one source. -/
def SourceFixed (id : NonEmptyText) (stores : List Store) : Prop :=
  ∀ s ∈ stores, ∀ s' ∈ stores, ∀ b b', readState id s.committed = .ok ⟨id, some b⟩ →
    readState id s'.committed = .ok ⟨id, some b'⟩ → b.lifecycleId = b'.lifecycleId →
    b.source = b'.source

/-- No publication onto a live state passes the comparison with its bound locator in another
notation; where the resource is published, the digests would have to agree too. -/
def Event.SameNotation (env : Env) (e : Event) : Prop :=
  ∀ batch ∈ e.op.publishes, ∀ b,
    readState batch.resource.resourceId e.before.committed =
      .ok ⟨batch.resource.resourceId, some b⟩ →
    b.status ≠ .deleted →
    (b.status = .published →
      locatorFingerprint env (canonicalJson batch.resource.locator.payload) =
        locatorFingerprint env (canonicalJson b.sourceLocator.payload)) →
    batch.resource.locator.payload == b.sourceLocator.payload →
    canonicalJson batch.resource.locator.payload = canonicalJson b.sourceLocator.payload

/-- Lifecycle and source of a state that was read. -/
def lifecycleSource : Except Err PublicationState → Option (NonEmptyText × String × String × String)
  | .ok state => state.binding.map fun b => (b.lifecycleId, b.source)
  | .error _ => none

/-- The source of one resource as a version stamped with fresh lifecycles. -/
def lifecycleVersion (env : Env) (id : NonEmptyText) :
    Versioned Store (Option (NonEmptyText × String × String × String)) NonEmptyText where
  version store := lifecycleSource (readState id store.committed)
  draws store := store.draws
  token v := v.map (·.1)
  stamp := env.uuid
  stamp_injective := env.uuid_injective

section Steps

variable {env : Env} {t t₁ t' : Tables} {n n' m : Nat} {previous : PublicationState}
  {status : PublicationStatus} {batch : Option PreparedResourceBatch} {b : PublicationBinding}
  {metadata : String} {op : Op} {answer : Except Err Answer} {store store' : Store}

theorem PublicationState.status_of_live {state : PublicationState} {old : PublicationBinding}
    (hold : state.binding = some old) (h : state.live) : old.status ≠ .deleted := by
  intro hdeleted
  simp [PublicationState.live, hold, hdeleted] at h

/-- A written state keeps the source of a live lifecycle where the notation is kept. -/
theorem Put.source_kept (h : Put env previous status batch t n t' n' b metadata)
    {old : PublicationBinding} (hold : previous.binding = some old) (hlive : previous.live)
    (hspelling : ∀ batch' ∈ batch, batch'.resource.locator.payload == old.sourceLocator.payload →
      canonicalJson batch'.resource.locator.payload = canonicalJson old.sourceLocator.payload) :
    b.source = old.source := by
  have hkeeps := h.keeps
  have hsource := h.source
  simp only [keepsLiveSource, hold, hlive, Bool.not_true, Bool.false_or, Bool.and_eq_true,
    beq_iff_eq] at hkeeps
  obtain ⟨hns, hlocator⟩ := hkeeps
  have hparts : (b.sourceLocator.kind == old.sourceLocator.kind &&
      b.sourceLocator.payload == old.sourceLocator.payload) = true := hlocator
  rw [Bool.and_eq_true, beq_iff_eq] at hparts
  obtain ⟨hkind, hpayload⟩ := hparts
  have hjson : canonicalJson b.sourceLocator.payload = canonicalJson old.sourceLocator.payload := by
    cases batch with
    | none =>
      simp only [stateSource, hold, Except.ok.injEq, Prod.mk.injEq] at hsource
      rw [hsource.2]
    | some batch' =>
      simp only [stateSource, Except.ok.injEq, Prod.mk.injEq] at hsource
      rw [← hsource.2] at hpayload ⊢
      exact hspelling batch' rfl hpayload
  simp only [PublicationBinding.source, hns, hkind, hjson]

/-- A written state keeps the lifecycle with its source, or begins a new lifecycle. -/
theorem Put.lifecycle_step (h : Put env previous status batch t store.draws t' store'.draws b metadata)
    (hids : (t.states.map (·.resourceId)).Nodup) (hv : ∀ row ∈ t.states, row.Encoded)
    (hstates : t.states = store.committed.states) (hstates' : store'.committed.states = t'.states)
    {id : NonEmptyText} (hread : readState previous.resourceId store.committed = .ok previous)
    (hspelling : ∀ old ∈ previous.binding, previous.live → ∀ batch' ∈ batch,
      batch'.resource.locator.payload == old.sourceLocator.payload →
      canonicalJson batch'.resource.locator.payload = canonicalJson old.sourceLocator.payload) :
    (lifecycleVersion env id).version store' = (lifecycleVersion env id).version store ∨
      (lifecycleVersion env id).Stamped store store' := by
  have hafter := h.read_after hids hv id
  rw [← readState_congr hstates'] at hafter
  by_cases hid : id = previous.resourceId
  · subst hid
    rw [if_pos rfl] at hafter
    cases hlive : previous.live with
    | false =>
      obtain ⟨k, hle, hlt, hlifecycle⟩ := h.lifecycle_new hlive
      refine .inr ⟨k, hle, hlt, ?_⟩
      change (lifecycleSource (readState _ store'.committed)).map (·.1) = some (env.uuid k)
      rw [hafter, ← hlifecycle]
      rfl
    | true =>
      obtain ⟨old, hold⟩ : ∃ old, previous.binding = some old := by
        cases hbinding : previous.binding with
        | none => simp [PublicationState.live, hbinding] at hlive
        | some old => exact ⟨old, rfl⟩
      refine .inl ?_
      change lifecycleSource (readState _ store'.committed) =
        lifecycleSource (readState _ store.committed)
      rw [hafter, hread]
      simp only [lifecycleSource, hold, Option.map_some, h.lifecycle old hold hlive,
        h.source_kept hold hlive (hspelling old hold hlive)]
  · rw [if_neg hid, readState_congr hstates] at hafter
    refine .inl ?_
    change lifecycleSource _ = lifecycleSource _
    rw [hafter]

/-- What the identity checks of a publication say about a resource that is stored. -/
theorem published_digest {p : Prepared} {u : Unit} {old : PublicationBinding} (hc : Catalog env t)
    (hp : IsPrepared env p) (hwrote : Ends (writeGraph env p) t n u t' m)
    (hread : readState p.batch.resource.resourceId t = .ok ⟨p.batch.resource.resourceId, some old⟩)
    (hstatus : old.status = .published) :
    locatorFingerprint env (canonicalJson p.batch.resource.locator.payload) =
      locatorFingerprint env (canonicalJson old.sourceLocator.payload) := by
  have hpublished : PublicationState.published ⟨p.batch.resource.resourceId, some old⟩ := by
    simp [PublicationState.published, hstatus]
  obtain ⟨r, hr, hid⟩ := (hc.row_iff_published hread).mpr hpublished
  obtain ⟨q, b', metadata', hq, rfl, -, hrow, -, -, hlocator⟩ := hc.bound_state hr
  obtain hsame : q.batch.resource.resourceId = p.batch.resource.resourceId :=
    NonEmptyText.ext_text (by rw [← hid, hq.resource]; rfl)
  rw [hsame] at hrow
  rw [readState_of_row hc.state_ids hrow] at hread
  cases hread
  simp only [writeGraph, ends_query_bind] at hwrote
  obtain ⟨_, hcheck, -⟩ := hwrote
  simp only [checkSourceIdentity, bind_ok, require_ok, exists_const] at hcheck
  have hkey := hcheck.1 _ hr (by rw [hid, hp.resourceId])
  rw [hq.resource, hp.resource] at hkey
  have hdigest := (Prod.mk.inj (Prod.mk.inj hkey).2).2
  rw [← hlocator]
  exact hdigest.symm

theorem DeleteEnds.lifecycle_step {own : NonEmptyText} {r : Finish × Bool} (store store' : Store)
    (h : DeleteEnds env own store.committed store.draws r t' n') (ht : store'.committed = t')
    (hn : store'.draws = n') (hc : Catalog env store.committed) (id : NonEmptyText) :
    (lifecycleVersion env id).version store' = (lifecycleVersion env id).version store ∨
      (lifecycleVersion env id).Stamped store store' := by
  cases h with
  | ended read live fts rows put prune =>
    obtain ⟨hprev, -⟩ := readState_spec hc.encoded read
    have hstates := remove_states fts rows
    rw [← hn] at put
    rw [← ht] at prune
    exact put.lifecycle_step (hstates ▸ hc.state_ids) (hstates ▸ hc.encoded) hstates
      (prune_states prune) (by rw [hprev]; exact read) (by simp)
  | nothing read dead fts rows prune =>
    rw [← ht] at prune
    refine .inl ?_
    change lifecycleSource _ = lifecycleSource _
    rw [readState_congr ((prune_states prune).trans (remove_states fts rows))]

/-- An operation keeps the lifecycle of a resource with its source, or begins a new lifecycle. -/
theorem Performed.lifecycle_step (h : Performed env store op answer store')
    (hc : Catalog env store.committed)
    (hspelling : Event.SameNotation env ⟨op, store, answer, store'⟩) (id : NonEmptyText) :
    (lifecycleVersion env id).version store' = (lifecycleVersion env id).version store ∨
      (lifecycleVersion env id).Stamped store store' := by
  have hkept : store'.committed = store.committed →
      (lifecycleVersion env id).version store' = (lifecycleVersion env id).version store := by
    intro hsame
    change lifecycleSource (readState id store'.committed) =
      lifecycleSource (readState id store.committed)
    rw [hsame]
  cases h with
  | failed same => exact .inl (hkept same)
  | snapshot same => exact .inl (hkept same)
  | refused same => exact .inl (hkept same)
  | @published _ batch p previous _ _ _ _ _ _ _ verb prepared read wrote put draws =>
    obtain ⟨hp, rfl⟩ := preflight_ok prepared
    obtain ⟨hw, -⟩ := writeGraph_written hp hc.coherent wrote
    obtain ⟨hprev, -⟩ := readState_spec hc.encoded read
    have hpublishes : op.publishes = some p.batch := by
      rcases verb with ⟨_, _, rfl, -⟩ | ⟨rfl, -⟩ <;> rfl
    apply (draws ▸ put).lifecycle_step (hw.states ▸ hc.state_ids) (hw.states ▸ hc.encoded)
      hw.states rfl (by rw [hprev]; exact read)
    intro old hold hlive batch' hbatch' hequal
    obtain rfl := Option.some.inj hbatch'
    have hread : readState p.batch.resource.resourceId store.committed =
        .ok ⟨p.batch.resource.resourceId, some old⟩ := by
      rw [read, ← hprev, ← Option.mem_def.mp hold]
    exact hspelling p.batch hpublishes old hread (PublicationState.status_of_live hold hlive)
      (fun hstatus => published_digest hc hp wrote hread hstatus) hequal
  | removed verb live read current fts rows put prune reread =>
    obtain ⟨hprev, -⟩ := readState_spec hc.encoded read
    have hstates := remove_states fts rows
    exact put.lifecycle_step (hstates ▸ hc.state_ids) (hstates ▸ hc.encoded) hstates
      (prune_states prune) (by rw [hprev]; exact read) (by simp)
  | deleted verb ends => exact ends.lifecycle_step store store' rfl rfl hc id
  | rebuilt fts =>
    refine .inl ?_
    change lifecycleSource (readState id store'.committed) = _
    rw [fts]
    rfl

end Steps

section Histories

variable {env : Env} {events : List Event} {store : Store}

theorem History.lifecycle_run (h : History env events store)
    (hspelling : ∀ e ∈ events, e.SameNotation env) (id : NonEmptyText) :
    (lifecycleVersion env id).Run (store :: events.map (·.before)) := by
  induction h with
  | start =>
    refine .start fun t ht => ?_
    cases ht
  | step h op faults ih =>
    obtain ⟨hidle, hc⟩ := h.catalog
    have hresult := perform_result env faults _ op hidle
    exact .step (ih fun e he => hspelling e (List.mem_cons_of_mem _ he))
      ⟨hresult.draws, hresult.performed.lifecycle_step hc (hspelling _ List.mem_cons_self) id⟩

/-- Where no publication changes the notation of a locator, a lifecycle keeps its source. -/
theorem source_fixed (h : History env events store)
    (hspelling : ∀ e ∈ events, e.SameNotation env) (id : NonEmptyText) :
    SourceFixed id (store :: events.map (·.before)) := by
  intro s hs s' hs' b b' hread hread' hlifecycle
  have hrun := h.lifecycle_run hspelling id
  have hversion := hrun.versions_of_token hs hs' (by
    change (lifecycleSource (readState id s.committed)).map (·.1) =
      (lifecycleSource (readState id s'.committed)).map (·.1)
    rw [hread, hread']
    exact congrArg some hlifecycle)
  change lifecycleSource (readState id s.committed) = lifecycleSource (readState id s'.committed)
    at hversion
  rw [hread, hread'] at hversion
  exact (Prod.mk.inj (Option.some.inj hversion)).2

theorem SourceFixed.lifecycle {id : NonEmptyText} {stores : List Store} (h : SourceFixed id stores)
    {s s' : Store} (hs : s ∈ stores) (hs' : s' ∈ stores) {l : NonEmptyText}
    {a a' : String × String × String}
    (hsource : lifecycleSource (readState id s.committed) = some (l, a))
    (hsource' : lifecycleSource (readState id s'.committed) = some (l, a')) : a = a' := by
  have hbound : ∀ x : Store, ∀ c, lifecycleSource (readState id x.committed) = some (l, c) →
      ∃ b, readState id x.committed = .ok ⟨id, some b⟩ ∧ b.lifecycleId = l ∧ b.source = c := by
    intro x c hx
    cases hread : readState id x.committed with
    | error e => simp [hread, lifecycleSource] at hx
    | ok state =>
      obtain rfl := readState_resourceId hread
      simp only [hread, lifecycleSource, Option.map_eq_some_iff, Prod.mk.injEq] at hx
      obtain ⟨b, hb, hlifecycle, hsource⟩ := hx
      exact ⟨b, by rw [← hb], hlifecycle, hsource⟩
  obtain ⟨b, hb, hl, rfl⟩ := hbound s a hsource
  obtain ⟨b', hb', hl', rfl⟩ := hbound s' a' hsource'
  exact h s hs s' hs' b b' hb hb' (hl.trans hl'.symm)

end Histories

/-! ## A locator in another notation -/

/-- The sample graph, found on a page. -/
def pagedBatch (payload : Mapping) : PreparedResourceBatch :=
  { sampleBatch with
    resource := { sampleResource with locator := ⟨sampleResource.locator.kind, payload⟩ } }

def pageOne : Mapping := ⟨[("page", .int 1)], by decide +kernel⟩

/-- `True == 1`. -/
def pageTrue : Mapping := ⟨[("page", .bool true)], by decide +kernel⟩

def pagedState : PublicationState :=
  ⟨sampleResource.resourceId, some ⟨.published, sampleToken 0, sampleToken 1,
    sampleResource.sourceNamespace, ⟨sampleResource.locator.kind, pageOne⟩⟩⟩

/-- Publish, withdraw, and publish again with the page in another notation. -/
def pagedOp : Fin 3 → Op
  | 0 => .replaceResource (pagedBatch pageOne)
  | 1 => .withdrawIfCurrent "note" (.of pagedState)
  | 2 => .replaceResource (pagedBatch pageTrue)

@[irreducible] def pagedStore₁ : Store := emptyStore.after (pagedOp 0)
@[irreducible] def pagedStore₂ : Store := pagedStore₁.after (pagedOp 1)
@[irreducible] def pagedStore₃ : Store := pagedStore₂.after (pagedOp 2)

theorem source_fixed_withdrawn :
    SourceFixed sampleResource.resourceId [pagedStore₂, pagedStore₁, emptyStore] := by
  have h : History sampleEnv [pagedStore₁.event (pagedOp 1), emptyStore.event (pagedOp 0)]
      pagedStore₂ := by
    unfold pagedStore₂ pagedStore₁
    exact .step (.step .start (pagedOp 0) noFaults) (pagedOp 1) noFaults
  refine source_fixed h (fun e he => ?_) sampleResource.resourceId
  simp only [List.mem_cons, List.not_mem_nil, or_false] at he
  rcases he with rfl | rfl
  · intro batch hbatch
    cases hbatch
  · intro batch _ b hread
    cases hread

theorem source_fixed_fails : ∃ events store, History sampleEnv events store ∧
    ¬ SourceFixed sampleResource.resourceId (store :: events.map (·.before)) := by
  have h₁ : History sampleEnv [emptyStore.event (pagedOp 0)] pagedStore₁ := by
    unfold pagedStore₁
    exact .step .start (pagedOp 0) noFaults
  have h₂ : History sampleEnv [pagedStore₁.event (pagedOp 1), emptyStore.event (pagedOp 0)]
      pagedStore₂ := by
    unfold pagedStore₂
    exact .step h₁ (pagedOp 1) noFaults
  have h₃ : History sampleEnv [pagedStore₂.event (pagedOp 2), pagedStore₁.event (pagedOp 1),
      emptyStore.event (pagedOp 0)] pagedStore₃ := by
    unfold pagedStore₃
    exact .step h₂ (pagedOp 2) noFaults
  have first : lifecycleSource (readState sampleResource.resourceId pagedStore₁.committed) =
      some (sampleToken 0, "notes", "file", "\x7b\"page\":1\x7d") := by decide +kernel
  have last : lifecycleSource (readState sampleResource.resourceId pagedStore₃.committed) =
      some (sampleToken 0, "notes", "file", "\x7b\"page\":true\x7d") := by decide +kernel
  refine ⟨_, _, h₃, fun hfixed => ?_⟩
  have mem₁ : pagedStore₁ ∈ pagedStore₃ :: [pagedStore₂.event (pagedOp 2),
      pagedStore₁.event (pagedOp 1), emptyStore.event (pagedOp 0)].map (·.before) := by
    simp [Store.event]
  have hsame := hfixed.lifecycle mem₁ List.mem_cons_self first last
  revert hsame
  decide

end MDRack
