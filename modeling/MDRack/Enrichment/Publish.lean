import MDRack.Enrichment.MergeExact
import MDRack.Sqlite.Client

/-!
# Enrichment publication (`mdrack.application.enrichment.publish`)

A prepared addition is merged onto the current snapshot and written with a compare-and-publish.
The loop stops at each call of the port, where other writers may interfere.

Principal result: `publish_safe` — every applied write replaces a live state by exactly the merge
onto it, with targets and inputs as captured, and the loop ends within its retry budget.
-/

namespace MDRack.Enrichment

open Checks Interference
open Json (Value)

structure CapturedInputs where
  snapshot : ResourceSnapshot
  sourceRevision : NonEmptyText
  targets : List Slot
  inputs : List Slot

structure PreparedEnrichment where
  captured : CapturedInputs
  addition : PreparedResourceBatch

def capture (snapshot : ResourceSnapshot) (targets inputs : List Slot) :
    Except Err CapturedInputs := do
  let source ← sourceOf snapshot
  let batch ← getOr .assertionError snapshot.batch
  require (targets.Nodup ∧ inputs.Nodup) (.valueError "explicit unique slots required")
  require (targets ≠ []) (.valueError "at least one declared target required")
  let outputs ← outputsOf batch
  require (∀ slot ∈ inputs, (lookup outputs slot).isSome)
    (.staleEnrichment "immediate input unavailable")
  .ok ⟨snapshot, source, targets, inputs⟩

/-- One dependency of a prepared output was captured at its revision. -/
def checkDependency (captured : CapturedInputs) (d : Slot × NonEmptyText) : Except Err Unit := do
  require (d.1 ∈ captured.inputs)
    (.valueError "immediate input was not captured before preparation")
  let batch ← getOr .assertionError captured.snapshot.batch
  let outputs ← outputsOf batch
  let input ← getOr .keyError (lookup outputs d.1)
  require (input.output.artifactRevision = d.2)
    (.staleEnrichment "prepared input revision differs from capture")

def prepare (captured : CapturedInputs) (addition : PreparedResourceBatch) :
    Except Err PreparedEnrichment := do
  let outputs ← outputsOf addition
  require ((∀ a ∈ outputs, a.slot ∈ captured.targets) ∧
    ∀ slot ∈ captured.targets, (lookup outputs slot).isSome)
    (.valueError "prepared outputs differ from declared targets")
  checkAll (fun a => checkAll (checkDependency captured) a.output.dependencies) outputs
  let _ ← merge captured.snapshot addition
  .ok ⟨captured, addition⟩

/-! ## Freshness -/

/-- `metadata["provenance"]["raw_source_sha256"]`, or `None`. -/
def rawSource (resource : ResourceRecord) : Value :=
  match resource.metadata.get? "provenance" with
  | some (.obj fields) => (field fields "raw_source_sha256").getD .null
  | _ => .null

/-- Resource, lifecycle and source of two states agree. -/
def sameBinding (old now : PublicationState) : Bool :=
  old.resourceId == now.resourceId &&
    match old.binding, now.binding with
    | some a, some b => a.lifecycleId == b.lifecycleId && a.sourceNamespace == b.sourceNamespace &&
        a.sourceLocator == b.sourceLocator
    | none, none => true
    | _, _ => false

/-- A captured input is there at the captured revision and material. -/
def freshInput (before now : PreparedResourceBatch) (old new : List Active) (slot : Slot) :
    Except Err Unit := do
  let b ← getOr (.staleEnrichment "immediate input revision or material changed") (lookup new slot)
  let a ← getOr .keyError (lookup old slot)
  require (a.output.artifactRevision = b.output.artifactRevision ∧
    (materialOf before a == materialOf now b) = true)
    (.staleEnrichment "immediate input revision or material changed")

/-- `_fresh`. -/
def fresh (captured : CapturedInputs) (current : ResourceSnapshot) : Except Err Unit := do
  require (current.state.live = true ∧ sameBinding captured.snapshot.state current.state = true)
    (.staleEnrichment "lifecycle or source binding changed")
  let source ← sourceOf current
  require (source = captured.sourceRevision) (.staleEnrichment "source revision changed")
  let before ← getOr .assertionError captured.snapshot.batch
  let now ← getOr .assertionError current.batch
  require (before.resource.resourceKind = now.resource.resourceKind ∧
    before.resource.mediaType = now.resource.mediaType ∧
    (rawSource before.resource == rawSource now.resource) = true)
    (.staleEnrichment "source material changed without a new generation")
  let old ← outputsOf before
  let new ← outputsOf now
  checkAll (freshInput before now old new) captured.inputs

/-- A target is as captured: absent, or with an equal projection. -/
def targetUnchanged (before now : PreparedResourceBatch) (old new : List Active) (slot : Slot) :
    Except Err Unit :=
  match lookup old slot, lookup new slot with
  | none, none => .ok ()
  | some a, some b =>
    require ((projection before a.rep.representationId ==
      projection now b.rep.representationId) = true)
      (.staleEnrichment "active target revised during preparation")
  | _, _ => .error (.staleEnrichment "active target changed during preparation")

/-- `_targets_unchanged`. -/
def targetsUnchanged (captured : CapturedInputs) (current : ResourceSnapshot) :
    Except Err Unit := do
  let before ← getOr .assertionError captured.snapshot.batch
  let now ← getOr .assertionError current.batch
  let old ← outputsOf before
  let new ← outputsOf now
  checkAll (targetUnchanged before now old new) captured.targets

/-! ## The loop -/

inductive Status
  | alreadyPublished
  | published
  | conflict
  deriving DecidableEq, Repr

structure EnrichmentPublication where
  status : Status
  attempts : Nat
  merge : MergeResult

/-- Where `publish` waits for the port. -/
inductive Pc
  /-- Before the `read_snapshot` that confirms a merge without changes. -/
  | recheck (attempts : Nat)
  | write (attempts : Nat) (current : ResourceSnapshot) (result : MergeResult)
      (expected : ExpectedPublication)
  | refresh (attempts : Nat)
  | finished (outcome : Except Err EnrichmentPublication)

def Pc.of : Except Err Pc → Pc
  | .ok pc => pc
  | .error e => .finished (.error e)

/-- `replace(prepared.addition, resource=batch.resource)`. -/
def PreparedEnrichment.rebased (p : PreparedEnrichment) (batch : PreparedResourceBatch) :
    PreparedResourceBatch := { p.addition with resource := batch.resource }

/-- `ExpectedPublication(state)`, which expects a live state. -/
def expectLive (state : PublicationState) : Except Err ExpectedPublication :=
  if h : state.live = true then .ok ⟨state, false, by simp [h]⟩
  else .error (.valueError "creation must explicitly expect absent or deleted state")

/-- The loop from its top to the next call. -/
def enter (p : PreparedEnrichment) (attempts : Nat) (current : ResourceSnapshot) : Pc := .of do
  fresh p.captured current
  let batch ← getOr .assertionError current.batch
  let result ← merge current (p.rebased batch)
  if result.batch == batch then
    .ok (.recheck attempts)
  else do
    targetsUnchanged p.captured current
    let expected ← expectLive current.state
    .ok (.write (attempts + 1) current result expected)

def start (p : PreparedEnrichment) (maxRetries : Nat) : Pc := .of do
  require (maxRetries ≤ 3) (.valueError "max_retries must be an integer between zero and three")
  let batch ← getOr (.valueError "prepared resource differs from its original capture")
    p.captured.snapshot.batch
  require ((p.addition.resource == batch.resource) = true)
    (.valueError "prepared resource differs from its original capture")
  .ok (enter p 0 p.captured.snapshot)

/-- After the confirming read. -/
def confirm (p : PreparedEnrichment) (attempts : Nat) (latest : ResourceSnapshot) : Pc := .of do
  fresh p.captured latest
  let batch ← getOr .assertionError latest.batch
  let result ← merge latest (p.rebased batch)
  if result.batch == batch then
    .ok (.finished (.ok ⟨.alreadyPublished, attempts, result⟩))
  else
    .ok (enter p attempts latest)

/-- `publish` as a client of the store. -/
def publisher (p : PreparedEnrichment) (maxRetries : Nat) : Client Pc where
  call
    | .recheck _ => some (.readSnapshot p.captured.snapshot.state.resourceId.text)
    | .write _ _ result expected => some (.compareAndPublish result.batch expected)
    | .refresh _ => some (.readSnapshot p.captured.snapshot.state.resourceId.text)
    | .finished _ => none
  resume
    | .recheck attempts, .ok (.snapshot latest) => confirm p attempts latest
    | .write attempts _ result _, .ok (.publication publication) =>
      if publication.applied then .finished (.ok ⟨.published, attempts, result⟩)
      else if attempts > maxRetries then .finished (.ok ⟨.conflict, attempts, result⟩)
      else .refresh attempts
    | .refresh attempts, .ok (.snapshot current) => enter p attempts current
    | _, .error e => .finished (.error e)
    | _, .ok _ => .finished (.error (.typeError "unexpected answer"))

/-! ## Every applied write -/

/-- The write of a merge onto a snapshot that passed every check. -/
structure Checked (p : PreparedEnrichment) (s : ResourceSnapshot) (old : PreparedResourceBatch)
    (result : MergeResult) : Prop where
  batch : s.batch = some old
  fresh : fresh p.captured s = .ok ()
  targets : targetsUnchanged p.captured s = .ok ()
  merged : merge s (p.rebased old) = .ok result

/-- What is known at each call of the port. -/
def Inv (p : PreparedEnrichment) (maxRetries : Nat) : Pc → World → Prop
  | .recheck attempts, _ => attempts ≤ maxRetries
  | .write attempts current result expected, w => 1 ≤ attempts ∧ attempts ≤ maxRetries + 1 ∧
      w.Answered current ∧ expected.state = current.state ∧ ∃ old, Checked p current old result
  | .refresh attempts, _ => 1 ≤ attempts ∧ attempts ≤ maxRetries
  | .finished _, _ => True

section Runs

variable {env : Env} {p : PreparedEnrichment} {maxRetries attempts : Nat} {pc pc' : Pc}
  {w w' : World} {current : ResourceSnapshot}

theorem expectLive_ok {state : PublicationState} {expected : ExpectedPublication}
    (h : expectLive state = .ok expected) : expected.state = state := by
  unfold expectLive at h
  split at h <;> cases h
  rfl

/-- The ways the top of the loop can go. -/
theorem enter_cases (p : PreparedEnrichment) (attempts : Nat) (current : ResourceSnapshot) :
    (∃ old result, current.batch = some old ∧ merge current (p.rebased old) = .ok result ∧
      (result.batch == old) = true ∧ enter p attempts current = .recheck attempts) ∨
    (∃ old result expected, Checked p current old result ∧ expected.state = current.state ∧
      enter p attempts current = .write (attempts + 1) current result expected) ∨
    ∃ e, enter p attempts current = .finished (.error e) := by
  unfold enter
  generalize hrun : (do
    fresh p.captured current
    let batch ← getOr Err.assertionError current.batch
    let result ← merge current (p.rebased batch)
    if result.batch == batch then
      Except.ok (Pc.recheck attempts)
    else do
      targetsUnchanged p.captured current
      let expected ← expectLive current.state
      .ok (.write (attempts + 1) current result expected)) = run
  cases run with
  | error e => exact .inr (.inr ⟨e, rfl⟩)
  | ok pc =>
    simp only [bind_ok, getOr_ok] at hrun
    obtain ⟨_, hfresh, old, hold, result, hmerge, hrun⟩ := hrun
    split at hrun
    · rename_i hsame
      cases hrun
      exact .inl ⟨old, result, hold, hmerge, hsame, rfl⟩
    · simp only [bind_ok, Except.ok.injEq] at hrun
      obtain ⟨_, htargets, expected, hexpected, rfl⟩ := hrun
      exact .inr (.inl ⟨old, result, expected, ⟨hold, hfresh, htargets, hmerge⟩,
        expectLive_ok hexpected, rfl⟩)

theorem enter_inv (hanswered : w.Answered current) (h : attempts ≤ maxRetries) :
    Inv p maxRetries (enter p attempts current) w := by
  rcases enter_cases p attempts current with ⟨_, _, -, -, -, heq⟩ |
    ⟨old, result, expected, hchecked, hstate, heq⟩ | ⟨e, heq⟩
  · rw [heq]
    exact h
  · rw [heq]
    exact ⟨by omega, by omega, hanswered, hstate, old, hchecked⟩
  · rw [heq]
    trivial

/-- After a confirming read the loop ends or writes. -/
theorem confirm_cases (p : PreparedEnrichment) (attempts : Nat) (latest : ResourceSnapshot) :
    (∃ old result expected, Checked p latest old result ∧ expected.state = latest.state ∧
      confirm p attempts latest = .write (attempts + 1) latest result expected) ∨
    ∃ outcome, confirm p attempts latest = .finished outcome := by
  unfold confirm
  generalize hrun : (do
    fresh p.captured latest
    let batch ← getOr Err.assertionError latest.batch
    let result ← merge latest (p.rebased batch)
    if result.batch == batch then
      Except.ok (Pc.finished (.ok ⟨.alreadyPublished, attempts, result⟩))
    else
      .ok (enter p attempts latest)) = run
  cases run with
  | error e => exact .inr ⟨.error e, rfl⟩
  | ok pc =>
    simp only [bind_ok, getOr_ok] at hrun
    obtain ⟨_, -, old, hold, result, hmerge, hrun⟩ := hrun
    split at hrun
    · cases hrun
      exact .inr ⟨_, rfl⟩
    · rename_i hdiffers
      cases hrun
      rcases enter_cases p attempts latest with ⟨old', result', hold', hmerge', hsame, -⟩ |
        ⟨old', result', expected, hchecked, hstate, heq⟩ | ⟨e, heq⟩
      · -- the merge onto the same snapshot is the same merge
        rw [hold] at hold'
        cases hold'
        rw [hmerge] at hmerge'
        cases hmerge'
        exact absurd hsame hdiffers
      · exact .inl ⟨old', result', expected, hchecked, hstate, heq⟩
      · exact .inr ⟨.error e, heq⟩

def Pc.isWrite : Pc → Bool
  | .write .. => true
  | _ => false

/-- Calls that are left at most. -/
def Pc.calls (maxRetries : Nat) : Pc → Nat
  | .recheck attempts => 3 * (maxRetries - attempts) + 2
  | .write attempts .. => 3 * (maxRetries + 1 - attempts) + 1
  | .refresh attempts => 3 * (maxRetries - attempts) + 3
  | .finished _ => 0

/-- Writes that are left at most. -/
def Pc.writes (maxRetries : Nat) : Pc → Nat
  | .recheck attempts => maxRetries + 1 - attempts
  | .write attempts .. => maxRetries + 2 - attempts
  | .refresh attempts => maxRetries + 1 - attempts
  | .finished _ => 0

/-- One step of the client: the invariant is kept and the budgets pay for it. -/
structure StepFacts (p : PreparedEnrichment) (maxRetries : Nat) (pc : Pc) (pc' : Pc) (w' : World) :
    Prop where
  inv : Inv p maxRetries pc' w'
  calls : pc'.calls maxRetries + 1 ≤ pc.calls maxRetries
  writes : pc.isWrite.toNat + pc'.writes maxRetries ≤ pc.writes maxRetries

theorem finished_facts (outcome : Except Err EnrichmentPublication) (hcall : 0 < pc.calls maxRetries)
    (hwrite : pc.isWrite.toNat ≤ pc.writes maxRetries) :
    StepFacts p maxRetries pc (.finished outcome) w' := ⟨trivial, hcall, by simpa [Pc.writes]⟩

theorem enter_budget (p : PreparedEnrichment) (current : ResourceSnapshot)
    (h : attempts ≤ maxRetries) :
    (enter p attempts current).calls maxRetries ≤ 3 * (maxRetries - attempts) + 2 ∧
      (enter p attempts current).writes maxRetries ≤ maxRetries + 1 - attempts := by
  rcases enter_cases p attempts current with ⟨_, _, -, -, -, heq⟩ | ⟨_, _, _, -, -, heq⟩ | ⟨e, heq⟩
  · rw [heq]
    exact ⟨Nat.le_refl _, Nat.le_refl _⟩
  · rw [heq]
    simp only [Pc.calls, Pc.writes]
    omega
  · rw [heq]
    simp only [Pc.calls, Pc.writes]
    omega

theorem own_step (hinv : Inv p maxRetries pc w)
    (hown : (publisher p maxRetries).Own env pc w pc' w') : StepFacts p maxRetries pc pc' w' := by
  obtain ⟨op, faults, hcall, rfl, rfl⟩ := hown
  cases pc with
  | recheck attempts =>
    have hattempts : attempts ≤ maxRetries := hinv
    generalize hanswer : (w.perform env faults op).1 = answer
    rcases answer with e | answer
    · exact finished_facts _ (by simp [Pc.calls]) (by simp [Pc.isWrite])
    · cases answer with
      | snapshot latest =>
        rcases confirm_cases p attempts latest with ⟨old, result, expected, hchecked, hstate, heq⟩ |
          ⟨outcome, heq⟩
        · simp only [publisher, heq]
          refine ⟨⟨by omega, by omega, World.answered_perform hanswer, hstate, old, hchecked⟩, ?_, ?_⟩
          · simp only [Pc.calls]
            omega
          · simp only [Pc.isWrite, Pc.writes, Bool.toNat_false]
            omega
        · simp only [publisher, heq]
          exact finished_facts _ (by simp [Pc.calls]) (by simp [Pc.isWrite])
      | _ => exact finished_facts _ (by simp [Pc.calls]) (by simp [Pc.isWrite])
  | write attempts current result expected =>
    obtain ⟨hpos, hattempts, -⟩ := hinv
    have hpays : (Pc.write attempts current result expected).isWrite.toNat ≤
        (Pc.write attempts current result expected).writes maxRetries := by
      simp only [Pc.isWrite, Pc.writes, Bool.toNat_true]
      omega
    generalize (w.perform env faults op).1 = answer
    rcases answer with e | answer
    · exact finished_facts _ (by simp [Pc.calls]) hpays
    · cases answer with
      | publication publication =>
        simp only [publisher]
        split
        · exact finished_facts _ (by simp [Pc.calls]) hpays
        · split
          · exact finished_facts _ (by simp [Pc.calls]) hpays
          · refine ⟨⟨hpos, by omega⟩, ?_, ?_⟩
            · simp only [Pc.calls]
              omega
            · simp only [Pc.isWrite, Pc.writes, Bool.toNat_true]
              omega
      | _ => exact finished_facts _ (by simp [Pc.calls]) hpays
  | refresh attempts =>
    obtain ⟨hpos, hattempts⟩ := hinv
    generalize hanswer : (w.perform env faults op).1 = answer
    rcases answer with e | answer
    · exact finished_facts _ (by simp [Pc.calls]) (by simp [Pc.isWrite])
    · cases answer with
      | snapshot current =>
        obtain ⟨hcalls, hwrites⟩ := enter_budget p current hattempts
        refine ⟨enter_inv (World.answered_perform hanswer) hattempts, Nat.succ_le_succ hcalls, ?_⟩
        rw [show (Pc.refresh attempts).isWrite.toNat = 0 from rfl, Nat.zero_add]
        exact hwrites
      | _ => exact finished_facts _ (by simp [Pc.calls]) (by simp [Pc.isWrite])
  | finished outcome => cases hcall

theorem start_facts (captured : w.Answered p.captured.snapshot) :
    Inv p maxRetries (start p maxRetries) w ∧
      (start p maxRetries).calls maxRetries ≤ 3 * maxRetries + 2 ∧
      (start p maxRetries).writes maxRetries ≤ maxRetries + 1 := by
  unfold start
  generalize hrun : (do
    require (maxRetries ≤ 3) (Err.valueError "max_retries must be an integer between zero and three")
    let batch ← getOr (.valueError "prepared resource differs from its original capture")
      p.captured.snapshot.batch
    require ((p.addition.resource == batch.resource) = true)
      (.valueError "prepared resource differs from its original capture")
    Except.ok (enter p 0 p.captured.snapshot)) = run
  cases run with
  | error e => exact ⟨trivial, Nat.zero_le _, Nat.zero_le _⟩
  | ok pc =>
    simp only [bind_ok, Except.ok.injEq] at hrun
    obtain ⟨_, -, batch, -, _, -, rfl⟩ := hrun
    obtain ⟨hcalls, hwrites⟩ := enter_budget p p.captured.snapshot (Nat.zero_le maxRetries)
    exact ⟨enter_inv captured (Nat.zero_le _), hcalls, hwrites⟩

/-- The invariant holds throughout a run. -/
theorem run_inv {trace : List (Step Pc World)} (hreach : History env w.events w.store)
    (hinv : Inv p maxRetries pc w)
    (h : (publisher p maxRetries).Run env pc w trace pc' w') :
    ∀ s ∈ trace, History env s.world.events s.world.store ∧ Inv p maxRetries s.pc s.world ∧
      (publisher p maxRetries).Own env s.pc s.world s.pc' s.world' := by
  have hrun := Run.invariant (I := fun pc w => History env w.events w.store ∧ Inv p maxRetries pc w)
    h ⟨hreach, hinv⟩ ?_ ?_
  · exact fun s hs => ⟨(hrun.2 s hs).1.1, (hrun.2 s hs).1.2, (hrun.2 s hs).2⟩
  · rintro pc w pc' w' ⟨hreach, hinv⟩ hown
    have hfacts := own_step hinv hown
    obtain ⟨op, faults, -, rfl, -⟩ := hown
    exact ⟨World.perform_history hreach, hfacts.inv⟩
  · rintro pc w w' ⟨hreach, hinv⟩ ⟨op, faults, rfl⟩
    refine ⟨World.perform_history hreach, ?_⟩
    cases pc with
    | write =>
      obtain ⟨h1, h2, hanswered, hrest⟩ := hinv
      exact ⟨h1, h2, hanswered.perform, hrest⟩
    | recheck => exact hinv
    | refresh => exact hinv
    | finished => trivial

end Runs

/-! ## Publication under interference -/

/-- A write replaced the stored snapshot `s`, whose graph is `old`, by the merge onto it; `c` is the
captured graph. -/
structure Replaced (env : Env) (p : PreparedEnrichment) (before after : Store)
    (s : ResourceSnapshot) (c old : PreparedResourceBatch) (result : MergeResult) : Prop where
  state : readState s.state.resourceId before.committed = .ok s.state
  graph : readGraph env before.committed s.state.resourceId.text = .ok (some old)
  batch : s.batch = some old
  merged : merge s (p.rebased old) = .ok result
  written : ∃ b, readGraph env after.committed s.state.resourceId.text = .ok (some b) ∧
    SameGraph result.batch b
  live : s.state.live
  binding : sameBinding p.captured.snapshot.state s.state
  source : sourceOf s = .ok p.captured.sourceRevision
  captured : p.captured.snapshot.batch = some c
  material : c.resource.resourceKind = old.resource.resourceKind ∧
    c.resource.mediaType = old.resource.mediaType ∧ rawSource c.resource == rawSource old.resource
  /-- Inputs have the captured revision and material, targets are as captured. -/
  slots : ∃ was now, outputsOf c = .ok was ∧ outputsOf old = .ok now ∧
    (∀ slot ∈ p.captured.inputs, ∃ a b, lookup was slot = some a ∧ lookup now slot = some b ∧
      a.output.artifactRevision = b.output.artifactRevision ∧ materialOf c a == materialOf old b) ∧
    ∀ slot ∈ p.captured.targets, (lookup was slot = none ∧ lookup now slot = none) ∨
      ∃ a b, lookup was slot = some a ∧ lookup now slot = some b ∧
        projection c a.rep.representationId == projection old b.rep.representationId
  /-- What is neither a target nor stale by the merge stays as it is. -/
  exact : ∃ m outputs, m.Of s (p.rebased old) ∧ Exact m result outputs ∧
    (prepare p.captured p.addition = .ok p → ∀ slot ∈ m.incomingSlots, slot ∈ p.captured.targets)

section Safety

variable {env : Env} {p : PreparedEnrichment} {s : ResourceSnapshot} {old : PreparedResourceBatch}
  {result : MergeResult}

theorem targetUnchanged_ok {c old : PreparedResourceBatch} {was now : List Active} {slot : Slot}
    (h : targetUnchanged c old was now slot = .ok ()) :
    (lookup was slot = none ∧ lookup now slot = none) ∨
      ∃ a b, lookup was slot = some a ∧ lookup now slot = some b ∧
        projection c a.rep.representationId == projection old b.rep.representationId := by
  unfold targetUnchanged at h
  split at h
  · rename_i hwas hnow
    exact .inl ⟨hwas, hnow⟩
  · rename_i a b hwas hnow
    exact .inr ⟨a, b, hwas, hnow, require_ok.mp h⟩
  · cases h

theorem freshInput_ok {c old : PreparedResourceBatch} {was now : List Active} {slot : Slot}
    (h : freshInput c old was now slot = .ok ()) :
    ∃ a b, lookup was slot = some a ∧ lookup now slot = some b ∧
      a.output.artifactRevision = b.output.artifactRevision ∧ materialOf c a == materialOf old b := by
  simp only [freshInput, bind_ok, getOr_ok, require_ok] at h
  obtain ⟨b, hb, a, ha, hrevision, hmaterial⟩ := h
  exact ⟨a, b, ha, hb, hrevision, hmaterial⟩

/-- A prepared addition brings outputs for its targets only. -/
theorem prepared_targets {m : Merging} (hof : m.Of s (p.rebased old))
    (h : prepare p.captured p.addition = .ok p) :
    ∀ slot ∈ m.incomingSlots, slot ∈ p.captured.targets := by
  simp only [prepare, bind_ok, require_ok] at h
  obtain ⟨outputs, houtputs, _, ⟨htargets, -⟩, -⟩ := h
  have hincoming := hof.incoming
  rw [hof.addition] at hincoming
  rw [show outputsOf (p.rebased old) = outputsOf p.addition from rfl, houtputs,
    Except.ok.injEq] at hincoming
  intro slot hslot
  obtain ⟨a, ha, rfl⟩ := Merging.mem_incomingSlots.mp hslot
  exact htargets a (by rw [hincoming]; exact ha)

/-- A checked write that is applied where its snapshot is stored. -/
theorem Checked.replaced (h : Checked p s old result) {before after : Store}
    {b : PreparedResourceBatch}
    (hstate : readState s.state.resourceId before.committed = .ok s.state)
    (hgraph : readGraph env before.committed s.state.resourceId.text = .ok s.batch)
    (hafter : readGraph env after.committed s.state.resourceId.text = .ok (some b))
    (hsame : SameGraph result.batch b) : ∃ c, Replaced env p before after s c old result := by
  have hfresh := h.fresh
  simp only [Enrichment.fresh, bind_ok, require_ok, getOr_ok, checkAll_ok] at hfresh
  obtain ⟨_, ⟨hlive, hbinding⟩, source, hsource, _, hrevision, c, hc, now, hnow, _,
    ⟨hkind, hmedia, hraw⟩, was, hwas, new, hnew, hinputs⟩ := hfresh
  have htargets := h.targets
  simp only [targetsUnchanged, bind_ok, getOr_ok, checkAll_ok] at htargets
  obtain ⟨c', hc', now', hnow', was', hwas', new', hnew', htargets⟩ := htargets
  rw [h.batch, Option.some.injEq] at hnow hnow'
  subst hnow
  subst hnow'
  rw [hc, Option.some.injEq] at hc'
  subst hc'
  rw [hwas, Except.ok.injEq] at hwas'
  subst hwas'
  rw [hnew, Except.ok.injEq] at hnew'
  subst hnew'
  obtain ⟨m, outputs, hof, hexact⟩ := (merge_exact s (p.rebased old)).1 result h.merged
  exact ⟨c, {
    state := hstate
    graph := by rw [hgraph, h.batch]
    batch := h.batch
    merged := h.merged
    written := ⟨b, hafter, hsame⟩
    live := hlive
    binding := hbinding
    source := by rw [hsource, hrevision]
    captured := hc
    material := ⟨hkind, hmedia, hraw⟩
    slots := ⟨was, new, hwas, hnew, fun slot hslot => freshInput_ok (hinputs slot hslot),
      fun slot hslot => targetUnchanged_ok (htargets slot hslot)⟩
    exact := ⟨m, outputs, hof, hexact, prepared_targets hof⟩ }⟩

/-- An applied step of the loop is a write onto the stored snapshot. -/
theorem applied_step {maxRetries : Nat} {step : Step Pc World}
    (hreach : History env step.world.events step.world.store)
    (hinv : Inv p maxRetries step.pc step.world)
    (hown : (publisher p maxRetries).Own env step.pc step.world step.pc' step.world')
    (happlied : AppliedStep step) :
    ∃ s c old result, Replaced env p step.world.store step.world'.store s c old result := by
  obtain ⟨op, faults, hcall, hworld, -⟩ := hown
  obtain ⟨e, hevents, state, hanswer⟩ := happlied
  have hperformed := World.perform_performed hreach op faults
  rw [hworld] at hevents ⊢
  obtain ⟨rfl, -⟩ := List.cons.inj hevents
  change (step.world.perform env faults op).1 = .ok (.publication ⟨true, state⟩) at hanswer
  rw [hanswer] at hperformed
  cases hpc : step.pc with
  | write attempts current result expected =>
    rw [hpc] at hcall hinv
    cases hcall
    obtain ⟨-, -, ⟨e, he, hsnapshot⟩, hexpected, old, hchecked⟩ := hinv
    obtain ⟨previous, b, -, hread, hsame, -, -, hgraph, hwritten⟩ :=
      hperformed.publish_applied hreach.catalog.2
    rw [hexpected] at hread hsame hgraph
    obtain ⟨rfl, hstored⟩ := hreach.snapshot_current he hsnapshot hread hsame
    obtain ⟨c, hreplaced⟩ := hchecked.replaced hread hstored hgraph hwritten
    exact ⟨current, c, old, result, hreplaced⟩
  | recheck attempts =>
    rw [hpc] at hcall
    cases hcall
    exact absurd hperformed Performed.snapshot_not_applied
  | refresh attempts =>
    rw [hpc] at hcall
    cases hcall
    exact absurd hperformed Performed.snapshot_not_applied
  | finished outcome =>
    rw [hpc] at hcall
    cases hcall

end Safety

/-- Publication of an enrichment captured from the store, among any other writers. -/
theorem publish_safe {env : Env} {w w' : World} {p : PreparedEnrichment} {maxRetries : Nat}
    {trace : List (Step Pc World)} {pc : Pc} (history : History env w.events w.store)
    (captured : w.Answered p.captured.snapshot)
    (run : (publisher p maxRetries).Run env (start p maxRetries) w trace pc w') :
    (∀ step ∈ trace, AppliedStep step →
      ∃ s c old result, Replaced env p step.world.store step.world'.store s c old result) ∧
    trace.countP (fun step => step.pc.isWrite) ≤ maxRetries + 1 ∧
    trace.length ≤ 3 * maxRetries + 2 ∧
    ((∃ outcome, pc = .finished outcome) ∨ ∃ pc' w'', (publisher p maxRetries).Own env pc w' pc' w'') := by
  obtain ⟨hinv, hcalls, hwrites⟩ := start_facts captured
  have hsteps := run_inv history hinv run
  refine ⟨fun step hstep happlied => ?_, ?_, ?_, ?_⟩
  · obtain ⟨hreach, hinv, hown⟩ := hsteps step hstep
    exact applied_step hreach hinv hown happlied
  · have hbudget := run.budget Pc.isWrite (Pc.writes maxRetries)
      fun step hstep => (own_step (hsteps step hstep).2.1 (hsteps step hstep).2.2).writes
    omega
  · have hbudget := run.budget (fun _ => true) (Pc.calls maxRetries)
      fun step hstep => by
        have := (own_step (hsteps step hstep).2.1 (hsteps step hstep).2.2).calls
        simpa [Nat.add_comm] using this
    simp only [List.countP_true] at hbudget
    omega
  · cases pc with
    | finished outcome => exact .inl ⟨outcome, rfl⟩
    | recheck attempts => exact .inr ⟨_, _, _, Transaction.noFaults, rfl, rfl, rfl⟩
    | write attempts current result expected =>
      exact .inr ⟨_, _, _, Transaction.noFaults, rfl, rfl, rfl⟩
    | refresh attempts => exact .inr ⟨_, _, _, Transaction.noFaults, rfl, rfl, rfl⟩

/-! ## A transcript for a published talk -/

/-- The talk is published without a transcript. -/
def sampleTalk : World := ((⟨[], emptyStore⟩ : World).perform sampleEnv Transaction.noFaults
  (.replaceResource (sampleGraph [(⟨"speech", Eq.refl true⟩, .empty)]))).2

def sampleRead : Except Err Answer × World :=
  sampleTalk.perform sampleEnv Transaction.noFaults (.readSnapshot "talk")

@[irreducible] def sampleTalkSnapshot : ResourceSnapshot :=
  (snapshot? sampleRead.1).get (by decide +kernel)

def samplePrepared : PreparedEnrichment where
  captured := ⟨sampleTalkSnapshot, ⟨"s1", Eq.refl true⟩, [(⟨"transcript", Eq.refl true⟩, ⟨"v", Eq.refl true⟩)], []⟩
  addition := sampleAddition

/-- The first call of the loop is the write. -/
@[irreducible] def sampleWrite : Op :=
  ((publisher samplePrepared 1).call (start samplePrepared 1)).get (by decide +kernel)

def sampleWritten : Except Err Answer × World :=
  sampleRead.2.perform sampleEnv Transaction.noFaults sampleWrite

theorem sampleRead_answer : sampleRead.1 = .ok (.snapshot sampleTalkSnapshot) := by
  unfold sampleTalkSnapshot
  exact snapshot?_eq (Option.some_get _).symm

theorem sampleWrite_called :
    (publisher samplePrepared 1).call (start samplePrepared 1) = some sampleWrite := by
  unfold sampleWrite
  exact (Option.some_get _).symm

theorem sampleWritten_applied : isApplied sampleWritten.1 = true := by decide +kernel

theorem publish_safe_transcript : ∃ s c old result,
    Replaced sampleEnv samplePrepared sampleRead.2.store sampleWritten.2.store s c old result := by
  have htalk : History sampleEnv sampleTalk.events sampleTalk.store :=
    World.perform_history (w := ⟨[], emptyStore⟩) .start
  have hread : History sampleEnv sampleRead.2.events sampleRead.2.store :=
    World.perform_history htalk
  obtain ⟨pc, hown, happlied⟩ := Client.applied sampleWrite_called sampleWritten_applied
  have hanswered : sampleRead.2.Answered samplePrepared.captured.snapshot :=
    World.answered_perform sampleRead_answer
  have hsafe := publish_safe hread hanswered (.own .start hown)
  have hreplaced := hsafe.1 _ List.mem_cons_self happlied
  exact hreplaced

end MDRack.Enrichment
