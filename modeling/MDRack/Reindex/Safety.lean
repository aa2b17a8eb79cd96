import MDRack.Enrichment.Publish
import MDRack.Reindex.Publish
import MDRack.Sqlite.Verify

/-!
# Reindex publication among other writers

Principal result: `publish_reindex_safe` — a write that is applied replaces a stored state of the
captured lifecycle whose source, targets and inputs did not move; a run that ends otherwise wrote
nothing; and a run ends within its budgets.
-/

namespace MDRack.Reindex

open Checks Enrichment Interference
open Json (Value)

/-! ## Writes and withdrawals of the store -/

/-- The store holds this snapshot. -/
structure Held (env : Env) (store : Store) (s : ResourceSnapshot) : Prop where
  state : readState s.state.resourceId store.committed = .ok s.state
  graph : readGraph env store.committed s.state.resourceId.text = .ok s.batch

section Effects

variable {env : Env} {op : Op} {answer : Except Err Answer} {store store' : Store}

theorem Held.congr {s : ResourceSnapshot} (h : Held env store s)
    (hsame : store'.committed = store.committed) : Held env store' s := by
  obtain ⟨hstate, hgraph⟩ := h
  rw [← hsame] at hstate hgraph
  exact ⟨hstate, hgraph⟩

/-- A read, or a conditional operation that is not applied, changes nothing. -/
theorem Performed.same (h : Performed env store op answer store')
    (hop : op.expected.isSome = true ∨ ∃ id, op = .readSnapshot id)
    (hnot : ∀ state, answer ≠ .ok (.publication ⟨true, state⟩)) :
    store'.committed = store.committed := by
  cases h with
  | failed same => exact same
  | snapshot same => exact same
  | refused same => exact same
  | published verb =>
    rcases verb with ⟨_, state, rfl, -, -, rfl, -⟩ | ⟨rfl, rfl⟩
    · exact absurd rfl (hnot state)
    · simp [Op.expected] at hop
  | removed => exact absurd rfl (hnot _)
  | deleted verb => rcases verb with ⟨rfl, rfl⟩ | ⟨rfl, rfl⟩ <;> simp [Op.expected] at hop
  | rebuilt => simp [Op.expected] at hop

/-- An applied withdrawal leaves the resource live, in its lifecycle, and without a graph. -/
theorem Performed.withdrawn {id : String} {e : ExpectedPublication} {state : PublicationState}
    (h : Performed env store (.withdrawIfCurrent id e) (.ok (.publication ⟨true, state⟩)) store')
    (hc : Catalog env store.committed) : ∃ previous b,
      readState e.state.resourceId store.committed = .ok previous ∧ previous == e.state ∧
      e.state.live = true ∧
      readState e.state.resourceId store'.committed = .ok ⟨e.state.resourceId, some b⟩ ∧
      b.status = .liveWithoutProjections ∧
      (∀ old ∈ previous.binding, previous.live → b.lifecycleId = old.lifecycleId) ∧
      readGraph env store'.committed e.state.resourceId.text = .ok none := by
  have hafter := h.catalog hc
  generalize hop : Op.withdrawIfCurrent id e = op at h
  generalize hanswer : Except.ok (Answer.publication ⟨true, state⟩) = answer at h
  cases h with
  | failed => cases hanswer
  | snapshot => cases hop
  | refused => cases hanswer
  | published verb => rcases verb with ⟨_, _, rfl, -⟩ | ⟨rfl, -⟩ <;> cases hop
  | @removed _ _ previous _ status _ t₂ t₃ b _ _ verb live read current fts rows put prune reread =>
    rcases verb with ⟨rfl, rfl⟩ | ⟨rfl, -⟩
    · cases hop
      obtain ⟨hid, -⟩ := readState_spec hc.encoded read
      have hstates := remove_states fts rows
      have hread := put.read_after (hstates ▸ hc.state_ids) (hstates ▸ hc.encoded) previous.resourceId
      rw [if_pos rfl, hid] at hread
      rw [← readState_congr (prune_states prune)] at hread
      have hlive : e.state.live = true := by
        have hexplicit := e.explicit
        rwa [live, ne_comm, ne_eq, Bool.not_eq_false] at hexplicit
      refine ⟨previous, b, read, current, hlive, hread, put.status_eq, put.lifecycle, ?_⟩
      refine readGraph_missing fun r hr heq => ?_
      have hpublished := (hafter.row_iff_published hread).mp ⟨r, hr, heq⟩
      simp [PublicationState.published, put.status_eq] at hpublished
    · cases hop
  | deleted verb => rcases verb with ⟨rfl, -⟩ | ⟨rfl, -⟩ <;> cases hop
  | rebuilt => cases hop

end Effects

/-! ## Runs of the loop -/

def Pc.isWrite : Pc → Bool
  | .write .. => true
  | _ => false

/-- A result that reports a change of the store. -/
def Status.changes (status : Status) : Bool := status == .published || status == .withdrawn

def Pc.changed : Pc → Bool
  | .finished (.ok result) => result.publicationStatus.changes
  | _ => false

def Pc.rebases : Pc → Nat
  | .confirm _ rebases .. => rebases
  | .write _ rebases .. => rebases
  | .refresh _ rebases _ => rebases
  | .finished _ => 0

theorem finished_of_changed {pc : Pc} (h : pc.changed = true) : ∃ outcome, pc = .finished outcome := by
  cases pc with
  | finished outcome => exact ⟨outcome, rfl⟩
  | _ => cases h

/-- Calls that are left at most. -/
def Pc.calls (maxRetries : Nat) : Pc → Nat
  | .confirm _ rebases .. => 2 * (maxRetries - rebases) + 1
  | .write _ rebases .. => 2 * (maxRetries - rebases) + 1
  | .refresh _ rebases _ => 2 * (maxRetries - rebases) + 2
  | .finished _ => 0

/-- Writes that are left at most. -/
def Pc.writes (maxRetries : Nat) : Pc → Nat
  | .finished _ => 0
  | pc => maxRetries + 1 - pc.rebases

/-- What is known at each call of the port. -/
def Inv (job : PreparedReindex) (maxRetries : Nat) : Pc → World → Prop
  | .confirm attempts rebases current desired, w => attempts ≤ rebases ∧ rebases ≤ maxRetries ∧
      w.Answered current ∧ Standing job current desired
  | .write attempts rebases current desired, w => attempts ≤ rebases + 1 ∧ rebases ≤ maxRetries ∧
      w.Answered current ∧ Ready job current desired
  | .refresh attempts rebases _, _ => attempts ≤ rebases ∧ rebases ≤ maxRetries
  | .finished _, _ => True

/-- A run that reports that it had nothing to write ends where the store holds what it asks for. -/
def Reported (env : Env) (job : PreparedReindex) (w : World) : Pc → Prop
  | .finished (.ok result) =>
    result.publicationStatus = .alreadyPublished ∨ result.publicationStatus = .alreadyWithdrawn →
      ∃ s desired, Held env w.store s ∧ Standing job s desired ∧
        result.contents = some (contentsOf desired)
  | _ => True

/-- One call: the invariant is kept, the budgets pay for it, and a result tells what was written. -/
structure CallFacts (env : Env) (job : PreparedReindex) (maxRetries : Nat) (pc : Pc) (w : World)
    (pc' : Pc) (w' : World) : Prop where
  inv : Inv job maxRetries pc' w'
  calls : pc'.calls maxRetries + 1 ≤ pc.calls maxRetries
  writes : pc.isWrite.toNat + pc'.writes maxRetries ≤ pc.writes maxRetries
  unwritten : pc'.changed = false → w'.store.committed = w.store.committed
  written : pc'.changed = true → AppliedStep ⟨pc, w, pc', w'⟩
  reported : Reported env job w' pc'

section Runs

variable {env : Env} {job : PreparedReindex} {maxRetries attempts rebases : Nat} {allowNoop : Bool}
  {pc pc' : Pc} {w w' : World} {current : ResourceSnapshot}

theorem Inv.other (h : Inv job maxRetries pc w) (op : Op) (faults : Transaction.Faults Err) :
    Inv job maxRetries pc (w.perform env faults op).2 := by
  cases pc with
  | confirm attempts rebases current desired =>
    obtain ⟨hattempts, hrebases, hanswered, hstanding⟩ := h
    exact ⟨hattempts, hrebases, hanswered.perform, hstanding⟩
  | write attempts rebases current desired =>
    obtain ⟨hattempts, hrebases, hanswered, hready⟩ := h
    exact ⟨hattempts, hrebases, hanswered.perform, hready⟩
  | refresh attempts rebases current => exact h
  | finished outcome => trivial

/-- What one pass of the loop leads to. -/
structure PassFacts (env : Env) (job : PreparedReindex) (maxRetries rebases : Nat) (w : World)
    (pc : Pc) : Prop where
  inv : Inv job maxRetries pc w
  calls : pc.calls maxRetries ≤ 2 * (maxRetries - rebases) + 1
  writes : pc.writes maxRetries ≤ maxRetries + 1 - rebases
  unchanged : pc.changed = false
  reported : Reported env job w pc

theorem enter_facts (hanswered : w.Answered current)
    (hheld : sameSnapshot current job.snapshot = false → Held env w.store current)
    (hattempts : attempts ≤ rebases) (hrebases : rebases ≤ maxRetries) :
    PassFacts env job maxRetries rebases w (enter job allowNoop attempts rebases current) := by
  rcases enter_cases job allowNoop attempts rebases current with ⟨desired, hstanding, heq⟩ |
    ⟨desired, hready, heq⟩ | ⟨desired, hstanding, hdiffers, heq⟩ | ⟨e, heq⟩
  · rw [heq]
    exact ⟨⟨hattempts, hrebases, hanswered, hstanding⟩, Nat.le_refl _, Nat.le_refl _, rfl, trivial⟩
  · rw [heq]
    exact ⟨⟨Nat.succ_le_succ hattempts, hrebases, hanswered, hready⟩, Nat.le_refl _, Nat.le_refl _,
      rfl, trivial⟩
  · rw [heq]
    exact ⟨trivial, Nat.zero_le _, Nat.zero_le _, rfl,
      fun _ => ⟨current, desired, hheld hdiffers, hstanding, rfl⟩⟩
  · rw [heq]
    exact ⟨trivial, Nat.zero_le _, Nat.zero_le _, rfl, trivial⟩

/-- A run that ends by an error or in a conflict. -/
theorem ended_facts {outcome : Except Failure ReindexResult} (hcall : 0 < pc.calls maxRetries)
    (hwrite : pc.isWrite.toNat ≤ pc.writes maxRetries)
    (hsame : w'.store.committed = w.store.committed)
    (houtcome : ∀ result, outcome = .ok result → result.publicationStatus = .conflict) :
    CallFacts env job maxRetries pc w (.finished outcome) w' := by
  refine ⟨trivial, hcall, by simpa [Pc.writes] using hwrite, fun _ => hsame, ?_, ?_⟩
  · intro hchanged
    cases outcome with
    | error e => cases hchanged
    | ok result =>
      rw [Pc.changed, houtcome result rfl] at hchanged
      cases hchanged
  · cases outcome with
    | error e => trivial
    | ok result =>
      intro hstatus
      rw [houtcome result rfl] at hstatus
      rcases hstatus with hstatus | hstatus <;> cases hstatus

/-- The store answers a read with what it holds. -/
theorem read_held {faults : Transaction.Faults Err} (hreach : History env w.events w.store)
    {id : String} {snapshot : ResourceSnapshot}
    (h : (w.perform env faults (.readSnapshot id)).1 = .ok (.snapshot snapshot)) :
    Held env (w.perform env faults (.readSnapshot id)).2.store snapshot := by
  have hperformed := World.perform_performed hreach (.readSnapshot id) faults
  have hsame := Performed.same hperformed (.inr ⟨id, rfl⟩) fun state habs => by
    rw [h] at habs
    cases habs
  rw [h] at hperformed
  obtain ⟨hstate, hgraph⟩ := hperformed.snapshot_read rfl
  exact Held.congr ⟨hstate, hgraph⟩ hsame

theorem confirm_step {desired : Option PreparedResourceBatch} {faults : Transaction.Faults Err}
    (hreach : History env w.events w.store)
    (hinv : Inv job maxRetries (.confirm attempts rebases current desired) w) :
    CallFacts env job maxRetries (.confirm attempts rebases current desired) w
      ((publisher job maxRetries allowNoop).resume (.confirm attempts rebases current desired)
        (w.perform env faults (.readSnapshot current.state.resourceId.text)).1)
      (w.perform env faults (.readSnapshot current.state.resourceId.text)).2 := by
  obtain ⟨hattempts, hrebases, ⟨e, he, hanswered⟩, hstanding⟩ := hinv
  have hperformed := World.perform_performed hreach (.readSnapshot current.state.resourceId.text) faults
  have hsame := Performed.same hperformed (.inr ⟨_, rfl⟩) fun state habs =>
    Performed.snapshot_not_applied (habs ▸ hperformed)
  have hcalls : 0 < (Pc.confirm attempts rebases current desired).calls maxRetries := Nat.succ_pos _
  have hwrites : (Pc.confirm attempts rebases current desired).isWrite.toNat ≤
      (Pc.confirm attempts rebases current desired).writes maxRetries := Nat.zero_le _
  generalize hanswer : (w.perform env faults (.readSnapshot current.state.resourceId.text)).1 = answer
  rcases answer with e | answer
  · exact ended_facts hcalls hwrites hsame fun _ h => nomatch h
  · cases answer with
    | snapshot latest =>
      have hheld := read_held hreach hanswer
      simp only [publisher]
      split
      · -- the state is still the one that the graph was read with
        rename_i hstate
        refine ⟨trivial, hcalls, hwrites, fun _ => hsame, ?_, ?_⟩
        · intro hchanged
          cases desired <;> cases hchanged
        · intro _
          refine ⟨current, desired, ?_, hstanding, rfl⟩
          rw [hanswer] at hperformed
          have hid := NonEmptyText.ext_text (hperformed.snapshot_resource rfl)
          obtain ⟨hread, -⟩ := hperformed.snapshot_read rfl
          rw [hid] at hread
          obtain ⟨heq, hgraph⟩ := hreach.snapshot_current he hanswered hread hstate
          rw [heq] at hread
          exact Held.congr ⟨hread, hgraph⟩ hsame
      · split
        · exact ended_facts hcalls hwrites hsame fun _ h => by cases h; rfl
        · rename_i hbudget
          have hfacts := @enter_facts env job maxRetries attempts (rebases + 1) allowNoop _ latest
            (World.answered_perform hanswer) (fun _ => hheld) (Nat.le_succ_of_le hattempts)
            (Nat.lt_of_not_le hbudget)
          refine ⟨hfacts.inv, ?_, ?_, fun _ => hsame, ?_, hfacts.reported⟩
          · have hleft := hfacts.calls
            simp only [Pc.calls] at hleft ⊢
            omega
          · have hleft := hfacts.writes
            simp only [Pc.isWrite, Pc.writes, Pc.rebases, Bool.toNat_false] at hleft ⊢
            omega
          · intro hchanged
            rw [hfacts.unchanged] at hchanged
            cases hchanged
    | _ => exact ended_facts hcalls hwrites hsame fun _ h => nomatch h

theorem refresh_step {faults : Transaction.Faults Err} (hreach : History env w.events w.store)
    (hinv : Inv job maxRetries (.refresh attempts rebases current) w) :
    CallFacts env job maxRetries (.refresh attempts rebases current) w
      ((publisher job maxRetries allowNoop).resume (.refresh attempts rebases current)
        (w.perform env faults (.readSnapshot current.state.resourceId.text)).1)
      (w.perform env faults (.readSnapshot current.state.resourceId.text)).2 := by
  obtain ⟨hattempts, hrebases⟩ := hinv
  have hperformed := World.perform_performed hreach (.readSnapshot current.state.resourceId.text) faults
  have hsame := Performed.same hperformed (.inr ⟨_, rfl⟩) fun state habs =>
    Performed.snapshot_not_applied (habs ▸ hperformed)
  have hcalls : 0 < (Pc.refresh attempts rebases current).calls maxRetries := Nat.succ_pos _
  have hwrites : (Pc.refresh attempts rebases current).isWrite.toNat ≤
      (Pc.refresh attempts rebases current).writes maxRetries := Nat.zero_le _
  generalize hanswer : (w.perform env faults (.readSnapshot current.state.resourceId.text)).1 = answer
  rcases answer with e | answer
  · exact ended_facts hcalls hwrites hsame fun _ h => nomatch h
  · cases answer with
    | snapshot latest =>
      have hheld := read_held hreach hanswer
      have hfacts := @enter_facts env job maxRetries attempts rebases allowNoop _ latest
        (World.answered_perform hanswer) (fun _ => hheld) hattempts hrebases
      refine ⟨hfacts.inv, Nat.succ_le_succ hfacts.calls, ?_, fun _ => hsame, ?_, hfacts.reported⟩
      · have hleft := hfacts.writes
        simp only [publisher, Pc.isWrite, Pc.writes, Pc.rebases, Bool.toNat_false] at hleft ⊢
        omega
      · intro hchanged
        exact absurd hchanged (by simp [publisher, hfacts.unchanged])
    | _ => exact ended_facts hcalls hwrites hsame fun _ h => nomatch h

/-- The write that the loop calls. -/
def writeOp (current : ResourceSnapshot) : Option PreparedResourceBatch → Op
  | none => .withdrawIfCurrent current.state.resourceId.text (.of current.state)
  | some batch => .compareAndPublish batch (.of current.state)

theorem call_write (desired : Option PreparedResourceBatch) :
    (publisher job maxRetries allowNoop).call (.write attempts rebases current desired) =
      some (writeOp current desired) := by
  cases desired <;> rfl

theorem writeOp_expected (desired : Option PreparedResourceBatch) :
    (writeOp current desired).expected = some (.of current.state) := by
  cases desired <;> rfl

theorem applied_changed (current : ResourceSnapshot) (attempts : Nat)
    (desired : Option PreparedResourceBatch) : (applied current attempts desired).changed = true := by
  cases desired <;> rfl

theorem write_step {desired : Option PreparedResourceBatch} {faults : Transaction.Faults Err}
    (hreach : History env w.events w.store)
    (hinv : Inv job maxRetries (.write attempts rebases current desired) w) :
    CallFacts env job maxRetries (.write attempts rebases current desired) w
      ((publisher job maxRetries allowNoop).resume (.write attempts rebases current desired)
        (w.perform env faults (writeOp current desired)).1)
      (w.perform env faults (writeOp current desired)).2 := by
  obtain ⟨hattempts, hrebases, -, -⟩ := hinv
  have hperformed := World.perform_performed hreach (writeOp current desired) faults
  have hkept := Performed.same hperformed (.inl (by rw [writeOp_expected]; rfl))
  have hcalls : 0 < (Pc.write attempts rebases current desired).calls maxRetries := Nat.succ_pos _
  have hwrites : (Pc.write attempts rebases current desired).isWrite.toNat ≤
      (Pc.write attempts rebases current desired).writes maxRetries := by
    simp only [Pc.isWrite, Pc.writes, Pc.rebases, Bool.toNat_true]
    omega
  generalize hanswer : (w.perform env faults (writeOp current desired)).1 = answer
  rw [hanswer] at hkept
  rcases answer with e | answer
  · exact ended_facts hcalls hwrites (hkept fun _ h => nomatch h) fun _ h => nomatch h
  · cases answer with
    | publication publication =>
      obtain ⟨isApplied, state⟩ := publication
      cases isApplied with
      | true =>
        refine ⟨trivial, hcalls, hwrites, ?_, fun _ => ⟨_, rfl, state, hanswer⟩, ?_⟩
        · intro hchanged
          exact absurd (applied_changed current attempts desired) (by simpa [publisher] using hchanged)
        · intro hstatus
          cases desired <;> rcases hstatus with hstatus | hstatus <;> cases hstatus
      | false =>
        have hsame := hkept fun _ h => nomatch h
        simp only [publisher, Bool.false_eq_true, if_false]
        split
        · exact ended_facts hcalls hwrites hsame fun _ h => by cases h; rfl
        · rename_i hbudget
          refine ⟨⟨hattempts, Nat.lt_of_not_le hbudget⟩, ?_, ?_, fun _ => hsame, ?_, trivial⟩
          · simp only [Pc.calls]
            omega
          · simp only [Pc.isWrite, Pc.writes, Pc.rebases, Bool.toNat_true]
            omega
          · intro hchanged
            cases hchanged
    | _ => exact ended_facts hcalls hwrites (hkept fun _ h => nomatch h) fun _ h => nomatch h

/-- One call of the port. -/
theorem own_step (hreach : History env w.events w.store) (hinv : Inv job maxRetries pc w)
    (hown : (publisher job maxRetries allowNoop).Own env pc w pc' w') :
    CallFacts env job maxRetries pc w pc' w' := by
  obtain ⟨op, faults, hcall, rfl, rfl⟩ := hown
  cases pc with
  | confirm attempts rebases current desired =>
    cases hcall
    exact confirm_step hreach hinv
  | write attempts rebases current desired =>
    rw [call_write] at hcall
    cases hcall
    exact write_step hreach hinv
  | refresh attempts rebases current =>
    cases hcall
    exact refresh_step hreach hinv
  | finished outcome => cases hcall

theorem start_facts {port : Nat} (captured : w.Answered job.snapshot) :
    PassFacts env job maxRetries 0 w (start job port maxRetries allowNoop) := by
  unfold start
  generalize hrun : (do
    raising (require (∀ owner ∈ job.publicationOwner, owner = port)
      (Err.valueError "prepared_operation_belongs_to_other_context"))
    raising (require (maxRetries ≤ 3) (Err.valueError "invalid_retry_budget"))
    Except.ok (enter job allowNoop 0 0 job.snapshot)) = run
  cases run with
  | error e => exact ⟨trivial, Nat.zero_le _, Nat.zero_le _, rfl, trivial⟩
  | ok pc =>
    simp only [bind_ok, Except.ok.injEq] at hrun
    obtain ⟨_, -, _, -, rfl⟩ := hrun
    have hself : sameSnapshot job.snapshot job.snapshot = true := by simp [sameSnapshot]
    refine enter_facts captured (fun hdiffers => ?_) (Nat.le_refl 0) (Nat.zero_le _)
    rw [hself] at hdiffers
    cases hdiffers

/-- The invariant holds throughout a run. -/
theorem run_inv {trace : List (Step Pc World)} (hreach : History env w.events w.store)
    (hinv : Inv job maxRetries pc w)
    (h : (publisher job maxRetries allowNoop).Run env pc w trace pc' w') :
    ∀ s ∈ trace, History env s.world.events s.world.store ∧ Inv job maxRetries s.pc s.world ∧
      (publisher job maxRetries allowNoop).Own env s.pc s.world s.pc' s.world' := by
  have hrun := Run.invariant
    (I := fun pc w => History env w.events w.store ∧ Inv job maxRetries pc w) h ⟨hreach, hinv⟩ ?_ ?_
  · exact fun s hs => ⟨(hrun.2 s hs).1.1, (hrun.2 s hs).1.2, (hrun.2 s hs).2⟩
  · rintro pc w pc' w' ⟨hreach, hinv⟩ hown
    have hfacts := own_step hreach hinv hown
    obtain ⟨op, faults, -, rfl, -⟩ := hown
    exact ⟨World.perform_history hreach, hfacts.inv⟩
  · rintro pc w w' ⟨hreach, hinv⟩ ⟨op, faults, rfl⟩
    exact ⟨World.perform_history hreach, hinv.other op faults⟩

end Runs

/-! ## Publication under interference -/

/-- The source, the slots that the job replaces or removes and its inputs are as captured; a slot may
also be as the job leaves it. -/
structure Unmoved (job : PreparedReindex) (was now : PreparedResourceBatch) : Prop where
  source : ∃ a b, sourceIdentity was.resource = .ok a ∧ sourceIdentity now.resource = .ok b ∧ a == b
  targets : ∃ slots, targetSlots job = .ok slots ∧ ∀ slot ∈ slots, ∃ own before after,
    ownProjection job slot = .ok own ∧ slotProjection was slot = .ok before ∧
      slotProjection now slot = .ok after ∧ (before == after ∨ own == after)
  inputs : ∃ previous active, outputsOf was = .ok previous ∧ outputsOf now = .ok active ∧
    ∀ slot ∈ job.inputs, ∃ a b, lookup previous slot = some a ∧ lookup active slot = some b ∧
      a.output.artifactRevision = b.output.artifactRevision

theorem binding_of_live {state : PublicationState} (h : state.live = true) :
    ∃ b, state.binding = some b := by
  cases hbinding : state.binding with
  | none => simp [PublicationState.live, hbinding] at h
  | some b => exact ⟨b, rfl⟩

/-- A write replaced the stored snapshot `s` by the graph that the job asks for there. -/
structure Replaced (env : Env) (job : PreparedReindex) (before after : Store) (s : ResourceSnapshot)
    (desired : Option PreparedResourceBatch) : Prop where
  held : Held env before s
  lifecycle : lifecycleOf s.state = lifecycleOf job.snapshot.state
  live : s.state.live = job.snapshot.state.live
  unmoved : sameSnapshot s job.snapshot = true ∨
    ∃ was now, job.snapshot.batch = some was ∧ s.batch = some now ∧ Unmoved job was now
  wanted : desiredGraph job s = .ok desired
  published : ∀ g ∈ desired, ∃ b,
    readGraph env after.committed s.state.resourceId.text = .ok (some b) ∧ SameGraph g b
  withdrawn : desired = none →
    readGraph env after.committed s.state.resourceId.text = .ok none ∧ ∃ b,
      readState s.state.resourceId after.committed = .ok ⟨s.state.resourceId, some b⟩ ∧
      b.status = .liveWithoutProjections ∧ some b.lifecycleId = lifecycleOf s.state

/-- What a run of the loop did, and what its end reports. -/
structure SafeRun (env : Env) (job : PreparedReindex) (maxRetries : Nat)
    (trace : List (Step Pc World)) (pc : Pc) : Prop where
  /-- Only the last call changes the store, and then the run reports the change. -/
  writes_once : ∀ step ∈ trace, step.world'.store.committed = step.world.store.committed ∨
    (pc = step.pc' ∧ pc.changed = true ∧
      ∃ s desired, Replaced env job step.world.store step.world'.store s desired)
  changed : pc.changed = true → ∃ step ∈ trace, pc = step.pc' ∧ AppliedStep step
  reported : ∀ step ∈ trace, Reported env job step.world' step.pc'
  attempts : trace.countP (fun step => step.pc.isWrite) ≤ maxRetries + 1
  rebases : ∀ step ∈ trace, step.pc.rebases ≤ maxRetries
  calls : trace.length ≤ 2 * maxRetries + 1

section Safety

variable {env : Env} {job : PreparedReindex} {s : ResourceSnapshot} {maxRetries : Nat}
  {allowNoop : Bool}

theorem checkInput_ok {previous active : List Active} {slot : Slot}
    (h : checkInput previous active slot = .ok ()) : ∃ a b, lookup previous slot = some a ∧
      lookup active slot = some b ∧ a.output.artifactRevision = b.output.artifactRevision := by
  unfold checkInput at h
  split at h
  · rename_i a b ha hb
    exact ⟨a, b, ha, hb, require_ok.mp h⟩
  · cases h

/-- A pass goes on where the state is the captured one, or nothing that matters to the job moved. -/
theorem checkChanged_none {attempts : Nat} (h : checkChanged job attempts s = .ok none) :
    sameSnapshot s job.snapshot = true ∨
      ∃ was now, job.snapshot.batch = some was ∧ s.batch = some now ∧ Unmoved job was now := by
  unfold checkChanged at h
  split at h
  · exact .inl ‹_›
  · split at h
    · rename_i was now hwas hnow
      simp only [bind_ok] at h
      obtain ⟨before, hbefore, after, hafter, h⟩ := h
      split at h
      · rename_i hsame
        simp only [bind_ok, checkSlots, checkAll_ok, and_true] at h
        obtain ⟨_, previous, hprevious, active, hactive, slots, hslots, _, htargets, hinputs⟩ := h
        refine .inr ⟨was, now, hwas, hnow, ⟨before, after, hbefore, hafter, hsame⟩,
          ⟨slots, hslots, fun slot hslot => ?_⟩,
          ⟨previous, active, hprevious, hactive, fun slot hslot => checkInput_ok (hinputs slot hslot)⟩⟩
        have htarget := htargets slot hslot
        simp only [checkTarget, bind_ok, require_ok] at htarget
        obtain ⟨own, hown, before, hbefore, after, hafter, hagree⟩ := htarget
        exact ⟨own, before, after, hown, hbefore, hafter, hagree⟩
      · simp only [bind_ok, Except.ok.injEq, reduceCtorEq, and_false, exists_false] at h
    · cases h

theorem Ready.replaced {desired : Option PreparedResourceBatch} (h : Ready job s desired)
    {before after : Store} (hheld : Held env before s)
    (hpublished : ∀ g ∈ desired, ∃ b,
      readGraph env after.committed s.state.resourceId.text = .ok (some b) ∧ SameGraph g b)
    (hwithdrawn : desired = none →
      readGraph env after.committed s.state.resourceId.text = .ok none ∧ ∃ b,
        readState s.state.resourceId after.committed = .ok ⟨s.state.resourceId, some b⟩ ∧
        b.status = .liveWithoutProjections ∧ some b.lifecycleId = lifecycleOf s.state) :
    Replaced env job before after s desired := by
  have hlifecycle := h.lifecycle
  simp only [checkLifecycle, require_ok] at hlifecycle
  obtain ⟨attempts, hunmoved⟩ := h.unmoved
  exact ⟨hheld, hlifecycle.1, hlifecycle.2.1, checkChanged_none hunmoved, h.wanted, hpublished,
    hwithdrawn⟩

/-- An applied call is a write onto the stored snapshot. -/
theorem applied_step {step : Step Pc World} (hreach : History env step.world.events step.world.store)
    (hinv : Inv job maxRetries step.pc step.world)
    (hown : (publisher job maxRetries allowNoop).Own env step.pc step.world step.pc' step.world')
    (happlied : AppliedStep step) :
    ∃ s desired, Replaced env job step.world.store step.world'.store s desired := by
  obtain ⟨op, faults, hcall, hworld, -⟩ := hown
  obtain ⟨e, hevents, state, hanswer⟩ := happlied
  have hperformed := World.perform_performed hreach op faults
  rw [hworld] at hevents ⊢
  obtain ⟨rfl, -⟩ := List.cons.inj hevents
  change (step.world.perform env faults op).1 = .ok (.publication ⟨true, state⟩) at hanswer
  rw [hanswer] at hperformed
  cases hpc : step.pc with
  | write attempts rebases current desired =>
    rw [hpc] at hcall hinv
    obtain ⟨-, -, ⟨e, he, hsnapshot⟩, hready⟩ := hinv
    cases desired with
    | some batch =>
      cases hcall
      obtain ⟨previous, b, -, hread, hsame, -, -, hgraph, hwritten⟩ :=
        hperformed.publish_applied hreach.catalog.2
      obtain ⟨rfl, hstored⟩ := hreach.snapshot_current he hsnapshot hread hsame
      refine ⟨current, some batch, hready.replaced ⟨hread, hstored⟩ ?_ (fun h => nomatch h)⟩
      intro g hg
      obtain rfl := Option.some.inj hg
      exact ⟨b, hgraph, hwritten⟩
    | none =>
      cases hcall
      obtain ⟨previous, b, hread, hsame, hlive, hreread, hstatus, hlifecycle, hgraph⟩ :=
        Performed.withdrawn hperformed hreach.catalog.2
      obtain ⟨rfl, hstored⟩ := hreach.snapshot_current he hsnapshot hread hsame
      refine ⟨current, none, hready.replaced ⟨hread, hstored⟩ (fun _ h => nomatch h) fun _ => ?_⟩
      refine ⟨hgraph, b, hreread, hstatus, ?_⟩
      obtain ⟨old, hold⟩ := @binding_of_live current.state hlive
      rw [lifecycleOf, hold, Option.map_some, hlifecycle old hold hlive]
  | confirm attempts rebases current desired =>
    rw [hpc] at hcall
    cases hcall
    exact absurd hperformed Performed.snapshot_not_applied
  | refresh attempts rebases current =>
    rw [hpc] at hcall
    cases hcall
    exact absurd hperformed Performed.snapshot_not_applied
  | finished outcome =>
    rw [hpc] at hcall
    cases hcall

end Safety

/-- Publication of a job captured from the store, among any other writers. -/
theorem publish_reindex_safe {env : Env} {w w' : World} {job : PreparedReindex}
    {port maxRetries : Nat} {allowNoop : Bool} {trace : List (Step Pc World)} {pc : Pc}
    (history : History env w.events w.store) (captured : w.Answered job.snapshot)
    (run : (publisher job maxRetries allowNoop).Run env (start job port maxRetries allowNoop) w
      trace pc w') :
    SafeRun env job maxRetries trace pc ∧ ((∃ outcome, pc = .finished outcome) ∨
      ∃ pc' w'', (publisher job maxRetries allowNoop).Own env pc w' pc' w'') := by
  have hstart := @start_facts env job maxRetries allowNoop w port captured
  have hsteps := run_inv history hstart.inv run
  have hfacts : ∀ step ∈ trace, CallFacts env job maxRetries step.pc step.world step.pc' step.world' :=
    fun step hstep => own_step (hsteps step hstep).1 (hsteps step hstep).2.1 (hsteps step hstep).2.2
  have hlast : ∀ step ∈ trace, step.pc'.changed = true → pc = step.pc' := by
    intro step hstep hchanged
    refine run.last hstep fun w p' w' hown => ?_
    obtain ⟨outcome, hfinished⟩ := finished_of_changed hchanged
    obtain ⟨op, _, hcall, -, -⟩ := hown
    rw [hfinished] at hcall
    cases hcall
  refine ⟨⟨fun step hstep => ?_, ?_, fun step hstep => (hfacts step hstep).reported, ?_, ?_, ?_⟩, ?_⟩
  · cases hchanged : step.pc'.changed with
    | false => exact .inl ((hfacts step hstep).unwritten hchanged)
    | true =>
      have heq := hlast step hstep hchanged
      obtain ⟨hreach, hinv, hown⟩ := hsteps step hstep
      exact .inr ⟨heq, heq ▸ hchanged,
        applied_step hreach hinv hown ((hfacts step hstep).written hchanged)⟩
  · intro hchanged
    rcases run.reached with ⟨-, rfl⟩ | ⟨step, hstep, rfl⟩
    · rw [hstart.unchanged] at hchanged
      cases hchanged
    · exact ⟨step, hstep, rfl, (hfacts step hstep).written hchanged⟩
  · have hbudget := run.budget Pc.isWrite (Pc.writes maxRetries) fun step hstep => (hfacts step hstep).writes
    have hwrites := hstart.writes
    omega
  · intro step hstep
    obtain ⟨-, hinv, -⟩ := hsteps step hstep
    cases hpc : step.pc <;> rw [hpc] at hinv
    · exact hinv.2.1
    · exact hinv.2.1
    · exact hinv.2
    · exact Nat.zero_le _
  · have hbudget := run.budget (fun _ => true) (Pc.calls maxRetries) fun step hstep => by
      have := (hfacts step hstep).calls
      simpa [Nat.add_comm] using this
    simp only [List.countP_true] at hbudget
    have hcalls := hstart.calls
    omega
  · cases pc with
    | finished outcome => exact .inl ⟨outcome, rfl⟩
    | confirm attempts rebases current desired =>
      exact .inr ⟨_, _, _, Transaction.noFaults, rfl, rfl, rfl⟩
    | write attempts rebases current desired =>
      exact .inr ⟨_, _, _, Transaction.noFaults, call_write desired, rfl, rfl⟩
    | refresh attempts rebases current =>
      exact .inr ⟨_, _, _, Transaction.noFaults, rfl, rfl, rfl⟩

/-! ## A transcript for a published talk -/

def sampleJob : PreparedReindex where
  snapshot := sampleTalkSnapshot
  incoming := some sampleAddition
  resource := sampleAddition.resource
  owner := "transcriber"
  inputs := []
  remove := []
  publicationOwner := none

/-- The first call of the loop is the write. -/
@[irreducible] def sampleCall : Op :=
  ((publisher sampleJob 1 true).call (start sampleJob 0 1 true)).get (by decide +kernel)

def sampleAnswered : Except Err Answer × World :=
  sampleRead.2.perform sampleEnv Transaction.noFaults sampleCall

theorem sampleCall_called :
    (publisher sampleJob 1 true).call (start sampleJob 0 1 true) = some sampleCall := by
  unfold sampleCall
  exact (Option.some_get _).symm

theorem sampleAnswered_applied : isApplied sampleAnswered.1 = true := by decide +kernel

theorem publish_reindex_safe_transcript : ∃ step pc,
    AppliedStep step ∧ SafeRun sampleEnv sampleJob 1 [step] pc := by
  have htalk : History sampleEnv sampleTalk.events sampleTalk.store :=
    World.perform_history (w := ⟨[], emptyStore⟩) .start
  have hread : History sampleEnv sampleRead.2.events sampleRead.2.store :=
    World.perform_history htalk
  obtain ⟨pc, hown, happlied⟩ := Client.applied sampleCall_called sampleAnswered_applied
  have hanswered : sampleRead.2.Answered sampleJob.snapshot :=
    World.answered_perform sampleRead_answer
  exact ⟨_, pc, happlied, (publish_reindex_safe hread hanswered (.own .start hown)).1⟩

end MDRack.Reindex
