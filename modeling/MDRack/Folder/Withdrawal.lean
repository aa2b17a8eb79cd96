import MDRack.Folder.Import
import MDRack.Sqlite.Isolation

/-!
# What a folder import withdraws

Principal result: `withdraws_only_gone` — a run withdraws only resources of ledger entries that a
complete enumeration of their selected root shows to be gone, and touches nothing else but what it
ingests.
-/

namespace MDRack.Folder

open Transaction (Faults)

/-! ## Port calls -/

/-- From one world to another by operations of a kind, under any faults; the events latest first. -/
inductive Calls (env : Env) (P : Op → Prop) (w : World) : List Event → World → Prop
  | done : Calls env P w [] w
  | call {events : List Event} {w' : World} (h : Calls env P w events w') {op : Op} (hop : P op)
      (faults : Faults Err) : Calls env P w
        (⟨op, w'.store, (w'.perform env faults op).1, (w'.perform env faults op).2.store⟩ :: events)
        (w'.perform env faults op).2

section Calls

variable {env : Env} {P Q : Op → Prop} {w w' w'' : World} {events later : List Event}

theorem Calls.single {op : Op} (hop : P op) (faults : Faults Err) : Calls env P w
    [⟨op, w.store, (w.perform env faults op).1, (w.perform env faults op).2.store⟩]
    (w.perform env faults op).2 := .call .done hop faults

theorem Calls.trans (h : Calls env P w events w') (h' : Calls env P w' later w'') :
    Calls env P w (later ++ events) w'' := by
  induction h' with
  | done => exact h
  | call _ hop faults ih => exact .call ih hop faults

theorem Calls.events_eq (h : Calls env P w events w') : w'.events = events ++ w.events := by
  induction h with
  | done => rfl
  | call _ _ _ ih =>
    rw [List.cons_append, ← ih]
    rfl

theorem Calls.permitted (h : Calls env P w events w') : ∀ e ∈ events, P e.op := by
  induction h with
  | done => exact fun e he => absurd he List.not_mem_nil
  | call _ hop _ ih =>
    intro e he
    rcases List.mem_cons.mp he with rfl | he
    · exact hop
    · exact ih e he

theorem Calls.history (h : Calls env P w events w') (hw : History env w.events w.store) :
    History env w'.events w'.store := by
  induction h with
  | done => exact hw
  | call _ _ _ ih => exact World.perform_history ih

/-- Calls that only read a resource, or are about others, leave it as it was. -/
theorem Calls.untouched (h : Calls env P w events w') (hw : History env w.events w.store)
    {id : String} (hP : ∀ op, P op → (∃ r, op = .readSnapshot r) ∨
      ∃ own, op.target = some own ∧ id ≠ own) :
    Untouched env id w.store.committed w'.store.committed := by
  induction h with
  | done => exact .refl _
  | @call _ w' h op hop faults ih =>
    refine ih.trans ?_
    have hhistory := h.history hw
    have hperformed := World.perform_performed hhistory op faults
    rcases hP op hop with ⟨r, rfl⟩ | ⟨own, hown, hne⟩
    · have hsame : (w'.perform env faults (.readSnapshot r)).2.store.committed =
          w'.store.committed := hperformed.read_unchanged
      rw [hsame]
      exact .refl _
    · exact hperformed.untouched hhistory.catalog.2 hown hne

end Calls

/-! ## What is gone -/

/-- An entry of the loaded ledger that a complete enumeration of its root could not find: it was
not observed, not excluded, not under a blocked prefix, and there is no such path. -/
structure Gone (plan : Plan) (nspace : String) (entry : LifecycleFile) (x : Selected × ScanOutcome) :
    Prop where
  ledger : entry ∈ plan.lifecycle.files nspace
  selected : x ∈ plan.scans
  nspace_eq : x.1.nspace = nspace
  complete : x.2.complete = true
  unobserved : entry.sourceRef ∉ x.2.observedRefs
  included : matchesAny entry.sourceRef plan.exclude = false
  unblocked : ∀ p ∈ x.2.blockedPrefixes, isUnderRelativePrefix entry.sourceRef p = false
  absent : ¬ Present x.1.listing.entries entry.sourceRef

/-- The port calls of a run. -/
inductive Permitted (env : Env) (plan : Plan) : Op → Prop
  | read (id : String) : Permitted env plan (.readSnapshot id)
  | withdraw {nspace : String} {entry : LifecycleFile} {x : Selected × ScanOutcome}
      {state : PublicationState} {b : PublicationBinding} (gone : Gone plan nspace entry x)
      (binding : state.binding = some b) (published : b.status = .published)
      (own : b.sourceNamespace.text = nspace) :
      Permitted env plan (.withdrawIfCurrent entry.resourceId (.of state))
  | publish {c : Candidate} {batch : PreparedResourceBatch} {expected : ExpectedPublication}
      (found : c ∈ plan.candidates)
      (own : batch.resource.resourceId.text = derivedResourceId env c) :
      Permitted env plan (.compareAndPublish batch expected)

def Op.isWithdrawal (op : Op) : Prop := ∃ id expected, op = .withdrawIfCurrent id expected

/-- A withdrawal that was applied. -/
def Event.withdrew (e : Event) : Prop := Op.isWithdrawal e.op ∧ e.applied

section Run

variable {env : Env} {o : Surroundings env} {plan : Plan} {nspace : String}
  {entry known : LifecycleFile} {x : Selected × ScanOutcome} {w : World}

theorem missing_entry (f : LifecycleFile) (hf : f ∈ (missing nspace entry).2) :
    f.sourceRef = entry.sourceRef ∧ f.resourceId = entry.resourceId := by
  cases hf
  exact ⟨rfl, rfl⟩

/-- What reconciling one missing entry does. -/
structure Reconciles (env : Env) (plan : Plan) (entry : LifecycleFile) (w : World)
    (r : Except Err Reconciled × World) : Prop where
  calls : ∃ events, Calls env (Permitted env plan) w events r.2 ∧
    ∀ e ∈ events, Event.withdrew e → ∃ reconciled, r.1 = .ok reconciled ∧
      reconciled.1.status = .unavailable
  entry : ∀ reconciled, r.1 = .ok reconciled → ∀ f ∈ reconciled.2,
    f.sourceRef = entry.sourceRef ∧ f.resourceId = entry.resourceId

theorem withdrawn_entry {answer : Except Err Answer} {reconciled : Reconciled}
    (h : withdrawn nspace entry answer = .ok reconciled) : ∀ f ∈ reconciled.2,
      f.sourceRef = entry.sourceRef ∧ f.resourceId = entry.resourceId := by
  unfold withdrawn at h
  split at h
  · split at h
    · cases h
      exact missing_entry
    · split at h
      · cases h
        exact fun f hf => by cases hf
      · cases h
        exact missing_entry
  · cases h
  · cases h

/-- A read alone withdraws nothing. -/
theorem Reconciles.of_read {result : Except Err Reconciled} {faults : Faults Err}
    (hentry : ∀ reconciled, result = .ok reconciled → ∀ f ∈ reconciled.2,
      f.sourceRef = entry.sourceRef ∧ f.resourceId = entry.resourceId) (id : String) :
    Reconciles env plan entry w (result, (w.perform env faults (.readSnapshot id)).2) where
  calls := by
    refine ⟨_, .single (.read id) faults, fun e he hwithdrew => ?_⟩
    rw [List.mem_singleton.mp he] at hwithdrew
    obtain ⟨⟨_, _, hop⟩, -⟩ := hwithdrew
    cases hop
  entry := hentry

theorem ownsEntry_binding {before : ResourceSnapshot} (h : ownsEntry nspace entry before = true) :
    ∃ b, before.state.binding = some b ∧ b.sourceNamespace.text = nspace := by
  unfold ownsEntry at h
  split at h
  · rename_i batch binding _ hbinding
    simp only [Bool.and_eq_true, beq_iff_eq] at h
    exact ⟨binding, hbinding, h.1.2⟩
  · cases h

theorem published_binding {state : PublicationState} {b : PublicationBinding}
    (h : state.published = true) (hb : state.binding = some b) : b.status = .published := by
  unfold PublicationState.published at h
  rw [hb] at h
  simpa using h

theorem reconcileMissing_reconciles (hgone : Gone plan nspace known x)
    (hid : known.resourceId = entry.resourceId) (w : World) :
    Reconciles env plan entry w (reconcileMissing o nspace entry w) := by
  unfold reconcileMissing
  split
  · refine ⟨⟨[], .done, fun e he => absurd he List.not_mem_nil⟩, fun reconciled h f hf => ?_⟩
    cases h
    cases hf
  · simp only [callPort]
    split
    · exact .of_read (fun _ h => by cases h) _
    · rename_i before hbefore
      split
      · rename_i hpublished
        split
        · rename_i howns
          obtain ⟨b, hb, hnspace⟩ := ownsEntry_binding howns
          have hop : Permitted env plan (.withdrawIfCurrent entry.resourceId (.of before.state)) := by
            rw [← hid]
            exact .withdraw hgone hb (published_binding hpublished hb) hnspace
          refine ⟨⟨_, .call (.single (.read entry.resourceId) _) hop _, ?_⟩,
            fun _ h => withdrawn_entry h⟩
          intro e he hwithdrew
          rcases List.mem_cons.mp he with rfl | he
          · obtain ⟨-, state, happlied⟩ := hwithdrew
            refine ⟨missing nspace entry, ?_, rfl⟩
            simp only at happlied
            rw [happlied]
            rfl
          · rw [List.mem_singleton.mp he] at hwithdrew
            obtain ⟨⟨_, _, hread⟩, -⟩ := hwithdrew
            cases hread
        · exact .of_read (fun _ h => by cases h; exact fun f hf => by cases hf) _
      · exact .of_read (fun _ h => by cases h; exact missing_entry) _
    · exact .of_read (fun _ h => by cases h) _

/-! ## Passes -/

/-- What holds of the state that a step leaves, whether it goes on or raises. -/
def After (goes raises : Pass → Prop) (r : Except Err Unit × Pass) : Prop :=
  match r.1 with
  | .ok _ => goes r.2
  | .error _ => raises r.2

theorem forEntries_after {α : Type} {step : α → Step} {goes raises : Pass → Prop} {as : List α}
    (hstep : ∀ a ∈ as, ∀ s, goes s → After goes raises (step a s)) {s : Pass} (h : goes s) :
    After goes raises (forEntries step as s) := by
  induction as generalizing s with
  | nil => exact h
  | cons a rest ih =>
    have hfirst := hstep a List.mem_cons_self s h
    rw [forEntries]
    unfold After at hfirst
    split at hfirst
    · rename_i heq
      rw [show step a s = (.ok (), (step a s).2) from Prod.ext heq rfl]
      exact ih (fun b hb => hstep b (List.mem_cons_of_mem _ hb)) hfirst
    · rename_i e heq
      rw [show step a s = (.error e, (step a s).2) from Prod.ext heq rfl]
      exact hfirst

/-- A pass has only made permitted calls. -/
def Calling (env : Env) (plan : Plan) (w : World) (s : Pass) : Prop :=
  ∃ events, Calls env (Permitted env plan) w events s.world

/-- Every withdrawal so far is reported. -/
def Reporting (env : Env) (plan : Plan) (w : World) (s : Pass) : Prop :=
  ∃ events, Calls env (Permitted env plan) w events s.world ∧
    ((∃ e ∈ events, Event.withdrew e) → ∃ r ∈ s.results, r.status = .unavailable)

/-- The invariant of the loop over the ledger: reported withdrawals, and a ledger that names no
other resource than the loaded one. -/
structure Reconciling (env : Env) (plan : Plan) (w : World) (s : Pass) : Prop where
  reporting : Reporting env plan w s
  ledger : s.lifecycle.Descends fun nspace k => k ∈ plan.lifecycle.files nspace

theorem Reporting.calling {s : Pass} (h : Reporting env plan w s) : Calling env plan w s := by
  obtain ⟨events, hcalls, -⟩ := h
  exact ⟨events, hcalls⟩

/-- Recording a result keeps the results there were, unless saving the ledger fails. -/
theorem recordResult_after {goes raises : Pass → Prop} {reconciled : Reconciled} {s : Pass}
    (hgoes : ∀ lifecycle, (lifecycle = s.lifecycle ∨
        ∃ f ∈ reconciled.2, lifecycle = (s.lifecycle.update nspace f).1) →
      goes { s with lifecycle := lifecycle, results := s.results ++ [reconciled.1] })
    (hraises : ∀ lifecycle, raises { s with lifecycle := lifecycle }) :
    After goes raises (recordResult o nspace reconciled s) := by
  unfold recordResult
  split
  · exact hgoes s.lifecycle (.inl rfl)
  · rename_i f hf
    dsimp only
    split
    · exact hraises _
    · exact hgoes _ (.inr ⟨f, hf, rfl⟩)

/-- The enumerations of a plan are those of its roots. -/
def Scanned (plan : Plan) : Prop :=
  ∀ x ∈ plan.scans, x.2 = scanRoot x.1.nspace x.1.listing plan.exclude

/-- An entry found missing after a complete enumeration is gone. -/
theorem gone_of_missing (hscanned : Scanned plan) (hx : x ∈ plan.scans) (hcomplete : x.2.complete = true)
    (hmissing : isMissing x.2 plan.exclude entry = true)
    (hknown : known ∈ plan.lifecycle.files x.1.nspace) (href : known.sourceRef = entry.sourceRef) :
    Gone plan x.1.nspace known x := by
  simp only [isMissing, Bool.and_eq_true, decide_eq_true_eq, Bool.not_eq_true', ← href] at hmissing
  obtain ⟨⟨hunobserved, hincluded⟩, hunblocked⟩ := hmissing
  have hclear : ∀ p ∈ x.2.blockedPrefixes, isUnderRelativePrefix known.sourceRef p = false := by
    intro p hp
    rw [List.any_eq_false] at hunblocked
    simpa using hunblocked p hp
  refine ⟨hknown, hx, rfl, hcomplete, hunobserved, hincluded, hclear, fun hpresent => ?_⟩
  rw [hscanned x hx] at hcomplete hunobserved hclear
  rcases scanRoot_covers hcomplete hpresent with hobserved | ⟨p, hp, hunder⟩
  · exact hunobserved hobserved
  · rw [hclear p hp] at hunder
    cases hunder

theorem reconcileEntry_after (hscanned : Scanned plan) (hx : x ∈ plan.scans)
    (hcomplete : x.2.complete = true) (hknown : known ∈ plan.lifecycle.files x.1.nspace)
    (href : known.sourceRef = entry.sourceRef) (hid : known.resourceId = entry.resourceId)
    {s : Pass} (h : Reconciling env plan w s) :
    After (Reconciling env plan w) (Calling env plan w) (reconcileEntry o plan.exclude x entry s) := by
  unfold reconcileEntry
  split
  · rename_i hmissing
    have hgone := gone_of_missing hscanned hx hcomplete hmissing hknown href
    have hreconciles := reconcileMissing_reconciles (o := o) hgone hid s.world
    obtain ⟨events, hcalls, hreported⟩ := h.reporting
    obtain ⟨later, hlater, hwithdrew⟩ := hreconciles.calls
    split
    · rename_i e w' heq
      rw [heq] at hlater
      exact ⟨_, hcalls.trans hlater⟩
    · rename_i reconciled w' heq
      rw [heq] at hlater hwithdrew
      refine recordResult_after (fun lifecycle hlifecycle => ⟨⟨_, hcalls.trans hlater, ?_⟩, ?_⟩)
        fun _ => ⟨_, hcalls.trans hlater⟩
      · rintro ⟨e, he, hw⟩
        rcases List.mem_append.mp he with he | he
        · obtain ⟨_, hok, hstatus⟩ := hwithdrew e he hw
          cases hok
          exact ⟨reconciled.1, List.mem_append_right _ List.mem_cons_self, hstatus⟩
        · obtain ⟨r, hr, hstatus⟩ := hreported ⟨e, he, hw⟩
          exact ⟨r, List.mem_append_left _ hr, hstatus⟩
      · rcases hlifecycle with rfl | ⟨f, hf, rfl⟩
        · exact h.ledger
        · obtain ⟨hfref, hfid⟩ := hreconciles.entry reconciled (by rw [heq]) f hf
          exact h.ledger.update ⟨known, hgone.ledger, href.trans hfref.symm, hid.trans hfid.symm⟩
  · exact h

theorem reconcileRoot_after (hscanned : Scanned plan) (hx : x ∈ plan.scans) {s : Pass}
    (h : Reconciling env plan w s) :
    After (Reconciling env plan w) (Calling env plan w) (reconcileRoot o plan.exclude x s) := by
  unfold reconcileRoot
  split
  · rename_i hcomplete
    refine forEntries_after (fun entry hentry s' h' => ?_) h
    obtain ⟨known, hknown, href, hid⟩ := h.ledger x.1.nspace entry hentry
    exact reconcileEntry_after hscanned hx hcomplete hknown href hid h'
  · exact h

/-! ## Candidates -/

theorem performWrites_calls {c : Candidate} (hc : c ∈ plan.candidates)
    {writes : List (PreparedResourceBatch × ExpectedPublication)}
    (hown : ∀ x ∈ writes, x.1.resource.resourceId.text = derivedResourceId env c) (w : World) :
    ∃ events, Calls env (Permitted env plan) w events (performWrites o writes w) ∧
      ∀ e ∈ events, ¬ Event.withdrew e := by
  induction writes generalizing w with
  | nil => exact ⟨[], .done, fun e he => absurd he List.not_mem_nil⟩
  | cons x rest ih =>
    have hfirst : Calls env (Permitted env plan) w _ (callPort o (.compareAndPublish x.1 x.2) w).2 :=
      .single (.publish hc (hown x List.mem_cons_self)) _
    obtain ⟨events, hcalls, hnone⟩ := ih (fun y hy => hown y (List.mem_cons_of_mem _ hy))
      (callPort o (.compareAndPublish x.1 x.2) w).2
    refine ⟨_, hfirst.trans hcalls, fun e he => ?_⟩
    rcases List.mem_append.mp he with he | he
    · exact hnone e he
    · rw [List.mem_singleton.mp he]
      rintro ⟨⟨_, _, hop⟩, -⟩
      cases hop

/-- Processing a candidate withdraws nothing. -/
theorem processCandidate_calls {c : Candidate} (hc : c ∈ plan.candidates) (w : World) :
    ∃ events, Calls env (Permitted env plan) w events (processCandidate o c w).2 ∧
      ∀ e ∈ events, ¬ Event.withdrew e := by
  have hread : Calls env (Permitted env plan) w _
      (callPort o (.readSnapshot (derivedResourceId env c)) w).2 := .single (.read _) _
  have hnone : ∀ e ∈ [(⟨.readSnapshot (derivedResourceId env c), w.store,
      (w.perform env (o.faults w.events.length) (.readSnapshot (derivedResourceId env c))).1,
      (w.perform env (o.faults w.events.length)
        (.readSnapshot (derivedResourceId env c))).2.store⟩ : Event)], ¬ Event.withdrew e := by
    intro e he
    rw [List.mem_singleton.mp he]
    rintro ⟨⟨_, _, hop⟩, -⟩
    cases hop
  unfold processCandidate
  dsimp only
  split
  · exact ⟨_, hread, hnone⟩
  · rename_i before _
    unfold processRead
    split
    · exact ⟨_, hread, hnone⟩
    · split
      · exact ⟨_, hread, hnone⟩
      · obtain ⟨events, hcalls, hwrites⟩ := performWrites_calls (o := o) hc (o.ingest c before).own
          (callPort o (.readSnapshot (derivedResourceId env c)) w).2
        have hboth : ∃ events, Calls env (Permitted env plan) w events
            (performWrites o (o.ingest c before).writes
              (callPort o (.readSnapshot (derivedResourceId env c)) w).2) ∧
            ∀ e ∈ events, ¬ Event.withdrew e := by
          refine ⟨_, hread.trans hcalls, fun e he => ?_⟩
          rcases List.mem_append.mp he with he | he
          · exact hwrites e he
          · exact hnone e he
        dsimp only
        split <;> exact hboth
  · exact ⟨_, hread, hnone⟩

theorem candidateStep_after {c : Candidate} (hc : c ∈ plan.candidates) {s : Pass}
    (h : Reporting env plan w s) :
    After (Reporting env plan w) (Calling env plan w) (candidateStep o c s) := by
  obtain ⟨events, hcalls, hreported⟩ := h
  obtain ⟨later, hlater, hnone⟩ := processCandidate_calls (o := o) hc s.world
  have hstill : (∃ e ∈ later ++ events, Event.withdrew e) →
      ∃ r ∈ s.results, r.status = .unavailable := by
    rintro ⟨e, he, hw⟩
    rcases List.mem_append.mp he with he | he
    · exact absurd hw (hnone e he)
    · exact hreported ⟨e, he, hw⟩
  unfold candidateStep
  split
  · rename_i e w' heq
    rw [heq] at hlater
    exact ⟨_, hcalls.trans hlater⟩
  · rename_i reconciled w' heq
    rw [heq] at hlater
    refine recordResult_after (fun lifecycle _ => ⟨_, hcalls.trans hlater, fun hw => ?_⟩)
      fun _ => ⟨_, hcalls.trans hlater⟩
    obtain ⟨r, hr, hstatus⟩ := hstill hw
    exact ⟨r, List.mem_append_left _ hr, hstatus⟩

theorem runPlan_after (hscanned : Scanned plan) {s : Pass} (h : Reconciling env plan w s) :
    After (Reporting env plan w) (Calling env plan w) (runPlan o plan s) := by
  have hfirst : After (Reconciling env plan w) (Calling env plan w)
      (forEntries (reconcileRoot o plan.exclude) plan.scans s) :=
    forEntries_after (fun x hx s hs => reconcileRoot_after hscanned hx hs) h
  unfold runPlan After at *
  split at hfirst
  · rename_i heq
    rw [show forEntries (reconcileRoot o plan.exclude) plan.scans s =
      (.ok (), (forEntries (reconcileRoot o plan.exclude) plan.scans s).2) from Prod.ext heq rfl]
    exact forEntries_after (fun c hc s hs => candidateStep_after hc hs) hfirst.reporting
  · rename_i e heq
    rw [show forEntries (reconcileRoot o plan.exclude) plan.scans s =
      (.error e, (forEntries (reconcileRoot o plan.exclude) plan.scans s).2) from Prod.ext heq rfl]
    exact hfirst

/-! ## The whole run -/

theorem selectStep_namespaces {folders : List (String × Root)} {selected result : List Selected}
    (h : folders.foldlM selectStep selected = .ok result) :
    result.map (·.nspace) = selected.map (·.nspace) ++ folders.map (·.1) := by
  induction folders generalizing selected with
  | nil =>
    cases h
    simp
  | cons item rest ih =>
    simp only [List.foldlM_cons, Checks.bind_ok, selectStep, Checks.require_ok, exists_const,
      Except.ok.injEq] at h
    obtain ⟨next, ⟨-, -, found, -, -, -, rfl⟩, hrest⟩ := h
    rw [ih hrest]
    simp

/-- A plan enumerates the selected roots. -/
theorem prepare_plan {request : Request} (h : prepare o request = .ok plan) :
    Scanned plan ∧ ∀ x ∈ plan.scans, x.1.nspace ∈ request.folders.map (·.1) := by
  simp only [prepare, Checks.bind_ok, Except.ok.injEq] at h
  obtain ⟨selections, hselections, _, -, lifecycle, -, _, -, _, -, _, -, _, -, rfl⟩ := h
  simp only [validateSelections, Checks.bind_ok, Checks.require_ok, exists_const] at hselections
  have hnames := selectStep_namespaces hselections.2
  refine ⟨fun x hx => ?_, fun x hx => ?_⟩
  · obtain ⟨s, -, rfl⟩ := List.mem_map.mp hx
    rfl
  · obtain ⟨s, hs, rfl⟩ := List.mem_map.mp hx
    rw [List.map_nil, List.nil_append] at hnames
    rw [← hnames]
    exact List.mem_map.mpr ⟨s, hs, rfl⟩

/-- A run that reports an unavailable file has not failed. -/
theorem not_failed_of_unavailable {results : List FileResult}
    (h : ∃ r ∈ results, r.status = .unavailable) : (importResult plan results).status ≠ .failed := by
  obtain ⟨r, hr, hstatus⟩ := h
  have husable : (Sorting.sortOn (fun r : FileResult => toLex (r.nspace, r.sourceRef)) results).any
      isUsable = true :=
    List.any_eq_true.mpr ⟨r, Sorting.mem_sortOn.mpr hr, by simp [isUsable, hstatus]⟩
  intro hfailed
  simp only [importResult, overallStatus] at hfailed
  rw [husable] at hfailed
  split at hfailed
  · cases hfailed
  · split at hfailed <;> cases hfailed

/-- A run withdraws only what a complete enumeration of a selected root shows to be gone: entries of
the loaded ledger whose published graph has the namespace.  Other resources, those it ingests
apart, stay as they were.  A run that raises before its first port call changes nothing, and one
that returns `failed` has withdrawn nothing. -/
theorem withdraws_only_gone (o : Surroundings env) (request : Request) (w : World)
    (history : History env w.events w.store) :
    (∀ e, prepare o request = .error e → (run o request w).2 = w) ∧
    ∀ plan, prepare o request = .ok plan →
      ∃ events, (run o request w).2.events = events ++ w.events ∧
        (∀ e ∈ events, Op.isWithdrawal e.op → ∃ nspace entry x state b,
          Gone plan nspace entry x ∧ nspace ∈ request.folders.map (·.1) ∧
          e.op = .withdrawIfCurrent entry.resourceId (.of state) ∧ state.binding = some b ∧
          b.status = .published ∧ b.sourceNamespace.text = nspace) ∧
        (∀ id, (∀ c ∈ plan.candidates, derivedResourceId env c ≠ id) →
          (∀ nspace entry x, Gone plan nspace entry x → entry.resourceId ≠ id) →
          Untouched env id w.store.committed (run o request w).2.store.committed) ∧
        ∀ result, (run o request w).1 = .ok result → result.status = .failed →
          ∀ e ∈ events, ¬ Event.withdrew e := by
  refine ⟨fun e h => by rw [run, h], fun plan hplan => ?_⟩
  obtain ⟨hscanned, hselected⟩ := prepare_plan hplan
  have hstart : Reconciling env plan w ⟨w, plan.lifecycle, plan.scans.flatMap (·.2.results)⟩ := by
    refine ⟨⟨[], .done, ?_⟩, fun nspace f hf => ⟨f, hf, rfl, rfl⟩⟩
    rintro ⟨e, he, -⟩
    cases he
  have hpermitted : ∀ (events : List Event) (w' : World), Calls env (Permitted env plan) w events w' →
      w'.events = events ++ w.events ∧
      (∀ e ∈ events, Op.isWithdrawal e.op → ∃ nspace entry x state b,
        Gone plan nspace entry x ∧ nspace ∈ request.folders.map (·.1) ∧
        e.op = .withdrawIfCurrent entry.resourceId (.of state) ∧ state.binding = some b ∧
        b.status = .published ∧ b.sourceNamespace.text = nspace) ∧
      ∀ id, (∀ c ∈ plan.candidates, derivedResourceId env c ≠ id) →
        (∀ nspace entry x, Gone plan nspace entry x → entry.resourceId ≠ id) →
        Untouched env id w.store.committed w'.store.committed := by
    intro events w' hcalls
    refine ⟨hcalls.events_eq, fun e he hwithdrawal => ?_, fun id hcandidates hgone => ?_⟩
    · obtain ⟨id, expected, hop⟩ := hwithdrawal
      have hcall := hcalls.permitted e he
      generalize e.op = op at hcall hop
      cases hcall with
      | read => cases hop
      | publish => cases hop
      | @withdraw nspace entry x state b gone binding published own =>
        refine ⟨nspace, entry, x, state, b, gone, ?_, rfl, binding, published, own⟩
        rw [← gone.nspace_eq]
        exact hselected x gone.selected
    · refine hcalls.untouched history fun op hop => ?_
      cases hop with
      | read r => exact .inl ⟨r, rfl⟩
      | withdraw gone => exact .inr ⟨_, rfl, (hgone _ _ _ gone).symm⟩
      | publish found own => exact .inr ⟨_, rfl, own ▸ (hcandidates _ found).symm⟩
  have hafter := runPlan_after (o := o) hscanned hstart
  rw [run, hplan]
  unfold After at hafter
  dsimp only
  split at hafter
  · rename_i heq
    rw [show runPlan o plan ⟨w, plan.lifecycle, plan.scans.flatMap (·.2.results)⟩ =
      (.ok (), (runPlan o plan ⟨w, plan.lifecycle, plan.scans.flatMap (·.2.results)⟩).2) from
      Prod.ext heq rfl]
    obtain ⟨events, hcalls, hreported⟩ := hafter
    obtain ⟨hevents, hwithdrawals, huntouched⟩ := hpermitted events _ hcalls
    refine ⟨events, hevents, hwithdrawals, huntouched, fun result hresult hfailed e he hw => ?_⟩
    cases hresult
    exact not_failed_of_unavailable (hreported ⟨e, he, hw⟩) hfailed
  · rename_i e heq
    rw [show runPlan o plan ⟨w, plan.lifecycle, plan.scans.flatMap (·.2.results)⟩ =
      (.error e, (runPlan o plan ⟨w, plan.lifecycle, plan.scans.flatMap (·.2.results)⟩).2) from
      Prod.ext heq rfl]
    obtain ⟨events, hcalls⟩ := hafter
    obtain ⟨hevents, hwithdrawals, huntouched⟩ := hpermitted events _ hcalls
    exact ⟨events, hevents, hwithdrawals, huntouched, fun result hresult => by cases hresult⟩

end Run

/-! ## A note that has disappeared -/

/-- The ledger entry of the stored note. -/
def noteEntry : LifecycleFile where
  sourceRef := "gone.md"
  valid := by decide +kernel
  kind := .document
  mediaType := "text/markdown"
  mediaType_ne := by decide
  resourceId := "note"
  resourceId_ne := by decide
  availability := .available
  sourceHash := none
  sourceBytes := none

/-- Surroundings in which nothing is ingested. -/
def noteSurroundings (save : Except Err Unit) : Surroundings sampleEnv where
  storeDir := some ["store"]
  cacheDir := some ["cache"]
  lifecycle := .ok ⟨[("notes", [("gone.md", noteEntry)])]⟩
  registry := .ok []
  writeRegistry := .ok ()
  configuredExclude := []
  requireCapabilities _ _ := .ok ()
  space := ⟨⟨"space", Eq.refl true⟩, ⟨1, Nat.one_pos⟩, .cosine, ⟨"f", Eq.refl true⟩, .empty⟩
  ingest _ _ := ⟨[], fun _ hx => absurd hx List.not_mem_nil, .error .interrupted, 0⟩
  faults _ := Transaction.noFaults
  save _ := save

/-- The empty root of the notes, and a root that cannot be listed. -/
def notesAndLocked : Request where
  folders := [("notes", .directory ["library", "notes"] ⟨true, []⟩),
    ("photos", .directory ["library", "photos"] ⟨false, []⟩)]
  exclude := []

/-- The note is published. -/
def noteWorld : World :=
  ((⟨[], emptyStore⟩ : World).perform sampleEnv Transaction.noFaults creation).2

theorem noteWorld_history : History sampleEnv noteWorld.events noteWorld.store :=
  World.perform_history (w := ⟨[], emptyStore⟩) .start

/-- The answers to withdrawals, as reported. -/
def reportsWithdrawal (e : Event) : Bool :=
  match e.op with
  | .withdrawIfCurrent _ _ => isApplied e.answer
  | _ => false

theorem withdrew_of_reports {e : Event} (h : reportsWithdrawal e = true) : Event.withdrew e := by
  unfold reportsWithdrawal at h
  split at h
  · rename_i id expected hop
    exact ⟨⟨id, expected, hop⟩, isApplied_eq h⟩
  · cases h

/-- The note is withdrawn in a run with an incomplete root, and in a run that raises afterwards
because the ledger cannot be saved. -/
theorem incomplete_run_withdraws :
    (∃ plan, prepare (noteSurroundings (.ok ())) notesAndLocked = .ok plan ∧
      ∃ x ∈ plan.scans, x.2.complete = false) ∧
    (∃ e ∈ (run (noteSurroundings (.ok ())) notesAndLocked noteWorld).2.events, Event.withdrew e) ∧
    (∃ error, (run (noteSurroundings (.error (refusal "folder_lifecycle_write_failed")))
      notesAndLocked noteWorld).1 = .error error) ∧
    ∃ e ∈ (run (noteSurroundings (.error (refusal "folder_lifecycle_write_failed")))
      notesAndLocked noteWorld).2.events, Event.withdrew e := by
  have hscans : ((prepare (noteSurroundings (.ok ())) notesAndLocked).toOption.map fun plan =>
      plan.scans.any fun x => !x.2.complete) = some true := by decide +kernel
  have hfirst : (run (noteSurroundings (.ok ())) notesAndLocked noteWorld).2.events.any
      reportsWithdrawal = true := by decide +kernel
  have hraised : (run (noteSurroundings (.error (refusal "folder_lifecycle_write_failed")))
      notesAndLocked noteWorld).1.toOption.isNone = true := by decide +kernel
  have hsecond : (run (noteSurroundings (.error (refusal "folder_lifecycle_write_failed")))
      notesAndLocked noteWorld).2.events.any reportsWithdrawal = true := by decide +kernel
  refine ⟨?_, ?_, ?_, ?_⟩
  · cases hprepare : prepare (noteSurroundings (.ok ())) notesAndLocked with
    | error e => simp [hprepare, Except.toOption] at hscans
    | ok plan => exact ⟨plan, rfl, by simpa [hprepare, Except.toOption] using hscans⟩
  · obtain ⟨e, he, hreports⟩ := List.any_eq_true.mp hfirst
    exact ⟨e, he, withdrew_of_reports hreports⟩
  · cases hrun : (run (noteSurroundings (.error (refusal "folder_lifecycle_write_failed")))
        notesAndLocked noteWorld).1 with
    | error e => exact ⟨e, rfl⟩
    | ok result => simp [hrun, Except.toOption] at hraised
  · obtain ⟨e, he, hreports⟩ := List.any_eq_true.mp hsecond
    exact ⟨e, he, withdrew_of_reports hreports⟩

theorem withdraws_only_gone_note : ∃ plan events,
    prepare (noteSurroundings (.ok ())) notesAndLocked = .ok plan ∧
    (run (noteSurroundings (.ok ())) notesAndLocked noteWorld).2.events =
      events ++ noteWorld.events ∧
    ∀ e ∈ events, Op.isWithdrawal e.op → ∃ nspace entry x, Gone plan nspace entry x := by
  have hsome : (prepare (noteSurroundings (.ok ())) notesAndLocked).toOption.isSome = true := by
    decide +kernel
  cases hprepare : prepare (noteSurroundings (.ok ())) notesAndLocked with
  | error e => simp [hprepare, Except.toOption] at hsome
  | ok plan =>
    obtain ⟨events, hevents, hwithdrawals, -, -⟩ := (withdraws_only_gone
      (noteSurroundings (.ok ())) notesAndLocked noteWorld noteWorld_history).2 plan hprepare
    refine ⟨plan, events, rfl, hevents, fun e he hop => ?_⟩
    obtain ⟨nspace, entry, x, _, _, hgone, -⟩ := hwithdrawals e he hop
    exact ⟨nspace, entry, x, hgone⟩

end MDRack.Folder
