import MDRack.Sqlite.Writing

/-!
# Publication states and transaction bodies

What the state statements do, and what each transaction body amounts to when it ends.

Principal results: `readState_spec` — the state that is read is the one its row encodes;
`publishBody_ends`, `removeBody_ends`, `deleteBody_ends` — the two ways each body can end.
-/

namespace MDRack

open Checks Transaction

/-- The row of a bound state. -/
def stateRow (resourceId : NonEmptyText) (b : PublicationBinding) (metadata : Mapping) : StateRow where
  resourceId := resourceId.text
  status := b.status
  lifecycleId := b.lifecycleId.text
  stateToken := b.stateToken.text
  sourceNamespace := b.sourceNamespace.text
  sourceLocatorKind := b.sourceLocator.kind.text
  sourceLocatorJson := canonicalJson b.sourceLocator.payload
  sourceMetadataJson := canonicalJson metadata

@[simp] theorem decodeState_row (resourceId : NonEmptyText) (b : PublicationBinding)
    (metadata : Mapping) : decodeState resourceId (stateRow resourceId b metadata) =
      .ok ⟨resourceId, some b⟩ := by
  simp [decodeState, stateRow]

/-- The row encodes some bound state. -/
def StateRow.Encoded (row : StateRow) : Prop :=
  ∃ resourceId b metadata, row = stateRow resourceId b metadata

/-- `state` is what the rows say about its resource. -/
def Recorded (states : List StateRow) (state : PublicationState) : Prop :=
  match state.binding with
  | none => ∀ row ∈ states, row.resourceId ≠ state.resourceId.text
  | some b => ∃ metadata, stateRow state.resourceId b metadata ∈ states

section States

variable {t t' : Tables} {id : NonEmptyText} {state : PublicationState}

/-- A state that is read is that of the resource asked for. -/
theorem readState_resourceId (h : readState id t = .ok state) : state.resourceId = id := by
  unfold readState at h
  split at h
  · cases h
    rfl
  · simp only [decodeState, bind_ok, Except.ok.injEq] at h
    obtain ⟨_, -, _, -, _, -, _, -, _, -, rfl⟩ := h
    rfl

theorem readState_spec (hv : ∀ row ∈ t.states, row.Encoded) (h : readState id t = .ok state) :
    state.resourceId = id ∧ Recorded t.states state := by
  unfold readState at h
  split at h
  · rename_i hnone
    cases h
    refine ⟨rfl, fun row hrow => ?_⟩
    have := List.find?_eq_none.mp hnone row hrow
    rwa [decide_eq_true_eq] at this
  · rename_i row hrow
    obtain ⟨hmem, hkey⟩ := Table.key_of_find? StateRow.resourceId hrow
    obtain ⟨rid, b, metadata, rfl⟩ := hv row hmem
    have hid : rid = id := NonEmptyText.ext_text hkey
    subst hid
    rw [decodeState_row] at h
    cases h
    exact ⟨rfl, metadata, hmem⟩

theorem readState_of_row (hids : (t.states.map (·.resourceId)).Nodup) {b : PublicationBinding}
    {metadata : Mapping} (h : stateRow id b metadata ∈ t.states) :
    readState id t = .ok ⟨id, some b⟩ := by
  have hfind := Table.find?_eq_of_mem hids h rfl
  unfold readState
  rw [show (t.states.find? fun s => s.resourceId = id.text) = _ from hfind]
  simp

theorem readState_total (hids : (t.states.map (·.resourceId)).Nodup)
    (hv : ∀ row ∈ t.states, row.Encoded) (id : NonEmptyText) :
    ∃ state, readState id t = .ok state := by
  cases hfind : t.states.find? fun s => s.resourceId = id.text with
  | none => exact ⟨.neverCreated id, by unfold readState; rw [hfind]⟩
  | some row =>
    obtain ⟨hmem, hkey⟩ := Table.key_of_find? StateRow.resourceId hfind
    obtain ⟨rid, b, metadata, rfl⟩ := hv row hmem
    have hid : rid = id := NonEmptyText.ext_text hkey
    subst hid
    exact ⟨_, readState_of_row hids hmem⟩

/-- Only the state rows matter. -/
theorem readState_congr (h : t'.states = t.states) : readState id t' = readState id t := by
  unfold readState
  rw [h]

/-! ## The upsert -/

/-- The state rows after an upsert. -/
def upserted (row : StateRow) (states : List StateRow) : List StateRow :=
  if ∃ s ∈ states, s.resourceId = row.resourceId then
    states.map fun s => if s.resourceId = row.resourceId then row else s
  else states ++ [row]

theorem upsertState_ok {row : StateRow} (h : upsertState row t = .ok t') :
    t' = { t with states := upserted row t.states } ∧
      (row.live → ∀ s ∈ t.states, s.resourceId ≠ row.resourceId → s.live →
        s.liveSource ≠ row.liveSource) := by
  simp only [upsertState, bind_ok, require_ok, exists_const] at h
  obtain ⟨-, hlive, h⟩ := h
  refine ⟨?_, hlive⟩
  unfold upserted
  split at h <;> cases h
  · rename_i hex
    rw [if_pos hex]
  · rename_i hex
    rw [if_neg hex]

theorem mem_upserted {row s : StateRow} {states : List StateRow} :
    s ∈ upserted row states ↔ s = row ∨ s ∈ states ∧ s.resourceId ≠ row.resourceId := by
  unfold upserted
  split
  · rename_i hex
    simp only [List.mem_map]
    constructor
    · rintro ⟨x, hx, rfl⟩
      split
      · exact .inl rfl
      · rename_i hne
        exact .inr ⟨hx, hne⟩
    · rintro (rfl | ⟨hs, hne⟩)
      · obtain ⟨x, hx, hid⟩ := hex
        exact ⟨x, hx, by rw [if_pos hid]⟩
      · exact ⟨s, hs, by rw [if_neg hne]⟩
  · rename_i hex
    rw [List.mem_append, List.mem_singleton]
    constructor
    · rintro (hs | rfl)
      · exact .inr ⟨hs, fun hid => hex ⟨s, hs, hid⟩⟩
      · exact .inl rfl
    · rintro (rfl | ⟨hs, -⟩)
      · exact .inr rfl
      · exact .inl hs

theorem upserted_ids {row : StateRow} {states : List StateRow}
    (h : (states.map (·.resourceId)).Nodup) : ((upserted row states).map (·.resourceId)).Nodup := by
  unfold upserted
  split
  · have hsame : (states.map fun s => if s.resourceId = row.resourceId then row else s).map
        (·.resourceId) = states.map (·.resourceId) := by
      rw [List.map_map]
      refine List.map_congr_left fun s _ => ?_
      simp only [Function.comp_apply]
      split
      · rename_i hid
        exact hid.symm
      · rfl
    rw [hsame]
    exact h
  · rename_i hex
    refine Table.nodup_map_append h (by simp) ?_
    intro a ha b hb hid
    rw [List.mem_singleton] at ha
    rw [ha] at hid
    exact hex ⟨b, hb, hid⟩

theorem find?_map_replace {row : StateRow} {id : String} (hne : row.resourceId ≠ id)
    (states : List StateRow) :
    (states.map fun s => if s.resourceId = row.resourceId then row else s).find?
        (fun s => s.resourceId = id) = states.find? fun s => s.resourceId = id := by
  induction states with
  | nil => rfl
  | cons s rest ih =>
    rw [List.map_cons, List.find?_cons, List.find?_cons, ih]
    by_cases hs : s.resourceId = row.resourceId
    · have hsid : s.resourceId ≠ id := hs ▸ hne
      simp [hs, hne]
    · simp [hs]

/-- The state of another resource is found as before. -/
theorem find?_upserted {row : StateRow} {id : String} (hne : row.resourceId ≠ id)
    (states : List StateRow) :
    (upserted row states).find? (fun s => s.resourceId = id) =
      states.find? fun s => s.resourceId = id := by
  unfold upserted
  split
  · exact find?_map_replace hne states
  · rw [List.find?_append]
    simp [hne]

end States

/-! ## `_put_state` -/

/-- The state row that `_put_state` writes for a fresh token. -/
structure Put (env : Env) (previous : PublicationState) (status : PublicationStatus)
    (batch : Option PreparedResourceBatch) (t : Tables) (n : Nat) (t' : Tables) (n' : Nat)
    (b : PublicationBinding) (metadata : String) : Prop where
  source : stateSource previous batch = .ok (b.sourceNamespace, b.sourceLocator)
  keeps : keepsLiveSource previous (b.sourceNamespace, b.sourceLocator)
  status_eq : b.status = status
  token : ∃ k, n ≤ k ∧ k < n' ∧ b.stateToken = env.uuid k
  lifecycle : ∀ old ∈ previous.binding, previous.live → b.lifecycleId = old.lifecycleId
  lifecycle_new : previous.live = false → ∃ k, n ≤ k ∧ k < n' ∧ b.lifecycleId = env.uuid k
  metadata_eq : stateMetadata previous status batch t = .ok metadata
  upsert : upsertState { stateRow previous.resourceId b .empty with sourceMetadataJson := metadata } t =
    .ok t'

theorem nextLifecycle_ends {env : Env} {previous : PublicationState} {t t' : Tables} {n n' : Nat}
    {lifecycle : NonEmptyText} (h : Ends (nextLifecycle env previous) t n lifecycle t' n') :
    t' = t ∧ n ≤ n' ∧ (∀ old ∈ previous.binding, previous.live → lifecycle = old.lifecycleId) ∧
      (previous.live = false → ∃ k, n ≤ k ∧ k < n' ∧ lifecycle = env.uuid k) := by
  unfold nextLifecycle at h
  split at h
  · rename_i b hb
    split at h
    · rename_i hlive
      rw [ends_pure] at h
      obtain ⟨rfl, rfl, rfl⟩ := h
      refine ⟨rfl, Nat.le_refl _, ?_, by simp [hlive]⟩
      intro old hold _
      rw [hb, Option.mem_some_iff] at hold
      rw [hold]
    · rename_i hlive
      rw [ends_fresh_bind, ends_pure] at h
      obtain ⟨rfl, rfl, rfl⟩ := h
      exact ⟨rfl, Nat.le_succ _, fun _ _ hl => absurd hl hlive,
        fun _ => ⟨n, Nat.le_refl _, Nat.lt_succ_self _, rfl⟩⟩
  · rename_i hb
    rw [ends_fresh_bind, ends_pure] at h
    obtain ⟨rfl, rfl, rfl⟩ := h
    exact ⟨rfl, Nat.le_succ _, by simp [hb], fun _ => ⟨n, Nat.le_refl _, Nat.lt_succ_self _, rfl⟩⟩

theorem putState_ends {env : Env} {previous : PublicationState} {status : PublicationStatus}
    {batch : Option PreparedResourceBatch} {t t' : Tables} {n n' : Nat} {u : Unit}
    (h : Ends (putState env previous status batch) t n u t' n') :
    ∃ b metadata, Put env previous status batch t n t' n' b metadata := by
  simp only [putState, ends_ofExcept_bind] at h
  obtain ⟨source, hsource, _, hkeeps, h⟩ := h
  rw [ends_bind] at h
  obtain ⟨lifecycle, t₁, n₁, hlifecycle, h⟩ := h
  obtain ⟨rfl, hle, hold, hnew⟩ := nextLifecycle_ends hlifecycle
  simp only [ends_query_bind, ends_fresh_bind, ends_execute_bind, ends_failurePoint] at h
  obtain ⟨metadata, hmetadata, t₂, hupsert, rfl, rfl⟩ := h
  refine ⟨⟨status, lifecycle, env.uuid n₁, source.1, source.2⟩, metadata, hsource,
    require_ok.mp hkeeps, rfl, ⟨n₁, hle, Nat.lt_succ_self _, rfl⟩, hold, ?_, hmetadata, hupsert⟩
  intro hlive
  obtain ⟨k, h1, h2, h3⟩ := hnew hlive
  exact ⟨k, h1, by omega, h3⟩

/-! ## Bodies -/

section Bodies

variable {env : Env} {t t' : Tables} {n n' : Nat}

/-- How `_publish` ends. -/
inductive PublishEnds (env : Env) (p : Prepared) (expected : Option ExpectedPublication) (t : Tables)
    (n : Nat) : Finish × PublicationResult → Tables → Nat → Prop
  | refused {previous : PublicationState} {e : ExpectedPublication} (some_expected : expected = some e)
      (read : readState p.batch.resource.resourceId t = .ok previous)
      (differs : (previous == e.state) = false) :
      PublishEnds env p expected t n (.rollback, ⟨false, previous⟩) t n
  | applied {previous state : PublicationState} {t₁ t' : Tables} {n' : Nat} {u : Unit}
      {b : PublicationBinding} {metadata : String}
      (read : readState p.batch.resource.resourceId t = .ok previous)
      (current : ∀ e ∈ expected, previous == e.state)
      (wrote : Ends (writeGraph env p) t n u t₁ n)
      (put : Put env previous .published (some p.batch) t₁ n t' n' b metadata)
      (reread : readState p.batch.resource.resourceId t' = .ok state) :
      PublishEnds env p expected t n (.commit, ⟨true, state⟩) t' n'

theorem writeGraph_draws {p : Prepared} {u : Unit} (h : Ends (writeGraph env p) t n u t' n') :
    n' = n := by
  simp only [writeGraph, ends_query_bind, ends_execute_bind, ends_failurePoint_bind,
    ends_forEach_bind, ends_query] at h
  obtain ⟨_, -, _, -, _, -, _, -, _, -, _, -, _, -, _, -, _, -, _, -, _, -, _, -, -, -, rfl⟩ := h
  rfl

theorem publishBody_ends {p : Prepared} {expected : Option ExpectedPublication}
    {r : Finish × PublicationResult} (h : Ends (publishBody env p expected) t n r t' n') :
    PublishEnds env p expected t n r t' n' := by
  simp only [publishBody, ends_failurePoint_bind, ends_query_bind] at h
  obtain ⟨previous, hread, h⟩ := h
  split at h
  · rename_i hdiffers
    rw [ends_pure] at h
    obtain ⟨rfl, rfl, rfl⟩ := h
    cases he : expected with
    | none => simp [he] at hdiffers
    | some e => exact .refused rfl hread (by simpa [he, bne] using hdiffers)
  · rename_i hcurrent
    rw [ends_bind] at h
    obtain ⟨_, t₁, n₁, hwrite, h⟩ := h
    obtain rfl := writeGraph_draws hwrite
    rw [ends_bind] at h
    obtain ⟨_, t₂, n₂, hput, h⟩ := h
    obtain ⟨b, metadata, hput⟩ := putState_ends hput
    simp only [ends_failurePoint_bind, ends_query_bind, ends_pure] at h
    obtain ⟨state, hreread, rfl, rfl, rfl⟩ := h
    refine .applied hread ?_ hwrite hput hreread
    intro e he
    rw [Option.mem_def] at he
    rw [he] at hcurrent
    simpa [bne] using hcurrent

/-- How `_remove_if_current` ends. -/
inductive RemoveEnds (env : Env) (id : NonEmptyText) (expected : ExpectedPublication) (delete : Bool)
    (t : Tables) (n : Nat) : Finish × PublicationResult → Tables → Nat → Prop
  | refused {previous : PublicationState} (read : readState id t = .ok previous)
      (differs : (previous == expected.state) = false) :
      RemoveEnds env id expected delete t n (.rollback, ⟨false, previous⟩) t n
  | applied {previous state : PublicationState} {t₁ t₂ t₃ t' : Tables} {n' : Nat}
      {b : PublicationBinding} {metadata : String} (read : readState id t = .ok previous)
      (current : previous == expected.state)
      (fts : deleteFts id.text t = .ok t₁) (rows : deleteResourceRow id.text t₁ = .ok t₂)
      (put : Put env previous (if delete then .deleted else .liveWithoutProjections) none t₂ n t₃ n'
        b metadata)
      (prune : pruneFacets t₃ = .ok t') (reread : readState id t' = .ok state) :
      RemoveEnds env id expected delete t n (.commit, ⟨true, state⟩) t' n'

theorem removeBody_ends {id : NonEmptyText} {expected : ExpectedPublication} {delete : Bool}
    {r : Finish × PublicationResult} (h : Ends (removeBody env id expected delete) t n r t' n') :
    RemoveEnds env id expected delete t n r t' n' := by
  simp only [removeBody, ends_query_bind] at h
  obtain ⟨previous, hread, h⟩ := h
  split at h
  · rename_i hdiffers
    rw [ends_pure] at h
    obtain ⟨rfl, rfl, rfl⟩ := h
    exact .refused hread (by simpa [bne] using hdiffers)
  · rename_i hcurrent
    simp only [ends_execute_bind, ends_failurePoint_bind] at h
    obtain ⟨t₁, hfts, t₂, hrows, h⟩ := h
    rw [ends_bind] at h
    obtain ⟨_, t₃, n₃, hput, h⟩ := h
    obtain ⟨b, metadata, hput⟩ := putState_ends hput
    simp only [ends_execute_bind, ends_query_bind, ends_failurePoint_bind, ends_pure] at h
    obtain ⟨t₄, hprune, state, hreread, rfl, rfl, rfl⟩ := h
    exact .applied hread (by simpa [bne] using hcurrent) hfts hrows hput hprune hreread

/-- How `_delete_resource` ends: the rows go, and a live state becomes deleted. -/
inductive DeleteEnds (env : Env) (id : NonEmptyText) (t : Tables) (n : Nat) :
    Finish × Bool → Tables → Nat → Prop
  | ended {state : PublicationState} {t₁ t₂ t₃ t' : Tables} {n' : Nat} {b : PublicationBinding}
      {metadata : String} (read : readState id t = .ok state) (live : state.live)
      (fts : deleteFts id.text t = .ok t₁) (rows : deleteResourceRow id.text t₁ = .ok t₂)
      (put : Put env state .deleted none t₂ n t₃ n' b metadata)
      (prune : pruneFacets t₃ = .ok t') : DeleteEnds env id t n (.commit, true) t' n'
  | nothing {state : PublicationState} {t₁ t₂ t' : Tables} (read : readState id t = .ok state)
      (dead : state.live = false)
      (fts : deleteFts id.text t = .ok t₁) (rows : deleteResourceRow id.text t₁ = .ok t₂)
      (prune : pruneFacets t₂ = .ok t') : DeleteEnds env id t n (.commit, false) t' n

theorem deleteBody_ends {id : NonEmptyText} {r : Finish × Bool}
    (h : Ends (deleteBody env id) t n r t' n') : DeleteEnds env id t n r t' n' := by
  simp only [deleteBody, ends_failurePoint_bind, ends_query_bind, ends_execute_bind] at h
  obtain ⟨state, hread, t₁, hfts, t₂, hrows, h⟩ := h
  cases hlive : state.live with
  | true =>
    simp only [hlive, ↓reduceIte] at h
    rw [ends_bind] at h
    obtain ⟨_, t₃, n₃, hput, h⟩ := h
    obtain ⟨b, metadata, hput⟩ := putState_ends hput
    simp only [ends_execute_bind, ends_failurePoint_bind, ends_pure] at h
    obtain ⟨t₄, hprune, rfl, rfl, rfl⟩ := h
    exact .ended hread hlive hfts hrows hput hprune
  | false =>
    simp only [hlive, Bool.false_eq_true, ↓reduceIte] at h
    simp only [ends_execute_bind, ends_failurePoint_bind, ends_pure] at h
    obtain ⟨t₃, hprune, rfl, rfl, rfl⟩ := h
    exact .nothing hread hlive hfts hrows hprune

end Bodies

end MDRack
