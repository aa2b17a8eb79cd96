import MDRack.Enrichment.Merge

/-!
# Exactness of the enrichment merge

Principal result: `merge_exact` — an accepted merge drops exactly the least set of stale outputs,
keeps everything else, and leaves a graph whose dependencies hold; a merge that would drop an
incoming output is refused.
-/

namespace MDRack.Enrichment

open Checks
open Json (Value)

namespace Merging

variable {m : Merging} {a b : Active} {current : ResourceSnapshot}
  {addition : PreparedResourceBatch}

/-- A retained output that was made from an incoming slot whose material changed. -/
def seed (m : Merging) (n : Dependencies.Node Slot NonEmptyText) : Prop :=
  n.key ∉ m.incomingSlots ∧ ∃ d ∈ n.dependencies, d.1 ∈ m.changedInputs

/-- The least set of slots that contains the retained outputs made from changed material and every
output with a dependency that is absent, of another revision, or in the set. -/
def Invalid (m : Merging) (slot : Slot) : Prop :=
  Dependencies.Stale (m.active.map (·.node)) m.seed slot

/-! ## The updated dictionary -/

theorem mem_incomingSlots {slot : Slot} :
    slot ∈ m.incomingSlots ↔ ∃ a ∈ m.incoming, a.slot = slot := List.mem_map

theorem Of.before_slots (h : m.Of current addition) : (m.before.map (·.slot)).Nodup :=
  (outputsOf_ok.mp h.before).2.2

theorem Of.incoming_slots (h : m.Of current addition) : (m.incoming.map (·.slot)).Nodup :=
  (outputsOf_ok.mp h.incoming).2.2

theorem updated_slot (m : Merging) (b : Active) :
    ((lookup m.incoming b.slot).getD b).slot = b.slot := by
  cases hlookup : lookup m.incoming b.slot with
  | none => rfl
  | some a => exact (lookup_mem hlookup).2

theorem Of.active_slots (h : m.Of current addition) : (m.active.map (·.slot)).Nodup := by
  refine Table.nodup_map_append ?_ (Table.nodup_map_filter _ h.incoming_slots) ?_
  · rw [List.map_map]
    have hslots : (Active.slot ∘ fun b => (lookup m.incoming b.slot).getD b) = Active.slot :=
      funext fun b => m.updated_slot b
    rw [hslots]
    exact h.before_slots
  · intro a ha b hb
    obtain ⟨-, hnone⟩ := List.mem_filter.mp ha
    obtain ⟨b', hb', rfl⟩ := List.mem_map.mp hb
    rw [Option.isNone_iff_eq_none, lookup_none] at hnone
    rw [m.updated_slot]
    exact hnone b' hb'

theorem Of.mem_active (h : m.Of current addition) :
    a ∈ m.active ↔ a ∈ m.incoming ∨ (a ∈ m.before ∧ a.slot ∉ m.incomingSlots) := by
  rw [active, List.mem_append, List.mem_map, List.mem_filter]
  constructor
  · rintro (⟨b, hb, rfl⟩ | ⟨ha, -⟩)
    · cases hlookup : lookup m.incoming b.slot with
      | none =>
        refine .inr ⟨hb, fun hmem => ?_⟩
        obtain ⟨a, ha, hab⟩ := mem_incomingSlots.mp hmem
        exact lookup_none.mp hlookup a ha hab
      | some a => exact .inl (lookup_mem hlookup).1
    · exact .inl ha
  · rintro (ha | ⟨hb, hnot⟩)
    · cases hlookup : lookup m.before a.slot with
      | none => exact .inr ⟨ha, rfl⟩
      | some b =>
        obtain ⟨hb, hslot⟩ := lookup_mem hlookup
        refine .inl ⟨b, hb, ?_⟩
        rw [hslot, lookup_of_mem h.incoming_slots ha]
        rfl
    · refine .inl ⟨a, hb, ?_⟩
      have hnone : lookup m.incoming a.slot = none :=
        lookup_none.mpr fun x hx hxa => hnot (mem_incomingSlots.mpr ⟨x, hx, hxa⟩)
      rw [hnone]
      rfl

theorem Of.node_keys (h : m.Of current addition) :
    ((m.active.map (·.node)).map (·.key)).Nodup := by
  rw [nodes_keys]
  exact h.active_slots

theorem mem_stale : a ∈ m.stale ↔ a ∈ m.active ∧ m.seed a.node := by
  simp only [stale, List.mem_filter, decide_eq_true_eq, List.any_eq_true]
  rfl

/-- What is left after the seeds is not seeded. -/
theorem Of.mem_rest (h : m.Of current addition) (n : Dependencies.Node Slot NonEmptyText) :
    n ∈ m.rest.map (·.node) ↔ n ∈ m.active.map (·.node) ∧ ¬ m.seed n := by
  simp only [List.mem_map, rest, List.mem_filter, decide_eq_true_eq]
  constructor
  · rintro ⟨a, ⟨ha, hnot⟩, rfl⟩
    exact ⟨⟨a, ha, rfl⟩, fun hseed => hnot ⟨a, mem_stale.mpr ⟨ha, hseed⟩, rfl⟩⟩
  · rintro ⟨⟨a, ha, rfl⟩, hnot⟩
    refine ⟨a, ⟨ha, ?_⟩, rfl⟩
    rintro ⟨b, hb, hslot⟩
    obtain ⟨hb, hseed⟩ := mem_stale.mp hb
    obtain rfl := Table.eq_of_key_eq h.active_slots hb ha hslot
    exact hnot hseed

end Merging

section Accepted

variable {current : ResourceSnapshot} {addition : PreparedResourceBatch} {m : Merging}
  {invalid : List Slot} {r : MergeResult} {a b : Active}

/-- The slots that the merge invalidates are the least stale set, and no incoming one. -/
theorem Accepted.invalid_iff (h : Accepted current addition m invalid r) (slot : Slot) :
    (slot ∈ m.stale.map (·.slot) ++ invalid ↔ m.Invalid slot) ∧
      (m.Invalid slot → slot ∉ m.incomingSlots) := by
  have hrest := Dependencies.stale_iff_without_seeds h.of.node_keys h.of.mem_rest slot
  have hinvalid := h.loop
  simp only [invalidDependencies, bind_ok] at hinvalid
  have hkeys : ((m.rest.map (·.node)).map (·.key)).Nodup := by
    rw [nodes_keys]
    exact Table.nodup_map_filter _ h.of.active_slots
  obtain ⟨_, -, hloop⟩ := hinvalid
  have hspec := Dependencies.invalidate_spec hkeys (fun k hk => by cases hk) hloop slot
  have hseeds : slot ∈ m.stale.map (·.slot) ↔
      ∃ n ∈ m.active.map (·.node), m.seed n ∧ n.key = slot := by
    simp only [List.mem_map, Merging.mem_stale]
    constructor
    · rintro ⟨a, ⟨ha, hseed⟩, rfl⟩
      exact ⟨a.node, ⟨a, ha, rfl⟩, hseed, rfl⟩
    · rintro ⟨_, ⟨a, ha, rfl⟩, hseed, rfl⟩
      exact ⟨a, ⟨ha, hseed⟩, rfl⟩
  refine ⟨?_, ?_⟩
  · rw [List.mem_append, hseeds, hspec.1, Merging.Invalid, hrest]
  · intro hslot
    rcases hrest.mp hslot with ⟨n, -, hseed, rfl⟩ | hstale
    · exact hseed.1
    · exact hspec.2 (hspec.1.mpr hstale)

theorem Accepted.incoming_valid (h : Accepted current addition m invalid r) (ha : a ∈ m.incoming) :
    ¬ m.Invalid a.slot := fun hinvalid =>
  (h.invalid_iff a.slot).2 hinvalid (Merging.mem_incomingSlots.mpr ⟨a, ha, rfl⟩)

/-! ## Removed and new representations -/

/-- A representation goes exactly when it owns a slot that is replaced or invalid. -/
theorem Accepted.mem_removed (h : Accepted current addition m invalid r) {slots : List Slot}
    {p : RepresentationRecord} (hp : p ∈ m.old.representations) :
    p.representationId ∈ m.removed slots ↔
      ∃ a, declared p = some a ∧ a.slot ∈ m.changed.map (·.slot) ++ slots := by
  simp only [Merging.removed, List.mem_map, List.mem_filter, decide_eq_true_eq]
  constructor
  · rintro ⟨b, ⟨hb, hslot⟩, hid⟩
    have hrep : b.rep = p := Table.eq_of_key_eq h.valid_old.representation_ids
      (mem_outputs h.of.before hb).1 hp hid
    subst hrep
    exact ⟨b, declared_of_mem h.of.before hb, hslot⟩
  · rintro ⟨a, ha, hslot⟩
    refine ⟨a, ⟨mem_of_declared h.of.before hp ha, hslot⟩, ?_⟩
    rw [(declared_rep ha).1]

theorem Accepted.mem_newReps (h : Accepted current addition m invalid r)
    {p : RepresentationRecord} : p ∈ m.newReps ↔ ∃ a ∈ m.changed, a.rep = p := by
  simp only [Merging.newReps, List.mem_filter, Option.any_eq_true, decide_eq_true_eq, List.mem_map]
  constructor
  · rintro ⟨hp, a, ha, b, hb, hslot⟩
    have hmem := mem_of_declared h.of.incoming hp ha
    have heq := Table.eq_of_key_eq h.of.incoming_slots (List.mem_of_mem_filter hb) hmem hslot
    exact ⟨b, hb, by rw [heq, (declared_rep ha).1]⟩
  · rintro ⟨a, ha, rfl⟩
    have hmem := List.mem_of_mem_filter ha
    exact ⟨(mem_outputs h.of.incoming hmem).1, a, declared_of_mem h.of.incoming hmem, a, ha, rfl⟩

/-- The slots that the merge drops. -/
abbrev dropped (m : Merging) (invalid : List Slot) : List Slot := m.stale.map (·.slot) ++ invalid

/-- The outputs of the merged graph. -/
def Merging.after (m : Merging) (slots : List Slot) : List Active :=
  (m.before.filter fun b => b.slot ∉ m.changed.map (·.slot) ++ slots) ++ m.changed

theorem Accepted.kept_outputs (h : Accepted current addition m invalid r) (slots : List Slot) :
    (m.keptReps slots).filterMap declared =
      m.before.filter fun b => b.slot ∉ m.changed.map (·.slot) ++ slots := by
  obtain ⟨-, hbefore, -⟩ := outputsOf_ok.mp h.of.before
  rw [hbefore, Merging.keptReps, List.filterMap_filter, List.filter_filterMap]
  refine List.filterMap_congr fun p hp => ?_
  cases hdeclared : declared p with
  | none => simp
  | some a =>
    have hremoved : p.representationId ∈ m.removed slots ↔
        ∃ a, declared p = some a ∧ a.slot ∈ m.changed.map (·.slot) ++ slots := h.mem_removed hp
    simp only [hdeclared, Option.some.injEq, exists_eq_left'] at hremoved
    by_cases hslot : a.slot ∈ m.changed.map (·.slot) ++ slots
    · have hmem := hremoved.mpr hslot
      simp [Option.filter, hmem, hslot]
    · have hmem := mt hremoved.mp hslot
      simp [Option.filter, hmem, hslot]

theorem Accepted.new_outputs (h : Accepted current addition m invalid r) :
    m.newReps.filterMap declared = m.changed := by
  obtain ⟨-, hincoming, -⟩ := outputsOf_ok.mp h.of.incoming
  have hchanged : m.changed = m.incoming.filter fun a => a.slot ∈ m.changed.map (·.slot) := by
    conv_lhs => rw [Merging.changed]
    refine List.filter_congr fun a ha => ?_
    rw [Bool.eq_iff_iff, decide_eq_true_eq, List.mem_map]
    constructor
    · exact fun hc => ⟨a, List.mem_filter.mpr ⟨ha, hc⟩, rfl⟩
    · rintro ⟨b, hb, hslot⟩
      obtain ⟨hb, hc⟩ := List.mem_filter.mp hb
      rwa [Table.eq_of_key_eq h.of.incoming_slots hb ha hslot] at hc
  conv_rhs => rw [hchanged, hincoming, List.filter_filterMap]
  rw [Merging.newReps, List.filterMap_filter]
  refine List.filterMap_congr fun p hp => ?_
  cases hdeclared : declared p with
  | none => simp
  | some a => simp [Option.filter]

theorem Accepted.after (h : Accepted current addition m invalid r) :
    outputsOf r.batch = .ok (m.after (dropped m invalid)) := by
  rw [h.batch]
  obtain ⟨hparse, -, hbefore⟩ := outputsOf_ok.mp h.of.before
  obtain ⟨hparse', -, hincoming⟩ := outputsOf_ok.mp h.of.incoming
  refine outputsOf_ok.mpr ⟨?_, ?_, ?_⟩
  · intro p hp
    rcases List.mem_append.mp hp with hp | hp
    · exact hparse p (List.mem_of_mem_filter hp)
    · exact hparse' p (List.mem_of_mem_filter hp)
  · simp only [Merging.batch, List.filterMap_append, h.kept_outputs, h.new_outputs, Merging.after]
  · refine Table.nodup_map_append (Table.nodup_map_filter _ hbefore)
      (Table.nodup_map_filter _ hincoming) ?_
    intro a ha b hb heq
    obtain ⟨-, hnot⟩ := List.mem_filter.mp hb
    rw [decide_eq_true_eq, List.mem_append, not_or] at hnot
    exact hnot.1 (List.mem_map.mpr ⟨a, ha, heq.symm⟩)

/-! ## Projections of the merged graph -/

theorem Accepted.unit_kept (h : Accepted current addition m invalid r) {slots : List Slot}
    {u : SearchUnitRecord} (hu : u ∈ m.keptUnits slots) :
    ∃ p ∈ m.keptReps slots, p.representationId = u.representationId := by
  obtain ⟨hu, hnot⟩ := List.mem_filter.mp hu
  obtain ⟨p, hp, hid, -⟩ := h.valid_old.unit_representation u hu
  exact ⟨p, List.mem_filter.mpr ⟨hp, by rw [hid]; exact hnot⟩, hid⟩

theorem unit_new {u : SearchUnitRecord} (hu : u ∈ m.newUnits) :
    ∃ p ∈ m.newReps, p.representationId = u.representationId := by
  obtain ⟨-, hmem⟩ := List.mem_filter.mp hu
  simpa using hmem

theorem Accepted.rep_ids (h : Accepted current addition m invalid r) :
    ((m.keptReps (dropped m invalid) ++ m.newReps).map (·.representationId)).Nodup := by
  have := h.valid.representation_ids
  rwa [h.batch] at this

theorem Accepted.unit_ids (h : Accepted current addition m invalid r) :
    ((m.keptUnits (dropped m invalid) ++ m.newUnits).map (·.unitId)).Nodup := by
  have := h.valid.unit_ids
  rwa [h.batch] at this

/-- Vectors of some units of a part are among the vectors of that part. -/
theorem vectors_of_part {owned part : List SearchUnitRecord} (hsub : ∀ u ∈ owned, u ∈ part)
    (vectors : List VectorRecord) :
    (vectors.filter fun v => v.unitId ∈ part.map (·.unitId)).filter
      (fun v => owned.any fun u => u.unitId = v.unitId) =
      vectors.filter fun v => owned.any fun u => u.unitId = v.unitId := by
  rw [List.filter_filter]
  refine List.filter_congr fun v _ => ?_
  cases hv : owned.any fun u => u.unitId = v.unitId with
  | false => rfl
  | true =>
    obtain ⟨u, hu, huv⟩ := List.any_eq_true.mp hv
    rw [decide_eq_true_eq] at huv
    simpa using ⟨u, hsub u hu, huv⟩

/-- Units of one part have no vectors in another. -/
theorem vectors_of_other {owned other : List SearchUnitRecord}
    (hne : ∀ u ∈ owned, ∀ w ∈ other, u.unitId ≠ w.unitId) (vectors : List VectorRecord) :
    (vectors.filter fun v => v.unitId ∈ other.map (·.unitId)).filter
      (fun v => owned.any fun u => u.unitId = v.unitId) = [] := by
  rw [List.filter_eq_nil_iff]
  intro v hv hany
  obtain ⟨u, hu, huv⟩ := List.any_eq_true.mp hany
  obtain ⟨-, hmem⟩ := List.mem_filter.mp hv
  rw [decide_eq_true_eq] at huv hmem
  obtain ⟨w, hw, hwv⟩ := List.mem_map.mp hmem
  exact hne u hu w hw (huv.trans hwv.symm)

/-- A kept representation keeps its units and vectors. -/
theorem Accepted.kept_projection (h : Accepted current addition m invalid r)
    {p : RepresentationRecord} (hp : p ∈ m.keptReps (dropped m invalid)) :
    projection r.batch p.representationId = projection m.old p.representationId := by
  have hkept : p.representationId ∉ m.removed (dropped m invalid) := by
    simpa using (List.mem_filter.mp hp).2
  have hreps : (m.keptReps (dropped m invalid) ++ m.newReps).filter
      (fun q => q.representationId = p.representationId) =
      m.old.representations.filter fun q => q.representationId = p.representationId := by
    rw [Table.filter_append_other fun q hq => (Table.key_ne_of_nodup_append h.rep_ids hp hq).symm]
    exact Table.filter_filter_key fun q _ hq => by simpa [hq] using hkept
  have hunits : (m.keptUnits (dropped m invalid) ++ m.newUnits).filter
      (fun u => u.representationId = p.representationId) =
      m.old.units.filter fun u => u.representationId = p.representationId := by
    rw [Table.filter_append_other]
    · exact Table.filter_filter_key fun u _ hu => by simpa [hu] using hkept
    · intro u hu heq
      obtain ⟨q, hq, hid⟩ := unit_new hu
      exact Table.key_ne_of_nodup_append h.rep_ids hp hq (heq.symm.trans hid.symm)
  have howned : ∀ u ∈ m.old.units.filter fun u => u.representationId = p.representationId,
      u ∈ m.keptUnits (dropped m invalid) := by
    intro u hu
    obtain ⟨hu, hrep⟩ := List.mem_filter.mp hu
    rw [decide_eq_true_eq] at hrep
    exact List.mem_filter.mpr ⟨hu, by simpa [hrep] using hkept⟩
  have hother : ∀ u ∈ m.old.units.filter fun u => u.representationId = p.representationId,
      ∀ w ∈ m.newUnits, u.unitId ≠ w.unitId :=
    fun u hu w hw => Table.key_ne_of_nodup_append h.unit_ids (howned u hu) hw
  rw [h.batch]
  simp only [projection, Merging.batch, hreps, hunits]
  rw [List.filter_append, vectors_of_part howned, vectors_of_other hother, List.append_nil]

/-- A new representation comes with its units and vectors. -/
theorem Accepted.new_projection (h : Accepted current addition m invalid r)
    {p : RepresentationRecord} (hp : p ∈ m.newReps) :
    projection r.batch p.representationId = projection m.addition p.representationId := by
  have hreps : (m.keptReps (dropped m invalid) ++ m.newReps).filter
      (fun q => q.representationId = p.representationId) =
      m.addition.representations.filter fun q => q.representationId = p.representationId := by
    rw [Table.filter_append_added fun q hq => Table.key_ne_of_nodup_append h.rep_ids hq hp]
    refine Table.filter_filter_key fun q hq hid => ?_
    rw [Table.eq_of_key_eq h.valid_addition.representation_ids hq (List.mem_of_mem_filter hp) hid]
    exact (List.mem_filter.mp hp).2
  have hunits : (m.keptUnits (dropped m invalid) ++ m.newUnits).filter
      (fun u => u.representationId = p.representationId) =
      m.addition.units.filter fun u => u.representationId = p.representationId := by
    rw [Table.filter_append_added]
    · exact Table.filter_filter_key fun u _ hu => by simpa [hu] using ⟨p, hp, rfl⟩
    · intro u hu heq
      obtain ⟨q, hq, hid⟩ := h.unit_kept hu
      exact Table.key_ne_of_nodup_append h.rep_ids hq hp (hid.trans heq)
  have howned : ∀ u ∈ m.addition.units.filter fun u => u.representationId = p.representationId,
      u ∈ m.newUnits := by
    intro u hu
    obtain ⟨hu, hrep⟩ := List.mem_filter.mp hu
    rw [decide_eq_true_eq] at hrep
    exact List.mem_filter.mpr ⟨hu, by simpa [hrep] using ⟨p, hp, rfl⟩⟩
  have hother : ∀ u ∈ m.addition.units.filter fun u => u.representationId = p.representationId,
      ∀ w ∈ m.keptUnits (dropped m invalid), u.unitId ≠ w.unitId :=
    fun u hu w hw => (Table.key_ne_of_nodup_append h.unit_ids hw (howned u hu)).symm
  rw [h.batch]
  simp only [projection, Merging.batch, hreps, hunits]
  rw [List.filter_append, vectors_of_part howned, vectors_of_other hother, List.nil_append]

/-! ## Outputs of the merged graph -/

/-- An incoming output that is not new is the active one. -/
theorem Accepted.unchanged (h : Accepted current addition m invalid r) (ha : a ∈ m.incoming)
    (hnot : a ∉ m.changed) : ∃ b ∈ m.before, b.slot = a.slot ∧ b.output = a.output ∧
      (projection m.addition a.rep.representationId ==
        projection m.old b.rep.representationId) = true := by
  rw [Merging.changed, List.mem_filter, not_and] at hnot
  have hsame := hnot ha
  cases hlookup : lookup m.before a.slot with
  | none => simp [hlookup] at hsame
  | some b =>
    obtain ⟨hb, hslot⟩ := lookup_mem hlookup
    have hequal : (projection m.addition a.rep.representationId ==
        projection m.old b.rep.representationId) = true := by
      simpa [hlookup, bne] using hsame
    refine ⟨b, hb, hslot, ?_, hequal⟩
    obtain ⟨harep, haoutput⟩ := mem_outputs h.of.incoming ha
    obtain ⟨hbrep, hboutput⟩ := mem_outputs h.of.before hb
    have hreps : ([a.rep] == [b.rep]) = true := by
      rw [← Table.filter_key_self h.valid_addition.representation_ids harep,
        ← Table.filter_key_self h.valid_old.representation_ids hbrep]
      exact Projection.representations_of_beq hequal
    exact (outputOf_congr (by simpa using hreps) haoutput hboutput).symm

theorem mem_after {slots : List Slot} : b ∈ m.after slots ↔
    (b ∈ m.before ∧ b.slot ∉ m.changed.map (·.slot) ∧ b.slot ∉ slots) ∨ b ∈ m.changed := by
  simp only [Merging.after, List.mem_append, List.mem_filter, decide_eq_true_eq, not_or]

theorem Accepted.mem_changed_of_slot (h : Accepted current addition m invalid r)
    (ha : a ∈ m.incoming) (hslot : a.slot ∈ m.changed.map (·.slot)) : a ∈ m.changed := by
  obtain ⟨b, hb, hbslot⟩ := List.mem_map.mp hslot
  rwa [← Table.eq_of_key_eq h.of.incoming_slots (List.mem_of_mem_filter hb) ha hbslot]

/-- Merged outputs are active ones that are not stale. -/
theorem Accepted.after_active (h : Accepted current addition m invalid r)
    (hb : b ∈ m.after (dropped m invalid)) :
    ∃ a ∈ m.active, a.node = b.node ∧ ¬ m.Invalid b.slot := by
  rcases mem_after.mp hb with ⟨hbefore, hnew, hkept⟩ | hchanged
  · have hvalid : ¬ m.Invalid b.slot := mt (h.invalid_iff b.slot).1.mpr hkept
    by_cases hincoming : b.slot ∈ m.incomingSlots
    · obtain ⟨a, ha, hslot⟩ := Merging.mem_incomingSlots.mp hincoming
      have hnot : a ∉ m.changed := fun hmem => hnew (List.mem_map.mpr ⟨a, hmem, hslot⟩)
      obtain ⟨b', hb', hslot', houtput, -⟩ := h.unchanged ha hnot
      obtain rfl := Table.eq_of_key_eq h.of.before_slots hb' hbefore (hslot'.trans hslot)
      exact ⟨a, h.of.mem_active.mpr (.inl ha), by simp [Active.node, Active.slot, houtput], hvalid⟩
    · exact ⟨b, h.of.mem_active.mpr (.inr ⟨hbefore, hincoming⟩), rfl, hvalid⟩
  · have hincoming := List.mem_of_mem_filter hchanged
    exact ⟨b, h.of.mem_active.mpr (.inl hincoming), rfl, h.incoming_valid hincoming⟩

/-- Active outputs that are not stale are merged. -/
theorem Accepted.active_after (h : Accepted current addition m invalid r) (ha : a ∈ m.active)
    (hvalid : ¬ m.Invalid a.slot) : ∃ b ∈ m.after (dropped m invalid), b.node = a.node := by
  have hkept : a.slot ∉ dropped m invalid := mt (h.invalid_iff a.slot).1.mp hvalid
  rcases h.of.mem_active.mp ha with hincoming | ⟨hbefore, hnot⟩
  · by_cases hchanged : a ∈ m.changed
    · exact ⟨a, mem_after.mpr (.inr hchanged), rfl⟩
    · obtain ⟨b, hb, hslot, houtput, -⟩ := h.unchanged hincoming hchanged
      refine ⟨b, mem_after.mpr (.inl ⟨hb, ?_, by rwa [hslot]⟩), by
        simp [Active.node, Active.slot, houtput]⟩
      rw [hslot]
      exact fun hmem => hchanged (h.mem_changed_of_slot hincoming hmem)
  · refine ⟨a, mem_after.mpr (.inl ⟨hbefore, fun hmem => hnot ?_, hkept⟩), rfl⟩
    obtain ⟨c, hc, hslot⟩ := List.mem_map.mp hmem
    exact Merging.mem_incomingSlots.mpr ⟨c, List.mem_of_mem_filter hc, hslot⟩

theorem Accepted.ranked (h : Accepted current addition m invalid r) :
    Dependencies.Ranked ((m.after (dropped m invalid)).map (·.node)) := by
  have hpeel := h.acyclic
  rw [Enrichment.acyclic, require_ok] at hpeel
  refine (Dependencies.peel_ranked h.of.node_keys hpeel).mono fun n hn => ?_
  obtain ⟨b, hb, rfl⟩ := List.mem_map.mp hn
  obtain ⟨a, ha, hnode, -⟩ := h.after_active hb
  exact List.mem_map.mpr ⟨a, ha, hnode⟩

/-- Every dependency of a merged output is there at the recorded revision. -/
theorem Accepted.dependencies_current (h : Accepted current addition m invalid r)
    (hb : b ∈ m.after (dropped m invalid)) {d : Slot × NonEmptyText}
    (hd : d ∈ b.output.dependencies) : ∃ c ∈ m.after (dropped m invalid),
      c.slot = d.1 ∧ c.output.artifactRevision = d.2 := by
  obtain ⟨a, ha, hnode, hvalid⟩ := h.after_active hb
  have hmem : b.node ∈ m.active.map (·.node) := List.mem_map.mpr ⟨a, ha, hnode⟩
  obtain ⟨n, hn, hslot, hrevision, hnvalid⟩ := Dependencies.fresh_of_not_stale hmem hvalid hd
  obtain ⟨c, hc, rfl⟩ := List.mem_map.mp hn
  obtain ⟨c', hc', hnode'⟩ := h.active_after hc hnvalid
  refine ⟨c', hc', ?_, ?_⟩
  · exact (congrArg Dependencies.Node.key hnode').trans hslot
  · exact (congrArg Dependencies.Node.revision hnode').trans hrevision

end Accepted

/-! ## The whole merge -/

/-- What an accepted merge gives: `after` are the outputs of the merged graph. -/
structure Exact (m : Merging) (r : MergeResult) (after : List Active) : Prop where
  outputs : outputsOf r.batch = .ok after
  /-- Every incoming output is there. -/
  incoming : ∀ a ∈ m.incoming, ∃ b ∈ after, b.slot = a.slot ∧
    (projection m.addition a.rep.representationId ==
      projection r.batch b.rep.representationId) = true
  /-- Of the others exactly the stale ones are gone. -/
  dropped : ∀ b ∈ m.before, b.slot ∉ m.incomingSlots → (b ∈ after ↔ ¬ m.Invalid b.slot)
  others : ∀ b ∈ after, b ∈ m.before ∨ b ∈ m.incoming
  resource : r.batch.resource = m.old.resource
  facets : r.batch.facets = m.old.facets
  /-- Representations without a slot and surviving outputs keep all they own. -/
  kept : ∀ p ∈ m.old.representations,
    (∀ a, declared p = some a → a.slot ∉ m.incomingSlots ∧ ¬ m.Invalid a.slot) →
      p ∈ r.batch.representations ∧
        projection r.batch p.representationId = projection m.old p.representationId
  slots : (after.map (·.slot)).Nodup
  dependencies : ∀ a ∈ after, ∀ d ∈ a.output.dependencies, ∃ b ∈ after,
    b.slot = d.1 ∧ b.output.artifactRevision = d.2
  acyclic : Dependencies.Ranked (after.map (·.node))
  /-- Units and vectors belong to representations that are there. -/
  units : ∀ u ∈ r.batch.units, ∃ p ∈ r.batch.representations,
    p.representationId = u.representationId ∧
      ((p ∈ m.old.representations ∧ u ∈ m.old.units) ∨
        (p ∈ m.addition.representations ∧ u ∈ m.addition.units))
  vectors : ∀ v ∈ r.batch.vectors, ∃ u ∈ r.batch.units, u.unitId = v.unitId ∧
    ((u ∈ m.old.units ∧ v ∈ m.old.vectors) ∨ (u ∈ m.addition.units ∧ v ∈ m.addition.vectors))
  /-- Nothing of a stale output is left. -/
  removed : ∀ b ∈ m.before, m.Invalid b.slot → b.rep ∉ r.batch.representations ∧
    ∀ u ∈ r.batch.units, u.representationId = b.rep.representationId →
      u ∈ m.addition.units ∧ ∀ v ∈ r.batch.vectors, v.unitId = u.unitId → v ∈ m.addition.vectors

section Whole

variable {current : ResourceSnapshot} {addition : PreparedResourceBatch} {m : Merging}
  {invalid : List Slot} {r : MergeResult}

theorem Accepted.gone (h : Accepted current addition m invalid r) {b : Active}
    (hb : b ∈ m.before) (hinvalid : m.Invalid b.slot) : b.rep ∉ r.batch.representations := by
  intro hmem
  have hslot := (h.invalid_iff b.slot).1.mpr hinvalid
  rcases mem_after.mp (mem_of_declared h.after hmem (declared_of_mem h.of.before hb)) with
    ⟨-, -, hkept⟩ | hchanged
  · exact hkept hslot
  · exact h.incoming_valid (List.mem_of_mem_filter hchanged) hinvalid

/-- Units and vectors under the id of a stale output are new ones. -/
theorem Accepted.gone_units (h : Accepted current addition m invalid r) {b : Active}
    (hb : b ∈ m.before) (hinvalid : m.Invalid b.slot) {u : SearchUnitRecord}
    (hu : u ∈ r.batch.units) (hrep : u.representationId = b.rep.representationId) :
    u ∈ m.newUnits ∧ ∀ v ∈ r.batch.vectors, v.unitId = u.unitId → v ∈ m.addition.vectors := by
  have hremoved : b.rep.representationId ∈ m.removed (dropped m invalid) :=
    (h.mem_removed (mem_outputs h.of.before hb).1).mpr ⟨b, declared_of_mem h.of.before hb,
      List.mem_append_right _ ((h.invalid_iff b.slot).1.mpr hinvalid)⟩
  rw [h.batch] at hu ⊢
  rcases List.mem_append.mp hu with hu | hu
  · obtain ⟨-, hnot⟩ := List.mem_filter.mp hu
    rw [decide_eq_true_eq, hrep] at hnot
    exact absurd hremoved hnot
  · refine ⟨hu, fun v hv hvu => ?_⟩
    rcases List.mem_append.mp hv with hv | hv
    · obtain ⟨-, hmem⟩ := List.mem_filter.mp hv
      rw [decide_eq_true_eq, List.mem_map] at hmem
      obtain ⟨w, hw, hwv⟩ := hmem
      exact absurd (hwv.trans hvu) (Table.key_ne_of_nodup_append h.unit_ids hw hu)
    · exact List.mem_of_mem_filter hv

theorem Accepted.exact (h : Accepted current addition m invalid r) :
    Exact m r (m.after (dropped m invalid)) where
  outputs := h.after
  incoming a ha := by
    by_cases hchanged : a ∈ m.changed
    · refine ⟨a, mem_after.mpr (.inr hchanged), rfl, ?_⟩
      rw [h.new_projection (h.mem_newReps.mpr ⟨a, hchanged, rfl⟩)]
      exact BEq.rfl
    · obtain ⟨b, hb, hslot, -, hequal⟩ := h.unchanged ha hchanged
      have hnew : b.slot ∉ m.changed.map (·.slot) := by
        rw [hslot]
        exact fun hmem => hchanged (h.mem_changed_of_slot ha hmem)
      have hkept : b.slot ∉ Enrichment.dropped m invalid := by
        rw [hslot]
        exact mt (h.invalid_iff a.slot).1.mp (h.incoming_valid ha)
      have hrep := (mem_outputs h.of.before hb).1
      have hmem : b.rep ∈ m.keptReps (Enrichment.dropped m invalid) := by
        refine List.mem_filter.mpr ⟨hrep, ?_⟩
        rw [decide_eq_true_eq, h.mem_removed hrep]
        rintro ⟨b', hb', hslot'⟩
        rw [declared_of_mem h.of.before hb, Option.some.injEq] at hb'
        rw [← hb', List.mem_append] at hslot'
        exact hslot'.elim hnew hkept
      refine ⟨b, mem_after.mpr (.inl ⟨hb, hnew, hkept⟩), hslot, ?_⟩
      rw [h.kept_projection hmem]
      exact hequal
  dropped b hb hnot := by
    rw [mem_after, ← (h.invalid_iff b.slot).1]
    have hslots : ∀ slot ∈ m.changed.map (·.slot), slot ∈ m.incomingSlots := by
      intro slot hslot
      obtain ⟨c, hc, rfl⟩ := List.mem_map.mp hslot
      exact Merging.mem_incomingSlots.mpr ⟨c, List.mem_of_mem_filter hc, rfl⟩
    constructor
    · rintro (⟨-, -, hkept⟩ | hchanged)
      · exact hkept
      · exact absurd (hslots _ (List.mem_map.mpr ⟨b, hchanged, rfl⟩)) hnot
    · exact fun hkept => .inl ⟨hb, fun hmem => hnot (hslots _ hmem), hkept⟩
  others b hb := by
    rcases mem_after.mp hb with ⟨hbefore, -⟩ | hchanged
    · exact .inl hbefore
    · exact .inr (List.mem_of_mem_filter hchanged)
  resource := by rw [h.batch]; rfl
  facets := by rw [h.batch]; rfl
  kept p hp hvalid := by
    have hmem : p ∈ m.keptReps (Enrichment.dropped m invalid) := by
      refine List.mem_filter.mpr ⟨hp, ?_⟩
      rw [decide_eq_true_eq, h.mem_removed hp]
      rintro ⟨a, ha, hslot⟩
      obtain ⟨hnot, hkept⟩ := hvalid a ha
      rcases List.mem_append.mp hslot with hslot | hslot
      · obtain ⟨c, hc, hcslot⟩ := List.mem_map.mp hslot
        exact hnot (Merging.mem_incomingSlots.mpr ⟨c, List.mem_of_mem_filter hc, hcslot⟩)
      · exact hkept ((h.invalid_iff a.slot).1.mp hslot)
    refine ⟨?_, h.kept_projection hmem⟩
    rw [h.batch]
    exact List.mem_append_left _ hmem
  slots := (outputsOf_ok.mp h.after).2.2
  dependencies a ha d hd := h.dependencies_current ha hd
  acyclic := h.ranked
  units u hu := by
    rw [h.batch] at hu ⊢
    rcases List.mem_append.mp hu with hu | hu
    · obtain ⟨p, hp, hid⟩ := h.unit_kept hu
      exact ⟨p, List.mem_append_left _ hp, hid, .inl ⟨List.mem_of_mem_filter hp,
        List.mem_of_mem_filter hu⟩⟩
    · obtain ⟨p, hp, hid⟩ := unit_new hu
      exact ⟨p, List.mem_append_right _ hp, hid, .inr ⟨List.mem_of_mem_filter hp,
        List.mem_of_mem_filter hu⟩⟩
  vectors v hv := by
    rw [h.batch] at hv ⊢
    rcases List.mem_append.mp hv with hv | hv
    · obtain ⟨hv, hmem⟩ := List.mem_filter.mp hv
      rw [decide_eq_true_eq, List.mem_map] at hmem
      obtain ⟨u, hu, huv⟩ := hmem
      exact ⟨u, List.mem_append_left _ hu, huv, .inl ⟨List.mem_of_mem_filter hu, hv⟩⟩
    · obtain ⟨hv, hmem⟩ := List.mem_filter.mp hv
      rw [decide_eq_true_eq, List.mem_map] at hmem
      obtain ⟨u, hu, huv⟩ := hmem
      exact ⟨u, List.mem_append_right _ hu, huv, .inr ⟨List.mem_of_mem_filter hu, hv⟩⟩
  removed b hb hinvalid := by
    refine ⟨h.gone hb hinvalid, fun u hu hrep => ?_⟩
    obtain ⟨hnew, hvectors⟩ := h.gone_units hb hinvalid hu hrep
    exact ⟨List.mem_of_mem_filter hnew, hvectors⟩

theorem Merging.Of.unique {m' : Merging} (h : m.Of current addition) (h' : m'.Of current addition) :
    m = m' := by
  obtain ⟨old, add, before, incoming⟩ := m
  obtain ⟨old', add', before', incoming'⟩ := m'
  obtain ⟨hold, rfl, hbefore, hincoming⟩ := h
  obtain ⟨hold', hadd, hbefore', hincoming'⟩ := h'
  simp only at hold hold' hadd hbefore hbefore' hincoming hincoming'
  subst hadd
  obtain rfl := Option.some.inj (hold.symm.trans hold')
  obtain rfl := Except.ok.inj (hbefore.symm.trans hbefore')
  obtain rfl := Except.ok.inj (hincoming.symm.trans hincoming')
  rfl

end Whole

/-- An accepted merge is exact, and a merge that would drop an incoming output raises. -/
theorem merge_exact (current : ResourceSnapshot) (addition : PreparedResourceBatch) :
    (∀ r, merge current addition = .ok r →
      ∃ m after, m.Of current addition ∧ Exact m r after) ∧
    ∀ m, Merging.Of m current addition → (∃ a ∈ m.incoming, m.Invalid a.slot) →
      ∃ e, merge current addition = .error e := by
  refine ⟨fun r h => ?_, fun m hof hstale => ?_⟩
  · obtain ⟨m, invalid, haccepted⟩ := merge_accepted h
    exact ⟨m, m.after (dropped m invalid), haccepted.of, haccepted.exact⟩
  · cases hmerge : merge current addition with
    | error e => exact ⟨e, rfl⟩
    | ok r =>
      exfalso
      obtain ⟨m', invalid, haccepted⟩ := merge_accepted hmerge
      obtain rfl := hof.unique haccepted.of
      obtain ⟨a, ha, hinvalid⟩ := hstale
      exact haccepted.incoming_valid ha hinvalid

/-! ## A transcript and its summary -/

def sampleSource : ResourceRecord where
  resourceId := ⟨"talk", Eq.refl true⟩
  resourceKind := ⟨"audio", Eq.refl true⟩
  mediaType := ⟨"audio/wav", Eq.refl true⟩
  sourceNamespace := ⟨"media", Eq.refl true⟩
  locator := ⟨⟨"file", Eq.refl true⟩, .empty⟩
  contentHash := none
  title := none
  metadata := ⟨[("source_revision", .str "s1")], by decide +kernel⟩

/-- A graph with one unit for each representation. -/
def sampleGraph (reps : List (NonEmptyText × Mapping)) : PreparedResourceBatch where
  resource := sampleSource
  representations := reps.map fun r => ⟨r.1, sampleSource.resourceId, ⟨"text", Eq.refl true⟩,
    ⟨"text", Eq.refl true⟩, none, none, none, none, r.2⟩
  units := reps.map fun r => ⟨r.1, sampleSource.resourceId, r.1, ⟨"whole_resource", Eq.refl true⟩,
    ⟨"text", Eq.refl true⟩, some "words", sampleSource.locator, 0, none, .empty⟩
  spaces := []
  vectors := []
  facets := []

def sampleInfo (purpose revision : String) (dependencies : List Value) : Value :=
  .obj [("artifact_revision", .str revision), ("dependencies", .arr dependencies),
    ("producer", .str "p"), ("purpose", .str purpose), ("recipe", .str "r"),
    ("source_revision", .str "s1"), ("variant", .str "v")]

def sampleTranscript (id : NonEmptyText) : NonEmptyText × Mapping :=
  (id, ⟨[("enrichment_v1", sampleInfo "transcript" "1" [])], by decide +kernel⟩)

def sampleSummary : NonEmptyText × Mapping :=
  (⟨"summary", Eq.refl true⟩, ⟨[("enrichment_v1", sampleInfo "summary" "1" [.obj
    [("purpose", .str "transcript"), ("revision", .str "1"), ("variant", .str "v")]])],
    by decide +kernel⟩)

/-- A transcript and a summary made from it are published. -/
def sampleSnapshot : ResourceSnapshot where
  state := ⟨sampleSource.resourceId, some ⟨.published, ⟨"l", Eq.refl true⟩, ⟨"t", Eq.refl true⟩,
    sampleSource.sourceNamespace, sampleSource.locator⟩⟩
  batch := some (sampleGraph [sampleTranscript ⟨"old", Eq.refl true⟩, sampleSummary])
  agree := rfl
  owned b hb := by cases hb; rfl

/-- A transcript with other units under the same revision. -/
def sampleAddition : PreparedResourceBatch := sampleGraph [sampleTranscript ⟨"new", Eq.refl true⟩]

theorem merge_exact_transcript : ∃ r m after, merge sampleSnapshot sampleAddition = .ok r ∧
    r.invalidated = [sampleSummary.1] ∧ m.Of sampleSnapshot sampleAddition ∧ Exact m r after := by
  have hrun : (merge sampleSnapshot sampleAddition).toOption.map (·.invalidated) =
      some [sampleSummary.1] := by decide +kernel
  cases hmerge : merge sampleSnapshot sampleAddition with
  | error e => simp [hmerge, Except.toOption] at hrun
  | ok r =>
    obtain ⟨m, after, hof, hexact⟩ := (merge_exact sampleSnapshot sampleAddition).1 r hmerge
    exact ⟨r, m, after, rfl, by simpa [hmerge, Except.toOption] using hrun, hof, hexact⟩

end MDRack.Enrichment
