import MDRack.Sqlite.GraphReader
import MDRack.Lib.Sorting

/-!
# The normal form of a graph

A stored graph reads back with each part in the order of its key and with the spaces that some
vector uses.

Principal results: `readGraph_normalForm` — what the reader gives for a stored batch;
`normalForm_same` — the normal form is the same graph; `normalForm_normalForm` — and its own
normal form.
-/

namespace MDRack

open Checks Sorting

/-- Three columns as one key. -/
def columnsKey (a : String × Nat × String) : String ×ₗ ℕ ×ₗ String := toLex (a.1, toLex (a.2.1, a.2.2))

/-- The columns that order facet rows. -/
def FacetValues.orderKey (a : FacetValues) : String ×ₗ String ×ₗ String ×ₗ ℕ ×ₗ String :=
  toLex (a.facetNamespace, toLex (a.value, toLex (a.origin,
    toLex (a.producerIsNull.toNat, a.producerValue))))

theorem columnsLe_iff {a b : String × Nat × String} : columnsLe a b ↔ columnsKey a ≤ columnsKey b := by
  simp only [columnsLe, columnsKey, Prod.Lex.toLex_le_toLex, Bool.or_eq_true, Bool.and_eq_true,
    decide_eq_true_eq, beq_iff_eq]

theorem facetLe_iff {a b : FacetValues} : facetLe a b ↔ a.orderKey ≤ b.orderKey := by
  simp only [facetLe, FacetValues.orderKey, columnsLe, Prod.Lex.toLex_le_toLex, Bool.or_eq_true,
    Bool.and_eq_true, decide_eq_true_eq, beq_iff_eq, bne_iff_ne, ne_eq, Prod.mk.injEq]
  grind

theorem orderBy_eq {α : Type} (key : α → String × Nat × String) (rows : List α) :
    orderBy key rows = sortOn (fun a => columnsKey (key a)) rows := by
  unfold orderBy sortOn
  simp only [columnsLe_iff]

theorem columnsKey_injective {a b : String × Nat × String} (h : columnsKey a = columnsKey b) :
    a = b := by
  obtain ⟨a1, a2, a3⟩ := a
  obtain ⟨b1, b2, b3⟩ := b
  simpa [columnsKey] using h

/-- `ORDER BY` the columns of records written as rows. -/
theorem mapAll_orderBy {α β : Type} {f : α → Except Err β} {key : α → String × Nat × String}
    {itemKey : β → String × Nat × String} {rows : List α} {items : List β}
    (h : mapAll f rows = .ok items) (hkey : ∀ a b, f a = .ok b → itemKey b = key a)
    (hkeys : (items.map itemKey).Nodup) :
    mapAll f (orderBy key rows) = .ok (orderBy itemKey items) := by
  rw [orderBy_eq, orderBy_eq]
  refine mapAll_sortOn h (fun a b hab => by rw [hkey a b hab]) ?_
  exact Table.nodup_map_of_key hkeys fun a _ b _ heq => columnsKey_injective heq

theorem orderBy_congr {α : Type} {key : α → String × Nat × String} {rows rows' : List α}
    (hperm : rows.Perm rows') (hkeys : (rows.map key).Nodup) : orderBy key rows = orderBy key rows' := by
  rw [orderBy_eq, orderBy_eq]
  exact sortOn_congr hperm (Table.nodup_map_of_key hkeys fun a _ b _ heq => columnsKey_injective heq)

theorem orderBy_inOrder {α : Type} (key : α → String × Nat × String) (rows : List α) :
    InOrder (fun a => columnsKey (key a)) (orderBy key rows) := by
  rw [orderBy_eq]
  exact sortOn_inOrder _ rows

/-! ## Normal forms -/

def RepresentationRecord.orderKey (p : RepresentationRecord) : String × Nat × String :=
  (p.representationId.text, 0, "")

def SearchUnitRecord.orderKey (u : SearchUnitRecord) : String × Nat × String :=
  (u.representationId.text, u.ordinal, u.unitId.text)

def EmbeddingSpaceRecord.orderKey (s : EmbeddingSpaceRecord) : String × Nat × String :=
  (s.spaceId.text, 0, "")

def VectorRecord.orderKey (v : VectorRecord) : String × Nat × String :=
  (v.unitId.text, 0, v.spaceId.text)

namespace PreparedResourceBatch

/-- The spaces that some vector uses. -/
def usedSpaces (b : PreparedResourceBatch) : List EmbeddingSpaceRecord :=
  b.spaces.filter fun s => b.vectors.any fun v => v.spaceId = s.spaceId

def normalForm (b : PreparedResourceBatch) : PreparedResourceBatch where
  resource := b.resource
  representations := orderBy (·.orderKey) b.representations
  units := orderBy (·.orderKey) b.units
  spaces := orderBy (·.orderKey) b.usedSpaces
  vectors := orderBy (·.orderKey) b.vectors
  facets := sortOn (fun f => (facetValues f).orderKey) b.facets

end PreparedResourceBatch

section Keys

variable {b : PreparedResourceBatch}

theorem ValidBatch.representation_keys (h : ValidBatch b) :
    (b.representations.map (·.orderKey)).Nodup :=
  Table.nodup_map_of_key h.representation_ids fun _ _ _ _ heq =>
    NonEmptyText.ext_text (Prod.mk.inj heq).1

theorem ValidBatch.unit_keys (h : ValidBatch b) : (b.units.map (·.orderKey)).Nodup :=
  Table.nodup_map_of_key h.unit_ids fun _ _ _ _ heq =>
    NonEmptyText.ext_text (Prod.mk.inj (Prod.mk.inj heq).2).2

theorem ValidBatch.space_keys (h : ValidBatch b) : (b.spaces.map (·.orderKey)).Nodup :=
  Table.nodup_map_of_key h.space_ids fun _ _ _ _ heq => NonEmptyText.ext_text (Prod.mk.inj heq).1

theorem ValidBatch.vector_order_keys (h : ValidBatch b) : (b.vectors.map (·.orderKey)).Nodup := by
  refine Table.nodup_map_of_key h.vector_keys fun v _ w _ heq => ?_
  obtain ⟨hunit, hrest⟩ := Prod.mk.inj heq
  exact Prod.ext (NonEmptyText.ext_text hunit) (NonEmptyText.ext_text (Prod.mk.inj hrest).2)

theorem producer_of_row {f g : ResourceFacet}
    (hnull : (facetValues f).producerIsNull.toNat = (facetValues g).producerIsNull.toNat)
    (hvalue : (facetValues f).producerValue = (facetValues g).producerValue) :
    f.producerFingerprint = g.producerFingerprint := by
  simp only [facetValues] at hnull hvalue
  cases hf : f.producerFingerprint with
  | none => cases hg : g.producerFingerprint <;> simp [hf, hg] at hnull ⊢
  | some p =>
    cases hg : g.producerFingerprint with
    | none => simp [hf, hg] at hnull
    | some q =>
      simp only [hf, hg, Option.map_some, Option.getD_some] at hvalue
      rw [NonEmptyText.ext_text hvalue]

theorem ValidBatch.facet_order_keys (h : ValidBatch b) :
    (b.facets.map fun f => (facetValues f).orderKey).Nodup := by
  refine Table.nodup_map_of_key h.facet_keys fun f hf g hg heq => ?_
  simp only [FacetValues.orderKey, EmbeddingLike.apply_eq_iff_eq, Prod.mk.injEq] at heq
  obtain ⟨hns, hvalue, horigin, hnull, hproducer⟩ := heq
  simp only [ResourceFacet.key, h.facet_owner f hf, h.facet_owner g hg, Prod.mk.injEq, true_and]
  exact ⟨NonEmptyText.ext_text hns, NonEmptyText.ext_text hvalue, NonEmptyText.ext_text horigin,
    producer_of_row hnull hproducer⟩

theorem mem_usedSpaces {s : EmbeddingSpaceRecord} : s ∈ b.usedSpaces ↔
    s ∈ b.spaces ∧ ∃ v ∈ b.vectors, v.spaceId = s.spaceId := by
  simp [PreparedResourceBatch.usedSpaces]

theorem ValidBatch.used_keys (h : ValidBatch b) : (b.usedSpaces.map (·.orderKey)).Nodup :=
  Table.nodup_map_filter _ h.space_keys

/-- The normal form is the same graph. -/
theorem ValidBatch.normalForm_same (h : ValidBatch b) : SameGraph b b.normalForm where
  resource := rfl
  representations := orderBy_perm _ _
  units := orderBy_perm _ _
  vectors := orderBy_perm _ _
  facets := sortOn_perm _ _
  space_ids := ((orderBy_perm _ _).map _).nodup_iff.mpr (Table.nodup_map_filter _ h.space_ids)
  spaces _ := ((orderBy_perm _ _).mem_iff).trans mem_usedSpaces

theorem ValidBatch.normalForm (h : ValidBatch b) : ValidBatch b.normalForm :=
  h.congr h.normalForm_same

/-- One graph has one normal form. -/
theorem SameGraph.normalForm_eq {a : PreparedResourceBatch} (h : ValidBatch a) (hs : SameGraph a b) :
    b.normalForm = a.normalForm := by
  have hspaces : b.usedSpaces.Perm a.usedSpaces := by
    have hb : b.usedSpaces.Nodup := (Table.nodup_map_filter _ hs.space_ids).of_map
    have ha : a.usedSpaces.Nodup := (Table.nodup_map_filter _ h.space_ids).of_map
    rw [List.perm_ext_iff_of_nodup hb ha]
    intro s
    rw [mem_usedSpaces, mem_usedSpaces, hs.spaces]
    constructor
    · exact fun hmem => hmem.1
    · rintro ⟨hmem, v, hv, hid⟩
      exact ⟨⟨hmem, v, hv, hid⟩, v, hs.vectors.mem_iff.mpr hv, hid⟩
  have hvalid := h.congr hs
  simp only [PreparedResourceBatch.normalForm, PreparedResourceBatch.mk.injEq]
  exact ⟨hs.resource, orderBy_congr hs.representations hvalid.representation_keys,
    orderBy_congr hs.units hvalid.unit_keys, orderBy_congr hspaces hvalid.used_keys,
    orderBy_congr hs.vectors hvalid.vector_order_keys, sortOn_congr hs.facets hvalid.facet_order_keys⟩

theorem ValidBatch.normalForm_normalForm (h : ValidBatch b) :
    b.normalForm.normalForm = b.normalForm := h.normalForm_same.normalForm_eq h

end Keys

/-! ## Reading a stored batch -/

section ReadBack

variable {env : Env} {t : Tables} {p : Prepared}

/-- Records written row by row read back in their order. -/
theorem read_orderBy {α β : Type} {encode : β → α} {decode : α → Except Err β}
    {key : α → String × Nat × String} {itemKey : β → String × Nat × String}
    (hdecode : ∀ b, decode (encode b) = .ok b) (hkey : ∀ b, key (encode b) = itemKey b)
    {rows : List α} {items : List β} (hrows : rows = items.map encode) :
    mapAll decode (orderBy key rows) = .ok (orderBy itemKey items) := by
  have hsort : orderBy key rows = (orderBy itemKey items).map encode := by
    rw [hrows, orderBy_eq, orderBy_eq, sortOn_map]
    simp only [hkey]
  rw [hsort]
  exact mapAll_map hdecode _

theorem stored_used_spaces (hp : IsPrepared env p) (hs : Stored t p)
    (hids : (t.spaces.map (·.spaceId)).Nodup) :
    (spacesOf t p.resourceValues.resourceId).Perm (p.batch.usedSpaces.map spaceRow) := by
  have hrows : (spacesOf t p.resourceValues.resourceId).Nodup :=
    (Table.nodup_map_filter _ hids).of_map
  have hused : (p.batch.usedSpaces.map spaceRow).Nodup := by
    refine List.Nodup.map (fun _ _ => spaceRow_injective) ?_
    exact (Table.nodup_map_filter _ hp.valid.space_ids).of_map
  rw [List.perm_ext_iff_of_nodup hrows hused]
  intro row
  rw [stored_space hp hs hids, List.mem_map]
  simp only [mem_usedSpaces]

theorem decodeEmbedding_key {row : EmbeddingRow} {v : VectorRecord}
    (h : decodeJoinedEmbedding t row = .ok v) : v.orderKey = (row.unitId, 0, row.spaceId) := by
  simp only [decodeJoinedEmbedding, decodeEmbedding, bind_ok, getOr_ok, Except.ok.injEq] at h
  obtain ⟨_, -, _, -, _, -, unitId, hunit, spaceId, hspace, rfl⟩ := h
  rw [VectorRecord.orderKey, requireNonEmpty_ok hunit, requireNonEmpty_ok hspace]

theorem readGraphOf_normalForm (hp : IsPrepared env p) (hs : Stored t p)
    (hids : (t.spaces.map (·.spaceId)).Nodup) :
    readGraphOf t p.batch.resource = .ok p.batch.normalForm := by
  have hid : p.batch.resource.resourceId.text = p.resourceValues.resourceId := by
    rw [hp.resource]
    rfl
  have hrepresentations : mapAll decodeRepresentation
      (orderBy (fun r => (r.representationId, 0, "")) (representationsOf t p.resourceValues.resourceId)) =
      .ok (orderBy (·.orderKey) p.batch.representations) :=
    read_orderBy decodeRepresentation_row (fun _ => rfl)
      (hs.representations.trans hp.representations)
  have hunits : mapAll decodeUnit (orderBy (fun u => (u.representationId, u.ordinal, u.unitId))
      (unitsOf t p.resourceValues.resourceId)) = .ok (orderBy (·.orderKey) p.batch.units) :=
    read_orderBy decodeUnit_row (fun _ => rfl) (hs.units.trans hp.units)
  have hspaces : mapAll decodeSpace (orderBy (fun s => (s.spaceId, 0, ""))
      (spacesOf t p.resourceValues.resourceId)) = .ok (orderBy (·.orderKey) p.batch.usedSpaces) := by
    rw [orderBy_congr (stored_used_spaces hp hs hids)]
    · exact read_orderBy decodeSpace_row (fun _ => rfl) rfl
    · exact Table.nodup_map_of_key (Table.nodup_map_filter _ hids)
        fun _ _ _ _ heq => (Prod.mk.inj heq).1
  have hvectors : mapAll (decodeJoinedEmbedding t) (orderBy (fun e => (e.unitId, 0, e.spaceId))
      p.vectorValues) = .ok (orderBy (·.orderKey) p.batch.vectors) :=
    mapAll_orderBy (stored_vectors hp hs hids) (fun _ _ h => decodeEmbedding_key h)
      hp.valid.vector_order_keys
  have hfacets : mapAll (decodeFacet p.batch.resource.resourceId)
      (p.facetValues.insertionSort fun a b => facetLe a b) =
      .ok (sortOn (fun f => (facetValues f).orderKey) p.batch.facets) := by
    have hsort : (p.facetValues.insertionSort fun a b => facetLe a b) =
        (sortOn (fun f => (facetValues f).orderKey) p.batch.facets).map facetValues := by
      rw [hp.facets, ← sortOn_map]
      simp only [sortOn, facetLe_iff]
    rw [hsort]
    exact mapAll_map_of_mem fun f hf => facet_owner_decodes hp (mem_sortOn.mp hf)
  simp only [readGraphOf, hid, bind_ok, Except.ok.injEq]
  rw [hs.embeddings, hs.facets]
  exact ⟨_, hrepresentations, _, hunits, _, hspaces, _, hvectors, _, hfacets, rfl⟩

/-- What the graph reader gives for a stored batch. -/
theorem readGraph_normalForm (hp : IsPrepared env p) (hs : Stored t p)
    (hids : (t.spaces.map (·.spaceId)).Nodup) :
    readGraph env t p.resourceValues.resourceId = .ok (some p.batch.normalForm) := by
  simp only [readGraph, bind_ok]
  exact ⟨some p.batch.resource, readResource_stored hp hs,
    by simp [readGraphOf_normalForm hp hs hids, Except.map]⟩

end ReadBack

end MDRack
