import MDRack.Core.Common

/-!
# Resource, vector, batch and publication records (`mdrack_core.domain`)

Each record carries what its `__post_init__` checks: identities are nonblank, mappings frozen,
counts natural, vectors nonempty and finite, confidences within `[0, 1]`, and a publication
state is bound to a source exactly when the resource was ever created.

`==` between records is field by field, numbers by value.
-/

namespace MDRack

open Binary64 (F64)

structure Locator where
  kind : NonEmptyText
  payload : Mapping
  deriving BEq, ReflBEq

theorem Locator.beq_iff {a b : Locator} : (a == b) = true ↔
    a.kind = b.kind ∧ (a.payload == b.payload) = true := by
  change instBEqLocator.beq a b = true ↔ _
  cases a
  cases b
  simp only [instBEqLocator.beq, Bool.and_eq_true, beq_iff_eq]

instance : EquivBEq Locator where
  symm {_ _} h := by
    rw [Locator.beq_iff] at h ⊢
    exact ⟨h.1.symm, BEq.symm h.2⟩
  trans {_ _ _} h h' := by
    rw [Locator.beq_iff] at h h' ⊢
    exact ⟨h.1.trans h'.1, BEq.trans h.2 h'.2⟩

inductive TokenCountKind
  | exact
  | estimated
  deriving DecidableEq, Repr

/-- `token_count` and `token_count_kind` are supplied together. -/
structure TokenCount where
  count : Nat
  kind : TokenCountKind
  deriving DecidableEq, Repr

structure ResourceRecord where
  resourceId : NonEmptyText
  resourceKind : NonEmptyText
  mediaType : NonEmptyText
  sourceNamespace : NonEmptyText
  locator : Locator
  contentHash : Option NonEmptyText
  title : Option String
  metadata : Mapping
  deriving BEq, ReflBEq

/-- Equal resources have equal metadata. -/
theorem ResourceRecord.metadata_of_beq {p p' : ResourceRecord} (h : p == p') :
    Json.pyEqFields p.metadata.fields p'.metadata.fields = true := by
  change instBEqResourceRecord.beq p p' = true at h
  cases p
  cases p'
  simp only [instBEqResourceRecord.beq, Bool.and_eq_true] at h
  obtain ⟨-, -, -, -, -, -, -, hmetadata⟩ := h
  have hfields : Json.pyEq (.obj _) (.obj _) = true := hmetadata
  rwa [Json.pyEq] at hfields

structure RepresentationRecord where
  representationId : NonEmptyText
  resourceId : NonEmptyText
  representationKind : NonEmptyText
  modality : NonEmptyText
  text : Option String
  language : Option NonEmptyText
  producerFingerprint : Option NonEmptyText
  tokenCount : Option TokenCount
  metadata : Mapping
  deriving BEq, ReflBEq

/-- Equal representations have equal metadata. -/
theorem RepresentationRecord.metadata_of_beq {p p' : RepresentationRecord} (h : p == p') :
    Json.pyEqFields p.metadata.fields p'.metadata.fields = true := by
  change instBEqRepresentationRecord.beq p p' = true at h
  cases p
  cases p'
  simp only [instBEqRepresentationRecord.beq, Bool.and_eq_true] at h
  obtain ⟨-, -, -, -, -, -, -, -, hmetadata⟩ := h
  have hfields : Json.pyEq (.obj _) (.obj _) = true := hmetadata
  rwa [Json.pyEq] at hfields

structure SearchUnitRecord where
  unitId : NonEmptyText
  resourceId : NonEmptyText
  representationId : NonEmptyText
  unitKind : NonEmptyText
  modality : NonEmptyText
  text : Option String
  evidenceLocator : Locator
  ordinal : Nat
  tokenCount : Option TokenCount
  metadata : Mapping
  deriving BEq, ReflBEq

structure Facet where
  facetNamespace : NonEmptyText
  value : NonEmptyText
  deriving DecidableEq, Repr

/-- A finite float; `==` identifies the two zeros. -/
structure Number where
  val : F64
  deriving DecidableEq, Repr

instance : BEq Number := ⟨fun x y => x.val.sameNumber y.val⟩

instance : ReflBEq Number := ⟨by intro x; simp [BEq.beq, F64.sameNumber]⟩

/-- `0.0 <= x <= 1.0`. -/
def Number.isConfidence (x : Number) : Bool :=
  decide (0 ≤ x.val.value) && decide (x.val.value ≤ Binary64.unit)

structure Confidence where
  number : Number
  inRange : number.isConfidence = true
  deriving DecidableEq, Repr

instance : BEq Confidence := ⟨fun x y => x.number == y.number⟩

instance : ReflBEq Confidence := ⟨BEq.rfl (a := Number.mk _)⟩

structure ResourceFacet where
  resourceId : NonEmptyText
  facet : Facet
  origin : NonEmptyText
  producerFingerprint : Option NonEmptyText
  confidence : Option Confidence
  deriving BEq, ReflBEq

inductive Metric
  | cosine
  | dot
  | l2
  deriving DecidableEq, Repr

structure EmbeddingSpaceRecord where
  spaceId : NonEmptyText
  dimensions : { n : Nat // 0 < n }
  metric : Metric
  fingerprint : NonEmptyText
  metadata : Mapping
  deriving BEq, ReflBEq

theorem EmbeddingSpaceRecord.beq_iff {a b : EmbeddingSpaceRecord} : (a == b) = true ↔
    (a.spaceId = b.spaceId ∧ a.dimensions = b.dimensions ∧ a.metric = b.metric ∧
      a.fingerprint = b.fingerprint) ∧ (a.metadata == b.metadata) = true := by
  change instBEqEmbeddingSpaceRecord.beq a b = true ↔ _
  cases a
  cases b
  simp only [instBEqEmbeddingSpaceRecord.beq, Bool.and_eq_true, beq_iff_eq, and_assoc]

theorem EmbeddingSpaceRecord.beq_symm {a b : EmbeddingSpaceRecord} (h : (a == b) = true) :
    (b == a) = true := by
  rw [EmbeddingSpaceRecord.beq_iff] at h ⊢
  obtain ⟨⟨hid, hdimensions, hmetric, hfingerprint⟩, hmetadata⟩ := h
  exact ⟨⟨hid.symm, hdimensions.symm, hmetric.symm, hfingerprint.symm⟩, BEq.symm hmetadata⟩

/-- `freeze_vector`: a nonempty tuple of finite floats. -/
structure Vector where
  values : List Number
  nonempty : values ≠ []

theorem Vector.ext_values {a b : Vector} (h : a.values = b.values) : a = b := by
  cases a; cases b; simp_all

instance : BEq Vector := ⟨fun a b => a.values == b.values⟩

instance : ReflBEq Vector := ⟨BEq.rfl (a := (_ : List Number))⟩

/-- `math.hypot(*vector) == 0.0`. -/
def Vector.isZero (v : Vector) : Bool := v.values.all fun x => x.val.value == 0

structure VectorRecord where
  unitId : NonEmptyText
  spaceId : NonEmptyText
  vector : Vector
  deriving BEq, ReflBEq

/-- One immutable, fully prepared resource graph. -/
structure PreparedResourceBatch where
  resource : ResourceRecord
  representations : List RepresentationRecord
  units : List SearchUnitRecord
  spaces : List EmbeddingSpaceRecord
  vectors : List VectorRecord
  facets : List ResourceFacet
  deriving BEq, ReflBEq

/-! ## Publication records -/

/-- Statuses of a resource that was created at least once. -/
inductive PublicationStatus
  | published
  | liveWithoutProjections
  | deleted
  deriving DecidableEq, Repr

/-- What a created resource is bound to. -/
structure PublicationBinding where
  status : PublicationStatus
  lifecycleId : NonEmptyText
  stateToken : NonEmptyText
  sourceNamespace : NonEmptyText
  sourceLocator : Locator
  deriving BEq, ReflBEq

theorem PublicationBinding.beq_iff {a b : PublicationBinding} : (a == b) = true ↔
    (a.status = b.status ∧ a.lifecycleId = b.lifecycleId ∧ a.stateToken = b.stateToken ∧
      a.sourceNamespace = b.sourceNamespace) ∧ (a.sourceLocator == b.sourceLocator) = true := by
  change instBEqPublicationBinding.beq a b = true ↔ _
  cases a
  cases b
  simp only [instBEqPublicationBinding.beq, Bool.and_eq_true, beq_iff_eq, and_assoc]

/-- `PublicationState`; without a binding its status is `never_created`. -/
structure PublicationState where
  resourceId : NonEmptyText
  binding : Option PublicationBinding
  deriving BEq, ReflBEq

def PublicationState.neverCreated (resourceId : NonEmptyText) : PublicationState := ⟨resourceId, none⟩

def PublicationState.published (s : PublicationState) : Bool :=
  match s.binding with
  | some b => b.status == .published
  | none => false

def PublicationState.live (s : PublicationState) : Bool :=
  match s.binding with
  | some b => b.status == .published || b.status == .liveWithoutProjections
  | none => false

theorem PublicationState.live_of_published {s : PublicationState} (h : s.published) : s.live := by
  obtain ⟨id, binding⟩ := s
  cases binding with
  | none => cases h
  | some b =>
    have hstatus : (b.status == .published) = true := h
    simp [live, hstatus]

/-- Creation expects an absent or deleted state, anything else a live one. -/
structure ExpectedPublication where
  state : PublicationState
  create : Bool
  explicit : create ≠ state.live

/-- `ExpectedPublication(state, create=not state.live)`. -/
def ExpectedPublication.of (state : PublicationState) : ExpectedPublication :=
  ⟨state, !state.live, by simp⟩

structure ResourceSnapshot where
  state : PublicationState
  batch : Option PreparedResourceBatch
  agree : batch.isSome = state.published
  owned : ∀ b ∈ batch, b.resource.resourceId = state.resourceId

def ResourceSnapshot.make (state : PublicationState) (batch : Option PreparedResourceBatch) :
    Except Err ResourceSnapshot :=
  if h : batch.isSome = state.published then
    if ho : ∀ b ∈ batch, b.resource.resourceId = state.resourceId then .ok ⟨state, batch, h, ho⟩
    else .error (.valueError "graph belongs to another resource")
  else .error (.valueError "graph and publication state differ")

structure PublicationResult where
  applied : Bool
  state : PublicationState

end MDRack
