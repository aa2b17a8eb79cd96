import MDRack.Lib.Json
import MDRack.Lib.Checks

/-!
# Shared validation and deterministic JSON mappings (`mdrack_core.domain.common`)

* `NonEmptyText` — what `require_non_empty` lets through.
* `Mapping` — a deeply frozen JSON object within the size limits.
* `Err` — the exceptions the modelled code raises.
-/

namespace MDRack

open Json (Value)

/-- `ErrorCategory` values that catalog operations report. -/
inductive ErrorCategory
  | adapterTimeout
  | catalogError
  deriving DecidableEq, Repr

/-- Exceptions.  `operational` is `sqlite3.OperationalError`; `interrupted` stands for a
`BaseException` outside `Exception`. -/
inductive Err
  | valueError (message : String)
  | typeError (message : String)
  | runtimeError (message : String)
  | overflowError
  | keyError
  | assertionError
  | operational (busy : Bool)
  | integrityError
  | catalogExecution (category : ErrorCategory)
  | activeTransaction
  | verifyFailed
  | staleEnrichment (message : String)
  | interrupted
  deriving DecidableEq, Repr

/-- `str.isspace` of one character. -/
def isSpace (c : Char) : Bool :=
  let n := c.toNat
  (0x09 ≤ n && n ≤ 0x0D) || (0x1C ≤ n && n ≤ 0x20) || n == 0x85 || n == 0xA0 || n == 0x1680 ||
    (0x2000 ≤ n && n ≤ 0x200A) || n == 0x2028 || n == 0x2029 || n == 0x202F || n == 0x205F ||
    n == 0x3000

/-- `bool(text.strip())`. -/
def hasVisible (text : String) : Bool := text.toList.any fun c => !isSpace c

/-- A string that `require_non_empty` accepts. -/
structure NonEmptyText where
  text : String
  visible : hasVisible text = true
  deriving DecidableEq, Repr

theorem NonEmptyText.ext_text {a b : NonEmptyText} (h : a.text = b.text) : a = b := by
  cases a; cases b; simp_all

instance : LawfulBEq (NonEmptyText × NonEmptyText) := inferInstance

instance : Coe NonEmptyText String := ⟨NonEmptyText.text⟩

def requireNonEmpty (value fieldName : String) : Except Err NonEmptyText :=
  if h : hasVisible value = true then .ok ⟨value, h⟩
  else .error (.valueError (fieldName ++ " must be a non-empty string"))

def requireOptionalNonEmpty (value : Option String) (fieldName : String) :
    Except Err (Option NonEmptyText) :=
  match value with
  | none => .ok none
  | some value => (requireNonEmpty value fieldName).map some

@[simp] theorem requireNonEmpty_text (t : NonEmptyText) (fieldName : String) :
    requireNonEmpty t.text fieldName = .ok t := by
  unfold requireNonEmpty
  rw [dif_pos t.visible]

theorem requireNonEmpty_ok {text fieldName : String} {id : NonEmptyText}
    (h : requireNonEmpty text fieldName = .ok id) : id.text = text := by
  unfold requireNonEmpty at h
  split at h <;> cases h
  rfl

@[simp] theorem requireOptionalNonEmpty_text (t : Option NonEmptyText) (fieldName : String) :
    requireOptionalNonEmpty (t.map (·.text)) fieldName = .ok t := by
  cases t <;> simp [requireOptionalNonEmpty, Except.map]

/-! ## JSON mappings -/

def maxJsonDepth : Nat := 16
def maxJsonItems : Nat := 10000
def maxJsonBytes : Nat := 1000000

/-- Digits the interpreter converts between integers and text. -/
def maxIntDigits : Nat := 4300

/-- What `freeze_json_mapping` guarantees of the object it returns. -/
def isFrozen (fields : List (String × Value)) : Bool :=
  let value := Value.obj fields
  Json.sortedKeys value && decide (Json.depth value ≤ maxJsonDepth) &&
    decide (Json.itemCount value ≤ maxJsonItems) && Json.intsWithin maxIntDigits value &&
    decide ((Json.dumps value).utf8ByteSize ≤ maxJsonBytes)

/-- A frozen `Mapping[str, JSONValue]`. -/
structure Mapping where
  fields : List (String × Value)
  frozen : isFrozen fields = true

theorem Mapping.ext_fields {a b : Mapping} (h : a.fields = b.fields) : a = b := by
  cases a; cases b; simp_all

/-- `==` of two mappings. -/
instance : BEq Mapping := ⟨fun a b => Value.obj a.fields == Value.obj b.fields⟩

instance : ReflBEq Mapping := ⟨BEq.rfl (a := Value.obj _)⟩

instance : EquivBEq Mapping where
  symm {_ _} h := Json.pyEq_symm h
  trans {_ _ _} h h' := Json.pyEq_trans h h'

def Mapping.empty : Mapping := ⟨[], by decide⟩

/-- `mapping.get(key)`. -/
def Mapping.get? (m : Mapping) (key : String) : Option Value :=
  (m.fields.find? fun field => field.1 == key).map (·.2)

theorem Mapping.keys_nodup (m : Mapping) : (m.fields.map (·.1)).Nodup := by
  have h := m.frozen
  simp only [isFrozen, Bool.and_eq_true] at h
  obtain ⟨⟨⟨⟨hsorted, -⟩, -⟩, -⟩, -⟩ := h
  exact (Json.sortedKeysFields_spec hsorted).1

def canonicalJson (m : Mapping) : String := Json.dumps (.obj m.fields)

theorem canonicalJson_injective {a b : Mapping} (h : canonicalJson a = canonicalJson b) : a = b := by
  have := Json.dumps_injective h
  exact Mapping.ext_fields (Value.obj.inj this)

end MDRack
