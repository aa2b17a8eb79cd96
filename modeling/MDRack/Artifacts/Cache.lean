import MDRack.Lib.FileTree
import MDRack.Lib.JsonAscii
import MDRack.Lib.Loads
import MDRack.Lib.Octets
import MDRack.Lib.Programs
import MDRack.Media.Records

/-!
# The artifact cache (`mdrack.application.artifact_cache`, `_artifact_cache_fs`)

Entries are directories named by the digest of their key, below shards named by its first two
digits, below a root that a marker file makes the cache's own.  Each call of the cache is a program
of system calls.

* `ArtifactCacheKey` — the identity of an artifact, and its digest.
* `readFile`, `writeFile`, `removeTree` and others — the file-system functions of a POSIX host.
* `lookup`, `store`, `discard` — the calls of the cache.

Open directories are closed without effect.  Permissions, symbolic links and special files are left
out: the root belongs to the cache alone.
-/

namespace MDRack.Artifacts

open FileTree (Errno Handle Stat)
open Programs (Prog)
open Octets (Bytes)
open CodePoints (ofChars Text)

abbrev Name := List Char

abbrev Op := FileTree.Op Name UInt8

abbrev Tree := FileTree.Tree Name UInt8

/-! ## Exceptions -/

/-- What the modelled code raises. -/
inductive Raised
  | os (code : Errno)
  | valueError (message : String)
  | recursionError
  | other
  deriving DecidableEq

/-- A program that may raise. -/
abbrev Code (α : Type) := ExceptT Raised (Prog (fun op : Op => op.Answer)) α

def sys (op : Op) : Code op.Value :=
  ExceptT.mk (.call op fun answer => .done (answer.mapError .os))

/-- What a program returns or raises, for the code that handles it. -/
def attempt {α : Type} (x : Code α) : Code (Except Raised α) := ExceptT.lift x.run

/-- `raise` again, or go on. -/
def resume {α : Type} : Except Raised α → Code α
  | .ok a => pure a
  | .error e => throw e

/-! ## Keys -/

def CACHE_SCHEMA : String := "mdrack.artifact-cache.v1"
def CACHE_MARKER : Name := ".mdrack-artifact-cache-v1".toList
def CACHE_MARKER_BYTES : Bytes := Octets.ascii (CACHE_SCHEMA ++ "\n")
def MAX_METADATA_BYTES : Nat := 16384

def payloadName : Name := "payload.bin".toList
def metadataName : Name := "metadata.json".toList

def isHex (c : Char) : Bool := "0123456789abcdef".toList.contains c

/-- `_FINGERPRINT_RE`. -/
def isFingerprint (text : List Char) : Bool :=
  "sha256:".toList.isPrefixOf text && Media.isHex64 (text.drop 7)

def isKindStart (c : Char) : Bool := ('a' ≤ c && c ≤ 'z') || ('0' ≤ c && c ≤ '9')

/-- `_KIND_RE`. -/
def isKind : List Char → Bool
  | [] => false
  | c :: rest => isKindStart c && decide (rest.length ≤ 63) &&
      rest.all fun c => isKindStart c || c == '_' || c == '.' || c == '-'

/-- `_DIGEST_RE`. -/
def isDigest (name : Name) : Bool := Media.isHex64 name

/-- `_SHARD_RE`. -/
def isShard (name : Name) : Bool := name.length == 2 && name.all isHex

structure ArtifactCacheKey where
  artifactKind : String
  sourceFingerprint : String
  producerFingerprint : String
  modelFingerprint : String
  promptFingerprint : String
  configFingerprint : String
  preprocessingFingerprint : String
  kind_safe : isKind artifactKind.toList = true
  opaque_ : ∀ f ∈ [sourceFingerprint, producerFingerprint, modelFingerprint, promptFingerprint,
    configFingerprint, preprocessingFingerprint], isFingerprint f.toList = true

namespace ArtifactCacheKey

variable (key : ArtifactCacheKey)

/-- `to_dict`, in the order of `sort_keys`. -/
def toDict : List (String × String) :=
  [("artifact_kind", key.artifactKind), ("config_fingerprint", key.configFingerprint),
    ("model_fingerprint", key.modelFingerprint),
    ("preprocessing_fingerprint", key.preprocessingFingerprint),
    ("producer_fingerprint", key.producerFingerprint),
    ("prompt_fingerprint", key.promptFingerprint), ("source_fingerprint", key.sourceFingerprint)]

def json : Json.Value := .obj (key.toDict.map fun e => (e.1, .str e.2))

end ArtifactCacheKey

/-- `json.dumps(…, ensure_ascii=True, …).encode("ascii")`. -/
def asciiBytes (value : Json.Value) : Bytes := Octets.ascii (Json.asciiDumps value)

/-- `json.loads` of octets: malformed text is a `ValueError`. -/
inductive LoadError
  | malformed
  | raised

structure Host where
  sha256 : Bytes → Media.HexDigest
  loads : Bytes → Except LoadError Loads.Value
  recursionLimit : Nat

/-- A bytes object, whose length fits a machine word. -/
structure Payload where
  bytes : Bytes
  short : bytes.length < 2 ^ 63

namespace Host

variable (host : Host)

/-- `key.digest`. -/
def digest (key : ArtifactCacheKey) : Name := (host.sha256 (asciiBytes key.json)).text.toList

/-- `key.digest[:2]`. -/
def shard (key : ArtifactCacheKey) : Name := (host.digest key).take 2

/-- The metadata of an entry, in the order of `sort_keys`. -/
def metadata (key : ArtifactCacheKey) (payload : Payload) : Json.Value :=
  .obj [("key", key.json), ("key_digest", .str (String.ofList (host.digest key))),
    ("payload_bytes", .int payload.bytes.length),
    ("payload_sha256", .str (host.sha256 payload.bytes).text), ("schema", .str CACHE_SCHEMA)]

end Host

structure ArtifactCache where
  maxEntryBytes : Nat
  positive : 1 ≤ maxEntryBytes

/-! ## File-system functions -/

/-- `component`. -/
def component (name : Name) : Code Unit :=
  if name = [] ∨ name = ['.'] ∨ name = ['.', '.'] ∨ name.any (fun c => "/\\:\x00".toList.contains c)
  then throw (.valueError "artifact cache component invalid") else pure ()

/-- `open_directory`. -/
def openDirectory (parent : Handle) (name : Name) (kind : String) : Code Handle := do
  component name
  match ← attempt (sys (.openDir parent name)) with
  | .error (.os .notdir) =>
    throw (.valueError ("artifact cache " ++ kind ++ " must be a real directory"))
  | r => resume r

/-- `open_root`. -/
def openRoot (create : Bool) : Code (Option Handle) := do
  if create then sys .makeRoot
  match ← attempt (sys .openRoot) with
  | .ok root => pure (some root)
  | .error (.os .noent) => pure none
  | .error (.os .notdir) => throw (.valueError "artifact cache root must be a real directory")
  | .error e => throw e

def mkdir (parent : Handle) (name : Name) : Code Unit := do
  component name
  sys (.mkdir parent name)

def fileInfo (parent : Handle) (name : Name) : Code Stat := do
  component name
  sys (.stat parent name)

/-- `stream.write`, octet by octet. -/
def writeAll (file : Handle) : Bytes → Code Unit
  | [] => pure ()
  | byte :: rest => do
    sys (.append file byte)
    writeAll file rest

def writeFile (parent : Handle) (name : Name) (payload : Bytes) : Code Unit := do
  component name
  let file ← sys (.create parent name)
  let written ← attempt do
    writeAll file payload
    sys (.flush file)
  sys (.close file)
  resume written

def readFile (parent : Handle) (name : Name) (limit : Nat) : Code Bytes := do
  component name
  let file ← sys (.openFile parent name)
  let info ← sys (.fstat file)
  if info.isDir || decide (limit < info.size) then
    throw (.valueError "artifact cache file is not a bounded regular file")
  else sys (.read file (limit + 1))

def publish (parent : Handle) (source target : Name) : Code Unit := do
  component source
  component target
  sys (.rename parent source target)

/-- The loop over the children of a directory. -/
def forNames (step : Name → Code Unit) : List Name → Code Unit
  | [] => pure ()
  | name :: rest => do
    step name
    forNames step rest

/-- `remove_tree`, as deep as the interpreter calls. -/
def removeTree : Nat → Handle → Name → Code Unit
  | 0, _, _ => throw .recursionError
  | depth + 1, parent, name => do
    let info ← fileInfo parent name
    if !info.isDir then sys (.unlink parent name)
    else
      let dir ← openDirectory parent name "entry"
      let names ← sys (.list dir)
      forNames (removeTree depth dir) names
      sys (.rmdir parent name)

/-- `remove_empty`. -/
def removeEmpty (parent child : Handle) (name : Name) : Code Unit := do
  let names ← sys (.list child)
  if names ≠ [] then pure ()
  else
    match ← attempt (sys (.rmdir parent name)) with
    | .error (.os .notempty) => pure ()
    | .error (.os .noent) => pure ()
    | r => resume r

/-! ## The root -/

/-- `_validate_root`. -/
def validateRoot (root : Handle) (requireMarker : Bool) : Code Bool := do
  let names ← sys (.list root)
  if !names.contains CACHE_MARKER then
    if requireMarker ∨ names ≠ [] then throw (.valueError "artifact cache marker missing")
    else pure false
  else
    let marker ← readFile root CACHE_MARKER CACHE_MARKER_BYTES.length
    if marker ≠ CACHE_MARKER_BYTES then throw (.valueError "artifact cache marker invalid")
    else if names.any fun name => name ≠ CACHE_MARKER && !isShard name then
      throw (.valueError "artifact cache root contains foreign content")
    else pure true

/-- `_ensure_owned_root`. -/
def ensureOwnedRoot (root : Handle) : Code Unit := do
  if ← validateRoot root false then pure ()
  else
    writeFile root CACHE_MARKER CACHE_MARKER_BYTES
    sys (.flush root)

/-- `_open_or_create_shard`. -/
def openOrCreateShard (root : Handle) (name : Name) : Code Handle := do
  match ← attempt (mkdir root name) with
  | .error (.os .exist) => pure ()
  | r => resume r
  openDirectory root name "shard"

/-! ## Entries -/

/-- `metadata.get(name)`. -/
def field (fields : List (Text × Loads.Value)) (name : String) : Option Loads.Value :=
  (fields.find? fun e => e.1 == ofChars name.toList).map (·.2)

def isText (value : Option Loads.Value) (text : String) : Bool :=
  match value with
  | some (.str t) => t == ofChars text.toList
  | _ => false

/-- `value == expected` of a dictionary of texts. -/
def isDict (value : Option Loads.Value) (expected : List (String × String)) : Bool :=
  match value with
  | some (.obj fields) => fields.length == expected.length &&
      expected.all fun e => isText (field fields e.1) e.2
  | _ => false

/-- The integer of a value; a `bool` is one. -/
def intOf : Option Loads.Value → Option Int
  | some (.int n) => some n
  | some (.bool b) => some (if b then 1 else 0)
  | _ => none

/-- A digest of a payload in the metadata. -/
def digestOf : Option Loads.Value → Option (List Char)
  | some (.str t) =>
    match CodePoints.characters? t with
    | some text => if isDigest text then some text else none
    | none => none
  | _ => none

namespace ArtifactCache

variable (cache : ArtifactCache) (host : Host)

/-- The checks on the metadata of an entry: the size and the digest of its payload. -/
def checkMetadata (key : ArtifactCacheKey) : Loads.Value → Option (Int × List Char)
  | .obj fields =>
    if isText (field fields "schema") CACHE_SCHEMA && isDict (field fields "key") key.toDict &&
        isText (field fields "key_digest") (String.ofList (host.digest key)) then
      match intOf (field fields "payload_bytes"), digestOf (field fields "payload_sha256") with
      | some size, some digest =>
        if 0 ≤ size ∧ size ≤ cache.maxEntryBytes then some (size, digest) else none
      | _, _ => none
    else none
  | _ => none

/-- `json.loads`. -/
def loadMetadata (raw : Bytes) : Code Loads.Value :=
  match host.loads raw with
  | .ok value => pure value
  | .error .malformed => throw (.valueError "malformed")
  | .error .raised => throw .other

/-- The reads of `_read_valid_entry_at`, inside its `try`. -/
def readEntry (entry : Handle) (key : ArtifactCacheKey) :
    Code (Option (Int × List Char × Bytes)) := do
  let raw ← readFile entry metadataName MAX_METADATA_BYTES
  let value ← loadMetadata host raw
  match cache.checkMetadata host key value with
  | none => pure none
  | some (size, digest) =>
    let payload ← readFile entry payloadName cache.maxEntryBytes
    pure (some (size, digest, payload))

/-- `len(payload) != payload_size or …`. -/
def checkPayload : Option (Int × List Char × Bytes) → Option Bytes
  | none => none
  | some (size, digest, payload) =>
    if (payload.length : Int) ≠ size ∨ (host.sha256 payload).text.toList ≠ digest then none
    else some payload

/-- `_read_valid_entry_at`. -/
def readValidEntry (shard : Handle) (name : Name) (key : ArtifactCacheKey) :
    Code (Option Bytes) := do
  match ← attempt (openDirectory shard name "entry") with
  | .error (.os .noent) => pure none
  | .error (.valueError _) => pure none
  | .error e => throw e
  | .ok entry =>
    match ← attempt (cache.readEntry host entry key) with
    | .error (.os _) => pure none
    | .error (.valueError _) => pure none
    | .error e => throw e
    | .ok read => pure (checkPayload host read)

end ArtifactCache

/-! ## Calls -/

inductive Lookup
  | hit (payload : Bytes)
  | miss
  | corrupt
  deriving DecidableEq

inductive StoreResult
  | stored
  | already
  deriving DecidableEq

namespace ArtifactCache

variable (cache : ArtifactCache) (host : Host)

/-- What `lookup` does in an open shard. -/
def lookupIn (root shard : Handle) (key : ArtifactCacheKey) (recover : Bool) : Code Lookup := do
  match ← attempt (fileInfo shard (host.digest key)) with
  | .error (.os .noent) => pure .miss
  | .error e => throw e
  | .ok info =>
    match ← cache.readValidEntry host shard (host.digest key) key with
    | some payload => pure (.hit payload)
    | none =>
      if recover && info.isDir then
        removeTree host.recursionLimit shard (host.digest key)
        removeEmpty root shard (host.shard key)
        pure .corrupt
      else pure .corrupt

def lookup (key : ArtifactCacheKey) (recover : Bool) : Code Lookup := do
  match ← openRoot false with
  | none => pure .miss
  | some root =>
    if ← validateRoot root false then
      match ← attempt (openDirectory root (host.shard key) "shard") with
      | .error (.os .noent) => pure .miss
      | .error (.valueError _) => pure .corrupt
      | .error e => throw e
      | .ok shard => cache.lookupIn host root shard key recover
    else pure .miss

/-- The two files of a temporary entry. -/
def fillEntry (shard : Handle) (temp : Name) (key : ArtifactCacheKey) (payload : Payload) :
    Code Unit := do
  let entry ← openDirectory shard temp "temporary entry"
  writeFile entry payloadName payload.bytes
  writeFile entry metadataName (asciiBytes (host.metadata key payload))
  sys (.flush entry)

/-- The `finally` of `store` while the temporary entry has not been published. -/
def cleanUp (shard : Handle) (temp : Name) : Code Unit := do
  match ← attempt (removeTree host.recursionLimit shard temp) with
  | .error (.os .noent) => pure ()
  | r => resume r

/-- What `store` does once its temporary entry exists. -/
def publishEntry (shard : Handle) (temp : Name) (key : ArtifactCacheKey) (payload : Payload) :
    Code StoreResult := do
  match ← attempt (fillEntry host shard temp key payload) with
  | .error e =>
    cleanUp host shard temp
    throw e
  | .ok () =>
    match ← attempt (publish shard temp (host.digest key)) with
    | .ok () =>
      sys (.flush shard)
      pure .stored
    | .error (.os code) =>
      let existing ← attempt (cache.readValidEntry host shard (host.digest key) key)
      cleanUp host shard temp
      match existing with
      | .ok (some _) => pure .already
      | .ok none => throw (.os code)
      | .error e => throw e
    | .error e =>
      cleanUp host shard temp
      throw e

def store (key : ArtifactCacheKey) (payload : Payload) : Code StoreResult := do
  if cache.maxEntryBytes < payload.bytes.length then
    throw (.valueError "artifact payload exceeds max_entry_bytes")
  else
    match ← cache.lookup host key true with
    | .hit _ => pure .already
    | _ =>
      match ← openRoot true with
      | none => throw (.os .io)
      | some root =>
        ensureOwnedRoot root
        let shard ← openOrCreateShard root (host.shard key)
        let token ← sys .token
        let temp := ".tmp-".toList ++ token
        mkdir shard temp
        cache.publishEntry host shard temp key payload

/-- What `discard` does in an open shard. -/
def discardIn (root shard : Handle) (key : ArtifactCacheKey) : Code Unit := do
  removeTree host.recursionLimit shard (host.digest key)
  removeEmpty root shard (host.shard key)

def discard (key : ArtifactCacheKey) : Code Unit := do
  match ← openRoot false with
  | none => pure ()
  | some root =>
    if ← validateRoot root false then
      let shard ← openDirectory root (host.shard key) "shard"
      match ← attempt (discardIn host root shard key) with
      | .error (.os .noent) => pure ()
      | r => resume r
    else pure ()

end ArtifactCache

/-! ## Processes -/

/-- One call of the cache by one process. -/
inductive Job
  | lookup (key : ArtifactCacheKey) (recover : Bool)
  | store (key : ArtifactCacheKey) (payload : Payload)
  | discard (key : ArtifactCacheKey)

inductive Outcome
  | found (lookup : Lookup)
  | kept (result : StoreResult)
  | discarded

/-- A call, and the cache object that it uses. -/
structure Process where
  cache : ArtifactCache
  job : Job

def Process.code (host : Host) (process : Process) : Code Outcome :=
  match process.job with
  | .lookup key recover => .found <$> process.cache.lookup host key recover
  | .store key payload => .kept <$> process.cache.store host key payload
  | .discard key => (fun _ => .discarded) <$> ArtifactCache.discard host key

/-- A `uuid4().hex`. -/
def isToken (name : Name) : Prop := name.length = 32 ∧ name.all isHex = true

/-- An absent or empty root. -/
def Fresh (t : Tree) : Prop :=
  t = ⟨none, 0, fun _ => FileTree.Tree.newDir 0 0⟩ ∨
    t = (⟨none, 0, fun _ => FileTree.Tree.newDir 0 0⟩ : Tree).makeRoot 0

/-- Any number of processes on one root, started at any time; system calls fail where `faults`
holds, and only allowed calls are made. -/
def system (host : Host) (faults : Prop) (allowed : Process → Prop) :
    Programs.System (fun op : Op => op.Answer) Tree Process (Except Raised Outcome) where
  initial := Fresh
  step owner op t answer t' := FileTree.Exec faults isToken owner op t answer t'
  allowed := allowed
  program process := (process.code host).run

end MDRack.Artifacts
