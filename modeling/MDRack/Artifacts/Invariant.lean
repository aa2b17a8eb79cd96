import MDRack.Artifacts.Cache

/-!
# The tree of an artifact cache

What holds of the tree below the root whatever the processes do, and what each process may rely on
while the others run.

* `Shape` — the root holds the marker and shards, shards hold temporary entries and published ones,
  a published entry holds nothing but the files of the process that made it.
* `Common`, `Private` — what no process undoes: files that were closed, published entries under
  protected keys, and the temporary entry of another process.

Principal result: `digest_not_temp` — the names of published and of temporary entries are apart.
-/

namespace MDRack.Artifacts

open FileTree (Handle Node)
open FileTree.Tree (Extends)
open Octets (Bytes)

abbrev State := Programs.Shared Tree Process (Except Raised Outcome)

/-! ## The shape of the tree -/

/-- A process that stores a payload under a key, within the limit of its cache. -/
def Stores (jobs : List Process) (i : Nat) (key : ArtifactCacheKey) (payload : Payload) : Prop :=
  ∃ cache : ArtifactCache, jobs[i]? = some ⟨cache, .store key payload⟩ ∧
    payload.bytes.length ≤ cache.maxEntryBytes

def isTemp (name : Name) : Bool := ".tmp-".toList.isPrefixOf name

/-- A file with this content that nobody writes any more. -/
def Settled (t : Tree) (file : Handle) (bytes : Bytes) : Prop :=
  (t.node file).writable = false ∧ (t.node file).content = bytes

section

variable (host : Host) (kept : ArtifactCacheKey → Prop)

/-- The files of an entry, as far as it has any, are those of the payload under the key. -/
structure Filled (t : Tree) (entry : Handle) (key : ArtifactCacheKey) (payload : Payload) :
    Prop where
  payloadFile : ∀ f, t.link entry payloadName = some f → Settled t f payload.bytes
  metadataFile : ∀ f, t.link entry metadataName = some f →
    Settled t f (asciiBytes (host.metadata key payload))

/-- The invariant of the tree. -/
structure Shape (jobs : List Process) (t : Tree) : Prop where
  root : ∀ r, t.root = some r → r < t.size ∧ (t.node r).isDir = true ∧ (t.node r).level = 0 ∧
    (t.node r).removed = false
  rootOnly : ∀ d, d < t.size → (t.node d).level = 0 → t.root = some d
  below : ∀ d n c, t.link d n = some c → d < t.size ∧ c < t.size ∧ (t.node d).isDir = true ∧
    (t.node c).level = (t.node d).level + 1
  inRoot : ∀ d n c, t.link d n = some c → (t.node d).level = 0 →
    n = CACHE_MARKER ∧ (t.node c).isDir = false ∧ (t.node c).content <+: CACHE_MARKER_BYTES ∨
      isShard n = true ∧ (t.node c).isDir = true
  inShard : ∀ d n c, t.link d n = some c → (t.node d).level = 1 → (t.node c).isDir = true ∧
    (isTemp n = true ∧ (t.node c).moved = false ∨ (t.node c).moved = true ∧
      ∃ key payload r, Stores jobs (t.node c).owner key payload ∧ n = host.digest key ∧
        t.root = some r ∧ t.link r (host.shard key) = some d)
  inEntry : ∀ d n c, t.link d n = some c → (t.node d).level = 2 → (t.node c).isDir = false ∧
    (t.node c).owner = (t.node d).owner ∧ (n = payloadName ∨ n = metadataName)
  unique : ∀ d d' n n' c, t.link d n = some c → t.link d' n' = some c → d = d' ∧ n = n'
  removed : ∀ d, d < t.size → (t.node d).removed = true →
    (t.node d).isDir = true ∧ ∀ n, t.link d n = none
  moved : ∀ d, d < t.size → (t.node d).moved = true → (t.node d).level = 2 ∧
    (t.node d).isDir = true ∧ ∃ key payload, Stores jobs (t.node d).owner key payload ∧
      Filled host t d key payload
  whole : ∀ key d c, kept key → t.link d (host.digest key) = some c → (t.node d).level = 1 →
    (∃ f, t.link c payloadName = some f) ∧ ∃ f, t.link c metadataName = some f

/-! ## What the others leave alone -/

/-- What no process undoes. -/
structure Common (s s' : State) : Prop where
  ext : s.world.Extends s'.world
  jobs : s.jobs <+: s'.jobs
  calls : s.calls <+: s'.calls
  rootLinks : ∀ r n c, s.world.root = some r → c < s.world.size → s.world.link r n = some c →
    s'.world.link r n = some c ∨ (s'.world.node c).removed = true
  movedLinks : ∀ d n c, d < s.world.size → (s.world.node d).moved = true →
    s'.world.link d n = some c → s.world.link d n = some c
  wholeLinks : ∀ key d c, kept key → d < s.world.size → (s.world.node d).level = 1 →
    s.world.link d (host.digest key) = some c →
      s'.world.link d (host.digest key) = some c ∧ ∀ n, s'.world.link c n = s.world.link c n

/-- What only its own process changes: its files, and its entry until that is published. -/
def Private (i : Nat) (s s' : State) : Prop :=
  ∀ n, n < s.world.size → (s.world.node n).owner = i →
    ((s.world.node n).isDir = false ∨
      (s.world.node n).level = 2 ∧ (s.world.node n).moved = false) →
    s'.world.node n = s.world.node n ∧ ((s.world.node n).isDir = true →
      ∀ d m, s.world.link d m = some n → s'.world.link d m = some n)

/-- No other key shares the digest of a protected one. -/
def Distinct : Prop :=
  ∀ key, kept key → ∀ key', host.digest key' = host.digest key → key' = key

/-- A step of one process: the shape is kept, and what the others rely on. -/
structure Good (i : Nat) (s : State) (t : Tree) : Prop where
  shape : Shape host kept s.jobs t
  common : Common host kept s (s.move t)
  apart : ∀ j, j ≠ i → Private j s (s.move t)

end

variable {host : Host} {kept : ArtifactCacheKey → Prop} {s s' s'' : State} {i : Nat} {t : Tree}

theorem Common.refl (s : State) : Common host kept s s where
  ext := .refl _
  jobs := List.prefix_rfl
  calls := List.prefix_rfl
  rootLinks _ _ _ _ _ h := .inl h
  movedLinks _ _ _ _ _ h := h
  wholeLinks _ _ _ _ _ _ h := ⟨h, fun _ => rfl⟩

theorem Common.trans (h : Common host kept s s') (h' : Common host kept s' s'') :
    Common host kept s s'' where
  ext := h.ext.trans h'.ext
  jobs := h.jobs.trans h'.jobs
  calls := h.calls.trans h'.calls
  rootLinks r n c hr hc hlink := by
    have hc' := Nat.lt_of_lt_of_le hc h.ext.size
    rcases h.rootLinks r n c hr hc hlink with hlink' | hremoved
    · exact h'.rootLinks r n c (h.ext.root r hr) hc' hlink'
    · exact .inr ((h'.ext.node c hc').removed hremoved)
  movedLinks d n c hd hmoved hlink := by
    have hlink' := h'.movedLinks d n c (Nat.lt_of_lt_of_le hd h.ext.size) ((h.ext.node d hd).moved hmoved) hlink
    exact h.movedLinks d n c hd hmoved hlink'
  wholeLinks key d c hkey hd hlevel hlink := by
    obtain ⟨hlink', hsame⟩ := h.wholeLinks key d c hkey hd hlevel hlink
    obtain ⟨hlink'', hsame'⟩ := h'.wholeLinks key d c hkey (Nat.lt_of_lt_of_le hd h.ext.size)
      ((h.ext.node d hd).level.trans hlevel) hlink'
    exact ⟨hlink'', fun n => (hsame' n).trans (hsame n)⟩

theorem Private.refl (i : Nat) (s : State) : Private i s s :=
  fun _ _ _ _ => ⟨rfl, fun _ _ _ h => h⟩

theorem Private.trans (hext : s.world.Extends s'.world) (h : Private i s s')
    (h' : Private i s' s'') : Private i s s'' := by
  intro n hn howner hclass
  obtain ⟨hnode, hlinks⟩ := h n hn howner hclass
  obtain ⟨hnode', hlinks'⟩ := h' n (Nat.lt_of_lt_of_le hn hext.size) (by rwa [hnode]) (by rwa [hnode])
  refine ⟨hnode'.trans hnode, fun hdir d m hlink => ?_⟩
  exact hlinks' (by rwa [hnode]) d m (hlinks hdir d m hlink)

theorem Good.trans {t' : Tree} (h : Good host kept i s t) (h' : Good host kept i (s.move t) t') :
    Good host kept i s t' where
  shape := h'.shape
  common := h.common.trans h'.common
  apart j hj := (h.apart j hj).trans h.common.ext (h'.apart j hj)

/-- The common part of a step from what it does to the tree. -/
theorem Good.of (hshape : Shape host kept s.jobs t) (hext : s.world.Extends t)
    (hroot : ∀ r n c, s.world.root = some r → c < s.world.size → s.world.link r n = some c →
      t.link r n = some c ∨ (t.node c).removed = true)
    (hmoved : ∀ d n c, d < s.world.size → (s.world.node d).moved = true → t.link d n = some c →
      s.world.link d n = some c)
    (hwhole : ∀ key d c, kept key → d < s.world.size → (s.world.node d).level = 1 →
      s.world.link d (host.digest key) = some c →
        t.link d (host.digest key) = some c ∧ ∀ n, t.link c n = s.world.link c n)
    (hapart : ∀ j, j ≠ i → Private j s (s.move t)) : Good host kept i s t :=
  ⟨hshape, ⟨hext, List.prefix_rfl, List.prefix_rfl, hroot, hmoved, hwhole⟩, hapart⟩

theorem Good.refl (h : Shape host kept s.jobs s.world) : Good host kept i s s.world :=
  ⟨h, Common.refl s, fun j _ => Private.refl j s⟩

theorem Settled.mono {t t' : Tree} {file : Handle} {bytes : Bytes} (h : Settled t file bytes)
    (hext : t.Extends t') (hfile : file < t.size) : Settled t' file bytes := by
  obtain ⟨hclosed, hcontent⟩ := h
  obtain ⟨hclosed', hsame⟩ := (hext.node file hfile).closed hclosed
  exact ⟨hclosed', hsame.trans hcontent⟩

/-! ## Names -/

theorem digest_hex (key : ArtifactCacheKey) : Media.isHex64 (host.digest key) = true :=
  (host.sha256 (asciiBytes key.json)).wf

theorem digest_not_temp (key : ArtifactCacheKey) : isTemp (host.digest key) = false := by
  have hhex : Media.isHex64 (host.digest key) = true := digest_hex key
  cases hname : host.digest key with
  | nil => rfl
  | cons c rest =>
    rw [hname, Media.isHex64, Bool.and_eq_true, List.all_cons, Bool.and_eq_true] at hhex
    by_contra htemp
    rw [Bool.not_eq_false, isTemp] at htemp
    have hdot : '.' = c := by
      have hbegins := List.isPrefixOf_iff_prefix.mp htemp
      obtain ⟨tail, htail⟩ := hbegins
      exact (List.cons.inj htail).1
    rw [← hdot] at hhex
    exact absurd hhex.2.1 (by decide)

end MDRack.Artifacts
