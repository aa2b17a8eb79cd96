import MDRack.Artifacts.Steps

/-!
# What the calls of the artifact cache promise

The invariant of a run, and rules to verify the programs of the cache piece by piece.

* `Keeps` — the cache holds an entry under a protected key, and marks the root as its own.
* `CallOk`, `InOrder` — what a call that has returned says of the cache.
* `outline` — the invariant, and what a process relies on.

Principal results: `spec_sys` — a legal system call and its answer; `Keeps.later` — an entry under a
protected key stays.
-/

namespace MDRack.Artifacts

open FileTree (Errno Handle Node)
open Octets (Bytes)
open Programs (Outline Prog)

/-! ## Entries under protected keys -/

/-- The root has its whole marker. -/
def Marked (t : Tree) : Prop :=
  ∃ r m, t.root = some r ∧ t.link r CACHE_MARKER = some m ∧
    (t.node m).content = CACHE_MARKER_BYTES

/-- The entry that a process has published under a key. -/
def Published (host : Host) (s : State) (key : ArtifactCacheKey) (j : Nat) (payload : Payload) :
    Prop :=
  Stores s.jobs j key payload ∧ ∃ r d c, s.world.root = some r ∧
    s.world.link r (host.shard key) = some d ∧ s.world.link d (host.digest key) = some c ∧
      (s.world.node c).owner = j

/-- The root is the cache's own, and holds an entry under the key. -/
def Keeps (host : Host) (s : State) (key : ArtifactCacheKey) (j : Nat) (payload : Payload) : Prop :=
  Marked s.world ∧ Published host s key j payload

/-! ## Calls that have returned -/

/-- A process works on this key. -/
def Job.key : Job → ArtifactCacheKey
  | .lookup key _ => key
  | .store key _ => key
  | .discard key => key

/-- The call found an entry under its key, or left one there. -/
def Succeeds : Job → Except Raised Outcome → Prop
  | .lookup _ _, .ok (.found (.hit _)) => True
  | .store _ _, .ok (.kept _) => True
  | _, _ => False

/-- The call found an entry that was there before, or refused a payload beyond its limit. -/
def Finds (process : Process) (out : Except Raised Outcome) : Prop :=
  match process.job, out with
  | .lookup _ _, .ok (.found (.hit _)) => True
  | .store _ _, .ok (.kept .already) => True
  | .store _ payload, .error (.valueError _) => process.cache.maxEntryBytes < payload.bytes.length
  | _, _ => False

section

variable (host : Host) (kept : ArtifactCacheKey → Prop)

/-- What the result of a call says of the cache. -/
def CallOk (s : State) (pid : Nat) : Job → Except Raised Outcome → Prop
  | .lookup key _, .ok (.found (.hit bytes)) => ∃ j payload, Stores s.jobs j key payload ∧
      payload.bytes = bytes ∧ (kept key → Keeps host s key j payload)
  | .store key payload, .ok (.kept .stored) => kept key → Keeps host s key pid payload
  | .store key _, .ok (.kept .already) => kept key → ∃ j payload, Keeps host s key j payload
  | _, _ => True

/-- A call that starts behind a successful one under a protected key finds an entry. -/
def InOrder (s : State) (process : Process) (start : Nat) (out : Except Raised Outcome) : Prop :=
  ∀ a call, a < start → s.calls[a]? = some call → kept process.job.key →
    call.job.job.key = process.job.key → Succeeds call.job.job call.out → Finds process out

/-- What is assumed of the processes and the host, for some keys to be protected. -/
structure Assumed (faults : Prop) (allowed : Process → Prop) : Prop where
  distinct : Distinct host kept
  calm : ∀ key, kept key → ¬ faults
  discards : ∀ p key, allowed p → p.job = .discard key → ¬ kept key
  limits : ∀ key, kept key → ∀ p q, allowed p → allowed q →
    p.cache.maxEntryBytes = q.cache.maxEntryBytes

/-- The invariant of a run. -/
structure Invariant (allowed : Process → Prop) (s : State) : Prop where
  shape : Shape host kept s.jobs s.world
  jobs : ∀ p ∈ s.jobs, allowed p
  calls : ∀ call ∈ s.calls, CallOk host kept s call.pid call.job.job call.out
  order : ∀ call ∈ s.calls, InOrder kept s call.job call.start call.out
  started : ∀ call ∈ s.calls, call.start ≤ s.calls.length

end

variable {host : Host} {kept : ArtifactCacheKey → Prop} {s s' s'' : State} {i j : Nat}
  {key : ArtifactCacheKey} {payload : Payload}

/-- The outline of the system: the invariant, and what a process relies on. -/
def outline (host : Host) (kept : ArtifactCacheKey → Prop) (allowed : Process → Prop) :
    Outline Tree Process (Except Raised Outcome) where
  Inv := Invariant host kept allowed
  Rely i s s' := Common host kept s s' ∧ Private i s s'
  refl i s := ⟨.refl s, .refl i s⟩
  trans _ _ _ _ h h' := ⟨h.1.trans h'.1, h.2.trans h.1.ext h'.2⟩

/-! ## What stays -/

theorem Stores.mono {jobs jobs' : List Process} (h : Stores jobs j key payload)
    (hbegins : jobs <+: jobs') : Stores jobs' j key payload := by
  obtain ⟨cache, hjob, hlimit⟩ := h
  obtain ⟨tail, rfl⟩ := hbegins
  exact ⟨cache, by rw [List.getElem?_append_left (List.getElem?_eq_some_iff.mp hjob).1, hjob], hlimit⟩

/-- A process has one job. -/
theorem Stores.same {jobs : List Process} {key' : ArtifactCacheKey} {payload' : Payload}
    (h : Stores jobs j key payload) (h' : Stores jobs j key' payload') :
    key' = key ∧ payload' = payload := by
  obtain ⟨cache, hjob, -⟩ := h
  obtain ⟨cache', hjob', -⟩ := h'
  rw [hjob] at hjob'
  injection hjob' with hjob'
  injection hjob' with hcache hjob'
  injection hjob' with hkey hpayload
  exact ⟨hkey.symm, hpayload.symm⟩

theorem Marked.later (h : Marked s.world) (hshape : Shape host kept s.jobs s.world)
    (hcommon : Common host kept s s') (hshape' : Shape host kept s'.jobs s'.world) :
    Marked s'.world := by
  obtain ⟨r, m, hr, hlink, hcontent⟩ := h
  obtain ⟨-, hm, -, -⟩ := hshape.below r CACHE_MARKER m hlink
  obtain ⟨hrlt, -, hzero, -⟩ := hshape.root r hr
  have hm' : m < s'.world.size := Nat.lt_of_lt_of_le hm hcommon.ext.size
  have hkind : (s.world.node m).isDir = false := by
    rcases hshape.inRoot r CACHE_MARKER m hlink hzero with ⟨-, hkind, -⟩ | ⟨hshard, -⟩
    · exact hkind
    · exact absurd hshard (by decide)
  rcases hcommon.rootLinks r CACHE_MARKER m hr hm hlink with hlink' | hremoved
  · refine ⟨r, m, hcommon.ext.root r hr, hlink', ?_⟩
    have hgrows := (hcommon.ext.node m hm).grows
    rw [hcontent] at hgrows
    have hzero' : (s'.world.node r).level = 0 := (hcommon.ext.node r hrlt).level.trans hzero
    rcases hshape'.inRoot r CACHE_MARKER m hlink' hzero' with ⟨-, -, hbound⟩ | ⟨hshard, -⟩
    · exact (hgrows.eq_of_length_le hbound.length_le).symm
    · exact absurd hshard (by decide)
  · have hdir := (hshape'.removed m hm' hremoved).1
    rw [(hcommon.ext.node m hm).isDir, hkind] at hdir
    cases hdir

theorem Published.later (hkey : kept key) (h : Published host s key j payload)
    (hshape : Shape host kept s.jobs s.world) (hcommon : Common host kept s s')
    (hshape' : Shape host kept s'.jobs s'.world) : Published host s' key j payload := by
  obtain ⟨hstores, r, d, c, hr, hshard, hentry, howner⟩ := h
  obtain ⟨-, hd, -, hlevel⟩ := hshape.below r _ d hshard
  rw [(hshape.root r hr).2.2.1] at hlevel
  obtain ⟨-, hc, -, -⟩ := hshape.below d _ c hentry
  obtain ⟨hentry', -⟩ := hcommon.wholeLinks key d c hkey hd hlevel hentry
  refine ⟨hstores.mono hcommon.jobs, r, d, c, hcommon.ext.root r hr, ?_, hentry',
    (hcommon.ext.node c hc).owner.trans howner⟩
  rcases hcommon.rootLinks r _ d hr hd hshard with hshard' | hremoved
  · exact hshard'
  · -- A shard that was removed holds no entry.
    rw [(hshape'.removed d (Nat.lt_of_lt_of_le hd hcommon.ext.size) hremoved).2] at hentry'
    cases hentry'

/-- An entry under a protected key stays. -/
theorem Keeps.later (hkey : kept key) (h : Keeps host s key j payload)
    (hshape : Shape host kept s.jobs s.world) (hcommon : Common host kept s s')
    (hshape' : Shape host kept s'.jobs s'.world) : Keeps host s' key j payload :=
  ⟨h.1.later hshape hcommon hshape', h.2.later hkey hshape hcommon hshape'⟩

/-- There is one entry under a key. -/
theorem Published.same {j' : Nat} {payload' : Payload} (h : Published host s key j payload)
    (h' : Published host s key j' payload') : j' = j ∧ payload' = payload := by
  obtain ⟨hstores, r, d, c, hr, hshard, hentry, rfl⟩ := h
  obtain ⟨hstores', r', d', c', hr', hshard', hentry', rfl⟩ := h'
  obtain rfl := Option.some.inj (hr.symm.trans hr')
  obtain rfl := Option.some.inj (hshard.symm.trans hshard')
  obtain rfl := Option.some.inj (hentry.symm.trans hentry')
  exact ⟨rfl, (hstores.same hstores').2⟩

theorem CallOk.later {job : Job} {out : Except Raised Outcome} (h : CallOk host kept s i job out)
    (hshape : Shape host kept s.jobs s.world) (hcommon : Common host kept s s')
    (hshape' : Shape host kept s'.jobs s'.world) : CallOk host kept s' i job out := by
  unfold CallOk at h ⊢
  split at h
  · obtain ⟨j, payload, hstores, hbytes, hkeeps⟩ := h
    exact ⟨j, payload, hstores.mono hcommon.jobs, hbytes, fun hkey =>
      (hkeeps hkey).later hkey hshape hcommon hshape'⟩
  · exact fun hkey => (h hkey).later hkey hshape hcommon hshape'
  · intro hkey
    obtain ⟨j, payload, hkeeps⟩ := h hkey
    exact ⟨j, payload, hkeeps.later hkey hshape hcommon hshape'⟩
  · trivial

/-- A good step keeps the invariant. -/
theorem Invariant.move {allowed : Process → Prop} {w : Tree} (h : Invariant host kept allowed s)
    (hgood : Good host kept i s w) : Invariant host kept allowed (s.move w) where
  shape := hgood.shape
  jobs := h.jobs
  calls call hcall := (h.calls call hcall).later h.shape hgood.common hgood.shape
  order := h.order
  started := h.started

/-! ## Rules -/

section Rules

/-- What holds of the result of a program of a process, among the others. -/
abbrev Spec (host : Host) (kept : ArtifactCacheKey → Prop) (faults : Prop)
    (allowed : Process → Prop) (i : Nat) {α : Type} (x : Code α)
    (Q : Except Raised α → State → Prop) (s : State) : Prop :=
  Programs.wp (system host faults allowed) (outline host kept allowed) i x.run Q s

variable {faults : Prop} {allowed : Process → Prop} {α β : Type} {x : Code α} {f : α → Code β}
  {P P' : Except Raised α → State → Prop} {Q : Except Raised β → State → Prop}

abbrev Later (host : Host) (kept : ArtifactCacheKey → Prop) (i : Nat) (s s' : State) : Prop :=
  Common host kept s s' ∧ Private i s s'

theorem Later.refl (s : State) : Later host kept i s s := ⟨.refl s, .refl i s⟩

theorem Later.trans (h : Later host kept i s s') (h' : Later host kept i s' s'') :
    Later host kept i s s'' := ⟨h.1.trans h'.1, h.2.trans h.1.ext h'.2⟩

theorem spec_pure {a : α} (h : ∀ u, Later host kept i s u → Invariant host kept allowed u → P (.ok a) u) :
    Spec host kept faults allowed i (pure a) P s := h

theorem spec_throw {e : Raised}
    (h : ∀ u, Later host kept i s u → Invariant host kept allowed u → P (.error e) u) :
    Spec host kept faults allowed i (throw e) P s := h

theorem spec_mono (h : Spec host kept faults allowed i x P s) (hP : ∀ r u, P r u → P' r u) :
    Spec host kept faults allowed i x P' s := Programs.wp_mono h hP

/-- Behind a program the invariant holds, and nothing was undone. -/
theorem wp_common {p : Prog (fun op : Op => op.Answer) α} {R : α → State → Prop}
    (h : Programs.wp (system host faults allowed) (outline host kept allowed) i p R s) :
    Programs.wp (system host faults allowed) (outline host kept allowed) i p
      (fun r u => R r u ∧ Invariant host kept allowed u ∧ Common host kept s u) s := by
  induction p generalizing s with
  | done a => exact fun u hu hinv => ⟨h u hu hinv, hinv, hu.1⟩
  | call op next ih =>
    intro t ht hinv answer w hstep
    obtain ⟨hkept, hothers, hnext⟩ := h t ht hinv answer w hstep
    refine ⟨hkept, hothers, Programs.wp_mono (ih answer hnext) fun r u hr => ?_⟩
    have hstep : Common host kept t (t.move w) := (hothers (i + 1) (Nat.succ_ne_self i)).1
    exact ⟨hr.1, hr.2.1, (ht.1.trans hstep).trans hr.2.2⟩

/-- One program behind another. -/
theorem spec_bind (hx : Spec host kept faults allowed i x P s)
    (hok : ∀ a u, P (.ok a) u → Invariant host kept allowed u → Common host kept s u →
      Spec host kept faults allowed i (f a) Q u)
    (herr : ∀ e u, P (.error e) u → Invariant host kept allowed u → Common host kept s u →
      Spec host kept faults allowed i (throw e) Q u) :
    Spec host kept faults allowed i (x >>= f) Q s := by
  refine Programs.wp_bind (Programs.wp_mono (wp_common hx) fun r u hr => ?_)
  cases r with
  | ok a => exact hok a u hr.1 hr.2.1 hr.2.2
  | error e => exact herr e u hr.1 hr.2.1 hr.2.2

/-- A program whose failure the code handles. -/
theorem spec_attempt {g : Except Raised α → Code β} (hx : Spec host kept faults allowed i x P s)
    (hnext : ∀ r u, P r u → Invariant host kept allowed u → Common host kept s u →
      Spec host kept faults allowed i (g r) Q u) :
    Spec host kept faults allowed i (attempt x >>= g) Q s := by
  have hbind : Programs.wp (system host faults allowed) (outline host kept allowed) i x.run
      (fun r t => Programs.wp (system host faults allowed) (outline host kept allowed) i
        (.done (.ok r)) (fun a t => Programs.wp (system host faults allowed) (outline host kept allowed)
          i (ExceptT.bindCont g a) Q t) t) s :=
    Programs.wp_mono (wp_common hx) fun r t ht u hu _ =>
      Programs.wp_rely (hnext r t ht.1 ht.2.1 ht.2.2) hu
  exact Programs.wp_bind (Programs.wp_bind hbind)

theorem spec_map {g : α → β} (hx : Spec host kept faults allowed i x P s)
    (hR : ∀ r u, P r u → Invariant host kept allowed u → ∀ u', Later host kept i u u' →
      Invariant host kept allowed u' → Q (r.map g) u') :
    Spec host kept faults allowed i (g <$> x) Q s := by
  refine Programs.wp_bind (Programs.wp_mono (wp_common hx) fun r u hr => ?_)
  cases r with
  | ok a => exact hR _ u hr.1 hr.2.1
  | error e => exact hR _ u hr.1 hr.2.1

/-- A legal system call, and what holds behind it. -/
theorem spec_sys {op : Op} {R : Except Raised op.Value → State → Prop}
    (hunique : Distinct host kept)
    (hlegal : ∀ t, Later host kept i s t → Invariant host kept allowed t →
      Legal host kept i t.jobs t.world op)
    (hR : ∀ t, Later host kept i s t → Invariant host kept allowed t → ∀ (answer : op.Answer) w,
      FileTree.Exec faults isToken i op t.world answer w → Good host kept i t w → ∀ u,
        Later host kept i (t.move w) u → Invariant host kept allowed u → R (answer.mapError .os) u) :
    Spec host kept faults allowed i (sys op) R s := by
  intro t ht hinv answer w hexec
  have hgood : Good host kept i t w := legal_step hinv.shape hunique (hlegal t ht hinv) hexec
  exact ⟨hinv.move hgood, fun j hj => ⟨hgood.common, hgood.apart j hj⟩,
    fun u hu hinv' => hR t ht hinv answer w hexec hgood u hu hinv'⟩

end Rules

end MDRack.Artifacts
