import MDRack.Artifacts.Writing

/-!
# Safety of an artifact cache

Any number of processes look up, store and discard entries of one root, their system calls in any
order; each can crash at any time, and where faults are admitted every system call can fail.

* `Kept` — some process has left an entry under the key, in a root that is marked.

Principal results: `lookup_sound` — a hit has the payload that some process stored under the same
key; `entry_stays` — without faults, a key that nobody discards gets one entry, which every call
behind finds.
-/

namespace MDRack.Artifacts

open FileTree (Errno Handle Node Stat)
open Octets (Bytes)

variable {host : Host} {kept : ArtifactCacheKey → Prop} {faults : Prop} {allowed : Process → Prop}
  {s t u : State} {i : Nat} {d c root : Handle} {n : Name} {key : ArtifactCacheKey}
  {payload : Payload} {cache : ArtifactCache}

/-- Some process has left an entry under the key. -/
def Kept (host : Host) (s : State) (key : ArtifactCacheKey) : Prop := ∃ j payload, Keeps host s key j payload

theorem Kept.later (hkey : kept key) (h : Kept host s key) (hinv : Invariant host kept allowed s)
    (ht : Common host kept s t) (hinvt : Invariant host kept allowed t) : Kept host t key := by
  obtain ⟨j, payload, hkeeps⟩ := h
  exact ⟨j, payload, hkeeps.later hkey hinv.shape ht hinvt.shape⟩

/-- The entry that was read in an open shard is the one that the cache keeps. -/
theorem keeps_of_link {j : Nat} (hinv : Invariant host kept allowed s) (hmarked : Marked s.world)
    (hshard : ShardAt s root (host.shard key) d) (hstores : Stores s.jobs j key payload)
    (hlink : ∃ c, s.world.link d (host.digest key) = some c ∧ (s.world.node c).owner = j) :
    Keeps host s key j payload := by
  obtain ⟨c, hc, howner⟩ := hlink
  exact ⟨hmarked, hstores, root, d, c, hshard.top, hshard.link hinv hc, hc, howner⟩

theorem Marked.common (h : Marked s.world) (hinv : Invariant host kept allowed s)
    (ht : Common host kept s t) (hinvt : Invariant host kept allowed t) : Marked t.world :=
  h.later hinv.shape ht hinvt.shape

theorem cache_common (hcache : ∃ job, s.jobs[i]? = some ⟨cache, job⟩) (ht : Common host kept s t) :
    ∃ job, t.jobs[i]? = some ⟨cache, job⟩ := by
  obtain ⟨job, hjob⟩ := hcache
  obtain ⟨tail, htail⟩ := ht.jobs
  exact ⟨job, by rw [← htail, List.getElem?_append_left (List.getElem?_eq_some_iff.mp hjob).1, hjob]⟩

/-! ## Lookup -/

/-- A hit has the payload of a process that stores it under the key. -/
def Sound (host : Host) (kept : ArtifactCacheKey → Prop) (key : ArtifactCacheKey)
    (r : Except Raised Lookup) (u : State) : Prop :=
  ∀ bytes, r = .ok (.hit bytes) → ∃ j payload, Stores u.jobs j key payload ∧
    payload.bytes = bytes ∧ (kept key → Keeps host u key j payload)

theorem sound_miss : Sound host kept key (.ok .miss) u := fun _ hr => by cases hr

theorem sound_corrupt : Sound host kept key (.ok .corrupt) u := fun _ hr => by cases hr

theorem sound_error (e : Raised) : Sound host kept key (.error e) u := fun _ hr => by cases hr

section Calls

variable (hassumed : Assumed host kept faults allowed) (hreads : ReadsBack host)
  (hinv : Invariant host kept allowed s) (hcache : ∃ job, s.jobs[i]? = some ⟨cache, job⟩)
include hassumed hreads hinv hcache

theorem spec_lookupIn (recover : Bool) (hmarked : Marked s.world)
    (hshard : ShardAt s root (host.shard key) d) :
    Spec host kept faults allowed i (cache.lookupIn host root d key recover) (fun r u =>
      Sound host kept key r u ∧ (kept key → (∃ c, s.world.link d (host.digest key) = some c) →
        ∃ bytes, r = .ok (.hit bytes))) s := by
  have hwhole : ∀ {t v c}, Common host kept s t → Common host kept t v → kept key →
      t.world.link d (host.digest key) = some c → v.world.link d (host.digest key) = some c := by
    intro t v c ht hv hkey hlink
    have hdir := hshard.dir.later ht
    exact (hv.wholeLinks key d c hkey hdir.1 hdir.2.2 hlink).1
  have hinfo : Spec host kept faults allowed i (fileInfo d (host.digest key)) (fun r u =>
      Later host kept i s u ∧
      (∀ info, r = .ok info → kept key → ∃ c, u.world.link d (host.digest key) = some c) ∧
      (∀ e, r = .error e → kept key → (∃ c, s.world.link d (host.digest key) = some c) → False)) s := by
    refine spec_fileInfo hassumed.distinct (digest_plain key) ?_ ?_
    · intro t u c h hlink
      exact ⟨h.later, fun _ _ hkey => ⟨c, hwhole h.left.1 h.right.1 hkey hlink⟩, fun e he => (by cases he)⟩
    · intro t u e h hnone
      refine ⟨h.later, fun info hinfo => (by cases hinfo), ?_⟩
      rintro _ - hkey ⟨c, hc⟩
      rcases hnone with hfault | hnone
      · exact hassumed.calm key hkey hfault
      · rw [hwhole (.refl s) h.left.1 hkey hc] at hnone
        cases hnone
  unfold ArtifactCache.lookupIn
  refine spec_attempt hinfo fun r u hr hinvu _ => ?_
  obtain ⟨hsu, hfound, hmissing⟩ := hr
  split
  · exact spec_pure fun v hv _ => ⟨sound_miss, fun hkey hc => (hmissing _ rfl hkey hc).elim⟩
  · exact spec_throw fun v hv _ => ⟨sound_error _, fun hkey hc => (hmissing _ rfl hkey hc).elim⟩
  · rename_i info
    refine spec_bind (spec_readValidEntry hassumed hreads hinvu (hshard.dir.later hsu.1)
      (cache_common hcache hsu.1)) ?_ ?_
    · rintro read v ⟨huv, hsound, hfinds⟩ hinvv -
      have hsv := hsu.1.trans huv.1
      have hmarkedv := hmarked.common hinv hsv hinvv
      have hshardv := hshard.later hsv
      split
      · rename_i bytes
        refine spec_pure fun w hw hinvw => ⟨fun bytes' hbytes => ?_, fun _ _ => ⟨bytes, rfl⟩⟩
        obtain ⟨j, payload, hstores, hpayload, hlink⟩ := hsound bytes rfl
        injection hbytes with hbytes
        injection hbytes with hbytes
        refine ⟨j, payload, hstores.mono hw.1.jobs, hpayload.trans hbytes, fun hkey => ?_⟩
        exact (keeps_of_link hinvv hmarkedv hshardv hstores (hlink hkey)).later hkey hinvv.shape hw.1
          hinvw.shape
      · -- An entry under a protected key is read, and so never removed here.
        have hkey : ¬ kept key := by
          intro hkey
          obtain ⟨bytes, hbytes⟩ := hfinds hkey (hfound info rfl hkey)
          cases hbytes
        have hcorrupt : ∀ w, Spec host kept faults allowed i (pure Lookup.corrupt) (fun r u =>
            Sound host kept key r u ∧ (kept key → (∃ c, s.world.link d (host.digest key) = some c) →
              ∃ bytes, r = .ok (.hit bytes))) w :=
          fun w => spec_pure fun x _ _ => ⟨sound_corrupt, fun hkey' _ => absurd hkey' hkey⟩
        have hraised : ∀ (e : Raised) w, Spec host kept faults allowed i (throw e) (fun r u =>
            Sound host kept key r u ∧ (kept key → (∃ c, s.world.link d (host.digest key) = some c) →
              ∃ bytes, r = .ok (.hit bytes))) w :=
          fun e w => spec_throw fun x _ _ => ⟨sound_error e, fun hkey' _ => absurd hkey' hkey⟩
        split
        · refine spec_bind (spec_removeTree hassumed.distinct host.recursionLimit
            (.digest hshardv.dir key rfl hkey)) ?_ fun e w _ _ _ => hraised e w
          intro _ w _ _ hvw
          have hroot := hvw.ext.root root hshardv.top
          refine spec_bind (spec_removeEmpty hassumed.distinct hroot (shard_named key)) ?_
            fun e x _ _ _ => hraised e x
          exact fun _ x _ _ _ => hcorrupt x
        · exact hcorrupt v
    · rintro e v ⟨-, -, hfinds⟩ - -
      refine spec_throw fun w _ _ => ⟨sound_error e, fun hkey _ => ?_⟩
      obtain ⟨bytes, hbytes⟩ := hfinds hkey (hfound info rfl hkey)
      cases hbytes

/-- A hit is sound, and an entry under a protected key is hit. -/
theorem spec_lookup (key : ArtifactCacheKey) (recover : Bool) :
    Spec host kept faults allowed i (cache.lookup host key recover) (fun r u =>
      Sound host kept key r u ∧ (kept key → Kept host s key → ∃ bytes, r = .ok (.hit bytes))) s := by
  have hmiss : ∀ {x : Code Lookup} {w : State}, (kept key → Kept host s key → False) →
      (x = pure .miss ∨ x = pure .corrupt ∨ ∃ e, x = throw e) →
      Spec host kept faults allowed i x (fun r u =>
        Sound host kept key r u ∧ (kept key → Kept host s key → ∃ bytes, r = .ok (.hit bytes))) w := by
    rintro x w hnone (rfl | rfl | ⟨e, rfl⟩)
    · exact spec_pure fun v _ _ => ⟨sound_miss, fun hkey hkept => (hnone hkey hkept).elim⟩
    · exact spec_pure fun v _ _ => ⟨sound_corrupt, fun hkey hkept => (hnone hkey hkept).elim⟩
    · exact spec_throw fun v _ _ => ⟨sound_error e, fun hkey hkept => (hnone hkey hkept).elim⟩
  unfold ArtifactCache.lookup
  refine spec_bind (spec_openRoot hassumed.distinct) ?_ ?_
  · intro opened u hr hinvu hsu
    split
    · refine hmiss (fun _ hkept => ?_) (.inl rfl)
      obtain ⟨j, payload, -, -, r, d, c, hroot, -⟩ := hkept
      rw [hr.2] at hroot
      cases hroot
    · rename_i root
      obtain ⟨-, hroot⟩ := hr
      refine spec_bind (spec_validateRoot hassumed.distinct hinvu hroot false) ?_ ?_
      · rintro valid v ⟨huv, hmarked, hvalid⟩ hinvv -
        have hsv := hsu.trans huv.1
        split
        · rename_i hyes
          rw [hyes] at hmarked
          have hmarkedv := hmarked rfl
          have hrootv := huv.1.ext.root root hroot
          refine spec_attempt (spec_openShard hassumed.distinct hinvv hrootv (shard_named key)
            (shard_plain key)) fun r w hr hinvw _ => ?_
          obtain ⟨hvw, hshard, hheld⟩ := hr
          -- The shard of an entry under a protected key is opened.
          have hopened : kept key → Kept host s key →
              ∃ d c, r = .ok d ∧ v.world.link d (host.digest key) = some c ∧ ShardDir v.world d := by
            intro hkey hkept
            obtain ⟨j, payload, -, -, r', d, c, hroot', hlink, hentry, -⟩ :=
              hkept.later hkey hinv hsv hinvv
            obtain rfl := Option.some.inj (hrootv.symm.trans hroot')
            have hdir := (shard_of_link hinvv hrootv hlink (shard_named key)).dir
            rcases hheld ⟨d, host.digest key, c, hlink, fun x hx =>
              (hx.1.wholeLinks key d c hkey hdir.1 hdir.2.2 hentry).1⟩ with ⟨d', hd', hlink'⟩ | hfault
            · obtain rfl := Option.some.inj (hlink.symm.trans hlink')
              exact ⟨d, c, hd', hentry, hdir⟩
            · exact (hassumed.calm key hkey hfault).elim
          split
          · refine hmiss (fun hkey hkept => ?_) (.inl rfl)
            obtain ⟨d, c, hr', -⟩ := hopened hkey hkept
            cases hr'
          · refine hmiss (fun hkey hkept => ?_) (.inr (.inl rfl))
            obtain ⟨d, c, hr', -⟩ := hopened hkey hkept
            cases hr'
          · refine hmiss (fun hkey hkept => ?_) (.inr (.inr ⟨_, rfl⟩))
            obtain ⟨d, c, hr', -⟩ := hopened hkey hkept
            cases hr'
          · rename_i d
            have hin := spec_lookupIn hassumed hreads hinvw (cache_common hcache (hsv.trans hvw.1))
              recover (hmarkedv.common hinvv hvw.1 hinvw) (hshard d rfl)
            refine spec_mono hin ?_
            rintro r x ⟨hsound, hfinds⟩
            refine ⟨hsound, fun hkey hkept => ?_⟩
            obtain ⟨d', c, hd', hlink, hdir⟩ := hopened hkey hkept
            obtain rfl := Except.ok.inj hd'
            exact hfinds hkey ⟨c, (hvw.1.wholeLinks key d c hkey hdir.1 hdir.2.2 hlink).1⟩
        · rename_i hno
          refine hmiss (fun hkey hkept => ?_) (.inl rfl)
          obtain ⟨j, payload, hmarkedu, -⟩ := hkept.later hkey hinv hsu hinvu
          rcases hvalid hmarkedu with hyes | hfault
          · exact hno (Except.ok.inj hyes)
          · exact hassumed.calm key hkey hfault
      · rintro e v ⟨-, -, hvalid⟩ - -
        refine hmiss (fun hkey hkept => ?_) (.inr (.inr ⟨e, rfl⟩))
        obtain ⟨j, payload, hmarkedu, -⟩ := hkept.later hkey hinv hsu hinvu
        rcases hvalid hmarkedu with hyes | hfault
        · cases hyes
        · exact hassumed.calm key hkey hfault
  · rintro e u ⟨-, hfault⟩ - -
    exact hmiss (fun hkey _ => hassumed.calm key hkey hfault) (.inr (.inr ⟨e, rfl⟩))

end Calls

/-! ## Store -/

/-- The name of a temporary entry. -/
theorem temp_named {token : Name} (h : isToken token) :
    isTemp (".tmp-".toList ++ token) = true ∧ Plain (".tmp-".toList ++ token) := by
  refine ⟨List.isPrefixOf_iff_prefix.mpr (List.prefix_append _ _), ?_⟩
  have hdots : ".tmp-".toList.all (fun c => !"/\\:\x00".toList.contains c) = true := by decide
  rintro (hnil | hdot | hdot | hany)
  · cases hnil
  · cases hdot
  · cases hdot
  · obtain ⟨c, hc, hbad⟩ := List.any_eq_true.mp hany
    rcases List.mem_append.mp hc with hc | hc
    · have hsafe := List.all_eq_true.mp hdots c hc
      rw [hbad] at hsafe
      cases hsafe
    · rw [(hex_safe h.2 c hc).1] at hbad
      cases hbad

/-- What a store leaves under a protected key. -/
def Stored (host : Host) (kept : ArtifactCacheKey → Prop) (i : Nat) (key : ArtifactCacheKey)
    (payload : Payload) (r : Except Raised StoreResult) (u : State) : Prop :=
  (r = .ok .stored → kept key → Keeps host u key i payload) ∧
    (r = .ok .already → kept key → Kept host u key)

theorem stored_error (e : Raised) : Stored host kept i key payload (.error e) u :=
  ⟨fun hr => (by cases hr), fun hr => (by cases hr)⟩

theorem stored_raised (e : Raised) : Spec host kept faults allowed i (throw e)
    (Stored host kept i key payload) s := spec_throw fun _ _ _ => stored_error e

section Store

variable (hassumed : Assumed host kept faults allowed) (hreads : ReadsBack host)
  (hinv : Invariant host kept allowed s)
include hassumed hreads hinv

theorem spec_publishEntry (hcache : ∃ job, s.jobs[i]? = some ⟨cache, job⟩) (htemp : Temp i s d n c)
    (hname : isTemp n = true) (hplain : Plain n) (hstores : Stores s.jobs i key payload)
    (hshard : ShardAt s root (host.shard key) d) (hmarked : Marked s.world) :
    Spec host kept faults allowed i (cache.publishEntry host d n key payload)
      (Stored host kept i key payload) s := by
  have hunique := hassumed.distinct
  unfold ArtifactCache.publishEntry
  refine spec_attempt (spec_fillEntry hunique htemp hplain) fun r u hr hinvu _ => ?_
  obtain ⟨hsu, hcomplete⟩ := hr
  have htempu := htemp.since hsu
  split
  · rename_i e
    exact spec_bind (spec_cleanUp hunique htempu hname hplain) (fun _ v _ _ _ => stored_raised e)
      fun e' v _ _ _ => stored_raised e'
  · refine spec_attempt (spec_publish hunique htempu hname hplain (hstores.mono hsu.common.jobs)
      (hshard.later hsu.common) (hcomplete rfl) hinvu) fun r v hr hinvv huv => ?_
    obtain ⟨hfailed, hdone⟩ := hr
    have hsv := hsu.common.trans huv
    have hmarkedv := hmarked.common hinv hsv hinvv
    split
    · have hflush : Spec host kept faults allowed i (sys (.flush d)) (fun _ w => Later host kept i v w) v :=
        spec_flush hunique fun w r hw _ => hw
      refine spec_bind hflush ?_ fun e w _ _ _ => stored_raised e
      intro _ w hvw _ _
      refine spec_pure fun x hx hinvx => ⟨fun _ hkey => ?_, fun hr => (by cases hr)⟩
      have hkeeps : Keeps host v key i payload := ⟨hmarkedv, hdone rfl hkey⟩
      exact hkeeps.later hkey hinvv.shape (hvw.1.trans hx.1) hinvx.shape
    · rename_i code
      have htempv := htempu.since (hfailed _ rfl)
      refine spec_attempt (spec_readValidEntry hassumed hreads hinvv htempv.shard
        (cache_common hcache hsv)) fun existing w hr hinvw _ => ?_
      obtain ⟨hvw, hsound, -⟩ := hr
      refine spec_bind (spec_cleanUp hunique (htempv.since hvw.since) hname hplain) ?_
        fun e x _ _ _ => stored_raised e
      intro _ x _ _ hwx
      split
      · rename_i bytes
        refine spec_pure fun y hy hinvy => ⟨fun hr => (by cases hr), fun _ hkey => ?_⟩
        obtain ⟨j, payload', hstores', -, hlink⟩ := hsound bytes rfl
        have hkeeps := keeps_of_link hinvw (hmarkedv.common hinvv hvw.1 hinvw)
          ((hshard.later hsv).later hvw.1) hstores' (hlink hkey)
        exact ⟨j, payload', hkeeps.later hkey hinvw.shape (hwx.trans hy.1) hinvy.shape⟩
      · exact stored_raised _
      · exact stored_raised _
    · rename_i e _
      have htempv := htempu.since (hfailed _ rfl)
      exact spec_bind (spec_cleanUp hunique htempv hname hplain) (fun _ w _ _ _ => stored_raised e)
        fun e' w _ _ _ => stored_raised e'

omit hinv in
/-- What `store` does behind a lookup that did not hit. -/
theorem spec_storeNew (hcache : ∃ job, s.jobs[i]? = some ⟨cache, job⟩)
    (hstores : Stores s.jobs i key payload) :
    Spec host kept faults allowed i (do
      match ← openRoot true with
      | none => throw (.os .io)
      | some root =>
        ensureOwnedRoot root
        let shard ← openOrCreateShard root (host.shard key)
        let token ← sys .token
        let temp := ".tmp-".toList ++ token
        mkdir shard temp
        cache.publishEntry host shard temp key payload) (Stored host kept i key payload) s := by
  have hunique := hassumed.distinct
  refine spec_bind (spec_makeRoot hunique) ?_ fun e u _ _ _ => stored_raised e
  intro opened u hroot hinvu hsu
  split
  · exact stored_raised _
  · rename_i root
    have hrootu := hroot root rfl
    refine spec_bind (spec_ensureOwnedRoot hunique hinvu hrootu) ?_ fun e v _ _ _ => stored_raised e
    intro _ v hmarked hinvv huv
    have hrootv := huv.ext.root root hrootu
    refine spec_bind (spec_openOrCreateShard hunique hinvv hrootv (shard_named key) (shard_plain key))
      ?_ fun e w _ _ _ => stored_raised e
    intro shard w hshard hinvw hvw
    have htoken : Spec host kept faults allowed i (sys .token) (fun r x => Later host kept i w x ∧
        ∀ name, r = .ok name → isToken name) w :=
      spec_token hunique fun x r hx _ hname => ⟨hx, hname⟩
    refine spec_bind htoken ?_ fun e x _ _ _ => stored_raised e
    rintro token x ⟨hwx, hname⟩ hinvx -
    obtain ⟨htemp, hplain⟩ := temp_named (hname token rfl)
    have hshardx := (hshard shard rfl).later hwx.1
    refine spec_bind (spec_mkTemp hunique hshardx.dir htemp hplain) ?_ fun e y _ _ _ => stored_raised e
    intro _ y hmade hinvy hxy
    obtain ⟨c, hc⟩ := hmade rfl
    have hvy := (hvw.trans hwx.1).trans hxy
    have hsy := (hsu.trans huv).trans hvy
    exact spec_publishEntry hassumed hreads hinvy (cache_common hcache hsy) hc htemp hplain
      (hstores.mono hsy.jobs) (hshardx.later hxy) ((hmarked rfl).common hinvv hvy hinvy)

/-- A store leaves an entry, or finds the one that is there. -/
theorem spec_store (hjob : s.jobs[i]? = some ⟨cache, .store key payload⟩) :
    Spec host kept faults allowed i (cache.store host key payload) (fun r u =>
      Stored host kept i key payload r u ∧ (kept key → Kept host s key → r = .ok .already ∨
        (∃ message, r = .error (.valueError message)) ∧ cache.maxEntryBytes < payload.bytes.length)) s := by
  have hcache : ∃ job, s.jobs[i]? = some ⟨cache, job⟩ := ⟨_, hjob⟩
  unfold ArtifactCache.store
  split
  · rename_i hlong
    exact spec_throw fun u _ _ => ⟨stored_error _, fun _ _ => .inr ⟨⟨_, rfl⟩, hlong⟩⟩
  · rename_i hfits
    refine spec_bind (spec_lookup hassumed hreads hinv hcache key true) ?_ ?_
    · rintro looked u ⟨hsound, hfinds⟩ hinvu hsu
      split
      · rename_i bytes
        refine spec_pure fun v hv hinvv => ⟨⟨fun hr => (by cases hr), fun _ hkey => ?_⟩, fun _ _ => .inl rfl⟩
        obtain ⟨j, payload', -, -, hkeeps⟩ := hsound bytes rfl
        exact ⟨j, payload', (hkeeps hkey).later hkey hinvu.shape hv.1 hinvv.shape⟩
      · rename_i hmissed
        have hstores : Stores s.jobs i key payload := ⟨cache, hjob, Nat.le_of_not_lt hfits⟩
        refine spec_mono (spec_storeNew hassumed hreads (cache_common hcache hsu)
          (hstores.mono hsu.jobs)) fun r v hr => ⟨hr, fun hkey hkept => ?_⟩
        obtain ⟨bytes, hbytes⟩ := hfinds hkey hkept
        exact (hmissed bytes (Except.ok.inj hbytes)).elim
    · rintro e u ⟨-, hfinds⟩ - -
      refine spec_throw fun v _ _ => ⟨stored_error e, fun hkey hkept => ?_⟩
      obtain ⟨bytes, hbytes⟩ := hfinds hkey hkept
      cases hbytes

omit hreads hinv in
/-- What is discarded is not protected. -/
theorem spec_discard (hkey : ¬ kept key) :
    Spec host kept faults allowed i (ArtifactCache.discard host key) (fun _ _ => True) s := by
  have hunique := hassumed.distinct
  unfold ArtifactCache.discard
  refine spec_bind (spec_openRoot hunique) ?_ fun _ _ _ _ _ => spec_throw fun _ _ _ => trivial
  intro opened u hr hinvu _
  split
  · exact spec_pure fun _ _ _ => trivial
  · rename_i root
    refine spec_bind (spec_validateRoot hunique hinvu hr.2 false) ?_
      fun _ _ _ _ _ => spec_throw fun _ _ _ => trivial
    rintro valid v ⟨huv, -⟩ hinvv -
    split
    · have hrootv := huv.1.ext.root root hr.2
      refine spec_bind (spec_openShard hunique hinvv hrootv (shard_named key) (shard_plain key)) ?_
        fun _ _ _ _ _ => spec_throw fun _ _ _ => trivial
      rintro shard w ⟨-, hshard, -⟩ hinvw -
      have hshardw := hshard shard rfl
      have hin : Spec host kept faults allowed i (ArtifactCache.discardIn host root shard key)
          (fun _ _ => True) w := by
        refine spec_bind (spec_removeTree hunique host.recursionLimit (.digest hshardw.dir key rfl hkey))
          ?_ fun _ _ _ _ _ => spec_throw fun _ _ _ => trivial
        intro _ x _ _ hwx
        exact spec_removeEmpty hunique (hwx.ext.root root hshardw.top) (shard_named key)
      refine spec_attempt hin fun r x _ _ _ => ?_
      split
      · exact spec_pure fun _ _ _ => trivial
      · cases r with
        | ok a => exact spec_pure fun _ _ _ => trivial
        | error e => exact spec_throw fun _ _ _ => trivial
    · exact spec_pure fun _ _ _ => trivial

/-! ## Calls -/

/-- What a call of the cache says, and that it finds the entry under a protected key. -/
theorem spec_process {process : Process} (hjob : s.jobs[i]? = some process) :
    Spec host kept faults allowed i (process.code host) (fun r u =>
      CallOk host kept u i process.job r ∧
        (kept process.job.key → Kept host s process.job.key → Finds process r)) s := by
  have hallowed : allowed process := hinv.jobs _ (List.mem_of_getElem? hjob)
  obtain ⟨cache, job⟩ := process
  cases job with
  | lookup key recover =>
    refine spec_map (spec_lookup hassumed hreads hinv ⟨_, hjob⟩ key recover) ?_
    rintro r u ⟨hsound, hfinds⟩ hinvu u' hu hinvu'
    refine ⟨CallOk.later ?_ hinvu.shape hu.1 hinvu'.shape, fun hkey hkept => ?_⟩
    · rcases r with e | bytes | _ | _
      · trivial
      · exact hsound bytes rfl
      · trivial
      · trivial
    · obtain ⟨bytes, rfl⟩ := hfinds hkey hkept
      trivial
  | store key payload =>
    refine spec_map (spec_store hassumed hreads hinv hjob) ?_
    rintro r u ⟨⟨hstored, halready⟩, hfinds⟩ hinvu u' hu hinvu'
    refine ⟨CallOk.later ?_ hinvu.shape hu.1 hinvu'.shape, fun hkey hkept => ?_⟩
    · rcases r with e | _ | _
      · trivial
      · exact hstored rfl
      · exact halready rfl
    · rcases hfinds hkey hkept with rfl | ⟨⟨message, rfl⟩, hlong⟩
      · trivial
      · exact hlong
  | discard key =>
    have hkey : ¬ kept key := hassumed.discards _ key hallowed rfl
    refine spec_map (spec_discard hassumed hkey) fun r u _ hinvu u' hu hinvu' => ?_
    refine ⟨?_, fun hkey' => absurd hkey' hkey⟩
    cases r with
    | ok _ => trivial
    | error e => trivial

end Store

/-! ## Runs -/

theorem shape_fresh {w : Tree} (h : Fresh w) : Shape host kept [] w := by
  have hblank : Shape host kept [] (⟨none, 0, fun _ => FileTree.Tree.newDir 0 0⟩ : Tree) := by
    constructor
    case root => exact fun r hr => by cases hr
    case rootOnly => exact fun d hd _ => absurd hd (Nat.not_lt_zero d)
    case below => exact fun d n c hlink => by cases hlink
    case inRoot => exact fun d n c hlink _ => by cases hlink
    case inShard => exact fun d n c hlink _ => by cases hlink
    case inEntry => exact fun d n c hlink _ => by cases hlink
    case unique => exact fun d d' n n' c hlink _ => by cases hlink
    case removed => exact fun d hd _ => absurd hd (Nat.not_lt_zero d)
    case moved => exact fun d hd _ => absurd hd (Nat.not_lt_zero d)
    case whole => exact fun key d c _ hlink _ => by cases hlink
  rcases h with rfl | rfl
  · exact hblank
  · exact (good_makeRoot (s := ⟨_, [], []⟩) hblank).shape

/-- A process that starts changes nothing. -/
theorem Shape.start {process : Process} (h : Shape host kept s.jobs s.world) :
    Shape host kept (s.jobs ++ [process]) s.world where
  root := h.root
  rootOnly := h.rootOnly
  below := h.below
  inRoot := h.inRoot
  inShard d n c hlink hlevel := by
    obtain ⟨hdir, htemp | ⟨hmoved, key, payload, r, hstores, hname⟩⟩ := h.inShard d n c hlink hlevel
    · exact ⟨hdir, .inl htemp⟩
    · exact ⟨hdir, .inr ⟨hmoved, key, payload, r, hstores.mono (List.prefix_append _ _), hname⟩⟩
  inEntry := h.inEntry
  unique := h.unique
  removed := h.removed
  moved d hd hmoved := by
    obtain ⟨hlevel, hdir, key, payload, hstores, hfilled⟩ := h.moved d hd hmoved
    exact ⟨hlevel, hdir, key, payload, hstores.mono (List.prefix_append _ _), hfilled⟩
  whole := h.whole

theorem common_start {process : Process} : Common host kept s (s.start process) where
  ext := .refl _
  jobs := List.prefix_append _ _
  calls := List.prefix_rfl
  rootLinks _ _ _ _ _ h := .inl h
  movedLinks _ _ _ _ _ h := h
  wholeLinks _ _ _ _ _ _ h := ⟨h, fun _ => rfl⟩

theorem Invariant.start {process : Process} (h : Invariant host kept allowed s)
    (hallowed : allowed process) : Invariant host kept allowed (s.start process) where
  shape := h.shape.start
  jobs p hp := by
    rcases List.mem_append.mp hp with hp | hp
    · exact h.jobs p hp
    · rw [List.mem_singleton.mp hp]
      exact hallowed
  calls call hcall := (h.calls call hcall).later h.shape common_start h.shape.start
  order := h.order
  started := h.started

/-- A call that succeeded under a protected key tells that there is an entry. -/
theorem kept_of_call {job : Job} {out : Except Raised Outcome} (h : CallOk host kept s i job out)
    (hkey : kept job.key) (hsuccess : Succeeds job out) : Kept host s job.key := by
  unfold CallOk at h
  unfold Succeeds at hsuccess
  split at h
  · obtain ⟨j, payload, -, -, hkeeps⟩ := h
    exact ⟨j, payload, hkeeps hkey⟩
  · exact ⟨_, _, h hkey⟩
  · exact h hkey
  · rename_i hhit hstored halready
    split at hsuccess
    · exact (hhit _ _ _ rfl rfl).elim
    · rename_i key payload result
      cases result with
      | stored => exact (hstored _ _ rfl rfl).elim
      | already => exact (halready _ _ rfl rfl).elim
    · exact hsuccess.elim

/-- What every call that has returned says of the cache, and of the calls before it. -/
def Returned (host : Host) (kept : ArtifactCacheKey → Prop) (pid : Nat) (process : Process)
    (start : Nat) (out : Except Raised Outcome) (s : State) : Prop :=
  CallOk host kept s pid process.job out ∧ InOrder kept s process start out

/-- Every process of the system keeps to the outline. -/
theorem system_keeps (hassumed : Assumed host kept faults allowed) (hreads : ReadsBack host) :
    Programs.Keeps (system host faults allowed) (outline host kept allowed) (Returned host kept) where
  init w hw := by
    refine ⟨shape_fresh hw, ?_, ?_, ?_, ?_⟩
    · exact fun p hp => absurd hp List.not_mem_nil
    · exact fun call hcall => absurd hcall List.not_mem_nil
    · exact fun call hcall => absurd hcall List.not_mem_nil
    · exact fun call hcall => absurd hcall List.not_mem_nil
  start s process hinv hallowed := by
    have hinv' : Invariant host kept allowed (s.start process) := Invariant.start hinv hallowed
    refine ⟨hinv', fun j => ⟨common_start, fun _ _ _ _ => ⟨rfl, fun _ _ _ h => h⟩⟩, ?_⟩
    have hjob : (s.start process).jobs[s.jobs.length]? = some process := List.getElem?_concat_length
    have hprocess := spec_process hassumed hreads hinv' hjob
    refine Programs.wp_mono (wp_common hprocess) ?_
    rintro r u ⟨⟨hcall, hfinds⟩, -, hcommon⟩
    refine ⟨hcall, ?_⟩
    intro a call ha hcall' hkey hsame hsuccess
    -- The call was there when the process started.
    obtain ⟨tail, htail⟩ := hcommon.calls
    have hold : s.calls[a]? = some call := by
      rw [← hcall', ← htail]
      exact (List.getElem?_append_left ha).symm
    refine hfinds hkey ?_
    rw [← hsame] at hkey ⊢
    exact kept_of_call (hinv'.calls call (List.mem_of_getElem? hold)) hkey hsuccess
  finish s call hinv _ hstart hreturned := by
    obtain ⟨hcall, horder⟩ := hreturned
    have hinv : Invariant host kept allowed s := hinv
    have hearlier : ∀ {a b : Nat} {other : Programs.Call Process (Except Raised Outcome)},
        a < b → b ≤ s.calls.length → (s.finish call).calls[a]? = some other →
        s.calls[a]? = some other := by
      intro a b other ha hb hother
      rw [← hother]
      exact (List.getElem?_append_left (Nat.lt_of_lt_of_le ha hb)).symm
    have hlength : s.calls.length ≤ (s.finish call).calls.length :=
      (List.prefix_append s.calls [call]).length_le
    refine ⟨⟨hinv.shape, hinv.jobs, ?_, ?_, ?_⟩, fun j => ⟨⟨.refl _, List.prefix_rfl,
      List.prefix_append _ _, fun _ _ _ _ _ h => .inl h, fun _ _ _ _ _ h => h,
      fun _ _ _ _ _ _ h => ⟨h, fun _ => rfl⟩⟩, fun _ _ _ _ => ⟨rfl, fun _ _ _ h => h⟩⟩⟩
    · intro other hother
      rcases List.mem_append.mp hother with hother | hother
      · exact hinv.calls other hother
      · rw [List.mem_singleton.mp hother]
        exact hcall
    · intro other hother
      rcases List.mem_append.mp hother with hother | hother
      · intro a before ha hbefore
        exact hinv.order other hother a before ha (hearlier ha (hinv.started other hother) hbefore)
      · rw [List.mem_singleton.mp hother]
        intro a before ha hbefore
        exact horder a before ha (hearlier ha hstart hbefore)
    · intro other hother
      rcases List.mem_append.mp hother with hother | hother
      · exact Nat.le_trans (hinv.started other hother) hlength
      · rw [List.mem_singleton.mp hother]
        exact Nat.le_trans hstart hlength

section Runs

variable {p : Programs.Pool (fun op : Op => op.Answer) Tree Process (Except Raised Outcome)}

end Runs

/-! ## A run -/

theorem hex_replicate {c : Char} (h : "0123456789abcdef".toList.contains c = true) :
    Media.isHex64 (List.replicate 64 c) = true := by
  rw [Media.isHex64, List.length_replicate, Bool.and_eq_true]
  refine ⟨rfl, List.all_eq_true.mpr fun x hx => ?_⟩
  rw [List.eq_of_mem_replicate hx]
  exact h

def sampleFingerprint (c : Char) : String := String.ofList ("sha256:".toList ++ List.replicate 64 c)

theorem fingerprint_of {rest : List Char} (h : Media.isHex64 rest = true) :
    isFingerprint ("sha256:".toList ++ rest) = true := by
  have hlength : "sha256:".toList.length = 7 := by decide
  have hprefixed : "sha256:".toList.isPrefixOf ("sha256:".toList ++ rest) = true := by
    rw [List.isPrefixOf_iff_prefix]
    exact List.prefix_append _ _
  unfold isFingerprint
  rw [hprefixed, Bool.true_and, List.drop_left' hlength]
  exact h

theorem sample_fingerprint {c : Char} (h : "0123456789abcdef".toList.contains c = true) :
    isFingerprint (sampleFingerprint c).toList = true := by
  unfold sampleFingerprint
  rw [String.toList_ofList]
  exact fingerprint_of (hex_replicate h)

theorem sample_kind : isKind "preview".toList = true := by decide

theorem sample_opaque : ∀ f ∈ [sampleFingerprint '1', sampleFingerprint '2', sampleFingerprint '3',
    sampleFingerprint '4', sampleFingerprint '5', sampleFingerprint '6'],
    isFingerprint f.toList = true := by
  simp only [List.forall_mem_cons]
  exact ⟨sample_fingerprint (by decide), sample_fingerprint (by decide), sample_fingerprint (by decide),
    sample_fingerprint (by decide), sample_fingerprint (by decide), sample_fingerprint (by decide),
    fun f hf => absurd hf List.not_mem_nil⟩

def sampleKey : ArtifactCacheKey :=
  ⟨"preview", sampleFingerprint '1', sampleFingerprint '2', sampleFingerprint '3',
    sampleFingerprint '4', sampleFingerprint '5', sampleFingerprint '6', sample_kind, sample_opaque⟩

def sampleDigest (c : Char) : String := String.ofList (List.replicate 64 c)

theorem sample_hex {c : Char} (h : "0123456789abcdef".toList.contains c = true) :
    Media.isHex64 (sampleDigest c).toList = true := by
  rw [sampleDigest, String.toList_ofList]
  exact hex_replicate h

theorem one_hex : Media.isHex64 (sampleDigest '1').toList = true := sample_hex (by decide)

theorem zero_hex : Media.isHex64 (sampleDigest '0').toList = true := sample_hex (by decide)

/-- A host on which one key has a digest of its own. -/
def sampleHost : Host where
  sha256 raw :=
    if raw = asciiBytes sampleKey.json then ⟨sampleDigest '1', one_hex⟩ else ⟨sampleDigest '0', zero_hex⟩
  loads := loadAscii
  recursionLimit := 1000

theorem sample_positive : 1 ≤ 1048576 := by decide

def sampleCache : ArtifactCache := ⟨1048576, sample_positive⟩

theorem sample_short : ([1, 2, 3] : Bytes).length < 2 ^ 63 := by decide

def samplePayload : Payload := ⟨[1, 2, 3], sample_short⟩

/-- One cache, and nobody who discards the key. -/
def sampleAllowed (process : Process) : Prop :=
  process.cache = sampleCache ∧ process.job ≠ .discard sampleKey

theorem sample_distinct (other : ArtifactCacheKey)
    (h : sampleHost.digest other = sampleHost.digest sampleKey) : other = sampleKey := by
  by_cases hsame : asciiBytes other.json = asciiBytes sampleKey.json
  · exact key_of_bytes hsame
  · have hother : sampleHost.digest other = (sampleDigest '0').toList := by
      unfold Host.digest sampleHost
      dsimp only
      rw [if_neg hsame]
    have hown : sampleHost.digest sampleKey = (sampleDigest '1').toList := by
      unfold Host.digest sampleHost
      dsimp only
      rw [if_pos rfl]
    rw [hother, hown, sampleDigest, sampleDigest, String.toList_ofList, String.toList_ofList] at h
    exact absurd (congrArg List.head? h) (by decide)

theorem sample_limits (process other : Process) (h : sampleAllowed process) (h' : sampleAllowed other) :
    process.cache.maxEntryBytes = other.cache.maxEntryBytes := by
  rw [h.1, h'.1]

def sampleLookup : Process := ⟨sampleCache, .lookup sampleKey true⟩

def sampleStore : Process := ⟨sampleCache, .store sampleKey samplePayload⟩

theorem sample_token : isToken (List.replicate 32 'a') := by
  unfold isToken
  decide

/-- A lookup that returns while a process that stores has not begun. -/
theorem sample_run (faults : Prop) : ∃ p, Programs.Run (system sampleHost faults sampleAllowed) p ∧
    p.shared.calls = [⟨0, sampleLookup, 0, .ok (.found .miss)⟩] := by
  have hlookup : sampleAllowed sampleLookup := ⟨rfl, fun hjob => (by cases hjob)⟩
  have hstore : sampleAllowed sampleStore := ⟨rfl, fun hjob => (by cases hjob)⟩
  have hfresh : (system sampleHost faults sampleAllowed).initial
      ⟨none, 0, fun _ => FileTree.Tree.newDir 0 0⟩ := .inl rfl
  have hstarted := ((Programs.Run.init hfresh).start hlookup).start hstore
  have hstepped := hstarted.step (i := 0) rfl (FileTree.Exec.perform sample_token rfl)
  exact ⟨_, hstepped.finish rfl, rfl⟩

end MDRack.Artifacts
