import MDRack.Artifacts.Invariant

/-!
# Steps of the artifact cache

Each change of the tree that the cache makes, with the handles and names it makes it with, keeps
the shape of the tree and what the other processes rely on.

* `Makes`, `Drops`, `Publishes` — creation, removal and publication.
* `Legal` — the system calls that the cache makes.

Principal result: `legal_step` — a legal call is good, whatever the processes have done before.
-/

namespace MDRack.Artifacts

open FileTree (Handle Node)

variable {host : Host} {kept : ArtifactCacheKey → Prop} {s : State} {i : Nat} {t : Tree}

/-! ## Steps -/

namespace Shape

variable (h : Shape host kept s.jobs s.world)
include h

/-- A new entry is an old one, or leads to the new node. -/
theorem link_insert_cases {x : Node Name UInt8} {d m c : Handle} {n k : Name} (hx : x.entries = [])
    (hlink : (s.world.insert d n x).link m k = some c) :
    (m = d ∧ k = n ∧ c = s.world.size) ∨ (m < s.world.size ∧ c < s.world.size ∧
      s.world.link m k = some c) := by
  rw [FileTree.Tree.link_insert hx] at hlink
  split at hlink
  · cases hlink
  · split at hlink
    · rename_i hnew
      exact .inl ⟨hnew.1, hnew.2.symm, (Option.some.inj hlink).symm⟩
    · obtain ⟨hm, hc, -, -⟩ := h.below m k c hlink
      exact .inr ⟨hm, hc, hlink⟩

theorem link_insert_old {x : Node Name UInt8} {d m c : Handle} {n k : Name} (hx : x.entries = [])
    (hnone : s.world.link d n = none) (hlink : s.world.link m k = some c) :
    (s.world.insert d n x).link m k = some c := by
  have hm := (h.below m k c hlink).1
  rw [FileTree.Tree.link_insert hx, if_neg (Nat.ne_of_lt hm), if_neg, hlink]
  rintro ⟨rfl, rfl⟩
  rw [hnone] at hlink
  cases hlink

end Shape

/-- What the cache makes: shards and the marker in the root, temporary entries in a shard, files in
an entry of its own. -/
structure Makes (i : Nat) (t : Tree) (d : Handle) (n : Name) (x : Node Name UInt8) : Prop where
  dir : d < t.size ∧ (t.node d).isDir = true ∧ (t.node d).removed = false
  free : t.link d n = none
  blank : x.entries = [] ∧ x.content = [] ∧ x.moved = false ∧ x.removed = false
  place : x.level = (t.node d).level + 1 ∧ x.owner = i
  inRoot : (t.node d).level = 0 →
    n = CACHE_MARKER ∧ x.isDir = false ∨ isShard n = true ∧ x.isDir = true
  inShard : (t.node d).level = 1 → x.isDir = true ∧ isTemp n = true
  inEntry : (t.node d).level = 2 → x.isDir = false ∧ (t.node d).owner = i ∧
    (t.node d).moved = false ∧ (n = payloadName ∨ n = metadataName)

theorem Shape.insert (h : Shape host kept s.jobs s.world) {d : Handle} {n : Name}
    {x : Node Name UInt8} (hx : Makes i s.world d n x) :
    Shape host kept s.jobs (s.world.insert d n x) := by
  obtain ⟨hd, hdir, hremoved⟩ := hx.dir
  obtain ⟨hentries, hcontent, hmoved, hfresh⟩ := hx.blank
  have hold : ∀ m, m < s.world.size → ((s.world.insert d n x).node m).Alike (s.world.node m) :=
    fun m hm => FileTree.Tree.node_insert (Nat.ne_of_lt hm)
  have hnew : (s.world.insert d n x).node s.world.size = x := FileTree.Tree.node_insert_new
  have hcases : ∀ m k c, (s.world.insert d n x).link m k = some c →
      (m = d ∧ k = n ∧ c = s.world.size) ∨
        (m < s.world.size ∧ c < s.world.size ∧ s.world.link m k = some c) :=
    fun m k c hlink => h.link_insert_cases hentries hlink
  have hkeep : ∀ m k c, s.world.link m k = some c → (s.world.insert d n x).link m k = some c :=
    fun m k c hlink => h.link_insert_old hentries hx.free hlink
  have hsettled : ∀ f bytes, f < s.world.size → Settled s.world f bytes →
      Settled (s.world.insert d n x) f bytes := by
    intro f bytes hf hs
    exact hs.mono FileTree.Tree.extends_insert hf
  constructor
  case root =>
    intro r hr
    obtain ⟨hlt, hkind, hlevel, hstays⟩ := h.root r hr
    refine ⟨Nat.lt_succ_of_lt hlt, ?_, ?_, ?_⟩
    · rw [(hold r hlt).isDir, hkind]
    · rw [(hold r hlt).level, hlevel]
    · rw [(hold r hlt).removed, hstays]
  case rootOnly =>
    intro m hm hlevel
    rcases Nat.lt_succ_iff_lt_or_eq.mp hm with hlt | rfl
    · rw [(hold m hlt).level] at hlevel
      exact h.rootOnly m hlt hlevel
    · rw [hnew, hx.place.1] at hlevel
      cases hlevel
  case below =>
    intro m k c hlink
    rcases hcases m k c hlink with ⟨rfl, rfl, rfl⟩ | ⟨hm, hc, hlink⟩
    · refine ⟨Nat.lt_succ_of_lt hd, Nat.lt_succ_self _, ?_, ?_⟩
      · rw [(hold _ hd).isDir, hdir]
      · rw [hnew, (hold _ hd).level, hx.place.1]
    · obtain ⟨-, -, hkind, hlevel⟩ := h.below m k c hlink
      refine ⟨Nat.lt_succ_of_lt hm, Nat.lt_succ_of_lt hc, ?_, ?_⟩
      · rw [(hold m hm).isDir, hkind]
      · rw [(hold m hm).level, (hold c hc).level, hlevel]
  case inRoot =>
    intro m k c hlink hlevel
    rcases hcases m k c hlink with ⟨rfl, rfl, rfl⟩ | ⟨hm, hc, hlink⟩
    · rw [(hold _ hd).level] at hlevel
      rw [hnew, hcontent]
      rcases hx.inRoot hlevel with ⟨hname, hkind⟩ | hshard
      · exact .inl ⟨hname, hkind, List.nil_prefix⟩
      · exact .inr hshard
    · rw [(hold m hm).level] at hlevel
      rw [(hold c hc).isDir, (hold c hc).content]
      exact h.inRoot m k c hlink hlevel
  case inShard =>
    intro m k c hlink hlevel
    rcases hcases m k c hlink with ⟨rfl, rfl, rfl⟩ | ⟨hm, hc, hlink⟩
    · rw [(hold _ hd).level] at hlevel
      obtain ⟨hkind, htemp⟩ := hx.inShard hlevel
      rw [hnew]
      exact ⟨hkind, .inl ⟨htemp, hmoved⟩⟩
    · rw [(hold m hm).level] at hlevel
      rw [(hold c hc).isDir, (hold c hc).moved, (hold c hc).owner]
      obtain ⟨hkind, htemp | ⟨hpublished, key, payload, r, hstores, hname, hr, hshard⟩⟩ :=
        h.inShard m k c hlink hlevel
      · exact ⟨hkind, .inl htemp⟩
      · exact ⟨hkind, .inr ⟨hpublished, key, payload, r, hstores, hname, hr, hkeep _ _ _ hshard⟩⟩
  case inEntry =>
    intro m k c hlink hlevel
    rcases hcases m k c hlink with ⟨rfl, rfl, rfl⟩ | ⟨hm, hc, hlink⟩
    · rw [(hold _ hd).level] at hlevel
      obtain ⟨hkind, howner, -, hname⟩ := hx.inEntry hlevel
      rw [hnew, (hold _ hd).owner, howner]
      exact ⟨hkind, hx.place.2, hname⟩
    · rw [(hold m hm).level] at hlevel
      rw [(hold c hc).isDir, (hold c hc).owner, (hold m hm).owner]
      exact h.inEntry m k c hlink hlevel
  case unique =>
    intro m m' k k' c hlink hlink'
    rcases hcases m k c hlink with ⟨rfl, rfl, rfl⟩ | ⟨hm, hc, hlink⟩ <;>
      rcases hcases m' k' _ hlink' with ⟨rfl, rfl, hsize⟩ | ⟨hm', hc', hlink'⟩
    · exact ⟨rfl, rfl⟩
    · exact absurd hc' (Nat.lt_irrefl _)
    · exact absurd hc (hsize ▸ Nat.lt_irrefl _)
    · exact h.unique m m' k k' c hlink hlink'
  case removed =>
    intro m hm hgone
    rcases Nat.lt_succ_iff_lt_or_eq.mp hm with hlt | rfl
    · rw [(hold m hlt).removed] at hgone
      obtain ⟨hkind, hempty⟩ := h.removed m hlt hgone
      refine ⟨(hold m hlt).isDir.trans hkind, fun k => ?_⟩
      cases hlink : (s.world.insert d n x).link m k with
      | none => rfl
      | some c =>
        rcases hcases m k c hlink with ⟨rfl, rfl, rfl⟩ | ⟨-, -, hlink⟩
        · rw [hremoved] at hgone
          cases hgone
        · rw [hempty] at hlink
          cases hlink
    · rw [hnew, hfresh] at hgone
      cases hgone
  case moved =>
    intro m hm hpublished
    rcases Nat.lt_succ_iff_lt_or_eq.mp hm with hlt | rfl
    · rw [(hold m hlt).moved] at hpublished
      obtain ⟨hlevel, hkind, key, payload, hstores, hfilled⟩ := h.moved m hlt hpublished
      have hother : m ≠ d := by
        rintro rfl
        rw [(hx.inEntry hlevel).2.2.1] at hpublished
        cases hpublished
      refine ⟨(hold m hlt).level.trans hlevel, (hold m hlt).isDir.trans hkind, key, payload,
        (hold m hlt).owner.symm ▸ hstores, ⟨fun f hf => ?_, fun f hf => ?_⟩⟩
      · rcases hcases m _ f hf with ⟨hm, -, -⟩ | ⟨-, hlt', hf⟩
        · exact absurd hm hother
        · exact hsettled f _ hlt' (hfilled.payloadFile f hf)
      · rcases hcases m _ f hf with ⟨hm, -, -⟩ | ⟨-, hlt', hf⟩
        · exact absurd hm hother
        · exact hsettled f _ hlt' (hfilled.metadataFile f hf)
    · rw [hnew, hmoved] at hpublished
      cases hpublished
  case whole =>
    intro key m c hkey hlink hlevel
    rcases hcases m _ c hlink with ⟨rfl, hname, rfl⟩ | ⟨hm, hc, hlink⟩
    · rw [(hold _ hd).level] at hlevel
      have htemp := (hx.inShard hlevel).2
      rw [← hname, digest_not_temp] at htemp
      cases htemp
    · rw [(hold m hm).level] at hlevel
      obtain ⟨⟨f, hf⟩, f', hf'⟩ := h.whole key m c hkey hlink hlevel
      exact ⟨⟨f, hkeep _ _ _ hf⟩, f', hkeep _ _ _ hf'⟩

theorem good_insert (h : Shape host kept s.jobs s.world) {d : Handle} {n : Name}
    {x : Node Name UInt8} (hx : Makes i s.world d n x) :
    Good host kept i s (s.world.insert d n x) := by
  have hentries := hx.blank.1
  have hkeep : ∀ m k c, s.world.link m k = some c → (s.world.insert d n x).link m k = some c :=
    fun m k c hlink => h.link_insert_old hentries hx.free hlink
  refine .of (h.insert hx) FileTree.Tree.extends_insert (fun r k c _ _ hlink => .inl (hkeep r k c hlink))
    ?_ ?_ ?_
  · intro m k c hm hmoved hlink
    rcases h.link_insert_cases hentries hlink with ⟨rfl, -, -⟩ | ⟨-, -, hlink⟩
    · rw [(hx.inEntry (h.moved m hm hmoved).1).2.2.1] at hmoved
      cases hmoved
    · exact hlink
  · intro key m c hkey hm hlevel hlink
    refine ⟨hkeep _ _ _ hlink, fun k => ?_⟩
    obtain ⟨-, hc, -, hbelow⟩ := h.below m _ c hlink
    have hother : c ≠ d ∨ (s.world.link c k).isSome = true ∨ k ≠ n := by
      by_cases hcd : c = d
      · subst hcd
        obtain ⟨-, hpublished⟩ := h.inShard m _ c hlink hlevel
        rw [hlevel] at hbelow
        have hmoved := (hx.inEntry hbelow).2.2.1
        rcases hpublished with ⟨htemp, -⟩ | ⟨hmoved', -⟩
        · rw [digest_not_temp] at htemp
          cases htemp
        · rw [hmoved] at hmoved'
          cases hmoved'
      · exact .inl hcd
    rcases hother with hne | hsome | hne
    · exact FileTree.Tree.link_eq (congrArg Node.entries
        (FileTree.Tree.node_insert_other (Nat.ne_of_lt hc) hne))
    · obtain ⟨f, hf⟩ := Option.isSome_iff_exists.mp hsome
      rw [hf, hkeep _ _ _ hf]
    · rw [FileTree.Tree.link_insert hentries, if_neg (Nat.ne_of_lt hc), if_neg fun hname => hne hname.2.symm]
  · intro j hj m hm howner hclass
    have hne : m ≠ d := by
      rintro rfl
      rcases hclass with hfile | ⟨hlevel, -⟩
      · rw [hx.dir.2.1] at hfile
        cases hfile
      · exact hj (howner.symm.trans (hx.inEntry hlevel).2.1)
    exact ⟨FileTree.Tree.node_insert_other (Nat.ne_of_lt hm) hne, fun _ a k hlink => hkeep a k m hlink⟩

/-- A tree with the same nodes and no new entries keeps the shape. -/
theorem Shape.later {jobs : List Process} {t t' : Tree} (h : Shape host kept jobs t)
    (hroot : t'.root = t.root) (hsize : t'.size = t.size) (hext : t.Extends t')
    (hmoved : ∀ m, m < t.size → (t'.node m).moved = (t.node m).moved)
    (hlinks : ∀ m k c, t'.link m k = some c → t.link m k = some c)
    (hmarker : ∀ d n c, t.link d n = some c → (t.node d).level = 0 → (t.node c).isDir = false →
      (t'.node c).content <+: CACHE_MARKER_BYTES)
    (hgone : ∀ m, m < t.size → (t'.node m).removed = true →
      t.root ≠ some m ∧ (t.node m).isDir = true ∧ ∀ k, t'.link m k = none)
    (hshards : ∀ r k d n c, t.root = some r → t.link r k = some d → t.link d n = some c →
      t'.link r k = some d)
    (hwhole : ∀ key d c, kept key → t.link d (host.digest key) = some c → (t.node d).level = 1 →
      ∀ n, t'.link c n = t.link c n) : Shape host kept jobs t' := by
  have hkinds : ∀ m, m < t.size → (t'.node m).isDir = (t.node m).isDir ∧
      (t'.node m).level = (t.node m).level ∧ (t'.node m).owner = (t.node m).owner :=
    fun m hm => ⟨(hext.node m hm).isDir, (hext.node m hm).level, (hext.node m hm).owner⟩
  constructor
  case root =>
    intro r hr
    rw [hroot] at hr
    obtain ⟨hlt, hkind, hlevel, -⟩ := h.root r hr
    refine ⟨hsize ▸ hlt, (hkinds r hlt).1.trans hkind, (hkinds r hlt).2.1.trans hlevel, ?_⟩
    by_contra hremoved
    exact (hgone r hlt (Bool.eq_true_of_not_eq_false hremoved)).1 hr
  case rootOnly =>
    intro m hm hlevel
    rw [hsize] at hm
    rw [(hkinds m hm).2.1] at hlevel
    exact hroot.trans (h.rootOnly m hm hlevel)
  case below =>
    intro m k c hlink
    obtain ⟨hm, hc, hkind, hlevel⟩ := h.below m k c (hlinks m k c hlink)
    rw [hsize, (hkinds m hm).1, (hkinds m hm).2.1, (hkinds c hc).2.1]
    exact ⟨hm, hc, hkind, hlevel⟩
  case inRoot =>
    intro m k c hlink hlevel
    have hlink' := hlinks m k c hlink
    obtain ⟨hm, hc, -⟩ := h.below m k c hlink'
    rw [(hkinds m hm).2.1] at hlevel
    rw [(hkinds c hc).1]
    rcases h.inRoot m k c hlink' hlevel with ⟨hname, hfile, -⟩ | hshard
    · exact .inl ⟨hname, hfile, hmarker m k c hlink' hlevel hfile⟩
    · exact .inr hshard
  case inShard =>
    intro m k c hlink hlevel
    have hlink' := hlinks m k c hlink
    obtain ⟨hm, hc, -⟩ := h.below m k c hlink'
    rw [(hkinds m hm).2.1] at hlevel
    rw [(hkinds c hc).1, (hkinds c hc).2.2, hmoved c hc]
    obtain ⟨hkind, htemp | ⟨hpublished, key, payload, r, hstores, hname, hr, hshard⟩⟩ :=
      h.inShard m k c hlink' hlevel
    · exact ⟨hkind, .inl htemp⟩
    · exact ⟨hkind, .inr ⟨hpublished, key, payload, r, hstores, hname, hroot.trans hr,
        hshards r _ m k c hr hshard hlink'⟩⟩
  case inEntry =>
    intro m k c hlink hlevel
    have hlink' := hlinks m k c hlink
    obtain ⟨hm, hc, -⟩ := h.below m k c hlink'
    rw [(hkinds m hm).2.1] at hlevel
    rw [(hkinds c hc).1, (hkinds c hc).2.2, (hkinds m hm).2.2]
    exact h.inEntry m k c hlink' hlevel
  case unique =>
    exact fun m m' k k' c hlink hlink' =>
      h.unique m m' k k' c (hlinks m k c hlink) (hlinks m' k' c hlink')
  case removed =>
    intro m hm hremoved
    rw [hsize] at hm
    obtain ⟨-, hkind, hnone⟩ := hgone m hm hremoved
    exact ⟨(hkinds m hm).1.trans hkind, hnone⟩
  case moved =>
    intro m hm hpublished
    rw [hsize] at hm
    rw [hmoved m hm] at hpublished
    obtain ⟨hlevel, hkind, key, payload, hstores, hfilled⟩ := h.moved m hm hpublished
    refine ⟨(hkinds m hm).2.1.trans hlevel, (hkinds m hm).1.trans hkind, key, payload,
      (hkinds m hm).2.2.symm ▸ hstores, ⟨fun f hf => ?_, fun f hf => ?_⟩⟩
    · have hf' := hlinks _ _ _ hf
      exact (hfilled.payloadFile f hf').mono hext (h.below _ _ _ hf').2.1
    · have hf' := hlinks _ _ _ hf
      exact (hfilled.metadataFile f hf').mono hext (h.below _ _ _ hf').2.1
  case whole =>
    intro key m c hkey hlink hlevel
    have hlink' := hlinks m _ c hlink
    rw [(hkinds m (h.below m _ c hlink').1).2.1] at hlevel
    have hsame := hwhole key m c hkey hlink' hlevel
    rw [hsame, hsame]
    exact h.whole key m c hkey hlink' hlevel

/-! ### Removal -/

/-- What the cache takes out of a directory: a shard that has been removed, an entry that has been
published or is its own, and the files of such an entry, if its key is not protected. -/
structure Drops (host : Host) (kept : ArtifactCacheKey → Prop) (i : Nat) (jobs : List Process)
    (t : Tree) (d : Handle) (n : Name) : Prop where
  dir : d < t.size ∧ (t.node d).isDir = true
  inRoot : (t.node d).level = 0 → ∀ c, t.link d n = some c → (t.node c).removed = true
  inShard : (t.node d).level = 1 → (∀ key, kept key → n ≠ host.digest key) ∧
    ∀ c, t.link d n = some c → (t.node c).moved = true ∨ (t.node c).owner = i
  inEntry : (t.node d).level = 2 → (t.node d).owner = i ∧ (t.node d).moved = false ∨
    (t.node d).moved = true ∧ ∀ key payload, Stores jobs (t.node d).owner key payload → ¬ kept key

/-- Nothing is taken out of an entry under a protected key. -/
theorem Shape.entry_not_dropped (h : Shape host kept s.jobs s.world)
    (hunique : Distinct host kept) {d m c : Handle} {n : Name}
    {key : ArtifactCacheKey} (hx : Drops host kept i s.jobs s.world d n) (hkey : kept key)
    (hlink : s.world.link m (host.digest key) = some c) (hlevel : (s.world.node m).level = 1) :
    c ≠ d := by
  rintro rfl
  have hbelow := (h.below m _ c hlink).2.2.2
  rw [hlevel] at hbelow
  obtain ⟨-, ⟨htemp, -⟩ | ⟨hmoved, key', payload, r, hstores, hname, -⟩⟩ := h.inShard m _ c hlink hlevel
  · rw [digest_not_temp] at htemp
    cases htemp
  · rcases hx.inEntry hbelow with ⟨-, hown⟩ | ⟨-, hloose⟩
    · rw [hmoved] at hown
      cases hown
    · obtain rfl := hunique key hkey key' hname.symm
      exact hloose _ payload hstores hkey

theorem link_detach_some {t : Tree} {d m c : Handle} {n k : Name}
    (hlink : (t.detach d n).link m k = some c) : t.link m k = some c := by
  rw [FileTree.Tree.link_detach] at hlink
  split at hlink
  · cases hlink
  · exact hlink

theorem Shape.detach (h : Shape host kept s.jobs s.world) (hunique : Distinct host kept) {d : Handle}
    {n : Name} (hx : Drops host kept i s.jobs s.world d n) :
    Shape host kept s.jobs (s.world.detach d n) := by
  refine h.later rfl rfl FileTree.Tree.extends_detach (fun m _ => FileTree.Tree.node_detach.moved)
    (fun _ _ _ hlink => link_detach_some hlink) ?_ ?_ ?_ ?_
  · intro m k c hlink hlevel hfile
    rw [FileTree.Tree.node_detach.content]
    rcases h.inRoot m k c hlink hlevel with ⟨-, -, hcontent⟩ | ⟨-, hdir⟩
    · exact hcontent
    · rw [hfile] at hdir
      cases hdir
  · intro m hm hgone
    rw [FileTree.Tree.node_detach.removed] at hgone
    refine ⟨fun hr => ?_, (h.removed m hm hgone).1, fun k => ?_⟩
    · rw [(h.root m hr).2.2.2] at hgone
      cases hgone
    · rw [FileTree.Tree.link_detach, (h.removed m hm hgone).2, ite_self]
  · intro r k m l c hr hshard hlink
    -- A shard with an entry has not been removed, so it is not the one taken out.
    rw [FileTree.Tree.link_detach, if_neg, hshard]
    rintro ⟨rfl, rfl⟩
    have hgone := hx.inRoot (h.root _ hr).2.2.1 m hshard
    rw [(h.removed m (h.below m l c hlink).1 hgone).2] at hlink
    cases hlink
  · intro key m c hkey hlink hlevel l
    have hother := h.entry_not_dropped hunique hx hkey hlink hlevel
    rw [FileTree.Tree.link_detach, if_neg fun hc => hother hc.1]

theorem good_detach (h : Shape host kept s.jobs s.world) (hunique : Distinct host kept) {d : Handle}
    {n : Name} (hx : Drops host kept i s.jobs s.world d n) :
    Good host kept i s (s.world.detach d n) := by
  refine .of (h.detach hunique hx) FileTree.Tree.extends_detach ?_
    (fun m k c _ _ hlink => link_detach_some hlink) ?_ ?_
  · intro r k c hr _ hlink
    rw [FileTree.Tree.link_detach]
    split
    · rename_i hrd
      obtain ⟨rfl, rfl⟩ := hrd
      refine .inr ?_
      rw [FileTree.Tree.node_detach.removed]
      exact hx.inRoot (h.root r hr).2.2.1 c hlink
    · exact .inl hlink
  · intro key m c hkey hm hlevel hlink
    have hother := h.entry_not_dropped hunique hx hkey hlink hlevel
    refine ⟨?_, fun k => ?_⟩
    · rw [FileTree.Tree.link_detach, if_neg, hlink]
      rintro ⟨rfl, hname⟩
      exact (hx.inShard hlevel).1 key hkey hname
    · rw [FileTree.Tree.link_detach, if_neg fun hc => hother hc.1]
  · intro j hj m hm howner hclass
    have hne : m ≠ d := by
      rintro rfl
      rcases hclass with hfile | ⟨hlevel, hunmoved⟩
      · rw [hx.dir.2] at hfile
        cases hfile
      · rcases hx.inEntry hlevel with ⟨hown, -⟩ | ⟨hmoved, -⟩
        · exact hj (howner.symm.trans hown)
        · rw [hunmoved] at hmoved
          cases hmoved
    refine ⟨FileTree.Tree.node_detach_other hne, fun hdir a k hlink => ?_⟩
    show (s.world.detach d n).link a k = some m
    rw [FileTree.Tree.link_detach, if_neg, hlink]
    rintro ⟨rfl, rfl⟩
    rcases hclass with hfile | ⟨hlevel, hunmoved⟩
    · rw [hdir] at hfile
      cases hfile
    · have hbelow := (h.below _ _ m hlink).2.2.2
      rw [hlevel] at hbelow
      rcases (hx.inShard (by omega)).2 m hlink with hmoved | hown
      · rw [hunmoved] at hmoved
        cases hmoved
      · exact hj (howner.symm.trans hown)

/-- A directory without entries is noted as removed. -/
theorem good_remove (h : Shape host kept s.jobs s.world) {n : Handle} (hn : n < s.world.size)
    (hdir : (s.world.node n).isDir = true) (hempty : ∀ k, s.world.link n k = none)
    (hroot : (s.world.node n).level ≠ 0)
    (hentry : (s.world.node n).level = 2 → (s.world.node n).moved = true ∨ (s.world.node n).owner = i) :
    Good host kept i s (s.world.remove n) := by
  have hlinks : ∀ m k, (s.world.remove n).link m k = s.world.link m k :=
    fun m k => FileTree.Tree.link_remove
  have hold : ∀ m, m ≠ n → (s.world.remove n).node m = s.world.node m := fun m hm => if_neg hm
  have hself : (s.world.remove n).node n = { s.world.node n with removed := true } := if_pos rfl
  have hext := FileTree.Tree.extends_remove s.world n
  have hsame : ∀ m, ((s.world.remove n).node m).moved = (s.world.node m).moved ∧
      ((s.world.remove n).node m).content = (s.world.node m).content := by
    intro m
    by_cases hm : m = n
    · rw [hm, hself]
      exact ⟨rfl, rfl⟩
    · rw [hold m hm]
      exact ⟨rfl, rfl⟩
  refine .of ?_ hext (fun r k c _ _ hlink => .inl ((hlinks r k).trans hlink))
    (fun m k c _ _ hlink => (hlinks m k).symm.trans hlink)
    (fun key m c _ _ _ hlink => ⟨(hlinks _ _).trans hlink, fun k => hlinks c k⟩) ?_
  · refine h.later rfl rfl hext (fun m _ => (hsame m).1) (fun m k c hlink => (hlinks m k).symm.trans hlink)
      ?_ ?_ (fun r k m l c _ hlink _ => (hlinks r k).trans hlink) (fun _ _ c _ _ _ k => hlinks c k)
    · intro m k c hlink hlevel hfile
      rw [(hsame c).2]
      rcases h.inRoot m k c hlink hlevel with ⟨-, -, hcontent⟩ | ⟨-, hdir⟩
      · exact hcontent
      · rw [hfile] at hdir
        cases hdir
    · intro m hm hgone
      by_cases hmn : m = n
      · subst hmn
        refine ⟨fun hr => hroot (h.root m hr).2.2.1, hdir, fun k => (hlinks m k).trans (hempty k)⟩
      · rw [hold m hmn] at hgone
        refine ⟨fun hr => ?_, (h.removed m hm hgone).1, fun k =>
          (hlinks m k).trans ((h.removed m hm hgone).2 k)⟩
        rw [(h.root m hr).2.2.2] at hgone
        cases hgone
  · intro j hj m hm howner hclass
    have hne : m ≠ n := by
      rintro rfl
      rcases hclass with hfile | ⟨hlevel, hunmoved⟩
      · rw [hdir] at hfile
        cases hfile
      · rcases hentry hlevel with hmoved | hown
        · rw [hunmoved] at hmoved
          cases hmoved
        · exact hj (howner.symm.trans hown)
    exact ⟨hold m hne, fun _ a k hlink => (hlinks a k).trans hlink⟩

/-! ### Files -/

/-- A file that its process goes on writing, or closes. -/
theorem good_file (h : Shape host kept s.jobs s.world) {f : Handle} {x : Node Name UInt8}
    (hf : f < s.world.size) (hkind : (s.world.node f).isDir = false)
    (howner : (s.world.node f).owner = i) (hx : (s.world.node f).Continues x)
    (hentries : x.entries = (s.world.node f).entries) (hmoved : x.moved = (s.world.node f).moved)
    (hremoved : x.removed = (s.world.node f).removed)
    (hmarker : ∀ d n, s.world.link d n = some f → (s.world.node d).level = 0 →
      x.content <+: CACHE_MARKER_BYTES) : Good host kept i s (s.world.set f x) := by
  have hself : (s.world.set f x).node f = x := if_pos rfl
  have hold : ∀ m, m ≠ f → (s.world.set f x).node m = s.world.node m := fun m hm => if_neg hm
  have hlinks : ∀ m k, (s.world.set f x).link m k = s.world.link m k := by
    intro m k
    refine FileTree.Tree.link_eq ?_
    by_cases hm : m = f
    · rw [hm, hself, hentries]
    · rw [hold m hm]
  have hsame : ∀ m, ((s.world.set f x).node m).moved = (s.world.node m).moved ∧
      ((s.world.set f x).node m).removed = (s.world.node m).removed := by
    intro m
    by_cases hm : m = f
    · rw [hm, hself]
      exact ⟨hmoved, hremoved⟩
    · rw [hold m hm]
      exact ⟨rfl, rfl⟩
  have hext : s.world.Extends (s.world.set f x) := FileTree.Tree.extends_set hx
  refine .of ?_ hext (fun r k c _ _ hlink => .inl ((hlinks r k).trans hlink))
    (fun m k c _ _ hlink => (hlinks m k).symm.trans hlink)
    (fun key m c _ _ _ hlink => ⟨(hlinks _ _).trans hlink, fun k => hlinks c k⟩) ?_
  · refine h.later rfl rfl hext (fun m _ => (hsame m).1) (fun m k c hlink => (hlinks m k).symm.trans hlink)
      ?_ ?_ (fun r k m l c _ hlink _ => (hlinks r k).trans hlink) (fun _ _ c _ _ _ k => hlinks c k)
    · intro m k c hlink hlevel hfile
      by_cases hc : c = f
      · subst hc
        rw [hself]
        exact hmarker m k hlink hlevel
      · rw [hold c hc]
        rcases h.inRoot m k c hlink hlevel with ⟨-, -, hcontent⟩ | ⟨-, hdir⟩
        · exact hcontent
        · rw [hfile] at hdir
          cases hdir
    · intro m hm hgone
      rw [(hsame m).2] at hgone
      refine ⟨fun hr => ?_, (h.removed m hm hgone).1, fun k =>
        (hlinks m k).trans ((h.removed m hm hgone).2 k)⟩
      rw [(h.root m hr).2.2.2] at hgone
      cases hgone
  · intro j hj m hm howner' _
    have hne : m ≠ f := by
      rintro rfl
      exact hj (howner'.symm.trans howner)
    exact ⟨hold m hne, fun _ a k hlink => (hlinks a k).trans hlink⟩

/-! ### Publication -/

/-- A temporary entry with all of its files is given the name of the key, where no entry is left
under that name. -/
structure Publishes (host : Host) (i : Nat) (jobs : List Process) (t : Tree) (d : Handle)
    (source target : Name) (n : Handle) (key : ArtifactCacheKey) (payload : Payload) : Prop where
  stores : Stores jobs i key payload
  named : target = host.digest key
  temp : isTemp source = true
  level : (t.node d).level = 1
  link : t.link d source = some n
  own : (t.node n).owner = i ∧ (t.node n).moved = false
  shard : ∃ r, t.root = some r ∧ t.link r (host.shard key) = some d
  payloadFile : ∃ f, t.link n payloadName = some f ∧ Settled t f payload.bytes
  metadataFile : ∃ f, t.link n metadataName = some f ∧
    Settled t f (asciiBytes (host.metadata key payload))
  free : ∀ old, t.link d target = some old → ∀ k, t.link old k = none

section Move

variable (h : Shape host kept s.jobs s.world) {d n : Handle} {source target : Name}
  {key : ArtifactCacheKey} {payload : Payload}
  (hx : Publishes host i s.jobs s.world d source target n key payload)
include h hx

theorem Publishes.ne : n ≠ d := by
  obtain ⟨-, -, -, hlevel⟩ := h.below d source n hx.link
  rintro rfl
  omega

theorem Publishes.linked (m : Handle) (k : Name) : (s.world.move d source target n).link m k =
    if m = d ∧ target = k then some n
    else if m = d ∧ source = k then none else s.world.link m k :=
  FileTree.Tree.link_move (hx.ne h)

/-- No other directory changes. -/
theorem Publishes.elsewhere {m : Handle} (hm : m ≠ d) (k : Name) :
    (s.world.move d source target n).link m k = s.world.link m k := by
  rw [hx.linked h, if_neg fun hc => hm hc.1, if_neg fun hc => hm hc.1]

/-- Only shards are changed. -/
theorem Publishes.apart {m : Handle} (hm : (s.world.node m).level ≠ 1) (k : Name) :
    (s.world.move d source target n).link m k = s.world.link m k := by
  refine hx.elsewhere h ?_ k
  rintro rfl
  exact hm hx.level

/-- A name leads to the published entry, or to what it led to before. -/
theorem Publishes.cases {m c : Handle} {k : Name}
    (hc : (s.world.move d source target n).link m k = some c) :
    (m = d ∧ k = target ∧ c = n) ∨ (s.world.link m k = some c ∧ c ≠ n) := by
  rw [hx.linked h] at hc
  split at hc
  · rename_i hnew
    exact .inl ⟨hnew.1, hnew.2.symm, (Option.some.inj hc).symm⟩
  · split at hc
    · cases hc
    · rename_i hsource
      refine .inr ⟨hc, ?_⟩
      rintro rfl
      obtain ⟨hm, hk⟩ := h.unique m d k source _ hc hx.link
      exact hsource ⟨hm, hk.symm⟩

/-- What publication leaves of a node. -/
theorem Publishes.kinds (m : Handle) :
    ((s.world.move d source target n).node m).isDir = (s.world.node m).isDir ∧
      ((s.world.move d source target n).node m).level = (s.world.node m).level ∧
      ((s.world.move d source target n).node m).owner = (s.world.node m).owner ∧
      ((s.world.move d source target n).node m).removed = (s.world.node m).removed ∧
      ((s.world.move d source target n).node m).content = (s.world.node m).content := by
  by_cases hm : m = n
  · rw [hm, FileTree.Tree.node_move_self (hx.ne h)]
    exact ⟨rfl, rfl, rfl, rfl, rfl⟩
  · have halike : ((s.world.move d source target n).node m).Alike (s.world.node m) :=
      FileTree.Tree.node_move hm
    exact ⟨halike.isDir, halike.level, halike.owner, halike.removed, halike.content⟩

theorem Shape.move : Shape host kept s.jobs (s.world.move d source target n) := by
  obtain ⟨hd, hn, hdkind, hnlevel⟩ := h.below d source n hx.link
  rw [hx.level] at hnlevel
  have hkinds := hx.kinds h
  have hold : ∀ m, m ≠ n → ((s.world.move d source target n).node m).moved = (s.world.node m).moved :=
    fun m hm => (FileTree.Tree.node_move hm).moved
  have hext : s.world.Extends (s.world.move d source target n) := FileTree.Tree.extends_move
  have hroot : ∀ r, s.world.root = some r → (s.world.node r).level ≠ 1 := by
    intro r hr
    rw [(h.root r hr).2.2.1]
    decide
  constructor
  case root =>
    intro r hr
    obtain ⟨hlt, hkind, hlevel, hstays⟩ := h.root r hr
    exact ⟨hlt, (hkinds r).1.trans hkind, (hkinds r).2.1.trans hlevel, (hkinds r).2.2.2.1.trans hstays⟩
  case rootOnly => exact fun m hm hlevel => h.rootOnly m hm ((hkinds m).2.1.symm.trans hlevel)
  case below =>
    intro m k c hc
    rw [(hkinds m).1, (hkinds m).2.1, (hkinds c).2.1]
    rcases hx.cases h hc with ⟨rfl, rfl, rfl⟩ | ⟨hc, -⟩
    · exact ⟨hd, hn, hdkind, by rw [hnlevel, hx.level]⟩
    · exact h.below m k c hc
  case inRoot =>
    intro m k c hc hlevel
    rw [(hkinds m).2.1] at hlevel
    rw [(hkinds c).1, (hkinds c).2.2.2.2]
    rw [hx.apart h (by omega)] at hc
    exact h.inRoot m k c hc hlevel
  case inShard =>
    intro m k c hc hlevel
    rw [(hkinds m).2.1] at hlevel
    rw [(hkinds c).1, (hkinds c).2.2.1]
    rcases hx.cases h hc with ⟨rfl, rfl, rfl⟩ | ⟨hc, hcn⟩
    · obtain ⟨r, hr, hshard⟩ := hx.shard
      refine ⟨(h.inShard _ _ _ hx.link hx.level).1, .inr ⟨by rw [FileTree.Tree.node_move_self (hx.ne h)], key, payload, r, ?_,
        hx.named, hr, ?_⟩⟩
      · rw [hx.own.1]
        exact hx.stores
      · rw [hx.apart h (hroot r hr), hshard]
    · rw [hold c hcn]
      obtain ⟨hkind, htemp | ⟨hpublished, key', payload', r, hstores, hname, hr, hshard⟩⟩ :=
        h.inShard m k c hc hlevel
      · exact ⟨hkind, .inl htemp⟩
      · refine ⟨hkind, .inr ⟨hpublished, key', payload', r, hstores, hname, hr, ?_⟩⟩
        rw [hx.apart h (hroot r hr), hshard]
  case inEntry =>
    intro m k c hc hlevel
    rw [(hkinds m).2.1] at hlevel
    rw [(hkinds c).1, (hkinds c).2.2.1, (hkinds m).2.2.1]
    rw [hx.apart h (by omega)] at hc
    exact h.inEntry m k c hc hlevel
  case unique =>
    intro m m' k k' c hc hc'
    rcases hx.cases h hc with ⟨rfl, rfl, rfl⟩ | ⟨hc, hcn⟩ <;>
      rcases hx.cases h hc' with ⟨rfl, rfl, hcn'⟩ | ⟨hc', hcn'⟩
    · exact ⟨rfl, rfl⟩
    · exact absurd rfl hcn'
    · exact absurd hcn' hcn
    · exact h.unique m m' k k' c hc hc'
  case removed =>
    intro m hm hgone
    rw [(hkinds m).2.2.2.1] at hgone
    obtain ⟨hkind, hnone⟩ := h.removed m hm hgone
    have hmd : m ≠ d := by
      rintro rfl
      have hlinked := hx.link
      rw [hnone] at hlinked
      cases hlinked
    exact ⟨(hkinds m).1.trans hkind, fun k => (hx.elsewhere h hmd k).trans (hnone k)⟩
  case moved =>
    intro m hm hpublished
    have hmkind := hkinds m
    by_cases hmn : m = n
    · subst hmn
      refine ⟨hmkind.2.1.trans hnlevel, hmkind.1.trans (h.inShard _ _ _ hx.link hx.level).1, key,
        payload, ?_, ⟨fun f hf => ?_, fun f hf => ?_⟩⟩
      · rw [hmkind.2.2.1, hx.own.1]
        exact hx.stores
      · rw [hx.elsewhere h (hx.ne h)] at hf
        obtain ⟨g, hg, hsettled⟩ := hx.payloadFile
        obtain rfl := Option.some.inj (hf.symm.trans hg)
        exact hsettled.mono hext (h.below _ _ _ hf).2.1
      · rw [hx.elsewhere h (hx.ne h)] at hf
        obtain ⟨g, hg, hsettled⟩ := hx.metadataFile
        obtain rfl := Option.some.inj (hf.symm.trans hg)
        exact hsettled.mono hext (h.below _ _ _ hf).2.1
    · rw [hold m hmn] at hpublished
      obtain ⟨hlevel, hkind, key', payload', hstores, hfilled⟩ := h.moved m hm hpublished
      have hmlevel : (s.world.node m).level ≠ 1 := by omega
      refine ⟨hmkind.2.1.trans hlevel, hmkind.1.trans hkind, key', payload',
        hmkind.2.2.1.symm ▸ hstores, ⟨fun f hf => ?_, fun f hf => ?_⟩⟩
      · rw [hx.apart h hmlevel] at hf
        exact (hfilled.payloadFile f hf).mono hext (h.below _ _ f hf).2.1
      · rw [hx.apart h hmlevel] at hf
        exact (hfilled.metadataFile f hf).mono hext (h.below _ _ f hf).2.1
  case whole =>
    intro key' m c hkey hc hlevel
    rw [(hkinds m).2.1] at hlevel
    rcases hx.cases h hc with ⟨rfl, -, rfl⟩ | ⟨hc, hcn⟩
    · rw [hx.elsewhere h (hx.ne h), hx.elsewhere h (hx.ne h)]
      obtain ⟨f, hf, -⟩ := hx.payloadFile
      obtain ⟨f', hf', -⟩ := hx.metadataFile
      exact ⟨⟨f, hf⟩, f', hf'⟩
    · have hbelow := (h.below m _ c hc).2.2.2
      rw [hlevel] at hbelow
      have hclevel : (s.world.node c).level ≠ 1 := by omega
      rw [hx.apart h hclevel, hx.apart h hclevel]
      exact h.whole key' m c hkey hc hlevel

theorem good_move : Good host kept i s (s.world.move d source target n) := by
  refine .of (h.move hx) FileTree.Tree.extends_move ?_ ?_ ?_ ?_
  · intro r k c hr _ hc
    rw [hx.apart h (by rw [(h.root r hr).2.2.1]; decide)]
    exact .inl hc
  · intro m k c hm hmoved hc
    rw [hx.apart h (by rw [(h.moved m hm hmoved).1]; decide)] at hc
    exact hc
  · intro key' m c hkey hm hlevel hc
    have hbelow := (h.below m _ c hc).2.2.2
    rw [hlevel] at hbelow
    refine ⟨?_, fun k => hx.apart h (by omega) k⟩
    rw [hx.linked h, if_neg, if_neg, hc]
    · rintro ⟨rfl, hname⟩
      have htemp := hx.temp
      rw [hname, digest_not_temp] at htemp
      cases htemp
    · rintro ⟨rfl, hname⟩
      -- A protected entry is whole, so nothing is published over it.
      obtain ⟨⟨f, hf⟩, -⟩ := h.whole key' m c hkey hc hlevel
      rw [hx.free c (hname ▸ hc)] at hf
      cases hf
  · intro j hj m hm howner hclass
    have hmn : m ≠ n := by
      rintro rfl
      exact hj (howner.symm.trans hx.own.1)
    have hmd : m ≠ d := by
      rintro rfl
      rcases hclass with hfile | ⟨hlevel, -⟩
      · rw [(h.below _ source n hx.link).2.2.1] at hfile
        cases hfile
      · rw [hx.level] at hlevel
        cases hlevel
    refine ⟨FileTree.Tree.node_move_other hmn hmd, fun hdir a k hc => ?_⟩
    show (s.world.move d source target n).link a k = some m
    rw [hx.linked h, if_neg, if_neg, hc]
    · rintro ⟨rfl, rfl⟩
      exact hmn (Option.some.inj (hc.symm.trans hx.link))
    · rintro ⟨rfl, rfl⟩
      rcases hclass with hfile | ⟨-, hunmoved⟩
      · rw [hdir] at hfile
        cases hfile
      · obtain ⟨-, ⟨htemp, -⟩ | ⟨hmoved, -⟩⟩ := h.inShard a _ m hc hx.level
        · rw [hx.named, digest_not_temp] at htemp
          cases htemp
        · rw [hunmoved] at hmoved
          cases hmoved

end Move

/-! ### The root -/

theorem good_makeRoot (h : Shape host kept s.jobs s.world) :
    Good host kept i s (s.world.makeRoot i) := by
  unfold FileTree.Tree.makeRoot
  split
  · exact .refl h
  · rename_i hnone
    set t : Tree := { s.world.set s.world.size (FileTree.Tree.newDir 0 i) with
      root := some s.world.size, size := s.world.size + 1 } with ht
    have hnew : t.node s.world.size = FileTree.Tree.newDir 0 i := if_pos rfl
    have hold : ∀ m, m < s.world.size → t.node m = s.world.node m :=
      fun m hm => if_neg (Nat.ne_of_lt hm)
    have hlinks : ∀ m k c, t.link m k = some c → m < s.world.size ∧ c < s.world.size ∧
        s.world.link m k = some c := by
      intro m k c hlink
      by_cases hm : m = s.world.size
      · subst hm
        unfold FileTree.Tree.link at hlink
        rw [hnew] at hlink
        cases hlink
      · have hlink' : s.world.link m k = some c := by
          rw [← hlink]
          exact (FileTree.Tree.link_eq (congrArg Node.entries (if_neg hm))).symm
        obtain ⟨hlt, hc, -⟩ := h.below m k c hlink'
        exact ⟨hlt, hc, hlink'⟩
    have hkeep : ∀ m k, m < s.world.size → t.link m k = s.world.link m k :=
      fun m k hm => FileTree.Tree.link_eq (congrArg Node.entries (hold m hm))
    have hext : s.world.Extends t := by
      refine ⟨fun r hr => ?_, Nat.le_succ _, fun m hm => ?_⟩
      · rw [hnone] at hr
        cases hr
      · rw [hold m hm]
        exact .refl _
    have hlevel : ∀ m, m < s.world.size → (s.world.node m).level ≠ 0 := by
      intro m hm hzero
      have hroot := h.rootOnly m hm hzero
      rw [hnone] at hroot
      cases hroot
    refine .of ?_ hext ?_ ?_ ?_ ?_
    · constructor
      case root =>
        intro r hr
        obtain rfl := Option.some.inj hr
        rw [hnew]
        exact ⟨Nat.lt_succ_self _, rfl, rfl, rfl⟩
      case rootOnly =>
        intro m hm hzero
        rcases Nat.lt_succ_iff_lt_or_eq.mp hm with hlt | rfl
        · rw [hold m hlt] at hzero
          exact absurd hzero (hlevel m hlt)
        · rfl
      case below =>
        intro m k c hlink
        obtain ⟨hm, hc, hlink⟩ := hlinks m k c hlink
        obtain ⟨-, -, hkind, hbelow⟩ := h.below m k c hlink
        rw [hold m hm, hold c hc]
        exact ⟨Nat.lt_succ_of_lt hm, Nat.lt_succ_of_lt hc, hkind, hbelow⟩
      case inRoot =>
        intro m k c hlink hzero
        obtain ⟨hm, -, -⟩ := hlinks m k c hlink
        rw [hold m hm] at hzero
        exact absurd hzero (hlevel m hm)
      case inShard =>
        intro m k c hlink hone
        obtain ⟨hm, hc, hlink⟩ := hlinks m k c hlink
        rw [hold m hm] at hone
        rw [hold c hc]
        obtain ⟨hkind, htemp | ⟨-, key, payload, r, -, -, hr, -⟩⟩ := h.inShard m k c hlink hone
        · exact ⟨hkind, .inl htemp⟩
        · rw [hnone] at hr
          cases hr
      case inEntry =>
        intro m k c hlink htwo
        obtain ⟨hm, hc, hlink⟩ := hlinks m k c hlink
        rw [hold m hm] at htwo
        rw [hold m hm, hold c hc]
        exact h.inEntry m k c hlink htwo
      case unique =>
        intro m m' k k' c hlink hlink'
        exact h.unique m m' k k' c (hlinks m k c hlink).2.2 (hlinks m' k' c hlink').2.2
      case removed =>
        intro m hm hgone
        rcases Nat.lt_succ_iff_lt_or_eq.mp hm with hlt | rfl
        · rw [hold m hlt] at hgone ⊢
          exact ⟨(h.removed m hlt hgone).1, fun k => (hkeep m k hlt).trans ((h.removed m hlt hgone).2 k)⟩
        · rw [hnew] at hgone
          cases hgone
      case moved =>
        intro m hm hpublished
        rcases Nat.lt_succ_iff_lt_or_eq.mp hm with hlt | rfl
        · rw [hold m hlt] at hpublished ⊢
          obtain ⟨htwo, hkind, key, payload, hstores, hfilled⟩ := h.moved m hlt hpublished
          refine ⟨htwo, hkind, key, payload, hstores, ⟨fun f hf => ?_, fun f hf => ?_⟩⟩
          · obtain ⟨-, hf', hlink⟩ := hlinks _ _ _ hf
            exact (hfilled.payloadFile f hlink).mono hext hf'
          · obtain ⟨-, hf', hlink⟩ := hlinks _ _ _ hf
            exact (hfilled.metadataFile f hlink).mono hext hf'
        · rw [hnew] at hpublished
          cases hpublished
      case whole =>
        intro key m c hkey hlink hone
        obtain ⟨hm, hc, hlink⟩ := hlinks m _ c hlink
        rw [hold m hm] at hone
        rw [hkeep c _ hc, hkeep c _ hc]
        exact h.whole key m c hkey hlink hone
    · intro r k c hr
      rw [hnone] at hr
      cases hr
    · exact fun m k c _ _ hlink => (hlinks m k c hlink).2.2
    · intro key m c _ hm _ hlink
      exact ⟨(hkeep m _ hm).trans hlink, fun k => hkeep c k (h.below m _ c hlink).2.1⟩
    · intro j _ m hm _ _
      exact ⟨hold m hm, fun _ a k hlink => (hkeep a k (h.below a k m hlink).1).trans hlink⟩

/-! ## Legal calls -/

/-- A temporary entry of a process. -/
structure OwnEntry (i : Nat) (t : Tree) (d : Handle) : Prop where
  dir : d < t.size ∧ (t.node d).isDir = true
  level : (t.node d).level = 2
  owner : (t.node d).owner = i
  unmoved : (t.node d).moved = false

/-- A published entry under no protected key. -/
def Loose (kept : ArtifactCacheKey → Prop) (jobs : List Process) (t : Tree) (d : Handle) : Prop :=
  d < t.size ∧ (t.node d).moved = true ∧
    ∀ key payload, Stores jobs (t.node d).owner key payload → ¬ kept key

/-- A directory below the root that may hold entries. -/
def ShardDir (t : Tree) (d : Handle) : Prop :=
  d < t.size ∧ (t.node d).isDir = true ∧ (t.node d).level = 1

/-- A file that a process writes. -/
def OwnFile (i : Nat) (t : Tree) (f : Handle) : Prop :=
  f < t.size ∧ (t.node f).isDir = false ∧ (t.node f).owner = i

/-- The system calls that the cache makes, with the handles and names that it uses. -/
def Legal (host : Host) (kept : ArtifactCacheKey → Prop) (i : Nat) (jobs : List Process) (t : Tree) :
    Op → Prop
  | .mkdir d n => t.root = some d ∧ isShard n = true ∨ ShardDir t d ∧ isTemp n = true
  | .create d n => t.root = some d ∧ n = CACHE_MARKER ∨
      OwnEntry i t d ∧ (n = payloadName ∨ n = metadataName)
  | .append f byte => OwnFile i t f ∧ ∀ d n, t.link d n = some f → (t.node d).level = 0 →
      (t.node f).content ++ [byte] <+: CACHE_MARKER_BYTES
  | .close f => OwnFile i t f
  | .rename d source target => ∃ n key payload r, Stores jobs i key payload ∧
      target = host.digest key ∧ isTemp source = true ∧ ShardDir t d ∧ t.link d source = some n ∧
      OwnEntry i t n ∧ t.root = some r ∧ t.link r (host.shard key) = some d ∧
      (∃ f, t.link n payloadName = some f ∧ Settled t f payload.bytes) ∧
      ∃ f, t.link n metadataName = some f ∧ Settled t f (asciiBytes (host.metadata key payload))
  | .rmdir d n => t.root = some d ∧ isShard n = true ∨
      ShardDir t d ∧ isTemp n = true ∧ (∀ c, t.link d n = some c → OwnEntry i t c) ∨
      ShardDir t d ∧ ∃ key, n = host.digest key ∧ ¬ kept key
  | .unlink d _ => OwnEntry i t d ∨ Loose kept jobs t d
  | _ => True

variable {d : Handle} {n : Name}

theorem OwnEntry.makes (h : OwnEntry i t d) (hstays : (t.node d).removed = false)
    (hfree : t.link d n = none) (hname : n = payloadName ∨ n = metadataName) :
    Makes i t d n (FileTree.Tree.newFile ((t.node d).level + 1) i) where
  dir := ⟨h.dir.1, h.dir.2, hstays⟩
  free := hfree
  blank := ⟨rfl, rfl, rfl, rfl⟩
  place := ⟨rfl, rfl⟩
  inRoot hlevel := by
    rw [h.level] at hlevel
    cases hlevel
  inShard hlevel := by
    rw [h.level] at hlevel
    cases hlevel
  inEntry _ := ⟨rfl, h.owner, h.unmoved, hname⟩

theorem ShardDir.makes (h : ShardDir t d) (hstays : (t.node d).removed = false)
    (hfree : t.link d n = none) (hname : isTemp n = true) :
    Makes i t d n (FileTree.Tree.newDir ((t.node d).level + 1) i) where
  dir := ⟨h.1, h.2.1, hstays⟩
  free := hfree
  blank := ⟨rfl, rfl, rfl, rfl⟩
  place := ⟨rfl, rfl⟩
  inRoot hlevel := by
    rw [h.2.2] at hlevel
    cases hlevel
  inShard _ := ⟨rfl, hname⟩
  inEntry hlevel := by
    rw [h.2.2] at hlevel
    cases hlevel

theorem Shape.makes_root (h : Shape host kept s.jobs s.world) (hr : s.world.root = some d)
    {x : Node Name UInt8} (hfree : s.world.link d n = none)
    (hblank : x.entries = [] ∧ x.content = [] ∧ x.moved = false ∧ x.removed = false)
    (hplace : x.level = (s.world.node d).level + 1 ∧ x.owner = i)
    (hname : n = CACHE_MARKER ∧ x.isDir = false ∨ isShard n = true ∧ x.isDir = true) :
    Makes i s.world d n x := by
  obtain ⟨hlt, hkind, hzero, hstays⟩ := h.root d hr
  refine ⟨⟨hlt, hkind, hstays⟩, hfree, hblank, hplace, fun _ => hname, fun hone => ?_, fun htwo => ?_⟩
  · rw [hzero] at hone
    cases hone
  · rw [hzero] at htwo
    cases htwo

/-- Creation does nothing where the directory is removed or has the name. -/
theorem good_make (h : Shape host kept s.jobs s.world) {x : Node Name UInt8}
    (hx : (s.world.node d).removed = false → s.world.link d n = none → Makes i s.world d n x) :
    Good host kept i s (s.world.make d n x).2 := by
  unfold FileTree.Tree.make
  split
  · exact .refl h
  · rename_i hstays
    split
    · exact .refl h
    · rename_i hfree
      exact good_insert h (hx (Bool.eq_false_of_not_eq_true hstays) hfree)

theorem good_mkdir (h : Shape host kept s.jobs s.world)
    (hlegal : Legal host kept i s.jobs s.world (.mkdir d n)) :
    Good host kept i s
      (s.world.make d n (FileTree.Tree.newDir ((s.world.node d).level + 1) i)).2 := by
  refine good_make h fun hstays hfree => ?_
  rcases hlegal with ⟨hr, hname⟩ | ⟨hshard, hname⟩
  · exact h.makes_root hr hfree ⟨rfl, rfl, rfl, rfl⟩ ⟨rfl, rfl⟩ (.inr ⟨hname, rfl⟩)
  · exact hshard.makes hstays hfree hname

theorem good_create (h : Shape host kept s.jobs s.world)
    (hlegal : Legal host kept i s.jobs s.world (.create d n)) :
    Good host kept i s
      (s.world.make d n (FileTree.Tree.newFile ((s.world.node d).level + 1) i)).2 := by
  refine good_make h fun hstays hfree => ?_
  rcases hlegal with ⟨hr, hname⟩ | ⟨hown, hname⟩
  · exact h.makes_root hr hfree ⟨rfl, rfl, rfl, rfl⟩ ⟨rfl, rfl⟩ (.inl ⟨hname, rfl⟩)
  · exact hown.makes hstays hfree hname

theorem link_of_empty {t : Tree} {m : Handle} (h : (t.node m).entries.isEmpty = true) (k : Name) :
    t.link m k = none :=
  FileTree.eq_nil_iff.mp (List.isEmpty_iff.mp h) k

/-- A name that a process may remove belongs to what it may remove. -/
theorem Shape.removable (h : Shape host kept s.jobs s.world) (hunique : Distinct host kept)
    (hlegal : Legal host kept i s.jobs s.world (.rmdir d n)) {c : Handle}
    (hlink : s.world.link d n = some c) :
    (s.world.node d).level ≤ 1 ∧ ((s.world.node d).level = 1 →
      (∀ key, kept key → n ≠ host.digest key) ∧
        ((s.world.node c).moved = true ∨ (s.world.node c).owner = i)) := by
  rcases hlegal with ⟨hr, -⟩ | ⟨hshard, htemp, hown⟩ | ⟨hshard, key, hname, hkey⟩
  · refine ⟨by rw [(h.root d hr).2.2.1]; decide, fun hone => ?_⟩
    rw [(h.root d hr).2.2.1] at hone
    cases hone
  · refine ⟨Nat.le_of_eq hshard.2.2, fun _ => ⟨fun key _ hname => ?_, .inr (hown c hlink).owner⟩⟩
    rw [hname, digest_not_temp] at htemp
    cases htemp
  · refine ⟨Nat.le_of_eq hshard.2.2, fun hone => ⟨fun key' hkey' hname' => hkey ?_, .inl ?_⟩⟩
    · exact hunique key' hkey' key (hname.symm.trans hname') ▸ hkey'
    · obtain ⟨-, ⟨htemp, -⟩ | ⟨hmoved, -⟩⟩ := h.inShard d n c hlink hone
      · rw [hname, digest_not_temp] at htemp
        cases htemp
      · exact hmoved

theorem good_rmdir (h : Shape host kept s.jobs s.world) (hunique : Distinct host kept)
    (hlegal : Legal host kept i s.jobs s.world (.rmdir d n)) :
    Good host kept i s (s.world.rmdir d n).2 := by
  unfold FileTree.Tree.rmdir
  split
  · exact .refl h
  · rename_i c hlink
    split
    · exact .refl h
    · rename_i hkind
      split
      · rename_i hempty
        obtain ⟨hd, hc, hdir, hbelow⟩ := h.below d n c hlink
        obtain ⟨hlevel, hentry⟩ := h.removable hunique hlegal hlink
        have hne : d ≠ c := by
          rintro rfl
          omega
        have hcdir : (s.world.node c).isDir = true := by simpa using hkind
        have hremoved := good_remove (i := i) h hc hcdir (link_of_empty hempty) (by omega)
          (fun htwo => (hentry (by omega)).2)
        have hsame : (s.world.remove c).node d = s.world.node d := if_neg hne
        refine hremoved.trans (good_detach hremoved.shape hunique ⟨?_, ?_, ?_, ?_⟩)
        · show d < s.world.size ∧ ((s.world.remove c).node d).isDir = true
          rw [hsame]
          exact ⟨hd, hdir⟩
        · intro _ c' hlink'
          have hlink' : s.world.link d n = some c' := FileTree.Tree.link_remove.symm.trans hlink'
          obtain rfl := Option.some.inj (hlink.symm.trans hlink')
          show ((s.world.remove c).node c).removed = true
          exact congrArg Node.removed (if_pos rfl)
        · intro hone
          have hone : (s.world.node d).level = 1 := (congrArg Node.level hsame).symm.trans hone
          refine ⟨(hentry hone).1, fun c' hlink' => ?_⟩
          have hlink' : s.world.link d n = some c' := FileTree.Tree.link_remove.symm.trans hlink'
          obtain rfl := Option.some.inj (hlink.symm.trans hlink')
          have hself : (s.world.remove c).node c = { s.world.node c with removed := true } := if_pos rfl
          show ((s.world.remove c).node c).moved = true ∨ ((s.world.remove c).node c).owner = i
          rw [hself]
          exact (hentry hone).2
        · intro htwo
          have htwo : (s.world.node d).level = 2 := (congrArg Node.level hsame).symm.trans htwo
          omega
      · exact .refl h

theorem good_unlink (h : Shape host kept s.jobs s.world) (hunique : Distinct host kept)
    (hlegal : Legal host kept i s.jobs s.world (.unlink d n)) :
    Good host kept i s (s.world.unlink d n).2 := by
  have hlevel : d < s.world.size ∧ (s.world.node d).isDir = true ∧ (s.world.node d).level = 2 := by
    rcases hlegal with hown | ⟨hd, hmoved, -⟩
    · exact ⟨hown.dir.1, hown.dir.2, hown.level⟩
    · exact ⟨hd, (h.moved d hd hmoved).2.1, (h.moved d hd hmoved).1⟩
  unfold FileTree.Tree.unlink
  split
  · exact .refl h
  · split
    · exact .refl h
    · refine good_detach h hunique ⟨⟨hlevel.1, hlevel.2.1⟩, fun hzero => ?_, fun hone => ?_, fun _ => ?_⟩
      · omega
      · omega
      · rcases hlegal with hown | ⟨-, hmoved, hloose⟩
        · exact .inl ⟨hown.owner, hown.unmoved⟩
        · exact .inr ⟨hmoved, hloose⟩

/-- An empty entry that is replaced is removed first. -/
theorem good_replace (h : Shape host kept s.jobs s.world) {source target : Name} {n old : Handle}
    {key : ArtifactCacheKey} (payload : Payload)
    (hx : ∀ w : Tree, (∀ m k, w.link m k = s.world.link m k) → w.root = s.world.root →
      (∀ m, m ≠ old → w.node m = s.world.node m) → s.world.Extends w →
      (∀ k, s.world.link old k = none) → Publishes host i s.jobs w d source target n key payload)
    (hshard : ShardDir s.world d) (hname : target = host.digest key)
    (hold : s.world.link d target = some old) (hkind : (s.world.node old).isDir = true)
    (hempty : ∀ k, s.world.link old k = none) :
    Good host kept i s ((s.world.remove old).move d source target n) := by
  obtain ⟨-, holdlt, -, holdlevel⟩ := h.below d target old hold
  rw [hshard.2.2] at holdlevel
  have hmoved : (s.world.node old).moved = true := by
    obtain ⟨-, ⟨holdtemp, -⟩ | ⟨hmoved, -⟩⟩ := h.inShard d target old hold hshard.2.2
    · rw [hname, digest_not_temp] at holdtemp
      cases holdtemp
    · exact hmoved
  have hlevel : (s.world.node old).level ≠ 0 := by
    rw [holdlevel]
    decide
  have hremoved : Good host kept i s (s.world.remove old) :=
    good_remove h holdlt hkind hempty hlevel (fun _ => .inl hmoved)
  have hthere : Publishes host i s.jobs (s.world.remove old) d source target n key payload :=
    hx _ (fun _ _ => FileTree.Tree.link_remove) rfl (fun m hm => if_neg hm)
      (FileTree.Tree.extends_remove _ _) hempty
  exact hremoved.trans (good_move hremoved.shape hthere)

theorem good_rename (h : Shape host kept s.jobs s.world) {source target : Name}
    (hlegal : Legal host kept i s.jobs s.world (.rename d source target)) :
    Good host kept i s (s.world.renameDir d source target).2 := by
  obtain ⟨n, key, payload, r, hstores, hname, htemp, hshard, hlink, hown, hr, hroot,
    ⟨f, hf, hfile⟩, f', hf', hfile'⟩ := hlegal
  unfold FileTree.Tree.renameDir
  rw [hlink]
  dsimp only
  split
  · exact .refl h
  · split
    · rename_i hnone
      refine good_move h ⟨hstores, hname, htemp, hshard.2.2, hlink, ⟨hown.owner, hown.unmoved⟩,
        ⟨r, hr, hroot⟩, ⟨f, hf, hfile⟩, ⟨f', hf', hfile'⟩, fun old hold => ?_⟩
      rw [hnone] at hold
      cases hold
    · rename_i old hold
      split
      · exact .refl h
      · rename_i hkind
        split
        · rename_i hempty
          refine good_replace h payload ?_ hshard hname hold (by simpa using hkind) (link_of_empty hempty)
          intro w hlinks hwroot hnodes hext hnone
          have hne : ∀ m, (∃ k c, s.world.link m k = some c) → m ≠ old := by
            rintro m ⟨k, c, hc⟩ rfl
            rw [hnone k] at hc
            cases hc
          refine ⟨hstores, hname, htemp, ?_, (hlinks _ _).trans hlink, ?_,
            ⟨r, hwroot.trans hr, (hlinks _ _).trans hroot⟩,
            ⟨f, (hlinks _ _).trans hf, hfile.mono hext (h.below _ _ _ hf).2.1⟩,
            ⟨f', (hlinks _ _).trans hf', hfile'.mono hext (h.below _ _ _ hf').2.1⟩, ?_⟩
          · rw [hnodes d (hne d ⟨_, _, hlink⟩)]
            exact hshard.2.2
          · rw [hnodes n (hne n ⟨_, _, hf⟩)]
            exact ⟨hown.owner, hown.unmoved⟩
          · intro old' hold' k
            rw [hlinks] at hold' ⊢
            obtain rfl := Option.some.inj (hold.symm.trans hold')
            exact hnone k
        · exact .refl h

/-- A legal call keeps the shape and what the other processes rely on. -/
theorem legal_step (h : Shape host kept s.jobs s.world) (hunique : Distinct host kept) {op : Op}
    (hlegal : Legal host kept i s.jobs s.world op) {faults : Prop} {answer : op.Answer}
    (hexec : FileTree.Exec faults isToken i op s.world answer t) : Good host kept i s t := by
  cases hexec with
  | fault => exact .refl h
  | perform =>
    cases op with
    | makeRoot => exact good_makeRoot h
    | mkdir d n => exact good_mkdir h hlegal
    | create d n => exact good_create h hlegal
    | append f byte =>
      obtain ⟨⟨hf, hkind, howner⟩, hmarker⟩ := hlegal
      show Good host kept i s (s.world.append f byte).2
      unfold FileTree.Tree.append
      split
      · rename_i hopen
        refine good_file h hf hkind howner ⟨rfl, rfl, rfl, id, id, List.prefix_append _ _, ?_⟩
          rfl rfl rfl hmarker
        intro hclosed
        rw [hopen] at hclosed
        cases hclosed
      · exact .refl h
    | close f =>
      obtain ⟨hf, hkind, howner⟩ := hlegal
      refine good_file h hf hkind howner ⟨rfl, rfl, rfl, id, id, List.prefix_rfl, fun _ => ⟨rfl, rfl⟩⟩
        rfl rfl rfl fun d n hlink hzero => ?_
      rcases h.inRoot d n f hlink hzero with ⟨-, -, hcontent⟩ | ⟨-, hdir⟩
      · exact hcontent
      · rw [hkind] at hdir
        cases hdir
    | rename d source target => exact good_rename h hlegal
    | rmdir d n => exact good_rmdir h hunique hlegal
    | unlink d n => exact good_unlink h hunique hlegal
    | openRoot => exact .refl h
    | openDir d n => exact .refl h
    | list d => exact .refl h
    | stat d n => exact .refl h
    | openFile d n => exact .refl h
    | fstat f => exact .refl h
    | read f count => exact .refl h
    | flush d => exact .refl h
    | token => exact .refl h

end MDRack.Artifacts
