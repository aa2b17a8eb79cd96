import MDRack.Artifacts.Reading

/-!
# Writing an artifact cache

What the programs of the cache leave behind: the marker, shards, the temporary entry of a process
and its files.

* `Since`, `Wrote` — what a process relies on over its own writes.

Principal results: `spec_writeFile` — a file that was written is there, and whole;
`spec_removeTree` — a process removes nothing but its own and what is not protected.
-/

namespace MDRack.Artifacts

open FileTree (Errno Handle Node Stat)
open Octets (Bytes)

variable {host : Host} {kept : ArtifactCacheKey → Prop} {faults : Prop} {allowed : Process → Prop}
  {s t u : State} {i : Nat} {d c : Handle} {n : Name} {key : ArtifactCacheKey}

/-! ## Over the writes of a process -/

/-- Its temporary entry stays its own, under its name. -/
structure Since (host : Host) (kept : ArtifactCacheKey → Prop) (i : Nat) (s s' : State) : Prop where
  common : Common host kept s s'
  own : ∀ c, OwnEntry i s.world c → OwnEntry i s'.world c
  named : ∀ c, OwnEntry i s.world c → ∀ d n, s.world.link d n = some c → s'.world.link d n = some c

/-- Its files stay as well. -/
structure Wrote (host : Host) (kept : ArtifactCacheKey → Prop) (i : Nat) (s s' : State) : Prop
    extends Since host kept i s s' where
  files : ∀ c, OwnEntry i s.world c → ∀ n f, s.world.link c n = some f → s'.world.link c n = some f

theorem Since.trans (h : Since host kept i s t) (h' : Since host kept i t u) : Since host kept i s u where
  common := h.common.trans h'.common
  own c hc := h'.own c (h.own c hc)
  named c hc d n hlink := h'.named c (h.own c hc) d n (h.named c hc d n hlink)

theorem Wrote.trans (h : Wrote host kept i s t) (h' : Wrote host kept i t u) : Wrote host kept i s u where
  toSince := h.toSince.trans h'.toSince
  files c hc n f hlink := h'.files c (h.own c hc) n f (h.files c hc n f hlink)

/-- The other processes leave the entry of a process alone. -/
theorem Later.wrote (h : Later host kept i s t) : Wrote host kept i s t := by
  have hsame : ∀ c, OwnEntry i s.world c → t.world.node c = s.world.node c ∧
      ∀ d n, s.world.link d n = some c → t.world.link d n = some c := by
    intro c hc
    obtain ⟨hnode, hlinks⟩ := h.2 c hc.dir.1 hc.owner (.inr ⟨hc.level, hc.unmoved⟩)
    exact ⟨hnode, hlinks hc.dir.2⟩
  refine ⟨⟨h.1, fun c hc => ?_, fun c hc => (hsame c hc).2⟩, fun c hc n f hlink => ?_⟩
  · obtain ⟨hnode, -⟩ := hsame c hc
    refine ⟨⟨Nat.lt_of_lt_of_le hc.dir.1 h.1.ext.size, ?_⟩, ?_, ?_, ?_⟩
    · rw [hnode]
      exact hc.dir.2
    · rw [hnode]
      exact hc.level
    · rw [hnode]
      exact hc.owner
    · rw [hnode]
      exact hc.unmoved
  · rw [← hlink]
    exact FileTree.Tree.link_eq (congrArg Node.entries (hsame c hc).1)

theorem Later.since (h : Later host kept i s t) : Since host kept i s t := h.wrote.toSince

/-- A step that moves no entry keeps the own ones. -/
theorem OwnEntry.mono {w : Tree} (h : OwnEntry i s.world c) (hext : s.world.Extends w)
    (hmoved : (w.node c).moved = (s.world.node c).moved) : OwnEntry i w c where
  dir := ⟨Nat.lt_of_lt_of_le h.dir.1 hext.size, (hext.node c h.dir.1).isDir.trans h.dir.2⟩
  level := (hext.node c h.dir.1).level.trans h.level
  owner := (hext.node c h.dir.1).owner.trans h.owner
  unmoved := hmoved.trans h.unmoved

/-- A step that moves no entry and takes no name away. -/
theorem Good.wrote {w : Tree} (h : Good host kept i s w)
    (hmoved : ∀ m, m < s.world.size → (w.node m).moved = (s.world.node m).moved)
    (hlinks : ∀ m k f, s.world.link m k = some f → w.link m k = some f) :
    Wrote host kept i s (s.move w) where
  common := h.common
  own c hc := hc.mono h.common.ext (hmoved c hc.dir.1)
  named _ _ d n hlink := hlinks d n _ hlink
  files _ _ n f hlink := hlinks _ n f hlink

/-! ## Creation -/

/-- A state in which a new node is there, under its name. -/
structure Made (host : Host) (kept : ArtifactCacheKey → Prop) (allowed : Process → Prop) (i : Nat)
    (s : State) (d : Handle) (n : Name) (blank : Nat → Node Name UInt8) (c : Handle) (v u : State) :
    Prop where
  before : Wrote host kept i s v
  inv : Invariant host kept allowed v
  link : v.world.link d n = some c
  node : ∃ level, v.world.node c = blank level
  after : Later host kept i v u
  inv' : Invariant host kept allowed u

/-- Creation gives a new node, or does nothing. -/
theorem made_of_make {x : Nat → Node Name UInt8} {level : Nat} (ht : Later host kept i s t)
    (hinv : Invariant host kept allowed t) (hx : ∀ level, (x level).entries = [])
    (hd : d < t.world.size) (hgood : Good host kept i t (t.world.make d n (x level)).2)
    (hu : Later host kept i (t.move (t.world.make d n (x level)).2) u)
    (hinv' : Invariant host kept allowed u) :
    (∃ e, (t.world.make d n (x level)).1 = .error e) ∧ Later host kept i s u ∨
      ∃ v, (t.world.make d n (x level)).1 = .ok t.world.size ∧
        Made host kept allowed i s d n x t.world.size v u := by
  rcases t.world.make_cases d n (x level) with ⟨e, hmake⟩ | ⟨hmake, hfree⟩
  · rw [hmake] at hu ⊢
    exact .inl ⟨⟨e, rfl⟩, ht.trans hu⟩
  · rw [hmake] at hu hgood ⊢
    have hwrote : Wrote host kept i t (t.move (t.world.insert d n (x level))) := by
      refine hgood.wrote (fun m hm => ?_) fun m k f hlink =>
        hinv.shape.link_insert_old (hx level) hfree hlink
      exact (FileTree.Tree.node_insert (Nat.ne_of_lt hm)).moved
    refine .inr ⟨_, rfl, ht.wrote.trans hwrote, hinv.move hgood, ?_,
      ⟨level, FileTree.Tree.node_insert_new⟩, hu, hinv'⟩
    show (t.world.insert d n (x level)).link d n = some t.world.size
    rw [FileTree.Tree.link_insert (hx level), if_neg (Nat.ne_of_lt hd), if_pos ⟨rfl, rfl⟩]

section Creation

variable (hunique : Distinct host kept) (hd : d < s.world.size)
include hunique hd

theorem spec_create {R : Except Raised Handle → State → Prop}
    (hlegal : ∀ t, Later host kept i s t → Invariant host kept allowed t →
      Legal host kept i t.jobs t.world (.create d n))
    (hok : ∀ v u f, Made host kept allowed i s d n (fun level => FileTree.Tree.newFile level i) f v u →
      R (.ok f) u)
    (hbad : ∀ u e, Later host kept i s u → Invariant host kept allowed u → R (.error (.os e)) u) :
    Spec host kept faults allowed i (sys (.create d n)) R s := by
  refine spec_sys hunique hlegal fun t ht hinv answer w hexec hgood u hu hinv' => ?_
  cases hexec with
  | fault _ => exact hbad u _ (ht.trans hu) hinv'
  | @perform fresh hfresh answer h =>
    obtain rfl : answer = (t.world.make d n _).1 := h
    rcases made_of_make (x := fun level => FileTree.Tree.newFile level i) ht hinv (fun _ => rfl)
      (Nat.lt_of_lt_of_le hd ht.1.ext.size) hgood hu hinv' with ⟨⟨e, he⟩, hsu⟩ | ⟨v, hf, hmade⟩
    · rw [he]
      exact hbad u e hsu hinv'
    · rw [hf]
      exact hok v u _ hmade

theorem spec_mkdir {R : Except Raised Unit → State → Prop} (hn : Plain n)
    (hlegal : ∀ t, Later host kept i s t → Invariant host kept allowed t →
      Legal host kept i t.jobs t.world (.mkdir d n))
    (hok : ∀ v u c, Made host kept allowed i s d n (fun level => FileTree.Tree.newDir level i) c v u →
      R (.ok ()) u)
    (hbad : ∀ u e, Later host kept i s u → Invariant host kept allowed u → R (.error (.os e)) u) :
    Spec host kept faults allowed i (mkdir d n) R s := by
  unfold mkdir
  rw [plain_then hn]
  refine spec_sys hunique hlegal fun t ht hinv answer w hexec hgood u hu hinv' => ?_
  cases hexec with
  | fault _ => exact hbad u _ (ht.trans hu) hinv'
  | @perform fresh hfresh answer h =>
    obtain rfl : answer = (t.world.make d n _).1.map fun _ => () := h
    rcases made_of_make (x := fun level => FileTree.Tree.newDir level i) ht hinv (fun _ => rfl)
      (Nat.lt_of_lt_of_le hd ht.1.ext.size) hgood hu hinv' with ⟨⟨e, he⟩, hsu⟩ | ⟨v, hf, hmade⟩
    · rw [he]
      exact hbad u e hsu hinv'
    · rw [hf]
      exact hok v u _ hmade

end Creation

/-! ## Files -/

/-- A file that a process is writing, as far as it has written it. -/
structure Writing (i : Nat) (t : Tree) (f : Handle) (written : Bytes) : Prop where
  own : OwnFile i t f
  writable : (t.node f).writable = true
  content : (t.node f).content = written

theorem Writing.later {f : Handle} {written : Bytes} (h : Writing i s.world f written)
    (ht : Later host kept i s t) : Writing i t.world f written := by
  obtain ⟨⟨hlt, hkind, howner⟩, hwritable, hcontent⟩ := h
  obtain ⟨hnode, -⟩ := ht.2 f hlt howner (.inl hkind)
  constructor
  · refine ⟨Nat.lt_of_lt_of_le hlt ht.1.ext.size, ?_, ?_⟩
    · rw [hnode]
      exact hkind
    · rw [hnode]
      exact howner
  · rw [hnode]
    exact hwritable
  · rw [hnode]
    exact hcontent

theorem OwnFile.later {f : Handle} (h : OwnFile i s.world f) (ht : Common host kept s t) :
    OwnFile i t.world f :=
  ⟨Nat.lt_of_lt_of_le h.1 ht.ext.size, (ht.ext.node f h.1).isDir.trans h.2.1,
    (ht.ext.node f h.1).owner.trans h.2.2⟩

/-- A change of a file takes no name away. -/
theorem Good.wrote_file {f : Handle} {x : Node Name UInt8}
    (h : Good host kept i s (s.world.set f x)) (hentries : x.entries = (s.world.node f).entries)
    (hmoved : x.moved = (s.world.node f).moved) : Wrote host kept i s (s.move (s.world.set f x)) := by
  refine h.wrote (fun m _ => ?_) fun m k c hlink => ?_
  · show (if m = f then x else s.world.node m).moved = _
    split
    · rename_i hm
      rw [hm, hmoved]
    · rfl
  · rw [← hlink]
    refine FileTree.Tree.link_eq ?_
    show (if m = f then x else s.world.node m).entries = _
    split
    · rename_i hm
      rw [hm, hentries]
    · rfl

section Files

variable (hunique : Distinct host kept)
include hunique

theorem spec_append {f : Handle} {byte : UInt8} {written : Bytes}
    {R : Except Raised Unit → State → Prop} (hwriting : Writing i s.world f written)
    (hmarker : (s.world.node f).level = 1 → written ++ [byte] <+: CACHE_MARKER_BYTES)
    (hok : ∀ u, Wrote host kept i s u → Invariant host kept allowed u →
      Writing i u.world f (written ++ [byte]) → R (.ok ()) u)
    (hbad : ∀ u e, Later host kept i s u → Invariant host kept allowed u → R (.error (.os e)) u) :
    Spec host kept faults allowed i (sys (.append f byte)) R s := by
  refine spec_sys hunique (fun t ht hinv => ?_) fun t ht hinv answer w hexec hgood u hu hinv' => ?_
  · have hthere := hwriting.later ht
    refine ⟨hthere.own, fun d n hlink hzero => ?_⟩
    have hlevel := (hinv.shape.below d n f hlink).2.2.2
    rw [hzero, (ht.1.ext.node f hwriting.own.1).level] at hlevel
    rw [hthere.content]
    exact hmarker hlevel
  · cases hexec with
    | fault _ => exact hbad u _ (ht.trans hu) hinv'
    | @perform fresh hfresh answer h =>
      obtain rfl : answer = (t.world.append f byte).1 := h
      have hthere := hwriting.later ht
      have happend : t.world.append f byte = (.ok (), t.world.set f
          { t.world.node f with content := (t.world.node f).content ++ [byte] }) :=
        if_pos hthere.writable
      have hw : (t.world.perform i fresh (.append f byte)).2 = t.world.set f
          { t.world.node f with content := (t.world.node f).content ++ [byte] } :=
        congrArg Prod.snd happend
      rw [hw] at hgood hu
      rw [happend]
      have hwrote := hgood.wrote_file rfl rfl
      refine hok u ((ht.wrote.trans hwrote).trans hu.wrote) hinv' (Writing.later ?_ hu)
      have hnode : (t.world.set f { t.world.node f with
          content := (t.world.node f).content ++ [byte] }).node f =
          { t.world.node f with content := (t.world.node f).content ++ [byte] } := if_pos rfl
      refine ⟨⟨hthere.own.1, ?_, ?_⟩, ?_, ?_⟩
      · exact (congrArg Node.isDir hnode).trans hthere.own.2.1
      · exact (congrArg Node.owner hnode).trans hthere.own.2.2
      · exact (congrArg Node.writable hnode).trans hthere.writable
      · refine (congrArg Node.content hnode).trans ?_
        rw [hthere.content]

/-- The octets are written one by one. -/
theorem spec_writeAll {f : Handle} (rest : Bytes) {written : Bytes}
    (hinv : Invariant host kept allowed s) (hwriting : Writing i s.world f written)
    (hmarker : (s.world.node f).level = 1 → written ++ rest <+: CACHE_MARKER_BYTES) :
    Spec host kept faults allowed i (writeAll f rest) (fun r u => Wrote host kept i s u ∧
      OwnFile i u.world f ∧ (r = .ok () → Writing i u.world f (written ++ rest))) s := by
  induction rest generalizing s written with
  | nil =>
    refine spec_pure fun u hu _ => ⟨hu.wrote, hwriting.own.later hu.1, fun _ => ?_⟩
    rw [List.append_nil]
    exact hwriting.later hu
  | cons byte rest ih =>
    have hsplit : written ++ byte :: rest = (written ++ [byte]) ++ rest := by
      rw [List.append_assoc, List.singleton_append]
    unfold writeAll
    have happend : Spec host kept faults allowed i (sys (.append f byte)) (fun r u =>
        Wrote host kept i s u ∧ OwnFile i u.world f ∧
          (r = .ok () → Writing i u.world f (written ++ [byte]))) s := by
      refine spec_append hunique hwriting (fun hlevel => ?_) ?_ ?_
      · have hbound := hmarker hlevel
        rw [hsplit] at hbound
        exact (List.prefix_append _ _).trans hbound
      · exact fun u hu _ hnext => ⟨hu, hnext.own, fun _ => hnext⟩
      · exact fun u e hu _ => ⟨hu.wrote, hwriting.own.later hu.1, nofun⟩
    refine spec_bind happend ?_ ?_
    · rintro ⟨⟩ u ⟨hsu, hown, hnext⟩ hinvu -
      have hlevel := (hsu.common.ext.node f hwriting.own.1).level
      refine spec_mono (ih hinvu (hnext rfl) fun hone => ?_) ?_
      · rw [← hsplit]
        exact hmarker (hlevel.symm.trans hone)
      · rintro r v ⟨huv, hown', hlast⟩
        rw [hsplit]
        exact ⟨hsu.trans huv, hown', hlast⟩
    · rintro e u ⟨hsu, hown, -⟩ - -
      exact spec_throw fun v hv _ => ⟨hsu.trans hv.wrote, hown.later hv.1, nofun⟩

theorem spec_close {f : Handle} {R : Except Raised Unit → State → Prop} (hown : OwnFile i s.world f)
    (hR : ∀ t u r, Later host kept i s t → Invariant host kept allowed t → Wrote host kept i s u →
      Invariant host kept allowed u → (r = .ok () → Settled u.world f (t.world.node f).content) → R r u) :
    Spec host kept faults allowed i (sys (.close f)) R s := by
  refine spec_sys hunique (fun t ht _ => hown.later ht.1) ?_
  intro t ht hinv answer w hexec hgood u hu hinv'
  cases hexec with
  | fault _ => exact hR t u _ ht hinv (ht.trans hu).wrote hinv' nofun
  | @perform fresh hfresh answer h =>
    have hwrote : Wrote host kept i t (t.move (t.world.close f)) := hgood.wrote_file rfl rfl
    refine hR t u _ ht hinv ((ht.wrote.trans hwrote).trans hu.wrote) hinv' fun _ => ?_
    refine Settled.mono ?_ hu.1.ext (hown.later ht.1).1
    have hnode : (t.world.close f).node f = { t.world.node f with writable := false } := if_pos rfl
    constructor
    · exact congrArg (fun x : Node Name UInt8 => x.writable) hnode
    · show ((t.world.close f).node f).content = _
      rw [hnode]

/-- Where the cache makes files, and of which content. -/
def Place (i : Nat) (t : Tree) (d : Handle) (n : Name) (bytes : Bytes) : Prop :=
  t.root = some d ∧ n = CACHE_MARKER ∧ bytes = CACHE_MARKER_BYTES ∨
    OwnEntry i t d ∧ (n = payloadName ∨ n = metadataName)

/-- A file was made under the name, and holds its whole content. -/
def Written (host : Host) (kept : ArtifactCacheKey → Prop) (allowed : Process → Prop) (i : Nat)
    (s : State) (d : Handle) (n : Name) (bytes : Bytes) (u : State) : Prop :=
  ∃ f v, Wrote host kept i s v ∧ Invariant host kept allowed v ∧ v.world.link d n = some f ∧
    Wrote host kept i v u ∧ Settled u.world f bytes

/-- A file that was written is there, and whole. -/
theorem spec_writeFile {bytes : Bytes} (hinv : Invariant host kept allowed s)
    (hplace : Place i s.world d n bytes) :
    Spec host kept faults allowed i (writeFile d n bytes) (fun r u => Wrote host kept i s u ∧
      (r = .ok () → Written host kept allowed i s d n bytes u)) s := by
  have hn : Plain n := by
    rcases hplace with ⟨-, rfl, -⟩ | ⟨-, rfl | rfl⟩
    · exact marker_plain
    · exact payload_plain
    · exact metadata_plain
  have hd : d < s.world.size := by
    rcases hplace with ⟨hr, -⟩ | ⟨hown, -⟩
    · exact (hinv.shape.root d hr).1
    · exact hown.dir.1
  unfold writeFile
  rw [plain_then hn]
  have hcreate : Spec host kept faults allowed i (sys (.create d n)) (fun r u =>
      Wrote host kept i s u ∧ ∀ f, r = .ok f →
        ∃ v, Made host kept allowed i s d n (fun level => FileTree.Tree.newFile level i) f v u) s := by
    refine spec_create hunique hd (fun t ht _ => ?_) (fun v u f hmade => ?_) fun u e hu _ => ?_
    · rcases hplace with ⟨hr, hname, -⟩ | ⟨hown, hname⟩
      · exact .inl ⟨ht.1.ext.root d hr, hname⟩
      · exact .inr ⟨ht.since.own d hown, hname⟩
    · refine ⟨hmade.before.trans hmade.after.wrote, fun f' hf => ?_⟩
      obtain rfl := Except.ok.inj hf
      exact ⟨v, hmade⟩
    · exact ⟨hu.wrote, nofun⟩
  refine spec_bind hcreate ?_ ?_
  · rintro f u ⟨hsu, hmade⟩ hinvu -
    obtain ⟨v, hmade⟩ := hmade f rfl
    obtain ⟨level, hnode⟩ := hmade.node
    have hf := (hmade.inv.shape.below d n f hmade.link).2
    have hwriting : Writing i u.world f [] := by
      refine Writing.later ⟨⟨hf.1, ?_, ?_⟩, ?_, ?_⟩ hmade.after
      · rw [hnode]
        rfl
      · rw [hnode]
        rfl
      · rw [hnode]
        rfl
      · rw [hnode]
        rfl
    have hmarker : (u.world.node f).level = 1 → [] ++ bytes <+: CACHE_MARKER_BYTES := by
      intro hone
      rw [(hmade.after.1.ext.node f hf.1).level, hf.2.2] at hone
      have hlevel := (hmade.before.common.ext.node d hd).level
      rcases hplace with ⟨-, -, rfl⟩ | ⟨hown, -⟩
      · exact List.prefix_rfl
      · rw [hlevel, hown.level] at hone
        cases hone
    have hbody : Spec host kept faults allowed i (do writeAll f bytes; sys (.flush f)) (fun r w =>
        Wrote host kept i u w ∧ OwnFile i w.world f ∧ (r = .ok () → Writing i w.world f bytes)) u := by
      refine spec_bind (spec_writeAll hunique bytes hinvu hwriting hmarker) ?_ ?_
      · rintro ⟨⟩ w ⟨huw, hown, hwritten⟩ - -
        refine spec_flush hunique fun x r hx _ => ⟨huw.trans hx.wrote, hown.later hx.1, fun _ => ?_⟩
        exact (hwritten rfl).later hx
      · rintro e w ⟨huw, hown, -⟩ - -
        exact spec_throw fun x hx _ => ⟨huw.trans hx.wrote, hown.later hx.1, nofun⟩
    refine spec_attempt hbody fun r w ⟨huw, hown, hwritten⟩ hinvw _ => ?_
    have hclose : Spec host kept faults allowed i (sys (.close f)) (fun r' x => Wrote host kept i w x ∧
        (r' = .ok () → r = .ok () → Settled x.world f bytes)) w := by
      refine spec_close hunique hown fun t x r' ht _ hx _ hsettled => ⟨hx, fun hr' hr => ?_⟩
      rw [← ((hwritten hr).later ht).content]
      exact hsettled hr'
    refine spec_bind hclose ?_ ?_
    · rintro ⟨⟩ x ⟨hwx, hsettled⟩ - -
      have hsx := hsu.trans (huw.trans hwx)
      cases r with
      | ok _ =>
        refine spec_pure fun y hy _ => ⟨hsx.trans hy.wrote, fun _ => ⟨f, v, hmade.before, hmade.inv,
          hmade.link, hmade.after.wrote.trans ((huw.trans hwx).trans hy.wrote), ?_⟩⟩
        have hfx := Nat.lt_of_lt_of_le hown.1 hwx.common.ext.size
        exact (hsettled rfl rfl).mono hy.1.ext hfx
      | error e => exact spec_throw fun y hy _ => ⟨hsx.trans hy.wrote, nofun⟩
    · rintro e x ⟨hwx, -⟩ - -
      exact spec_throw fun y hy _ => ⟨(hsu.trans (huw.trans hwx)).trans hy.wrote, nofun⟩
  · rintro e u ⟨hsu, -⟩ - -
    exact spec_throw fun v hv _ => ⟨hsu.trans hv.wrote, nofun⟩

end Files

/-! ## The root and its shards -/

/-- A root whose marker was written is marked. -/
theorem Written.marked (hroot : s.world.root = some d) (hinv : Invariant host kept allowed u)
    (h : Written host kept allowed i s d CACHE_MARKER CACHE_MARKER_BYTES u) : Marked u.world := by
  obtain ⟨f, v, hsv, hinvv, hlink, hvu, hsettled⟩ := h
  have hrootv := hsv.common.ext.root d hroot
  have hf := (hinvv.shape.below d _ f hlink).2.1
  rcases hvu.common.rootLinks d _ f hrootv hf hlink with hlink' | hremoved
  · exact ⟨d, f, hvu.common.ext.root d hrootv, hlink', hsettled.2⟩
  · -- A file is never removed as a directory is.
    have hdir := (hinv.shape.removed f (Nat.lt_of_lt_of_le hf hvu.common.ext.size) hremoved).1
    rw [(hvu.common.ext.node f hf).isDir] at hdir
    rcases hinvv.shape.inRoot d _ f hlink (hinvv.shape.root d hrootv).2.2.1 with ⟨-, hfile, -⟩ | ⟨hshard, -⟩
    · rw [hfile] at hdir
      cases hdir
    · exact absurd hshard (by decide)

/-- A shard of the root, even if it has been removed since. -/
structure ShardAt (s : State) (root : Handle) (n : Name) (d : Handle) : Prop where
  top : s.world.root = some root
  dir : ShardDir s.world d
  linked : s.world.link root n = some d ∨ (s.world.node d).removed = true

theorem ShardAt.later {root : Handle} (h : ShardAt s root n d) (ht : Common host kept s t) :
    ShardAt t root n d where
  top := ht.ext.root root h.top
  dir := h.dir.later ht
  linked := by
    rcases h.linked with hlink | hremoved
    · exact ht.rootLinks root n d h.top h.dir.1 hlink
    · exact .inr ((ht.ext.node d h.dir.1).removed hremoved)

/-- A shard with an entry has not been removed. -/
theorem ShardAt.link {root : Handle} {m : Name} (h : ShardAt s root n d)
    (hinv : Invariant host kept allowed s) (hlink : s.world.link d m = some c) :
    s.world.link root n = some d := by
  rcases h.linked with hlinked | hremoved
  · exact hlinked
  · rw [(hinv.shape.removed d h.dir.1 hremoved).2 m] at hlink
    cases hlink

/-- What a name of a shard leads to in the root. -/
theorem shard_of_link {root : Handle} (hinv : Invariant host kept allowed s)
    (hroot : s.world.root = some root) (hlink : s.world.link root n = some d)
    (hn : isShard n = true) : ShardAt s root n d := by
  obtain ⟨-, hd, -, hlevel⟩ := hinv.shape.below root n d hlink
  have hzero := (hinv.shape.root root hroot).2.2.1
  refine ⟨hroot, ⟨hd, ?_, by rw [hlevel, hzero]⟩, .inl hlink⟩
  rcases hinv.shape.inRoot root n d hlink hzero with ⟨rfl, -⟩ | ⟨-, hdir⟩
  · exact absurd hn (by decide)
  · exact hdir

section Root

variable (hunique : Distinct host kept) {root : Handle}
include hunique

theorem spec_makeRoot :
    Spec host kept faults allowed i (openRoot true)
      (fun r u => ∀ root, r = .ok (some root) → u.world.root = some root) s := by
  have hmake : Spec host kept faults allowed i (sys .makeRoot) (fun _ _ => True) s :=
    spec_sys hunique (fun _ _ _ => trivial) fun _ _ _ _ _ _ _ _ _ _ => trivial
  refine spec_bind hmake ?_ ?_
  · rintro ⟨⟩ u - - -
    refine spec_mono (spec_openRoot (s := u) hunique) fun r v hr root hroot => ?_
    rw [hroot] at hr
    exact hr.2
  · exact fun e u _ _ _ => spec_throw fun v _ _ => nofun

theorem spec_ensureOwnedRoot (hinv : Invariant host kept allowed s)
    (hroot : s.world.root = some root) :
    Spec host kept faults allowed i (ensureOwnedRoot root)
      (fun r u => r = .ok () → Marked u.world) s := by
  unfold ensureOwnedRoot
  refine spec_bind (spec_validateRoot hunique hinv hroot false) ?_ ?_
  · rintro valid u ⟨hsu, hmarked, -⟩ hinvu -
    split
    · rename_i hvalid
      rw [hvalid] at hmarked
      exact spec_pure fun v hv hinvv _ => (hmarked rfl).later hinvu.shape hv.1 hinvv.shape
    · have hrootu := hsu.1.ext.root root hroot
      refine spec_bind (spec_writeFile hunique hinvu (.inl ⟨hrootu, rfl, rfl⟩)) ?_ ?_
      · rintro ⟨⟩ v ⟨-, hwritten⟩ hinvv -
        refine spec_flush hunique fun w r hw hinvw _ => ?_
        exact ((hwritten rfl).marked hrootu hinvv).later hinvv.shape hw.1 hinvw.shape
      · exact fun e v _ _ _ => spec_throw fun w _ _ => nofun
  · exact fun e u _ _ _ => spec_throw fun v _ _ => nofun

/-- The directory of a shard, whoever makes it. -/
theorem spec_openShard (hinv : Invariant host kept allowed s) (hroot : s.world.root = some root)
    (hn : isShard n = true) (hplain : Plain n) :
    Spec host kept faults allowed i (openDirectory root n "shard") (fun r u => Later host kept i s u ∧
      (∀ d, r = .ok d → ShardAt u root n d) ∧
      ((∃ d m c, s.world.link root n = some d ∧ ∀ t, Later host kept i s t → t.world.link d m = some c) →
        (∃ d, r = .ok d ∧ s.world.link root n = some d) ∨ faults)) s := by
  refine spec_mono (spec_openDirectory hunique hplain "shard") fun r u hr => ?_
  cases hr with
  | @ok t _ d h hlink hdir =>
    have hroott := h.left.1.ext.root root hroot
    refine ⟨h.later, fun d' hd' => ?_, fun hheld => .inl ⟨d, rfl, ?_⟩⟩
    · obtain rfl := Except.ok.inj hd'
      exact (shard_of_link h.inv hroott hlink hn).later h.right.1
    · obtain ⟨d', m, c, hlink', hc⟩ := hheld
      have hlinkt := ((shard_of_link hinv hroot hlink' hn).later h.left.1).link h.inv (hc t h.left)
      obtain rfl := Option.some.inj (hlink.symm.trans hlinkt)
      exact hlink'
  | @bad t _ e h hnone =>
    refine ⟨h.later, nofun, fun hheld => .inr ?_⟩
    rcases hnone with hfault | hnone
    · exact hfault
    · obtain ⟨d', m, c, hlink', hc⟩ := hheld
      have hshard := (shard_of_link hinv hroot hlink' hn).later h.left.1
      have hdir := hnone d' (hshard.link h.inv (hc t h.left))
      rw [hshard.dir.2.1] at hdir
      cases hdir

theorem spec_openOrCreateShard (hinv : Invariant host kept allowed s)
    (hroot : s.world.root = some root) (hn : isShard n = true) (hplain : Plain n) :
    Spec host kept faults allowed i (openOrCreateShard root n)
      (fun r u => ∀ d, r = .ok d → ShardAt u root n d) s := by
  have hd := (hinv.shape.root root hroot).1
  have hmake : Spec host kept faults allowed i (mkdir root n) (fun _ _ => True) s :=
    spec_mkdir hunique hd hplain (fun t ht _ => .inl ⟨ht.1.ext.root root hroot, hn⟩)
      (fun _ _ _ _ => trivial) fun _ _ _ _ => trivial
  have hopen : ∀ u, Invariant host kept allowed u → Common host kept s u →
      Spec host kept faults allowed i (openDirectory root n "shard")
        (fun r u => ∀ d, r = .ok d → ShardAt u root n d) u := fun u hinvu hsu =>
    spec_mono (spec_openShard hunique hinvu (hsu.ext.root root hroot) hn hplain) fun _ _ hr => hr.2.1
  unfold openOrCreateShard
  refine spec_attempt hmake fun r u _ hinvu hsu => ?_
  have hthen : ∀ x : Code Unit, Spec host kept faults allowed i x (fun _ _ => True) u →
      Spec host kept faults allowed i (do x; openDirectory root n "shard")
        (fun r u => ∀ d, r = .ok d → ShardAt u root n d) u := by
    intro x hx
    refine spec_bind hx ?_ ?_
    · exact fun _ v _ hinvv huv => hopen v hinvv (hsu.trans huv)
    · exact fun e v _ _ _ => spec_throw fun w _ _ => nofun
  split
  · exact hopen u hinvu hsu
  · refine hthen _ ?_
    cases r with
    | ok a => exact spec_pure fun _ _ _ => trivial
    | error e => exact spec_throw fun _ _ _ => trivial

end Root

/-! ## The temporary entry -/

/-- The temporary entry of a process, in a shard. -/
structure Temp (i : Nat) (s : State) (d : Handle) (n : Name) (c : Handle) : Prop where
  shard : ShardDir s.world d
  own : OwnEntry i s.world c
  link : s.world.link d n = some c

theorem Temp.since (h : Temp i s d n c) (ht : Since host kept i s t) : Temp i t d n c where
  shard := h.shard.later ht.common
  own := ht.own c h.own
  link := ht.named c h.own d n h.link

/-- Both files of an entry, whole. -/
def Complete (host : Host) (t : Tree) (c : Handle) (key : ArtifactCacheKey) (payload : Payload) : Prop :=
  (∃ f, t.link c payloadName = some f ∧ Settled t f payload.bytes) ∧
    ∃ f, t.link c metadataName = some f ∧ Settled t f (asciiBytes (host.metadata key payload))

theorem file_wrote {f : Handle} {bytes : Bytes} (hinv : Invariant host kept allowed s)
    (hown : OwnEntry i s.world c) (hlink : s.world.link c n = some f) (hfile : Settled s.world f bytes)
    (ht : Wrote host kept i s t) : t.world.link c n = some f ∧ Settled t.world f bytes :=
  ⟨ht.files c hown n f hlink, hfile.mono ht.common.ext (hinv.shape.below c n f hlink).2.1⟩

theorem Written.file {bytes : Bytes} (h : Written host kept allowed i s c n bytes u)
    (hown : OwnEntry i s.world c) : ∃ f, u.world.link c n = some f ∧ Settled u.world f bytes := by
  obtain ⟨f, v, hsv, -, hlink, hvu, hsettled⟩ := h
  exact ⟨f, hvu.files c (hsv.own c hown) n f hlink, hsettled⟩

theorem Complete.wrote {payload : Payload} (h : Complete host s.world c key payload)
    (hinv : Invariant host kept allowed s) (hown : OwnEntry i s.world c)
    (ht : Wrote host kept i s t) : Complete host t.world c key payload := by
  obtain ⟨⟨f, hf, hfile⟩, m, hm, hfile'⟩ := h
  exact ⟨⟨f, file_wrote hinv hown hf hfile ht⟩, m, file_wrote hinv hown hm hfile' ht⟩

section Store

variable (hunique : Distinct host kept) {payload : Payload} {root : Handle}
include hunique

theorem spec_mkTemp (hshard : ShardDir s.world d) (hn : isTemp n = true) (hplain : Plain n) :
    Spec host kept faults allowed i (mkdir d n)
      (fun r u => r = .ok () → ∃ c, Temp i u d n c) s := by
  refine spec_mkdir hunique hshard.1 hplain (fun t ht _ => .inr ⟨hshard.later ht.1, hn⟩) ?_ ?_
  · intro v u c hmade _
    obtain ⟨level, hnode⟩ := hmade.node
    obtain ⟨-, hc, -, hlevel⟩ := hmade.inv.shape.below d n c hmade.link
    have hshardv := hshard.later hmade.before.common
    have hown : OwnEntry i v.world c := by
      refine ⟨⟨hc, ?_⟩, by rw [hlevel, hshardv.2.2], ?_, ?_⟩
      · rw [hnode]
        rfl
      · rw [hnode]
        rfl
      · rw [hnode]
        rfl
    exact ⟨c, Temp.since ⟨hshardv, hown, hmade.link⟩ hmade.after.since⟩
  · exact fun _ _ _ _ => nofun

/-- The temporary entry is filled. -/
theorem spec_fillEntry (htemp : Temp i s d n c) (hplain : Plain n) :
    Spec host kept faults allowed i (ArtifactCache.fillEntry host d n key payload) (fun r u =>
      Since host kept i s u ∧ (r = .ok () → Complete host u.world c key payload)) s := by
  unfold ArtifactCache.fillEntry
  refine spec_bind (spec_openDirectory hunique hplain "temporary entry") ?_ ?_
  · intro entry u hr hinvu _
    cases hr with
    | @ok t _ _ h hlink _ =>
      obtain rfl := Option.some.inj ((htemp.since h.left.since).link.symm.trans hlink)
      have hown := (htemp.since h.later.since).own
      refine spec_bind (spec_writeFile hunique hinvu (.inr ⟨hown, .inl rfl⟩)) ?_ ?_
      · rintro ⟨⟩ v ⟨huv, hpayload⟩ hinvv -
        obtain ⟨f, hf, hfile⟩ := (hpayload rfl).file hown
        have hownv := huv.own c hown
        refine spec_bind (spec_writeFile hunique hinvv (.inr ⟨hownv, .inr rfl⟩)) ?_ ?_
        · rintro ⟨⟩ w ⟨hvw, hmetadata⟩ hinvw -
          have hcomplete : Complete host w.world c key payload :=
            ⟨⟨f, file_wrote hinvv hownv hf hfile hvw⟩, (hmetadata rfl).file hownv⟩
          have hsw := (h.later.since.trans huv.toSince).trans hvw.toSince
          refine spec_flush hunique fun x r hx _ => ⟨hsw.trans hx.since, fun _ => ?_⟩
          exact hcomplete.wrote hinvw (hvw.own c hownv) hx.wrote
        · rintro e w ⟨hvw, -⟩ - -
          have hsw := (h.later.since.trans huv.toSince).trans hvw.toSince
          exact spec_throw fun x hx _ => ⟨hsw.trans hx.since, nofun⟩
      · rintro e v ⟨huv, -⟩ - -
        exact spec_throw fun w hw _ => ⟨(h.later.since.trans huv.toSince).trans hw.since, nofun⟩
  · intro e u hr _ _
    cases hr with
    | bad h _ => exact spec_throw fun v hv _ => ⟨h.later.since.trans hv.since, nofun⟩

/-- The entry is published, or the temporary one is left as it is. -/
theorem spec_publish (htemp : Temp i s d n c) (hname : isTemp n = true) (hplain : Plain n)
    (hstores : Stores s.jobs i key payload) (hshard : ShardAt s root (host.shard key) d)
    (hcomplete : Complete host s.world c key payload) (hinv : Invariant host kept allowed s) :
    Spec host kept faults allowed i (publish d n (host.digest key)) (fun r u =>
      (∀ e, r = .error e → Since host kept i s u) ∧
      (r = .ok () → kept key → Published host u key i payload)) s := by
  unfold publish
  rw [plain_then hplain, plain_then (digest_plain key)]
  refine spec_sys hunique (fun t ht hinvt => ?_) fun t ht hinvt answer w hexec hgood u hu hinvu => ?_
  · have hthere := htemp.since ht.since
    have hlinked := (hshard.later ht.1).link hinvt hthere.link
    exact ⟨c, key, payload, root, hstores.mono ht.1.jobs, rfl, hname, hthere.shard, hthere.link,
      hthere.own, ht.1.ext.root root hshard.top, hlinked, hcomplete.wrote hinv htemp.own ht.wrote⟩
  · have hthere := htemp.since ht.since
    cases hexec with
    | fault _ => exact ⟨fun _ _ => (ht.trans hu).since, nofun⟩
    | @perform fresh hfresh answer h =>
      obtain rfl : answer = (t.world.renameDir d n (host.digest key)).1 := h
      have hw : (t.world.perform i fresh (.rename d n (host.digest key))).2 =
        (t.world.renameDir d n (host.digest key)).2 := rfl
      rw [hw] at hgood hu
      rcases t.world.renameDir_cases d n (host.digest key) with ⟨e, hfailed⟩ | ⟨c', w, hc', hdone, hmoved⟩
      · rw [hfailed] at hu ⊢
        exact ⟨fun _ _ => (ht.trans hu).since, nofun⟩
      · obtain rfl := Option.some.inj (hthere.link.symm.trans hc')
        rw [hdone] at hgood hu ⊢
        refine ⟨nofun, fun _ hkey => ?_⟩
        have hne : c ≠ d := by
          rintro rfl
          have hlevel := hthere.shard.2.2
          rw [hthere.own.level] at hlevel
          cases hlevel
        have hentry : w.link d (host.digest key) = some c := by
          rcases hmoved with rfl | ⟨old, rfl⟩
          · rw [FileTree.Tree.link_move hne, if_pos ⟨rfl, rfl⟩]
          · rw [FileTree.Tree.link_move hne, if_pos ⟨rfl, rfl⟩]
        have hshardw : ShardAt (t.move w) root (host.shard key) d :=
          (hshard.later ht.1).later hgood.common
        have hinvw := hinvt.move hgood
        have howner : (w.node c).owner = i :=
          (hgood.common.ext.node c hthere.own.dir.1).owner.trans hthere.own.owner
        have hpublished : Published host (t.move w) key i payload :=
          ⟨hstores.mono ht.1.jobs, root, d, c, hshardw.top, hshardw.link hinvw hentry, hentry, howner⟩
        exact hpublished.later hkey hinvw.shape hu.1 hinvu.shape

end Store

/-! ## Removal -/

/-- An entry that a process may empty: its own, or one under no protected key. -/
def Emptied (kept : ArtifactCacheKey → Prop) (i : Nat) (s : State) (c : Handle) : Prop :=
  OwnEntry i s.world c ∨ ∃ key payload, Entry s c key payload ∧ ¬ kept key

theorem Entry.common {key : ArtifactCacheKey} {payload : Payload} (h : Entry s c key payload)
    (ht : Common host kept s t) : Entry t c key payload where
  lt := Nat.lt_of_lt_of_le h.lt ht.ext.size
  moved := (ht.ext.node c h.lt).moved h.moved
  stores := by
    rw [(ht.ext.node c h.lt).owner]
    exact h.stores.mono ht.jobs

theorem Emptied.since (h : Emptied kept i s c) (ht : Since host kept i s t) : Emptied kept i t c := by
  rcases h with hown | ⟨key, payload, hentry, hkey⟩
  · exact .inl (ht.own c hown)
  · exact .inr ⟨key, payload, hentry.common ht.common, hkey⟩

theorem Emptied.level (h : Emptied kept i s c) (hinv : Invariant host kept allowed s) :
    (s.world.node c).level = 2 := by
  rcases h with hown | ⟨key, payload, hentry, -⟩
  · exact hown.level
  · exact (hinv.shape.moved c hentry.lt hentry.moved).1

/-- What an entry holds are files, under the names of the cache. -/
theorem Emptied.file {f : Handle} (h : Emptied kept i s c) (hinv : Invariant host kept allowed s)
    (hlink : s.world.link c n = some f) :
    (s.world.node f).isDir = false ∧ (n = payloadName ∨ n = metadataName) := by
  obtain ⟨hkind, -, hname⟩ := hinv.shape.inEntry c n f hlink (h.level hinv)
  exact ⟨hkind, hname⟩

theorem Emptied.legal (h : Emptied kept i s c) : Legal host kept i s.jobs s.world (.unlink c n) := by
  rcases h with hown | ⟨key, payload, hentry, hkey⟩
  · exact .inl hown
  · refine .inr ⟨hentry.lt, hentry.moved, fun key' payload' hstores => ?_⟩
    rw [(hentry.stores.same hstores).1]
    exact hkey

section Removal

variable (hunique : Distinct host kept)
include hunique

theorem spec_unlink (hempty : Emptied kept i s c) :
    Spec host kept faults allowed i (sys (.unlink c n)) (fun _ u => Since host kept i s u) s := by
  refine spec_sys hunique (fun t ht _ => (hempty.since ht.since).legal) ?_
  intro t ht hinvt answer w hexec hgood u hu _
  suffices hstep : Since host kept i t (t.move w) from (ht.since.trans hstep).trans hu.since
  cases hexec with
  | fault _ => exact (Later.refl t).since
  | @perform fresh hfresh answer h =>
    have hw : (t.world.perform i fresh (.unlink c n)).2 = t.world ∨
        (t.world.perform i fresh (.unlink c n)).2 = t.world.detach c n := by
      show (t.world.unlink c n).2 = _ ∨ (t.world.unlink c n).2 = _
      unfold FileTree.Tree.unlink
      split
      · exact .inl rfl
      · split
        · exact .inl rfl
        · exact .inr rfl
    rcases hw with hw | hw
    · rw [hw]
      exact (Later.refl t).since
    · rw [hw] at hgood ⊢
      refine ⟨hgood.common, fun e he => he.mono hgood.common.ext FileTree.Tree.node_detach.moved, ?_⟩
      intro e he d m hlink
      show (t.world.detach c n).link d m = some e
      rw [FileTree.Tree.link_detach, if_neg, hlink]
      rintro ⟨rfl, rfl⟩
      -- An entry holds no entries.
      have hfile := ((hempty.since ht.since).file hinvt hlink).1
      rw [he.dir.2] at hfile
      cases hfile

omit hunique in
theorem spec_forNames {step : Name → Code Unit} {names : List Name}
    (hstep : ∀ n ∈ names, ∀ t, Since host kept i s t → Invariant host kept allowed t →
      Spec host kept faults allowed i (step n) (fun _ u => Since host kept i t u) t) :
    ∀ t, Since host kept i s t → Invariant host kept allowed t →
      Spec host kept faults allowed i (forNames step names) (fun _ u => Since host kept i t u) t := by
  induction names with
  | nil => exact fun t _ _ => spec_pure fun u hu _ => hu.since
  | cons name rest ih =>
    intro t ht hinv
    unfold forNames
    refine spec_bind (hstep name List.mem_cons_self t ht hinv) ?_ ?_
    · intro _ u htu hinvu _
      refine spec_mono (ih (fun n hn => hstep n (List.mem_cons_of_mem _ hn)) u (ht.trans htu) hinvu) ?_
      exact fun r v huv => htu.trans huv
    · exact fun e u htu _ _ => spec_throw fun v hv _ => htu.trans hv.since

/-- `remove_tree` of a file. -/
theorem spec_removeFile (depth : Nat) (hempty : Emptied kept i s c)
    (hname : n = payloadName ∨ n = metadataName) :
    Spec host kept faults allowed i (removeTree depth c n) (fun _ u => Since host kept i s u) s := by
  have hplain : Plain n := by
    rcases hname with rfl | rfl
    · exact payload_plain
    · exact metadata_plain
  cases depth with
  | zero => exact spec_throw fun u hu _ => hu.since
  | succ depth =>
    unfold removeTree
    have hinfo : Spec host kept faults allowed i (fileInfo c n) (fun r u => Later host kept i s u ∧
        ∀ info, r = .ok info → info.isDir = false) s := by
      refine spec_fileInfo hunique hplain (fun t u f h hlink => ⟨h.later, fun info hr => ?_⟩) ?_
      · obtain rfl := Except.ok.inj hr
        exact ((hempty.since h.left.since).file h.inv hlink).1
      · exact fun t u e h _ => ⟨h.later, nofun⟩
    refine spec_bind hinfo ?_ ?_
    · rintro info u ⟨hsu, hkind⟩ - -
      rw [hkind info rfl, Bool.not_false, if_pos rfl]
      refine spec_mono (spec_unlink hunique (hempty.since hsu.since)) fun r v huv => ?_
      exact hsu.since.trans huv
    · rintro e u ⟨hsu, -⟩ - -
      exact spec_throw fun v hv _ => hsu.since.trans hv.since

/-- What a process may remove from a shard: its temporary entry, or an entry under no protected
key. -/
inductive Removable (host : Host) (kept : ArtifactCacheKey → Prop) (i : Nat) (s : State) (d : Handle)
    (n : Name) : Prop
  | temp (c : Handle) (h : Temp i s d n c) (hname : isTemp n = true) (hplain : Plain n)
  | digest (h : ShardDir s.world d) (key : ArtifactCacheKey) (hname : n = host.digest key)
      (hkey : ¬ kept key)

omit hunique in
theorem Removable.since (h : Removable host kept i s d n) (ht : Since host kept i s t) :
    Removable host kept i t d n := by
  cases h with
  | temp c h hname hplain => exact .temp c (h.since ht) hname hplain
  | digest h key hname hkey => exact .digest (h.later ht.common) key hname hkey

omit hunique in
theorem Removable.plain (h : Removable host kept i s d n) : Plain n := by
  cases h with
  | temp c h hname hplain => exact hplain
  | digest h key hname hkey =>
    rw [hname]
    exact digest_plain key

omit hunique in
theorem Removable.legal (h : Removable host kept i s d n) :
    Legal host kept i s.jobs s.world (.rmdir d n) := by
  cases h with
  | temp c h hname hplain =>
    refine .inr (.inl ⟨h.shard, hname, fun c' hc' => ?_⟩)
    obtain rfl := Option.some.inj (h.link.symm.trans hc')
    exact h.own
  | digest h key hname hkey => exact .inr (.inr ⟨h, key, hname, hkey⟩)

/-- The entry under the name may be emptied. -/
theorem Removable.entry (h : Removable host kept i s d n) (hinv : Invariant host kept allowed s)
    (hlink : s.world.link d n = some c) : (s.world.node c).isDir = true ∧ Emptied kept i s c := by
  cases h with
  | temp c' h hname hplain =>
    obtain rfl := Option.some.inj (h.link.symm.trans hlink)
    exact ⟨h.own.dir.2, .inl h.own⟩
  | digest h key hname hkey =>
    subst hname
    obtain ⟨hdir, key', payload, hentry, hdigest⟩ := entry_of_link hinv h hlink
    refine ⟨hdir, .inr ⟨key', payload, hentry, fun hkey' => hkey ?_⟩⟩
    rw [hunique key' hkey' key hdigest.symm]
    exact hkey'

/-- A process removes nothing but its own and what is not protected. -/
theorem spec_removeTree (depth : Nat) (hremovable : Removable host kept i s d n) :
    Spec host kept faults allowed i (removeTree depth d n) (fun _ _ => True) s := by
  have hplain := hremovable.plain
  cases depth with
  | zero => exact spec_throw fun _ _ _ => trivial
  | succ depth =>
    unfold removeTree
    have hinfo : Spec host kept faults allowed i (fileInfo d n) (fun r u => Since host kept i s u ∧
        ∀ info, r = .ok info → info.isDir = true) s := by
      refine spec_fileInfo hunique hplain (fun t u c h hlink => ⟨h.later.since, fun info hr => ?_⟩) ?_
      · obtain rfl := Except.ok.inj hr
        exact ((hremovable.since h.left.since).entry hunique h.inv hlink).1
      · exact fun t u e h _ => ⟨h.later.since, nofun⟩
    refine spec_bind hinfo ?_ fun e u _ _ _ => spec_throw fun _ _ _ => trivial
    rintro info u ⟨hsu, hkind⟩ - -
    rw [hkind info rfl, Bool.not_true, if_neg Bool.false_ne_true]
    refine spec_bind (spec_openDirectory hunique hplain "entry") ?_ ?_
    · intro c v hr hinvv _
      cases hr with
      | @ok t _ _ h hlink _ =>
        have hremovev := (hremovable.since hsu).since h.later.since
        obtain ⟨-, hemptyt⟩ := ((hremovable.since hsu).since h.left.since).entry hunique h.inv hlink
        have hempty := hemptyt.since h.right.since
        have hlist : Spec host kept faults allowed i (sys (.list c)) (fun r w => Since host kept i v w ∧
            ∀ names, r = .ok names → ∀ m ∈ names, m = payloadName ∨ m = metadataName) v := by
          refine spec_list hunique (fun x w names h' hnames => ⟨h'.later.since, fun names' hr m hm => ?_⟩)
            fun x w e h' _ => ⟨h'.later.since, nofun⟩
          obtain rfl := Except.ok.inj hr
          obtain ⟨f, hf⟩ := (hnames m).mp hm
          exact ((hempty.since h'.left.since).file h'.inv hf).2
        refine spec_bind hlist ?_ fun e u _ _ _ => spec_throw fun _ _ _ => trivial
        rintro names w ⟨hvw, hnames⟩ hinvw -
        have hloop : Spec host kept faults allowed i (forNames (removeTree depth c) names)
            (fun _ x => Since host kept i w x) w := by
          refine spec_forNames (fun m hm x hx _ => ?_) w (Later.refl w).since hinvw
          exact spec_removeFile hunique depth ((hempty.since hvw).since hx) (hnames names rfl m hm)
        refine spec_bind hloop ?_ fun e u _ _ _ => spec_throw fun _ _ _ => trivial
        rintro ⟨⟩ x hwx - -
        refine spec_sys hunique (fun y hy _ => ?_) fun _ _ _ _ _ _ _ _ _ _ => trivial
        exact (((hremovev.since hvw).since hwx).since hy.since).legal
    · exact fun e u _ _ _ => spec_throw fun _ _ _ => trivial

/-- Only an empty shard goes. -/
theorem spec_removeEmpty {root : Handle} (hroot : s.world.root = some root) (hn : isShard n = true) :
    Spec host kept faults allowed i (removeEmpty root d n) (fun _ _ => True) s := by
  have hlist : Spec host kept faults allowed i (sys (.list d)) (fun _ _ => True) s :=
    spec_list hunique (fun _ _ _ _ _ => trivial) fun _ _ _ _ _ => trivial
  unfold removeEmpty
  refine spec_bind hlist ?_ fun e u _ _ _ => spec_throw fun _ _ _ => trivial
  intro names u _ _ hsu
  split
  · exact spec_pure fun _ _ _ => trivial
  · have hrmdir : Spec host kept faults allowed i (sys (.rmdir root n)) (fun _ _ => True) u := by
      refine spec_sys hunique (fun t ht _ => .inl ⟨?_, hn⟩) fun _ _ _ _ _ _ _ _ _ _ => trivial
      exact ht.1.ext.root root (hsu.ext.root root hroot)
    refine spec_attempt hrmdir fun r v _ _ _ => ?_
    split
    · exact spec_pure fun _ _ _ => trivial
    · exact spec_pure fun _ _ _ => trivial
    · cases r with
      | ok a => exact spec_pure fun _ _ _ => trivial
      | error e => exact spec_throw fun _ _ _ => trivial

theorem spec_cleanUp (htemp : Temp i s d n c) (hname : isTemp n = true) (hplain : Plain n) :
    Spec host kept faults allowed i (ArtifactCache.cleanUp host d n) (fun _ _ => True) s := by
  unfold ArtifactCache.cleanUp
  refine spec_attempt (spec_removeTree hunique host.recursionLimit (.temp c htemp hname hplain)) ?_
  intro r v _ _ _
  split
  · exact spec_pure fun _ _ _ => trivial
  · cases r with
    | ok a => exact spec_pure fun _ _ _ => trivial
    | error e => exact spec_throw fun _ _ _ => trivial

end Removal

end MDRack.Artifacts
