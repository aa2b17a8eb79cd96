import MDRack.Artifacts.Calls
import MDRack.Artifacts.Metadata

/-!
# Reading an artifact cache

What the programs of the cache see that change nothing: the marker of the root, open directories,
and the files of an entry.

Principal results: `spec_validateRoot` — a valid root has its whole marker, and a marked one is
valid; `spec_readValidEntry` — a payload that is read is one that a process stores under the key,
and an entry under a protected key is read.
-/

namespace MDRack.Artifacts

open FileTree (Errno Handle Node Stat)
open Octets (Bytes)

variable {host : Host} {kept : ArtifactCacheKey → Prop} {faults : Prop} {allowed : Process → Prop}
  {s t u : State} {i : Nat} {d : Handle} {n : Name} {key : ArtifactCacheKey}

/-! ## System calls that change nothing -/

theorem spec_look {op : Op} {R : Except Raised op.Value → State → Prop}
    (hunique : Distinct host kept) (hlegal : ∀ t : State, Legal host kept i t.jobs t.world op)
    (hread : ∀ (w : Tree) fresh, (w.perform i fresh op).2 = w)
    (hR : ∀ t, Later host kept i s t → Invariant host kept allowed t → ∀ answer : op.Answer,
      ((∃ fresh, isToken fresh ∧ FileTree.Reordered op (t.world.perform i fresh op).1 answer) ∨
        faults ∧ answer = .error .io) →
      ∀ u, Later host kept i t u → Invariant host kept allowed u → R (answer.mapError .os) u) :
    Spec host kept faults allowed i (sys op) R s := by
  refine spec_sys hunique (fun t _ _ => hlegal t) fun t ht hinv answer w hexec _ u hu hinv' => ?_
  cases hexec with
  | perform hfresh h =>
    rw [hread] at hu
    exact hR t ht hinv answer (.inl ⟨_, hfresh, h⟩) u hu hinv'
  | fault h => exact hR t ht hinv _ (.inr ⟨h, rfl⟩) u hu hinv'

/-- A state that a process sees on its way from one state to another. -/
structure Between (host : Host) (kept : ArtifactCacheKey → Prop) (allowed : Process → Prop) (i : Nat)
    (s t u : State) : Prop where
  left : Later host kept i s t
  inv : Invariant host kept allowed t
  right : Later host kept i t u
  inv' : Invariant host kept allowed u

theorem Between.later (h : Between host kept allowed i s t u) : Later host kept i s u :=
  h.left.trans h.right

section Looks

variable (hunique : Distinct host kept)
include hunique

theorem spec_openDir {R : Except Raised Handle → State → Prop}
    (hok : ∀ t u c, Between host kept allowed i s t u → t.world.link d n = some c →
      (t.world.node c).isDir = true → R (.ok c) u)
    (hbad : ∀ t u e, Between host kept allowed i s t u →
      (faults ∨ ∀ c, t.world.link d n = some c → (t.world.node c).isDir = false) → R (.error e) u) :
    Spec host kept faults allowed i (sys (.openDir d n)) R s := by
  refine spec_look hunique (fun _ => trivial) (fun _ _ => rfl) fun t ht hinv answer hanswer u hu hinv' => ?_
  have hbetween : Between host kept allowed i s t u := ⟨ht, hinv, hu, hinv'⟩
  rcases hanswer with ⟨fresh, -, rfl⟩ | ⟨hfault, rfl⟩
  · show R ((t.world.openDir d n).mapError .os) u
    unfold FileTree.Tree.openDir
    cases hlink : t.world.link d n with
    | none => exact hbad t u _ hbetween (.inr fun c hc => by simp [hlink] at hc)
    | some c =>
      dsimp only
      split
      · rename_i hdir
        exact hok t u c hbetween hlink hdir
      · rename_i hdir
        refine hbad t u _ hbetween (.inr fun c' hc' => ?_)
        obtain rfl := Option.some.inj (hlink.symm.trans hc')
        exact Bool.eq_false_of_not_eq_true hdir
  · exact hbad t u _ hbetween (.inl hfault)

theorem spec_openFile {R : Except Raised Handle → State → Prop}
    (hok : ∀ t u f, Between host kept allowed i s t u → t.world.link d n = some f → R (.ok f) u)
    (hbad : ∀ t u e, Between host kept allowed i s t u → (faults ∨ t.world.link d n = none) →
      R (.error (.os e)) u) :
    Spec host kept faults allowed i (sys (.openFile d n)) R s := by
  refine spec_look hunique (fun _ => trivial) (fun _ _ => rfl) fun t ht hinv answer hanswer u hu hinv' => ?_
  have hbetween : Between host kept allowed i s t u := ⟨ht, hinv, hu, hinv'⟩
  rcases hanswer with ⟨fresh, -, rfl⟩ | ⟨hfault, rfl⟩
  · show R ((t.world.openFile d n).mapError .os) u
    unfold FileTree.Tree.openFile
    cases hlink : t.world.link d n with
    | none => exact hbad t u _ hbetween (.inr hlink)
    | some f => exact hok t u f hbetween hlink
  · exact hbad t u _ hbetween (.inl hfault)

theorem spec_stat {R : Except Raised Stat → State → Prop}
    (hok : ∀ t u c, Between host kept allowed i s t u → t.world.link d n = some c →
      R (.ok (t.world.statOf c)) u)
    (hbad : ∀ t u e, Between host kept allowed i s t u → (faults ∨ t.world.link d n = none) →
      R (.error (.os e)) u) :
    Spec host kept faults allowed i (sys (.stat d n)) R s := by
  refine spec_look hunique (fun _ => trivial) (fun _ _ => rfl) fun t ht hinv answer hanswer u hu hinv' => ?_
  have hbetween : Between host kept allowed i s t u := ⟨ht, hinv, hu, hinv'⟩
  rcases hanswer with ⟨fresh, -, rfl⟩ | ⟨hfault, rfl⟩
  · show R ((t.world.stat d n).mapError .os) u
    unfold FileTree.Tree.stat
    cases hlink : t.world.link d n with
    | none => exact hbad t u _ hbetween (.inr hlink)
    | some c => exact hok t u c hbetween hlink
  · exact hbad t u _ hbetween (.inl hfault)

theorem spec_fstat {f : Handle} {R : Except Raised Stat → State → Prop}
    (hok : ∀ t u, Between host kept allowed i s t u → R (.ok (t.world.statOf f)) u)
    (hbad : ∀ t u e, Between host kept allowed i s t u → faults → R (.error (.os e)) u) :
    Spec host kept faults allowed i (sys (.fstat f)) R s := by
  refine spec_look hunique (fun _ => trivial) (fun _ _ => rfl) fun t ht hinv answer hanswer u hu hinv' => ?_
  have hbetween : Between host kept allowed i s t u := ⟨ht, hinv, hu, hinv'⟩
  rcases hanswer with ⟨fresh, -, rfl⟩ | ⟨hfault, rfl⟩
  · exact hok t u hbetween
  · exact hbad t u _ hbetween hfault

theorem spec_read {f : Handle} {count : Nat} {R : Except Raised Bytes → State → Prop}
    (hok : ∀ t u, Between host kept allowed i s t u → (t.world.node f).isDir = false →
      R (.ok ((t.world.node f).content.take count)) u)
    (hbad : ∀ t u e, Between host kept allowed i s t u →
      (faults ∨ (t.world.node f).isDir = true) → R (.error (.os e)) u) :
    Spec host kept faults allowed i (sys (.read f count)) R s := by
  refine spec_look hunique (fun _ => trivial) (fun _ _ => rfl) fun t ht hinv answer hanswer u hu hinv' => ?_
  have hbetween : Between host kept allowed i s t u := ⟨ht, hinv, hu, hinv'⟩
  rcases hanswer with ⟨fresh, -, rfl⟩ | ⟨hfault, rfl⟩
  · show R ((t.world.read f count).mapError .os) u
    unfold FileTree.Tree.read
    split
    · rename_i hdir
      exact hbad t u _ hbetween (.inr hdir)
    · rename_i hdir
      exact hok t u hbetween (Bool.eq_false_of_not_eq_true hdir)
  · exact hbad t u _ hbetween (.inl hfault)

theorem spec_list {R : Except Raised (List Name) → State → Prop}
    (hok : ∀ t u names, Between host kept allowed i s t u →
      (∀ n, n ∈ names ↔ ∃ c, t.world.link d n = some c) → R (.ok names) u)
    (hbad : ∀ t u e, Between host kept allowed i s t u → faults → R (.error (.os e)) u) :
    Spec host kept faults allowed i (sys (.list d)) R s := by
  refine spec_look hunique (fun _ => trivial) (fun _ _ => rfl) fun t ht hinv answer hanswer u hu hinv' => ?_
  have hbetween : Between host kept allowed i s t u := ⟨ht, hinv, hu, hinv'⟩
  rcases hanswer with ⟨fresh, -, listed, rfl, hperm⟩ | ⟨hfault, rfl⟩
  · exact hok t u listed hbetween fun n => hperm.mem_iff.trans FileTree.mem_names
  · exact hbad t u _ hbetween hfault

theorem spec_flush {f : Handle} {R : Except Raised Unit → State → Prop}
    (hR : ∀ u r, Later host kept i s u → Invariant host kept allowed u → R r u) :
    Spec host kept faults allowed i (sys (.flush f)) R s :=
  spec_look hunique (fun _ => trivial) (fun _ _ => rfl)
    fun _ ht _ _ _ u hu hinv' => hR u _ (ht.trans hu) hinv'

theorem spec_token {R : Except Raised Name → State → Prop}
    (hR : ∀ u r, Later host kept i s u → Invariant host kept allowed u →
      (∀ name, r = .ok name → isToken name) → R r u) :
    Spec host kept faults allowed i (sys .token) R s := by
  refine spec_look hunique (fun _ => trivial) (fun _ _ => rfl) fun t ht _ answer hanswer u hu hinv' => ?_
  refine hR u _ (ht.trans hu) hinv' fun name hname => ?_
  rcases hanswer with ⟨fresh, hfresh, rfl⟩ | ⟨-, rfl⟩
  · obtain rfl := Except.ok.inj hname
    exact hfresh
  · cases hname

end Looks

/-! ## Names -/

/-- `component` lets the name through. -/
def Plain (name : Name) : Prop :=
  ¬ (name = [] ∨ name = ['.'] ∨ name = ['.', '.'] ∨
    name.any (fun c => "/\\:\x00".toList.contains c) = true)

theorem component_plain (h : Plain n) : component n = pure () := if_neg h

theorem plain_then {α : Type} {x : Code α} (h : Plain n) : (do component n; x) = x := by
  rw [component_plain h]
  rfl

/-- No digit is a dot, or a letter that `component` refuses. -/
theorem hex_plain : "0123456789abcdef".toList.all (fun c =>
    !"/\\:\x00".toList.contains c && c != '.') = true := by decide

theorem hex_safe {name : Name} (h : name.all isHex = true) :
    ∀ c ∈ name, ("/\\:\x00".toList.contains c) = false ∧ c ≠ '.' := by
  intro c hc
  have hhex := List.all_eq_true.mp h c hc
  rw [isHex, List.contains_iff_mem] at hhex
  have hsafe := List.all_eq_true.mp hex_plain c hhex
  rwa [Bool.and_eq_true, Bool.not_eq_true', bne_iff_ne] at hsafe

theorem plain_of_hex {name : Name} (hne : name ≠ []) (h : name.all isHex = true) : Plain name := by
  rintro (hnil | rfl | rfl | hany)
  · exact hne hnil
  · exact (hex_safe h '.' List.mem_cons_self).2 rfl
  · exact (hex_safe h '.' List.mem_cons_self).2 rfl
  · obtain ⟨c, hc, hbad⟩ := List.any_eq_true.mp hany
    rw [(hex_safe h c hc).1] at hbad
    cases hbad

theorem digest_all (key : ArtifactCacheKey) :
    (host.digest key).length = 64 ∧ (host.digest key).all isHex = true := by
  have hhex : Media.isHex64 (host.digest key) = true := digest_hex key
  rw [Media.isHex64, Bool.and_eq_true, beq_iff_eq] at hhex
  exact hhex

theorem digest_plain (key : ArtifactCacheKey) : Plain (host.digest key) := by
  obtain ⟨hlength, hhex⟩ : (host.digest key).length = 64 ∧ (host.digest key).all isHex = true :=
    digest_all key
  refine plain_of_hex (fun hnil => ?_) hhex
  rw [hnil] at hlength
  cases hlength

theorem shard_named (key : ArtifactCacheKey) : isShard (host.shard key) = true := by
  obtain ⟨hlength, hhex⟩ : (host.digest key).length = 64 ∧ (host.digest key).all isHex = true :=
    digest_all key
  rw [isShard, Host.shard, Bool.and_eq_true, beq_iff_eq, List.length_take, hlength]
  refine ⟨rfl, List.all_eq_true.mpr fun c hc => ?_⟩
  exact List.all_eq_true.mp hhex c (List.mem_of_mem_take hc)

theorem shard_plain (key : ArtifactCacheKey) : Plain (host.shard key) := by
  have hshard : isShard (host.shard key) = true := shard_named key
  rw [isShard, Bool.and_eq_true, beq_iff_eq] at hshard
  refine plain_of_hex (fun hnil => ?_) hshard.2
  rw [hnil] at hshard
  cases hshard.1

theorem marker_plain : Plain CACHE_MARKER := by
  unfold Plain
  decide

theorem payload_plain : Plain payloadName := by
  unfold Plain
  decide

theorem metadata_plain : Plain metadataName := by
  unfold Plain
  decide

/-! ## Opening -/

theorem Between.extend {v : State} (h : Between host kept allowed i s t u) (hv : Later host kept i u v)
    (hinv : Invariant host kept allowed v) : Between host kept allowed i s t v :=
  ⟨h.left, h.inv, h.right.trans hv, hinv⟩

/-- The directory that a name led to, or none. -/
inductive Opened (host : Host) (kept : ArtifactCacheKey → Prop) (faults : Prop)
    (allowed : Process → Prop) (i : Nat) (s : State) (d : Handle) (n : Name) :
    Except Raised Handle → State → Prop
  | ok {t u : State} {c : Handle} (h : Between host kept allowed i s t u)
      (hlink : t.world.link d n = some c) (hdir : (t.world.node c).isDir = true) :
      Opened host kept faults allowed i s d n (.ok c) u
  | bad {t u : State} {e : Raised} (h : Between host kept allowed i s t u)
      (hnone : faults ∨ ∀ c, t.world.link d n = some c → (t.world.node c).isDir = false) :
      Opened host kept faults allowed i s d n (.error e) u

theorem Opened.extend {r : Except Raised Handle} {v : State}
    (h : Opened host kept faults allowed i s d n r u) (hv : Later host kept i u v)
    (hinv : Invariant host kept allowed v) : Opened host kept faults allowed i s d n r v := by
  cases h with
  | ok h hlink hdir => exact .ok (h.extend hv hinv) hlink hdir
  | bad h hnone => exact .bad (h.extend hv hinv) hnone

section Reads

variable (hunique : Distinct host kept)
include hunique

theorem spec_openDirectory (hn : Plain n) (kind : String) :
    Spec host kept faults allowed i (openDirectory d n kind)
      (Opened host kept faults allowed i s d n) s := by
  unfold openDirectory
  rw [plain_then hn]
  have hopen : Spec host kept faults allowed i (sys (.openDir d n))
      (Opened host kept faults allowed i s d n) s :=
    spec_openDir hunique (fun t u c h hlink hdir => .ok h hlink hdir) fun t u e h hnone => .bad h hnone
  refine spec_attempt hopen fun r u hr _ _ => ?_
  split
  · cases hr with
    | bad h hnone => exact spec_throw fun v hv hinv => .bad (h.extend hv hinv) hnone
  · cases r with
    | ok c => exact spec_pure fun v hv hinv => hr.extend hv hinv
    | error e => exact spec_throw fun v hv hinv => hr.extend hv hinv

theorem spec_fileInfo (hn : Plain n) {R : Except Raised Stat → State → Prop}
    (hok : ∀ t u c, Between host kept allowed i s t u → t.world.link d n = some c →
      R (.ok (t.world.statOf c)) u)
    (hbad : ∀ t u e, Between host kept allowed i s t u → (faults ∨ t.world.link d n = none) →
      R (.error (.os e)) u) : Spec host kept faults allowed i (fileInfo d n) R s := by
  unfold fileInfo
  rw [plain_then hn]
  exact spec_stat hunique hok hbad

end Reads

/-! ## Files -/

/-- What reading a file of a directory gave: the content of the file that its name led to, which
was within the limit before. -/
def Got (host : Host) (kept : ArtifactCacheKey → Prop) (allowed : Process → Prop) (i : Nat)
    (s : State) (d : Handle) (n : Name) (limit : Nat) (bytes : Bytes) (u : State) : Prop :=
  ∃ t v w f, Between host kept allowed i s t v ∧ Between host kept allowed i v w u ∧
    t.world.link d n = some f ∧ (v.world.node f).content.length ≤ limit ∧
      bytes = (w.world.node f).content.take (limit + 1)

/-- Why a file of a directory could not be read. -/
def Unread (host : Host) (kept : ArtifactCacheKey → Prop) (faults : Prop) (allowed : Process → Prop)
    (i : Nat) (s : State) (d : Handle) (n : Name) (limit : Nat) (u : State) : Prop :=
  faults ∨ ∃ t v, Between host kept allowed i s t v ∧ Later host kept i v u ∧
    (t.world.link d n = none ∨ ∃ f, t.world.link d n = some f ∧
      ((v.world.node f).isDir = true ∨ limit < (v.world.node f).content.length))

def ReadResult (host : Host) (kept : ArtifactCacheKey → Prop) (faults : Prop)
    (allowed : Process → Prop) (i : Nat) (s : State) (d : Handle) (n : Name) (limit : Nat) :
    Except Raised Bytes → State → Prop
  | .ok bytes, u => Later host kept i s u ∧ Got host kept allowed i s d n limit bytes u
  | .error _, u => Later host kept i s u ∧ Unread host kept faults allowed i s d n limit u

theorem spec_readFile (hunique : Distinct host kept) (hn : Plain n) (limit : Nat) :
    Spec host kept faults allowed i (readFile d n limit)
      (ReadResult host kept faults allowed i s d n limit) s := by
  unfold readFile
  rw [plain_then hn]
  have hopen : Spec host kept faults allowed i (sys (.openFile d n)) (fun r u =>
      Later host kept i s u ∧ ((∃ t f, Between host kept allowed i s t u ∧
        t.world.link d n = some f ∧ r = .ok f) ∨
        (∃ e, r = .error e) ∧ Unread host kept faults allowed i s d n limit u)) s := by
    refine spec_openFile hunique (fun t u f h hlink => ⟨h.later, .inl ⟨t, f, h, hlink, rfl⟩⟩) ?_
    intro t u e h hnone
    refine ⟨h.later, .inr ⟨⟨_, rfl⟩, ?_⟩⟩
    rcases hnone with hfault | hnone
    · exact .inl hfault
    · exact .inr ⟨t, t, ⟨h.left, h.inv, .refl t, h.inv⟩, h.right, .inl hnone⟩
  have hlater : ∀ {u v}, Unread host kept faults allowed i s d n limit u → Later host kept i u v →
      Unread host kept faults allowed i s d n limit v := by
    rintro u v (hfault | ⟨t, w, h, hw, hcase⟩) hv
    · exact .inl hfault
    · exact .inr ⟨t, w, h, hw.trans hv, hcase⟩
  refine spec_bind hopen ?_ ?_
  · rintro file u ⟨hsu, ⟨t, f, h, hlink, hfile⟩ | ⟨⟨e, he⟩, -⟩⟩ - -
    · obtain rfl := Except.ok.inj hfile
      have hstat : Spec host kept faults allowed i (sys (.fstat file)) (fun r v =>
          Later host kept i s v ∧ ((∃ w, Between host kept allowed i u w v ∧
            r = .ok (w.world.statOf file)) ∨ (∃ e, r = .error e) ∧ faults)) u :=
        spec_fstat hunique (fun w v h' => ⟨hsu.trans h'.later, .inl ⟨w, h', rfl⟩⟩)
          fun w v e h' hfault => ⟨hsu.trans h'.later, .inr ⟨⟨_, rfl⟩, hfault⟩⟩
      refine spec_bind hstat ?_ ?_
      · rintro info v ⟨hsv, ⟨w, h', hinfo⟩ | ⟨⟨e, he⟩, -⟩⟩ hinv -
        · obtain rfl := Except.ok.inj hinfo
          have hseen : Between host kept allowed i s t w :=
            ⟨h.left, h.inv, h.right.trans h'.left, h'.inv⟩
          split
          · rename_i hfit
            refine spec_throw fun x hx hinvx => ⟨hsv.trans hx, .inr ⟨t, w, hseen, h'.right.trans hx,
              .inr ⟨file, hlink, ?_⟩⟩⟩
            rw [Bool.or_eq_true, decide_eq_true_eq] at hfit
            exact hfit
          · rename_i hfit
            rw [Bool.or_eq_true, decide_eq_true_eq, not_or] at hfit
            refine spec_read hunique ?_ ?_
            · intro x y hxy _
              refine ⟨hsv.trans hxy.later, t, w, x, file, hseen,
                ⟨h'.right.trans hxy.left, hxy.inv, hxy.right, hxy.inv'⟩, hlink, ?_, rfl⟩
              exact Nat.le_of_not_lt hfit.2
            · intro x y e hxy hbad
              refine ⟨hsv.trans hxy.later, ?_⟩
              rcases hbad with hfault | hdir
              · exact .inl hfault
              · exact .inr ⟨t, x, ⟨h.left, h.inv, h.right.trans (h'.later.trans hxy.left), hxy.inv⟩,
                  hxy.right, .inr ⟨file, hlink, .inl hdir⟩⟩
        · cases he
      · rintro e v ⟨hsv, ⟨w, h', hinfo⟩ | ⟨-, hfault⟩⟩ - -
        · cases hinfo
        · exact spec_throw fun x hx _ => ⟨hsv.trans hx, .inl hfault⟩
    · cases he
  · rintro e u ⟨hsu, ⟨t, f, h, hlink, hfile⟩ | ⟨-, hunread⟩⟩ - -
    · cases hfile
    · exact spec_throw fun v hv _ => ⟨hsu.trans hv, hlater hunread hv⟩

/-- A file whose content is settled is read as it is. -/
theorem Got.settled {limit : Nat} {bytes content : Bytes}
    (h : Got host kept allowed i s d n limit bytes u)
    (hfile : ∀ t, Later host kept i s t → Invariant host kept allowed t → ∀ f,
      t.world.link d n = some f → Settled t.world f content) :
    bytes = content ∧ content.length ≤ limit := by
  obtain ⟨t, v, w, f, htv, hvw, hlink, hsize, rfl⟩ := h
  have hsettled := hfile t htv.left htv.inv f hlink
  have hf := (htv.inv.shape.below d n f hlink).2.1
  have hv := hsettled.mono htv.right.1.ext hf
  have hw := hv.mono hvw.left.1.ext (Nat.lt_of_lt_of_le hf htv.right.1.ext.size)
  rw [hv.2] at hsize
  rw [hw.2]
  exact ⟨List.take_of_length_le (Nat.le_succ_of_le hsize), hsize⟩

/-- A file that stays, within the limit, can be read. -/
theorem Unread.faulty {limit : Nat} (h : Unread host kept faults allowed i s d n limit u) {f : Handle}
    (hfile : ∀ t, Later host kept i s t → Invariant host kept allowed t →
      t.world.link d n = some f ∧ (t.world.node f).isDir = false ∧
        (t.world.node f).content.length ≤ limit) : faults := by
  rcases h with hfault | ⟨t, v, h, -, hnone | ⟨g, hlink, hfit⟩⟩
  · exact hfault
  · rw [(hfile t h.left h.inv).1] at hnone
    cases hnone
  · obtain rfl := Option.some.inj ((hfile t h.left h.inv).1.symm.trans hlink)
    obtain ⟨-, hkind, hsize⟩ := hfile v h.later h.inv'
    rcases hfit with hdir | hlong
    · rw [hkind] at hdir
      cases hdir
    · exact absurd hlong (Nat.not_lt_of_le hsize)

/-! ## The marker -/

section Marker

variable {root : Handle} (hroot : s.world.root = some root) (hinv : Invariant host kept allowed s)
include hroot hinv

/-- The file of the marker, once it is whole. -/
theorem marker_file (hmarked : Marked s.world) : ∃ m, ∀ t, Later host kept i s t →
    Invariant host kept allowed t → t.world.link root CACHE_MARKER = some m ∧
      (t.world.node m).isDir = false ∧ (t.world.node m).content = CACHE_MARKER_BYTES := by
  obtain ⟨r, m, hr, hlink, -⟩ := id hmarked
  obtain rfl := Option.some.inj (hroot.symm.trans hr)
  refine ⟨m, fun t ht hinvt => ?_⟩
  obtain ⟨r', m', hr', hlink', hcontent⟩ := hmarked.later hinv.shape ht.1 hinvt.shape
  obtain rfl := Option.some.inj ((ht.1.ext.root _ hroot).symm.trans hr')
  have hkind : (t.world.node m').isDir = false := by
    rcases hinvt.shape.inRoot _ _ m' hlink' (hinvt.shape.root _ hr').2.2.1 with ⟨-, hkind, -⟩ | ⟨hshard, -⟩
    · exact hkind
    · exact absurd hshard (by decide)
  have hm := (hinv.shape.below _ _ m hlink).2.1
  rcases ht.1.rootLinks _ _ m hroot hm hlink with hsame | hremoved
  · obtain rfl := Option.some.inj (hsame.symm.trans hlink')
    exact ⟨hlink', hkind, hcontent⟩
  · have hdir := (hinvt.shape.removed m (Nat.lt_of_lt_of_le hm ht.1.ext.size) hremoved).1
    rw [(ht.1.ext.node m hm).isDir] at hdir
    rcases hinv.shape.inRoot _ _ m hlink (hinv.shape.root _ hroot).2.2.1 with ⟨-, hfile, -⟩ | ⟨hshard, -⟩
    · rw [hfile] at hdir
      cases hdir
    · exact absurd hshard (by decide)

/-- A whole marker is read as such. -/
theorem Got.marker {bytes : Bytes}
    (h : Got host kept allowed i s root CACHE_MARKER CACHE_MARKER_BYTES.length bytes u)
    (hmarked : Marked s.world) : bytes = CACHE_MARKER_BYTES := by
  obtain ⟨m, hm⟩ := marker_file (i := i) hroot hinv hmarked
  obtain ⟨t, v, w, f, htv, hvw, hlink, -, rfl⟩ := h
  obtain rfl := Option.some.inj ((hm t htv.left htv.inv).1.symm.trans hlink)
  rw [(hm w (htv.later.trans hvw.left) hvw.inv).2.2]
  exact List.take_of_length_le (Nat.le_succ _)

theorem Unread.marker
    (h : Unread host kept faults allowed i s root CACHE_MARKER CACHE_MARKER_BYTES.length u)
    (hmarked : Marked s.world) : faults := by
  obtain ⟨m, hm⟩ := marker_file (i := i) hroot hinv hmarked
  have hfile : ∀ t, Later host kept i s t → Invariant host kept allowed t →
      t.world.link root CACHE_MARKER = some m ∧ (t.world.node m).isDir = false ∧
        (t.world.node m).content.length ≤ CACHE_MARKER_BYTES.length := by
    intro t ht hinvt
    obtain ⟨hlink, hkind, hcontent⟩ := hm t ht hinvt
    exact ⟨hlink, hkind, Nat.le_of_eq (congrArg List.length hcontent)⟩
  exact h.faulty hfile

omit hinv in
/-- A root whose marker was read whole is marked. -/
theorem Got.whole
    (h : Got host kept allowed i s root CACHE_MARKER CACHE_MARKER_BYTES.length CACHE_MARKER_BYTES u) :
    Marked u.world := by
  obtain ⟨t, v, w, f, htv, hvw, hlink, -, hbytes⟩ := h
  have hroott := htv.left.1.ext.root root hroot
  have hf := (htv.inv.shape.below root _ f hlink).2.1
  have htw := htv.right.trans hvw.left
  have hkind : (t.world.node f).isDir = false := by
    rcases htv.inv.shape.inRoot root _ f hlink (htv.inv.shape.root root hroott).2.2.1 with
      ⟨-, hkind, -⟩ | ⟨hshard, -⟩
    · exact hkind
    · exact absurd hshard (by decide)
  have hlinkw : w.world.link root CACHE_MARKER = some f := by
    rcases htw.1.rootLinks root _ f hroott hf hlink with hsame | hremoved
    · exact hsame
    · have hdir := (hvw.inv.shape.removed f (Nat.lt_of_lt_of_le hf htw.1.ext.size) hremoved).1
      rw [(htw.1.ext.node f hf).isDir, hkind] at hdir
      cases hdir
  have hrootw := htw.1.ext.root root hroott
  refine Marked.later ⟨root, f, hrootw, hlinkw, ?_⟩ hvw.inv.shape hvw.right.1 hvw.inv'.shape
  rcases hvw.inv.shape.inRoot root _ f hlinkw (hvw.inv.shape.root root hrootw).2.2.1 with
    ⟨-, -, hbegins⟩ | ⟨hshard, -⟩
  · rw [List.take_of_length_le (Nat.le_succ_of_le hbegins.length_le)] at hbytes
    exact hbytes.symm
  · exact absurd hshard (by decide)

end Marker

/-! ## The root -/

def RootResult (host : Host) (kept : ArtifactCacheKey → Prop) (faults : Prop) (i : Nat) (s : State) :
    Except Raised (Option Handle) → State → Prop
  | .ok (some r), u => Later host kept i s u ∧ u.world.root = some r
  | .ok none, u => Later host kept i s u ∧ s.world.root = none
  | .error _, u => Later host kept i s u ∧ faults

/-- The last part of `open_root`. -/
theorem spec_openRoot (hunique : Distinct host kept) :
    Spec host kept faults allowed i (openRoot false) (RootResult host kept faults i s) s := by
  have hopen : Spec host kept faults allowed i (sys .openRoot) (fun r u => Later host kept i s u ∧
      ((∃ root, r = .ok root ∧ u.world.root = some root) ∨
        r = .error (.os .noent) ∧ s.world.root = none ∨ r = .error (.os .io) ∧ faults)) s := by
    refine spec_look hunique (fun _ => trivial) (fun _ _ => rfl) fun t ht hinv answer hanswer u hu hinv' => ?_
    refine ⟨ht.trans hu, ?_⟩
    rcases hanswer with ⟨fresh, -, rfl⟩ | ⟨hfault, rfl⟩
    · cases hroot : t.world.root with
      | some r =>
        refine .inl ⟨r, ?_, hu.1.ext.root r hroot⟩
        show (t.world.root.elim (.error .noent) .ok : Except Errno Handle).mapError Raised.os = _
        rw [hroot]
        rfl
      | none =>
        refine .inr (.inl ⟨?_, ?_⟩)
        · show (t.world.root.elim (.error .noent) .ok : Except Errno Handle).mapError Raised.os = _
          rw [hroot]
          rfl
        · cases hs : s.world.root with
          | none => rfl
          | some r =>
            rw [ht.1.ext.root r hs] at hroot
            cases hroot
    · exact .inr (.inr ⟨rfl, hfault⟩)
  refine spec_attempt hopen fun r u hr _ _ => ?_
  obtain ⟨hsu, ⟨root, rfl, hroot⟩ | ⟨rfl, hnone⟩ | ⟨rfl, hfault⟩⟩ := hr
  · exact spec_pure fun v hv _ => ⟨hsu.trans hv, hv.1.ext.root root hroot⟩
  · exact spec_pure fun v hv _ => ⟨hsu.trans hv, hnone⟩
  · exact spec_throw fun v hv _ => ⟨hsu.trans hv, hfault⟩

def ValidResult (host : Host) (kept : ArtifactCacheKey → Prop) (faults : Prop) (i : Nat) (s : State)
    (r : Except Raised Bool) (u : State) : Prop :=
  Later host kept i s u ∧ (r = .ok true → Marked u.world) ∧
    (Marked s.world → r = .ok true ∨ faults)

/-- A root is valid with its whole marker, and the marker stays. -/
theorem spec_validateRoot (hunique : Distinct host kept) {root : Handle}
    (hinv : Invariant host kept allowed s) (hroot : s.world.root = some root) (require : Bool) :
    Spec host kept faults allowed i (validateRoot root require) (ValidResult host kept faults i s) s := by
  unfold validateRoot
  have hlist : Spec host kept faults allowed i (sys (.list root)) (fun r u => Later host kept i s u ∧
      ((∃ t names, Between host kept allowed i s t u ∧ r = .ok names ∧
        ∀ n, n ∈ names ↔ ∃ c, t.world.link root n = some c) ∨ (∃ e, r = .error e) ∧ faults)) s :=
    spec_list hunique (fun t u names h hnames => ⟨h.later, .inl ⟨t, names, h, rfl, hnames⟩⟩)
      fun t u e h hfault => ⟨h.later, .inr ⟨⟨_, rfl⟩, hfault⟩⟩
  refine spec_bind hlist ?_ ?_
  · rintro names u ⟨hsu, ⟨t, listed, h, hr, hnames⟩ | ⟨⟨e, he⟩, -⟩⟩ hinvu -
    · obtain rfl := Except.ok.inj hr
      have hmarked : Marked s.world → CACHE_MARKER ∈ names := by
        intro hs
        obtain ⟨r, m, hr, hlink, -⟩ := hs.later hinv.shape h.left.1 h.inv.shape
        obtain rfl := Option.some.inj ((h.left.1.ext.root root hroot).symm.trans hr)
        exact (hnames _).mpr ⟨m, hlink⟩
      split
      · rename_i hlacks
        have hmissing : CACHE_MARKER ∉ names := by simpa using hlacks
        split
        · exact spec_throw fun v hv _ => ⟨hsu.trans hv, nofun, fun hs => absurd (hmarked hs) hmissing⟩
        · exact spec_pure fun v hv _ => ⟨hsu.trans hv, nofun, fun hs => absurd (hmarked hs) hmissing⟩
      · have hrootu : u.world.root = some root := hsu.1.ext.root root hroot
        refine spec_bind (spec_readFile hunique marker_plain _) ?_ ?_
        · rintro marker v ⟨huv, hgot⟩ hinvv -
          have hforeign : (names.any fun name => name ≠ CACHE_MARKER && !isShard name) = false := by
            refine List.any_eq_false.mpr fun name hname => ?_
            obtain ⟨c, hlink⟩ := (hnames name).mp hname
            have hrt := h.left.1.ext.root root hroot
            rcases h.inv.shape.inRoot root name c hlink (h.inv.shape.root root hrt).2.2.1 with
              ⟨rfl, -⟩ | ⟨hshard, -⟩
            · simp
            · simp [hshard]
          split
          · rename_i hwrong
            refine spec_throw fun x hx _ => ⟨(hsu.trans huv).trans hx, nofun, fun hs => ?_⟩
            exact absurd (hgot.marker hrootu hinvu (hs.later hinv.shape hsu.1 hinvu.shape)) hwrong
          · rename_i hright
            rw [hforeign, if_neg Bool.false_ne_true]
            refine spec_pure fun x hx hinvx => ⟨(hsu.trans huv).trans hx, fun _ => ?_, fun _ => .inl rfl⟩
            rw [not_not] at hright
            subst hright
            exact (hgot.whole hrootu).later hinvv.shape hx.1 hinvx.shape
        · rintro e v ⟨huv, hunread⟩ - -
          refine spec_throw fun x hx _ => ⟨(hsu.trans huv).trans hx, nofun, fun hs => .inr ?_⟩
          exact hunread.marker hrootu hinvu (hs.later hinv.shape hsu.1 hinvu.shape)
    · cases he
  · rintro e u ⟨hsu, ⟨t, listed, h, hr, hnames⟩ | ⟨-, hfault⟩⟩ - -
    · cases hr
    · exact spec_throw fun v hv _ => ⟨hsu.trans hv, nofun, fun _ => .inr hfault⟩

/-! ## Entries -/

variable {c : Handle} {key' : ArtifactCacheKey} {payload : Payload} {cache : ArtifactCache}

/-- A published entry, and what the process that made it stores. -/
structure Entry (s : State) (c : Handle) (key : ArtifactCacheKey) (payload : Payload) : Prop where
  lt : c < s.world.size
  moved : (s.world.node c).moved = true
  stores : Stores s.jobs (s.world.node c).owner key payload

theorem Entry.later (h : Entry s c key payload) (ht : Later host kept i s t) : Entry t c key payload where
  lt := Nat.lt_of_lt_of_le h.lt ht.1.ext.size
  moved := (ht.1.ext.node c h.lt).moved h.moved
  stores := by
    rw [(ht.1.ext.node c h.lt).owner]
    exact h.stores.mono ht.1.jobs

theorem Entry.filled (h : Entry s c key payload) (hinv : Invariant host kept allowed s) :
    Filled host s.world c key payload := by
  obtain ⟨-, -, key', payload', hstores, hfilled⟩ := hinv.shape.moved c h.lt h.moved
  obtain ⟨rfl, rfl⟩ := h.stores.same hstores
  exact hfilled

/-- A name that is a digest leads to a published entry. -/
theorem entry_of_link (hinv : Invariant host kept allowed s) (hshard : ShardDir s.world d)
    (hlink : s.world.link d (host.digest key) = some c) : (s.world.node c).isDir = true ∧
      ∃ key' payload, Entry s c key' payload ∧ host.digest key' = host.digest key := by
  obtain ⟨hdir, ⟨htemp, -⟩ | ⟨hmoved, key', payload, r, hstores, hname, -⟩⟩ :=
    hinv.shape.inShard d _ c hlink hshard.2.2
  · rw [digest_not_temp] at htemp
    cases htemp
  · exact ⟨hdir, key', payload, ⟨(hinv.shape.below d _ c hlink).2.1, hmoved, hstores⟩, hname.symm⟩

/-- The files of an entry stay where they are. -/
def Whole (host : Host) (kept : ArtifactCacheKey → Prop) (allowed : Process → Prop) (i : Nat)
    (s : State) (c : Handle) : Prop :=
  ∃ f m, ∀ t, Later host kept i s t → Invariant host kept allowed t →
    t.world.link c payloadName = some f ∧ t.world.link c metadataName = some m

/-- An entry under a protected key is whole. -/
theorem whole_of_kept (hinv : Invariant host kept allowed s) (hshard : ShardDir s.world d)
    (hkey : kept key) (hlink : s.world.link d (host.digest key) = some c) :
    Whole host kept allowed i s c := by
  obtain ⟨⟨f, hf⟩, m, hm⟩ := hinv.shape.whole key d c hkey hlink hshard.2.2
  refine ⟨f, m, fun t ht _ => ?_⟩
  have hsame := (ht.1.wholeLinks key d c hkey hshard.1 hshard.2.2 hlink).2
  exact ⟨(hsame _).trans hf, (hsame _).trans hm⟩

/-- What the reads of an entry gave. -/
def EntryRead (host : Host) (kept : ArtifactCacheKey → Prop) (faults : Prop)
    (allowed : Process → Prop) (cache : ArtifactCache) (i : Nat) (s : State) (c : Handle)
    (key key' : ArtifactCacheKey) (payload : Payload)
    (r : Except Raised (Option (Int × List Char × Bytes))) (u : State) : Prop :=
  Later host kept i s u ∧
    (∀ x, r = .ok (some x) → key' = key ∧
      x = ((payload.bytes.length : Int), (host.sha256 payload.bytes).text.toList, payload.bytes)) ∧
    (¬ faults → key' = key → payload.bytes.length ≤ cache.maxEntryBytes →
      Whole host kept allowed i s c → ∃ x, r = .ok (some x))

theorem ShardDir.later (h : ShardDir s.world d) (ht : Common host kept s t) : ShardDir t.world d :=
  ⟨Nat.lt_of_lt_of_le h.1 ht.ext.size, (ht.ext.node d h.1).isDir.trans h.2.1,
    (ht.ext.node d h.1).level.trans h.2.2⟩

theorem Entry.file_dir (h : Entry s c key payload) (hinv : Invariant host kept allowed s) {f : Handle}
    (hlink : s.world.link c n = some f) : (s.world.node f).isDir = false :=
  (hinv.shape.inEntry c n f hlink (hinv.shape.moved c h.lt h.moved).1).1

theorem spec_readEntry (hunique : Distinct host kept) (hreads : ReadsBack host)
    (hentry : Entry s c key' payload) :
    Spec host kept faults allowed i (cache.readEntry host c key)
      (EntryRead host kept faults allowed cache i s c key key' payload) s := by
  have hfilled : ∀ t, Later host kept i s t → Invariant host kept allowed t →
      Filled host t.world c key' payload := fun t ht hinv => (hentry.later ht).filled hinv
  unfold ArtifactCache.readEntry
  refine spec_bind (spec_readFile hunique metadata_plain _) ?_ ?_
  · rintro raw u ⟨hsu, hgot⟩ hinvu -
    obtain ⟨rfl, -⟩ := hgot.settled fun t ht hinv f hf => (hfilled t ht hinv).metadataFile f hf
    unfold ArtifactCache.loadMetadata
    rw [hreads]
    have hchecked : Spec host kept faults allowed i (pure (host.loaded key' payload))
        (fun r v => r = .ok (host.loaded key' payload) ∧ Later host kept i s v) u :=
      spec_pure fun v hv _ => ⟨rfl, hsu.trans hv⟩
    refine spec_bind hchecked ?_ ?_
    · rintro value v ⟨hvalue, hsv⟩ hinvv -
      obtain rfl := Except.ok.inj hvalue
      split
      · rename_i hnone
        refine spec_pure fun w hw _ => ⟨hsv.trans hw, nofun, fun _ hkey hsize => ?_⟩
        subst hkey
        rw [checkMetadata_own hsize] at hnone
        cases hnone
      · rename_i size digest hchecks
        obtain rfl := checkMetadata_key hchecks
        refine spec_bind (spec_readFile hunique payload_plain _) ?_ ?_
        · rintro bytes w ⟨hvw, hgot'⟩ - -
          obtain ⟨rfl, hsize⟩ := hgot'.settled fun t ht hinv f hf =>
            (hfilled t (hsv.trans ht) hinv).payloadFile f hf
          rw [checkMetadata_own hsize] at hchecks
          obtain ⟨rfl, rfl⟩ := Prod.mk.inj (Option.some.inj hchecks)
          refine spec_pure fun x hx _ => ⟨(hsv.trans hvw).trans hx, fun y hy => ⟨rfl, ?_⟩, fun _ _ _ _ => ⟨_, rfl⟩⟩
          exact (Option.some.inj (Except.ok.inj hy)).symm
        · rintro e w ⟨hvw, hunread⟩ - -
          refine spec_throw fun x hx _ => ⟨(hsv.trans hvw).trans hx, nofun, fun hcalm _ hsize hwhole => ?_⟩
          obtain ⟨f, m, hlinks⟩ := hwhole
          refine absurd (hunread.faulty (f := f) fun t ht hinv => ?_) hcalm
          have hlink := (hlinks t (hsv.trans ht) hinv).1
          refine ⟨hlink, (hentry.later (hsv.trans ht)).file_dir hinv hlink, ?_⟩
          rw [((hfilled t (hsv.trans ht) hinv).payloadFile f hlink).2]
          exact hsize
    · rintro e v ⟨he, -⟩
      cases he
  · rintro e u ⟨hsu, hunread⟩ - -
    refine spec_throw fun v hv _ => ⟨hsu.trans hv, nofun, fun hcalm _ _ hwhole => ?_⟩
    obtain ⟨f, m, hlinks⟩ := hwhole
    refine absurd (hunread.faulty (f := m) fun t ht hinv => ?_) hcalm
    have hlink := (hlinks t ht hinv).2
    refine ⟨hlink, (hentry.later ht).file_dir hinv hlink, ?_⟩
    rw [((hfilled t ht hinv).metadataFile m hlink).2]
    exact metadata_short host key' payload

/-- What reading the entry under a key gave. -/
def ValidEntry (host : Host) (kept : ArtifactCacheKey → Prop) (i : Nat) (s : State) (d : Handle)
    (key : ArtifactCacheKey) (r : Except Raised (Option Bytes)) (u : State) : Prop :=
  Later host kept i s u ∧
    (∀ bytes, r = .ok (some bytes) → ∃ j payload, Stores u.jobs j key payload ∧
      payload.bytes = bytes ∧ (kept key → ∃ c, u.world.link d (host.digest key) = some c ∧
        (u.world.node c).owner = j)) ∧
    (kept key → (∃ c, s.world.link d (host.digest key) = some c) → ∃ bytes, r = .ok (some bytes))

/-- A payload that is read is one that a process stores under the key, and the entry under a
protected key is read. -/
theorem spec_readValidEntry (hassumed : Assumed host kept faults allowed) (hreads : ReadsBack host)
    (hinv : Invariant host kept allowed s) (hshard : ShardDir s.world d)
    (hcache : ∃ job, s.jobs[i]? = some ⟨cache, job⟩) :
    Spec host kept faults allowed i (cache.readValidEntry host d (host.digest key) key)
      (ValidEntry host kept i s d key) s := by
  unfold ArtifactCache.readValidEntry
  have hbad : ∀ {u : State} {e : Raised}, Opened host kept faults allowed i s d (host.digest key) (.error e) u →
      kept key → (∃ c, s.world.link d (host.digest key) = some c) → False := by
    rintro u e (_ | ⟨h, hnone⟩) hkey ⟨c, hlink⟩
    rcases hnone with hfault | hnone
    · exact hassumed.calm key hkey hfault
    · have hlink' := (h.left.1.wholeLinks key d c hkey hshard.1 hshard.2.2 hlink).1
      have hdir := (entry_of_link h.inv (hshard.later h.left.1) hlink').1
      rw [hnone c hlink'] at hdir
      cases hdir
  have hbad' : ∀ {u : State} {e : Raised}, Opened host kept faults allowed i s d (host.digest key) (.error e) u →
      Later host kept i s u := by
    rintro u e (_ | ⟨h, -⟩)
    exact h.later
  refine spec_attempt (spec_openDirectory hassumed.distinct (digest_plain key) "entry")
    fun r u hr hinvu _ => ?_
  split
  · exact spec_pure fun v hv _ => ⟨(hbad' hr).trans hv, nofun, fun hkey hlink => (hbad hr hkey hlink).elim⟩
  · exact spec_pure fun v hv _ => ⟨(hbad' hr).trans hv, nofun, fun hkey hlink => (hbad hr hkey hlink).elim⟩
  · exact spec_throw fun v hv _ => ⟨(hbad' hr).trans hv, nofun, fun hkey hlink => (hbad hr hkey hlink).elim⟩
  · rename_i entry
    cases hr with
    | @ok t _ _ h hlink hdir =>
      have hshardt := hshard.later h.left.1
      obtain ⟨-, key', payload, hentry, hdigest⟩ := entry_of_link h.inv hshardt hlink
      have hentryu := hentry.later h.right
      -- An entry under a protected key was made for this key, and is whole.
      have hkeptkey : kept key → key' = key := fun hkey => hassumed.distinct key hkey key' hdigest
      have hsize : kept key → payload.bytes.length ≤ cache.maxEntryBytes := by
        intro hkey
        obtain ⟨cache', hjob, hlimit⟩ := hentryu.stores
        obtain ⟨job, hown⟩ := hcache
        have hallowed := hinvu.jobs _ (List.mem_of_getElem? hjob)
        have hallowed' := hinv.jobs _ (List.mem_of_getElem? hown)
        exact hassumed.limits key hkey _ _ hallowed hallowed' ▸ hlimit
      have hwhole : kept key → Whole host kept allowed i u entry := by
        intro hkey
        have hlinku := (h.right.1.wholeLinks key d entry hkey hshardt.1 hshardt.2.2 hlink).1
        exact whole_of_kept hinvu (hshardt.later h.right.1) hkey hlinku
      have hsure : ∀ {r' v}, EntryRead host kept faults allowed cache i u entry key key' payload r' v →
          kept key → ∃ x, r' = .ok (some x) := fun hread hkey =>
        hread.2.2 (hassumed.calm key hkey) (hkeptkey hkey) (hsize hkey) (hwhole hkey)
      refine spec_attempt (spec_readEntry hassumed.distinct hreads hentryu) fun r' v hr' hinvv _ => ?_
      have hsv := h.later.trans hr'.1
      split
      · refine spec_pure fun w hw _ => ⟨hsv.trans hw, nofun, fun hkey _ => ?_⟩
        obtain ⟨x, hx⟩ := hsure hr' hkey
        cases hx
      · refine spec_pure fun w hw _ => ⟨hsv.trans hw, nofun, fun hkey _ => ?_⟩
        obtain ⟨x, hx⟩ := hsure hr' hkey
        cases hx
      · refine spec_throw fun w hw _ => ⟨hsv.trans hw, nofun, fun hkey _ => ?_⟩
        obtain ⟨x, hx⟩ := hsure hr' hkey
        cases hx
      · rename_i read
        have hchecked : ∀ x, read = some x → key' = key ∧
            ArtifactCache.checkPayload host read = some payload.bytes := by
          intro x hx
          obtain ⟨hkey, rfl⟩ := hr'.2.1 x (by rw [hx])
          refine ⟨hkey, ?_⟩
          rw [hx]
          unfold ArtifactCache.checkPayload
          simp
        refine spec_pure fun w hw hinvw => ⟨hsv.trans hw, fun bytes hbytes => ?_, fun hkey _ => ?_⟩
        · cases hread : read with
          | none =>
            rw [hread] at hbytes
            cases hbytes
          | some x =>
            obtain ⟨rfl, hpayload⟩ := hchecked x hread
            rw [hpayload] at hbytes
            have hentryw := hentryu.later (hr'.1.trans hw)
            refine ⟨_, payload, hentryw.stores, Option.some.inj (Except.ok.inj hbytes), fun hkey => ?_⟩
            have htw := h.right.trans (hr'.1.trans hw)
            exact ⟨entry, (htw.1.wholeLinks _ d entry hkey hshardt.1 hshardt.2.2 hlink).1, rfl⟩
        · obtain ⟨x, hx⟩ := hsure hr' hkey
          obtain ⟨-, hpayload⟩ := hchecked x (Except.ok.inj hx)
          exact ⟨payload.bytes, by rw [hpayload]⟩

end MDRack.Artifacts
