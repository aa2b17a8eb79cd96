import Mathlib.Data.List.Basic
import Mathlib.Data.List.Perm.Basic

/-!
# A tree of directories and files

The system calls of a tree that several processes share, each one atomic.  An open directory or
file is known by its node, whatever its names become.  A file is written by the process that made
it, until it closes it; a directory that was removed stays open, empty and without new entries.

Each node also keeps who made it, how deep below the root, and whether a rename has moved it.

* `Tree.perform` — the calls with one answer.
* `Exec` — all calls: a listing has its names in any order, a token is any unused looking name, and
  where faults are admitted every call can fail.

Principal results: `link_insert`, `link_detach`, `link_move` — the entries behind each change.
-/

set_option linter.unusedSectionVars false

namespace FileTree

/-- Codes of system errors that the code tests, and any other. -/
inductive Errno
  | noent
  | exist
  | notdir
  | isdir
  | notempty
  | badf
  | io
  deriving DecidableEq, Repr

structure Node (Name Byte : Type) where
  isDir : Bool
  level : Nat
  owner : Nat
  entries : List (Name × Nat)
  content : List Byte
  writable : Bool
  moved : Bool
  removed : Bool

structure Tree (Name Byte : Type) where
  root : Option Nat
  size : Nat
  node : Nat → Node Name Byte

/-- An open directory or file. -/
abbrev Handle := Nat

inductive Op (Name Byte : Type)
  | makeRoot
  | openRoot
  | mkdir (dir : Handle) (name : Name)
  | openDir (dir : Handle) (name : Name)
  | list (dir : Handle)
  | stat (dir : Handle) (name : Name)
  | create (dir : Handle) (name : Name)
  | append (file : Handle) (byte : Byte)
  | close (file : Handle)
  | openFile (dir : Handle) (name : Name)
  | fstat (file : Handle)
  | read (file : Handle) (count : Nat)
  | rename (dir : Handle) (source target : Name)
  | rmdir (dir : Handle) (name : Name)
  | unlink (dir : Handle) (name : Name)
  | flush (node : Handle)
  | token

/-- Kind and size of a node. -/
structure Stat where
  isDir : Bool
  size : Nat

variable {Name Byte : Type}

abbrev Op.Value : Op Name Byte → Type
  | .openRoot | .openDir .. | .create .. | .openFile .. => Handle
  | .list _ => List Name
  | .stat .. | .fstat _ => Stat
  | .read .. => List Byte
  | .token => Name
  | _ => Unit

abbrev Op.Answer (op : Op Name Byte) : Type := Except Errno op.Value

/-! ## Entries -/

variable [DecidableEq Name]

def linkIn (entries : List (Name × Nat)) (name : Name) : Option Nat :=
  (entries.find? fun e => e.1 = name).map (·.2)

def without (name : Name) (entries : List (Name × Nat)) : List (Name × Nat) :=
  entries.filter fun e => e.1 ≠ name

section Entries

variable {entries : List (Name × Nat)} {name other : Name} {child : Nat}

@[simp] theorem linkIn_nil : linkIn ([] : List (Name × Nat)) name = none := rfl

theorem linkIn_cons : linkIn ((name, child) :: entries) other =
    if name = other then some child else linkIn entries other := by
  unfold linkIn
  rw [List.find?_cons]
  by_cases h : name = other
  · simp [h]
  · simp [h]

theorem linkIn_without :
    linkIn (without name entries) other = if name = other then none else linkIn entries other := by
  induction entries with
  | nil => simp [without]
  | cons e rest ih =>
    obtain ⟨label, child⟩ := e
    unfold without at ih ⊢
    by_cases hname : label = name
    · subst hname
      rw [List.filter_cons, if_neg (by simp), ih, linkIn_cons]
      by_cases hother : label = other
      · rw [if_pos hother, if_pos hother]
      · rw [if_neg hother, if_neg hother, if_neg hother]
    · rw [List.filter_cons, if_pos (by simpa using hname), linkIn_cons, linkIn_cons, ih]
      by_cases hother : label = other
      · subst hother
        rw [if_pos rfl, if_neg (Ne.symm hname), if_pos rfl]
      · rw [if_neg hother, if_neg hother]

theorem mem_names : name ∈ entries.map (·.1) ↔ ∃ child, linkIn entries name = some child := by
  induction entries with
  | nil => simp
  | cons e rest ih =>
    obtain ⟨label, child⟩ := e
    rw [List.map_cons, List.mem_cons, ih, linkIn_cons]
    by_cases h : label = name
    · simp [h]
    · simp [h, Ne.symm h]

theorem eq_nil_iff : entries = [] ↔ ∀ name, linkIn entries name = none := by
  constructor
  · rintro rfl name
    rfl
  · intro h
    cases entries with
    | nil => rfl
    | cons e rest =>
      have hfirst := h e.1
      rw [linkIn_cons, if_pos rfl] at hfirst
      cases hfirst

end Entries

namespace Tree

variable (t : Tree Name Byte)

def link (dir : Handle) (name : Name) : Option Handle := linkIn (t.node dir).entries name

/-- Replace one node. -/
def set (n : Handle) (x : Node Name Byte) : Tree Name Byte :=
  { t with node := fun m => if m = n then x else t.node m }

/-- A new node under a name in a directory. -/
def insert (dir : Handle) (name : Name) (x : Node Name Byte) : Tree Name Byte :=
  { (t.set dir { t.node dir with entries := (name, t.size) :: (t.node dir).entries }).set t.size x
    with size := t.size + 1 }

/-- Take a name out of a directory. -/
def detach (dir : Handle) (name : Name) : Tree Name Byte :=
  t.set dir { t.node dir with entries := without name (t.node dir).entries }

/-- Note that a directory has been removed. -/
def remove (n : Handle) : Tree Name Byte := t.set n { t.node n with removed := true }

/-- Give a directory another name in its parent. -/
def move (dir : Handle) (source target : Name) (n : Handle) : Tree Name Byte :=
  let moved := t.set n { t.node n with moved := true }
  moved.set dir { moved.node dir with
    entries := (target, n) :: without target (without source (moved.node dir).entries) }

def newDir (level owner : Nat) : Node Name Byte := ⟨true, level, owner, [], [], false, false, false⟩

def newFile (level owner : Nat) : Node Name Byte := ⟨false, level, owner, [], [], true, false, false⟩

/-! ## System calls -/

def makeRoot (owner : Nat) : Tree Name Byte :=
  match t.root with
  | some _ => t
  | none => { (t.set t.size (newDir 0 owner)) with root := some t.size, size := t.size + 1 }

/-- `mkdir` and exclusive creation. -/
def make (dir : Handle) (name : Name) (x : Node Name Byte) : Except Errno Handle × Tree Name Byte :=
  if (t.node dir).removed then (.error .noent, t)
  else match t.link dir name with
    | some _ => (.error .exist, t)
    | none => (.ok t.size, t.insert dir name x)

theorem make_cases (dir : Handle) (name : Name) (x : Node Name Byte) :
    (∃ e, t.make dir name x = (.error e, t)) ∨
      t.make dir name x = (.ok t.size, t.insert dir name x) ∧ t.link dir name = none := by
  unfold make
  split
  · exact .inl ⟨_, rfl⟩
  · split
    · exact .inl ⟨_, rfl⟩
    · rename_i hfree
      exact .inr ⟨rfl, hfree⟩

def renameDir (dir : Handle) (source target : Name) : Except Errno Unit × Tree Name Byte :=
  match t.link dir source with
  | none => (.error .noent, t)
  | some n =>
    if !(t.node n).isDir then (.error .notdir, t)
    else match t.link dir target with
      | none => (.ok (), t.move dir source target n)
      | some old =>
        if !(t.node old).isDir then (.error .notdir, t)
        else if (t.node old).entries.isEmpty then (.ok (), (t.remove old).move dir source target n)
        else (.error .notempty, t)

theorem renameDir_cases (dir : Handle) (source target : Name) :
    (∃ e, t.renameDir dir source target = (.error e, t)) ∨
      ∃ n w, t.link dir source = some n ∧ t.renameDir dir source target = (.ok (), w) ∧
        (w = t.move dir source target n ∨ ∃ old, w = (t.remove old).move dir source target n) := by
  unfold renameDir
  split
  · exact .inl ⟨_, rfl⟩
  · rename_i n hlink
    split
    · exact .inl ⟨_, rfl⟩
    · split
      · exact .inr ⟨n, _, hlink, rfl, .inl rfl⟩
      · rename_i old hold
        split
        · exact .inl ⟨_, rfl⟩
        · split
          · exact .inr ⟨n, _, hlink, rfl, .inr ⟨old, rfl⟩⟩
          · exact .inl ⟨_, rfl⟩

def rmdir (dir : Handle) (name : Name) : Except Errno Unit × Tree Name Byte :=
  match t.link dir name with
  | none => (.error .noent, t)
  | some n =>
    if !(t.node n).isDir then (.error .notdir, t)
    else if (t.node n).entries.isEmpty then (.ok (), (t.remove n).detach dir name)
    else (.error .notempty, t)

def unlink (dir : Handle) (name : Name) : Except Errno Unit × Tree Name Byte :=
  match t.link dir name with
  | none => (.error .noent, t)
  | some n => if (t.node n).isDir then (.error .isdir, t) else (.ok (), t.detach dir name)

def openDir (dir : Handle) (name : Name) : Except Errno Handle :=
  match t.link dir name with
  | none => .error .noent
  | some n => if (t.node n).isDir then .ok n else .error .notdir

def statOf (n : Handle) : Stat := ⟨(t.node n).isDir, (t.node n).content.length⟩

def stat (dir : Handle) (name : Name) : Except Errno Stat :=
  match t.link dir name with
  | none => .error .noent
  | some n => .ok (t.statOf n)

def append (file : Handle) (byte : Byte) : Except Errno Unit × Tree Name Byte :=
  if (t.node file).writable then
    (.ok (), t.set file { t.node file with content := (t.node file).content ++ [byte] })
  else (.error .badf, t)

def close (file : Handle) : Tree Name Byte := t.set file { t.node file with writable := false }

def openFile (dir : Handle) (name : Name) : Except Errno Handle :=
  match t.link dir name with
  | none => .error .noent
  | some n => .ok n

def read (file : Handle) (count : Nat) : Except Errno (List Byte) :=
  if (t.node file).isDir then .error .isdir else .ok ((t.node file).content.take count)

/-- What a call answers, and the tree behind it; a listing is in the order of the directory. -/
def perform (owner : Nat) (fresh : Name) : (op : Op Name Byte) → op.Answer × Tree Name Byte
  | .makeRoot => (.ok (), t.makeRoot owner)
  | .openRoot => (t.root.elim (.error .noent) .ok, t)
  | .mkdir dir name =>
    let made := t.make dir name (newDir ((t.node dir).level + 1) owner)
    (made.1.map fun _ => (), made.2)
  | .openDir dir name => (t.openDir dir name, t)
  | .list dir => (.ok ((t.node dir).entries.map (·.1)), t)
  | .stat dir name => (t.stat dir name, t)
  | .create dir name => t.make dir name (newFile ((t.node dir).level + 1) owner)
  | .append file byte => t.append file byte
  | .close file => (.ok (), t.close file)
  | .openFile dir name => (t.openFile dir name, t)
  | .fstat file => (.ok (t.statOf file), t)
  | .read file count => (t.read file count, t)
  | .rename dir source target => t.renameDir dir source target
  | .rmdir dir name => t.rmdir dir name
  | .unlink dir name => t.unlink dir name
  | .flush _ => (.ok (), t)
  | .token => (.ok fresh, t)

end Tree

/-- The same answer, with the names of a listing in any order. -/
def Reordered : (op : Op Name Byte) → op.Answer → op.Answer → Prop
  | .list _, .ok names, answer => ∃ listed : List Name, answer = .ok listed ∧ listed.Perm names
  | _, answer, answer' => answer' = answer

/-- The answers of a call by a process, and the trees behind it. -/
inductive Exec (faults : Prop) (isToken : Name → Prop) (owner : Nat) (op : Op Name Byte)
    (t : Tree Name Byte) : op.Answer → Tree Name Byte → Prop
  | perform {fresh : Name} (hfresh : isToken fresh) {answer : op.Answer}
      (h : Reordered op (t.perform owner fresh op).1 answer) :
      Exec faults isToken owner op t answer (t.perform owner fresh op).2
  | fault (h : faults) : Exec faults isToken owner op t (.error .io) t

/-! ## What every call leaves -/

/-- A later version of a node: a file that was closed stays as it is, and others only grow. -/
structure Node.Continues (x y : Node Name Byte) : Prop where
  isDir : y.isDir = x.isDir
  level : y.level = x.level
  owner : y.owner = x.owner
  moved : x.moved = true → y.moved = true
  removed : x.removed = true → y.removed = true
  grows : x.content <+: y.content
  closed : x.writable = false → y.writable = false ∧ y.content = x.content

theorem Node.Continues.refl (x : Node Name Byte) : x.Continues x :=
  ⟨rfl, rfl, rfl, id, id, List.prefix_rfl, fun h => ⟨h, rfl⟩⟩

theorem Node.Continues.trans {x y z : Node Name Byte} (h : x.Continues y) (h' : y.Continues z) :
    x.Continues z where
  isDir := h'.isDir.trans h.isDir
  level := h'.level.trans h.level
  owner := h'.owner.trans h.owner
  moved hx := h'.moved (h.moved hx)
  removed hx := h'.removed (h.removed hx)
  grows := h.grows.trans h'.grows
  closed hx := by
    obtain ⟨hy, hcontent⟩ := h.closed hx
    obtain ⟨hz, hcontent'⟩ := h'.closed hy
    exact ⟨hz, hcontent'.trans hcontent⟩

/-- The same node with other entries. -/
structure Node.Alike (y x : Node Name Byte) : Prop where
  isDir : y.isDir = x.isDir
  level : y.level = x.level
  owner : y.owner = x.owner
  content : y.content = x.content
  writable : y.writable = x.writable
  moved : y.moved = x.moved
  removed : y.removed = x.removed

theorem Node.Alike.refl (x : Node Name Byte) : x.Alike x := ⟨rfl, rfl, rfl, rfl, rfl, rfl, rfl⟩

namespace Tree

/-- A later version of a tree. -/
structure Extends (t t' : Tree Name Byte) : Prop where
  root : ∀ r, t.root = some r → t'.root = some r
  size : t.size ≤ t'.size
  node : ∀ n < t.size, (t.node n).Continues (t'.node n)

variable {t t' t'' : Tree Name Byte}

theorem Extends.refl (t : Tree Name Byte) : t.Extends t :=
  ⟨fun _ h => h, Nat.le_refl _, fun _ _ => .refl _⟩

theorem Extends.trans (h : t.Extends t') (h' : t'.Extends t'') : t.Extends t'' where
  root r hr := h'.root r (h.root r hr)
  size := Nat.le_trans h.size h'.size
  node n hn := (h.node n hn).trans (h'.node n (Nat.lt_of_lt_of_le hn h.size))

theorem extends_set {n : Handle} {x : Node Name Byte} (h : (t.node n).Continues x) :
    t.Extends (t.set n x) where
  root _ hr := hr
  size := Nat.le_refl _
  node m _ := by
    show (t.node m).Continues (if m = n then x else t.node m)
    split
    · rename_i heq
      rw [heq]
      exact h
    · exact .refl _

theorem extends_remove (t : Tree Name Byte) (n : Handle) : t.Extends (t.remove n) :=
  extends_set ⟨rfl, rfl, rfl, id, fun _ => rfl, List.prefix_rfl, fun h => ⟨h, rfl⟩⟩

section Named

variable {dir n : Handle} {name source target : Name} {x : Node Name Byte}

theorem extends_entries (entries : List (Name × Nat)) :
    t.Extends (t.set dir { t.node dir with entries := entries }) :=
  extends_set ⟨rfl, rfl, rfl, id, id, List.prefix_rfl, fun h => ⟨h, rfl⟩⟩

theorem extends_insert : t.Extends (t.insert dir name x) where
  root _ hr := hr
  size := Nat.le_succ _
  node m hm := by
    have hne : m ≠ t.size := Nat.ne_of_lt hm
    have hnode : (t.insert dir name x).node m =
        (t.set dir { t.node dir with entries := (name, t.size) :: (t.node dir).entries }).node m := if_neg hne
    rw [hnode]
    exact (extends_entries _).node m hm

theorem extends_detach : t.Extends (t.detach dir name) := extends_entries _

theorem extends_move : t.Extends (t.move dir source target n) := by
  have hmoved : t.Extends (t.set n { t.node n with moved := true }) :=
    extends_set ⟨rfl, rfl, rfl, fun _ => rfl, id, List.prefix_rfl, fun h => ⟨h, rfl⟩⟩
  exact hmoved.trans (extends_entries _)

/-! ## Nodes and entries behind each change -/

variable {m : Handle} {k : Name}

theorem node_insert_new : (t.insert dir name x).node t.size = x := if_pos rfl

theorem node_insert (hm : m ≠ t.size) : ((t.insert dir name x).node m).Alike (t.node m) := by
  unfold insert set
  dsimp only
  rw [if_neg hm]
  split
  · rename_i hdir
    subst hdir
    exact ⟨rfl, rfl, rfl, rfl, rfl, rfl, rfl⟩
  · exact .refl _

theorem node_detach : ((t.detach dir name).node m).Alike (t.node m) := by
  unfold detach set
  dsimp only
  split
  · rename_i hdir
    subst hdir
    exact ⟨rfl, rfl, rfl, rfl, rfl, rfl, rfl⟩
  · exact .refl _

theorem node_move_self (hn : n ≠ dir) :
    (t.move dir source target n).node n = { t.node n with moved := true } := by
  unfold move set
  dsimp only
  rw [if_neg hn, if_pos rfl]

theorem node_move (hm : m ≠ n) : ((t.move dir source target n).node m).Alike (t.node m) := by
  unfold move set
  dsimp only
  split
  · rename_i hdir
    subst hdir
    rw [if_neg hm]
    exact ⟨rfl, rfl, rfl, rfl, rfl, rfl, rfl⟩
  · exact .refl _

/-- A directory whose entries do not change keeps its node. -/
theorem node_insert_other (hm : m ≠ t.size) (hdir : m ≠ dir) :
    (t.insert dir name x).node m = t.node m := by
  unfold insert set
  dsimp only
  rw [if_neg hm, if_neg hdir]

theorem node_detach_other (hdir : m ≠ dir) : (t.detach dir name).node m = t.node m := if_neg hdir

theorem node_move_other (hm : m ≠ n) (hdir : m ≠ dir) :
    (t.move dir source target n).node m = t.node m := by
  unfold move set
  dsimp only
  rw [if_neg hdir, if_neg hm]

theorem link_eq (h : (t'.node m).entries = (t.node m).entries) : t'.link m k = t.link m k := by
  unfold link
  rw [h]

theorem link_insert (hx : x.entries = []) :
    (t.insert dir name x).link m k =
      if m = t.size then none else if m = dir ∧ name = k then some t.size else t.link m k := by
  unfold link insert set
  dsimp only
  split
  · rw [hx]
    rfl
  · split
    · rename_i hm
      rw [hm]
      dsimp only
      rw [linkIn_cons]
      by_cases hk : name = k
      · simp [hk]
      · simp [hk]
    · rename_i hm
      simp [hm]

theorem link_detach : (t.detach dir name).link m k =
    if m = dir ∧ name = k then none else t.link m k := by
  unfold link detach set
  dsimp only
  split
  · rename_i hm
    rw [hm]
    dsimp only
    rw [linkIn_without]
    by_cases hk : name = k
    · simp [hk]
    · simp [hk]
  · rename_i hm
    simp [hm]

@[simp] theorem link_remove : (t.remove n).link m k = t.link m k := by
  refine link_eq ?_
  unfold remove set
  dsimp only
  split
  · rename_i hm
    rw [hm]
  · rfl

theorem link_move (hn : n ≠ dir) : (t.move dir source target n).link m k =
    if m = dir ∧ target = k then some n
    else if m = dir ∧ source = k then none else t.link m k := by
  have hsame : ∀ (d : Handle) (l : Name), (t.set n { t.node n with moved := true }).link d l = t.link d l := by
    intro d l
    refine link_eq ?_
    unfold set
    dsimp only
    split
    · rename_i hd
      rw [hd]
    · rfl
  rw [← hsame m k]
  unfold move link set
  dsimp only
  by_cases hm : m = dir
  · subst hm
    rw [if_pos rfl, if_neg (Ne.symm hn)]
    dsimp only
    rw [linkIn_cons, linkIn_without, linkIn_without]
    by_cases ht : target = k
    · simp [ht]
    · by_cases hs : source = k
      · simp [ht, hs]
      · simp [ht, hs]
  · simp [hm]

end Named

end Tree

end FileTree
