/-!
# Transactions over a fallible store

A body is a program of statements, token draws and failure points.  `run` executes it on a
connection under a fault plan that may strike at any statement or failure point; `eval` is the
meaning of the same program on the tables alone.

* `transact` — begin, run the body, then commit or roll back; roll back on any error.

Principal results: `run_ok` — a run that ends normally computed exactly `eval`;
`transact_outcome` — a transaction leaves none open and either commits the tables that `eval`
gives or leaves the committed tables as they were; `transact_of_commit`, `transact_of_rollback`,
`transact_of_error` — without faults it ends as `eval` says.
-/

namespace Transaction

/-- A program over tables `T` that may raise `ε`. -/
inductive Prog (T ε α : Type) : Type 1 where
  | ret (a : α)
  | fail (e : ε)
  | stmt {β : Type} (f : T → Except ε (β × T)) (next : β → Prog T ε α)
  | draw (next : Nat → Prog T ε α)
  | point (next : Prog T ε α)

variable {T ε α β : Type}

def Prog.bind : Prog T ε α → (α → Prog T ε β) → Prog T ε β
  | .ret a, g => g a
  | .fail e, _ => .fail e
  | .stmt f next, g => .stmt f fun b => (next b).bind g
  | .draw next, g => .draw fun n => (next n).bind g
  | .point next, g => .point (next.bind g)

instance : Monad (Prog T ε) where
  pure := .ret
  bind := Prog.bind

/-- A statement that changes the tables. -/
def execute (f : T → Except ε T) : Prog T ε Unit :=
  .stmt (fun t => (f t).map fun t' => ((), t')) .ret

/-- A statement that reads the tables. -/
def query (f : T → Except ε α) : Prog T ε α := .stmt (fun t => (f t).map fun a => (a, t)) .ret

/-- A place where an interruption may strike. -/
def failurePoint : Prog T ε Unit := .point (.ret ())

/-- A number never drawn before. -/
def fresh : Prog T ε Nat := .draw .ret

def raise (e : ε) : Prog T ε α := .fail e

def ofExcept : Except ε α → Prog T ε α
  | .ok a => .ret a
  | .error e => .fail e

/-- One statement for each item, in order. -/
def forEach (f : α → T → Except ε T) : List α → Prog T ε Unit
  | [] => pure ()
  | a :: rest => do
    execute (f a)
    forEach f rest

/-! ## Meaning on the tables -/

def Prog.eval : Prog T ε α → T → Nat → Except ε (α × T × Nat)
  | .ret a, t, n => .ok (a, t, n)
  | .fail e, _, _ => .error e
  | .stmt f next, t, n =>
    match f t with
    | .ok (b, t') => (next b).eval t' n
    | .error e => .error e
  | .draw next, t, n => (next n).eval t (n + 1)
  | .point next, t, n => next.eval t n

/-- `p` may end with `a`, taking tables `t` and draw count `n` to `t'` and `n'`. -/
def Ends (p : Prog T ε α) (t : T) (n : Nat) (a : α) (t' : T) (n' : Nat) : Prop :=
  p.eval t n = .ok (a, t', n')

section Rules

variable {t t' : T} {n n' : Nat}

@[simp] theorem ends_pure {a b : α} :
    Ends (pure a : Prog T ε α) t n b t' n' ↔ a = b ∧ t = t' ∧ n = n' := by
  simp [Ends, pure, Prog.eval]

theorem eval_bind (p : Prog T ε α) (g : α → Prog T ε β) (t : T) (n : Nat) :
    (p.bind g).eval t n =
      match p.eval t n with
      | .ok (a, t', n') => (g a).eval t' n'
      | .error e => .error e := by
  induction p generalizing t n with
  | ret a => rfl
  | fail e => rfl
  | stmt f next ih =>
    simp only [Prog.bind, Prog.eval]
    cases f t with
    | error e => rfl
    | ok p => exact ih p.1 p.2 n
  | draw next ih => exact ih n t (n + 1)
  | point next ih => exact ih t n

theorem ends_bind {p : Prog T ε α} {g : α → Prog T ε β} {b : β} :
    Ends (p >>= g) t n b t' n' ↔ ∃ a t₁ n₁, Ends p t n a t₁ n₁ ∧ Ends (g a) t₁ n₁ b t' n' := by
  have h := eval_bind p g t n
  change Prog.eval (p.bind g) t n = _ ↔ _
  rw [h]
  cases hp : p.eval t n with
  | error e => simp [Ends, hp]
  | ok r =>
    obtain ⟨a, t₁, n₁⟩ := r
    simp only [Ends, hp, Except.ok.injEq, Prod.mk.injEq]
    constructor
    · intro hg
      exact ⟨a, t₁, n₁, ⟨rfl, rfl, rfl⟩, hg⟩
    · rintro ⟨a', t₂, n₂, ⟨rfl, rfl, rfl⟩, hg⟩
      exact hg

@[simp] theorem ends_execute {f : T → Except ε T} {u : Unit} :
    Ends (execute f) t n u t' n' ↔ f t = .ok t' ∧ n = n' := by
  simp only [Ends, execute, Prog.eval]
  cases f t <;> simp [Except.map]

@[simp] theorem ends_query {f : T → Except ε α} {a : α} :
    Ends (query f) t n a t' n' ↔ f t = .ok a ∧ t = t' ∧ n = n' := by
  simp only [Ends, query, Prog.eval]
  cases f t <;> simp [Except.map]

@[simp] theorem ends_failurePoint {u : Unit} :
    Ends (failurePoint : Prog T ε Unit) t n u t' n' ↔ t = t' ∧ n = n' := by
  simp [Ends, failurePoint, Prog.eval]

@[simp] theorem ends_fresh {k : Nat} :
    Ends (fresh : Prog T ε Nat) t n k t' n' ↔ k = n ∧ t = t' ∧ n' = n + 1 := by
  simp only [Ends, fresh, Prog.eval, Except.ok.injEq, Prod.mk.injEq]
  constructor
  · rintro ⟨rfl, rfl, rfl⟩; exact ⟨rfl, rfl, rfl⟩
  · rintro ⟨rfl, rfl, rfl⟩; exact ⟨rfl, rfl, rfl⟩

@[simp] theorem ends_raise {e : ε} {a : α} : ¬ Ends (raise e : Prog T ε α) t n a t' n' := by
  simp [Ends, raise, Prog.eval]

@[simp] theorem ends_ofExcept {x : Except ε α} {a : α} :
    Ends (ofExcept x : Prog T ε α) t n a t' n' ↔ x = .ok a ∧ t = t' ∧ n = n' := by
  cases x <;> simp [Ends, ofExcept, Prog.eval]

/-- Running the statements of a list is folding them over the tables. -/
theorem ends_forEach {f : α → T → Except ε T} {as : List α} {u : Unit} :
    Ends (forEach f as) t n u t' n' ↔ as.foldlM (fun t a => f a t) t = .ok t' ∧ n = n' := by
  induction as generalizing t with
  | nil =>
    rw [forEach, ends_pure, List.foldlM_nil]
    simp [pure, Except.pure]
  | cons a rest ih =>
    rw [forEach, ends_bind, List.foldlM_cons]
    cases hf : f a t with
    | error e => simp [hf, bind, Except.bind]
    | ok t₁ =>
      have hbind : (Except.ok t₁ >>= fun t => rest.foldlM (fun t a => f a t) t) =
          rest.foldlM (fun t a => f a t) t₁ := rfl
      simp only [ends_execute, hf, hbind, Except.ok.injEq]
      constructor
      · rintro ⟨-, t₂, n₂, ⟨rfl, rfl⟩, hrest⟩
        exact ih.mp hrest
      · intro hrest
        exact ⟨(), t₁, n, ⟨rfl, rfl⟩, ih.mpr hrest⟩

/-! One statement and the rest of the program. -/

variable {b : β}

@[simp] theorem ends_execute_bind {f : T → Except ε T} {g : Unit → Prog T ε β} :
    Ends (execute f >>= g) t n b t' n' ↔ ∃ t₁, f t = .ok t₁ ∧ Ends (g ()) t₁ n b t' n' := by
  simp only [ends_bind, ends_execute]
  constructor
  · rintro ⟨_, t₁, _, ⟨hf, rfl⟩, hg⟩
    exact ⟨t₁, hf, hg⟩
  · rintro ⟨t₁, hf, hg⟩
    exact ⟨(), t₁, n, ⟨hf, rfl⟩, hg⟩

@[simp] theorem ends_query_bind {f : T → Except ε α} {g : α → Prog T ε β} :
    Ends (query f >>= g) t n b t' n' ↔ ∃ a, f t = .ok a ∧ Ends (g a) t n b t' n' := by
  simp only [ends_bind, ends_query]
  constructor
  · rintro ⟨a, _, _, ⟨hf, rfl, rfl⟩, hg⟩
    exact ⟨a, hf, hg⟩
  · rintro ⟨a, hf, hg⟩
    exact ⟨a, t, n, ⟨hf, rfl, rfl⟩, hg⟩

@[simp] theorem ends_failurePoint_bind {g : Unit → Prog T ε β} :
    Ends (failurePoint >>= g) t n b t' n' ↔ Ends (g ()) t n b t' n' := by
  simp only [ends_bind, ends_failurePoint]
  constructor
  · rintro ⟨_, _, _, ⟨rfl, rfl⟩, hg⟩
    exact hg
  · intro hg
    exact ⟨(), t, n, ⟨rfl, rfl⟩, hg⟩

@[simp] theorem ends_fresh_bind {g : Nat → Prog T ε β} :
    Ends (fresh >>= g) t n b t' n' ↔ Ends (g n) t (n + 1) b t' n' := by
  simp only [ends_bind, ends_fresh]
  constructor
  · rintro ⟨_, _, _, ⟨rfl, rfl, rfl⟩, hg⟩
    exact hg
  · intro hg
    exact ⟨n, t, n + 1, ⟨rfl, rfl, rfl⟩, hg⟩

@[simp] theorem ends_ofExcept_bind {x : Except ε α} {g : α → Prog T ε β} :
    Ends (ofExcept x >>= g) t n b t' n' ↔ ∃ a, x = .ok a ∧ Ends (g a) t n b t' n' := by
  simp only [ends_bind, ends_ofExcept]
  constructor
  · rintro ⟨a, _, _, ⟨hx, rfl, rfl⟩, hg⟩
    exact ⟨a, hx, hg⟩
  · rintro ⟨a, hx, hg⟩
    exact ⟨a, t, n, ⟨hx, rfl, rfl⟩, hg⟩

@[simp] theorem ends_forEach_bind {f : α → T → Except ε T} {as : List α} {g : Unit → Prog T ε β} :
    Ends (forEach f as >>= g) t n b t' n' ↔
      ∃ t₁, as.foldlM (fun t a => f a t) t = .ok t₁ ∧ Ends (g ()) t₁ n b t' n' := by
  simp only [ends_bind, ends_forEach]
  constructor
  · rintro ⟨_, t₁, _, ⟨hf, rfl⟩, hg⟩
    exact ⟨t₁, hf, hg⟩
  · rintro ⟨t₁, hf, hg⟩
    exact ⟨(), t₁, n, ⟨hf, rfl⟩, hg⟩

end Rules

/-! ## Connections and faults -/

/-- Committed tables, the tables of an open transaction, and two counters. -/
structure Conn (T : Type) where
  committed : T
  working : Option T
  draws : Nat
  ticks : Nat

def Conn.tables (c : Conn T) : T := c.working.getD c.committed

def Conn.begin (c : Conn T) : Conn T := { c with working := some c.committed }

def Conn.rollback (c : Conn T) : Conn T := { c with working := none }

def Conn.commit (c : Conn T) : Conn T := { c with committed := c.tables, working := none }

/-- Outside a transaction a statement commits at once. -/
def Conn.store (c : Conn T) (t : T) : Conn T :=
  match c.working with
  | some _ => { c with working := some t }
  | none => { c with committed := t }

def Conn.tick (c : Conn T) : Conn T := { c with ticks := c.ticks + 1 }

/-- The connection of a fault-free store holding `t`. -/
def Conn.idle (t : T) (draws : Nat) : Conn T := ⟨t, none, draws, 0⟩

/-- What strikes at each tick, if anything. -/
abbrev Faults (ε : Type) := Nat → Option ε

def noFaults : Faults ε := fun _ => none

def Prog.run (faults : Faults ε) : Prog T ε α → Conn T → Except ε α × Conn T
  | .ret a, c => (.ok a, c)
  | .fail e, c => (.error e, c)
  | .stmt f next, c =>
    match faults c.ticks with
    | some e => (.error e, c.tick)
    | none =>
      match f c.tables with
      | .ok (b, t) => (next b).run faults (c.tick.store t)
      | .error e => (.error e, c.tick)
  | .draw next, c => (next c.draws).run faults { c with draws := c.draws + 1 }
  | .point next, c =>
    match faults c.ticks with
    | some e => (.error e, c.tick)
    | none => next.run faults c.tick

/-- How a body asks its transaction to end. -/
inductive Finish
  | commit
  | rollback
  deriving DecidableEq, Repr

/-- Begin, run the body, commit or roll back; any error rolls back and is raised again. -/
def transact (faults : Faults ε) (body : Prog T ε (Finish × α)) (c : Conn T) :
    Except ε α × Conn T :=
  match faults c.ticks with
  | some e => (.error e, c.tick)
  | none =>
    match body.run faults c.tick.begin with
    | (.error e, c') => (.error e, c'.rollback)
    | (.ok (.rollback, a), c') => (.ok a, c'.rollback)
    | (.ok (.commit, a), c') =>
      match faults c'.ticks with
      | some e => (.error e, c'.tick.rollback)
      | none => (.ok a, c'.tick.commit)

/-! ## Atomicity -/

/-- Inside a transaction a run touches only the working tables, and draws only grow. -/
theorem run_frame (faults : Faults ε) (p : Prog T ε α) (c : Conn T) (h : c.working.isSome) :
    (p.run faults c).2.committed = c.committed ∧ (p.run faults c).2.working.isSome ∧
      c.draws ≤ (p.run faults c).2.draws := by
  induction p generalizing c with
  | ret a => exact ⟨rfl, h, Nat.le_refl _⟩
  | fail e => exact ⟨rfl, h, Nat.le_refl _⟩
  | stmt f next ih =>
    unfold Prog.run
    split
    · exact ⟨rfl, h, Nat.le_refl _⟩
    split
    · rename_i b t _
      obtain ⟨w, hw⟩ := Option.isSome_iff_exists.mp h
      have hs : c.tick.store t = { c.tick with working := some t } := by
        simp [Conn.store, Conn.tick, hw]
      rw [hs]
      exact ih b { c.tick with working := some t } rfl
    · exact ⟨rfl, h, Nat.le_refl _⟩
  | draw next ih =>
    obtain ⟨h1, h2, h3⟩ := ih c.draws { c with draws := c.draws + 1 } h
    exact ⟨h1, h2, Nat.le_trans (Nat.le_succ _) h3⟩
  | point next ih =>
    unfold Prog.run
    split
    · exact ⟨rfl, h, Nat.le_refl _⟩
    · exact ih c.tick h

theorem run_ok (faults : Faults ε) (p : Prog T ε α) (c c' : Conn T) (a : α)
    (h : c.working.isSome) (hrun : p.run faults c = (.ok a, c')) :
    Ends p c.tables c.draws a c'.tables c'.draws := by
  unfold Ends
  induction p generalizing c with
  | ret b =>
    simp only [Prog.run, Prod.mk.injEq, Except.ok.injEq] at hrun
    obtain ⟨rfl, rfl⟩ := hrun
    rfl
  | fail e => simp [Prog.run] at hrun
  | stmt f next ih =>
    unfold Prog.run at hrun
    split at hrun
    · simp at hrun
    split at hrun
    · rename_i b t hf
      obtain ⟨w, hw⟩ := Option.isSome_iff_exists.mp h
      have hs : c.tick.store t = { c.tick with working := some t } := by
        simp [Conn.store, Conn.tick, hw]
      rw [hs] at hrun
      have hnext := ih b { c.tick with working := some t } rfl hrun
      simp only [Prog.eval, hf]
      exact hnext
    · simp at hrun
  | draw next ih => exact ih c.draws { c with draws := c.draws + 1 } h hrun
  | point next ih =>
    unfold Prog.run at hrun
    split at hrun
    · simp at hrun
    · exact ih c.tick h hrun

/-- What a transaction on an idle connection can do. -/
inductive Outcome (body : Prog T ε (Finish × α)) (c : Conn T) : Except ε α → Conn T → Prop
  | failed {e : ε} {c' : Conn T} (same : c'.committed = c.committed) (idle : c'.working = none)
      (draws : c.draws ≤ c'.draws) : Outcome body c (.error e) c'
  | rolledBack {a : α} {c' : Conn T} {t : T} {n : Nat} (same : c'.committed = c.committed)
      (idle : c'.working = none) (draws : c.draws ≤ c'.draws)
      (ends : Ends body c.committed c.draws (.rollback, a) t n) : Outcome body c (.ok a) c'
  | committed {a : α} {c' : Conn T} (idle : c'.working = none)
      (draws : c.draws ≤ c'.draws)
      (ends : Ends body c.committed c.draws (.commit, a) c'.committed c'.draws) :
      Outcome body c (.ok a) c'

theorem transact_outcome (faults : Faults ε) (body : Prog T ε (Finish × α)) (c : Conn T)
    (hidle : c.working = none) :
    Outcome body c (transact faults body c).1 (transact faults body c).2 := by
  unfold transact
  split
  · exact .failed rfl hidle (Nat.le_refl _)
  have hframe := run_frame faults body c.tick.begin rfl
  split
  · rename_i e c' hrun
    rw [hrun] at hframe
    exact .failed hframe.1 rfl hframe.2.2
  · rename_i a c' hrun
    rw [hrun] at hframe
    exact .rolledBack hframe.1 rfl hframe.2.2 (run_ok faults body c.tick.begin c' _ rfl hrun)
  · rename_i a c' hrun
    rw [hrun] at hframe
    split
    · exact .failed hframe.1 rfl hframe.2.2
    · exact .committed rfl hframe.2.2 (run_ok faults body c.tick.begin c' _ rfl hrun)

/-! ## Without faults -/

/-- Without faults a run ends as the program does on the tables. -/
theorem run_of_ends {p : Prog T ε α} {c : Conn T} {t' : T} {n' : Nat} {a : α}
    (hopen : c.working.isSome) (h : Ends p c.tables c.draws a t' n') :
    ∃ c', p.run noFaults c = (.ok a, c') ∧ c'.working = some t' ∧ c'.committed = c.committed ∧
      c'.draws = n' := by
  unfold Ends at h
  induction p generalizing c with
  | ret b =>
    simp only [Prog.eval, Except.ok.injEq, Prod.mk.injEq] at h
    obtain ⟨rfl, rfl, rfl⟩ := h
    obtain ⟨w, hw⟩ := Option.isSome_iff_exists.mp hopen
    exact ⟨c, rfl, by simp [Conn.tables, hw], rfl, rfl⟩
  | fail e => cases h
  | stmt f next ih =>
    cases hf : f c.tables with
    | error e => simp [Prog.eval, hf] at h
    | ok r =>
      obtain ⟨b, t⟩ := r
      obtain ⟨w, hw⟩ := Option.isSome_iff_exists.mp hopen
      have hs : c.tick.store t = { c.tick with working := some t } := by
        simp [Conn.store, Conn.tick, hw]
      simp only [Prog.eval, hf] at h
      obtain ⟨c', hrun, hrest⟩ := ih b (c := { c.tick with working := some t }) rfl h
      refine ⟨c', ?_, hrest⟩
      simp only [Prog.run, noFaults, hf, hs]
      exact hrun
  | draw next ih =>
    obtain ⟨c', hrun, hrest⟩ := ih c.draws (c := { c with draws := c.draws + 1 }) hopen h
    exact ⟨c', hrun, hrest⟩
  | point next ih =>
    obtain ⟨c', hrun, hrest⟩ := ih (c := c.tick) hopen h
    exact ⟨c', hrun, hrest⟩

/-- Without faults a run raises what the program raises on the tables. -/
theorem run_of_error {p : Prog T ε α} {c : Conn T} {e : ε} (hopen : c.working.isSome)
    (h : p.eval c.tables c.draws = .error e) : ∃ c', p.run noFaults c = (.error e, c') ∧
      c'.committed = c.committed := by
  induction p generalizing c with
  | ret b => cases h
  | fail e' =>
    cases h
    exact ⟨c, rfl, rfl⟩
  | stmt f next ih =>
    obtain ⟨w, hw⟩ := Option.isSome_iff_exists.mp hopen
    cases hf : f c.tables with
    | error e' =>
      simp only [Prog.eval, hf, Except.error.injEq] at h
      subst h
      exact ⟨c.tick, by simp only [Prog.run, noFaults, hf], rfl⟩
    | ok r =>
      obtain ⟨b, t⟩ := r
      have hs : c.tick.store t = { c.tick with working := some t } := by
        simp [Conn.store, Conn.tick, hw]
      simp only [Prog.eval, hf] at h
      obtain ⟨c', hrun, hrest⟩ := ih b (c := { c.tick with working := some t }) rfl h
      refine ⟨c', ?_, hrest⟩
      simp only [Prog.run, noFaults, hf, hs]
      exact hrun
  | draw next ih =>
    obtain ⟨c', hrun, hrest⟩ := ih c.draws (c := { c with draws := c.draws + 1 }) hopen h
    exact ⟨c', hrun, hrest⟩
  | point next ih =>
    obtain ⟨c', hrun, hrest⟩ := ih (c := c.tick) hopen h
    exact ⟨c', hrun, hrest⟩

/-- A transaction without faults whose body raises keeps the tables and raises the same. -/
theorem transact_of_error {body : Prog T ε (Finish × α)} {c : Conn T} {e : ε}
    (h : body.eval c.committed c.draws = .error e) :
    ∃ c', transact noFaults body c = (.error e, c') ∧ c'.committed = c.committed := by
  obtain ⟨c', hrun, hcommitted⟩ := run_of_error (c := c.tick.begin) rfl h
  refine ⟨c'.rollback, ?_, hcommitted⟩
  unfold transact
  simp only [noFaults] at hrun ⊢
  simp only [hrun]

/-- A transaction without faults whose body asks for a commit installs what the body computes. -/
theorem transact_of_commit {body : Prog T ε (Finish × α)} {c : Conn T} {a : α} {t' : T} {n' : Nat}
    (h : Ends body c.committed c.draws (.commit, a) t' n') :
    ∃ c', transact noFaults body c = (.ok a, c') ∧ c'.committed = t' ∧ c'.working = none ∧
      c'.draws = n' := by
  obtain ⟨c', hrun, hworking, -, hdraws⟩ := run_of_ends (c := c.tick.begin) rfl h
  refine ⟨c'.tick.commit, ?_, ?_, rfl, hdraws⟩
  · unfold transact
    simp only [noFaults] at hrun ⊢
    simp only [hrun]
  · simp [Conn.commit, Conn.tick, Conn.tables, hworking]

/-- A transaction without faults whose body asks for a rollback only reads. -/
theorem transact_of_rollback {body : Prog T ε (Finish × α)} {c : Conn T} {a : α} {t' : T} {n' : Nat}
    (h : Ends body c.committed c.draws (.rollback, a) t' n') :
    ∃ c', transact noFaults body c = (.ok a, c') ∧ c'.committed = c.committed ∧
      c'.working = none ∧ c'.draws = n' := by
  obtain ⟨c', hrun, -, hcommitted, hdraws⟩ := run_of_ends (c := c.tick.begin) rfl h
  refine ⟨c'.rollback, ?_, hcommitted, rfl, hdraws⟩
  unfold transact
  simp only [noFaults] at hrun ⊢
  simp only [hrun]

end Transaction
