import Mathlib.Data.List.Basic
import Mathlib.Logic.Function.Basic

/-!
# Programs that run side by side

A program is a tree of operations on a world that it shares with others.  Any number of programs
run at once, their operations interleaved in any order; a program that crashes is one that takes no
further step.

* `Prog`, `System`, `Run` — programs, and the runs of a system of them.
* `Outline` — an invariant, and for each program what the others may do meanwhile.
* `wp` — what holds when a program returns, whatever the others do in between.

Principal results: `wp_bind` — programs are verified piece by piece; `Run.sound` — where every
program keeps to its outline, the invariant holds throughout every run.
-/

namespace Programs

/-- A program: its next operation and what it does with the answer. -/
inductive Prog {Op : Type} (Answer : Op → Type) (α : Type)
  | done (a : α)
  | call (op : Op) (next : Answer op → Prog Answer α)

namespace Prog

variable {Op : Type} {Answer : Op → Type} {α β : Type}

def bind : Prog Answer α → (α → Prog Answer β) → Prog Answer β
  | .done a, f => f a
  | .call op next, f => .call op fun answer => (next answer).bind f

instance : Monad (Prog Answer) where
  pure := .done
  bind := bind

/-- One operation. -/
def perform (op : Op) : Prog Answer (Answer op) := .call op .done

end Prog

/-! ## Systems -/

/-- A call that has returned: the process, its job, how many calls had returned when it started,
and the result. -/
structure Call (Job Out : Type) where
  pid : Nat
  job : Job
  start : Nat
  out : Out

/-- What all processes share: the world, with the jobs started and the calls returned so far. -/
structure Shared (World Job Out : Type) where
  world : World
  jobs : List Job
  calls : List (Call Job Out)

structure System {Op : Type} (Answer : Op → Type) (World Job Out : Type) where
  initial : World → Prop
  step : Nat → (op : Op) → World → Answer op → World → Prop
  allowed : Job → Prop
  program : Job → Prog Answer Out

/-- A running process. -/
structure Thread {Op : Type} (Answer : Op → Type) (Job Out : Type) where
  job : Job
  start : Nat
  prog : Prog Answer Out

structure Pool {Op : Type} (Answer : Op → Type) (World Job Out : Type) where
  shared : Shared World Job Out
  threads : Nat → Option (Thread Answer Job Out)

variable {Op : Type} {Answer : Op → Type} {World Job Out : Type}

namespace Shared

variable (s : Shared World Job Out)

def start (job : Job) : Shared World Job Out := { s with jobs := s.jobs ++ [job] }

def finish (call : Call Job Out) : Shared World Job Out := { s with calls := s.calls ++ [call] }

def move (w : World) : Shared World Job Out := { s with world := w }

end Shared

namespace Pool

variable (p : Pool Answer World Job Out)

def put (i : Nat) (thread : Option (Thread Answer Job Out)) (s : Shared World Job Out) :
    Pool Answer World Job Out :=
  ⟨s, fun j => if j = i then thread else p.threads j⟩

end Pool

/-- The pools that the runs of a system reach. -/
inductive Run (sys : System Answer World Job Out) : Pool Answer World Job Out → Prop
  | init {w : World} (h : sys.initial w) : Run sys ⟨⟨w, [], []⟩, fun _ => none⟩
  | start {p : Pool Answer World Job Out} (h : Run sys p) {job : Job} (hjob : sys.allowed job) :
      Run sys (p.put p.shared.jobs.length
        (some ⟨job, p.shared.calls.length, sys.program job⟩) (p.shared.start job))
  | step {p : Pool Answer World Job Out} (h : Run sys p) {i : Nat} {job : Job} {start : Nat}
      {op : Op} {next : Answer op → Prog Answer Out} {answer : Answer op} {w : World}
      (hthread : p.threads i = some ⟨job, start, .call op next⟩)
      (hstep : sys.step i op p.shared.world answer w) :
      Run sys (p.put i (some ⟨job, start, next answer⟩) (p.shared.move w))
  | finish {p : Pool Answer World Job Out} (h : Run sys p) {i : Nat} {job : Job} {start : Nat}
      {out : Out} (hthread : p.threads i = some ⟨job, start, .done out⟩) :
      Run sys (p.put i none (p.shared.finish ⟨i, job, start, out⟩))

/-! ## Outlines -/

/-- An invariant, and for each process what the steps of the others may do. -/
structure Outline (World Job Out : Type) where
  Inv : Shared World Job Out → Prop
  Rely : Nat → Shared World Job Out → Shared World Job Out → Prop
  refl : ∀ i s, Rely i s s
  trans : ∀ i s₁ s₂ s₃, Rely i s₁ s₂ → Rely i s₂ s₃ → Rely i s₁ s₃

section Wp

variable (sys : System Answer World Job Out) (o : Outline World Job Out) (i : Nat) {α β : Type}

/-- Whatever the others do in between, every step of the program keeps the invariant and to what
the others rely on, and what it returns satisfies `Q`. -/
def wp : Prog Answer α → (α → Shared World Job Out → Prop) → Shared World Job Out → Prop
  | .done a, Q, s => ∀ s', o.Rely i s s' → o.Inv s' → Q a s'
  | .call op next, Q, s => ∀ s', o.Rely i s s' → o.Inv s' → ∀ answer w,
      sys.step i op s'.world answer w →
        o.Inv (s'.move w) ∧ (∀ j, j ≠ i → o.Rely j s' (s'.move w)) ∧
          wp (next answer) Q (s'.move w)

variable {sys o i} {p : Prog Answer α} {Q Q' : α → Shared World Job Out → Prop}
  {s s' : Shared World Job Out}

theorem wp_rely (h : wp sys o i p Q s) (hrely : o.Rely i s s') : wp sys o i p Q s' := by
  cases p with
  | done a => exact fun t ht => h t (o.trans i _ _ _ hrely ht)
  | call op next => exact fun t ht => h t (o.trans i _ _ _ hrely ht)

/-- It is enough to verify a program after any steps of the others. -/
theorem wp_after (h : ∀ t, o.Rely i s t → o.Inv t → wp sys o i p Q t) : wp sys o i p Q s := by
  cases p with
  | done a => exact fun t ht hinv => h t ht hinv t (o.refl i t) hinv
  | call op next => exact fun t ht hinv => h t ht hinv t (o.refl i t) hinv

theorem wp_mono (h : wp sys o i p Q s) (hQ : ∀ a t, Q a t → Q' a t) : wp sys o i p Q' s := by
  induction p generalizing s with
  | done a => exact fun t ht hinv => hQ a t (h t ht hinv)
  | call op next ih =>
    intro t ht hinv answer w hstep
    obtain ⟨hkept, hothers, hnext⟩ := h t ht hinv answer w hstep
    exact ⟨hkept, hothers, ih answer hnext⟩

theorem wp_bind {f : α → Prog Answer β} {R : β → Shared World Job Out → Prop}
    (h : wp sys o i p (fun a t => wp sys o i (f a) R t) s) : wp sys o i (p.bind f) R s := by
  induction p generalizing s with
  | done a => exact wp_after h
  | call op next ih =>
    intro t ht hinv answer w hstep
    obtain ⟨hkept, hothers, hnext⟩ := h t ht hinv answer w hstep
    exact ⟨hkept, hothers, ih answer hnext⟩

end Wp

/-! ## Soundness -/

/-- Every process of the system keeps to the outline, and returns what `Q` says of its number, its
job, the calls before it and the state. -/
structure Keeps (sys : System Answer World Job Out) (o : Outline World Job Out)
    (Q : Nat → Job → Nat → Out → Shared World Job Out → Prop) : Prop where
  init : ∀ w, sys.initial w → o.Inv ⟨w, [], []⟩
  start : ∀ s job, o.Inv s → sys.allowed job → o.Inv (s.start job) ∧
    (∀ j, o.Rely j s (s.start job)) ∧
      wp sys o s.jobs.length (sys.program job) (Q s.jobs.length job s.calls.length) (s.start job)
  finish : ∀ s call, o.Inv s → s.jobs[call.pid]? = some call.job → call.start ≤ s.calls.length →
    Q call.pid call.job call.start call.out s →
      o.Inv (s.finish call) ∧ ∀ j, o.Rely j s (s.finish call)

/-- What holds of a pool: the invariant, and of every process that the rest of it keeps to the
outline. -/
structure Sound (sys : System Answer World Job Out) (o : Outline World Job Out)
    (Q : Nat → Job → Nat → Out → Shared World Job Out → Prop) (p : Pool Answer World Job Out) :
    Prop where
  inv : o.Inv p.shared
  known : ∀ i thread, p.threads i = some thread → p.shared.jobs[i]? = some thread.job
  before : ∀ i thread, p.threads i = some thread → thread.start ≤ p.shared.calls.length
  keeps : ∀ i thread, p.threads i = some thread →
    wp sys o i thread.prog (Q i thread.job thread.start) p.shared

variable {sys : System Answer World Job Out} {o : Outline World Job Out}
  {Q : Nat → Job → Nat → Out → Shared World Job Out → Prop} {p : Pool Answer World Job Out}

/-- A step of one process leaves the others what they rely on. -/
theorem Sound.put (h : Sound sys o Q p) {i : Nat} {thread : Option (Thread Answer Job Out)}
    {s : Shared World Job Out} (hinv : o.Inv s) (hothers : ∀ j, j ≠ i → o.Rely j p.shared s)
    (hjobs : ∀ (j : Nat) (job : Job), p.shared.jobs[j]? = some job → s.jobs[j]? = some job)
    (hcalls : p.shared.calls.length ≤ s.calls.length)
    (hself : ∀ t, thread = some t → s.jobs[i]? = some t.job ∧ t.start ≤ s.calls.length ∧
      wp sys o i t.prog (Q i t.job t.start) s) :
    Sound sys o Q (p.put i thread s) := by
  constructor
  · exact hinv
  · intro j t ht
    unfold Pool.put at ht ⊢
    dsimp only at ht ⊢
    split at ht
    · rename_i hji
      rw [hji]
      exact (hself t ht).1
    · exact hjobs j _ (h.known j t ht)
  · intro j t ht
    unfold Pool.put at ht ⊢
    dsimp only at ht ⊢
    split at ht
    · exact (hself t ht).2.1
    · exact Nat.le_trans (h.before j t ht) hcalls
  · intro j t ht
    unfold Pool.put at ht ⊢
    dsimp only at ht ⊢
    split at ht
    · rename_i hji
      rw [hji]
      exact (hself t ht).2.2
    · rename_i hji
      exact wp_rely (h.keeps j t ht) (hothers j hji)

/-- Where every process keeps to the outline, every reachable pool is sound. -/
theorem Run.sound (hkeeps : Keeps sys o Q) (h : Run sys p) : Sound sys o Q p := by
  induction h with
  | init h => exact ⟨hkeeps.init _ h, by simp, by simp, by simp⟩
  | @start p h job hjob ih =>
    obtain ⟨hinv, hothers, hself⟩ := hkeeps.start p.shared job ih.inv hjob
    refine ih.put hinv (fun j _ => hothers j) (fun j job' hj => ?_) (Nat.le_refl _) ?_
    · rw [Shared.start, List.getElem?_append_left (List.getElem?_eq_some_iff.mp hj).1]
      exact hj
    · intro t ht
      obtain rfl := Option.some.inj ht
      refine ⟨?_, Nat.le_refl _, hself⟩
      rw [Shared.start, List.getElem?_append_right (Nat.le_refl _), Nat.sub_self]
      rfl
  | @step p h i job start op next answer w hthread hstep ih =>
    obtain ⟨hinv, hothers, hnext⟩ :=
      ih.keeps i _ hthread _ (o.refl i _) ih.inv answer w hstep
    have hknown := ih.known i _ hthread
    have hbefore := ih.before i _ hthread
    refine ih.put hinv hothers (fun _ _ hj => hj) (Nat.le_refl _) ?_
    intro t ht
    obtain rfl := Option.some.inj ht
    exact ⟨hknown, hbefore, hnext⟩
  | @finish p h i job start out hthread ih =>
    have hQ := ih.keeps i _ hthread _ (o.refl i _) ih.inv
    obtain ⟨hinv, hothers⟩ := hkeeps.finish p.shared ⟨i, job, start, out⟩ ih.inv
      (ih.known i _ hthread) (ih.before i _ hthread) hQ
    refine ih.put hinv (fun j _ => hothers j) (fun _ _ hj => hj) ?_ (fun t ht => by cases ht)
    rw [Shared.finish, List.length_append]
    exact Nat.le_add_right _ _

end Programs
