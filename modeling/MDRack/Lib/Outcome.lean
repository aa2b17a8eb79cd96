/-!
# Outcomes of fallible calls

`Yields fails post x` — the call `x` ends well with a value that meets `post`, or fails with an
error that meets `fails`.  The rules follow the shape of the program: one for a bind, one for a
map, one for a weaker postcondition.
-/

namespace Outcome

variable {ε α β : Type} {fails : ε → Prop} {post : α → Prop}

def Yields (fails : ε → Prop) (post : α → Prop) : Except ε α → Prop
  | .ok a => post a
  | .error e => fails e

@[simp] theorem yields_ok {a : α} : Yields fails post (.ok a) ↔ post a := Iff.rfl

@[simp] theorem yields_error {e : ε} : Yields fails post (.error e : Except ε α) ↔ fails e := Iff.rfl

theorem ok_bind (a : α) (f : α → Except ε β) : ((.ok a : Except ε α) >>= f) = f a := rfl

theorem error_bind (e : ε) (f : α → Except ε β) : ((.error e : Except ε α) >>= f) = .error e := rfl

theorem Yields.bind {x : Except ε α} {f : α → Except ε β} {next : β → Prop}
    (hx : Yields fails post x) (hf : ∀ a, x = .ok a → post a → Yields fails next (f a)) :
    Yields fails next (x >>= f) := by
  cases x with
  | ok a => exact hf a rfl hx
  | error e => exact hx

theorem Yields.map {x : Except ε α} {f : α → β} {next : β → Prop}
    (hx : Yields fails (fun a => next (f a)) x) : Yields fails next (x.map f) := by
  cases x with
  | ok a => exact hx
  | error e => exact hx

theorem Yields.mono {x : Except ε α} {fails' : ε → Prop} {post' : α → Prop}
    (hx : Yields fails post x) (hfails : ∀ e, fails e → fails' e)
    (hpost : ∀ a, post a → post' a) : Yields fails' post' x := by
  cases x with
  | ok a => exact hpost a hx
  | error e => exact hfails e hx

theorem Yields.of_ok {x : Except ε α} {a : α} (hx : Yields fails post x) (h : x = .ok a) : post a := by
  subst h
  exact hx

theorem Yields.of_error {x : Except ε α} {e : ε} (hx : Yields fails post x) (h : x = .error e) :
    fails e := by
  subst h
  exact hx

end Outcome
