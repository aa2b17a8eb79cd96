import Mathlib.Data.List.Forall2

/-!
# Sequences of checks

Validators are written as checks in `Except`.  The rules here turn "the validator accepts" into
the conjunction of what its checks say.
-/

namespace Checks

variable {ε α β : Type}

/-- Raise `e` unless the condition holds. -/
def require (c : Prop) [Decidable c] (e : ε) : Except ε Unit := if c then .ok () else .error e

/-- Check every item, in order. -/
def checkAll (f : α → Except ε Unit) : List α → Except ε Unit
  | [] => .ok ()
  | a :: rest => do
    f a
    checkAll f rest

/-- Convert every item, in order. -/
def mapAll (f : α → Except ε β) : List α → Except ε (List β)
  | [] => .ok []
  | a :: rest => do
    let b ← f a
    let bs ← mapAll f rest
    .ok (b :: bs)

/-- Keep the items that a check selects, in order. -/
def keepAll (f : α → Except ε Bool) : List α → Except ε (List α)
  | [] => .ok []
  | a :: rest => do
    let keep ← f a
    let kept ← keepAll f rest
    .ok (if keep then a :: kept else kept)

/-- A value that must be there. -/
def getOr (e : ε) : Option α → Except ε α
  | some a => .ok a
  | none => .error e

@[simp] theorem require_ok {c : Prop} [Decidable c] {e : ε} {u : Unit} :
    require c e = .ok u ↔ c := by
  unfold require
  split <;> simp [*]

@[simp] theorem getOr_ok {e : ε} {o : Option α} {a : α} : getOr e o = .ok a ↔ o = some a := by
  cases o <;> simp [getOr]

@[simp] theorem bind_ok {x : Except ε α} {f : α → Except ε β} {b : β} :
    x >>= f = .ok b ↔ ∃ a, x = .ok a ∧ f a = .ok b := by
  cases x <;> simp [bind, Except.bind]

/-- The first computation that raises ends the sequence. -/
theorem bind_error {x : Except ε α} {f : α → Except ε β} {e : ε} :
    x >>= f = .error e ↔ x = .error e ∨ ∃ a, x = .ok a ∧ f a = .error e := by
  cases x <;> simp [bind, Except.bind]

theorem require_error {c : Prop} [Decidable c] {e e' : ε} :
    require c e = .error e' ↔ ¬ c ∧ e = e' := by
  unfold require
  split <;> simp_all

theorem getOr_error {e e' : ε} {o : Option α} : getOr e o = .error e' ↔ o = none ∧ e = e' := by
  cases o <;> simp [getOr]

theorem map_ok {x : Except ε α} {f : α → β} {b : β} : x.map f = .ok b ↔ ∃ a, x = .ok a ∧ f a = b := by
  cases x <;> simp [Except.map]

@[simp] theorem checkAll_ok {f : α → Except ε Unit} {as : List α} {u : Unit} :
    checkAll f as = .ok u ↔ ∀ a ∈ as, f a = .ok () := by
  induction as with
  | nil => simp [checkAll]
  | cons a rest ih =>
    rw [checkAll, bind_ok, List.forall_mem_cons]
    constructor
    · rintro ⟨u, ha, hrest⟩
      exact ⟨ha, ih.mp hrest⟩
    · rintro ⟨ha, hrest⟩
      exact ⟨(), ha, ih.mpr hrest⟩

/-- A successful loop ran each of its steps. -/
theorem foldlM_steps {step : β → α → Except ε β} {as : List α} {b b' : β}
    (h : as.foldlM step b = .ok b') : ∀ a ∈ as, ∃ c c', step c a = .ok c' := by
  induction as generalizing b with
  | nil => simp
  | cons a rest ih =>
    rw [List.foldlM_cons] at h
    obtain ⟨b₁, hstep, hrest⟩ := bind_ok.mp h
    intro x hx
    rcases List.mem_cons.mp hx with rfl | hx
    · exact ⟨b, b₁, hstep⟩
    · exact ih hrest x hx

/-- What the steps of a successful loop preserve holds before each of them and at its end. -/
theorem foldlM_invariant {I : β → Prop} {step : β → α → Except ε β} {as : List α} {b b' : β}
    (hstep : ∀ a ∈ as, ∀ c c', I c → step c a = .ok c' → I c') (hb : I b)
    (h : as.foldlM step b = .ok b') : I b' ∧ ∀ a ∈ as, ∃ c c', I c ∧ step c a = .ok c' := by
  induction as generalizing b with
  | nil =>
    obtain rfl := Except.ok.inj h
    exact ⟨hb, by simp⟩
  | cons a rest ih =>
    rw [List.foldlM_cons] at h
    obtain ⟨b₁, hfirst, hrest⟩ := bind_ok.mp h
    have hb₁ := hstep a List.mem_cons_self b b₁ hb hfirst
    obtain ⟨hlast, hsteps⟩ := ih (fun x hx => hstep x (List.mem_cons_of_mem _ hx)) hb₁ hrest
    exact ⟨hlast, List.forall_mem_cons.mpr ⟨⟨b, b₁, hb, hfirst⟩, hsteps⟩⟩

/-- A loop succeeds whose steps do, wherever its invariant holds. -/
theorem foldlM_total {I : β → Prop} {step : β → α → Except ε β} {as : List α} {b : β}
    (hstep : ∀ a ∈ as, ∀ c, I c → ∃ c', step c a = .ok c' ∧ I c') (hb : I b) :
    ∃ b', as.foldlM step b = .ok b' := by
  induction as generalizing b with
  | nil => exact ⟨b, rfl⟩
  | cons a rest ih =>
    obtain ⟨b₁, hfirst, hb₁⟩ := hstep a List.mem_cons_self b hb
    obtain ⟨b', hrest⟩ := ih (fun x hx => hstep x (List.mem_cons_of_mem _ hx)) hb₁
    exact ⟨b', by rw [List.foldlM_cons, bind_ok]; exact ⟨b₁, hfirst, hrest⟩⟩

/-- A list converts when each item does. -/
theorem mapAll_of_forall {f : α → Except ε β} {g : α → β} {as : List α}
    (h : ∀ a ∈ as, f a = .ok (g a)) : mapAll f as = .ok (as.map g) := by
  induction as with
  | nil => rfl
  | cons a rest ih =>
    simp only [mapAll, bind_ok]
    refine ⟨g a, h a List.mem_cons_self, rest.map g, ih fun b hb => h b ?_, rfl⟩
    exact List.mem_cons_of_mem _ hb

theorem keepAll_of_forall {f : α → Except ε Bool} {g : α → Bool} {as : List α}
    (h : ∀ a ∈ as, f a = .ok (g a)) : keepAll f as = .ok (as.filter g) := by
  induction as with
  | nil => rfl
  | cons a rest ih =>
    simp only [keepAll, bind_ok, List.filter_cons]
    exact ⟨g a, h a List.mem_cons_self, rest.filter g,
      ih fun b hb => h b (List.mem_cons_of_mem _ hb), rfl⟩

/-- What is kept are the selected items, and every item was checked. -/
theorem keepAll_ok {f : α → Except ε Bool} {as bs : List α} (h : keepAll f as = .ok bs) :
    bs.Sublist as ∧ ∀ a, a ∈ bs ↔ a ∈ as ∧ f a = .ok true := by
  induction as generalizing bs with
  | nil =>
    cases h
    exact ⟨.slnil, by simp⟩
  | cons x rest ih =>
    simp only [keepAll, bind_ok, Except.ok.injEq] at h
    obtain ⟨keep, hkeep, kept, hkept, rfl⟩ := h
    obtain ⟨hsub, hmem⟩ := ih hkept
    cases keep with
    | false =>
      refine ⟨hsub.cons x, fun a => ?_⟩
      rw [if_neg Bool.false_ne_true, hmem, List.mem_cons]
      constructor
      · exact fun ⟨ha, hf⟩ => ⟨.inr ha, hf⟩
      · rintro ⟨rfl | ha, hf⟩
        · rw [hkeep] at hf
          cases hf
        · exact ⟨ha, hf⟩
    | true =>
      refine ⟨hsub.cons_cons x, fun a => ?_⟩
      rw [if_pos rfl, List.mem_cons, List.mem_cons, hmem]
      constructor
      · rintro (rfl | ⟨ha, hf⟩)
        · exact ⟨.inl rfl, hkeep⟩
        · exact ⟨.inr ha, hf⟩
      · rintro ⟨rfl | ha, hf⟩
        · exact .inl rfl
        · exact .inr ⟨ha, hf⟩

theorem mapAll_congr {f g : α → Except ε β} {as : List α} (h : ∀ a ∈ as, f a = g a) :
    mapAll f as = mapAll g as := by
  induction as with
  | nil => rfl
  | cons a rest ih =>
    rw [mapAll, mapAll, h a List.mem_cons_self, ih fun b hb => h b (List.mem_cons_of_mem _ hb)]

/-- Conversion reads a list of images back. -/
theorem mapAll_map_of_mem {f : β → Except ε α} {g : α → β} {as : List α}
    (h : ∀ a ∈ as, f (g a) = .ok a) : mapAll f (as.map g) = .ok as := by
  induction as with
  | nil => rfl
  | cons a rest ih =>
    simp only [List.map_cons, mapAll, bind_ok]
    exact ⟨a, h a List.mem_cons_self, rest, ih fun b hb => h b (List.mem_cons_of_mem _ hb), rfl⟩

theorem mapAll_map {f : β → Except ε α} {g : α → β} (h : ∀ a, f (g a) = .ok a) (as : List α) :
    mapAll f (as.map g) = .ok as := mapAll_map_of_mem fun a _ => h a

theorem mapAll_ok_mem {f : α → Except ε β} {as : List α} {bs : List β} (h : mapAll f as = .ok bs) :
    ∀ b ∈ bs, ∃ a ∈ as, f a = .ok b := by
  induction as generalizing bs with
  | nil =>
    simp only [mapAll, Except.ok.injEq] at h
    subst h
    simp
  | cons a rest ih =>
    simp only [mapAll, bind_ok, Except.ok.injEq] at h
    obtain ⟨b, hb, bs', hbs, rfl⟩ := h
    intro c hc
    rcases List.mem_cons.mp hc with rfl | hc
    · exact ⟨a, List.mem_cons_self, hb⟩
    · obtain ⟨a', ha', hc'⟩ := ih hbs c hc
      exact ⟨a', List.mem_cons_of_mem _ ha', hc'⟩

theorem mapAll_ok_mem_of_mem {f : α → Except ε β} {as : List α} {bs : List β}
    (h : mapAll f as = .ok bs) : ∀ a ∈ as, ∃ b ∈ bs, f a = .ok b := by
  induction as generalizing bs with
  | nil => simp
  | cons a rest ih =>
    simp only [mapAll, bind_ok, Except.ok.injEq] at h
    obtain ⟨b, hb, bs', hbs, rfl⟩ := h
    intro c hc
    rcases List.mem_cons.mp hc with rfl | hc
    · exact ⟨b, List.mem_cons_self, hb⟩
    · obtain ⟨b', hb', hc'⟩ := ih hbs c hc
      exact ⟨b', List.mem_cons_of_mem _ hb', hc'⟩

theorem mapAll_total {f : α → Except ε β} {as : List α} (h : ∀ a ∈ as, ∃ b, f a = .ok b) :
    ∃ bs, mapAll f as = .ok bs := by
  induction as with
  | nil => exact ⟨[], rfl⟩
  | cons a rest ih =>
    obtain ⟨b, hb⟩ := h a List.mem_cons_self
    obtain ⟨bs, hbs⟩ := ih fun x hx => h x (List.mem_cons_of_mem _ hx)
    refine ⟨b :: bs, ?_⟩
    simp only [mapAll, bind_ok]
    exact ⟨b, hb, bs, hbs, rfl⟩

/-- What converts in one order converts in any order. -/
theorem mapAll_perm {f : α → Except ε β} {as as' : List α} {bs : List β} (hperm : as.Perm as')
    (h : mapAll f as = .ok bs) : ∃ bs', mapAll f as' = .ok bs' ∧ bs'.Perm bs := by
  induction hperm generalizing bs with
  | nil => exact ⟨bs, h, .refl _⟩
  | cons a _ ih =>
    simp only [mapAll, bind_ok, Except.ok.injEq] at h ⊢
    obtain ⟨b, hb, rest, hrest, rfl⟩ := h
    obtain ⟨rest', hrest', hp⟩ := ih hrest
    exact ⟨b :: rest', ⟨b, hb, rest', hrest', rfl⟩, hp.cons b⟩
  | swap a a' _ =>
    simp only [mapAll, bind_ok, Except.ok.injEq] at h ⊢
    obtain ⟨b, hb, _, ⟨b', hb', rest, hrest, rfl⟩, rfl⟩ := h
    exact ⟨b' :: b :: rest, ⟨b', hb', b :: rest, ⟨b, hb, rest, hrest, rfl⟩, rfl⟩, .swap b b' rest⟩
  | trans _ _ ih₁ ih₂ =>
    obtain ⟨bs₁, h₁, hp₁⟩ := ih₁ h
    obtain ⟨bs₂, h₂, hp₂⟩ := ih₂ h₁
    exact ⟨bs₂, h₂, hp₂.trans hp₁⟩

/-- Lists converted item by item, up to the order within each, are the expected ones together. -/
theorem mapAll_flatten_perm {f : α → Except ε (List β)} {g : α → List β} {as : List α}
    (h : ∀ a ∈ as, ∃ bs, f a = .ok bs ∧ bs.Perm (g a)) :
    ∃ bss, mapAll f as = .ok bss ∧ bss.flatten.Perm (as.flatMap g) := by
  induction as with
  | nil => exact ⟨[], rfl, .refl _⟩
  | cons a rest ih =>
    obtain ⟨bs, hbs, hp⟩ := h a List.mem_cons_self
    obtain ⟨bss, hbss, hrest⟩ := ih fun b hb => h b (List.mem_cons_of_mem _ hb)
    refine ⟨bs :: bss, ?_, ?_⟩
    · simp only [mapAll, bind_ok]
      exact ⟨bs, hbs, bss, hbss, rfl⟩
    · rw [List.flatten_cons, List.flatMap_cons]
      exact hp.append hrest

theorem mapAll_keys_of_mem {κ : Type} {f : α → Except ε β} {key : α → κ} {itemKey : β → κ}
    {as : List α} {bs : List β} (h : mapAll f as = .ok bs)
    (hkey : ∀ a ∈ as, ∀ b, f a = .ok b → itemKey b = key a) : bs.map itemKey = as.map key := by
  induction as generalizing bs with
  | nil =>
    simp only [mapAll, Except.ok.injEq] at h
    subst h
    rfl
  | cons a rest ih =>
    simp only [mapAll, bind_ok, Except.ok.injEq] at h
    obtain ⟨b, hb, bs', hbs, rfl⟩ := h
    rw [List.map_cons, List.map_cons, hkey a List.mem_cons_self b hb,
      ih hbs fun x hx => hkey x (List.mem_cons_of_mem _ hx)]

theorem mapAll_keys {κ : Type} {f : α → Except ε β} {key : α → κ} {itemKey : β → κ} {as : List α}
    {bs : List β} (h : mapAll f as = .ok bs) (hkey : ∀ a b, f a = .ok b → itemKey b = key a) :
    bs.map itemKey = as.map key := mapAll_keys_of_mem h fun a _ => hkey a

theorem mapAll_append {f : α → Except ε β} {as bs : List α} {cs : List β} :
    mapAll f (as ++ bs) = .ok cs ↔
      ∃ first last, mapAll f as = .ok first ∧ mapAll f bs = .ok last ∧ first ++ last = cs := by
  induction as generalizing cs with
  | nil => simp [mapAll]
  | cons a rest ih =>
    simp only [List.cons_append, mapAll, bind_ok, ih, Except.ok.injEq]
    constructor
    · rintro ⟨b, hb, _, ⟨first, last, hfirst, hlast, rfl⟩, rfl⟩
      exact ⟨b :: first, last, ⟨b, hb, first, hfirst, rfl⟩, hlast, rfl⟩
    · rintro ⟨_, last, ⟨b, hb, first, hfirst, rfl⟩, hlast, rfl⟩
      exact ⟨b, hb, first ++ last, ⟨first, last, hfirst, hlast, rfl⟩, rfl⟩

theorem mapAll_forall₂ {f : α → Except ε β} {as : List α} {bs : List β}
    (h : mapAll f as = .ok bs) : List.Forall₂ (fun a b => f a = .ok b) as bs := by
  induction as generalizing bs with
  | nil =>
    obtain rfl : [] = bs := Except.ok.inj h
    exact .nil
  | cons a rest ih =>
    simp only [mapAll, bind_ok, Except.ok.injEq] at h
    obtain ⟨b, hb, bs', hbs, rfl⟩ := h
    exact .cons hb (ih hbs)

/-- An order of the items is kept by their images. -/
theorem pairwise_of_forall₂ {T : α → β → Prop} {R : α → α → Prop} {S : β → β → Prop} {as : List α}
    {bs : List β} (h : List.Forall₂ T as bs) (hordered : as.Pairwise R)
    (himage : ∀ a ∈ as, ∀ a' ∈ as, ∀ b b', T a b → T a' b' → R a a' → S b b') :
    bs.Pairwise S := by
  induction h with
  | nil => exact .nil
  | @cons a b as bs hab hrest ih =>
    obtain ⟨hfirst, hordered⟩ := List.pairwise_cons.mp hordered
    refine List.pairwise_cons.mpr ⟨?_, ih hordered fun x hx y hy => ?_⟩
    · intro b' hb'
      obtain ⟨i, hi, rfl⟩ := List.getElem_of_mem hb'
      have hlen := hrest.length_eq
      have himem : as[i] ∈ as := List.getElem_mem (by omega)
      exact himage a List.mem_cons_self _ (List.mem_cons_of_mem _ himem) _ _ hab
        (hrest.get (by omega) hi) (hfirst _ himem)
    · exact himage x (List.mem_cons_of_mem _ hx) y (List.mem_cons_of_mem _ hy)

theorem mapAll_length {f : α → Except ε β} {as : List α} {bs : List β} (h : mapAll f as = .ok bs) :
    bs.length = as.length := by
  have hkeys : bs.map (fun _ => ()) = as.map fun _ => () := mapAll_keys h fun _ _ _ => rfl
  simpa using congrArg List.length hkeys

/-- A conversion undone item by item is undone on lists. -/
theorem mapAll_inverse {f : α → Except ε β} {g : β → Except ε α} {as : List α} {bs : List β}
    (h : mapAll f as = .ok bs) (hinv : ∀ a b, f a = .ok b → g b = .ok a) :
    mapAll g bs = .ok as := by
  induction as generalizing bs with
  | nil =>
    simp only [mapAll, Except.ok.injEq] at h
    subst h
    rfl
  | cons a rest ih =>
    simp only [mapAll, bind_ok, Except.ok.injEq] at h
    obtain ⟨b, hb, bs', hbs, rfl⟩ := h
    simp only [mapAll, bind_ok]
    exact ⟨a, hinv a b hb, rest, ih hbs, rfl⟩

end Checks
