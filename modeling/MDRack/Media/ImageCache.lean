import MDRack.Lib.CodePoints
import MDRack.Lib.Octets
import MDRack.Lib.Recency

/-!
# The cache of prepared images (`image_preprocessing`)

* `PreparedImage` — an encoded picture with what it was made from.
* `ImagePreparationCache` — a bounded dictionary of them in the order of last use, with `get`, `put`
  and `clear`.
* `Action`, `ImagePreparationCache.run` — the three calls, and any sequence of them.

Principal result: `run_lawful` — after any sequence the bounds hold, the byte counter is exact and
the entries stand in the order of last use; `put_evicts` — what a `put` drops was used before
all that it keeps, and as little is dropped as the bounds allow.
-/

namespace MDRack.Media.Image

open CodePoints (Text)
open Octets (Bytes)
open Recency

structure PreparedImage where
  content : Bytes
  identity : String
  sourceRevision : Text
  recipeFingerprint : String
  cacheKey : String
  sourceMediaType : String
  sourceWidth : Int
  sourceHeight : Int
  orientation : Int
  alphaComposited : Bool
  contentIdentity : String
  content_ne : content ≠ []
  identity_tagged : "sha256:".toList <+: identity.toList
  key_ne : cacheKey ≠ ""

def PreparedImage.size (image : PreparedImage) : Nat := image.content.length

/-- The arguments of the constructor, which refuses what is not positive. -/
structure CacheLimits where
  maxEntries : Nat
  maxBytes : Nat
  entries_pos : 1 ≤ maxEntries
  bytes_pos : 1 ≤ maxBytes

structure ImagePreparationCache where
  limits : CacheLimits
  hits : Nat
  misses : Nat
  entries : List (String × PreparedImage)
  bytes : Int

namespace ImagePreparationCache

def new (limits : CacheLimits) : ImagePreparationCache := ⟨limits, 0, 0, [], 0⟩

def get (key : String) (cache : ImagePreparationCache) : Option PreparedImage × ImagePreparationCache :=
  match find key cache.entries with
  | none => (none, { cache with misses := cache.misses + 1 })
  | some value =>
    (some value, { cache with entries := store key value cache.entries, hits := cache.hits + 1 })

/-- The loop of `put`; `none` where `popitem` would raise on an empty dictionary. -/
def evict (limits : CacheLimits) :
    List (String × PreparedImage) → Int → Option (List (String × PreparedImage) × Int)
  | [], bytes => if 0 > limits.maxEntries ∨ bytes > limits.maxBytes then none else some ([], bytes)
  | removed :: rest, bytes =>
    if (removed :: rest).length > limits.maxEntries ∨ bytes > limits.maxBytes then
      evict limits rest (bytes - removed.2.size)
    else some (removed :: rest, bytes)

/-- `none` where the loop would raise. -/
def put (key : String) (value : PreparedImage) (cache : ImagePreparationCache) :
    Option ImagePreparationCache := do
  let old := find key cache.entries
  let held := cache.bytes - ((old.map PreparedImage.size).getD 0 : Nat) + value.size
  let (entries, bytes) ← evict cache.limits (store key value cache.entries) held
  some { cache with entries := entries, bytes := bytes }

def clear (cache : ImagePreparationCache) : ImagePreparationCache :=
  { cache with entries := [], bytes := 0, hits := 0, misses := 0 }

end ImagePreparationCache

/-! ## Sequences of calls -/

inductive Action
  | get (key : String)
  | put (key : String) (value : PreparedImage)
  | clear

namespace ImagePreparationCache

def step (cache : ImagePreparationCache) : Action → Option ImagePreparationCache
  | .get key => some (cache.get key).2
  | .put key value => cache.put key value
  | .clear => some cache.clear

def run (cache : ImagePreparationCache) : List Action → Option ImagePreparationCache
  | [] => some cache
  | action :: rest => do
    let next ← cache.step action
    next.run rest

end ImagePreparationCache

/-- The key that a call uses. -/
def Action.used : Action → Option String
  | .get key => some key
  | .put key _ => some key
  | .clear => none

abbrev held (entries : List (String × PreparedImage)) : Nat := total PreparedImage.size entries

/-- The bounds of the cache. -/
def Fits (limits : CacheLimits) (entries : List (String × PreparedImage)) : Prop :=
  entries.length ≤ limits.maxEntries ∧ held entries ≤ limits.maxBytes

instance (limits : CacheLimits) : DecidablePred (Fits limits) :=
  fun _ => inferInstanceAs (Decidable (_ ∧ _))

/-- What holds of the cache after the calls of a log. -/
structure Lawful (limits : CacheLimits) (log : List (Option String)) (cache : ImagePreparationCache) :
    Prop where
  same_limits : cache.limits = limits
  bounded : Fits limits cache.entries
  counted : cache.bytes = held cache.entries
  distinct : (cache.entries.map (·.1)).Nodup
  ordered : UsedInOrder log cache.entries

/-! ## One call -/

theorem fits_nil (limits : CacheLimits) : Fits limits [] := ⟨Nat.zero_le _, Nat.zero_le _⟩

theorem over_iff (limits : CacheLimits) (entries : List (String × PreparedImage)) :
    (entries.length > limits.maxEntries ∨ (held entries : Int) > limits.maxBytes) ↔
      ¬ Fits limits entries := by
  simp only [Fits]
  omega

/-- The loop drops entries until the rest fits, and never from an empty dictionary. -/
theorem evict_eq (limits : CacheLimits) (entries : List (String × PreparedImage)) :
    ImagePreparationCache.evict limits entries (held entries) =
      some (shed (Fits limits) entries, (held (shed (Fits limits) entries) : Int)) := by
  induction entries with
  | nil =>
    have hfits : ¬ (0 > limits.maxEntries ∨ (held ([] : List (String × PreparedImage)) : Int) > limits.maxBytes) :=
      fun h => (over_iff limits []).mp h (fits_nil limits)
    rw [ImagePreparationCache.evict, if_neg hfits]
    rfl
  | cons removed rest ih =>
    rw [ImagePreparationCache.evict, shed]
    by_cases hfits : Fits limits (removed :: rest)
    · rw [if_pos hfits, if_neg (fun h => (over_iff limits _).mp h hfits)]
    · have hheld : (held (removed :: rest) : Int) - removed.2.size = held rest := by
        simp only [held, total_cons]
        omega
      rw [if_neg hfits, if_pos ((over_iff limits _).mpr hfits), hheld, ih]

variable {limits : CacheLimits} {log : List (Option String)} {cache next : ImagePreparationCache}

/-- A `put` raises nothing and drops from the front what does not fit. -/
theorem put_eq (h : Lawful limits log cache) (key : String) (value : PreparedImage) :
    cache.put key value = some { cache with
      entries := shed (Fits limits) (store key value cache.entries)
      bytes := held (shed (Fits limits) (store key value cache.entries)) } := by
  have htaken := total_without PreparedImage.size (k := key) h.distinct
  have hheld : cache.bytes - (((find key cache.entries).map PreparedImage.size).getD 0 : Nat) + value.size =
      held (store key value cache.entries) := by
    have hstored : held (store key value cache.entries) =
        held (without key cache.entries) + value.size := by
      rw [held, store, total_append]
      rfl
    rw [h.counted, hstored, held, held]
    omega
  rw [ImagePreparationCache.put]
  simp only [hheld, h.same_limits, evict_eq]
  rfl

theorem Lawful.put (h : Lawful limits log cache) {key : String} {value : PreparedImage}
    (hput : cache.put key value = some next) : Lawful limits (log ++ [some key]) next := by
  rw [put_eq h] at hput
  obtain rfl := Option.some.inj hput
  have hsub : (shed (Fits limits) (store key value cache.entries)).Sublist
      (store key value cache.entries) := shed_sublist _
  exact {
    same_limits := h.same_limits
    bounded := fits_shed (fits_nil limits) _
    counted := rfl
    distinct := (nodup_store h.distinct).sublist (hsub.map _)
    ordered := (h.ordered.store value).sublist hsub }

theorem length_without {entries : List (String × PreparedImage)} {key : String} {value : PreparedImage}
    (hdistinct : (entries.map (·.1)).Nodup) (hfind : find key entries = some value) :
    (store key value entries).length = entries.length := by
  have hones := total_without (fun _ : PreparedImage => 1) (k := key) hdistinct
  have hlength : ∀ es : List (String × PreparedImage), total (fun _ => 1) es = es.length := by
    intro es
    simp [total]
  rw [hlength, hlength, hfind] at hones
  rw [store, List.length_append]
  exact hones

theorem held_store {entries : List (String × PreparedImage)} {key : String} {value : PreparedImage}
    (hdistinct : (entries.map (·.1)).Nodup) (hfind : find key entries = some value) :
    held (store key value entries) = held entries := by
  have htaken := total_without PreparedImage.size (k := key) hdistinct
  rw [hfind] at htaken
  rw [held, store, total_append]
  exact htaken

theorem Lawful.get (h : Lawful limits log cache) (key : String) :
    Lawful limits (log ++ [some key]) (cache.get key).2 := by
  rw [ImagePreparationCache.get]
  cases hfind : find key cache.entries with
  | none =>
    have hothers : UsedInOrder (log ++ [some key]) cache.entries := by
      apply h.ordered.other
      intro e he heq
      exact not_mem_of_find hfind he (Option.some.inj heq).symm
    exact { h with ordered := hothers }
  | some value =>
    exact {
      same_limits := h.same_limits
      bounded := by
        refine ⟨?_, ?_⟩
        · rw [length_without h.distinct hfind]
          exact h.bounded.1
        · rw [held_store h.distinct hfind]
          exact h.bounded.2
      counted := by
        rw [held_store h.distinct hfind]
        exact h.counted
      distinct := nodup_store h.distinct
      ordered := h.ordered.store value }

theorem Lawful.clear (h : Lawful limits log cache) : Lawful limits (log ++ [none]) cache.clear where
  same_limits := h.same_limits
  bounded := fits_nil limits
  counted := rfl
  distinct := List.nodup_nil
  ordered := List.Pairwise.nil

theorem lawful_new (limits : CacheLimits) : Lawful limits [] (ImagePreparationCache.new limits) where
  same_limits := rfl
  bounded := fits_nil limits
  counted := rfl
  distinct := List.nodup_nil
  ordered := List.Pairwise.nil

theorem Lawful.step (h : Lawful limits log cache) (action : Action) :
    ∃ next, cache.step action = some next ∧ Lawful limits (log ++ [action.used]) next := by
  cases action with
  | get key => exact ⟨_, rfl, h.get key⟩
  | put key value => exact ⟨_, put_eq h key value, h.put (put_eq h key value)⟩
  | clear => exact ⟨_, rfl, h.clear⟩

/-! ## Every sequence -/

theorem Lawful.run (h : Lawful limits log cache) (actions : List Action) :
    ∃ final, cache.run actions = some final ∧ Lawful limits (log ++ actions.map Action.used) final := by
  induction actions generalizing cache log with
  | nil => exact ⟨cache, rfl, by simpa using h⟩
  | cons action rest ih =>
    obtain ⟨next, hstep, hnext⟩ := h.step action
    obtain ⟨final, hrun, hfinal⟩ := ih hnext
    refine ⟨final, ?_, by simpa using hfinal⟩
    rw [ImagePreparationCache.run, hstep]
    exact hrun

/-- No call raises, and after every sequence of calls the laws of the cache hold. -/
theorem run_lawful (limits : CacheLimits) (actions : List Action) :
    ∃ cache, (ImagePreparationCache.new limits).run actions = some cache ∧
      Lawful limits (actions.map Action.used) cache := by
  simpa using (lawful_new limits).run actions

/-- What a `put` drops, as few entries as the bounds allow, was used before all that it keeps. -/
def EvictsInOrder (limits : CacheLimits) (log : List (Option String)) (cache : ImagePreparationCache)
    (key : String) (value : PreparedImage) : Prop :=
  ∃ next dropped, cache.put key value = some next ∧
    store key value cache.entries = dropped ++ next.entries ∧
    (∀ kept, kept <:+ store key value cache.entries → next.entries.length < kept.length →
      ¬ Fits limits kept) ∧
    ∀ gone ∈ dropped, ∀ kept ∈ next.entries,
      lastUse gone.1 (log ++ [some key]) < lastUse kept.1 (log ++ [some key])

theorem put_evicts (h : Lawful limits log cache) (key : String) (value : PreparedImage) :
    EvictsInOrder limits log cache key value := by
  obtain ⟨n, hn, heq, hleast⟩ := shed_eq_drop (Fits limits) (store key value cache.entries)
  refine ⟨_, (store key value cache.entries).take n, put_eq h key value, ?_, ?_, ?_⟩
  · show _ = _ ++ shed (Fits limits) (store key value cache.entries)
    rw [heq, List.take_append_drop]
  · intro kept hkept hlonger
    change (shed (Fits limits) (store key value cache.entries)).length < kept.length at hlonger
    rw [heq, List.length_drop] at hlonger
    have hlength := hkept.length_le
    rw [List.suffix_iff_eq_drop.mp hkept]
    exact hleast _ (by omega)
  · intro gone hgone kept hkept
    change kept ∈ shed (Fits limits) (store key value cache.entries) at hkept
    rw [heq] at hkept
    have hordered := h.ordered.store (k := key) value
    rw [← List.take_append_drop n (store key value cache.entries)] at hordered
    exact (List.pairwise_append.mp hordered).2.2 gone hgone kept hkept

end MDRack.Media.Image
