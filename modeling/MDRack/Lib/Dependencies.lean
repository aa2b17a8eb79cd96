import Mathlib.Data.List.Nodup

/-!
# Items that depend on revisions of each other

A graph is a list of nodes, each with a key, a revision and the revisions of other keys that it
was made from.

* `peel` — repeatedly drop the nodes without pending dependencies; what is left is cyclic.
* `invalidate` — repeatedly add the nodes with a dependency that is missing, of another revision
  or already invalid, unless that node is protected.
* `Stale` — the least set of nodes closed under the same rule, with further seeds.

Principal results: `peel_ranked` — a graph that peels off is ranked, hence acyclic;
`invalidate_spec` — the loop gives exactly the stale keys; `stale_iff_without_seeds` — seeds may
be dropped first.
-/

namespace Dependencies

structure Node (κ ρ : Type) where
  key : κ
  revision : ρ
  dependencies : List (κ × ρ)

variable {κ ρ ε : Type} [DecidableEq κ]

/-! ## Acyclic graphs -/

/-- Keys with nothing pending. -/
def roots (pending : List (κ × List κ)) : List κ :=
  (pending.filter fun p => p.2.isEmpty).map (·.1)

/-- Drop the roots, as nodes and as dependencies. -/
def unlock (pending : List (κ × List κ)) : List (κ × List κ) :=
  (pending.filter fun p => p.1 ∉ roots pending).map
    fun p => (p.1, p.2.filter fun d => d ∉ roots pending)

theorem unlock_length_lt {pending : List (κ × List κ)} (h : roots pending ≠ []) :
    (unlock pending).length < pending.length := by
  obtain ⟨k, hk⟩ := List.exists_mem_of_ne_nil _ h
  obtain ⟨p, hp, rfl⟩ := List.mem_map.mp hk
  rw [unlock, List.length_map]
  refine List.length_filter_lt_length_iff_exists.mpr ⟨p, List.mem_of_mem_filter hp, ?_⟩
  simpa using hk

/-- Whether everything can be dropped, root by root. -/
def peel (pending : List (κ × List κ)) : Bool :=
  if pending.isEmpty then true
  else if _ : roots pending = [] then false
  else peel (unlock pending)
termination_by pending.length
decreasing_by exact unlock_length_lt (by assumption)

/-- Dependencies that are themselves nodes. -/
def pendingOf (nodes : List (Node κ ρ)) : List (κ × List κ) :=
  nodes.map fun n => (n.key, (n.dependencies.map (·.1)).filter fun d => nodes.any fun m => m.key = d)

/-- No node lies on a cycle of dependencies: each is above what it depends on. -/
def Ranked (nodes : List (Node κ ρ)) : Prop :=
  ∃ rank : κ → Nat, ∀ n ∈ nodes, ∀ m ∈ nodes, ∀ r, (m.key, r) ∈ n.dependencies →
    rank m.key < rank n.key

theorem peel_rank {pending : List (κ × List κ)} (hids : (pending.map (·.1)).Nodup)
    (h : peel pending = true) :
    ∃ rank : κ → Nat, ∀ p ∈ pending, ∀ d ∈ p.2, rank d < rank p.1 := by
  induction pending using peel.induct with
  | case1 pending hempty =>
    rw [List.isEmpty_iff] at hempty
    exact ⟨fun _ => 0, by simp [hempty]⟩
  | case2 pending hne hroots =>
    rw [peel, if_neg hne, dif_pos hroots] at h
    cases h
  | case3 pending hne hroots ih =>
    rw [peel, if_neg hne, dif_neg hroots] at h
    have hrest : ((unlock pending).map (·.1)).Nodup := by
      rw [unlock, List.map_map]
      exact hids.sublist (List.filter_sublist.map _)
    obtain ⟨rank, hrank⟩ := ih hrest h
    refine ⟨fun k => if k ∈ roots pending then 0 else rank k + 1, ?_⟩
    intro p hp d hd
    by_cases hroot : p.1 ∈ roots pending
    · -- a root has no dependency, and its key is its own
      obtain ⟨q, hq, hkey⟩ := List.mem_map.mp hroot
      obtain ⟨hq, hnone⟩ := List.mem_filter.mp hq
      have heq := List.inj_on_of_nodup_map hids hq hp hkey
      rw [heq, List.isEmpty_iff] at hnone
      rw [hnone] at hd
      cases hd
    · simp only [hroot, if_false]
      split
      · omega
      · rename_i hdroot
        have hmem : (p.1, p.2.filter fun d => d ∉ roots pending) ∈ unlock pending :=
          List.mem_map.mpr ⟨p, List.mem_filter.mpr ⟨hp, by simpa using hroot⟩, rfl⟩
        have := hrank _ hmem d (List.mem_filter.mpr ⟨hd, by simpa using hdroot⟩)
        simp only at this
        omega

/-- A graph that peels off is ranked. -/
theorem peel_ranked {nodes : List (Node κ ρ)} (hids : (nodes.map (·.key)).Nodup)
    (h : peel (pendingOf nodes) = true) : Ranked nodes := by
  have hkeys : ((pendingOf nodes).map (·.1)).Nodup := by
    rw [pendingOf, List.map_map]
    exact hids
  obtain ⟨rank, hrank⟩ := peel_rank hkeys h
  refine ⟨rank, fun n hn m hm r hr => ?_⟩
  refine hrank _ (List.mem_map.mpr ⟨n, hn, rfl⟩) m.key (List.mem_filter.mpr ⟨?_, ?_⟩)
  · exact List.mem_map.mpr ⟨_, hr, rfl⟩
  · exact List.any_eq_true.mpr ⟨m, hm, by simp⟩

omit [DecidableEq κ] in
/-- Fewer nodes, possibly with other contents for the same dependencies, stay ranked. -/
theorem Ranked.mono {nodes nodes' : List (Node κ ρ)} (h : Ranked nodes)
    (hsub : ∀ n ∈ nodes', n ∈ nodes) : Ranked nodes' := by
  obtain ⟨rank, hrank⟩ := h
  exact ⟨rank, fun n hn m hm r hr => hrank n (hsub n hn) m (hsub m hm) r hr⟩

/-! ## Stale nodes -/

/-- The least set of keys that contains the seeds and every node with a dependency that is
absent, of another revision, or stale. -/
inductive Stale (nodes : List (Node κ ρ)) (seed : Node κ ρ → Prop) : κ → Prop
  | seed {n : Node κ ρ} (hn : n ∈ nodes) (hs : seed n) : Stale nodes seed n.key
  | absent {n : Node κ ρ} {d : κ} {r : ρ} (hn : n ∈ nodes) (hd : (d, r) ∈ n.dependencies)
      (h : ∀ m ∈ nodes, m.key ≠ d) : Stale nodes seed n.key
  | revised {n m : Node κ ρ} {r : ρ} (hn : n ∈ nodes) (hm : m ∈ nodes)
      (hd : (m.key, r) ∈ n.dependencies) (h : m.revision ≠ r) : Stale nodes seed n.key
  | depends {n : Node κ ρ} {d : κ} {r : ρ} (hn : n ∈ nodes) (hd : (d, r) ∈ n.dependencies)
      (h : Stale nodes seed d) : Stale nodes seed n.key

omit [DecidableEq κ] in
/-- A node that is not stale has current dependencies that are not stale. -/
theorem fresh_of_not_stale {nodes : List (Node κ ρ)} {seed : Node κ ρ → Prop} {n : Node κ ρ}
    (hn : n ∈ nodes) (h : ¬ Stale nodes seed n.key) {d : κ × ρ} (hd : d ∈ n.dependencies) :
    ∃ m ∈ nodes, m.key = d.1 ∧ m.revision = d.2 ∧ ¬ Stale nodes seed m.key := by
  by_cases hm : ∃ m ∈ nodes, m.key = d.1
  · obtain ⟨m, hm, hkey⟩ := hm
    refine ⟨m, hm, hkey, ?_, fun hstale => h (.depends hn hd (hkey ▸ hstale))⟩
    by_contra hrevision
    exact h (.revised hn hm (r := d.2) (by rwa [hkey]) hrevision)
  · exact absurd (.absent hn (d := d.1) (r := d.2) hd fun m hm' hkey => hm ⟨m, hm', hkey⟩) h

omit [DecidableEq κ] in
/-- Without seeds, a node that depends on nothing is not stale. -/
theorem not_stale_of_independent {nodes : List (Node κ ρ)} (hids : (nodes.map (·.key)).Nodup)
    {n : Node κ ρ} (hn : n ∈ nodes) (hnone : n.dependencies = []) :
    ¬ Stale nodes (fun _ => False) n.key := by
  intro h
  have howner : ∀ m ∈ nodes, m.key = n.key → m.dependencies = [] := by
    intro m hm hkey
    rw [List.inj_on_of_nodup_map hids hm hn hkey, hnone]
  generalize hk : n.key = k at h
  cases h with
  | seed _ hs => exact hs
  | absent hm hd => rw [howner _ hm hk.symm] at hd; cases hd
  | revised hm _ hd => rw [howner _ hm hk.symm] at hd; cases hd
  | depends hm hd => rw [howner _ hm hk.symm] at hd; cases hd

section Invalidate

variable [DecidableEq ρ]

/-- A dependency is current: some node has its key and revision. -/
def current (nodes : List (Node κ ρ)) (d : κ × ρ) : Bool :=
  match nodes.find? fun m => m.key = d.1 with
  | some m => m.revision = d.2
  | none => false

/-- Nodes to be added to the invalid ones. -/
def newlyStale (nodes : List (Node κ ρ)) (invalid : List κ) : List (Node κ ρ) :=
  nodes.filter fun n => n.key ∉ invalid ∧
    n.dependencies.any fun d => d.1 ∈ invalid || !current nodes d

theorem newlyStale_length_lt {nodes : List (Node κ ρ)} {invalid : List κ}
    (h : newlyStale nodes invalid ≠ []) :
    (nodes.filter fun n => n.key ∉ invalid ++ (newlyStale nodes invalid).map (·.key)).length <
      (nodes.filter fun n => n.key ∉ invalid).length := by
  obtain ⟨n, hn⟩ := List.exists_mem_of_ne_nil _ h
  have hsplit : (nodes.filter fun n =>
      decide (n.key ∉ invalid ++ (newlyStale nodes invalid).map (·.key))) =
      (nodes.filter fun n => decide (n.key ∉ invalid)).filter
        fun n => decide (n.key ∉ (newlyStale nodes invalid).map (·.key)) := by
    rw [List.filter_filter]
    refine List.filter_congr fun m _ => ?_
    by_cases h1 : m.key ∈ invalid <;> simp [h1]
  rw [hsplit]
  obtain ⟨hmem, hnew⟩ := List.mem_filter.mp hn
  simp only [decide_eq_true_eq] at hnew
  refine List.length_filter_lt_length_iff_exists.mpr ⟨n, ?_, ?_⟩
  · exact List.mem_filter.mpr ⟨hmem, by simpa using hnew.1⟩
  · simpa using ⟨n, hn, rfl⟩

/-- Add stale nodes until there are none; raise when one of them is protected. -/
def invalidate (e : ε) (nodes : List (Node κ ρ)) (isProtected : List κ) (invalid : List κ) :
    Except ε (List κ) :=
  if _ : newlyStale nodes invalid = [] then .ok invalid
  else if (newlyStale nodes invalid).any fun n => n.key ∈ isProtected then .error e
  else invalidate e nodes isProtected (invalid ++ (newlyStale nodes invalid).map (·.key))
termination_by (nodes.filter fun n => n.key ∉ invalid).length
decreasing_by exact newlyStale_length_lt (by assumption)

variable {e : ε} {nodes : List (Node κ ρ)} {guarded invalid result : List κ}
  {seed : Node κ ρ → Prop}

theorem current_iff (hids : (nodes.map (·.key)).Nodup) {d : κ × ρ} :
    current nodes d = true ↔ ∃ m ∈ nodes, m.key = d.1 ∧ m.revision = d.2 := by
  unfold current
  split
  · rename_i m hfind
    have hm := List.mem_of_find?_eq_some hfind
    have hkey : m.key = d.1 := by simpa using List.find?_some hfind
    rw [decide_eq_true_eq]
    constructor
    · exact fun hrev => ⟨m, hm, hkey, hrev⟩
    · rintro ⟨m', hm', hkey', hrev⟩
      rwa [List.inj_on_of_nodup_map hids hm hm' (hkey.trans hkey'.symm)]
  · rename_i hnone
    simp only [Bool.false_eq_true, false_iff, not_exists, not_and]
    intro m hm hkey
    have := List.find?_eq_none.mp hnone m hm
    simp [hkey] at this

/-- A node with a dependency that is not current is stale. -/
theorem Stale.of_not_current (hids : (nodes.map (·.key)).Nodup) {n : Node κ ρ} (hn : n ∈ nodes)
    {d : κ × ρ} (hd : d ∈ n.dependencies) (h : current nodes d = false) :
    Stale nodes seed n.key := by
  by_cases hm : ∃ m ∈ nodes, m.key = d.1
  · obtain ⟨m, hm, hkey⟩ := hm
    refine .revised hn hm (r := d.2) (by rw [hkey]; exact hd) fun hrev => ?_
    rw [(current_iff hids).mpr ⟨m, hm, hkey, hrev⟩] at h
    cases h
  · refine .absent hn (d := d.1) (r := d.2) hd fun m hm' hkey => hm ⟨m, hm', hkey⟩

theorem newlyStale_stale (hids : (nodes.map (·.key)).Nodup)
    (hinvalid : ∀ k ∈ invalid, Stale nodes seed k) :
    ∀ n ∈ newlyStale nodes invalid, Stale nodes seed n.key := by
  intro n hn
  obtain ⟨hn, hnew⟩ := List.mem_filter.mp hn
  simp only [decide_eq_true_eq, List.any_eq_true, Bool.or_eq_true, Bool.not_eq_true'] at hnew
  obtain ⟨-, d, hd, hstale | hcurrent⟩ := hnew
  · exact .depends hn hd (hinvalid d.1 hstale)
  · exact .of_not_current hids hn hd hcurrent

/-- Where nothing is newly stale, the invalid keys are closed under the rule. -/
theorem stale_of_closed (hids : (nodes.map (·.key)).Nodup) (hclosed : newlyStale nodes invalid = [])
    {k : κ} (h : Stale nodes (fun _ => False) k) : k ∈ invalid := by
  have hrule : ∀ n ∈ nodes, ∀ d ∈ n.dependencies, d.1 ∈ invalid ∨ current nodes d = false →
      n.key ∈ invalid := by
    intro n hn d hd hbad
    by_contra hnot
    refine List.filter_eq_nil_iff.mp hclosed n hn ?_
    simp only [decide_eq_true_eq, List.any_eq_true, Bool.or_eq_true, Bool.not_eq_true']
    exact ⟨hnot, d, hd, hbad⟩
  induction h with
  | seed hn hs => exact hs.elim
  | absent hn hd h =>
    refine hrule _ hn _ hd (.inr ?_)
    rw [Bool.eq_false_iff]
    intro hcurrent
    obtain ⟨m, hm, hkey, -⟩ := (current_iff hids).mp hcurrent
    exact h m hm hkey
  | revised hn hm hd h =>
    refine hrule _ hn _ hd (.inr ?_)
    rw [Bool.eq_false_iff]
    intro hcurrent
    obtain ⟨m', hm', hkey, hrev⟩ := (current_iff hids).mp hcurrent
    rw [List.inj_on_of_nodup_map hids hm' hm hkey] at hrev
    exact h hrev
  | depends hn hd h ih => exact hrule _ hn _ hd (.inl ih)

/-- The loop gives exactly the stale keys, none of them protected. -/
theorem invalidate_spec (hids : (nodes.map (·.key)).Nodup)
    (hinvalid : ∀ k ∈ invalid, Stale nodes (fun _ => False) k ∧ k ∉ guarded)
    (h : invalidate e nodes guarded invalid = .ok result) :
    ∀ k, (k ∈ result ↔ Stale nodes (fun _ => False) k) ∧ (k ∈ result → k ∉ guarded) := by
  induction invalid using invalidate.induct nodes guarded with
  | case1 invalid hclosed =>
    rw [invalidate, dif_pos hclosed] at h
    obtain rfl := Except.ok.inj h
    exact fun k => ⟨⟨fun hk => (hinvalid k hk).1, stale_of_closed hids hclosed⟩,
      fun hk => (hinvalid k hk).2⟩
  | case2 invalid hopen hprotected =>
    rw [invalidate, dif_neg hopen, if_pos hprotected] at h
    cases h
  | case3 invalid hopen hprotected ih =>
    rw [invalidate, dif_neg hopen, if_neg hprotected] at h
    refine ih ?_ h
    intro k hk
    rcases List.mem_append.mp hk with hk | hk
    · exact hinvalid k hk
    · obtain ⟨n, hn, rfl⟩ := List.mem_map.mp hk
      refine ⟨newlyStale_stale hids (fun k hk => (hinvalid k hk).1) n hn, fun hguarded => ?_⟩
      exact hprotected (List.any_eq_true.mpr ⟨n, hn, by simpa using hguarded⟩)

end Invalidate

/-- Seeds may be taken out first: the rest is stale where it depends on what is left out. -/
theorem stale_iff_without_seeds {nodes rest : List (Node κ ρ)} {seed : Node κ ρ → Prop}
    (hids : (nodes.map (·.key)).Nodup) (hrest : ∀ n, n ∈ rest ↔ n ∈ nodes ∧ ¬ seed n) (k : κ) :
    Stale nodes seed k ↔ (∃ n ∈ nodes, seed n ∧ n.key = k) ∨ Stale rest (fun _ => False) k := by
  constructor
  · intro h
    -- a node that is no seed is in the rest, where a seed is absent
    have hsplit : ∀ n ∈ nodes, (¬ seed n → Stale rest (fun _ => False) n.key) →
        (∃ m ∈ nodes, seed m ∧ m.key = n.key) ∨ Stale rest (fun _ => False) n.key := by
      intro n hn himp
      by_cases hs : seed n
      · exact .inl ⟨n, hn, hs, rfl⟩
      · exact .inr (himp hs)
    induction h with
    | seed hn hs => exact .inl ⟨_, hn, hs, rfl⟩
    | @absent n d r hn hd h =>
      exact hsplit n hn fun hs => .absent ((hrest n).mpr ⟨hn, hs⟩) hd
        fun m hm => h m ((hrest m).mp hm).1
    | @revised n m r hn hm hd h =>
      refine hsplit n hn fun hs => ?_
      by_cases hms : seed m
      · refine .absent ((hrest n).mpr ⟨hn, hs⟩) hd fun m' hm' hkey => ?_
        obtain ⟨hm', hns⟩ := (hrest m').mp hm'
        exact hns (List.inj_on_of_nodup_map hids hm hm' hkey.symm ▸ hms)
      · exact .revised ((hrest n).mpr ⟨hn, hs⟩) ((hrest m).mpr ⟨hm, hms⟩) hd h
    | @depends n d r hn hd h ih =>
      refine hsplit n hn fun hs => ?_
      have hn' := (hrest n).mpr ⟨hn, hs⟩
      rcases ih with ⟨m, hm, hms, rfl⟩ | ih
      · refine .absent hn' hd fun m' hm' hkey => ?_
        obtain ⟨hm', hns⟩ := (hrest m').mp hm'
        exact hns (List.inj_on_of_nodup_map hids hm hm' hkey.symm ▸ hms)
      · exact .depends hn' hd ih
  · rintro (⟨n, hn, hs, rfl⟩ | h)
    · exact .seed hn hs
    · induction h with
      | seed hn hs => exact hs.elim
      | @absent n d r hn hd h =>
        have hn' := ((hrest n).mp hn).1
        by_cases hm : ∃ m ∈ nodes, m.key = d
        · obtain ⟨m, hm, rfl⟩ := hm
          by_cases hms : seed m
          · exact .depends hn' hd (.seed hm hms)
          · exact absurd rfl (h m ((hrest m).mpr ⟨hm, hms⟩))
        · exact .absent hn' hd fun m hm' hkey => hm ⟨m, hm', hkey⟩
      | revised hn hm hd h => exact .revised ((hrest _).mp hn).1 ((hrest _).mp hm).1 hd h
      | depends hn hd h ih => exact .depends ((hrest _).mp hn).1 hd ih

end Dependencies
