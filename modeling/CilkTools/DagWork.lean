/-
Growing graphs whose nodes take time: the nodes that come before a point, the
time they take together, and what lies between two points in series.
-/
import CilkTools.TimedDag
import Mathlib.Algebra.BigOperators.Group.Finset.Basic
import Mathlib.Order.Interval.Finset.Nat

namespace TimedDag

open Classical in
/-- The nodes from which there is a path to one of `vs`. -/
noncomputable def past (g : TimedDag) (vs : List Nat) : Finset Nat :=
  (Finset.range g.size).filter fun u => ∃ v ∈ vs, g.Path u v

/-- What the nodes take that come before a point that follows the nodes `vs`. -/
noncomputable def work (g : TimedDag) (vs : List Nat) : Nat := ∑ u ∈ g.past vs, g.time u

/-- What is added by the nodes that come before `us` only. -/
noncomputable def added (g : TimedDag) (vs us : List Nat) : Nat :=
  ∑ u ∈ g.past us \ g.past vs, g.time u

/-- The nodes of a path from `v`, which is left out, the last first. -/
inductive PathFrom (g : TimedDag) (v : Nat) : Nat → List Nat → Prop
  | nil : PathFrom g v v []
  | snoc {u w : Nat} {l : List Nat} (h : PathFrom g v u l) (hu : u ∈ g.preds w) :
    PathFrom g v w (w :: l)

/-- The lengths of the paths from the end of `v` to that of `w`. -/
def lengthsFrom (g : TimedDag) (v w : Nat) : Set Nat :=
  {n | ∃ l, g.PathFrom v w l ∧ (l.map g.time).sum = n}

open Classical in
/-- What the nodes take that come after `v` and before the end of `w`. -/
noncomputable def workFrom (g : TimedDag) (v w : Nat) : Nat :=
  ∑ u ∈ (Finset.range g.size).filter fun u => u ≠ v ∧ g.Path v u ∧ g.Path u w, g.time u

/-- What comes before `w` is in series with `v`. -/
def Series (g : TimedDag) (v w : Nat) : Prop := ∀ u, g.Path u w → g.Path u v ∨ g.Path v u

variable {g : TimedDag} {u v w d : Nat} {us vs ps : List Nat}

/-! ## The past of several nodes -/

theorem mem_past (h : ∀ v ∈ vs, v < g.size) : u ∈ g.past vs ↔ ∃ v ∈ vs, g.Path u v := by
  simp only [past, Finset.mem_filter, Finset.mem_range, and_iff_right_iff_imp]
  intro hu
  obtain ⟨v, hv, hp⟩ := hu
  exact Nat.lt_of_le_of_lt hp.le (h v hv)

theorem lt_of_mem_past (h : u ∈ g.past vs) : u < g.size := by
  simp only [past, Finset.mem_filter, Finset.mem_range] at h
  exact h.1

@[simp] theorem past_nil (g : TimedDag) : g.past [] = ∅ := by simp [past]

theorem past_append (g : TimedDag) (us vs : List Nat) :
    g.past (us ++ vs) = g.past us ∪ g.past vs := by
  ext u
  simp only [past, Finset.mem_union, Finset.mem_filter, List.mem_append, or_and_right,
    exists_or, and_or_left]

theorem past_cons (g : TimedDag) (v : Nat) (vs : List Nat) :
    g.past (v :: vs) = g.past [v] ∪ g.past vs := past_append g [v] vs

theorem past_subset (h : ∀ v ∈ us, v ∈ vs) : g.past us ⊆ g.past vs := by
  intro u hu
  simp only [past, Finset.mem_filter] at hu ⊢
  obtain ⟨hu, v, hv, hp⟩ := hu
  exact ⟨hu, v, h v hv, hp⟩

/-! ## A new node -/

theorem past_add_old (h : ∀ v ∈ vs, v < g.size) : (g.add ps d).past vs = g.past vs := by
  have hadd : ∀ v ∈ vs, v < (g.add ps d).size := fun v hv => Nat.lt_succ_of_lt (h v hv)
  ext u
  rw [mem_past h, mem_past hadd]
  constructor
  · intro hu
    obtain ⟨v, hv, hp⟩ := hu
    exact ⟨v, hv, (GrowingDag.path_add_old (h v hv)).1 hp⟩
  · intro hu
    obtain ⟨v, hv, hp⟩ := hu
    exact ⟨v, hv, (GrowingDag.path_add_old (h v hv)).2 hp⟩

theorem past_add_new (h : ∀ p ∈ ps, p < g.size) :
    (g.add ps d).past [g.size] = insert g.size (g.past ps) := by
  have hnew : ∀ v ∈ [g.size], v < (g.add ps d).size := fun v hv => by
    rw [List.mem_singleton.1 hv]
    exact Nat.lt_succ_self _
  ext u
  rw [mem_past hnew, Finset.mem_insert, mem_past h]
  simp only [List.mem_singleton, exists_eq_left]
  rcases Nat.lt_trichotomy u g.size with hu | rfl | hu
  · have hne : u ≠ g.size := Nat.ne_of_lt hu
    simp only [hne, false_or]
    exact GrowingDag.path_add_new hu h
  · exact ⟨fun _ => .inl rfl, fun _ => .refl _⟩
  · constructor
    · intro hp
      have := hp.le
      omega
    · intro hp
      rcases hp with heq | ⟨p, hp, hpath⟩
      · omega
      · have := hpath.le
        have := h p hp
        omega

theorem not_mem_past_size (g : TimedDag) (vs : List Nat) : g.size ∉ g.past vs :=
  fun h => Nat.lt_irrefl _ (lt_of_mem_past h)

theorem sum_time_add {s : Finset Nat} (h : ∀ u ∈ s, u < g.size) :
    ∑ u ∈ s, (g.add ps d).time u = ∑ u ∈ s, g.time u := by
  refine Finset.sum_congr rfl fun u hu => ?_
  have := h u hu
  simp only [add, show u ≠ g.size by omega, if_false]

theorem work_add_old (h : ∀ v ∈ vs, v < g.size) : (g.add ps d).work vs = g.work vs := by
  rw [work, work, past_add_old h, sum_time_add fun u hu => lt_of_mem_past hu]

theorem work_add_new (h : ∀ p ∈ ps, p < g.size) : (g.add ps d).work [g.size] = d + g.work ps := by
  rw [work, past_add_new h, Finset.sum_insert (not_mem_past_size g ps),
    sum_time_add fun u hu => lt_of_mem_past hu]
  simp [add, work]

/-! ## What is added -/

theorem added_add_old (hv : ∀ v ∈ vs, v < g.size) (hu : ∀ u ∈ us, u < g.size) :
    (g.add ps d).added vs us = g.added vs us := by
  rw [added, added, past_add_old hv, past_add_old hu, sum_time_add fun u hu => lt_of_mem_past
    (Finset.mem_sdiff.1 hu).1]

theorem work_append (g : TimedDag) (vs us : List Nat) :
    g.work (vs ++ us) = g.work vs + g.added vs us := by
  rw [work, past_append, ← Finset.union_sdiff_self_eq_union, Finset.sum_union Finset.disjoint_sdiff]
  rfl

theorem work_eq_add (h : g.past vs ⊆ g.past us) : g.work us = g.work vs + g.added vs us := by
  rw [← work_append, work, work, past_append, Finset.union_eq_right.2 h]

@[simp] theorem added_nil (g : TimedDag) (vs : List Nat) : g.added vs [] = 0 := by simp [added]

/-- Nodes that share nothing but what is there add up. -/
theorem added_cons (h : g.past [u] ∩ g.past us ⊆ g.past vs) :
    g.added vs (u :: us) = g.added vs [u] + g.added vs us := by
  have hdisj : Disjoint (g.past [u] \ g.past vs) (g.past us \ g.past vs) := by
    rw [Finset.disjoint_left]
    intro x hx hx'
    rw [Finset.mem_sdiff] at hx hx'
    exact hx.2 (h (Finset.mem_inter.2 ⟨hx.1, hx'.1⟩))
  rw [added, past_cons, Finset.union_sdiff_distrib, Finset.sum_union hdisj]
  rfl

/-- What `us` have in common with the point stays the same. -/
theorem added_congr {vs' : List Nat} (hle : g.past vs ⊆ g.past vs')
    (h : g.past us ∩ g.past vs' ⊆ g.past vs) : g.added vs' us = g.added vs us := by
  have heq : g.past us \ g.past vs' = g.past us \ g.past vs := by
    ext x
    rw [Finset.mem_sdiff, Finset.mem_sdiff]
    refine and_congr_right fun hx => not_congr ⟨fun hx' => h (Finset.mem_inter.2 ⟨hx, hx'⟩),
      fun hx' => hle hx'⟩
  rw [added, added, heq]

/-! ## More nodes -/

/-- Nodes have been added. -/
inductive Grows : TimedDag → TimedDag → Prop
  | refl (g : TimedDag) : Grows g g
  | add {g g' : TimedDag} (h : Grows g g') (ps : List Nat) (d : Nat) : Grows g (g'.add ps d)

namespace Grows

variable {g g' g'' : TimedDag} {v : Nat}

theorem trans (h : Grows g g') (h' : Grows g' g'') : Grows g g'' := by
  induction h' with
  | refl => exact h
  | add _ ps d ih => exact ih.add ps d

theorem size_le (h : Grows g g') : g.size ≤ g'.size := by
  induction h with
  | refl => exact Nat.le_refl _
  | add _ _ _ ih => exact Nat.le_succ_of_le ih

theorem longest_eq (h : Grows g g') (hv : v < g.size) : g'.longest v = g.longest v := by
  induction h with
  | refl => rfl
  | add h _ _ ih => rw [longest_add_old (Nat.lt_of_lt_of_le hv h.size_le), ih]

theorem work_eq (h : Grows g g') (hv : v < g.size) : g'.work [v] = g.work [v] := by
  induction h with
  | refl => rfl
  | add h _ _ ih =>
    rw [work_add_old fun u hu => List.mem_singleton.1 hu ▸ Nat.lt_of_lt_of_le hv h.size_le, ih]

end Grows

/-! ## Nodes in series -/

theorem exists_lengthsFrom (h : g.Path v w) : ∃ n, n ∈ g.lengthsFrom v w := by
  induction h with
  | refl => exact ⟨0, [], .nil, rfl⟩
  | tail _ hu ih =>
    obtain ⟨n, l, hl, rfl⟩ := ih
    exact ⟨_, _, .snoc hl hu, rfl⟩

/-- A path to `v` goes on to `w`. -/
theorem PathTo.append {l l' : List Nat} (h : g.PathTo v l) (h' : g.PathFrom v w l') :
    g.PathTo w (l' ++ l) := by
  induction h' with
  | nil => exact h
  | snoc _ hu ih => exact .snoc ih hu

theorem longest_add_le {n : Nat} (hn : n ∈ g.lengthsFrom v w) : g.longest v + n ≤ g.longest w := by
  obtain ⟨l', hl', rfl⟩ := hn
  obtain ⟨l, hl, heq⟩ := g.longest_mem_lengths v
  have hle := (hl.append hl').sum_le
  rw [List.map_append, List.sum_append, heq] at hle
  omega

theorem Series.pred (h : g.Series v w) (hu : u ∈ g.preds w) : g.Series v u :=
  fun _ hx => h _ (.tail hx hu)

/-- No path to `w` that leaves `v` out is longer than all that do not. -/
theorem Series.exists_longest (h : g.Series v w) (hp : g.Path v w) :
    ∃ n ∈ g.lengthsFrom v w, g.longest w = g.longest v + n := by
  suffices hle : ∃ n ∈ g.lengthsFrom v w, g.longest w ≤ g.longest v + n by
    obtain ⟨n, hn, hle⟩ := hle
    exact ⟨n, hn, Nat.le_antisymm hle (longest_add_le hn)⟩
  induction w using Nat.strongRecOn with
  | ind w ih =>
    rcases Relation.ReflTransGen.cases_tail hp with rfl | ⟨q, hq, hqw⟩
    · exact ⟨0, ⟨[], .nil, rfl⟩, Nat.le_refl _⟩
    · obtain ⟨p, hpw, heq⟩ := exists_latest (g := g) (List.ne_nil_of_mem hqw)
      rw [longest_eq, heq]
      by_cases hvp : g.Path v p
      · obtain ⟨n, ⟨l, hl, rfl⟩, hle⟩ := ih p (g.pred_lt w p hpw) (h.pred hpw) hvp
        refine ⟨_, ⟨_, .snoc hl hpw, rfl⟩, ?_⟩
        rw [List.map_cons, List.sum_cons]
        omega
      · -- The path to `p` is no longer than that to `v`.
        have hpv : g.Path p v := (h p (.tail .refl hpw)).resolve_right hvp
        obtain ⟨m, hm⟩ := exists_lengthsFrom hpv
        have hle := longest_add_le hm
        obtain ⟨n, l, hl, rfl⟩ := exists_lengthsFrom hq
        refine ⟨_, ⟨_, .snoc hl hqw, rfl⟩, ?_⟩
        rw [List.map_cons, List.sum_cons]
        omega

/-- The longest path between the two. -/
theorem Series.isGreatest_sub (h : g.Series v w) (hp : g.Path v w) :
    IsGreatest (g.lengthsFrom v w) (g.longest w - g.longest v) := by
  obtain ⟨n, hn, heq⟩ := h.exists_longest hp
  constructor
  · rwa [heq, Nat.add_sub_cancel_left]
  · intro m hm
    have := longest_add_le hm
    omega

/-- The work between the two. -/
theorem Series.work_eq (h : g.Series v w) (hp : g.Path v w) (hw : w < g.size) :
    g.work [w] = g.work [v] + g.workFrom v w := by
  have hv : v < g.size := Nat.lt_of_le_of_lt hp.le hw
  have hlt : ∀ {x}, x < g.size → ∀ v ∈ [x], v < g.size :=
    fun hx v hv => List.mem_singleton.1 hv ▸ hx
  have hmem : ∀ {u x}, x < g.size → (u ∈ g.past [x] ↔ g.Path u x) := fun hx => by
    rw [mem_past (hlt hx)]
    simp
  have hsub : g.past [v] ⊆ g.past [w] := fun u hu => (hmem hw).2 (((hmem hv).1 hu).trans hp)
  rw [work_eq_add hsub, added, workFrom]
  refine congrArg _ (Finset.sum_congr ?_ fun _ _ => rfl)
  ext u
  simp only [Finset.mem_sdiff, Finset.mem_filter, Finset.mem_range, hmem hw, hmem hv]
  constructor
  · intro hu
    obtain ⟨hu, hnot⟩ := hu
    refine ⟨Nat.lt_of_le_of_lt hu.le hw, fun heq => hnot (heq ▸ .refl _), ?_, hu⟩
    exact (h u hu).resolve_left hnot
  · intro hu
    obtain ⟨-, hne, hvu, huw⟩ := hu
    exact ⟨huw, fun huv => hne (Nat.le_antisymm huv.le hvu.le)⟩

theorem longest_le_of_path (hp : g.Path v w) : g.longest v ≤ g.longest w := by
  obtain ⟨n, hn⟩ := exists_lengthsFrom hp
  have := longest_add_le hn
  omega

/-! ## What comes after a node -/

/-- The node comes after `v`, and all that comes before it is in series with that. -/
structure Succeeds (g : TimedDag) (v w : Nat) : Prop where
  lt_size : w < g.size
  path : g.Path v w
  series : g.Series v w

theorem Succeeds.self (h : v < g.size) : g.Succeeds v v := ⟨h, .refl _, fun _ => .inl⟩

theorem Succeeds.add_old (h : g.Succeeds v w) (ps : List Nat) (d : Nat) :
    (g.add ps d).Succeeds v w := by
  obtain ⟨hw, hp, hs⟩ := h
  have hv := Nat.lt_of_le_of_lt hp.le hw
  refine ⟨Nat.lt_succ_of_lt hw, (GrowingDag.path_add_old hw).2 hp, fun u hu => ?_⟩
  have huw := (GrowingDag.path_add_old hw).1 hu
  exact (hs u huw).imp (GrowingDag.path_add_old hv).2
    (GrowingDag.path_add_old (Nat.lt_of_le_of_lt huw.le hw)).2

theorem Succeeds.add_new (hne : ps ≠ []) (h : ∀ p ∈ ps, g.Succeeds v p) (d : Nat) :
    (g.add ps d).Succeeds v g.size := by
  have hlt : ∀ p ∈ ps, p < g.size := fun p hp => (h p hp).lt_size
  obtain ⟨p, hp⟩ := List.exists_mem_of_ne_nil _ hne
  have hv := Nat.lt_of_le_of_lt (h p hp).path.le (hlt p hp)
  have hpath : (g.add ps d).Path v g.size :=
    (GrowingDag.path_add_new hv hlt).2 ⟨p, hp, (h p hp).path⟩
  refine ⟨Nat.lt_succ_self _, hpath, fun u hu => ?_⟩
  rcases Nat.lt_or_eq_of_le hu.le with hul | rfl
  · obtain ⟨q, hq, huq⟩ := (GrowingDag.path_add_new hul hlt).1 hu
    exact ((h q hq).series u huq).imp (GrowingDag.path_add_old hv).2 (GrowingDag.path_add_old hul).2
  · exact .inr hpath

end TimedDag
