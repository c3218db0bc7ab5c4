/-
Growing graphs whose nodes take time: the paths that lead to a node, their
lengths, and the longest of them.
-/
import CilkTools.GrowingDag
import Mathlib.Order.Bounds.Basic
import Mathlib.Algebra.BigOperators.Group.List.Basic
import Mathlib.Algebra.Order.Ring.Nat

structure TimedDag extends GrowingDag where
  time : Nat → Nat

namespace TimedDag

def empty : TimedDag where
  toGrowingDag := .empty
  time _ := 0

/-- Add the node `g.size`, which takes `d`, after those of `ps`. -/
def add (g : TimedDag) (ps : List Nat) (d : Nat) : TimedDag where
  toGrowingDag := g.toGrowingDag.add ps
  time v := if v = g.size then d else g.time v

/-- The nodes of a path that ends in `v`, the last first. -/
inductive PathTo (g : TimedDag) : Nat → List Nat → Prop
  | one (v : Nat) : PathTo g v [v]
  | snoc {u v : Nat} {l : List Nat} (h : PathTo g u l) (hu : u ∈ g.preds v) : PathTo g v (v :: l)

/-- The lengths of the paths that end in `v`. -/
def lengths (g : TimedDag) (v : Nat) : Set Nat := {n | ∃ l, g.PathTo v l ∧ (l.map g.time).sum = n}

/-- The lengths of the paths up to a point that follows the nodes `vs`. -/
def lengthsTo (g : TimedDag) (vs : List Nat) : Set Nat := {n | n = 0 ∨ ∃ v ∈ vs, n ∈ g.lengths v}

/-- The longest path of at most `k` nodes that ends in `v`. -/
def longestOf (g : TimedDag) : Nat → Nat → Nat
  | 0, _ => 0
  | k + 1, v => g.time v + ((g.preds v).map (g.longestOf k)).foldr max 0

def longest (g : TimedDag) (v : Nat) : Nat := g.longestOf (v + 1) v

/-- The longest path up to a point that follows the nodes `vs`. -/
def latest (g : TimedDag) (vs : List Nat) : Nat := (vs.map g.longest).foldr max 0

variable {g : TimedDag} {u v n d : Nat} {us vs ps : List Nat}

@[simp] theorem add_size (g : TimedDag) (ps : List Nat) (d : Nat) :
    (g.add ps d).size = g.size + 1 := rfl

theorem longestOf_eq_longest {k : Nat} (h : v < k) : g.longestOf k v = g.longest v := by
  suffices hk : ∀ k m v, v < k → v < m →
    g.longestOf k v = g.longestOf m v from hk _ _ _ h (Nat.lt_succ_self v)
  intro k
  induction k with
  | zero => intro m v hv; omega
  | succ k ih =>
    intro m v hv hm
    obtain ⟨m, rfl⟩ : ∃ m', m = m' + 1 := ⟨m - 1, by omega⟩
    have heq : (g.preds v).map (g.longestOf k) = (g.preds v).map (g.longestOf m) := by
      refine List.map_congr_left fun u hu => ?_
      have := g.pred_lt v u hu
      exact ih m u (by omega) (by omega)
    simp only [longestOf, heq]

theorem longest_eq (g : TimedDag) (v : Nat) : g.longest v = g.time v + g.latest (g.preds v) := by
  have heq : (g.preds v).map (g.longestOf v) = (g.preds v).map g.longest :=
    List.map_congr_left fun u hu => longestOf_eq_longest (g.pred_lt v u hu)
  simp only [longest, longestOf, latest, heq]

/-! ## The latest of several nodes -/

@[simp] theorem latest_nil (g : TimedDag) : g.latest [] = 0 := rfl

@[simp] theorem latest_cons (g : TimedDag) (v : Nat) (vs : List Nat) :
    g.latest (v :: vs) = max (g.longest v) (g.latest vs) := rfl

theorem latest_append (g : TimedDag) (us vs : List Nat) :
    g.latest (us ++ vs) = max (g.latest us) (g.latest vs) := by
  induction us with
  | nil => simp
  | cons u us ih => simp [ih, Nat.max_assoc]

theorem latest_le : g.latest vs ≤ n ↔ ∀ v ∈ vs, g.longest v ≤ n := by
  induction vs with
  | nil => simp
  | cons v vs ih => simp [ih]

theorem longest_le_latest (hv : v ∈ vs) : g.longest v ≤ g.latest vs :=
  latest_le.1 (Nat.le_refl _) v hv

theorem exists_latest (h : vs ≠ []) : ∃ v ∈ vs, g.latest vs = g.longest v := by
  induction vs with
  | nil => exact absurd rfl h
  | cons v vs ih =>
    by_cases hvs : vs = []
    · exact ⟨v, by simp, by simp [hvs]⟩
    · obtain ⟨u, hu, heq⟩ := ih hvs
      rcases Nat.le_total (g.longest v) (g.latest vs) with hle | hle
      · exact ⟨u, by simp [hu], by rw [latest_cons, Nat.max_eq_right hle, heq]⟩
      · exact ⟨v, by simp, by rw [latest_cons, Nat.max_eq_left hle]⟩

/-! ## The longest path -/

theorem PathTo.sum_le {l : List Nat} (h : g.PathTo v l) : (l.map g.time).sum ≤ g.longest v := by
  induction h with
  | one v =>
    rw [longest_eq]
    simp
  | @snoc u v l _ hu ih =>
    have hle := longest_le_latest (g := g) hu
    rw [longest_eq, List.map_cons, List.sum_cons]
    omega

theorem longest_mem_lengths (g : TimedDag) (v : Nat) : g.longest v ∈ g.lengths v := by
  induction v using Nat.strongRecOn with
  | ind v ih =>
    by_cases hv : g.preds v = []
    · exact ⟨[v], .one v, by rw [longest_eq, hv]; simp⟩
    · obtain ⟨u, hu, heq⟩ := exists_latest (g := g) hv
      obtain ⟨l, hl, hsum⟩ := ih u (g.pred_lt v u hu)
      exact ⟨v :: l, .snoc hl hu, by rw [longest_eq, heq, ← hsum]; simp⟩

theorem isGreatest_longest (g : TimedDag) (v : Nat) : IsGreatest (g.lengths v) (g.longest v) := by
  refine ⟨g.longest_mem_lengths v, fun n hn => ?_⟩
  obtain ⟨l, hl, rfl⟩ := hn
  exact hl.sum_le

/-- `latest` is the length of the longest path. -/
theorem isGreatest_latest (g : TimedDag) (vs : List Nat) :
    IsGreatest (g.lengthsTo vs) (g.latest vs) := by
  constructor
  · by_cases h : vs = []
    · exact .inl (by rw [h]; rfl)
    · obtain ⟨v, hv, heq⟩ := exists_latest (g := g) h
      exact .inr ⟨v, hv, heq ▸ g.longest_mem_lengths v⟩
  · intro n hn
    rcases hn with rfl | ⟨v, hv, hn⟩
    · exact Nat.zero_le _
    · exact ((g.isGreatest_longest v).2 hn).trans (longest_le_latest hv)

/-! ## A new node -/

/-- The paths to an old node are the old paths. -/
theorem longest_add_old (hv : v < g.size) : (g.add ps d).longest v = g.longest v := by
  induction v using Nat.strongRecOn with
  | ind v ih =>
    have hne : v ≠ g.size := by omega
    have hpreds : (g.add ps d).preds v = g.preds v := by simp [add, GrowingDag.add, hne]
    have hmap : (g.preds v).map (g.add ps d).longest = (g.preds v).map g.longest := by
      refine List.map_congr_left fun u hu => ?_
      have := g.pred_lt v u hu
      exact ih u this (by omega)
    rw [longest_eq, longest_eq, hpreds, latest, hmap]
    simp [add, hne, latest]

theorem latest_add_old (h : ∀ v ∈ vs, v < g.size) : (g.add ps d).latest vs = g.latest vs := by
  rw [latest, latest, List.map_congr_left fun v hv => longest_add_old (h v hv)]

theorem longest_add_new (h : ∀ p ∈ ps, p < g.size) :
    (g.add ps d).longest g.size = d + g.latest ps := by
  have hps : ps.filter (· < g.size) = ps := by simpa using h
  rw [longest_eq, show (g.add ps d).preds g.size = ps by simp [add, GrowingDag.add, hps],
    latest_add_old h]
  simp [add]

end TimedDag
