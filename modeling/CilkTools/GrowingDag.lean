/-
Directed acyclic graphs grown one sink at a time: each new node comes after
the nodes it is given as predecessors, so a path between two nodes, once
there, never appears or disappears again.
-/
import Mathlib.Logic.Relation
import Mathlib.Data.List.Basic

/-- A graph on `0, …, size - 1` whose edges go from smaller to larger nodes. -/
structure GrowingDag where
  size : Nat
  preds : Nat → List Nat
  pred_lt : ∀ v, ∀ u ∈ preds v, u < v
  lt_size : ∀ v, preds v ≠ [] → v < size

namespace GrowingDag

/-- No nodes yet. -/
def empty : GrowingDag where
  size := 0
  preds _ := []
  pred_lt := by simp
  lt_size := by simp

/-- Add the node `g.size` after those of `ps` that are in the graph. -/
def add (g : GrowingDag) (ps : List Nat) : GrowingDag where
  size := g.size + 1
  preds v := if v = g.size then ps.filter (· < g.size) else g.preds v
  pred_lt v u h := by
    split at h
    · next hv => subst hv; simpa using (List.mem_filter.1 h).2
    · exact g.pred_lt v u h
  lt_size v h := by
    split at h
    · next hv => omega
    · have := g.lt_size v h; omega

@[simp] theorem add_size (g : GrowingDag) (ps : List Nat) : (g.add ps).size = g.size + 1 := rfl

/-- There is a path from `u` to `v`, possibly empty. -/
def Path (g : GrowingDag) : Nat → Nat → Prop := Relation.ReflTransGen fun u v => u ∈ g.preds v

/-- Neither node comes before the other. -/
def Parallel (g : GrowingDag) (u v : Nat) : Prop := ¬ g.Path u v ∧ ¬ g.Path v u

variable {g : GrowingDag} {ps : List Nat} {u v : Nat}

theorem Path.refl (u : Nat) : g.Path u u := Relation.ReflTransGen.refl

theorem Path.le (h : g.Path u v) : u ≤ v := by
  induction h with
  | refl => exact Nat.le_refl _
  | tail _ h ih => have := g.pred_lt _ _ h; omega

/-- A node leads only to nodes that are there. -/
theorem Path.lt_size (h : g.Path u v) (hu : u < g.size) : v < g.size := by
  rcases Relation.ReflTransGen.cases_tail h with rfl | ⟨w, -, hw⟩
  · exact hu
  · exact g.lt_size v (List.ne_nil_of_mem hw)

/-- A path does not leave a set that no edge leaves. -/
theorem Path.of_closed {S : Nat → Prop} (h : g.Path u v)
    (hS : ∀ w < g.size, ∀ x ∈ g.preds w, S x → S w) (hu : S u) : S v := by
  induction h with
  | refl => exact hu
  | @tail x w _ hxw ih => exact hS w (g.lt_size w (List.ne_nil_of_mem hxw)) x hxw ih

/-- Paths between old nodes are the old paths. -/
theorem path_add_old (hv : v < g.size) : (g.add ps).Path u v ↔ g.Path u v := by
  constructor
  · intro h
    induction h with
    | refl => exact .refl _
    | @tail b c _ hbc ih =>
      have hne : c ≠ g.size := by omega
      simp only [add, hne, if_false] at hbc
      have := g.pred_lt _ _ hbc
      exact .tail (ih (by omega)) hbc
  · intro h
    induction h with
    | refl => exact .refl _
    | @tail b c _ hbc ih =>
      have := g.pred_lt _ _ hbc
      refine .tail (ih (by omega)) ?_
      simp only [add, show c ≠ g.size by omega, if_false]
      exact hbc

/-- The new node is reached through its predecessors. -/
theorem path_add_new (hu : u < g.size) (hps : ∀ p ∈ ps, p < g.size) :
    (g.add ps).Path u g.size ↔ ∃ p ∈ ps, g.Path u p := by
  constructor
  · intro h
    rcases Relation.ReflTransGen.cases_tail h with heq | ⟨p, hp, hps'⟩
    · omega
    · simp only [add, if_true, List.mem_filter] at hps'
      exact ⟨p, hps'.1, (path_add_old (hps p hps'.1)).1 hp⟩
  · rintro ⟨p, hp, h⟩
    refine .tail ((path_add_old (hps p hp)).2 h) ?_
    simp only [add, if_true, List.mem_filter]
    exact ⟨hp, by simpa using hps p hp⟩

theorem path_add_pred {p : Nat} (hp : p ∈ ps) (hlt : p < g.size) : (g.add ps).Path p g.size := by
  refine .tail .refl ?_
  simp only [add, if_true, List.mem_filter]
  exact ⟨hp, by simpa using hlt⟩

theorem Path.trans {w : Nat} (h₁ : g.Path u v) (h₂ : g.Path v w) : g.Path u w :=
  Relation.ReflTransGen.trans h₁ h₂

/-- The newest node is parallel to exactly the nodes it cannot be reached from. -/
theorem parallel_iff (hu : u < g.size) (hv : v + 1 = g.size) : g.Parallel u v ↔ ¬ g.Path u v := by
  constructor
  · exact fun h => h.1
  · intro h
    refine ⟨h, fun h' => h ?_⟩
    have := h'.le
    obtain rfl : u = v := by omega
    exact .refl u

end GrowingDag
