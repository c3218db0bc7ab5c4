/-
Series-parallel computations and their depth-first serial order.

A computation is a tree of strands composed in series and in parallel. Its
strands are numbered in the order a depth-first serial execution runs them,
and two of them are parallel when their least common ancestor is a parallel
composition. `SerialOrder` collects what a one-pass analysis may use of the
two relations; `Comp.serialOrder` says every computation has it.
-/
import Mathlib.Data.List.Basic
import Mathlib.Tactic.SplitIfs
import Mathlib.Tactic.Cases

namespace SeriesParallel

/-- A series-parallel computation with a label on each strand. -/
inductive Comp (α : Type u)
  | strand (a : α)
  | series (c d : Comp α)
  | par (c d : Comp α)

namespace Comp

variable {α : Type u} {β : Type v}

/-- The number of strands. -/
def size : Comp α → Nat
  | .strand _ => 1
  | .series c d | .par c d => c.size + d.size

/-- Strands `i` and `j`, in depth-first order, meet at a parallel composition. -/
def parallel : Comp α → Nat → Nat → Bool
  | .strand _, _, _ => false
  | .series c d, i, j =>
    if i < c.size ∧ j < c.size then c.parallel i j
    else if c.size ≤ i ∧ c.size ≤ j then d.parallel (i - c.size) (j - c.size) else false
  | .par c d, i, j =>
    if i < c.size ∧ j < c.size then c.parallel i j
    else if c.size ≤ i ∧ c.size ≤ j then d.parallel (i - c.size) (j - c.size) else true

/-- What the strands do, in depth-first order, each action with the number
of its strand. -/
def trace : Comp (List β) → List (Nat × β)
  | .strand l => l.map fun b => (0, b)
  | .series c d | .par c d => c.trace ++ d.trace.map fun e => (c.size + e.1, e.2)

end Comp

/-- What a depth-first pass may assume of the parallel relation: in serial
order it is pseudo-transitive, and whatever an earlier strand is parallel to
later on, its serial successors are parallel to as well. -/
structure SerialOrder (par : Nat → Nat → Bool) : Prop where
  irrefl : ∀ i, par i i = false
  symm : ∀ {i j}, par i j = par j i
  trans : ∀ {i j k}, i ≤ j → j ≤ k → par i j = true → par j k = true → par i k = true
  series_par : ∀ {i j k}, i ≤ j → j ≤ k → par i j = false → par i k = true → par j k = true

namespace Comp

variable {α : Type u} {β : Type v}

theorem parallel_self (c : Comp α) : ∀ i, c.parallel i i = false := by
  induction c with
  | strand a => intro i; rfl
  | series c d ihc ihd | par c d ihc ihd =>
    intro i
    simp only [parallel]
    split_ifs with h₁ h₂
    · exact ihc i
    · exact ihd _
    · omega

theorem parallel_symm (c : Comp α) : ∀ i j, c.parallel i j = c.parallel j i := by
  induction c with
  | strand a => intro i j; rfl
  | series c d ihc ihd | par c d ihc ihd =>
    intro i j
    simp only [parallel, and_comm (a := j < c.size), and_comm (a := c.size ≤ j), ihc i j,
      ihd (i - c.size) (j - c.size)]

theorem parallel_trans (c : Comp α) : ∀ {i j k}, i ≤ j → j ≤ k →
    c.parallel i j = true → c.parallel j k = true → c.parallel i k = true := by
  induction c with
  | strand a => intro i j k _ _ h; cases h
  | series c d ihc ihd =>
    intro i j k hij hjk h₁ h₂
    simp only [parallel] at h₁ h₂ ⊢
    split_ifs at h₁ h₂ ⊢ <;>
      first | exact ihc hij hjk h₁ h₂ | exact ihd (by omega) (by omega) h₁ h₂ | omega
  | par c d ihc ihd =>
    intro i j k hij hjk h₁ h₂
    simp only [parallel] at h₁ h₂ ⊢
    split_ifs at h₁ h₂ ⊢ <;>
      first | rfl | exact ihc hij hjk h₁ h₂ | exact ihd (by omega) (by omega) h₁ h₂ | omega

theorem parallel_of_series (c : Comp α) : ∀ {i j k}, i ≤ j → j ≤ k →
    c.parallel i j = false → c.parallel i k = true → c.parallel j k = true := by
  induction c with
  | strand a => intro i j k _ _ _ h; cases h
  | series c d ihc ihd =>
    intro i j k hij hjk h₁ h₂
    simp only [parallel] at h₁ h₂ ⊢
    split_ifs at h₁ h₂ ⊢ <;>
      first | exact ihc hij hjk h₁ h₂ | exact ihd (by omega) (by omega) h₁ h₂ | omega
  | par c d ihc ihd =>
    intro i j k hij hjk h₁ h₂
    simp only [parallel] at h₁ h₂ ⊢
    split_ifs at h₁ h₂ ⊢ <;>
      first | rfl | exact ihc hij hjk h₁ h₂ | exact ihd (by omega) (by omega) h₁ h₂ | omega

/-- Depth-first order of a series-parallel computation. -/
theorem serialOrder (c : Comp α) : SerialOrder c.parallel where
  irrefl := c.parallel_self
  symm := c.parallel_symm _ _
  trans := c.parallel_trans
  series_par := c.parallel_of_series

theorem trace_strand_lt (c : Comp (List β)) : ∀ e ∈ c.trace, e.1 < c.size := by
  induction c with
  | strand l => simp [trace, size]
  | series c d ihc ihd | par c d ihc ihd =>
    intro e he
    simp only [trace, List.mem_append, List.mem_map] at he
    simp only [size]
    rcases he with he | ⟨e', he', rfl⟩
    · have := ihc e he; omega
    · have := ihd e' he'; simp only; omega

/-- Actions come in the order of their strands. -/
theorem trace_sorted (c : Comp (List β)) : c.trace.Pairwise fun a b => a.1 ≤ b.1 := by
  induction c with
  | strand l =>
    simp only [trace, List.pairwise_map]
    exact List.pairwise_of_forall fun _ _ => Nat.le_refl _
  | series c d ihc ihd | par c d ihc ihd =>
    simp only [trace, List.pairwise_append, List.pairwise_map]
    refine ⟨ihc, ?_, fun a ha b hb => ?_⟩
    · exact ihd.imp fun h => by omega
    · obtain ⟨b', _, rfl⟩ := List.mem_map.1 hb
      have := c.trace_strand_lt a ha
      simp only
      omega

end Comp

end SeriesParallel
