/-
Series-parallel graphs of weighted strands: the work and the span of a
graph, and its paths from the source to the sink.
-/
import Mathlib.Order.Bounds.Basic
import Mathlib.Algebra.BigOperators.Group.List.Basic
import Mathlib.Algebra.Order.Ring.Nat

/-- Strands composed in series and in parallel. -/
inductive SPDag (α : Type u)
  | empty
  | strand (a : α)
  | seq (d e : SPDag α)
  | par (d e : SPDag α)
  deriving DecidableEq, Repr

namespace SPDag

variable {α : Type u}

def strands : SPDag α → List α
  | empty => []
  | strand a => [a]
  | seq d e => d.strands ++ e.strands
  | par d e => d.strands ++ e.strands

/-- The weight of all strands. -/
def work (w : α → Nat) (d : SPDag α) : Nat := (d.strands.map w).sum

def span (w : α → Nat) : SPDag α → Nat
  | empty => 0
  | strand a => w a
  | seq d e => d.span w + e.span w
  | par d e => max (d.span w) (e.span w)

/-- The strands on a path from the source to the sink. -/
inductive Path : SPDag α → List α → Prop
  | empty : Path .empty []
  | strand (a : α) : Path (.strand a) [a]
  | seq {d e : SPDag α} {l m : List α} (h : Path d l) (h' : Path e m) : Path (.seq d e) (l ++ m)
  | left {d : SPDag α} (e : SPDag α) {l : List α} (h : Path d l) : Path (.par d e) l
  | right (d : SPDag α) {e : SPDag α} {l : List α} (h : Path e l) : Path (.par d e) l

variable (w : α → Nat)

@[simp] theorem work_empty : (empty : SPDag α).work w = 0 := rfl
@[simp] theorem work_strand (a : α) : (strand a).work w = w a := by simp [work, strands]
@[simp] theorem work_seq (d e : SPDag α) :
    (seq d e).work w = d.work w + e.work w := by simp [work, strands]
@[simp] theorem work_par (d e : SPDag α) :
    (par d e).work w = d.work w + e.work w := by simp [work, strands]

/-- The lengths of the paths. -/
def lengths (d : SPDag α) : Set Nat := {n | ∃ l, d.Path l ∧ (l.map w).sum = n}

theorem span_mem_lengths (d : SPDag α) : d.span w ∈ d.lengths w := by
  induction d with
  | empty => exact ⟨[], .empty, rfl⟩
  | strand a => exact ⟨[a], .strand a, by simp [span]⟩
  | seq d e ihd ihe =>
    obtain ⟨l, hl, hd⟩ := ihd
    obtain ⟨m, hm, he⟩ := ihe
    exact ⟨l ++ m, .seq hl hm, by simp [span, hd, he]⟩
  | par d e ihd ihe =>
    obtain ⟨l, hl, hd⟩ := ihd
    obtain ⟨m, hm, he⟩ := ihe
    rcases Nat.le_total (d.span w) (e.span w) with h | h
    · exact ⟨m, .right d hm, by simp [span, he, h]⟩
    · exact ⟨l, .left e hl, by simp [span, hd, h]⟩

theorem Path.sum_le_span {d : SPDag α} {l : List α} (h : d.Path l) : (l.map w).sum ≤ d.span w := by
  induction h with
  | empty => exact Nat.le_refl _
  | strand a => simp [span]
  | seq _ _ ihd ihe =>
    simp only [List.map_append, List.sum_append, span]
    omega
  | left e _ ih => exact ih.trans (Nat.le_max_left ..)
  | right d _ ih => exact ih.trans (Nat.le_max_right ..)

/-- The span is the length of the longest path. -/
theorem isGreatest_span (d : SPDag α) : IsGreatest (d.lengths w) (d.span w) := by
  refine ⟨d.span_mem_lengths w, fun n hn => ?_⟩
  obtain ⟨l, hl, rfl⟩ := hn
  exact hl.sum_le_span w

end SPDag
