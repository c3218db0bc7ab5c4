/-
Forests of parent pointers with ranks: what linking two roots and
redirecting a node to its root do to the root each node leads to.
-/
import Mathlib.Logic.Function.Basic

namespace Forest

variable {ι : Type u}

/-- `x` leads to the root `r` along parent pointers. -/
inductive Root (parent : ι → Option ι) : ι → ι → Prop
  | here {x} (h : parent x = none) : Root parent x x
  | up {x p r} (h : parent x = some p) (hp : Root parent p r) : Root parent x r

/-- Ranks strictly increase from a node to its parent. -/
def Ranked (parent : ι → Option ι) (rank : ι → Nat) : Prop :=
  ∀ x p, parent x = some p → rank x < rank p

namespace Root

variable {parent : ι → Option ι} {x y r s a b : ι}

theorem isRoot (h : Root parent x r) : parent r = none := by
  induction h with
  | here h => exact h
  | up _ _ ih => exact ih

theorem det (h₁ : Root parent x r) (h₂ : Root parent x s) : r = s := by
  induction h₁ with
  | here h =>
    cases h₂ with
    | here => rfl
    | up h' => rw [h] at h'; cases h'
  | up h _ ih =>
    cases h₂ with
    | here h' => rw [h] at h'; cases h'
    | up h' hp => rw [h] at h'; cases h'; exact ih hp

/-- A root leads to itself only. -/
theorem eq_of_root (h : Root parent x r) (hx : parent x = none) : r = x := h.det (.here hx)

theorem rank_le {rank : ι → Nat} (hr : Ranked parent rank) (h : Root parent x r) :
    rank x ≤ rank r := by
  induction h with
  | here => exact Nat.le_refl _
  | up h _ ih => have := hr _ _ h; omega

theorem rank_lt {rank : ι → Nat} (hr : Ranked parent rank) (h : Root parent x r)
    (hx : parent x = some a) : rank x < rank r := by
  cases h with
  | here h => rw [h] at hx; cases hx
  | up h hp => have := hr _ _ h; have := hp.rank_le hr; omega

variable [DecidableEq ι]

/-- Linking root `a` below root `b` moves the nodes of `a` to `b`. -/
theorem link (ha : parent a = none) (hb : parent b = none) (hab : a ≠ b) (h : Root parent y s) :
    Root (Function.update parent a (some b)) y (if s = a then b else s) := by
  have hb' : Root (Function.update parent a (some b)) b b :=
    .here (by rw [Function.update_of_ne hab.symm]; exact hb)
  induction h with
  | @here x h =>
    by_cases hx : x = a
    · subst hx
      simp only [if_true]
      exact .up (Function.update_self ..) hb'
    · simp only [hx, if_false]
      exact .here (by rw [Function.update_of_ne hx]; exact h)
  | @up x p r h _ ih =>
    have hx : x ≠ a := by rintro rfl; rw [ha] at h; cases h
    exact .up (by rw [Function.update_of_ne hx]; exact h) ih

/-- Redirecting a node to its own root changes no node's root. -/
theorem compress (hx : Root parent x r) (hne : parent x ≠ none) (h : Root parent y s) :
    Root (Function.update parent x (some r)) y s := by
  have hrx : r ≠ x := by rintro rfl; exact hne hx.isRoot
  have hr : Root (Function.update parent x (some r)) r r :=
    .here (by rw [Function.update_of_ne hrx]; exact hx.isRoot)
  induction h with
  | @here z h =>
    have hz : z ≠ x := by rintro rfl; exact hne h
    exact .here (by rw [Function.update_of_ne hz]; exact h)
  | @up z p s h hp ih =>
    by_cases hz : z = x
    · subst hz
      cases hx.det (.up h hp)
      exact .up (Function.update_self ..) hr
    · exact .up (by rw [Function.update_of_ne hz]; exact h) ih

end Root

namespace Ranked

variable {parent : ι → Option ι} {rank : ι → Nat}

/-- Every node leads to a root when ranks are bounded on what it can reach. -/
theorem exists_root (hr : Ranked parent rank) {S : ι → Prop} {B : Nat} (hB : ∀ x, S x → rank x ≤ B)
    (hS : ∀ x p, S x → parent x = some p → S p) : ∀ n x, S x → B - rank x ≤ n →
    ∃ r, S r ∧ Root parent x r := by
  intro n
  induction n with
  | zero =>
    intro x hx hn
    cases hp : parent x with
    | none => exact ⟨x, hx, .here hp⟩
    | some p =>
      have := hr x p hp
      have := hB p (hS x p hx hp)
      omega
  | succ n ih =>
    intro x hx hn
    cases hp : parent x with
    | none => exact ⟨x, hx, .here hp⟩
    | some p =>
      have h₁ := hr x p hp
      have h₂ := hB p (hS x p hx hp)
      obtain ⟨r, hSr, h⟩ := ih p (hS x p hx hp) (by omega)
      exact ⟨r, hSr, .up hp h⟩

variable [DecidableEq ι]

theorem update (hr : Ranked parent rank) {x r : ι} (h : rank x < rank r) :
    Ranked (Function.update parent x (some r)) rank := by
  intro y p hp
  by_cases hy : y = x
  · subst hy
    rw [Function.update_self] at hp
    cases hp
    exact h
  · rw [Function.update_of_ne hy] at hp
    exact hr y p hp

end Ranked

end Forest
