/-
Folds that are taken apart: a value and a stack of partial results above it,
each of what was combined since the one below was left. The operation is
associative, and need not commute.
-/
import Mathlib.Init

namespace PartialFolds

variable {M : Type u} (op : M → M → M)

/-- A partial result follows a value. -/
def after (x : M) : Option M → M
  | none => x
  | some y => op x y

/-- A partial result follows another. -/
def join : Option M → Option M → Option M
  | none, y => y
  | some x, y => some (after op x y)

/-- The value with all partial results after it, the latest being first. -/
def total (base : M) : List (Option M) → M
  | [] => base
  | l :: ls => after op (total base ls) l

variable {op}

@[simp] theorem after_none (x : M) : after op x none = x := rfl
@[simp] theorem total_cons_none (base : M) (ls : List (Option M)) :
    total op base (none :: ls) = total op base ls := rfl

theorem total_append (base : M) (ls ms : List (Option M)) :
    total op base (ls ++ ms) = total op (total op base ms) ls := by
  induction ls with
  | nil => rfl
  | cons l ls ih => rw [List.cons_append, total, total, ih]

theorem total_of_none {base : M} {ls : List (Option M)} (h : ∀ l ∈ ls, l = none) :
    total op base ls = base := by
  induction ls with
  | nil => rfl
  | cons l ls ih =>
    rw [List.forall_mem_cons] at h
    rw [total, h.1, after_none, ih h.2]

variable (hassoc : ∀ a b c, op (op a b) c = op a (op b c))

include hassoc in
theorem after_join (x : M) (l m : Option M) :
    after op x (join op l m) = after op (after op x l) m := by
  cases l with
  | none => rfl
  | some y =>
    cases m with
    | none => rfl
    | some z => exact (hassoc x y z).symm

include hassoc in
/-- What is at the top goes after what is below, with nothing in between. -/
theorem total_merge {base : M} {l m : Option M} (mid : List (Option M)) {ls : List (Option M)}
    (h : ∀ x ∈ mid, x = none) :
    total op base (l :: (mid ++ m :: ls)) = total op base (none :: (mid ++ join op m l :: ls)) := by
  rw [total_cons_none, total, total_append, total_append, total_of_none h, total_of_none h, total,
    total, after_join hassoc]

include hassoc in
/-- More is combined with what is there, with nothing above it. -/
theorem total_update {base x y : M} (mid : List (Option M)) {ls : List (Option M)}
    (h : ∀ x ∈ mid, x = none) :
    total op base (mid ++ some (op x y) :: ls) = op (total op base (mid ++ some x :: ls)) y := by
  rw [total_append, total_append, total_of_none h, total_of_none h, total, total]
  exact (hassoc _ x y).symm

/-- An identity may be put where nothing is. -/
theorem total_create {base one : M} (hone : ∀ x, op x one = x) (mid ls : List (Option M)) :
    total op base (mid ++ some one :: ls) = total op base (mid ++ none :: ls) := by
  rw [total_append, total_append, total, total, after_none]
  exact congrArg (total op · mid) (hone _)

end PartialFolds
