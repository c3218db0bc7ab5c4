/-
What the initialisation of a unit does to the tables of all types
(`__csirt_unit_init` and `__csanrt_unit_init`): the unit's entries of a type
are added to those of the units before it, and their number before that is the
unit's base ID.
-/
import CilkTools.Csi.FedTables

namespace Csi

/-- `fed_type_t`. -/
inductive FedType
  | functions
  | functionExit
  | loop
  | loopExit
  | basicblock
  | callsite
  | load
  | store
  | detach
  | task
  | taskExit
  | detachContinue
  | sync
  | alloca
  | allocfn
  | free
  deriving DecidableEq, Repr

namespace FedType

/-- In the order of the loops over them. -/
def all : List FedType :=
  [functions, functionExit, loop, loopExit, basicblock, callsite, load, store, detach, task,
    taskExit, detachContinue, sync, alloca, allocfn, free]

theorem mem_all (t : FedType) : t ∈ all := by
  cases t <;> decide

theorem nodup_all : all.Nodup := by decide

end FedType

/-- The tables of all types, what else the runtime keeps, and the base IDs of
the unit. -/
structure UnitInit (α : Type u) (σ : Type v) where
  tables : FedType → FedTables α
  rest : σ
  base : FedType → Nat

namespace UnitInit

variable {α : Type u} {σ : Type v}

section

variable (grow : FedType → FedTables α × σ → FedTables α × σ)

/-- The entries of one type. -/
def addType (entries : FedType → List α) (s : UnitInit α σ) (t : FedType) : UnitInit α σ :=
  let r := FedTables.addFedTable (grow t) (entries t) (s.tables t, s.rest)
  { tables := Function.update s.tables t r.1
    rest := r.2
    base := Function.update s.base t (r.1.updateIds (entries t).length) }

def addTypes (entries : FedType → List α) (s : UnitInit α σ) : UnitInit α σ :=
  FedType.all.foldl (addType grow entries) s

end

/-- Every growth keeps what the tables hold, but for what `lost` counts. -/
def GrowsWith (lost : Nat → Nat) (grow : FedTables α × σ → FedTables α × σ) : Prop :=
  ∀ s es, FedTables.Ready lost es s.1 → s.1.index.capacity = s.1.index.numTables →
  FedTables.Grown lost es s.1 (grow s).1

variable {grow : FedType → FedTables α × σ → FedTables α × σ} {lost : Nat → Nat}
  {es : FedType → List α}

theorem foldl_addType (hgrow : ∀ t, GrowsWith lost (grow t)) (entries : FedType → List α)
    (l : List FedType) :
    ∀ {s : UnitInit α σ}, l.Nodup → (∀ t, FedTables.Filled lost (es t) (s.tables t)) → ∀ t,
      FedTables.Filled lost (if t ∈ l then es t ++ entries t else es t)
      ((l.foldl (addType grow entries) s).tables t) ∧
        (l.foldl (addType grow entries) s).base t = if t ∈ l then (es t).length else s.base t := by
  induction l generalizing es with
  | nil =>
    intro s _ h t
    rw [if_neg List.not_mem_nil, if_neg List.not_mem_nil]
    exact ⟨h t, rfl⟩
  | cons u l ih =>
    intro s hnd h t
    obtain ⟨hu, hl⟩ := List.nodup_cons.1 hnd
    obtain ⟨hadd, hbase⟩ := (h u).addFedTable (s := (s.tables u, s.rest)) (hgrow u) (entries u)
    have hstep : ∀ t, FedTables.Filled lost (if t = u then es t ++ entries t else es t)
      ((addType grow entries s u).tables t) := fun t => by
        by_cases ht : t = u
        · subst ht
          simpa [addType] using hadd
        · simpa [addType, ht] using h t
    obtain ⟨h₁, h₂⟩ := ih hl hstep t
    rw [List.foldl_cons]
    by_cases ht : t = u
    · subst ht
      rw [if_neg hu, if_pos rfl] at h₁
      rw [if_neg hu] at h₂
      rw [if_pos List.mem_cons_self, if_pos List.mem_cons_self]
      refine ⟨h₁, h₂.trans ?_⟩
      simp only [addType, Function.update_self]
      exact hbase
    · rw [if_neg ht] at h₁ h₂
      have hmem : (t ∈ u :: l) ↔ t ∈ l := by simp [ht]
      simp only [hmem]
      refine ⟨h₁, h₂.trans ?_⟩
      simp [addType, ht]

/-- **A unit.** -/
theorem addTypes_spec (hgrow : ∀ t, GrowsWith lost (grow t)) (entries : FedType → List α)
    {s : UnitInit α σ} (h : ∀ t, FedTables.Filled lost (es t) (s.tables t)) (t : FedType) :
    FedTables.Filled lost (es t ++ entries t) ((addTypes grow entries s).tables t) ∧
      (addTypes grow entries s).base t = (es t).length := by
  have hfold := foldl_addType hgrow entries FedType.all FedType.nodup_all h t
  rwa [if_pos t.mem_all, if_pos t.mem_all] at hfold

end UnitInit

/-- Where the entries of a unit are among those of all units. -/
theorem getElem?_flatMap {υ : Type v} {α : Type u} (f : υ → List α) {us : List υ} {k : Nat} {u : υ}
    (hu : us[k]? = some u)
    {i : Nat} {x : α} (hx : (f u)[i]? = some x) :
    (us.flatMap f)[((us.take k).flatMap f).length + i]? = some x := by
  induction us generalizing k with
  | nil => cases hu
  | cons v us ih =>
    obtain ⟨hi, -⟩ := List.getElem?_eq_some_iff.1 hx
    cases k with
    | zero =>
      cases hu
      simpa [List.getElem?_append_left hi] using hx
    | succ k =>
      have h := ih hu
      rw [List.take_succ_cons, List.flatMap_cons, List.flatMap_cons, List.length_append,
        Nat.add_assoc, List.getElem?_append_right (Nat.le_add_right _ _), Nat.add_sub_cancel_left]
      exact h

/-- The first of all entries is that of a unit with none before it. -/
theorem exists_first {υ : Type v} {α : Type u} (f : υ → List α) {us : List υ}
    (h : us.flatMap f ≠ []) :
    ∃ k u x, us[k]? = some u ∧ (us.take k).flatMap f = [] ∧ (f u)[0]? = some x := by
  induction us with
  | nil => exact absurd rfl h
  | cons v us ih =>
    cases hv : f v with
    | nil =>
      obtain ⟨k, u, x, h₁, h₂, h₃⟩ := ih (by rwa [List.flatMap_cons, hv, List.nil_append] at h)
      exact ⟨k + 1, u, x, h₁, by rw [List.take_succ_cons, List.flatMap_cons, hv, h₂]; rfl, h₃⟩
    | cons x xs => exact ⟨0, v, x, rfl, rfl, by rw [hv]; rfl⟩

/-! ## Base IDs -/

section

variable {υ : Type v} {α : Type u} {f : υ → FedType → List α} {units : List υ}
  {bases : List (FedType → Nat)}

/-- The base IDs of the units: the numbers of entries before them. -/
structure Bases (f : υ → FedType → List α) (units : List υ)
    (bases : List (FedType → Nat)) : Prop where
  length : bases.length = units.length
  base : ∀ k base, bases[k]? = some base → ∀ t, base t = ((units.take k).flatMap (f · t)).length

theorem Bases.nil : Bases f [] [] := ⟨rfl, by simp⟩

theorem Bases.snoc (h : Bases f units bases) (unit : υ) {base : FedType → Nat}
    (hbase : ∀ t, base t = (units.flatMap (f · t)).length) :
    Bases f (units ++ [unit]) (bases ++ [base]) := by
  obtain ⟨hlen, hb⟩ := h
  refine ⟨by rw [List.length_append, List.length_append, hlen]; rfl, fun k b hk t => ?_⟩
  rcases Nat.lt_trichotomy k units.length with hlt | heq | hgt
  · rw [List.getElem?_append_left (by omega)] at hk
    rw [List.take_append_of_le_length (Nat.le_of_lt hlt)]
    exact hb k b hk t
  · subst heq
    rw [← hlen, List.getElem?_concat_length] at hk
    cases hk
    rw [List.take_left]
    exact hbase t
  · rw [List.getElem?_eq_none (by rw [List.length_append, List.length_singleton]; omega)] at hk
    cases hk

end

end Csi
