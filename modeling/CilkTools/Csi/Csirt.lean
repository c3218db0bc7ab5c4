/-
The CSI runtime (`csirt.c`): units are initialised one after another, and give
out IDs of source locations.

Its index of tables is copied to itself when it grows, so that the tables it had
are lost (`Csirt.csirtIds_iff`).
-/
import CilkTools.Csi.EntryArrays
import CilkTools.Csi.UnitTables
import Mathlib.Data.List.Induction

namespace Csi

/-- `sizeinfo_type_t`. -/
inductive SizeinfoType
  | basicblock
  deriving DecidableEq, Repr

/-- The tables a unit brings: the entries of each type. -/
structure CsirtUnit (α : Type u) (β : Type v) where
  fedTables : FedType → List α
  sizeinfoTables : SizeinfoType → List β

structure Csirt (α : Type u) (β : Type v) where
  fedTables : FedType → FedTables α
  sizeinfoTables : SizeinfoType → EntryArray β

namespace Csirt

variable {α : Type u} {β : Type v}

/-- The tables as the first unit makes them. -/
def initializeTables : Csirt α β := ⟨fun _ => .initializeFedTables, fun _ => {}⟩

/-- The growth of `allocate_new_table_and_append_to_index`: `memcpy` is to
`index->tables`, which is still the old array. -/
def grow (_ : FedType) (s : FedTables α × Unit) : FedTables α × Unit :=
  (s.1.growIndex fun oldTables _ => oldTables, s.2)

/-- `__csirt_unit_init`, and the base IDs it stores. -/
def unitInit (s : Option (Csirt α β)) (unit : CsirtUnit α β) : Csirt α β × (FedType → Nat) :=
  let s := s.getD initializeTables
  let r := UnitInit.addTypes grow unit.fedTables ⟨s.fedTables, (), fun _ => 0⟩
  (⟨r.tables, fun t => (s.sizeinfoTables t).addSizeinfoTable (unit.sizeinfoTables t)⟩, r.base)

/-- The runtime after the units, and their base IDs. There is none before the
first unit. -/
def initUnits (units : List (CsirtUnit α β)) : Option (Csirt α β) × List (FedType → Nat) :=
  units.foldl
    (fun s unit => (some (unitInit s.1 unit).1, s.2 ++ [(unitInit s.1 unit).2])) (none, [])

/-- A lookup before the first unit reads through a null pointer. -/
def getFedEntry (s : Option (Csirt α β)) (t : FedType) (csiId : BitVec 64) : Lookup α :=
  match s with
  | none => .outside
  | some s => (s.fedTables t).getFedEntry csiId

def getSizeinfoEntry (s : Option (Csirt α β)) (t : SizeinfoType) (csiId : BitVec 64) : Lookup β :=
  match s with
  | none => .outside
  | some s => (s.sizeinfoTables t).getEntry csiId

/-- All entries of a type, unit by unit. -/
def entries (units : List (CsirtUnit α β)) (t : FedType) : List α := units.flatMap (·.fedTables t)

def sizeinfoEntries (units : List (CsirtUnit α β)) (t : SizeinfoType) : List β :=
  units.flatMap (·.sizeinfoTables t)

/-- The tables that an index of this capacity has lost: all it had when it last grew. -/
def lost (capacity : Nat) : Nat := if capacity ≤ 2 ^ 8 then 0 else capacity / 2

theorem grow_grows (t : FedType) : UnitInit.GrowsWith lost (@grow α t) := fun s es h hfull => by
  have h8 : 2 ^ 8 ≤ s.1.index.capacity := by
    rcases h.grown with hc | ⟨k, hc, -⟩
    · exact Nat.le_of_eq hc.symm
    · rw [hc]
      exact Nat.pow_le_pow_right (by decide) (by omega)
  have hlost : lost (s.1.index.capacity * 2) = s.1.index.numTables := by
    unfold lost
    rw [if_neg (by omega), Nat.mul_div_cancel _ (by decide), hfull]
  refine ⟨?_, Nat.le_of_eq hlost, rfl, rfl, rfl⟩
  rw [hlost]
  exact h.holds.growIndex_old hfull

/-- The runtime's tables are those of the units. -/
structure Holds (units : List (CsirtUnit α β)) (s : Csirt α β) : Prop where
  fed : ∀ t, FedTables.Filled lost (entries units t) (s.fedTables t)
  sizeinfo : ∀ t, EntryArray.Holds (sizeinfoEntries units t) (s.sizeinfoTables t)

theorem Holds.initializeTables : Holds [] (initializeTables : Csirt α β) :=
  ⟨fun _ => .initializeFedTables rfl, fun _ => .empty⟩

theorem Holds.unitInit {units : List (CsirtUnit α β)} {s : Option (Csirt α β)}
    (h : Holds units (s.getD Csirt.initializeTables))
    (unit : CsirtUnit α β) : Holds (units ++ [unit]) (Csirt.unitInit s unit).1 ∧
      ∀ t, (Csirt.unitInit s unit).2 t = (entries units t).length := by
  have hadd := UnitInit.addTypes_spec grow_grows unit.fedTables
    (s := (⟨(s.getD Csirt.initializeTables).fedTables, (), fun _ => 0⟩ : UnitInit α Unit)) h.fed
  refine ⟨⟨fun t => ?_, fun t => ?_⟩, fun t => (hadd t).2⟩
  · rw [entries, List.flatMap_append, List.flatMap_singleton]
    exact (hadd t).1
  · rw [sizeinfoEntries, List.flatMap_append, List.flatMap_singleton]
    exact (h.sizeinfo t).addSizeinfoTable _

theorem initUnits_snoc (units : List (CsirtUnit α β)) (unit : CsirtUnit α β) :
    initUnits (units ++ [unit]) =
    (some (unitInit (initUnits units).1 unit).1,
      (initUnits units).2 ++ [(unitInit (initUnits units).1 unit).2]) := by
  rw [initUnits, List.foldl_append]
  rfl

/-- The state after any units. -/
theorem initUnits_spec (units : List (CsirtUnit α β)) :
    Holds units ((initUnits units).1.getD initializeTables) ∧
    ((initUnits units).1 = none ↔ units = []) ∧
    Bases CsirtUnit.fedTables units (initUnits units).2 := by
  induction units using List.reverseRecOn with
  | nil => exact ⟨.initializeTables, by simp [initUnits], .nil⟩
  | append_singleton units unit ih =>
    obtain ⟨h, -, hbases⟩ := ih
    obtain ⟨h', hbase'⟩ := h.unitInit unit
    rw [initUnits_snoc]
    exact ⟨h', by simp, hbases.snoc unit hbase'⟩

/-! ## IDs -/

/-- After these units, every unit's base ID counts the entries before it, and
its IDs are those of its entries. -/
def IdsNow (units : List (CsirtUnit α β)) : Prop :=
  ∀ k u, units[k]? = some u →
  ∃ base, (initUnits units).2[k]? = some base ∧ ∀ t, base t = (entries (units.take k) t).length ∧
    ∀ i x, (u.fedTables t)[i]? = some x →
    getFedEntry (initUnits units).1 t (BitVec.ofNat 64 (base t + i)) = .entry x

/-- So it is at every time. -/
def IdsValid (units : List (CsirtUnit α β)) : Prop := ∀ m, IdsNow (units.take m)

variable {units : List (CsirtUnit α β)}

theorem getFedEntry_initUnits (hne : units ≠ []) (t : FedType) (csiId : BitVec 64) :
    ∃ s, FedTables.Filled lost (entries units t) s ∧
    getFedEntry (initUnits units).1 t csiId = s.getFedEntry csiId := by
  obtain ⟨h, hnone, -⟩ := initUnits_spec units
  cases hs : (initUnits units).1 with
  | none => exact absurd (hnone.1 hs) hne
  | some s =>
    rw [hs] at h
    exact ⟨_, h.fed t, rfl⟩

/-- A type whose index did not grow. -/
theorem idsNow_of_le (h : ∀ t, (entries units t).length ≤ 2 ^ 24) : IdsNow units := by
  obtain ⟨-, -, hlen, hbase⟩ := initUnits_spec units
  intro k u hu
  obtain ⟨hk, -⟩ := List.getElem?_eq_some_iff.1 hu
  have hb : (initUnits units).2[k]? = some (initUnits units).2[k] :=
    List.getElem?_eq_getElem (hlen.symm ▸ hk)
  have hbt : ∀ t, (initUnits units).2[k] t = (entries (units.take k) t).length := hbase k _ hb
  refine ⟨_, hb, fun t => ⟨hbt t, fun i x hx => ?_⟩⟩
  obtain ⟨s, hs, hget⟩ := getFedEntry_initUnits (List.ne_nil_of_mem (List.mem_of_getElem? hu)) t
    (BitVec.ofNat 64 ((initUnits units).2[k] t + i))
  have hpos := getElem?_flatMap (f := fun u : CsirtUnit α β => u.fedTables t) hu hx
  obtain ⟨hlt, hx⟩ := List.getElem?_eq_some_iff.1 hpos
  have hle := h t
  have hcap := hs.capacity_eq_iff.2 hle
  have hid : (BitVec.ofNat 64 ((initUnits units).2[k] t + i)).toNat =
      (entries (units.take k) t).length + i := by
    rw [hbt, BitVec.toNat_ofNat, Nat.mod_eq_of_lt]
    exact Nat.lt_of_lt_of_le hlt (Nat.le_trans hle (by decide))
  rw [hget, hs.getFedEntry_eq]
  simp only [hid, hcap]
  rw [if_pos (.inr hlt), dif_pos ⟨by simp [lost], hlt⟩]
  exact congrArg Lookup.entry hx

/-- A type whose index grew: its first entry is lost. -/
theorem not_idsNow_of_lt {t : FedType} (h : 2 ^ 24 < (entries units t).length) :
    ¬ IdsNow units := by
  intro hids
  have hne : entries units t ≠ [] := fun hnil => by rw [hnil] at h; cases h
  obtain ⟨k, u, x, hu, hfirst, hx⟩ := exists_first _ hne
  obtain ⟨base, -, hbase⟩ := hids k u hu
  obtain ⟨hb, hget⟩ := hbase t
  have hzero : base t = 0 := by
    rw [hb, entries, hfirst]
    rfl
  obtain ⟨s, hs, heq⟩ :=
    getFedEntry_initUnits (List.ne_nil_of_mem (List.mem_of_getElem? hu)) t (BitVec.ofNat 64 0)
  have hget := hget 0 x hx
  have hcap : ¬ s.index.capacity = 2 ^ 8 := fun hc => by
    have := hs.capacity_eq_iff.1 hc
    omega
  have hlost : 0 < lost s.index.capacity := by
    rcases hs.grown with hc | ⟨j, hc, -⟩
    · exact absurd hc hcap
    · have hpow : 2 ^ 9 ≤ 2 ^ (9 + j) := Nat.pow_le_pow_right (by decide) (by omega)
      unfold lost
      rw [if_neg (by omega)]
      omega
  rw [hzero, heq, hs.getFedEntry_eq] at hget
  simp only [BitVec.toNat_ofNat, Nat.zero_mod] at hget
  rw [if_pos (.inr (by omega)), dif_neg (by omega)] at hget
  cases hget

/-- **The IDs of the units stay valid** exactly if no type has more entries than
the tables of an index that never grew. -/
theorem csirtIds_iff (units : List (CsirtUnit α β)) : IdsValid units ↔
    ∀ t, (entries units t).length ≤ 2 ^ 24 := by
  constructor
  · intro h t
    by_contra hlt
    refine @not_idsNow_of_lt _ _ units t (by omega) ?_
    simpa using h units.length
  · intro h m
    refine idsNow_of_le fun t => Nat.le_trans ?_ (h t)
    have hsplit : entries units t = entries (units.take m) t ++ entries (units.drop m) t := by
      rw [entries, entries, entries, ← List.flatMap_append, List.take_append_drop]
    rw [hsplit, List.length_append]
    exact Nat.le_add_right _ _

/-- One unit with a load more than the tables of the index take. -/
def oversizeUnit : CsirtUnit Nat Nat :=
  ⟨fun t => if t = .load then List.replicate (2 ^ 24 + 1) 0 else [], fun _ => []⟩

theorem not_csirtIds : ¬ IdsValid [oversizeUnit] := by
  intro h
  refine @not_idsNow_of_lt _ _ [oversizeUnit] .load ?_ (h 1)
  simp only [entries, List.flatMap_singleton, oversizeUnit, if_true]
  rw [List.length_replicate]
  exact Nat.lt_succ_self _

end Csirt

end Csi
