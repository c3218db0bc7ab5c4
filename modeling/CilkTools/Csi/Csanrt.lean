/-
Cilksan's own copy of the runtime (`csanrt.cpp`). Here the index is copied to
its new array. Arrays that were replaced are kept in a list until the end.

Object tables hold entries for some of the types. The loop that copies them
counts with an `int` (`Csanrt.csanrtIds_iff`).
-/
import CilkTools.Csi.EntryArrays
import CilkTools.Csi.UnitTables
import Mathlib.Data.List.Induction

namespace Csi

/-- `obj_type_t`. -/
inductive ObjType
  | load
  | store
  | alloca
  | allocfn
  deriving DecidableEq, Repr

namespace ObjType

def all : List ObjType := [load, store, alloca, allocfn]

theorem mem_all (t : ObjType) : t ∈ all := by
  cases t <;> decide

theorem nodup_all : all.Nodup := by decide

end ObjType

/-- `old_fed_tables_list_t`, without its link: an array of tables, by its type
and its address there. -/
structure OldFedTables where
  numTables : Nat
  type : FedType
  tables : Nat
  deriving DecidableEq, Repr

structure CsanrtUnit (α β : Type u) where
  fedTables : FedType → List α
  objTables : ObjType → List β

structure Csanrt (α β : Type u) where
  fedTables : FedType → FedTables α
  objTables : ObjType → EntryArray β
  oldTablesList : List OldFedTables

namespace Csanrt

variable {α β : Type u}

def initializeTables : Csanrt α β := ⟨fun _ => .initializeFedTables, fun _ => {}, []⟩

/-- The growth of `allocate_new_table_and_append_to_index`. -/
def grow (t : FedType) (s : FedTables α × List OldFedTables) : FedTables α × List OldFedTables :=
  (s.1.growIndex fun _ newTables => newTables, ⟨s.1.index.numTables, t, s.1.index.tables⟩ :: s.2)

def addObjTables (objTables : ObjType → List β) (l : List ObjType) (s : ObjType → EntryArray β) :
    Option (ObjType → EntryArray β) :=
  l.foldlM (fun s t => do return Function.update s t (← (s t).addObjTable (objTables t))) s

/-- `__csanrt_unit_init`, and the base IDs it stores. -/
def unitInit (s : Option (Csanrt α β)) (unit : CsanrtUnit α β) :
    Option (Csanrt α β × (FedType → Nat)) := do
  let s := s.getD initializeTables
  let r := UnitInit.addTypes grow unit.fedTables ⟨s.fedTables, s.oldTablesList, fun _ => 0⟩
  let objTables ← addObjTables unit.objTables ObjType.all s.objTables
  return (⟨r.tables, objTables, r.rest⟩, r.base)

/-- The runtime after the units, and their base IDs, if all of it is defined. -/
def initUnits (units : List (CsanrtUnit α β)) :
    Option (Option (Csanrt α β) × List (FedType → Nat)) :=
  units.foldlM (fun s unit => do
    let r ← unitInit s.1 unit
    return (some r.1, s.2 ++ [r.2])) (none, [])

def getFedEntry (s : Option (Csanrt α β)) (t : FedType) (csiId : BitVec 64) : Lookup α :=
  match s with
  | none => .outside
  | some s => (s.fedTables t).getFedEntry csiId

def getObjEntry (s : Option (Csanrt α β)) (t : ObjType) (csiId : BitVec 64) : Lookup β :=
  match s with
  | none => .outside
  | some s => (s.objTables t).getEntry csiId

def entries (units : List (CsanrtUnit α β)) (t : FedType) : List α := units.flatMap (·.fedTables t)

def objEntries (units : List (CsanrtUnit α β)) (t : ObjType) : List β :=
  units.flatMap (·.objTables t)

/-- No object table is to be copied that has more entries than an `int` counts. -/
def Copyable (units : List (CsanrtUnit α β)) : Prop :=
  ∀ k u, units[k]? = some u → ∀ t, u.objTables t ≠ [] →
  (objEntries (units.take k) t).length < 2 ^ 31

theorem grow_grows (t : FedType) : UnitInit.GrowsWith (fun _ => 0) (@grow α t) := fun _ _ h hfull =>
  ⟨h.holds.growIndex_new hfull, Nat.zero_le _, rfl, rfl, rfl⟩

/-- The runtime's tables are those of the units. -/
structure Holds (units : List (CsanrtUnit α β)) (s : Csanrt α β) : Prop where
  fed : ∀ t, FedTables.Filled (fun _ => 0) (entries units t) (s.fedTables t)
  obj : ∀ t, EntryArray.Holds (objEntries units t) (s.objTables t)

theorem Holds.initializeTables : Holds [] (initializeTables : Csanrt α β) :=
  ⟨fun _ => .initializeFedTables rfl, fun _ => .empty⟩

/-- The object tables of a unit are all added, or none if one of them cannot be. -/
theorem addObjTables_spec (xs : ObjType → List β) (l : List ObjType) {es : ObjType → List β} :
    ∀ {s : ObjType → EntryArray β}, l.Nodup → (∀ t, EntryArray.Holds (es t) (s t)) →
      ((∀ t ∈ l, xs t ≠ [] → (es t).length < 2 ^ 31) → ∃ s', addObjTables xs l s = some s' ∧
        ∀ t, EntryArray.Holds (if t ∈ l then es t ++ xs t else es t) (s' t)) ∧
      ((∃ t ∈ l, xs t ≠ [] ∧ 2 ^ 31 ≤ (es t).length) → addObjTables xs l s = none) := by
  induction l generalizing es with
  | nil =>
    intro s _ h
    exact ⟨fun _ => ⟨s, rfl, fun t => by rw [if_neg List.not_mem_nil]; exact h t⟩, fun hex => by
      obtain ⟨t, ht, -⟩ := hex
      cases ht⟩
  | cons u l ih =>
    intro s hnd h
    obtain ⟨hu, hl⟩ := List.nodup_cons.1 hnd
    have hadd := (h u).addObjTable (xs u)
    unfold addObjTables
    rw [List.foldlM_cons]
    by_cases hbad : xs u ≠ [] ∧ 2 ^ 31 ≤ (es u).length
    · rw [if_pos hbad] at hadd
      rw [hadd]
      refine ⟨fun hall => ?_, fun _ => rfl⟩
      have := hall u List.mem_cons_self hbad.1
      omega
    · rw [if_neg hbad] at hadd
      obtain ⟨table', htable, hholds⟩ := hadd
      have hstep : ∀ t, EntryArray.Holds (if t = u then es t ++ xs t else es t)
          (Function.update s u table' t) := fun t => by
        by_cases ht : t = u
        · subst ht
          simpa using hholds
        · simpa [ht] using h t
      obtain ⟨hok, hno⟩ := ih hl hstep
      rw [htable]
      constructor
      · intro hall
        obtain ⟨s', hs', hh⟩ := hok fun t ht hne => by
          have htu : t ≠ u := fun heq => hu (heq ▸ ht)
          rw [if_neg htu]
          exact hall t (List.mem_cons_of_mem _ ht) hne
        refine ⟨s', hs', fun t => ?_⟩
        have ht := hh t
        by_cases htu : t = u
        · subst htu
          rw [if_neg hu, if_pos rfl] at ht
          rwa [if_pos List.mem_cons_self]
        · rw [if_neg htu] at ht
          have hmem : (t ∈ u :: l) ↔ t ∈ l := by simp [htu]
          simpa only [hmem] using ht
      · intro hex
        obtain ⟨t, ht, hne, hlen⟩ := hex
        rcases List.mem_cons.1 ht with rfl | ht
        · exact absurd ⟨hne, hlen⟩ hbad
        · have htu : t ≠ u := fun heq => hu (heq ▸ ht)
          refine hno ⟨t, ht, hne, ?_⟩
          rwa [if_neg htu]

theorem Holds.unitInit {units : List (CsanrtUnit α β)} {s : Option (Csanrt α β)}
    (h : Holds units (s.getD Csanrt.initializeTables)) (unit : CsanrtUnit α β) :
    ((∀ t, unit.objTables t ≠ [] → (objEntries units t).length < 2 ^ 31) → ∃ s' base,
      Csanrt.unitInit s unit = some (s', base) ∧ Holds (units ++ [unit]) s' ∧
      ∀ t, base t = (entries units t).length) ∧
    ((∃ t, unit.objTables t ≠ [] ∧ 2 ^ 31 ≤ (objEntries units t).length) →
      Csanrt.unitInit s unit = none) := by
  have hfed := UnitInit.addTypes_spec grow_grows unit.fedTables
    (s := (⟨(s.getD Csanrt.initializeTables).fedTables,
      (s.getD Csanrt.initializeTables).oldTablesList, fun _ => 0⟩ :
      UnitInit α (List OldFedTables))) h.fed
  obtain ⟨hok, hno⟩ := addObjTables_spec unit.objTables ObjType.all ObjType.nodup_all h.obj
  unfold Csanrt.unitInit
  constructor
  · intro hall
    obtain ⟨s', hs', hobj⟩ := hok fun t _ => hall t
    simp only [hs']
    refine ⟨_, _, rfl, ⟨fun t => ?_, fun t => ?_⟩, fun t => (hfed t).2⟩
    · rw [entries, List.flatMap_append, List.flatMap_singleton]
      exact (hfed t).1
    · have ht := hobj t
      rw [if_pos t.mem_all] at ht
      rw [objEntries, List.flatMap_append, List.flatMap_singleton]
      exact ht
  · intro hex
    obtain ⟨t, ht⟩ := hex
    simp only [hno ⟨t, t.mem_all, ht⟩]
    rfl

theorem initUnits_snoc (units : List (CsanrtUnit α β)) (unit : CsanrtUnit α β) :
    initUnits (units ++ [unit]) = do
    let s ← initUnits units
    let r ← unitInit s.1 unit
    return (some r.1, s.2 ++ [r.2]) := by
  simp only [initUnits, List.foldlM_append, List.foldlM_cons, List.foldlM_nil, bind_pure]

theorem copyable_snoc {units : List (CsanrtUnit α β)} {unit : CsanrtUnit α β} :
    Copyable (units ++ [unit]) ↔
    Copyable units ∧ ∀ t, unit.objTables t ≠ [] → (objEntries units t).length < 2 ^ 31 := by
  have hold : ∀ {k}, k < units.length → (units ++ [unit]).take k = units.take k := fun hk =>
    List.take_append_of_le_length (Nat.le_of_lt hk)
  have hlast : (units ++ [unit]).take units.length = units := List.take_left
  constructor
  · intro h
    constructor
    · intro k u hu t hne
      obtain ⟨hk, -⟩ := List.getElem?_eq_some_iff.1 hu
      rw [← hold hk]
      exact h k u (by rwa [List.getElem?_append_left hk]) t hne
    · intro t hne
      have := h units.length unit List.getElem?_concat_length t hne
      rwa [hlast] at this
  · intro h k u hu t hne
    rcases Nat.lt_trichotomy k units.length with hlt | heq | hgt
    · rw [List.getElem?_append_left hlt] at hu
      rw [hold hlt]
      exact h.1 k u hu t hne
    · subst heq
      rw [List.getElem?_concat_length] at hu
      cases hu
      rw [hlast]
      exact h.2 t hne
    · rw [List.getElem?_eq_none (by rw [List.length_append, List.length_singleton]; omega)] at hu
      cases hu

/-- The state after any units, if there is one. -/
theorem initUnits_spec (units : List (CsanrtUnit α β)) :
    (Copyable units →
      ∃ s bases, initUnits units = some (s, bases) ∧ Holds units (s.getD initializeTables) ∧
      (s = none ↔ units = []) ∧ Bases CsanrtUnit.fedTables units bases) ∧
      (¬ Copyable units → initUnits units = none) := by
  induction units using List.reverseRecOn with
  | nil =>
    refine ⟨fun _ => ⟨none, [], rfl, .initializeTables, by simp, rfl, by simp⟩,
      fun h => absurd ?_ h⟩
    intro k u hu
    cases hu
  | append_singleton units unit ih =>
    rw [copyable_snoc, initUnits_snoc]
    constructor
    · intro hcopy
      obtain ⟨s, bases, hs, h, -, hb⟩ := ih.1 hcopy.1
      obtain ⟨s', base, hs', h', hbase⟩ := (h.unitInit unit).1 hcopy.2
      refine ⟨some s', bases ++ [base], ?_, h', by simp, hb.snoc unit hbase⟩
      rw [hs, Option.bind_eq_bind, Option.bind_some, hs']
      rfl
    · intro hcopy
      by_cases hold : Copyable units
      · obtain ⟨s, bases, hs, h, -⟩ := ih.1 hold
        have hbad : ∃ t, unit.objTables t ≠ [] ∧ 2 ^ 31 ≤ (objEntries units t).length := by
          by_contra hno
          refine hcopy ⟨hold, fun t hne => ?_⟩
          by_contra hlen
          exact hno ⟨t, hne, by omega⟩
        rw [hs, Option.bind_eq_bind, Option.bind_some, (h.unitInit unit).2 hbad]
        rfl
      · rw [ih.2 hold]
        rfl

/-- A state that is reached. -/
theorem holds_of_initUnits {units : List (CsanrtUnit α β)} {s : Option (Csanrt α β)}
    {bases : List (FedType → Nat)} (hs : initUnits units = some (s, bases)) :
    Holds units (s.getD initializeTables) ∧ (s = none ↔ units = []) := by
  by_cases hcopy : Copyable units
  · obtain ⟨s', bases', hs', h, hnone, -⟩ := (initUnits_spec units).1 hcopy
    rw [hs] at hs'
    cases hs'
    exact ⟨h, hnone⟩
  · rw [(initUnits_spec units).2 hcopy] at hs
    cases hs

/-- One unit can always be initialised. -/
theorem exists_initUnits (units : List (CsanrtUnit α β))
    (h : ∀ t, (objEntries units t).length < 2 ^ 31) :
    ∃ s bases, initUnits units = some (s, bases) := by
  have hcopy : Copyable units := fun k u _ t _ => by
    have htake : (objEntries units t).length = (objEntries (units.take k) t).length +
        (objEntries (units.drop k) t).length := by
      rw [← List.length_append, objEntries, objEntries, objEntries, ← List.flatMap_append,
        List.take_append_drop]
    exact Nat.lt_of_le_of_lt (by rw [htake]; exact Nat.le_add_right ..) (h t)
  obtain ⟨s, bases, hs, -⟩ := (initUnits_spec units).1 hcopy
  exact ⟨s, bases, hs⟩

/-! ## IDs -/

/-- After these units, every unit's base ID counts the entries before it, and
its IDs are those of its entries, object entries included. -/
def IdsNow (units : List (CsanrtUnit α β)) : Prop :=
  ∃ s bases, initUnits units = some (s, bases) ∧ ∀ k u, units[k]? = some u →
    (∃ base, bases[k]? = some base ∧ ∀ t, base t = (entries (units.take k) t).length ∧
      ∀ i x, (u.fedTables t)[i]? = some x →
      getFedEntry s t (BitVec.ofNat 64 (base t + i)) = .entry x) ∧
    ∀ t i x, (u.objTables t)[i]? = some x →
      getObjEntry s t (BitVec.ofNat 64 ((objEntries (units.take k) t).length + i)) = .entry x

def IdsValid (units : List (CsanrtUnit α β)) : Prop := ∀ m, IdsNow (units.take m)

/-- There are IDs, which are signed, for all the entries. -/
structure Fits (units : List (CsanrtUnit α β)) : Prop where
  fed : ∀ t, (entries units t).length ≤ 2 ^ 63
  obj : ∀ t, (objEntries units t).length ≤ 2 ^ 63

variable {units : List (CsanrtUnit α β)}

theorem toNat_ofNat_of_lt {n : Nat} (h : n < 2 ^ 63) :
    (BitVec.ofNat 64 n).toNat = n ∧ (BitVec.ofNat 64 n).toInt = n := by
  have hn : (BitVec.ofNat 64 n).toNat = n := by
    rw [BitVec.toNat_ofNat]
    omega
  refine ⟨hn, ?_⟩
  rw [BitVec.toInt_eq_toNat_cond, hn, if_pos (by omega)]

theorem idsNow_of_copyable (hfits : Fits units) (h : Copyable units) : IdsNow units := by
  obtain ⟨s, bases, hs, hh, hnone, hlen, hbase⟩ := (initUnits_spec units).1 h
  refine ⟨s, bases, hs, fun k u hu => ?_⟩
  obtain ⟨hk, -⟩ := List.getElem?_eq_some_iff.1 hu
  obtain ⟨s, rfl⟩ : ∃ s', s = some s' := Option.ne_none_iff_exists'.1 fun hn => by
    rw [hnone.1 hn] at hk
    cases hk
  rw [Option.getD_some] at hh
  have hb : bases[k]? = some bases[k] := List.getElem?_eq_getElem (hlen.symm ▸ hk)
  refine ⟨⟨_, hb, fun t => ⟨hbase k _ hb t, fun i x hx => ?_⟩⟩, fun t i x hx => ?_⟩
  · obtain ⟨hlt, hx⟩ :=
      List.getElem?_eq_some_iff.1
        (getElem?_flatMap (f := fun u : CsanrtUnit α β => u.fedTables t) hu hx)
    have hid := (toNat_ofNat_of_lt (Nat.lt_of_lt_of_le hlt (hfits.fed t))).1
    rw [hbase k _ hb t, getFedEntry, (hh.fed t).getFedEntry_eq]
    simp only [entries, hid]
    rw [if_pos (.inr hlt), dif_pos ⟨by omega, hlt⟩]
    exact congrArg Lookup.entry hx
  · obtain ⟨hlt, hx⟩ :=
      List.getElem?_eq_some_iff.1
        (getElem?_flatMap (f := fun u : CsanrtUnit α β => u.objTables t) hu hx)
    have hid := (toNat_ofNat_of_lt (Nat.lt_of_lt_of_le hlt (hfits.obj t))).2
    rw [getObjEntry, (hh.obj t).getEntry_eq]
    simp only [objEntries, hid]
    rw [if_pos (by exact_mod_cast hlt), dif_pos ⟨Int.natCast_nonneg _, hlt⟩]
    exact congrArg Lookup.entry hx

theorem Copyable.take (h : Copyable units) (m : Nat) : Copyable (units.take m) := by
  intro k u hu t hne
  obtain ⟨hk, -⟩ := List.getElem?_eq_some_iff.1 hu
  rw [List.length_take] at hk
  rw [List.getElem?_take_of_lt (by omega)] at hu
  rw [List.take_take, Nat.min_eq_left (by omega)]
  exact h k u hu t hne

theorem Fits.take (h : Fits units) (m : Nat) : Fits (units.take m) := by
  have hle : ∀ {γ : Type u} (f : CsanrtUnit α β → List γ), ((units.take m).flatMap f).length ≤
    (units.flatMap f).length := fun f => by
      conv_rhs => rw [← List.take_append_drop m units, List.flatMap_append, List.length_append]
      exact Nat.le_add_right _ _
  exact ⟨fun t => Nat.le_trans (hle _) (h.fed t), fun t => Nat.le_trans (hle _) (h.obj t)⟩

/-- **The IDs of the units stay valid** exactly if no object table is copied
that has 2^31 entries or more. -/
theorem csanrtIds_iff (units : List (CsanrtUnit α β)) (hfits : Fits units) : IdsValid units ↔
    Copyable units := by
  constructor
  · intro h
    by_contra hcopy
    obtain ⟨s, bases, hs, -⟩ := h units.length
    rw [List.take_length, (initUnits_spec units).2 hcopy] at hs
    cases hs
  · intro h m
    exact idsNow_of_copyable (hfits.take m) (h.take m)

/-- Two units, the second of which brings a load to copy the others for. -/
def uncopyableUnits : List (CsanrtUnit Nat Nat) :=
  [⟨fun _ => [], fun t => if t = .load then List.replicate (2 ^ 31) 0 else []⟩,
    ⟨fun _ => [], fun _ => [0]⟩]

theorem not_csanrtIds : ¬ IdsValid uncopyableUnits := by
  intro h
  obtain ⟨s, bases, hs, -⟩ := h 2
  have hcopy : ¬ Copyable uncopyableUnits := fun hc => by
    have hlt := hc 1 _ rfl .load (by simp)
    simp only [uncopyableUnits, objEntries, List.take_succ_cons, List.take_zero,
      List.flatMap_singleton, if_true, List.length_replicate] at hlt
    exact Nat.lt_irrefl _ hlt
  rw [show uncopyableUnits.take 2 = uncopyableUnits from rfl,
    (initUnits_spec uncopyableUnits).2 hcopy] at hs
  cases hs

/-- Two units of several entries. -/
def twoUnits : List (CsanrtUnit Nat Nat) :=
  [⟨fun _ => [1, 2], fun _ => [3]⟩,
    ⟨fun t => if t = .load then [4, 5, 6] else [7], fun _ => [8, 9]⟩]

theorem csanrtIds_iff_twoUnits : IdsValid twoUnits ↔ Copyable twoUnits :=
  csanrtIds_iff twoUnits ⟨fun t => by cases t <;> decide, fun t => by cases t <;> decide⟩

end Csanrt

end Csi
