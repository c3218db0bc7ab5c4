/-
Front-end data tables (`csirt.c`, and its copy in `csanrt.cpp`). The entries of
one type are kept in tables of equal size, reached through an index; a table
stays where it is, and the index is copied when it grows. The two runtimes
differ in that copy.

The memory of a type is given by its own allocations, of arrays of tables and
of arrays of entries, each kind numbered in the order of its allocation.
-/
import Mathlib.Logic.Function.Basic
import Mathlib.Data.List.Basic
import Mathlib.Tactic.Ring

namespace Csi

def NUM_ELEMENTS_PER_TABLE : Nat := 2 ^ 16
def DEFAULT_NUM_POINTERS_TO_TABLES : Nat := 2 ^ 8

/-- `fed_table_t`; `entries` is an address, or null. -/
structure FedTable where
  numEntries : Nat := 0
  entries : Option Nat := none
  deriving DecidableEq, Repr

/-- `fed_table_index_t`; `tables` is an address. -/
structure FedTableIndex where
  numTables : Nat
  capacity : Nat
  numTotalEntries : Nat
  tables : Nat
  deriving DecidableEq, Repr

/-- What was allocated for a type. An entry that was not written is `none`. -/
structure FedMemory (α : Type u) where
  arrays : Nat → List FedTable
  numArrays : Nat
  blocks : Nat → Nat → Option α
  numBlocks : Nat

/-- The tables of one type. -/
structure FedTables (α : Type u) where
  index : FedTableIndex
  memory : FedMemory α

namespace FedMemory

variable {α : Type u}

/-- An array of `n` tables that are zero. -/
def calloc (m : FedMemory α) (n : Nat) : FedMemory α :=
  { m with
    arrays := Function.update m.arrays m.numArrays (List.replicate n {})
    numArrays := m.numArrays + 1 }

/-- `n` tables are copied. -/
def memcpy (m : FedMemory α) (dst src n : Nat) : FedMemory α :=
  { m with arrays := Function.update m.arrays dst ((m.arrays src).take n ++ (m.arrays dst).drop n) }

/-- An array for the entries of a table. -/
def malloc (m : FedMemory α) : FedMemory α :=
  { m with
    blocks := Function.update m.blocks m.numBlocks fun _ => none
    numBlocks := m.numBlocks + 1 }

def setTable (m : FedMemory α) (array i : Nat) (table : FedTable) : FedMemory α :=
  { m with arrays := Function.update m.arrays array ((m.arrays array).set i table) }

def setEntry (m : FedMemory α) (block i : Nat) (x : α) : FedMemory α :=
  { m with blocks := Function.update m.blocks block (Function.update (m.blocks block) i (some x)) }

end FedMemory

namespace FedTables

variable {α : Type u}

def table (s : FedTables α) (i : Nat) : Option FedTable := (s.memory.arrays s.index.tables)[i]?

/-- The index gets an array of twice its capacity. Where the tables are copied
to is given by the addresses of both arrays. -/
def growIndex (dst : Nat → Nat → Nat) (s : FedTables α) : FedTables α :=
  let oldTables := s.index.tables
  let newTables := s.memory.numArrays
  { index := { s.index with capacity := s.index.capacity * 2, tables := newTables }
    memory :=
      (s.memory.calloc (s.index.capacity * 2)).memcpy
        (dst oldTables newTables) oldTables s.index.capacity }

/-- The next table of the array becomes an empty one. -/
def appendTable (s : FedTables α) : FedTables α :=
  { index := { s.index with numTables := s.index.numTables + 1 }
    memory :=
      s.memory.malloc.setTable s.index.tables s.index.numTables ⟨0, some s.memory.numBlocks⟩ }

/-- `initialize_fed_tables`, of one type; its first table needs no growth. -/
def initializeFedTables : FedTables α :=
  appendTable {
    index :=
      { numTables := 0, capacity := DEFAULT_NUM_POINTERS_TO_TABLES,
        numTotalEntries := 0, tables := 0 }
    memory :=
      ({ arrays := fun _ => [], numArrays := 0, blocks := fun _ _ => none, numBlocks := 0 } :
        FedMemory α).calloc DEFAULT_NUM_POINTERS_TO_TABLES }

/-- The table for insertion is the last one. -/
def isTableFull (s : FedTables α) : Bool :=
  (s.table (s.index.numTables - 1)).any fun table => table.numEntries == NUM_ELEMENTS_PER_TABLE

/-- Entries are written to a table that has an array for them. -/
def addEntryToTable (s : FedTables α) (x : α) : FedTables α :=
  match s.table (s.index.numTables - 1) with
  | some ⟨numEntries, some block⟩ =>
    let memory :=
      (s.memory.setEntry block numEntries x).setTable s.index.tables (s.index.numTables - 1)
        ⟨numEntries + 1, some block⟩
    { s with memory }
  | _ => s

section

variable {σ : Type v} (grow : FedTables α × σ → FedTables α × σ)

/-- The index grows if it is full. -/
def allocateNewTableAndAppendToIndex (s : FedTables α × σ) : FedTables α × σ :=
  let s := if s.1.index.capacity = s.1.index.numTables then grow s else s
  (s.1.appendTable, s.2)

def addEntries : List α → FedTables α × σ → FedTables α × σ
  | [], s => s
  | x :: xs, s =>
    let s := if s.1.isTableFull then allocateNewTableAndAppendToIndex grow s else s
    addEntries xs (s.1.addEntryToTable x, s.2)

def addFedTable (fedEntries : List α) (s : FedTables α × σ) : FedTables α × σ :=
  let s := addEntries grow fedEntries s
  ({ s.1 with
    index := { s.1.index with
      numTotalEntries := s.1.index.numTotalEntries + fedEntries.length } }, s.2)

end

/-- The base ID that `update_ids` stores. -/
def updateIds (s : FedTables α) (numEntries : Nat) : Nat := s.index.numTotalEntries - numEntries

end FedTables

/-- What a lookup does: it returns null, or an entry, or it goes outside of what
is allocated and written. -/
inductive Lookup (α : Type u)
  | null
  | entry (x : α)
  | outside
  deriving DecidableEq, Repr

namespace FedTables

variable {α : Type u}

/-- `get_fed_entry`. The id is signed in the first comparison, and not in the
second one and in the divisions. -/
def getFedEntry (s : FedTables α) (csiId : BitVec 64) : Lookup α :=
  if csiId.toInt < 0 || csiId.toNat < s.index.numTotalEntries then
    match s.table (csiId.toNat / NUM_ELEMENTS_PER_TABLE) with
    | some ⟨_, some block⟩ =>
      match s.memory.blocks block (csiId.toNat % NUM_ELEMENTS_PER_TABLE) with
      | some x => .entry x
      | none => .outside
    | _ => .outside
  else .null

/-! ## What the tables hold -/

/-- The `i`-th table, of `numTables` for `n` entries, the first `lost` of them
lost. -/
def tableOf (lost numTables n i : Nat) : FedTable :=
  if lost ≤ i ∧ i < numTables then ⟨min (2 ^ 16) (n - i * 2 ^ 16), some i⟩ else {}

/-- The tables hold the entries `es`, but for the first `lost` tables, which the
index does not have any more. -/
structure Holds (lost : Nat) (es : List α) (s : FedTables α) : Prop where
  tables :
    ∀ i, s.table i = if i < s.index.capacity then some (tableOf lost s.index.numTables es.length i)
    else none
  blocks : ∀ i j, i < s.index.numTables → j < 2 ^ 16 → s.memory.blocks i j = es[i * 2 ^ 16 + j]?
  numBlocks : s.memory.numBlocks = s.index.numTables
  numArrays : s.index.tables < s.memory.numArrays
  le_capacity : s.index.numTables ≤ s.index.capacity
  lower : (s.index.numTables - 1) * 2 ^ 16 ≤ es.length
  upper : es.length ≤ s.index.numTables * 2 ^ 16

variable {s : FedTables α} {lost : Nat} {es : List α}

theorem Holds.length_array (h : Holds lost es s) :
    (s.memory.arrays s.index.tables).length = s.index.capacity := by
  have hnone : ∀ i, (s.memory.arrays s.index.tables).length ≤ i ↔
      s.index.capacity ≤ i := fun i => by
    rw [← List.getElem?_eq_none_iff, show (s.memory.arrays s.index.tables)[i]? = _ from h.tables i]
    split
    · next hi => exact iff_of_false nofun (by omega)
    · next hi => exact iff_of_true rfl (by omega)
  exact Nat.le_antisymm ((hnone _).2 (Nat.le_refl _)) ((hnone _).1 (Nat.le_refl _))

/-- The last table, if it is there. -/
theorem Holds.last (h : Holds lost es s) (hlost : lost < s.index.numTables) :
    s.table (s.index.numTables - 1) =
    some ⟨es.length - (s.index.numTables - 1) * 2 ^ 16, some (s.index.numTables - 1)⟩ := by
  have hcap := h.le_capacity
  have hupper := h.upper
  rw [h.tables, if_pos (by omega), tableOf, if_pos (by omega), Nat.min_eq_right (by omega)]

theorem Holds.isTableFull (h : Holds lost es s) (hlost : lost < s.index.numTables) :
    s.isTableFull = true ↔ es.length = s.index.numTables * 2 ^ 16 := by
  have hlower := h.lower
  have hupper := h.upper
  unfold FedTables.isTableFull
  rw [h.last hlost, Option.any_some, beq_iff_eq]
  show es.length - (s.index.numTables - 1) * 2 ^ 16 = 2 ^ 16 ↔ _
  omega

/-- A table other than the last one does not change with an entry more. -/
theorem tableOf_snoc {n i : Nat} {numTables : Nat} (hi : i + 1 ≠ numTables)
    (hlower : (numTables - 1) * 2 ^ 16 ≤ n) :
    tableOf lost numTables (n + 1) i = tableOf lost numTables n i := by
  unfold tableOf
  split
  · congr 1
    omega
  · rfl

theorem getElem?_concat_ne {x : α} {i : Nat} (h : i ≠ es.length) : (es ++ [x])[i]? = es[i]? := by
  rcases Nat.lt_or_gt_of_ne h with hlt | hgt
  · exact List.getElem?_append_left hlt
  · rw [List.getElem?_eq_none (by rw [List.length_append, List.length_singleton]; omega),
      List.getElem?_eq_none (Nat.le_of_lt hgt)]

/-! ## One operation -/

theorem Holds.addEntryToTable (h : Holds lost es s) (hlost : lost < s.index.numTables)
    (hroom : es.length < s.index.numTables * 2 ^ 16) (x : α) :
    Holds lost (es ++ [x]) (s.addEntryToTable x) ∧
      (s.addEntryToTable x).index = s.index := by
  have hlower := h.lower
  have hcap := h.le_capacity
  have hlen := h.length_array
  have hadd : s.addEntryToTable x = { s with
      memory :=
        (s.memory.setEntry (s.index.numTables - 1)
          (es.length - (s.index.numTables - 1) * 2 ^ 16) x).setTable
        s.index.tables (s.index.numTables - 1)
        ⟨es.length - (s.index.numTables - 1) * 2 ^ 16 + 1, some (s.index.numTables - 1)⟩ } := by
    rw [FedTables.addEntryToTable, h.last hlost]
  rw [hadd]
  refine ⟨⟨fun i => ?_, fun i j hi hj => ?_, h.numBlocks, h.numArrays, hcap, ?_, ?_⟩, rfl⟩
  · simp only [FedTables.table, FedMemory.setTable, FedMemory.setEntry, Function.update_self,
      List.length_append, List.length_singleton]
    by_cases hi : i = s.index.numTables - 1
    · rw [hi, List.getElem?_set_self (by omega), if_pos (by omega), tableOf, if_pos (by omega),
        Nat.min_eq_right (by omega)]
      congr 2
      omega
    · rw [List.getElem?_set_ne (Ne.symm hi), tableOf_snoc (by omega) hlower]
      exact h.tables i
  · have hi : i < s.index.numTables := hi
    simp only [FedMemory.setTable, FedMemory.setEntry]
    by_cases hi' : i = s.index.numTables - 1
    · rw [hi', Function.update_self]
      by_cases hj' : j = es.length - (s.index.numTables - 1) * 2 ^ 16
      · rw [hj', Function.update_self, Nat.add_sub_cancel' hlower, List.getElem?_concat_length]
      · rw [Function.update_of_ne hj', h.blocks _ j (by omega) hj, getElem?_concat_ne (by omega)]
    · rw [Function.update_of_ne hi', h.blocks i j hi hj, List.getElem?_append_left (by omega)]
  · rw [List.length_append]
    exact Nat.le_add_right_of_le hlower
  · rw [List.length_append]
    exact hroom

/-- A new table, once all others are full. -/
theorem Holds.appendTable (h : Holds lost es s) (hlost : lost ≤ s.index.numTables)
    (hroom : s.index.numTables < s.index.capacity)
    (hfull : es.length = s.index.numTables * 2 ^ 16) : Holds lost es s.appendTable := by
  have hlen := h.length_array
  refine ⟨fun i => ?_, fun i j hi hj => ?_, congrArg (· + 1) h.numBlocks, h.numArrays,
    hroom, ?_, ?_⟩
  · simp only [FedTables.table, FedTables.appendTable, FedMemory.setTable, FedMemory.malloc,
      Function.update_self, h.numBlocks]
    by_cases hi : i = s.index.numTables
    · rw [hi, List.getElem?_set_self (by omega), if_pos hroom, tableOf, if_pos (by omega), hfull]
      simp
    · rw [List.getElem?_set_ne (Ne.symm hi)]
      refine (h.tables i).trans ?_
      have htable : tableOf lost (s.index.numTables + 1) es.length i =
          tableOf lost s.index.numTables es.length i := by
        unfold tableOf
        congr 1
        simp only [eq_iff_iff]
        omega
      rw [htable]
  · have hi : i < s.index.numTables + 1 := hi
    simp only [FedTables.appendTable, FedMemory.setTable, FedMemory.malloc, h.numBlocks]
    by_cases hi' : i = s.index.numTables
    · rw [hi', Function.update_self, List.getElem?_eq_none (by omega)]
    · rw [Function.update_of_ne hi', h.blocks i j (by omega) hj]
  · simp only [FedTables.appendTable]
    omega
  · simp only [FedTables.appendTable]
    omega

/-- The index before its first table. -/
theorem Holds.blank (m : FedMemory α) (hm : m.numArrays = 0) (hb : m.numBlocks = 0) (total : Nat) :
    Holds 0 [] ⟨⟨0, DEFAULT_NUM_POINTERS_TO_TABLES, total, 0⟩,
      m.calloc DEFAULT_NUM_POINTERS_TO_TABLES⟩ := by
  refine ⟨fun i => ?_, fun i j hi _ => absurd hi (Nat.not_lt_zero i), hb, ?_, Nat.zero_le _, ?_, ?_⟩
  · simp only [FedTables.table, FedMemory.calloc, hm, Function.update_self, List.getElem?_replicate]
    simp [tableOf]
  · simp [FedMemory.calloc]
  · simp
  · simp

theorem tableOf_of_ge {numTables n i : Nat} (h : numTables ≤ i) : tableOf lost numTables n i = {} :=
  if_neg fun hi => Nat.not_lt.2 h hi.2

/-- The tables of an array whose first `capacity` ones are those of the old one. -/
theorem Holds.of_copied (h : Holds lost es s) (hfull : s.index.capacity = s.index.numTables)
    {s' : FedTables α}
    (hindex : s'.index =
      { s.index with capacity := s.index.capacity * 2, tables := s.memory.numArrays })
    (harray : s'.memory.arrays s.memory.numArrays =
      s.memory.arrays s.index.tables ++ List.replicate s.index.capacity ({} : FedTable))
    (hblocks : s'.memory.blocks = s.memory.blocks) (hnum : s'.memory.numBlocks = s.memory.numBlocks)
    (hnumArrays : s'.memory.numArrays = s.memory.numArrays + 1) : Holds lost es s' := by
  have hlen := h.length_array
  refine ⟨fun i => ?_, fun i j hi hj => ?_, ?_, ?_, ?_, ?_, ?_⟩
  · rw [FedTables.table, hindex]
    simp only
    rw [harray]
    by_cases hi : i < s.index.capacity
    · rw [List.getElem?_append_left (by omega), if_pos (by omega)]
      exact (h.tables i).trans (if_pos hi)
    · rw [List.getElem?_append_right (by omega), hlen, List.getElem?_replicate,
        tableOf_of_ge (by omega)]
      by_cases hi' : i < s.index.capacity * 2
      · rw [if_pos hi', if_pos (by omega)]
      · rw [if_neg hi', if_neg (by omega)]
  · rw [hindex] at hi
    rw [hblocks]
    exact h.blocks i j hi hj
  · rw [hnum, hindex]
    exact h.numBlocks
  · rw [hnumArrays, hindex]
    exact Nat.lt_succ_self _
  · rw [hindex]
    exact Nat.le_trans h.le_capacity (Nat.le_mul_of_pos_right _ (by decide))
  · rw [hindex]
    exact h.lower
  · rw [hindex]
    exact h.upper

/-- A copy to the new array keeps the tables. -/
theorem Holds.growIndex_new (h : Holds lost es s) (hfull : s.index.capacity = s.index.numTables) :
    Holds lost es (s.growIndex fun _ newTables => newTables) := by
  have hne : s.index.tables ≠ s.memory.numArrays := Nat.ne_of_lt h.numArrays
  refine h.of_copied hfull rfl ?_ rfl rfl rfl
  simp only [FedTables.growIndex, FedMemory.memcpy, FedMemory.calloc, Function.update_self,
    Function.update_of_ne hne]
  rw [List.take_of_length_le (by rw [h.length_array]), List.drop_replicate]
  congr 2
  omega

/-- An index whose tables are zero. -/
theorem Holds.forget (h : Holds lost es s) :
    Holds s.index.numTables es { s with
      memory := { s.memory with
        arrays := Function.update s.memory.arrays s.index.tables
          (List.replicate s.index.capacity {}) } } := by
  refine ⟨fun i => ?_, h.blocks, h.numBlocks, h.numArrays, h.le_capacity, h.lower, h.upper⟩
  have hnone : tableOf s.index.numTables s.index.numTables es.length i = {} := if_neg (by omega)
  rw [FedTables.table]
  simp only [Function.update_self, List.getElem?_replicate, hnone]

/-- A copy to the old array, to itself, leaves the new one zero. -/
theorem Holds.growIndex_old (h : Holds lost es s) (hfull : s.index.capacity = s.index.numTables) :
    Holds s.index.numTables es (s.growIndex fun oldTables _ => oldTables) := by
  have hne : s.memory.numArrays ≠ s.index.tables := Nat.ne_of_gt h.numArrays
  refine h.forget.of_copied hfull rfl ?_ rfl rfl rfl
  simp only [FedTables.growIndex, FedMemory.memcpy, FedMemory.calloc, Function.update_self,
    Function.update_of_ne hne]
  rw [← List.replicate_add, Nat.mul_two]

/-! ## Adding the entries of a unit -/

/-- Between two entries: some table of the index takes the next one, and the
index has grown only when it had to. -/
structure Ready (lost : Nat → Nat) (es : List α) (s : FedTables α) : Prop where
  holds : Holds (lost s.index.capacity) es s
  lost_lt : lost s.index.capacity < s.index.numTables
  needed : s.index.numTables = 1 ∨ (s.index.numTables - 1) * 2 ^ 16 < es.length
  grown : s.index.capacity = 2 ^ 8 ∨ ∃ k, s.index.capacity = 2 ^ (9 + k) ∧
    2 ^ (8 + k) < s.index.numTables

/-- A growth of a full index. -/
structure Grown (lost : Nat → Nat) (es : List α) (s s' : FedTables α) : Prop where
  holds : Holds (lost (s.index.capacity * 2)) es s'
  lost_le : lost (s.index.capacity * 2) ≤ s.index.numTables
  capacity : s'.index.capacity = s.index.capacity * 2
  numTables : s'.index.numTables = s.index.numTables
  numTotalEntries : s'.index.numTotalEntries = s.index.numTotalEntries

/-- The entries, and their number. -/
structure Filled (lost : Nat → Nat) (es : List α) (s : FedTables α) :
    Prop extends Ready lost es s where
  total : s.index.numTotalEntries = es.length

section

variable {σ : Type v} {grow : FedTables α × σ → FedTables α × σ} {lost : Nat → Nat}

theorem Ready.allocate {s s' : FedTables α} (h : Ready lost es s)
    (hfull : es.length = s.index.numTables * 2 ^ 16)
    (hcap : s.index.capacity = s.index.numTables) (hg : Grown lost es s s') :
    Holds (lost s'.index.capacity) es s'.appendTable ∧
    lost s'.index.capacity < s'.index.numTables + 1 ∧
      ∃ k, s'.index.capacity = 2 ^ (9 + k) ∧ 2 ^ (8 + k) < s'.index.numTables + 1 := by
  have hlost := hg.lost_le
  have hnum := hg.numTables
  have hpos := h.lost_lt
  rw [hg.capacity]
  refine ⟨hg.holds.appendTable (by omega) (by rw [hg.capacity]; omega)
    (by rw [hnum, hfull]), by omega, ?_⟩
  rcases h.grown with h8 | ⟨k, hk, -⟩
  · exact ⟨0, by rw [h8]; rfl, by omega⟩
  · refine ⟨k + 1, by rw [hk, ← Nat.add_assoc, Nat.pow_succ], ?_⟩
    rw [show 8 + (k + 1) = 9 + k by omega]
    omega

/-- One entry, in a new table if the last one is full. -/
theorem Ready.addEntry {s : FedTables α × σ}
    (hgrow : ∀ s es, Ready lost es s.1 → s.1.index.capacity = s.1.index.numTables →
      Grown lost es s.1 (grow s).1)
    (h : Ready lost es s.1) (x : α) {s' : FedTables α × σ}
    (hs : s' = if s.1.isTableFull then allocateNewTableAndAppendToIndex grow s else s) :
    Ready lost (es ++ [x]) (s'.1.addEntryToTable x) ∧
      (s'.1.addEntryToTable x).index.numTotalEntries = s.1.index.numTotalEntries := by
  have hupper := h.holds.upper
  -- A table that has room, and what is known of the index.
  obtain ⟨hh, hlost, hroom, hneeded, hgrown, htotal⟩ : Holds (lost s'.1.index.capacity) es s'.1 ∧
      lost s'.1.index.capacity < s'.1.index.numTables ∧ es.length < s'.1.index.numTables * 2 ^ 16 ∧
      (s'.1.index.numTables = 1 ∨ (s'.1.index.numTables - 1) * 2 ^ 16 < es.length + 1) ∧
      (s'.1.index.capacity = 2 ^ 8 ∨ ∃ k, s'.1.index.capacity = 2 ^ (9 + k) ∧
        2 ^ (8 + k) < s'.1.index.numTables) ∧
      s'.1.index.numTotalEntries = s.1.index.numTotalEntries := by
    by_cases hf : s.1.isTableFull = true
    · rw [if_pos hf] at hs
      have hfull := (h.holds.isTableFull h.lost_lt).1 hf
      by_cases hcap : s.1.index.capacity = s.1.index.numTables
      · have hg := hgrow s es h hcap
        obtain ⟨h₁, h₂, h₃⟩ := h.allocate hfull hcap hg
        have hnum := hg.numTables
        rw [hs, allocateNewTableAndAppendToIndex, if_pos hcap]
        exact ⟨h₁, h₂, by simp only [FedTables.appendTable]; omega,
          .inr (by simp only [FedTables.appendTable]; omega), .inr h₃, hg.numTotalEntries⟩
      · rw [hs, allocateNewTableAndAppendToIndex, if_neg hcap]
        have hle := h.holds.le_capacity
        refine ⟨h.holds.appendTable (Nat.le_of_lt h.lost_lt) (by omega) hfull,
          Nat.lt_succ_of_lt h.lost_lt,
          by simp only [FedTables.appendTable]; omega,
          .inr (by simp only [FedTables.appendTable]; omega), ?_, rfl⟩
        exact h.grown.imp id fun hk => hk.imp fun _ hk => ⟨hk.1, Nat.lt_succ_of_lt hk.2⟩
    · rw [if_neg hf] at hs
      subst hs
      have hne := mt (h.holds.isTableFull h.lost_lt).2 hf
      exact ⟨h.holds, h.lost_lt, by omega, h.needed.imp id (by omega), h.grown, rfl⟩
  obtain ⟨hadd, hindex⟩ := hh.addEntryToTable hlost hroom x
  refine ⟨⟨?_, ?_, ?_, ?_⟩, ?_⟩
  · rw [hindex]
    exact hadd
  · rw [hindex]
    exact hlost
  · rw [hindex, List.length_append]
    exact hneeded
  · rw [hindex]
    exact hgrown
  · rw [hindex]
    exact htotal

theorem Ready.addEntries
    (hgrow : ∀ s es, Ready lost es s.1 → s.1.index.capacity = s.1.index.numTables →
      Grown lost es s.1 (grow s).1)
    (xs : List α) : ∀ {es : List α} {s : FedTables α × σ}, Ready lost es s.1 →
      Ready lost (es ++ xs) (FedTables.addEntries grow xs s).1 ∧
        (FedTables.addEntries grow xs s).1.index.numTotalEntries = s.1.index.numTotalEntries := by
  induction xs with
  | nil =>
    intro es s h
    rw [List.append_nil]
    exact ⟨h, rfl⟩
  | cons x xs ih =>
    intro es s h
    obtain ⟨s', hs'⟩ :
      ∃ s', s' = if s.1.isTableFull then allocateNewTableAndAppendToIndex grow s else s := ⟨_, rfl⟩
    obtain ⟨h₁, h₂⟩ := h.addEntry hgrow x hs'
    obtain ⟨h₃, h₄⟩ := ih (s := (s'.1.addEntryToTable x, s'.2)) h₁
    have hcons : FedTables.addEntries grow (x :: xs) s =
        FedTables.addEntries grow xs (s'.1.addEntryToTable x, s'.2) := by
      rw [hs']
      rfl
    rw [List.append_cons, hcons]
    exact ⟨h₃, h₄.trans h₂⟩

/-- **A unit's entries** are added after those of the units before it. -/
theorem Filled.addFedTable
    (hgrow : ∀ s es, Ready lost es s.1 → s.1.index.capacity = s.1.index.numTables →
      Grown lost es s.1 (grow s).1)
    (xs : List α) {s : FedTables α × σ} (h : Filled lost es s.1) :
    Filled lost (es ++ xs) (FedTables.addFedTable grow xs s).1 ∧
      (FedTables.addFedTable grow xs s).1.updateIds xs.length = es.length := by
  obtain ⟨⟨hh, hlost, hneeded, hgrown⟩, htotal⟩ := h.toReady.addEntries hgrow xs
  have hsum : (FedTables.addFedTable grow xs s).1.index.numTotalEntries = es.length +
      xs.length := by
    rw [← h.total, ← htotal]
    rfl
  refine ⟨⟨⟨⟨hh.tables, hh.blocks, hh.numBlocks, hh.numArrays, hh.le_capacity, hh.lower, hh.upper⟩,
      hlost, hneeded, hgrown⟩, ?_⟩, ?_⟩
  · rw [hsum, List.length_append]
  · rw [updateIds, hsum, Nat.add_sub_cancel]

end

theorem Filled.initializeFedTables {lost : Nat → Nat} (hlost : lost (2 ^ 8) = 0) :
    Filled lost ([] : List α) initializeFedTables := by
  have hblank := Holds.blank
      ({ arrays := fun _ => [], numArrays := 0, blocks := fun _ _ => none, numBlocks := 0 } :
        FedMemory α)
    rfl rfl 0
  refine ⟨⟨?_, ?_, .inl rfl, .inl rfl⟩, rfl⟩
  · show Holds (lost (2 ^ 8)) [] FedTables.initializeFedTables
    rw [hlost]
    exact hblank.appendTable (Nat.le_refl 0) (Nat.two_pow_pos 8) (Nat.zero_mul _).symm
  · show lost (2 ^ 8) < 1
    rw [hlost]
    exact Nat.one_pos

/-! ## Lookups -/

variable {s : FedTables α} {lost : Nat → Nat} {es : List α}

/-- The index has grown exactly if its first tables could not take all entries. -/
theorem Ready.capacity_eq_iff (h : Ready lost es s) : s.index.capacity = 2 ^ 8 ↔
    es.length ≤ 2 ^ 24 := by
  have hcap := h.holds.le_capacity
  have hupper := h.holds.upper
  have hlower := h.holds.lower
  constructor
  · intro h8
    omega
  · intro hle
    rcases h.grown with h8 | ⟨k, -, hk⟩
    · exact h8
    · have hpow : 2 ^ 8 ≤ 2 ^ (8 + k) := Nat.pow_le_pow_right (by decide) (Nat.le_add_right 8 k)
      rcases h.needed with h₁ | h₁ <;> omega

/-- What a lookup finds, of the tables that are not lost. -/
theorem Filled.getFedEntry_eq (h : Filled lost es s) (csiId : BitVec 64) : s.getFedEntry csiId =
    if csiId.toInt < 0 ∨ csiId.toNat < es.length then
      if h : lost s.index.capacity * 2 ^ 16 ≤ csiId.toNat ∧ csiId.toNat < es.length then
        .entry es[csiId.toNat]
      else .outside
    else .null := by
  have hupper := h.holds.upper
  have hcap := h.holds.le_capacity
  unfold getFedEntry
  rw [h.total, show NUM_ELEMENTS_PER_TABLE = 2 ^ 16 from rfl]
  simp only [Bool.or_eq_true, decide_eq_true_eq]
  split
  · rw [h.holds.tables]
    by_cases hlive : lost s.index.capacity ≤ csiId.toNat / 2 ^ 16 ∧
      csiId.toNat / 2 ^ 16 < s.index.numTables
    · rw [if_pos (by omega), tableOf, if_pos hlive]
      simp only
      rw [h.holds.blocks _ _ hlive.2 (Nat.mod_lt _ (Nat.two_pow_pos 16)), Nat.div_add_mod']
      by_cases hn : csiId.toNat < es.length
      · rw [List.getElem?_eq_getElem hn, dif_pos ⟨by omega, hn⟩]
      · rw [List.getElem?_eq_none (by omega), dif_neg (fun hc => hn hc.2)]
    · rw [dif_neg (by omega), tableOf, if_neg hlive]
      by_cases hc : csiId.toNat / 2 ^ 16 < s.index.capacity
      · rw [if_pos hc]
      · rw [if_neg hc]
  · rfl

end FedTables

end Csi
