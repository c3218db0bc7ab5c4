/-
The end of Cilksan's runtime (`__csan_deinit`): which blocks of memory are
freed, and whether one is touched or freed that was freed before.

An index that grew shares the arrays of its entries with the array it had
before. They are freed with the index, and again with that array, whose own
pointers to them are still there (`Csanrt.tornDown_iff`).
-/
import CilkTools.Csi.Csanrt

namespace Csi

namespace FedTables

variable {α : Type u} {σ : Type v} {grow : FedTables α × σ → FedTables α × σ} {lost : Nat → Nat}

/-- What each step of `add_fed_table` keeps, it keeps. -/
theorem addFedTable_induct {P : FedTables α × σ → Prop} (hgrows : UnitInit.GrowsWith lost grow)
    (hgrow : ∀ s es, Ready lost es s.1 → s.1.index.capacity = s.1.index.numTables →
      P s → P (grow s))
    (happend : ∀ s, P s → P (s.1.appendTable, s.2))
    (hadd : ∀ s x, P s → P (s.1.addEntryToTable x, s.2))
    (htotal : ∀ s n, P s → P ({ s.1 with index := { s.1.index with numTotalEntries := n } }, s.2))
    (xs : List α) {es : List α} {s : FedTables α × σ} (hr : Ready lost es s.1) (hp : P s) :
    P (addFedTable grow xs s) := by
  suffices h : P (addEntries grow xs s) from htotal _ _ h
  induction xs generalizing es s with
  | nil => exact hp
  | cons x xs ih =>
    obtain ⟨s', hs'⟩ :
      ∃ s', s' = if s.1.isTableFull then allocateNewTableAndAppendToIndex grow s else s := ⟨_, rfl⟩
    have hcons :
        addEntries grow (x :: xs) s = addEntries grow xs (s'.1.addEntryToTable x, s'.2) := by
      rw [hs']
      rfl
    have hp' : P s' := by
      rw [hs']
      split
      · unfold allocateNewTableAndAppendToIndex
        refine happend _ ?_
        split
        · next hcap => exact hgrow s es hr hcap hp
        · exact hp
      · exact hp
    rw [hcons]
    exact ih (hr.addEntry hgrows x hs').1 (hadd s' x hp')

theorem arrays_appendTable (s : FedTables α) {a : Nat} (ha : a ≠ s.index.tables) :
    s.appendTable.memory.arrays a = s.memory.arrays a := Function.update_of_ne ha _ _

/-- An entry is written to the array of the index, if anywhere. -/
theorem addEntryToTable_spec (s : FedTables α) (x : α) : (s.addEntryToTable x).index = s.index ∧
    (s.addEntryToTable x).memory.numArrays = s.memory.numArrays ∧
    ∀ a, a ≠ s.index.tables → (s.addEntryToTable x).memory.arrays a = s.memory.arrays a := by
  unfold addEntryToTable
  split
  · exact ⟨rfl, rfl, fun a ha => Function.update_of_ne ha _ _⟩
  · exact ⟨rfl, rfl, fun _ _ => rfl⟩

end FedTables

namespace Csanrt

variable {α β : Type u}

/-- What is allocated: the arrays `fed_tables` and `obj_tables`, an array of
tables, of entries or of objects, or a node of the list of old tables, by the
number of nodes after it. -/
inductive Block
  | fedTables
  | objTables
  | array (t : FedType) (address : Nat)
  | entries (t : FedType) (address : Nat)
  | objects (t : ObjType) (address : Nat)
  | oldTables (i : Nat)
  deriving DecidableEq, Repr

/-- The arrays of tables, and how often each block was freed. -/
structure Teardown where
  arrays : FedType → Nat → List FedTable
  frees : Block → Nat

namespace Teardown

/-- A block that was freed is not to be touched. -/
def touch (b : Block) (d : Teardown) : Option Teardown := if d.frees b = 0 then some d else none

def free (b : Block) (d : Teardown) : Option Teardown :=
  if d.frees b = 0 then some { d with frees := Function.update d.frees b 1 } else none

def setTable (t : FedType) (address i : Nat) (table : FedTable) (d : Teardown) : Teardown :=
  let array := (d.arrays t address).set i table
  { d with arrays := Function.update d.arrays t (Function.update (d.arrays t) address array) }

/-- The loop over the tables of an array, of which `n` are left, from table `i` on. -/
def freeEntries (t : FedType) (address : Nat) : Nat → Nat → Teardown → Option Teardown
  | 0, _, d => some d
  | n + 1, i, d => do
    let d ← d.touch (.array t address)
    let table ← (d.arrays t address)[i]?
    match table.entries with
    | none => freeEntries t address n (i + 1) d
    | some block =>
      let d ← d.free (.entries t block)
      freeEntries t address n (i + 1) (d.setTable t address i { table with entries := none })

def freeFedTable (index : FedType → FedTableIndex) (d : Teardown) (t : FedType) :
    Option Teardown := do
  let d ← d.touch .fedTables
  let d ← d.freeEntries t (index t).tables (index t).numTables 0
  d.free (.array t (index t).tables)

def freeObjTable (tables : ObjType → EntryArray β) (d : Teardown) (t : ObjType) :
    Option Teardown := do
  let d ← d.touch .objTables
  if (tables t).entries.isSome then d.free (.objects t ((tables t).numArrays - 1)) else return d

/-- `delete`, with the destructor of a node, which deletes the next one first. -/
def deleteOldTables : List OldFedTables → Teardown → Option Teardown
  | [], d => some d
  | node :: next, d => do
    let d ← d.touch (.oldTables next.length)
    let d ← deleteOldTables next d
    let d ← d.freeEntries node.type node.tables node.numTables 0
    let d ← d.free (.array node.type node.tables)
    d.free (.oldTables next.length)

end Teardown

/-- The memory as the program ends: only arrays of objects have been freed. -/
def Teardown.ofRuntime (s : Csanrt α β) : Teardown where
  arrays t := (s.fedTables t).memory.arrays
  frees
    | .objects t address => (s.objTables t).deleted.count address
    | _ => 0

/-- `__csan_deinit`. Before the first unit all its pointers are null. -/
def deinit (s : Option (Csanrt α β)) : Option Teardown :=
  match s with
  | none => some ⟨fun _ _ => [], fun _ => 0⟩
  | some s => do
    let d := Teardown.ofRuntime s
    let d ← FedType.all.foldlM (Teardown.freeFedTable fun t => (s.fedTables t).index) d
    let d ← d.free .fedTables
    let d ← ObjType.all.foldlM (Teardown.freeObjTable s.objTables) d
    let d ← d.free .objTables
    d.deleteOldTables s.oldTablesList

/-- The blocks that were allocated. -/
def Allocated (s : Option (Csanrt α β)) (b : Block) : Prop :=
  match s, b with
  | none, _ => False
  | some _, .fedTables => True
  | some _, .objTables => True
  | some s, .array t address => address < (s.fedTables t).memory.numArrays
  | some s, .entries t address => address < (s.fedTables t).memory.numBlocks
  | some s, .objects t address => address < (s.objTables t).numArrays
  | some s, .oldTables i => i < s.oldTablesList.length

/-- Nothing is touched after it was freed, and each block is freed once. -/
def TornDown (s : Option (Csanrt α β)) : Prop :=
  ∃ d, deinit s = some d ∧ ∀ b, (Allocated s b → d.frees b = 1) ∧ (¬ Allocated s b → d.frees b = 0)

/-! ## What is freed -/

/-- From `d` to `d'`, the blocks of `S` are freed. -/
structure Frees (S : Block → Prop) (d d' : Teardown) : Prop where
  freed : ∀ b, S b → d.frees b = 0 ∧ d'.frees b = 1
  kept : ∀ b, ¬ S b → d'.frees b = d.frees b

variable {S T : Block → Prop} {d d' d'' : Teardown}

theorem Frees.refl (d : Teardown) : Frees (fun _ => False) d d := ⟨nofun, fun _ _ => rfl⟩

theorem Frees.trans (h₁ : Frees S d d') (h₂ : Frees T d' d'') :
    Frees (fun b => S b ∨ T b) d d'' := by
  constructor
  · intro b hb
    by_cases hs : S b
    · obtain ⟨h, h'⟩ := h₁.freed b hs
      have ht : ¬ T b := fun ht => by
        rw [(h₂.freed b ht).1] at h'
        cases h'
      exact ⟨h, (h₂.kept b ht).trans h'⟩
    · obtain ⟨h, h'⟩ := h₂.freed b (hb.resolve_left hs)
      exact ⟨(h₁.kept b hs).symm.trans h, h'⟩
  · intro b hb
    rw [not_or] at hb
    exact (h₂.kept b hb.2).trans (h₁.kept b hb.1)

theorem Frees.congr (h : Frees S d d') (hst : ∀ b, S b ↔ T b) : Frees T d d' :=
  ⟨fun b hb => h.freed b ((hst b).2 hb), fun b hb => h.kept b (mt (hst b).1 hb)⟩

theorem free_spec {b : Block} (h : d.frees b = 0) :
    ∃ d', d.free b = some d' ∧ Frees (· = b) d d' ∧ d'.arrays = d.arrays := by
  refine ⟨{ d with frees := Function.update d.frees b 1 }, if_pos h,
    ⟨fun c hc => ?_, fun c hc => ?_⟩, rfl⟩
  · subst hc
    exact ⟨h, Function.update_self ..⟩
  · exact Function.update_of_ne hc _ _

theorem arrays_setTable {t : FedType} {address i : Nat} {table : FedTable} {t' : FedType} {a : Nat}
    (h : ¬ (t' = t ∧ a = address)) :
    (d.setTable t address i table).arrays t' a = d.arrays t' a := by
  simp only [Teardown.setTable]
  by_cases ht : t' = t
  · subst ht
    rw [Function.update_self, Function.update_of_ne fun ha => h ⟨rfl, ha⟩]
  · rw [Function.update_of_ne ht]

/-- The entries of tables that each have their own. -/
theorem freeEntries_spec (t : FedType) (address : Nat) :
    ∀ (n i : Nat) {d : Teardown}, d.frees (.array t address) = 0 →
    (∀ j, i ≤ j → j < i + n →
      d.frees (.entries t j) = 0 ∧ ∃ m, (d.arrays t address)[j]? = some ⟨m, some j⟩) →
    ∃ d', d.freeEntries t address n i = some d' ∧
    Frees (fun b => ∃ j, i ≤ j ∧ j < i + n ∧ b = .entries t j) d d' ∧
      ∀ t' a, ¬ (t' = t ∧ a = address) → d'.arrays t' a = d.arrays t' a := by
  intro n
  induction n with
  | zero =>
    intro i d _ _
    refine ⟨d, rfl, (Frees.refl d).congr fun b => iff_of_false id fun h => ?_, fun _ _ _ => rfl⟩
    obtain ⟨j, h₁, h₂, -⟩ := h
    omega
  | succ n ih =>
    intro i d harray h
    obtain ⟨hi, m, htable⟩ := h i (Nat.le_refl i) (by omega)
    obtain ⟨d₁, hfree, hf₁, harr₁⟩ := free_spec hi
    have hne : ∀ j, j ≠ i → Block.entries t j ≠ .entries t i :=
      fun j hj heq => hj (by injection heq)
    have harray₁ : d₁.frees (.array t address) = 0 :=
      (hf₁.kept (.array t address) (by simp)).trans harray
    obtain ⟨d₂, hrest, hf₂, harr₂⟩ :=
        ih (i + 1) (d := d₁.setTable t address i ⟨m, none⟩) harray₁ fun j h₁ h₂ => by
      obtain ⟨hj, m', hm'⟩ := h j (by omega) (by omega)
      refine ⟨(hf₁.kept _ (hne j (by omega))).trans hj, m', ?_⟩
      simp only [Teardown.setTable, Function.update_self, harr₁]
      rwa [List.getElem?_set_ne (by omega)]
    refine ⟨d₂, ?_, ?_, fun t' a hta => ?_⟩
    · rw [Teardown.freeEntries, Teardown.touch, if_pos harray]
      simp only [Option.bind_eq_bind, Option.bind_some, htable, hfree]
      exact hrest
    · have hf₂' : Frees (fun b => ∃ j, i + 1 ≤ j ∧ j < i + 1 + n ∧ b = .entries t j) d₁ d₂ :=
        ⟨hf₂.freed, hf₂.kept⟩
      refine (hf₁.trans hf₂').congr fun b => ⟨fun hb => ?_, fun hb => ?_⟩
      · rcases hb with hb | ⟨j, h₁, h₂, hb⟩
        · exact ⟨i, Nat.le_refl i, by omega, hb⟩
        · exact ⟨j, by omega, by omega, hb⟩
      · obtain ⟨j, h₁, h₂, hb⟩ := hb
        by_cases hj : j = i
        · exact .inl (hj ▸ hb)
        · exact .inr ⟨j, by omega, by omega, hb⟩
    · rw [harr₂ t' a hta, arrays_setTable hta, harr₁]

/-- A table whose entries were freed through another array. -/
theorem freeEntries_freed {t : FedType} {address n m : Nat} (hn : 0 < n)
    (h : (d.arrays t address)[0]? = some ⟨m, some 0⟩) (hfreed : d.frees (.entries t 0) ≠ 0) :
    d.freeEntries t address n 0 = none := by
  obtain ⟨n, rfl⟩ := Nat.exists_eq_succ_of_ne_zero (Nat.ne_of_gt hn)
  rw [Teardown.freeEntries, Teardown.touch]
  split
  · simp only [Option.bind_eq_bind, Option.bind_some, h, Teardown.free, if_neg hfreed]
    rfl
  · rfl

/-- The blocks of the tables of type `t`. -/
def OfFedTable (index : FedType → FedTableIndex) (t : FedType) (b : Block) : Prop :=
  b = .array t (index t).tables ∨ ∃ j, j < (index t).numTables ∧ b = .entries t j

/-- The tables of type `t` are there, each with its entries. -/
structure Intact (index : FedType → FedTableIndex) (t : FedType) (d : Teardown) : Prop where
  array : d.frees (.array t (index t).tables) = 0
  entries : ∀ j, j < (index t).numTables →
    d.frees (.entries t j) = 0 ∧ ∃ m, (d.arrays t (index t).tables)[j]? = some ⟨m, some j⟩

variable {index : FedType → FedTableIndex}

theorem freeFedTable_spec {t : FedType} (h : Intact index t d) (hfed : d.frees .fedTables = 0) :
    ∃ d', Teardown.freeFedTable index d t = some d' ∧ Frees (OfFedTable index t) d d' ∧
      ∀ t' a, ¬ (t' = t ∧ a = (index t).tables) → d'.arrays t' a = d.arrays t' a := by
  obtain ⟨d₁, hentries, hf₁, harr₁⟩ :=
    freeEntries_spec t (index t).tables (index t).numTables 0 h.array fun j _ hj =>
    h.entries j (by omega)
  have harray : d₁.frees (.array t (index t).tables) = 0 := (hf₁.kept _ fun hex => by
    obtain ⟨j, -, -, hj⟩ := hex
    cases hj).trans h.array
  obtain ⟨d₂, hfree, hf₂, harr₂⟩ := free_spec harray
  refine ⟨d₂, ?_, (hf₁.trans hf₂).congr fun b => ?_, fun t' a hta => ?_⟩
  · rw [Teardown.freeFedTable, Teardown.touch, if_pos hfed]
    simp only [Option.bind_eq_bind, Option.bind_some, hentries, hfree]
  · rw [OfFedTable, or_comm]
    simp
  · rw [harr₂]
    exact harr₁ t' a hta

/-- The tables of all types of a list. -/
theorem foldlM_freeFedTable (l : List FedType) : ∀ {d : Teardown}, l.Nodup →
    (∀ t ∈ l, Intact index t d) →
    d.frees .fedTables = 0 → ∃ d', l.foldlM (Teardown.freeFedTable index) d = some d' ∧
      Frees (fun b => ∃ t ∈ l, OfFedTable index t b) d d' ∧
      ∀ t a, a ≠ (index t).tables → d'.arrays t a = d.arrays t a := by
  induction l with
  | nil =>
    intro d _ _ _
    exact ⟨d, rfl, (Frees.refl d).congr fun b => by simp, fun _ _ _ => rfl⟩
  | cons t l ih =>
    intro d hnd h hfed
    obtain ⟨ht, hl⟩ := List.nodup_cons.1 hnd
    obtain ⟨d₁, hfree, hf₁, harr₁⟩ := freeFedTable_spec (h t List.mem_cons_self) hfed
    -- The other types have blocks of their own.
    have hother : ∀ u ∈ l, Intact index u d₁ := fun u hu => by
      have hut : u ≠ t := fun heq => ht (heq ▸ hu)
      have hu' := h u (List.mem_cons_of_mem _ hu)
      refine ⟨(hf₁.kept _ (by simp [OfFedTable, hut])).trans hu'.array, fun j hj => ?_⟩
      obtain ⟨hj₁, hj₂⟩ := hu'.entries j hj
      refine ⟨(hf₁.kept _ (by simp [OfFedTable, hut])).trans hj₁, ?_⟩
      rwa [harr₁ u _ fun hc => hut hc.1]
    obtain ⟨d₂, hrest, hf₂, harr₂⟩ := ih hl hother ((hf₁.kept _ (by simp [OfFedTable])).trans hfed)
    refine ⟨d₂, ?_, (hf₁.trans hf₂).congr fun b => by simp, fun u a ha => ?_⟩
    · rw [List.foldlM_cons, hfree]
      exact hrest
    · rw [harr₂ u a ha]
      exact harr₁ u a fun hc => ha (by rw [hc.2, hc.1])

/-- The array of the objects of type `t`, if there is one. -/
def OfObjTable (tables : ObjType → EntryArray β) (t : ObjType) (b : Block) : Prop :=
  (tables t).entries.isSome ∧ b = .objects t ((tables t).numArrays - 1)

variable {tables : ObjType → EntryArray β}

theorem freeObjTable_spec {t : ObjType}
    (h : (tables t).entries.isSome → d.frees (.objects t ((tables t).numArrays - 1)) = 0)
    (hobj : d.frees .objTables = 0) :
    ∃ d', Teardown.freeObjTable tables d t = some d' ∧ Frees (OfObjTable tables t) d d' ∧
    d'.arrays = d.arrays := by
  rw [Teardown.freeObjTable, Teardown.touch, if_pos hobj]
  simp only [Option.bind_eq_bind, Option.bind_some]
  by_cases hsome : (tables t).entries.isSome = true
  · obtain ⟨d₁, hfree, hf, harr⟩ := free_spec (h hsome)
    rw [if_pos hsome]
    exact ⟨d₁, hfree, hf.congr fun b => by simp [OfObjTable, hsome], harr⟩
  · rw [if_neg hsome]
    exact ⟨d, rfl, (Frees.refl d).congr fun b => by simp [OfObjTable, hsome], rfl⟩

theorem foldlM_freeObjTable (l : List ObjType) : ∀ {d : Teardown}, l.Nodup →
    (∀ t ∈ l, (tables t).entries.isSome → d.frees (.objects t ((tables t).numArrays - 1)) = 0) →
    d.frees .objTables = 0 →
    ∃ d', l.foldlM (Teardown.freeObjTable tables) d = some d' ∧
    Frees (fun b => ∃ t ∈ l, OfObjTable tables t b) d d' ∧
      d'.arrays = d.arrays := by
  induction l with
  | nil =>
    intro d _ _ _
    exact ⟨d, rfl, (Frees.refl d).congr fun b => by simp, rfl⟩
  | cons t l ih =>
    intro d hnd h hobj
    obtain ⟨ht, hl⟩ := List.nodup_cons.1 hnd
    obtain ⟨d₁, hfree, hf₁, harr₁⟩ := freeObjTable_spec (h t List.mem_cons_self) hobj
    have hother : ∀ u ∈ l, (tables u).entries.isSome →
        d₁.frees (.objects u ((tables u).numArrays - 1)) = 0 := fun u hu hsome => by
      have hut : u ≠ t := fun heq => ht (heq ▸ hu)
      exact (hf₁.kept _ (by simp [OfObjTable, hut])).trans (h u (List.mem_cons_of_mem _ hu) hsome)
    obtain ⟨d₂, hrest, hf₂, harr₂⟩ := ih hl hother ((hf₁.kept _ (by simp [OfObjTable])).trans hobj)
    refine ⟨d₂, ?_, (hf₁.trans hf₂).congr fun b => by simp, harr₂.trans harr₁⟩
    rw [List.foldlM_cons, hfree]
    exact hrest

/-! ## Which arrays there are -/

/-- The arrays of the entries of an object table: all but the last were deleted. -/
structure Owns (table : EntryArray β) : Prop where
  numArrays : 0 < table.numArrays ↔ table.entries.isSome
  deleted : ∀ a, table.deleted.count a = if a + 1 < table.numArrays then 1 else 0

theorem Owns.empty : Owns ({} : EntryArray β) := ⟨by simp, fun _ => rfl⟩

theorem Owns.addAtEnd {table : EntryArray β} (h : Owns table) (xs : List β) :
    Owns (table.addAtEnd xs) := by
  refine ⟨h.numArrays.trans ?_, h.deleted⟩
  simp [EntryArray.addAtEnd]

theorem Owns.addObjTable {table table' : EntryArray β} (h : Owns table) {xs : List β}
    (hadd : table.addObjTable xs = some table') : Owns table' := by
  unfold EntryArray.addObjTable at hadd
  obtain ⟨table₁, hensure, hend⟩ := Option.bind_eq_some_iff.1 hadd
  cases hend
  refine Owns.addAtEnd ?_ xs
  unfold EntryArray.ensureObjTableCapacity at hensure
  simp only at hensure
  split at hensure
  · split at hensure
    · next hnone =>
      cases hensure
      have hzero : table.numArrays = 0 := Nat.eq_zero_of_not_pos fun hpos => by
        rw [h.numArrays, hnone] at hpos
        cases hpos
      refine ⟨by simp, fun a => (h.deleted a).trans ?_⟩
      simp [hzero]
    · next old hsome =>
      obtain ⟨cells, -, hcells⟩ := Option.bind_eq_some_iff.1 hensure
      cases hcells
      have hpos : 0 < table.numArrays := h.numArrays.2 (by rw [hsome]; rfl)
      refine ⟨by simp, fun a => ?_⟩
      show ((table.numArrays - 1) :: table.deleted).count a = if a + 1 < table.numArrays +
        1 then 1 else 0
      have hdeleted := h.deleted a
      by_cases ha : table.numArrays - 1 = a
      · rw [if_neg (by omega)] at hdeleted
        rw [if_pos (by omega), ha, List.count_cons_self, hdeleted]
      · rw [List.count_cons_of_ne ha, hdeleted]
        by_cases hlt : a + 1 < table.numArrays
        · rw [if_pos hlt, if_pos (by omega)]
        · rw [if_neg hlt, if_neg (by omega)]
  · cases hensure
    exact h

theorem Owns.addObjTables {xs : ObjType → List β} {l : List ObjType} :
    ∀ {s s' : ObjType → EntryArray β},
    (∀ t, Owns (s t)) → addObjTables xs l s = some s' → ∀ t, Owns (s' t) := by
  induction l with
  | nil =>
    intro s s' h hs
    cases hs
    exact h
  | cons u l ih =>
    intro s s' h hs
    rw [Csanrt.addObjTables, List.foldlM_cons] at hs
    obtain ⟨s₁, hs₁, hrest⟩ := Option.bind_eq_some_iff.1 hs
    obtain ⟨table', htable, hs₁⟩ := Option.bind_eq_some_iff.1 hs₁
    cases hs₁
    refine ih (fun t => ?_) hrest
    by_cases ht : t = u
    · subst ht
      rw [Function.update_self]
      exact (h t).addObjTable htable
    · rw [Function.update_of_ne ht]
      exact h t

/-- The arrays of the tables of type `t`: one, until the index grew, and then
those in the list, with the records they had. -/
structure Tracks (t : FedType) (s : FedTables α) (oldTablesList : List OldFedTables) : Prop where
  first : s.index.capacity = 2 ^ 8 → s.index.tables = 0 ∧ s.memory.numArrays = 1
  listed : s.index.capacity ≠ 2 ^ 8 → ∃ node ∈ oldTablesList, node.type = t
  replaced : ∀ node ∈ oldTablesList, node.type = t → s.index.capacity ≠ 2 ^ 8 ∧ 0 < node.numTables ∧
    node.tables < s.index.tables ∧ ∃ m, (s.memory.arrays node.tables)[0]? = some ⟨m, some 0⟩

theorem Tracks.initializeFedTables (t : FedType) :
    Tracks t (FedTables.initializeFedTables : FedTables α) [] :=
  ⟨fun _ => ⟨rfl, rfl⟩, fun h => absurd rfl h, by simp⟩

/-- What is written to the array of the index. -/
theorem Tracks.congr {t : FedType} {s s' : FedTables α} {old : List OldFedTables}
    (h : Tracks t s old)
    (hcap : s'.index.capacity = s.index.capacity) (htables : s'.index.tables = s.index.tables)
    (hnum : s'.memory.numArrays = s.memory.numArrays)
    (harr : ∀ a, a ≠ s.index.tables → s'.memory.arrays a = s.memory.arrays a) :
    Tracks t s' old := by
  refine ⟨fun hc => ?_, fun hc => h.listed (hcap ▸ hc), fun node hnode ht => ?_⟩
  · rw [htables, hnum]
    exact h.first (hcap ▸ hc)
  · obtain ⟨hc, hpos, hlt, hrec⟩ := h.replaced node hnode ht
    rw [hcap, htables, harr _ (Nat.ne_of_lt hlt)]
    exact ⟨hc, hpos, hlt, hrec⟩

theorem Tracks.grow {t : FedType} {s : FedTables α × List OldFedTables} {es : List α}
    (hr : FedTables.Ready (fun _ => 0) es s.1) (h : Tracks t s.1 s.2) :
    Tracks t (grow t s).1 (grow t s).2 := by
  have hcap : s.1.index.capacity * 2 ≠ 2 ^ 8 := by
    have hle := hr.holds.le_capacity
    have hpos := hr.lost_lt
    rcases hr.grown with h8 | ⟨k, hk, -⟩
    · omega
    · have hpow : 2 ^ 9 ≤ 2 ^ (9 + k) := Nat.pow_le_pow_right (by decide) (Nat.le_add_right 9 k)
      omega
  have harr : ∀ a, a < s.1.memory.numArrays →
      (Csanrt.grow t s).1.memory.arrays a = s.1.memory.arrays a := fun a ha => by
    simp only [Csanrt.grow, FedTables.growIndex, FedMemory.memcpy, FedMemory.calloc,
      Function.update_of_ne (Nat.ne_of_lt ha)]
  refine ⟨fun hc => absurd hc hcap, fun _ => ⟨_, List.mem_cons_self, rfl⟩,
    fun node hnode ht => ⟨hcap, ?_⟩⟩
  rcases List.mem_cons.1 hnode with heq | hold
  · rw [heq]
    have hrecord := hr.holds.tables 0
    have hpos := hr.lost_lt
    have hle := hr.holds.le_capacity
    rw [if_pos (by omega), FedTables.tableOf, if_pos ⟨Nat.le_refl 0, hpos⟩] at hrecord
    exact ⟨hpos, hr.holds.numArrays, _, by rw [harr _ hr.holds.numArrays]; exact hrecord⟩
  · obtain ⟨-, hpos, hlt, m, hm⟩ := h.replaced node hold ht
    have hlt' : node.tables < s.1.memory.numArrays := Nat.lt_trans hlt hr.holds.numArrays
    exact ⟨hpos, hlt', m, by rw [harr _ hlt', hm]⟩

/-- A unit's entries of type `t`; the nodes of other types stay. -/
theorem Tracks.addFedTable {t : FedType} {s : FedTables α × List OldFedTables} {es : List α}
    (hr : FedTables.Ready (fun _ => 0) es s.1) (h : Tracks t s.1 s.2) (xs : List α) :
    Tracks t (FedTables.addFedTable (Csanrt.grow t) xs s).1
    (FedTables.addFedTable (Csanrt.grow t) xs s).2 ∧
      ∀ node, node.type ≠ t → (node ∈ (FedTables.addFedTable (Csanrt.grow t) xs s).2 ↔
        node ∈ s.2) := by
  refine FedTables.addFedTable_induct (P := fun s' => Tracks t s'.1 s'.2 ∧
    ∀ node, node.type ≠ t →
    (node ∈ s'.2 ↔ node ∈ s.2)) (grow_grows t) (fun s' es' hr' _ hp => ?_) (fun s' hp => ?_)
    (fun s' x hp => ?_) (fun s' n hp => ?_) xs hr ⟨h, fun _ _ => Iff.rfl⟩
  · refine ⟨hp.1.grow hr', fun node hnode => Iff.trans ?_ (hp.2 node hnode)⟩
    show node ∈ _ :: s'.2 ↔ _
    rw [List.mem_cons]
    exact or_iff_right fun heq => hnode (by rw [heq])
  · exact ⟨hp.1.congr rfl rfl rfl fun a ha => FedTables.arrays_appendTable s'.1 ha, hp.2⟩
  · obtain ⟨hindex, hnum, harr⟩ := s'.1.addEntryToTable_spec x
    exact ⟨hp.1.congr (by rw [hindex]) (by rw [hindex]) hnum harr, hp.2⟩
  · exact ⟨hp.1.congr rfl rfl rfl fun _ _ => rfl, hp.2⟩

/-- What the runtime has allocated, and the records of what it replaced. -/
structure Owned (s : Csanrt α β) : Prop where
  fed : ∀ t, (∃ es, FedTables.Filled (fun _ => 0) es (s.fedTables t)) ∧
    Tracks t (s.fedTables t) s.oldTablesList
  obj : ∀ t, Owns (s.objTables t)

theorem Owned.initializeTables : Owned (initializeTables : Csanrt α β) :=
  ⟨fun t => ⟨⟨[], .initializeFedTables rfl⟩, .initializeFedTables t⟩, fun _ => .empty⟩

theorem tracks_foldl_addType (entries : FedType → List α) (l : List FedType) :
    ∀ {s : UnitInit α (List OldFedTables)},
    (∀ t, (∃ es, FedTables.Filled (fun _ => 0) es (s.tables t)) ∧ Tracks t (s.tables t) s.rest) →
    ∀ t,
      (∃ es, FedTables.Filled (fun _ => 0) es
        ((l.foldl (UnitInit.addType grow entries) s).tables t)) ∧
        Tracks t ((l.foldl (UnitInit.addType grow entries) s).tables t)
        (l.foldl (UnitInit.addType grow entries) s).rest := by
  induction l with
  | nil => exact fun h => h
  | cons u l ih =>
    intro s h
    refine ih (s := UnitInit.addType grow entries s u) fun t => ?_
    obtain ⟨⟨es, hu⟩, htracks⟩ := h u
    obtain ⟨hadd, hnodes⟩ :=
      Tracks.addFedTable (s := (s.tables u, s.rest)) hu.toReady htracks (entries u)
    by_cases ht : t = u
    · subst ht
      simp only [UnitInit.addType, Function.update_self]
      exact ⟨⟨_, (hu.addFedTable (s := (s.tables t, s.rest)) (grow_grows t) (entries t)).1⟩, hadd⟩
    · simp only [UnitInit.addType, Function.update_of_ne ht]
      obtain ⟨hfilled, hfirst, hlisted, hreplaced⟩ := h t
      refine ⟨hfilled, hfirst, fun hc => ?_, fun node hnode htype => ?_⟩
      · obtain ⟨node, hnode, htype⟩ := hlisted hc
        exact ⟨node, (hnodes node (by rwa [htype])).2 hnode, htype⟩
      · exact hreplaced node ((hnodes node (by rwa [htype])).1 hnode) htype

theorem Owned.unitInit {s : Option (Csanrt α β)} (h : Owned (s.getD Csanrt.initializeTables))
    {unit : CsanrtUnit α β}
    {r : Csanrt α β × (FedType → Nat)} (hr : Csanrt.unitInit s unit = some r) : Owned r.1 := by
  obtain ⟨objTables, hobj, hr⟩ := Option.bind_eq_some_iff.1 hr
  cases hr
  exact ⟨tracks_foldl_addType unit.fedTables FedType.all h.fed, Owns.addObjTables h.obj hobj⟩

theorem owned_of_initUnits (units : List (CsanrtUnit α β)) :
    ∀ {s : Option (Csanrt α β)} {bases : List (FedType → Nat)},
    initUnits units = some (s, bases) → Owned (s.getD initializeTables) := by
  induction units using List.reverseRecOn with
  | nil =>
    intro s bases hs
    cases hs
    exact .initializeTables
  | append_singleton units unit ih =>
    intro s bases hs
    rw [initUnits_snoc] at hs
    obtain ⟨r, hr, hs⟩ := Option.bind_eq_some_iff.1 hs
    obtain ⟨r', hr', hs⟩ := Option.bind_eq_some_iff.1 hs
    cases hs
    exact (ih hr).unitInit hr'

/-! ## The end -/

/-- The blocks that are reached from the tables in use. -/
def OfTables (s : Csanrt α β) (b : Block) : Prop :=
  (∃ t ∈ FedType.all, OfFedTable (fun t => (s.fedTables t).index) t b) ∨ b = .fedTables ∨
    (∃ t ∈ ObjType.all, OfObjTable s.objTables t b) ∨ b = .objTables

/-- The tables in use are freed, before those that were replaced. -/
theorem Owned.deinit_eq {s : Csanrt α β} (h : Owned s) :
    ∃ d, deinit (some s) = d.deleteOldTables s.oldTablesList ∧ Frees (OfTables s) (.ofRuntime s) d ∧
    ∀ t a, a ≠ (s.fedTables t).index.tables → d.arrays t a = (s.fedTables t).memory.arrays a := by
  have hintact :
      ∀ t ∈ FedType.all, Intact (fun t => (s.fedTables t).index) t (.ofRuntime s) := fun t _ => by
    obtain ⟨es, hes⟩ := (h.fed t).1
    refine ⟨rfl, fun j hj => ?_⟩
    have hrecord := hes.holds.tables j
    rw [if_pos (Nat.lt_of_lt_of_le hj hes.holds.le_capacity), FedTables.tableOf,
      if_pos ⟨Nat.zero_le j, hj⟩] at hrecord
    exact ⟨rfl, _, hrecord⟩
  obtain ⟨d₁, h₁, hf₁, harr₁⟩ := foldlM_freeFedTable FedType.all FedType.nodup_all hintact rfl
  obtain ⟨d₂, h₂, hf₂, harr₂⟩ := free_spec ((hf₁.kept .fedTables (by simp [OfFedTable])).trans rfl)
  have hf := hf₁.trans hf₂
  have hobjects : ∀ t ∈ ObjType.all, (s.objTables t).entries.isSome →
      d₂.frees (.objects t ((s.objTables t).numArrays - 1)) = 0 := fun t _ hsome => by
    have hpos := (h.obj t).numArrays.2 hsome
    refine (hf.kept _ (by simp [OfFedTable])).trans (((h.obj t).deleted _).trans (if_neg ?_))
    omega
  obtain ⟨d₃, h₃, hf₃, harr₃⟩ := foldlM_freeObjTable ObjType.all ObjType.nodup_all hobjects
    ((hf.kept .objTables (by simp [OfFedTable])).trans rfl)
  obtain ⟨d₄, h₄, hf₄, harr₄⟩ :=
    free_spec (((hf.trans hf₃).kept .objTables (by simp [OfFedTable, OfObjTable])).trans rfl)
  refine ⟨d₄, ?_, ((hf.trans hf₃).trans hf₄).congr fun b => ?_, fun t a ha => ?_⟩
  · simp only [deinit, h₁, h₂, h₃, h₄, Option.bind_eq_bind, Option.bind_some]
  · rw [OfTables, or_assoc, or_assoc]
  · rw [harr₄, harr₃, harr₂]
    exact harr₁ t a ha

/-- Every node of the list shares an array of entries that was freed. -/
theorem deleteOldTables_eq_none (l : List OldFedTables) (h : ∀ node ∈ l, 0 < node.numTables ∧
    d.frees (.entries node.type 0) ≠ 0 ∧
    ∃ m, (d.arrays node.type node.tables)[0]? = some ⟨m, some 0⟩) (hl : l ≠ []) :
    d.deleteOldTables l = none := by
  induction l with
  | nil => exact absurd rfl hl
  | cons node next ih =>
    obtain ⟨hpos, hfreed, m, hm⟩ := h node List.mem_cons_self
    rw [Teardown.deleteOldTables, Teardown.touch]
    split
    · simp only [Option.bind_eq_bind, Option.bind_some]
      -- The oldest node is deleted first.
      by_cases hnext : next = []
      · rw [hnext, Teardown.deleteOldTables, Option.bind_some, freeEntries_freed hpos hm hfreed]
        rfl
      · rw [ih (fun n hn => h n (List.mem_cons_of_mem _ hn)) hnext]
        rfl
    · rfl

theorem Owned.deinit_none {s : Csanrt α β} (h : Owned s) (hold : s.oldTablesList ≠ []) :
    deinit (some s) = none := by
  obtain ⟨d, hd, hf, harr⟩ := h.deinit_eq
  rw [hd]
  refine deleteOldTables_eq_none _ (fun node hnode => ?_) hold
  obtain ⟨⟨es, hes⟩, htracks⟩ := h.fed node.type
  obtain ⟨-, hpos, hlt, m, hm⟩ := htracks.replaced node hnode rfl
  have hfreed :=
    (hf.freed (.entries node.type 0) (.inl ⟨_, node.type.mem_all, .inr ⟨0, hes.lost_lt, rfl⟩⟩)).2
  exact ⟨hpos, by rw [hfreed]; exact Nat.one_ne_zero, m, by rw [harr _ _ (Nat.ne_of_lt hlt), hm]⟩

/-- If no index grew, a block is reached from the tables in use, unless it was
freed before. -/
theorem Owned.allocated_iff {s : Csanrt α β} (h : Owned s)
    (hcap : ∀ t, (s.fedTables t).index.capacity = 2 ^ 8) (hold : s.oldTablesList = []) (b : Block) :
    (Allocated (some s) b ↔ OfTables s b ∨ (Teardown.ofRuntime s).frees b = 1) ∧
    (Teardown.ofRuntime s).frees b ≤ 1 := by
  cases b with
  | fedTables => simp [Allocated, OfTables, Teardown.ofRuntime]
  | objTables => simp [Allocated, OfTables, Teardown.ofRuntime]
  | array t a =>
    obtain ⟨htables, hnum⟩ := (h.fed t).2.first (hcap t)
    simp [Allocated, OfTables, OfFedTable, OfObjTable, Teardown.ofRuntime, htables, hnum, t.mem_all]
  | entries t j =>
    obtain ⟨es, hes⟩ := (h.fed t).1
    simp [Allocated, OfTables, OfFedTable, OfObjTable, Teardown.ofRuntime,
      hes.holds.numBlocks, t.mem_all]
  | objects t a =>
    obtain ⟨hnum, hdeleted⟩ := h.obj t
    have hof : OfTables s (.objects t a) ↔
        0 < (s.objTables t).numArrays ∧ a = (s.objTables t).numArrays - 1 := by
      rw [hnum]
      simp [OfTables, OfFedTable, OfObjTable, t.mem_all]
    simp only [Allocated, hof, Teardown.ofRuntime, hdeleted]
    split <;> omega
  | oldTables i => simp [Allocated, OfTables, OfFedTable, OfObjTable, Teardown.ofRuntime, hold]

theorem Owned.tornDown {s : Csanrt α β} (h : Owned s)
    (hcap : ∀ t, (s.fedTables t).index.capacity = 2 ^ 8) : TornDown (some s) := by
  have hold : s.oldTablesList = [] := List.eq_nil_iff_forall_not_mem.2 fun node hnode =>
    ((h.fed node.type).2.replaced node hnode rfl).1 (hcap _)
  obtain ⟨d, hd, hf, -⟩ := h.deinit_eq
  rw [hold] at hd
  refine ⟨d, hd, fun b => ?_⟩
  obtain ⟨hiff, hle⟩ := h.allocated_iff hcap hold b
  by_cases hb : OfTables s b
  · exact ⟨fun _ => (hf.freed b hb).2, fun hn => absurd (hiff.2 (.inl hb)) hn⟩
  · rw [hf.kept b hb, hiff]
    exact ⟨fun ha => ha.resolve_left hb, fun hn => by omega⟩

variable {units : List (CsanrtUnit α β)} {s : Option (Csanrt α β)} {bases : List (FedType → Nat)}

theorem tornDown_of_le (hs : initUnits units = some (s, bases))
    (h : ∀ t, (entries units t).length ≤ 2 ^ 24) : TornDown s := by
  have howned := owned_of_initUnits units hs
  obtain ⟨hholds, -⟩ := holds_of_initUnits hs
  cases s with
  | none => exact ⟨_, rfl, fun b => ⟨nofun, fun _ => rfl⟩⟩
  | some s => exact howned.tornDown fun t => (hholds.fed t).capacity_eq_iff.2 (h t)

/-- A type whose index grew: its entries are freed again. -/
theorem deinit_of_lt (hs : initUnits units = some (s, bases)) {t : FedType}
    (h : 2 ^ 24 < (entries units t).length) : deinit s = none := by
  have howned := owned_of_initUnits units hs
  obtain ⟨hholds, hnone⟩ := holds_of_initUnits hs
  cases s with
  | none =>
    rw [hnone.1 rfl] at h
    exact absurd h (Nat.not_lt_zero _)
  | some s =>
    obtain ⟨node, hnode, -⟩ :=
      (howned.fed t).2.listed (mt (hholds.fed t).capacity_eq_iff.1 (Nat.not_le.2 h))
    exact howned.deinit_none (List.ne_nil_of_mem hnode)

/-- **Each block is freed once**, and none is touched afterwards, exactly if no
type has more entries than the tables of an index that never grew. -/
theorem tornDown_iff (units : List (CsanrtUnit α β)) (s : Option (Csanrt α β))
    (bases : List (FedType → Nat))
    (hs : initUnits units = some (s, bases)) :
    TornDown s ↔ ∀ t, (entries units t).length ≤ 2 ^ 24 := by
  constructor
  · intro htorn t
    by_contra hgt
    obtain ⟨d, hd, -⟩ := htorn
    rw [deinit_of_lt hs (Nat.not_le.1 hgt)] at hd
    cases hd
  · exact tornDown_of_le hs

theorem tornDown_iff_twoUnits : ∃ s bases, initUnits twoUnits = some (s, bases) ∧
    (TornDown s ↔ ∀ t, (entries twoUnits t).length ≤ 2 ^ 24) := by
  obtain ⟨s, bases, hs⟩ := exists_initUnits twoUnits fun t => by cases t <;> decide
  exact ⟨s, bases, hs, tornDown_iff twoUnits s bases hs⟩

/-- One unit with a load more than the tables of the index take. -/
def oversizeUnit : CsanrtUnit Nat Nat :=
  ⟨fun t => if t = .load then List.replicate (2 ^ 24 + 1) 0 else [], fun _ => []⟩

theorem not_tornDown : ∃ s bases, initUnits [oversizeUnit] = some (s, bases) ∧ ¬ TornDown s := by
  obtain ⟨s, bases, hs⟩ := exists_initUnits [oversizeUnit] fun _ => Nat.two_pow_pos 31
  refine ⟨s, bases, hs, fun h => ?_⟩
  have hlt : 2 ^ 24 < (entries [oversizeUnit] .load).length := by
    simp only [entries, List.flatMap_singleton, oversizeUnit, if_true]
    rw [List.length_replicate]
    exact Nat.lt_succ_self _
  obtain ⟨d, hd, -⟩ := h
  rw [deinit_of_lt hs hlt] at hd
  cases hd

end Csanrt

end Csi
