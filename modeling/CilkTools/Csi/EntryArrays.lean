/-
Tables that are one array: the sizeinfo tables of `csirt.c`, which `realloc`
extends, and the object tables of `csanrt.cpp`, whose entries a loop copies to
a new array. Both are read in the same way.
-/
import CilkTools.Csi.FedTables

namespace Csi

/-- `sizeinfo_table_t` and `obj_table_t`. The array has a place for each of
the entries; a place that was not written is `none`. Of the arrays of an object
table, numbered as they were allocated, the last is `entries`. -/
structure EntryArray (β : Type u) where
  numEntries : Nat := 0
  entries : Option (List (Option β)) := none
  numArrays : Nat := 0
  deleted : List Nat := []
  deriving DecidableEq, Repr

namespace EntryArray

variable {β : Type u}

/-- Entries are written to an array, from place `i` on. -/
def writeEntries : List β → Nat → List (Option β) → List (Option β)
  | [], _, cells => cells
  | x :: xs, i, cells => writeEntries xs (i + 1) (cells.set i (some x))

/-- The end that `add_sizeinfo_table` and `add_obj_table` have in common. -/
def addAtEnd (table : EntryArray β) (xs : List β) : EntryArray β :=
  { table with entries := table.entries.map (writeEntries xs (table.numEntries - xs.length)) }

/-- `get_sizeinfo_entry` and `get_obj_entry`. The comparison is signed. -/
def getEntry (table : EntryArray β) (csiId : BitVec 64) : Lookup β :=
  if csiId.toInt < table.numEntries then
    match table.entries with
    | none => .outside
    | some cells =>
      if csiId.toInt < 0 then .outside
      else
        match cells[csiId.toInt.toNat]? with
        | some (some x) => .entry x
        | _ => .outside
  else .null

/-! ## Sizeinfo tables -/

/-- `ensure_sizeinfo_table_capacity`. -/
def ensureSizeinfoTableCapacity (table : EntryArray β) (numNewEntries : Nat) : EntryArray β :=
  let totalNumEntries := table.numEntries + numNewEntries
  if totalNumEntries > 0 then
    { table with
      numEntries := totalNumEntries
      entries := some ((table.entries.getD []).take totalNumEntries ++
        List.replicate (totalNumEntries - (table.entries.getD []).length) none) }
  else table

def addSizeinfoTable (table : EntryArray β) (sizeinfoEntries : List β) : EntryArray β :=
  (table.ensureSizeinfoTableCapacity sizeinfoEntries.length).addAtEnd sizeinfoEntries

/-! ## Object tables -/

/-- The loop that copies the old entries; its counter is an `int`, and is not
defined to go beyond the greatest one. -/
def copyEntries (old : List (Option β)) : Nat → Nat → List (Option β) → Option (List (Option β))
  | 0, _, cells => some cells
  | n + 1, i, cells =>
    let cells := cells.set i old[i]?.join
    if i + 1 < 2 ^ 31 then copyEntries old n (i + 1) cells else none

/-- `ensure_obj_table_capacity`. -/
def ensureObjTableCapacity (table : EntryArray β) (numNewEntries : Nat) :
    Option (EntryArray β) := do
  let totalNumEntries := table.numEntries + numNewEntries
  if numNewEntries > 0 then
    match table.entries with
    | none =>
      return { table with
        numEntries := totalNumEntries
        entries := some (List.replicate totalNumEntries none)
        numArrays := table.numArrays + 1 }
    | some oldEntries =>
      let entries ← copyEntries oldEntries table.numEntries 0 (List.replicate totalNumEntries none)
      return {
        numEntries := totalNumEntries
        entries := some entries
        numArrays := table.numArrays + 1
        deleted := (table.numArrays - 1) :: table.deleted }
  else return table

def addObjTable (table : EntryArray β) (objEntries : List β) : Option (EntryArray β) := do
  return (← table.ensureObjTableCapacity objEntries.length).addAtEnd objEntries

/-! ## What the array holds -/

/-- The array is that of the entries `es`; there is none for no entries. -/
structure Holds (es : List β) (table : EntryArray β) : Prop where
  numEntries : table.numEntries = es.length
  entries : table.entries = if es = [] then none else some (es.map some)

variable {table : EntryArray β} {es : List β}

theorem Holds.empty : Holds ([] : List β) {} := ⟨rfl, rfl⟩

theorem writeEntries_eq (xs : List β) : ∀ (a b : List (Option β)), b.length = xs.length →
    writeEntries xs a.length (a ++ b) = a ++ xs.map some := by
  induction xs with
  | nil =>
    intro a b hb
    rw [List.length_eq_zero_iff.1 hb]
    rfl
  | cons x xs ih =>
    intro a b hb
    cases b with
    | nil => cases hb
    | cons y b =>
      have h := ih (a ++ [some x]) b (Nat.succ.inj hb)
      rw [List.length_append, List.length_singleton, List.append_assoc, List.singleton_append] at h
      rw [writeEntries, List.set_append_right _ _ (Nat.le_refl _), Nat.sub_self, List.set_cons_zero,
        h, List.map_cons, List.append_assoc, List.singleton_append]

/-- New entries in the room that was made for them. -/
theorem Holds.addAtEnd {xs : List β} (hn : table.numEntries = es.length + xs.length)
    (he : es ++ xs ≠ [] → table.entries = some (es.map some ++ List.replicate xs.length none))
    (hnil : es ++ xs = [] → table.entries = none) : Holds (es ++ xs) (table.addAtEnd xs) := by
  refine ⟨hn.trans List.length_append.symm, ?_⟩
  by_cases h : es ++ xs = []
  · rw [if_pos h, EntryArray.addAtEnd, hnil h]
    rfl
  · have hwrite :=
      writeEntries_eq xs (es.map some) (List.replicate xs.length none) List.length_replicate
    rw [List.length_map] at hwrite
    rw [if_neg h, EntryArray.addAtEnd, he h, Option.map_some, hn, Nat.add_sub_cancel, hwrite,
      List.map_append]

theorem Holds.addSizeinfoTable (h : Holds es table) (xs : List β) :
    Holds (es ++ xs) (table.addSizeinfoTable xs) := by
  have hcells : table.entries.getD [] = es.map some := by
    rw [h.entries]
    split
    · next hes => rw [hes]; rfl
    · rfl
  unfold EntryArray.addSizeinfoTable ensureSizeinfoTableCapacity
  simp only [hcells, h.numEntries, List.length_map, Nat.add_sub_cancel_left]
  by_cases hpos : es.length + xs.length > 0
  · rw [if_pos hpos]
    refine Holds.addAtEnd rfl (fun _ => ?_) fun hnil => ?_
    · rw [List.take_of_length_le (by rw [List.length_map]; omega)]
    · rw [← List.length_append, hnil] at hpos
      exact absurd hpos (Nat.lt_irrefl 0)
  · have hnil : es ++ xs = [] := List.length_eq_zero_iff.1 (by rw [List.length_append]; omega)
    obtain ⟨rfl, rfl⟩ := List.append_eq_nil_iff.1 hnil
    rw [if_neg hpos]
    exact Holds.addAtEnd h.numEntries (fun hne => absurd rfl hne) fun _ => h.entries

/-- The loop copies all entries if their number is an `int`. -/
theorem copyEntries_eq (b : List (Option β)) : ∀ (a c : List (Option β)), b.length ≤ c.length →
    copyEntries (a ++ b) b.length a.length (a ++ c) =
      if (a ++ b).length < 2 ^ 31 ∨ b = [] then some (a ++ b ++ c.drop b.length) else none := by
  induction b with
  | nil =>
    intro a c _
    rw [if_pos (.inr rfl), List.append_nil]
    rfl
  | cons y b ih =>
    intro a c hc
    cases c with
    | nil => cases hc
    | cons z c =>
      have h := ih (a ++ [y]) c (Nat.le_of_succ_le_succ hc)
      rw [List.append_assoc, List.append_assoc, List.length_append, List.length_singleton,
        List.singleton_append, List.singleton_append] at h
      have hget : (a ++ y :: b)[a.length]?.join = y := by
        rw [List.getElem?_append_right (Nat.le_refl _), Nat.sub_self]
        rfl
      rw [List.length_cons, copyEntries, hget, List.set_append_right _ _ (Nat.le_refl _),
        Nat.sub_self, List.set_cons_zero, h]
      have hlen : (a ++ y :: b).length = a.length + 1 + b.length := by
        rw [List.length_append, List.length_cons]
        omega
      have hcons : ¬ y :: b = [] := nofun
      rw [hlen]
      by_cases hlt : a.length + 1 + b.length < 2 ^ 31
      · rw [if_pos (by omega), if_pos (.inl hlt), if_pos (.inl hlt), List.drop_succ_cons]
      · rw [if_neg (c := _ ∨ y :: b = []) fun h => h.elim hlt hcons]
        split
        · next hi =>
          rw [if_neg]
          intro h
          rcases h with h | h
          · exact hlt h
          · rw [h] at hlt
            exact hlt hi
        · rfl

/-- An object table takes new entries unless the old ones are too many for the loop. -/
theorem Holds.addObjTable (h : Holds es table) (xs : List β) :
    if xs ≠ [] ∧ 2 ^ 31 ≤ es.length then table.addObjTable xs = none
    else ∃ table', table.addObjTable xs = some table' ∧ Holds (es ++ xs) table' := by
  unfold EntryArray.addObjTable ensureObjTableCapacity
  by_cases hxs : xs = []
  · subst hxs
    rw [if_neg (by simp)]
    refine ⟨_, rfl, Holds.addAtEnd h.numEntries (fun hne => ?_) fun hnil => ?_⟩
    · rw [List.append_nil] at hne
      rw [h.entries, if_neg hne]
      simp
    · rw [List.append_nil] at hnil
      rw [h.entries, if_pos hnil]
  · have hpos : xs.length > 0 := List.length_pos_of_ne_nil hxs
    have hne : es ++ xs ≠ [] := fun hnil => hxs (List.append_eq_nil_iff.1 hnil).2
    simp only [hpos, if_true, h.entries, h.numEntries]
    by_cases hes : es = []
    · subst hes
      rw [if_neg (by simp)]
      exact ⟨_, rfl, Holds.addAtEnd rfl (fun _ => by simp) fun hnil => absurd hnil hne⟩
    · have hcopy := copyEntries_eq (es.map some) [] (List.replicate (es.length + xs.length) none)
        (by rw [List.length_replicate, List.length_map]; omega)
      simp only [List.nil_append, List.length_map, List.length_nil, List.drop_replicate,
        Nat.add_sub_cancel_left, List.map_eq_nil_iff, hes, or_false] at hcopy
      simp only [hes, if_false, hcopy]
      by_cases hlt : es.length < 2 ^ 31
      · rw [if_neg (by omega), if_pos hlt]
        exact ⟨_, rfl, Holds.addAtEnd rfl (fun _ => rfl) fun hnil => absurd hnil hne⟩
      · rw [if_pos ⟨hxs, by omega⟩, if_neg hlt]
        rfl

/-- What a lookup finds. -/
theorem Holds.getEntry_eq (h : Holds es table) (csiId : BitVec 64) : table.getEntry csiId =
    if csiId.toInt < es.length then
      if h : 0 ≤ csiId.toInt ∧ csiId.toInt.toNat < es.length then
        .entry es[csiId.toInt.toNat] else .outside
    else .null := by
  unfold EntryArray.getEntry
  rw [h.numEntries, h.entries]
  split
  · next hlt =>
    by_cases hes : es = []
    · subst hes
      rw [if_pos rfl, dif_neg (by simp)]
    · rw [if_neg hes]
      simp only
      by_cases hneg : csiId.toInt < 0
      · rw [if_pos hneg, dif_neg (by omega)]
      · have hid : csiId.toInt.toNat < es.length := by omega
        rw [if_neg hneg, dif_pos ⟨by omega, hid⟩, List.getElem?_map, List.getElem?_eq_getElem hid]
        rfl
  · rfl

end EntryArray

end Csi
