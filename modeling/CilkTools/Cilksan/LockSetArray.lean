/-
The array in which `LockSet_t` keeps its IDs (`locksets.h`), with every index
it reads and writes checked against the capacity.

`uninit` is what a new array holds before it is written.
-/
import CilkTools.Cilksan.Locking
import Mathlib.Data.Finset.Card
import Mathlib.Data.List.TakeWhile

namespace Cilksan

/-- `LockSet_t`: the array, of length `capacity`, and `end`. -/
structure LockArray where
  ids : List Nat
  size : Nat

namespace LockArray

variable (uninit : Nat → Nat)

/-- `new LockID_t[n]`. -/
def newIds (n : Nat) : List Nat := (List.range n).map uninit

def empty : LockArray := ⟨newIds uninit 1, 0⟩

def capacity (a : LockArray) : Nat := a.ids.length

def read (a : LockArray) (i : Nat) : Option Nat := a.ids[i]?

def write (a : LockArray) (i x : Nat) : Option LockArray :=
  if i < a.capacity then some { a with ids := a.ids.set i x } else none

/-- Copies what fits into the new array. -/
def resize (a : LockArray) (newCapacity : Nat) : LockArray :=
  let copyEnd := if a.capacity > newCapacity then newCapacity else a.capacity
  { a with ids := a.ids.take copyEnd ++ (newIds uninit newCapacity).drop copyEnd }

/-- The scan for the first of the next `n` IDs, from `i` on, that is not smaller. -/
def scan (a : LockArray) (lockId : Nat) : Nat → Nat → Option Nat
  | 0, i => some i
  | n + 1, i => do if (← a.read i) < lockId then scan a lockId n (i + 1) else some i

/-- Moves the `n` IDs from position `i` on forward by one, the last one first. -/
def moveForward (a : LockArray) (i : Nat) : Nat → Option LockArray
  | 0 => some a
  | n + 1 => do (← a.write (i + n + 1) (← a.read (i + n))).moveForward i n

/-- Moves the `n` IDs after position `j` back by one. -/
def moveBack (a : LockArray) (j : Nat) : Nat → Option LockArray
  | 0 => some a
  | n + 1 => do (← a.write j (← a.read (j + 1))).moveBack (j + 1) n

/-- The ID is in use at position `i`. -/
def isAt (a : LockArray) (i lockId : Nat) : Option Bool :=
  if i < a.size then do return (← a.read i) == lockId else some false

def insert (a : LockArray) (newLockId : Nat) : Option LockArray := do
  let a := if a.size = a.capacity then a.resize uninit (2 * a.capacity) else a
  let i ← a.scan newLockId a.size 0
  if ← a.isAt i newLockId then return a
  else
    let a ← (← a.moveForward i (a.size - i)).write i newLockId
    return { a with size := a.size + 1 }

/-- `n - 1` on 64 bits. -/
def pred64 (n : Nat) : Nat := if n = 0 then 2 ^ 64 - 1 else n - 1

/-- The ID at the place where the scan ends is read for the message that it is
not the one to remove, and nothing else depends on it. -/
def remove (a : LockArray) (lockId : Nat) : Option LockArray := do
  let i ← a.scan lockId a.size 0
  let _ ← a.read i
  let a ← a.moveBack i (pred64 a.size - i)
  return { a with size := pred64 a.size }

/-- The IDs in use. -/
def toLockSet (a : LockArray) : LockSet := ⟨a.ids.take a.size⟩

end LockArray

/-! ## Calls and the sets they are to give -/

inductive LockSetCall
  | insert (lockId : Nat)
  | remove (lockId : Nat)
  deriving DecidableEq, Repr

def LockArray.call (uninit : Nat → Nat) (a : LockArray) : LockSetCall → Option LockArray
  | .insert lockId => a.insert uninit lockId
  | .remove lockId => a.remove lockId

/-- The array after some calls, if none leaves it. -/
def LockArray.calls (uninit : Nat → Nat) (cs : List LockSetCall) : Option LockArray :=
  cs.foldlM (LockArray.call uninit) (.empty uninit)

namespace LockSetCall

def apply (S : Finset Nat) : LockSetCall → Finset Nat
  | .insert lockId => Insert.insert lockId S
  | .remove lockId => S.erase lockId

/-- The mathematical set after the same calls. -/
def contents (cs : List LockSetCall) : Finset Nat := cs.foldl apply ∅

end LockSetCall

/-- The array holds the set, in order. -/
structure LockArray.Holds (a : LockArray) (S : Finset Nat) : Prop where
  sorted : a.toLockSet.ids.Pairwise (· < ·)
  mem : ∀ id, id ∈ a.toLockSet.ids ↔ id ∈ S
  size : a.size = S.card
  within : a.size ≤ a.capacity

/-! ## The scan and the moves -/

namespace LockArray

variable (uninit : Nat → Nat) {a : LockArray} {id i j n : Nat}

/-- Where the scan ends. -/
def place (id : Nat) (l : List Nat) : Nat := (l.takeWhile (· < id)).length

theorem place_le (id : Nat) (l : List Nat) : place id l ≤ l.length :=
  (List.takeWhile_sublist _).length_le

/-- No IDs are in use beyond the capacity, and there is room for one. -/
structure WF (a : LockArray) : Prop where
  within : a.size ≤ a.capacity
  pos : 0 < a.capacity

theorem length_toLockSet (h : a.size ≤ a.capacity) : a.toLockSet.ids.length = a.size := by
  simp only [toLockSet, List.length_take]
  exact Nat.min_eq_left h

theorem scan_from (h : a.size ≤ a.capacity) : ∀ n i, i + n = a.size →
    a.scan id n i = some (i + place id (a.toLockSet.ids.drop i)) := by
  intro n
  induction n with
  | zero =>
    intro i hi
    have : a.toLockSet.ids.drop i = [] := List.drop_eq_nil_of_le (by rw [length_toLockSet h]; omega)
    simp [scan, this, place]
  | succ n ih =>
    intro i hi
    have hlt : i < a.toLockSet.ids.length := by rw [length_toLockSet h]; omega
    have hread : a.read i = some a.toLockSet.ids[i] := by
      rw [read, ← List.getElem?_eq_getElem hlt, toLockSet, List.getElem?_take_of_lt (by omega)]
    rw [List.drop_eq_getElem_cons hlt]
    simp only [scan, hread, Option.bind_eq_bind, Option.bind_some, place, List.takeWhile_cons,
      decide_eq_true_eq]
    split
    · rw [ih (i + 1) (by omega), List.length_cons, place]
      congr 1
      omega
    · rfl

theorem scan_eq (h : a.size ≤ a.capacity) :
    a.scan id a.size 0 = some (place id a.toLockSet.ids) := by
  rw [scan_from h a.size 0 (Nat.zero_add _), Nat.zero_add, List.drop_zero]

theorem moveForward_spec (hi : i + n < a.capacity) :
    ∃ a', a.moveForward i n = some a' ∧ a'.size = a.size ∧ a'.capacity = a.capacity ∧
    ∀ k, a'.ids[k]? = if i < k ∧ k ≤ i + n then a.ids[k - 1]? else a.ids[k]? := by
  induction n generalizing a with
  | zero => exact ⟨a, rfl, rfl, rfl, fun k => by rw [if_neg (by omega)]⟩
  | succ n ih =>
    have hlen : i + n < a.ids.length := by simp only [capacity] at hi; omega
    have hw :
      a.write (i + n + 1) a.ids[i + n] =
      some { a with ids := a.ids.set (i + n + 1) a.ids[i + n] } := if_pos hi
    obtain ⟨a', ha', hsize, hcap, hids⟩ :=
      ih (a := { a with ids := a.ids.set (i + n + 1) a.ids[i + n] })
        (by simp only [capacity, List.length_set] at hi ⊢; omega)
    refine ⟨a', ?_, hsize, by rw [hcap, capacity, List.length_set, capacity], fun k => ?_⟩
    · simp only [moveForward, read, List.getElem?_eq_getElem hlen, Option.bind_eq_bind,
        Option.bind_some, hw, ha']
    · rw [hids, List.getElem?_set, List.getElem?_set]
      by_cases hk : k = i + n + 1
      · subst hk
        have hlt : i + n + 1 < a.ids.length := hi
        rw [if_neg (by omega), if_pos rfl, if_pos hlt, if_pos (by omega), Nat.add_sub_cancel,
          List.getElem?_eq_getElem hlen]
      · by_cases hin : i < k ∧ k ≤ i + n
        · rw [if_pos hin, if_neg (by omega), if_pos (by omega)]
        · rw [if_neg hin, if_neg (by omega), if_neg (by omega)]

theorem moveBack_spec (hj : j + n < a.capacity) :
    ∃ a', a.moveBack j n = some a' ∧ a'.size = a.size ∧ a'.capacity = a.capacity ∧
    ∀ k, a'.ids[k]? = if j ≤ k ∧ k < j + n then a.ids[k + 1]? else a.ids[k]? := by
  induction n generalizing a j with
  | zero => exact ⟨a, rfl, rfl, rfl, fun k => by rw [if_neg (by omega)]⟩
  | succ n ih =>
    have hlen : j + 1 < a.ids.length := by simp only [capacity] at hj; omega
    have hw : a.write j a.ids[j + 1] = some { a with ids := a.ids.set j a.ids[j + 1] } :=
      if_pos (by simp only [capacity] at hj ⊢; omega)
    obtain ⟨a', ha', hsize, hcap, hids⟩ :=
      ih (a := { a with ids := a.ids.set j a.ids[j + 1] }) (j := j + 1)
        (by simp only [capacity, List.length_set] at hj ⊢; omega)
    refine ⟨a', ?_, hsize, by rw [hcap, capacity, List.length_set, capacity], fun k => ?_⟩
    · simp only [moveBack, read, List.getElem?_eq_getElem hlen, Option.bind_eq_bind,
        Option.bind_some, hw, ha']
    · rw [hids, List.getElem?_set, List.getElem?_set]
      by_cases hk : k = j
      · subst hk
        rw [if_neg (by omega), if_pos rfl, if_pos (by omega), if_pos (by omega),
          List.getElem?_eq_getElem hlen]
      · by_cases hin : j + 1 ≤ k ∧ k < j + 1 + n
        · rw [if_pos hin, if_neg (by omega), if_pos (by omega)]
        · rw [if_neg hin, if_neg (by omega), if_neg (by omega)]

/-! ## The calls -/

/-- An insertion goes in where the scan ends. -/
theorem insertIds_eq (id : Nat) (l : List Nat) : LockSet.insertIds id l =
    if l[place id l]? = some id then l else l.take (place id l) ++ id :: l.drop (place id l) := by
  induction l with
  | nil => rfl
  | cons x l ih =>
    simp only [LockSet.insertIds, place, List.takeWhile_cons, decide_eq_true_eq]
    by_cases hx : x < id
    · simp only [hx, if_true, List.length_cons, List.getElem?_cons_succ, List.take_succ_cons,
        List.drop_succ_cons]
      rw [ih, place]
      split <;> rfl
    · simp only [hx, if_false, List.length_nil, List.getElem?_cons_zero, List.take_zero,
        List.drop_zero, Option.some.injEq, List.nil_append]

theorem resize_eq (hn : a.capacity ≤ n) :
    a.resize uninit n = { a with ids := a.ids ++ (newIds uninit n).drop a.ids.length } := by
  have hc : ¬ a.capacity > n := Nat.not_lt.2 hn
  simp only [resize, if_neg hc]
  simp only [capacity, List.take_length]

/-- Growing changes no ID in use. -/
theorem resize_spec (h : a.size ≤ a.capacity) (hn : a.capacity ≤ n) :
    (a.resize uninit n).capacity = n ∧ (a.resize uninit n).toLockSet = a.toLockSet := by
  have hl : a.ids.length ≤ n := hn
  rw [resize_eq uninit hn]
  constructor
  · simp only [capacity, newIds, List.length_append, List.length_drop, List.length_map,
      List.length_range]
    omega
  · simp only [toLockSet]
    rw [List.take_append_of_le_length h]

/-- After the test for growth there is room for one more. -/
theorem grow_spec (h : a.WF) : ∃ b : LockArray, b.WF ∧ b.size = a.size ∧ b.size < b.capacity ∧
    b.toLockSet = a.toLockSet ∧
    (if a.size = a.capacity then a.resize uninit (2 * a.capacity) else a) = b := by
  refine ⟨_, ?_, ?_, ?_, ?_, rfl⟩ <;> split
  · next heq =>
    obtain ⟨hc, _⟩ := resize_spec uninit h.within (n := 2 * a.capacity) (by omega)
    exact ⟨by rw [hc, show (a.resize uninit (2 * a.capacity)).size = a.size from rfl]; omega,
      by rw [hc]; have := h.pos; omega⟩
  · exact h
  · rfl
  · rfl
  · next heq =>
    obtain ⟨hc, _⟩ := resize_spec uninit h.within (n := 2 * a.capacity) (by omega)
    have := h.pos
    rw [hc, show (a.resize uninit (2 * a.capacity)).size = a.size from rfl]
    omega
  · have := h.within
    omega
  · exact (resize_spec uninit h.within (by omega)).2
  · rfl

theorem read_eq (hi : i < a.size) : a.read i = a.toLockSet.ids[i]? := by
  rw [read, toLockSet, List.getElem?_take_of_lt hi]

theorem isAt_eq (h : a.size ≤ a.capacity) (hi : i ≤ a.size) :
    a.isAt i id = some (decide (a.toLockSet.ids[i]? = some id)) := by
  simp only [isAt]
  have hl := length_toLockSet h
  split
  · next hlt =>
    have hlt' : i < a.toLockSet.ids.length := by omega
    rw [read_eq hlt, List.getElem?_eq_getElem hlt']
    simp [beq_eq_decide]
  · next hge =>
    rw [List.getElem?_eq_none (by omega)]
    simp

/-- An insertion into the array is one into the sorted list. -/
theorem insert_spec (h : a.WF) (id : Nat) :
    ∃ a', a.insert uninit id = some a' ∧ a'.WF ∧ a'.toLockSet = a.toLockSet.insert id := by
  obtain ⟨b, hb, hsize, hroom, hset, hgrow⟩ := grow_spec uninit h
  have hp := place_le id b.toLockSet.ids
  have hl := length_toLockSet hb.within
  simp only [insert, hgrow, scan_eq hb.within, Option.bind_eq_bind, Option.bind_some,
    isAt_eq hb.within (Nat.le_trans hp (Nat.le_of_eq hl)), decide_eq_true_eq, LockSet.insert,
    ← hset, insertIds_eq]
  split
  · exact ⟨b, rfl, hb, rfl⟩
  · obtain ⟨m, hm, hms, hmc, hids⟩ := moveForward_spec (a := b) (i := place id b.toLockSet.ids)
      (n := b.size - place id b.toLockSet.ids) (by omega)
    have hw : m.write (place id b.toLockSet.ids) id =
        some { m with ids := m.ids.set (place id b.toLockSet.ids) id } := if_pos (by omega)
    have hmlen : m.ids.length = b.capacity := hmc
    simp only [hm, Option.bind_some, hw]
    refine ⟨_, rfl, ⟨?_, ?_⟩, ?_⟩
    · simp only [capacity, List.length_set]
      omega
    · simp only [capacity, List.length_set]
      omega
    · refine congrArg LockSet.mk (List.ext_getElem? fun k => ?_)
      have hold : ∀ k, k < b.size → b.ids[k]? = b.toLockSet.ids[k]? := fun k hk =>
        (List.getElem?_take_of_lt hk).symm
      generalize b.toLockSet.ids = l at hp hl hold hids ⊢
      show ((m.ids.set (place id l) id).take (m.size + 1))[k]? = _
      rw [List.getElem?_take, List.getElem?_set, hids, List.getElem?_append, List.length_take,
        Nat.min_eq_left hp]
      rcases Nat.lt_trichotomy k (place id l) with hk | rfl | hk
      · rw [if_pos (by omega), if_neg (by omega), if_neg (by omega), if_pos hk,
          List.getElem?_take_of_lt hk, hold k (by omega)]
      · rw [if_pos (by omega), if_pos rfl, if_pos (by omega),
          if_neg (Nat.lt_irrefl _), Nat.sub_self]
        rfl
      · obtain ⟨j, rfl⟩ : ∃ j, k = j + 1 := ⟨k - 1, by omega⟩
        rw [if_neg (Nat.ne_of_lt hk), if_neg (show ¬ j + 1 < place id l by omega),
          show j + 1 - place id l = (j - place id l) + 1 by omega, List.getElem?_cons_succ,
            List.getElem?_drop,
          show place id l + (j - place id l) = j by omega]
        by_cases hj : j < b.size
        · rw [if_pos (by omega), if_pos (by omega), Nat.add_sub_cancel, hold j hj]
        · rw [if_neg (by omega), List.getElem?_eq_none (by omega)]

/-- A removal of an ID in use is one from the sorted list. -/
theorem remove_spec (h : a.WF) (hid : place id a.toLockSet.ids < a.size) :
    ∃ a', a.remove id = some a' ∧ a'.WF ∧ a.toLockSet.remove id = some a'.toLockSet := by
  have hl := length_toLockSet h.within
  have hpred : pred64 a.size = a.size - 1 := if_neg (by omega)
  have hcap := h.within
  have hin : place id a.toLockSet.ids < a.ids.length := by
    simp only [capacity] at hcap
    omega
  have hread : a.read (place id a.toLockSet.ids) = some a.ids[place id a.toLockSet.ids] :=
    List.getElem?_eq_getElem hin
  obtain ⟨m, hm, hms, hmc, hids⟩ := moveBack_spec (a := a) (j := place id a.toLockSet.ids)
    (n := a.size - 1 - place id a.toLockSet.ids) (by omega)
  simp only [remove, scan_eq h.within, Option.bind_eq_bind, Option.bind_some, hread, hpred, hm, hms]
  refine ⟨_, rfl, ⟨?_, ?_⟩, ?_⟩
  · simp only [capacity] at hmc hcap ⊢
    omega
  · have := h.pos
    simp only [capacity] at hmc this ⊢
    omega
  · have hne : a.toLockSet.isEmpty = false := by
      simp only [LockSet.isEmpty, List.isEmpty_eq_false_iff_exists_mem]
      exact ⟨_, List.getElem_mem (show 0 < a.toLockSet.ids.length by omega)⟩
    have hplace : place id a.toLockSet.ids < a.toLockSet.ids.length := by omega
    simp only [LockSet.remove, hne, Bool.false_eq_true, if_false]
    rw [if_pos (show (a.toLockSet.ids.takeWhile (· < id)).length < _ from hplace)]
    refine congrArg (fun l => some (LockSet.mk l)) (List.ext_getElem? fun k => ?_)
    have hold : ∀ k, k < a.size → a.ids[k]? = a.toLockSet.ids[k]? := fun k hk =>
      (List.getElem?_take_of_lt hk).symm
    show (a.toLockSet.ids.eraseIdx (place id a.toLockSet.ids))[k]? = _
    clear hread hm
    generalize a.toLockSet.ids = l at hid hplace hl hold hids ⊢
    rw [List.getElem?_eraseIdx, List.getElem?_take, hids]
    by_cases hk : k < a.size - 1
    · rw [if_pos hk]
      by_cases hkp : k < place id l
      · rw [if_pos hkp, if_neg (by omega), hold k (by omega)]
      · rw [if_neg hkp, if_pos (by omega), hold (k + 1) (by omega)]
    · rw [if_neg hk]
      split <;> rw [List.getElem?_eq_none (by omega)]

theorem size_moveBack {a' : LockArray} (h : a.moveBack j n = some a') : a'.size = a.size := by
  induction n generalizing a a' j with
  | zero =>
    cases h
    rfl
  | succ n ih =>
    simp only [moveBack, Option.bind_eq_bind, Option.bind_eq_some_iff, write] at h
    obtain ⟨x, _, b, hb, h⟩ := h
    split at hb
    · cases hb
      exact ih (a := { a with ids := a.ids.set j x }) h
    · cases hb

/-- Whether or not it finds the ID, a removal that returns has taken one from `end`. -/
theorem size_remove {a' : LockArray} (h : a.remove id = some a') : a'.size = pred64 a.size := by
  simp only [remove, Option.bind_eq_bind, Option.bind_eq_some_iff] at h
  obtain ⟨i, _, x, _, m, hm, h⟩ := h
  cases h
  rw [← size_moveBack hm]

theorem pred64_ne (n : Nat) : pred64 n ≠ n := by
  unfold pred64
  split <;> omega

end LockArray

/-! ## Runs -/

namespace LockArray

variable {uninit : Nat → Nat} {a : LockArray} {S : Finset Nat} {id : Nat}

theorem card_eq_length {l : List Nat} (hs : l.Pairwise (· < ·)) (hm : ∀ x, x ∈ l ↔ x ∈ S) :
    l.length = S.card := by
  have hnd : l.Nodup := hs.imp Nat.ne_of_lt
  rw [← List.toFinset_card_of_nodup hnd]
  congr 1
  ext x
  rw [List.mem_toFinset, hm]

theorem Holds.of_list (hw : a.WF) (hs : a.toLockSet.ids.Pairwise (· < ·))
    (hm : ∀ x, x ∈ a.toLockSet.ids ↔ x ∈ S) : a.Holds S :=
  ⟨hs, hm, by rw [← length_toLockSet hw.within, card_eq_length hs hm], hw.within⟩

theorem Holds.insert (h : a.Holds S) (hw : a.WF) (uninit : Nat → Nat) (id : Nat) :
    ∃ a', a.insert uninit id = some a' ∧ a'.WF ∧ a'.Holds (Insert.insert id S) := by
  obtain ⟨a', ha', hw', hset⟩ := insert_spec uninit hw id
  refine ⟨a', ha', hw', .of_list hw' ?_ fun x => ?_⟩
  · rw [hset]
    exact LockSet.sorted_insertIds h.sorted
  · rw [hset, LockSet.insert, LockSet.mem_insertIds, h.mem, Finset.mem_insert]

/-- The scan for an ID in use ends before the last one. -/
theorem place_lt_of_mem {l : List Nat} (h : id ∈ l) : place id l < l.length := by
  refine Nat.lt_of_le_of_ne (place_le id l) fun heq => ?_
  have hall : l.takeWhile (· < id) = l := (List.takeWhile_prefix _).eq_of_length heq
  have := List.takeWhile_eq_self_iff.1 hall id h
  simp at this

theorem Holds.remove (h : a.Holds S) (hw : a.WF) (hid : id ∈ S) :
    ∃ a', a.remove id = some a' ∧ a'.WF ∧ a'.Holds (S.erase id) := by
  have hmem := (h.mem id).2 hid
  have hlt := place_lt_of_mem hmem
  rw [length_toLockSet hw.within] at hlt
  obtain ⟨a', ha', hw', hset⟩ := remove_spec hw hlt
  obtain ⟨s, hs, hsorted, hiff⟩ := LockSet.remove_of_mem h.sorted hmem
  obtain rfl := Option.some.inj (hset.symm.trans hs)
  refine ⟨a', ha', hw', .of_list hw' hsorted fun x => ?_⟩
  rw [hiff, h.mem, Finset.mem_erase, and_comm]

theorem calls_concat (cs : List LockSetCall) (c : LockSetCall) :
    calls uninit (cs ++ [c]) = (calls uninit cs).bind (·.call uninit c) := by
  simp [calls, List.foldlM_append]

theorem contents_concat (cs : List LockSetCall) (c : LockSetCall) :
    LockSetCall.contents (cs ++ [c]) = c.apply (LockSetCall.contents cs) := by
  simp [LockSetCall.contents]

theorem WF.empty : (LockArray.empty uninit).WF :=
  ⟨by simp [LockArray.empty], by simp [LockArray.empty, capacity, newIds]⟩

/-- Calls that remove only what is there. -/
theorem holds_of_present (uninit : Nat → Nat) (cs : List LockSetCall)
    (h : ∀ p id, p ++ [.remove id] <+: cs → id ∈ LockSetCall.contents p) :
    ∃ a, calls uninit cs = some a ∧ a.WF ∧ a.Holds (LockSetCall.contents cs) := by
  induction cs using List.reverseRecOn with
  | nil =>
    exact ⟨.empty uninit, rfl, .empty, .of_list .empty (by simp [toLockSet, LockArray.empty]) (by
      simp [toLockSet, LockArray.empty, LockSetCall.contents])⟩
  | append_singleton cs c ih =>
    obtain ⟨a, ha, hw, hh⟩ := ih fun p id hp => h p id (hp.trans (List.prefix_append _ _))
    rw [calls_concat, contents_concat, ha, Option.bind_some]
    cases c with
    | insert id => exact hh.insert hw uninit id
    | remove id => exact hh.remove hw (h cs id (List.prefix_refl _))

/-- **Lock sets are sets.** After every call of a sequence the array holds the
set the calls give, exactly if each removal in it is of an ID that is there. -/
theorem calls_hold_iff (uninit : Nat → Nat) (cs : List LockSetCall) :
    (∀ p, p <+: cs → ∃ a, calls uninit p = some a ∧ a.Holds (LockSetCall.contents p)) ↔
      ∀ p id, p ++ [.remove id] <+: cs → id ∈ LockSetCall.contents p := by
  constructor
  · intro h p id hp
    obtain ⟨a, ha, hh⟩ := h p ((List.prefix_append _ _).trans hp)
    obtain ⟨a', ha', hh'⟩ := h _ hp
    rw [calls_concat, ha, Option.bind_some] at ha'
    by_contra hid
    -- The set is the same and `end` is not.
    rw [contents_concat] at hh'
    have hsize := hh'.size
    rw [LockSetCall.apply, Finset.erase_eq_of_notMem hid, ← hh.size, size_remove ha'] at hsize
    exact pred64_ne _ hsize
  · intro h p hp
    obtain ⟨a, ha, _, hh⟩ := holds_of_present uninit p fun q id hq => h q id (hq.trans hp)
    exact ⟨a, ha, hh⟩

/-- Removing 3 from `{5}` removes 5. -/
theorem not_holds_remove_absent : ¬ ∃ a, calls (fun _ => 0) [.insert 5, .remove 3] = some a ∧
    a.Holds (LockSetCall.contents [.insert 5, .remove 3]) := by
  intro ⟨a, ha, hh⟩
  have hrem : LockArray.remove ⟨[5], 1⟩ 3 = some a := ha
  have hsize := hh.size
  rw [size_remove hrem] at hsize
  exact absurd hsize (by decide)

end LockArray

end Cilksan
