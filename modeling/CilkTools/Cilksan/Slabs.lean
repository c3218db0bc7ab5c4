/-
Slabs (`Slab_t` in `shadow_mem_allocator.h`, `DSSlab_t` in `disjointset.h`):
pages of slots with a bit map of those in use. A slab is on one doubly linked
list while it has a free slot, and on another while it has none.

The two allocators do the same with slabs of another layout and another header:
what they share is here. Assertions are compiled out.
-/
import CilkTools.Bitmaps
import CilkTools.LinkedLists
import Mathlib.Logic.Function.Basic

namespace Cilksan

open Bitmaps LinkedLists

/-- The address of a page of `2 ^ n` bytes. -/
abbrev PagePtr (n : Nat) := { p : BitVec 64 // p &&& BitFields.ones 64 n = 0#64 }

namespace PagePtr

variable {n : Nat}

def null : PagePtr n := ⟨0#64, BitVec.zero_and⟩

/-- The page that an address is in. -/
def of (n : Nat) (ptr : BitVec 64) : PagePtr n :=
  ⟨ptr &&& ~~~BitFields.ones 64 n, by
    rw [BitVec.and_assoc, BitVec.and_comm (~~~_), BitVec.and_not_self]
    exact BitVec.and_zero⟩

end PagePtr

/-- The first word of a slab, with the link to the next slab and a tag. -/
class HeadWord (W : Type) (n : outParam Nat) where
  getNext : W → PagePtr n
  setNext : W → PagePtr n → W
  tag : W → BitVec 64
  getNext_setNext : ∀ h p, getNext (setNext h p) = p
  tag_setNext : ∀ h p, tag (setNext h p) = tag h

/-- A slab, less the slots themselves. -/
structure Slab (W : Type) (n : Nat) where
  head : W
  back : PagePtr n
  usedMap : List (BitVec 64)
  deriving DecidableEq

/-- Where the slots are in a page. The last word of the map has bits for no slot. -/
structure SlabLayout (n : Nat) where
  offset : Nat
  slotSize : Nat
  numSlots : Nat
  bits : n < 64
  slotSize_pos : 0 < slotSize
  fits : offset + numSlots * slotSize ≤ 2 ^ n
  padded : numSlots % 64 ≠ 0

def Slab.isFull {W : Type} {n : Nat} (s : Slab W n) : Bool := s.usedMap.all (· == -1#64)

namespace SlabLayout

variable {W : Type} {n : Nat} (L : SlabLayout n)

def usedMapSize : Nat := (L.numSlots + 63) / 64

/-- The constructor of the slab, whose header is `h` at first. -/
def construct (h : W) : Slab W n where
  head := h
  back := .null
  usedMap := (List.replicate L.usedMapSize 0#64).modify (L.usedMapSize - 1)
    (· ||| ~~~((1#64 <<< (L.numSlots % 64)) - 1#64))

/-- `&Lines[i * sizeof(LineType)]`. -/
def slot (a : PagePtr n) (i : Nat) : BitVec 64 :=
  a.val + BitVec.ofNat 64 (L.offset + i * L.slotSize)

/-- The number of a slot, from its address. -/
def index (ptr : BitVec 64) : Nat :=
  (((ptr &&& BitFields.ones 64 n) - BitVec.ofNat 64 L.offset) / BitVec.ofNat 64 L.slotSize).toNat

def getFreeLine (a : PagePtr n) (s : Slab W n) : Option (BitVec 64) × Slab W n :=
  match s.usedMap.findIdx? (· != -1#64) with
  | some i => (some (L.slot a (64 * i + lowestClear (s.usedMap.getD i 0#64))),
      { s with usedMap := s.usedMap.modify i fun x => x ||| (x + 1#64) })
  | none => (none, s)

def returnLine (s : Slab W n) (line : BitVec 64) : Slab W n :=
  { s with
    usedMap := s.usedMap.modify (L.index line / 64) (· &&& ~~~(1#64 <<< (L.index line % 64))) }

end SlabLayout

/-- The memory, page by page: the slab that is there, if one is. -/
abbrev PageMem (W : Type) (n : Nat) := PagePtr n → Slab W n

namespace PageMem

variable {W : Type} {n : Nat} [HeadWord W n]

def next (m : PageMem W n) (a : PagePtr n) : PagePtr n := HeadWord.getNext (m a).head

def back (m : PageMem W n) (a : PagePtr n) : PagePtr n := (m a).back

def put (m : PageMem W n) (a : PagePtr n) (x : Slab W n) : PageMem W n := Function.update m a x

def setNext (m : PageMem W n) (a p : PagePtr n) : PageMem W n :=
  m.put a { m a with head := HeadWord.setNext (m a).head p }

def setBack (m : PageMem W n) (a p : PagePtr n) : PageMem W n := m.put a { m a with back := p }

end PageMem

/-- The lists of an allocator's slabs of one layout: those with free slots and
the full ones. `slabs` are the pages that a slab was built on, which no operation
looks at. -/
structure SlabLists (W : Type) (n : Nat) where
  mem : PageMem W n
  list : PagePtr n
  full : PagePtr n
  slabs : List (PagePtr n)

namespace SlabLists

variable {W : Type} {n : Nat} [HeadWord W n] (L : SlabLayout n) (h : W) (s : SlabLists W n)

/-- A slab is built on the page that `my_aligned_alloc` returned. -/
def newSlab (page : PagePtr n) : SlabLists W n :=
  { s with mem := s.mem.put page (L.construct h), list := page, slabs := page :: s.slabs }

/-- What comes after the slab `slab` is the head of the list. -/
def advance (slab page : PagePtr n) : SlabLists W n :=
  if s.mem.next slab = .null then s.newSlab L h page
  else
    let mem := s.mem.setBack (s.mem.next slab) .null
    { s with mem, list := mem.next slab }

def pushFull (slab : PagePtr n) : SlabLists W n :=
  let mem := s.mem.setNext slab s.full
  let mem := if s.full ≠ .null then mem.setBack s.full slab else mem
  { s with mem, full := slab }

def pushList (slab : PagePtr n) : SlabLists W n :=
  let mem := s.mem.setBack slab .null
  let mem := mem.setNext slab s.list
  let mem := mem.setBack s.list slab
  { s with mem, list := slab }

/-- The slab's successor is made to point to its predecessor. -/
def unlinkNext (slab : PagePtr n) : SlabLists W n :=
  { s with
    mem :=
      if s.mem.next slab ≠ .null then s.mem.setBack (s.mem.next slab) (s.mem.back slab)
      else s.mem }

def unlinkFull (slab : PagePtr n) : SlabLists W n :=
  let s :=
    if s.mem.back slab ≠ .null then
      { s with mem := s.mem.setNext (s.mem.back slab) (s.mem.next slab) }
    else { s with full := s.mem.next slab }
  s.unlinkNext slab

def unlinkList (slab : PagePtr n) : SlabLists W n :=
  unlinkNext { s with mem := s.mem.setNext (s.mem.back slab) (s.mem.next slab) } slab

/-- `getLine`, where `page` is what `my_aligned_alloc` returns if it is called. -/
def getLine (page : PagePtr n) : Option (BitVec 64) × SlabLists W n :=
  let slab := s.list
  let line := L.getFreeLine slab (s.mem slab)
  let s := { s with mem := s.mem.put slab line.2 }
  if (s.mem slab).isFull then (line.1, (s.advance L h slab page).pushFull slab) else (line.1, s)

/-- The slab is moved to the start of `list`. -/
def moveToFront (slab : PagePtr n) : SlabLists W n :=
  if (s.mem slab).isFull then (s.unlinkFull slab).pushList slab
  else if s.list ≠ slab then (s.unlinkList slab).pushList slab
  else s

/-- `freeLine`, after the destructors. -/
def freeLine (line : BitVec 64) : SlabLists W n :=
  let slab := .of n line
  let s := s.moveToFront slab
  { s with mem := s.mem.put slab (L.returnLine (s.mem slab) line) }

end SlabLists

/-! ## Slots and their addresses -/

namespace SlabLayout

variable {W : Type} {n : Nat} (L : SlabLayout n) {a : PagePtr n} {i k : Nat}

/-- The end of a page is not beyond the end of the memory. -/
theorem page_bound (hn : n < 64) (a : PagePtr n) :
    a.val.toNat % 2 ^ n = 0 ∧ a.val.toNat + 2 ^ n ≤ 2 ^ 64 := by
  have hmod : a.val.toNat % 2 ^ n = 0 := by
    rw [← BitFields.toNat_and_ones hn, a.property]
    rfl
  have hpow :
      2 ^ 64 = 2 ^ n * 2 ^ (64 - n) := by rw [← Nat.pow_add, Nat.add_sub_cancel' (Nat.le_of_lt hn)]
  have hdiv := Nat.div_add_mod a.val.toNat (2 ^ n)
  have hlt : a.val.toNat / 2 ^ n < 2 ^ (64 - n) := Nat.div_lt_of_lt_mul (hpow ▸ a.val.isLt)
  refine ⟨hmod, ?_⟩
  calc a.val.toNat + 2 ^ n = 2 ^ n * (a.val.toNat / 2 ^ n + 1) := by
        rw [Nat.mul_add, Nat.mul_one]
        omega
    _ ≤ 2 ^ n * 2 ^ (64 - n) := Nat.mul_le_mul_left _ hlt
    _ = 2 ^ 64 := hpow.symm

variable {L} in
theorem slot_bound (hi : i < L.numSlots) : L.offset + i * L.slotSize + L.slotSize ≤ 2 ^ n :=
  calc L.offset + i * L.slotSize + L.slotSize = L.offset + (i + 1) * L.slotSize := by
        rw [Nat.succ_mul]
        omega
    _ ≤ L.offset + L.numSlots * L.slotSize := Nat.add_le_add_left (Nat.mul_le_mul_right _ hi) _
    _ ≤ 2 ^ n := L.fits

theorem toNat_slot (hi : i < L.numSlots) :
    (L.slot a i).toNat = a.val.toNat + (L.offset + i * L.slotSize) := by
  have hpage := (page_bound L.bits a).2
  have hslot := slot_bound hi
  have hpos := L.slotSize_pos
  rw [slot, BitVec.toNat_add, BitVec.toNat_ofNat, Nat.add_mod_mod, Nat.mod_eq_of_lt (by omega)]

/-- Where the slot is in its page. -/
theorem toNat_slot_and_ones (hi : i < L.numSlots) :
    (L.slot a i &&& BitFields.ones 64 n).toNat = L.offset + i * L.slotSize := by
  have hslot := slot_bound hi
  have hpos := L.slotSize_pos
  rw [BitFields.toNat_and_ones L.bits, L.toNat_slot hi, Nat.add_mod, (page_bound L.bits a).1,
    Nat.zero_add, Nat.mod_mod, Nat.mod_eq_of_lt (by omega)]

theorem page_slot (hi : i < L.numSlots) : PagePtr.of n (L.slot a i) = a := by
  have hsplit := BitFields.toNat_and_add_and_not (L.slot a i) (BitFields.ones 64 n)
  rw [L.toNat_slot_and_ones hi, L.toNat_slot hi] at hsplit
  refine Subtype.ext (BitVec.eq_of_toNat_eq ?_)
  show (L.slot a i &&& ~~~BitFields.ones 64 n).toNat = a.val.toNat
  omega

theorem index_slot (hi : i < L.numSlots) : L.index (L.slot a i) = i := by
  have hpow : (2 : Nat) ^ n < 2 ^ 64 := Nat.pow_lt_pow_right (by decide) L.bits
  have hslot := slot_bound hi
  have hpos := L.slotSize_pos
  have hand := L.toNat_slot_and_ones (a := a) hi
  have hoffset : (BitVec.ofNat 64 L.offset).toNat = L.offset := by
    rw [BitVec.toNat_ofNat, Nat.mod_eq_of_lt (by omega)]
  have hsize : (BitVec.ofNat 64 L.slotSize).toNat = L.slotSize := by
    rw [BitVec.toNat_ofNat, Nat.mod_eq_of_lt (by omega)]
  rw [index, BitVec.toNat_udiv, BitVec.toNat_sub_of_le (by rw [BitVec.le_def]; omega), hand,
    hoffset, hsize, Nat.add_sub_cancel_left, Nat.mul_div_cancel _ hpos]

theorem slot_inj {b : PagePtr n} (hi : i < L.numSlots) (hk : k < L.numSlots) :
    L.slot a i = L.slot b k ↔ a = b ∧ i = k := by
  constructor
  · intro h
    refine ⟨?_, ?_⟩
    · rw [← L.page_slot (a := a) hi, h, L.page_slot hk]
    · rw [← L.index_slot (a := a) hi, h, L.index_slot hk]
  · intro h
    rw [h.1, h.2]

/-! ### The bit map -/

/-- The map has its length, and the bits that are for no slot are set. -/
structure Padded (ws : List (BitVec 64)) : Prop where
  length : ws.length = L.usedMapSize
  padding : ∀ i, L.numSlots ≤ i → i < 64 * L.usedMapSize → bit ws i = true

theorem usedMapSize_eq : L.usedMapSize = L.numSlots / 64 + 1 := by
  have hpad := L.padded
  rw [usedMapSize]
  omega

theorem numSlots_lt : L.numSlots < 64 * L.usedMapSize := by
  rw [L.usedMapSize_eq]
  omega

theorem bit_construct (h : W) (hi : i < 64 * L.usedMapSize) :
    bit (L.construct h).usedMap i = decide (L.numSlots ≤ i) := by
  have hsize := L.usedMapSize_eq
  have hlast : L.usedMapSize - 1 < (List.replicate L.usedMapSize 0#64).length := by
    rw [List.length_replicate]
    omega
  have hzero : ∀ j, bit (List.replicate L.usedMapSize 0#64) j = false := fun j => by
    rw [bit, List.getD_eq_getElem?_getD, List.getElem?_replicate]
    split <;> simp
  have hget : (List.replicate L.usedMapSize 0#64).getD (L.usedMapSize - 1) 0#64 = 0#64 := by
    rw [List.getD_eq_getElem?_getD, List.getElem?_replicate]
    split <;> rfl
  rw [construct, bit_modify hlast]
  split
  · next hdiv =>
    rw [hget, BitVec.zero_or, getLsbD_not_ones (Nat.mod_lt _ (by decide))
      (Nat.mod_lt i (by decide))]
    refine decide_eq_decide.2 ?_
    omega
  · next hdiv =>
    rw [hzero, decide_eq_false]
    omega

theorem construct_padded (h : W) : L.Padded (L.construct h).usedMap where
  length := by rw [construct, List.length_modify, List.length_replicate]
  padding i hle hlt := by rw [L.bit_construct h hlt, decide_eq_true hle]

variable {L} {s : Slab W n}

theorem Padded.isFull_iff (hp : L.Padded s.usedMap) : s.isFull = true ↔
    ∀ i < L.numSlots, bit s.usedMap i = true := by
  have hall : s.isFull = true ↔ ∀ x ∈ s.usedMap, x = -1#64 := by simp [Slab.isFull]
  rw [hall, all_full_iff (by decide), hp.length]
  have hlt := L.numSlots_lt
  constructor
  · intro h i hi
    exact h i (by omega)
  · intro h i hi
    rcases Nat.lt_or_ge i L.numSlots with hslot | hslot
    · exact h i hslot
    · exact hp.padding i hslot hi

/-- A slab that is not full has a slot that is not in use, and gives it out. -/
theorem getFreeLine_spec (hp : L.Padded s.usedMap) (hs : s.isFull = false) (a : PagePtr n) :
    ∃ k ws, k < L.numSlots ∧
    bit s.usedMap k = false ∧
    L.getFreeLine a s = (some (L.slot a k), { s with usedMap := ws }) ∧ L.Padded ws ∧
    ∀ i, bit ws i = (bit s.usedMap i || decide (i = k)) := by
  obtain ⟨j, hj⟩ : ∃ j, s.usedMap.findIdx? (· != -1#64) = some j := by
    rw [← Option.isSome_iff_exists, List.findIdx?_isSome, List.any_eq_not_all_not]
    simpa [Slab.isFull] using hs
  obtain ⟨hlt, hne, -⟩ := List.findIdx?_eq_some_iff_getElem.1 hj
  have hget : s.usedMap.getD j 0#64 = s.usedMap[j] := by
    rw [List.getD_eq_getElem?_getD, List.getElem?_eq_getElem hlt]
    rfl
  have hx : s.usedMap.getD j 0#64 ≠ -1#64 := by
    rw [hget]
    exact bne_iff_ne.1 hne
  have hlow := lowestClear_lt hx
  have hclear : bit s.usedMap (64 * j + lowestClear (s.usedMap.getD j 0#64)) = false := by
    obtain ⟨hdiv, hmod⟩ := (div_eq_and_mod_eq hlow).2 rfl
    rw [bit, hdiv, hmod, getLsbD_lowestClear hx]
  have hlen := hp.length
  have hk : 64 * j + lowestClear (s.usedMap.getD j 0#64) < L.numSlots := by
    by_contra hge
    rw [hp.padding _ (Nat.not_lt.1 hge) (by omega)] at hclear
    cases hclear
  have hbit := fun i => bit_setLowest (i := i) (by decide) hlt hx
  refine ⟨_, _, hk, hclear, ?_, ⟨by rw [List.length_modify, hlen], fun i hle hi => ?_⟩, hbit⟩
  · rw [getFreeLine, hj]
  · rw [hbit, hp.padding i hle hi, Bool.true_or]

theorem returnLine_spec (hp : L.Padded s.usedMap) (hk : k < L.numSlots) (a : PagePtr n) :
    ∃ ws, L.returnLine s (L.slot a k) = { s with usedMap := ws } ∧ L.Padded ws ∧
      ∀ i, bit ws i = (bit s.usedMap i && decide (i ≠ k)) := by
  have hlen := hp.length
  have hlt := L.numSlots_lt
  have hbit := fun i => bit_clear (i := i) (k := k) s.usedMap (by decide) (by omega)
  refine ⟨_, by rw [returnLine, L.index_slot hk],
    ⟨by rw [List.length_modify, hlen], fun i hle hi => ?_⟩, hbit⟩
  rw [hbit, hp.padding i hle hi, Bool.true_and]
  exact decide_eq_true (by omega)

end SlabLayout

end Cilksan
