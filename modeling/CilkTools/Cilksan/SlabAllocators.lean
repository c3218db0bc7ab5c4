/-
The allocators of slabs: `MALineAllocator` (`shadow_mem_allocator.h`), with
slabs for each size of a line of memory accesses, and `DSAllocator`
(`disjointset.h`), with those of the nodes of the disjoint sets. Whatever is
asked for and returned, a slot is given out only when it is not in use.

`my_aligned_alloc` is a parameter: a call says which page it returns, if it
comes to that. What is in the memory before is not known.
-/
import CilkTools.Cilksan.SlabSpec
import Mathlib.Data.Finset.Basic

namespace Cilksan

/-! ## Lines of memory accesses -/

/-- `SlabHead_t`: a pointer to a page of 64 KiB, and a size below it. -/
structure SlabHead where
  nextAndSize : BitVec 64
  deriving DecidableEq

namespace SlabHead

def getSize (h : SlabHead) : BitVec 64 := h.nextAndSize &&& BitFields.ones 64 16

def getNext (h : SlabHead) : PagePtr 16 := .of 16 h.nextAndSize

def setNext (h : SlabHead) (p : PagePtr 16) : SlabHead := ⟨p.val ||| h.getSize⟩

theorem getNext_setNext (h : SlabHead) (p : PagePtr 16) : (h.setNext p).getNext = p := by
  refine Subtype.ext ?_
  show (p.val ||| h.getSize) &&& ~~~BitFields.ones 64 16 = p.val
  have hand : h.getSize &&& ~~~BitFields.ones 64 16 = 0#64 := by
    rw [getSize, BitVec.and_assoc, BitVec.and_not_self]
    exact BitVec.and_zero
  refine BitVec.eq_of_toNat_eq ?_
  have hsplit := BitFields.toNat_and_add_and_not p.val (BitFields.ones 64 16)
  rw [p.property] at hsplit
  rw [BitVec.and_or_distrib_right, hand, BitVec.or_zero, ← hsplit]
  exact (Nat.zero_add _).symm

theorem getSize_setNext (h : SlabHead) (p : PagePtr 16) : (h.setNext p).getSize = h.getSize := by
  show (p.val ||| h.getSize) &&& BitFields.ones 64 16 = h.getSize
  rw [BitVec.and_or_distrib_right, p.property, BitVec.zero_or, getSize, BitVec.and_assoc,
    BitVec.and_self]

end SlabHead

instance : HeadWord SlabHead 16 where
  getNext := SlabHead.getNext
  setNext := SlabHead.setNext
  tag := SlabHead.getSize
  getNext_setNext := SlabHead.getNext_setNext
  tag_setNext := SlabHead.getSize_setNext

/-- The lines that there are slabs for, by the accesses in one. -/
inductive LineSize
  | ma1 | ma2 | ma4 | ma8 | ma16 | ma32 | ma64 | ma128 | ma256 | ma512 | ma1024
  deriving DecidableEq, Repr

namespace LineSize

def all : List LineSize := [ma1, ma2, ma4, ma8, ma16, ma32, ma64, ma128, ma256, ma512, ma1024]

def size : LineSize → Nat
  | ma1 => 1
  | ma2 => 2
  | ma4 => 4
  | ma8 => 8
  | ma16 => 16
  | ma32 => 32
  | ma64 => 64
  | ma128 => 128
  | ma256 => 256
  | ma512 => 512
  | ma1024 => 1024

/-- The words of the map that `NumLines` leaves room for. -/
def mapWords : LineSize → Nat
  | ma1 => 64
  | ma2 => 32
  | ma4 => 16
  | ma8 => 8
  | ma16 => 4
  | ma32 => 2
  | _ => 1

/-- The cases of `allocate` and `deallocate`. -/
def ofSize? (size : Nat) : Option LineSize :=
  match size with
  | 1 => some ma1
  | 2 => some ma2
  | 4 => some ma4
  | 8 => some ma8
  | 16 => some ma16
  | 32 => some ma32
  | 64 => some ma64
  | 128 => some ma128
  | 256 => some ma256
  | 512 => some ma512
  | 1024 => some ma1024
  | _ => none

/-- A memory access has 16 bytes. -/
def numLines (c : LineSize) : Nat := (16 * 4096 - 2 * 8 - c.mapWords * 8) / (c.size * 16)

def layout (c : LineSize) : SlabLayout 16 where
  offset := 8 + 8 + (c.numLines + 63) / 64 * 8
  slotSize := c.size * 16
  numSlots := c.numLines
  bits := by decide
  slotSize_pos := by cases c <;> decide
  fits := by cases c <;> decide
  padded := by cases c <;> decide

def head (c : LineSize) : SlabHead := ⟨BitVec.ofNat 64 c.size⟩

theorem mem_all (c : LineSize) : c ∈ all := by cases c <;> decide

theorem ofSize?_size (c : LineSize) : ofSize? c.size = some c := by cases c <;> rfl

theorem getNext_head (c : LineSize) :
    HeadWord.getNext c.head = PagePtr.null := by cases c <;> decide

theorem getSize_head (c : LineSize) : c.head.getSize.toNat = c.size := by cases c <;> decide

end LineSize

/-- The memory, and the lists of each size. -/
structure MALineAllocator where
  mem : PageMem SlabHead 16
  list : LineSize → PagePtr 16
  full : LineSize → PagePtr 16
  slabs : LineSize → List (PagePtr 16)

namespace MALineAllocator

def lists (s : MALineAllocator) (c : LineSize) : SlabLists SlabHead 16 :=
  ⟨s.mem, s.list c, s.full c, s.slabs c⟩

def setLists (s : MALineAllocator) (c : LineSize) (l : SlabLists SlabHead 16) :
    MALineAllocator where
  mem := l.mem
  list := Function.update s.list c l.list
  full := Function.update s.full c l.full
  slabs := Function.update s.slabs c l.slabs

/-- The constructor, in the memory `mem`: one slab of each size. -/
def init (mem : PageMem SlabHead 16) (pages : LineSize → PagePtr 16) : MALineAllocator :=
  LineSize.all.foldl (fun s c => s.setLists c ((s.lists c).newSlab c.layout c.head (pages c)))
    ⟨mem, fun _ => .null, fun _ => .null, fun _ => []⟩

/-- `allocate`, less the constructors of the accesses; `none` is the null pointer. -/
def allocate (s : MALineAllocator) (size : Nat) (page : PagePtr 16) :
    Option (BitVec 64) × MALineAllocator :=
  match LineSize.ofSize? size with
  | none => (none, s)
  | some c =>
    let r := (s.lists c).getLine c.layout c.head page
    (r.1, s.setLists c r.2)

def deallocate (s : MALineAllocator) (ptr : BitVec 64) : Bool × MALineAllocator :=
  match LineSize.ofSize? (s.mem (.of 16 ptr)).head.getSize.toNat with
  | none => (false, s)
  | some c => (true, s.setLists c ((s.lists c).freeLine c.layout ptr))

end MALineAllocator

/-! ## Nodes of disjoint sets -/

/-- The first word of `DSSlab_t` is a pointer to a page of 4 KiB, and no more. -/
instance : HeadWord (PagePtr 12) 12 where
  getNext h := h
  setNext _ p := p
  tag _ := 0#64
  getNext_setNext _ _ := rfl
  tag_setNext _ _ := rfl

/-- A node has four words, and there are two words of the map. -/
def dsLayout : SlabLayout 12 where
  offset := 8 + 8 + 2 * 8
  slotSize := 4 * 8
  numSlots := (4096 - 2 * 8 - 2 * 8) / (4 * 8)
  bits := by decide
  slotSize_pos := by decide
  fits := by decide
  padded := by decide

/-- `FreeSlabs` is `list`, and `FullSlabs` is `full`. -/
abbrev DSAllocator := SlabLists (PagePtr 12) 12

namespace DSAllocator

def init (mem : PageMem (PagePtr 12) 12) (page : PagePtr 12) : DSAllocator :=
  SlabLists.newSlab dsLayout PagePtr.null ⟨mem, .null, .null, []⟩ page

def getDJSet (s : DSAllocator) (page : PagePtr 12) : Option (BitVec 64) × DSAllocator :=
  s.getLine dsLayout PagePtr.null page

def freeDJSet (s : DSAllocator) (ptr : BitVec 64) : DSAllocator := s.freeLine dsLayout ptr

end DSAllocator

end Cilksan
