/-
The dictionary of allocations: `findAllocLoc`, and what it finds after any
sequence of `record_alloc` and `clear_alloc`.

The id of an entry shares its word with a type (`makeTypedID`), and the
greatest id stands for none.
-/
import CilkTools.Cilksan.AllocHooks

namespace Cilksan

/-- `MAType_t`. -/
inductive MAType
  | rw
  | fnrw
  | alloc
  | free
  | realloc
  | stackFree
  | unknown
  deriving DecidableEq, Repr

namespace MAType

def val : MAType → Nat
  | rw => 0
  | fnrw => 1
  | alloc => 2
  | free => 3
  | realloc => 4
  | stackFree => 5
  | unknown => 255

/-- The cast from a number. -/
def ofVal : Nat → MAType
  | 0 => rw
  | 1 => fnrw
  | 2 => alloc
  | 3 => free
  | 4 => realloc
  | 5 => stackFree
  | _ => unknown

end MAType

def UNKNOWN_CSI_ID : Int := -1

/-- `AccessLoc_t`: its id and its type. -/
structure AllocLoc where
  accLoc : Int := UNKNOWN_CSI_ID
  type : MAType := .unknown
  deriving DecidableEq, Repr

def AllocLoc.isValid (loc : AllocLoc) : Bool := loc.accLoc != UNKNOWN_CSI_ID

namespace MemoryAccess

def TYPE_SHIFT : Nat := 44

/-- `UNKNOWN_CSI_ID & ID_MASK`. -/
def UNKNOWN_CSI_ACC_ID : Nat := 2 ^ TYPE_SHIFT - 1

def makeTypedID (accId : Nat) (type : MAType) : Nat :=
  accId % 2 ^ TYPE_SHIFT + type.val * 2 ^ TYPE_SHIFT

def getAccID (m : MemoryAccess) : Int :=
  if m.accId % 2 ^ TYPE_SHIFT = UNKNOWN_CSI_ACC_ID then UNKNOWN_CSI_ID
    else (m.accId % 2 ^ TYPE_SHIFT : Nat)

def getAccType (m : MemoryAccess) : MAType :=
  if m.accId % 2 ^ TYPE_SHIFT = UNKNOWN_CSI_ACC_ID then .unknown
    else .ofVal (m.accId / 2 ^ TYPE_SHIFT % 2 ^ 4)

/-- `getLoc`. -/
def getAllocLoc (m : MemoryAccess) : AllocLoc := ⟨m.getAccID, m.getAccType⟩

end MemoryAccess

namespace SimpleDictionary

def find (d : SimpleDictionary) (addr : Nat) : Option MemoryAccess :=
  QueryIterator.get d.table (QueryIterator.mk d.table ⟨addr, 1⟩)

def findAllocLoc (allocs : SimpleDictionary) (addr : Nat) : AllocLoc :=
  match allocs.find addr with
  | some x => x.getAllocLoc
  | none => {}

def recordAlloc (d : SimpleDictionary) (f : Strand) (start size allocaId : Nat) :
    SimpleDictionary :=
  if size = 0 then d else d.set f start size (MemoryAccess.makeTypedID allocaId .alloc)

def clearAlloc (d : SimpleDictionary) (start size : Nat) : SimpleDictionary :=
  if size = 0 then d else d.clear start size

end SimpleDictionary

/-! ## Operations -/

/-- A call of `record_alloc`, from the strand `f`, or of `clear_alloc`. -/
inductive AllocOp
  | recordAlloc (f : Strand) (start size allocaId : Nat)
  | clearAlloc (start size : Nat)

namespace AllocOp

def start : AllocOp → Nat
  | recordAlloc _ start _ _ => start
  | clearAlloc start _ => start

def size : AllocOp → Nat
  | recordAlloc _ _ size _ => size
  | clearAlloc _ size => size

/-- The ids that are told from the one that stands for none. -/
def HasId : AllocOp → Prop
  | recordAlloc _ _ _ allocaId => allocaId < 2 ^ 44 - 1
  | clearAlloc _ _ => True

instance : DecidablePred HasId
  | recordAlloc _ _ _ allocaId => inferInstanceAs (Decidable (allocaId < 2 ^ 44 - 1))
  | clearAlloc _ _ => inferInstanceAs (Decidable True)

def covers (op : AllocOp) (a : Nat) : Bool := decide (op.start ≤ a ∧ a < op.start + op.size)

/-- What is to be found where the operation was the last. -/
def loc : AllocOp → AllocLoc
  | recordAlloc _ _ _ allocaId => ⟨allocaId, .alloc⟩
  | clearAlloc _ _ => {}

def apply (d : SimpleDictionary) : AllocOp → SimpleDictionary
  | recordAlloc f start size allocaId => d.recordAlloc f start size allocaId
  | clearAlloc start size => d.clearAlloc start size

def applyAll (ops : List AllocOp) : SimpleDictionary := ops.foldl apply {}

/-- The interval map: an address has what the last operation on it says. -/
def lastLoc (ops : List AllocOp) (a : Nat) : AllocLoc :=
  match (ops.filter (·.covers a)).getLast? with
  | some op => op.loc
  | none => {}

end AllocOp

/-! ## One operation -/

theorem MemoryAccess.getAllocLoc_makeTypedID {id : Nat} (h : id < 2 ^ 44 - 1) {m : MemoryAccess}
    (hm : m.accId = makeTypedID id .alloc) : m.getAllocLoc = ⟨id, .alloc⟩ := by
  have hmod : m.accId % 2 ^ TYPE_SHIFT = id := by
    rw [hm, makeTypedID, TYPE_SHIFT, Nat.add_mul_mod_self_right]
    omega
  have hdiv : m.accId / 2 ^ TYPE_SHIFT % 2 ^ 4 = 2 := by
    rw [hm, makeTypedID, TYPE_SHIFT, show MAType.alloc.val = 2 from rfl]
    omega
  have hne : id ≠ UNKNOWN_CSI_ACC_ID := by
    rw [UNKNOWN_CSI_ACC_ID, TYPE_SHIFT]
    omega
  rw [getAllocLoc, getAccID, getAccType, hmod, hdiv, if_neg hne, if_neg hne]
  rfl

variable {d : SimpleDictionary} {a : Nat}

/-- A query of one byte finds its entry. -/
theorem find_eq_get (hw : d.table.WF) (a : Nat) : d.find a = d.table.get a := by
  have hle : a ≤ (d.table.queryCells hw).seek d.table.used (a + 1) a := Cells.le_seek
  have hstop : (d.table.queryCells hw).seek d.table.used (a + 1) a < a + 1 →
    d.table.used ((d.table.queryCells hw).seek d.table.used (a + 1) a) = true := Cells.stop_seek
  have hnone : a < (d.table.queryCells hw).seek d.table.used (a + 1) a → d.table.used a = false :=
    fun h =>
    Cells.not_stop_of_lt_seek (QueryIterator.used_const hw) (Nat.le_refl a) h (Nat.lt_succ_self a)
  rw [SimpleDictionary.find, Chunk.mk_eq_upTo, QueryIterator.mk_spec hw, QueryIterator.get]
  generalize (d.table.queryCells hw).seek d.table.used (a + 1) a = q at hle hstop hnone ⊢
  simp only [Chunk.isEmpty_upTo, Chunk.upTo_addr]
  split
  · next h =>
    cases hg : d.table.get a with
    | none => rfl
    | some x =>
      rw [QueryIterator.used_of_get hg] at hnone
      cases hnone (by omega)
  · next h => rw [show q = a by omega]

theorem findAllocLoc_eq (hw : d.table.WF) (a : Nat) :
    d.findAllocLoc a = ((d.table.get a).map MemoryAccess.getAllocLoc).getD {} := by
  rw [SimpleDictionary.findAllocLoc, find_eq_get hw]
  cases d.table.get a <;> rfl

namespace AllocOp

theorem covers_iff {op : AllocOp} : op.covers a = true ↔ op.start ≤ a ∧ a < op.start + op.size :=
  decide_eq_true_iff

theorem apply_of_empty {op : AllocOp} (h : op.size = 0) : op.apply d = d := by
  cases op with
  | recordAlloc f start size id => exact if_pos h
  | clearAlloc start size => exact if_pos h

/-- **One operation** decides what is found in its range, and nothing else. -/
theorem apply_spec (hw : d.table.WF) {op : AllocOp} (hid : op.HasId) :
    (op.apply d).table.WF ∧ ∀ a, (op.apply d).findAllocLoc a = if op.covers a = true then op.loc
    else d.findAllocLoc a := by
  by_cases hs : op.size = 0
  · rw [apply_of_empty hs]
    refine ⟨hw, fun a => ?_⟩
    rw [if_neg]
    rw [covers_iff]
    omega
  · cases op with
    | recordAlloc f start size id =>
      obtain ⟨hw', hget⟩ :=
        UpdateIterator.set_spec hw (f.maSetFn (MemoryAccess.makeTypedID id .alloc))
          (show start < start + size from Nat.lt_add_of_pos_right (Nat.pos_of_ne_zero hs))
      rw [← Chunk.mk_eq_upTo] at hw' hget
      have happly :
          (recordAlloc f start size id).apply d =
          d.set f start size (MemoryAccess.makeTypedID id .alloc) := if_neg hs
      rw [happly]
      refine ⟨hw', fun a => ?_⟩
      rw [findAllocLoc_eq (d := d.set _ _ _ _) hw', SimpleDictionary.set, hget, findAllocLoc_eq hw]
      simp only [covers_iff]
      split
      · next h =>
          exact (MemoryAccess.getAllocLoc_makeTypedID hid (f.maSetFn_func _ _).2).trans
            (if_pos h).symm
      · next h => exact (if_neg h).symm
    | clearAlloc start size =>
      obtain ⟨hw', hget⟩ := UpdateIterator.clear_spec hw start (start + size)
      rw [← Chunk.mk_eq_upTo] at hw' hget
      have happly : (clearAlloc start size).apply d = d.clear start size := if_neg hs
      rw [happly]
      refine ⟨hw', fun a => ?_⟩
      rw [findAllocLoc_eq (d := d.clear _ _) hw', SimpleDictionary.clear, hget, findAllocLoc_eq hw]
      simp only [covers_iff]
      split
      · next h => exact (if_pos h).symm
      · next h => exact (if_neg h).symm

/-! ## Runs -/

theorem lastLoc_snoc (ops : List AllocOp) (op : AllocOp) (a : Nat) :
    lastLoc (ops ++ [op]) a = if op.covers a = true then op.loc else lastLoc ops a := by
  unfold lastLoc
  rw [List.filter_append, List.filter_singleton]
  cases h : op.covers a with
  | true => simp
  | false => simp

theorem applyAll_spec (ops : List AllocOp) (hid : ∀ op ∈ ops, op.HasId) :
    (applyAll ops).table.WF ∧ ∀ a, (applyAll ops).findAllocLoc a = lastLoc ops a := by
  induction ops using List.reverseRecOn with
  | nil =>
    have hw : (applyAll []).table.WF := fun _ _ h => nomatch h
    exact ⟨hw, fun a => findAllocLoc_eq hw a⟩
  | append_singleton ops op ih =>
    obtain ⟨hw, hfind⟩ := ih fun op' h => hid op' (List.mem_append_left _ h)
    have hstep : applyAll (ops ++ [op]) = op.apply (applyAll ops) := by
      rw [applyAll, List.foldl_append]
      rfl
    obtain ⟨hw', hfind'⟩ := op.apply_spec hw (hid op (by simp))
    rw [hstep]
    refine ⟨hw', fun a => ?_⟩
    rw [hfind', lastLoc_snoc, hfind]

end AllocOp

/-- **The allocation dictionary is an interval map**, and an operation touches
its own range only. -/
theorem findAllocLoc_applyAll (ops : List AllocOp) (hid : ∀ op ∈ ops, op.HasId) (a : Nat) :
    (AllocOp.applyAll ops).findAllocLoc a = AllocOp.lastLoc ops a ∧
    ∀ op : AllocOp, op.HasId → op.covers a = false →
      (op.apply (AllocOp.applyAll ops)).findAllocLoc a = (AllocOp.applyAll ops).findAllocLoc a := by
  obtain ⟨hw, hfind⟩ := AllocOp.applyAll_spec ops hid
  refine ⟨hfind a, fun op hop hcov => ?_⟩
  rw [(op.apply_spec hw hop).2, hcov]
  rfl

/-- A block, a later one over its middle, and part of that cleared. -/
def overlappingAllocs : List AllocOp :=
  let f : Strand := { func := 0, version := 0, inParallel := fun _ _ => false }
  [.recordAlloc f 3 1000 7, .recordAlloc f 500 20 9, .clearAlloc 510 1]

theorem findAllocLoc_applyAll_overlapping :
    (AllocOp.applyAll overlappingAllocs).findAllocLoc 509 = AllocOp.lastLoc overlappingAllocs 509 ∧
      AllocOp.lastLoc overlappingAllocs 509 = ⟨9, .alloc⟩ :=
  ⟨(findAllocLoc_applyAll overlappingAllocs (by decide) 509).1, by decide⟩

end Cilksan
