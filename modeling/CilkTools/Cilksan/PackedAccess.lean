/-
The two words of a `MemoryAccess_t` (`dictionary.h`): a node's address with a
version above it, and an id with a type above it. What `set` stores is what
the accessors return, but for the version, which stays where the node does.

Reference counts are left out.
-/
import CilkTools.BitFields
import CilkTools.Cilksan.AllocMap

namespace Cilksan

open BitFields

/-- The enumerator's 8 bits. -/
def MAType.bits (type : MAType) : BitVec 8 := BitVec.ofNat 8 type.val

theorem MAType.toNat_bits (type : MAType) : type.bits.toNat = type.val := by cases type <;> rfl

theorem MAType.val_lt {type : MAType} (h : type ≠ .unknown) : type.val < 6 := by
  cases type
  case unknown => exact absurd rfl h
  all_goals decide

namespace PackedAccess

def VERSION_SHIFT : Nat := 48
def TYPE_SHIFT : Nat := VERSION_SHIFT - 4
def ID_MASK : BitVec 64 := ones 64 TYPE_SHIFT
def TYPE_MASK : BitVec 64 := ones 64 VERSION_SHIFT &&& ~~~ID_MASK
def PTR_MASK : BitVec 64 := ones 64 VERSION_SHIFT
def UNKNOWN_CSI_ID : BitVec 64 := -1#64
def UNKNOWN_CSI_ACC_ID : BitVec 64 := UNKNOWN_CSI_ID &&& ID_MASK

end PackedAccess

/-- `MemoryAccess_t`. -/
structure PackedAccess where
  verFunc : BitVec 64 := 0#64
  verAccId : BitVec 64 := PackedAccess.UNKNOWN_CSI_ACC_ID
  deriving DecidableEq, Repr

namespace PackedAccess

def makeTypedID (accId : BitVec 64) (type : MAType) : BitVec 64 :=
  (accId &&& ID_MASK) ||| (type.bits.setWidth 64 <<< TYPE_SHIFT)

def makeVerFunc (func : BitVec 64) (version : BitVec 16) : BitVec 64 :=
  func ||| (version.setWidth 64 <<< VERSION_SHIFT)

def getFunc (m : PackedAccess) : BitVec 64 := m.verFunc &&& PTR_MASK
def getVersion (m : PackedAccess) : BitVec 16 := (m.verFunc >>> VERSION_SHIFT).setWidth 16

def getAccID (m : PackedAccess) : BitVec 64 :=
  if m.verAccId &&& ID_MASK = UNKNOWN_CSI_ACC_ID then UNKNOWN_CSI_ID else m.verAccId &&& ID_MASK

def getAccType (m : PackedAccess) : BitVec 8 :=
  if m.verAccId &&& ID_MASK = UNKNOWN_CSI_ACC_ID then MAType.unknown.bits
  else ((m.verAccId &&& TYPE_MASK) >>> TYPE_SHIFT).setWidth 8

/-- `set`, with the id and the type in one word. -/
def setTyped (m : PackedAccess) (func : BitVec 64) (version : BitVec 16) (typedId : BitVec 64) :
    PackedAccess :=
  let m := if m.getFunc ≠ func then { m with verFunc := makeVerFunc func version } else m
  { m with verAccId := typedId }

def set (m : PackedAccess) (func : BitVec 64) (version : BitVec 16) (accId : BitVec 64)
    (type : MAType) : PackedAccess :=
  let m := if m.getFunc ≠ func then { m with verFunc := makeVerFunc func version } else m
  { m with verAccId := makeTypedID accId type }

/-- Copy assignment. -/
def assign (m copy : PackedAccess) : PackedAccess :=
  let m := if m.verFunc ≠ copy.verFunc then { m with verFunc := copy.verFunc } else m
  { m with verAccId := copy.verAccId }

/-! ## The words as numbers -/

theorem toNat_getFunc (m : PackedAccess) : m.getFunc.toNat = m.verFunc.toNat % 2 ^ 48 :=
  toNat_and_ones (by decide) _

theorem toNat_getVersion (m : PackedAccess) :
    m.getVersion.toNat = m.verFunc.toNat / 2 ^ 48 % 2 ^ 16 := by
  rw [getVersion, BitVec.toNat_setWidth, BitVec.toNat_ushiftRight, Nat.shiftRight_eq_div_pow,
    VERSION_SHIFT]

theorem toNat_idMask_and (x : BitVec 64) : (x &&& ID_MASK).toNat = x.toNat % 2 ^ 44 :=
  toNat_and_ones (by decide) x

theorem toNat_makeVerFunc {func : BitVec 64} (h : func.toNat < 2 ^ 48) (version : BitVec 16) :
    (makeVerFunc func version).toNat = version.toNat * 2 ^ 48 + func.toNat := by
  have hv := version.isLt
  have hw : (version.setWidth 64).toNat = version.toNat := by
    rw [BitVec.toNat_setWidth]
    omega
  rw [makeVerFunc, VERSION_SHIFT, toNat_or_shiftLeft h (by rw [hw]; omega), hw]

theorem toNat_makeTypedID (accId : BitVec 64) (type : MAType) :
    (makeTypedID accId type).toNat = type.val * 2 ^ 44 + accId.toNat % 2 ^ 44 := by
  have hw : (type.bits.setWidth 64).toNat = type.val := by
    rw [BitVec.toNat_setWidth, MAType.toNat_bits]
    cases type <;> rfl
  have hv : type.val < 256 := by cases type <;> decide
  have hid := toNat_idMask_and accId
  rw [makeTypedID, show TYPE_SHIFT = 44 from rfl,
    toNat_or_shiftLeft (by rw [hid]; exact Nat.mod_lt _ (by decide)) (by rw [hw]; omega), hw, hid]

/-- The word is that of the model whose fields are numbers. -/
theorem toNat_makeTypedID_eq (accId : BitVec 64) (type : MAType) :
    (makeTypedID accId type).toNat = MemoryAccess.makeTypedID accId.toNat type := by
  rw [toNat_makeTypedID, MemoryAccess.makeTypedID, MemoryAccess.TYPE_SHIFT, Nat.add_comm]

theorem toNat_typeMask_and (x : BitVec 64) :
    (((x &&& TYPE_MASK) >>> TYPE_SHIFT).setWidth 8).toNat = x.toNat / 2 ^ 44 % 2 ^ 4 := by
  have hmask : TYPE_MASK = ones 64 4 <<< 44 := by decide
  rw [BitVec.toNat_setWidth, BitVec.toNat_ushiftRight, Nat.shiftRight_eq_div_pow,
    show TYPE_SHIFT = 44 from rfl, hmask, toNat_and_mask (by decide) (by decide)]
  omega

/-! ## What the accessors return -/

theorem getFunc_makeVerFunc {func : BitVec 64} (h : func.toNat < 2 ^ 48) (version : BitVec 16)
    (verAccId : BitVec 64) :
    (PackedAccess.mk (makeVerFunc func version) verAccId).getFunc = func := by
  refine BitVec.eq_of_toNat_eq ?_
  rw [toNat_getFunc, toNat_makeVerFunc h]
  omega

theorem getVersion_makeVerFunc {func : BitVec 64} (h : func.toNat < 2 ^ 48) (version : BitVec 16)
    (verAccId : BitVec 64) :
    (PackedAccess.mk (makeVerFunc func version) verAccId).getVersion = version := by
  have hv := version.isLt
  refine BitVec.eq_of_toNat_eq ?_
  rw [toNat_getVersion, toNat_makeVerFunc h]
  omega

theorem makeTypedID_and_idMask (accId : BitVec 64) (type : MAType) :
    makeTypedID accId type &&& ID_MASK = accId &&& ID_MASK := by
  refine BitVec.eq_of_toNat_eq ?_
  rw [toNat_idMask_and, toNat_idMask_and, toNat_makeTypedID]
  omega

/-- Ids below the greatest are told from the one that stands for none. -/
theorem idMask_and_of_lt {accId : BitVec 64} (h : accId.toNat < 2 ^ 44 - 1) :
    accId &&& ID_MASK = accId ∧ accId ≠ UNKNOWN_CSI_ACC_ID := by
  refine ⟨BitVec.eq_of_toNat_eq ?_, fun heq => ?_⟩
  · rw [toNat_idMask_and]
    omega
  · rw [heq] at h
    exact absurd h (by decide)

section

variable (verFunc accId : BitVec 64) (type : MAType)

theorem getAccID_makeTypedID (h : accId.toNat < 2 ^ 44 - 1) :
    (PackedAccess.mk verFunc (makeTypedID accId type)).getAccID = accId := by
  obtain ⟨hid, hne⟩ := idMask_and_of_lt h
  rw [getAccID, makeTypedID_and_idMask, hid, if_neg hne]

theorem getAccType_makeTypedID (h : accId.toNat < 2 ^ 44 - 1) (ht : type ≠ .unknown) :
    (PackedAccess.mk verFunc (makeTypedID accId type)).getAccType = type.bits := by
  obtain ⟨hid, hne⟩ := idMask_and_of_lt h
  have hval := MAType.val_lt ht
  rw [getAccType, makeTypedID_and_idMask, hid, if_neg hne]
  refine BitVec.eq_of_toNat_eq ?_
  rw [toNat_typeMask_and, toNat_makeTypedID, MAType.toNat_bits]
  omega

theorem get_makeTypedID_unknown :
    (PackedAccess.mk verFunc (makeTypedID UNKNOWN_CSI_ID type)).getAccID = UNKNOWN_CSI_ID ∧
      (PackedAccess.mk verFunc (makeTypedID UNKNOWN_CSI_ID type)).getAccType =
      MAType.unknown.bits := by
  have h : UNKNOWN_CSI_ID &&& ID_MASK = UNKNOWN_CSI_ACC_ID := rfl
  rw [getAccID, getAccType, makeTypedID_and_idMask, h, if_pos rfl, if_pos rfl]
  exact ⟨rfl, rfl⟩

end

/-! ## `set` -/

variable {func : BitVec 64}

theorem set_eq (m : PackedAccess) (func : BitVec 64) (version : BitVec 16) (accId : BitVec 64)
    (type : MAType) : m.set func version accId type =
      ⟨if m.getFunc = func then m.verFunc else makeVerFunc func version,
        makeTypedID accId type⟩ := by
  by_cases heq : m.getFunc = func <;> simp [set, heq]

theorem getFunc_set (hf : func.toNat < 2 ^ 48) (m : PackedAccess) (version : BitVec 16)
    (accId : BitVec 64) (type : MAType) : (m.set func version accId type).getFunc = func := by
  rw [set_eq]
  split
  · next heq => exact heq
  · exact getFunc_makeVerFunc hf version _

/-- The version stored before stays with its node. -/
theorem getVersion_set (hf : func.toNat < 2 ^ 48) (m : PackedAccess) (version : BitVec 16)
    (accId : BitVec 64) (type : MAType) :
    (m.set func version accId type).getVersion = if m.getFunc = func then m.getVersion
    else version := by
  rw [set_eq]
  split
  · rfl
  · exact getVersion_makeVerFunc hf version _

/-- The words of a record, as the fields of the model in which they are
numbers. -/
def unpack (m : PackedAccess) : MemoryAccess :=
  ⟨m.getFunc.toNat, m.getVersion.toNat, m.verAccId.toNat⟩

theorem unpack_setTyped (hf : func.toNat < 2 ^ 48) (m : PackedAccess) (version : BitVec 16)
    (typedId : BitVec 64) :
    (m.setTyped func version typedId).unpack =
    MemoryAccess.set func.toNat version.toNat typedId.toNat (some m.unpack) := by
  rw [setTyped, MemoryAccess.set]
  by_cases heq : m.getFunc = func
  · rw [if_neg (not_not.2 heq), if_neg (by simp [unpack, heq])]
    simp [unpack, getFunc, getVersion]
  · rw [if_pos heq,
      if_pos (show m.unpack.func ≠ func.toNat from fun h => heq (BitVec.eq_of_toNat_eq h))]
    simp only [unpack, getFunc_makeVerFunc hf, getVersion_makeVerFunc hf]

theorem unpack_set (hf : func.toNat < 2 ^ 48) (m : PackedAccess) (version : BitVec 16)
    (accId : BitVec 64) (type : MAType) :
    (m.set func version accId type).unpack =
      MemoryAccess.set func.toNat version.toNat (MemoryAccess.makeTypedID accId.toNat type)
      (some m.unpack) := by
  rw [← toNat_makeTypedID_eq]
  exact unpack_setTyped hf m version (makeTypedID accId type)

theorem assign_eq (m copy : PackedAccess) : m.assign copy = copy := by
  by_cases h : m.verFunc = copy.verFunc <;> simp [assign, h]

/-! ## Runs -/

/-- The accessors return what was set. -/
structure RoundTrips (m : PackedAccess) (func : BitVec 64) (version : BitVec 16) (accId : BitVec 64)
    (type : MAType) : Prop where
  getFunc : m.getFunc = func
  getVersion : m.getVersion = version
  getAccID : m.getAccID = accId
  getAccType : m.getAccType = type.bits

/-- Operations on the records, which are numbered. -/
inductive RecordOp
  | set (i : Nat) (func : BitVec 64) (version : BitVec 16) (accId : BitVec 64) (type : MAType)
  | setTyped (i : Nat) (func : BitVec 64) (version : BitVec 16) (typedId : BitVec 64)
  | copy (i copied : Nat)
  | assign (i copied : Nat)
  deriving DecidableEq, Repr

def RecordOp.apply (recs : Nat → PackedAccess) : RecordOp → Nat → PackedAccess
  | set i func version accId type => Function.update recs i ((recs i).set func version accId type)
  | setTyped i func version typedId =>
    Function.update recs i ((recs i).setTyped func version typedId)
  | copy i copied => Function.update recs i (recs copied)
  | assign i copied => Function.update recs i ((recs i).assign (recs copied))

def runRecords (recs : Nat → PackedAccess) (ops : List RecordOp) : Nat → PackedAccess :=
  ops.foldl RecordOp.apply recs

/-- On records whose fields are numbers. -/
def RecordOp.applyUnpacked (recs : Nat → MemoryAccess) : RecordOp → Nat → MemoryAccess
  | set i func version accId type => Function.update recs i
    (MemoryAccess.set func.toNat version.toNat (MemoryAccess.makeTypedID accId.toNat type)
      (some (recs i)))
  | setTyped i func version typedId => Function.update recs i
    (MemoryAccess.set func.toNat version.toNat typedId.toNat (some (recs i)))
  | copy i copied | assign i copied => Function.update recs i (recs copied)

/-- The node's address leaves room for the version. -/
def RecordOp.Fits : RecordOp → Prop
  | set _ func _ _ _ | setTyped _ func _ _ => func.toNat < 2 ^ 48
  | copy _ _ | assign _ _ => True

theorem RecordOp.unpack_apply (recs : Nat → PackedAccess) (op : RecordOp) (h : op.Fits) :
    (fun j => (op.apply recs j).unpack) = op.applyUnpacked fun j => (recs j).unpack := by
  have hupdate : ∀ (i : Nat) (m : PackedAccess), (fun j => (Function.update recs i m j).unpack) =
      Function.update (fun j => (recs j).unpack) i m.unpack := fun i m => by
    funext j
    by_cases hj : j = i
    · rw [hj, Function.update_self, Function.update_self]
    · rw [Function.update_of_ne hj, Function.update_of_ne hj]
  cases op with
  | set i func version accId type => exact (hupdate i _).trans (by rw [unpack_set h]; rfl)
  | setTyped i func version typedId => exact (hupdate i _).trans (by rw [unpack_setTyped h]; rfl)
  | copy i copied => exact hupdate i _
  | assign i copied => exact (hupdate i _).trans (by rw [assign_eq]; rfl)

/-- **The packed records refine those with fields**, along every run. -/
theorem unpack_runRecords (recs : Nat → PackedAccess) (ops : List RecordOp)
    (h : ∀ op ∈ ops, op.Fits) :
    (fun j => (runRecords recs ops j).unpack) = ops.foldl RecordOp.applyUnpacked fun j =>
    (recs j).unpack := by
  induction ops generalizing recs with
  | nil => rfl
  | cons op ops ih =>
    rw [List.foldl_cons, ← op.unpack_apply recs (h op (.head _))]
    exact ih (op.apply recs) fun op' hop => h op' (.tail _ hop)

theorem roundTrips_iff (hf : func.toNat < 2 ^ 48) (m : PackedAccess) (version : BitVec 16)
    {accId : BitVec 64} (hid : accId.toNat < 2 ^ 44 - 1) {type : MAType} (ht : type ≠ .unknown) :
    (m.set func version accId type).RoundTrips func version accId type ↔
    m.getFunc ≠ func ∨ m.getVersion = version := by
  have hversion := getVersion_set hf m version accId type
  constructor
  · intro h
    rw [h.getVersion] at hversion
    by_cases heq : m.getFunc = func
    · rw [if_pos heq] at hversion
      exact .inr hversion.symm
    · exact .inl heq
  · intro h
    refine ⟨getFunc_set hf m version accId type, ?_, ?_, ?_⟩
    · rw [hversion]
      split
      · next heq => exact h.resolve_left fun hne => hne heq
      · rfl
    · rw [set_eq]
      exact getAccID_makeTypedID _ accId type hid
    · rw [set_eq]
      exact getAccType_makeTypedID _ accId type hid ht

/-- **Round trips.** Whatever the records held and whatever was done to them,
`set` stores what the accessors then return just when the record was of
another node or had the version already. No id is told as none. -/
theorem set_roundTrips_iff (recs : Nat → PackedAccess) (ops : List RecordOp) (i : Nat)
    (hf : func.toNat < 2 ^ 48) (version : BitVec 16) (accId : BitVec 64) (type : MAType) :
    (accId.toNat < 2 ^ 44 - 1 → type ≠ .unknown →
      ((runRecords recs (ops ++ [.set i func version accId type]) i).RoundTrips func
        version accId type ↔
        (runRecords recs ops i).getFunc ≠ func ∨ (runRecords recs ops i).getVersion = version)) ∧
    (accId = UNKNOWN_CSI_ID →
      (runRecords recs (ops ++ [.set i func version accId type]) i).getAccID = UNKNOWN_CSI_ID ∧
        (runRecords recs (ops ++ [.set i func version accId type]) i).getAccType =
        MAType.unknown.bits) := by
  have hlast : runRecords recs (ops ++ [.set i func version accId type]) i =
      (runRecords recs ops i).set func version accId type := by
    rw [runRecords, List.foldl_append]
    exact Function.update_self ..
  rw [hlast]
  refine ⟨fun hid ht => roundTrips_iff hf _ version hid ht, fun hid => ?_⟩
  rw [hid, set_eq]
  exact get_makeTypedID_unknown _ type

/-- The record is one that a copy of another was assigned to. -/
theorem set_roundTrips_iff_assigned :
    (runRecords (fun _ => {}) ([.set 0 0x7f00#64 3#16 9#64 .rw, .copy 1 0, .assign 2 1] ++
      [.set 2 0x7e00#64 4#16 10#64 .free]) 2).RoundTrips 0x7e00#64 4#16 10#64 .free :=
  ((set_roundTrips_iff (fun _ => {}) [.set 0 0x7f00#64 3#16 9#64 .rw, .copy 1 0, .assign 2 1] 2
    (show (0x7e00#64).toNat < 2 ^ 48 by decide) 4#16 10#64 .free).1 (by decide)
    (by decide)).2 (by decide)

/-- The version of the second `set` is not stored. -/
theorem not_roundTrips_set :
    ¬ (runRecords (fun _ => {}) [.set 0 0x7f00#64 3#16 9#64 .rw,
      .set 0 0x7f00#64 4#16 9#64 .rw] 0).RoundTrips 0x7f00#64 4#16 9#64 .rw :=
  fun h => absurd h.getVersion (by decide)

end PackedAccess

end Cilksan
