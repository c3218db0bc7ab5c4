/-
The map from addresses to data of `addrmap.h`: a table of pages, each with
one bit and one datum for every byte.
-/
import Mathlib.Logic.Function.Basic
import Mathlib.Algebra.Order.Ring.Nat

namespace Cilksan

/-- `Page_t`. -/
structure AddrPage (δ : Type u) where
  valid : Nat → BitVec 64
  bytes : Nat → δ

/-- `AddrMap_t`; the table has a slot for every page of the address space. -/
structure AddrMap (δ : Type u) where
  table : Nat → Option (AddrPage δ)

namespace AddrPage

variable {δ : Type u}

/-- A page as `mmap` hands it out. -/
def new [Inhabited δ] : AddrPage δ := ⟨fun _ => 0#64, fun _ => default⟩

def validWord (byteaddr : Nat) : Nat := byteaddr / 64
def validBit (byteaddr : Nat) : Nat := byteaddr % 64

def isValid (p : AddrPage δ) (byteaddr : Nat) : Bool :=
  p.valid (validWord byteaddr) &&& 1#64 <<< validBit byteaddr ≠ 0#64

def setValid (p : AddrPage δ) (byteaddr : Nat) : AddrPage δ :=
  let w := validWord byteaddr
  { p with valid := Function.update p.valid w (p.valid w ||| 1#64 <<< validBit byteaddr) }

def clearValid (p : AddrPage δ) (byteaddr : Nat) : AddrPage δ :=
  let w := validWord byteaddr
  { p with valid := Function.update p.valid w (p.valid w &&& ~~~(1#64 <<< validBit byteaddr)) }

def setByte (p : AddrPage δ) (byteaddr : Nat) (data : δ) : AddrPage δ :=
  { p with bytes := Function.update p.bytes byteaddr data }

theorem isValid_eq (p : AddrPage δ) (b : Nat) :
    p.isValid b = (p.valid (validWord b)).getLsbD (validBit b) := by
  have hlt : validBit b < 64 := Nat.mod_lt _ (by decide)
  have hbit : ∀ i, i < 64 → (p.valid (validWord b) &&& 1#64 <<< validBit b).getLsbD i =
      ((p.valid (validWord b)).getLsbD i && decide (i = validBit b)) := by
    intro i hi
    rcases Nat.lt_trichotomy i (validBit b) with h | h | h
    · simp [h, hi, Nat.ne_of_lt h]
    · subst h; simp [hi]
    · have : i - validBit b ≠ 0 := by omega
      simp [hi, Nat.not_lt.2 (Nat.le_of_lt h), Nat.ne_of_gt h, this]
  cases hv : (p.valid (validWord b)).getLsbD (validBit b) with
  | false =>
    have hz : p.valid (validWord b) &&& 1#64 <<< validBit b = 0#64 := by
      refine BitVec.eq_of_getLsbD_eq fun i hi => ?_
      rw [hbit i hi, BitVec.getLsbD_zero]
      by_cases h : i = validBit b
      · subst h; rw [hv]; rfl
      · simp [h]
    simp [isValid, hz]
  | true =>
    have hne : p.valid (validWord b) &&& 1#64 <<< validBit b ≠ 0#64 := by
      intro hz
      have := hbit (validBit b) hlt
      rw [hz, hv] at this
      simp at this
    simp [isValid, hne]

theorem validWord_inj {a b : Nat} (hw : validWord a = validWord b)
    (hb : validBit a = validBit b) : a = b := by
  simp only [validWord, validBit] at hw hb
  omega

theorem getLsbD_one_shiftLeft (i j : Nat) (hi : i < 64) :
    (1#64 <<< j).getLsbD i = decide (i = j) := by
  rcases Nat.lt_trichotomy i j with h | h | h
  · simp [h, Nat.ne_of_lt h]
  · subst h; simp [hi]
  · have : i - j ≠ 0 := by omega
    simp [hi, Nat.not_lt.2 (Nat.le_of_lt h), Nat.ne_of_gt h, this]

theorem isValid_setValid (p : AddrPage δ) (a b : Nat) :
    (p.setValid a).isValid b = (decide (b = a) || p.isValid b) := by
  have hlt : validBit b < 64 := Nat.mod_lt _ (by decide)
  simp only [isValid_eq, setValid]
  by_cases hw : validWord b = validWord a
  · rw [hw, Function.update_self, BitVec.getLsbD_or, getLsbD_one_shiftLeft _ _ hlt, Bool.or_comm]
    have : decide (validBit b = validBit a) = decide (b = a) :=
      decide_eq_decide.2 ⟨validWord_inj hw, fun h => by rw [h]⟩
    rw [this]
  · have hne : b ≠ a := fun h => hw (by rw [h])
    simp [hw, hne]

theorem isValid_clearValid (p : AddrPage δ) (a b : Nat) :
    (p.clearValid a).isValid b = (decide (b ≠ a) && p.isValid b) := by
  have hlt : validBit b < 64 := Nat.mod_lt _ (by decide)
  simp only [isValid_eq, clearValid]
  by_cases hw : validWord b = validWord a
  · rw [hw, Function.update_self, BitVec.getLsbD_and, BitVec.getLsbD_not,
      getLsbD_one_shiftLeft _ _ hlt]
    have : decide (validBit b = validBit a) = decide (b = a) :=
      decide_eq_decide.2 ⟨validWord_inj hw, fun h => by rw [h]⟩
    rw [this]
    by_cases h : b = a <;> simp [h, hlt, Bool.and_comm]
  · have hne : b ≠ a := fun h => hw (by rw [h])
    simp [hw, hne]

end AddrPage

namespace AddrMap

variable {δ : Type u}

def empty : AddrMap δ := ⟨fun _ => none⟩

def byte (addr : Nat) : Nat := addr % 2 ^ 24
def page (addr : Nat) : Nat := addr / 2 ^ 24

def getPage (m : AddrMap δ) (addr : Nat) : Option (AddrPage δ) := m.table (page addr)

def setPage (m : AddrMap δ) (addr : Nat) (p : AddrPage δ) : AddrMap δ :=
  ⟨Function.update m.table (page addr) (some p)⟩

def contains (m : AddrMap δ) (addr : Nat) : Bool :=
  match m.getPage addr with
  | some p => p.isValid (byte addr)
  | none => false

/-- The pointer `get` returns, given by the address whose datum it points to. -/
def get (m : AddrMap δ) (addr : Nat) : Option Nat :=
  match m.getPage addr with
  | some p => if p.isValid (byte addr) then some addr else none
  | none => none

/-- What a pointer into the map points to now. -/
def deref (m : AddrMap δ) (addr : Nat) : Option δ :=
  (m.getPage addr).map fun p => p.bytes (byte addr)

def insert [Inhabited δ] (m : AddrMap δ) (addr : Nat) (data : δ) : AddrMap δ :=
  m.setPage addr ((((m.getPage addr).getD .new).setByte (byte addr) data).setValid (byte addr))

def remove (m : AddrMap δ) (addr : Nat) : AddrMap δ :=
  match m.getPage addr with
  | some p => m.setPage addr (p.clearValid (byte addr))
  | none => m

/-- The datum of an address, if the map has one. -/
def lookup (m : AddrMap δ) (addr : Nat) : Option δ := (m.get addr).bind m.deref

theorem page_byte_inj {a b : Nat} (hp : page a = page b) (hb : byte a = byte b) : a = b := by
  simp only [page, byte] at hp hb
  omega

theorem get_eq (m : AddrMap δ) (addr : Nat) :
    m.get addr = if m.contains addr then some addr else none := by
  cases hg : m.getPage addr with
  | none => simp [get, contains, hg]
  | some p => simp [get, contains, hg]

theorem lookup_eq (m : AddrMap δ) (addr : Nat) :
    m.lookup addr = if m.contains addr then m.deref addr else none := by
  rw [lookup, get_eq]
  split <;> rfl

theorem isSome_lookup (m : AddrMap δ) (addr : Nat) : (m.lookup addr).isSome = m.contains addr := by
  rw [lookup_eq]
  split
  · next h =>
    rw [h]
    cases hg : m.getPage addr with
    | none => simp [contains, hg] at h
    | some p => simp [deref, hg]
  · next h => simpa using h

theorem lookup_empty (addr : Nat) : (empty : AddrMap δ).lookup addr = none := rfl

theorem getPage_setPage (m : AddrMap δ) (p : AddrPage δ) (a b : Nat) :
    (m.setPage a p).getPage b = if page b = page a then some p else m.getPage b := by
  simp only [setPage, getPage]
  by_cases h : page b = page a
  · simp [h]
  · simp [h]

theorem lookup_insert [Inhabited δ] (m : AddrMap δ) (a b : Nat) (data : δ) :
    (m.insert a data).lookup b = if b = a then some data else m.lookup b := by
  simp only [lookup_eq, contains, deref, insert, getPage_setPage]
  by_cases hp : page b = page a
  · have hpage : m.getPage b = m.getPage a := by simp only [getPage, hp]
    simp only [hp, if_true, AddrPage.isValid_setValid, hpage]
    by_cases hba : b = a
    · subst hba
      simp [AddrPage.setValid, AddrPage.setByte]
    · have hne : byte b ≠ byte a := fun h => hba (page_byte_inj hp h)
      cases hg : m.getPage a with
      | none => simp [hba, hne, AddrPage.new, AddrPage.isValid, AddrPage.setByte]
      | some p =>
        have hset : (p.setByte (byte a) data).isValid (byte b) = p.isValid (byte b) := rfl
        simp only [Option.getD_some, hset, hne, decide_false, Bool.false_or, hba, if_false,
          Option.map_some]
        simp [AddrPage.setValid, AddrPage.setByte, hne]
  · have hba : b ≠ a := fun h => hp (by rw [h])
    simp only [hp, hba, if_false]
    rfl

theorem lookup_remove (m : AddrMap δ) (a b : Nat) :
    (m.remove a).lookup b = if b = a then none else m.lookup b := by
  cases hg : m.getPage a with
  | none =>
    simp only [remove, hg]
    split
    · next h => subst h; simp [lookup_eq, contains, hg]
    · rfl
  | some p =>
    simp only [remove, hg, lookup_eq, contains, deref, getPage_setPage]
    by_cases hp : page b = page a
    · have hpage : m.getPage b = m.getPage a := by simp only [getPage, hp]
      simp only [hp, if_true, AddrPage.isValid_clearValid, hpage, hg]
      by_cases hba : b = a
      · subst hba; simp
      · have hne : byte b ≠ byte a := fun h => hba (page_byte_inj hp h)
        simp [hba, hne, AddrPage.clearValid]
    · have hba : b ≠ a := fun h => hp (by rw [h])
      simp only [hp, hba, if_false]
      rfl

/-- A pointer keeps its datum while other addresses are inserted. -/
theorem deref_insert [Inhabited δ] (m : AddrMap δ) {a b : Nat} (h : b ≠ a) (data : δ)
    (hb : m.contains b) : (m.insert a data).deref b = m.deref b := by
  have hl := lookup_insert m a b data
  rw [if_neg h, lookup_eq, lookup_eq, if_pos hb] at hl
  have hc : (m.insert a data).contains b := by
    rw [← isSome_lookup, lookup_insert, if_neg h, isSome_lookup, hb]
  rwa [if_pos hc] at hl

end AddrMap

end Cilksan
