/-
The word of a line (`AbstractLine_t`): the address of the array of entries in 48
bits, the number of valid ones in 12, and the grainsize in 4.

`Packs` gives the three fields of a word as numbers, with one lemma for each
operation: it changes its own field.
-/
import CilkTools.BitFields

namespace Cilksan

open BitFields (ones)

namespace DataPtr

def DataMask : BitVec 64 := ones 64 48
def NumNonNullElsRShift : Nat := 48
def LgNumNonNullEls : Nat := 12
def LgGrainsizeRShift : Nat := 48 + LgNumNonNullEls
def NumNonNullMask : BitVec 64 := ones 64 LgNumNonNullEls
def GrainsizeMask : BitVec 64 := ones 64 (16 - LgNumNonNullEls)

def getData (dataPtr : BitVec 64) : BitVec 64 := dataPtr &&& DataMask

def setData (dataPtr newData : BitVec 64) : BitVec 64 :=
  (dataPtr &&& ~~~DataMask) ||| (newData &&& DataMask)

def setLgGrainsize (dataPtr : BitVec 64) (newLgGrainsize : Nat) : BitVec 64 :=
  (dataPtr &&& ~~~(GrainsizeMask <<< LgGrainsizeRShift)) |||
    (BitVec.ofNat 64 newLgGrainsize <<< LgGrainsizeRShift)

def scaleNumNonNullEls (dataPtr : BitVec 64) (replFactor : Nat) : BitVec 64 :=
  (dataPtr &&& ~~~(NumNonNullMask <<< NumNonNullElsRShift)) |||
    ((dataPtr &&& (NumNonNullMask <<< NumNonNullElsRShift)) * BitVec.ofNat 64 replFactor)

def getLgGrainsize (dataPtr : BitVec 64) : Nat :=
  ((dataPtr >>> LgGrainsizeRShift) &&& GrainsizeMask).toNat

def getNumNonNullEls (dataPtr : BitVec 64) : Nat :=
  ((dataPtr >>> NumNonNullElsRShift) &&& NumNonNullMask).toNat

def noNonNullEls (dataPtr : BitVec 64) : Bool :=
  0#64 == (dataPtr &&& (NumNonNullMask <<< NumNonNullElsRShift))

def incNumNonNullEls (dataPtr : BitVec 64) : BitVec 64 := dataPtr + (1#64 <<< NumNonNullElsRShift)

def decNumNonNullEls (dataPtr : BitVec 64) : BitVec 64 := dataPtr - (1#64 <<< NumNonNullElsRShift)

def isMaterialized (dataPtr : BitVec 64) : Bool := getData dataPtr != 0#64

/-- The word made of three fields. -/
structure Packs (dataPtr : BitVec 64) (data numNonNullEls lgGrainsize : Nat) : Prop where
  dataLt : data < 2 ^ 48
  countLt : numNonNullEls < 2 ^ 12
  grainLt : lgGrainsize < 2 ^ 4
  eq : dataPtr.toNat = data + numNonNullEls * 2 ^ 48 + lgGrainsize * 2 ^ 60

variable {dataPtr : BitVec 64} {p n g : Nat}

theorem toNat_getData (dataPtr : BitVec 64) : (getData dataPtr).toNat = dataPtr.toNat % 2 ^ 48 :=
  BitFields.toNat_and_ones (by decide) dataPtr

theorem getNumNonNullEls_eq (dataPtr : BitVec 64) :
    getNumNonNullEls dataPtr = dataPtr.toNat / 2 ^ 48 % 2 ^ 12 :=
  BitFields.toNat_field (by decide) 48 dataPtr

theorem getLgGrainsize_eq (dataPtr : BitVec 64) :
    getLgGrainsize dataPtr = dataPtr.toNat / 2 ^ 60 % 2 ^ 4 :=
  BitFields.toNat_field (by decide) 60 dataPtr

theorem toNat_count (dataPtr : BitVec 64) :
    (dataPtr &&& (NumNonNullMask <<< NumNonNullElsRShift)).toNat =
    dataPtr.toNat / 2 ^ 48 % 2 ^ 12 * 2 ^ 48 :=
  BitFields.toNat_and_mask (by decide) (by decide) dataPtr

theorem toNat_grain (dataPtr : BitVec 64) :
    (dataPtr &&& (GrainsizeMask <<< LgGrainsizeRShift)).toNat =
    dataPtr.toNat / 2 ^ 60 % 2 ^ 4 * 2 ^ 60 :=
  BitFields.toNat_and_mask (by decide) (by decide) dataPtr

namespace Packs

theorem zero : Packs 0#64 0 0 0 := ⟨by decide, by decide, by decide, rfl⟩

theorem data_eq (h : Packs dataPtr p n g) : (getData dataPtr).toNat = p := by
  obtain ⟨_, _, _, heq⟩ := h
  rw [toNat_getData, heq]
  omega

theorem count_eq (h : Packs dataPtr p n g) : getNumNonNullEls dataPtr = n := by
  obtain ⟨_, _, _, heq⟩ := h
  rw [getNumNonNullEls_eq, heq]
  omega

theorem grain_eq (h : Packs dataPtr p n g) : getLgGrainsize dataPtr = g := by
  obtain ⟨_, _, _, heq⟩ := h
  rw [getLgGrainsize_eq, heq]
  omega

theorem noNonNullEls_iff (h : Packs dataPtr p n g) : noNonNullEls dataPtr = true ↔ n = 0 := by
  obtain ⟨_, _, _, heq⟩ := h
  have hcount := toNat_count dataPtr
  unfold noNonNullEls
  rw [beq_iff_eq, ← BitVec.toNat_inj, hcount, heq, BitVec.toNat_ofNat]
  omega

theorem withData (h : Packs dataPtr p n g) {newData : BitVec 64} (hlt : newData.toNat < 2 ^ 48) :
    Packs (setData dataPtr newData) newData.toNat n g := by
  obtain ⟨_, hn, hg, heq⟩ := h
  have hnew : newData &&& DataMask = newData := by
    refine BitVec.eq_of_toNat_eq ?_
    rw [show DataMask = ones 64 48 from rfl, BitFields.toNat_and_ones (by decide),
      Nat.mod_eq_of_lt hlt]
  have hreplace := BitFields.toNat_replace (x := dataPtr) hnew
  rw [show dataPtr &&& DataMask = getData dataPtr from rfl, toNat_getData] at hreplace
  refine ⟨hlt, hn, hg, ?_⟩
  unfold setData
  rw [hnew]
  omega

theorem withGrain (h : Packs dataPtr p n g) {g' : Nat} (hg' : g' < 2 ^ 4) :
    Packs (setLgGrainsize dataPtr g') p n g' := by
  obtain ⟨hp, hn, _, heq⟩ := h
  have hshift : (BitVec.ofNat 64 g' <<< LgGrainsizeRShift).toNat = g' * 2 ^ 60 := by
    rw [BitVec.toNat_shiftLeft, BitVec.toNat_ofNat, Nat.shiftLeft_eq,
      show LgGrainsizeRShift = 60 from rfl]
    omega
  have hreplace := BitFields.toNat_replace (x := dataPtr)
    (BitFields.and_mask_eq_self (n := 4) (k := 60) (by decide) (by decide) hshift hg')
  have hgrain := toNat_grain dataPtr
  refine ⟨hp, hn, hg', ?_⟩
  unfold setLgGrainsize
  change ((dataPtr &&& ~~~(GrainsizeMask <<< LgGrainsizeRShift)) ||| _).toNat +
    (dataPtr &&& (GrainsizeMask <<< LgGrainsizeRShift)).toNat = _ at hreplace
  omega

/-- A count that is scaled, as long as its field holds the product. -/
theorem scale (h : Packs dataPtr p n g) {r : Nat} (hr : n * r < 2 ^ 12) :
    Packs (scaleNumNonNullEls dataPtr r) p (n * r) g := by
  obtain ⟨hp, hn, hg, heq⟩ := h
  have hcount := toNat_count dataPtr
  have hfield : dataPtr.toNat / 2 ^ 48 % 2 ^ 12 = n := by omega
  rw [hfield] at hcount
  have hmul : ((dataPtr &&& (NumNonNullMask <<< NumNonNullElsRShift)) * BitVec.ofNat 64 r).toNat =
      n * r * 2 ^ 48 := by
    rw [BitVec.toNat_mul, hcount, BitVec.toNat_ofNat, Nat.mul_mod_mod, Nat.mul_right_comm]
    omega
  have hreplace := BitFields.toNat_replace (x := dataPtr)
    (BitFields.and_mask_eq_self (n := 12) (k := 48) (by decide) (by decide) hmul hr)
  refine ⟨hp, hr, hg, ?_⟩
  unfold scaleNumNonNullEls
  change ((dataPtr &&& ~~~(NumNonNullMask <<< NumNonNullElsRShift)) ||| _).toNat +
    (dataPtr &&& (NumNonNullMask <<< NumNonNullElsRShift)).toNat = _ at hreplace
  omega

theorem inc (h : Packs dataPtr p n g) (hn : n + 1 < 2 ^ 12) :
    Packs (incNumNonNullEls dataPtr) p (n + 1) g := by
  obtain ⟨hp, _, hg, heq⟩ := h
  have hone : (1#64 <<< NumNonNullElsRShift).toNat = 2 ^ 48 := rfl
  refine ⟨hp, hn, hg, ?_⟩
  unfold incNumNonNullEls
  rw [BitVec.toNat_add, hone, heq]
  omega

theorem dec (h : Packs dataPtr p n g) (hn : 0 < n) :
    Packs (decNumNonNullEls dataPtr) p (n - 1) g := by
  obtain ⟨hp, hlt, hg, heq⟩ := h
  have hone : (1#64 <<< NumNonNullElsRShift).toNat = 2 ^ 48 := rfl
  have hle : 1#64 <<< NumNonNullElsRShift ≤ dataPtr := by
    rw [BitVec.le_def, hone, heq]
    omega
  refine ⟨hp, by omega, hg, ?_⟩
  unfold decNumNonNullEls
  rw [BitVec.toNat_sub_of_le hle, hone, heq]
  omega

end Packs

end DataPtr

end Cilksan
