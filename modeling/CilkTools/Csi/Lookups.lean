/-
Lookups of source locations by any 64-bit ID. An ID that is negative, as that
of what is unknown, passes the guards of all lookups of both runtimes.
-/
import CilkTools.Csi.Csirt
import CilkTools.Csi.Csanrt

namespace Csi

variable {α β : Type u}

/-- There is an entry exactly for the IDs below `n`, and no lookup goes outside. -/
def Lookup.Exact (r : Lookup α) (csiId : BitVec 64) (n : Nat) : Prop :=
  ((∃ x, r = .entry x) ↔ 0 ≤ csiId.toInt ∧ csiId.toInt < n) ∧ r ≠ .outside

/-- The first IDs that the index loses as it grows for `n` entries: those it had
tables for when it last did. -/
def lostEntries (n : Nat) : Nat := if n ≤ 2 ^ 24 then 0 else 2 ^ Nat.log2 (n - 1)

theorem lostEntries_le (n : Nat) : lostEntries n ≤ n := by
  unfold lostEntries
  split
  · exact Nat.zero_le n
  · next h =>
    have := Nat.log2_self_le (n := n - 1) (by omega)
    omega

theorem Lookup.not_exact_outside {csiId : BitVec 64} {n : Nat} :
    ¬ (Lookup.outside : Lookup α).Exact csiId n := fun h =>
  h.2 rfl

theorem Lookup.exact_null {csiId : BitVec 64} {n : Nat} (h : n ≤ csiId.toInt) :
    (Lookup.null : Lookup α).Exact csiId n :=
  ⟨iff_of_false nofun (by omega), nofun⟩

theorem Lookup.exact_entry {csiId : BitVec 64} {n : Nat} (h₁ : 0 ≤ csiId.toInt)
    (h₂ : csiId.toInt < n) (x : α) : (Lookup.entry x).Exact csiId n :=
  ⟨iff_of_true ⟨x, rfl⟩ ⟨h₁, h₂⟩, nofun⟩

/-- Signed and not signed. -/
theorem toInt_cases (csiId : BitVec 64) :
    (0 ≤ csiId.toInt ∧ csiId.toInt = csiId.toNat) ∨ (csiId.toInt < 0 ∧ 2 ^ 63 ≤ csiId.toNat) := by
  have hlt := csiId.isLt
  rw [BitVec.toInt_eq_toNat_cond]
  split <;> omega

/-- A table that is one array. -/
theorem EntryArray.Holds.exact_iff {es : List α} {table : EntryArray α}
    (h : EntryArray.Holds es table) (csiId : BitVec 64) :
    (table.getEntry csiId).Exact csiId es.length ↔ 0 ≤ csiId.toInt := by
  rw [h.getEntry_eq]
  rcases toInt_cases csiId with ⟨hpos, hid⟩ | ⟨hneg, -⟩
  · refine iff_of_true ?_ hpos
    split
    · next hlt =>
      rw [dif_pos ⟨hpos, by omega⟩]
      exact Lookup.exact_entry hpos hlt _
    · next hlt => exact Lookup.exact_null (by omega)
  · rw [if_pos (by omega), dif_neg (by omega)]
    exact iff_of_false Lookup.not_exact_outside (by omega)

/-- Tables reached through an index. -/
theorem FedTables.Filled.exact_iff {lost : Nat → Nat} {es : List α} {s : FedTables α}
    (h : Filled lost es s)
    (hfits : es.length ≤ 2 ^ 63) (hlost : lost s.index.capacity * 2 ^ 16 ≤ es.length)
    (csiId : BitVec 64) :
    (s.getFedEntry csiId).Exact csiId es.length ↔
    0 ≤ csiId.toInt ∧ lost s.index.capacity * 2 ^ 16 ≤ csiId.toNat := by
  rw [h.getFedEntry_eq]
  rcases toInt_cases csiId with ⟨hpos, hid⟩ | ⟨hneg, hid⟩
  · by_cases hlt : csiId.toNat < es.length
    · rw [if_pos (.inr hlt)]
      by_cases hkept : lost s.index.capacity * 2 ^ 16 ≤ csiId.toNat
      · rw [dif_pos ⟨hkept, hlt⟩]
        exact iff_of_true (Lookup.exact_entry hpos (by omega) _) ⟨hpos, hkept⟩
      · rw [dif_neg fun hc => hkept hc.1]
        exact iff_of_false Lookup.not_exact_outside fun hc => hkept hc.2
    · rw [if_neg (by omega)]
      exact iff_of_true (Lookup.exact_null (by omega)) ⟨hpos, by omega⟩
  · rw [if_pos (.inl hneg), dif_neg (by omega)]
    exact iff_of_false Lookup.not_exact_outside (by omega)

theorem log2_pred {n c m : Nat} (hc : 2 ^ m = c) (hlt : c < n) (hle : n ≤ c * 2) :
    Nat.log2 (n - 1) = m := by
  have hpos : 0 < c := hc ▸ Nat.two_pow_pos m
  rw [Nat.log2_eq_iff (by omega), Nat.pow_succ, hc]
  omega

/-- What the CSI runtime's index has lost. -/
theorem lost_capacity {es : List α} {s : FedTables α} (h : FedTables.Filled Csirt.lost es s) :
    Csirt.lost s.index.capacity * 2 ^ 16 = lostEntries es.length := by
  have hcap := h.capacity_eq_iff
  have hle := h.holds.le_capacity
  have hupper := h.holds.upper
  have hneeded := h.needed
  unfold lostEntries
  rcases h.grown with h8 | ⟨k, hk, hlt⟩
  · have hnone : Csirt.lost s.index.capacity = 0 := if_pos (Nat.le_of_eq h8)
    rw [if_pos (hcap.1 h8), hnone, Nat.zero_mul]
  · have hpos : 2 ^ 8 ≤ 2 ^ (8 + k) := Nat.pow_le_pow_right (by decide) (Nat.le_add_right 8 k)
    have hdouble : 2 ^ (9 + k) = 2 ^ (8 + k) * 2 := by
      rw [show 9 + k = (8 + k) + 1 by omega, Nat.pow_succ]
    have hpow : 2 ^ (24 + k) = 2 ^ (8 + k) * 2 ^ 16 := by
      rw [← Nat.pow_add]
      congr 1
      omega
    rw [hdouble] at hk
    generalize 2 ^ (8 + k) = c at hk hlt hpos hpow
    have hlost : Csirt.lost s.index.capacity = c := by
      rw [Csirt.lost, if_neg (by omega), hk, Nat.mul_div_cancel _ (by decide)]
    rw [if_neg (mt hcap.2 (by omega)), hlost, log2_pred hpow (by omega) (by omega), hpow]

namespace Csirt

variable {units : List (CsirtUnit α β)}

theorem getFedEntry_exact_iff (t : FedType) (hfits : (entries units t).length ≤ 2 ^ 63)
    (csiId : BitVec 64) :
    (getFedEntry (initUnits units).1 t csiId).Exact csiId (entries units t).length ↔
      units ≠ [] ∧ 0 ≤ csiId.toInt ∧ lostEntries (entries units t).length ≤ csiId.toNat := by
  by_cases hne : units = []
  · subst hne
    exact iff_of_false Lookup.not_exact_outside fun h => h.1 rfl
  · obtain ⟨s, hs, heq⟩ := getFedEntry_initUnits hne t csiId
    have hlost := lost_capacity hs
    rw [heq, hs.exact_iff hfits (hlost ▸ lostEntries_le _), hlost]
    simp [hne]

theorem getSizeinfoEntry_exact_iff (t : SizeinfoType) (csiId : BitVec 64) :
    (getSizeinfoEntry (initUnits units).1 t csiId).Exact csiId (sizeinfoEntries units t).length ↔
      units ≠ [] ∧ 0 ≤ csiId.toInt := by
  obtain ⟨h, hnone, -⟩ := initUnits_spec units
  cases hs : (initUnits units).1 with
  | none => exact iff_of_false Lookup.not_exact_outside fun h => h.1 (hnone.1 hs)
  | some s =>
    have hne : units ≠ [] := fun hnil => by
      rw [hnone.2 hnil] at hs
      cases hs
    rw [hs] at h
    refine ((h.sizeinfo t).exact_iff csiId).trans ?_
    simp [hne]

end Csirt

namespace Csanrt

variable {units : List (CsanrtUnit α β)} {s : Option (Csanrt α β)} {bases : List (FedType → Nat)}

theorem getFedEntry_exact_iff (hs : initUnits units = some (s, bases)) (t : FedType)
    (hfits : (entries units t).length ≤ 2 ^ 63) (csiId : BitVec 64) :
    (getFedEntry s t csiId).Exact csiId (entries units t).length ↔
    units ≠ [] ∧ 0 ≤ csiId.toInt := by
  obtain ⟨h, hnone⟩ := holds_of_initUnits hs
  cases s with
  | none => exact iff_of_false Lookup.not_exact_outside fun h => h.1 (hnone.1 rfl)
  | some s =>
    have hne : units ≠ [] := fun hnil => nomatch hnone.2 hnil
    refine ((h.fed t).exact_iff hfits (Nat.le_trans (Nat.le_of_eq (Nat.zero_mul _)) (Nat.zero_le _))
      csiId).trans ?_
    simp [hne]

theorem getObjEntry_exact_iff (hs : initUnits units = some (s, bases)) (t : ObjType)
    (csiId : BitVec 64) :
    (getObjEntry s t csiId).Exact csiId (objEntries units t).length ↔
    units ≠ [] ∧ 0 ≤ csiId.toInt := by
  obtain ⟨h, hnone⟩ := holds_of_initUnits hs
  cases s with
  | none => exact iff_of_false Lookup.not_exact_outside fun h => h.1 (hnone.1 rfl)
  | some s =>
    have hne : units ≠ [] := fun hnil => nomatch hnone.2 hnil
    refine ((h.obj t).exact_iff csiId).trans ?_
    simp [hne]

end Csanrt

/-- **Lookups stay in bounds** exactly after the first unit, for IDs that are
not negative, and that the CSI runtime's index has not lost. -/
theorem lookups_exact_iff (csiUnits : List (CsirtUnit α β)) (csanUnits : List (CsanrtUnit α β))
    (s : Option (Csanrt α β))
    (bases : List (FedType → Nat)) (hs : Csanrt.initUnits csanUnits = some (s, bases))
    (hcsi : ∀ t, (Csirt.entries csiUnits t).length ≤ 2 ^ 63)
    (hcsan : ∀ t, (Csanrt.entries csanUnits t).length ≤ 2 ^ 63) (csiId : BitVec 64) :
    (∀ t, (Csirt.getFedEntry (Csirt.initUnits csiUnits).1 t csiId).Exact csiId
      (Csirt.entries csiUnits t).length ↔
      csiUnits ≠ [] ∧ 0 ≤ csiId.toInt ∧
      lostEntries (Csirt.entries csiUnits t).length ≤ csiId.toNat) ∧
    (∀ t, (Csirt.getSizeinfoEntry (Csirt.initUnits csiUnits).1 t csiId).Exact csiId
      (Csirt.sizeinfoEntries csiUnits t).length ↔ csiUnits ≠ [] ∧ 0 ≤ csiId.toInt) ∧
    (∀ t, (Csanrt.getFedEntry s t csiId).Exact csiId (Csanrt.entries csanUnits t).length ↔
      csanUnits ≠ [] ∧ 0 ≤ csiId.toInt) ∧
    (∀ t, (Csanrt.getObjEntry s t csiId).Exact csiId (Csanrt.objEntries csanUnits t).length ↔
      csanUnits ≠ [] ∧ 0 ≤ csiId.toInt) :=
  ⟨fun t => Csirt.getFedEntry_exact_iff t (hcsi t) csiId,
    fun t => Csirt.getSizeinfoEntry_exact_iff t csiId,
    fun t => Csanrt.getFedEntry_exact_iff hs t (hcsan t) csiId,
    fun t => Csanrt.getObjEntry_exact_iff hs t csiId⟩

def UNKNOWN_CSI_ID : BitVec 64 := -1

/-- A unit with one entry of each type. -/
def singleCsirtUnit : CsirtUnit Nat Nat := ⟨fun _ => [0], fun _ => [0]⟩

def singleCsanrtUnit : CsanrtUnit Nat Nat := ⟨fun _ => [0], fun _ => [0]⟩

/-- No lookup is right about the unknown ID. -/
theorem not_lookups_exact :
    (∀ t, ¬ (Csirt.getFedEntry (Csirt.initUnits [singleCsirtUnit]).1 t UNKNOWN_CSI_ID).Exact
      UNKNOWN_CSI_ID (Csirt.entries [singleCsirtUnit] t).length) ∧
    (∀ t, ¬ (Csirt.getSizeinfoEntry (Csirt.initUnits [singleCsirtUnit]).1 t UNKNOWN_CSI_ID).Exact
      UNKNOWN_CSI_ID (Csirt.sizeinfoEntries [singleCsirtUnit] t).length) ∧
    ∃ s bases, Csanrt.initUnits [singleCsanrtUnit] = some (s, bases) ∧
      (∀ t, ¬ (Csanrt.getFedEntry s t UNKNOWN_CSI_ID).Exact UNKNOWN_CSI_ID
        (Csanrt.entries [singleCsanrtUnit] t).length) ∧
      ∀ t, ¬ (Csanrt.getObjEntry s t UNKNOWN_CSI_ID).Exact UNKNOWN_CSI_ID
      (Csanrt.objEntries [singleCsanrtUnit] t).length := by
  have hneg : ¬ 0 ≤ UNKNOWN_CSI_ID.toInt := by decide
  obtain ⟨s, bases, hs⟩ := Csanrt.exists_initUnits [singleCsanrtUnit] fun t => by cases t <;> decide
  exact ⟨fun t h => hneg
    ((Csirt.getFedEntry_exact_iff t (by simp [Csirt.entries, singleCsirtUnit]) _).1 h).2.1,
    fun t h => hneg ((Csirt.getSizeinfoEntry_exact_iff t _).1 h).2, s, bases, hs,
    fun t h => hneg
    ((Csanrt.getFedEntry_exact_iff hs t (by simp [Csanrt.entries, singleCsanrtUnit]) _).1 h).2,
    fun t h => hneg ((Csanrt.getObjEntry_exact_iff hs t _).1 h).2⟩

def twoCsirtUnits : List (CsirtUnit Nat Nat) :=
  [⟨fun _ => [1, 2], fun _ => [3]⟩, ⟨fun _ => [4, 5, 6], fun _ => [7, 8]⟩]

/-- The second load of the second unit, and the second object of its. -/
theorem lookups_exact_iff_twoUnits : ∃ s bases, Csanrt.initUnits Csanrt.twoUnits = some (s, bases) ∧
    ((Csirt.getFedEntry (Csirt.initUnits twoCsirtUnits).1 .load 3).Exact 3
      (Csirt.entries twoCsirtUnits .load).length ↔ twoCsirtUnits ≠ [] ∧ 0 ≤ (3 : BitVec 64).toInt ∧
        lostEntries (Csirt.entries twoCsirtUnits .load).length ≤ (3 : BitVec 64).toNat) ∧
    ((Csanrt.getFedEntry s .load 3).Exact 3 (Csanrt.entries Csanrt.twoUnits .load).length ↔
      Csanrt.twoUnits ≠ [] ∧ 0 ≤ (3 : BitVec 64).toInt) ∧
    ((Csanrt.getObjEntry s .load 2).Exact 2 (Csanrt.objEntries Csanrt.twoUnits .load).length ↔
      Csanrt.twoUnits ≠ [] ∧ 0 ≤ (2 : BitVec 64).toInt) := by
  obtain ⟨s, bases, hs⟩ := Csanrt.exists_initUnits Csanrt.twoUnits fun t => by cases t <;> decide
  have h :=
    lookups_exact_iff twoCsirtUnits Csanrt.twoUnits s bases hs (fun t => by cases t <;> decide)
      fun t => by cases t <;> decide
  exact ⟨s, bases, hs, (h 3).1 .load, (h 3).2.2.1 .load, (h 2).2.2.2 .load⟩

end Csi
