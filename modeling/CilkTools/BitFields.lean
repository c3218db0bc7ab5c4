/-
Fields of a machine word: the bits under a mask, read, cleared and replaced with
`&`, `|`, `~` and shifts, as numbers.
-/
import Mathlib.Data.Nat.Basic
import Mathlib.Algebra.Order.Ring.Nat

namespace BitFields

variable {w : Nat}

/-- The mask of the low `n` bits. -/
def ones (w n : Nat) : BitVec w := (1#w <<< n) - 1#w

theorem toNat_ones {n : Nat} (h : n < w) : (ones w n).toNat = 2 ^ n - 1 := by
  have hlt : 2 ^ n < 2 ^ w := Nat.pow_lt_pow_right (by decide) h
  have hone : (1#w).toNat = 1 := by
    rw [BitVec.toNat_ofNat]
    exact Nat.mod_eq_of_lt (Nat.one_lt_two_pow (by omega))
  have hshift : (1#w <<< n).toNat = 2 ^ n := by
    rw [BitVec.toNat_shiftLeft, hone, Nat.one_shiftLeft, Nat.mod_eq_of_lt hlt]
  have hle : 1#w ≤ 1#w <<< n := by
    rw [BitVec.le_def, hone, hshift]
    exact Nat.one_le_two_pow
  rw [ones, BitVec.toNat_sub_of_le hle, hone, hshift]

theorem toNat_and_ones {n : Nat} (h : n < w) (x : BitVec w) :
    (x &&& ones w n).toNat = x.toNat % 2 ^ n := by
  rw [BitVec.toNat_and, toNat_ones h, Nat.and_two_pow_sub_one_eq_mod]

/-- The field of `n` bits from bit `k` on. -/
theorem toNat_field {n : Nat} (h : n < w) (k : Nat) (x : BitVec w) :
    ((x >>> k) &&& ones w n).toNat = x.toNat / 2 ^ k % 2 ^ n := by
  rw [toNat_and_ones h, BitVec.toNat_ushiftRight, Nat.shiftRight_eq_div_pow]

/-- The field where it stands in the word. -/
theorem toNat_and_mask {n k : Nat} (h : n < w) (hk : n + k ≤ w) (x : BitVec w) :
    (x &&& (ones w n <<< k)).toNat = x.toNat / 2 ^ k % 2 ^ n * 2 ^ k := by
  have hshift : x &&& (ones w n <<< k) = ((x >>> k) &&& ones w n) <<< k := by
    ext i hi
    simp only [BitVec.getElem_and, BitVec.getElem_shiftLeft, BitVec.getElem_ushiftRight]
    by_cases hik : i < k
    · simp [hik]
    · rw [Nat.add_sub_cancel' (Nat.not_lt.1 hik)]
      simp [hik, BitVec.getLsbD_eq_getElem hi]
  have hlt : x.toNat / 2 ^ k % 2 ^ n * 2 ^ k < 2 ^ w := by
    refine Nat.lt_of_lt_of_le
      (Nat.mul_lt_mul_of_pos_right (Nat.mod_lt _ (Nat.two_pow_pos n)) (Nat.two_pow_pos k)) ?_
    rw [← Nat.pow_add]
    exact Nat.pow_le_pow_right (by decide) hk
  rw [hshift, BitVec.toNat_shiftLeft, toNat_field h, Nat.shiftLeft_eq, Nat.mod_eq_of_lt hlt]

theorem toNat_or {x y : BitVec w} (h : x &&& y = 0#w) : (x ||| y).toNat = x.toNat + y.toNat := by
  rw [← BitVec.add_eq_or_of_and_eq_zero x y h, BitVec.toNat_add_of_and_eq_zero h]

/-- A field put above the low `n` bits. -/
theorem toNat_or_shiftLeft {n : Nat} {x y : BitVec w} (hx : x.toNat < 2 ^ n)
    (hy : y.toNat * 2 ^ n < 2 ^ w) : (x ||| (y <<< n)).toNat = y.toNat * 2 ^ n + x.toNat := by
  rw [BitVec.toNat_or, BitVec.toNat_shiftLeft, Nat.shiftLeft_eq, Nat.mod_eq_of_lt hy,
    ← Nat.shiftLeft_eq, Nat.or_comm, Nat.shiftLeft_add_eq_or_of_lt hx]

/-- What a mask keeps and what it clears make up the word. -/
theorem toNat_and_add_and_not (x m : BitVec w) :
    (x &&& m).toNat + (x &&& ~~~m).toNat = x.toNat := by
  have hand : (x &&& m) &&& (x &&& ~~~m) = 0#w := by
    ext i hi
    cases h : m[i] <;> simp [h]
  have hor : (x &&& m) ||| (x &&& ~~~m) = x := by
    ext i hi
    cases h : m[i] <;> simp [h]
  rw [← toNat_or hand, hor]

/-- A field is replaced by bits that lie under its mask. -/
theorem toNat_replace {x y m : BitVec w} (hy : y &&& m = y) :
    ((x &&& ~~~m) ||| y).toNat + (x &&& m).toNat = x.toNat + y.toNat := by
  have hand : (x &&& ~~~m) &&& y = 0#w := by
    rw [← hy]
    ext i hi
    cases h : m[i] <;> simp [h]
  have hsplit := toNat_and_add_and_not x m
  rw [toNat_or hand]
  omega

/-- A number lies under the mask of a field that holds it. -/
theorem and_mask_eq_self {n k v : Nat} (h : n < w) (hk : n + k ≤ w) {y : BitVec w}
    (hy : y.toNat = v * 2 ^ k) (hv : v < 2 ^ n) : y &&& (ones w n <<< k) = y := by
  refine BitVec.eq_of_toNat_eq ?_
  rw [toNat_and_mask h hk, hy, Nat.mul_div_cancel _ (Nat.two_pow_pos k), Nat.mod_eq_of_lt hv]

end BitFields
