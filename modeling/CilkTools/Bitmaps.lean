/-
Sets of numbers as the bits of machine words: number `i` is bit `i % w` of word
`i / w`. The lowest clear bit of a word is found and set by adding one.
-/
import CilkTools.BitFields

namespace Bitmaps

variable {w : Nat}

/-! ## Words -/

variable {x : BitVec w} {i k : Nat}

theorem add_one_ne_zero (hx : x ≠ -1#w) : x + 1#w ≠ 0#w := fun h => hx (by
  rw [← BitVec.add_sub_cancel x 1#w, h, BitVec.zero_sub])

/-- `x + 1`, bit by bit: it flips what is up to the lowest clear bit. -/
theorem getLsbD_add_one (hi : i < w) :
    (x + 1#w).getLsbD i = (!x.getLsbD i ^^ decide (∃ j < i, x.getLsbD j = false)) := by
  have hneg : x + 1#w = -(~~~x) := by rw [BitVec.neg_eq_not_add, BitVec.not_not]
  have hnot : (~~~x).getLsbD i = !x.getLsbD i := by simp [hi]
  rw [hneg, BitVec.getLsbD_neg, hnot, decide_eq_true hi, Bool.true_and]
  have hex : (∃ j < i, (~~~x).getLsbD j = true) ↔ ∃ j < i, x.getLsbD j = false := by
    refine exists_congr fun j => and_congr_right fun hj => ?_
    simp [Nat.lt_trans hj hi]
  rw [decide_eq_decide.2 hex]

/-- The number of the lowest clear bit. -/
def lowestClear (x : BitVec w) : Nat := (x + 1#w).ctz.toNat

theorem lowestClear_lt (hx : x ≠ -1#w) : lowestClear x < w := by
  have hlt := BitVec.ctz_lt_iff_ne_zero.2 (add_one_ne_zero hx)
  rw [BitVec.lt_def] at hlt
  refine Nat.lt_of_lt_of_le hlt ?_
  rw [BitVec.natCast_eq_ofNat, BitVec.toNat_ofNat]
  exact Nat.mod_le ..

/-- What is below the lowest clear bit is set. -/
theorem getLsbD_of_lt_lowestClear (hx : x ≠ -1#w) (hi : i < lowestClear x) :
    x.getLsbD i = true := by
  have hw := Nat.lt_trans hi (lowestClear_lt hx)
  induction i using Nat.strong_induction_on with
  | _ i ih =>
    have hzero : (x + 1#w).getLsbD i = false := BitVec.getLsbD_false_of_lt_ctz hi
    have hbelow : ¬ ∃ j < i, x.getLsbD j = false := fun h => by
      obtain ⟨j, hj, hjx⟩ := h
      rw [ih j hj (Nat.lt_trans hj hi) (Nat.lt_trans hj hw)] at hjx
      cases hjx
    rw [getLsbD_add_one hw, decide_eq_false hbelow] at hzero
    simpa using hzero

theorem getLsbD_lowestClear (hx : x ≠ -1#w) : x.getLsbD (lowestClear x) = false := by
  have hone : (x + 1#w).getLsbD (lowestClear x) = true :=
    BitVec.getLsbD_true_ctz_of_ne_zero (add_one_ne_zero hx)
  have hbelow : ¬ ∃ j < lowestClear x, x.getLsbD j = false := fun h => by
    obtain ⟨j, hj, hjx⟩ := h
    rw [getLsbD_of_lt_lowestClear hx hj] at hjx
    cases hjx
  rw [getLsbD_add_one (lowestClear_lt hx), decide_eq_false hbelow] at hone
  simpa using hone

/-- `x | (x + 1)` sets the lowest clear bit. -/
theorem getLsbD_or_add_one (hx : x ≠ -1#w) (hi : i < w) :
    (x ||| (x + 1#w)).getLsbD i = (x.getLsbD i || decide (i = lowestClear x)) := by
  rw [BitVec.getLsbD_or, getLsbD_add_one hi]
  rcases Nat.lt_trichotomy i (lowestClear x) with hlt | rfl | hgt
  · rw [getLsbD_of_lt_lowestClear hx hlt]
    rfl
  · have hbelow : ¬ ∃ j < lowestClear x, x.getLsbD j = false := fun h => by
      obtain ⟨j, hj, hjx⟩ := h
      rw [getLsbD_of_lt_lowestClear hx hj] at hjx
      cases hjx
    simp [getLsbD_lowestClear hx, hbelow]
  · have hbelow : ∃ j < i, x.getLsbD j = false := ⟨_, hgt, getLsbD_lowestClear hx⟩
    simp [hbelow, Nat.ne_of_gt hgt]

theorem getLsbD_and_not_one_shiftLeft (hi : i < w) :
    (x &&& ~~~(1#w <<< k)).getLsbD i = (x.getLsbD i && decide (i ≠ k)) := by
  rw [BitVec.getLsbD_and, BitVec.getLsbD_not, BitVec.getLsbD_shiftLeft, BitVec.getLsbD_one]
  rcases Nat.lt_trichotomy i k with hlt | rfl | hgt
  · simp [hi, hlt, Nat.ne_of_lt hlt]
  · simp [hi, Nat.zero_lt_of_lt hi]
  · simp [hi, Nat.not_lt.2 (Nat.le_of_lt hgt), Nat.ne_of_gt hgt, Nat.sub_ne_zero_of_lt hgt]

/-- The bits from `k` on. -/
theorem getLsbD_not_ones (hk : k < w) (hi : i < w) :
    (~~~((1#w <<< k) - 1#w)).getLsbD i = decide (k ≤ i) := by
  have hones : ((1#w <<< k) - 1#w).getLsbD i = decide (i < k) := by
    rw [BitVec.getLsbD, show ((1#w <<< k) - 1#w).toNat = 2 ^ k - 1 from BitFields.toNat_ones hk,
      Nat.testBit_two_pow_sub_one]
  rw [BitVec.getLsbD_not, hones, ← decide_not]
  simp [hi]

/-! ## Maps -/

/-- Whether `i` is in the set. -/
def bit (ws : List (BitVec w)) (i : Nat) : Bool := (ws.getD (i / w) 0#w).getLsbD (i % w)

variable {ws : List (BitVec w)} {f : BitVec w → BitVec w}

/-- A change of one word. -/
theorem bit_modify (hk : k < ws.length) :
    bit (ws.modify k f) i = if i / w = k then (f (ws.getD k 0#w)).getLsbD (i % w)
    else bit ws i := by
  rw [bit, List.getD_eq_getElem?_getD, List.getElem?_modify]
  split
  · next h =>
    rw [if_pos h.symm, ← h, List.getElem?_eq_getElem hk, List.getD_eq_getElem?_getD,
      List.getElem?_eq_getElem hk]
    rfl
  · next h =>
    rw [if_neg (Ne.symm h), bit, List.getD_eq_getElem?_getD]
    simp

theorem div_eq_and_mod_eq (hk : k < w) {n : Nat} : i / w = n ∧ i % w = k ↔ i = w * n + k := by
  constructor
  · intro h
    rw [← h.1, ← h.2, Nat.div_add_mod]
  · intro h
    rw [h, Nat.mul_add_div (Nat.zero_lt_of_lt hk), Nat.div_eq_of_lt hk, Nat.mul_add_mod,
      Nat.mod_eq_of_lt hk]
    exact ⟨rfl, rfl⟩

variable (ws) in
/-- A number is taken out. -/
theorem bit_clear (hw : 0 < w) (hk : k < w * ws.length) :
    bit (ws.modify (k / w) (· &&& ~~~(1#w <<< (k % w)))) i = (bit ws i && decide (i ≠ k)) := by
  have hlt : k / w < ws.length := Nat.div_lt_of_lt_mul hk
  have hmod := Nat.mod_lt i hw
  rw [bit_modify hlt]
  split
  · next h =>
    rw [getLsbD_and_not_one_shiftLeft hmod, bit, h]
    congr 1
    refine decide_eq_decide.2 (not_congr ?_)
    constructor
    · intro heq
      rw [← Nat.div_add_mod i w, ← Nat.div_add_mod k w, h, heq]
    · intro heq
      rw [heq]
  · next h =>
    have hne : i ≠ k := fun heq => h (heq ▸ rfl)
    simp [hne]

/-- The lowest number that word `k` lacks is put in. -/
theorem bit_setLowest (hw : 0 < w) (hk : k < ws.length) (hx : ws.getD k 0#w ≠ -1#w) :
    bit (ws.modify k fun x => x ||| (x + 1#w)) i =
    (bit ws i || decide (i = w * k + lowestClear (ws.getD k 0#w))) := by
  have hmod := Nat.mod_lt i hw
  have hiff := div_eq_and_mod_eq (i := i) (n := k) (lowestClear_lt hx)
  rw [bit_modify hk]
  split
  · next h =>
    rw [getLsbD_or_add_one hx hmod, bit, h]
    congr 1
    refine decide_eq_decide.2 ?_
    rw [← hiff, and_iff_right h]
  · next h =>
    rw [decide_eq_false fun heq => h (hiff.2 heq).1, Bool.or_false]

/-- Every word is full just when every number is in the set. -/
theorem all_full_iff (hw : 0 < w) : (∀ x ∈ ws, x = -1#w) ↔
    ∀ i < w * ws.length, bit ws i = true := by
  constructor
  · intro h i hi
    have hlt : i / w < ws.length := Nat.div_lt_of_lt_mul hi
    rw [bit, List.getD_eq_getElem?_getD, List.getElem?_eq_getElem hlt, Option.getD_some,
      h _ (List.getElem_mem hlt)]
    simp [BitVec.neg_one_eq_allOnes, Nat.mod_lt i hw]
  · intro h x hx
    obtain ⟨n, hn, rfl⟩ := List.getElem_of_mem hx
    rw [BitVec.neg_one_eq_allOnes]
    refine BitVec.eq_of_getLsbD_eq fun i hi => ?_
    have hlt : w * n + i < w * ws.length := by
      calc w * n + i < w * n + w := by omega
        _ = w * (n + 1) := (Nat.mul_succ ..).symm
        _ ≤ w * ws.length := Nat.mul_le_mul_left w hn
    obtain ⟨hdiv, hmod⟩ := (div_eq_and_mod_eq (i := w * n + i) hi).2 rfl
    have hbit := h _ hlt
    rw [bit, hdiv, hmod, List.getD_eq_getElem?_getD, List.getElem?_eq_getElem hn,
      Option.getD_some] at hbit
    rw [hbit]
    simp [hi]

end Bitmaps
