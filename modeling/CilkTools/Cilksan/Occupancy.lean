/-
The occupancy bits of the current strand: the bytes they mark, and what
`setOccupied` and `clearOccupied` do to them.
-/
import CilkTools.Cilksan.ShadowMem

namespace Cilksan

/-- The bit of an address. -/
def SimpleDictionary.occupied (d : SimpleDictionary) (b : Nat) : Bool :=
  (d.occupancy (page b) (occupancyWord b)).getLsbD (occupancyWordStartBit b)

/-- A set bit is on a page that is there, in a word that is known to be touched. -/
structure SimpleDictionary.OccupancyOk (d : SimpleDictionary) : Prop where
  page : ∀ b, d.occupied b = true → (d.table (page b)).isSome = true
  touched : ∀ b, d.occupied b = true → ∃ a ∈ d.touchedWords, a / 64 = b / 64

/-- The bytes from `p` to `e` are marked, and the entries stay. -/
structure Occupies (p e : Nat) (d d' : SimpleDictionary) : Prop where
  bits : ∀ b, d'.occupied b = (d.occupied b || decide (p ≤ b ∧ b < e))
  ok : d'.OccupancyOk
  lines : ∀ b, d'.table.lineAt b = d.table.lineAt b
  wf : d.table.WF → d'.table.WF
  pages : ∀ i, (d.table i).isSome = true → (d'.table i).isSome = true
  mapped : d'.table.Mapped p e
  lockers : d'.lockerTable = d.lockerTable

variable {d d' : SimpleDictionary} {p e b n : Nat}

theorem Occupies.get (h : Occupies p e d d') (b : Nat) : d'.table.get b = d.table.get b := by
  rw [Pages.get_eq, Pages.get_eq, h.lines]

/-! ## Words -/

theorem sameWord_iff {a b : Nat} : page a = page b ∧ occupancyWord a = occupancyWord b ↔
    a / 64 = b / 64 := by
  unfold page occupancyWord LG_OCCUPANCY_WORD_SIZE LG_PAGE_SIZE LG_LINE_SIZE
  omega

theorem occupancyWordStartBit_lt (b : Nat) : occupancyWordStartBit b < 64 :=
  Nat.mod_lt _ (by decide)

theorem getLsbD_lowBits {i n : Nat} (hn : n < 64) :
    ((1#64 <<< n) - 1#64).getLsbD i = decide (i < n) := by
  have hlt : 2 ^ n < 2 ^ 64 := Nat.pow_lt_pow_right (by decide) hn
  have hpos := Nat.two_pow_pos n
  have heq : (1#64 <<< n) - 1#64 = BitVec.ofNat 64 (2 ^ n - 1) := by
    refine BitVec.eq_of_toNat_eq ?_
    rw [BitVec.toNat_sub, BitVec.toNat_shiftLeft, BitVec.toNat_ofNat, BitVec.toNat_ofNat,
      Nat.shiftLeft_eq]
    omega
  rw [heq, BitVec.getLsbD_ofNat, Nat.testBit_two_pow_sub_one]
  by_cases h : i < n
  · simp [h, Nat.lt_trans h hn]
  · simp [h]

theorem getLsbD_occupancyMask {i : Nat} (hi : i < 64) :
    (occupancyMask (.upTo p e)).getLsbD i = decide (p % 64 ≤ i ∧ i < p % 64 + (e - p)) := by
  have hbit : occupancyWordStartBit p = p % 64 := rfl
  unfold occupancyMask
  rw [BitVec.getLsbD_shiftLeft, Chunk.upTo_addr, hbit, decide_eq_true hi, Bool.true_and]
  simp only [Chunk.upTo, show OCCUPANCY_WORD_SIZE = 64 from rfl]
  generalize e - p = n
  generalize p % 64 = s
  by_cases hs : i < s
  · simp [hs, Nat.not_le.2 hs]
  · have hsi : s ≤ i := Nat.not_lt.1 hs
    split
    · next h =>
      rw [BitVec.getLsbD_allOnes, decide_eq_false hs, Bool.not_false, Bool.true_and,
        decide_eq_decide]
      omega
    · next h =>
      rw [getLsbD_lowBits (by omega), decide_eq_false hs, Bool.not_false, Bool.true_and,
        decide_eq_decide]
      omega

theorem exists_bit_of_ne_zero {x : BitVec 64} : x ≠ 0 ↔ ∃ i, i < 64 ∧ x.getLsbD i = true := by
  constructor
  · intro h
    refine Classical.byContradiction fun hn => h (BitVec.eq_of_getLsbD_eq fun i hi => ?_)
    rw [show (0 : BitVec 64).getLsbD i = false from BitVec.getLsbD_zero]
    exact Bool.eq_false_iff.2 fun hx => hn ⟨i, hi, hx⟩
  · intro h hx
    obtain ⟨i, -, hi⟩ := h
    rw [hx, show (0 : BitVec 64).getLsbD i = false from BitVec.getLsbD_zero] at hi
    cases hi

/-- The addresses of a word's bits. -/
theorem exists_addr (p : Nat) {i : Nat} (hi : i < 64) :
    ∃ b, b / 64 = p / 64 ∧ occupancyWordStartBit b = i :=
  ⟨p / 64 * 64 + i, by omega, by show (p / 64 * 64 + i) % 64 = i; omega⟩

theorem occupied_of_sameWord {a : Nat} (h : b / 64 = a / 64) :
    d.occupied b = (d.occupancy (page a) (occupancyWord a)).getLsbD (occupancyWordStartBit b) := by
  obtain ⟨h₁, h₂⟩ := sameWord_iff.2 h
  rw [SimpleDictionary.occupied, h₁, h₂]

/-- Within a word the mask is that of the range. -/
theorem mask_eq (hb : b / 64 = p / 64) (hpe : p < e) :
    (occupancyMask (.upTo p e)).getLsbD (occupancyWordStartBit b) = decide (p ≤ b ∧ b < e) := by
  have hbit : occupancyWordStartBit b = b % 64 := rfl
  rw [getLsbD_occupancyMask (occupancyWordStartBit_lt b), hbit, decide_eq_decide]
  omega

/-! ## Setting bits -/

theorem Occupies.trans {d₁ d₂ : SimpleDictionary} {q r : Nat} (h₁ : Occupies p q d d₁)
    (h₂ : Occupies q r d₁ d₂) (hpq : p ≤ q) (hqr : q ≤ r) : Occupies p r d d₂ where
  bits b := by
    rw [h₂.bits, h₁.bits, Bool.or_assoc, ← Bool.decide_or]
    congr 1
    rw [decide_eq_decide]
    omega
  ok := h₂.ok
  lines b := (h₂.lines b).trans (h₁.lines b)
  wf hw := h₂.wf (h₁.wf hw)
  pages i hi := h₂.pages i (h₁.pages i hi)
  mapped b h h' := by
    by_cases hb : b < q
    · exact h₂.pages _ (h₁.mapped b h hb)
    · exact h₂.mapped b (by omega) h'
  lockers := h₂.lockers.trans h₁.lockers

theorem Occupies.nil (hd : d.OccupancyOk) (h : e ≤ p) : Occupies p e d d where
  bits b := by
    have hb : ¬ (p ≤ b ∧ b < e) := by omega
    simp [hb]
  ok := hd
  lines _ := rfl
  wf h := h
  pages _ h := h
  mapped b h₁ h₂ := by omega
  lockers := rfl

/-- A new page changes no entry and no bit. -/
theorem allocatePage_spec (hd : d.OccupancyOk) (a : Nat) :
    Occupies p p d (d.allocatePage (page a)) ∧
    ((d.allocatePage (page a)).table (page a)).isSome = true := by
  unfold SimpleDictionary.allocatePage
  by_cases hp : (d.table (page a)).isSome = true
  · rw [if_pos hp]
    exact ⟨.nil hd (Nat.le_refl _), hp⟩
  · rw [if_neg hp]
    have hnone : d.table (page a) = none := by simpa using hp
    have hbits : ∀ b, SimpleDictionary.occupied { d with
        table := Function.update d.table (page a) (some fun _ => {})
        occupancy := Function.update d.occupancy (page a) fun _ => 0 } b =
            d.occupied b := fun b => by
      simp only [SimpleDictionary.occupied]
      by_cases hb : page b = page a
      · rw [hb, Function.update_self]
        have hfalse : d.occupied b = false := Bool.eq_false_iff.2 fun h => hp (hb ▸ hd.page b h)
        rw [SimpleDictionary.occupied, hb] at hfalse
        rw [hfalse]
        exact BitVec.getLsbD_zero
      · rw [Function.update_of_ne hb]
    have hpages : ∀ i, (d.table i).isSome = true →
        (Function.update d.table (page a) (some fun _ => {}) i).isSome = true := fun i hi => by
      by_cases h : i = page a
      · rw [h, Function.update_self]
        rfl
      · rwa [Function.update_of_ne h]
    have hline : ∀ b, Pages.getLine (Function.update d.table (page a) (some fun _ => {})) b =
        if page b = page a then some {} else d.table.getLine b := fun b => by
      unfold Pages.getLine
      by_cases h : page b = page a
      · rw [if_pos h, h, Function.update_self]
        rfl
      · rw [if_neg h, Function.update_of_ne h]
    refine ⟨⟨fun b => ?_, ⟨fun b hb => ?_, fun b hb => ?_⟩, fun b => ?_, fun hw b l hl => ?_,
        hpages, fun b h₁ h₂ => ?_, rfl⟩, ?_⟩
    · rw [hbits]
      have hb : ¬ (p ≤ b ∧ b < p) := by omega
      simp [hb]
    · rw [hbits] at hb
      exact hpages _ (hd.page b hb)
    · rw [hbits] at hb
      exact hd.touched b hb
    · unfold Pages.lineAt
      rw [hline]
      split
      · next h =>
        rw [Pages.getLine, h, hnone]
        rfl
      · rfl
    · rw [hline] at hl
      split at hl
      · cases hl
        exact .empty
      · exact hw b l hl
    · omega
    · simp

theorem setOccupiedWord_spec (hd : d.OccupancyOk) (hpe : p < e)
    (hp : (d.table (page p)).isSome = true) :
    ∃ found d', d.setOccupiedWord (.upTo p e) = (found, d') ∧
    Occupies p (min (nextMultiple 64 p) e) d d' ∧
      (found = true ↔ ∃ b, p ≤ b ∧ b < min (nextMultiple 64 p) e ∧ d.occupied b = false) := by
  have hrange : ∀ b, p ≤ b ∧ b < min (nextMultiple 64 p) e ↔
      b / 64 = p / 64 ∧ p ≤ b ∧ b < e := fun b => by
    unfold nextMultiple
    omega
  have hbits : ∀ b, (d.setOccupiedWord (.upTo p e)).2.occupied b =
      (d.occupied b || decide (p ≤ b ∧ b < min (nextMultiple 64 p) e)) := fun b => by
    simp only [SimpleDictionary.setOccupiedWord, SimpleDictionary.occupied, Chunk.upTo_addr, hrange]
    by_cases hb : b / 64 = p / 64
    · obtain ⟨h₁, h₂⟩ := sameWord_iff.2 hb
      rw [h₁, h₂, Function.update_self, Function.update_self, BitVec.getLsbD_or, mask_eq hb hpe]
      simp [hb]
    · rw [decide_eq_false fun h => hb h.1, Bool.or_false]
      by_cases h₁ : page b = page p
      · have h₂ : occupancyWord b ≠ occupancyWord p := fun h => hb (sameWord_iff.1 ⟨h₁, h⟩)
        rw [h₁, Function.update_self, Function.update_of_ne h₂]
      · rw [Function.update_of_ne h₁]
  refine ⟨_, (d.setOccupiedWord (.upTo p e)).2, rfl,
    ⟨hbits, ⟨fun b hb => ?_, fun b hb => ?_⟩, fun _ => rfl, id, fun _ => id,
      fun b h₁ h₂ => ?_, rfl⟩, ?_⟩
  · rw [hbits, Bool.or_eq_true, decide_eq_true_iff, hrange] at hb
    rcases hb with hb | hb
    · exact hd.page b hb
    · rw [(sameWord_iff.2 hb.1).1]
      exact hp
  · rw [hbits, Bool.or_eq_true, decide_eq_true_iff, hrange] at hb
    have hold : ∀ a, d.occupied a = true →
        ∃ c ∈ (d.setOccupiedWord (.upTo p e)).2.touchedWords, c / 64 = a / 64 := fun a ha => by
      obtain ⟨c, hc, hca⟩ := hd.touched a ha
      refine ⟨c, ?_, hca⟩
      simp only [SimpleDictionary.setOccupiedWord]
      split
      · exact List.mem_cons_of_mem _ hc
      · exact hc
    rcases hb with hb | hb
    · exact hold b hb
    · by_cases hz : d.occupancy (page p) (occupancyWord p) = 0
      · exact ⟨p, by simp [SimpleDictionary.setOccupiedWord, hz], hb.1.symm⟩
      · obtain ⟨i, hi, hbit⟩ := exists_bit_of_ne_zero.1 hz
        obtain ⟨a, ha, hai⟩ := exists_addr p hi
        obtain ⟨c, hc, hca⟩ := hold a (by rw [occupied_of_sameWord ha, hai, hbit])
        exact ⟨c, hc, by omega⟩
  · rw [(sameWord_iff.2 ((hrange b).1 ⟨h₁, h₂⟩).1).1]
    exact hp
  · rw [decide_eq_true_iff, exists_bit_of_ne_zero, Chunk.upTo_addr]
    constructor
    · intro h
      obtain ⟨i, hi, hbit⟩ := h
      obtain ⟨b, hb, rfl⟩ := exists_addr p hi
      rw [BitVec.getLsbD_and, BitVec.getLsbD_not, mask_eq hb hpe, ← occupied_of_sameWord hb] at hbit
      simp only [Bool.and_eq_true, decide_eq_true_eq] at hbit
      obtain ⟨h₁, h₂⟩ := (hrange b).2 ⟨hb, hbit.2⟩
      exact ⟨b, h₁, h₂, by simpa using hbit.1.2⟩
    · intro h
      obtain ⟨b, h₁, h₂, hb⟩ := h
      obtain ⟨hw, hr⟩ := (hrange b).1 ⟨h₁, h₂⟩
      refine ⟨occupancyWordStartBit b, occupancyWordStartBit_lt b, ?_⟩
      rw [BitVec.getLsbD_and, BitVec.getLsbD_not, mask_eq hw hpe, ← occupied_of_sameWord hw, hb,
        decide_eq_true hr, decide_eq_true (occupancyWordStartBit_lt b)]
      rfl

theorem setOccupiedLoop_spec {e : Nat} :
    ∀ (n : Nat) {p : Nat} {d : SimpleDictionary} (found₀ : Bool), e - p ≤ n →
    d.OccupancyOk →
    ∃ found d', SimpleDictionary.setOccupiedLoop n found₀ d (.upTo p e) = (found, d') ∧
      Occupies p e d d' ∧
      (found = true ↔ found₀ = true ∨ ∃ b, p ≤ b ∧ b < e ∧ d.occupied b = false) := by
  intro n
  induction n with
  | zero =>
    intro p d found₀ hn hd
    refine ⟨_, _, rfl, .nil hd (by omega), ?_⟩
    refine ⟨.inl, fun h => h.elim id fun h => ?_⟩
    obtain ⟨b, h₁, h₂, -⟩ := h
    omega
  | succ n ih =>
    intro p d found₀ hn hd
    simp only [SimpleDictionary.setOccupiedLoop, Chunk.isEmpty_upTo]
    split
    · next hle =>
      refine ⟨_, _, rfl, .nil hd hle, .inl, fun h => h.elim id fun h => ?_⟩
      obtain ⟨b, h₁, h₂, -⟩ := h
      omega
    · next hle =>
      have hlt : p < nextMultiple 64 p := lt_nextMultiple (by decide)
      obtain ⟨ha, hpage⟩ := allocatePage_spec (p := p) hd p
      obtain ⟨found, d₁, hword, ho, hfound⟩ := setOccupiedWord_spec ha.ok (e := e) (by omega) hpage
      have hocc : ∀ b, (d.allocatePage (page p)).occupied b = d.occupied b := fun b => by
        have hb : ¬ (p ≤ b ∧ b < p) := by omega
        rw [ha.bits, decide_eq_false hb, Bool.or_false]
      obtain ⟨f', d', hloop, ho', hf'⟩ := ih (p := nextMultiple 64 p)
        (found₀ || (d.table (page p)).isNone || found) (by omega) ho.ok
      have hnext : (Chunk.upTo p e).nextOccupancyWord = .upTo (nextMultiple 64 p) e :=
        Chunk.next_upTo p e 6
      simp only [Chunk.upTo_addr, hword, hnext, hloop]
      have hchain : Occupies p e d d' := by
        rcases Nat.le_total e (nextMultiple 64 p) with h | h
        · rw [Nat.min_eq_right h] at ho
          have hend := ha.trans ho (Nat.le_refl _) (by omega)
          exact {
            bits b := by
              have hb : ¬ (nextMultiple 64 p ≤ b ∧ b < e) := by omega
              rw [ho'.bits, hend.bits, decide_eq_false hb, Bool.or_false]
            ok := ho'.ok
            lines b := (ho'.lines b).trans (hend.lines b)
            wf hw := ho'.wf (hend.wf hw)
            pages i hi := ho'.pages i (hend.pages i hi)
            mapped b h₁ h₂ := ho'.pages _ (hend.mapped b h₁ h₂)
            lockers := ho'.lockers.trans hend.lockers }
        · rw [Nat.min_eq_left h] at ho
          exact (ha.trans ho (Nat.le_refl _) (by omega)).trans ho' (by omega) h
      refine ⟨_, _, rfl, hchain, ?_⟩
      rw [hf', Bool.or_eq_true, Bool.or_eq_true, hfound]
      constructor
      · intro h
        rcases h with ((h | h) | h) | h
        · exact .inl h
        · refine .inr ⟨p, Nat.le_refl _, by omega, Bool.eq_false_iff.2 fun hb => ?_⟩
          rw [Option.isNone_iff_eq_none] at h
          have hs := hd.page p hb
          rw [h] at hs
          cases hs
        · obtain ⟨b, h₁, h₂, hb⟩ := h
          exact .inr ⟨b, h₁, by omega, hocc b ▸ hb⟩
        · obtain ⟨b, h₁, h₂, hb⟩ := h
          rw [ho.bits, hocc, Bool.or_eq_false_iff] at hb
          exact .inr ⟨b, by omega, h₂, hb.1⟩
      · intro h
        rcases h with h | h
        · exact .inl (.inl (.inl h))
        · obtain ⟨b, h₁, h₂, hb⟩ := h
          by_cases hq : b < nextMultiple 64 p
          · exact .inl (.inr ⟨b, h₁, by omega, by rw [hocc, hb]⟩)
          · refine .inr ⟨b, by omega, h₂, ?_⟩
            have hn : ¬ (p ≤ b ∧ b < min (nextMultiple 64 p) e) := by omega
            rw [ho.bits, hocc, hb, decide_eq_false hn, Bool.or_false]

/-- **`setOccupied`** marks the range, and tells whether some of it was not marked. -/
theorem setOccupied_spec (hd : d.OccupancyOk) (p n : Nat) :
    ∃ found d', d.setOccupied p n = (found, d') ∧
    Occupies p (p + n) d d' ∧ (found = true ↔ ∃ b, p ≤ b ∧ b < p + n ∧ d.occupied b = false) := by
  have hchunk := Chunk.mk_eq_upTo p n
  obtain ⟨found, d', h, ho, hf⟩ := setOccupiedLoop_spec n (p := p) (e := p + n) false (by omega) hd
  refine ⟨found, d', ?_, ho, by simpa using hf⟩
  rw [SimpleDictionary.setOccupied, hchunk]
  exact h

/-! ## Clearing bits -/

theorem occupied_foldl_clear (occ : Nat → Nat → BitVec 64) (ws : List Nat) (b : Nat) :
    (ws.foldl (fun occ addr =>
      Function.update occ (page addr)
        (Function.update (occ (page addr)) (occupancyWord addr) 0)) occ
      (page b) (occupancyWord b)).getLsbD (occupancyWordStartBit b) =
    ((occ (page b) (occupancyWord b)).getLsbD (occupancyWordStartBit b) &&
      decide (∀ a ∈ ws, a / 64 ≠ b / 64)) := by
  induction ws generalizing occ with
  | nil => simp
  | cons a ws ih =>
    rw [List.foldl_cons, ih]
    by_cases hb : a / 64 = b / 64
    · obtain ⟨h₁, h₂⟩ := sameWord_iff.2 hb
      rw [h₁, h₂, Function.update_self, Function.update_self]
      simp [hb]
    · have hother :
          Function.update occ (page a) (Function.update (occ (page a)) (occupancyWord a) 0) (page b)
          (occupancyWord b) = occ (page b) (occupancyWord b) := by
        by_cases h₁ : page b = page a
        · have h₂ :
              occupancyWord b ≠ occupancyWord a := fun h => hb (sameWord_iff.1 ⟨h₁.symm, h.symm⟩)
          rw [h₁, Function.update_self, Function.update_of_ne h₂]
        · rw [Function.update_of_ne h₁]
      rw [hother]
      simp [hb]

/-- **`clearOccupied`**, at the start of a strand, leaves nothing marked. -/
theorem occupied_clearOccupied (hd : d.OccupancyOk) (b : Nat) :
    d.clearOccupied.occupied b = false := by
  have h := occupied_foldl_clear d.occupancy d.touchedWords b
  unfold SimpleDictionary.occupied SimpleDictionary.clearOccupied
  rw [h]
  cases hb : d.occupied b with
  | false => rw [SimpleDictionary.occupied] at hb; rw [hb, Bool.false_and]
  | true =>
    obtain ⟨a, ha, hab⟩ := hd.touched b hb
    rw [decide_eq_false fun hall => hall a ha hab, Bool.and_false]

theorem SimpleDictionary.OccupancyOk.of_not_occupied (h : ∀ b, d.occupied b = false) :
    d.OccupancyOk where
  page b hb := by rw [h b] at hb; cases hb
  touched b hb := by rw [h b] at hb; cases hb

end Cilksan
