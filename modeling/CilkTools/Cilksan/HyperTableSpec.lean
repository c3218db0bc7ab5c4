/-
What a probe of the hash table finds, and what an insertion makes of it: the
buckets are a sorted ring, and stay one unless the insertion carries a bucket
round the whole table to its own hash.
-/
import CilkTools.Cilksan.HyperTable
import Mathlib.Data.Nat.Find

namespace Cilksan.HyperTable

open OrderedProbing

variable {V : Type}

/-! ## Keys and indices -/

theorem isValid_iff {key : Key} : isValid key = true ↔
    isEmpty key = false ∧ isTombstone key = false := by
  simp [isValid]

theorem incIndex_eq_fwd {i c : Nat} (hi : i < c) : incIndex i c = fwd c i 1 := by
  unfold incIndex fwd
  repeat' split
  all_goals omega

theorem getTableEntry_lt (hash : Key → Nat) {c : Nat} (hc : 0 < c) (key : Key) :
    getTableEntry hash c key < c := by
  have : getTableEntry hash c key ≤ c - 1 := Nat.and_le_right
  omega

/-- The unsigned comparison is one of distances round the table. -/
theorem continueProbe_iff {c tgt hash i : Nat} (hc : c ≤ 2 ^ 32) (ht : tgt < c) (hh : hash < c)
    (hi : i < c) : continueProbe tgt hash i = true ↔ ahead c i tgt ≤ ahead c i hash := by
  simp only [continueProbe, decide_eq_true_eq]
  have hm : ∀ x < c, (2 ^ 32 + i - x) % 2 ^ 32 = if x ≤ i then i - x else 2 ^ 32 +
      i - x := fun x hx => by
    split
    · rw [show 2 ^ 32 + i - x = 2 ^ 32 + (i - x) by omega, Nat.add_mod_left,
        Nat.mod_eq_of_lt (by omega)]
    · exact Nat.mod_eq_of_lt (by omega)
  rw [hm tgt ht, hm hash hh]
  unfold ahead
  repeat' split
  all_goals omega

/-! ## The buckets as a ring -/

/-- The slot a bucket is. -/
def slot (b : Bucket V) : Slot :=
  if isEmpty b.key then .empty else if isTombstone b.key then .tomb else .full b.hash

def slots (bs : Nat → Bucket V) (i : Nat) : Slot := slot (bs i)

@[simp] theorem slots_update (bs : Nat → Bucket V) (i : Nat) (b : Bucket V) :
    slots (Function.update bs i b) = Function.update (slots bs) i (slot b) := by
  funext j
  by_cases h : j = i
  · subst h; simp [slots]
  · simp [slots, Function.update_of_ne h]

theorem slots_eq_empty {bs : Nat → Bucket V} {i : Nat} : slots bs i = .empty ↔
    isEmpty (bs i).key = true := by
  simp only [slots, slot]
  split
  · simp [*]
  · split <;> simp [*]

theorem slot_full {b : Bucket V} {g : Nat} : slot b = .full g ↔
    isValid b.key = true ∧ b.hash = g := by
  simp only [slot, isValid_iff]
  split
  · simp [*]
  · split <;> simp [*]

theorem slots_tomb {bs : Nat → Bucket V} {i : Nat} : slots bs i = .tomb ↔
    isTombstone (bs i).key = true := by
  simp only [slots, slot]
  split
  · next h =>
    have hk : (bs i).key = KEY_EMPTY := by simpa [isEmpty] using h
    simp [isTombstone, hk, KEY_EMPTY, KEY_DELETED]
  · split <;> simp [*]

/-- The buckets of a hash table: a sorted ring, each bucket's hash that of its
key, and no key in two. -/
structure Hashed (hash : Key → Nat) (c : Nat) (bs : Nat → Bucket V) : Prop where
  sorted : Sorted c (slots bs)
  home : ∀ i < c, isValid (bs i).key = true → (bs i).hash = getTableEntry hash c (bs i).key
  distinct : ∀ i < c, ∀ j < c, isValid (bs i).key = true → (bs i).key = (bs j).key → i = j

/-- Some bucket has the key and the value. -/
def Has (c : Nat) (bs : Nat → Bucket V) (key : Key) (v : V) : Prop :=
  ∃ i < c, (bs i).key = key ∧ (bs i).value = v

def Absent (c : Nat) (bs : Nat → Bucket V) (key : Key) : Prop := ∀ i < c, (bs i).key ≠ key

/-- How many buckets have a key that meets `p`. -/
def count (p : Key → Bool) (c : Nat) (bs : Nat → Bucket V) : Nat :=
  (List.range c).countP fun i => p (bs i).key

theorem count_update (p : Key → Bool) {c i : Nat} (bs : Nat → Bucket V) (b : Bucket V)
    (hi : i < c) :
    count p c (Function.update bs i b) + (p (bs i).key).toNat = count p c bs + (p b.key).toNat := by
  have hout : ∀ n ≤ i, count p n (Function.update bs i b) = count p n bs := fun n hn => by
    refine List.countP_congr fun j hj => ?_
    rw [List.mem_range] at hj
    rw [Function.update_of_ne (by omega)]
  have hsucc : ∀ n (bs : Nat → Bucket V), count p (n + 1) bs = count p n bs +
      (p (bs n).key).toNat := fun n bs => by
    simp only [count, List.range_succ, List.countP_append, List.countP_singleton]
    cases p (bs n).key <;> simp
  induction c with
  | zero => omega
  | succ c ih =>
    rw [hsucc, hsucc]
    rcases Nat.lt_succ_iff_lt_or_eq.1 hi with hlt | rfl
    · have := ih hlt
      rw [Function.update_of_ne (by omega)]
      omega
    · rw [hout i (Nat.le_refl i), Function.update_self]
      omega

/-- Fewer keys than buckets leave a bucket that is free. -/
theorem exists_not_of_count {p : Key → Bool} {c : Nat} {bs : Nat → Bucket V}
    (h : count p c bs < c) : ∃ i < c, p (bs i).key = false := by
  by_contra hn
  have : count p c bs = (List.range c).length := List.countP_eq_length.2 fun i hi => by
    rw [List.mem_range] at hi
    cases hp : p (bs i).key with
    | true => rfl
    | false => exact absurd ⟨i, hi, hp⟩ hn
  rw [List.length_range] at this
  omega

variable {hash : Key → Nat} {c : Nat} {bs : Nat → Bucket V} {key : Key}

theorem Hashed.slot_eq (hb : Hashed hash c bs) {i : Nat} (hi : i < c)
    (hv : isValid (bs i).key = true) : slots bs i = .full (getTableEntry hash c (bs i).key) :=
  slot_full.2 ⟨hv, hb.home i hi hv⟩

/-- A bucket is put where its hash fits and its key is not. -/
theorem Hashed.put {i : Nat} {b : Bucket V} (hb : Hashed hash c bs) (hv : isValid b.key = true)
    (hh : b.hash = getTableEntry hash c b.key) (hf : Admits c (slots bs) b.hash i)
    (ha : Absent c bs b.key) : Hashed hash c (Function.update bs i b) := by
  refine ⟨?_, fun j hj hvj => ?_, fun j hj k hk hvj hjk => ?_⟩
  · rw [slots_update, slot_full.2 ⟨hv, rfl⟩]
    exact hb.sorted.put hf
  · by_cases hji : j = i
    · subst hji
      rw [Function.update_self]
      exact hh
    · rw [Function.update_of_ne hji] at hvj ⊢
      exact hb.home j hj hvj
  · by_cases hji : j = i
    · subst hji
      by_contra hne
      rw [Function.update_self, Function.update_of_ne (Ne.symm hne)] at hjk
      exact ha k hk hjk.symm
    · by_cases hki : k = i
      · subst hki
        rw [Function.update_self, Function.update_of_ne hji] at hjk
        exact absurd hjk (ha j hj)
      · rw [Function.update_of_ne hji] at hvj hjk
        rw [Function.update_of_ne hki] at hjk
        exact hb.distinct j hj k hk hvj hjk

/-- What a bucket held and what it holds now, one for the other. -/
theorem has_swap (bs : Nat → Bucket V) (b : Bucket V) {i : Nat} (hi : i < c) (k : Key) (v : V) :
    Has c (Function.update bs i b) k v ∨ ((bs i).key = k ∧ (bs i).value = v) ↔
      (b.key = k ∧ b.value = v) ∨ Has c bs k v := by
  constructor
  · rintro (⟨j, hj, hk, hv⟩ | h)
    · by_cases hji : j = i
      · subst hji
        rw [Function.update_self] at hk hv
        exact .inl ⟨hk, hv⟩
      · rw [Function.update_of_ne hji] at hk hv
        exact .inr ⟨j, hj, hk, hv⟩
    · exact .inr ⟨i, hi, h⟩
  · rintro (h | ⟨j, hj, hk, hv⟩)
    · exact .inl ⟨i, hi, by simpa using h⟩
    · by_cases hji : j = i
      · subst hji
        exact .inr ⟨hk, hv⟩
      · exact .inl ⟨j, hj, by rw [Function.update_of_ne hji]; exact ⟨hk, hv⟩⟩

theorem has_update {i : Nat} {b : Bucket V} (hi : i < c) {k : Key} (v : V) (hk : (bs i).key ≠ k) :
    Has c (Function.update bs i b) k v ↔ (b.key = k ∧ b.value = v) ∨ Has c bs k v := by
  rw [← has_swap bs b hi]
  exact ⟨.inl, fun h => h.resolve_right fun h => hk h.1⟩

theorem ne_of_isValid {b : Bucket V} (hb : isValid b.key = false) {k : Key}
    (hk : isValid k = true) : b.key ≠ k := by
  intro h
  rw [h, hk] at hb
  cases hb

/-! ## Shifting -/

/-- The buckets are shifted up to the first that is free, `m` after `i`, none
of them from right before its own hash. -/
theorem shiftIn_spec {insertTgt n : Nat} (m : Nat) (hm : m < n) :
    ∀ (bs : Nat → Bucket V) (i : Nat) (b : Bucket V),
    Hashed hash c bs → isValid b.key = true → b.hash = getTableEntry hash c b.key →
    Admits c (slots bs) b.hash i →
    Absent c bs b.key → m < c → isValid (bs (fwd c i m)).key = false →
    (∀ k < m, isValid (bs (fwd c i k)).key = true ∧
      ahead c (fwd c i k) (bs (fwd c i k)).hash + 1 < c) →
    (∀ k < m, fwd c i (k + 1) ≠ insertTgt) →
    ∃ bs', shiftIn c insertTgt n bs i b = (true, bs') ∧ Hashed hash c bs' ∧
      (∀ k v, isValid k = true → (Has c bs' k v ↔ (b.key = k ∧ b.value = v) ∨ Has c bs k v)) ∧
      ∀ p : Key → Bool, p b.key = true → (∀ k < m, p (bs (fwd c i k)).key = true) →
        count p c bs' + (p (bs (fwd c i m)).key).toNat = count p c bs + 1 := by
  induction m generalizing n with
  | zero =>
    intro bs i b hb hv hh hf ha _ hfree _ _
    have hic := hf.lt
    rw [fwd_zero hic] at hfree
    obtain ⟨n, rfl⟩ := Nat.exists_eq_succ_of_ne_zero (Nat.ne_of_gt hm)
    refine ⟨Function.update bs i b, by simp [shiftIn, hfree], hb.put hv hh hf ha, fun k v hk => ?_,
      fun p hp _ => ?_⟩
    · exact has_update hic v (ne_of_isValid hfree hk)
    · have := count_update p bs b hic
      rw [fwd_zero hic]
      simpa [hp] using this
  | succ m ih =>
    intro bs i b hb hv hh hf ha hmc hfree hrun hne
    have hic := hf.lt
    obtain ⟨n, rfl⟩ :=
      Nat.exists_eq_succ_of_ne_zero (Nat.ne_of_gt (Nat.lt_of_le_of_lt (Nat.zero_le _) hm))
    obtain ⟨hvi, hdi⟩ := hrun 0 (by omega)
    rw [fwd_zero hic] at hvi hdi
    have hwalk : ∀ k ≤ m, fwd c (fwd c i 1) k = fwd c i (k + 1) := fun k hk => by
      rw [fwd_fwd hic (by omega), Nat.add_comm]
    have hoff : ∀ k ≤ m, fwd c i (k + 1) ≠ i := fun k hk => fwd_ne_self (Nat.succ_pos k) (by omega)
    have hsame : ∀ k ≤ m, Function.update bs i b (fwd c (fwd c i 1) k) =
        bs (fwd c i (k + 1)) := fun k hk => by
      rw [hwalk k hk, Function.update_of_ne (hoff k hk)]
    -- The bucket displaced is in hand for the next one.
    have hput := hb.put hv hh hf ha
    obtain ⟨bs', hshift, hb', hhas, hcount⟩ :=
      ih (n := n) (by omega) (Function.update bs i b) (fwd c i 1)
        (bs i) hput hvi (hb.home i hic hvi) (by
          rw [slots_update, slot_full.2 ⟨hv, rfl⟩]
          exact hf.next hb.sorted (slot_full.2 ⟨hvi, rfl⟩) hdi)
        (fun j hj hkey => by
          by_cases hji : j = i
          · subst hji
            rw [Function.update_self] at hkey
            exact ha j hj hkey.symm
          · rw [Function.update_of_ne hji] at hkey
            exact hji (hb.distinct i hic j hj hvi hkey.symm).symm)
        (by omega) (by rw [hsame m (Nat.le_refl m)]; exact hfree)
        (fun k hk => by
          rw [hsame k (by omega), hwalk k (by omega)]
          exact hrun (k + 1) (by omega))
        (fun k hk => by
          rw [hwalk (k + 1) (by omega)]
          exact hne (k + 1) (by omega))
    refine ⟨bs', ?_, hb', fun k v hk => ?_, fun p hp hpr => ?_⟩
    · have hnext : incIndex i c ≠ insertTgt := by
        rw [incIndex_eq_fwd hic]
        exact hne 0 (by omega)
      simp only [shiftIn, hvi, Bool.not_true, Bool.false_eq_true, if_false, if_neg hnext]
      rw [incIndex_eq_fwd hic]
      exact hshift
    · rw [hhas k v hk, or_comm]
      exact has_swap bs b hic k v
    · have hpi := hpr 0 (by omega)
      rw [fwd_zero hic] at hpi
      have h₁ := hcount p hpi fun k hk => by
        rw [hsame k (by omega)]
        exact hpr (k + 1) (by omega)
      have h₂ := count_update p bs b hic
      rw [hsame m (Nat.le_refl m)] at h₁
      simp only [hpi, hp, Bool.toNat_true] at h₂
      omega

/-! ## Probing -/

theorem continues_iff (hb : Hashed hash c bs) (hc : c ≤ 2 ^ 32) {h m : Nat} (hh : h < c)
    (hm : m < c) : Continues c (slots bs) h m ↔ isEmpty (bs (fwd c h m)).key = false ∧
      (isTombstone (bs (fwd c h m)).key = true ∨
        continueProbe h (bs (fwd c h m)).hash (fwd c h m) = true) := by
  have hi := fwd_lt hh (Nat.le_of_lt hm)
  unfold Continues
  rw [Ne, slots_eq_empty, Bool.not_eq_true]
  refine and_congr_right fun hne => ?_
  cases ht : isTombstone (bs (fwd c h m)).key with
  | true => simp [slots_tomb.2 ht]
  | false =>
    have hv := isValid_iff.2 ⟨hne, ht⟩
    have hs := slot_full.2 ⟨hv, rfl⟩
    have hlt := hb.sorted.home_lt _ hi _ hs
    simp only [Bool.false_eq_true, false_or, continueProbe_iff hc hh hlt hi, ahead_fwd hh hm]
    rw [show slots bs (fwd c h m) = .full (bs (fwd c h m)).hash from hs]
    simp

/-- A key is found where a probe for it gets. -/
theorem findFrom_spec (hb : Hashed hash c bs) (hc : c ≤ 2 ^ 32)
    (hv : isValid key = true) {tgt j : Nat}
    (ht : tgt = getTableEntry hash c key) (hj : j < c) (hk : (bs j).key = key) (n : Nat) :
    ∀ m, m ≤ ahead c j tgt → c ≤ n + m → findFrom bs c key tgt n (fwd c tgt m) = some j := by
  have htc : tgt < c := by
    rw [ht]
    exact getTableEntry_lt hash (by omega) key
  have hd := ahead_lt htc hj
  have hslot : slots bs j = .full tgt := by
    rw [ht, ← hk]
    exact hb.slot_eq hj (by rw [hk]; exact hv)
  induction n with
  | zero => omega
  | succ n ih =>
    intro m hm hn
    rw [findFrom]
    split
    · next heq =>
      exact congrArg some (hb.distinct j hj _ (fwd_lt htc (by omega)) (by rw [hk]; exact hv)
        (by rw [hk]; exact heq)).symm
    · next hne =>
      have hlt : m < ahead c j tgt := by
        rcases Nat.lt_or_eq_of_le hm with hlt | rfl
        · exact hlt
        · rw [fwd_ahead htc hj] at hne
          exact absurd hk.symm hne
      have hp := (continues_iff hb hc htc (by omega)).1 (hb.sorted.reach j hj tgt hslot m hlt)
      have hstep : incIndex (fwd c tgt m) c = fwd c tgt (m + 1) := by
        rw [incIndex_eq_fwd (fwd_lt htc (by omega)), fwd_fwd htc (by omega)]
      have hnt : fwd c tgt (m + 1) ≠ tgt := fwd_ne_self (Nat.succ_pos m) (by omega)
      rw [if_neg (by simp [hp.1]), if_pos (by simpa using hp.2)]
      simp only [hstep, if_neg hnt]
      exact ih (m + 1) hlt (by omega)

theorem findFrom_some {tgt j : Nat} (n : Nat) :
    ∀ i < c, findFrom bs c key tgt n i = some j → j < c ∧ (bs j).key = key := by
  induction n with
  | zero => simp [findFrom]
  | succ n ih =>
    intro i hi h
    rw [findFrom] at h
    split at h
    · next heq =>
      cases h
      exact ⟨hi, heq.symm⟩
    · split at h
      · cases h
      · split at h
        · simp only at h
          split at h
          · cases h
          · refine ih _ ?_ h
            rw [incIndex_eq_fwd hi]
            exact fwd_lt hi (by omega)
        · cases h

/-- A run of tombstones, from after `m` steps on. -/
theorem tombEnd_spec (bs : Nat → Bucket V) {tgt : Nat} (htc : tgt < c) (n : Nat) :
    ∀ m, 0 < m → m ≤ c → c ≤ n + m →
    ∃ l, m + l ≤ c ∧ tombEnd bs c tgt n (fwd c tgt m) = fwd c tgt (m + l) ∧
      (∀ k < l, isTombstone (bs (fwd c tgt (m + k))).key = true) ∧
      (m + l = c ∨ isTombstone (bs (fwd c tgt (m + l))).key = false) := by
  have hlap : fwd c tgt c = tgt := by
    unfold fwd
    split <;> omega
  induction n with
  | zero =>
    intro m hm hmc hn
    exact ⟨0, hmc, rfl, by simp, .inl (by omega)⟩
  | succ n ih =>
    intro m hm hmc hn
    rw [tombEnd]
    split
    · next hc =>
      have hlt : m < c := by
        rcases Nat.lt_or_eq_of_le hmc with hlt | rfl
        · exact hlt
        · exact absurd hlap hc.1
      obtain ⟨l, hl, hend, ht, hstop⟩ := ih (m + 1) (by omega) hlt (by omega)
      rw [incIndex_eq_fwd (fwd_lt htc (by omega)), fwd_fwd htc (by omega)]
      refine ⟨l + 1, by omega, by rw [hend, Nat.add_right_comm, Nat.add_assoc], fun k hk => ?_, ?_⟩
      · cases k with
        | zero => exact hc.2
        | succ k =>
          have := ht k (by omega)
          rwa [Nat.add_right_comm, Nat.add_assoc] at this
      · rwa [Nat.add_right_comm, Nat.add_assoc] at hstop
    · next hc =>
      refine ⟨0, hmc, rfl, by simp, ?_⟩
      rcases Nat.lt_or_eq_of_le hmc with hlt | rfl
      · refine .inr ?_
        have hne : fwd c tgt m ≠ tgt := fwd_ne_self hm hlt
        cases ht : isTombstone (bs (fwd c tgt (m + 0))).key with
        | false => rfl
        | true => exact absurd ⟨hne, ht⟩ hc
      · exact .inl rfl

/-- Where a probe for the key may end. One that has gone round the table ends
at its target. -/
def SpotOk (c : Nat) (bs : Nat → Bucket V) (key : Key) (tgt : Nat) : Spot → Prop
  | .overwrite i => i < c ∧ (bs i).key = key
  | .place i => isValid (bs i).key = false ∧ Admits c (slots bs) tgt i ∧ Absent c bs key
  | .shift i => Absent c bs key ∧
      if i = tgt then ∀ m < c, isEmpty (bs (fwd c tgt m)).key = false
      else isValid (bs i).key = true ∧ Admits c (slots bs) tgt i

section Probe

variable (hb : Hashed hash c bs) (hc : c ≤ 2 ^ 32) (hv : isValid key = true) {tgt : Nat}
  (ht : tgt = getTableEntry hash c key) (htc : tgt < c)

include hb hv ht htc in
/-- A key that a probe has not met is in no bucket, if no entry with its hash is beyond. -/
theorem absent_of_le {m : Nat} (hseen : ∀ k < m, (bs (fwd c tgt k)).key ≠ key)
    (hle : ∀ j < c, slots bs j = .full tgt → ahead c j tgt < m) : Absent c bs key := by
  intro j hj hk
  have hlt := hle j hj (by rw [ht, ← hk]; exact hb.slot_eq hj (by rw [hk]; exact hv))
  have := hseen _ hlt
  rw [fwd_ahead htc hj] at this
  exact this hk

include hb hv ht htc in
/-- The place of a probe that stops at a bucket that is free. -/
theorem spotOk_place {m : Nat} (hm : m < c) (hpass : ∀ k < m, Continues c (slots bs) tgt k)
    (hseen : ∀ k ≤ m, (bs (fwd c tgt k)).key ≠ key) (hfree : isValid (bs (fwd c tgt m)).key = false)
    (hblocks : Bars c (slots bs) (fwd c tgt m) m) : SpotOk c bs key tgt (.place (fwd c tgt m)) := by
  refine ⟨hfree, hblocks.admits htc hm hpass fun g hg => ?_, ?_⟩
  · rw [(slot_full.1 hg).1] at hfree
    cases hfree
  · exact absent_of_le hb hv ht htc (fun k hk => hseen k (Nat.le_of_lt_succ hk)) fun j hj hjt =>
      Nat.lt_succ_of_le (hblocks.le hj hjt)

include hb hc hv ht htc in
theorem probe_spec (n : Nat) : ∀ m < c, c ≤ n + m → (∀ k < m, Continues c (slots bs) tgt k) →
    (∀ k < m, (bs (fwd c tgt k)).key ≠ key) →
    SpotOk c bs key tgt (probe bs c key tgt n (fwd c tgt m)) := by
  have hkey : isTombstone key = false := (isValid_iff.1 hv).2
  have hlap : fwd c tgt c = tgt := by
    unfold fwd
    split <;> omega
  induction n with
  | zero =>
    intro m hm hn
    omega
  | succ n ih =>
    intro m hm hn hpass hseen
    have hi := fwd_lt htc (Nat.le_of_lt hm)
    have hstep : incIndex (fwd c tgt m) c = fwd c tgt (m + 1) := by
      rw [incIndex_eq_fwd hi, fwd_fwd htc (by omega)]
    rw [probe]
    split
    · next heq => exact ⟨hi, heq.symm⟩
    · next hne =>
      have hseen' : ∀ k ≤ m, (bs (fwd c tgt k)).key ≠ key := fun k hk => by
        rcases Nat.lt_or_eq_of_le hk with hk | rfl
        · exact hseen k hk
        · exact Ne.symm hne
      split
      · next hempty =>
        exact spotOk_place hb hv ht htc hm hpass hseen' (by simp [isValid, hempty])
          (Bars.of_empty hb.sorted (slots_eq_empty.2 hempty))
      · next hne' =>
        split
        · next htomb =>
          rw [hstep]
          obtain ⟨l, hl, hend, htombs, hstop⟩ :=
            tombEnd_spec bs htc c (m + 1) (by omega) hm (by omega)
          simp only [hend]
          have hrun : ∀ k < l + 1, slots bs (fwd c tgt (m + k)) = .tomb := fun k hk => by
            rw [slots_tomb]
            cases k with
            | zero => exact htomb
            | succ k =>
              have := htombs k (by omega)
              rwa [Nat.add_right_comm, Nat.add_assoc] at this
          have hassoc : m + 1 + l = m + (l + 1) := by omega
          rw [hassoc] at hl hstop ⊢
          have hplace : (m + (l + 1) = c ∨ slots bs (fwd c tgt (m + (l + 1))) = .empty ∨
              ∃ g, slots bs (fwd c tgt (m + (l + 1))) = .full g ∧
                ahead c (fwd c tgt (m + (l + 1))) g < m + (l + 1)) →
              SpotOk c bs key tgt (.place (fwd c tgt m)) := fun h =>
            spotOk_place hb hv ht htc hm hpass hseen' (by simp [isValid, htomb])
              (Bars.of_tombs hb.sorted htc hl hrun h)
          split
          · next hempty => exact hplace (.inr (.inl (slots_eq_empty.2 hempty)))
          · next hne'' =>
            rcases Nat.lt_or_eq_of_le hl with hlt | hlapped
            · have htail := hstop.resolve_left (Nat.ne_of_lt hlt)
              have hvalid : isValid (bs (fwd c tgt (m + (l + 1)))).key = true :=
                isValid_iff.2 ⟨by simpa using hne'', htail⟩
              have hslot := slot_full.2 ⟨hvalid, rfl⟩
              have hi' := fwd_lt htc hl
              have hcont := continueProbe_iff hc htc (hb.sorted.home_lt _ hi' _ hslot) hi'
              rw [ahead_fwd htc hlt] at hcont
              split
              · next hor =>
                refine hplace (.inr (.inr ⟨_, hslot, ?_⟩))
                rcases hor with h | h
                · exact absurd h (fwd_ne_self (by omega) hlt)
                · exact Nat.lt_of_not_le fun hle => by rw [hcont.2 hle] at h; cases h
              · next hor =>
                refine ih _ hlt (by omega) (fun k hk => ?_) fun k hk => ?_
                · by_cases hkm : k < m
                  · exact hpass k hkm
                  · have := hrun (k - m) (by omega)
                    rw [show m + (k - m) = k by omega] at this
                    simp [Continues, this]
                · by_cases hkm : k < m
                  · exact hseen k hkm
                  · have := hrun (k - m) (by omega)
                    rw [show m + (k - m) = k by omega, slots_tomb] at this
                    intro h
                    rw [h, hkey] at this
                    cases this
            · rw [if_pos (.inl (by rw [hlapped, hlap]))]
              exact hplace (.inl hlapped)
        · next hnt' =>
          have hvalid : isValid (bs (fwd c tgt m)).key = true :=
            isValid_iff.2 ⟨by simpa using hne', by simpa using hnt'⟩
          have hslot := slot_full.2 ⟨hvalid, rfl⟩
          have hcont := continueProbe_iff hc htc (hb.sorted.home_lt _ hi _ hslot) hi
          rw [ahead_fwd htc hm] at hcont
          split
          · next hgo =>
            rw [hstep]
            have hpass' : ∀ k < m + 1, Continues c (slots bs) tgt k := fun k hk => by
              rcases Nat.lt_succ_iff_lt_or_eq.1 hk with hk | rfl
              · exact hpass k hk
              · exact (continues_iff hb hc htc hm).2 ⟨by simpa using hne', .inr hgo⟩
            rcases Nat.lt_or_eq_of_le (Nat.succ_le_of_lt hm) with hlt | hlapped
            · simp only [if_neg (fwd_ne_self (Nat.succ_pos m) hlt)]
              exact ih (m + 1) hlt (by omega) hpass' fun k hk => hseen' k (by omega)
            · have hend : fwd c tgt (m + 1) = tgt := by rw [show m + 1 = c from hlapped, hlap]
              simp only [hend, if_true]
              refine ⟨absent_of_le hb hv ht htc (m := c)
                (fun k hk => hseen' k (by omega)) fun j hj _ => ahead_lt htc hj, ?_⟩
              rw [if_pos rfl]
              intro k hk
              exact ((continues_iff hb hc htc hk).1 (hpass' k (by omega))).1
          · next hgo =>
            have hd : ahead c (fwd c tgt m) (bs (fwd c tgt m)).hash < m :=
              Nat.lt_of_not_le fun hle => hgo (hcont.2 hle)
            have hblocks := Bars.of_full hb.sorted hslot hd
            refine ⟨absent_of_le hb hv ht htc (m := m + 1)
                (fun k hk => hseen' k (by omega)) fun j hj hjt =>
              Nat.lt_succ_of_le (hblocks.le hj hjt), ?_⟩
            rw [if_neg (fwd_ne_self (by omega) hm)]
            refine ⟨hvalid, hblocks.admits htc hm hpass fun g hg => ?_⟩
            have := slot_full.1 hg
            rw [← this.2]
            exact Nat.le_of_lt hd

end Probe

/-! ## Inserting -/

/-- The insertion carries no bucket round the table. If the probe of a new key
went round, all buckets have its hash, and none of those moved on is right
before its own hash. -/
def ShiftOk (hash : Key → Nat) (t : HyperTable V) (key : Key) : Prop :=
  ∀ i, probe t.buckets t.capacity key (getTableEntry hash t.capacity key) t.capacity
      (getTableEntry hash t.capacity key) = .shift i →
    if i = getTableEntry hash t.capacity key then
      ∀ j < t.capacity, isValid (t.buckets j).key = true → (t.buckets j).hash = i
    else
      ∀ n < t.capacity, (∀ m ≤ n, isValid (t.buckets (fwd t.capacity i m)).key = true) →
        (t.buckets (fwd t.capacity i n)).hash ≠ incIndex (fwd t.capacity i n) t.capacity

/-- From where on buckets are moved. -/
def Spot.shifted : Spot → Option Nat
  | .overwrite _ | .place _ => none
  | .shift i => some i

instance (hash : Key → Nat) (t : HyperTable V) (key : Key) : Decidable (ShiftOk hash t key) :=
  decidable_of_iff
    (∀ i ∈ (probe t.buckets t.capacity key (getTableEntry hash t.capacity key) t.capacity
        (getTableEntry hash t.capacity key)).shifted,
      if i = getTableEntry hash t.capacity key then
        ∀ j < t.capacity, isValid (t.buckets j).key = true → (t.buckets j).hash = i
      else
        ∀ n < t.capacity, (∀ m ≤ n, isValid (t.buckets (fwd t.capacity i m)).key = true) →
          (t.buckets (fwd t.capacity i n)).hash ≠ incIndex (fwd t.capacity i n) t.capacity) (by
      unfold ShiftOk
      cases probe t.buckets t.capacity key (getTableEntry hash t.capacity key) t.capacity
          (getTableEntry hash t.capacity key) with
      | overwrite i | place i => simp [Spot.shifted]
      | shift i => simp [Spot.shifted])

/-- What an insertion of a bucket makes of a hash table. -/
structure Inserted (hash : Key → Nat) (t : HyperTable V) (b : Bucket V)
    (t' : HyperTable V) : Prop where
  capacity : t'.capacity = t.capacity
  hashed : Hashed hash t.capacity t'.buckets
  has : ∀ k v, isValid k = true →
    (Has t.capacity t'.buckets k v ↔ if k = b.key then v = b.value
      else Has t.capacity t.buckets k v)
  present : ¬ Absent t.capacity t.buckets b.key →
    t'.occupancy = t.occupancy ∧ t'.insRmCount = t.insRmCount ∧
    count isValid t.capacity t'.buckets = count isValid t.capacity t.buckets
  absent : Absent t.capacity t.buckets b.key →
    t'.occupancy = t.occupancy + 1 ∧ t'.insRmCount = t.insRmCount + 1 ∧
    count isValid t.capacity t'.buckets = count isValid t.capacity t.buckets + 1 ∧
    count (fun k => !isEmpty k) t.capacity t'.buckets ≤
    count (fun k => !isEmpty k) t.capacity t.buckets + 1

theorem Has.absent {k : Key} (ha : Absent c bs k) (v : V) : ¬ Has c bs k v := by
  intro h
  obtain ⟨i, hi, hk, -⟩ := h
  exact ha i hi hk

/-- A bucket with a new key takes one that is free. -/
theorem Inserted.of_grown {t : HyperTable V} {b b' : Bucket V} {bs' : Nat → Bucket V} {i : Nat}
    (ha : Absent t.capacity t.buckets b.key) (hv : isValid b.key = true) (hk : b'.key = b.key)
    (hval : b'.value = b.value) (hb : Hashed hash t.capacity bs')
    (hhas : ∀ k v, isValid k = true →
      (Has t.capacity bs' k v ↔ (b'.key = k ∧ b'.value = v) ∨ Has t.capacity t.buckets k v))
    (hfree : isValid (t.buckets i).key = false)
    (hcount : ∀ p : Key → Bool, p b.key = true → (∀ k, isValid k = true → p k = true) →
      count p t.capacity bs' + (p (t.buckets i).key).toNat = count p t.capacity t.buckets + 1) :
    Inserted hash t b (t.grown bs') where
  capacity := rfl
  hashed := hb
  has k v hvk := by
    show Has t.capacity bs' k v ↔ _
    rw [hhas k v hvk, hk, hval]
    split
    · next heq =>
      subst heq
      exact ⟨fun h => h.elim (fun h => h.2.symm) fun h => absurd h (Has.absent ha v),
        fun h => .inl ⟨rfl, h.symm⟩⟩
    · next hne => exact or_iff_right fun h => hne h.1.symm
  present hn := absurd ha hn
  absent _ := by
    have h₁ := hcount isValid hv fun _ h => h
    have h₂ := hcount (fun k => !isEmpty k) (by simpa using (isValid_iff.1 hv).1) fun k h => by
      simpa using (isValid_iff.1 h).1
    rw [hfree] at h₁
    simp only [Bool.toNat_false, Nat.add_zero] at h₁
    exact ⟨rfl, rfl, h₁, by show count _ t.capacity bs' ≤ _; omega⟩

/-- The key's bucket is overwritten. -/
theorem Inserted.of_overwrite {t : HyperTable V} {b : Bucket V} {i : Nat}
    (hb : Hashed hash t.capacity t.buckets)
    (hv : isValid b.key = true) (hic : i < t.capacity) (hki : (t.buckets i).key = b.key) :
    Inserted hash t b
      { t with buckets := Function.update t.buckets i { t.buckets i with value := b.value } } := by
  have hvi : isValid (t.buckets i).key = true := by rw [hki]; exact hv
  have hkey : ∀ j, (Function.update t.buckets i { t.buckets i with value := b.value } j).key =
    (t.buckets j).key := fun j => by
      by_cases hji : j = i
      · subst hji; simp
      · rw [Function.update_of_ne hji]
  have hhash : ∀ j, (Function.update t.buckets i { t.buckets i with value := b.value } j).hash =
    (t.buckets j).hash := fun j => by
      by_cases hji : j = i
      · subst hji; simp
      · rw [Function.update_of_ne hji]
  have hslots : slots (Function.update t.buckets i { t.buckets i with value := b.value }) =
      slots t.buckets := by
    funext j
    simp only [slots, slot, hkey, hhash]
  refine ⟨rfl, ⟨by rw [hslots]; exact hb.sorted, fun j hj hvj => ?_, fun j hj k hk hvj hjk => ?_⟩,
    fun k v _ => ?_,
    fun _ => ⟨rfl, rfl, by simp only [count, hkey]⟩, fun ha => absurd hki (ha i hic)⟩
  · rw [hkey] at hvj
    rw [hkey, hhash]
    exact hb.home j hj hvj
  · rw [hkey] at hvj hjk
    rw [hkey] at hjk
    exact hb.distinct j hj k hk hvj hjk
  · split
    · next heq =>
      constructor
      · intro h
        obtain ⟨j, hj, hkj, hvj⟩ := h
        rw [hkey] at hkj
        obtain rfl := hb.distinct i hic j hj hvi (by rw [hki, hkj, heq])
        simpa using hvj.symm
      · intro h
        exact ⟨i, hic, by simp [hki, heq], by simp [h]⟩
    · next hne =>
      have hki' : (t.buckets i).key ≠ k := fun h => hne (by rw [← h, hki])
      rw [has_update hic v hki']
      exact or_iff_right fun h => hki' h.1

/-- The first bucket that is free, from `i` on. -/
theorem exists_first_free {i : Nat} (hi : i < c) (hroom : count isValid c bs < c) :
    ∃ m < c, isValid (bs (fwd c i m)).key = false ∧
    ∀ k < m, isValid (bs (fwd c i k)).key = true := by
  obtain ⟨j, hj, hfree⟩ := exists_not_of_count hroom
  have hex : ∃ m, isValid (bs (fwd c i m)).key = false :=
    ⟨ahead c j i, by rw [fwd_ahead hi hj]; exact hfree⟩
  have hle : Nat.find hex ≤ ahead c j i := Nat.find_le (by rw [fwd_ahead hi hj]; exact hfree)
  refine ⟨Nat.find hex, Nat.lt_of_le_of_lt hle (ahead_lt hi hj), Nat.find_spec hex, fun k hk => ?_⟩
  cases hvk : isValid (bs (fwd c i k)).key with
  | true => rfl
  | false => exact absurd hvk (Nat.find_min hex hk)

/-- The bucket is put where its probe ended, and those there are shifted. -/
theorem shift_spec {t : HyperTable V} {b : Bucket V} {tgt i : Nat}
    (hb : Hashed hash t.capacity t.buckets)
    (hv : isValid b.key = true) (htgt : tgt = getTableEntry hash t.capacity b.key)
    (htc : tgt < t.capacity)
    (hroom : count isValid t.capacity t.buckets < t.capacity)
    (hspot : SpotOk t.capacity t.buckets b.key tgt (.shift i))
    (hok : if i = tgt then ∀ j < t.capacity, isValid (t.buckets j).key = true →
      (t.buckets j).hash = i
      else ∀ n < t.capacity, (∀ m ≤ n, isValid (t.buckets (fwd t.capacity i m)).key = true) →
        (t.buckets (fwd t.capacity i n)).hash ≠ incIndex (fwd t.capacity i n) t.capacity) :
    ∃ bs', shiftIn t.capacity i t.capacity t.buckets i { b with hash := tgt } = (true, bs') ∧
      Inserted hash t b (t.grown bs') := by
  obtain ⟨ha, hspot⟩ := hspot
  have hfits : Admits t.capacity (slots t.buckets) tgt i := by
    split at hspot
    · next h =>
      rw [if_pos h] at hok
      rw [h]
      refine .of_same htc fun j hj g hg => ?_
      obtain ⟨hvj, rfl⟩ := slot_full.1 hg
      rw [hok j hj hvj, h]
    · exact hspot.2
  have hit := hfits.lt
  obtain ⟨m, hmc, hfree, hrun⟩ := exists_first_free hit hroom
  have hround : ∀ k < m,
      ahead t.capacity (fwd t.capacity i k) (t.buckets (fwd t.capacity i k)).hash +
      1 < t.capacity := fun k hk => by
    have hik := fwd_lt hit (Nat.le_of_lt (Nat.lt_trans hk hmc))
    split at hok
    · rw [hok _ hik (hrun k hk), ahead_fwd hit (by omega)]
      omega
    · have hlt := hb.sorted.home_lt _ hik _ (slot_full.2 ⟨hrun k hk, rfl⟩)
      have hne := hok k (by omega) fun m' hm' => hrun m' (by omega)
      rw [incIndex_eq_fwd hik] at hne
      exact ahead_succ_lt_of_ne hlt hik hne
  obtain ⟨bs', hshift, hb', hhas, hcount⟩ :=
    shiftIn_spec m hmc _ _ { b with hash := tgt } hb hv htgt hfits ha hmc hfree
      (fun k hk => ⟨hrun k hk, hround k hk⟩)
      fun k hk => fwd_ne_self (Nat.succ_pos k) (by omega)
  exact ⟨bs', hshift, .of_grown ha hv rfl rfl hb' hhas hfree fun p hp hpv => hcount p hp fun k hk =>
    hpv _ (hrun k hk)⟩

/-- **Inserting into the hash table.** -/
theorem insertHash_spec {t : HyperTable V} {b : Bucket V} (hb : Hashed hash t.capacity t.buckets)
    (hc : t.capacity ≤ 2 ^ 32) (hv : isValid b.key = true)
    (hroom : count isValid t.capacity t.buckets < t.capacity) (hok : ShiftOk hash t b.key) :
    ∃ t', t.insertHash hash b = (true, t') ∧ Inserted hash t b t' := by
  have htc := getTableEntry_lt hash (Nat.lt_of_le_of_lt (Nat.zero_le _) hroom) b.key
  unfold ShiftOk at hok
  unfold insertHash
  generalize htgt : getTableEntry hash t.capacity b.key = tgt at htc hok
  have hplace : ∀ i, SpotOk t.capacity t.buckets b.key tgt (.place i) →
      Inserted hash t b (t.grown (Function.update t.buckets i { b with hash := tgt })) := by
    intro i h
    obtain ⟨hfree, hf, ha⟩ := h
    refine .of_grown ha hv rfl rfl (hb.put hv htgt.symm hf ha)
      (fun k v hk => ?_) hfree fun p hp _ => ?_
    · exact has_update hf.lt v (ne_of_isValid hfree hk)
    · have := count_update p t.buckets { b with hash := tgt } hf.lt
      simpa [hp] using this
  have hzero : fwd t.capacity tgt 0 = tgt := fwd_zero htc
  simp only
  split
  · next hempty =>
    refine ⟨_, rfl, hplace tgt ?_⟩
    have hne : (t.buckets tgt).key ≠ b.key := fun h => by
      rw [h, (isValid_iff.1 hv).1] at hempty
      cases hempty
    have := spotOk_place hb hv htgt.symm htc (m := 0) (by omega) (by simp)
      (fun k hk => by rw [Nat.le_zero.1 hk, hzero]; exact hne) (by simp [hzero, isValid, hempty])
      (Bars.of_empty hb.sorted (by rw [hzero]; exact slots_eq_empty.2 hempty))
    rwa [hzero] at this
  · have hspot :=
      probe_spec hb hc hv htgt.symm htc t.capacity 0 (by omega) (by omega) (by simp) (by simp)
    rw [hzero] at hspot
    split
    · next i hi =>
      rw [hi] at hspot
      exact ⟨_, rfl, .of_overwrite hb hv hspot.1 hspot.2⟩
    · next i hi =>
      rw [hi] at hspot
      exact ⟨_, rfl, hplace i hspot⟩
    · next i hi =>
      rw [hi] at hspot
      obtain ⟨bs', hshift, hins⟩ := shift_spec hb hv htgt.symm htc hroom hspot (hok i hi)
      rw [hshift]
      exact ⟨_, rfl, hins⟩

end Cilksan.HyperTable
