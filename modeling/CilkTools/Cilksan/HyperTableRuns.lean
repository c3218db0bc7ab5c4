/-
The hash table is a finite map: small tables and hash tables hold what was
inserted last under each key, a rebuild keeps it, and so does every run in
which no insertion carries a bucket round the table.
-/
import CilkTools.Cilksan.HyperTableSpec
import Mathlib.Data.List.Induction
import Mathlib.Data.List.Infix
import Mathlib.Tactic.FinCases

namespace Cilksan.HyperTable

open OrderedProbing

variable {V : Type} {hash : Key → Nat}

theorem isOverloaded_iff {o c : Nat} : isOverloaded o c = true ↔ 15 * c / 16 < o :=
  decide_eq_true_iff

theorem isUnderloaded_iff {o c : Nat} : isUnderloaded o c = true ↔ 4 < c ∧ o ≤ 7 * c / 16 := by
  rw [isUnderloaded, Bool.and_eq_true, decide_eq_true_iff, decide_eq_true_iff]
  rfl

theorem timeToRebuild_neg {n : Int} {c : Nat} (h : n ≤ 8) : timeToRebuild n c = false := by
  rw [timeToRebuild, Bool.and_eq_false_iff, decide_eq_false_iff_not]
  exact .inl (Int.not_lt.2 h)

/-! ## Tables -/

/-- A small table is filled from the front, a larger one is a hash table. -/
structure Good (hash : Key → Nat) (t : HyperTable V) : Prop where
  capacity : ∃ k, t.capacity = 4 * 2 ^ k
  occupied : count isValid t.capacity t.buckets = t.occupancy
  distinct : ∀ i < t.capacity, ∀ j < t.capacity, isValid (t.buckets i).key = true →
    (t.buckets i).key = (t.buckets j).key → i = j
  small : t.capacity < 8 → ∀ i < t.capacity, isValid (t.buckets i).key = true ↔ i < t.occupancy
  hashed : 8 ≤ t.capacity → Hashed hash t.capacity t.buckets
  load : 8 ≤ t.capacity → t.occupancy ≤ 15 * t.capacity / 16 + 1

namespace Good

variable {t : HyperTable V}

theorem small_or (hg : Good hash t) :
    t.capacity = 4 ∨ 8 ≤ t.capacity ∧ 2 * (t.capacity / 2) = t.capacity ∧
    ∃ k, t.capacity / 2 = 4 * 2 ^ k := by
  obtain ⟨k, hk⟩ := hg.capacity
  cases k with
  | zero => exact .inl (by simpa using hk)
  | succ k =>
    have : 0 < 2 ^ k := Nat.pow_pos (by decide)
    rw [Nat.pow_succ] at hk
    exact .inr ⟨by omega, by omega, k, by omega⟩

theorem double (hg : Good hash t) : ∃ k, t.capacity * 2 = 4 * 2 ^ k := by
  obtain ⟨k, hk⟩ := hg.capacity
  exact ⟨k + 1, by rw [hk, Nat.pow_succ, Nat.mul_assoc]⟩

theorem occupancy_le (hg : Good hash t) : t.occupancy ≤ t.capacity := by
  rw [← hg.occupied]
  exact (List.countP_le_length).trans (by simp)

theorem of_hashed (hcap : ∃ k, t.capacity = 4 * 2 ^ k) (h8 : 8 ≤ t.capacity)
    (hc : count isValid t.capacity t.buckets = t.occupancy) (hb : Hashed hash t.capacity t.buckets)
    (hl : t.occupancy ≤ 15 * t.capacity / 16 + 1) : Good hash t :=
  ⟨hcap, hc, hb.distinct, fun h => by omega, fun _ => hb, fun _ => hl⟩

/-- A bucket inserted into a hash table that is not too full. -/
theorem inserted {t' : HyperTable V} {b : Bucket V} (hg : Good hash t) (h8 : 8 ≤ t.capacity)
    (hroom : t.occupancy ≤ 15 * t.capacity / 16) (hi : Inserted hash t b t') : Good hash t' := by
  have hcap := hi.capacity
  obtain ⟨hc, hl⟩ : count isValid t.capacity t'.buckets = t'.occupancy ∧
      t'.occupancy ≤ t.occupancy + 1 := by
    by_cases ha : Absent t.capacity t.buckets b.key
    · obtain ⟨ho, -, hc, -⟩ := hi.absent ha
      exact ⟨by rw [hc, ho, hg.occupied], by omega⟩
    · obtain ⟨ho, -, hc⟩ := hi.present ha
      exact ⟨by rw [hc, ho, hg.occupied], by omega⟩
  exact .of_hashed (by rw [hcap]; exact hg.capacity) (by omega) (by rw [hcap]; exact hc)
    (by rw [hcap]; exact hi.hashed) (by rw [hcap]; omega)

/-- The value of a key is that of its only bucket. -/
theorem has_unique {key : Key} {v w : V} (hg : Good hash t) (hv : isValid key = true)
    (h₁ : Has t.capacity t.buckets key v) (h₂ : Has t.capacity t.buckets key w) : v = w := by
  obtain ⟨i, hi, hki, rfl⟩ := h₁
  obtain ⟨j, hj, hkj, rfl⟩ := h₂
  rw [hg.distinct i hi j hj (by rw [hki]; exact hv) (by rw [hki, hkj])]

end Good

/-! ## Small tables -/

section Linear

variable {t : HyperTable V} {b : Bucket V} {key : Key}

theorem findLinear_some {bs : Nat → Bucket V} {i : Nat} (n : Nat)
    (h : findLinear bs key n = some i) : i < n ∧ (bs i).key = key := by
  induction n with
  | zero => cases h
  | succ n ih =>
    rw [findLinear] at h
    split at h
    · next hk =>
      cases h
      exact ⟨Nat.lt_succ_self _, hk⟩
    · obtain ⟨hi, hk⟩ := ih h
      exact ⟨Nat.lt_succ_of_lt hi, hk⟩

theorem findLinear_none {bs : Nat → Bucket V} (n : Nat) (h : findLinear bs key n = none) :
    Absent n bs key := by
  induction n with
  | zero =>
    intro i hi
    omega
  | succ n ih =>
    rw [findLinear] at h
    split at h
    · cases h
    · next hk =>
      intro i hi
      rcases Nat.lt_succ_iff_lt_or_eq.1 hi with hi | rfl
      · exact ih h i hi
      · exact hk

theorem range_find (bs : Nat → Bucket V) (key : Key) (n : Nat) :
    (∃ i < n, (bs i).key = key ∧ ((List.range n).find? fun i => (bs i).key = key) = some i) ∨
      Absent n bs key ∧ ((List.range n).find? fun i => (bs i).key = key) = none := by
  cases h : (List.range n).find? fun i => (bs i).key = key with
  | some i =>
    have hk := List.find?_some h
    have hi := List.mem_of_find?_eq_some h
    exact .inl ⟨i, List.mem_range.1 hi, by simpa using hk, rfl⟩
  | none =>
    refine .inr ⟨fun i hi hk => ?_, rfl⟩
    exact absurd hk (by simpa using List.find?_eq_none.1 h i (List.mem_range.2 hi))

/-- A key is in a small table only below its occupancy. -/
theorem Good.absent_small (hg : Good hash t) (hs : t.capacity < 8) (hv : isValid key = true)
    (ha : Absent t.occupancy t.buckets key) : Absent t.capacity t.buckets key := by
  intro i hi hk
  have hlt := (hg.small hs i hi).1 (by rw [hk]; exact hv)
  exact ha i hlt hk

/-- A bucket takes the place of one with its key, or of one that is free. -/
theorem Good.update (hg : Good hash t) (hs : t.capacity < 8) (hv : isValid b.key = true) {i n : Nat}
    (hi : i < t.capacity) (hfree : (t.buckets i).key = b.key ∧ n = t.occupancy ∨
      Absent t.capacity t.buckets b.key ∧ i = t.occupancy ∧ n = t.occupancy + 1) :
    Good hash { t with buckets := Function.update t.buckets i b, occupancy := n } := by
  have hcount := count_update isValid t.buckets b hi
  rw [hg.occupied, hv] at hcount
  have hvi : isValid (t.buckets i).key = decide (i < t.occupancy) := by
    rw [Bool.eq_iff_iff, hg.small hs i hi, decide_eq_true_iff]
  refine ⟨hg.capacity, ?_, fun j hj k hk hvj hjk => ?_, fun _ j hj => ?_,
    fun h => by simp only at h; omega, fun h => by simp only at h; omega⟩
  · rcases hfree with ⟨hk, rfl⟩ | ⟨-, rfl, rfl⟩
    · rw [hk, hv] at hcount
      simpa using hcount
    · rw [hvi] at hcount
      simpa using hcount
  · have hother : ∀ l < t.capacity, l ≠ i → (t.buckets l).key = b.key →
        False := fun l hl hli hkl => by
      rcases hfree with ⟨hk, -⟩ | ⟨ha, -⟩
      · exact hli (hg.distinct l hl i hi (by rw [hkl]; exact hv) (by rw [hkl, hk]))
      · exact ha l hl hkl
    simp only at hvj hjk
    by_cases hji : j = i
    · subst hji
      by_contra hne
      rw [Function.update_self, Function.update_of_ne (Ne.symm hne)] at hjk
      exact hother k hk (Ne.symm hne) hjk.symm
    · by_cases hki : k = i
      · subst hki
        rw [Function.update_self, Function.update_of_ne hji] at hjk
        exact (hother j hj hji hjk).elim
      · rw [Function.update_of_ne hji] at hvj hjk
        rw [Function.update_of_ne hki] at hjk
        exact hg.distinct j hj k hk hvj hjk
  · by_cases hji : j = i
    · subst hji
      simp only [Function.update_self, hv, true_iff]
      rcases hfree with ⟨hk, rfl⟩ | ⟨-, rfl, rfl⟩
      · exact (hg.small hs j hj).1 (by rw [hk]; exact hv)
      · exact Nat.lt_succ_self _
    · simp only [Function.update_of_ne hji]
      rw [hg.small hs j hj]
      rcases hfree with ⟨-, rfl⟩ | ⟨-, rfl, rfl⟩
      · rfl
      · omega

/-- What an insertion does to the contents. -/
def Puts (b : Bucket V) (has has' : Key → V → Prop) : Prop :=
  ∀ k v, isValid k = true → (has' k v ↔ if k = b.key then v = b.value else has k v)

theorem insertLinear_spec (hg : Good hash t) (hs : t.capacity < 8) (hlt : t.occupancy < t.capacity)
    (hv : isValid b.key = true) :
    Good hash (t.insertLinear b) ∧ (t.insertLinear b).capacity = t.capacity ∧
      (t.insertLinear b).insRmCount = t.insRmCount ∧
      Puts b (Has t.capacity t.buckets) (Has t.capacity (t.insertLinear b).buckets) ∧
      (Absent t.capacity t.buckets b.key → (t.insertLinear b).occupancy = t.occupancy + 1) := by
  rcases range_find t.buckets b.key t.occupancy with ⟨i, hi, hk, hfind⟩ | ⟨ha, hfind⟩
  · have hic : i < t.capacity := by omega
    have heq : t.insertLinear b = { t with buckets := Function.update t.buckets i b } := by
      simp only [insertLinear, hfind]
    rw [heq]
    refine ⟨hg.update hs hv hic (.inl ⟨hk, rfl⟩), rfl, rfl, fun k v hvk => ?_,
      fun ha => absurd hk (ha i hic)⟩
    split
    · next hkb =>
      subst hkb
      constructor
      · intro h
        obtain ⟨j, hj, hkj, hvj⟩ := h
        by_cases hji : j = i
        · subst hji
          simpa using hvj.symm
        · simp only [Function.update_of_ne hji] at hkj
          exact absurd (hg.distinct j hj i hic (by rw [hkj]; exact hv) (by rw [hkj, hk])) hji
      · intro h
        exact ⟨i, hic, by simp, by simp [h]⟩
    · next hne =>
      have hki : (t.buckets i).key ≠ k := fun h => hne (by rw [← h, hk])
      rw [has_update hic v hki]
      exact or_iff_right fun h => hne h.1.symm
  · have ha' := hg.absent_small hs hv ha
    have heq : t.insertLinear b = { t with
        buckets := Function.update t.buckets t.occupancy b, occupancy := t.occupancy + 1 } := by
      simp only [insertLinear, hfind]
    rw [heq]
    refine ⟨hg.update hs hv hlt (.inr ⟨ha', rfl, rfl⟩), rfl, rfl, fun k v hvk => ?_, fun _ => rfl⟩
    have hfree : isValid (t.buckets t.occupancy).key = false := by
      rw [Bool.eq_false_iff, Ne, hg.small hs _ hlt]
      exact Nat.lt_irrefl _
    rw [has_update hlt v (ne_of_isValid hfree hvk)]
    split
    · next hkb =>
      subst hkb
      exact ⟨fun h => h.elim (fun h => h.2.symm) fun h => absurd h (Has.absent ha' v),
        fun h => .inl ⟨rfl, h.symm⟩⟩
    · next hne => exact or_iff_right fun h => hne h.1.symm

/-- What a removal does to the contents. -/
def Drops (key : Key) (has has' : Key → V → Prop) : Prop :=
  ∀ k v, isValid k = true → (has' k v ↔ k ≠ key ∧ has k v)

theorem Drops.of_absent {c : Nat} {bs : Nat → Bucket V} (ha : Absent c bs key) :
    Drops key (Has c bs) (Has c bs) := by
  intro k v _
  refine ⟨fun h => ⟨fun hk => ?_, h⟩, And.right⟩
  subst hk
  exact Has.absent ha v h

theorem count_of_small {c n : Nat} {bs : Nat → Bucket V} (hn : n ≤ c)
    (h : ∀ i < c, isValid (bs i).key = true ↔ i < n) : count isValid c bs = n := by
  have hc : ∀ m ≤ c, count isValid m bs = min m n := fun m hm => by
    induction m with
    | zero => simp [count]
    | succ m ih =>
      have hsucc : count isValid (m + 1) bs = count isValid m bs + (isValid (bs m).key).toNat := by
        simp only [count, List.range_succ, List.countP_append, List.countP_singleton]
        cases isValid (bs m).key <;> simp
      have hv :
          isValid (bs m).key = decide (m < n) := by rw [Bool.eq_iff_iff, h m hm, decide_eq_true_iff]
      rw [hsucc, ih (by omega), hv]
      by_cases hmn : m < n
      · simp only [hmn, decide_true, Bool.toNat_true]
        omega
      · simp only [hmn, decide_false, Bool.toNat_false]
        omega
  rw [hc c (Nat.le_refl c)]
  omega

/-- A bucket is freed, the last one having taken its place. -/
theorem Good.swapOut (hg : Good hash t) (hs : t.capacity < 8) (hv : isValid key = true)
    {i last : Nat}
    (bs : Nat → Bucket V) (hocc : t.occupancy = last + 1) (hi : i < t.occupancy)
    (hk : (t.buckets i).key = key)
    (hlast : isValid (bs last).key = false)
    (hbs : ∀ j ≠ last, bs j = t.buckets (if j = i then last else j)) :
    Good hash { t with buckets := bs, occupancy := last } ∧
      Drops key (Has t.capacity t.buckets) (Has t.capacity bs) := by
  have hle := hg.occupancy_le
  have hsmall : ∀ j < t.capacity, isValid (bs j).key = true ↔ j < last := fun j hj => by
    by_cases hjl : j = last
    · subst hjl
      simp [hlast]
    · rw [hbs j hjl, hg.small hs _ (by split <;> omega)]
      split <;> omega
  have hne : ∀ {j}, isValid (bs j).key = true → j ≠ last := fun {j} hvj h => by
    rw [h, hlast] at hvj
    cases hvj
  refine ⟨⟨hg.capacity, count_of_small (show last ≤ t.capacity by omega) hsmall,
      fun j hj k hkc hvj hjk => ?_, fun _ => hsmall,
    fun h => by simp only at h; omega, fun h => by simp only at h; omega⟩,
    fun k v hvk => ⟨fun h => ?_, fun h => ?_⟩⟩
  · have hjl := hne hvj
    have hkl := hne (j := k) (by rw [← hjk]; exact hvj)
    simp only [hbs j hjl, hbs k hkl] at hvj hjk
    have := hg.distinct _ (by split <;> omega) _ (by split <;> omega) hvj hjk
    split at this <;> split at this <;> omega
  · obtain ⟨j, hj, hkj, hvalj⟩ := h
    have hjl := hne (j := j) (by rw [hkj]; exact hvk)
    rw [hbs j hjl] at hkj hvalj
    refine ⟨fun hkk => ?_, _, by split <;> omega, hkj, hvalj⟩
    have := hg.distinct i (by omega) (if j = i then last else j) (by split <;> omega)
      (by rw [hk]; exact hv) (by rw [hk, hkj, hkk])
    split at this <;> omega
  · obtain ⟨hkk, j, hj, hkj, hvalj⟩ := h
    have hjo := (hg.small hs j hj).1 (by rw [hkj]; exact hvk)
    have hji : j ≠ i := fun h => hkk (by rw [← hkj, h, hk])
    by_cases hjl : j = last
    · exact ⟨i, by omega, by rw [hbs i (by omega), if_pos rfl, ← hjl]; exact ⟨hkj, hvalj⟩⟩
    · exact ⟨j, hj, by rw [hbs j hjl, if_neg hji]; exact ⟨hkj, hvalj⟩⟩

theorem removeLinear_spec (hg : Good hash t) (hs : t.capacity < 8) (hv : isValid key = true) :
    ∃ r t', t.removeLinear key = (r, t') ∧ Good hash t' ∧ t'.capacity = t.capacity ∧
      (r = true ↔ ¬ Absent t.capacity t.buckets key) ∧
      Drops key (Has t.capacity t.buckets) (Has t.capacity t'.buckets) := by
  rcases range_find t.buckets key t.occupancy with ⟨i, hi, hk, hfind⟩ | ⟨ha, hfind⟩
  · have hle := hg.occupancy_le
    obtain ⟨last, hocc⟩ :=
      Nat.exists_eq_succ_of_ne_zero (Nat.ne_of_gt (Nat.lt_of_le_of_lt (Nat.zero_le i) hi))
    have hlast : t.occupancy - 1 = last := by omega
    simp only [removeLinear, hfind, hlast]
    refine ⟨true, _, rfl, ?_⟩
    obtain ⟨hgood, hdrops⟩ := hg.swapOut hs hv (Function.update
      (if i = last then t.buckets else Function.update t.buckets i (t.buckets last)) last
      { (if i = last then t.buckets else Function.update t.buckets i (t.buckets last)) last
          with key := KEY_EMPTY })
      hocc hi hk (by rw [Function.update_self]; rfl) fun j hj => by
        rw [Function.update_of_ne hj]
        by_cases hil : i = last
        · rw [if_pos hil, if_neg (by omega)]
        · rw [if_neg hil]
          by_cases hji : j = i
          · subst hji; simp
          · rw [Function.update_of_ne hji, if_neg hji]
    exact ⟨hgood, rfl, iff_of_true rfl fun ha => ha i (by omega) hk, hdrops⟩
  · have ha' := hg.absent_small hs hv ha
    exact ⟨false, t, by simp only [removeLinear, hfind], hg, rfl,
      iff_of_false (by simp) (by simpa using ha'), .of_absent ha'⟩

end Linear

/-! ## Finding -/

/-- The bucket found has the key, and if none is found no bucket has. -/
theorem find_spec {t : HyperTable V} {key : Key} (hg : Good hash t) (hc : t.capacity ≤ 2 ^ 32)
    (hv : isValid key = true) :
    (∃ i < t.capacity, t.find hash key = some i ∧ (t.buckets i).key = key) ∨
      t.find hash key = none ∧ Absent t.capacity t.buckets key := by
  rcases hg.small_or with h4 | ⟨h8, -, -⟩
  · have hs : t.capacity < 8 := by omega
    have hle := hg.occupancy_le
    have hfind : t.find hash key = findLinear t.buckets key t.occupancy := if_pos hs
    rw [hfind]
    cases h : findLinear t.buckets key t.occupancy with
    | some i =>
      obtain ⟨hi, hk⟩ := findLinear_some _ h
      exact .inl ⟨i, by omega, rfl, hk⟩
    | none => exact .inr ⟨rfl, hg.absent_small hs hv (findLinear_none _ h)⟩
  · have htc := getTableEntry_lt hash (c := t.capacity) (by omega) key
    have hfind :
        t.find hash key =
        findFrom t.buckets t.capacity key (getTableEntry hash t.capacity key) t.capacity
        (getTableEntry hash t.capacity key) := if_neg (Nat.not_lt.2 h8)
    rw [hfind]
    cases h : findFrom t.buckets t.capacity key (getTableEntry hash t.capacity key) t.capacity
        (getTableEntry hash t.capacity key) with
    | some i =>
      obtain ⟨hi, hk⟩ := findFrom_some _ _ htc h
      exact .inl ⟨i, hi, rfl, hk⟩
    | none =>
      refine .inr ⟨rfl, fun j hj hk => ?_⟩
      have := findFrom_spec (hg.hashed h8) hc hv rfl hj hk t.capacity 0 (Nat.zero_le _) (by omega)
      rw [fwd_zero htc, h] at this
      cases this

/-! ## Rebuilding -/

/-- With a bucket empty, no insertion goes round the table. -/
theorem shiftOk_of_empty {t : HyperTable V} {key : Key} {e : Nat}
    (hb : Hashed hash t.capacity t.buckets)
    (hc : t.capacity ≤ 2 ^ 32) (hv : isValid key = true) (he : e < t.capacity)
    (hempty : isEmpty (t.buckets e).key = true) : ShiftOk hash t key := by
  intro i hi
  have htc := getTableEntry_lt hash (c := t.capacity) (by omega) key
  have hspot := probe_spec hb hc hv rfl htc t.capacity 0 (by omega) (by omega) (by simp) (by simp)
  rw [fwd_zero htc, hi] at hspot
  have hround := hspot.2
  split at hround
  · have := hround (ahead t.capacity e (getTableEntry hash t.capacity key)) (ahead_lt htc he)
    rw [fwd_ahead htc he, hempty] at this
    cases this
  · next hne =>
    rw [if_neg hne]
    intro n hn hrun heq
    have hik := fwd_lt hround.2.lt (Nat.le_of_lt hn)
    have := hb.sorted.ahead_succ_lt hik (slot_full.2 ⟨hrun n (Nat.le_refl n), rfl⟩) he
      (slots_eq_empty.2 hempty)
    rw [heq, incIndex_eq_fwd hik, ahead_fwd_one hik] at this
    omega

theorem count_succ (p : Key → Bool) (n : Nat) (bs : Nat → Bucket V) :
    count p (n + 1) bs = count p n bs + (p (bs n).key).toNat := by
  simp only [count, List.range_succ, List.countP_append, List.countP_singleton]
  cases p (bs n).key <;> simp

theorem count_mono (p : Key → Bool) {m n : Nat} (bs : Nat → Bucket V) (h : m ≤ n) :
    count p m bs ≤ count p n bs := by
  induction n with
  | zero =>
    obtain rfl : m = 0 := by omega
    exact Nat.le_refl _
  | succ n ih =>
    rcases Nat.lt_or_eq_of_le h with h | rfl
    · have := ih (Nat.le_of_lt_succ h)
      rw [count_succ]
      omega
    · exact Nat.le_refl _

section

variable [Inhabited V]

theorem buryStep_spec (n : Nat) :
    ((List.range n).foldl buryStep ((fun _ => default : Nat → Bucket V), 0)).2 = n % 33 ∧
      ∀ i, (((List.range n).foldl buryStep ((fun _ => default : Nat → Bucket V), 0)).1 i).key =
        if i < n ∧ i % 33 = 32 then KEY_DELETED else KEY_EMPTY := by
  induction n with
  | zero => exact ⟨rfl, fun i => by simp [default]⟩
  | succ n ih =>
    obtain ⟨hidx, hkey⟩ := ih
    rw [List.range_succ, List.foldl_append, List.foldl_cons, List.foldl_nil]
    generalize (List.range n).foldl buryStep ((fun _ => default : Nat → Bucket V), 0) =
      s at hidx hkey
    simp only [buryStep, LOAD_FACTOR_CONSTANT, hidx]
    by_cases hn : n % 33 = 32
    · rw [if_pos (by omega)]
      refine ⟨by simp only; omega, fun i => ?_⟩
      by_cases hin : i = n
      · subst hin
        simp [Bucket.makeTombstone, hn]
      · simp only [Function.update_of_ne hin, hkey]
        congr 1
        simp only [eq_iff_iff]
        omega
    · rw [if_neg (by omega)]
      refine ⟨by simp only; omega, fun i => ?_⟩
      simp only [hkey]
      congr 1
      simp only [eq_iff_iff]
      constructor
      · exact fun h => ⟨by omega, h.2⟩
      · refine fun h => ⟨?_, h.2⟩
        rcases Nat.lt_succ_iff_lt_or_eq.1 h.1 with h' | rfl
        · exact h'
        · exact absurd h.2 hn

theorem bucketArrayCreate_key (n i : Nat) : ((bucketArrayCreate n : Nat → Bucket V) i).key =
    if 8 ≤ n ∧ i < n ∧ i % 33 = 32 then KEY_DELETED else KEY_EMPTY := by
  unfold bucketArrayCreate
  split
  · next h =>
    rw [if_neg fun hn => absurd hn.1 (Nat.not_le.2 h)]
    rfl
  · next h =>
    have h8 : 8 ≤ n := Nat.not_lt.1 h
    simp only [(buryStep_spec n).2 i, h8, true_and]

theorem not_isValid_created (n i : Nat) :
    isValid ((bucketArrayCreate n : Nat → Bucket V) i).key = false := by
  rw [bucketArrayCreate_key]
  split <;> decide

/-- One in 33 buckets of a new hash table is a tombstone. -/
theorem count_created (n : Nat) :
    count (fun k => !isEmpty k) n (bucketArrayCreate n : Nat → Bucket V) ≤ n / 33 := by
  have hm : ∀ m, count (fun k => !isEmpty k) m (bucketArrayCreate n : Nat → Bucket V) ≤
      m / 33 := fun m => by
    induction m with
    | zero => simp [count]
    | succ m ih =>
      rw [count_succ, bucketArrayCreate_key]
      split
      · next h =>
        have : (!isEmpty KEY_DELETED).toNat = 1 := by decide
        rw [this]
        omega
      · have : (!isEmpty KEY_EMPTY).toNat = 0 := by decide
        rw [this]
        omega
  exact hm n

theorem Good.created (hash : Key → Nat) {c : Nat} (hcap : ∃ k, c = 4 * 2 ^ k) (r : Int) :
    Good hash { capacity := c, occupancy := 0, insRmCount := r,
                buckets := (bucketArrayCreate c : Nat → Bucket V) } := by
  have hno := not_isValid_created (V := V) c
  have hcount : count isValid c (bucketArrayCreate c : Nat → Bucket V) = 0 :=
    count_of_small (Nat.zero_le c) fun i _ => by simp [hno]
  have hdist : ∀ i < c, ∀ j < c, isValid ((bucketArrayCreate c : Nat → Bucket V) i).key = true →
      ((bucketArrayCreate c : Nat → Bucket V) i).key = ((bucketArrayCreate c : Nat →
        Bucket V) j).key → i = j :=
    fun i _ _ _ h => by
      rw [hno] at h
      cases h
  refine ⟨hcap, hcount, hdist, fun _ i _ => by simp [hno],
    fun _ => ⟨.of_not_full fun i _ g hg => ?_, fun i _ h => ?_, hdist⟩, fun _ => Nat.zero_le _⟩
  · have := (slot_full.1 hg).1
    rw [hno] at this
    cases this
  · simp only [hno] at h
    cases h

/-! ### The buckets are inserted one by one -/

omit [Inhabited V] in
theorem makeRoom_eq_self {t : HyperTable V} (r : HyperTable V → Nat → Option (HyperTable V))
    (h8 : 8 ≤ t.capacity)
    (ho : isOverloaded t.occupancy t.capacity = false)
    (ht : timeToRebuild t.insRmCount t.capacity = false) : makeRoom r t = some t := by
  have : ¬ t.capacity < MIN_HT_CAPACITY := Nat.not_lt.2 h8
  simp [makeRoom, this, ho, ht]

/-- The new table once the first `m` buckets of `t` are in it. -/
structure Rebuilt (hash : Key → Nat) (t : HyperTable V) (newCapacity m : Nat)
    (new : HyperTable V) : Prop where
  good : Good hash new
  capacity : new.capacity = newCapacity
  occupancy : new.occupancy = count isValid m t.buckets
  insRmCount : new.insRmCount ≤ -t.occupancy + count isValid m t.buckets
  has : ∀ k v, isValid k = true → (Has newCapacity new.buckets k v ↔ Has m t.buckets k v)
  used : 8 ≤ newCapacity →
    count (fun k => !isEmpty k) newCapacity new.buckets ≤ newCapacity / 33 +
    count isValid m t.buckets

omit [Inhabited V] in
theorem has_succ {m : Nat} {bs : Nat → Bucket V} (k : Key) (v : V) :
    Has (m + 1) bs k v ↔ ((bs m).key = k ∧ (bs m).value = v) ∨ Has m bs k v := by
  constructor
  · intro h
    obtain ⟨i, hi, h⟩ := h
    rcases Nat.lt_succ_iff_lt_or_eq.1 hi with hi | rfl
    · exact .inr ⟨i, hi, h⟩
    · exact .inl h
  · intro h
    rcases h with h | ⟨i, hi, h⟩
    · exact ⟨m, Nat.lt_succ_self m, h⟩
    · exact ⟨i, Nat.lt_succ_of_lt hi, h⟩

theorem Rebuilt.init {t : HyperTable V} {newCapacity : Nat} (hcap : ∃ k, newCapacity = 4 * 2 ^ k) :
    Rebuilt hash t newCapacity 0
      { capacity := newCapacity, occupancy := 0, insRmCount := -t.occupancy,
        buckets := bucketArrayCreate newCapacity } where
  good := .created hash hcap _
  capacity := rfl
  occupancy := by simp [count]
  insRmCount := by simp [count]
  has k v hvk := by
    refine iff_of_false (fun h => ?_) fun h => ?_
    · obtain ⟨i, -, hk, -⟩ := h
      have := not_isValid_created (V := V) newCapacity i
      rw [hk, hvk] at this
      cases this
    · obtain ⟨i, hi, -⟩ := h
      omega
  used _ := Nat.le_add_right_of_le (count_created newCapacity)

omit [Inhabited V] in
/-- A bucket that is not in use. -/
theorem Rebuilt.skip {t new : HyperTable V} {newCapacity m : Nat}
    (hr : Rebuilt hash t newCapacity m new)
    (hv : isValid (t.buckets m).key = false) : Rebuilt hash t newCapacity (m + 1) new := by
  have hcount : count isValid (m + 1) t.buckets = count isValid m t.buckets := by
    rw [count_succ, hv]
    rfl
  refine ⟨hr.good, hr.capacity, by rw [hcount]; exact hr.occupancy,
    by rw [hcount]; exact hr.insRmCount, fun k v hvk => ?_, by rw [hcount]; exact hr.used⟩
  rw [hr.has k v hvk, has_succ, or_iff_right fun h => ne_of_isValid hv hvk h.1]

/-- One more bucket of a table with no key twice, where the new one has room. -/
theorem Rebuilt.put {t new : HyperTable V} {newCapacity m d : Nat}
    (hr : Rebuilt hash t newCapacity m new)
    (hd : ∀ i < t.capacity, ∀ j < t.capacity, isValid (t.buckets i).key = true →
      (t.buckets i).key = (t.buckets j).key → i = j)
    (hm : m < t.capacity) (hnew : newCapacity ≤ 2 ^ 32)
    (hroom : if newCapacity < 8 then new.occupancy < newCapacity else
      isOverloaded new.occupancy newCapacity = false ∧
        timeToRebuild new.insRmCount newCapacity = false)
    (hv : isValid (t.buckets m).key = true) :
    ∃ new', insertDepth hash (d + 1) new (t.buckets m) = some (true, new') ∧
      Rebuilt hash t newCapacity (m + 1) new' := by
  have hcount : count isValid (m + 1) t.buckets = count isValid m t.buckets + 1 := by
    rw [count_succ, hv]
    rfl
  have hocc := hr.occupancy
  have hins := hr.insRmCount
  have hcap := hr.capacity
  have hnone : ∀ v, ¬ Has newCapacity new.buckets (t.buckets m).key v := fun v h => by
    obtain ⟨j, hj, hk, -⟩ := (hr.has _ v hv).1 h
    have := hd m hm j (by omega) hv hk.symm
    omega
  have ha : Absent new.capacity new.buckets (t.buckets m).key :=
    fun i hi hk => hnone _ ⟨i, hcap ▸ hi, hk, rfl⟩
  have hputs : ∀ {has' : Key → V → Prop}, Puts (t.buckets m) (Has new.capacity new.buckets) has' →
      ∀ k v, isValid k = true → (has' k v ↔ Has (m + 1) t.buckets k v) := fun {has'} h k v hvk => by
    rw [h k v hvk, has_succ, hcap]
    split
    · next hk =>
      subst hk
      rw [or_iff_left (fun h => hnone v ((hr.has _ v hv).2 h))]
      exact ⟨fun h => ⟨rfl, h.symm⟩, fun h => h.2.symm⟩
    · next hk =>
      rw [hr.has k v hvk, or_iff_right fun h => hk h.1.symm]
  split at hroom
  · next hs =>
    obtain ⟨hgood, hcap', hins', hput, hocc'⟩ := insertLinear_spec hr.good (by omega) (by omega) hv
    refine ⟨new.insertLinear (t.buckets m), ?_, hgood, hcap'.trans hcap,
      by rw [hocc' ha, hocc, hcount],
      by rw [hins', hcount]; omega, by rw [← hcap]; exact hputs hput, fun h => by omega⟩
    have : new.capacity < MIN_HT_CAPACITY ∧ new.occupancy < new.capacity :=
      ⟨by rw [hcap]; exact hs, by omega⟩
    simp [insertDepth, insertWith, this]
  · next hs =>
    have h8 : 8 ≤ new.capacity := by omega
    have hlarge : ¬ (new.capacity < MIN_HT_CAPACITY ∧ new.occupancy < new.capacity) := fun h =>
      absurd h.1 (Nat.not_lt.2 h8)
    have hb := hr.good.hashed h8
    have hused := hr.used (by omega)
    have hover := hroom.1
    rw [Bool.eq_false_iff, Ne, isOverloaded_iff] at hover
    have hself :=
      makeRoom_eq_self (rebuildWith (insertDepth hash d)) h8 (by rw [hcap]; exact hroom.1)
        (by rw [hcap]; exact hroom.2)
    have hless : count (fun k => !isEmpty k) new.capacity new.buckets < new.capacity := by
      rw [hcap]
      omega
    obtain ⟨e, he, hempty⟩ := exists_not_of_count hless
    obtain ⟨new', hnew', hi⟩ := insertHash_spec hb (by omega) hv (by rw [hr.good.occupied]; omega)
      (shiftOk_of_empty hb (by omega) hv he (by simpa using hempty))
    obtain ⟨ho, hr', -, hu⟩ := hi.absent ha
    refine ⟨new', by simp [insertDepth, insertWith, hlarge, hself, hnew'],
      hr.good.inserted h8 (by rw [hcap]; omega) hi,
      hi.capacity.trans hcap, by rw [ho, hocc, hcount], by rw [hr', hcount]; omega,
      by rw [← hcap]; exact hputs hi.has, fun _ => ?_⟩
    rw [hcap] at hu
    omega

/-- One more bucket of a table whose keys fit the new one. -/
theorem Rebuilt.step {t new : HyperTable V} {newCapacity m d : Nat}
    (hr : Rebuilt hash t newCapacity m new)
    (hg : Good hash t) (hm : m < t.capacity) (hnew : newCapacity ≤ 2 ^ 32)
    (hfit : if newCapacity < 8 then t.occupancy ≤ newCapacity
      else t.occupancy ≤ 15 * newCapacity / 16 + 1)
    (hv : isValid (t.buckets m).key = true) :
    ∃ new', insertDepth hash (d + 1) new (t.buckets m) = some (true, new') ∧
      Rebuilt hash t newCapacity (m + 1) new' := by
  have hmono := count_mono isValid t.buckets (Nat.succ_le_of_lt hm)
  rw [count_succ, hv, hg.occupied] at hmono
  have hocc := hr.occupancy
  have hins := hr.insRmCount
  simp only [Bool.toNat_true] at hmono
  refine hr.put hg.distinct hm hnew ?_ hv
  split
  · next hs =>
    rw [if_pos hs] at hfit
    omega
  · next hs =>
    rw [if_neg hs] at hfit
    exact ⟨by rw [Bool.eq_false_iff, Ne, isOverloaded_iff]; omega, timeToRebuild_neg (by omega)⟩

/-- **A rebuild** keeps the contents. -/
theorem rebuildWith_spec {t : HyperTable V} {newCapacity : Nat} (d : Nat) (hg : Good hash t)
    (hcap : ∃ k, newCapacity = 4 * 2 ^ k) (hnew : newCapacity ≤ 2 ^ 32)
    (hfit : if newCapacity < 8 then t.occupancy ≤ newCapacity
      else t.occupancy ≤ 15 * newCapacity / 16 + 1) :
    ∃ new, rebuildWith (insertDepth hash (d + 1)) t newCapacity = some new ∧
      Rebuilt hash t newCapacity t.capacity new := by
  suffices ∀ m ≤ t.capacity, ∃ new, (List.range m).foldlM (fun new i =>
        if isValid (t.buckets i).key then (insertDepth hash (d + 1) new (t.buckets i)).map (·.2)
          else some new)
      { capacity := newCapacity, occupancy := 0, insRmCount := -t.occupancy,
        buckets := bucketArrayCreate newCapacity } =
        some new ∧ Rebuilt hash t newCapacity m new from this t.capacity (Nat.le_refl _)
  intro m hm
  induction m with
  | zero => exact ⟨_, rfl, .init hcap⟩
  | succ m ih =>
    obtain ⟨new, hfold, hr⟩ := ih (by omega)
    rw [List.range_succ, List.foldlM_append, hfold]
    simp only [List.foldlM_cons, List.foldlM_nil, Option.bind_eq_bind, Option.bind_some]
    cases hv : isValid (t.buckets m).key with
    | false => exact ⟨new, by simp, hr.skip hv⟩
    | true =>
      obtain ⟨new', hnew', hr'⟩ := hr.step (d := d) hg hm hnew hfit hv
      exact ⟨new', by simp [hnew'], hr'⟩

/-! ## Inserting -/

theorem rebuild_spec {t : HyperTable V} {newCapacity : Nat} (hg : Good hash t)
    (hcap : ∃ k, newCapacity = 4 * 2 ^ k) (hnew : newCapacity ≤ 2 ^ 32)
    (hfit : if newCapacity < 8 then t.occupancy ≤ newCapacity
      else t.occupancy ≤ 15 * newCapacity / 16 + 1) :
    ∃ new, rebuild hash t newCapacity = some new ∧ Good hash new ∧ new.capacity = newCapacity ∧
      new.occupancy = t.occupancy ∧ new.insRmCount ≤ 0 ∧
      ∀ k v, isValid k = true →
      (Has new.capacity new.buckets k v ↔ Has t.capacity t.buckets k v) := by
  obtain ⟨new, hnew', hr⟩ := rebuildWith_spec 0 hg hcap hnew hfit
  have hocc := hr.occupancy
  have hins := hr.insRmCount
  rw [hg.occupied] at hocc hins
  exact ⟨new, hnew', hr.good, hr.capacity, hocc, by omega, by rw [hr.capacity]; exact hr.has⟩

/-- The table that a bucket is put into. -/
theorem makeRoom_spec {t : HyperTable V} (hg : Good hash t) (hc : t.capacity < 2 ^ 27)
    (hfull : ¬ (t.capacity < MIN_HT_CAPACITY ∧ t.occupancy < t.capacity)) :
    ∃ t', makeRoom (rebuild hash) t = some t' ∧ Good hash t' ∧ 8 ≤ t'.capacity ∧
    t'.capacity ≤ 2 ^ 32 ∧
      t'.occupancy ≤ 15 * t'.capacity / 16 ∧
      ∀ k v, isValid k = true →
      (Has t'.capacity t'.buckets k v ↔ Has t.capacity t.buckets k v) := by
  have hle := hg.occupancy_le
  have hload := hg.load
  rcases hg.small_or with h4 | ⟨h8, -, -⟩
  · -- A full small table, which the hash table it becomes has room for.
    have hs : t.capacity < MIN_HT_CAPACITY := by rw [h4]; decide
    have hocc : t.occupancy = 4 := by
      have : ¬ t.occupancy < t.capacity := fun h => hfull ⟨hs, h⟩
      omega
    obtain ⟨new, hnew, hgood, hcap, ho, hi, hhas⟩ := rebuild_spec hg hg.double (by omega)
      (by rw [if_neg (by omega)]; omega)
    have hroom := makeRoom_eq_self (rebuild hash) (t := new) (by omega)
      (by rw [Bool.eq_false_iff, Ne, isOverloaded_iff]; omega) (timeToRebuild_neg (by omega))
    refine ⟨new, ?_, hgood, by omega, by omega, by omega, hhas⟩
    have hlarge : ¬ new.capacity < MIN_HT_CAPACITY := by rw [hcap, h4]; decide
    simp only [makeRoom, hlarge, if_false, Option.bind_eq_bind, Option.bind_some] at hroom
    simp only [makeRoom, hs, if_true, hnew, Option.bind_eq_bind, Option.bind_some]
    exact hroom
  · have hlarge : ¬ t.capacity < MIN_HT_CAPACITY := Nat.not_lt.2 h8
    cases hover : isOverloaded t.occupancy t.capacity with
    | true =>
      obtain ⟨new, hnew, hgood, hcap, ho, hi, hhas⟩ := rebuild_spec hg hg.double (by omega)
        (by rw [if_neg (by omega)]; omega)
      exact ⟨new, by simp [makeRoom, hlarge, hover, hnew], hgood, by omega, by omega,
        by omega, hhas⟩
    | false =>
      rw [Bool.eq_false_iff, Ne, isOverloaded_iff] at hover
      have hover' : isOverloaded t.occupancy t.capacity = false := by
        rw [Bool.eq_false_iff, Ne, isOverloaded_iff]
        exact hover
      cases htime : timeToRebuild t.insRmCount t.capacity with
      | true =>
        obtain ⟨new, hnew, hgood, hcap, ho, hi, hhas⟩ := rebuild_spec hg hg.capacity (by omega)
          (by rw [if_neg (by omega)]; omega)
        exact ⟨new, by simp [makeRoom, hlarge, hover', htime, hnew], hgood, by omega, by omega,
          by omega, hhas⟩
      | false =>
        exact ⟨t, makeRoom_eq_self _ h8 hover' htime, hg, h8, by omega, by omega,
          fun _ _ _ => Iff.rfl⟩

/-- The insertion carries no bucket round the hash table it is made into. -/
def InsertOk (hash : Key → Nat) (t : HyperTable V) (key : Key) : Prop :=
  ¬ (t.capacity < MIN_HT_CAPACITY ∧ t.occupancy < t.capacity) →
  ∀ t' ∈ makeRoom (rebuild hash) t, ShiftOk hash t' key

instance (hash : Key → Nat) (t : HyperTable V) (key : Key) : Decidable (InsertOk hash t key) :=
  inferInstanceAs (Decidable (¬ (t.capacity < MIN_HT_CAPACITY ∧ t.occupancy < t.capacity) →
    ∀ t' ∈ makeRoom (rebuild hash) t, ShiftOk hash t' key))

theorem insert_spec {t : HyperTable V} {b : Bucket V} (hg : Good hash t) (hc : t.capacity < 2 ^ 27)
    (hv : isValid b.key = true) (hok : InsertOk hash t b.key) :
    ∃ t', t.insert hash b = some (true, t') ∧ Good hash t' ∧
      Puts b (Has t.capacity t.buckets) (Has t'.capacity t'.buckets) := by
  by_cases hs : t.capacity < MIN_HT_CAPACITY ∧ t.occupancy < t.capacity
  · obtain ⟨hgood, hcap, -, hput, -⟩ := insertLinear_spec hg hs.1 hs.2 hv
    exact ⟨_, by simp only [insert, insertWith, if_pos hs], hgood, by rw [hcap]; exact hput⟩
  · obtain ⟨t₁, ht₁, hg₁, h8, hc₁, hroom, hhas⟩ := makeRoom_spec hg hc hs
    obtain ⟨t', ht', hi⟩ :=
      insertHash_spec (hg₁.hashed h8) hc₁ hv (by rw [hg₁.occupied]; omega) (hok hs t₁ ht₁)
    refine ⟨t', by simp only [insert, insertWith, if_neg hs, ht₁, Option.map_some, ht'],
      hg₁.inserted h8 hroom hi, fun k v hk => ?_⟩
    rw [hi.capacity, hi.has k v hk]
    split
    · rfl
    · exact hhas k v hk

/-! ## Removing -/

omit [Inhabited V] in
theorem Hashed.bury {c i : Nat} {bs : Nat → Bucket V} (hb : Hashed hash c bs) :
    Hashed hash c (Function.update bs i (bs i).makeTombstone) := by
  have hslot : slot (bs i).makeTombstone = .tomb := by
    simp [slot, Bucket.makeTombstone, isEmpty, isTombstone, KEY_EMPTY, KEY_DELETED]
  have hne : ∀ {j}, isValid (Function.update bs i (bs i).makeTombstone j).key = true →
      j ≠ i := fun {j} h hji => by
    subst hji
    rw [Function.update_self] at h
    simp [Bucket.makeTombstone, isValid, isTombstone] at h
  refine ⟨by rw [slots_update, hslot]; exact hb.sorted.bury, fun j hj hvj => ?_,
    fun j hj k hk hvj hjk => ?_⟩
  · have hji := hne hvj
    rw [Function.update_of_ne hji] at hvj ⊢
    exact hb.home j hj hvj
  · have hji := hne hvj
    have hki := hne (j := k) (by rw [← hjk]; exact hvj)
    rw [Function.update_of_ne hji] at hvj hjk
    rw [Function.update_of_ne hki] at hjk
    exact hb.distinct j hj k hk hvj hjk

omit [Inhabited V] in
theorem drops_bury {c i : Nat} {bs : Nat → Bucket V} {key : Key}
    (hb : Hashed hash c bs) (hi : i < c) (hk : (bs i).key = key) (hv : isValid key = true) :
    Drops key (Has c bs) (Has c (Function.update bs i (bs i).makeTombstone)) := by
  intro k v hvk
  have htomb : (bs i).makeTombstone.key ≠ k := fun h => by
    rw [← h] at hvk
    simp [Bucket.makeTombstone, isValid, isTombstone] at hvk
  have hswap := has_swap bs (bs i).makeTombstone hi k v
  by_cases hkk : k = key
  · subst hkk
    refine iff_of_false (fun h => ?_) fun h => h.1 rfl
    obtain ⟨j, hj, hkj, -⟩ := h
    by_cases hji : j = i
    · subst hji
      rw [Function.update_self] at hkj
      exact htomb hkj
    · rw [Function.update_of_ne hji] at hkj
      exact hji (hb.distinct i hi j hj (by rw [hk]; exact hv) (by rw [hk, hkj])).symm
  · rw [has_update hi v fun h => hkk (by rw [← h, hk])]
    simp [htomb, hkk]

theorem remove_spec {t : HyperTable V} (key : Key) (hg : Good hash t) (hc : t.capacity ≤ 2 ^ 32)
    (hv : isValid key = true) :
    ∃ r t', t.remove hash key = some (r, t') ∧ Good hash t' ∧
    (r = true ↔ ¬ Absent t.capacity t.buckets key) ∧
      Drops key (Has t.capacity t.buckets) (Has t'.capacity t'.buckets) := by
  rcases hg.small_or with h4 | ⟨h8, heven, hhalf⟩
  · have hs : t.capacity < 8 := by omega
    obtain ⟨r, t', hrem, hgood, hcap, hr, hdrops⟩ := removeLinear_spec hg hs hv
    exact ⟨r, t', by rw [remove, if_pos (show t.capacity < MIN_HT_CAPACITY from hs), hrem], hgood,
      hr, by rw [hcap]; exact hdrops⟩
  · have hs : ¬ t.capacity < MIN_HT_CAPACITY := Nat.not_lt.2 h8
    rcases find_spec hg (by omega) hv with ⟨i, hi, hfind, hk⟩ | ⟨hfind, ha⟩
    · have hb := hg.hashed h8
      have hcount := count_update isValid t.buckets (t.buckets i).makeTombstone hi
      have htomb : isValid (t.buckets i).makeTombstone.key = false := by
        simp [Bucket.makeTombstone, isValid, isTombstone]
      rw [hk, hv, htomb, hg.occupied] at hcount
      simp only [Bool.toNat_true, Bool.toNat_false] at hcount
      have hle := hg.load h8
      simp only [remove, if_neg hs, hfind]
      generalize ht₁ : ({ t with
        buckets := Function.update t.buckets i (t.buckets i).makeTombstone
        occupancy := t.occupancy - 1
        insRmCount := t.insRmCount + 1 } : HyperTable V) = t₁
      have hg₁ : Good hash t₁ := by
        subst ht₁
        exact .of_hashed hg.capacity h8 (by simp only; omega) hb.bury (by simp only; omega)
      have hdrops : Drops key (Has t.capacity t.buckets) (Has t₁.capacity t₁.buckets) := by
        subst ht₁
        exact drops_bury hb hi hk hv
      have hcap₁ : t₁.capacity = t.capacity := by subst ht₁; rfl
      have hocc₁ : t₁.occupancy = t.occupancy - 1 := by subst ht₁; rfl
      have hfound : ¬ Absent t.capacity t.buckets key := fun ha => ha i hi hk
      have hrebuilt : ∀ n, (∃ k, n = 4 * 2 ^ k) → n ≤ 2 ^ 32 →
          (if n < 8 then t₁.occupancy ≤ n else t₁.occupancy ≤ 15 * n / 16 + 1) →
          ∃ r t', (rebuild hash t₁ n).map (true, ·) = some (r, t') ∧ Good hash t' ∧
            (r = true ↔ ¬ Absent t.capacity t.buckets key) ∧
            Drops key (Has t.capacity t.buckets)
            (Has t'.capacity t'.buckets) := fun n hn hn' hfit => by
        obtain ⟨new, hnew, hgood, -, -, -, hhas⟩ := rebuild_spec hg₁ hn hn' hfit
        exact ⟨true, new, by rw [hnew]; rfl, hgood, iff_of_true rfl hfound,
          fun k v hvk => (hhas k v hvk).trans (hdrops k v hvk)⟩
      split
      · next hunder =>
        have := (isUnderloaded_iff.1 hunder).2
        exact hrebuilt _ hhalf (by omega) (by split <;> omega)
      · split
        · exact hrebuilt _ hg.capacity (by omega) (by rw [if_neg (by omega)]; omega)
        · exact ⟨true, t₁, rfl, hg₁, iff_of_true rfl hfound, hdrops⟩
    · exact ⟨false, t, by simp only [remove, if_neg hs, hfind], hg,
        iff_of_false (by simp) (by simpa using ha), .of_absent ha⟩

/-! ## Runs -/

/-- The table finds and removes what the map has, and has no key twice. -/
structure IsMap (hash : Key → Nat) (t : HyperTable V) (m : Key → Option V) : Prop where
  find : ∀ key, isValid key = true →
    match t.find hash key with
    | some i => i < t.capacity ∧ (t.buckets i).key = key ∧ m key = some (t.buckets i).value
    | none => m key = none
  unique : ∀ i < t.capacity, ∀ j < t.capacity, isValid (t.buckets i).key = true →
    (t.buckets i).key = (t.buckets j).key → i = j
  remove : ∀ key, isValid key = true → ∃ t', t.remove hash key = some ((m key).isSome, t')

/-- A good table with the entries of a map. -/
structure Holds (hash : Key → Nat) (t : HyperTable V) (m : Key → Option V) : Prop where
  good : Good hash t
  has : ∀ k v, isValid k = true → (Has t.capacity t.buckets k v ↔ m k = some v)

namespace Holds

variable {t : HyperTable V} {m : Key → Option V} {key : Key}

omit [Inhabited V] in
theorem absent_iff (hh : Holds hash t m) (hv : isValid key = true) :
    Absent t.capacity t.buckets key ↔ m key = none := by
  constructor
  · intro ha
    cases hm : m key with
    | none => rfl
    | some v => exact absurd ((hh.has key v hv).2 hm) (Has.absent ha v)
  · intro hm i hi hk
    have := (hh.has key _ hv).1 ⟨i, hi, hk, rfl⟩
    rw [hm] at this
    cases this

theorem isMap (hh : Holds hash t m) (hc : t.capacity < 2 ^ 27) : IsMap hash t m := by
  refine ⟨fun key hv => ?_, hh.good.distinct, fun key hv => ?_⟩
  · rcases find_spec hh.good (by omega) hv with ⟨i, hi, hfind, hk⟩ | ⟨hfind, ha⟩
    · rw [hfind]
      exact ⟨hi, hk, (hh.has key _ hv).1 ⟨i, hi, hk, rfl⟩⟩
    · rw [hfind]
      exact (hh.absent_iff hv).1 ha
  · obtain ⟨r, t', hrem, -, hr, -⟩ := remove_spec key hh.good (by omega) hv
    refine ⟨t', ?_⟩
    rw [hrem]
    have hsome : r = (m key).isSome := by
      rw [Bool.eq_iff_iff, hr, hh.absent_iff hv, Option.isSome_iff_ne_none]
    rw [hsome]

theorem empty (hash : Key → Nat) : Holds hash (empty : HyperTable V) fun _ => none :=
  ⟨.created hash ⟨0, rfl⟩ 0, fun k v hk => iff_of_false (fun h => by
    obtain ⟨i, -, hki, -⟩ := h
    have := not_isValid_created (V := V) MIN_CAPACITY i
    rw [show (bucketArrayCreate MIN_CAPACITY i : Bucket V).key = k from hki, hk] at this
    cases this) (by simp)⟩

theorem step {op : TableOp V} (hh : Holds hash t m) (hc : t.capacity < 2 ^ 27)
    (hv : isValid op.key = true) (hok : ∀ key value, op = .insert key value → InsertOk hash t key) :
    ∃ t', t.step hash op = some t' ∧ Holds hash t' (op.apply m) := by
  cases op with
  | insert key value =>
    obtain ⟨t', ht', hg, hput⟩ :=
      insert_spec (b := { key, value }) hh.good hc hv (hok key value rfl)
    refine ⟨t', by simp [HyperTable.step, ht'], hg, fun k v hk => ?_⟩
    rw [hput k v hk, TableOp.apply, Function.update_apply]
    split
    · simp [eq_comm]
    · exact hh.has k v hk
  | remove key =>
    obtain ⟨r, t', ht', hg, -, hdrop⟩ := remove_spec key hh.good (by omega) hv
    refine ⟨t', by simp [HyperTable.step, ht'], hg, fun k v hk => ?_⟩
    rw [hdrop k v hk, TableOp.apply, Function.update_apply]
    split
    · next h => simp [h]
    · next h => rw [hh.has k v hk]; simp [h]

end Holds

/-- **A finite map.** After any run in which no insertion carries a bucket
round the hash table, whatever the hash function, the table is the map of what
was inserted last and not removed since. -/
theorem isMap_of_insertOk (hash : Key → Nat) {ops : List (TableOp V)}
    (hv : ∀ op ∈ ops, isValid op.key = true)
    (hcap : ∀ pre t, pre <+: ops → empty.run hash pre = some t → t.capacity < 2 ^ 27)
    (hok : ∀ pre key value t, pre ++ [.insert key value] <+: ops → empty.run hash pre = some t →
      InsertOk hash t key) :
    ∃ t, empty.run hash ops = some t ∧ IsMap hash t (contents ops) := by
  suffices ∃ t, empty.run hash ops = some t ∧ Holds hash t (contents ops) by
    obtain ⟨t, ht, hh⟩ := this
    exact ⟨t, ht, hh.isMap (hcap ops t (List.prefix_refl ops) ht)⟩
  induction ops using List.reverseRecOn with
  | nil => exact ⟨_, rfl, .empty hash⟩
  | append_singleton ops op ih =>
    have hpre := List.prefix_append ops [op]
    obtain ⟨t, ht, hh⟩ :=
      ih (fun op hop => hv op (by simp [hop])) (fun pre t hp => hcap pre t (hp.trans hpre))
        fun pre key value t hp => hok pre key value t (hp.trans hpre)
    obtain ⟨t', ht', hh'⟩ := hh.step (hcap ops t hpre ht) (hv op (by simp)) fun key value hop =>
      hok ops key value t (by rw [hop]) ht
    refine ⟨t', ?_, ?_⟩
    · simp only [run, List.foldlM_append, List.foldlM_cons, List.foldlM_nil] at ht ⊢
      simp [ht, ht']
    · rw [contents, List.foldl_append]
      exact hh'

/-- Keys of the hashes 1 and 2. The fifth makes a hash table of the array, the
second of hash 1 moves two buckets on, up to the tombstone of the key removed,
and then a key is overwritten and one removed. -/
def shiftTable : List (TableOp Nat) :=
  [.insert 0xc0#64 1, .insert 0x10#64 2, .insert 0x70#64 3, .insert 0x100#64 4, .insert 0x160#64 5,
    .remove 0x100#64, .insert 0x120#64 6, .insert 0x70#64 7, .remove 0xc0#64]

theorem isMap_of_insertOk_shift : ∃ t, empty.run HyperTable.hash shiftTable = some t ∧
    IsMap HyperTable.hash t (contents shiftTable) := by
  have hops :
      ∀ i ≤ shiftTable.length, ∀ t ∈ empty.run HyperTable.hash (shiftTable.take i),
      t.capacity < 2 ^ 27 ∧ ∀ op ∈ shiftTable[i]?, InsertOk HyperTable.hash t op.key := by
    decide +kernel
  refine isMap_of_insertOk HyperTable.hash (by decide)
    (fun pre t hp ht => ?_) fun pre key value t hp ht => ?_
  · rw [List.prefix_iff_eq_take.1 hp] at ht
    exact (hops _ hp.length_le t ht).1
  · obtain ⟨post, hpost⟩ := hp
    rw [List.append_assoc] at hpost
    have hpre : shiftTable.take pre.length = pre := by rw [← hpost, List.take_left]
    refine (hops pre.length ?_ t (hpre.symm ▸ ht)).2 (.insert key value) ?_
    · rw [← hpost, List.length_append]
      exact Nat.le_add_right _ _
    · rw [← hpost]
      simp

/-- Seven keys of hash 2 and one of hash 1 fill a table of eight buckets. The
first key taken out and put in again fills the bucket before its own hash, and
the second goes round the table. -/
def roundTable : List (TableOp Nat) :=
  [.insert 0xc0#64 1, .insert 0x10#64 2, .insert 0x70#64 3, .insert 0x100#64 4, .insert 0x160#64 5,
    .insert 0x250#64 6,
    .insert 0x280#64 7, .insert 0x340#64 8, .remove 0x100#64, .insert 0x3b0#64 9, .remove 0x160#64,
    .insert 0x430#64 10]

/-- The key of hash 1 is there and is not found. -/
theorem not_isMap_roundTable : ¬ ∀ (hash : Key → Nat) (ops : List (TableOp Nat)),
    (∀ op ∈ ops, isValid op.key = true) →
    (∀ pre t, pre <+: ops → empty.run hash pre = some t → t.capacity < 2 ^ 27) →
    ∃ t, empty.run hash ops = some t ∧ IsMap hash t (contents ops) := by
  intro h
  have hcap :
      ∀ pre ∈ roundTable.inits, (empty.run HyperTable.hash pre).all (fun t => t.capacity < 2 ^ 27) =
      true := by
    decide +kernel
  have hnone :
      ((empty.run HyperTable.hash roundTable).bind fun t => t.find HyperTable.hash 0xc0#64) =
      none := by
    decide +kernel
  obtain ⟨t, ht, hm⟩ := h HyperTable.hash roundTable (by decide) fun pre t hp ht => by
    have := hcap pre ((List.mem_inits _ _).2 hp)
    rw [ht] at this
    simpa using this
  rw [ht, Option.bind_some] at hnone
  have hfind := hm.find 0xc0#64 (by decide)
  rw [hnone] at hfind
  replace hfind : contents roundTable 0xc0#64 = none := hfind
  exact absurd hfind (by decide)

end

end Cilksan.HyperTable
