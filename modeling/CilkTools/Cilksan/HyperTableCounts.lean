/-
The bookkeeping of the hash table, whatever order its buckets have come to be
in: an insertion ends and succeeds, the occupancy counts the buckets in use,
and the insertions of a rebuild make no other.
-/
import CilkTools.Cilksan.HyperTableRuns

namespace Cilksan.HyperTable

open OrderedProbing

variable {V : Type} {hash : Key → Nat}

/-! ## Loops -/

section Loops

variable {c tgt : Nat} {bs : Nat → Bucket V} {key : Key}

/-- A run of tombstones ends within a lap: more steps make no difference. -/
theorem tombEnd_steps (htc : tgt < c) {n n' m : Nat} (hm : 0 < m) (hmc : m ≤ c) (hn : c ≤ n + m)
    (hn' : c ≤ n' + m) : tombEnd bs c tgt n (fwd c tgt m) = tombEnd bs c tgt n' (fwd c tgt m) := by
  obtain ⟨l, hl, hend, htombs, hstop⟩ := tombEnd_spec bs htc n m hm hmc hn
  obtain ⟨l', hl', hend', htombs', hstop'⟩ := tombEnd_spec bs htc n' m hm hmc hn'
  have hle : ∀ {l l' : Nat}, m + l' ≤ c →
      (∀ k < l', isTombstone (bs (fwd c tgt (m + k))).key = true) →
      (m + l = c ∨ isTombstone (bs (fwd c tgt (m + l))).key = false) →
      l' ≤ l := fun {l l'} hl' ht hs => by
    by_contra hlt
    rcases hs with hs | hs
    · omega
    · rw [ht l (by omega)] at hs
      cases hs
  rw [hend, hend', Nat.le_antisymm (hle hl htombs hstop') (hle hl' htombs' hstop)]

/-- Where a probe may end, as far as the bucket there goes. -/
def SpotIn (c : Nat) (bs : Nat → Bucket V) (key : Key) : Spot → Prop
  | .overwrite i => i < c ∧ (bs i).key = key
  | .place i => i < c ∧ isValid (bs i).key = false
  | .shift i => i < c

variable (bs key) in
/-- A probe ends within a lap, and more steps make no difference. -/
theorem probe_ends (htc : tgt < c) (n : Nat) : ∀ n' m, m < c → c ≤ n + m → c ≤ n' + m →
    probe bs c key tgt n (fwd c tgt m) = probe bs c key tgt n' (fwd c tgt m) ∧
      SpotIn c bs key (probe bs c key tgt n (fwd c tgt m)) := by
  induction n with
  | zero =>
    intro n' m hm hn
    omega
  | succ n ih =>
    intro n' m hm hn hn'
    obtain ⟨n', rfl⟩ : ∃ k, n' = k + 1 := ⟨n' - 1, by omega⟩
    have hi := fwd_lt htc (Nat.le_of_lt hm)
    have hlap : fwd c tgt c = tgt := by
      unfold fwd
      split <;> omega
    have hstep : incIndex (fwd c tgt m) c = fwd c tgt (m + 1) := by
      rw [incIndex_eq_fwd hi, fwd_fwd htc (by omega)]
    rw [probe, probe]
    split
    · next heq => exact ⟨rfl, hi, heq.symm⟩
    · split
      · next hempty => exact ⟨rfl, hi, by simp [isValid, hempty]⟩
      · split
        · next htomb =>
          have hfree : isValid (bs (fwd c tgt m)).key = false := by simp [isValid, htomb]
          obtain ⟨l, hl, hend, -, -⟩ := tombEnd_spec bs htc c (m + 1) (by omega) hm (by omega)
          rw [hstep, hend]
          simp only
          split
          · exact ⟨rfl, hi, hfree⟩
          · split
            · exact ⟨rfl, hi, hfree⟩
            · next hgo =>
              have hlt : m + 1 + l < c := by
                rcases Nat.lt_or_eq_of_le hl with hlt | heq
                · exact hlt
                · exact absurd (.inl (by rw [heq, hlap])) hgo
              exact ih n' (m + 1 + l) hlt (by omega) (by omega)
        · split
          · rw [hstep]
            simp only
            split
            · next heq => exact ⟨rfl, by rw [heq]; exact htc⟩
            · next hne =>
              have hlt : m + 1 < c := by
                rcases Nat.lt_or_eq_of_le (Nat.succ_le_of_lt hm) with hlt | heq
                · exact hlt
                · exact absurd (by rw [show m + 1 = c from heq, hlap]) hne
              exact ih n' (m + 1) hlt (by omega) (by omega)
          · exact ⟨rfl, hi⟩

/-- The loops of an insertion are given steps for a lap, and need no more. -/
structure LoopsEnd (c : Nat) (bs : Nat → Bucket V) (key : Key) (tgt : Nat) : Prop where
  probe : ∀ n ≥ c, probe bs c key tgt n tgt = probe bs c key tgt c tgt
  tombEnd : ∀ n ≥ c, ∀ m < c, tombEnd bs c tgt n (fwd c tgt (m + 1)) =
    tombEnd bs c tgt c (fwd c tgt (m + 1))

theorem LoopsEnd.of_lt (bs : Nat → Bucket V) (key : Key) (htc : tgt < c) :
    LoopsEnd c bs key tgt where
  probe n hn := by
    have := (probe_ends bs key htc n c 0 (by omega) hn (by omega)).1
    rwa [fwd_zero htc] at this
  tombEnd n hn m hm := tombEnd_steps htc (Nat.succ_pos m) hm (by omega) (by omega)

/-- The buckets are shifted up to the first that is free, which is taken. -/
theorem shiftIn_counts {insertTgt n : Nat} (m : Nat) (hm : m < n) :
    ∀ (bs : Nat → Bucket V) (i : Nat) (b : Bucket V), i < c →
    m < c → isValid (bs (fwd c i m)).key = false → (∀ k < m, isValid (bs (fwd c i k)).key = true) →
    (∀ k < m, fwd c i (k + 1) ≠ insertTgt) →
    ∃ bs', shiftIn c insertTgt n bs i b = (true, bs') ∧
      ∀ p : Key → Bool, p b.key = true → (∀ k < m, p (bs (fwd c i k)).key = true) →
        count p c bs' + (p (bs (fwd c i m)).key).toNat = count p c bs + 1 := by
  induction m generalizing n with
  | zero =>
    intro bs i b hic _ hfree _ _
    rw [fwd_zero hic] at hfree
    obtain ⟨n, rfl⟩ := Nat.exists_eq_succ_of_ne_zero (Nat.ne_of_gt hm)
    refine ⟨Function.update bs i b, by simp [shiftIn, hfree], fun p hp _ => ?_⟩
    have := count_update p bs b hic
    rw [fwd_zero hic]
    simpa [hp] using this
  | succ m ih =>
    intro bs i b hic hmc hfree hrun hne
    obtain ⟨n, rfl⟩ :=
      Nat.exists_eq_succ_of_ne_zero (Nat.ne_of_gt (Nat.lt_of_le_of_lt (Nat.zero_le _) hm))
    have hvi := hrun 0 (by omega)
    rw [fwd_zero hic] at hvi
    have hwalk : ∀ k ≤ m, fwd c (fwd c i 1) k = fwd c i (k + 1) := fun k hk => by
      rw [fwd_fwd hic (by omega), Nat.add_comm]
    have hsame : ∀ k ≤ m, Function.update bs i b (fwd c (fwd c i 1) k) =
        bs (fwd c i (k + 1)) := fun k hk => by
      rw [hwalk k hk, Function.update_of_ne (fwd_ne_self (Nat.succ_pos k) (by omega))]
    obtain ⟨bs', hshift, hcount⟩ :=
      ih (n := n) (by omega) (Function.update bs i b) (fwd c i 1) (bs i)
        (fwd_lt hic (by omega)) (by omega) (by rw [hsame m (Nat.le_refl m)]; exact hfree)
        (fun k hk => by
          rw [hsame k (by omega)]
          exact hrun (k + 1) (by omega))
        (fun k hk => by
          rw [hwalk (k + 1) (by omega)]
          exact hne (k + 1) (by omega))
    refine ⟨bs', ?_, fun p hp hpr => ?_⟩
    · have hnext : incIndex i c ≠ insertTgt := by
        rw [incIndex_eq_fwd hic]
        exact hne 0 (by omega)
      simp only [shiftIn, hvi, Bool.not_true, Bool.false_eq_true, if_false, if_neg hnext]
      rw [incIndex_eq_fwd hic]
      exact hshift
    · have hpi := hpr 0 (by omega)
      rw [fwd_zero hic] at hpi
      have h₁ := hcount p hpi fun k hk => by
        rw [hsame k (by omega)]
        exact hpr (k + 1) (by omega)
      have h₂ := count_update p bs b hic
      rw [hsame m (Nat.le_refl m)] at h₁
      simp only [hpi, hp, Bool.toNat_true] at h₂
      omega

end Loops

/-! ## Tables -/

/-- What is counted is what is there: a table is never smaller than the least,
a small one is filled from the front, and a larger one was not overloaded
before its last insertion. -/
structure Booked (t : HyperTable V) : Prop where
  capacity : ∃ k, t.capacity = 4 * 2 ^ k
  occupied : count isValid t.capacity t.buckets = t.occupancy
  small : t.capacity < 8 → ∀ i < t.capacity, isValid (t.buckets i).key = true ↔ i < t.occupancy
  load : 8 ≤ t.capacity → t.occupancy ≤ 15 * t.capacity / 16 + 1

/-- A bucket more is in use, or none. -/
def Grows (t t' : HyperTable V) : Prop :=
  t'.capacity = t.capacity ∧
    ((t'.occupancy = t.occupancy ∧ t'.insRmCount = t.insRmCount) ∨
      (t'.occupancy = t.occupancy + 1 ∧ t'.insRmCount ≤ t.insRmCount + 1))

namespace Booked

variable {t : HyperTable V} {b : Bucket V} {key : Key}

theorem occupancy_le (hb : Booked t) : t.occupancy ≤ t.capacity := by
  rw [← hb.occupied]
  exact List.countP_le_length.trans (by simp)

theorem small_or (hb : Booked t) :
    t.capacity = 4 ∨ 8 ≤ t.capacity ∧ 2 * (t.capacity / 2) = t.capacity ∧
    ∃ k, t.capacity / 2 = 4 * 2 ^ k := by
  obtain ⟨k, hk⟩ := hb.capacity
  cases k with
  | zero => exact .inl (by simpa using hk)
  | succ k =>
    have := Nat.two_pow_pos k
    rw [Nat.pow_succ] at hk
    exact .inr ⟨by omega, by omega, k, by omega⟩

theorem double (hb : Booked t) : ∃ k, t.capacity * 2 = 4 * 2 ^ k := by
  obtain ⟨k, hk⟩ := hb.capacity
  exact ⟨k + 1, by rw [hk, Nat.pow_succ, Nat.mul_assoc]⟩

theorem of_large (hcap : ∃ k, t.capacity = 4 * 2 ^ k) (h8 : 8 ≤ t.capacity)
    (hc : count isValid t.capacity t.buckets = t.occupancy)
    (hl : t.occupancy ≤ 15 * t.capacity / 16 + 1) : Booked t :=
  ⟨hcap, hc, fun h => by omega, fun _ => hl⟩

/-- A small table whose buckets in use are the first `n`. -/
theorem of_small {n : Nat} {bs : Nat → Bucket V} {r : Int} {c : Nat}
    (hcap : ∃ k, c = 4 * 2 ^ k) (hs : c < 8)
    (hn : n ≤ c) (h : ∀ i < c, isValid (bs i).key = true ↔ i < n) :
    Booked ({ capacity := c, occupancy := n, insRmCount := r, buckets := bs } : HyperTable V) :=
  ⟨hcap, count_of_small hn h, fun _ => h, fun h8 => by simp only at h8; omega⟩

/-! ### Inserting into the hash table -/

variable (hash) in
theorem insertHash (hb : Booked t) (h8 : 8 ≤ t.capacity)
    (hload : t.occupancy ≤ 15 * t.capacity / 16) (hv : isValid b.key = true) :
    ∃ t', t.insertHash hash b = (true, t') ∧ Booked t' ∧ Grows t t' := by
  have htc := getTableEntry_lt hash (c := t.capacity) (by omega) b.key
  have hocc := hb.occupied
  unfold HyperTable.insertHash
  generalize getTableEntry hash t.capacity b.key = tgt at htc
  have hgrown :
      ∀ bs' : Nat → Bucket V,
      count isValid t.capacity bs' = count isValid t.capacity t.buckets + 1 →
      Booked (t.grown bs') ∧ Grows t (t.grown bs') := fun bs' hc =>
    ⟨.of_large hb.capacity h8 (by show count isValid t.capacity bs' = t.occupancy + 1; omega)
      (by show t.occupancy + 1 ≤ _; exact Nat.succ_le_succ hload), rfl, .inr ⟨rfl, Int.le_refl _⟩⟩
  have hplace : ∀ i < t.capacity, isValid (t.buckets i).key = false →
      count isValid t.capacity (Function.update t.buckets i { b with hash := tgt }) =
        count isValid t.capacity t.buckets + 1 := fun i hi hfree => by
    have := count_update isValid t.buckets { b with hash := tgt } hi
    simpa [hfree, hv] using this
  simp only
  split
  · next hempty => exact ⟨_, rfl, hgrown _ (hplace tgt htc (by simp [isValid, hempty]))⟩
  · have hspot := (probe_ends t.buckets b.key htc t.capacity t.capacity 0 (by omega) (by omega)
      (by omega)).2
    rw [fwd_zero htc] at hspot
    split
    · next i hi =>
      rw [hi] at hspot
      have hcount := count_update isValid t.buckets { t.buckets i with value := b.value } hspot.1
      exact ⟨_, rfl, .of_large hb.capacity h8 (by simp only at hcount ⊢; omega)
        (Nat.le_succ_of_le hload), rfl, .inl ⟨rfl, rfl⟩⟩
    · next i hi =>
      rw [hi] at hspot
      exact ⟨_, rfl, hgrown _ (hplace i hspot.1 hspot.2)⟩
    · next i hi =>
      rw [hi] at hspot
      obtain ⟨m, hm, hfree, hrun⟩ :=
        exists_first_free hspot (show count isValid t.capacity t.buckets < t.capacity by omega)
      obtain ⟨bs', hshift, hcount⟩ :=
        shiftIn_counts m hm t.buckets i { b with hash := tgt } hspot hm hfree hrun
          fun k hk => fwd_ne_self (Nat.succ_pos k) (by omega)
      have hc := hcount isValid hv hrun
      rw [hfree] at hc
      rw [hshift]
      exact ⟨_, rfl, hgrown bs' hc⟩

/-! ### Small tables -/

theorem insertLinear (hb : Booked t) (hs : t.capacity < 8) (hlt : t.occupancy < t.capacity)
    (hv : isValid b.key = true) : Booked (t.insertLinear b) ∧ Grows t (t.insertLinear b) := by
  have hsmall := hb.small hs
  rcases range_find t.buckets b.key t.occupancy with ⟨i, hi, hk, hfind⟩ | ⟨-, hfind⟩
  · have heq : t.insertLinear b = { t with buckets := Function.update t.buckets i b } := by
      simp only [HyperTable.insertLinear, hfind]
    rw [heq]
    refine ⟨of_small hb.capacity hs (Nat.le_of_lt hlt) fun j hj => ?_, rfl, .inl ⟨rfl, rfl⟩⟩
    by_cases hji : j = i
    · subst hji
      simp [hv, hi]
    · rw [Function.update_of_ne hji, hsmall j hj]
  · have heq : t.insertLinear b = { t with
        buckets := Function.update t.buckets t.occupancy b, occupancy := t.occupancy + 1 } := by
      simp only [HyperTable.insertLinear, hfind]
    rw [heq]
    refine ⟨of_small hb.capacity hs hlt fun j hj => ?_, rfl, .inr ⟨rfl, by simp⟩⟩
    by_cases hji : j = t.occupancy
    · subst hji
      simp [hv]
    · rw [Function.update_of_ne hji, hsmall j hj]
      omega

theorem removeLinear (hb : Booked t) (hs : t.capacity < 8) (key : Key) :
    Booked (t.removeLinear key).2 ∧ (t.removeLinear key).2.capacity = t.capacity := by
  have hsmall := hb.small hs
  have hle := hb.occupancy_le
  rcases range_find t.buckets key t.occupancy with ⟨i, hi, -, hfind⟩ | ⟨-, hfind⟩
  · simp only [HyperTable.removeLinear, hfind]
    refine ⟨of_small hb.capacity hs (by omega) fun j hj => ?_, trivial⟩
    by_cases hjl : j = t.occupancy - 1
    · subst hjl
      simp [isValid, isEmpty, KEY_EMPTY]
    · rw [Function.update_of_ne hjl]
      by_cases hil : i = t.occupancy - 1
      · rw [if_pos hil, hsmall j hj]
        omega
      · rw [if_neg hil]
        by_cases hji : j = i
        · subst hji
          rw [Function.update_self, hsmall _ (by omega)]
          omega
        · rw [Function.update_of_ne hji, hsmall j hj]
          omega
  · simp only [HyperTable.removeLinear, hfind]
    exact ⟨hb, trivial⟩

/-! ### Rebuilding -/

variable (hash) in
/-- Where there is room and no rebuild is due, an insertion asks for none. -/
theorem insertWith (hb : Booked t) (hv : isValid b.key = true)
    (hroom : if t.capacity < 8 then t.occupancy < t.capacity else
      isOverloaded t.occupancy t.capacity = false ∧ timeToRebuild t.insRmCount t.capacity = false) :
    ∃ t', (∀ rebuild, HyperTable.insertWith hash rebuild t b = some (true, t')) ∧ Booked t' ∧
    Grows t t' := by
  split at hroom
  · next hs =>
    have hsmall : t.capacity < MIN_HT_CAPACITY ∧ t.occupancy < t.capacity := ⟨hs, hroom⟩
    exact ⟨_, fun rebuild => by rw [HyperTable.insertWith, if_pos hsmall],
      hb.insertLinear hs hroom hv⟩
  · next hs =>
    have h8 : 8 ≤ t.capacity := Nat.not_lt.1 hs
    have hlarge : ¬ (t.capacity < MIN_HT_CAPACITY ∧ t.occupancy < t.capacity) := fun h => hs h.1
    have hload := hroom.1
    rw [Bool.eq_false_iff, Ne, isOverloaded_iff, Nat.not_lt] at hload
    obtain ⟨t', ht', hb', hgrows⟩ := hb.insertHash hash h8 hload hv
    refine ⟨t', fun rebuild => ?_, hb', hgrows⟩
    rw [HyperTable.insertWith, if_neg hlarge, makeRoom_eq_self rebuild h8 hroom.1 hroom.2,
      Option.map_some, ht']

variable [Inhabited V]

theorem created {c : Nat} (hcap : ∃ k, c = 4 * 2 ^ k) (r : Int) :
    Booked { capacity := c, occupancy := 0, insRmCount := r,
             buckets := (bucketArrayCreate c : Nat → Bucket V) } := by
  have hno := not_isValid_created (V := V) c
  exact ⟨hcap, count_of_small (Nat.zero_le c) fun i _ => by simp [hno], fun _ i _ => by simp [hno],
    fun _ => Nat.zero_le _⟩

/-- The new table once the first `m` buckets of `t` are in it. -/
structure Refilled (t : HyperTable V) (newCapacity m : Nat) (new : HyperTable V) : Prop where
  booked : Booked new
  capacity : new.capacity = newCapacity
  occupancy : new.occupancy ≤ count isValid m t.buckets
  insRmCount : new.insRmCount ≤ -t.occupancy + count isValid m t.buckets

variable (hash) in
omit [Inhabited V] in
theorem Refilled.step {t new : HyperTable V} {newCapacity m : Nat}
    (hr : Refilled t newCapacity m new) (hb : Booked t) (hm : m < t.capacity)
    (hfit : if newCapacity < 8 then t.occupancy ≤ newCapacity
      else t.occupancy ≤ 15 * newCapacity / 16 + 1) :
    ∃ new', (∀ rebuild, (if isValid (t.buckets m).key then
        (HyperTable.insertWith hash rebuild new (t.buckets m)).map (·.2)
          else some new) = some new') ∧
      Refilled t newCapacity (m + 1) new' := by
  obtain ⟨hnew, hcap, hocc, hins⟩ := hr
  have hmono := count_mono isValid t.buckets (show m + 1 ≤ t.capacity from hm)
  have hsucc := count_succ isValid m t.buckets
  rw [hb.occupied] at hmono
  cases hv : isValid (t.buckets m).key with
  | false =>
    rw [hv, Bool.toNat_false] at hsucc
    exact ⟨new, fun _ => rfl, hnew, hcap, by omega, by omega⟩
  | true =>
    rw [hv, Bool.toNat_true] at hsucc
    obtain ⟨new', hins', hb', hcap', hgrows⟩ := hnew.insertWith hash hv (by
      rw [hcap]
      split at hfit
      · next hs => rw [if_pos hs]; omega
      · next hs =>
        rw [if_neg hs]
        exact ⟨by rw [Bool.eq_false_iff, Ne, isOverloaded_iff]; omega,
          timeToRebuild_neg (by omega)⟩)
    exact ⟨new', fun rebuild => by rw [if_pos rfl, hins' rebuild]; rfl, hb', hcap'.trans hcap,
      by omega, by omega⟩

variable (hash) in
/-- A rebuild succeeds, whatever its insertions would rebuild with. -/
theorem rebuildWith {newCapacity : Nat} (hb : Booked t) (hcap : ∃ k, newCapacity = 4 * 2 ^ k)
    (hfit : if newCapacity < 8 then t.occupancy ≤ newCapacity
      else t.occupancy ≤ 15 * newCapacity / 16 + 1) :
    ∃ new, (∀ rebuild, HyperTable.rebuildWith (HyperTable.insertWith hash rebuild) t newCapacity =
      some new) ∧
      Booked new ∧ new.capacity = newCapacity ∧ new.occupancy ≤ t.occupancy ∧
      new.insRmCount ≤ 0 := by
  suffices ∀ m ≤ t.capacity, ∃ new, (∀ rebuild, (List.range m).foldlM (fun new i =>
        if isValid (t.buckets i).key then (HyperTable.insertWith hash rebuild new (t.buckets i)).map
          (·.2) else some new)
      { capacity := newCapacity, occupancy := 0, insRmCount := -t.occupancy,
        buckets := bucketArrayCreate newCapacity } = some new) ∧ Refilled t newCapacity m new by
    obtain ⟨new, hnew, hr⟩ := this t.capacity (Nat.le_refl _)
    have hocc := hr.occupancy
    have hins := hr.insRmCount
    rw [hb.occupied] at hocc hins
    exact ⟨new, hnew, hr.booked, hr.capacity, hocc, by omega⟩
  intro m hm
  induction m with
  | zero => exact ⟨_, fun _ => rfl, .created hcap _, rfl, Nat.zero_le _, by simp [count]⟩
  | succ m ih =>
    obtain ⟨new, hfold, hr⟩ := ih (by omega)
    obtain ⟨new', hstep, hr'⟩ := hr.step hash hb hm hfit
    refine ⟨new', fun rebuild => ?_, hr'⟩
    rw [List.range_succ, List.foldlM_append, hfold rebuild]
    simp only [List.foldlM_cons, List.foldlM_nil, Option.bind_eq_bind, Option.bind_some,
      hstep rebuild]
    rfl

/-! ### Operations -/

variable (hash) in
theorem makeRoom (hb : Booked t) :
    ∃ t', (∀ rebuild, HyperTable.makeRoom (HyperTable.rebuildWith
      (HyperTable.insertWith hash rebuild)) t = some t') ∧
      Booked t' ∧ 8 ≤ t'.capacity ∧ t'.occupancy ≤ 15 * t'.capacity / 16 := by
  have hle := hb.occupancy_le
  have hload := hb.load
  rcases hb.small_or with h4 | ⟨h8, -, -⟩
  · have hs : t.capacity < MIN_HT_CAPACITY := by rw [h4]; decide
    obtain ⟨new, hnew, hb', hcap, hocc, hins⟩ :=
      hb.rebuildWith hash hb.double (by rw [if_neg (by omega)]; omega)
    refine ⟨new, fun rebuild => ?_, hb', by omega, by omega⟩
    have hlarge : ¬ new.capacity < MIN_HT_CAPACITY := by rw [hcap, h4]; decide
    have hroom := makeRoom_eq_self (HyperTable.rebuildWith (HyperTable.insertWith hash rebuild))
      (t := new) (by omega)
      (by rw [Bool.eq_false_iff, Ne, isOverloaded_iff]; omega) (timeToRebuild_neg (by omega))
    simp only [HyperTable.makeRoom, hlarge, if_false, Option.bind_eq_bind,
      Option.bind_some] at hroom
    simp only [HyperTable.makeRoom, hs, if_true, hnew rebuild, Option.bind_eq_bind,
      Option.bind_some]
    exact hroom
  · have hlarge : ¬ t.capacity < MIN_HT_CAPACITY := Nat.not_lt.2 h8
    cases hover : isOverloaded t.occupancy t.capacity with
    | true =>
      obtain ⟨new, hnew, hb', hcap, hocc, -⟩ :=
        hb.rebuildWith hash hb.double (by rw [if_neg (by omega)]; omega)
      exact ⟨new, fun rebuild => by simp [HyperTable.makeRoom, hlarge, hover, hnew rebuild], hb',
        by omega, by omega⟩
    | false =>
      have hroom := hover
      rw [Bool.eq_false_iff, Ne, isOverloaded_iff, Nat.not_lt] at hroom
      cases htime : timeToRebuild t.insRmCount t.capacity with
      | true =>
        obtain ⟨new, hnew, hb', hcap, hocc, -⟩ := hb.rebuildWith hash hb.capacity
          (by rw [if_neg (by omega)]; omega)
        exact ⟨new,
          fun rebuild => by simp [HyperTable.makeRoom, hlarge, hover, htime, hnew rebuild],
          hb', by omega, by rw [hcap]; omega⟩
      | false => exact ⟨t, fun rebuild => makeRoom_eq_self _ h8 hover htime, hb, h8, hroom⟩

variable (hash) in
theorem insert (hb : Booked t) (hv : isValid b.key = true) :
    ∃ t', (∀ rebuild, HyperTable.insertWith hash
      (HyperTable.rebuildWith (HyperTable.insertWith hash rebuild)) t b =
        some (true, t')) ∧ Booked t' := by
  by_cases hs : t.capacity < MIN_HT_CAPACITY ∧ t.occupancy < t.capacity
  · exact ⟨_, fun rebuild => by rw [HyperTable.insertWith, if_pos hs],
      (hb.insertLinear hs.1 hs.2 hv).1⟩
  · obtain ⟨t₁, ht₁, hb₁, h8, hload⟩ := hb.makeRoom hash
    obtain ⟨t', ht', hb', -⟩ := hb₁.insertHash hash h8 hload hv
    refine ⟨t', fun rebuild => ?_, hb'⟩
    rw [HyperTable.insertWith, if_neg hs, ht₁ rebuild, Option.map_some, ht']

end Booked

/-! ## Runs -/

section Runs

variable [Inhabited V] {t : HyperTable V} {ops : List (TableOp V)}

/-- `remove`, with the rebuild it makes. -/
def removeWith (hash : Key → Nat) (rebuild : HyperTable V → Nat → Option (HyperTable V))
    (t : HyperTable V) (key : Key) : Option (Bool × HyperTable V) :=
  if t.capacity < MIN_HT_CAPACITY then some (t.removeLinear key)
  else
    match t.find hash key with
    | none => some (false, t)
    | some i =>
      let t := { t with
        buckets := Function.update t.buckets i (t.buckets i).makeTombstone
        occupancy := t.occupancy - 1
        insRmCount := t.insRmCount + 1 }
      if isUnderloaded t.occupancy t.capacity then (rebuild t (t.capacity / 2)).map (true, ·)
      else if timeToRebuild t.insRmCount t.capacity then (rebuild t t.capacity).map (true, ·)
      else some (true, t)

theorem remove_eq (hash : Key → Nat) (t : HyperTable V) (key : Key) :
    t.remove hash key = removeWith hash (rebuild hash) t key := rfl

/-- A rebuild whose insertions fail where they would rebuild. -/
def rebuildOnce (hash : Key → Nat) : HyperTable V → Nat → Option (HyperTable V) :=
  rebuildWith (insertWith hash fun _ _ => none)

variable (hash) in
theorem Booked.remove (hb : Booked t) {key : Key} (hv : isValid key = true) :
    ∃ r t', (∀ rebuild, removeWith hash (HyperTable.rebuildWith
      (HyperTable.insertWith hash rebuild)) t key = some (r, t')) ∧ Booked t' := by
  rcases hb.small_or with h4 | ⟨h8, heven, hhalf⟩
  · have hs : t.capacity < 8 := by omega
    exact ⟨_, _,
      fun rebuild => by rw [removeWith, if_pos (show t.capacity < MIN_HT_CAPACITY from hs)],
      (hb.removeLinear hs key).1⟩
  · have hs : ¬ t.capacity < MIN_HT_CAPACITY := Nat.not_lt.2 h8
    have htc := getTableEntry_lt hash (c := t.capacity) (by omega) key
    have hload := hb.load h8
    cases hfind : t.find hash key with
    | none => exact ⟨false, t, fun rebuild => by simp only [removeWith, if_neg hs, hfind], hb⟩
    | some i =>
      have hfrom := hfind
      rw [find, if_neg hs] at hfrom
      obtain ⟨hi, hk⟩ := findFrom_some _ _ htc hfrom
      have hcount := count_update isValid t.buckets (t.buckets i).makeTombstone hi
      have htomb : isValid (t.buckets i).makeTombstone.key = false := by
        simp [Bucket.makeTombstone, isValid, isTombstone]
      rw [hk, hv, htomb, hb.occupied, Bool.toNat_true, Bool.toNat_false] at hcount
      simp only [removeWith, if_neg hs, hfind]
      generalize ht₁ : ({ t with
        buckets := Function.update t.buckets i (t.buckets i).makeTombstone
        occupancy := t.occupancy - 1
        insRmCount := t.insRmCount + 1 } : HyperTable V) = t₁
      have hb₁ : Booked t₁ := by
        subst ht₁
        exact .of_large hb.capacity h8 (by simp only; omega) (by simp only; omega)
      have hcap₁ : t₁.capacity = t.capacity := by subst ht₁; rfl
      have hocc₁ : t₁.occupancy = t.occupancy - 1 := by subst ht₁; rfl
      split
      · next hunder =>
        have := (isUnderloaded_iff.1 hunder).2
        obtain ⟨new, hnew, hb', -⟩ := hb₁.rebuildWith hash hhalf (by split <;> omega)
        exact ⟨true, new, fun rebuild => by rw [hnew rebuild]; rfl, hb'⟩
      · split
        · obtain ⟨new, hnew, hb', -⟩ :=
            hb₁.rebuildWith hash hb.capacity (by rw [if_neg (by omega)]; omega)
          exact ⟨true, new, fun rebuild => by rw [hnew rebuild]; rfl, hb'⟩
        · exact ⟨true, t₁, fun _ => rfl, hb₁⟩

theorem Booked.run (hash : Key → Nat) (hv : ∀ op ∈ ops, isValid op.key = true) :
    ∃ t, (empty : HyperTable V).run hash ops = some t ∧ Booked t := by
  induction ops using List.reverseRecOn with
  | nil => exact ⟨_, rfl, .created ⟨0, rfl⟩ 0⟩
  | append_singleton ops op ih =>
    obtain ⟨t, ht, hb⟩ := ih fun op hop => hv op (by simp [hop])
    have hop := hv op (by simp)
    have hstep : ∃ t', t.step hash op = some t' ∧ Booked t' := by
      cases op with
      | insert key value =>
        obtain ⟨t', ht', hb'⟩ := hb.insert hash (b := { key, value }) hop
        refine ⟨t', ?_, hb'⟩
        rw [HyperTable.step, HyperTable.insert, HyperTable.rebuild, insertDepth, ht']
        rfl
      | remove key =>
        obtain ⟨r, t', ht', hb'⟩ := hb.remove hash (show isValid key = true from hop)
        exact ⟨t',
          by rw [HyperTable.step, remove_eq, HyperTable.rebuild, insertDepth, ht']; rfl, hb'⟩
    obtain ⟨t', ht', hb'⟩ := hstep
    refine ⟨t', ?_, hb'⟩
    simp only [HyperTable.run, List.foldlM_append, List.foldlM_cons, List.foldlM_nil] at ht ⊢
    simp [ht, ht']

/-- The books of a table are kept: the occupancy is the number of buckets in
use, operations succeed, and those that rebuild do not rebuild within it. -/
structure Keeps (hash : Key → Nat) (t : HyperTable V) : Prop where
  capacity : ∃ k, t.capacity = 2 ^ (k + 2)
  occupied : t.occupancy = count isValid t.capacity t.buckets
  notOver : t.occupancy ≤ t.capacity ∧ (32 ≤ t.capacity → t.occupancy < t.capacity)
  linear : t.capacity = 4 → ∀ i < 4, isValid (t.buckets i).key = true ↔ i < t.occupancy
  insert : ∀ key value, isValid key = true → ∃ t', t.insert hash { key, value } = some (true, t') ∧
    insertWith hash (rebuildOnce hash) t { key, value } = some (true, t')
  remove : ∀ key, isValid key = true → ∃ r t', t.remove hash key = some (r, t') ∧
    removeWith hash (rebuildOnce hash) t key = some (r, t')

theorem Booked.keeps {hash : Key → Nat} (hb : Booked t) : Keeps hash t where
  capacity := by
    obtain ⟨k, hk⟩ := hb.capacity
    exact ⟨k, by rw [hk, Nat.pow_add, Nat.mul_comm]⟩
  occupied := hb.occupied.symm
  notOver := ⟨hb.occupancy_le, fun h32 => by have := hb.load (by omega); omega⟩
  linear h4 i hi := hb.small (by omega) i (by omega)
  insert key value hv := by
    obtain ⟨t', ht', -⟩ := hb.insert hash (b := { key, value }) hv
    exact ⟨t', ht' _, ht' _⟩
  remove key hv := by
    obtain ⟨r, t', ht', -⟩ := hb.remove hash hv
    exact ⟨r, t', ht' _, ht' _⟩

/-- **Bookkeeping.** Whatever is inserted and removed, an operation ends and
succeeds, and what the table counts is what is in it. Capacities of 8 and 16
can fill up: the load is looked at before an insertion.

The loops are given as many steps as the table has buckets, and none takes
more. No bound on the capacity is needed; below 2^27 the numbers are those of
the source. -/
theorem run_keeps (hash : Key → Nat) (hv : ∀ op ∈ ops, isValid op.key = true) :
    (∃ t : HyperTable V, empty.run hash ops = some t ∧ Keeps hash t) ∧
      ∀ (c tgt : Nat) (bs : Nat → Bucket V) (key : Key), tgt < c → LoopsEnd c bs key tgt := by
  obtain ⟨t, ht, hb⟩ := Booked.run (V := V) hash hv
  exact ⟨⟨t, ht, hb.keeps⟩, fun c tgt bs key htc => .of_lt bs key htc⟩

end Runs

/-- Eight buckets, all in use. -/
def fullTable : List (TableOp Nat) :=
  [.insert 0xc0#64 1, .insert 0x10#64 2, .insert 0x70#64 3, .insert 0x100#64 4, .insert 0x160#64 5,
    .insert 0x250#64 6, .insert 0x280#64 7, .insert 0x340#64 8]

theorem run_keeps_full : ∃ t, empty.run HyperTable.hash fullTable = some t ∧
    Keeps HyperTable.hash t :=
  (run_keeps HyperTable.hash (by decide)).1

theorem not_occupancy_lt : ¬ ∀ (hash : Key → Nat) (ops : List (TableOp Nat)),
    (∀ op ∈ ops, isValid op.key = true) →
    (∀ pre t, pre <+: ops → empty.run hash pre = some t → t.capacity < 2 ^ 27) →
    ∃ t, empty.run hash ops = some t ∧ (8 ≤ t.capacity → t.occupancy < t.capacity) := by
  intro h
  have hcap :
      ∀ pre ∈ fullTable.inits, (empty.run HyperTable.hash pre).all (fun t => t.capacity < 2 ^ 27) =
      true := by
    decide +kernel
  have hfull :
      (empty.run HyperTable.hash fullTable).all (fun t => t.capacity = 8 ∧
        t.occupancy = 8) = true := by
    decide +kernel
  obtain ⟨t, ht, hlt⟩ := h HyperTable.hash fullTable (by decide) fun pre t hp ht => by
    have := hcap pre ((List.mem_inits _ _).2 hp)
    rw [ht] at this
    simpa using this
  rw [ht] at hfull
  obtain ⟨hc, ho⟩ : t.capacity = 8 ∧ t.occupancy = 8 := by simpa using hfull
  have := hlt (by omega)
  omega

end Cilksan.HyperTable
