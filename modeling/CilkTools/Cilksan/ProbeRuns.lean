/-
The comparison that ends a probe of the hash table, modulo the capacity, and
what follows for a probe along a run: it gets to every bucket with its hash.
-/
import CilkTools.Cilksan.HyperTableSpec

namespace Cilksan.HyperTable

open OrderedProbing

variable {V : Type} {c tgt : Nat} {bs : Nat → Bucket V}

/-- The distances compared are those round the table. -/
theorem continueProbe_iff_mod {hash idx : Nat} (hc : c ≤ 2 ^ 32) (ht : tgt < c) (hh : hash < c)
    (hi : idx < c) :
    continueProbe tgt hash idx = true ↔ (c + idx - tgt) % c ≤ (c + idx - hash) % c := by
  rw [continueProbe_iff hc ht hh hi, ahead_eq_mod ht hi, ahead_eq_mod hh hi]

/-! ## Runs of buckets -/

/-- The `n` buckets from `start` on are a run of the table: none of them is
empty, those with a key are ordered by how far they are from their hashes, and
the run reaches back to these. -/
structure BucketRun (c : Nat) (bs : Nat → Bucket V) (start n : Nat) : Prop where
  lt : start < c
  le : n ≤ c
  taken : ∀ k < n, isEmpty (bs ((start + k) % c)).key = false
  home : ∀ k < n, isValid (bs ((start + k) % c)).key = true →
    (bs ((start + k) % c)).hash < c ∧ (c + (start + k) % c - (bs ((start + k) % c)).hash) % c ≤ k
  ordered : ∀ l < n, ∀ k ≤ l, isValid (bs ((start + k) % c)).key = true →
    isValid (bs ((start + l) % c)).key = true →
    (c + (start + l) % c - (bs ((start + l) % c)).hash) % c ≤
      (c + (start + k) % c - (bs ((start + k) % c)).hash) % c + (l - k)

theorem fwd_eq_mod {i n : Nat} (hi : i < c) (hn : n ≤ c) : fwd c i n = (i + n) % c := by
  unfold fwd
  split
  · rw [Nat.mod_eq_of_lt (by omega)]
  · rw [Nat.mod_eq_sub_mod (by omega), Nat.mod_eq_of_lt (by omega)]

theorem BucketRun.run {start n : Nat} (hr : BucketRun c bs start n) : Run c (slots bs) start n := by
  obtain ⟨hlt, hle, htaken, hhome, hordered⟩ := hr
  have hfwd : ∀ k < n, fwd c start k = (start + k) % c := fun k hk => fwd_eq_mod hlt (by omega)
  have hi : ∀ k < n, fwd c start k < c := fun k hk => fwd_lt hlt (by omega)
  refine ⟨hlt, hle, fun k hk => ?_, fun k hk g hg => ?_, fun l hl k hkl g g' hg hg' => ?_⟩
  · rw [Ne, slots_eq_empty, hfwd k hk, htaken k hk]
    exact Bool.false_ne_true
  · obtain ⟨hv, rfl⟩ := slot_full.1 hg
    rw [hfwd k hk] at hv
    obtain ⟨hlt', hd⟩ := hhome k hk hv
    rw [← hfwd k hk] at hlt' hd
    exact ⟨hlt', by rwa [ahead_eq_mod hlt' (hi k hk)]⟩
  · obtain ⟨hv, rfl⟩ := slot_full.1 hg
    obtain ⟨hv', rfl⟩ := slot_full.1 hg'
    have hk : k < n := by omega
    rw [hfwd k hk] at hv
    rw [hfwd l hl] at hv'
    have h := (hhome k hk hv).1
    have h' := (hhome l hl hv').1
    have hord := hordered l hl k hkl hv hv'
    rw [← hfwd k hk] at h hord
    rw [← hfwd l hl] at h' hord
    rwa [ahead_eq_mod h' (hi l hl), ahead_eq_mod h (hi k hk)]

/-! ## Probes along a run -/

/-- A probe that may go on and has not seen its key gets one slot further. -/
theorem findFrom_step {key : Key} {n m : Nat} (hc : c ≤ 2 ^ 32) (ht : tgt < c) (hm : m + 1 < c)
    (hg : ∀ g, slots bs (fwd c tgt m) = .full g → g < c) (hcont : Continues c (slots bs) tgt m)
    (hkey : (bs (fwd c tgt m)).key ≠ key) :
    findFrom bs c key tgt (n + 1) (fwd c tgt m) = findFrom bs c key tgt n (fwd c tgt (m + 1)) := by
  have hi := fwd_lt ht (Nat.le_of_lt (Nat.lt_of_succ_lt hm))
  have hnext : incIndex (fwd c tgt m) c = fwd c tgt (m + 1) := by
    rw [incIndex_eq_fwd hi, fwd_fwd ht (by omega)]
  have hempty : ¬ isEmpty (bs (fwd c tgt m)).key = true := fun h => hcont.1 (slots_eq_empty.2 h)
  have hgo :
      (isTombstone (bs (fwd c tgt m)).key ||
        continueProbe tgt (bs (fwd c tgt m)).hash (fwd c tgt m)) = true := by
    rw [Bool.or_eq_true]
    by_cases htomb : isTombstone (bs (fwd c tgt m)).key = true
    · exact .inl htomb
    · have hfull := slot_full.2 ⟨isValid_iff.2 ⟨by simpa using hempty, by simpa using htomb⟩, rfl⟩
      right
      rw [continueProbe_iff hc ht (hg _ hfull) hi, ahead_fwd ht (by omega)]
      exact hcont.2 _ hfull
  rw [findFrom, if_neg hkey.symm, if_neg hempty, if_pos hgo]
  simp only [hnext, if_neg (fwd_ne_self (Nat.succ_pos m) hm)]

/-- The probe for a key gets `m` slots on, as far as any bucket of the run
with its hash is, if it has not seen the key by then. -/
theorem findFrom_reaches {key : Key} {start n l : Nat} (hc : c ≤ 2 ^ 32)
    (hr : Run c (slots bs) start n) (hl : l < n)
    (hs : slots bs (fwd c start l) = .full tgt) (m : Nat) (hm : m ≤ ahead c (fwd c start l) tgt)
    (hseen : ∀ k < m, (bs (fwd c tgt k)).key ≠ key) :
    findFrom bs c key tgt c tgt = findFrom bs c key tgt (c - m) (fwd c tgt m) := by
  obtain ⟨ht, hd⟩ := hr.home l hl tgt hs
  have hn := hr.le
  induction m with
  | zero => rw [fwd_zero ht, Nat.sub_zero]
  | succ m ih =>
    have hslot := fwd_of_ahead_le (m := m) hr.lt (by omega) ht hd (by omega)
    have hlt : ∀ g, slots bs (fwd c tgt m) = .full g → g < c := fun g hg => by
      rw [hslot] at hg
      exact (hr.home _ (by omega) g hg).1
    rw [ih (by omega) fun k hk => hseen k (by omega), show c - m = c - (m + 1) + 1 by omega]
    exact findFrom_step hc ht (by omega) hlt (hr.continues hl hs (by omega))
      (hseen m (Nat.lt_succ_self m))

/-- **The probe comparison.** The test on 32-bit differences compares the
distances round the table, so a probe for a hash in a run does not stop before
the run's last bucket with that hash, unless it finds its key. -/
theorem continueProbe_modulo {e : Nat} (hc : c = 2 ^ e) (he : e ≤ 31) :
    (∀ tgt hash idx, tgt < c → hash < c → idx < c →
      (continueProbe tgt hash idx = true ↔ (c + idx - tgt) % c ≤ (c + idx - hash) % c)) ∧
    ∀ (bs : Nat → Bucket V) (start n : Nat), BucketRun c bs start n →
    ∀ (key : Key) (tgt l : Nat), l < n →
      isValid (bs ((start + l) % c)).key = true → (bs ((start + l) % c)).hash = tgt →
      ∀ m ≤ (c + (start + l) % c - tgt) % c, (∀ k < m, (bs ((tgt + k) % c)).key ≠ key) →
        findFrom bs c key tgt c tgt = findFrom bs c key tgt (c - m) ((tgt + m) % c) := by
  have hle : c ≤ 2 ^ 32 := by
    rw [hc]
    exact Nat.pow_le_pow_right (by decide) (by omega)
  refine ⟨fun tgt hash idx ht hh hi => continueProbe_iff_mod hle ht hh hi,
    fun bs start n hr key tgt l hl hv htgt m hm hseen => ?_⟩
  have hrun := hr.run
  have hn := hr.le
  rw [← fwd_eq_mod hr.lt (show l ≤ c by omega)] at hv htgt hm
  have hs : slots bs (fwd c start l) = .full tgt := slot_full.2 ⟨hv, htgt⟩
  have ht := (hrun.home l hl tgt hs).1
  have hi : fwd c start l < c := fwd_lt hr.lt (by omega)
  rw [← ahead_eq_mod ht hi] at hm
  have hlt := ahead_lt ht hi
  rw [← fwd_eq_mod ht (by omega)]
  refine findFrom_reaches hle hrun hl hs m hm fun k hk => ?_
  rw [fwd_eq_mod ht (by omega)]
  exact hseen k hk

/-- The run of the second and third cases that the source describes: hashes
6, 6, 6, 7 and 0, from bucket 6 on. -/
def wrappedRun (i : Nat) : Bucket Nat :=
  match i with
  | 6 => { key := 1#64, hash := 6, value := 0 }
  | 7 => { key := 2#64, hash := 6, value := 0 }
  | 0 => { key := 3#64, hash := 6, value := 0 }
  | 1 => { key := 4#64, hash := 7, value := 0 }
  | 2 => { key := 5#64, hash := 0, value := 0 }
  | _ => default

theorem continueProbe_modulo_wrapped :
    (continueProbe 0 6 0 = true ↔ (8 + 0 - 0) % 8 ≤ (8 + 0 - 6) % 8) ∧
      findFrom wrappedRun 8 5#64 0 8 0 = findFrom wrappedRun 8 5#64 0 6 2 := by
  obtain ⟨hcmp, hreach⟩ := continueProbe_modulo (V := Nat) (c := 8) (e := 3) rfl (by decide)
  refine ⟨hcmp 0 6 0 (by decide) (by decide) (by decide), ?_⟩
  exact hreach wrappedRun 6 5 ⟨by decide, by decide, by decide, by decide, by decide⟩ 5#64 0 4
    (by decide) (by decide) (by decide) 2 (by decide) (by decide)

end Cilksan.HyperTable
