/-
Ordered linear probing on a ring of slots with tombstones: every entry is
reached from its home, past entries at least as far from theirs. An entry may
be put where a probe for its home stops; one that was there moves on to the
next slot, unless that takes it round to its own home again.
-/
import Mathlib.Logic.Function.Basic
import Mathlib.Algebra.Order.Ring.Nat

namespace OrderedProbing

/-- A full slot has the home of its entry. -/
inductive Slot
  | empty
  | tomb
  | full (home : Nat)
  deriving DecidableEq, Repr

/-! ## The ring -/

/-- `n` slots after `h`. -/
def fwd (c h n : Nat) : Nat := if h + n < c then h + n else h + n - c

/-- How far `i` is after `h`. -/
def ahead (c i h : Nat) : Nat := if h ≤ i then i - h else i + c - h

section Ring

variable {c h i n m : Nat}

theorem fwd_lt (hh : h < c) (hn : n ≤ c) : fwd c h n < c := by
  unfold fwd
  split <;> omega

@[simp] theorem fwd_zero (hh : h < c) : fwd c h 0 = h := by simp [fwd, hh]

theorem fwd_fwd (hh : h < c) (hn : n + m ≤ c) : fwd c (fwd c h n) m = fwd c h (n + m) := by
  unfold fwd
  repeat' split
  all_goals omega

theorem ahead_lt (hh : h < c) (hi : i < c) : ahead c i h < c := by
  unfold ahead
  split <;> omega

@[simp] theorem ahead_self : ahead c h h = 0 := by simp [ahead]

theorem ahead_fwd (hh : h < c) (hn : n < c) : ahead c (fwd c h n) h = n := by
  unfold ahead fwd
  repeat' split
  all_goals omega

theorem fwd_ahead (hh : h < c) (hi : i < c) : fwd c h (ahead c i h) = i := by
  unfold ahead fwd
  repeat' split
  all_goals omega

theorem ahead_succ (hh : h < c) (hi : i < c) (hd : ahead c i h + 1 < c) :
    ahead c (fwd c i 1) h = ahead c i h + 1 := by
  unfold ahead fwd at *
  repeat' split at *
  all_goals omega

theorem ahead_succ_lt_of_ne (hh : h < c) (hi : i < c) (hne : h ≠ fwd c i 1) :
    ahead c i h + 1 < c := by
  unfold ahead fwd at *
  repeat' split at *
  all_goals omega

theorem fwd_ne_self (hn : 0 < n) (hnc : n < c) : fwd c h n ≠ h := by
  unfold fwd
  split <;> omega

theorem ahead_fwd_one (hi : i < c) : ahead c i (fwd c i 1) + 1 = c := by
  unfold ahead fwd
  repeat' split
  all_goals omega

theorem ahead_eq_mod (hh : h < c) (hi : i < c) : ahead c i h = (c + i - h) % c := by
  unfold ahead
  split
  · rw [show c + i - h = c + (i - h) by omega, Nat.add_mod_left, Nat.mod_eq_of_lt (by omega)]
  · rw [Nat.add_comm, Nat.mod_eq_of_lt (by omega)]

/-- Steps before slot `n` after `i` are steps after `i`. -/
theorem fwd_of_ahead_le (hi : i < c) (hn : n < c) (hh : h < c) (hd : ahead c (fwd c i n) h ≤ n)
    (hm : m ≤ ahead c (fwd c i n) h) : fwd c h m = fwd c i (n - ahead c (fwd c i n) h + m) := by
  unfold ahead fwd at *
  repeat' split at *
  all_goals omega

/-- The slot before a slot that is not its entry's home. -/
theorem fwd_pred {g : Nat} (hg : g < c) (hm : m + 1 < c) (hi : i < c)
    (h : fwd c g (m + 1) = fwd c i 1) : fwd c g m = i := by
  unfold fwd at *
  repeat' split at *
  all_goals omega

end Ring

/-! ## Sorted rings -/

/-- A probe for home `h` goes on after `m` steps. -/
def Continues (c : Nat) (s : Nat → Slot) (h m : Nat) : Prop :=
  s (fwd c h m) ≠ .empty ∧ ∀ g, s (fwd c h m) = .full g → m ≤ ahead c (fwd c h m) g

structure Sorted (c : Nat) (s : Nat → Slot) : Prop where
  home_lt : ∀ i < c, ∀ g, s i = .full g → g < c
  reach : ∀ i < c, ∀ g, s i = .full g → ∀ m < ahead c i g, Continues c s g m

/-- Entries reached past slot `i` pass it within fewer than `n` steps. -/
def Bars (c : Nat) (s : Nat → Slot) (i n : Nat) : Prop :=
  ∀ j < c, ∀ g, s j = .full g → ∀ m < ahead c j g, fwd c g m = i → m < n

/-- An entry with home `h` may be put in slot `i`. -/
structure Admits (c : Nat) (s : Nat → Slot) (h i : Nat) : Prop where
  home_lt : h < c
  lt : i < c
  passes : ∀ m < ahead c i h, Continues c s h m
  ranges : ∀ j < c, ∀ g, s j = .full g → ∀ m < ahead c j g, fwd c g m = i → m ≤ ahead c i h
  here : ∀ g, s i = .full g → ahead c i g ≤ ahead c i h

variable {c : Nat} {s : Nat → Slot} {h i n : Nat}

theorem Continues.update {m : Nat} (hp : Continues c s h m) {x : Slot} (hx : x ≠ .empty)
    (hg : ∀ g, x = .full g → fwd c h m = i → m ≤ ahead c i g) :
    Continues c (Function.update s i x) h m := by
  unfold Continues
  by_cases hi : fwd c h m = i
  · subst hi
    simp only [Function.update_self]
    exact ⟨hx, fun g hxg => hg g hxg rfl⟩
  · rw [Function.update_of_ne hi]
    exact hp

/-- An entry is put where it fits, over a free slot or another entry. -/
theorem Sorted.put (hs : Sorted c s) (hf : Admits c s h i) :
    Sorted c (Function.update s i (.full h)) := by
  refine ⟨fun j hj g hg => ?_, fun j hj g hg m hm => ?_⟩
  · by_cases hji : j = i
    · subst hji
      rw [Function.update_self] at hg
      cases hg
      exact hf.home_lt
    · rw [Function.update_of_ne hji] at hg
      exact hs.home_lt j hj g hg
  · by_cases hji : j = i
    · subst hji
      rw [Function.update_self] at hg
      cases hg
      refine (hf.passes m hm).update (by simp) fun g _ hfwd => ?_
      have := ahead_fwd hf.home_lt (Nat.lt_trans hm (ahead_lt hf.home_lt hf.lt))
      rw [hfwd] at this
      omega
    · rw [Function.update_of_ne hji] at hg
      refine (hs.reach j hj g hg m hm).update (by simp) fun g' hg' hfwd => ?_
      cases hg'
      exact hf.ranges j hj g hg m hm hfwd

/-- The entry that was there fits the next slot, if it does not come home again. -/
theorem Admits.next {g : Nat} (hf : Admits c s h i) (hs : Sorted c s) (hi : s i = .full g)
    (hd : ahead c i g + 1 < c) : Admits c (Function.update s i (.full h)) g (fwd c i 1) := by
  have hg := hs.home_lt i hf.lt g hi
  have hsucc := ahead_succ hg hf.lt hd
  have hne : fwd c i 1 ≠ i := fwd_ne_self Nat.one_pos (by omega)
  -- What passes the next slot passed this one.
  have hpred : ∀ j < c, ∀ g', s j = .full g' → ∀ m, m + 1 ≤ ahead c j g' →
      fwd c g' (m + 1) = fwd c i 1 → m ≤ ahead c i g := fun j hj g' hg' m hm hfwd => by
    have hg'c := hs.home_lt j hj g' hg'
    have hmi := fwd_pred hg'c (Nat.lt_of_le_of_lt hm (ahead_lt hg'c hj)) hf.lt hfwd
    have := (hs.reach j hj g' hg' m hm).2
    rw [hmi] at this
    exact this g hi
  refine ⟨hg, fwd_lt hf.lt (by omega), fun m hm => ?_, fun j hj g' hg' m hm hfwd => ?_,
    fun g' hg' => ?_⟩
  · rw [hsucc, Nat.lt_succ_iff_lt_or_eq] at hm
    rcases hm with hm | rfl
    · refine (hs.reach i hf.lt g hi m hm).update (by simp) fun g' _ hfwd => ?_
      have := ahead_fwd hg (Nat.lt_trans hm (ahead_lt hg hf.lt))
      rw [hfwd] at this
      omega
    · have hfwd := fwd_ahead hg hf.lt
      unfold Continues
      rw [hfwd, Function.update_self]
      refine ⟨by simp, fun g' hg' => ?_⟩
      cases hg'
      exact hf.here g hi
  · rw [hsucc]
    cases m with
    | zero => omega
    | succ m =>
      by_cases hji : j = i
      · subst hji
        rw [Function.update_self] at hg'
        cases hg'
        have hlt := ahead_lt hf.home_lt hf.lt
        have hmi := fwd_pred hf.home_lt (by omega) hf.lt hfwd
        have := ahead_fwd hf.home_lt (n := m) (by omega)
        rw [hmi] at this
        omega
      · rw [Function.update_of_ne hji] at hg'
        exact Nat.succ_le_succ (hpred j hj g' hg' m (by omega) hfwd)
  · rw [Function.update_of_ne hne] at hg'
    rw [hsucc]
    have hlt : fwd c i 1 < c := fwd_lt hf.lt (by omega)
    have hg'c := hs.home_lt _ hlt g' hg'
    cases hk : ahead c (fwd c i 1) g' with
    | zero => omega
    | succ k =>
      refine Nat.succ_le_succ (hpred _ hlt g' hg' k (by omega) ?_)
      rw [← hk]
      exact fwd_ahead hg'c hlt

theorem Sorted.bury (hs : Sorted c s) : Sorted c (Function.update s i .tomb) := by
  have hold : ∀ {j g}, Function.update s i Slot.tomb j = .full g →
      s j = .full g := fun {j g} hj => by
    by_cases hji : j = i
    · subst hji
      simp at hj
    · rwa [Function.update_of_ne hji] at hj
  exact ⟨fun j hj g hg => hs.home_lt j hj g (hold hg),
    fun j hj g hg m hm => (hs.reach j hj g (hold hg) m hm).update (by simp) (by simp)⟩

theorem Sorted.of_not_full (hs : ∀ i < c, ∀ g, s i ≠ .full g) : Sorted c s :=
  ⟨fun i hi g hg => absurd hg (hs i hi g), fun i hi g hg => absurd hg (hs i hi g)⟩

/-! ## Runs -/

/-- The `n` slots from `i` on, none of them empty: their entries come in the
order of their homes, which are in the run too. -/
structure Run (c : Nat) (s : Nat → Slot) (i n : Nat) : Prop where
  lt : i < c
  le : n ≤ c
  taken : ∀ k < n, s (fwd c i k) ≠ .empty
  home : ∀ k < n, ∀ g, s (fwd c i k) = .full g → g < c ∧ ahead c (fwd c i k) g ≤ k
  ordered : ∀ l < n, ∀ k ≤ l, ∀ g g', s (fwd c i k) = .full g → s (fwd c i l) = .full g' →
    ahead c (fwd c i l) g' ≤ ahead c (fwd c i k) g + (l - k)

/-- A probe goes on at all slots of the run up to the last entry with its home. -/
theorem Run.continues {l m : Nat} (hr : Run c s i n) (hl : l < n) (hs : s (fwd c i l) = .full h)
    (hm : m ≤ ahead c (fwd c i l) h) : Continues c s h m := by
  obtain ⟨hh, hd⟩ := hr.home l hl h hs
  have hn := hr.le
  have hslot := fwd_of_ahead_le hr.lt (by omega) hh hd hm
  refine ⟨by rw [hslot]; exact hr.taken _ (by omega), fun g hg => ?_⟩
  rw [hslot] at hg ⊢
  have := hr.ordered l hl _ (by omega) g h hg hs
  omega

/-! ## Where a probe stops -/

section Stop

variable (hs : Sorted c s) (hh : h < c) (hn : n < c)

include hs in
theorem Bars.of_empty (hi : s i = .empty) : Bars c s i n := by
  intro j hj g hg m hm hfwd
  have := (hs.reach j hj g hg m hm).1
  rw [hfwd] at this
  exact absurd hi this

include hs in
theorem Bars.of_full {g : Nat} (hi : s i = .full g) (hd : ahead c i g < n) : Bars c s i n := by
  intro j hj g' hg' m hm hfwd
  have := (hs.reach j hj g' hg' m hm).2
  rw [hfwd] at this
  exact Nat.lt_of_le_of_lt (this g hi) hd

include hs hh in
/-- A run of tombstones up to the end of the lap, or to a slot that would stop the probe. -/
theorem Bars.of_tombs {l : Nat} (hl : n + l ≤ c) (ht : ∀ k < l, s (fwd c h (n + k)) = .tomb)
    (hend : n + l = c ∨ s (fwd c h (n + l)) = .empty ∨
      ∃ g, s (fwd c h (n + l)) = .full g ∧ ahead c (fwd c h (n + l)) g < n + l) :
    Bars c s (fwd c h n) n := by
  intro j hj g hg m hm hfwd
  have hgc := hs.home_lt j hj g hg
  have hkc := ahead_lt hgc hj
  obtain ⟨δ, hδ⟩ := Nat.exists_eq_add_of_lt hm
  -- The entry is `δ + 1` slots after the tombstone, and past the run.
  have hwalk : ∀ k, n + k ≤ c → m + k ≤ c → fwd c g (m + k) = fwd c h (n + k) := fun k hk hk' => by
    rw [← fwd_fwd hgc hk', hfwd, fwd_fwd hh hk]
  have hjd : j = fwd c g (m + (δ + 1)) := by
    rw [← fwd_ahead hgc hj, hδ]
    rfl
  have hle : l ≤ δ + 1 := by
    by_contra hlt
    have := ht (δ + 1) (by omega)
    rw [← hwalk _ (by omega) (by omega), ← hjd, hg] at this
    cases this
  rcases hend with hend | hend | ⟨g', hg', hd⟩
  · omega
  · rcases Nat.lt_or_eq_of_le hle with hlt | heq
    · have := (hs.reach j hj g hg (m + l) (by omega)).1
      rw [hwalk l hl (by omega)] at this
      exact absurd hend this
    · rw [heq, ← hwalk _ (by omega) (by omega), ← hjd, hg] at hend
      cases hend
  · rcases Nat.lt_or_eq_of_le hle with hlt | heq
    · have := (hs.reach j hj g hg (m + l) (by omega)).2
      rw [hwalk l hl (by omega)] at this
      have := this g' hg'
      omega
    · have hjl : fwd c h (n + l) = j := by rw [heq, ← hwalk _ (by omega) (by omega), ← hjd]
      rw [hjl] at hg' hd
      rw [hg] at hg'
      cases hg'
      omega

include hh hn in
/-- A slot a probe for `h` gets to, and that its entries do not need, fits. -/
theorem Bars.admits (hb : Bars c s (fwd c h n) n) (hp : ∀ m < n, Continues c s h m)
    (hhere : ∀ g, s (fwd c h n) = .full g → ahead c (fwd c h n) g ≤ n) :
    Admits c s h (fwd c h n) := by
  have hd := ahead_fwd hh hn
  refine ⟨hh, fwd_lt hh (Nat.le_of_lt hn), by rw [hd]; exact hp, fun j hj g hg m hm hfwd => ?_,
    by rw [hd]; exact hhere⟩
  rw [hd]
  exact Nat.le_of_lt (hb j hj g hg m hm hfwd)

omit hh hn in
/-- No entry with home `h` is beyond such a slot. -/
theorem Bars.le (hb : Bars c s (fwd c h n) n) {j : Nat} (hj : j < c) (hjh : s j = .full h) :
    ahead c j h ≤ n := by
  by_contra hlt
  exact absurd (hb j hj h hjh n (by omega) rfl) (Nat.lt_irrefl n)

include hh in
/-- Where all entries have the same home, one more fits there. -/
theorem Admits.of_same (hsame : ∀ j < c, ∀ g, s j = .full g → g = h) : Admits c s h h := by
  refine ⟨hh, hh, by simp, fun j hj g hg m hm hfwd => ?_, fun g hg => by rw [hsame h hh g hg]⟩
  obtain rfl := hsame j hj g hg
  have := ahead_fwd hh (Nat.lt_trans hm (ahead_lt hh hj))
  rw [hfwd] at this
  omega

include hs in
/-- While a slot is empty, no entry gets round to its home again. -/
theorem Sorted.ahead_succ_lt {g e : Nat} (hi : i < c) (hg : s i = .full g) (he : e < c)
    (hempty : s e = .empty) : ahead c i g + 1 < c := by
  have hgc := hs.home_lt i hi g hg
  have hlt := ahead_lt hgc hi
  have hne : ahead c e g ≠ ahead c i g := fun h => by
    have := fwd_ahead hgc he
    rw [h, fwd_ahead hgc hi] at this
    rw [this, hempty] at hg
    cases hg
  by_contra hge
  have := ahead_lt hgc he
  have := (hs.reach i hi g hg (ahead c e g) (by omega)).1
  rw [fwd_ahead hgc he] at this
  exact this hempty

end Stop

end OrderedProbing
