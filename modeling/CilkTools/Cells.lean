/-
Addresses divided into cells, and searches that look at one address a cell:
what a search passes, where it stops, and how far past the end of the range it
may get.
-/
import Mathlib.Data.Nat.Basic
import Mathlib.Algebra.Order.Ring.Nat
import Mathlib.Tactic.SplitIfs

/-- The first multiple of `g` after `x`. -/
def nextMultiple (g x : Nat) : Nat := (x / g + 1) * g

section

variable {g h x y : Nat}

theorem lt_nextMultiple (hg : 0 < g) : x < nextMultiple g x := by
  have := Nat.lt_mul_div_succ x hg
  rwa [Nat.mul_comm] at this

theorem nextMultiple_le (x : Nat) : nextMultiple g x ≤ x + g := by
  unfold nextMultiple
  have := Nat.div_mul_le_self x g
  rw [Nat.add_mul, Nat.one_mul]
  omega

theorem dvd_nextMultiple (x : Nat) : g ∣ nextMultiple g x := Dvd.intro_left _ rfl

theorem nextMultiple_le_of_dvd (hd : g ∣ y) (h : x < y) : nextMultiple g x ≤ y := by
  obtain ⟨k, rfl⟩ := hd
  unfold nextMultiple
  rw [Nat.mul_comm]
  refine Nat.mul_le_mul_left g ?_
  rw [Nat.succ_le_iff]
  exact Nat.div_lt_of_lt_mul h

theorem nextMultiple_of_dvd (hg : 0 < g) (hd : g ∣ x) : nextMultiple g x = x + g := by
  obtain ⟨k, rfl⟩ := hd
  rw [nextMultiple, Nat.mul_div_cancel_left _ hg, Nat.add_mul, Nat.one_mul, Nat.mul_comm]

theorem div_eq_of_lt_nextMultiple (hg : 0 < g) (h₁ : x ≤ y) (h₂ : y < nextMultiple g x) :
    y / g = x / g := by
  refine Nat.le_antisymm ?_ (Nat.div_le_div_right h₁)
  rw [← Nat.lt_succ_iff, Nat.div_lt_iff_lt_mul hg]
  exact h₂

theorem lt_nextMultiple_of_div_eq (hg : 0 < g) (h : y / g = x / g) : y < nextMultiple g x := by
  unfold nextMultiple
  rw [← h]
  exact lt_nextMultiple hg

theorem nextMultiple_congr (h : y / g = x / g) : nextMultiple g y = nextMultiple g x := by
  rw [nextMultiple, nextMultiple, h]

/-- A wider cell holds a narrower one that starts in it. -/
theorem div_eq_of_dvd (hd : g ∣ h) (hxy : y / g = x / g) : y / h = x / h := by
  obtain ⟨k, rfl⟩ := hd
  rw [← Nat.div_div_eq_div_mul, ← Nat.div_div_eq_div_mul, hxy]

theorem nextMultiple_le_nextMultiple (hd : g ∣ h) (hh : 0 < h) (x : Nat) :
    nextMultiple g x ≤ nextMultiple h x :=
  nextMultiple_le_of_dvd (Dvd.dvd.trans hd (dvd_nextMultiple x)) (lt_nextMultiple hh)

end

/-- The width of each address's cell. -/
structure Cells where
  width : Nat → Nat
  pos : ∀ b, 0 < width b
  same : ∀ {b c}, c / width b = b / width b → width c = width b

namespace Cells

variable (u : Cells)

/-- The end of the cell. -/
def next (p : Nat) : Nat := nextMultiple (u.width p) p

variable {u} {p b c e : Nat}

theorem lt_next : p < u.next p := lt_nextMultiple (u.pos p)

theorem next_eq (h₁ : p ≤ b) (h₂ : b < u.next p) : u.next b = u.next p := by
  have hdiv := div_eq_of_lt_nextMultiple (u.pos p) h₁ h₂
  unfold next
  rw [u.same hdiv]
  exact nextMultiple_congr hdiv

/-- A function with one value in each cell. -/
def Const (u : Cells) (f : Nat → α) : Prop := ∀ b c, c / u.width b = b / u.width b → f c = f b

theorem Const.eq {f : Nat → α} (hf : u.Const f) (h₁ : p ≤ b) (h₂ : b < u.next p) : f b = f p :=
  hf _ _ (div_eq_of_lt_nextMultiple (u.pos p) h₁ h₂)

/-- The first address from `p` on, one a cell, at which `stop` holds or that is
not before `e`. -/
def seek (u : Cells) (stop : Nat → Bool) (e p : Nat) : Nat :=
  if e ≤ p then p else if stop p then p else u.seek stop e (u.next p)
termination_by e - p
decreasing_by
  have := u.lt_next (p := p)
  omega

variable {stop used : Nat → Bool}

theorem seek_of_le (h : e ≤ p) : u.seek stop e p = p := by
  rw [seek, if_pos h]

theorem seek_of_stop (h : stop p = true) : u.seek stop e p = p := by
  rw [seek, if_pos h, ite_self]

theorem seek_of_not_stop (hp : p < e) (h : stop p = false) :
    u.seek stop e p = u.seek stop e (u.next p) := by
  rw [seek, if_neg (by omega), h]
  rfl

theorem le_seek : p ≤ u.seek stop e p := by
  induction p using seek.induct u stop e with
  | case1 p h => rw [seek_of_le h]
  | case2 p h hs => rw [seek_of_stop hs]
  | case3 p h hs ih =>
    rw [seek_of_not_stop (by omega) (by simpa using hs)]
    exact Nat.le_trans (Nat.le_of_lt lt_next) ih

theorem stop_seek (h : u.seek stop e p < e) : stop (u.seek stop e p) = true := by
  induction p using seek.induct u stop e with
  | case1 p hp =>
    rw [seek_of_le hp] at h
    omega
  | case2 p hp hs => rwa [seek_of_stop hs]
  | case3 p hp hs ih =>
    rw [seek_of_not_stop (by omega) (by simpa using hs)] at h ⊢
    exact ih h

/-- Nothing that is passed stops the search. -/
theorem not_stop_of_lt_seek (hc : u.Const stop) (h₁ : p ≤ b) (h₂ : b < u.seek stop e p)
    (hb : b < e) : stop b = false := by
  induction p using seek.induct u stop e with
  | case1 p hp => omega
  | case2 p hp hs =>
    rw [seek_of_stop hs] at h₂
    omega
  | case3 p hp hs ih =>
    rw [seek_of_not_stop (by omega) (by simpa using hs)] at h₂
    rcases Nat.lt_or_ge b (u.next p) with hlt | hge
    · rw [hc.eq h₁ hlt]
      simpa using hs
    · exact ih hge h₂

/-- A search that finds nothing ends with the cell of the last address. -/
theorem seek_eq_next (hp : p < e) (h : e ≤ u.seek stop e p) : u.seek stop e p = u.next (e - 1) := by
  induction p using seek.induct u stop e with
  | case1 p hp' => omega
  | case2 p hp' hs =>
    rw [seek_of_stop hs] at h
    omega
  | case3 p hp' hs ih =>
    rw [seek_of_not_stop hp (by simpa using hs)] at h ⊢
    rcases Nat.lt_or_ge (u.next p) e with hlt | hge
    · exact ih hlt h
    · rw [seek_of_le hge]
      exact (next_eq (by omega) (by omega)).symm

/-- One may first look for a weaker condition. -/
theorem seek_seek (h : ∀ b, stop b = true → used b = true) :
    u.seek stop e (u.seek used e p) = u.seek stop e p := by
  induction p using seek.induct u used e with
  | case1 p hp => rw [seek_of_le hp]
  | case2 p hp hs => rw [seek_of_stop hs]
  | case3 p hp hs ih =>
    have hns : stop p = false := by
      by_contra hn
      exact hs (h p (by simpa using hn))
    rw [show u.seek used e p = _ from seek_of_not_stop (by omega) (by simpa using hs), ih,
      ← seek_of_not_stop (by omega) hns]

end Cells
