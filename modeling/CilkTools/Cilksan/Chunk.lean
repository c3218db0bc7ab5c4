/-
Addresses of the shadow memory (`simple_shadow_mem.h`): a page is an array of
lines, and a line has an entry for each aligned group of bytes. A chunk is a
region of memory that an access covers, from its current address on.

Masks and shifts are written as divisions; an address is a number.
-/
import CilkTools.Cells

namespace Cilksan

def LG_LINE_SIZE : Nat := 9
def LG_PAGE_SIZE : Nat := 30 - LG_LINE_SIZE
def LINE_SIZE : Nat := 2 ^ LG_LINE_SIZE

def byte (addr : Nat) : Nat := addr % 2 ^ LG_LINE_SIZE
def line (addr : Nat) : Nat := addr % 2 ^ (LG_PAGE_SIZE + LG_LINE_SIZE) / 2 ^ LG_LINE_SIZE
def page (addr : Nat) : Nat := addr / 2 ^ (LG_PAGE_SIZE + LG_LINE_SIZE)

def alignByNextGrainsize (addr lgGrainsize : Nat) : Nat :=
  (addr + 2 ^ lgGrainsize) / 2 ^ lgGrainsize * 2 ^ lgGrainsize

def isLineStart (addr : Nat) : Bool := byte addr == 0
def isPageStart (addr : Nat) : Bool := addr % 2 ^ (LG_PAGE_SIZE + LG_LINE_SIZE) == 0

/-- `__builtin_ctzl`, of a number that is not 0. -/
def ctz (n : Nat) : Nat := go 64 n
where
  go : Nat → Nat → Nat
    | 0, _ => 0
    | k + 1, n => if n % 2 = 1 then 0 else go k (n / 2) + 1

/-- `Chunk_t`. -/
structure Chunk where
  addr : Nat
  size : Nat
  deriving DecidableEq, Repr

namespace Chunk

def isEmpty (c : Chunk) : Bool := c.size == 0

def next (c : Chunk) (lgGrainsize : Nat) : Chunk :=
  let nextAddr := alignByNextGrainsize c.addr lgGrainsize
  let chunkSize := nextAddr - c.addr
  if chunkSize > c.size then ⟨nextAddr, 0⟩ else ⟨nextAddr, c.size - chunkSize⟩

def withinLine (c : Chunk) : Bool := c.addr + c.size < alignByNextGrainsize c.addr LG_LINE_SIZE

def getLgGrainsize (c : Chunk) : Nat :=
  let lgGrainsize := if ctz c.addr > LG_LINE_SIZE then LG_LINE_SIZE else ctz c.addr
  if c.size ≥ LINE_SIZE then lgGrainsize
  else if c.withinLine then
    if ctz (c.addr + c.size) < lgGrainsize then ctz (c.addr + c.size) else lgGrainsize
  else lgGrainsize

end Chunk

/-! ## Addresses -/

/-- Two addresses in one line. -/
def SameLine (a b : Nat) : Prop := a / 512 = b / 512

instance (a b : Nat) : Decidable (SameLine a b) := inferInstanceAs (Decidable (a / 512 = b / 512))

/-- The first address after the line. -/
def lineEnd (a : Nat) : Nat := nextMultiple 512 a

theorem alignByNextGrainsize_eq (addr lg : Nat) :
    alignByNextGrainsize addr lg = nextMultiple (2 ^ lg) addr := by
  rw [alignByNextGrainsize, nextMultiple, Nat.add_div_right _ (Nat.two_pow_pos lg)]

theorem byte_eq (a : Nat) : byte a = a % 512 := rfl

theorem sameLine_iff {a b : Nat} : SameLine a b ↔ page a = page b ∧ line a = line b := by
  unfold SameLine page line LG_PAGE_SIZE LG_LINE_SIZE
  omega

theorem isLineStart_iff {a : Nat} : isLineStart a = true ↔ 512 ∣ a := by
  rw [isLineStart, byte_eq, beq_iff_eq, Nat.dvd_iff_mod_eq_zero]

theorem isPageStart_iff {a : Nat} : isPageStart a = true ↔ 2 ^ 30 ∣ a := by
  unfold isPageStart LG_PAGE_SIZE LG_LINE_SIZE
  rw [beq_iff_eq, Nat.dvd_iff_mod_eq_zero]

theorem grain_dvd {g : Nat} (hg : g ≤ 9) : 2 ^ g ∣ 512 := Nat.pow_dvd_pow 2 hg

theorem SameLine.symm {a b : Nat} (h : SameLine a b) : SameLine b a := Eq.symm h

theorem SameLine.trans {a b c : Nat} (h₁ : SameLine a b) (h₂ : SameLine b c) : SameLine a c :=
  Eq.trans h₁ h₂

theorem lt_lineEnd {a : Nat} : a < lineEnd a := lt_nextMultiple (by decide)

theorem lineEnd_eq {a b : Nat} (h : SameLine a b) : lineEnd a = lineEnd b := nextMultiple_congr h

theorem SameLine.lt_lineEnd {a b : Nat} (h : SameLine a b) : a < lineEnd b :=
  lt_nextMultiple_of_div_eq (by decide) h

theorem sameLine_of_lt {a b : Nat} (h₁ : a ≤ b) (h₂ : b < lineEnd a) : SameLine b a :=
  div_eq_of_lt_nextMultiple (by decide) h₁ h₂

/-- The entry of a byte within its line. -/
theorem div_grain {g : Nat} (hg : g ≤ 9) (a : Nat) :
    a / 2 ^ g = a / 512 * 2 ^ (9 - g) + byte a / 2 ^ g := by
  have h512 : 512 = 2 ^ g * 2 ^ (9 - g) := by rw [← Nat.pow_add, Nat.add_sub_cancel' hg]
  have hmul : a = 2 ^ g * (a / 512 * 2 ^ (9 - g)) + a % 512 := by
    rw [Nat.mul_left_comm, ← h512]
    exact (Nat.div_add_mod' a 512).symm
  rw [byte_eq]
  conv_lhs => rw [hmul]
  rw [Nat.mul_add_div (Nat.two_pow_pos g)]

theorem entry_eq_iff {g a b : Nat} (hg : g ≤ 9) (hl : SameLine a b) :
    byte a / 2 ^ g = byte b / 2 ^ g ↔ a / 2 ^ g = b / 2 ^ g := by
  rw [div_grain hg a, div_grain hg b, hl]
  omega

theorem entry_lt {g : Nat} (hg : g ≤ 9) (a : Nat) : byte a / 2 ^ g < 2 ^ (9 - g) := by
  rw [Nat.div_lt_iff_lt_mul (Nat.two_pow_pos g), ← Nat.pow_add, Nat.sub_add_cancel hg]
  exact Nat.mod_lt _ (by decide)

/-! ## Trailing zeros -/

theorem ctz_go_dvd (k n : Nat) : 2 ^ ctz.go k n ∣ n := by
  induction k generalizing n with
  | zero => simp [ctz.go]
  | succ k ih =>
    unfold ctz.go
    split
    · simp
    · next h =>
      have h2 : n = 2 * (n / 2) := by omega
      rw [Nat.pow_succ, Nat.mul_comm]
      conv_rhs => rw [h2]
      exact Nat.mul_dvd_mul_left 2 (ih _)

theorem ctz_dvd (n : Nat) : 2 ^ ctz n ∣ n := ctz_go_dvd 64 n

theorem le_ctz_go {g : Nat} : ∀ {k n : Nat}, g ≤ k → 0 < n → 2 ^ g ∣ n → g ≤ ctz.go k n := by
  induction g with
  | zero => intro k n _ _ _; omega
  | succ g ih =>
    intro k n hk hn hd
    obtain ⟨m, rfl⟩ := hd
    cases k with
    | zero => omega
    | succ k =>
      have hm : 0 < m := Nat.pos_of_mul_pos_left hn
      have hdiv : 2 ^ (g + 1) * m / 2 = 2 ^ g * m := by
        rw [Nat.pow_succ, Nat.mul_comm (2 ^ g) 2, Nat.mul_assoc,
          Nat.mul_div_cancel_left _ (by decide)]
      have heven : ¬ 2 ^ (g + 1) * m % 2 = 1 := by
        rw [Nat.pow_succ, Nat.mul_comm (2 ^ g) 2, Nat.mul_assoc]
        omega
      unfold ctz.go
      rw [if_neg heven, hdiv]
      exact Nat.succ_le_succ (ih (by omega) (Nat.mul_pos (Nat.two_pow_pos g) hm) ⟨m, rfl⟩)

theorem le_ctz {g n : Nat} (hg : g ≤ 64) (hn : 0 < n) (h : 2 ^ g ∣ n) : g ≤ ctz n :=
  le_ctz_go hg hn h

/-! ## Chunks -/

namespace Chunk

/-- From `p` up to `e`. -/
def upTo (p e : Nat) : Chunk := ⟨p, e - p⟩

@[simp] theorem upTo_addr (p e : Nat) : (upTo p e).addr = p := rfl

theorem mk_eq_upTo (p n : Nat) : (⟨p, n⟩ : Chunk) = .upTo p (p + n) := by
  rw [upTo, Nat.add_sub_cancel_left]

theorem isEmpty_upTo {p e : Nat} : (upTo p e).isEmpty = true ↔ e ≤ p := by
  simp [isEmpty, upTo, Nat.sub_eq_zero_iff_le]

theorem next_upTo (p e lg : Nat) : (upTo p e).next lg = upTo (nextMultiple (2 ^ lg) p) e := by
  have hlt := lt_nextMultiple (x := p) (Nat.two_pow_pos lg)
  simp only [next, upTo, alignByNextGrainsize_eq]
  split
  · congr 1; omega
  · congr 1; omega

theorem withinLine_upTo {p e : Nat} (h : p ≤ e) : (upTo p e).withinLine = true ↔ e < lineEnd p := by
  simp only [withinLine, upTo, alignByNextGrainsize_eq, decide_eq_true_eq, Nat.add_sub_cancel' h]
  rfl

/-- The grain of a chunk divides its ends, but an end beyond the line. -/
structure Grain (p e g : Nat) : Prop where
  le : g ≤ 9
  start : 2 ^ g ∣ p
  stop : e < lineEnd p → 2 ^ g ∣ e

theorem Grain.mono {p e g g' : Nat} (h : Grain p e g) (hg : g' ≤ g) : Grain p e g' :=
  ⟨Nat.le_trans hg h.le, Dvd.dvd.trans (Nat.pow_dvd_pow 2 hg) h.start,
    fun he => Dvd.dvd.trans (Nat.pow_dvd_pow 2 hg) (h.stop he)⟩

theorem getLgGrainsize_upTo {p e : Nat} (h : p ≤ e) :
    (upTo p e).getLgGrainsize = if e < lineEnd p then min (min 9 (ctz p)) (ctz e)
    else min 9 (ctz p) := by
  have heq : p + (e - p) = e := Nat.add_sub_cancel' h
  have hline : lineEnd p ≤ p + 512 := nextMultiple_le p
  have hcap : (if ctz p > LG_LINE_SIZE then LG_LINE_SIZE else ctz p) = min 9 (ctz p) := by
    have h9 : LG_LINE_SIZE = 9 := rfl
    split <;> omega
  have hdef : (upTo p e).getLgGrainsize = if e - p ≥ LINE_SIZE then min 9 (ctz p)
      else if (upTo p e).withinLine then
        (if ctz (p + (e - p)) < min 9 (ctz p) then ctz (p + (e - p)) else min 9 (ctz p))
      else min 9 (ctz p) := by
    rw [← hcap]
    rfl
  rw [hdef, heq]
  simp only [withinLine_upTo h]
  have hsize : LINE_SIZE = 512 := rfl
  split
  · rw [if_neg (by omega)]
  · split
    · split <;> omega
    · rfl

theorem grain_getLgGrainsize {p e : Nat} (h : p ≤ e) : Grain p e (upTo p e).getLgGrainsize := by
  have hdvd : ∀ {g n}, g ≤ ctz n → 2 ^ g ∣ n :=
    fun hg => Dvd.dvd.trans (Nat.pow_dvd_pow 2 hg) (ctz_dvd _)
  rw [getLgGrainsize_upTo h]
  refine ⟨?_, ?_, fun hw => ?_⟩
  · split <;> omega
  · split <;> exact hdvd (by omega)
  · rw [if_pos hw]
    exact hdvd (by omega)

/-- It is the coarsest such grain. -/
theorem le_getLgGrainsize {p e g : Nat} (hp : 0 < p) (h : p ≤ e) (hg : Grain p e g) :
    g ≤ (upTo p e).getLgGrainsize := by
  obtain ⟨hle, hstart, hstop⟩ := hg
  have h₁ := le_ctz (by omega) hp hstart
  rw [getLgGrainsize_upTo h]
  split
  · next hw =>
    have h₂ := le_ctz (by omega) (by omega) (hstop hw)
    omega
  · omega

end Chunk

end Cilksan
