/-
The occupancy bits over a whole run: any calls of `setOccupied` and
`clearOccupied`, with pages made in between.

`setOccupied` has two loops, one over the pages of a range and one over the
words of a page (`Page_t::setOccupied`), which ends where the next page starts.
Together they are the one loop over words.
-/
import CilkTools.Cilksan.Occupancy

namespace Cilksan

namespace SimpleDictionary

/-- `Page_t::setOccupied`, up to the end of the page. -/
def setOccupiedPage : Nat → Bool → SimpleDictionary → Chunk → (Bool × SimpleDictionary) × Chunk
  | 0, foundUnoccupied, d, accessed => ((foundUnoccupied, d), accessed)
  | n + 1, foundUnoccupied, d, accessed =>
    if accessed.isEmpty then ((foundUnoccupied, d), accessed)
    else
      let (found, d) := d.setOccupiedWord accessed
      let accessed := accessed.nextOccupancyWord
      if isPageStart accessed.addr then ((foundUnoccupied || found, d), accessed)
      else setOccupiedPage n (foundUnoccupied || found) d accessed

/-- The loop of `setOccupied` over pages. -/
def setOccupiedPages : Nat → Bool → SimpleDictionary → Chunk → Bool × SimpleDictionary
  | 0, foundUnoccupied, d, _ => (foundUnoccupied, d)
  | n + 1, foundUnoccupied, d, accessed =>
    if accessed.isEmpty then (foundUnoccupied, d)
    else
      let foundUnoccupied := foundUnoccupied || (d.table (page accessed.addr)).isNone
      let ((found, d), accessed) :=
        setOccupiedPage accessed.size false (d.allocatePage (page accessed.addr)) accessed
      setOccupiedPages n (foundUnoccupied || found) d accessed

def setOccupiedByPages (d : SimpleDictionary) (addr memSize : Nat) : Bool × SimpleDictionary :=
  setOccupiedPages memSize false d ⟨addr, memSize⟩

variable {d : SimpleDictionary} {p e : Nat}

theorem setOccupiedLoop_of_le (h : e ≤ p) (n : Nat) (found : Bool) (d : SimpleDictionary) :
    setOccupiedLoop n found d (.upTo p e) = (found, d) := by
  cases n with
  | zero => rfl
  | succ n => rw [setOccupiedLoop, if_pos (Chunk.isEmpty_upTo.2 h)]

/-- One turn of the loop. -/
theorem setOccupiedLoop_succ (h : p < e) (n : Nat) (found : Bool) (d : SimpleDictionary) :
    setOccupiedLoop (n + 1) found d (.upTo p e) =
      setOccupiedLoop n (found || (d.table (page p)).isNone ||
        ((d.allocatePage (page p)).setOccupiedWord (.upTo p e)).1)
        ((d.allocatePage (page p)).setOccupiedWord (.upTo p e)).2
        (.upTo (nextMultiple 64 p) e) := by
  have hend : ¬ (Chunk.upTo p e).isEmpty = true := by
    rw [Chunk.isEmpty_upTo]
    omega
  rw [setOccupiedLoop, if_neg hend, show Chunk.upTo (nextMultiple 64 p) e =
    (Chunk.upTo p e).nextOccupancyWord from (Chunk.next_upTo p e 6).symm]
  rfl

/-- Any number of turns does that is enough. -/
theorem setOccupiedLoop_fuel :
    ∀ (n : Nat) {m p : Nat} (found : Bool) (d : SimpleDictionary), e - p ≤ n → e - p ≤ m →
    setOccupiedLoop n found d (.upTo p e) = setOccupiedLoop m found d (.upTo p e) := by
  intro n
  induction n with
  | zero =>
    intro m p found d hn _
    rw [setOccupiedLoop_of_le (by omega), setOccupiedLoop_of_le (by omega)]
  | succ n ih =>
    intro m p found d hn hm
    rcases Nat.lt_or_ge p e with hp | hp
    · have hlt : p < nextMultiple 64 p := lt_nextMultiple (by decide)
      cases m with
      | zero => omega
      | succ m =>
        rw [setOccupiedLoop_succ hp, setOccupiedLoop_succ hp]
        exact ih _ _ (by omega) (by omega)
    · rw [setOccupiedLoop_of_le hp, setOccupiedLoop_of_le hp]

theorem allocatePage_of_isSome {i : Nat} (h : (d.table i).isSome = true) : d.allocatePage i = d :=
  if_pos h

theorem isSome_allocatePage (d : SimpleDictionary) (i : Nat) :
    ((d.allocatePage i).table i).isSome = true := by
  unfold allocatePage
  split
  · next h => exact h
  · simp

/-- On a page that is there, its loop is the first turns of the other. -/
theorem setOccupiedPage_spec (e : Nat) :
    ∀ (k : Nat) {p : Nat} (found₀ : Bool) (d : SimpleDictionary), e - p ≤ k →
    (d.table (page p)).isSome = true → ∃ found d' q, p ≤ q ∧ (p < e → p < q) ∧
      setOccupiedPage k found₀ d (.upTo p e) = ((found₀ || found, d'), .upTo q e) ∧
      ∀ (n : Nat) (found₁ : Bool), e - p ≤ n →
        setOccupiedLoop n found₁ d (.upTo p e) =
        setOccupiedLoop n (found₁ || found) d' (.upTo q e) := by
  intro k
  induction k with
  | zero =>
    intro p found₀ d hk _
    exact ⟨false, d, p, Nat.le_refl p, by omega, by rw [setOccupiedPage, Bool.or_false],
      fun n found₁ _ => by rw [Bool.or_false]⟩
  | succ k ih =>
    intro p found₀ d hk hpage
    rcases Nat.lt_or_ge p e with hp | hp
    · have hend : ¬ (Chunk.upTo p e).isEmpty = true := by
        rw [Chunk.isEmpty_upTo]
        omega
      have hlt : p < nextMultiple 64 p := lt_nextMultiple (by decide)
      have hnext : (Chunk.upTo p e).nextOccupancyWord = .upTo (nextMultiple 64 p) e :=
        Chunk.next_upTo p e 6
      have hword : ∀ (n : Nat) (found₁ : Bool), e - p ≤ n → setOccupiedLoop n found₁ d (.upTo p e) =
          setOccupiedLoop n (found₁ || (d.setOccupiedWord (.upTo p e)).1)
          (d.setOccupiedWord (.upTo p e)).2
            (.upTo (nextMultiple 64 p) e) := fun n found₁ hn => by
        cases n with
        | zero => omega
        | succ n =>
          rw [setOccupiedLoop_succ hp, allocatePage_of_isSome hpage,
            Option.isNone_eq_false_iff.2 hpage, Bool.or_false,
            setOccupiedLoop_fuel n (m := n + 1) _ _ (by omega) (by omega)]
      rw [setOccupiedPage, if_neg hend]
      simp only [hnext, Chunk.upTo_addr]
      split
      · exact ⟨_, _, _, Nat.le_of_lt hlt, fun _ => hlt, rfl, hword⟩
      · next hs =>
        have hsame : page (nextMultiple 64 p) = page p :=
          QueryIterator.page_eq_of_le (Nat.le_of_lt hlt)
            (nextMultiple_le_nextMultiple (Nat.pow_dvd_pow 2 (show 6 ≤ 30 by omega))
              (Nat.two_pow_pos 30) p)
            (by simpa using hs)
        obtain ⟨found, d', q, hq, hq', heq, hloop⟩ := ih (p := nextMultiple 64 p)
          (found₀ || (d.setOccupiedWord (.upTo p e)).1) (d.setOccupiedWord (.upTo p e)).2 (by omega)
          (hsame ▸ hpage)
        refine ⟨(d.setOccupiedWord (.upTo p e)).1 || found, d', q, by omega, fun _ => by omega, ?_,
          fun n found₁ hn => ?_⟩
        · rw [heq, Bool.or_assoc]
        · rw [hword n found₁ hn, hloop n _ (by omega), Bool.or_assoc]
    · refine ⟨false, d, p, Nat.le_refl p, by omega, ?_, fun n found₁ _ => by rw [Bool.or_false]⟩
      rw [setOccupiedPage, if_pos (Chunk.isEmpty_upTo.2 hp), Bool.or_false]

theorem setOccupiedPages_eq (e : Nat) :
    ∀ (n : Nat) {p : Nat} (found : Bool) (d : SimpleDictionary), e - p ≤ n →
    setOccupiedPages n found d (.upTo p e) = setOccupiedLoop n found d (.upTo p e) := by
  intro n
  induction n with
  | zero => intro p found d _; rfl
  | succ n ih =>
    intro p found d hn
    rcases Nat.lt_or_ge p e with hp | hp
    · have hend : ¬ (Chunk.upTo p e).isEmpty = true := by
        rw [Chunk.isEmpty_upTo]
        omega
      have hpage := d.isSome_allocatePage (page p)
      obtain ⟨found', d', q, hq, hpq, heq, hloop⟩ := setOccupiedPage_spec e (e - p) (p := p) false
        (d.allocatePage (page p)) (Nat.le_refl _) hpage
      have hfirst : setOccupiedLoop (n + 1) found d (.upTo p e) =
          setOccupiedLoop (n + 1) (found || (d.table (page p)).isNone) (d.allocatePage (page p))
          (.upTo p e) := by
        rw [setOccupiedLoop_succ hp, setOccupiedLoop_succ hp, allocatePage_of_isSome hpage,
          Option.isNone_eq_false_iff.2 hpage, Bool.or_false]
      rw [hfirst, hloop (n + 1) _ hn, setOccupiedPages, if_neg hend]
      have hchunk : (Chunk.upTo p e).size = e - p := rfl
      have hq' := hpq hp
      simp only [Chunk.upTo_addr, hchunk, heq, Bool.false_or]
      rw [ih _ _ (by omega)]
      exact setOccupiedLoop_fuel n _ _ (by omega) (by omega)
    · rw [setOccupiedLoop_of_le hp, setOccupiedPages, if_pos (Chunk.isEmpty_upTo.2 hp)]

theorem setOccupiedByPages_eq (d : SimpleDictionary) (addr memSize : Nat) :
    d.setOccupiedByPages addr memSize = d.setOccupied addr memSize := by
  rw [setOccupiedByPages, setOccupied, Chunk.mk_eq_upTo]
  exact setOccupiedPages_eq _ _ _ _ (by omega)

end SimpleDictionary

/-! ## Runs -/

/-- What is done to a dictionary's bits; a page is made by an update that needs
it. -/
inductive OccupancyOp
  | setOccupied (addr memSize : Nat)
  | clearOccupied
  | makePage (idx : Nat)
  deriving DecidableEq, Repr

namespace OccupancyOp

def apply (d : SimpleDictionary) : OccupancyOp → SimpleDictionary
  | setOccupied addr memSize => (d.setOccupiedByPages addr memSize).2
  | clearOccupied => d.clearOccupied
  | makePage idx => d.allocatePage idx

def applyAll (ops : List OccupancyOp) : SimpleDictionary := ops.foldl apply {}

/-- A byte is covered by the calls since the last clearing. -/
def cover (covered : Bool) (b : Nat) : OccupancyOp → Bool
  | setOccupied addr memSize => covered || decide (addr ≤ b ∧ b < addr + memSize)
  | clearOccupied => false
  | makePage _ => covered

def covered (ops : List OccupancyOp) (b : Nat) : Bool := ops.foldl (cover · b) false

variable {d : SimpleDictionary}

theorem apply_spec (hd : d.OccupancyOk) (op : OccupancyOp) :
    (op.apply d).OccupancyOk ∧ ∀ b, (op.apply d).occupied b = op.cover (d.occupied b) b := by
  cases op with
  | setOccupied addr memSize =>
    obtain ⟨found, d', heq, ho, -⟩ := setOccupied_spec hd addr memSize
    have happly : (setOccupied addr memSize).apply d = d' := by
      rw [apply, SimpleDictionary.setOccupiedByPages_eq, heq]
    rw [happly]
    exact ⟨ho.ok, ho.bits⟩
  | clearOccupied =>
    have hclear := occupied_clearOccupied hd
    exact ⟨.of_not_occupied hclear, hclear⟩
  | makePage idx =>
    have hpage : page (idx * 2 ^ 30) = idx := Nat.mul_div_cancel idx (Nat.two_pow_pos 30)
    obtain ⟨ho, -⟩ := allocatePage_spec (p := 0) hd (idx * 2 ^ 30)
    rw [hpage] at ho
    refine ⟨ho.ok, fun b => (ho.bits b).trans ?_⟩
    rw [decide_eq_false (by omega), Bool.or_false]
    rfl

theorem foldl_apply_spec (ops : List OccupancyOp) {d : SimpleDictionary} (hd : d.OccupancyOk) :
    (ops.foldl apply d).OccupancyOk ∧
    ∀ b, (ops.foldl apply d).occupied b = ops.foldl (cover · b) (d.occupied b) := by
  induction ops generalizing d with
  | nil => exact ⟨hd, fun _ => rfl⟩
  | cons op ops ih =>
    obtain ⟨h₁, h₂⟩ := op.apply_spec hd
    obtain ⟨h₃, h₄⟩ := ih h₁
    exact ⟨h₃, fun b => by rw [List.foldl_cons, h₄, h₂, List.foldl_cons]⟩

theorem applyAll_spec (ops : List OccupancyOp) :
    (applyAll ops).OccupancyOk ∧ ∀ b, (applyAll ops).occupied b = covered ops b := by
  have hempty : ∀ b, ({} : SimpleDictionary).occupied b = false := fun _ => BitVec.getLsbD_zero
  obtain ⟨h₁, h₂⟩ := foldl_apply_spec ops (.of_not_occupied hempty)
  exact ⟨h₁, fun b => by rw [applyAll, h₂, hempty, covered]⟩

end OccupancyOp

/-- A word none of whose bytes is marked. -/
theorem occupancy_eq_zero {d : SimpleDictionary} (h : ∀ b, d.occupied b = false) {idx word : Nat}
    (hw : word < 2 ^ 24) : d.occupancy idx word = 0 := by
  refine BitVec.eq_of_getLsbD_eq fun i hi => ?_
  have hidx : page (idx * 2 ^ 30 + word * 64 + i) = idx := by
    unfold page LG_PAGE_SIZE LG_LINE_SIZE
    omega
  have hword : occupancyWord (idx * 2 ^ 30 + word * 64 + i) = word := by
    unfold occupancyWord LG_OCCUPANCY_WORD_SIZE LG_PAGE_SIZE LG_LINE_SIZE
    omega
  have hbit : occupancyWordStartBit (idx * 2 ^ 30 + word * 64 + i) = i := by
    unfold occupancyWordStartBit LG_OCCUPANCY_WORD_SIZE
    omega
  have hb := h (idx * 2 ^ 30 + word * 64 + i)
  rw [SimpleDictionary.occupied, hidx, hword, hbit] at hb
  exact hb.trans BitVec.getLsbD_zero.symm

/-- **Occupancy bits are the bytes marked since the last clearing**, and
clearing leaves no bit in any of a page's 2^24 words. -/
theorem occupancy_exact (ops : List OccupancyOp) :
    (∀ addr n, ((OccupancyOp.applyAll ops).setOccupiedByPages addr n).1 = false ↔
      ∀ b, addr ≤ b → b < addr + n → OccupancyOp.covered ops b = true) ∧
    ∀ idx word, word < 2 ^ 24 →
    (OccupancyOp.applyAll ops).clearOccupied.occupancy idx word = 0 := by
  obtain ⟨hok, hbits⟩ := OccupancyOp.applyAll_spec ops
  refine ⟨fun addr n => ?_, fun idx word hw => occupancy_eq_zero (occupied_clearOccupied hok) hw⟩
  obtain ⟨found, d', heq, -, hfound⟩ := setOccupied_spec hok addr n
  rw [SimpleDictionary.setOccupiedByPages_eq, heq, ← Bool.not_eq_true, hfound]
  simp only [hbits, not_exists, not_and, Bool.not_eq_false]

end Cilksan
