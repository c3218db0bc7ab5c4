/-
The cache lines an access touches and the ones Cilkiaf records for it
(`cilkiaf.cpp`, and the hooks of `cilkiaf_hooks.cpp` that call it).

Kept is what is passed to `memory_access` of the two models of the current
worker; the models themselves, and the global one, which is not compiled in,
are left out.
-/
import Mathlib.Data.List.Range
import Mathlib.Algebra.Order.Ring.Nat

namespace Cilkiaf

def CACHE_LINE_SIZE : Nat := 64

/-- The lines passed so far to the worker's entries of `local_iafs` and
`local_verify_iafs`. -/
structure WorkerIafs where
  localIaf : List Nat := []
  localVerifyIaf : List Nat := []
  deriving DecidableEq, Repr

namespace WorkerIafs

def memoryAccess (w : WorkerIafs) (line : Nat) : WorkerIafs :=
  { localIaf := w.localIaf ++ [line], localVerifyIaf := w.localVerifyIaf ++ [line] }

/-- The loop of `register_write`. -/
def registerWrite (w : WorkerIafs) (addr : BitVec 64) (numBytes : Int) : WorkerIafs :=
  let w := w.memoryAccess (addr.toNat / CACHE_LINE_SIZE)
  let nbytes2 := numBytes - CACHE_LINE_SIZE
  let addr2 := addr + BitVec.ofNat 64 CACHE_LINE_SIZE
  if 0 < nbytes2 then w.registerWrite addr2 nbytes2 else w
termination_by numBytes.toNat
decreasing_by
  have : (CACHE_LINE_SIZE : Int) = 64 := rfl
  omega

def registerWriteOne (w : WorkerIafs) (addr : BitVec 64) : WorkerIafs :=
  w.memoryAccess (addr.toNat / CACHE_LINE_SIZE)

/-- What both hooks do: an access of one line's length is taken to touch one
line. -/
def beforeAccess (w : WorkerIafs) (addr : BitVec 64) (numBytes : Int) : WorkerIafs :=
  if numBytes ≤ CACHE_LINE_SIZE then w.registerWriteOne addr else w.registerWrite addr numBytes

/-- `__csi_before_load`. -/
def csiBeforeLoad (w : WorkerIafs) (addr : BitVec 64) (numBytes : Int) : WorkerIafs :=
  w.beforeAccess addr numBytes

/-- `__csi_before_store`. -/
def csiBeforeStore (w : WorkerIafs) (addr : BitVec 64) (numBytes : Int) : WorkerIafs :=
  w.beforeAccess addr numBytes

end WorkerIafs

/-! ## The lines touched -/

/-- Some byte of `[addr, addr + n)` is in the line. -/
def Touches (addr n line : Nat) : Prop := ∃ b, addr ≤ b ∧ b < addr + n ∧ b / CACHE_LINE_SIZE = line

theorem touches_iff {addr n line : Nat} (hn : 0 < n) :
    Touches addr n line ↔ addr / 64 ≤ line ∧ line ≤ (addr + n - 1) / 64 := by
  unfold Touches CACHE_LINE_SIZE
  constructor
  · intro h
    obtain ⟨b, hle, hlt, rfl⟩ := h
    exact ⟨Nat.div_le_div_right hle, Nat.div_le_div_right (by omega)⟩
  · intro h
    by_cases hfirst : addr / 64 = line
    · exact ⟨addr, Nat.le_refl _, by omega, hfirst⟩
    · exact ⟨64 * line, by omega, by omega, by omega⟩

/-- Both models were passed the lines that the access touches, each once and
in ascending order. -/
def RecordsTouched (w w' : WorkerIafs) (addr n : Nat) : Prop :=
  ∃ lines : List Nat, w'.localIaf = w.localIaf ++ lines ∧
  w'.localVerifyIaf = w.localVerifyIaf ++ lines ∧
    lines.Pairwise (· < ·) ∧ ∀ line, line ∈ lines ↔ Touches addr n line

/-! ## The lines recorded -/

/-- The line of every 64th byte, from the first one on. -/
def recordedLines (addr n : Nat) : List Nat := List.range' (addr / 64) ((n - 1) / 64 + 1)

theorem registerWrite_records (q : Nat) : ∀ (w : WorkerIafs) (addr : BitVec 64) (n : Nat), 0 < n →
    (n - 1) / 64 = q → addr.toNat + n ≤ 2 ^ 64 →
    w.registerWrite addr n =
      ⟨w.localIaf ++ recordedLines addr.toNat n,
        w.localVerifyIaf ++ recordedLines addr.toNat n⟩ := by
  have hsize : (CACHE_LINE_SIZE : Int) = 64 := rfl
  induction q with
  | zero =>
    intro w addr n hn hq _
    rw [WorkerIafs.registerWrite, if_neg (by omega)]
    simp [WorkerIafs.memoryAccess, recordedLines, hq, CACHE_LINE_SIZE]
  | succ q ih =>
    intro w addr n hn hq hend
    have hnext : (addr + BitVec.ofNat 64 CACHE_LINE_SIZE).toNat = addr.toNat + 64 := by
      rw [BitVec.toNat_add, BitVec.toNat_ofNat, CACHE_LINE_SIZE]
      omega
    have hrest : (n : Int) - CACHE_LINE_SIZE = (n - 64 : Nat) := by omega
    -- The lines of the rest of the access are those after its first.
    have hlines :
        recordedLines addr.toNat n =
        addr.toNat / 64 :: recordedLines (addr.toNat + 64) (n - 64) := by
      rw [recordedLines, recordedLines, hq, List.range'_succ,
        show (addr.toNat + 64) / 64 = addr.toNat / 64 + 1 by omega,
        show (n - 64 - 1) / 64 = q by omega]
    rw [WorkerIafs.registerWrite, if_pos (by omega), hrest,
      ih _ _ _ (by omega) (by omega) (by rw [hnext]; omega), hnext, hlines]
    simp [WorkerIafs.memoryAccess, CACHE_LINE_SIZE]

/-- The one-line shortcut records what the loop would. -/
theorem beforeAccess_records (w : WorkerIafs) (addr : BitVec 64) {n : Nat} (hn : 0 < n)
    (hend : addr.toNat + n ≤ 2 ^ 64) : w.beforeAccess addr n =
      ⟨w.localIaf ++ recordedLines addr.toNat n,
        w.localVerifyIaf ++ recordedLines addr.toNat n⟩ := by
  unfold WorkerIafs.beforeAccess
  have hsize : (CACHE_LINE_SIZE : Int) = 64 := rfl
  split
  · rw [WorkerIafs.registerWriteOne, WorkerIafs.memoryAccess, recordedLines,
      show (n - 1) / 64 = 0 by omega]
    rfl
  · exact registerWrite_records _ w addr n hn rfl hend

/-- All lines touched are recorded, but for the last one when the last byte
is nearer to the start of its line than the first byte is. -/
theorem mem_recordedLines_iff {addr n : Nat} (hn : 0 < n) :
    (∀ line, line ∈ recordedLines addr n ↔ Touches addr n line) ↔
    addr % 64 + (n - 1) % 64 < 64 := by
  simp only [recordedLines, List.mem_range'_1, touches_iff hn]
  constructor
  · intro h
    have := (h ((addr + n - 1) / 64)).2 ⟨by omega, Nat.le_refl _⟩
    omega
  · intro h line
    omega

theorem beforeAccess_records_iff (w : WorkerIafs) (addr : BitVec 64) {n : Nat} (hn : 0 < n)
    (hend : addr.toNat + n ≤ 2 ^ 64) :
    RecordsTouched w (w.beforeAccess addr n) addr.toNat n ↔
    addr.toNat % 64 + (n - 1) % 64 < 64 := by
  rw [beforeAccess_records w addr hn hend, ← mem_recordedLines_iff hn]
  constructor
  · intro h
    obtain ⟨lines, hlocal, -, -, hmem⟩ := h
    rwa [← List.append_cancel_left hlocal] at hmem
  · intro h
    exact ⟨_, rfl, rfl, List.pairwise_lt_range', h⟩

/-- **The lines recorded.** A load or a store is recorded with exactly the
lines it touches just when its last byte is no nearer to the start of its line
than its first byte is. -/
theorem records_touched_iff (w : WorkerIafs) (addr : BitVec 64) {n : Nat} (hn : 0 < n)
    (hend : addr.toNat + n ≤ 2 ^ 64) :
    (RecordsTouched w (w.csiBeforeLoad addr n) addr.toNat n ↔ addr.toNat % 64 + (n - 1) % 64 < 64) ∧
      (RecordsTouched w (w.csiBeforeStore addr n) addr.toNat n ↔
        addr.toNat % 64 + (n - 1) % 64 < 64) :=
  ⟨beforeAccess_records_iff w addr hn hend, beforeAccess_records_iff w addr hn hend⟩

theorem records_touched_iff_words :
    (RecordsTouched {} (WorkerIafs.csiBeforeLoad {} 0x1038#64 8) 0x1038 8 ∧
      0x1038 % 64 + (8 - 1) % 64 < 64) ∧
      RecordsTouched {} (WorkerIafs.csiBeforeStore {} 0x1038#64 72) 0x1038 72 :=
  ⟨⟨(records_touched_iff {} 0x1038#64 (n := 8) (by decide) (by decide)).1.2 (by decide), by decide⟩,
    (records_touched_iff {} 0x1038#64 (n := 72) (by decide) (by decide)).2.2 (by decide)⟩

/-- Eight bytes that reach into the next line, and as many after a whole line. -/
theorem not_records_touched :
    ¬ RecordsTouched {} (WorkerIafs.csiBeforeLoad {} 0x103c#64 8) 0x103c 8 ∧
    ¬ RecordsTouched {} (WorkerIafs.csiBeforeStore {} 0x103c#64 72) 0x103c 72 :=
  ⟨fun h => absurd
    ((beforeAccess_records_iff {} 0x103c#64 (n := 8) (by decide) (by decide)).1 h) (by decide),
    fun h => absurd
    ((beforeAccess_records_iff {} 0x103c#64 (n := 72) (by decide) (by decide)).1 h) (by decide)⟩

end Cilkiaf
