/-
What the allocation hooks (`driver.cpp`) do to the shadow memory: the calls
they make of it, applied to the dictionaries, the one of allocations included.

The hooks of `posix_memalign`, `memalign`, `strdup` and `strndup` repeat the end
of `__csan_after_allocfn`. Only the last two look at the result.
-/
import CilkTools.Cilksan.MallocSizes
import CilkTools.Cilksan.SetRange
import CilkTools.Cilksan.ShadowMem

namespace Cilksan

/-- `SimpleShadowMem`, with its dictionary of allocations. -/
structure ShadowTables where
  mem : SimpleShadowMem := {}
  allocs : SimpleDictionary := {}

/-- What the calls read of the tool: the strand of the head frame, and the
lock set if locks are held. -/
structure ShadowContext where
  strand : Strand
  lockset : Option LockSet
  intersect : LockSet → LockSet → IntersectionResult

def SimpleDictionary.set (d : SimpleDictionary) (f : Strand) (addr size accId : Nat) :
    SimpleDictionary :=
  { d with table := UpdateIterator.set (f.maSetFn accId) d.table ⟨addr, size⟩ }

/-- A recorded free is a write. -/
def RangeCall.apply (c : ShadowContext) (s : ShadowTables) : RangeCall → ShadowTables
  | .recordAlloc start size id => { s with allocs := s.allocs.set c.strand start size id }
  | .clearAlloc start size => { s with allocs := s.allocs.clear start size }
  | .clearShadowMemory start size => { s with mem := s.mem.clear start size }
  | .recordFree addr size accId _ =>
    match c.lockset with
    | some LS =>
      { s with
        mem := (s.mem.checkDataRacesAndUpdate c.strand accId c.intersect LS false addr size).1 }
    | none => { s with mem := (s.mem.checkRacesAndUpdate c.strand accId false addr size).1 }

/-- A logged list of calls, the last first. -/
def ShadowTables.applyAll (c : ShadowContext) (s : ShadowTables) (calls : List RangeCall) :
    ShadowTables :=
  calls.foldr (fun call s => call.apply c s) s

/-- The program's memory: its characters, and the lengths of its strings. -/
structure ProgramMemory where
  char : Nat → BitVec 8
  strlen : Nat → Nat

/-- An access that a hook checks. -/
structure CheckedAccess where
  isRead : Bool
  addr : Nat
  size : Nat
  deriving DecidableEq, Repr

namespace AllocState

/-- The end that the hooks have in common. -/
def recordBlock (t : AllocState) (addr size id : Nat) : AllocState :=
  ((t.insert addr size).recordAlloc addr size (2 * id + 1)).clearShadowMemory addr size

/-- `__csan_alloc_posix_memalign`, `ptr` being `*ptr`. -/
def allocPosixMemalign (t : AllocState) (id : Nat) (_result : Int) (ptr size : Nat) : AllocState :=
  if size = 0 then t else t.recordBlock ptr size id

/-- `__csan_alloc_memalign`. The address it takes is `*result`, a signed
character. -/
def allocMemalign (t : AllocState) (mem : ProgramMemory) (id result size : Nat) :
    Option AllocState :=
  if size = 0 then some t
  else if result = 0 then none
  else some (t.recordBlock ((mem.char result).signExtend 64).toNat size id)

/-- What the hooks of `strdup` and `strndup` share. The read is checked before
the block is recorded, and the write after. -/
def allocString (t : AllocState) (s : CheckState) (checkMAAP : Bool) (id result str size : Nat) :
    AllocState × List CheckedAccess :=
  if result = 0 then (t, [])
  else (t.recordBlock result size id,
    if s.shouldCheck && s.isExecutionParallel && checkMAAP then
      [⟨true, str, size⟩, ⟨false, result, size⟩] else [])

/-- `__csan_alloc_strdup`. -/
def allocStrdup (t : AllocState) (s : CheckState) (mem : ProgramMemory) (checkMAAP : Bool)
    (id result str : Nat) : AllocState × List CheckedAccess :=
  t.allocString s checkMAAP id result str (mem.strlen str + 1)

/-- `__csan_alloc_strndup`. -/
def allocStrndup (t : AllocState) (s : CheckState) (mem : ProgramMemory) (checkMAAP : Bool)
    (id result str _size : Nat) : AllocState × List CheckedAccess :=
  t.allocString s checkMAAP id result str (mem.strlen result + 1)

end AllocState

/-- A call of an allocation hook, apart from the pointer it reports. -/
inductive AllocHook
  | allocfn (size num oldaddr : Nat)
  | posixMemalign (result : Int) (size : Nat)
  | memalign (size : Nat)
  | strdup (str : Nat) (checkMAAP : Bool)
  | strndup (str size : Nat) (checkMAAP : Bool)
  deriving DecidableEq, Repr

namespace AllocHook

def run (t : AllocState) (s : CheckState) (mem : ProgramMemory) (id addr : Nat) :
    AllocHook → Option (AllocState × List CheckedAccess)
  | allocfn size num oldaddr => do return (← t.afterAllocfn s id addr size num oldaddr, [])
  | posixMemalign result size => some (t.allocPosixMemalign id result addr size, [])
  | memalign size => do return (← t.allocMemalign mem id addr size, [])
  | strdup str checkMAAP => some (t.allocStrdup s mem checkMAAP id addr str)
  | strndup str size checkMAAP => some (t.allocStrndup s mem checkMAAP id addr str size)

/-- The sizes, the shadow memory and the accesses left to check. -/
def apply (c : ShadowContext) (s : CheckState) (mem : ProgramMemory) (id addr : Nat)
    (m : AddrMap Nat)
    (tables : ShadowTables) (hook : AllocHook) :
    Option (AddrMap Nat × ShadowTables × List CheckedAccess) := do
  let (t, accesses) ← hook.run ⟨m, []⟩ s mem id addr
  return (t.mallocSizes, tables.applyAll c t.calls, accesses)

/-- The hook reports the block of `n` bytes at `p`, newly allocated. -/
def Reports (mem : ProgramMemory) (p n : Nat) : AllocHook → Prop
  | allocfn size num oldaddr => p ≠ 0 ∧ oldaddr = 0 ∧ size * num = n ∧ n < 2 ^ 64
  | posixMemalign result size => p ≠ 0 ∧ result = 0 ∧ size = n
  | memalign size => p ≠ 0 ∧ size = n
  | strdup str _ => p ≠ 0 ∧ mem.strlen str + 1 = n
  | strndup _ _ _ => p ≠ 0 ∧ mem.strlen p + 1 = n

/-- The hook reports that nothing was allocated, though something was asked for. -/
def ReportsFailure (p : Nat) : AllocHook → Prop
  | allocfn size num _ => p = 0 ∧ size * num ≠ 0
  | posixMemalign result size => result ≠ 0 ∧ size ≠ 0
  | memalign size => p = 0 ∧ size ≠ 0
  | strdup _ _ => p = 0
  | strndup _ _ _ => p = 0

end AllocHook

namespace ShadowTables

/-- Every line is well formed. -/
structure WF (s : ShadowTables) : Prop where
  reads : s.mem.reads.table.WF
  writes : s.mem.writes.table.WF
  readLockers : s.mem.reads.lockerTable.WF
  writeLockers : s.mem.writes.lockerTable.WF
  allocs : s.allocs.table.WF

/-- Nothing is recorded of an access to the byte. -/
structure Untouched (s : ShadowTables) (b : Nat) : Prop where
  reads : s.mem.reads.table.get b = none
  writes : s.mem.writes.table.get b = none
  readLockers : s.mem.reads.lockerTable.get b = none
  writeLockers : s.mem.writes.lockerTable.get b = none

/-- The same is recorded of the byte. -/
structure SameAt (s s' : ShadowTables) (b : Nat) : Prop where
  reads : s'.mem.reads.table.get b = s.mem.reads.table.get b
  writes : s'.mem.writes.table.get b = s.mem.writes.table.get b
  readLockers : s'.mem.reads.lockerTable.get b = s.mem.reads.lockerTable.get b
  writeLockers : s'.mem.writes.lockerTable.get b = s.mem.writes.lockerTable.get b
  allocs : s'.allocs.table.get b = s.allocs.table.get b

end ShadowTables

/-- The block of `n` bytes at `p` is recorded, as allocated at `id`, and
nothing else changed. -/
structure Registered (f : Strand) (id p n : Nat) (m m' : AddrMap Nat)
    (s s' : ShadowTables) : Prop where
  size : ∀ a, m'.lookup a = if a = p then some n else m.lookup a
  site : ∀ b, p ≤ b → b < p + n → ∃ x, s'.allocs.table.get b = some x ∧ x.func = f.func ∧
    x.accId = 2 * id + 1
  fresh : ∀ b, p ≤ b → b < p + n → s'.Untouched b
  frame : ∀ b, ¬ (p ≤ b ∧ b < p + n) → s.SameAt s' b

/-- A block of `n` bytes is recorded at `p` already, just as the call would
record it, and nothing was recorded of its bytes since. -/
structure RecordedBefore (f : Strand) (id p n : Nat) (m : AddrMap Nat)
    (s : ShadowTables) : Prop where
  size : m.lookup p = some n
  site : ∀ b, p ≤ b → b < p + n → ∃ x, s.allocs.table.get b = some x ∧ x.func = f.func ∧
    x.accId = 2 * id + 1 ∧
    (x.version = f.version ∨ UpdateIterator.found s.allocs.table p (p + n) b ≠ none)
  fresh : ∀ b, p ≤ b → b < p + n → s.Untouched b

/-- The state that a failed call finds as it would make it. -/
def AllocHook.Repeats (f : Strand) (id p : Nat) (m : AddrMap Nat) (s : ShadowTables) :
    AllocHook → Prop
  | allocfn size num oldaddr =>
    let newSize := size * num % 2 ^ 64
    if oldaddr = 0 then RecordedBefore f id 0 newSize m s
    else m.lookup oldaddr = none ∧ (newSize = 0 ∨ RecordedBefore f id 0 newSize m s)
  | posixMemalign _ size => RecordedBefore f id p size m s
  | memalign _ => False
  | strdup _ _ => True
  | strndup _ _ _ => True

/-- Nothing changed. -/
structure Unchanged (m m' : AddrMap Nat) (s s' : ShadowTables) : Prop where
  size : ∀ a, m'.lookup a = m.lookup a
  same : ∀ b, s.SameAt s' b

/-! ## Recording a block -/

/-- What recording a block does to every byte. -/
structure Recorded (f : Strand) (id p n : Nat) (s s' : ShadowTables) : Prop where
  inside : ∀ b, p ≤ b → b < p + n → s'.Untouched b ∧ s'.allocs.table.get b =
    some (f.maSetFn (2 * id + 1) (UpdateIterator.found s.allocs.table p (p + n) b))
  outside : ∀ b, ¬ (p ≤ b ∧ b < p + n) → s.SameAt s' b
  wf : s'.WF

theorem ShadowTables.SameAt.refl (s : ShadowTables) (b : Nat) : s.SameAt s b :=
  ⟨rfl, rfl, rfl, rfl, rfl⟩

section

variable {s : ShadowTables} {m : AddrMap Nat} {p n id : Nat}

/-- Allocation recorded, accesses cleared. -/
theorem recorded_of_calls (hs : s.WF) (c : ShadowContext) (hn : 0 < n) : Recorded c.strand id p n s
    (s.applyAll c [.clearShadowMemory p n, .recordAlloc p n (2 * id + 1)]) := by
  have hpe : p < p + n := by omega
  obtain ⟨hra, hrg⟩ := UpdateIterator.clear_spec hs.reads p (p + n)
  obtain ⟨hwa, hwg⟩ := UpdateIterator.clear_spec hs.writes p (p + n)
  obtain ⟨hrla, hrlg⟩ := UpdateIterator.clear_spec hs.readLockers p (p + n)
  obtain ⟨hwla, hwlg⟩ := UpdateIterator.clear_spec hs.writeLockers p (p + n)
  obtain ⟨haa, hag⟩ := UpdateIterator.set_spec hs.allocs (c.strand.maSetFn (2 * id + 1)) hpe
  rw [← Chunk.mk_eq_upTo] at hra hrg hwa hwg hrla hrlg hwla hwlg haa hag
  refine ⟨fun b h₁ h₂ => ⟨⟨?_, ?_, ?_, ?_⟩, ?_⟩, fun b hb => ⟨?_, ?_, ?_, ?_, ?_⟩,
    ⟨hra, hwa, hrla, hwla, haa⟩⟩
  · exact (hrg b).trans (if_pos ⟨h₁, h₂⟩)
  · exact (hwg b).trans (if_pos ⟨h₁, h₂⟩)
  · exact (hrlg b).trans (if_pos ⟨h₁, h₂⟩)
  · exact (hwlg b).trans (if_pos ⟨h₁, h₂⟩)
  · exact (hag b).trans (if_pos ⟨h₁, h₂⟩)
  · exact (hrg b).trans (if_neg hb)
  · exact (hwg b).trans (if_neg hb)
  · exact (hrlg b).trans (if_neg hb)
  · exact (hwlg b).trans (if_neg hb)
  · exact (hag b).trans (if_neg hb)

/-- The calls that record a block; an empty one makes none. -/
def blockCalls (p n id : Nat) : List RangeCall :=
  if n = 0 then [] else [.clearShadowMemory p n, .recordAlloc p n (2 * id + 1)]

theorem recorded_blockCalls (hs : s.WF) (c : ShadowContext) (p n id : Nat) :
    Recorded c.strand id p n s (s.applyAll c (blockCalls p n id)) := by
  unfold blockCalls
  split
  · next h =>
    subst h
    exact ⟨fun b h₁ h₂ => by omega, fun b _ => .refl s b, hs⟩
  · exact recorded_of_calls hs c (by omega)

theorem calls_recordBlock (t : AllocState) :
    (t.recordBlock p n id).calls = blockCalls p n id ++ t.calls := by
  unfold AllocState.recordBlock AllocState.clearShadowMemory AllocState.recordAlloc blockCalls
  split <;> rfl

theorem mallocSizes_recordBlock (t : AllocState) :
    (t.recordBlock p n id).mallocSizes = t.mallocSizes.insert p n := by
  simp [AllocState.recordBlock]

theorem AllocState.recordBlock_spec (m : AddrMap Nat) (p n id : Nat) :
    ∃ t, recordBlock ⟨m, []⟩ p n id = t ∧
    t.calls = blockCalls p n id ∧ t.mallocSizes = m.insert p n :=
  ⟨_, rfl, by rw [calls_recordBlock, List.append_nil], mallocSizes_recordBlock _⟩

theorem Recorded.registered {c : ShadowContext} {s' : ShadowTables} {m' : AddrMap Nat}
    (h : Recorded c.strand id p n s s') (hm : ∀ a, m'.lookup a = if a = p then some n
      else m.lookup a) :
    Registered c.strand id p n m m' s s' where
  size := hm
  site b h₁ h₂ := ⟨_, (h.inside b h₁ h₂).2, Strand.maSetFn_func ..⟩
  fresh b h₁ h₂ := (h.inside b h₁ h₂).1
  frame := h.outside

end

/-! ## Successful allocations -/

theorem ShadowTables.WF.empty : ({} : ShadowTables).WF := ⟨nofun, nofun, nofun, nofun, nofun⟩

/-- No locks are held. -/
def ShadowContext.lockFree (f : Strand) : ShadowContext := ⟨f, none, fun _ _ => 0⟩

namespace AllocHook

/-- The hooks that take a string. -/
def isString : AllocHook → Bool
  | strdup _ _ => true
  | strndup _ _ _ => true
  | _ => false

/-- Where the block is recorded: for `memalign` at the address that is its
first byte. -/
def recordedAt (mem : ProgramMemory) (p : Nat) : AllocHook → Nat
  | memalign _ => ((mem.char p).signExtend 64).toNat
  | _ => p

theorem run_of_reports (hook : AllocHook) (m : AddrMap Nat) (s : CheckState) {mem : ProgramMemory}
    (id : Nat) {p n : Nat}
    (hr : hook.Reports mem p n) (hn : 0 < n) (hser : hook.isString = true →
      s.isExecutionParallel = false) :
    ∃ t, hook.run ⟨m, []⟩ s mem id p = some (t, []) ∧
    t.calls = blockCalls (hook.recordedAt mem p) n id ∧
      t.mallocSizes = m.insert (hook.recordedAt mem p) n := by
  cases hook with
  | allocfn size num oldaddr =>
    obtain ⟨hp, rfl, hsize, hlt⟩ := hr
    have h0 : size ≠ 0 := by
      intro h
      rw [h, Nat.zero_mul] at hsize
      omega
    obtain ⟨t, ht, hc, hm⟩ := AllocState.recordBlock_spec m p n id
    refine ⟨t, ?_, hc, hm⟩
    simp only [run, AllocState.afterAllocfn, ne_eq, not_true_eq_false, if_false, h0, hsize,
      Nat.mod_eq_of_lt hlt]
    rw [← ht]
    rfl
  | posixMemalign result size =>
    obtain ⟨hp, hres, hn'⟩ := hr
    subst hn'
    obtain ⟨t, ht, hc, hm⟩ := AllocState.recordBlock_spec m p size id
    exact ⟨t,
      by simp only [run, AllocState.allocPosixMemalign, if_neg (Nat.ne_of_gt hn), ht], hc, hm⟩
  | memalign size =>
    obtain ⟨hp, hn'⟩ := hr
    subst hn'
    obtain ⟨t, ht, hc, hm⟩ :=
      AllocState.recordBlock_spec m ((mem.char p).signExtend 64).toNat size id
    refine ⟨t, ?_, hc, hm⟩
    simp only [run, AllocState.allocMemalign, if_neg (Nat.ne_of_gt hn), if_neg hp, ht]
    rfl
  | strdup str checkMAAP =>
    obtain ⟨hp, hn'⟩ := hr
    subst hn'
    obtain ⟨t, ht, hc, hm⟩ := AllocState.recordBlock_spec m p _ id
    exact ⟨t,
      by simp [run, AllocState.allocStrdup, AllocState.allocString, hp, ht, hser rfl], hc, hm⟩
  | strndup str size checkMAAP =>
    obtain ⟨hp, hn'⟩ := hr
    subst hn'
    obtain ⟨t, ht, hc, hm⟩ := AllocState.recordBlock_spec m p _ id
    exact ⟨t, by simp [run, AllocState.allocStrndup, AllocState.allocString, hp, ht, hser rfl], hc,
      hm⟩

/-- **The hooks agree** on a new block, whichever reports it, except that of
`memalign`, which does exactly if the first byte of the block is its address. -/
theorem registered_iff (hook : AllocHook) {m : AddrMap Nat} {tables : ShadowTables}
    {c : ShadowContext} {s : CheckState}
    {mem : ProgramMemory} {id p n : Nat} (hs : tables.WF) (hr : hook.Reports mem p n) (hn : 0 < n)
    (hlive : ∀ b, p ≤ b → b < p + n → m.lookup b = none)
    (hser : hook.isString = true → s.isExecutionParallel = false) :
    (∃ m' tables', hook.apply c s mem id p m tables = some (m', tables', []) ∧
        Registered c.strand id p n m m' tables tables') ↔
      (hook = .memalign n → ((mem.char p).signExtend 64).toNat = p) := by
  obtain ⟨t, ht, hc, hm⟩ := hook.run_of_reports m s id hr hn hser
  have happly :
      hook.apply c s mem id p m tables = some (t.mallocSizes, tables.applyAll c t.calls, []) := by
    simp [apply, ht]
  rw [happly, hc, hm]
  constructor
  · intro ⟨m', tables', heq, hreg⟩ hk
    subst hk
    cases heq
    have hp := hreg.size p
    rw [AddrMap.lookup_insert, if_pos rfl, hlive p (Nat.le_refl p) (by omega)] at hp
    by_contra hne
    have hat : p ≠ recordedAt mem p (.memalign n) := fun h => hne h.symm
    rw [if_neg hat] at hp
    cases hp
  · intro h
    have hat : hook.recordedAt mem p = p := by
      cases hook with
      | memalign size =>
        obtain ⟨_, rfl⟩ := hr
        exact h rfl
      | _ => rfl
    rw [hat]
    exact ⟨_, _, rfl, (recorded_blockCalls hs c p n id).registered fun a =>
      AddrMap.lookup_insert m p a n⟩

theorem registered_iff_posix_memalign :
    ∃ m' tables', apply (.lockFree ⟨0, 0, fun _ _ => false⟩) ⟨true, true⟩
    ⟨fun _ => 0, fun _ => 0⟩ 1 4096 .empty
        {} (.posixMemalign 0 16) = some (m', tables', []) ∧
      Registered ⟨0, 0, fun _ _ => false⟩ 1 4096 16 .empty m' {} tables' :=
  (registered_iff (.posixMemalign 0 16) ShadowTables.WF.empty ⟨by decide, rfl, rfl⟩ (by decide)
    (fun b _ _ => AddrMap.lookup_empty b) nofun).2 nofun

/-- The block is recorded at address zero, its first byte being zero. -/
theorem not_registered_memalign :
    ¬ ∃ m' tables', apply (.lockFree ⟨0, 0, fun _ _ => false⟩) ⟨true, true⟩
    ⟨fun _ => 0, fun _ => 0⟩ 1 4096 .empty
        {} (.memalign 16) = some (m', tables', []) ∧
      Registered ⟨0, 0, fun _ _ => false⟩ 1 4096 16 .empty m' {} tables' := by
  intro ⟨m', tables', heq, hreg⟩
  cases heq
  have hp := hreg.size 4096
  rw [mallocSizes_recordBlock, AddrMap.lookup_insert] at hp
  exact absurd hp (by decide)

end AllocHook

/-! ## Failed calls -/

section

variable {f : Strand} {s s' : ShadowTables} {m m' : AddrMap Nat} {p n id : Nat}

/-- Setting an entry leaves it as it is. -/
theorem Strand.maSetFn_eq_iff (f : Strand) (accId : Nat) {o old : Option MemoryAccess}
    (ho : o = none ∨ o = old) : old = some (f.maSetFn accId o) ↔
      ∃ x, old = some x ∧ x.func = f.func ∧ x.accId = accId ∧
      (x.version = f.version ∨ o ≠ none) := by
  constructor
  · intro h
    refine ⟨_, h, (f.maSetFn_func accId o).1, (f.maSetFn_func accId o).2, ?_⟩
    cases o with
    | none => exact .inl rfl
    | some y => exact .inr (by simp)
  · intro ⟨x, hx, hf, ha, hv⟩
    rw [hx, Option.some_inj]
    cases o with
    | none =>
      have hver : x.version = f.version := hv.resolve_right fun h => h rfl
      cases x
      simp_all [maSetFn, MemoryAccess.set]
    | some y =>
      rw [hx] at ho
      have hy : y = x := by simpa using ho
      subst hy
      cases y
      simp_all [maSetFn, MemoryAccess.set]

theorem UpdateIterator.found_or {β : Type} (d : Pages β) (p e b : Nat) :
    found d p e b = none ∨ found d p e b = d.get b := by
  unfold found Line.found
  split
  · exact .inl rfl
  · exact .inr (Pages.get_eq ..).symm

/-- Recording a block again changes nothing. -/
theorem Recorded.same_iff (h : Recorded f id p n s s')
    (hm : ∀ a, m'.lookup a = if a = p then some n else m.lookup a) :
    Unchanged m m' s s' ↔ RecordedBefore f id p n m s := by
  have hset :=
    fun b => Strand.maSetFn_eq_iff f (2 * id + 1)
      (UpdateIterator.found_or s.allocs.table p (p + n) b)
  constructor
  · intro hu
    refine ⟨?_, fun b h₁ h₂ => ?_, fun b h₁ h₂ => ?_⟩
    · rw [← hu.size, hm, if_pos rfl]
    · rw [← hset, ← (h.inside b h₁ h₂).2, (hu.same b).allocs]
    · have hs := hu.same b
      have hc := (h.inside b h₁ h₂).1
      exact ⟨hs.reads ▸ hc.reads, hs.writes ▸ hc.writes, hs.readLockers ▸ hc.readLockers,
        hs.writeLockers ▸ hc.writeLockers⟩
  · intro hb
    refine ⟨fun a => ?_, fun b => ?_⟩
    · rw [hm]
      split
      · next ha => rw [ha, hb.size]
      · rfl
    · by_cases hin : p ≤ b ∧ b < p + n
      · obtain ⟨hc, hx⟩ := h.inside b hin.1 hin.2
        have hf := hb.fresh b hin.1 hin.2
        refine ⟨hc.reads.trans hf.reads.symm, hc.writes.trans hf.writes.symm,
          hc.readLockers.trans hf.readLockers.symm, hc.writeLockers.trans hf.writeLockers.symm, ?_⟩
        rw [hx, ← (hset b).2 (hb.site b hin.1 hin.2)]
      · exact h.outside b hin

/-- A block that is new is recorded as it would be again. -/
theorem Recorded.recordedBefore (h : Recorded f id p n s s') (hm : m.lookup p = some n)
    (hnew : ∀ b, s.allocs.table.get b = none) : RecordedBefore f id p n m s' where
  size := hm
  site b h₁ h₂ := by
    have hfound : UpdateIterator.found s.allocs.table p (p + n) b = none := by
      rcases UpdateIterator.found_or s.allocs.table p (p + n) b with hf | hf
      · exact hf
      · rw [hf, hnew]
    have hget := (h.inside b h₁ h₂).2
    rw [hfound] at hget
    exact ⟨_, hget, rfl, rfl, .inl rfl⟩
  fresh b h₁ h₂ := (h.inside b h₁ h₂).1

theorem Unchanged.refl (m : AddrMap Nat) (s : ShadowTables) : Unchanged m m s s :=
  ⟨fun _ => rfl, fun b => .refl s b⟩

end

namespace AllocState

/-- A `realloc` that fails. It has recorded a block at address zero, and
removes the old one if that is recorded. -/
theorem afterAllocfn_null (m : AddrMap Nat) (s : CheckState) (id size num : Nat) {oldaddr : Nat}
    (h0 : oldaddr ≠ 0) : ∃ t, afterAllocfn ⟨m, []⟩ s id 0 size num oldaddr = some t ∧
      (m.lookup oldaddr ≠ none → t.mallocSizes.lookup oldaddr = none) ∧
      (m.lookup oldaddr = none → t.calls = blockCalls 0 (size * num % 2 ^ 64) id ∧
        ∀ a, t.mallocSizes.lookup a = if size * num % 2 ^ 64 ≠ 0 ∧
        a = 0 then some (size * num % 2 ^ 64) else m.lookup a) := by
  generalize hn : size * num % 2 ^ 64 = n
  -- The state once the new block, at address zero, is recorded.
  obtain ⟨t₁, ht₁, hcalls, hm⟩ : ∃ t₁ : AllocState,
      (if n > 0 then (((AllocState.mk m []).recordAlloc 0 n (2 * id + 1)).clearShadowMemory
        0 n).insert 0 n else ⟨m, []⟩) = t₁ ∧ t₁.calls = blockCalls 0 n id ∧
      t₁.mallocSizes = if n = 0 then m else m.insert 0 n := by
    by_cases h : n = 0
    · exact ⟨_, rfl, by simp [h, blockCalls], by simp [h]⟩
    · refine ⟨_, rfl, ?_, by simp [h, Nat.pos_of_ne_zero h]⟩
      simp [h, Nat.pos_of_ne_zero h, blockCalls, recordAlloc, clearShadowMemory, call, insert]
  have hlook : ∀ a, t₁.mallocSizes.lookup a = if n ≠ 0 ∧
      a = 0 then some n else m.lookup a := fun a => by
    rw [hm]
    by_cases h : n = 0
    · simp [h]
    · simp [h, AddrMap.lookup_insert]
  have hc : t₁.mallocSizes.contains oldaddr = (m.lookup oldaddr).isSome := by
    rw [← AddrMap.isSome_lookup, hlook, if_neg fun h => h0 h.2]
  unfold afterAllocfn
  simp only [hn, ne_eq, h0, not_false_eq_true, if_true, ht₁, hc]
  cases hold : m.lookup oldaddr with
  | none => exact ⟨t₁, by simp, fun h => (h rfl).elim, fun _ => ⟨hcalls, hlook⟩⟩
  | some old =>
    have hv : t₁.deref (m.get oldaddr) = some old := by
      have hlk := hlook oldaddr
      rw [if_neg fun h => h0 h.2, hold, AddrMap.lookup_eq, hc, hold] at hlk
      rw [AddrMap.get_eq, ← AddrMap.isSome_lookup, hold]
      exact hlk
    rw [hv]
    exact ⟨_, rfl, fun _ => by simp [AddrMap.lookup_remove], fun h => by cases h⟩

end AllocState

namespace AllocHook

/-- **A failed call** changes nothing exactly if it records again the block
that is already recorded at the pointer it reports. -/
theorem unchanged_iff (hook : AllocHook) {m : AddrMap Nat} {tables : ShadowTables}
    {c : ShadowContext} {s : CheckState}
    {mem : ProgramMemory} {id p : Nat} (hs : tables.WF) (hr : hook.ReportsFailure p) :
    (∃ m' tables', hook.apply c s mem id p m tables = some (m', tables', []) ∧
      Unchanged m m' tables tables') ↔ hook.Repeats c.strand id p m tables := by
  -- A call that records a block and nothing else.
  have hblock : ∀ (hook : AllocHook) (n : Nat), (∃ t, hook.run ⟨m, []⟩ s mem id p = some (t, []) ∧
        t.calls = blockCalls p n id ∧ ∀ a, t.mallocSizes.lookup a = if a = p then some n
        else m.lookup a) →
      ((∃ m' tables', hook.apply c s mem id p m tables = some (m', tables', []) ∧
        Unchanged m m' tables tables') ↔
        RecordedBefore c.strand id p n m tables) := fun hook n hrun => by
    obtain ⟨t, ht, hcalls, hm⟩ := hrun
    have hiff := (recorded_blockCalls hs c p n id).same_iff hm
    simp [apply, ht, hcalls, hiff]
  cases hook with
  | allocfn size num oldaddr =>
    obtain ⟨hp, hsize⟩ := hr
    subst hp
    by_cases h0 : oldaddr = 0
    · have hsz : size ≠ 0 := fun h => hsize (by rw [h, Nat.zero_mul])
      obtain ⟨t, ht, hc, hm⟩ := AllocState.recordBlock_spec m 0 (size * num % 2 ^ 64) id
      simp only [Repeats, h0, if_true]
      refine hblock _ _ ⟨t, ?_, hc, fun a => by rw [hm, AddrMap.lookup_insert]⟩
      simp only [run, AllocState.afterAllocfn, ne_eq, not_true_eq_false, if_false, hsz]
      rw [← ht]
      rfl
    · obtain ⟨t, ht, hold, hnew⟩ := AllocState.afterAllocfn_null m s id size num h0
      simp only [Repeats, h0, if_false]
      cases hl : m.lookup oldaddr with
      | some n =>
        -- The old block is gone.
        refine iff_of_false (fun h => ?_) (by simp)
        obtain ⟨m', tables', heq, hu⟩ := h
        simp only [apply, run, ht] at heq
        cases heq
        have hgone := hu.size oldaddr
        rw [hold (by simp [hl]), hl] at hgone
        cases hgone
      | none =>
        obtain ⟨hc, hm⟩ := hnew hl
        simp only [true_and]
        by_cases hz : size * num % 2 ^ 64 = 0
        · refine iff_of_true ⟨t.mallocSizes, tables.applyAll c t.calls,
            by simp [apply, run, ht], ?_⟩ (.inl hz)
          rw [hc, hz]
          exact ⟨fun a => by rw [hm, if_neg fun h => h.1 hz], fun b => .refl tables b⟩
        · rw [or_iff_right hz]
          exact hblock _ _ ⟨t, by simp [run, ht], hc,
            fun a => by simp only [hm, ne_eq, hz, not_false_eq_true, true_and]⟩
  | posixMemalign result size =>
    obtain ⟨t, ht, hc, hm⟩ := AllocState.recordBlock_spec m p size id
    exact hblock _ size ⟨t, by simp [run, AllocState.allocPosixMemalign, hr.2, ht], hc,
      fun a => by rw [hm, AddrMap.lookup_insert]⟩
  | memalign size =>
    obtain ⟨hp, h0⟩ := hr
    simp [apply, run, AllocState.allocMemalign, hp, h0, Repeats]
  | strdup str checkMAAP =>
    cases hr
    exact iff_of_true ⟨m, tables, rfl, .refl m tables⟩ trivial
  | strndup str size checkMAAP =>
    cases hr
    exact iff_of_true ⟨m, tables, rfl, .refl m tables⟩ trivial

/-- The tables with a block of 16 bytes at 4096. -/
def oneBlock : ShadowTables :=
  ({} : ShadowTables).applyAll (.lockFree ⟨0, 0, fun _ _ => false⟩) (blockCalls 4096 16 1)

/-- A `posix_memalign` that fails where its pointer still holds the block that
it returned before. -/
theorem unchanged_iff_posix_memalign :
    ∃ m' tables', apply (.lockFree ⟨0, 0, fun _ _ => false⟩) ⟨true, true⟩
    ⟨fun _ => 0, fun _ => 0⟩ 1 4096
        (AddrMap.empty.insert 4096 16) oneBlock (.posixMemalign 12 16) = some (m', tables', []) ∧
      Unchanged (AddrMap.empty.insert 4096 16) m' oneBlock tables' := by
  have hblock :=
    recorded_blockCalls ShadowTables.WF.empty (.lockFree ⟨0, 0, fun _ _ => false⟩) 4096 16 1
  refine (unchanged_iff (.posixMemalign 12 16) hblock.wf ⟨by decide, by decide⟩).2
    (hblock.recordedBefore ?_ fun b => rfl)
  rw [AddrMap.lookup_insert, if_pos rfl]

/-- A `realloc` of a block of 16 bytes that fails: the block is no longer
recorded. -/
theorem not_unchanged_realloc :
    ¬ ∃ m' tables', apply (.lockFree ⟨0, 0, fun _ _ => false⟩) ⟨true, true⟩
    ⟨fun _ => 0, fun _ => 0⟩ 1 0
        (AddrMap.empty.insert 4096 16) {} (.allocfn 32 1 4096) = some (m', tables', []) ∧
      Unchanged (AddrMap.empty.insert 4096 16) m' {} tables' := by
  intro ⟨m', tables', heq, hu⟩
  have hlive : (AddrMap.empty.insert 4096 16).lookup 4096 = some 16 := by
    rw [AddrMap.lookup_insert, if_pos rfl]
  obtain ⟨t, ht, hold, -⟩ :=
    AllocState.afterAllocfn_null (AddrMap.empty.insert 4096 16) ⟨true, true⟩ 1 32 1
      (show 4096 ≠ 0 by decide)
  simp only [apply, run, ht] at heq
  cases heq
  have hgone := hu.size 4096
  rw [hold (by simp [hlive]), hlive] at hgone
  cases hgone

end AllocHook

end Cilksan
