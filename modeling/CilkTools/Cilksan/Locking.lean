/-
The lock hooks (`locking.cpp`) and the lock set they keep (`locksets.h`).

An acquire and a release are each noted only if the program runs in parallel
at that moment. `mtx_lock` and `mtx_trylock` are as their pthread siblings.
-/
import CilkTools.Cilksan.AddrMap
import CilkTools.Cilksan.LockSets
import CilkTools.Cilksan.ParallelExecution

namespace Cilksan

namespace LockSet

/-- The scan of `insert`: past the smaller IDs, and in before the next one
unless that is the new ID itself. -/
def insertIds (newLockId : Nat) : List Nat → List Nat
  | [] => [newLockId]
  | a :: l =>
    if a < newLockId then a :: insertIds newLockId l
    else if a = newLockId then a :: l
    else newLockId :: a :: l

def insert (s : LockSet) (newLockId : Nat) : LockSet := ⟨insertIds newLockId s.ids⟩

def isEmpty (s : LockSet) : Bool := s.ids.isEmpty

/-- `remove`. The IDs after the scan's end move back by one and the last place
is given up, whether or not the scan found the ID. On an empty set the loop's
bound `end - 1` wraps around, and the loop runs out of the array. -/
def remove (s : LockSet) (lockId : Nat) : Option LockSet :=
  if s.isEmpty then none
  else
    let i := (s.ids.takeWhile (· < lockId)).length
    some ⟨if i < s.ids.length then s.ids.eraseIdx i else s.ids.dropLast⟩

end LockSet

/-- What the hooks read and write. -/
structure LockState where
  parallelExecution : ParallelExecution
  lockIds : AddrMap Nat
  nextLockId : Nat
  lockset : LockSet
  locksetEmpty : Bool

/-- A mutex, or the lock that stands for atomic operations. -/
inductive Lock
  | mutex (addr : Nat)
  | atomic
  deriving DecidableEq, Repr

def atomicLockId : Nat := 0

/-- What the program does: enter and leave functions, tasks and loops, detach,
sync, and call the hooked routines, successfully. -/
inductive LockEvent
  | enter
  | leave
  | detach
  | sync (isLocalSynced : Bool)
  | mutexInit (mutex : Nat)
  | mutexDestroy (mutex : Nat)
  | mutexLock (mutex : Nat)
  | mutexTimedlock (mutex : Nat)
  | mutexUnlock (mutex : Nat)
  | registerLockExplicit (mutex : Nat)
  | unregisterLockExplicit (mutex : Nat)
  | acquireLock (mutex : Nat)
  | releaseLock (mutex : Nat)
  | beginAtomic
  | endAtomic
  deriving DecidableEq, Repr

namespace LockState

def initial : LockState := ⟨.initial, .empty, atomicLockId + 1, ⟨[]⟩, true⟩

def isExecutionParallel (c : LockState) : Bool := c.parallelExecution.isExecutionParallel

/-- `locks_held`. -/
def locksHeld (c : LockState) : Bool := !c.locksetEmpty

def doAcquireLock (c : LockState) (lockId : Nat) : LockState :=
  { c with lockset := c.lockset.insert lockId, locksetEmpty := false }

def doReleaseLock (c : LockState) (lockId : Nat) : Option LockState := do
  let lockset ← c.lockset.remove lockId
  return { c with lockset, locksetEmpty := lockset.isEmpty }

def newLockId (c : LockState) (mutex : Nat) : LockState :=
  { c with lockIds := c.lockIds.insert mutex c.nextLockId, nextLockId := c.nextLockId + 1 }

/-- `*lock_ids.get(mutex)`, if there is one. -/
def lockId (c : LockState) (mutex : Nat) : Option Nat := c.lockIds.lookup mutex

/-- The lock is acquired if it is known. -/
def acquireKnown (c : LockState) (mutex : Nat) : LockState :=
  match c.lockId mutex with
  | some lockId => c.doAcquireLock lockId
  | none => c

def releaseKnown (c : LockState) (mutex : Nat) : Option LockState :=
  match c.lockId mutex with
  | some lockId => c.doReleaseLock lockId
  | none => some c

/-- `__csan_pthread_mutex_init`. -/
def mutexInit (c : LockState) (mutex : Nat) : LockState := c.newLockId mutex

/-- `__csan_pthread_mutex_destroy` and `__cilksan_unregister_lock_explicit`. -/
def mutexDestroy (c : LockState) (mutex : Nat) : LockState :=
  if c.lockIds.contains mutex then { c with lockIds := c.lockIds.remove mutex } else c

def registerLockExplicit (c : LockState) (mutex : Nat) : LockState :=
  if c.lockIds.contains mutex then c else c.newLockId mutex

/-- `__csan_pthread_mutex_lock` and `__csan_pthread_mutex_trylock`. A mutex
not seen before gets an ID. -/
def mutexLock (c : LockState) (mutex : Nat) : LockState :=
  if c.isExecutionParallel then
    (if c.lockIds.contains mutex then c else c.newLockId mutex).acquireKnown mutex
  else c

/-- `__csan_mtx_timedlock` and `__cilksan_acquire_lock`: a mutex not seen before is left out. -/
def acquireLock (c : LockState) (mutex : Nat) : LockState :=
  if c.isExecutionParallel then c.acquireKnown mutex else c

/-- `__csan_pthread_mutex_unlock` and `__cilksan_release_lock`. -/
def mutexUnlock (c : LockState) (mutex : Nat) : Option LockState :=
  if c.isExecutionParallel then c.releaseKnown mutex else some c

def beginAtomic (c : LockState) : LockState :=
  if c.isExecutionParallel then c.doAcquireLock atomicLockId else c

def endAtomic (c : LockState) : Option LockState :=
  if c.isExecutionParallel then c.doReleaseLock atomicLockId else some c

def withExecution (c : LockState) (pe : Option ParallelExecution) : Option LockState := do
  return { c with parallelExecution := ← pe }

def step (c : LockState) : LockEvent → Option LockState
  | .enter => c.withExecution c.parallelExecution.enter
  | .leave => c.withExecution c.parallelExecution.leave
  | .detach => c.withExecution c.parallelExecution.detach
  | .sync isLocalSynced => c.withExecution (c.parallelExecution.sync isLocalSynced)
  | .mutexInit mutex => some (c.mutexInit mutex)
  | .mutexDestroy mutex | .unregisterLockExplicit mutex => some (c.mutexDestroy mutex)
  | .registerLockExplicit mutex => some (c.registerLockExplicit mutex)
  | .mutexLock mutex => some (c.mutexLock mutex)
  | .mutexTimedlock mutex | .acquireLock mutex => some (c.acquireLock mutex)
  | .mutexUnlock mutex | .releaseLock mutex => c.mutexUnlock mutex
  | .beginAtomic => some c.beginAtomic
  | .endAtomic => c.endAtomic

/-- The ID of a lock, if it has one. -/
def idOf (c : LockState) : Lock → Option Nat
  | .mutex addr => c.lockId addr
  | .atomic => some atomicLockId

end LockState

/-! ## The program's side -/

/-- The locks the program holds, with the execution state each was acquired in. -/
abbrev HeldLocks := Lock → Option Bool

namespace LockEvent

/-- The lock an event acquires. -/
def acquires : LockEvent → Option Lock
  | .mutexLock m | .mutexTimedlock m | .acquireLock m => some (.mutex m)
  | .beginAtomic => some .atomic
  | _ => none

/-- The lock an event releases. -/
def releases : LockEvent → Option Lock
  | .mutexUnlock m | .releaseLock m => some (.mutex m)
  | .endAtomic => some .atomic
  | _ => none

/-- The lock an event acquires if it is known. -/
def acquiresKnown : LockEvent → Option Lock
  | .mutexTimedlock m | .acquireLock m => some (.mutex m)
  | _ => none

/-- The mutex whose initialisation or end is noted. -/
def renames : LockEvent → Option Lock
  | .mutexInit m | .mutexDestroy m | .registerLockExplicit m | .unregisterLockExplicit m =>
    some (.mutex m)
  | _ => none

end LockEvent

/-- Locks are not recursive, only a lock that is held is released, and none is
initialised or destroyed while it is held. -/
def HeldLocks.step (held : HeldLocks) (parallel : Bool) (e : LockEvent) : Option HeldLocks :=
  match e.acquires, e.releases, e.renames with
  | some l, _, _ => if held l = none then some (Function.update held l (some parallel)) else none
  | _, some l, _ => if held l = none then none else some (Function.update held l none)
  | _, _, some l => if held l = none then some held else none
  | _, _, _ => some held

/-- The condition under which the hooks follow a step. A release is made in the
execution state of its acquire, unless the lock was acquired in series and has
no ID; and where the routine leaves out unknown mutexes, one acquired in
parallel is known. -/
def Followed (held : HeldLocks) (c : LockState) (e : LockEvent) : Prop :=
  (∀ l ∈ e.releases, held l = some c.isExecutionParallel ∨ held l = some false ∧ c.idOf l = none) ∧
    ∀ l ∈ e.acquiresKnown, c.isExecutionParallel = true → c.idOf l ≠ none

/-- A run whose steps meet `ok`, the last event first. -/
inductive LockRun (ok : HeldLocks → LockState → LockEvent → Prop) : List LockEvent → HeldLocks →
    LockState → Prop
  | init : LockRun ok [] (fun _ => none) .initial
  | step {es : List LockEvent} {e : LockEvent} {held held' : HeldLocks} {c c' : LockState}
    (h : LockRun ok es held c) (hp : held.step c.isExecutionParallel e = some held')
    (hok : ok held c e) (hc : c.step e = some c') : LockRun ok (e :: es) held' c'

/-- The lock set has the locks held that were acquired in parallel, and only
locks that are held; and the flag says whether it is empty. -/
structure TracksHeld (held : HeldLocks) (c : LockState) : Prop where
  only : ∀ id ∈ c.lockset.ids, ∃ l, held l ≠ none ∧ c.idOf l = some id
  all : ∀ l, held l = some true → ∃ id ∈ c.lockset.ids, c.idOf l = some id
  empty : c.locksetEmpty = c.lockset.isEmpty

/-- The invariant behind it: the IDs are those of the locks acquired in
parallel, each once and in order. -/
structure LockInv (held : HeldLocks) (c : LockState) : Prop where
  sorted : c.lockset.ids.Pairwise (· < ·)
  mem : ∀ id, id ∈ c.lockset.ids ↔ ∃ l, held l = some true ∧ c.idOf l = some id
  hasId : ∀ l, held l = some true → c.idOf l ≠ none
  inj : ∀ l l' id, c.idOf l = some id → c.idOf l' = some id → l = l'
  fresh : ∀ l id, c.idOf l = some id → id < c.nextLockId
  empty : c.locksetEmpty = c.lockset.isEmpty

/-! ## The sorted array -/

namespace LockSet

theorem mem_insertIds {id x : Nat} {l : List Nat} : x ∈ insertIds id l ↔ x = id ∨ x ∈ l := by
  induction l with
  | nil => simp [insertIds]
  | cons a l ih =>
    simp only [insertIds]
    split
    · simp only [List.mem_cons, ih, or_left_comm]
    · split
      · next h => subst h; simp
      · simp

theorem sorted_insertIds {id : Nat} {l : List Nat} (h : l.Pairwise (· < ·)) :
    (insertIds id l).Pairwise (· < ·) := by
  induction l with
  | nil => simp [insertIds]
  | cons a l ih =>
    rw [List.pairwise_cons] at h
    simp only [insertIds]
    split
    · next hlt =>
      refine List.pairwise_cons.2 ⟨fun x hx => ?_, ih h.2⟩
      rw [mem_insertIds] at hx
      rcases hx with rfl | hx
      · exact hlt
      · exact h.1 x hx
    · next hge =>
      split
      · exact List.pairwise_cons.2 h
      · next hne =>
        refine List.pairwise_cons.2 ⟨fun x hx => ?_, List.pairwise_cons.2 h⟩
        rw [List.mem_cons] at hx
        rcases hx with rfl | hx
        · omega
        · have := h.1 x hx
          omega

theorem ids_ne_nil_of_mem {s : LockSet} {id : Nat} (h : id ∈ s.ids) : s.isEmpty = false := by
  cases hs : s.ids with
  | nil => rw [hs] at h; cases h
  | cons a l => simp [isEmpty, hs]

/-- An ID that is there goes, and no other. -/
theorem remove_of_mem {s : LockSet} {id : Nat} (hs : s.ids.Pairwise (· < ·)) (h : id ∈ s.ids) :
    ∃ s', s.remove id = some s' ∧ s'.ids.Pairwise (· < ·) ∧ ∀ x, x ∈ s'.ids ↔
    x ∈ s.ids ∧ x ≠ id := by
  have hne := ids_ne_nil_of_mem h
  obtain ⟨p, q, hpq⟩ := List.append_of_mem h
  rw [hpq, List.pairwise_append, List.pairwise_cons] at hs
  obtain ⟨hp, ⟨hq, hq'⟩, hcross⟩ := hs
  have hlt : ∀ x ∈ p, x < id := fun x hx => hcross x hx id (by simp)
  -- The scan ends at the ID.
  have htake : (s.ids.takeWhile (· < id)) = p := by
    rw [hpq, List.takeWhile_append_of_pos (by simpa using hlt)]
    simp
  refine ⟨⟨p ++ q⟩, ?_, ?_, fun x => ?_⟩
  · simp only [remove, hne, Bool.false_eq_true, if_false, htake]
    rw [hpq, if_pos (by rw [List.length_append, List.length_cons]; omega),
      List.eraseIdx_append_of_length_le (Nat.le_refl _), Nat.sub_self]
    rfl
  · exact List.pairwise_append.2 ⟨hp, hq', fun x hx y hy => hcross x hx y (by simp [hy])⟩
  · simp only [hpq, List.mem_append, List.mem_cons]
    constructor
    · rintro (hx | hx)
      · exact ⟨.inl hx, Nat.ne_of_lt (hlt x hx)⟩
      · exact ⟨.inr (.inr hx), Nat.ne_of_gt (hq x hx)⟩
    · intro ⟨hx, hne⟩
      rcases hx with hx | hx | hx
      · exact .inl hx
      · exact absurd hx hne
      · exact .inr hx

/-- If the ID is not there, another one goes. -/
theorem exists_not_mem_remove {s s' : LockSet} {id : Nat} (hs : s.ids.Pairwise (· < ·))
    (h : s.remove id = some s') : ∃ x ∈ s.ids, x ∉ s'.ids := by
  simp only [remove] at h
  split at h
  · cases h
  · next hne =>
    cases h
    have hlen : 0 < s.ids.length := by
      rw [List.length_pos_iff]
      intro hnil
      exact hne (by simp [isEmpty, hnil])
    -- One place is given up.
    have hshort : (if (s.ids.takeWhile (· < id)).length < s.ids.length then
        s.ids.eraseIdx (s.ids.takeWhile (· < id)).length else s.ids.dropLast).length <
            s.ids.length := by
      split
      · next hlt => rw [List.length_eraseIdx, if_pos hlt]; omega
      · rw [List.length_dropLast]; omega
    refine Classical.byContradiction fun hall => ?_
    have hsub : s.ids ⊆ _ := fun x hx => Classical.not_not.1 fun hnx => hall ⟨x, hx, hnx⟩
    have hnodup : s.ids.Nodup := hs.imp fun h => Nat.ne_of_lt h
    have hle := List.Nodup.length_le_of_subset hnodup hsub
    simp only at hle
    omega

end LockSet

/-! ## The steps -/

namespace LockState

theorem idOf_newLockId (c : LockState) (m : Nat) (l : Lock) :
    (c.newLockId m).idOf l = if l = .mutex m then some c.nextLockId else c.idOf l := by
  cases l with
  | mutex a => simp [idOf, lockId, newLockId, AddrMap.lookup_insert]
  | atomic => simp [idOf]

theorem idOf_mutexDestroy (c : LockState) (m : Nat) (l : Lock) :
    (c.mutexDestroy m).idOf l = if l = .mutex m then none else c.idOf l := by
  simp only [mutexDestroy]
  cases hc : c.lockIds.contains m with
  | true =>
    cases l with
    | mutex a => simp [idOf, lockId, AddrMap.lookup_remove]
    | atomic => simp [idOf]
  | false =>
    simp only [Bool.false_eq_true, if_false]
    split
    · next h =>
      subst h
      rw [idOf, lockId, AddrMap.lookup_eq, hc]
      rfl
    · rfl

end LockState

namespace LockInv

variable {held : HeldLocks} {c : LockState} {l : Lock} {id m : Nat}

theorem tracks (h : LockInv held c) : TracksHeld held c where
  only id hid := by
    obtain ⟨l, hl, hi⟩ := (h.mem id).1 hid
    exact ⟨l, by simp [hl], hi⟩
  all l hl := by
    obtain ⟨id, hi⟩ := Option.ne_none_iff_exists'.1 (h.hasId l hl)
    exact ⟨id, (h.mem id).2 ⟨l, hl, hi⟩, hi⟩
  empty := h.empty

/-- What does not read the flags. -/
theorem withExecution (h : LockInv held c) (pe : ParallelExecution) :
    LockInv held { c with parallelExecution := pe } :=
  ⟨h.sorted, h.mem, h.hasId, h.inj, h.fresh, h.empty⟩

/-- A lock acquired or released in series changes nothing. -/
theorem serial (h : LockInv held c) (hl : held l ≠ some true) {o : Option Bool}
    (ho : o ≠ some true) : LockInv (Function.update held l o) c := by
  have hiff : ∀ l', Function.update held l o l' = some true ↔ held l' = some true := by
    intro l'
    by_cases he : l' = l
    · subst he; simp [hl, ho]
    · simp [he]
  exact ⟨h.sorted, fun id => by simp only [hiff]; exact h.mem id,
    fun l' hl' => h.hasId l' ((hiff l').1 hl'), h.inj, h.fresh, h.empty⟩

theorem acquire (h : LockInv held c) (hid : c.idOf l = some id) :
    LockInv (Function.update held l (some true)) (c.doAcquireLock id) where
  sorted := LockSet.sorted_insertIds h.sorted
  mem x := by
    show x ∈ LockSet.insertIds id c.lockset.ids ↔ _
    rw [LockSet.mem_insertIds, h.mem]
    constructor
    · rintro (rfl | ⟨l', hl', hi⟩)
      · exact ⟨l, by simp, hid⟩
      · refine ⟨l', ?_, hi⟩
        by_cases he : l' = l
        · subst he; simp
        · simpa [he] using hl'
    · intro ⟨l', hl', hi⟩
      by_cases he : l' = l
      · subst he
        exact .inl (Option.some.inj (hi.symm.trans hid))
      · exact .inr ⟨l', by simpa [he] using hl', hi⟩
  hasId l' hl' := by
    by_cases he : l' = l
    · subst he
      show c.idOf l' ≠ none
      simp [hid]
    · exact h.hasId l' (by simpa [he] using hl')
  inj := h.inj
  fresh := h.fresh
  empty := by
    have : id ∈ (c.lockset.insert id).ids := LockSet.mem_insertIds.2 (.inl rfl)
    exact (LockSet.ids_ne_nil_of_mem this).symm

theorem release (h : LockInv held c) (hl : held l = some true) (hid : c.idOf l = some id) :
    ∃ c', c.doReleaseLock id = some c' ∧ LockInv (Function.update held l none) c' := by
  obtain ⟨s', hs', hsorted, hmem⟩ := LockSet.remove_of_mem h.sorted ((h.mem id).2 ⟨l, hl, hid⟩)
  refine ⟨{ c with lockset := s', locksetEmpty := s'.isEmpty },
    by simp [LockState.doReleaseLock, hs'], hsorted,
    fun x => ?_, fun l' hl' => ?_, h.inj, h.fresh, rfl⟩
  · show x ∈ s'.ids ↔ _
    rw [hmem, h.mem]
    constructor
    · intro ⟨⟨l', hl', hi⟩, hne⟩
      have he : l' ≠ l := by
        rintro rfl
        exact hne (Option.some.inj (hi.symm.trans hid))
      exact ⟨l', by simpa [he] using hl', hi⟩
    · intro ⟨l', hl', hi⟩
      by_cases he : l' = l
      · subst he; simp at hl'
      · refine ⟨⟨l', by simpa [he] using hl', hi⟩, ?_⟩
        rintro rfl
        exact he (h.inj l' l _ hi hid)
  · by_cases he : l' = l
    · subst he; simp at hl'
    · exact h.hasId l' (by simpa [he] using hl')

/-- A new ID for a mutex that is not held. -/
theorem newLockId (h : LockInv held c) (hm : held (.mutex m) = none) :
    LockInv held (c.newLockId m) := by
  have hid : ∀ l', held l' = some true → (c.newLockId m).idOf l' = c.idOf l' := by
    intro l' hl'
    rw [LockState.idOf_newLockId, if_neg]
    rintro rfl
    rw [hm] at hl'
    cases hl'
  refine ⟨h.sorted, fun id => ?_, fun l' hl' => ?_, fun l₁ l₂ id h₁ h₂ => ?_,
    fun l' id hi => ?_, h.empty⟩
  · show id ∈ c.lockset.ids ↔ _
    rw [h.mem]
    exact exists_congr fun l' => and_congr_right fun hl' => by rw [hid l' hl']
  · rw [hid l' hl']
    exact h.hasId l' hl'
  · have hfresh :
        ∀ l', c.idOf l' ≠ some c.nextLockId := fun l' hi => Nat.lt_irrefl _ (h.fresh l' _ hi)
    rw [LockState.idOf_newLockId] at h₁ h₂
    split at h₁
    · next he₁ =>
      cases h₁
      split at h₂
      · next he₂ => rw [he₁, he₂]
      · exact absurd h₂ (hfresh l₂)
    · split at h₂
      · cases h₂
        exact absurd h₁ (hfresh l₁)
      · exact h.inj l₁ l₂ id h₁ h₂
  · rw [LockState.idOf_newLockId] at hi
    show id < c.nextLockId + 1
    split at hi
    · cases hi
      omega
    · have := h.fresh l' id hi
      omega

theorem mutexDestroy (h : LockInv held c) (hm : held (.mutex m) = none) :
    LockInv held (c.mutexDestroy m) := by
  have hsame : (c.mutexDestroy m).lockset = c.lockset ∧
      (c.mutexDestroy m).nextLockId = c.nextLockId ∧
      (c.mutexDestroy m).locksetEmpty = c.locksetEmpty := by
    unfold LockState.mutexDestroy
    split <;> exact ⟨rfl, rfl, rfl⟩
  obtain ⟨hs, hn, he⟩ := hsame
  have hid : ∀ l', held l' = some true → (c.mutexDestroy m).idOf l' = c.idOf l' := by
    intro l' hl'
    rw [LockState.idOf_mutexDestroy, if_neg]
    rintro rfl
    rw [hm] at hl'
    cases hl'
  have hold : ∀ l' id, (c.mutexDestroy m).idOf l' = some id → c.idOf l' = some id := by
    intro l' id hi
    rw [LockState.idOf_mutexDestroy] at hi
    split at hi
    · cases hi
    · exact hi
  refine ⟨by rw [hs]; exact h.sorted, fun id => ?_, fun l' hl' => ?_,
    fun l₁ l₂ id h₁ h₂ => h.inj l₁ l₂ id (hold _ _ h₁) (hold _ _ h₂),
    fun l' id hi => by rw [hn]; exact h.fresh l' id (hold _ _ hi), by rw [hs, he]; exact h.empty⟩
  · rw [hs, h.mem]
    exact exists_congr fun l' => and_congr_right fun hl' => by rw [hid l' hl']
  · rw [hid l' hl']
    exact h.hasId l' hl'

/-! ## Acquires and releases -/

theorem acquireKnown (h : LockInv held c) (hid : c.idOf (.mutex m) ≠ none) :
    LockInv (Function.update held (.mutex m) (some true)) (c.acquireKnown m) := by
  obtain ⟨id, hid⟩ := Option.ne_none_iff_exists'.1 hid
  have hk : c.acquireKnown m = c.doAcquireLock id := by
    simp only [LockState.acquireKnown, show c.lockId m = some id from hid]
  rw [hk]
  exact h.acquire hid

theorem mutexLock (h : LockInv held c) (hl : held (.mutex m) = none) :
    LockInv (Function.update held (.mutex m) (some c.isExecutionParallel)) (c.mutexLock m) := by
  simp only [LockState.mutexLock]
  cases hp : c.isExecutionParallel with
  | false => exact h.serial (by simp [hl]) (by simp)
  | true =>
    simp only [if_true]
    split
    · next hc =>
      refine h.acquireKnown fun hn => ?_
      rw [← AddrMap.isSome_lookup, show c.lockIds.lookup m = none from hn] at hc
      cases hc
    · exact (h.newLockId hl).acquireKnown (by simp [LockState.idOf_newLockId])

theorem acquireLock (h : LockInv held c) (hl : held (.mutex m) = none)
    (hid : c.isExecutionParallel = true → c.idOf (.mutex m) ≠ none) :
    LockInv (Function.update held (.mutex m) (some c.isExecutionParallel)) (c.acquireLock m) := by
  simp only [LockState.acquireLock]
  cases hp : c.isExecutionParallel with
  | false => exact h.serial (by simp [hl]) (by simp)
  | true => exact h.acquireKnown (hid hp)

theorem beginAtomic (h : LockInv held c) (hl : held .atomic = none) :
    LockInv (Function.update held .atomic (some c.isExecutionParallel)) c.beginAtomic := by
  simp only [LockState.beginAtomic]
  cases hp : c.isExecutionParallel with
  | false => exact h.serial (by simp [hl]) (by simp)
  | true => exact h.acquire rfl

end LockInv

namespace LockState

/-- The hook of a release: what it does in series, to a lock with an ID and to one without. -/
theorem step_of_releases {c : LockState} {e : LockEvent} {l : Lock} (he : e.releases = some l) :
    c.step e = if c.isExecutionParallel then
      match c.idOf l with
      | some id => c.doReleaseLock id
      | none => some c
    else some c := by
  cases e <;> cases he <;> rfl

end LockState

namespace LockInv

variable {held : HeldLocks} {c : LockState} {l : Lock} {e : LockEvent}

theorem of_releases (h : LockInv held c) (he : e.releases = some l)
    (hok : held l = some c.isExecutionParallel ∨ held l = some false ∧ c.idOf l = none) :
    ∃ c', c.step e = some c' ∧ LockInv (Function.update held l none) c' := by
  rw [LockState.step_of_releases he]
  cases hp : c.isExecutionParallel with
  | false =>
    refine ⟨c, rfl, h.serial (fun hl => ?_) (by simp)⟩
    rw [hl, hp] at hok
    simp at hok
  | true =>
    simp only [if_true]
    rcases hok with hl | ⟨hl, hn⟩
    · rw [hp] at hl
      obtain ⟨id, hid⟩ := Option.ne_none_iff_exists'.1 (h.hasId l hl)
      rw [hid]
      exact h.release hl hid
    · rw [hn]
      exact ⟨c, rfl, h.serial (by simp [hl]) (by simp)⟩

/-- A release in the wrong state leaves the lock's ID in the set, or takes another lock's out of it.
-/
theorem not_tracks_of_releases (h : LockInv held c) (he : e.releases = some l) (hl : held l ≠ none)
    (hok : ¬ (held l = some c.isExecutionParallel ∨ held l = some false ∧ c.idOf l = none))
    {c' : LockState} (hc : c.step e = some c') : ¬ TracksHeld (Function.update held l none) c' := by
  rw [LockState.step_of_releases he] at hc
  rw [not_or] at hok
  intro ht
  cases hp : c.isExecutionParallel with
  | false =>
    rw [hp] at hc hok
    cases hc
    have hl' : held l = some true := by
      cases hv : held l with
      | none => exact absurd hv hl
      | some b => cases b <;> simp_all
    obtain ⟨id, hid⟩ := Option.ne_none_iff_exists'.1 (h.hasId l hl')
    obtain ⟨l', hne, hid'⟩ := ht.only id ((h.mem id).2 ⟨l, hl', hid⟩)
    cases h.inj l l' id hid hid'
    simp at hne
  | true =>
    rw [hp] at hc hok
    have hl' : held l = some false := by
      cases hv : held l with
      | none => exact absurd hv hl
      | some b => cases b <;> simp_all
    cases hid : c.idOf l with
    | none => exact hok.2 ⟨hl', hid⟩
    | some id =>
      simp only [if_true, hid, LockState.doReleaseLock, Option.bind_eq_bind,
        Option.bind_eq_some_iff] at hc
      obtain ⟨s', hs', hc⟩ := hc
      cases hc
      obtain ⟨x, hx, hnx⟩ := LockSet.exists_not_mem_remove h.sorted hs'
      obtain ⟨l', hheld, hidx⟩ := (h.mem x).1 hx
      have hne : l' ≠ l := by
        rintro rfl
        rw [hl'] at hheld
        cases hheld
      obtain ⟨y, hy, hidy⟩ := ht.all l' (by simpa [hne] using hheld)
      cases (show c.idOf l' = some y from hidy).symm.trans hidx
      exact hnx hy

theorem of_acquires (h : LockInv held c) (he : e.acquires = some l) (hl : held l = none)
    (hok : ∀ l ∈ e.acquiresKnown, c.isExecutionParallel = true → c.idOf l ≠ none) :
    ∃ c', c.step e = some c' ∧
    LockInv (Function.update held l (some c.isExecutionParallel)) c' := by
  cases e <;> cases he
  case mutexLock m => exact ⟨_, rfl, h.mutexLock hl⟩
  case mutexTimedlock m => exact ⟨_, rfl, h.acquireLock hl (hok _ rfl)⟩
  case acquireLock m => exact ⟨_, rfl, h.acquireLock hl (hok _ rfl)⟩
  case beginAtomic => exact ⟨_, rfl, h.beginAtomic hl⟩

/-- An unknown mutex that is left out. -/
theorem not_tracks_of_acquires (he : l ∈ e.acquiresKnown) (hp : c.isExecutionParallel = true)
    (hid : c.idOf l = none) {c' : LockState} (hc : c.step e = some c') :
    ¬ TracksHeld (Function.update held l (some true)) c' := by
  intro ht
  have hstep : ∀ m, c.idOf (.mutex m) = none → c.acquireLock m = c := by
    intro m hm
    simp only [LockState.acquireLock, hp, if_true, LockState.acquireKnown,
      show c.lockId m = none from hm]
  have hsame : c' = c := by
    cases e <;> cases he
    case mutexTimedlock m => cases hc; exact hstep m hid
    case acquireLock m => cases hc; exact hstep m hid
  obtain ⟨id, _, hi⟩ := ht.all l (by simp)
  rw [hsame, hid] at hi
  cases hi

/-- Events that neither acquire nor release a lock. -/
theorem other {held' : HeldLocks} {c' : LockState} (h : LockInv held c) (ha : e.acquires = none)
    (hr : e.releases = none) (hp : held.step c.isExecutionParallel e = some held')
    (hc : c.step e = some c') : LockInv held' c' := by
  have hexec : ∀ {pe}, c.withExecution pe = some c' → LockInv held c' := by
    intro pe hpe
    simp only [LockState.withExecution, Option.bind_eq_bind, Option.bind_eq_some_iff] at hpe
    obtain ⟨pe', _, hc'⟩ := hpe
    cases hc'
    exact h.withExecution pe'
  -- A mutex that is initialised or destroyed is not held.
  have hname : ∀ {m}, e.renames = some (.mutex m) → held (.mutex m) = none ∧ held' = held := by
    intro m hm
    simp only [HeldLocks.step, ha, hr, hm] at hp
    split at hp
    · next hn => cases hp; exact ⟨hn, rfl⟩
    · cases hp
  cases e with
  | enter => cases hp; exact hexec hc
  | leave => cases hp; exact hexec hc
  | detach => cases hp; exact hexec hc
  | sync => cases hp; exact hexec hc
  | mutexInit m =>
    obtain ⟨hm, rfl⟩ := hname rfl
    cases hc
    exact h.newLockId hm
  | mutexDestroy m =>
    obtain ⟨hm, rfl⟩ := hname rfl
    cases hc
    exact h.mutexDestroy hm
  | registerLockExplicit m =>
    obtain ⟨hm, rfl⟩ := hname rfl
    cases hc
    simp only [LockState.registerLockExplicit]
    split
    · exact h
    · exact h.newLockId hm
  | unregisterLockExplicit m =>
    obtain ⟨hm, rfl⟩ := hname rfl
    cases hc
    exact h.mutexDestroy hm
  | mutexLock | mutexTimedlock | acquireLock | beginAtomic => cases ha
  | mutexUnlock | releaseLock | endAtomic => cases hr

/-- **One event.** -/
theorem step {held' : HeldLocks} {c' : LockState} (h : LockInv held c)
    (hp : held.step c.isExecutionParallel e = some held') (hok : Followed held c e)
    (hc : c.step e = some c') : LockInv held' c' := by
  cases ha : e.acquires with
  | some l =>
    simp only [HeldLocks.step, ha] at hp
    split at hp
    · next hl =>
      cases hp
      obtain ⟨c₁, hc₁, hi⟩ := h.of_acquires ha hl hok.2
      cases hc.symm.trans hc₁
      exact hi
    · cases hp
  | none =>
    cases hr : e.releases with
    | some l =>
      simp only [HeldLocks.step, ha, hr] at hp
      split at hp
      · cases hp
      · cases hp
        obtain ⟨c₁, hc₁, hi⟩ := h.of_releases hr (hok.1 l hr)
        cases hc.symm.trans hc₁
        exact hi
    | none => exact h.other ha hr hp hc

theorem initial : LockInv (fun _ => none) .initial where
  sorted := .nil
  mem id := by simp [LockState.initial]
  hasId l hl := by cases hl
  inj l l' id h h' := by
    cases l with
    | mutex a => cases h
    | atomic =>
      cases l' with
      | mutex a => cases h'
      | atomic => rfl
  fresh l id h := by
    cases l with
    | mutex a => cases h
    | atomic => cases h; exact Nat.lt_succ_self _
  empty := rfl

end LockInv

theorem LockRun.inv {es : List LockEvent} {held : HeldLocks} {c : LockState}
    (h : LockRun Followed es held c) : LockInv held c := by
  induction h with
  | init => exact .initial
  | step _ hp hok hc ih => exact ih.step hp hok hc

/-- **The lock set is that of the locks held** in every state of a run whose
steps are followed; and the next acquire or release keeps it so exactly if it
is followed too. -/
theorem lockset_tracks_held {es : List LockEvent} {held : HeldLocks} {c : LockState}
    (h : LockRun Followed es held c) :
    TracksHeld held c ∧ ∀ e held', e.acquires ≠ none ∨ e.releases ≠ none →
      held.step c.isExecutionParallel e = some held' →
      ((∃ c', c.step e = some c' ∧ TracksHeld held' c') ↔ Followed held c e) := by
  refine ⟨h.inv.tracks, fun e held' he hp => ?_⟩
  cases ha : e.acquires with
  | some l =>
    have hr : e.releases = none := by cases e <;> cases ha <;> rfl
    simp only [HeldLocks.step, ha] at hp
    split at hp
    · next hl =>
      cases hp
      constructor
      · intro ⟨c', hc, ht⟩
        refine ⟨by simp [hr], fun l' hl' hpar hid => ?_⟩
        have : l' = l := by cases e <;> cases hl' <;> cases ha <;> rfl
        subst this
        rw [hpar] at ht
        exact LockInv.not_tracks_of_acquires hl' hpar hid hc ht
      · intro hok
        obtain ⟨c', hc, hi⟩ := h.inv.of_acquires ha hl hok.2
        exact ⟨c', hc, hi.tracks⟩
    · cases hp
  | none =>
    obtain ⟨l, hr⟩ := Option.ne_none_iff_exists'.1 (he.resolve_left fun h => h ha)
    have hk : e.acquiresKnown = none := by cases e <;> cases hr <;> rfl
    simp only [HeldLocks.step, ha, hr] at hp
    split at hp
    · cases hp
    · next hl =>
      cases hp
      constructor
      · intro ⟨c', hc, ht⟩
        refine ⟨fun l' hl' => ?_, by simp [hk]⟩
        cases hr.symm.trans hl'
        exact Classical.not_not.1 fun hok => h.inv.not_tracks_of_releases hr hl hok hc ht
      · intro hok
        obtain ⟨c', hc, hi⟩ := h.inv.of_releases hr (hok.1 l hr)
        exact ⟨c', hc, hi.tracks⟩

/-- A mutex locked and unlocked next to a spawned task. -/
theorem lockset_tracks_held_spawn :
    ∃ held c, LockRun Followed [.mutexUnlock 8, .mutexLock 16, .mutexLock 8, .detach] held c ∧
      TracksHeld held c ∧ held (.mutex 16) = some true := by
  have h₁ : LockRun Followed [.detach] _ _ :=
    .step .init rfl ⟨fun l h => (nomatch h), fun l h => (nomatch h)⟩ rfl
  have h₂ := h₁.step (e := .mutexLock 8) rfl ⟨fun l h => (nomatch h), fun l h => (nomatch h)⟩ rfl
  have h₃ := h₂.step (e := .mutexLock 16) rfl ⟨fun l h => (nomatch h), fun l h => (nomatch h)⟩ rfl
  have h₄ := h₃.step (e := .mutexUnlock 8) rfl
    ⟨fun l h => by cases h; exact .inl rfl, fun l h => (nomatch h)⟩ rfl
  exact ⟨_, _, h₄, (lockset_tracks_held h₄).1, rfl⟩

/-- A mutex locked in series and unlocked in parallel: the unlock takes the ID
of another mutex, which is held, out of the set. -/
theorem lockset_release_of_serial_acquire :
    ∃ held c, LockRun (fun _ _ _ => True)
        [.mutexUnlock 8, .mutexLock 16, .detach, .mutexLock 8, .mutexInit 16, .mutexInit 8] held c ∧
      held (.mutex 16) = some true ∧ c.lockset.ids = [] ∧ c.locksHeld = false ∧
      ¬ TracksHeld held c := by
  have hrun : LockRun (fun _ _ _ => True)
      [.mutexUnlock 8, .mutexLock 16, .detach, .mutexLock 8, .mutexInit 16, .mutexInit 8] _ _ :=
    .step (.step
      (.step (.step (.step (.step .init rfl trivial rfl) rfl trivial rfl) rfl trivial rfl)
        rfl trivial rfl)
      rfl trivial rfl) rfl trivial rfl
  refine ⟨_, _, hrun, rfl, rfl, rfl, fun ht => ?_⟩
  obtain ⟨id, hid, _⟩ := ht.all (.mutex 16) rfl
  cases hid

end Cilksan
