/-
Atomic accesses (`do_atomic_read`, `do_atomic_write`): each puts the atomic
lock into the lock set, makes a locked access and takes the lock out again.

`locksetEmpty` is left as it is, and the insertion does nothing in an atomic
region, where the lock is there.
-/
import CilkTools.Cilksan.Locking
import Mathlib.Data.List.Sort

namespace Cilksan

/-- A recorded access, with the lock set it is checked with, if it is a locked one. -/
structure RecordedAccess where
  isRead : Bool
  lockset : Option LockSet
  deriving DecidableEq, Repr

namespace LockState

/-- What `do_atomic_read` and `do_atomic_write` share. -/
def doAtomic (checkAtomics isRead : Bool) (c : LockState) : Option (RecordedAccess × LockState) :=
  if checkAtomics then do
    let held := c.lockset.insert atomicLockId
    let lockset ← held.remove atomicLockId
    return (⟨isRead, some held⟩, { c with lockset })
  else some (⟨isRead, none⟩, c)

def doAtomicRead (checkAtomics : Bool) (c : LockState) : Option (RecordedAccess × LockState) :=
  c.doAtomic checkAtomics true

def doAtomicWrite (checkAtomics : Bool) (c : LockState) : Option (RecordedAccess × LockState) :=
  c.doAtomic checkAtomics false

/-- Several atomic accesses, `true` for a read. -/
def doAtomics (checkAtomics : Bool) (c : LockState) (reads : List Bool) : Option LockState :=
  reads.foldlM (fun c isRead =>
    (if isRead then c.doAtomicRead checkAtomics else c.doAtomicWrite checkAtomics).map Prod.snd) c

end LockState

/-- A run of lock events and atomic accesses that meet `ok`, with any program
behind it, the last event first; `.inr` is an atomic access. -/
inductive AtomicRun (checkAtomics : Bool) (ok : LockState → Prop) : List (LockEvent ⊕ Bool) →
    LockState → Prop
  | init : AtomicRun checkAtomics ok [] .initial
  | event {es : List (LockEvent ⊕ Bool)} {e : LockEvent} {c c' : LockState}
    (h : AtomicRun checkAtomics ok es c)
    (hc : c.step e = some c') : AtomicRun checkAtomics ok (.inl e :: es) c'
  | access {es : List (LockEvent ⊕ Bool)} {isRead : Bool} {c c' : LockState}
    (h : AtomicRun checkAtomics ok es c)
    (hok : ok c) (hc : c.doAtomics checkAtomics [isRead] = some c') :
    AtomicRun checkAtomics ok (.inr isRead :: es) c'

/-- The atomic lock is not held where atomic accesses take it. -/
def Spared (checkAtomics : Bool) (c : LockState) : Prop :=
  checkAtomics = true → atomicLockId ∉ c.lockset.ids

/-- The IDs are in order, and the flag says whether there are any. -/
structure LockState.Ordered (c : LockState) : Prop where
  sorted : c.lockset.ids.Pairwise (· < ·)
  empty : c.locksetEmpty = c.lockset.isEmpty

namespace LockSet

variable {s s' : LockSet} {id : Nat}

theorem sorted_remove (hs : s.ids.Pairwise (· < ·)) (h : s.remove id = some s') :
    s'.ids.Pairwise (· < ·) := by
  simp only [remove] at h
  split at h
  · cases h
  · cases h
    simp only
    split
    · exact hs.sublist (List.eraseIdx_sublist _ _)
    · exact hs.sublist (List.dropLast_sublist _)

/-- Taking out what was just put in. -/
theorem remove_insert (hs : s.ids.Pairwise (· < ·)) (h : id ∉ s.ids) :
    (s.insert id).remove id = some s := by
  have hs' : (s.insert id).ids.Pairwise (· < ·) := sorted_insertIds hs
  obtain ⟨t, ht, hts, hmem⟩ := remove_of_mem hs' (mem_insertIds.2 (.inl rfl))
  have hids : t.ids = s.ids := hts.sortedLT.eq_of_mem_iff hs.sortedLT fun x => by
    rw [hmem, insert, mem_insertIds]
    constructor
    · intro ⟨hx, hne⟩
      exact hx.resolve_left hne
    · intro hx
      exact ⟨.inr hx, fun he => h (he ▸ hx)⟩
  rw [ht, show t = s from congrArg LockSet.mk hids]

/-- What was there before is taken out with it. -/
theorem remove_insert_of_mem (id : Nat) (hs : s.ids.Pairwise (· < ·)) :
    ∃ s', (s.insert id).remove id = some s' ∧ id ∉ s'.ids := by
  have hs' : (s.insert id).ids.Pairwise (· < ·) := sorted_insertIds hs
  obtain ⟨t, ht, _, hmem⟩ := remove_of_mem hs' (mem_insertIds.2 (.inl rfl))
  exact ⟨t, ht, fun h => ((hmem id).1 h).2 rfl⟩

end LockSet

namespace LockState

variable {checkAtomics isRead : Bool} {c c' : LockState}

theorem Ordered.release {id : Nat} (h : c.Ordered) (hc : c.doReleaseLock id = some c') :
    c'.Ordered := by
  simp only [doReleaseLock, Option.bind_eq_bind, Option.bind_eq_some_iff] at hc
  obtain ⟨s, hs, hc⟩ := hc
  cases hc
  exact ⟨LockSet.sorted_remove h.sorted hs, rfl⟩

theorem Ordered.acquire (h : c.Ordered) (id : Nat) : (c.doAcquireLock id).Ordered :=
  ⟨LockSet.sorted_insertIds h.sorted,
    (LockSet.ids_ne_nil_of_mem (LockSet.mem_insertIds.2 (.inl rfl))).symm⟩

theorem Ordered.acquireKnown (h : c.Ordered) (m : Nat) : (c.acquireKnown m).Ordered := by
  simp only [LockState.acquireKnown]
  split
  · exact h.acquire _
  · exact h

theorem Ordered.newLockId (h : c.Ordered) (m : Nat) : (c.newLockId m).Ordered := ⟨h.sorted, h.empty⟩

theorem Ordered.step {e : LockEvent} (h : c.Ordered) (hc : c.step e = some c') : c'.Ordered := by
  have hexec : ∀ {pe}, c.withExecution pe = some c' → c'.Ordered := by
    intro pe hpe
    simp only [withExecution, Option.bind_eq_bind, Option.bind_eq_some_iff] at hpe
    obtain ⟨pe', _, hc'⟩ := hpe
    cases hc'
    exact ⟨h.sorted, h.empty⟩
  have hdestroy : ∀ m, (c.mutexDestroy m).Ordered := by
    intro m
    simp only [mutexDestroy]
    split
    · exact ⟨h.sorted, h.empty⟩
    · exact h
  have hunlock : ∀ m, c.mutexUnlock m = some c' → c'.Ordered := by
    intro m hm
    simp only [mutexUnlock, releaseKnown] at hm
    split at hm
    · split at hm
      · exact h.release hm
      · cases hm; exact h
    · cases hm; exact h
  have hacquire : ∀ m, (c.acquireLock m).Ordered := by
    intro m
    simp only [acquireLock]
    split
    · exact h.acquireKnown m
    · exact h
  cases e with
  | enter | leave | detach | sync => exact hexec hc
  | mutexInit m => cases hc; exact h.newLockId m
  | mutexDestroy m | unregisterLockExplicit m => cases hc; exact hdestroy m
  | registerLockExplicit m =>
    cases hc
    simp only [registerLockExplicit]
    split
    · exact h
    · exact h.newLockId m
  | mutexLock m =>
    cases hc
    simp only [mutexLock]
    split
    · split
      · exact h.acquireKnown m
      · exact (h.newLockId m).acquireKnown m
    · exact h
  | mutexTimedlock m | acquireLock m => cases hc; exact hacquire m
  | mutexUnlock m | releaseLock m => exact hunlock m hc
  | beginAtomic =>
    cases hc
    simp only [beginAtomic]
    split
    · exact h.acquire _
    · exact h
  | endAtomic =>
    simp only [LockState.step, endAtomic] at hc
    split at hc
    · exact h.release hc
    · cases hc; exact h

theorem doAtomics_cons (isRead : Bool) (reads : List Bool) :
    c.doAtomics checkAtomics (isRead :: reads) =
    (c.doAtomic checkAtomics isRead).bind fun x => x.2.doAtomics checkAtomics reads := by
  simp only [doAtomics, List.foldlM_cons, doAtomicRead, doAtomicWrite]
  cases isRead with
  | false => cases c.doAtomic checkAtomics false <;> simp
  | true => cases c.doAtomic checkAtomics true <;> simp

/-- An access that takes the lock only if it is not there. -/
theorem Ordered.doAtomic_spared (h : c.Ordered) (hs : Spared checkAtomics c) (isRead : Bool) :
    ∃ r, c.doAtomic checkAtomics isRead = some (r, c) := by
  simp only [doAtomic]
  split
  · next hc =>
    rw [LockSet.remove_insert h.sorted (hs hc)]
    exact ⟨_, rfl⟩
  · exact ⟨_, rfl⟩

theorem Ordered.doAtomics_spared (h : c.Ordered) (hs : Spared checkAtomics c) (reads : List Bool) :
    c.doAtomics checkAtomics reads = some c := by
  induction reads with
  | nil => rfl
  | cons isRead reads ih =>
    obtain ⟨r, hr⟩ := h.doAtomic_spared hs isRead
    rw [doAtomics_cons, hr, Option.bind_some, ih]

/-- An access in an atomic region ends it in the lock set. -/
theorem Ordered.doAtomic_not_spared (h : c.Ordered) (hs : ¬ Spared checkAtomics c)
    (hc : c.doAtomics checkAtomics [isRead] = some c') : c'.lockset ≠ c.lockset := by
  simp only [Spared, Classical.not_imp, not_not] at hs
  obtain ⟨s, hrem, hn⟩ := LockSet.remove_insert_of_mem atomicLockId h.sorted
  simp only [doAtomics_cons, doAtomic, if_pos hs.1, hrem, Option.bind_eq_bind,
    Option.bind_some] at hc
  cases hc
  intro heq
  rw [show s = c.lockset from heq] at hn
  exact hn hs.2

theorem AtomicRun.ordered {es : List (LockEvent ⊕ Bool)}
    (h : AtomicRun checkAtomics (Spared checkAtomics) es c) :
    c.Ordered := by
  induction h with
  | init => exact ⟨.nil, rfl⟩
  | event _ hc ih => exact ih.step hc
  | access _ hok hc ih =>
    rw [ih.doAtomics_spared hok] at hc
    cases hc
    exact ih

end LockState

/-- **Atomic accesses and the locks held.** In every state of a run whose
atomic accesses are spared, the flag agrees with the lock set, and each of the
next atomic accesses leaves both as they are exactly if they are spared too. -/
theorem atomics_keep_locks_iff {checkAtomics : Bool} {es : List (LockEvent ⊕ Bool)} {c : LockState}
    (h : AtomicRun checkAtomics (Spared checkAtomics) es c) :
    c.locksetEmpty = c.lockset.isEmpty ∧ ∀ reads : List Bool,
      (∀ p, p <+: reads → ∃ c', c.doAtomics checkAtomics p = some c' ∧ c'.lockset = c.lockset ∧
        c'.locksetEmpty = c'.lockset.isEmpty) ↔ (reads ≠ [] → Spared checkAtomics c) := by
  have ho := LockState.AtomicRun.ordered h
  refine ⟨ho.empty, fun reads => ⟨fun hall hne => ?_, fun hs p hp => ?_⟩⟩
  · obtain ⟨isRead, reads, rfl⟩ := List.exists_cons_of_ne_nil hne
    obtain ⟨c', hc, heq, _⟩ := hall [isRead] (by simp)
    by_contra hns
    exact ho.doAtomic_not_spared hns hc heq
  · cases p with
    | nil => exact ⟨c, rfl, rfl, ho.empty⟩
    | cons isRead p =>
      have hne : reads ≠ [] := by
        intro hnil
        rw [hnil] at hp
        simp at hp
      exact ⟨c, ho.doAtomics_spared (hs hne) _, rfl, ho.empty⟩

/-- A write and a read while a mutex is held. -/
theorem atomics_keep_locks_iff_mutex :
    ∃ c, AtomicRun true (Spared true) [.inl (.mutexLock 8), .inl .detach] c ∧ c.lockset.ids = [1] ∧
      (c.locksetEmpty = c.lockset.isEmpty ∧ ∀ reads : List Bool,
        (∀ p, p <+: reads → ∃ c', c.doAtomics true p = some c' ∧ c'.lockset = c.lockset ∧
          c'.locksetEmpty = c'.lockset.isEmpty) ↔ (reads ≠ [] → Spared true c)) := by
  have h : AtomicRun true (Spared true) [.inl (.mutexLock 8), .inl .detach] _ :=
    .event (.event .init rfl) rfl
  exact ⟨_, h, rfl, atomics_keep_locks_iff h⟩

/-- An atomic read in an atomic region empties the lock set behind the flag,
and the end of the region runs out of the array. -/
theorem atomic_read_in_region :
    ∃ c c', AtomicRun true (fun _ => True) [.inl .beginAtomic, .inl .detach] c ∧
    c.doAtomics true [true] = some c' ∧ c.lockset.ids = [0] ∧ c'.lockset.ids = [] ∧
    c'.locksetEmpty = false ∧ c'.endAtomic = none :=
  ⟨_, _, .event (.event .init rfl) rfl, rfl, rfl, rfl, rfl, rfl⟩

end Cilksan
