/-
Lock sets and lockers (`locksets.h`), and how a locker list is kept short
(`LockerSetFn`): an earlier access in series that held at least the locks held
now is dropped, and the current one is left out if a parallel one held at most
these locks.

`lockerSetFn_races_iff`: for every later access, the list answers as the full
one would.

`intersect` is a parameter. `Exact` says what its flags are named for; an
empty lock set has no flag.
-/
import CilkTools.SeriesParallel
import Mathlib.Data.List.Basic

namespace Cilksan

open SeriesParallel

/-- `IntersectionResult_t`. -/
abbrev IntersectionResult := BitVec 8

namespace IntersectionResult

def EMPTY : IntersectionResult := 0
def NONEMPTY : IntersectionResult := 1
def L_SUBSET_OF_R : IntersectionResult := 2
def L_SUPERSET_OF_R : IntersectionResult := 4

end IntersectionResult

/-- The locks held during an access, in order. -/
structure LockSet where
  ids : List Nat
  deriving DecidableEq, Repr

namespace LockSet

def ltIds : List Nat → List Nat → Bool
  | [], r => !r.isEmpty
  | _ :: _, [] => false
  | a :: l, b :: r => if a < b then true else if b < a then false else ltIds l r

def lt (l r : LockSet) : Bool := ltIds l.ids r.ids

def Disjoint (l r : LockSet) : Prop := ∀ x ∈ l.ids, x ∉ r.ids

def Subset (l r : LockSet) : Prop := ∀ x ∈ l.ids, x ∈ r.ids

instance (l r : LockSet) : Decidable (l.Disjoint r) :=
  inferInstanceAs (Decidable (∀ x ∈ l.ids, x ∉ r.ids))
instance (l r : LockSet) : Decidable (l.Subset r) :=
  inferInstanceAs (Decidable (∀ x ∈ l.ids, x ∈ r.ids))

theorem Disjoint.mono {l l' r : LockSet} (h : l.Disjoint r) (hs : l'.Subset l) : l'.Disjoint r :=
  fun x hx => h x (hs x hx)

/-- The flags mean what their names say. -/
structure Exact (intersect : LockSet → LockSet → IntersectionResult) : Prop where
  empty : ∀ l r, intersect l r = .EMPTY ↔ l.Disjoint r
  subset : ∀ l r, ¬ l.Disjoint r → (intersect l r &&& .L_SUBSET_OF_R ≠ 0 ↔ l.Subset r)
  superset : ∀ l r, ¬ l.Disjoint r → (intersect l r &&& .L_SUPERSET_OF_R ≠ 0 ↔ r.Subset l)

variable {intersect : LockSet → LockSet → IntersectionResult} {l r : LockSet}

theorem Exact.of_subset (hx : Exact intersect) (h : intersect l r &&& .L_SUBSET_OF_R ≠ 0) :
    l.Subset r := by
  by_cases hd : l.Disjoint r
  · rw [(hx.empty l r).2 hd] at h
    exact absurd (by decide) h
  · exact (hx.subset l r hd).1 h

theorem Exact.of_superset (hx : Exact intersect) (h : intersect l r &&& .L_SUPERSET_OF_R ≠ 0) :
    r.Subset l := by
  by_cases hd : l.Disjoint r
  · rw [(hx.empty l r).2 hd] at h
    exact absurd (by decide) h
  · exact (hx.superset l r hd).1 h

/-- The flags as they should be. -/
def flags (l r : LockSet) : IntersectionResult :=
  if l.Disjoint r then .EMPTY
  else .NONEMPTY ||| (if l.Subset r then .L_SUBSET_OF_R else 0) ||| if r.Subset l then
    .L_SUPERSET_OF_R else 0

theorem exact_flags : Exact flags where
  empty l r := by
    unfold flags
    split
    · next h => simp [h]
    · next h =>
      refine iff_of_false ?_ h
      split <;> split <;> decide
  subset l r h := by
    unfold flags
    rw [if_neg h]
    split
    · next hs => exact iff_of_true (by split <;> decide) hs
    · next hs => exact iff_of_false (by split <;> decide) hs
  superset l r h := by
    unfold flags
    rw [if_neg h]
    split
    · split
      · next hs => exact iff_of_true (by decide) hs
      · next hs => exact iff_of_false (by decide) hs
    · split
      · next hs => exact iff_of_true (by decide) hs
      · next hs => exact iff_of_false (by decide) hs

end LockSet

/-- An access and the locks held during it. -/
structure Locker (α : Type u) where
  access : α
  lockset : LockSet
  deriving DecidableEq, Repr

/-- The list of lockers of a location; an empty one is invalid. -/
abbrev LockerList (α : Type u) := List (Locker α)

section Lockers

variable {α : Type u} (func : α → Nat)

/-- `operator<`, `func` being the address of the access's disjoint-set node. -/
def Locker.lt (a b : Locker α) : Bool :=
  func a.access < func b.access || func a.access == func b.access && a.lockset.lt b.lockset

def LockerList.insert (locker : Locker α) : LockerList α → LockerList α
  | [] => [locker]
  | current :: ls =>
    if current.lt func locker then current :: LockerList.insert locker ls
      else locker :: current :: ls

variable (intersect : LockSet → LockSet → IntersectionResult)

/-- The lockers that stay, and whether one of them makes the current access
redundant. -/
def scanLockers (par : α → Bool) (lockset : LockSet) : LockerList α → LockerList α × Bool
  | [] => ([], false)
  | locker :: ls =>
    let result := intersect locker.lockset lockset
    let (ls, redundant) := scanLockers par lockset ls
    if !par locker.access then
      if result &&& .L_SUPERSET_OF_R ≠ 0 then (ls, redundant) else (locker :: ls, redundant)
    else (locker :: ls, result &&& .L_SUBSET_OF_R ≠ 0 || redundant)

/-- `LockerSetFn`, for access `a` with lock set `lockset`. -/
def lockerSetFn (par : α → Bool) (a : α) (lockset : LockSet) (ls : LockerList α) : LockerList α :=
  let (ls, redundant) := scanLockers intersect par lockset ls
  if redundant then ls else ls.insert func { access := a, lockset }

/-- `dataRaceWithPreviousAccesses`. -/
def dataRaceWithPreviousAccesses (par : α → Bool) (lockset : LockSet) (ls : LockerList α) : Bool :=
  ls.any fun locker => par locker.access && intersect locker.lockset lockset == .EMPTY

end Lockers

section

variable {α : Type u} {func : α → Nat} {intersect : LockSet → LockSet → IntersectionResult}
  {par : α → Bool}
variable {a : α} {H : LockSet} {LL : LockerList α} {x : Locker α}

theorem LockerList.mem_insert {locker : Locker α} : x ∈ LL.insert func locker ↔
    x = locker ∨ x ∈ LL := by
  induction LL with
  | nil => simp [LockerList.insert]
  | cons y LL ih =>
    simp only [LockerList.insert]
    split
    · simp only [List.mem_cons, ih, or_left_comm]
    · simp only [List.mem_cons]

/-- Dropped: in series, with a superset of the locks. -/
theorem mem_scanLockers : x ∈ (scanLockers intersect par H LL).1 ↔
    x ∈ LL ∧ (par x.access = true ∨ intersect x.lockset H &&& .L_SUPERSET_OF_R = 0) := by
  induction LL with
  | nil => simp [scanLockers]
  | cons y LL ih =>
    simp only [scanLockers]
    split
    · next hy =>
      split
      · next hs =>
        rw [ih, List.mem_cons]
        refine ⟨fun h => ⟨.inr h.1, h.2⟩, ?_⟩
        intro ⟨h, hk⟩
        rcases h with rfl | h
        · rcases hk with hk | hk
          · simp [hk] at hy
          · exact absurd hk hs
        · exact ⟨h, hk⟩
      · next hs =>
        rw [List.mem_cons, ih, List.mem_cons]
        constructor
        · intro h
          rcases h with rfl | h
          · exact ⟨.inl rfl, .inr (by simpa using hs)⟩
          · exact ⟨.inr h.1, h.2⟩
        · intro ⟨h, hk⟩
          exact h.imp_right fun h => ⟨h, hk⟩
    · next hy =>
      rw [List.mem_cons, ih, List.mem_cons]
      constructor
      · intro h
        rcases h with rfl | h
        · exact ⟨.inl rfl, .inl (by simpa using hy)⟩
        · exact ⟨.inr h.1, h.2⟩
      · intro ⟨h, hk⟩
        exact h.imp_right fun h => ⟨h, hk⟩

/-- Redundant: a parallel locker with a subset of the locks. -/
theorem scanLockers_redundant : (scanLockers intersect par H LL).2 = true ↔
    ∃ y ∈ LL, par y.access = true ∧ intersect y.lockset H &&& .L_SUBSET_OF_R ≠ 0 := by
  induction LL with
  | nil => simp [scanLockers]
  | cons y LL ih =>
    simp only [scanLockers, List.exists_mem_cons_iff]
    split
    · next hy =>
      rw [or_iff_right (fun h => by simp [h.1] at hy)]
      split <;> exact ih
    · next hy =>
      simp only [Bool.or_eq_true, decide_eq_true_eq, ih]
      rw [and_iff_right (by simpa using hy)]

theorem mem_of_mem_lockerSetFn (hx : x ∈ lockerSetFn func intersect par a H LL) :
    x = { access := a, lockset := H } ∨ x ∈ LL := by
  unfold lockerSetFn at hx
  simp only at hx
  split at hx
  · exact .inr (mem_scanLockers.1 hx).1
  · exact (LockerList.mem_insert.1 hx).imp_right fun h => (mem_scanLockers.1 h).1

/-- What stands for the current access in the list: itself, or a parallel
access that held at most its locks. -/
theorem exists_stands_for_current (hx : LockSet.Exact intersect) (func : α → Nat) (par : α → Bool)
    (a : α) (H : LockSet) (LL : LockerList α) :
    ∃ y ∈ lockerSetFn func intersect par a H LL,
      y = { access := a, lockset := H } ∨ y ∈ LL ∧ par y.access = true ∧ y.lockset.Subset H := by
  unfold lockerSetFn
  simp only
  split
  · next hr =>
    obtain ⟨y, hy, hpar, hs⟩ := scanLockers_redundant.1 hr
    exact ⟨y, mem_scanLockers.2 ⟨hy, .inl hpar⟩, .inr ⟨hy, hpar, hx.of_subset hs⟩⟩
  · exact ⟨_, LockerList.mem_insert.2 (.inl rfl), .inl rfl⟩

/-- A locker stays, or is in series and held at least the current locks. -/
theorem mem_lockerSetFn_or (hx : LockSet.Exact intersect) (func : α → Nat) (par : α → Bool)
    (a : α) (H : LockSet) (hmem : x ∈ LL) :
    x ∈ lockerSetFn func intersect par a H LL ∨ par x.access = false ∧ H.Subset x.lockset := by
  by_cases hkeep : par x.access = true ∨ intersect x.lockset H &&& .L_SUPERSET_OF_R = 0
  · left
    have hscan := mem_scanLockers.2 ⟨hmem, hkeep⟩
    unfold lockerSetFn
    simp only
    split
    · exact hscan
    · exact LockerList.mem_insert.2 (.inr hscan)
  · right
    rw [not_or] at hkeep
    exact ⟨by simpa using hkeep.1, hx.of_superset hkeep.2⟩

end

/-- A locker of the list is parallel to strand `j` and shares no lock with `H`. -/
def Races {α : Type u} (strand : α → Nat) (par : Nat → Nat → Bool) (LL : LockerList α) (j : Nat)
    (H : LockSet) : Prop :=
  ∃ x ∈ LL, par (strand x.access) j = true ∧ x.lockset.Disjoint H

/-- The test for a data race is the search for such a locker. -/
theorem dataRaceWithPreviousAccesses_iff {α : Type u} {strand : α → Nat} {par : Nat → Nat → Bool}
    {LL : LockerList α}
    {j : Nat} {H : LockSet} {intersect : LockSet → LockSet → IntersectionResult}
    (hx : LockSet.Exact intersect) :
    dataRaceWithPreviousAccesses intersect (fun x => par (strand x) j) H LL = true ↔
    Races strand par LL j H := by
  simp [dataRaceWithPreviousAccesses, Races, hx.empty]

section

variable {α : Type u} {strand : α → Nat} {par : Nat → Nat → Bool} {LL : LockerList α} {j : Nat}
  {H H₃ : LockSet}
variable {func : α → Nat} {intersect : LockSet → LockSet → IntersectionResult} {e : α}

/-- The pruned list stands for the current access. -/
theorem SerialOrder.races_current (hp : SerialOrder par) (hx : LockSet.Exact intersect)
    (hLL : ∀ x ∈ LL, strand x.access ≤ strand e) (hj : strand e ≤ j)
    (hpar : par (strand e) j = true) (hd : H.Disjoint H₃) :
    Races strand par
    (lockerSetFn func intersect (fun x => par (strand x) (strand e)) e H LL) j H₃ := by
  obtain ⟨y, hy, rfl | ⟨hyLL, hye, hys⟩⟩ := exists_stands_for_current hx func
    (fun x => par (strand x) (strand e)) e H LL
  · exact ⟨_, hy, hpar, hd⟩
  · exact ⟨y, hy, hp.trans (hLL y hyLL) hj hye hpar, hd.mono hys⟩

/-- A dropped locker is stood for by the current access. -/
theorem SerialOrder.races_pruned (hp : SerialOrder par) (hx : LockSet.Exact intersect)
    (hLL : ∀ x ∈ LL, strand x.access ≤ strand e) (hj : strand e ≤ j) :
    Races strand par (lockerSetFn func intersect (fun x => par (strand x) (strand e)) e H LL) j H₃ ↔
      Races strand par ({ access := e, lockset := H } :: LL) j H₃ := by
  constructor
  · intro ⟨x, hmem, hpar, hd⟩
    exact ⟨x, List.mem_cons.2 (mem_of_mem_lockerSetFn hmem), hpar, hd⟩
  · intro ⟨x, hmem, hpar, hd⟩
    rcases List.mem_cons.1 hmem with rfl | hmem
    · exact SerialOrder.races_current hp hx hLL hj hpar hd
    · rcases mem_lockerSetFn_or hx func (fun x => par (strand x) (strand e)) e H hmem with
        hk | ⟨hser, hsup⟩
      · exact ⟨x, hk, hpar, hd⟩
      · have hpe := hp.series_par (hLL x hmem) hj hser hpar
        exact SerialOrder.races_current hp hx hLL hj hpe (hd.mono hsup)

/-- The test for a data race answers on the pruned list as on the full one. -/
theorem dataRaceWithPreviousAccesses_lockerSetFn (hp : SerialOrder par)
    (hx : LockSet.Exact intersect)
    (hLL : ∀ x ∈ LL, strand x.access ≤ strand e) (hj : strand e ≤ j) :
    dataRaceWithPreviousAccesses intersect (fun x => par (strand x) j) H₃
        (lockerSetFn func intersect (fun x => par (strand x) (strand e)) e H LL) =
      dataRaceWithPreviousAccesses intersect (fun x => par (strand x) j) H₃
      ({ access := e, lockset := H } :: LL) := by
  rw [Bool.eq_iff_iff, dataRaceWithPreviousAccesses_iff hx, dataRaceWithPreviousAccesses_iff hx]
  exact SerialOrder.races_pruned hp hx hLL hj

end

/-- **Pruning.** In a series-parallel computation run depth first, whichever
access comes next, the pruned list has a racing locker exactly if the full one
has. -/
theorem lockerSetFn_races_iff {β : Type v} (c : Comp β) {α : Type u} (strand func : α → Nat)
    {intersect : LockSet → LockSet → IntersectionResult} (hx : LockSet.Exact intersect)
    (LL : LockerList α) (e : α)
    (H : LockSet) (hLL : ∀ x ∈ LL, strand x.access ≤ strand e) (j : Nat) (hj : strand e ≤ j)
    (H₃ : LockSet) :
    Races strand c.parallel
    (lockerSetFn func intersect (fun x => c.parallel (strand x) (strand e)) e H LL) j H₃ ↔
      Races strand c.parallel ({ access := e, lockset := H } :: LL) j H₃ :=
  SerialOrder.races_pruned c.serialOrder hx hLL hj

/-- Strands 0, 1 and 2 are parallel, and the first two hold lock 1. -/
theorem lockerSetFn_races_iff_same_lock :
    Races id (Comp.par (.strand ()) (.par (.strand ()) (.strand ()))).parallel
        (lockerSetFn id LockSet.flags
          (fun x => (Comp.par (.strand ()) (.par (.strand ()) (.strand ()))).parallel x 1) 1 ⟨[1]⟩
          [⟨0, ⟨[1]⟩⟩]) 2 ⟨[2]⟩ ↔
      Races id (Comp.par (.strand ()) (.par (.strand ()) (.strand ()))).parallel
      [⟨1, ⟨[1]⟩⟩, ⟨0, ⟨[1]⟩⟩] 2 ⟨[2]⟩ :=
  lockerSetFn_races_iff (.par (.strand ()) (.par (.strand ()) (.strand ()))) id id
    LockSet.exact_flags [⟨0, ⟨[1]⟩⟩] 1 ⟨[1]⟩
      (by simp) 2 (by decide) ⟨[2]⟩

end Cilksan
