/-
What a strand does under several lock sets: the occupancy filter, which knows
nothing of locks, comes before the update of the lockers.

`locksetsCount_of_covered` says when each access is stood for after all: an
access that is dropped needs at least the locks of one that was not.
-/
import CilkTools.Cilksan.FastPath
import CilkTools.Cilksan.LockedAccess

namespace Cilksan

/-! ## A strand -/

namespace SimpleShadowMem

def setOccupiedFast (isRead : Bool) (m : SimpleShadowMem) (addr : Nat) : Bool × SimpleShadowMem :=
  if isRead then
    let (found, reads) := m.reads.setOccupiedFast addr
    (found, { m with reads })
  else
    let (found, writes) := m.writes.setOccupiedFast addr
    (found, { m with writes })

/-- A static alignment that is known, and no less than the size. -/
def takesFastPath (memSize alignment : Nat) : Bool :=
  alignment ≠ 0 && memSize ≤ alignment && alignment ≤ 2 ^ LG_LINE_SIZE

/-- `record_mem_helper`. -/
def recordMem (f : Strand) (accId : Nat) (isRead : Bool) (m : SimpleShadowMem)
    (addr memSize alignment : Nat) :
    SimpleShadowMem :=
  if memSize = 0 then m
  else if takesFastPath memSize alignment then
    let (found, m) := m.setOccupiedFast isRead addr
    if !found then m
    else if isRead then (m.checkReadFast f accId addr memSize).1
    else (m.checkWriteFast f accId addr memSize).1
  else (m.checkRacesAndUpdate f accId isRead addr memSize).1

/-- `record_locked_mem_helper`. -/
def recordLockedMem (f : Strand) (accId : Nat) (intersect : LockSet → LockSet → IntersectionResult)
    (LS : LockSet) (isRead : Bool) (m : SimpleShadowMem) (addr memSize : Nat) : SimpleShadowMem :=
  if memSize = 0 then m else (m.checkDataRacesAndUpdate f accId intersect LS isRead addr memSize).1

end SimpleShadowMem

/-- What a strand does: accesses under locks and without, and ranges that are
cleared, for an allocation or a stack frame that is popped. -/
inductive LockedOp
  | locked (isRead : Bool) (addr memSize accId : Nat) (lockset : LockSet)
  | plain (isRead : Bool) (addr memSize alignment accId : Nat)
  | clear (start size : Nat)
  deriving DecidableEq, Repr

namespace LockedOp

/-- A static alignment is a power of two, and what it says is true. -/
def Aligned : LockedOp → Prop
  | plain _ addr _ alignment _ => alignment ≠ 0 → ∃ lg, alignment = 2 ^ lg ∧ alignment ∣ addr
  | _ => True

def run (f : Strand) (intersect : LockSet → LockSet → IntersectionResult) (m : SimpleShadowMem) :
    LockedOp → SimpleShadowMem
  | locked isRead addr memSize accId lockset =>
    m.recordLockedMem f accId intersect lockset isRead addr memSize
  | plain isRead addr memSize alignment accId => m.recordMem f accId isRead addr memSize alignment
  | clear start size => if size = 0 then m else m.clear start size

/-- The lock sets of the accesses under locks to a byte, since it was cleared last. -/
def lockSets (isRead : Bool) (b : Nat) (Hs : List LockSet) : LockedOp → List LockSet
  | locked isRead' addr memSize _ lockset =>
    if isRead' = isRead ∧ addr ≤ b ∧ b < addr + memSize then lockset :: Hs else Hs
  | plain .. => Hs
  | clear start size => if start ≤ b ∧ b < start + size then [] else Hs

end LockedOp

/-- A read is checked against the writes, a write against both. -/
def ChecksAgainst (isRead dict : Bool) : Prop := isRead = true → dict = false

/-- The access is in an entry or in a locker. -/
def SimpleShadowMem.Holds (m : SimpleShadowMem) (x : MemoryAccess) : Prop :=
  ∃ isRead b, (m.dictionary isRead).table.get b = some x ∨
    ∃ LL, (m.dictionary isRead).lockerTable.get b = some LL ∧ ∃ y ∈ LL, y.access = x

/-- Parallel to the strand, or of its node. -/
def Strand.OwnOrParallel (f : Strand) (x : MemoryAccess) : Prop :=
  f.previousAccessInParallel x = true ∨ x.func = f.func

/-- A later strand that is parallel to strand `f`. It is so to earlier accesses
of its node as well, and to what is parallel to `f`. -/
structure Strand.LaterParallel (f : Strand) (m : SimpleShadowMem) (g : Strand) : Prop where
  own : g.inParallel f.func f.version = true
  earlier : ∀ x, m.Holds x → f.OwnOrParallel x → g.previousAccessInParallel x = true

/-- For each lock set that the strand held during an access, and each later
access in conflict with that one and under disjoint locks, a list that is
looked at has a parallel locker with disjoint locks. -/
def LocksetsCount (f : Strand) (m m' : SimpleShadowMem) (ops : List LockedOp) : Prop :=
  ∀ isRead b, ∀ H ∈ ops.foldl (LockedOp.lockSets isRead b) [], ∀ g, f.LaterParallel m g →
    ∀ isRead', ChecksAgainst isRead' isRead → ∀ H', H.Disjoint H' →
      ∃ dict x LL, ChecksAgainst isRead' dict ∧ (m'.dictionary dict).table.get b = some x ∧
        g.previousAccessInParallel x = true ∧ (m'.dictionary dict).lockerTable.get b = some LL ∧
        ∃ y ∈ LL, g.previousAccessInParallel y.access = true ∧ y.lockset.Disjoint H'

/-- The bytes of a kind whose occupancy bits are set, and the lock sets of the
accesses to a byte that were not dropped. -/
structure LockedBytes where
  accessed : Nat → Bool := fun _ => false
  recorded : Nat → List LockSet := fun _ => []

namespace LockedBytes

/-- The range has no byte that is new. -/
def again (s : LockedBytes) (addr memSize : Nat) : Bool :=
  (List.range memSize).all fun i => s.accessed (addr + i)

def access (s : LockedBytes) (addr memSize : Nat) : LockedBytes :=
  { s with accessed := fun b => s.accessed b || decide (addr ≤ b ∧ b < addr + memSize) }

def step (isRead : Bool) (s : LockedBytes) : LockedOp → LockedBytes
  | .locked isRead' addr memSize _ lockset =>
    if isRead' ≠ isRead ∨ s.again addr memSize = true then s
    else { s.access addr memSize with
      recorded :=
        fun b => if addr ≤ b ∧ b < addr + memSize then lockset :: s.recorded b else s.recorded b }
  | .plain isRead' addr memSize alignment _ =>
    if isRead' ≠ isRead ∨ SimpleShadowMem.takesFastPath memSize alignment = true then s
      else s.access addr memSize
  | .clear start size =>
    { s with recorded := fun b => if start ≤ b ∧ b < start + size then [] else s.recorded b }

/-- An access with no byte that is new is made under the locks of one of those
before, at each of its bytes. -/
def CoveredOp (isRead : Bool) (s : LockedBytes) : LockedOp → Prop
  | .locked isRead' addr memSize _ lockset => isRead' = isRead → s.again addr memSize = true →
    ∀ b, addr ≤ b → b < addr + memSize → ∃ H ∈ s.recorded b, H.Subset lockset
  | _ => True

def Covered (isRead : Bool) : LockedBytes → List LockedOp → Prop
  | _, [] => True
  | s, op :: ops => s.CoveredOp isRead op ∧ (s.step isRead op).Covered isRead ops

end LockedBytes

variable {f g : Strand} {intersect : LockSet → LockSet → IntersectionResult} {accId p n b : Nat}
  {LS H : LockSet}
variable {m : SimpleShadowMem} {d d' : SimpleDictionary} {isRead : Bool}

/-! ## What stands for an access -/

/-- A locker that is parallel to the strand or its own, with no other locks than these. -/
def StandsIn (f : Strand) (H : LockSet) (LL : LockerList MemoryAccess) : Prop :=
  ∃ y ∈ LL, f.OwnOrParallel y.access ∧ y.lockset.Subset H

theorem standsIn_new (hx : LockSet.Exact intersect) (f : Strand) (accId : Nat) (LS : LockSet)
    (LL : Option (LockerList MemoryAccess)) :
    StandsIn f LS (f.lockerSetFn intersect accId LS LL) := by
  obtain ⟨y, hy, hstands⟩ :=
    exists_stands_for_current hx MemoryAccess.func f.previousAccessInParallel (f.access accId) LS
      (LL.getD [])
  refine ⟨y, hy, ?_⟩
  rcases hstands with rfl | ⟨-, hpar, hsub⟩
  · exact ⟨.inr rfl, fun _ h => h⟩
  · exact ⟨.inl hpar, hsub⟩

/-- A locker that is dropped held the locks of the new one. -/
theorem StandsIn.lockerSetFn (hx : LockSet.Exact intersect) (accId : Nat) (LS : LockSet)
    {LL : LockerList MemoryAccess}
    (h : StandsIn f H LL) : StandsIn f H (f.lockerSetFn intersect accId LS (some LL)) := by
  obtain ⟨y, hy, hown, hsub⟩ := h
  rcases mem_lockerSetFn_or hx MemoryAccess.func f.previousAccessInParallel
    (f.access accId) LS hy with hstays | ⟨-, hsup⟩
  · exact ⟨y, hstays, hown, hsub⟩
  · obtain ⟨z, hz, hzown, hzsub⟩ := standsIn_new hx f accId LS (some LL)
    exact ⟨z, hz, hzown, fun x hmem => hsub x (hsup x (hzsub x hmem))⟩

/-- An access of the strand, or one of those in the shadow memory before. -/
def Strand.Known (f : Strand) (m : SimpleShadowMem) (x : MemoryAccess) : Prop :=
  x.verFunc = (f.func, f.version) ∨ ∃ z, m.Holds z ∧ z.verFunc = x.verFunc

theorem Strand.LaterParallel.parallel {x : MemoryAccess} (h : f.LaterParallel m g)
    (hk : f.Known m x) (hown : f.OwnOrParallel x) : g.previousAccessInParallel x = true := by
  rcases hk with hk | ⟨z, hz, hk⟩
  · simp only [MemoryAccess.verFunc, Prod.mk.injEq] at hk
    rw [Strand.previousAccessInParallel, hk.1, hk.2]
    exact h.own
  · rw [← verFunc_par g z x hk]
    refine h.earlier z hz (hown.imp (fun hpar => ?_) fun hfunc => ?_)
    · rw [verFunc_par f z x hk]
      exact hpar
    · exact (congrArg Prod.fst hk).trans hfunc

theorem Strand.Known.maSetFn {o : Option MemoryAccess} (h : ∀ x, o = some x → f.Known m x) :
    f.Known m (f.maSetFn accId o) := by
  unfold Strand.maSetFn MemoryAccess.set
  cases o with
  | none => exact .inl rfl
  | some x =>
    simp only
    split
    · exact .inl rfl
    · exact h x rfl

/-! ## Steps -/

/-- Entries and lists change only as the strand's accesses change them. -/
structure Recording (f : Strand) (intersect : LockSet → LockSet → IntersectionResult)
    (d d' : SimpleDictionary) : Prop where
  wf : d'.table.WF
  lockers : d'.lockerTable.WF
  ok : d'.OccupancyOk
  entries : ∀ b, d'.table.get b = d.table.get b ∨
    ∃ accId, d'.table.get b = some (f.maSetFn accId (d.table.get b))
  lists : ∀ b, d'.lockerTable.get b = d.lockerTable.get b ∨
    ∃ accId LS, d'.lockerTable.get b = some (f.lockerSetFn intersect accId LS (d.lockerTable.get b))

/-- The byte has an entry and a list that stand for an access under these locks. -/
def StandsAt (f : Strand) (d : SimpleDictionary) (b : Nat) (H : LockSet) : Prop :=
  (∃ x, d.table.get b = some x ∧ f.OwnOrParallel x) ∧ ∃ LL, d.lockerTable.get b = some LL ∧
  StandsIn f H LL

theorem StandsAt.recording (hx : LockSet.Exact intersect) (h : StandsAt f d b H)
    (hr : Recording f intersect d d') : StandsAt f d' b H := by
  obtain ⟨⟨x, hget, hown⟩, LL, hlist, hin⟩ := h
  constructor
  · rcases hr.entries b with heq | ⟨accId, heq⟩
    · exact ⟨x, heq.trans hget, hown⟩
    · exact ⟨_, heq, .inr (Strand.maSetFn_func f accId _).1⟩
  · rcases hr.lists b with heq | ⟨accId, LS, heq⟩
    · exact ⟨LL, heq.trans hlist, hin⟩
    · rw [hlist] at heq
      exact ⟨_, heq, hin.lockerSetFn hx accId LS⟩

/-- The ghost state is that of the dictionary. -/
structure LockedBytes.Tracks (f : Strand) (m : SimpleShadowMem) (s : LockedBytes)
    (d : SimpleDictionary) : Prop where
  wf : d.table.WF
  lockers : d.lockerTable.WF
  ok : d.OccupancyOk
  accessed : ∀ b, d.occupied b = s.accessed b
  entries : ∀ b x, d.table.get b = some x → f.Known m x
  lists : ∀ b LL, d.lockerTable.get b = some LL → ∀ y ∈ LL, f.Known m y.access
  held : ∀ b, ∀ H ∈ s.recorded b, StandsAt f d b H

theorem Accesses.setLockers (h : Accesses f accId p n d d') (L : Pages (LockerList MemoryAccess)) :
    Accesses f accId p n d { d' with lockerTable := L } where
  wf := h.wf
  ok := h.ok.setTables L fun _ hi => hi
  bits := h.bits
  outside := h.outside
  dropped := h.dropped
  recorded := h.recorded

theorem Accesses.entries (h : Accesses f accId p n d d') (b : Nat) :
    d'.table.get b = d.table.get b ∨ d'.table.get b = some (f.maSetFn accId (d.table.get b)) := by
  by_cases hb : p ≤ b ∧ b < p + n
  · by_cases hnew : ∃ b, p ≤ b ∧ b < p + n ∧ d.occupied b = false
    · rcases h.recorded hnew b hb.1 hb.2 with hset | ⟨y, hy, -, hkept⟩
      · exact .inr hset
      · exact .inl (hkept.trans hy.symm)
    · refine .inl (h.dropped (fun c h₁ h₂ => ?_) b)
      exact Bool.eq_true_of_not_eq_false fun hc => hnew ⟨c, h₁, h₂, hc⟩
  · exact .inl (h.outside b hb)

/-- What an access under locks does to the dictionary of its kind. -/
structure LockedAccesses (f : Strand) (accId : Nat)
    (intersect : LockSet → LockSet → IntersectionResult) (LS : LockSet)
    (p n : Nat) (d d' : SimpleDictionary) : Prop extends Accesses f accId p n d d' where
  lockers : d'.lockerTable.WF
  lists : ∀ b, d'.lockerTable.get b = d.lockerTable.get b ∨
    d'.lockerTable.get b = some (f.lockerSetFn intersect accId LS (d.lockerTable.get b))
  locked : (∃ b, p ≤ b ∧ b < p + n ∧ d.occupied b = false) → ∀ b, p ≤ b → b < p + n →
    d'.lockerTable.get b = some (f.lockerSetFn intersect accId LS (d.lockerTable.get b))

namespace SimpleShadowMem

theorem checkDataRacesAndUpdate_dictionary (f : Strand) (accId : Nat)
    (intersect : LockSet → LockSet → IntersectionResult)
    (LS : LockSet) (hw : (m.dictionary isRead).table.WF) (hL : (m.dictionary isRead).lockerTable.WF)
    (ho : (m.dictionary isRead).OccupancyOk) (addr memSize : Nat) :
    LockedAccesses f accId intersect LS addr memSize (m.dictionary isRead)
      ((m.checkDataRacesAndUpdate f accId intersect LS isRead addr memSize).1.dictionary
        isRead) := by
  obtain ⟨found, d', hset, hocc, hfound⟩ := setOccupied_spec ho addr memSize
  have heq := setOccupied_eq hset
  have hL' : d'.lockerTable.WF := hocc.lockers ▸ hL
  cases found with
  | false =>
    have hd := mt hfound.2 (by simp)
    have hres :
        (m.checkDataRacesAndUpdate f accId intersect LS isRead addr memSize).1.dictionary isRead =
        d' := by
      simp only [checkDataRacesAndUpdate, heq]
      cases isRead <;> rfl
    rw [hres]
    refine ⟨.of_dropped f accId hw hocc hd, hL', fun b => .inl (by rw [hocc.lockers]),
      fun hnew => absurd hnew hd⟩
  | true =>
    have hnew := hfound.1 rfl
    have hacc := Accesses.of_update f accId hw hocc hnew
    cases isRead with
    | true =>
      have hres :
          (m.checkDataRacesAndUpdate f accId intersect LS true addr memSize).1.dictionary true =
          { d' with
            table := update f accId d'.table addr memSize
            lockerTable := updateLockers f accId intersect LS d'.lockerTable addr memSize } := by
        simp only [checkDataRacesAndUpdate, heq]
        rfl
      obtain ⟨hw', hget⟩ := updateLockers_spec f accId intersect LS hL' addr memSize
      rw [hocc.lockers] at hget
      rw [hres, hocc.lockers]
      refine ⟨hacc.setLockers _, hocc.lockers ▸ hw', fun b => ?_,
        fun _ b h₁ h₂ => (hget b).trans (if_pos ⟨h₁, h₂⟩)⟩
      by_cases hb : addr ≤ b ∧ b < addr + memSize
      · exact .inr ((hget b).trans (if_pos hb))
      · exact .inl ((hget b).trans (if_neg hb))
    | false =>
      obtain ⟨c, h₁, h₂, -⟩ := hnew
      obtain ⟨q, L', s', hcheck, hw', hq, -, hget, -⟩ :=
        checkDataRaceAndUpdateWrite_spec f accId intersect LS
          (hocc.wf hw) hL' hocc.mapped (by omega)
      have hres :
          (m.checkDataRacesAndUpdate f accId intersect LS false addr memSize).1.dictionary false =
          { d' with table := update f accId d'.table addr memSize, lockerTable := L' } := by
        simp only [checkDataRacesAndUpdate, heq]
        exact congrArg Prod.fst hcheck
      rw [hocc.lockers] at hget
      rw [hres]
      refine ⟨hacc.setLockers _, hw', fun b => ?_, fun _ b h₁ h₂ => (hget b).trans
        (if_pos ⟨h₁, by omega⟩)⟩
      by_cases hb : addr ≤ b ∧ b < q
      · exact .inr ((hget b).trans (if_pos hb))
      · exact .inl ((hget b).trans (if_neg hb))

/-- The other dictionary is only looked at. -/
theorem lockedDictionary_other (f : Strand) (accId : Nat)
    (intersect : LockSet → LockSet → IntersectionResult)
    (LS : LockSet) (m : SimpleShadowMem) (addr memSize : Nat) {isRead' : Bool}
    (h : isRead' ≠ isRead) :
    (m.checkDataRacesAndUpdate f accId intersect LS isRead' addr memSize).1.dictionary isRead =
    m.dictionary isRead := by
  cases hset : (m.dictionary isRead').setOccupied addr memSize with
  | mk found d' =>
    have heq := setOccupied_eq hset
    simp only [checkDataRacesAndUpdate, heq]
    cases isRead' <;> cases isRead
    · exact absurd rfl h
    · cases found <;> rfl
    · cases found <;> rfl
    · exact absurd rfl h

end SimpleShadowMem

theorem LockedAccesses.recording (h : LockedAccesses f accId intersect LS p n d d') :
    Recording f intersect d d' where
  wf := h.wf
  lockers := h.lockers
  ok := h.ok
  entries b := (h.entries b).imp_right fun heq => ⟨accId, heq⟩
  lists b := (h.lists b).imp_right fun heq => ⟨accId, LS, heq⟩

theorem LockedAccesses.standsAt (hx : LockSet.Exact intersect)
    (h : LockedAccesses f accId intersect LS p n d d')
    (hnew : ∃ b, p ≤ b ∧ b < p + n ∧ d.occupied b = false) (h₁ : p ≤ b) (h₂ : b < p + n) :
    StandsAt f d' b LS := by
  refine ⟨?_, _, h.locked hnew b h₁ h₂, standsIn_new hx f accId LS _⟩
  rcases h.recorded hnew b h₁ h₂ with hset | ⟨y, -, hpar, hkept⟩
  · exact ⟨_, hset, .inr (Strand.maSetFn_func f accId _).1⟩
  · exact ⟨y, hkept, .inl hpar⟩

/-! ### Without locks -/

theorem updateFast_wf {d : Pages MemoryAccess} {lg : Nat} (f : Strand) (accId : Nat)
    (ha : SmallAccess p n lg) (hw : d.WF)
    (hp : (d (page p)).isSome = true) {d' : Pages MemoryAccess}
    (hd' : d' = if 2 ^ (SimpleShadowMem.lineMustExist d p n).lgGrainsize ≠ n then
        update f accId (d.setLine p (SimpleShadowMem.lineMustExist d p n)) p n
      else (d.setLine p (SimpleShadowMem.lineMustExist d p n)).setLine p
        (SimpleShadowMem.updateEntry f accId (SimpleShadowMem.lineMustExist d p n) p)) :
    d'.WF ∧ ∀ i, (d i).isSome = true → (d' i).isSome = true := by
  obtain ⟨hw₁, -, -, hwl, -, hm⟩ := lineMustExist_spec ha hw hp
  rw [hd']
  split
  · obtain ⟨hw₂, hpages, -, -⟩ := update_bytes f accId hw₁ hm
    exact ⟨hw₂, fun i hi => hpages i (Pages.page_setLine _ _ _ hi)⟩
  · exact ⟨hw₁.setLine (updateEntry_spec f accId p hwl).1,
      fun i hi => Pages.page_setLine _ _ _ (Pages.page_setLine _ _ _ hi)⟩

/-- Only entries change, and bits. -/
structure Plain (f : Strand) (d d' : SimpleDictionary) : Prop where
  wf : d'.table.WF
  ok : d'.OccupancyOk
  entries : ∀ b, d'.table.get b = d.table.get b ∨
    ∃ accId, d'.table.get b = some (f.maSetFn accId (d.table.get b))
  lockers : d'.lockerTable = d.lockerTable

theorem Plain.recording (h : Plain f d d') (hL : d.lockerTable.WF) :
    Recording f intersect d d' where
  wf := h.wf
  lockers := h.lockers ▸ hL
  ok := h.ok
  entries := h.entries
  lists b := .inl (by rw [h.lockers])

namespace SimpleShadowMem

variable {addr memSize alignment : Nat}

theorem setOccupiedFast_eq (m : SimpleShadowMem) (isRead : Bool) (addr : Nat) :
    m.setOccupiedFast isRead addr =
    (true, if isRead then { m with reads := m.reads.allocatePage (page addr) }
      else { m with writes := m.writes.allocatePage (page addr) }) := by
  cases isRead <;> rfl

/-- The fast path changes the table of its kind. -/
theorem checkReadFast_dictionary (f : Strand) (accId : Nat) (m : SimpleShadowMem)
    (addr memSize : Nat) :
    ∃ table, (m.checkReadFast f accId addr memSize).1 = { m with reads := { m.reads with table } } ∧
      table = if 2 ^ (lineMustExist m.reads.table addr memSize).lgGrainsize ≠ memSize then
          update f accId
            (m.reads.table.setLine addr (lineMustExist m.reads.table addr memSize)) addr memSize
        else (m.reads.table.setLine addr (lineMustExist m.reads.table addr memSize)).setLine addr
          (updateEntry f accId (lineMustExist m.reads.table addr memSize) addr) :=
  ⟨_, rfl, rfl⟩

theorem checkWriteFast_dictionary {lg : Nat} (f : Strand) (accId : Nat) (m : SimpleShadowMem)
    (ha : SmallAccess addr memSize lg)
    (hw : m.writes.table.WF) (hp : (m.writes.table (page addr)).isSome = true) :
    ∃ table, (m.checkWriteFast f accId addr memSize).1 =
    { m with writes := { m.writes with table } } ∧
      table = if 2 ^ (lineMustExist m.writes.table addr memSize).lgGrainsize ≠ memSize then
          update f accId
            (m.writes.table.setLine addr (lineMustExist m.writes.table addr memSize)) addr memSize
        else (m.writes.table.setLine addr (lineMustExist m.writes.table addr memSize)).setLine addr
          (updateEntry f accId (lineMustExist m.writes.table addr memSize) addr) := by
  obtain ⟨h, -, -⟩ := checkWriteFast_eq f accId m ha hw hp rfl
  exact ⟨_, rfl, h⟩

section fast

variable {lg : Nat} {table : Pages MemoryAccess} (f : Strand) (accId : Nat)
  (ha : SmallAccess addr memSize lg) (hw : d.table.WF) (ho : d.OccupancyOk)
  (htable : table =
    if 2 ^ (lineMustExist (d.allocatePage (page addr)).table addr memSize).lgGrainsize ≠
    memSize then
      update f accId ((d.allocatePage (page addr)).table.setLine addr
        (lineMustExist (d.allocatePage (page addr)).table addr memSize)) addr memSize
    else ((d.allocatePage (page addr)).table.setLine addr
      (lineMustExist (d.allocatePage (page addr)).table addr memSize)).setLine addr
        (updateEntry f accId (lineMustExist (d.allocatePage (page addr)).table addr memSize) addr))

include ha hw ho htable

/-- The fast path sets entries in series. -/
theorem fast_setsInSeries : SetsInSeries f accId d.table table addr memSize := by
  obtain ⟨hocc, hp⟩ := allocatePage_spec (p := addr) ho addr
  have hsets := updateFast_setsInSeries f accId ha (hocc.wf hw) hp
  rw [← htable] at hsets
  intro b
  rw [hsets b, hocc.get]

theorem fast_plain : Plain f d { d.allocatePage (page addr) with table } ∧
    ∀ b, ({ d.allocatePage (page addr) with table } : SimpleDictionary).occupied b =
    d.occupied b := by
  obtain ⟨hocc, hp⟩ := allocatePage_spec (p := addr) ho addr
  have hsets := fast_setsInSeries f accId ha hw ho htable
  obtain ⟨hw', hpages⟩ := updateFast_wf f accId ha (hocc.wf hw) hp htable
  refine ⟨⟨hw', hocc.ok.setTables _ hpages, fun b => ?_, hocc.lockers⟩, fun b => ?_⟩
  · have hset := hsets b
    split at hset
    · exact .inr ⟨accId, hset⟩
    · exact .inl hset
  · have hbits := hocc.bits b
    rw [decide_eq_false (by omega), Bool.or_false] at hbits
    exact hbits

end fast

theorem smallAccess_of_takesFastPath (h : takesFastPath memSize alignment = true) (hn : memSize ≠ 0)
    (ha : alignment ≠ 0 → ∃ lg, alignment = 2 ^ lg ∧ alignment ∣ addr) :
    ∃ lg, SmallAccess addr memSize lg := by
  simp only [takesFastPath, Bool.and_eq_true, decide_eq_true_eq] at h
  obtain ⟨⟨h₁, h₂⟩, h₃⟩ := h
  obtain ⟨lg, heq, hdvd⟩ := ha h₁
  rw [heq] at h₂ h₃ hdvd
  exact ⟨lg, Nat.pos_of_ne_zero hn, h₂, (Nat.pow_le_pow_iff_right (by decide)).1 h₃, hdvd⟩

theorem checkRacesAndUpdate_lockers (f : Strand) (accId : Nat) (m : SimpleShadowMem) (isRead : Bool)
    (addr memSize : Nat) (ho : (m.dictionary isRead).OccupancyOk) :
    ((m.checkRacesAndUpdate f accId isRead addr memSize).1.dictionary isRead).lockerTable =
      (m.dictionary isRead).lockerTable := by
  obtain ⟨found, d', hset, hocc, -⟩ := setOccupied_spec ho addr memSize
  have heq := setOccupied_eq hset
  simp only [checkRacesAndUpdate, heq]
  rw [← hocc.lockers]
  cases found <;> cases isRead <;> rfl

/-- An access without locks. -/
theorem recordMem_plain (f : Strand) (accId : Nat) (hw : (m.dictionary isRead).table.WF)
    (ho : (m.dictionary isRead).OccupancyOk)
    (ha : alignment ≠ 0 → ∃ lg, alignment = 2 ^ lg ∧ alignment ∣ addr) :
    Plain f (m.dictionary isRead)
    ((m.recordMem f accId isRead addr memSize alignment).dictionary isRead) ∧
      ∀ b, ((m.recordMem f accId isRead addr memSize alignment).dictionary isRead).occupied b =
        ((m.dictionary isRead).occupied b ||
          (!takesFastPath memSize alignment && decide (addr ≤ b ∧ b < addr + memSize))) := by
  unfold recordMem
  by_cases hn : memSize = 0
  · rw [if_pos hn]
    refine ⟨⟨hw, ho, fun b => .inl rfl, rfl⟩, fun b => ?_⟩
    rw [decide_eq_false (by omega), Bool.and_false, Bool.or_false]
  · rw [if_neg hn]
    by_cases hfast : takesFastPath memSize alignment = true
    · obtain ⟨lg, hsmall⟩ := smallAccess_of_takesFastPath hfast hn ha
      rw [if_pos hfast, setOccupiedFast_eq, hfast]
      simp only [Bool.not_true, Bool.false_and, Bool.or_false, Bool.false_eq_true, if_false]
      cases isRead with
      | true =>
        obtain ⟨table, heq, htable⟩ :=
          checkReadFast_dictionary f accId
            { m with reads := m.reads.allocatePage (page addr) } addr memSize
        rw [if_pos rfl, if_pos rfl, heq]
        exact fast_plain f accId hsmall hw ho htable
      | false =>
        obtain ⟨hocc, hp⟩ := allocatePage_spec (p := addr) ho addr
        obtain ⟨table, heq, htable⟩ :=
          checkWriteFast_dictionary f accId { m with writes := m.writes.allocatePage (page addr) }
            hsmall (hocc.wf hw) hp
        rw [if_neg Bool.false_ne_true, if_neg Bool.false_ne_true, heq]
        exact fast_plain f accId hsmall hw ho htable
    · obtain ⟨hacc, -⟩ := checkRacesAndUpdate_dictionary f accId hw ho addr memSize
      rw [if_neg hfast, Bool.eq_false_of_not_eq_true hfast, Bool.not_false]
      refine ⟨⟨hacc.wf, hacc.ok, fun b => (hacc.entries b).imp_right fun heq => ⟨accId, heq⟩,
        checkRacesAndUpdate_lockers f accId m isRead addr memSize ho⟩, fun b => ?_⟩
      rw [hacc.bits, Bool.true_and]

theorem recordMem_other (f : Strand) (accId : Nat) (m : SimpleShadowMem)
    (addr memSize alignment : Nat) {isRead' : Bool}
    (h : isRead' ≠ isRead) :
    (m.recordMem f accId isRead' addr memSize alignment).dictionary isRead =
    m.dictionary isRead := by
  unfold recordMem
  split
  · rfl
  · split
    · rw [setOccupiedFast_eq]
      cases isRead' <;> cases isRead
      · exact absurd rfl h
      · rfl
      · rfl
      · exact absurd rfl h
    · exact dictionary_other f m accId addr memSize h

end SimpleShadowMem

namespace LockedBytes

variable {s s' : LockedBytes}

theorem Tracks.recording (hx : LockSet.Exact intersect) (h : s.Tracks f m d)
    (hr : Recording f intersect d d') (hacc : ∀ b, d'.occupied b = s'.accessed b)
    (hrec : ∀ b, ∀ H ∈ s'.recorded b, H ∈ s.recorded b ∨ StandsAt f d' b H) : s'.Tracks f m d' where
  wf := hr.wf
  lockers := hr.lockers
  ok := hr.ok
  accessed := hacc
  entries b x hget := by
    rcases hr.entries b with heq | ⟨accId, heq⟩
    · exact h.entries b x (heq.symm.trans hget)
    · rw [heq, Option.some.injEq] at hget
      rw [← hget]
      exact .maSetFn (h.entries b)
  lists b LL hget y hy := by
    rcases hr.lists b with heq | ⟨accId, LS, heq⟩
    · exact h.lists b LL (heq.symm.trans hget) y hy
    · rw [heq, Option.some.injEq] at hget
      rw [← hget] at hy
      rcases mem_of_mem_lockerSetFn hy with rfl | hmem
      · exact .inl rfl
      · cases hold : d.lockerTable.get b with
        | none =>
          rw [hold] at hmem
          cases hmem
        | some LL' =>
          rw [hold] at hmem
          exact h.lists b LL' hold y hmem
  held b H hmem := (hrec b H hmem).elim (fun hold => (h.held b H hold).recording hx hr) id

theorem again_iff {addr n : Nat} : s.again addr n = true ↔
    ∀ b, addr ≤ b → b < addr + n → s.accessed b = true :=
  SeenBytes.again_iff (s := { accessed := s.accessed })

/-- An access under locks. -/
theorem Tracks.locked (hx : LockSet.Exact intersect) (h : s.Tracks f m d) {addr memSize : Nat}
    (ha : LockedAccesses f accId intersect LS addr memSize d d') :
    (s.step isRead (.locked isRead addr memSize accId LS)).Tracks f m d' := by
  by_cases hagain : s.again addr memSize = true
  · have hstep : s.step isRead (.locked isRead addr memSize accId LS) = s := if_pos (.inr hagain)
    rw [hstep]
    refine h.recording hx ha.recording (fun b => ?_) fun b H hmem => .inl hmem
    rw [ha.bits, h.accessed]
    by_cases hb : addr ≤ b ∧ b < addr + memSize
    · rw [again_iff.1 hagain b hb.1 hb.2, Bool.true_or]
    · rw [decide_eq_false hb, Bool.or_false]
  · have hnew : ∃ b, addr ≤ b ∧ b < addr + memSize ∧ d.occupied b = false := by
      refine Classical.byContradiction fun hn => hagain (again_iff.2 fun b h₁ h₂ => ?_)
      rw [← h.accessed]
      exact Bool.eq_true_of_not_eq_false fun hb => hn ⟨b, h₁, h₂, hb⟩
    have hstep : s.step isRead (.locked isRead addr memSize accId LS) = { s.access addr memSize with
        recorded :=
          fun b => if addr ≤ b ∧ b < addr + memSize then LS :: s.recorded b else s.recorded b } :=
      if_neg fun hc => hc.elim (fun hne => hne rfl) hagain
    rw [hstep]
    refine h.recording hx ha.recording
      (fun b => by rw [ha.bits, h.accessed]; rfl) fun b H hmem => ?_
    simp only at hmem
    split at hmem
    · next hb =>
      rcases List.mem_cons.1 hmem with rfl | hmem
      · exact .inr (ha.standsAt hx hnew hb.1 hb.2)
      · exact .inl hmem
    · exact .inl hmem

theorem Tracks.clear (h : s.Tracks f m d) (start size : Nat) :
    (s.step isRead (.clear start size)).Tracks f m (d.clear start size) := by
  have hchunk := Chunk.mk_eq_upTo start size
  obtain ⟨hw, hget⟩ := UpdateIterator.clear_spec h.wf start (start + size)
  obtain ⟨hL, hlist⟩ := UpdateIterator.clear_spec h.lockers start (start + size)
  rw [← hchunk] at hw hget hL hlist
  refine ⟨hw, hL, h.ok.setTables _ fun i hi => UpdateIterator.clear_pages _ _ hi, h.accessed,
    fun b x hx => ?_, fun b LL hLL => ?_, fun b H hmem => ?_⟩
  · have hx : (UpdateIterator.clear d.table ⟨start, size⟩).get b = some x := hx
    rw [hget] at hx
    split at hx
    · cases hx
    · exact h.entries b x hx
  · have hLL : (UpdateIterator.clear d.lockerTable ⟨start, size⟩).get b = some LL := hLL
    rw [hlist] at hLL
    split at hLL
    · cases hLL
    · exact h.lists b LL hLL
  · have hmem : H ∈ if start ≤ b ∧ b < start + size then [] else s.recorded b := hmem
    split at hmem
    · cases hmem
    · next hb =>
      obtain ⟨⟨x, hx, hown⟩, LL, hLL, hin⟩ := h.held b H hmem
      exact ⟨⟨x, ((hget b).trans (if_neg hb)).trans hx, hown⟩, LL,
        ((hlist b).trans (if_neg hb)).trans hLL, hin⟩

/-- One operation. -/
theorem Tracks.step (hx : LockSet.Exact intersect) {m' : SimpleShadowMem}
    (h : s.Tracks f m (m'.dictionary isRead))
    (op : LockedOp) (hop : op.Aligned) :
    (s.step isRead op).Tracks f m ((op.run f intersect m').dictionary isRead) := by
  cases op with
  | locked isRead' addr memSize accId LS =>
    rw [LockedOp.run, SimpleShadowMem.recordLockedMem]
    by_cases hn : memSize = 0
    · subst hn
      have hstep : s.step isRead (.locked isRead' addr 0 accId LS) = s := if_pos (.inr rfl)
      rw [hstep, if_pos rfl]
      exact h
    · rw [if_neg hn]
      by_cases hk : isRead' = isRead
      · subst hk
        exact h.locked hx
          (SimpleShadowMem.checkDataRacesAndUpdate_dictionary f accId intersect LS h.wf h.lockers
            h.ok addr memSize)
      · have hstep : s.step isRead (.locked isRead' addr memSize accId LS) = s := if_pos (.inl hk)
        rw [hstep, SimpleShadowMem.lockedDictionary_other f accId intersect LS m' addr memSize hk]
        exact h
  | plain isRead' addr memSize alignment accId =>
    rw [LockedOp.run]
    by_cases hk : isRead' = isRead
    · subst hk
      obtain ⟨hplain, hbits⟩ := SimpleShadowMem.recordMem_plain f accId h.wf h.ok hop
      have hrec : (s.step isRead' (.plain isRead' addr memSize alignment accId)).recorded =
          s.recorded := by
        simp only [LockedBytes.step]
        split <;> rfl
      refine h.recording hx (hplain.recording h.lockers) (fun b => ?_) fun b H hmem =>
        .inl (hrec ▸ hmem)
      rw [hbits, h.accessed]
      by_cases hfast : SimpleShadowMem.takesFastPath memSize alignment = true
      · have hstep : s.step isRead' (.plain isRead' addr memSize alignment accId) = s :=
          if_pos (.inr hfast)
        rw [hstep, hfast, Bool.not_true, Bool.false_and, Bool.or_false]
      · have hstep : s.step isRead' (.plain isRead' addr memSize alignment accId) =
          s.access addr memSize := if_neg fun hc => hc.elim (fun hne => hne rfl) hfast
        rw [hstep, Bool.eq_false_of_not_eq_true hfast, Bool.not_false, Bool.true_and]
        rfl
    · have hstep : s.step isRead (.plain isRead' addr memSize alignment accId) = s :=
        if_pos (.inl hk)
      rw [hstep, SimpleShadowMem.recordMem_other f accId m' addr memSize alignment hk]
      exact h
  | clear start size =>
    have hm : LockedOp.run f intersect m' (.clear start size) = m'.clear start size := by
      rw [LockedOp.run]
      by_cases hn : size = 0
      · subst hn
        rfl
      · exact if_neg hn
    rw [hm, SimpleShadowMem.clear_dictionary]
    exact h.clear start size

/-- A run. -/
theorem Tracks.foldl (hx : LockSet.Exact intersect) (ops : List LockedOp) :
    ∀ {s : LockedBytes} {m' : SimpleShadowMem},
    s.Tracks f m (m'.dictionary isRead) → (∀ op ∈ ops, op.Aligned) →
      (ops.foldl (LockedBytes.step isRead) s).Tracks f m
      ((ops.foldl (LockedOp.run f intersect) m').dictionary isRead) := by
  induction ops with
  | nil => exact fun h _ => h
  | cons op ops ih =>
    intro s m' h hops
    obtain ⟨hop, hops⟩ := List.forall_mem_cons.1 hops
    exact ih (h.step hx op hop) hops

/-- In a covered run each lock set includes one of an access that was not dropped. -/
theorem Covered.lockSets (b : Nat) (ops : List LockedOp) : ∀ {s : LockedBytes} {Hs : List LockSet},
    s.Covered isRead ops → (∀ H ∈ Hs, ∃ H' ∈ s.recorded b, H'.Subset H) →
      ∀ H ∈ ops.foldl (LockedOp.lockSets isRead b) Hs, ∃ H' ∈ (ops.foldl
        (LockedBytes.step isRead) s).recorded b, H'.Subset H := by
  induction ops with
  | nil => exact fun _ h => h
  | cons op ops ih =>
    intro s Hs hc h
    refine ih hc.2 fun H hmem => ?_
    cases op with
    | plain isRead' addr memSize alignment accId =>
      obtain ⟨H', hH', hsub⟩ := h H hmem
      refine ⟨H', ?_, hsub⟩
      simp only [LockedBytes.step]
      split <;> exact hH'
    | clear start size =>
      simp only [LockedOp.lockSets, LockedBytes.step] at hmem ⊢
      split at hmem
      · cases hmem
      · next hb =>
        rw [if_neg hb]
        exact h H hmem
    | locked isRead' addr memSize accId LS =>
      simp only [LockedOp.lockSets, LockedBytes.step] at hmem ⊢
      by_cases hold : isRead' ≠ isRead ∨ s.again addr memSize = true
      · rw [if_pos hold]
        split at hmem
        · next hb =>
          rcases List.mem_cons.1 hmem with rfl | hmem
          · exact hc.1 hb.1 (hold.resolve_left fun hne => hne hb.1) b hb.2.1 hb.2.2
          · exact h H hmem
        · exact h H hmem
      · rw [if_neg hold]
        rw [not_or, not_not] at hold
        simp only
        split at hmem
        · next hb =>
          rw [if_pos hb.2]
          rcases List.mem_cons.1 hmem with rfl | hmem
          · exact ⟨H, List.mem_cons_self, fun _ hx => hx⟩
          · obtain ⟨H', hH', hsub⟩ := h H hmem
            exact ⟨H', List.mem_cons_of_mem _ hH', hsub⟩
        · next hb =>
          rw [if_neg fun hr => hb ⟨hold.1, hr⟩]
          exact h H hmem

theorem Tracks.init (f : Strand) (hm : m.LockedOk) (isRead : Bool) :
    ({} : LockedBytes).Tracks f m (m.clearOccupied.dictionary isRead) := by
  have hdict : m.clearOccupied.dictionary isRead = (m.dictionary isRead).clearOccupied := by
    cases isRead <;> rfl
  have hocc := occupied_clearOccupied (hm.occupancy isRead)
  rw [hdict]
  refine ⟨hm.wf isRead, hm.lockers isRead, .of_not_occupied hocc, hocc,
    fun b x hx => .inr ⟨x, ⟨isRead, b, .inl hx⟩, rfl⟩,
    fun b LL hLL y hy => .inr ⟨y.access, ⟨isRead, b, .inr ⟨LL, hLL, y, hy, rfl⟩⟩, rfl⟩,
    fun b H hmem => ?_⟩
  cases hmem

end LockedBytes

/-- **Lock sets.** In a run of a strand in which every access that is dropped is
made under the locks of one that was not, each lock set counts. -/
theorem locksetsCount_of_covered (hx : LockSet.Exact intersect) (f : Strand) (hm : m.LockedOk)
    (ops : List LockedOp)
    (hops : ∀ op ∈ ops, op.Aligned) (hc : ∀ isRead, ({} : LockedBytes).Covered isRead ops) :
    LocksetsCount f m (ops.foldl (LockedOp.run f intersect) m.clearOccupied) ops := by
  intro isRead b H hH g hg isRead' hcheck H' hdisj
  have htracks := (LockedBytes.Tracks.init f hm isRead).foldl hx ops hops
  obtain ⟨H₀, hH₀, hsub⟩ :=
    LockedBytes.Covered.lockSets b ops (hc isRead) (fun _ h => absurd h List.not_mem_nil) H hH
  obtain ⟨⟨x, hget, hown⟩, LL, hlist, y, hy, hyown, hysub⟩ := htracks.held b H₀ hH₀
  refine ⟨isRead, x, LL, hcheck, hget, hg.parallel (htracks.entries b x hget) hown, hlist, y, hy,
    hg.parallel (htracks.lists b LL hlist y hy) hyown, ?_⟩
  exact hdisj.mono fun l hl => hsub l (hysub l hl)

theorem SimpleShadowMem.LockedOk.empty : ({} : SimpleShadowMem).LockedOk where
  toOk := .empty
  lockers isRead := by cases isRead <;> exact nofun

/-- The second write is under one lock more. -/
def nestedLocks : List LockedOp := [.locked false 8 8 1 ⟨[1]⟩, .locked false 8 8 2 ⟨[1, 2]⟩]

theorem locksetsCount_of_covered_nested :
    LocksetsCount onlyStrand {}
    (nestedLocks.foldl (LockedOp.run onlyStrand LockSet.flags) ({} : SimpleShadowMem).clearOccupied)
      nestedLocks := by
  refine locksetsCount_of_covered LockSet.exact_flags onlyStrand .empty nestedLocks
    (fun op hop => ?_) fun isRead => ?_
  · obtain rfl | rfl : op = .locked false 8 8 1 ⟨[1]⟩ ∨ op = .locked false 8 8 2 ⟨[1, 2]⟩ := by
      simpa [nestedLocks] using hop
    · trivial
    · trivial
  · refine ⟨fun _ hagain => absurd hagain (by decide), fun hk _ b h₁ h₂ => ?_, trivial⟩
    subst hk
    have hrec : (({} : LockedBytes).step false (.locked false 8 8 1 ⟨[1]⟩)).recorded b = [⟨[1]⟩] :=
      if_pos ⟨h₁, h₂⟩
    exact ⟨⟨[1]⟩, by rw [hrec]; exact List.mem_cons_self, by decide⟩

/-- The second write is under another lock. -/
def twoLocks : List LockedOp := [.locked false 8 8 1 ⟨[1]⟩, .locked false 8 8 2 ⟨[2]⟩]

/-- It is dropped, and a read under lock 1 finds no locker without it. -/
theorem not_locksetsCount : ¬ LocksetsCount onlyStrand {}
    (twoLocks.foldl (LockedOp.run onlyStrand LockSet.flags) ({} : SimpleShadowMem).clearOccupied)
    twoLocks := by
  intro h
  have hlater :
    onlyStrand.LaterParallel {} { func := 1, version := 0, inParallel := fun _ _ => true } :=
    ⟨rfl, fun _ _ _ => rfl⟩
  obtain ⟨dict, x, LL, hdict, -, -, hLL, y, hy, -, hdisj⟩ :=
    h false 8 ⟨[2]⟩ (by decide) _ hlater true (fun _ => rfl) ⟨[1]⟩ (by decide)
  obtain rfl := hdict rfl
  have hlist :
      ((twoLocks.foldl (LockedOp.run onlyStrand LockSet.flags)
        ({} : SimpleShadowMem).clearOccupied).dictionary
      false).lockerTable.get 8 = some [⟨⟨0, 0, 1⟩, ⟨[1]⟩⟩] := by decide +kernel
  obtain rfl := Option.some.inj (hlist.symm.trans hLL)
  obtain rfl := List.mem_singleton.1 hy
  revert hdisj
  decide

end Cilksan
