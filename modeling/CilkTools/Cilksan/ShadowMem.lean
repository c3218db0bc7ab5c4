/-
The shadow memory (`SimpleDictionary` and `SimpleShadowMem`): a read and a
write dictionary, each with a table of accesses, a table of locker lists and
the occupancy bits of the current strand; and the checks and updates that an
access makes.

A race report holds the stored access, the instruction and the address, as
`report_race` is called; the call stacks and the allocation it looks up are
left out. Clearing a locker table that is not in use changes nothing, so that
there is no flag for it.
-/
import CilkTools.Cilksan.Hooks
import CilkTools.Cilksan.Location
import CilkTools.Cilksan.LockSets
import CilkTools.Cilksan.QueryLoop

namespace Cilksan

/-! ## Memory accesses -/

/-- What the shadow memory asks of a frame: the node and the version that an
access is recorded with, and whether a recorded one is parallel. -/
structure Strand where
  func : Nat
  version : Nat
  inParallel : Nat → Nat → Bool

namespace MemoryAccess

/-- What `operator==` compares. -/
def verFunc (m : MemoryAccess) : Nat × Nat := (m.func, m.version)

/-- `MemoryAccess_t::set`. The version stays if the node does. -/
def set (func version accId : Nat) : Option MemoryAccess → MemoryAccess
  | none => { func, version, accId }
  | some m => if m.func ≠ func then { func, version, accId } else { m with accId }

end MemoryAccess

namespace Strand

variable (f : Strand)

def previousAccessInParallel (m : MemoryAccess) : Bool := f.inParallel m.func m.version

/-- The access as a new entry has it. -/
def access (accId : Nat) : MemoryAccess := { func := f.func, version := f.version, accId }

/-- `MASetFn`. -/
def maSetFn (accId : Nat) : Option MemoryAccess → MemoryAccess :=
  MemoryAccess.set f.func f.version accId

theorem maSetFn_func (accId : Nat) (o : Option MemoryAccess) :
    (f.maSetFn accId o).func = f.func ∧ (f.maSetFn accId o).accId = accId := by
  unfold maSetFn MemoryAccess.set
  cases o with
  | none => exact ⟨rfl, rfl⟩
  | some x =>
    simp only
    split
    · exact ⟨rfl, rfl⟩
    · next h => exact ⟨by simpa using h, rfl⟩

/-- `LockerSetFn`. -/
def lockerSetFn (intersect : LockSet → LockSet → IntersectionResult) (accId : Nat) (LS : LockSet)
    (ll : Option (LockerList MemoryAccess)) : LockerList MemoryAccess :=
  Cilksan.lockerSetFn MemoryAccess.func intersect f.previousAccessInParallel
    (f.access accId) LS (ll.getD [])

end Strand

/-- What `operator==` of locker lists compares. -/
def LockerList.key (ll : LockerList MemoryAccess) : List ((Nat × Nat) × LockSet) :=
  ll.map fun locker => (locker.access.verFunc, locker.lockset)

/-- A race as it is reported. -/
structure Race where
  prev : MemoryAccess
  accId : Nat
  addr : Nat
  type : RaceType
  deriving DecidableEq, Repr

/-! ## Dictionaries -/

structure SimpleDictionary where
  table : Pages MemoryAccess := fun _ => none
  lockerTable : Pages (LockerList MemoryAccess) := fun _ => none
  occupancy : Nat → Nat → BitVec 64 := fun _ _ => 0
  touchedWords : List Nat := []

def LG_OCCUPANCY_WORD_SIZE : Nat := 6
def OCCUPANCY_WORD_SIZE : Nat := 2 ^ LG_OCCUPANCY_WORD_SIZE

/-- The word of its page that has an address's bit. -/
def occupancyWord (addr : Nat) : Nat :=
  addr % 2 ^ (LG_PAGE_SIZE + LG_LINE_SIZE) / 2 ^ LG_OCCUPANCY_WORD_SIZE

def occupancyWordStartBit (addr : Nat) : Nat := addr % 2 ^ LG_OCCUPANCY_WORD_SIZE

def Chunk.nextOccupancyWord (accessed : Chunk) : Chunk := accessed.next LG_OCCUPANCY_WORD_SIZE

def occupancyMask (accessed : Chunk) : BitVec 64 :=
  (if accessed.size ≥ OCCUPANCY_WORD_SIZE then BitVec.allOnes 64
    else (1#64 <<< accessed.size) - 1#64) <<< occupancyWordStartBit accessed.addr

namespace SimpleDictionary

/-- A page is made if it is missing. -/
def allocatePage (d : SimpleDictionary) (idx : Nat) : SimpleDictionary :=
  if (d.table idx).isSome then d
  else { d with
    table := Function.update d.table idx (some fun _ => {})
    occupancy := Function.update d.occupancy idx fun _ => 0 }

/-- One word. -/
def setOccupiedWord (d : SimpleDictionary) (accessed : Chunk) : Bool × SimpleDictionary :=
  let addr := accessed.addr
  let mask := occupancyMask accessed
  let current := d.occupancy (page addr) (occupancyWord addr)
  (~~~current &&& mask ≠ 0, { d with
    occupancy := Function.update d.occupancy (page addr)
      (Function.update (d.occupancy (page addr)) (occupancyWord addr) (current ||| mask))
    touchedWords := if current = 0 then addr :: d.touchedWords else d.touchedWords })

/-- Word by word; a page that is not there is found unoccupied. -/
def setOccupiedLoop : Nat → Bool → SimpleDictionary → Chunk → Bool × SimpleDictionary
  | 0, foundUnoccupied, d, _ => (foundUnoccupied, d)
  | n + 1, foundUnoccupied, d, accessed =>
    if accessed.isEmpty then (foundUnoccupied, d)
    else
      let foundUnoccupied := foundUnoccupied || (d.table (page accessed.addr)).isNone
      let (found, d) := (d.allocatePage (page accessed.addr)).setOccupiedWord accessed
      setOccupiedLoop n (foundUnoccupied || found) d accessed.nextOccupancyWord

def setOccupied (d : SimpleDictionary) (addr memSize : Nat) : Bool × SimpleDictionary :=
  setOccupiedLoop memSize false d ⟨addr, memSize⟩

/-- The fast path finds every access unoccupied and sets no bit. -/
def setOccupiedFast (d : SimpleDictionary) (addr : Nat) : Bool × SimpleDictionary :=
  (true, d.allocatePage (page addr))

def clearOccupied (d : SimpleDictionary) : SimpleDictionary :=
  { d with
    occupancy := d.touchedWords.foldl (fun occ addr =>
      Function.update occ (page addr)
        (Function.update (occ (page addr)) (occupancyWord addr) 0)) d.occupancy
    touchedWords := [] }

def clear (d : SimpleDictionary) (addr size : Nat) : SimpleDictionary :=
  { d with
    table := UpdateIterator.clear d.table ⟨addr, size⟩
    lockerTable := UpdateIterator.clear d.lockerTable ⟨addr, size⟩ }

end SimpleDictionary

/-! ## Checks and updates of a table -/

section

variable (f : Strand) (accId : Nat)

/-- The race with the entry of a stretch, if it is parallel. -/
def raceWith (type : RaceType) (x : Stretch MemoryAccess) : List Race :=
  match x.prev with
  | some prev =>
    if f.previousAccessInParallel prev then [{ prev, accId, addr := x.start, type }] else []
  | none => []

def checkRace (type : RaceType) (d : Pages MemoryAccess) (addr memSize : Nat) : List Race :=
  QueryIterator.queryRange MemoryAccess.verFunc (fun x races => races ++ raceWith f accId type x) d
    ⟨addr, memSize⟩ []

def update (d : Pages MemoryAccess) (addr memSize : Nat) : Pages MemoryAccess :=
  (UpdateIterator.updateRange MemoryAccess.verFunc f.previousAccessInParallel (f.maSetFn accId)
    (fun _ s => s) d ⟨addr, memSize⟩ ()).1

def checkAndUpdateWrite (d : Pages MemoryAccess) (addr memSize : Nat) :
    Pages MemoryAccess × List Race :=
  UpdateIterator.updateRange MemoryAccess.verFunc f.previousAccessInParallel (f.maSetFn accId)
    (fun x races => races ++ raceWith f accId .wwRace x) d ⟨addr, memSize⟩ []

variable (intersect : LockSet → LockSet → IntersectionResult) (LS : LockSet)

/-- A race with the lockers of an address: there are none, or one of them is
parallel and shares no lock. -/
def dataRaceWith (type : RaceType) (prev : MemoryAccess)
    (x : Stretch (LockerList MemoryAccess)) : List Race :=
  if x.prev.all (dataRaceWithPreviousAccesses intersect f.previousAccessInParallel LS) then
    [{ prev, accId, addr := x.start, type }]
  else []

/-- What `check_data_race` has done so far: the races, and the ranges whose
lockers it looked at. -/
structure DataRaces where
  races : List Race := []
  ranges : List Chunk := []
  deriving DecidableEq, Repr

/-- The lockers of a stretch with a parallel entry are looked at. -/
def checkLockers (type : RaceType) (lockers : Pages (LockerList MemoryAccess))
    (x : Stretch MemoryAccess) (s : DataRaces) :
    DataRaces :=
  match x.prev with
  | some prev =>
    if f.previousAccessInParallel prev then
      { races := s.races ++ QueryIterator.queryRange LockerList.key
          (fun y races => races ++ dataRaceWith f accId intersect LS type prev y) lockers
          ⟨x.start, x.stop - x.start⟩ []
        ranges := s.ranges ++ [⟨x.start, x.stop - x.start⟩] }
    else s
  | none => s

def checkDataRace (type : RaceType) (d : SimpleDictionary) (addr memSize : Nat) : DataRaces :=
  QueryIterator.queryRange MemoryAccess.verFunc
    (checkLockers f accId intersect LS type d.lockerTable) d.table
      ⟨addr, memSize⟩ {}

/-- Every entry gets the new locker. -/
def updateLockers (d : Pages (LockerList MemoryAccess)) (addr memSize : Nat) :
    Pages (LockerList MemoryAccess) :=
  (UpdateIterator.updateRange LockerList.key (fun _ => false) (f.lockerSetFn intersect accId LS)
    (fun _ s => s) d ⟨addr, memSize⟩ ()).1

/-- So it does, and is checked against the lockers it finds. -/
def checkAndUpdateLockers (prev : MemoryAccess) (d : Pages (LockerList MemoryAccess))
    (addr memSize : Nat) : Pages (LockerList MemoryAccess) × List Race :=
  UpdateIterator.updateRange LockerList.key (fun _ => false) (f.lockerSetFn intersect accId LS)
    (fun y races => races ++ dataRaceWith f accId intersect LS .wwRace prev y) d ⟨addr, memSize⟩ []

/-- The lockers of a stretch of the write dictionary get the new one, checked
if the entry is parallel. -/
def updateWriteLockers (x : Stretch MemoryAccess)
    (s : Pages (LockerList MemoryAccess) × DataRaces) :
    Pages (LockerList MemoryAccess) × DataRaces :=
  match x.prev with
  | some prev =>
    if f.previousAccessInParallel prev then
      let (lockers, races) :=
        checkAndUpdateLockers f accId intersect LS prev s.1 x.start (x.stop - x.start)
      (lockers,
        { races := s.2.races ++ races, ranges := s.2.ranges ++ [⟨x.start, x.stop - x.start⟩] })
    else (updateLockers f accId intersect LS s.1 x.start (x.stop - x.start), s.2)
  | none => (updateLockers f accId intersect LS s.1 x.start (x.stop - x.start), s.2)

def checkDataRaceAndUpdateWrite (d : SimpleDictionary) (addr memSize : Nat) :
    SimpleDictionary × DataRaces :=
  let (table, lockerTable, races) :=
    UpdateIterator.updateRange MemoryAccess.verFunc f.previousAccessInParallel (f.maSetFn accId)
      (updateWriteLockers f accId intersect LS) d.table ⟨addr, memSize⟩ (d.lockerTable, {})
  ({ d with table, lockerTable }, races)

end

/-! ## Shadow memory -/

structure SimpleShadowMem where
  reads : SimpleDictionary := {}
  writes : SimpleDictionary := {}

namespace SimpleShadowMem

def setOccupied (m : SimpleShadowMem) (isRead : Bool) (addr memSize : Nat) :
    Bool × SimpleShadowMem :=
  if isRead then
    let (found, reads) := m.reads.setOccupied addr memSize
    (found, { m with reads })
  else
    let (found, writes) := m.writes.setOccupied addr memSize
    (found, { m with writes })

def clearOccupied (m : SimpleShadowMem) : SimpleShadowMem :=
  { reads := m.reads.clearOccupied, writes := m.writes.clearOccupied }

def clear (m : SimpleShadowMem) (start size : Nat) : SimpleShadowMem :=
  { reads := m.reads.clear start size, writes := m.writes.clear start size }

section

variable (f : Strand) (accId : Nat)

def updateWithRead (m : SimpleShadowMem) (addr memSize : Nat) : SimpleShadowMem :=
  { m with reads := { m.reads with table := update f accId m.reads.table addr memSize } }

def checkRacesAndUpdateWithRead (m : SimpleShadowMem) (addr memSize : Nat) :
    SimpleShadowMem × List Race :=
  let m := m.updateWithRead f accId addr memSize
  (m, checkRace f accId .wrRace m.writes.table addr memSize)

def checkRacesAndUpdateWithWrite (m : SimpleShadowMem) (addr memSize : Nat) :
    SimpleShadowMem × List Race :=
  let (table, races) := checkAndUpdateWrite f accId m.writes.table addr memSize
  let m := { m with writes := { m.writes with table } }
  (m, races ++ checkRace f accId .rwRace m.reads.table addr memSize)

/-- `check_races_and_update`. -/
def checkRacesAndUpdate (isRead : Bool) (m : SimpleShadowMem) (addr memSize : Nat) :
    SimpleShadowMem × List Race :=
  let (found, m) := m.setOccupied isRead addr memSize
  if !found then (m, [])
  else if isRead then m.checkRacesAndUpdateWithRead f accId addr memSize
  else m.checkRacesAndUpdateWithWrite f accId addr memSize

/-! ### Fast path -/

/-- The line at an address, as fine as the access at least. -/
def lineMustExist (d : Pages MemoryAccess) (addr memSize : Nat) : Line MemoryAccess :=
  ((d.getLine addr).getD {}).refineTo (ctz memSize)

/-- The entry at an address is set unless it is parallel. -/
def updateEntry (l : Line MemoryAccess) (addr : Nat) : Line MemoryAccess :=
  let l := if l.isMaterialized then l else l.materialize
  let idx := l.getIdx (byte addr)
  if inSeries f.previousAccessInParallel (l.entry idx) then l.store (f.maSetFn accId) idx else l

/-- The race with the entry at an address, if it is valid and parallel. -/
def raceWithEntry (type : RaceType) (addr : Nat) (prev : Option MemoryAccess) : List Race :=
  raceWith f accId type ⟨addr, prev, addr⟩

/-- The check of the other dictionary: of one entry if that is what the access
covers, else as on the slow path. -/
def checkFast (type : RaceType) (d : Pages MemoryAccess) (addr memSize : Nat) : List Race :=
  match d.getLine addr with
  | none => []
  | some l =>
    if l.isEmpty then []
    else if 2 ^ l.lgGrainsize ≠ memSize then checkRace f accId type d addr memSize
    else raceWithEntry f accId type addr (l.entry (l.getIdx (byte addr)))

def checkReadFast (m : SimpleShadowMem) (addr memSize : Nat) : SimpleShadowMem × List Race :=
  let readLine := lineMustExist m.reads.table addr memSize
  let table := m.reads.table.setLine addr readLine
  let table :=
    if 2 ^ readLine.lgGrainsize ≠ memSize then update f accId table addr memSize
    else table.setLine addr (updateEntry f accId readLine addr)
  ({ m with reads := { m.reads with table } },
    checkFast f accId .wrRace m.writes.table addr memSize)

def checkWriteFast (m : SimpleShadowMem) (addr memSize : Nat) : SimpleShadowMem × List Race :=
  let writeLine := lineMustExist m.writes.table addr memSize
  let table := m.writes.table.setLine addr writeLine
  let (table, races) :=
    if 2 ^ writeLine.lgGrainsize ≠ memSize then checkAndUpdateWrite f accId table addr memSize
    else
      (table.setLine addr (updateEntry f accId writeLine addr),
        raceWithEntry f accId .wwRace addr (writeLine.entry (writeLine.getIdx (byte addr))))
  ({ m with writes := { m.writes with table } },
    races ++ checkFast f accId .rwRace m.reads.table addr memSize)

/-! ### Accesses under locks -/

variable (intersect : LockSet → LockSet → IntersectionResult) (LS : LockSet)

def updateLockersWithRead (m : SimpleShadowMem) (addr memSize : Nat) : SimpleShadowMem :=
  { m with reads := { m.reads with
    lockerTable := updateLockers f accId intersect LS m.reads.lockerTable addr memSize } }

def checkDataRacesAndUpdateWithRead (m : SimpleShadowMem) (addr memSize : Nat) :
    SimpleShadowMem × DataRaces :=
  let m := m.updateWithRead f accId addr memSize
  let m := m.updateLockersWithRead f accId intersect LS addr memSize
  (m, checkDataRace f accId intersect LS .wrRace m.writes addr memSize)

def checkDataRacesAndUpdateWithWrite (m : SimpleShadowMem) (addr memSize : Nat) :
    SimpleShadowMem × DataRaces :=
  let (writes, s) := checkDataRaceAndUpdateWrite f accId intersect LS m.writes addr memSize
  let m := { m with writes }
  let s' := checkDataRace f accId intersect LS .rwRace m.reads addr memSize
  (m, { races := s.races ++ s'.races, ranges := s.ranges ++ s'.ranges })

/-- `check_data_races_and_update`. -/
def checkDataRacesAndUpdate (isRead : Bool) (m : SimpleShadowMem) (addr memSize : Nat) :
    SimpleShadowMem × DataRaces :=
  let (found, m) := m.setOccupied isRead addr memSize
  if !found then (m, {})
  else if isRead then m.checkDataRacesAndUpdateWithRead f accId intersect LS addr memSize
  else m.checkDataRacesAndUpdateWithWrite f accId intersect LS addr memSize

end

end SimpleShadowMem

end Cilksan
