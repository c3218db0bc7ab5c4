/-
The detector as a whole: the hooks that delimit strands and those for loads
and stores (`driver.cpp`, `cilksan.cpp`), from the filter for serial execution
through the bags to the shadow memory.

No locks are held and no access is atomic. A free in parallel is a write whose
alignment is not known, one in series clears the range. Where the stack and the
allocations are is left out: the ranges that are cleared for them are given. So
is the path compression of the queries, which changes no answer.
-/
import CilkTools.Cilksan.Driver
import CilkTools.Cilksan.LoopVersions

namespace Cilksan

/-- `record_mem_helper`, with the races it reports. -/
def SimpleShadowMem.recordMemHelper (f : Strand) (accId : Nat) (isRead : Bool) (m : SimpleShadowMem)
    (addr memSize alignment : Nat) : SimpleShadowMem × List Race :=
  if memSize = 0 then (m, [])
  else if takesFastPath memSize alignment then
    let (found, m) := m.setOccupiedFast isRead addr
    if !found then (m, [])
    else if isRead then m.checkReadFast f accId addr memSize
    else m.checkWriteFast f accId addr memSize
  else m.checkRacesAndUpdate f accId isRead addr memSize

structure RaceDetector where
  driver : Driver
  shadow : SimpleShadowMem := {}
  races : List Race := []

inductive DetectorHook
  | driver (h : DriverHook)
  | access (isRead : Bool) (accId addr memSize alignment : Nat)
  | clear (start size : Nat)
  deriving DecidableEq, Repr

namespace RaceDetector

/-- The occupancy bits are those of the strand. -/
def clears (t : RaceDetector) : DriverHook → Option Bool
  | .task .. | .sync _ => some true
  | .taskExit isTapirLoopBody _ => do
    let handleLoop ← t.driver.tool.handleLoop
    return isTapirLoopBody && handleLoop
  | .detachContinue forTapirLoopBody isUnwind _ => some (isUnwind || !forTapirLoopBody)
  | .funcEntry .. | .funcExit | .detach _ | .beforeLoop | .afterLoop _ => some false

def driverStep (t : RaceDetector) (h : DriverHook) : Option RaceDetector := do
  let clears ← t.clears h
  let driver ← t.driver.step h
  return { t with driver, shadow := if clears then t.shadow.clearOccupied else t.shadow }

/-- The bag of the head frame is in use if it is asked for. -/
def record (t : RaceDetector) (isRead : Bool) (accId addr memSize alignment : Nat) :
    Option RaceDetector := do
  let f ← t.driver.tool.strand
  let (shadow, races) := t.shadow.recordMemHelper f accId isRead addr memSize alignment
  let asksForBag := (LockedOp.plain isRead addr memSize alignment accId).asksForBag f t.shadow
  let tool ← if asksForBag then t.driver.tool.recordAccess accId else some t.driver.tool
  return { driver := { t.driver with tool }, shadow, races := t.races ++ races }

/-- `__csan_load` and `__csan_store`. -/
def access (t : RaceDetector) (isRead : Bool) (accId addr memSize alignment : Nat) :
    Option RaceDetector :=
  if !t.driver.parallelExecution.isExecutionParallel then some t
  else t.record isRead accId addr memSize alignment

/-- `clear_shadow_memory`. -/
def clear (t : RaceDetector) (start size : Nat) : RaceDetector :=
  { t with shadow := if size = 0 then t.shadow else t.shadow.clear start size }

def step (t : RaceDetector) : DetectorHook → Option RaceDetector
  | .driver h => t.driverStep h
  | .access isRead accId addr memSize alignment => t.access isRead accId addr memSize alignment
  | .clear start size => some (t.clear start size)

def init : RaceDetector where
  driver := .init

def run (t : RaceDetector) (hooks : List DetectorHook) : Option RaceDetector := hooks.foldlM step t

end RaceDetector

/-! ## Programs -/

/-- An access of the program, the strand that made it, and its place among the events. -/
structure MemoryOp where
  strand : Nat
  isRead : Bool
  accId : Nat
  addr : Nat
  memSize : Nat
  time : Nat
  deriving DecidableEq, Repr

namespace MemoryOp

def covers (e : MemoryOp) (b : Nat) : Bool := decide (e.addr ≤ b ∧ b < e.addr + e.memSize)

end MemoryOp

/-- What a program does to memory. A range is cleared where it is allocated anew. -/
inductive MemoryEvent
  | access (e : MemoryOp)
  | clear (start size : Nat)
  deriving DecidableEq, Repr

namespace MemoryEvent

/-- The accesses of the byte that is there now. -/
def step (b : Nat) (ops : List MemoryOp) : MemoryEvent → List MemoryOp
  | access e => if e.covers b then ops ++ [e] else ops
  | clear start size => if start ≤ b ∧ b < start + size then [] else ops

def live (events : List MemoryEvent) (b : Nat) : List MemoryOp := events.foldl (step b) []

end MemoryEvent

/-- A program and what it has done to memory so far. -/
structure AccessProgram where
  trace : Trace
  events : List MemoryEvent := []

namespace AccessProgram

/-- Code of the program runs. -/
def running (p : AccessProgram) : Prop :=
  p.trace.detached = none ∧ p.trace.awaiting = none ∧ p.trace.program.running = true

instance (p : AccessProgram) : Decidable p.running :=
  inferInstanceAs
    (Decidable (p.trace.detached = none ∧ p.trace.awaiting = none ∧ p.trace.program.running = true))

/-- The access as the current strand makes it. -/
def op (p : AccessProgram) (isRead : Bool) (accId addr memSize : Nat) : MemoryOp :=
  { strand := p.trace.program.cur, isRead, accId, addr, memSize, time := p.events.length }

def add (p : AccessProgram) (x : MemoryEvent) : AccessProgram :=
  { p with events := p.events ++ [x] }

def step (p : AccessProgram) : DetectorHook → Option AccessProgram
  | .driver h => (p.trace.step h).map fun trace => { p with trace }
  | .access isRead accId addr memSize _ =>
    if p.running then some (p.add (.access (p.op isRead accId addr memSize))) else none
  | .clear start size => some (p.add (.clear start size))

def init : AccessProgram where
  trace := .init

def run (p : AccessProgram) (hooks : List DetectorHook) : Option AccessProgram :=
  hooks.foldlM step p

end AccessProgram

end Cilksan
