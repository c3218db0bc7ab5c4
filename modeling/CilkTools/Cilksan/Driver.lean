/-
The hooks of `driver.cpp` that delimit strands, each with what it does to the
tool and to the stack of parallel-execution flags, and the traces of them a
program makes.

Checking is taken to be on. Loops that are not parallel, for which
`__csan_before_loop` and `__csan_after_loop` return at once, and the call
stack, which only reports show, are left out.
-/
import CilkTools.Cilksan.BagInvariant
import CilkTools.Cilksan.ParallelExecution

namespace Cilksan

inductive DriverHook
  | funcEntry (maySpawn : Bool) (numSyncReg : Nat)
  | funcExit
  | detach (forTapirLoopBody : Bool)
  | task (isTapirLoopBody : Bool) (numSyncReg : Nat)
  | taskExit (isTapirLoopBody : Bool) (syncReg : Nat)
  | detachContinue (forTapirLoopBody isUnwind : Bool) (syncReg : Nat)
  | sync (syncReg : Nat)
  | beforeLoop
  | afterLoop (syncReg : Nat)
  deriving DecidableEq, Repr

/-- `handle_loop`. -/
def CilkSan.handleLoop (c : CilkSan) : Option Bool := do
  let f ← c.frames.head?
  return f.isLoopFrame || c.startNewLoop

/-! ## What the hooks do -/

structure Driver where
  tool : CilkSan
  parallelExecution : ParallelExecution

namespace Driver

def funcEntry (d : Driver) (maySpawn : Bool) (numSyncReg : Nat) : Option Driver := do
  let parallelExecution ← d.parallelExecution.enter
  let tool ← d.tool.funcEntry maySpawn numSyncReg
  return { tool, parallelExecution }

def funcExit (d : Driver) : Option Driver := do
  let tool ← d.tool.funcExit
  let parallelExecution ← d.parallelExecution.leave
  return { tool, parallelExecution }

/-- Notes the change of peer sets. -/
def detach (d : Driver) : Option Driver := do
  let parallelExecution ← d.parallelExecution.detach
  return { d with parallelExecution }

/-- The iterations of a loop share the flags it was begun with. -/
def task (d : Driver) (isTapirLoopBody : Bool) (numSyncReg : Nat) : Option Driver := do
  if isTapirLoopBody && (← d.tool.handleLoop) then
    let tool ← d.tool.doLoopIterationBegin numSyncReg
    return { d with tool }
  else
    let parallelExecution ← d.parallelExecution.enter
    let tool ← d.tool.doEnterHelper numSyncReg
    return { tool, parallelExecution }

def taskExit (d : Driver) (isTapirLoopBody : Bool) (syncReg : Nat) : Option Driver := do
  if isTapirLoopBody && (← d.tool.handleLoop) then
    let tool ← d.tool.doLoopIterationEnd
    return { d with tool }
  else
    let tool ← d.tool.doLeave syncReg
    let parallelExecution ← d.parallelExecution.leave
    return { tool, parallelExecution }

/-- Entering the unwind destination of a detach is an implicit sync. -/
def detachContinue (d : Driver) (forTapirLoopBody isUnwind : Bool) (syncReg : Nat) :
    Option Driver := do
  let tool ← if isUnwind then d.tool.doSync syncReg else some d.tool
  let tool ← if forTapirLoopBody then some tool else tool.doDetachContinue syncReg
  return { d with tool }

def sync (d : Driver) (syncReg : Nat) : Option Driver := do
  let tool ← d.tool.doSync syncReg
  let parallelExecution ← d.parallelExecution.sync (← tool.isLocalSynced)
  return { tool, parallelExecution }

def beforeLoop (d : Driver) : Option Driver := do
  let parallelExecution ← d.parallelExecution.enter
  return { tool := d.tool.doLoopBegin, parallelExecution }

def afterLoop (d : Driver) (syncReg : Nat) : Option Driver := do
  let tool ← d.tool.doLoopEnd syncReg
  let parallelExecution ← d.parallelExecution.leave
  return { tool, parallelExecution }

def step (d : Driver) : DriverHook → Option Driver
  | .funcEntry maySpawn numSyncReg => d.funcEntry maySpawn numSyncReg
  | .funcExit => d.funcExit
  | .detach _ => d.detach
  | .task isTapirLoopBody numSyncReg => d.task isTapirLoopBody numSyncReg
  | .taskExit isTapirLoopBody syncReg => d.taskExit isTapirLoopBody syncReg
  | .detachContinue forTapirLoopBody isUnwind syncReg =>
    d.detachContinue forTapirLoopBody isUnwind syncReg
  | .sync syncReg => d.sync syncReg
  | .beforeLoop => d.beforeLoop
  | .afterLoop syncReg => d.afterLoop syncReg

def init : Driver where
  tool := .init
  parallelExecution := .initial

def run (d : Driver) (hooks : List DriverHook) : Option Driver := hooks.foldlM step d

end Driver

/-! ## Traces -/

/-- Where a trace has got to. `detached` stands between a detach and its task,
and `awaiting` between a loop's end and the sync of its region, where nothing
runs. -/
structure Trace where
  program : Program
  detached : Option Bool := none
  awaiting : Option Nat := none

namespace Trace

/-- The program goes on, as it may neither right after a detach nor before the
sync of a loop. -/
def advance (t : Trace) (p : Option Program) : Option Trace :=
  if t.detached = none ∧ t.awaiting = none then p.map fun program => { t with program } else none

/-- A loop's body is detached between its iterations, and nothing else is. -/
def detach (t : Trace) (forTapirLoopBody : Bool) : Option Trace :=
  if t.detached = none ∧ t.awaiting = none ∧ t.program.running = !forTapirLoopBody ∧
      ∀ a ∈ t.program.acts.head?, a.inlined = 0 then
    some { t with detached := some forTapirLoopBody }
  else none

def task (t : Trace) (isTapirLoopBody : Bool) (numSyncReg : Nat) : Option Trace :=
  if t.detached = some isTapirLoopBody then
    (t.program.step
      (if isTapirLoopBody then .loopIterationBegin numSyncReg else .task numSyncReg)).map
      fun program => { t with program, detached := none }
  else none

def sync (t : Trace) (syncReg : Nat) : Option Trace :=
  if t.detached = none ∧ (t.awaiting = none ∨ t.awaiting = some syncReg) then
    (t.program.step (.sync syncReg)).map fun program => { t with program, awaiting := none }
  else none

def afterLoop (t : Trace) (syncReg : Nat) : Option Trace :=
  (t.advance (t.program.step (.loopEnd syncReg))).map fun t => { t with awaiting := some syncReg }

def step (t : Trace) : DriverHook → Option Trace
  | .funcEntry maySpawn numSyncReg => t.advance (t.program.step (.funcEntry maySpawn numSyncReg))
  | .funcExit => t.advance (t.program.step .funcExit)
  | .detach forTapirLoopBody => t.detach forTapirLoopBody
  | .task isTapirLoopBody numSyncReg => t.task isTapirLoopBody numSyncReg
  | .taskExit isTapirLoopBody syncReg =>
    t.advance (t.program.step (if isTapirLoopBody then .loopIterationEnd else .taskExit syncReg))
  | .detachContinue forTapirLoopBody isUnwind syncReg =>
    t.advance do
      let p ← if isUnwind then t.program.step (.sync syncReg) else some t.program
      if forTapirLoopBody then some p else p.step (.detachContinue syncReg)
  | .sync syncReg => t.sync syncReg
  | .beforeLoop => t.advance (t.program.step .loopBegin)
  | .afterLoop syncReg => t.afterLoop syncReg

def init : Trace where
  program := .init

def run (t : Trace) (hooks : List DriverHook) : Option Trace := hooks.foldlM step t

end Trace

end Cilksan
