/-
The driver's account of the stack (`driver.cpp`, `cilksan_internal.h`): where it
is, and which part of it each function or task has, whose shadow is cleared when
the function or task exits.

What is recorded of allocations is left out.
-/
import CilkTools.Cilksan.RaceDetector

namespace Cilksan

def DEFAULT_STACK_SIZE : Nat := 2 ^ 21

/-- The difference of two `uintptr_t`. -/
def addrSub (a b : Nat) : Nat := (a + 2 ^ 64 - b) % 2 ^ 64

/-- `stack_low_addr` and `stack_high_addr`, and the `uncilkified` ones. -/
structure StackBounds where
  low : Nat := 2 ^ 64 - 1
  high : Nat := 0
  uncilkifiedLow : Nat := 2 ^ 64 - 1
  uncilkifiedHigh : Nat := 0
  deriving DecidableEq, Repr

namespace StackBounds

def isOnStack (s : StackBounds) (addr : Nat) : Bool := decide (addr ≤ s.high ∧ s.low ≤ addr)

def handleStackSwitch (s : StackBounds) (bp sp : Nat) : StackBounds where
  low := sp
  high := if addrSub bp sp > DEFAULT_STACK_SIZE then sp else bp
  uncilkifiedLow := s.low
  uncilkifiedHigh := s.high

/-- Back to the stack before the switch. -/
def switchBack (s : StackBounds) : StackBounds :=
  { s with low := s.uncilkifiedLow, high := s.uncilkifiedHigh }

end StackBounds

/-- Two entries of `sp_stack`. -/
structure StackRange where
  high : Nat
  low : Nat
  deriving DecidableEq, Repr

namespace StackRange

def covers (r : StackRange) (b : Nat) : Prop := r.low ≤ b ∧ b < r.high

instance (r : StackRange) (b : Nat) : Decidable (r.covers b) :=
  inferInstanceAs (Decidable (r.low ≤ b ∧ b < r.high))

end StackRange

/-- `switched_stack` and `sp_stack`, the head first. -/
structure StackState where
  bounds : StackBounds := {}
  switchedStack : List Bool := []
  spStack : List StackRange := []
  deriving DecidableEq, Repr

/-- The driver's hooks, with the base and stack pointers for those that enter. -/
inductive StackHook
  | driver (h : DriverHook) (bp sp : Nat)
  | access (isRead : Bool) (accId addr memSize alignment : Nat)
  | alloca (addr size : Nat)
  | stacksave (sp : Nat)
  | stackrestore (callId sp : Nat)
  | clear (start size : Nat)
  deriving DecidableEq, Repr

namespace StackState

def pushStackFrame (s : StackState) (bp sp : Nat) : StackState :=
  { s with spStack := ⟨bp, sp⟩ :: s.spStack }

def advanceStackFrame (s : StackState) (addr : Nat) : Option StackState :=
  match s.spStack with
  | r :: rs =>
    some { s with spStack := { r with low := if addr < r.low then addr else r.low } :: rs }
  | [] => none

/-- The range whose shadow is to be cleared, and the rest. -/
def popStackFrame (s : StackState) : Option (StackRange × StackState) :=
  match s.spStack with
  | r :: rs => if r.low ≤ r.high then some (r, { s with spStack := rs }) else none
  | [] => none

/-- `__csan_func_entry`. -/
def funcEntry (s : StackState) (bp sp : Nat) : StackState :=
  if addrSub bp sp > DEFAULT_STACK_SIZE ∨
      (s.bounds.low > sp ∧ s.bounds.low - sp > DEFAULT_STACK_SIZE) then
    let s := { s with
      bounds := s.bounds.handleStackSwitch bp sp
      switchedStack := true :: s.switchedStack }
    s.pushStackFrame (if addrSub bp sp > DEFAULT_STACK_SIZE then sp else bp) sp
  else
    let bounds := { s.bounds with
      high := if s.bounds.high < bp then bp else s.bounds.high
      low := if s.bounds.low > sp then sp else s.bounds.low }
    let s := { s with bounds, switchedStack := false :: s.switchedStack }
    s.pushStackFrame bp sp

/-- `__csan_task`. -/
def task (s : StackState) (bp sp : Nat) : StackState :=
  if s.bounds.low > sp then
    if s.bounds.low - sp > DEFAULT_STACK_SIZE then
      let s := { s with
        bounds := s.bounds.handleStackSwitch bp sp
        switchedStack := true :: s.switchedStack }
      s.pushStackFrame (if addrSub bp sp > DEFAULT_STACK_SIZE then sp else bp) sp
    else
      let s :=
        { s with bounds := { s.bounds with low := sp }, switchedStack := false :: s.switchedStack }
      s.pushStackFrame bp sp
  else
    let s := { s with switchedStack := false :: s.switchedStack }
    s.pushStackFrame bp sp

/-- `__csan_func_exit` and `__csan_task_exit`. -/
def exit (s : StackState) : Option (StackRange × StackState) := do
  let (r, s) ← s.popStackFrame
  match s.switchedStack with
  | switched :: switchedStack =>
    return (r,
      { s with bounds := if switched then s.bounds.switchBack else s.bounds, switchedStack })
  | [] => none

/-- `__csi_after_alloca`. -/
def afterAlloca (s : StackState) (addr : Nat) : Option StackState :=
  { s with
    bounds := { s.bounds with
      low := if s.bounds.low > addr then addr else s.bounds.low } }.advanceStackFrame addr

/-- `do_read` and `do_write`. -/
def access (s : StackState) (addr : Nat) : Option StackState :=
  if s.bounds.isOnStack addr then s.advanceStackFrame addr else some s

/-- `restore_stack`. What is freed is written. -/
def restoreStack (s : StackState) (callId addr : Nat) : Option (StackState × List DetectorHook) :=
  match s.spStack with
  | r :: rs =>
    if addr > r.low then
      some ({ s with spStack := { r with low := addr } :: rs },
        [.access false callId r.low (addr - r.low) 0])
    else some (s, [])
  | [] => none

/-- What a hook does to the stack, and what it has the rest of the tool do. -/
def step (s : StackState) (parallel : Bool) : StackHook → Option (StackState × List DetectorHook)
  | .driver h bp sp =>
    match h with
    | .funcEntry .. => some (s.funcEntry bp sp, [.driver h])
    | .task .. => some (s.task bp sp, [.driver h])
    | .funcExit | .taskExit .. =>
      s.exit.map fun (r, s) => (s, [.driver h, .clear r.low (r.high - r.low)])
    | _ => some (s, [.driver h])
  | .access isRead accId addr memSize alignment => do
    let s ← if parallel then s.access addr else some s
    return (s, [.access isRead accId addr memSize alignment])
  | .alloca addr size => do
    let s ← s.afterAlloca addr
    return (s, [.clear addr size])
  | .stacksave sp => do
    let s ← if parallel then s.advanceStackFrame sp else some s
    return (s, [])
  | .stackrestore callId sp => if parallel then s.restoreStack callId sp else some (s, [])
  | .clear start size => some (s, [.clear start size])

end StackState

/-- The tool with its account of the stack. -/
structure StackTool where
  stack : StackState := {}
  detector : RaceDetector := .init

namespace StackTool

def parallel (t : StackTool) : Bool := t.detector.driver.parallelExecution.isExecutionParallel

def step (t : StackTool) (h : StackHook) : Option StackTool := do
  let (stack, hooks) ← t.stack.step t.parallel h
  let detector ← t.detector.run hooks
  return { stack, detector }

/-- What the hook has the rest of the tool do. -/
def calls (t : StackTool) (h : StackHook) : List DetectorHook :=
  ((t.stack.step t.parallel h).map (·.2)).getD []

end StackTool

/-! ## Programs -/

/-- A program, and when each of its functions and tasks began. -/
structure StackProgram where
  prog : AccessProgram := .init
  began : List Nat := []

namespace StackProgram

/-- The functions and tasks that there are after a hook. -/
def frames (p : StackProgram) : StackHook → Option (List Nat)
  | .driver (.funcEntry ..) _ _ | .driver (.task ..) _ _ => some (p.prog.events.length :: p.began)
  | .driver .funcExit _ _ | .driver (.taskExit ..) _ _ => p.began.tail?
  | .driver .. | .clear .. => some p.began
  | .access .. | .alloca .. | .stacksave _ | .stackrestore .. =>
    if p.began = [] then none else some p.began

/-- The tool says which memory is new. -/
def step (t : StackTool) (p : StackProgram) (h : StackHook) : Option StackProgram := do
  let began ← p.frames h
  let prog ← p.prog.run (t.calls h)
  return { prog, began }

end StackProgram

/-- A program beside the tool. -/
structure StackRun where
  tool : StackTool := {}
  prog : StackProgram := {}

namespace StackRun

def step (s : StackRun) (h : StackHook) : Option StackRun := do
  let prog ← s.prog.step s.tool h
  let tool ← s.tool.step h
  return { tool, prog }

def run (s : StackRun) (hooks : List StackHook) : Option StackRun := hooks.foldlM step s

end StackRun

end Cilksan
