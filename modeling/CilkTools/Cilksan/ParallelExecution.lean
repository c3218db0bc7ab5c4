/-
The stack of parallel-execution flags (`driver.cpp`): two for every function,
task and loop being run, the lower one being the flag it was entered with.
-/
import Mathlib.Init

namespace Cilksan

/-- `parallel_execution`, top first. -/
abbrev ParallelExecution := List Bool

namespace ParallelExecution

/-- The program starts in series. -/
def initial : ParallelExecution := [false]

/-- `is_execution_parallel`. -/
def isExecutionParallel (pe : ParallelExecution) : Bool := pe.head?.getD false

/-- The flag is passed on to a function, task or loop, and copied for it to change. -/
def enter (pe : ParallelExecution) : Option ParallelExecution := do
  let currentPe ← pe.head?
  return currentPe :: currentPe :: pe

def leave (pe : ParallelExecution) : Option ParallelExecution :=
  match pe with
  | _ :: _ :: pe => some pe
  | _ => none

def detach (pe : ParallelExecution) : Option ParallelExecution :=
  match pe with
  | _ :: pe => some (true :: pe)
  | [] => none

/-- A frame that is synced has again the flag it was entered with. -/
def sync (pe : ParallelExecution) (isLocalSynced : Bool) : Option ParallelExecution :=
  if isLocalSynced then
    match pe with
    | _ :: entry :: pe => some (entry :: entry :: pe)
    | _ => none
  else some pe

end ParallelExecution

end Cilksan
