/-
Well-nested traces of hooks: what is open around each point of a trace. A
function, a task or a loop may be left before it has synced; only the bracket
structure counts here, and that a sync region named is one of its frame's.
-/
import CilkTools.Cilksan.Hooks

namespace Cilksan

/-- Functions, tasks and loops that were begun; a loop is active in an
iteration. -/
inductive Opened
  | func (maySpawn : Bool) (numSyncReg : Nat)
  | task (numSyncReg : Nat)
  | loop (numSyncReg : Nat) (active : Bool)
  deriving DecidableEq, Repr

namespace Opened

def regions : Opened → Nat
  | func _ n | task n | loop n _ => n

/-- Tasks, loops and syncs occur in it. -/
def spawns : Opened → Bool
  | func maySpawn _ => maySpawn
  | task _ => true
  | loop _ active => active

def isLoop : Opened → Bool
  | loop .. => true
  | _ => false

def isTask : Opened → Bool
  | task _ => true
  | _ => false

/-- Not a loop between two iterations. -/
def running : Opened → Bool
  | loop _ active => active
  | _ => true

end Opened

/-- What is open, the innermost first; `pendingLoop` stands between a loop's
beginning and its first iteration. -/
structure Nesting where
  opened : List Opened := []
  pendingLoop : Bool := false
  accesses : Nat := 0
  deriving DecidableEq, Repr

namespace Nesting

def running (n : Nesting) : Bool := !n.pendingLoop && n.opened.head?.all (·.running)

/-- A task, a loop or a sync may come next. -/
def spawns (n : Nesting) : Bool := !n.pendingLoop && n.opened.head?.any (·.spawns)

def push (n : Nesting) (o : Opened) : Nesting := { n with opened := o :: n.opened }

def loopIterationBegin (n : Nesting) (numSyncReg : Nat) : Option Nesting :=
  if n.pendingLoop then
    some { n.push (.loop (if numSyncReg > 0 then numSyncReg else 1) true)
             with pendingLoop := false }
  else
    match n.opened with
    | .loop k false :: os => some { n with opened := .loop k true :: os }
    | _ => none

def loopIterationEnd (n : Nesting) : Option Nesting :=
  match n.opened with
  | .loop k true :: os => some { n with opened := .loop k false :: os }
  | _ => none

def loopEnd (n : Nesting) (syncReg : Nat) : Option Nesting :=
  if n.pendingLoop then some { n with pendingLoop := false }
  else
    match n.opened with
    | .loop _ false :: o :: os =>
      if syncReg < o.regions then some { n with opened := o :: os } else none
    | _ => none

def step (n : Nesting) : Hook → Option Nesting
  | .funcEntry maySpawn numSyncReg =>
    if n.running then some (n.push (.func maySpawn numSyncReg)) else none
  | .funcExit =>
    match n.opened with
    | .func _ _ :: os => if n.running then some { n with opened := os } else none
    | _ => none
  | .task numSyncReg => if n.spawns then some (n.push (.task numSyncReg)) else none
  | .taskExit syncReg =>
    match n.opened with
    | .task _ :: o :: os =>
      if n.running ∧ syncReg < o.regions then some { n with opened := o :: os } else none
    | _ => none
  | .detachContinue syncReg | .sync syncReg =>
    if n.spawns ∧ n.opened.head?.any (syncReg < ·.regions) then some n else none
  | .loopBegin => if n.spawns then some { n with pendingLoop := true } else none
  | .loopIterationBegin numSyncReg => n.loopIterationBegin numSyncReg
  | .loopIterationEnd => if n.running then n.loopIterationEnd else none
  | .loopEnd syncReg => n.loopEnd syncReg
  | .access _ => if n.running then some { n with accesses := n.accesses + 1 } else none
  | .recordCall _ | .recordCallReturn => some n
  | .check i => if i < n.accesses then some n else none

def run (n : Nesting) (hooks : List Hook) : Option Nesting := hooks.foldlM step n

end Nesting

end Cilksan
