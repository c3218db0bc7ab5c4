/-
The program's side of a run: which strands its hooks delimit and how they
depend on each other. A run of hooks the program could make is one that
`Program.run` accepts.

An activation is a function, a task or a parallel loop that is being run and
has a frame; the strand the program is on is its head's. A function that
cannot spawn, called from a function or a task with nothing to sync, runs
as part of its caller.
-/
import CilkTools.GrowingDag
import CilkTools.Cilksan.Hooks

namespace Cilksan

inductive ActivationKind
  | root
  | called
  | spawned
  | loop (id : Nat)
  deriving DecidableEq, Repr

/-- `pend r` holds the last strands of the tasks of region `r` not synced
yet. In a loop, `done` holds the last strands of the iterations that ended,
and region `r` is stale when some of them were left to it. -/
structure Activation where
  kind : ActivationKind
  regions : Nat
  cur : Nat
  pend : Nat → List Nat := fun _ => []
  inlined : Nat := 0
  iter : Nat := 0
  active : Bool := true
  done : List Nat := []
  stale : Nat → Bool := fun _ => false

/-- An access: its strand, the iterations of the loops it was made in, and the
one whose loop made it itself. -/
structure LoggedAccess where
  strand : Nat
  ctx : List (Nat × Nat)
  direct : Option (Nat × Nat)
  deriving DecidableEq, Repr

namespace Activation

def unsynced (a : Activation) : List Nat := (List.range a.regions).flatMap a.pend

def iteration (a : Activation) : Option (Nat × Nat) :=
  match a.kind with
  | .loop id => some (id, a.iter)
  | _ => none

def isLoop (a : Activation) : Bool :=
  match a.kind with
  | .loop _ => true
  | _ => false

end Activation

/-- `pendingLoop` stands between a loop's beginning and its first iteration. -/
structure Program where
  dag : GrowingDag
  acts : List Activation
  pendingLoop : Bool := false
  nextLoop : Nat := 0
  log : List LoggedAccess := []

namespace Program

/-- The current strand. -/
def cur (p : Program) : Nat := (p.acts.head?.map (·.cur)).getD 0

/-- The program goes on with a new strand after those of `ps`. -/
def advance (p : Program) (ps : List Nat) (acts : List Activation) : Program :=
  { p with dag := p.dag.add ps, acts }

def funcEntry (p : Program) (maySpawn : Bool) (numSyncReg : Nat) : Option Program :=
  match p.acts with
  | a :: as =>
    if !maySpawn && !a.isLoop && a.unsynced = [] then
      some (p.advance [a.cur] ({ a with cur := p.dag.size, inlined := a.inlined + 1 } :: as))
    else some (p.advance [a.cur]
      ({ kind := .called, regions := numSyncReg, cur := p.dag.size } :: a :: as))
  | [] => none

/-- A called function has synced. -/
def funcExit (p : Program) : Option Program :=
  match p.acts with
  | a :: as =>
    if 0 < a.inlined then
      some (p.advance [a.cur] ({ a with cur := p.dag.size, inlined := a.inlined - 1 } :: as))
    else
      match a.kind, as with
      | .called, b :: bs =>
        if a.unsynced = [] then some (p.advance [a.cur] ({ b with cur := p.dag.size } :: bs))
          else none
      | _, _ => none
  | [] => none

def task (p : Program) (numSyncReg : Nat) : Option Program :=
  match p.acts with
  | a :: as =>
    if a.inlined = 0 then
      some (p.advance [a.cur]
        ({ kind := .spawned, regions := numSyncReg, cur := p.dag.size } :: a :: as))
    else none
  | [] => none

/-- The parent goes on where it spawned the task, whose last strand and
whose own unsynced children are left to the region. -/
def taskExit (p : Program) (syncReg : Nat) : Option Program :=
  match p.acts with
  | a :: b :: bs =>
    if a.kind = .spawned ∧ a.inlined = 0 ∧ syncReg < b.regions then
      let pend := Function.update b.pend syncReg (b.pend syncReg ++ a.cur :: a.unsynced)
      some (p.advance [b.cur] ({ b with cur := p.dag.size, pend } :: bs))
    else none
  | _ => none

/-- The parent of a task goes on; its strand began when the task returned. -/
def detachContinue (p : Program) : Option Program :=
  match p.acts with
  | _ :: _ => some p
  | [] => none

def sync (p : Program) (syncReg : Nat) : Option Program :=
  match p.acts with
  | a :: as =>
    if a.inlined = 0 ∧ syncReg < a.regions then
      some (p.advance (a.cur :: a.pend syncReg)
        ({ a with cur := p.dag.size, pend := Function.update a.pend syncReg [] } :: as))
    else none
  | [] => none

def loopBegin (p : Program) : Option Program :=
  match p.acts with
  | a :: _ => if a.inlined = 0 then some { p with pendingLoop := true } else none
  | [] => none

/-- Every iteration starts where the loop was begun. -/
def loopIterationBegin (p : Program) (numSyncReg : Nat) : Option Program :=
  if p.pendingLoop then
    match p.acts with
    | a :: as =>
      let regions := if numSyncReg > 0 then numSyncReg else 1
      some { p.advance [a.cur]
               ({ kind := .loop p.nextLoop, regions, cur := p.dag.size } :: a :: as) with
        pendingLoop := false, nextLoop := p.nextLoop + 1 }
    | [] => none
  else
    match p.acts with
    | a :: b :: bs =>
      if a.isLoop ∧ a.active = false then
        some (p.advance [b.cur] ({ a with cur := p.dag.size, active := true } :: b :: bs))
      else none
    | _ => none

def loopIterationEnd (p : Program) : Option Program :=
  match p.acts with
  | a :: b :: bs =>
    if a.isLoop then
      let stale r := a.stale r || r = 0 || a.pend r ≠ []
      some (p.advance [b.cur] ({ a with
        cur := p.dag.size, pend := fun _ => [], iter := a.iter + 1, active := false,
        done := a.done ++ a.cur :: a.unsynced, stale } :: b :: bs))
    else none
  | _ => none

/-- The iterations are left to a region of the parent. -/
def loopEnd (p : Program) (syncReg : Nat) : Option Program :=
  if p.pendingLoop then some { p with pendingLoop := false }
  else
    match p.acts with
    | a :: b :: bs =>
      if a.isLoop ∧ a.active = false ∧ syncReg < b.regions then
        let pend := Function.update b.pend syncReg (b.pend syncReg ++ a.done)
        some (p.advance [b.cur] ({ b with cur := p.dag.size, pend } :: bs))
      else none
    | _ => none

def access (p : Program) : Option Program :=
  match p.acts with
  | a :: _ =>
    let e := { strand := a.cur, ctx := p.acts.filterMap (·.iteration), direct := a.iteration }
    some { p with log := e :: p.log }
  | [] => none

/-- Neither between a loop's beginning and its first iteration nor between
two of its iterations. -/
def running (p : Program) : Bool := !p.pendingLoop && p.acts.head?.all (·.active)

def step (p : Program) : Hook → Option Program
  | .funcEntry maySpawn numSyncReg => if p.running then p.funcEntry maySpawn numSyncReg else none
  | .funcExit => if p.running then p.funcExit else none
  | .task numSyncReg => if p.running then p.task numSyncReg else none
  | .taskExit syncReg => if p.running then p.taskExit syncReg else none
  | .detachContinue _ => if p.running then p.detachContinue else none
  | .sync syncReg => if p.running then p.sync syncReg else none
  | .loopBegin => if p.running then p.loopBegin else none
  | .loopIterationBegin numSyncReg => p.loopIterationBegin numSyncReg
  | .loopIterationEnd => if p.running then p.loopIterationEnd else none
  | .loopEnd syncReg => p.loopEnd syncReg
  | .access _ => if p.running then p.access else none
  | .recordCall _ | .recordCallReturn => some p
  | .check i => if i < p.log.length then some p else none

def init : Program where
  dag := GrowingDag.empty.add []
  acts := [{ kind := .root, regions := 0, cur := 0 }]

def run (p : Program) (hooks : List Hook) : Option Program := hooks.foldlM step p

end Program

end Cilksan
