/-
The tool with the reducer views (`driver.cpp`, `reducers.cpp`): what the hooks
do to the tables of views and to the contents of the views, and the hooks for
the reducers themselves.

A reducer is known by the address of its leftmost view, which is also what the
program has at hand when the tool gives it no other. What is allocated besides
views, and the check of the leftmost view, are left out.
-/
import CilkTools.Cilksan.SerialFilter
import CilkTools.Cilksan.ViewContents

namespace Cilksan

abbrev ReducerViews := HyperTable ReducerBase

/-! ## Views -/

/-- What `reduce_local_views` does to the views. -/
def ViewStack.localEvents (hash : Key → Nat) (c : ViewStack ReducerViews) :
    Option (List ViewEvent) := do
  let f ← c.frameStack.read c.frameStack.headPtr
  match f.reducerViews with
  | none => return []
  | some reducerViews =>
    if f.parentContin > 0 then
      let parent ← c.frameStack.read (c.frameStack.ancestor f.parentContin)
      (Cilksan.reduceLocalViews hash ⟨some parent.reducerViews, some reducerViews⟩).map (·.2)
    else (Cilksan.reduceLocalViews hash ⟨none, some reducerViews⟩).map (·.2)

/-- The table at an index is changed. -/
def ViewStack.changeAt {T : Type} (c : ViewStack T) (i : BitVec 32) (g : T → Option T) :
    Option (ViewStack T) := do
  let f ← c.frameStack.read i
  let reducerViews ← f.reducerViews
  let reducerViews ← g reducerViews
  c.modifyAt i fun f => { f with reducerViews := some reducerViews }

/-- `reduce_local_views` comes first in these. -/
def ViewStack.Hook.reduces {T : Type} : ViewStack.Hook T → Bool
  | .detachContinue _ | .sync _ | .loopIterationEnd => true
  | _ => false

/-- What the tool is told by the hooks that delimit strands. -/
def Driver.viewHooks (d : Driver) : DriverHook → Option (List (ViewStack.Hook ReducerViews))
  | .funcEntry maySpawn _ => do
    let synced ← d.tool.isLocalSynced
    return if !maySpawn && synced then [] else [.enter]
  | .funcExit => do
    let skipped ← d.tool.framesSkipped.head?
    return if skipped then [] else [.leave]
  | .detach _ => some []
  | .task isTapirLoopBody _ => do
    let handleLoop ← d.tool.handleLoop
    return if isTapirLoopBody && handleLoop then [.loopIterationBegin] else [.enterHelper]
  | .taskExit isTapirLoopBody _ => do
    let handleLoop ← d.tool.handleLoop
    return if isTapirLoopBody && handleLoop then [.loopIterationEnd] else [.leave]
  | .detachContinue forTapirLoopBody isUnwind syncReg =>
    some ((if isUnwind then [.sync syncReg] else []) ++ if forTapirLoopBody then []
      else [.detachContinue syncReg])
  | .sync syncReg => some [.sync syncReg]
  | .beforeLoop => some [.loopBegin]
  | .afterLoop _ => some [.loopEnd]

/-- `mem` has what is at the addresses of views, if anything is. -/
structure ReducerTool (M : Type) where
  driver : Driver
  views : ViewStack ReducerViews
  mem : Key → Option M

inductive ReducerHook (M : Type)
  | driver (h : DriverHook)
  | register (key : Key) (x : M)
  | unregister (key : Key)
  | update (key fresh : Key) (y : M)

namespace ReducerTool

variable {M : Type} (hash : Key → Nat) (R : Reducers M)

def viewStep (t : ReducerTool M) (h : ViewStack.Hook ReducerViews) : Option (ReducerTool M) := do
  let events ← if h.reduces then t.views.localEvents hash else some []
  let mem ← R.runEvents t.mem events
  let views ← t.views.step (hyperTables hash) h
  return { t with views, mem }

def driverStep (t : ReducerTool M) (h : DriverHook) : Option (ReducerTool M) := do
  let hooks ← t.driver.viewHooks h
  let driver ← t.driver.step h
  hooks.foldlM (viewStep hash R) { t with driver }

/-- A view is put in the table at an index. -/
def insertView (views : ViewStack ReducerViews) (i : BitVec 32) (key view : Key) :
    Option (ViewStack ReducerViews) :=
  views.changeAt i fun reducerViews =>
    (reducerViews.insert hash { key, value := { view, reduceFn := R.reduceFn key } }).map (·.2)

/-- The program has set the leftmost view. -/
def register (t : ReducerTool M) (key : Key) (x : M) : Option (ReducerTool M) := do
  let mem := Function.update t.mem key (some x)
  if ← t.views.stealable then
    let (i, views) ← t.views.getOrCreateReducerViews (hyperTables hash)
    let views ← insertView hash R views i key key
    return { t with views, mem }
  else return { t with mem }

/-- The leftmost view is no more. -/
def unregister (t : ReducerTool M) (key : Key) : Option (ReducerTool M) := do
  let mem := Function.update t.mem key none
  match ← t.views.getReducerViews with
  | none => return { t with mem }
  | some _ =>
    let (i, views) ← t.views.getOrCreateReducerViews (hyperTables hash)
    let views ← views.changeAt i fun reducerViews => (reducerViews.remove hash key).map (·.2)
    return { t with views, mem }

/-- A new view is put at the address that `malloc` returns. -/
def createReducerView (t : ReducerTool M) (i : BitVec 32) (key fresh : Key) :
    Option (ReducerTool M) := do
  let views ← insertView hash R t.views i key fresh
  return { t with views, mem := Function.update t.mem fresh (some (R.identity key)) }

/-- `__csan_llvm_hyper_lookup`: the view to use. -/
def hyperLookup (t : ReducerTool M) (key fresh : Key) : Option (Key × ReducerTool M) := do
  if !t.driver.parallelExecution.isExecutionParallel then return (key, t)
  else if ← t.views.stealable then
    let (i, views) ← t.views.getOrCreateReducerViews (hyperTables hash)
    let f ← views.frameStack.read i
    let reducerViews ← f.reducerViews
    match reducerViews.find hash key with
    | some j => return ((reducerViews.buckets j).value.view, { t with views })
    | none =>
      let t ← { t with views }.createReducerView hash R i key fresh
      return (fresh, t)
  else return (key, t)

/-- The program combines its view with `y`. -/
def update (t : ReducerTool M) (key fresh : Key) (y : M) : Option (ReducerTool M) := do
  let (view, t) ← t.hyperLookup hash R key fresh
  let x ← t.mem view
  return { t with mem := Function.update t.mem view (some (R.op key x y)) }

def step (t : ReducerTool M) : ReducerHook M → Option (ReducerTool M)
  | .driver h => t.driverStep hash R h
  | .register key x => t.register hash R key x
  | .unregister key => t.unregister hash key
  | .update key fresh y => t.update hash R key fresh y

def init : ReducerTool M where
  driver := .init
  views := .init
  mem _ := none

def run (t : ReducerTool M) (hooks : List (ReducerHook M)) : Option (ReducerTool M) :=
  hooks.foldlM (step hash R) t

end ReducerTool

/-! ## Programs -/

/-- Where a program with reducers has got to, and what they hold in series.
`returned` stands between a task's exit and its continuation. No exception is
thrown, and no function or task returns that has not synced. -/
structure ReducerProgram (M : Type) where
  trace : Trace
  returned : Option (Bool × Nat) := none
  values : Key → Option M

namespace ReducerProgram

variable {M : Type} (R : Reducers M)

def advance (p : ReducerProgram M) (h : DriverHook) (returned : Option (Bool × Nat)) :
    Option (ReducerProgram M) :=
  (p.trace.step h).map fun trace => { p with trace, returned }

def driverStep (p : ReducerProgram M) : DriverHook → Option (ReducerProgram M)
  | .taskExit isTapirLoopBody syncReg =>
    if p.returned = none ∧ ∀ a ∈ p.trace.program.acts.head?, a.unsynced = [] then
      p.advance (.taskExit isTapirLoopBody syncReg) (some (isTapirLoopBody, syncReg))
    else none
  | .detachContinue forTapirLoopBody isUnwind syncReg =>
    if p.returned = some (forTapirLoopBody, syncReg) ∧ isUnwind = false then
      p.advance (.detachContinue forTapirLoopBody isUnwind syncReg) none
    else none
  | h => if p.returned = none then p.advance h none else none

/-- Code of the program runs. -/
def running (p : ReducerProgram M) : Prop :=
  p.returned = none ∧ p.trace.detached = none ∧ p.trace.awaiting = none ∧
  p.trace.program.running = true

instance (p : ReducerProgram M) : Decidable p.running :=
  inferInstanceAs
    (Decidable (p.returned = none ∧ p.trace.detached = none ∧ p.trace.awaiting = none ∧
      p.trace.program.running = true))

def step (p : ReducerProgram M) : ReducerHook M → Option (ReducerProgram M)
  | .driver h => p.driverStep h
  | .register key x =>
    if p.running then
      match p.values key with
      | none => some { p with values := Function.update p.values key (some x) }
      | some _ => none
    else none
  | .unregister key =>
    if p.running then do
      let _ ← p.values key
      return { p with values := Function.update p.values key none }
    else none
  | .update key _ y =>
    if p.running then do
      let x ← p.values key
      return { p with values := Function.update p.values key (some (R.op key x y)) }
    else none

def init : ReducerProgram M where
  trace := .init
  values _ := none

def run (p : ReducerProgram M) (hooks : List (ReducerHook M)) : Option (ReducerProgram M) :=
  hooks.foldlM (step R) p

end ReducerProgram

end Cilksan
