/-
The control-flow hooks of the tool (`cilksan.cpp`, and the hooks of
`driver.cpp` that call them): what each does to the shadow stack and to the
bags, and the test whether a recorded access is parallel to the current
strand.

Instrumentation is taken to be on. The occupancy bits, which some hooks
clear, are in the shadow memory; statistics, reducer views and the stack of
parallel-execution flags are left out.
-/
import CilkTools.Cilksan.FrameData

namespace Cilksan

/-- What is remembered of an access: the disjoint-set node and the version
of the frame's bag, and the instruction. -/
structure MemoryAccess where
  func : Nat
  version : Nat
  accId : Nat
  deriving DecidableEq, Repr

/-- `CilkSanImpl_t`. The frame stack and the stack of skipped frames are
lists, head first; `log` holds the accesses recorded so far, the last first. -/
structure CilkSan where
  bags : Bags
  frames : List FrameData
  callStack : CallStack := []
  startNewLoop : Bool := false
  framesSkipped : List Bool := []
  log : List MemoryAccess := []

namespace CilkSan

/-! ## Merging a returning child -/

/-- A bag that was used goes to another. -/
def combineUsed (used : Bool) (h : Bags) (b that : Option Nat) : Option Bags :=
  if used then do h.combine (← b) (← that) else some h

/-- The P-bags that are there go to another bag. -/
def combineAll (h : Bags) (b : Nat) (pbags : List (Option Nat)) : Option Bags :=
  pbags.foldlM (fun h p =>
    match p with
    | some p => h.combine b p
    | none => some h) h

/-- `merge_bag_from_returning_child(true, …)` up to the reset of the child:
its S-bag, if used, and its P-bags go to the parent's P-bag. -/
def mergeDetached (child parent : FrameData) (syncReg : Nat) (h : Bags) :
    Option (FrameData × Bags) := do
  let (parentPbag, parent, h) ← parent.lazyPbag syncReg h
  let h ← combineUsed child.sbagUsed h (some parentPbag) child.sbag
  let h ← combineAll h parentPbag (child.pbags.getD [])
  return (parent, h)

/-- `merge_bag_from_returning_child(false, …)` up to the reset of the child:
its S-bag, if used, goes to the parent's S-bag, and if it has a P-bag, all
entries of its array go to the parent's P-bag. -/
def mergeCalled (child parent : FrameData) (syncReg : Nat) (h : Bags) :
    Option (FrameData × Bags) := do
  let h ← combineUsed child.sbagUsed h parent.sbag child.sbag
  let parent := { parent with sbagUsed := parent.sbagUsed || child.sbagUsed }
  if (child.pbags.getD []).any Option.isSome then
    let (parentPbag, parent, h) ← parent.lazyPbag syncReg h
    let h ← (child.pbags.getD []).foldlM (fun h p => do h.combine parentPbag (← p)) h
    return (parent, h)
  else return (parent, h)

/-- The child, the head, has its S-bag and its P-bags deleted. -/
def mergeBagFromReturningChild (c : CilkSan) (returningFromDetach : Bool) (parentSyncReg : Nat) :
    Option CilkSan := do
  match c.frames with
  | child :: parent :: fs =>
    let (parent, h) ←
      if returningFromDetach then mergeDetached child parent parentSyncReg c.bags
      else mergeCalled child parent parentSyncReg c.bags
    let (child, h) := child.setSbag none h
    let (child, h) := child.clearPbagArray h
    return { c with bags := h, frames := child :: parent :: fs }
  | _ => none

/-! ## Frames -/

/-- The continuation state a child inherits. -/
def childParentContin (parent : FrameData) : BitVec 32 :=
  if parent.inContinuation then 1
  else if parent.parentContin > 0 then parent.parentContin + 1
  else 0

def startNewFunction (c : CilkSan) (numSyncReg : Nat) : Option CilkSan := do
  match c.frames with
  | parent :: fs =>
    let (sbag, h) := c.bags.createNewSBag c.callStack
    let (child, h) := ({} : FrameData).setSbag (some sbag) h
    let child := { child with parentContin := childParentContin parent }
    let (child, h) := if numSyncReg > 0 then child.makePbagArray numSyncReg h else (child, h)
    return { c with bags := h, frames := child :: parent :: fs }
  | _ => none

def exitFunction (c : CilkSan) : Option CilkSan := do
  match c.frames with
  | f :: fs =>
    let (_, h) := f.reset c.bags
    return { c with bags := h, frames := fs }
  | _ => none

def leaveCilkFunction (c : CilkSan) (syncReg : Nat) : Option CilkSan := do
  let c ← c.mergeBagFromReturningChild false syncReg
  c.exitFunction

def returnFromDetach (c : CilkSan) (syncReg : Nat) : Option CilkSan := do
  let c ← c.mergeBagFromReturningChild true syncReg
  c.exitFunction

/-- The head of the frame stack is replaced. -/
def setHead (c : CilkSan) (f : FrameData) : CilkSan := { c with frames := f :: c.frames.tail }

def completeSync (c : CilkSan) (syncReg : Nat) : Option CilkSan := do
  let f ← c.frames.head?
  match ← (← f.pbags)[syncReg]? with
  | some p =>
    let h ← c.bags.combine (← f.sbag) p
    let f := { f with sbagUsed := true }
    let (f, h) ← f.setPbag syncReg none h
    return { c with bags := h }.setHead f
  | none => return c

/-! ## Callbacks -/

def doEnter (c : CilkSan) (numSyncReg : Nat) : Option CilkSan := do
  let c ← c.startNewFunction numSyncReg
  let f ← c.frames.head?
  return c.setHead { f with frameData := .SPAWNER_SHADOW_FRAME }

def doEnterHelper (c : CilkSan) (numSyncReg : Nat) : Option CilkSan := do
  let c ← c.startNewFunction numSyncReg
  let f ← c.frames.head?
  return c.setHead { f with frameData := .DETACHER_SHADOW_FRAME }

def doDetachContinue (c : CilkSan) (syncReg : Nat) : Option CilkSan := do
  let f ← c.frames.head?
  return c.setHead (f.enterContinuation syncReg)

def doLoopBegin (c : CilkSan) : CilkSan := { c with startNewLoop := true }

def doLoopIterationBegin (c : CilkSan) (numSyncReg : Nat) : Option CilkSan := do
  if c.startNewLoop then
    let c ← c.doEnterHelper (if numSyncReg > 0 then numSyncReg else 1)
    let func ← c.frames.head?
    let func := { func with frameData := func.frameData.setLoopFrame }
    let (func, h) ← func.createIterbag c.bags
    return { c with bags := h, startNewLoop := false }.setHead func
  else
    let f ← c.frames.head?
    return c.setHead f.enterLoopContinuation

/-- A used S-bag of the loop frame goes to its P-bag, and a new one is made. -/
def retireSbag (func : FrameData) (myPbag : Nat) (callStack : CallStack) (h : Bags) :
    Option (FrameData × Bags) :=
  if func.sbagUsed then do
    let h ← h.combine myPbag (← func.sbag)
    let (sbag, h) := h.createNewSBag callStack
    return func.setSbag (some sbag) h
  else some (func, h)

/-- So does a used Iter-bag that can tell no more iterations apart, its
version having wrapped. -/
def retireIterbag (func : FrameData) (myPbag : Nat) (ok : Bool) (h : Bags) :
    Option (FrameData × Bags) :=
  if !ok && func.iterbagUsed then do
    let h ← h.combine myPbag (← func.iterbag)
    func.createIterbag h
  else some (func, h)

def doLoopIterationEnd (c : CilkSan) : Option CilkSan := do
  let func ← c.frames.head?
  let (myPbag, func, h) ← func.exitLoopContinuation.lazyPbag 0 c.bags
  let (func, h) ← retireSbag func myPbag c.callStack h
  let (ok, h) ← func.incVersion h
  let (func, h) ← retireIterbag func myPbag ok h
  return { c with bags := h }.setHead func

def doLeave (c : CilkSan) (syncReg : Nat) : Option CilkSan := do
  let f ← c.frames.head?
  if f.frameData.isDetacher then c.returnFromDetach syncReg else c.leaveCilkFunction syncReg

def doLoopEnd (c : CilkSan) (syncReg : Nat) : Option CilkSan := do
  let func ← c.frames.head?
  let (myPbag, func, h) ← func.lazyPbag 0 c.bags
  let h ← combineUsed func.iterbagUsed h (some myPbag) func.iterbag
  let (func, h) := func.setIterbag none h
  ({ c with bags := h }.setHead func).doLeave syncReg

def doSync (c : CilkSan) (syncReg : Nat) : Option CilkSan := do
  let c ← c.completeSync syncReg
  let f ← c.frames.head?
  return c.setHead (f.exitContinuation syncReg)

/-- No loop frame, and no P-bags. -/
def isLocalSynced (c : CilkSan) : Option Bool := do
  let f ← c.frames.head?
  return !f.isLoopFrame && !(f.pbags.getD []).any Option.isSome

/-! ## Driver hooks -/

/-- `__csan_func_entry`: no frame is pushed for a function that cannot spawn,
called where the head frame is synced. -/
def funcEntry (c : CilkSan) (maySpawn : Bool) (numSyncReg : Nat) : Option CilkSan := do
  if !maySpawn && (← c.isLocalSynced) then
    return { c with framesSkipped := true :: c.framesSkipped }
  else
    let c := { c with framesSkipped := false :: c.framesSkipped }
    c.doEnter numSyncReg

/-- `__csan_func_exit`. -/
def funcExit (c : CilkSan) : Option CilkSan := do
  let skipped ← c.framesSkipped.head?
  let c ← if skipped then some c else c.doLeave 0
  return { c with framesSkipped := c.framesSkipped.tail }

/-! ## Accesses -/

/-- The access as the shadow memory stores it. -/
def recordAccess (c : CilkSan) (accId : Nat) : Option CilkSan := do
  let f ← c.frames.head?
  let (b, f) ← f.getSbagForAccess
  let x ← c.bags.bag b
  let func ← x.ds
  return { c with log := { func, version := x.version, accId } :: c.log }.setHead f

/-- `MemoryAccess_t::previousAccessInParallel`, with the path compression of
its query. -/
def previousAccessInParallel (m : MemoryAccess) (f : FrameData) (h : Bags) : Bool × Bags :=
  let (lca, h) := h.getSbagOrNull m.func
  match lca with
  | none => (true, h)
  | some b => (f.checkParallelIter h b m.version, h)

/-- The test, made for the `i`th recorded access. -/
def checkAccess (c : CilkSan) (i : Nat) : Option (Bool × CilkSan) := do
  let m ← c.log[i]?
  let f ← c.frames.head?
  let (parallel, h) := previousAccessInParallel m f c.bags
  return (parallel, { c with bags := h })

end CilkSan

/-! ## Runs -/

/-- The hooks a program run calls. `check` is the parallelism test an access
makes of an earlier one. -/
inductive Hook
  | funcEntry (maySpawn : Bool) (numSyncReg : Nat)
  | funcExit
  | task (numSyncReg : Nat)
  | taskExit (syncReg : Nat)
  | detachContinue (syncReg : Nat)
  | sync (syncReg : Nat)
  | loopBegin
  | loopIterationBegin (numSyncReg : Nat)
  | loopIterationEnd
  | loopEnd (syncReg : Nat)
  | recordCall (call : CallID)
  | recordCallReturn
  | access (accId : Nat)
  | check (i : Nat)
  deriving DecidableEq, Repr

namespace CilkSan

def step (c : CilkSan) : Hook → Option CilkSan
  | .funcEntry maySpawn numSyncReg => c.funcEntry maySpawn numSyncReg
  | .funcExit => c.funcExit
  | .task numSyncReg => c.doEnterHelper numSyncReg
  | .taskExit syncReg => c.doLeave syncReg
  | .detachContinue syncReg => c.doDetachContinue syncReg
  | .sync syncReg => c.doSync syncReg
  | .loopBegin => some c.doLoopBegin
  | .loopIterationBegin numSyncReg => c.doLoopIterationBegin numSyncReg
  | .loopIterationEnd => c.doLoopIterationEnd
  | .loopEnd syncReg => c.doLoopEnd syncReg
  | .recordCall call => some { c with callStack := call :: c.callStack }
  | .recordCallReturn => some { c with callStack := c.callStack.tail }
  | .access accId => c.recordAccess accId
  | .check i => (c.checkAccess i).map (·.2)

/-- `init`: the frame that is there before the first function is entered. -/
def init : CilkSan :=
  let (sbag, h) := Bags.empty.createNewSBag []
  let (f, h) := ({} : FrameData).setSbag (some sbag) h
  { bags := h, frames := [f] }

def run (c : CilkSan) (hooks : List Hook) : Option CilkSan := hooks.foldlM step c

end CilkSan

end Cilksan
