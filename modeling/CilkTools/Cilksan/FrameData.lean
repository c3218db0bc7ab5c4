/-
The frames of the shadow stack (`frame_data.h`): the bags a frame holds and
the operations on them. Bags live in the heap, which is passed along; a null
pointer that is followed, or an index out of range, is `none`.

A frame's reducer views and the identifiers that only debugging output reads
are left out.
-/
import CilkTools.Cilksan.SPBag

namespace Cilksan

/-- Two bits of entry type below two bits of frame type. -/
abbrev EntryFrameType := BitVec 8

namespace EntryFrameType

def NONE : EntryFrameType := 0
def SPAWNER : EntryFrameType := 1
def DETACHER : EntryFrameType := 3
def SHADOW_FRAME : EntryFrameType := 1 <<< 2
def LOOP_FRAME : EntryFrameType := 3 <<< 2
def FRAME_MASK : EntryFrameType := 3 <<< 2
def SPAWNER_SHADOW_FRAME : EntryFrameType := SPAWNER ||| SHADOW_FRAME
def DETACHER_SHADOW_FRAME : EntryFrameType := DETACHER ||| SHADOW_FRAME

def isDetacher (eft : EntryFrameType) : Bool := eft &&& DETACHER = DETACHER
def isLoopFrame (eft : EntryFrameType) : Bool := eft &&& LOOP_FRAME = LOOP_FRAME
def setLoopFrame (eft : EntryFrameType) : EntryFrameType := (eft &&& ~~~FRAME_MASK) ||| LOOP_FRAME

@[simp] theorem isDetacher_spawner : SPAWNER_SHADOW_FRAME.isDetacher = false := by decide
@[simp] theorem isDetacher_detacher : DETACHER_SHADOW_FRAME.isDetacher = true := by decide
@[simp] theorem isDetacher_loop : DETACHER_SHADOW_FRAME.setLoopFrame.isDetacher = true := by decide
@[simp] theorem isLoopFrame_spawner : SPAWNER_SHADOW_FRAME.isLoopFrame = false := by decide
@[simp] theorem isLoopFrame_detacher : DETACHER_SHADOW_FRAME.isLoopFrame = false := by decide
@[simp] theorem isLoopFrame_loop : DETACHER_SHADOW_FRAME.setLoopFrame.isLoopFrame = true := by
  decide

end EntryFrameType

/-- `FrameData_t`; `pbags` is the array, its length `num_Pbags`. -/
structure FrameData where
  sbagUsed : Bool := false
  iterbagUsed : Bool := false
  frameData : EntryFrameType := .NONE
  inContin : BitVec 8 := 0
  parentContin : BitVec 32 := 0
  sbag : Option Nat := none
  pbags : Option (List (Option Nat)) := none
  iterbag : Option Nat := none
  deriving DecidableEq, Repr

/-- `delete` of a pointer that may be null. -/
def Bags.delete (h : Bags) (b : Option Nat) : Bags :=
  match b with
  | some b => h.deleteBag b
  | none => h

namespace FrameData

def setSbag (f : FrameData) (that : Option Nat) (h : Bags) : FrameData × Bags :=
  ({ f with sbag := that, sbagUsed := false }, h.delete f.sbag)

def setPbag (f : FrameData) (idx : Nat) (that : Option Nat) (h : Bags) :
    Option (FrameData × Bags) := do
  let l ← f.pbags
  let old ← l[idx]?
  return ({ f with pbags := some (l.set idx that) }, h.delete old)

def setIterbag (f : FrameData) (that : Option Nat) (h : Bags) : FrameData × Bags :=
  ({ f with iterbag := that, iterbagUsed := false }, h.delete f.iterbag)

def clearPbagArray (f : FrameData) (h : Bags) : FrameData × Bags :=
  ({ f with pbags := none }, (f.pbags.getD []).foldl Bags.delete h)

def makePbagArray (f : FrameData) (numPbags : Nat) (h : Bags) : FrameData × Bags :=
  let (f, h) := f.clearPbagArray h
  ({ f with pbags := some (List.replicate numPbags none) }, h)

def reset (f : FrameData) (h : Bags) : FrameData × Bags :=
  let (f, h) := f.setSbag none h
  let (f, h) := f.clearPbagArray h
  let (f, h) := f.setIterbag none h
  ({ f with inContin := 0, parentContin := 0 }, h)

def inContinuation (f : FrameData) : Bool := f.inContin ≠ 0
def enterLoopContinuation (f : FrameData) : FrameData := { f with inContin := f.inContin ||| 1 }
def exitLoopContinuation (f : FrameData) : FrameData := { f with inContin := f.inContin &&& ~~~1 }
def enterContinuation (f : FrameData) (syncReg : Nat) : FrameData :=
  { f with inContin := f.inContin ||| 2 <<< syncReg }
def exitContinuation (f : FrameData) (syncReg : Nat) : FrameData :=
  { f with inContin := f.inContin &&& ~~~((2 : BitVec 8) <<< syncReg) }

def isLoopFrame (f : FrameData) : Bool := f.frameData.isLoopFrame

/-- The new Iter-bag's set holds the call stack of the S-bag's. -/
def createIterbag (f : FrameData) (h : Bags) : Option (FrameData × Bags) := do
  let x ← h.bag (← f.sbag)
  let ds ← x.ds
  let (b, h) := h.createNewSBag (h.sets.node ds).data
  return f.setIterbag (some b) h

def incVersion (f : FrameData) (h : Bags) : Option (Bool × Bags) := do h.incVersion (← f.iterbag)

def checkParallelIter (f : FrameData) (h : Bags) (lca : Nat) (version : Nat) : Bool :=
  f.isLoopFrame && f.iterbag == some lca && (h.bag lca).any (version < ·.version)

def getSbagForAccess (f : FrameData) : Option (Nat × FrameData) :=
  if f.isLoopFrame then f.iterbag.map fun b => (b, { f with iterbagUsed := true })
  else f.sbag.map fun b => (b, { f with sbagUsed := true })

/-- The P-bag of a sync region, created when it is first needed. -/
def lazyPbag (f : FrameData) (syncReg : Nat) (h : Bags) : Option (Nat × FrameData × Bags) := do
  match ← (← f.pbags)[syncReg]? with
  | some p => return (p, f, h)
  | none =>
    let (p, h) := h.createNewPBag
    let (f, h) ← f.setPbag syncReg (some p) h
    return (p, f, h)

end FrameData

end Cilksan
