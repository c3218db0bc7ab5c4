/-
Cilkscale's shadow stack (`shadow_stack.h`) and the hooks that operate it
(`cilkscale.cpp`).

The timer is left out: a hook that ends a strand is given the time of that
strand, which is what `elapsed_time` returns there. So are the types of
frames, which nothing but assertions reads.
-/
import Mathlib.Data.Nat.Notation
import Mathlib.Data.Int.Notation

namespace Cilkscale

/-- `shadow_stack_frame_t`. -/
structure Frame where
  achildWork : Int := 0
  continWork : Int := 0
  lchildSpan : Int := 0
  continSpan : Int := 0
  lchildBspan : Int := 0
  continBspan : Int := 0
  deriving DecidableEq, Repr

/-- `shadow_stack_t`: the frame at the bottom of the stack and, nearest first,
those above it. -/
structure ShadowStack where
  bot : Frame
  frames : List Frame := []
  deriving DecidableEq, Repr

namespace Frame

/-- The strand that ends, on the continuation. -/
def addStrand (f : Frame) (strandTime : Nat) : Frame :=
  { f with
    continWork := f.continWork + strandTime
    continSpan := f.continSpan + strandTime
    continBspan := f.continBspan + strandTime }

/-- A new frame for a function or a task. -/
def child (p : Frame) : Frame :=
  { continWork := p.continWork, continSpan := p.continSpan, continBspan := p.continBspan }

/-- The parent of a function that returns. -/
def returned (p c : Frame) (strandTime : Nat) : Frame :=
  { p with
    continWork := c.continWork + strandTime
    continSpan := c.continSpan + strandTime
    continBspan := c.continBspan + strandTime }

/-- The parent of a task that ends. -/
def taskEnded (p c : Frame) (burden : Nat) : Frame :=
  { p with
    achildWork := p.achildWork + (c.continWork - p.continWork)
    lchildSpan := if c.continSpan > p.lchildSpan then c.continSpan else p.lchildSpan
    lchildBspan :=
      if c.continBspan + burden > p.lchildBspan then c.continBspan + burden else p.lchildBspan }

/-- The join of the children with the continuation. -/
def join (f : Frame) : Frame where
  continWork := f.continWork + f.achildWork
  achildWork := 0
  continSpan := if f.lchildSpan > f.continSpan then f.lchildSpan else f.continSpan
  lchildSpan := 0
  continBspan := if f.lchildBspan > f.continBspan then f.lchildBspan else f.continBspan
  lchildBspan := 0

def addBurden (f : Frame) (burden : Nat) : Frame := { f with continBspan := f.continBspan + burden }

end Frame

/-- The hooks, with the time of the strand each ends. -/
inductive Hook
  | funcEntry (maySpawn : Bool) (strandTime : Nat)
  | funcExit (maySpawn : Bool) (strandTime : Nat)
  | detach (strandTime : Nat)
  | task
  | taskExit (strandTime : Nat)
  | detachContinue (isUnwind : Bool)
  | beforeSync (strandTime : Nat)
  | afterSync
  | destroy (strandTime : Nat)
  deriving DecidableEq, Repr

namespace ShadowStack

def push (s : ShadowStack) (f : Frame) : ShadowStack := ⟨f, s.bot :: s.frames⟩

/-- The old bottom, and the stack without it. -/
def pop (s : ShadowStack) : Option (Frame × ShadowStack) :=
  match s.frames with
  | p :: fs => some (s.bot, ⟨p, fs⟩)
  | [] => none

def setBot (s : ShadowStack) (f : Frame) : ShadowStack := { s with bot := f }

def addStrand (s : ShadowStack) (strandTime : Nat) : ShadowStack :=
  s.setBot (s.bot.addStrand strandTime)

def funcEntry (s : ShadowStack) (maySpawn : Bool) (strandTime : Nat) : ShadowStack :=
  if maySpawn then
    let s := s.addStrand strandTime
    s.push s.bot.child
  else s

def funcExit (s : ShadowStack) (maySpawn : Bool) (strandTime : Nat) : Option ShadowStack :=
  if maySpawn then do
    let (c, s) ← s.pop
    return s.setBot (s.bot.returned c strandTime)
  else some s

def detach (s : ShadowStack) (strandTime : Nat) : ShadowStack := s.addStrand strandTime

def task (s : ShadowStack) : ShadowStack := s.push s.bot.child

def taskExit (s : ShadowStack) (burden strandTime : Nat) : Option ShadowStack := do
  let (c, s) ← (s.addStrand strandTime).pop
  return s.setBot (s.bot.taskEnded c burden)

def detachContinue (s : ShadowStack) (burden : Nat) (isUnwind : Bool) : ShadowStack :=
  s.setBot (if isUnwind then s.bot.join else s.bot.addBurden burden)

def beforeSync (s : ShadowStack) (strandTime : Nat) : ShadowStack := s.addStrand strandTime

def afterSync (s : ShadowStack) : ShadowStack := s.setBot s.bot.join

/-- The tool's end, with the time since the last strand. -/
def destroy (s : ShadowStack) (strandTime : Nat) : ShadowStack := s.addStrand strandTime

def step (burden : Nat) (s : ShadowStack) : Hook → Option ShadowStack
  | .funcEntry maySpawn strandTime => some (s.funcEntry maySpawn strandTime)
  | .funcExit maySpawn strandTime => s.funcExit maySpawn strandTime
  | .detach strandTime => some (s.detach strandTime)
  | .task => some s.task
  | .taskExit strandTime => s.taskExit burden strandTime
  | .detachContinue isUnwind => some (s.detachContinue burden isUnwind)
  | .beforeSync strandTime => some (s.beforeSync strandTime)
  | .afterSync => some s.afterSync
  | .destroy strandTime => some (s.destroy strandTime)

/-- The tool's stack before the program starts, with the frame of `main`. -/
def initial : ShadowStack := ⟨{}, []⟩

def run (burden : Nat) (s : ShadowStack) (hooks : List Hook) : Option ShadowStack :=
  hooks.foldlM (step burden) s

/-! ## Views -/

/-- The view of a worker that stole a continuation. -/
def identity : ShadowStack := ⟨{}, []⟩

end ShadowStack

/-- `reduce` on the bottom frames. -/
def Frame.reduce (l r : Frame) : Frame where
  continWork := l.continWork + r.continWork
  achildWork := l.achildWork + r.achildWork
  lchildSpan :=
    if l.continSpan + r.lchildSpan > l.lchildSpan then l.continSpan + r.lchildSpan else l.lchildSpan
  continSpan := l.continSpan + r.continSpan
  lchildBspan :=
    if l.continBspan + r.lchildBspan > l.lchildBspan then l.continBspan + r.lchildBspan
      else l.lchildBspan
  continBspan := l.continBspan + r.continBspan

/-- The right view has one frame only. -/
def ShadowStack.reduce (l r : ShadowStack) : Option ShadowStack :=
  if r.frames = [] then some (l.setBot (l.bot.reduce r.bot)) else none

end Cilkscale
