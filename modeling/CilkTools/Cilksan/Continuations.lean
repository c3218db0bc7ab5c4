/-
The continuation states of the frames on the stack, and the table of reducer
views they select (`frame_data.h`, `cilksan_internal.h`, `reducers.cpp`).

The frames are in the array of `Stack_t`, whose elements are used again after
a pop. Their bags are left out, and so is what the tables hold: the operations
on a table are parameters.
-/
import CilkTools.Cilksan.Hooks
import CilkTools.Cilksan.ReduceViews
import CilkTools.Cilksan.Stack

namespace Cilksan

/-- `FrameData_t` with its reducer views; the fields for bags are not used. -/
structure ViewFrame (T : Type) extends FrameData where
  reducerViews : Option T := none

instance {T : Type} : Inhabited (ViewFrame T) := ⟨{}⟩

/-- The operations on tables of reducer views: a new one, the merge of a
frame's table with one on its right, and the reduction of a table into the
leftmost views, which may delete it. -/
structure ViewTables (T : Type) where
  new : T
  merge : Option T → T → Option (Option T)
  reduceLeftmost : T → Option (Option T)

/-- Those of `hyper_table`. -/
def hyperTables (hash : Key → Nat) : ViewTables (HyperTable ReducerBase) where
  new := .empty
  merge left right := (mergeTwoHyperTables hash left (some right)).map (·.table)
  reduceLeftmost t := (Cilksan.reduceLocalViews hash ⟨none, some t⟩).map (·.1.head)

/-- `FrameData_t::get_or_create_reducer_views`. -/
def ViewFrame.getOrCreateReducerViews {T : Type} (new : T) (f : ViewFrame T) : ViewFrame T :=
  { f with reducerViews := some (f.reducerViews.getD new) }

structure ViewStack (T : Type) where
  frameStack : Stack (ViewFrame T)
  startNewLoop : Bool := false

namespace ViewStack

variable {T : Type} (ops : ViewTables T)

/-- The frame at an index is changed. -/
def modifyAt (c : ViewStack T) (i : BitVec 32) (g : ViewFrame T → ViewFrame T) :
    Option (ViewStack T) := do
  let f ← c.frameStack.read i
  let frameStack ← c.frameStack.write i (g f)
  return { c with frameStack }

def modifyHead (c : ViewStack T) (g : ViewFrame T → ViewFrame T) : Option (ViewStack T) :=
  c.modifyAt c.frameStack.headPtr g

def startNewFunction (c : ViewStack T) : Option (ViewStack T) := do
  let c := { c with frameStack := c.frameStack.push }
  let parent ← c.frameStack.read (c.frameStack.ancestor 1#32)
  c.modifyHead fun child =>
    { child with parentContin := CilkSan.childParentContin parent.toFrameData }

/-- The views of the head are left as they are. -/
def exitFunction (c : ViewStack T) : Option (ViewStack T) := do
  let c ← c.modifyHead fun f => { f with inContin := 0, parentContin := 0 }
  return { c with frameStack := c.frameStack.pop }

def reduceLocalViews (c : ViewStack T) : Option (ViewStack T) := do
  let f ← c.frameStack.read c.frameStack.headPtr
  match f.reducerViews with
  | none => return c
  | some reducerViews =>
    if f.parentContin > 0 then
      let parent ← c.frameStack.read (c.frameStack.ancestor f.parentContin)
      let merged ← ops.merge parent.reducerViews reducerViews
      let c ← c.modifyAt (c.frameStack.ancestor f.parentContin) fun p =>
          { p with reducerViews := merged }
      c.modifyHead fun f => { f with reducerViews := none }
    else
      let left ← ops.reduceLeftmost reducerViews
      c.modifyHead fun f => { f with reducerViews := left }

/-! ## Callbacks -/

def doEnter (c : ViewStack T) : Option (ViewStack T) := do
  let c ← c.startNewFunction
  c.modifyHead fun f => { f with frameData := .SPAWNER_SHADOW_FRAME }

def doEnterHelper (c : ViewStack T) : Option (ViewStack T) := do
  let c ← c.startNewFunction
  c.modifyHead fun f => { f with frameData := .DETACHER_SHADOW_FRAME }

def doDetachContinue (c : ViewStack T) (syncReg : Nat) : Option (ViewStack T) := do
  let c ← c.reduceLocalViews ops
  c.modifyHead fun f => { f with toFrameData := f.enterContinuation syncReg }

def doSync (c : ViewStack T) (syncReg : Nat) : Option (ViewStack T) := do
  let c ← c.reduceLocalViews ops
  c.modifyHead fun f => { f with toFrameData := f.exitContinuation syncReg }

def doLoopBegin (c : ViewStack T) : ViewStack T := { c with startNewLoop := true }

def doLoopIterationBegin (c : ViewStack T) : Option (ViewStack T) := do
  if c.startNewLoop then
    let c ← c.doEnterHelper
    let c ← c.modifyHead fun func => { func with frameData := func.frameData.setLoopFrame }
    return { c with startNewLoop := false }
  else c.modifyHead fun f => { f with toFrameData := f.enterLoopContinuation }

def doLoopIterationEnd (c : ViewStack T) : Option (ViewStack T) := do
  let c ← c.reduceLocalViews ops
  c.modifyHead fun f => { f with toFrameData := f.exitLoopContinuation }

/-- There is a parent, whose bags get those of the child. -/
def doLeave (c : ViewStack T) : Option (ViewStack T) := do
  let _ ← c.frameStack.read (c.frameStack.ancestor 1#32)
  c.exitFunction

/-! ## Views -/

def stealable (c : ViewStack T) : Option Bool := do
  let f ← c.frameStack.read c.frameStack.headPtr
  return f.inContinuation || f.parentContin > 0

def getReducerViews (c : ViewStack T) : Option (Option T) := do
  let f ← c.frameStack.read c.frameStack.headPtr
  if f.inContinuation then return f.reducerViews
  else if f.parentContin = 0 then return none
  else
    let p ← c.frameStack.read (c.frameStack.ancestor f.parentContin)
    return p.reducerViews

/-- The table returned is that of the frame at the index returned. -/
def getOrCreateReducerViews (c : ViewStack T) : Option (BitVec 32 × ViewStack T) := do
  let f ← c.frameStack.read c.frameStack.headPtr
  let i := if f.inContinuation then c.frameStack.headPtr else c.frameStack.ancestor f.parentContin
  let c ← c.modifyAt i (·.getOrCreateReducerViews ops.new)
  return (i, c)

/-- The table selected is changed, as when a view is looked up or a reducer
registered. -/
def updateViews (c : ViewStack T) (g : T → T) : Option (ViewStack T) := do
  if ← c.stealable then
    let (i, c) ← c.getOrCreateReducerViews ops
    c.modifyAt i fun f => { f with reducerViews := f.reducerViews.map g }
  else return c

/-! ## Runs -/

inductive Hook (T : Type)
  | enter
  | enterHelper
  | leave
  | detachContinue (syncReg : Nat)
  | sync (syncReg : Nat)
  | loopBegin
  | loopIterationBegin
  | loopIterationEnd
  | loopEnd
  | views (g : T → T)

def step (c : ViewStack T) : Hook T → Option (ViewStack T)
  | .enter => c.doEnter
  | .enterHelper => c.doEnterHelper
  | .leave | .loopEnd => c.doLeave
  | .detachContinue syncReg => c.doDetachContinue ops syncReg
  | .sync syncReg => c.doSync ops syncReg
  | .loopBegin => some c.doLoopBegin
  | .loopIterationBegin => c.doLoopIterationBegin
  | .loopIterationEnd => c.doLoopIterationEnd ops
  | .views g => c.updateViews ops g

def init : ViewStack T := { frameStack := .init }

def run (c : ViewStack T) (hooks : List (Hook T)) : Option (ViewStack T) :=
  hooks.foldlM (step ops) c

/-! ## What the frames are in -/

/-- The regions of a frame that have been continued and not synced since, and
whether an iteration of its loop has. -/
structure Marks where
  regions : List Nat := []
  loop : Bool := false

/-- A region from 7 on has no bit. -/
def Marks.inContinuation (m : Marks) : Bool := m.loop || m.regions.any (· < 7)

/-- The marks of the frames, the head first, and whether a loop is beginning. -/
structure MarkStack where
  frames : List Marks := [{}]
  startNewLoop : Bool := false

def MarkStack.step (ms : MarkStack) : Hook T → MarkStack
  | .enter | .enterHelper => { ms with frames := {} :: ms.frames }
  | .leave | .loopEnd => { ms with frames := ms.frames.tail }
  | .detachContinue r =>
    { ms with frames := ms.frames.modifyHead fun m => { m with regions := r :: m.regions } }
  | .sync r =>
    { ms with
      frames := ms.frames.modifyHead fun m => { m with regions := m.regions.filter (· ≠ r) } }
  | .loopBegin => { ms with startNewLoop := true }
  | .loopIterationBegin =>
    if ms.startNewLoop then { frames := {} :: ms.frames, startNewLoop := false }
    else { ms with frames := ms.frames.modifyHead fun m => { m with loop := true } }
  | .loopIterationEnd =>
    { ms with frames := ms.frames.modifyHead fun m => { m with loop := false } }
  | .views _ => ms

def MarkStack.run (hooks : List (Hook T)) : MarkStack := hooks.foldl step {}

/-- The distance to the nearest of the frames that is in a continuation. -/
def distance (fs : List (ViewFrame T)) : Nat :=
  ((fs.findIdx? (·.inContinuation)).map (· + 1)).getD 0

/-- The frames `fs` on the stack, the head first, and what they select. -/
structure Selects (c : ViewStack T) (fs : List (ViewFrame T)) (ms : List Marks) : Prop where
  isList : c.frameStack.IsList fs.reverse
  marked : fs.map (·.inContinuation) = ms.map Marks.inContinuation
  parentContin : ∀ i f, fs[i]? = some f → f.parentContin.toNat = distance (fs.drop (i + 1))
  stealable : c.stealable = some (fs.any (·.inContinuation))
  views : ∀ k f, fs.findIdx? (·.inContinuation) = some k → fs[k]? = some f →
    c.getReducerViews = some f.reducerViews ∧
    ∃ i c', c.getOrCreateReducerViews ops = some (i, c') ∧ i.toNat = fs.length - 1 - k ∧
      c'.frameStack.IsList (fs.set k (f.getOrCreateReducerViews ops.new)).reverse
  noViews : fs.findIdx? (·.inContinuation) = none → c.getReducerViews = some none

/-! ### The bits -/

/-- The bits of a frame are its marks. -/
structure Bits (f : FrameData) (m : Marks) : Prop where
  loop : f.inContin.getLsbD 0 = m.loop
  region : ∀ r < 7, f.inContin.getLsbD (r + 1) = decide (r ∈ m.regions)

theorem getLsbD_two_shiftLeft (r : Nat) {k : Nat} (hk : k < 8) :
    ((2 : BitVec 8) <<< r).getLsbD k = decide (k = r + 1) := by
  rw [BitVec.getLsbD_shiftLeft, show (2 : BitVec 8) = BitVec.twoPow 8 1 from rfl,
    BitVec.getLsbD_twoPow]
  by_cases hkr : k = r + 1
  · subst hkr
    simp [hk]
  · simp only [hkr, decide_false]
    by_cases hlt : k < r
    · simp [hlt]
    · simp [show ¬ 1 = k - r by omega]

theorem inContin_enterContinuation (f : FrameData) (r : Nat) :
    (f.enterContinuation r).inContin = f.inContin ||| (2 : BitVec 8) <<< r :=
  congrArg (f.inContin ||| ·) (BitVec.eq_of_toNat_eq (by simp [Nat.shiftLeft_eq]))

namespace Bits

variable {f : FrameData} {m : Marks}

theorem of_zero (h : f.inContin = 0) : Bits f {} := ⟨by simp [h], by simp [h]⟩

theorem of_eq {g : FrameData} (h : Bits f m) (heq : g.inContin = f.inContin) : Bits g m :=
  ⟨by rw [heq, h.loop], by rw [heq]; exact h.region⟩

theorem inContinuation (h : Bits f m) : f.inContinuation = m.inContinuation := by
  rw [Bool.eq_iff_iff]
  simp only [FrameData.inContinuation, Marks.inContinuation, decide_eq_true_eq, Bool.or_eq_true,
    List.any_eq_true]
  constructor
  · intro hne
    by_contra hno
    obtain ⟨hloop, hregions⟩ := not_or.1 hno
    refine hne (BitVec.eq_of_getLsbD_eq fun i hi => ?_)
    cases i with
    | zero => rw [h.loop, Bool.eq_false_iff.2 hloop]; rfl
    | succ r =>
      rw [h.region r (by omega), decide_eq_false fun hr => hregions ⟨r, hr, by omega⟩]
      simp
  · intro hm h0
    rcases hm with hloop | ⟨r, hr, hr7⟩
    · have := h.loop
      simp [h0, hloop] at this
    · have := h.region r hr7
      simp [h0, hr] at this

theorem enterContinuation (h : Bits f m) (r : Nat) :
    Bits (f.enterContinuation r) { m with regions := r :: m.regions } where
  loop := by
    rw [inContin_enterContinuation, BitVec.getLsbD_or, getLsbD_two_shiftLeft r (by omega), h.loop]
    simp
  region k hk := by
    rw [inContin_enterContinuation, BitVec.getLsbD_or, getLsbD_two_shiftLeft r (by omega),
      h.region k hk]
    simp [Bool.or_comm]

theorem exitContinuation (h : Bits f m) (r : Nat) :
    Bits (f.exitContinuation r) { m with regions := m.regions.filter (· ≠ r) } where
  loop := by
    rw [FrameData.exitContinuation, BitVec.getLsbD_and, BitVec.getLsbD_not,
      getLsbD_two_shiftLeft r (by omega), h.loop]
    simp
  region k hk := by
    rw [FrameData.exitContinuation, BitVec.getLsbD_and, BitVec.getLsbD_not,
      getLsbD_two_shiftLeft r (by omega), h.region k hk]
    simp [show k + 1 < 8 by omega]

theorem enterLoopContinuation (h : Bits f m) :
    Bits f.enterLoopContinuation { m with loop := true } where
  loop := by simp [FrameData.enterLoopContinuation]
  region k hk := by
    rw [← h.region k hk, FrameData.enterLoopContinuation, BitVec.getLsbD_or]
    simp [BitVec.getLsbD_one]

theorem exitLoopContinuation (h : Bits f m) :
    Bits f.exitLoopContinuation { m with loop := false } where
  loop := by simp [FrameData.exitLoopContinuation]
  region k hk := by
    rw [← h.region k hk, FrameData.exitLoopContinuation, BitVec.getLsbD_and, BitVec.getLsbD_not]
    simp [show k + 1 < 8 by omega]

end Bits

/-! ### The distances -/

/-- Each frame's parent continuation is the distance to it. -/
def Distances : List (ViewFrame T) → Prop
  | [] => True
  | f :: fs => f.parentContin.toNat = distance fs ∧ Distances fs

theorem distance_cons (f : ViewFrame T) (fs : List (ViewFrame T)) :
    distance (f :: fs) = if f.inContinuation then 1 else if distance fs = 0 then 0
    else distance fs + 1 := by
  unfold distance
  rw [List.findIdx?_cons]
  split
  · rfl
  · cases fs.findIdx? (·.inContinuation) <;> simp

theorem distance_le (fs : List (ViewFrame T)) : distance fs ≤ fs.length := by
  induction fs with
  | nil => exact Nat.le_refl 0
  | cons f fs ih =>
    rw [distance_cons, List.length_cons]
    split
    · omega
    · split <;> omega

theorem distance_congr {fs gs : List (ViewFrame T)}
    (h : fs.map (·.toFrameData) = gs.map (·.toFrameData)) : distance fs = distance gs := by
  have hfind : ∀ xs : List (ViewFrame T),
      xs.findIdx? (·.inContinuation) = (xs.map (·.toFrameData)).findIdx? (·.inContinuation) := by
    intro xs
    rw [List.findIdx?_map]
    rfl
  rw [distance, distance, hfind fs, hfind gs, h]

namespace Distances

theorem congr {fs gs : List (ViewFrame T)} (h : fs.map (·.toFrameData) = gs.map (·.toFrameData))
    (hd : Distances fs) : Distances gs := by
  induction fs generalizing gs with
  | nil =>
    rw [List.map_eq_nil_iff.1 h.symm]
    trivial
  | cons f fs ih =>
    cases gs with
    | nil => cases h
    | cons g gs =>
      obtain ⟨hfg, hrest⟩ := List.cons.inj h
      have hparent : f.parentContin = g.parentContin := congrArg FrameData.parentContin hfg
      exact ⟨by rw [← hparent, hd.1, distance_congr hrest], ih hrest hd.2⟩

theorem get {fs : List (ViewFrame T)} (hd : Distances fs) :
    ∀ {i : Nat} {f : ViewFrame T}, fs[i]? = some f →
    f.parentContin.toNat = distance (fs.drop (i + 1)) := by
  induction fs with
  | nil => exact fun h => by cases h
  | cons g fs ih =>
    intro i f h
    cases i with
    | zero =>
      cases h
      exact hd.1
    | succ i => exact ih hd.2 h

/-- What a child inherits is its distance. -/
theorem childParentContin {g : ViewFrame T} {fs : List (ViewFrame T)} (hd : Distances (g :: fs))
    (hlen : fs.length < 2 ^ 31) :
    (CilkSan.childParentContin g.toFrameData).toNat = distance (g :: fs) := by
  have hle := distance_le fs
  have hg := hd.1
  rw [distance_cons, CilkSan.childParentContin]
  split
  · rfl
  · split
    · next hpos =>
      have : 0 < g.parentContin.toNat := hpos
      rw [if_neg (by omega), BitVec.toNat_add]
      simp
      omega
    · next hzero =>
      have : ¬ 0 < g.parentContin.toNat := hzero
      rw [if_pos (by omega)]
      rfl

end Distances

/-- The frames on the stack are `fs`, the head first, and those above the head
are in no continuation. -/
structure Held (c : ViewStack T) (fs : List (ViewFrame T)) : Prop where
  live : c.frameStack.Live fs.reverse
  unused : ∀ i, c.frameStack.head.toNat < i → (c.frameStack.stack i).inContin = 0

namespace Held

variable {c c' : ViewStack T} {f g : ViewFrame T} {fs : List (ViewFrame T)}

theorem length_le (h : Held c fs) : fs.length ≤ 2 ^ 31 := by
  have hlen := h.live.length
  have := h.live.lt
  have := h.live.capacity_le.1
  rw [List.length_reverse] at hlen
  omega

theorem read_head (h : Held c (f :: fs)) : c.frameStack.read c.frameStack.headPtr = some f :=
  h.live.read_ancestor (i := 0#32) (Nat.succ_pos _)

theorem read_ancestor (h : Held c fs) {i : BitVec 32} (hi : fs[i.toNat]? = some f) :
    c.frameStack.read (c.frameStack.ancestor i) = some f := by
  rw [h.live.read_ancestor (List.getElem?_eq_some_iff.1 hi).1, hi]

/-- One frame is changed, and no other. -/
theorem modifyAt (h : Held c fs) {i : BitVec 32} (hi : fs[i.toNat]? = some f)
    (t : ViewFrame T → ViewFrame T) :
    ∃ s, c.modifyAt (c.frameStack.ancestor i) t = some { c with frameStack := s } ∧
      Held { c with frameStack := s } (fs.set i.toNat (t f)) ∧ s.head = c.frameStack.head := by
  obtain ⟨s, hs, hlive, hhead, hsame⟩ :=
    h.live.write_ancestor (List.getElem?_eq_some_iff.1 hi).1 (t f)
  refine ⟨s, ?_, ⟨hlive, fun j hj => ?_⟩, hhead⟩
  · simp only [ViewStack.modifyAt, h.read_ancestor hi, hs, Option.bind_eq_bind, Option.bind_some]
    rfl
  · simp only [hhead] at hj
    simp only [hsame j hj, h.unused j hj]

theorem modifyHead (h : Held c (f :: fs)) (t : ViewFrame T → ViewFrame T) :
    ∃ s, c.modifyHead t = some { c with frameStack := s } ∧
    Held { c with frameStack := s } (t f :: fs) := by
  obtain ⟨s, hs, hheld, -⟩ := h.modifyAt (i := 0#32) (f := f) rfl t
  exact ⟨s, hs, hheld⟩

/-- An element pushed was not in use: it is in no continuation. -/
theorem push (h : Held c fs) (hlen : fs.length < 2 ^ 31) :
    ∃ f : ViewFrame T, f.inContin = 0 ∧
    Held { c with frameStack := c.frameStack.push } (f :: fs) := by
  obtain ⟨f, hlive⟩ := h.live.push (by simpa using hlen)
  have hhead : c.frameStack.push.head.toNat = c.frameStack.head.toNat + 1 := by
    have := hlive.length
    have := h.live.length
    rw [List.length_append, List.length_singleton] at *
    omega
  have hunused : ∀ i, c.frameStack.head.toNat < i →
      (c.frameStack.push.stack i).inContin = 0 := fun i hi => by
    rcases Stack.push_stack_or c.frameStack i with heq | heq
    · rw [heq, h.unused i hi]
    · rw [heq]
      rfl
  refine ⟨f, ?_, by rwa [List.reverse_cons],
    fun i hi => hunused i (by simp only [hhead] at hi; omega)⟩
  have hlast := hlive.elem fs.reverse.length (by simp)
  rw [List.getElem?_concat_length] at hlast
  cases hlast
  exact hunused _ (by rw [h.live.length]; omega)

theorem pop (h : Held c (f :: g :: fs)) (hf : f.inContin = 0) :
    Held { c with frameStack := c.frameStack.pop } (g :: fs) := by
  have hlive := h.live.pop (by simp)
  rw [List.reverse_cons, List.dropLast_concat] at hlive
  refine ⟨hlive, fun i hi => ?_⟩
  have hhead : c.frameStack.pop.head.toNat + 1 = c.frameStack.head.toNat := by
    have h₁ := hlive.length
    have h₂ := h.live.length
    simp only [List.length_reverse, List.length_cons] at h₁ h₂
    omega
  rcases Stack.pop_stack_or c.frameStack i with heq | heq
  · rw [heq]
    by_cases hlast : i = c.frameStack.head.toNat
    · have helem := h.live.elem i (by rw [h.live.length]; omega)
      have hlen := h.live.length
      rw [List.reverse_cons, List.length_append, List.length_singleton] at hlen
      rw [List.reverse_cons, show i = (g :: fs).reverse.length by omega,
        List.getElem?_concat_length] at helem
      cases helem
      rw [show i = (g :: fs).reverse.length by omega, hf]
    · exact h.unused i (by simp only at hi; omega)
  · rw [heq]
    rfl

end Held

/-- The frames on the stack, their distances and their marks. -/
structure Traced (c : ViewStack T) (fs : List (ViewFrame T)) (ms : MarkStack) :
    Prop extends Held c fs where
  distances : Distances fs
  bits : List.Forall₂ (fun f m => Bits f.toFrameData m) fs ms.frames
  newLoop : c.startNewLoop = ms.startNewLoop

namespace Traced

variable {c c' : ViewStack T} {f g : ViewFrame T} {fs : List (ViewFrame T)} {ms : MarkStack}

theorem exists_cons (h : Traced c fs ms) : ∃ f rest, fs = f :: rest :=
  List.exists_cons_of_ne_nil fun hnil => h.live.ne_nil (by rw [hnil]; rfl)

theorem exists_marks (h : Traced c (f :: fs) ms) :
    ∃ m rest, ms.frames = m :: rest ∧ Bits f.toFrameData m ∧
    List.Forall₂ (fun f m => Bits f.toFrameData m) fs rest := by
  obtain ⟨m, rest, hb, hrest, hms⟩ := List.forall₂_cons_left_iff.1 h.bits
  exact ⟨m, rest, hms, hb, hrest⟩

/-- The head is changed. No distance depends on it. -/
theorem modifyHead (h : Traced c (f :: fs) ms) {t : ViewFrame T → ViewFrame T} {m : Marks}
    (hp : (t f).parentContin = f.parentContin) (hb : Bits (t f).toFrameData m)
    (he : c.modifyHead t = some c') :
    Traced c' (t f :: fs) { ms with frames := m :: ms.frames.tail } := by
  obtain ⟨s, hs, hheld⟩ := h.toHeld.modifyHead t
  rw [hs] at he
  cases he
  obtain ⟨m₀, rest, hms, -, hrest⟩ := h.exists_marks
  exact ⟨hheld, ⟨by rw [hp]; exact h.distances.1, h.distances.2⟩,
    .cons hb (by rwa [hms]), h.newLoop⟩

/-- The views of a frame are changed. -/
theorem setViews (h : Traced c fs ms) {i : BitVec 32} (hi : fs[i.toNat]? = some f)
    {t : ViewFrame T → ViewFrame T} (ht : (t f).toFrameData = f.toFrameData) :
    ∃ s, c.modifyAt (c.frameStack.ancestor i) t = some { c with frameStack := s } ∧
      Traced { c with frameStack := s } (fs.set i.toNat (t f)) ms ∧ s.head = c.frameStack.head := by
  obtain ⟨s, hs, hheld, hhead⟩ := h.toHeld.modifyAt hi t
  have hsame : (fs.set i.toNat (t f)).map (·.toFrameData) = fs.map (·.toFrameData) := by
    refine List.ext_getElem? fun j => ?_
    rw [List.map_set, ht, List.getElem?_set]
    split
    · next hij =>
      obtain ⟨hlt, -⟩ := List.getElem?_eq_some_iff.1 hi
      rw [if_pos (by simpa using hlt), ← hij, List.getElem?_map, hi]
      rfl
    · rfl
  refine ⟨s, hs, ⟨hheld, h.distances.congr hsame.symm, ?_, h.newLoop⟩, hhead⟩
  have hbits : List.Forall₂ Bits (fs.map (·.toFrameData)) ms.frames :=
    List.forall₂_map_left_iff.2 h.bits
  rw [← hsame] at hbits
  exact List.forall₂_map_left_iff.1 hbits

/-- The frame of the parent continuation, or the head if there is none. -/
theorem exists_parent (h : Traced c (f :: fs) ms) :
    ∃ p, (f :: fs)[f.parentContin.toNat]? = some p := by
  have hle := distance_le fs
  have hf := h.distances.1
  exact ⟨_, List.getElem?_eq_getElem (by rw [hf, List.length_cons]; omega)⟩

theorem reduceLocalViews (h : Traced c (f :: fs) ms) (he : c.reduceLocalViews ops = some c') :
    ∃ f' fs', f'.toFrameData = f.toFrameData ∧ Traced c' (f' :: fs') ms := by
  simp only [ViewStack.reduceLocalViews, h.read_head, Option.bind_eq_bind, Option.bind_some] at he
  split at he
  · cases he
    exact ⟨f, fs, rfl, h⟩
  · have hhead : ∀ {c₁ : ViewStack T} {f₁ : ViewFrame T} {fs₁ : List (ViewFrame T)} {v : Option T},
        Traced c₁ (f₁ :: fs₁) ms → f₁.toFrameData = f.toFrameData →
        c₁.modifyHead (fun f => { f with reducerViews := v }) = some c' →
        ∃ f' fs', f'.toFrameData = f.toFrameData ∧
        Traced c' (f' :: fs') ms := fun {c₁ f₁ fs₁ v} h₁ hf₁ he₁ => by
      obtain ⟨s, hs, ht, -⟩ :=
        h₁.setViews (i := 0#32) (f := f₁) rfl (t := fun f => { f with reducerViews := v }) rfl
      rw [show c₁.frameStack.ancestor 0#32 = c₁.frameStack.headPtr from rfl,
        ← ViewStack.modifyHead, he₁] at hs
      cases hs
      exact ⟨{ f₁ with reducerViews := v }, fs₁, hf₁, ht⟩
    split at he
    · next hpos =>
      obtain ⟨p, hp⟩ := h.exists_parent
      simp only [h.read_ancestor hp, Option.bind_some, Option.bind_eq_some_iff] at he
      obtain ⟨merged, -, c₁, hc₁, he⟩ := he
      obtain ⟨s, hs, ht, -⟩ := h.setViews hp (t := fun p => { p with reducerViews := merged }) rfl
      rw [hs] at hc₁
      cases hc₁
      have hpos : 0 < f.parentContin.toNat := hpos
      obtain ⟨k, hk⟩ := Nat.exists_eq_succ_of_ne_zero (Nat.ne_of_gt hpos)
      rw [hk, List.set_cons_succ] at ht
      exact hhead ht rfl he
    · rw [Option.bind_eq_some_iff] at he
      obtain ⟨left, -, he⟩ := he
      exact hhead h rfl he

theorem startNewFunction (h : Traced c fs ms) (he : c.startNewFunction = some c') :
    ∃ f, Traced c' (f :: fs) { ms with frames := {} :: ms.frames } := by
  obtain ⟨g, rest, hfs⟩ := h.exists_cons
  have hlt : fs.length < 2 ^ 31 := by
    by_contra hge
    have hfull := h.live.push_full (by have := h.length_le; simp; omega)
    have hnone : ∀ i, c.frameStack.push.read i = none := fun i => by
      rw [Stack.read, hfull]
      exact if_neg (by simp)
    simp only [ViewStack.startNewFunction, hnone, Option.bind_eq_bind, Option.bind_none] at he
    cases he
  obtain ⟨f, hf, hheld⟩ := h.push hlt
  have hparent := hheld.read_ancestor (i := 1#32) (f := g) (by rw [hfs]; rfl)
  simp only [ViewStack.startNewFunction, hparent, Option.bind_eq_bind, Option.bind_some] at he
  obtain ⟨s, hs, hheld'⟩ := hheld.modifyHead fun child =>
    { child with parentContin := CilkSan.childParentContin g.toFrameData }
  rw [hs] at he
  cases he
  refine ⟨_, hheld', ⟨?_, h.distances⟩, .cons (.of_zero hf) h.bits, h.newLoop⟩
  subst hfs
  exact h.distances.childParentContin (by simp at hlt; omega)

theorem doLeave (h : Traced c fs ms) (he : c.doLeave = some c') :
    Traced c' fs.tail { ms with frames := ms.frames.tail } := by
  obtain ⟨f, rest, rfl⟩ := h.exists_cons
  obtain ⟨m, rest', hms, -, hrest⟩ := h.exists_marks
  cases rest with
  | nil =>
    have hzero : c.frameStack.head.toNat = 0 := by simpa using h.live.length
    have hcap := h.live.capacity_le.1
    have hout : c.frameStack.read (c.frameStack.ancestor 1#32) = none :=
      if_neg (by rw [Stack.ancestor, BitVec.lt_def, BitVec.toNat_sub, hzero]; simp; omega)
    simp only [ViewStack.doLeave, hout, Option.bind_eq_bind, Option.bind_none] at he
    cases he
  | cons g fs =>
    obtain ⟨s, hs, hheld⟩ :=
      h.toHeld.modifyHead fun f => { f with inContin := 0, parentContin := 0 }
    simp only [ViewStack.doLeave, h.read_ancestor (i := 1#32) (f := g) rfl, ViewStack.exitFunction,
      hs, Option.bind_eq_bind, Option.bind_some] at he
    cases he
    exact ⟨hheld.pop rfl, h.distances.2, by rwa [hms], h.newLoop⟩

/-- A frame is pushed, and its type is set. -/
theorem enter (h : Traced c fs ms) {type : EntryFrameType}
    (he : (c.startNewFunction.bind fun c => c.modifyHead fun f => { f with frameData := type }) =
      some c') :
    ∃ f, Traced c' (f :: fs) { ms with frames := {} :: ms.frames } := by
  obtain ⟨c₁, hc₁, he⟩ := Option.bind_eq_some_iff.1 he
  obtain ⟨f, h₁⟩ := h.startNewFunction hc₁
  obtain ⟨m, rest, hms, hb, -⟩ := h₁.exists_marks
  cases hms
  exact ⟨_, h₁.modifyHead rfl (hb.of_eq rfl) he⟩

/-- The head is changed after its views have been reduced. -/
theorem afterReduce (h : Traced c fs ms) {t : ViewFrame T → ViewFrame T} {n : Marks → Marks}
    (he : ((c.reduceLocalViews ops).bind fun c => c.modifyHead t) = some c')
    (hp : ∀ f, (t f).parentContin = f.parentContin)
    (hb : ∀ f m, Bits f.toFrameData m → Bits (t f).toFrameData (n m)) :
    ∃ fs', Traced c' fs' { ms with frames := ms.frames.modifyHead n } := by
  obtain ⟨f, rest, rfl⟩ := h.exists_cons
  obtain ⟨c₁, hc₁, he⟩ := Option.bind_eq_some_iff.1 he
  obtain ⟨f', fs', -, h₁⟩ := h.reduceLocalViews ops hc₁
  obtain ⟨m, rest', hms, hbits, -⟩ := h₁.exists_marks
  have := h₁.modifyHead (hp f') (hb f' m hbits) he
  rw [hms] at this ⊢
  exact ⟨_, this⟩

/-- How far down the frame is whose views are selected. -/
theorem selected (h : Traced c (f :: fs) ms) :
    (if f.inContinuation then 0#32 else f.parentContin).toNat =
    ((f :: fs).findIdx? (·.inContinuation)).getD 0 := by
  rw [List.findIdx?_cons]
  split
  · rfl
  · rw [h.distances.1, distance]

/-- The table selected is there, once it has been asked for. -/
theorem getOrCreateReducerViews (h : Traced c (f :: fs) ms) :
    ∃ i k p s, i = c.frameStack.ancestor k ∧
    k.toNat = ((f :: fs).findIdx? (·.inContinuation)).getD 0 ∧ (f :: fs)[k.toNat]? = some p ∧
    c.getOrCreateReducerViews ops = some (i, { c with frameStack := s }) ∧
    Traced { c with frameStack := s }
    ((f :: fs).set k.toNat (p.getOrCreateReducerViews ops.new)) ms ∧
    s.head = c.frameStack.head := by
  have hsel := h.selected
  have hp :
      ∃ p, (f :: fs)[(if f.inContinuation then 0#32 else f.parentContin).toNat]? = some p := by
    split
    · exact ⟨f, rfl⟩
    · exact h.exists_parent
  obtain ⟨p, hp⟩ := hp
  obtain ⟨s, hs, ht, hhead⟩ := h.setViews hp (t := (·.getOrCreateReducerViews ops.new)) rfl
  refine ⟨_, _, p, s, rfl, hsel, hp, ?_, ht, hhead⟩
  have hi :
      (if f.inContinuation then c.frameStack.headPtr else c.frameStack.ancestor f.parentContin) =
      c.frameStack.ancestor (if f.inContinuation then 0#32 else f.parentContin) := by
    split <;> rfl
  simp only [ViewStack.getOrCreateReducerViews, h.read_head, hi, hs, Option.bind_eq_bind,
    Option.bind_some]
  rfl

theorem updateViews (h : Traced c fs ms) {t : T → T} (he : c.updateViews ops t = some c') :
    ∃ fs', Traced c' fs' ms := by
  obtain ⟨f, rest, rfl⟩ := h.exists_cons
  simp only [ViewStack.updateViews, ViewStack.stealable, h.read_head, Option.bind_eq_bind,
    Option.bind_some, Option.pure_def] at he
  split at he
  · obtain ⟨i, k, p, s, rfl, -, hp, hs, ht, hhead⟩ := h.getOrCreateReducerViews ops
    have hlt := (List.getElem?_eq_some_iff.1 hp).1
    obtain ⟨s', hs', ht', -⟩ := ht.setViews (i := k) (f := p.getOrCreateReducerViews ops.new)
      (by rw [List.getElem?_set_self hlt])
      (t := fun f => { f with reducerViews := f.reducerViews.map t }) rfl
    have hi :
        s.ancestor k = c.frameStack.ancestor k := by rw [Stack.ancestor, hhead, Stack.ancestor]
    rw [hi] at hs'
    rw [hs, Option.bind_some, hs'] at he
    cases he
    exact ⟨_, ht'⟩
  · cases he
    exact ⟨_, h⟩

theorem step (h : Traced c fs ms) (hook : Hook T) (he : c.step ops hook = some c') :
    ∃ fs', Traced c' fs' (ms.step hook) := by
  cases hook with
  | enter | enterHelper =>
    obtain ⟨f, h'⟩ := h.enter he
    exact ⟨_, h'⟩
  | leave | loopEnd => exact ⟨_, h.doLeave he⟩
  | detachContinue r =>
    exact h.afterReduce ops he (fun _ => rfl) fun _ _ hb => hb.enterContinuation r
  | sync r => exact h.afterReduce ops he (fun _ => rfl) fun _ _ hb => hb.exitContinuation r
  | loopBegin =>
    cases he
    exact ⟨fs, ⟨h.live, h.unused⟩, h.distances, h.bits, rfl⟩
  | loopIterationBegin =>
    have hloop := h.newLoop
    simp only [ViewStack.step, ViewStack.doLoopIterationBegin, hloop] at he
    simp only [MarkStack.step]
    split at he
    · next hnew =>
      rw [if_pos hnew]
      simp only [Option.bind_eq_bind, Option.bind_eq_some_iff] at he
      obtain ⟨c₁, hc₁, c₂, hc₂, he⟩ := he
      obtain ⟨f, h₁⟩ := h.enter hc₁
      obtain ⟨m, rest, hms, hb, -⟩ := h₁.exists_marks
      cases hms
      have h₂ := h₁.modifyHead rfl (hb.of_eq rfl) hc₂
      cases he
      exact ⟨_, ⟨h₂.live, h₂.unused⟩, h₂.distances, h₂.bits, rfl⟩
    · next hold =>
      rw [if_neg hold]
      obtain ⟨f, rest, rfl⟩ := h.exists_cons
      obtain ⟨m, rest', hms, hb, -⟩ := h.exists_marks
      have h' := h.modifyHead rfl hb.enterLoopContinuation he
      rw [hms] at h' ⊢
      exact ⟨_, h'⟩
  | loopIterationEnd =>
    exact h.afterReduce ops he (fun _ => rfl) fun _ _ hb => hb.exitLoopContinuation
  | views t => exact h.updateViews ops he

theorem marked (h : Traced c fs ms) :
    fs.map (·.inContinuation) = ms.frames.map Marks.inContinuation := by
  have hbits := h.bits
  clear h
  generalize ms.frames = l at hbits
  induction hbits with
  | nil => rfl
  | cons hb _ ih => rw [List.map_cons, List.map_cons, ih, hb.inContinuation]

theorem selects (h : Traced c fs ms) : Selects ops c fs ms.frames := by
  obtain ⟨f, rest, rfl⟩ := h.exists_cons
  have hdist : f.parentContin.toNat = distance rest := h.distances.1
  have hzero : f.parentContin = 0 ↔ rest.findIdx? (·.inContinuation) = none := by
    rw [← BitVec.toNat_inj, hdist, distance]
    cases rest.findIdx? (·.inContinuation) <;> simp
  refine ⟨h.live.isList, h.marked, fun i g => h.distances.get, ?_, fun k g hk hg => ⟨?_, ?_⟩,
    fun hnone => ?_⟩
  · have hpos : decide (f.parentContin > 0) = rest.any (·.inContinuation) := by
      have hpos' : f.parentContin > 0 ↔ f.parentContin ≠ 0 := by
        rw [gt_iff_lt, BitVec.lt_def, Ne, ← BitVec.toNat_inj]
        exact Nat.pos_iff_ne_zero
      rw [← List.findIdx?_isSome, Bool.eq_iff_iff, decide_eq_true_iff, Option.isSome_iff_ne_none,
        hpos', Ne, Ne, hzero]
    simp only [ViewStack.stealable, h.read_head, Option.bind_eq_bind, Option.bind_some,
      Option.pure_def, List.any_cons, hpos]
  · simp only [ViewStack.getReducerViews, h.read_head, Option.bind_eq_bind, Option.bind_some]
    rw [List.findIdx?_cons] at hk
    split at hk
    · next hin =>
      cases hk
      cases hg
      rw [if_pos hin]
      rfl
    · next hout =>
      obtain ⟨j, hj, rfl⟩ := Option.map_eq_some_iff.1 hk
      have hne : f.parentContin ≠ 0 := fun h0 => by
        rw [hzero.1 h0] at hj
        cases hj
      have hdistance : f.parentContin.toNat = j + 1 := by
        rw [hdist, distance, hj]
        rfl
      rw [if_neg hout, if_neg hne, h.read_ancestor (f := g) (by rw [hdistance, hg])]
      rfl
  · obtain ⟨i, n, p, s, rfl, hn, hp, hs, ht, -⟩ := h.getOrCreateReducerViews ops
    rw [hk, Option.getD_some] at hn
    rw [hn, hg] at hp
    cases hp
    rw [hn] at ht
    have hlt := (List.getElem?_eq_some_iff.1 hg).1
    exact ⟨_, _, hs,
      by rw [h.live.toNat_ancestor (by simpa [hn] using hlt), List.length_reverse, hn],
      ht.live.isList⟩
  · simp only [ViewStack.getReducerViews, h.read_head, Option.bind_eq_bind, Option.bind_some]
    rw [List.findIdx?_cons] at hnone
    split at hnone
    · cases hnone
    · next hout =>
      rw [if_neg hout, if_pos (hzero.2 (Option.map_eq_none_iff.1 hnone))]
      rfl

end Traced

theorem Traced.init : Traced (init : ViewStack T) [default] {} where
  live := Stack.Live.init
  unused _ _ := rfl
  distances := ⟨rfl, trivial⟩
  bits := .cons (.of_zero rfl) .nil
  newLoop := rfl

theorem Traced.run {c : ViewStack T} {fs : List (ViewFrame T)} {ms : MarkStack} (h : Traced c fs ms)
    (hooks : List (Hook T))
    {c' : ViewStack T} (he : c.run ops hooks = some c') :
    ∃ fs', Traced c' fs' (hooks.foldl MarkStack.step ms) := by
  induction hooks generalizing c fs ms with
  | nil =>
    cases he
    exact ⟨fs, h⟩
  | cons hook hooks ih =>
    rw [ViewStack.run, List.foldlM_cons, Option.bind_eq_bind, Option.bind_eq_some_iff] at he
    obtain ⟨c₁, hc₁, he⟩ := he
    obtain ⟨fs₁, h₁⟩ := h.step ops hook hc₁
    exact ih h₁ he

/-- **Parent continuations.** Wherever the hooks lead, each frame's
`ParentContin` is the distance to the nearest frame below it that is in a
continuation, and the views selected are those of the nearest frame, the head
among them.

The hooks need not be nested, as long as no access leaves the array of frames
and none leaves the first frame. -/
theorem run_selects (hooks : List (Hook T)) {c : ViewStack T} (h : init.run ops hooks = some c) :
    ∃ fs, Selects ops c fs (MarkStack.run hooks).frames := by
  obtain ⟨fs, ht⟩ := Traced.init.run ops hooks h
  exact ⟨fs, ht.selects ops⟩

/-- A task of a task's continuation, after a call in between. -/
theorem run_selects_nested : ∃ c fs, init.run (hyperTables HyperTable.hash)
      [.enter, .enterHelper, .leave, .detachContinue 2, .enter, .enterHelper] = some c ∧
    Selects (hyperTables HyperTable.hash) c fs [{}, {}, { regions := [2] }, {}] := by
  obtain ⟨fs, h⟩ := run_selects (hyperTables HyperTable.hash)
    [.enter, .enterHelper, .leave, .detachContinue 2, .enter, .enterHelper] rfl
  exact ⟨_, fs, rfl, h⟩

end ViewStack

end Cilksan
