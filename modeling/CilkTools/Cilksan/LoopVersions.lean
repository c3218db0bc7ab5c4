/-
Runs of parallel loops with the shadow memory: what a loop's body finds of the
accesses it has made itself, and the versions of the entries it stores.

A version has 16 bits, and `MemoryAccess_t::set` gives an entry the current one
only if the node changes.
-/
import CilkTools.Cilksan.LockedRuns
import CilkTools.Cilksan.LoopBags

namespace Cilksan

open UpdateIterator (Swallowed Replaced)

/-! ## The system -/

/-- The current frame as the shadow memory sees it. -/
def CilkSan.strand (c : CilkSan) : Option Strand := do
  let f ← c.frames.head?
  let (b, _) ← f.getSbagForAccess
  let x ← c.bags.bag b
  let func ← x.ds
  return {
    func
    version := x.version
    inParallel :=
      fun func version => (previousAccessInParallel { func, version, accId := 0 } f c.bags).1 }

namespace LockedOp

def accId : LockedOp → Nat
  | locked _ _ _ accId _ | plain _ _ _ _ accId => accId
  | clear .. => 0

/-- An access that the occupancy filter does not drop. -/
def passes (m : SimpleShadowMem) : LockedOp → Bool
  | locked isRead addr memSize .. => memSize ≠ 0 && (m.setOccupied isRead addr memSize).1
  | plain isRead addr memSize alignment _ =>
    memSize ≠ 0 &&
      (SimpleShadowMem.takesFastPath memSize alignment || (m.setOccupied isRead addr memSize).1)
  | clear .. => false

/-- The update asks the frame for its bag. On the fast path it does not when
the line has the width of the access and the entry is parallel. -/
def asksForBag (f : Strand) (m : SimpleShadowMem) (op : LockedOp) : Bool :=
  op.passes m && match op with
    | plain isRead addr memSize alignment _ =>
      !SimpleShadowMem.takesFastPath memSize alignment ||
        let d := (m.dictionary isRead).allocatePage (page addr)
        let line := SimpleShadowMem.lineMustExist d.table addr memSize
        2 ^ line.lgGrainsize ≠ memSize ||
          inSeries f.previousAccessInParallel (line.entry (line.getIdx (byte addr)))
    | _ => true

end LockedOp

/-- The tool and its shadow memory, with what is open and the loops as far as
they have come. -/
structure LoopState where
  nesting : Nesting := {}
  tool : CilkSan := .init
  loops : List LoopProgress := []
  shadow : SimpleShadowMem := {}

/-- The bits of the occupancy filter are cleared where a strand ends. -/
inductive LoopEvent
  | hook (h : Hook)
  | op (op : LockedOp)
  | clearOccupied
  deriving DecidableEq, Repr

namespace LoopState

variable (intersect : LockSet → LockSet → IntersectionResult)

def hook (s : LoopState) (h : Hook) : Option LoopState := do
  let nesting ← s.nesting.step h
  let tool ← s.tool.step h
  return { s with nesting, tool, loops := trackLoops s.nesting tool s.loops h }

/-- What an operation on the shadow memory does, and that the frame's bag is in use if it is asked
for. -/
def op (s : LoopState) (op : LockedOp) : Option LoopState := do
  let f ← s.tool.strand
  let s' := { s with shadow := op.run f intersect s.shadow }
  if op.asksForBag f s.shadow then s'.hook (.access op.accId) else some s'

def step (s : LoopState) : LoopEvent → Option LoopState
  | .hook h => s.hook h
  | .op op => s.op intersect op
  | .clearOccupied => some { s with shadow := s.shadow.clearOccupied }

def run (s : LoopState) (events : List LoopEvent) : Option LoopState :=
  events.foldlM (step intersect) s

/-! ## What is claimed -/

/-- In the body of a loop, of the accesses that it has made itself those of
earlier iterations are parallel, and those of this iteration in series. -/
def JudgesDirect (s : LoopState) : Prop :=
  s.nesting.inLoop = true → ∃ l f, s.loops.head? = some l ∧ s.tool.strand = some f ∧
    ∀ m j, (m, j) ∈ l.accesses → j ≤ l.iter ∧ f.previousAccessInParallel m = decide (j < l.iter)

end LoopState

/-- An access `x` of a range: the entries in series are replaced by it, if it is
not dropped, and no other value is stored. -/
structure Stores (f : Strand) (x : MemoryAccess) (passes isRead : Bool) (p n : Nat)
    (m m' : SimpleShadowMem) : Prop where
  stored : passes = true → ∀ b, p ≤ b → b < p + n →
    inSeries f.previousAccessInParallel ((m.dictionary isRead).table.get b) = true →
    (m'.dictionary isRead).table.get b = some x
  other : ∀ dict b, (m'.dictionary dict).table.get b = (m.dictionary dict).table.get b ∨
    (m'.dictionary dict).table.get b = some x

/-- What is stored has the version `v`. -/
def LockedOp.StoresVersion (f : Strand) (intersect : LockSet → LockSet → IntersectionResult)
    (v : Nat) (m : SimpleShadowMem) (op : LockedOp) : Prop :=
  match op with
  | locked isRead addr memSize accId _ | plain isRead addr memSize _ accId =>
    Stores f { func := f.func, version := v, accId } (op.passes m) isRead addr memSize m
      (op.run f intersect m)
  | clear .. => True

/-- In a loop's body, what is stored has the version of the iteration. -/
def LoopState.StoresCurrent (intersect : LockSet → LockSet → IntersectionResult) (s : LoopState)
    (op : LockedOp) : Prop :=
  s.nesting.inLoop = true → ∀ l ∈ s.loops.head?, ∀ f ∈ s.tool.strand,
    op.StoresVersion f intersect (l.iter % versionEnd) s.shadow

/-! ## When it holds -/

/-- No parallel entry of the node is swallowed, other than by the same instruction. -/
def KeepsOwn (f : Strand) (accId : Nat) (d : Pages MemoryAccess) (p n : Nat) : Prop :=
  ∀ b y, p ≤ b → b < p + n → d.get b = some y → f.previousAccessInParallel y = true →
  y.func = f.func →
    Swallowed MemoryAccess.verFunc f.previousAccessInParallel d p (p + n) b → y.accId = accId

/-- Nor does the fast path swallow any. -/
def LockedOp.KeepsVersions (f : Strand) (m : SimpleShadowMem) (op : LockedOp) : Prop :=
  match op with
  | locked isRead addr memSize accId _ =>
    op.passes m = true → KeepsOwn f accId (m.dictionary isRead).table addr memSize
  | plain isRead addr memSize alignment accId =>
    op.passes m = true → SimpleShadowMem.takesFastPath memSize alignment = false →
      KeepsOwn f accId (m.dictionary isRead).table addr memSize
  | clear .. => True

namespace LoopState

def KeepsCurrent (s : LoopState) (op : LockedOp) : Prop :=
  s.nesting.inLoop = true → ∀ f ∈ s.tool.strand, op.KeepsVersions f s.shadow

def StepOk (s : LoopState) : LoopEvent → Prop
  | .hook h => LoopOk s.nesting s.loops h
  | .op op => op.Aligned
  | .clearOccupied => True

def RunOk (intersect : LockSet → LockSet → IntersectionResult) (s : LoopState) :
    List LoopEvent → Prop
  | [] => True
  | e :: events => s.StepOk e ∧ ∀ s' ∈ s.step intersect e, s'.RunOk intersect events

end LoopState

/-! ## Entries -/

variable {f : Strand} {intersect : LockSet → LockSet → IntersectionResult} {accId p n b : Nat}
  {d d' : Pages MemoryAccess}
variable {m : SimpleShadowMem} {op : LockedOp} {isRead : Bool}

/-- Entries in series of the strand's node have its version. -/
def SeriesCurrent (f : Strand) (d : Pages MemoryAccess) : Prop :=
  ∀ b y, d.get b = some y → f.previousAccessInParallel y = false → y.func = f.func →
  y.version = f.version

/-- The entries of a range that are in series are set, and nothing else is stored. -/
def StoresIn (f : Strand) (accId p n : Nat) (d d' : Pages MemoryAccess) : Prop :=
  (∀ b, p ≤ b → b < p + n → inSeries f.previousAccessInParallel (d.get b) = true →
    d'.get b = some (f.access accId)) ∧ ∀ b, d'.get b = d.get b ∨ d'.get b = some (f.access accId)

theorem SeriesCurrent.maSetFn (hd : SeriesCurrent f d)
    (h : inSeries f.previousAccessInParallel (d.get b) = true) :
    f.maSetFn accId (d.get b) = f.access accId := by
  refine maSetFn_eq_access.2 fun y hy => hd b y hy ?_
  rw [hy] at h
  simpa [inSeries] using h

/-- The slow path. -/
theorem storesIn_iff {d₁ : Pages MemoryAccess} {xs : List (Stretch MemoryAccess)} (hw : d₁.WF)
    (hl : ∀ b, d₁.lineAt b = d.lineAt b)
    (h : UpdateIterator.Walk MemoryAccess.verFunc f.previousAccessInParallel (f.maSetFn accId)
      (p + n) d₁ p xs d')
    (hd : SeriesCurrent f d) (hself : f.inParallel f.func f.version = false) :
    StoresIn f accId p n d d' ↔ KeepsOwn f accId d p n := by
  have hkey := verFunc_par f
  have hget : ∀ b, d₁.get b = d.get b := fun b => by rw [Pages.get_eq, Pages.get_eq, hl]
  constructor
  · intro hs b y h₁ h₂ hy hpar hfunc hsw
    have hset := h.get_replaced hw hkey h₁ h₂ (.inr ((Swallowed.congr hl).2 hsw))
    rw [hget, hy] at hset
    have hsame : f.maSetFn accId (some y) = { y with accId } := by
      unfold Strand.maSetFn MemoryAccess.set
      simp [hfunc]
    rw [hsame] at hset
    rcases hs.2 b with h' | h'
    · rw [hset, hy, Option.some.injEq] at h'
      rw [← h']
    · -- The strand is not parallel to itself.
      rw [hset, Option.some.injEq] at h'
      have hver : y.version = f.version := congrArg MemoryAccess.version h'
      rw [Strand.previousAccessInParallel, hfunc, hver, hself] at hpar
      cases hpar
  · intro hk
    refine ⟨fun b h₁ h₂ hs => ?_, fun b => ?_⟩
    · rw [h.get_replaced hw hkey h₁ h₂ (.inl (by rw [hget]; exact hs)), hget, hd.maSetFn hs]
    · by_cases hin : p ≤ b ∧ b < p + n
      · by_cases hs : inSeries f.previousAccessInParallel (d.get b) = true
        · right
          rw [h.get_replaced hw hkey hin.1 hin.2 (.inl (by rw [hget]; exact hs)), hget,
            hd.maSetFn hs]
        · by_cases hsw : Swallowed MemoryAccess.verFunc f.previousAccessInParallel d p (p + n) b
          · have hset := h.get_replaced hw hkey hin.1 hin.2 (.inr ((Swallowed.congr hl).2 hsw))
            rw [hget] at hset
            cases hy : d.get b with
            | none =>
              rw [hy] at hs
              exact absurd rfl hs
            | some y =>
              rw [hy] at hs hset
              have hpar : f.previousAccessInParallel y = true := by simpa [inSeries] using hs
              by_cases hfunc : y.func = f.func
              · left
                rw [hset, maSetFn_eq_self.2 ⟨hfunc, hk b y hin.1 hin.2 hy hpar hfunc hsw⟩]
              · right
                rw [hset, maSetFn_eq_access.2 fun z hz hfz => by cases hz; exact absurd hfz hfunc]
          · left
            rw [h.get_not_replaced hw hkey hin.1 fun hr => ?_, hget]
            rw [Replaced.congr hl] at hr
            exact hr.elim hs hsw
      · left
        rw [h.get_of_lt (by omega), hget]

/-- The fast path. -/
theorem SetsInSeries.storesIn (h : SetsInSeries f accId d d' p n) (hd : SeriesCurrent f d) :
    StoresIn f accId p n d d' := by
  refine ⟨fun b h₁ h₂ hs => ?_, fun b => ?_⟩
  · rw [h b, if_pos ⟨⟨h₁, h₂⟩, hs⟩, hd.maSetFn hs]
  · have hb := h b
    split at hb
    · next hs => exact .inr (hb.trans (congrArg some (hd.maSetFn hs.2)))
    · exact .inl hb

/-- The fast path sets nothing where the entry is not in series. -/
theorem SetsInSeries.of_parallel {lg : Nat} {table : Pages MemoryAccess} (ha : SmallAccess p n lg)
    {d : SimpleDictionary}
    (hw : d.table.WF) (ho : d.OccupancyOk) (h : SetsInSeries f accId d.table table p n)
    (hg : 2 ^ (SimpleShadowMem.lineMustExist (d.allocatePage (page p)).table p n).lgGrainsize = n)
    (hs : inSeries f.previousAccessInParallel
      ((SimpleShadowMem.lineMustExist (d.allocatePage (page p)).table p n).entry
      ((SimpleShadowMem.lineMustExist (d.allocatePage (page p)).table p n).getIdx (byte p))) =
      false) (b : Nat) :
    table.get b = d.table.get b := by
  obtain ⟨hocc, hp⟩ := allocatePage_spec (p := p) ho p
  obtain ⟨hw₁, hget, hline, hwl, -, -⟩ := lineMustExist_spec ha (hocc.wf hw) hp
  rw [h b, if_neg]
  intro hb
  have heq := ha.get_eq hw₁ (by rw [hline]; exact hg) hb.1.1 hb.1.2
  rw [hget, hocc.get] at heq
  rw [heq, Pages.get_setLine_self rfl, hwl.shadow_eq, hs] at hb
  cases hb.2

/-! ## Operations -/

namespace LockedOp

/-- The kind of an access, and its range. -/
def target : LockedOp → Option (Bool × Nat × Nat)
  | locked isRead addr memSize .. | plain isRead addr memSize .. => some (isRead, addr, memSize)
  | clear .. => none

variable {addr memSize : Nat}

theorem run_other (ht : op.target = some (isRead, addr, memSize)) {dict : Bool}
    (hne : isRead ≠ dict) : (op.run f intersect m).dictionary dict = m.dictionary dict := by
  cases op with
  | locked isRead' addr' memSize' accId LS =>
    cases ht
    simp only [run, SimpleShadowMem.recordLockedMem]
    split
    · rfl
    · exact SimpleShadowMem.lockedDictionary_other f accId intersect LS m addr memSize hne
  | plain isRead' addr' memSize' alignment accId =>
    cases ht
    exact SimpleShadowMem.recordMem_other f accId m addr memSize alignment hne
  | clear => cases ht

/-- How the table of its kind changes. -/
inductive Changes (f : Strand) (accId p n : Nat) (passes : Bool) (keeps : Prop)
    (d d' : Pages MemoryAccess) : Prop
  | dropped (hp : passes = false) (hk : keeps) (h : ∀ b, d'.get b = d.get b)
  | slow (hp : passes = true) (hk : keeps ↔ KeepsOwn f accId d p n)
    (d₁ : Pages MemoryAccess) (hw : d₁.WF)
    (hl : ∀ b, d₁.lineAt b = d.lineAt b) (xs : List (Stretch MemoryAccess))
    (h : UpdateIterator.Walk MemoryAccess.verFunc f.previousAccessInParallel (f.maSetFn accId)
      (p + n) d₁ p xs d')
  | fast (hp : passes = true) (hk : keeps) (h : SetsInSeries f accId d d' p n)

/-- The table after an access under locks that the filter passes on. -/
theorem lockedTable_found (f : Strand) (accId : Nat)
    (intersect : LockSet → LockSet → IntersectionResult) (LS : LockSet)
    {d' : SimpleDictionary} (hm : m.LockedOk) (hn : memSize ≠ 0)
    (hset : (m.dictionary isRead).setOccupied addr memSize = (true, d'))
    (hocc : Occupies addr (addr + memSize) (m.dictionary isRead) d') :
    ((m.checkDataRacesAndUpdate f accId intersect LS isRead addr memSize).1.dictionary
      isRead).table = update f accId d'.table addr memSize := by
  have heq := SimpleShadowMem.setOccupied_eq hset
  simp only [SimpleShadowMem.checkDataRacesAndUpdate, heq]
  cases isRead with
  | true => rfl
  | false =>
    obtain ⟨q, L', s', hcheck, -⟩ :=
      checkDataRaceAndUpdateWrite_spec f accId intersect LS (hocc.wf (hm.wf false))
        (hocc.lockers ▸ hm.lockers false) hocc.mapped (Nat.pos_of_ne_zero hn)
    exact congrArg (fun r => r.1.table) hcheck

theorem plainTable_fast (f : Strand) (accId : Nat) {lg : Nat} (hm : m.LockedOk)
    (ha : SmallAccess addr memSize lg)
    {alignment : Nat} (hn : memSize ≠ 0)
    (hfast : SimpleShadowMem.takesFastPath memSize alignment = true) :
    SetsInSeries f accId (m.dictionary isRead).table
      ((m.recordMem f accId isRead addr memSize alignment).dictionary isRead).table
      addr memSize := by
  unfold SimpleShadowMem.recordMem
  rw [if_neg hn, if_pos hfast, SimpleShadowMem.setOccupiedFast_eq]
  simp only [Bool.not_true, Bool.false_eq_true, if_false]
  have hw := hm.wf isRead
  have ho := hm.occupancy isRead
  cases isRead with
  | true =>
    obtain ⟨table, heq, htable⟩ := SimpleShadowMem.checkReadFast_dictionary f accId
      { m with reads := m.reads.allocatePage (page addr) } addr memSize
    rw [if_pos rfl, if_pos rfl, heq]
    exact SimpleShadowMem.fast_setsInSeries f accId ha hw ho htable
  | false =>
    obtain ⟨hocc, hp⟩ := allocatePage_spec (p := addr) ho addr
    obtain ⟨table, heq, htable⟩ := SimpleShadowMem.checkWriteFast_dictionary f accId
      { m with writes := m.writes.allocatePage (page addr) } ha (hocc.wf hw) hp
    rw [if_neg Bool.false_ne_true, if_neg Bool.false_ne_true, heq]
    exact SimpleShadowMem.fast_setsInSeries f accId ha hw ho htable

theorem run_changes (f : Strand) (intersect : LockSet → LockSet → IntersectionResult)
    (hm : m.LockedOk) (ha : op.Aligned) (ht : op.target = some (isRead, addr, memSize)) :
    Changes f op.accId addr memSize (op.passes m) (op.KeepsVersions f m) (m.dictionary isRead).table
      ((op.run f intersect m).dictionary isRead).table := by
  obtain ⟨found, d', hset, hocc, hfound⟩ := setOccupied_spec (hm.occupancy isRead) addr memSize
  have hocc₁ : (m.setOccupied isRead addr memSize).1 = found := by
    rw [SimpleShadowMem.setOccupied_eq hset]
  have hall : found = false → ∀ b, addr ≤ b → b < addr + memSize →
      (m.dictionary isRead).occupied b = true := fun h b h₁ h₂ =>
    Bool.eq_true_of_not_eq_false fun hb => by
      rw [hfound.2 ⟨b, h₁, h₂, hb⟩] at h
      cases h
  cases op with
  | clear => cases ht
  | locked isRead' addr' memSize' accId LS =>
    cases ht
    by_cases hn : memSize = 0
    · refine .dropped (by simp [passes, hn]) (fun h => by simp [passes, hn] at h) fun b => ?_
      simp only [run, SimpleShadowMem.recordLockedMem, if_pos hn]
    · have hpass : (locked isRead addr memSize accId LS).passes m = found := by
        simp [passes, hn, hocc₁]
      simp only [run, SimpleShadowMem.recordLockedMem, if_neg hn]
      cases found with
      | false =>
        refine .dropped hpass (fun h => by rw [hpass] at h; cases h) ?_
        exact (SimpleShadowMem.checkDataRacesAndUpdate_dictionary f accId intersect LS
          (hm.wf isRead) (hm.lockers isRead) (hm.occupancy isRead) addr memSize).dropped (hall rfl)
      | true =>
        obtain ⟨xs, d'', hwalk, hupdate, -⟩ :=
          update_walk f accId (hocc.wf (hm.wf isRead)) hocc.mapped
        refine .slow hpass ⟨fun h => h hpass, fun h _ => h⟩ d'.table
          (hocc.wf (hm.wf isRead)) hocc.lines xs ?_
        rw [lockedTable_found f accId intersect LS hm hn hset hocc, hupdate]
        exact hwalk
  | plain isRead' addr' memSize' alignment accId =>
    cases ht
    by_cases hn : memSize = 0
    · refine .dropped (by simp [passes, hn]) (fun h => by simp [passes, hn] at h) fun b => ?_
      simp only [run, SimpleShadowMem.recordMem, if_pos hn]
    · by_cases hfast : SimpleShadowMem.takesFastPath memSize alignment = true
      · obtain ⟨lg, hsmall⟩ := SimpleShadowMem.smallAccess_of_takesFastPath hfast hn ha
        refine .fast (by simp [passes, hn, hfast]) (fun _ h => ?_)
          (plainTable_fast f accId hm hsmall hn hfast)
        rw [hfast] at h
        cases h
      · have hslow := Bool.eq_false_of_not_eq_true hfast
        have hpass : (plain isRead addr memSize alignment accId).passes m = found := by
          simp [passes, hn, hslow, hocc₁]
        simp only [run, SimpleShadowMem.recordMem, if_neg hn, if_neg hfast]
        cases found with
        | false =>
          refine .dropped hpass (fun h => by rw [hpass] at h; cases h) ?_
          exact (SimpleShadowMem.checkRacesAndUpdate_dictionary f accId (hm.wf isRead)
            (hm.occupancy isRead) addr memSize).1.dropped (hall rfl)
        | true =>
          obtain ⟨xs, d'', hwalk, hupdate, -⟩ :=
            update_walk f accId (hocc.wf (hm.wf isRead)) hocc.mapped
          refine .slow hpass ⟨fun h => h hpass hslow, fun h _ _ => h⟩ d'.table
            (hocc.wf (hm.wf isRead)) hocc.lines xs ?_
          rw [SimpleShadowMem.checkRacesAndUpdate_found f accId (hm.wf isRead) hset hocc, hupdate]
          exact hwalk

/-- Where the bag is not asked for, nothing is stored. -/
theorem run_of_not_asks (hm : m.LockedOk) (ha : op.Aligned)
    (ht : op.target = some (isRead, addr, memSize)) (hasks : op.asksForBag f m = false) (b : Nat) :
    ((op.run f intersect m).dictionary isRead).table.get b = (m.dictionary isRead).table.get b := by
  have hdropped : op.passes m = false →
      ((op.run f intersect m).dictionary isRead).table.get b =
      (m.dictionary isRead).table.get b := fun hp => by
    cases run_changes f intersect hm ha ht with
    | dropped _ _ h => exact h b
    | slow hp' => rw [hp] at hp'; cases hp'
    | fast hp' => rw [hp] at hp'; cases hp'
  cases op with
  | clear => cases ht
  | locked isRead' addr' memSize' accId LS => exact hdropped (by simpa [asksForBag] using hasks)
  | plain isRead' addr' memSize' alignment accId =>
    cases ht
    by_cases hn : memSize = 0
    · exact hdropped (by simp [passes, hn])
    · by_cases hfast : SimpleShadowMem.takesFastPath memSize alignment = true
      · obtain ⟨lg, hsmall⟩ := SimpleShadowMem.smallAccess_of_takesFastPath hfast hn ha
        have hpass : (plain isRead addr memSize alignment accId).passes m = true := by
          simp [passes, hn, hfast]
        simp only [asksForBag, hpass, hfast, Bool.not_true, Bool.true_and, Bool.false_or,
          Bool.or_eq_false_iff, decide_eq_false_iff_not, not_not] at hasks
        exact SetsInSeries.of_parallel hsmall (hm.wf isRead) (hm.occupancy isRead)
          (plainTable_fast f accId hm hsmall hn hfast) hasks.1 hasks.2 b
      · exact hdropped (by simpa [asksForBag, Bool.eq_false_of_not_eq_true hfast] using hasks)

/-- What an access stores has the strand's version if it keeps the versions there. -/
theorem stores_iff (hm : m.LockedOk) (ha : op.Aligned)
    (ht : op.target = some (isRead, addr, memSize))
    (hd : SeriesCurrent f (m.dictionary isRead).table)
    (hself : f.inParallel f.func f.version = false) :
    Stores f (f.access op.accId) (op.passes m) isRead addr memSize m (op.run f intersect m) ↔
    op.KeepsVersions f m := by
  have hstores : Stores f (f.access op.accId) (op.passes m) isRead addr memSize m
      (op.run f intersect m) ↔ (op.passes m = true → ∀ b, addr ≤ b → b < addr + memSize →
        inSeries f.previousAccessInParallel ((m.dictionary isRead).table.get b) = true →
        ((op.run f intersect m).dictionary isRead).table.get b = some (f.access op.accId)) ∧
      ∀ b, ((op.run f intersect m).dictionary isRead).table.get b =
      (m.dictionary isRead).table.get b ∨
        ((op.run f intersect m).dictionary isRead).table.get b = some (f.access op.accId) := by
    constructor
    · exact fun h => ⟨h.stored, h.other isRead⟩
    · intro h
      refine ⟨h.1, fun dict b => ?_⟩
      by_cases hdict : isRead = dict
      · exact hdict ▸ h.2 b
      · exact .inl (by rw [run_other ht hdict])
  rw [hstores]
  cases run_changes f intersect hm ha ht with
  | dropped hp hk h =>
    refine iff_of_true ⟨fun hp' => ?_, fun b => .inl (h b)⟩ hk
    rw [hp] at hp'
    cases hp'
  | slow hp hk d₁ hw hl xs h =>
    rw [hk, ← storesIn_iff hw hl h hd hself]
    exact ⟨fun h => ⟨h.1 hp, h.2⟩, fun h => ⟨fun _ => h.1, h.2⟩⟩
  | fast hp hk h =>
    obtain ⟨h₁, h₂⟩ := h.storesIn hd
    exact iff_of_true ⟨fun _ => h₁, h₂⟩ hk

variable (intersect) in
theorem storesVersion_iff (hm : m.LockedOk) (ha : op.Aligned)
    (hd : ∀ isRead, SeriesCurrent f (m.dictionary isRead).table)
    (hself : f.inParallel f.func f.version = false) : op.StoresVersion f intersect f.version m ↔
    op.KeepsVersions f m := by
  cases op with
  | clear => exact iff_of_true trivial trivial
  | locked isRead addr memSize accId LS => exact stores_iff hm ha rfl (hd isRead) hself
  | plain isRead addr memSize alignment accId => exact stores_iff hm ha rfl (hd isRead) hself

variable (f intersect) in
theorem run_recording (hm : m.LockedOk) (ha : op.Aligned)
    (ht : op.target = some (isRead, addr, memSize)) :
    Recording f intersect (m.dictionary isRead) ((op.run f intersect m).dictionary isRead) := by
  cases op with
  | clear => cases ht
  | locked isRead' addr' memSize' accId LS =>
    cases ht
    by_cases hn : memSize = 0
    · simp only [run, SimpleShadowMem.recordLockedMem, if_pos hn]
      exact ⟨hm.wf isRead, hm.lockers isRead, hm.occupancy isRead, fun _ => .inl rfl,
        fun _ => .inl rfl⟩
    · simp only [run, SimpleShadowMem.recordLockedMem, if_neg hn]
      exact (SimpleShadowMem.checkDataRacesAndUpdate_dictionary f accId intersect LS (hm.wf isRead)
        (hm.lockers isRead) (hm.occupancy isRead) addr memSize).recording
  | plain isRead' addr' memSize' alignment accId =>
    cases ht
    exact (SimpleShadowMem.recordMem_plain f accId (hm.wf isRead)
      (hm.occupancy isRead) ha).1.recording (hm.lockers isRead)

/-- Clearing a range takes its entries. -/
theorem clear_ok {d : SimpleDictionary} (hw : d.table.WF) (hL : d.lockerTable.WF)
    (ho : d.OccupancyOk) (start size : Nat) :
    (d.clear start size).table.WF ∧ (d.clear start size).lockerTable.WF ∧
    (d.clear start size).OccupancyOk ∧
      ∀ b x, (d.clear start size).table.get b = some x → d.table.get b = some x := by
  have hchunk := Chunk.mk_eq_upTo start size
  obtain ⟨hw', hget⟩ := UpdateIterator.clear_spec hw start (start + size)
  obtain ⟨hL', -⟩ := UpdateIterator.clear_spec hL start (start + size)
  rw [← hchunk] at hw' hget hL'
  refine ⟨hw', hL', ho.setTables _ fun i hi => UpdateIterator.clear_pages _ _ hi, fun b x hx => ?_⟩
  have hx' : (UpdateIterator.clear d.table ⟨start, size⟩).get b = some x := hx
  rw [hget] at hx'
  split at hx'
  · cases hx'
  · exact hx'

variable (f intersect m) in
theorem run_clear (start size : Nat) :
    (clear start size).run f intersect m = m ∨
    (clear start size).run f intersect m = m.clear start size := by
  by_cases hn : size = 0
  · exact .inl (if_pos hn)
  · exact .inr (if_neg hn)

variable (f intersect) in
theorem run_lockedOk (hm : m.LockedOk) (ha : op.Aligned) : (op.run f intersect m).LockedOk := by
  suffices h : ∀ dict, ((op.run f intersect m).dictionary dict).table.WF ∧
      ((op.run f intersect m).dictionary dict).lockerTable.WF ∧
      ((op.run f intersect m).dictionary dict).OccupancyOk from
    ⟨⟨fun dict => (h dict).1, fun dict => (h dict).2.2⟩, fun dict => (h dict).2.1⟩
  intro dict
  have hsame : (m.dictionary dict).table.WF ∧ (m.dictionary dict).lockerTable.WF ∧
    (m.dictionary dict).OccupancyOk := ⟨hm.wf dict, hm.lockers dict, hm.occupancy dict⟩
  cases ht : op.target with
  | none =>
    cases op with
    | locked => cases ht
    | plain => cases ht
    | clear start size =>
      rcases run_clear f intersect m start size with h | h
      · rwa [h]
      · rw [h, SimpleShadowMem.clear_dictionary]
        obtain ⟨h₁, h₂, h₃, -⟩ := clear_ok hsame.1 hsame.2.1 hsame.2.2 start size
        exact ⟨h₁, h₂, h₃⟩
  | some t =>
    obtain ⟨isRead, addr, memSize⟩ := t
    by_cases hd : isRead = dict
    · subst hd
      have hrec := run_recording f intersect hm ha ht
      exact ⟨hrec.wf, hrec.lockers, hrec.ok⟩
    · rwa [run_other ht hd]

/-- An entry is an old one, with the version it had, or the strand's, and then the bag is asked for.
-/
theorem run_entries (hm : m.LockedOk) (ha : op.Aligned) {dict : Bool} {x : MemoryAccess}
    (hx : ((op.run f intersect m).dictionary dict).table.get b = some x) :
    (∃ y, (m.dictionary dict).table.get b = some y ∧ y.verFunc = x.verFunc) ∨
      op.asksForBag f m = true ∧ x.verFunc = (f.func, f.version) := by
  cases ht : op.target with
  | none =>
    cases op with
    | locked => cases ht
    | plain => cases ht
    | clear start size =>
      refine .inl ⟨x, ?_, rfl⟩
      rcases run_clear f intersect m start size with h | h
      · rwa [h] at hx
      · rw [h, SimpleShadowMem.clear_dictionary] at hx
        exact (clear_ok (hm.wf dict) (hm.lockers dict) (hm.occupancy dict) start size).2.2.2 b x hx
  | some t =>
    obtain ⟨isRead, addr, memSize⟩ := t
    by_cases hd : isRead = dict
    · subst hd
      cases hasks : op.asksForBag f m with
      | false =>
        rw [run_of_not_asks hm ha ht hasks] at hx
        exact .inl ⟨x, hx, rfl⟩
      | true =>
        rcases (run_recording f intersect hm ha ht).entries b with h | h
        · exact .inl ⟨x, h.symm.trans hx, rfl⟩
        · obtain ⟨accId, h⟩ := h
          rw [h, Option.some.injEq] at hx
          subst hx
          unfold Strand.maSetFn MemoryAccess.set
          cases hold : (m.dictionary isRead).table.get b with
          | none => exact .inr ⟨rfl, rfl⟩
          | some y =>
            simp only
            split
            · exact .inr ⟨trivial, rfl⟩
            · exact .inl ⟨y, rfl, rfl⟩
    · rw [run_other ht hd] at hx
      exact .inl ⟨x, hx, rfl⟩

end LockedOp

/-! ## The frame of a loop's body -/

theorem CilkSan.recordAccess_log {c c' : CilkSan} {a : Nat} (hs : c.strand = some f)
    (hc : c.recordAccess a = some c') : c'.log = f.access a :: c.log := by
  simp only [CilkSan.strand, Option.bind_eq_bind, Option.bind_eq_some_iff] at hs
  obtain ⟨g, hg, ⟨b, g'⟩, hb, x, hx, d, hd, hs⟩ := hs
  simp only [CilkSan.recordAccess, hg, hb, hx, hd, Option.bind_eq_bind, Option.bind_some] at hc
  cases hs
  cases hc
  rfl

/-- What the body of a loop stores with and how it judges. -/
structure BodyStrand (c : CilkSan) (l : LoopProgress) (f : Strand) : Prop where
  strand : c.strand = some f
  version : f.version = l.iter % versionEnd
  self : f.inParallel f.func f.version = false
  judged : ∀ m j, (m, j) ∈ l.accesses →
    j ≤ l.iter ∧ f.previousAccessInParallel m = decide (j < l.iter)
  own : ∀ m ∈ c.log, m.func = f.func → f.previousAccessInParallel m = false → m.version = f.version

theorem Iterating.bodyStrand {n : Nesting} {c : CilkSan} {ls : List LoopProgress}
    (hi : Iterating n c ls)
    (hin : n.inLoop = true) : ∃ l f, ls.head? = some l ∧ BodyStrand c l f := by
  obtain ⟨g, fs, o, hg, ho⟩ := hi.looping.owning.layout.exists_head
  have hw := hi.looping.owning.wf
  have hl : g.isLoopFrame = true := by
    rw [hi.looping.owning.layout.isLoopFrame hi.unskipped g (by simp [hg])]
    exact hin
  have hv := hi.looping.loops
  rw [hg, List.filter_cons_of_pos hl] at hv
  cases hv with
  | @cons _ l _ ls hv _ =>
    obtain ⟨i, x, hib, hx, hver⟩ := hv.version
    have hii := (ho.ok.iterbag hib).1
    obtain ⟨x', d, hx', hd, hod⟩ := hii.exists_ds
    obtain rfl : x = x' := Option.some.inj (hx.symm.trans hx')
    have hjudged : ∀ m j, (m, j) ∈ l.accesses →
      (CilkSan.previousAccessInParallel m g c.bags).1 = decide (j < l.iter) :=
      fun m j hmem => hv.previousAccessInParallel hw ho.ok hl hmem
    refine ⟨l, {
      func := d
      version := x.version
      inParallel :=
        fun func version =>
          (CilkSan.previousAccessInParallel { func, version, accId := 0 } g c.bags).1 }, rfl,
      by simp [CilkSan.strand, hg, FrameData.getSbagForAccess, hl, hib, hx, hd], hver, ?_,
      fun m j hmem => ⟨(hv.placed m j hmem).1, hjudged m j hmem⟩, fun m hm hfunc hser => ?_⟩
    · show (CilkSan.previousAccessInParallel { func := d, version := x.version, accId := 0 } g
        c.bags).1 = false
      rw [previousAccessInParallel_of_sBag hw hod hii]
      simp [FrameData.checkParallelIter, hx]
    · obtain ⟨j, hmem⟩ := hv.own m hm i hib (by rw [show m.func = d from hfunc]; exact hod)
      have hj : decide (j < l.iter) = false := (hjudged m j hmem).symm.trans hser
      rw [decide_eq_false_iff_not] at hj
      obtain ⟨hle, hplace⟩ := hv.placed m j hmem
      obtain rfl : j = l.iter := by omega
      rcases hplace with ⟨-, -, -, -, hmv, -⟩ | ⟨-, -, -, hlt⟩
      · exact hmv.trans hver.symm
      · exact absurd hlt (Nat.lt_irrefl _)

namespace LoopState

variable {s s' : LoopState}

/-! ## Runs -/

/-- The entries are of accesses that were recorded. -/
structure Inv (s : LoopState) : Prop where
  iterating : Iterating s.nesting s.tool s.loops
  shadow : s.shadow.LockedOk
  logged : ∀ dict b x, (s.shadow.dictionary dict).table.get b = some x →
    ∃ m ∈ s.tool.log, m.verFunc = x.verFunc

theorem Inv.init : Inv {} where
  iterating := .init
  shadow := .empty
  logged dict b x hx := by cases dict <;> cases hx

theorem Inv.hook {h : Hook} (hi : s.Inv) (hok : LoopOk s.nesting s.loops h)
    (hs : s.hook h = some s') : s'.Inv := by
  simp only [LoopState.hook, Option.bind_eq_bind, Option.bind_eq_some_iff] at hs
  obtain ⟨n, hn, c, hc, hs⟩ := hs
  cases hs
  obtain ⟨hiter, hlog⟩ := hi.iterating.step hok hn hc
  refine ⟨hiter, hi.shadow, fun dict b x hx => ?_⟩
  obtain ⟨m, hm, hver⟩ := hi.logged dict b x hx
  exact ⟨m, hlog.subset hm, hver⟩

theorem Inv.ofOp (hi : s.Inv) (ha : op.Aligned) (hs : s.op intersect op = some s') : s'.Inv := by
  simp only [LoopState.op, Option.bind_eq_bind, Option.bind_eq_some_iff] at hs
  obtain ⟨f, hf, hs⟩ := hs
  have hshadow := LockedOp.run_lockedOk f intersect hi.shadow ha
  split at hs
  · next hasks =>
    simp only [LoopState.hook, Option.bind_eq_bind, Option.bind_eq_some_iff] at hs
    obtain ⟨n, hn, c, hc, hs⟩ := hs
    cases hs
    obtain ⟨hiter, hlog⟩ := hi.iterating.step (k := .access op.accId) trivial hn hc
    refine ⟨hiter, hshadow, fun dict b x hx => ?_⟩
    rcases op.run_entries hi.shadow ha hx with ⟨y, hy, hver⟩ | ⟨-, hver⟩
    · obtain ⟨m, hm, hver'⟩ := hi.logged dict b y hy
      exact ⟨m, hlog.subset hm, hver'.trans hver⟩
    · refine ⟨f.access op.accId, ?_, hver.symm⟩
      rw [CilkSan.recordAccess_log hf hc]
      exact List.mem_cons_self ..
  · next hasks =>
    cases hs
    refine ⟨hi.iterating, hshadow, fun dict b x hx => ?_⟩
    rcases op.run_entries hi.shadow ha hx with ⟨y, hy, hver⟩ | ⟨hasks', -⟩
    · obtain ⟨m, hm, hver'⟩ := hi.logged dict b y hy
      exact ⟨m, hm, hver'.trans hver⟩
    · exact absurd hasks' hasks

theorem Inv.step {e : LoopEvent} (hi : s.Inv) (hok : s.StepOk e)
    (hs : s.step intersect e = some s') : s'.Inv := by
  cases e with
  | hook h => exact hi.hook hok hs
  | op op => exact hi.ofOp hok hs
  | clearOccupied =>
    cases hs
    refine ⟨hi.iterating, ?_, fun dict b x hx => hi.logged dict b x (by cases dict <;> exact hx)⟩
    have hocc : ∀ dict, (s.shadow.clearOccupied.dictionary dict).OccupancyOk := fun dict =>
        .of_not_occupied fun b => by
      cases dict
      · exact occupied_clearOccupied (hi.shadow.occupancy false) b
      · exact occupied_clearOccupied (hi.shadow.occupancy true) b
    refine ⟨⟨fun dict => ?_, hocc⟩, fun dict => ?_⟩
    · have := hi.shadow.wf dict
      cases dict <;> exact this
    · have := hi.shadow.lockers dict
      cases dict <;> exact this

theorem Inv.run {events : List LoopEvent} (hi : s.Inv) (hok : s.RunOk intersect events)
    (hs : s.run intersect events = some s') : s'.Inv := by
  induction events generalizing s with
  | nil =>
    cases hs
    exact hi
  | cons e events ih =>
    simp only [LoopState.run, List.foldlM_cons, Option.bind_eq_bind, Option.bind_eq_some_iff] at hs
    obtain ⟨s₁, hs₁, hs⟩ := hs
    exact ih (hi.step hok.1 hs₁) (hok.2 s₁ hs₁) hs

theorem Inv.judgesDirect (hi : s.Inv) : s.JudgesDirect := fun hin => by
  obtain ⟨l, f, hl, hf⟩ := hi.iterating.bodyStrand hin
  exact ⟨l, f, hl, hf.strand, hf.judged⟩

theorem Inv.storesCurrent_iff (hi : s.Inv) (ha : op.Aligned) : s.StoresCurrent intersect op ↔
    s.KeepsCurrent op := by
  refine forall_congr' fun hin => ?_
  obtain ⟨l, f, hl, hf⟩ := hi.iterating.bodyStrand hin
  have hd :
      ∀ dict, SeriesCurrent f (s.shadow.dictionary dict).table := fun dict b y hy hser hfunc => by
    obtain ⟨m, hm, hver⟩ := hi.logged dict b y hy
    have hver' :
        m.func = y.func ∧ m.version = y.version := by simpa [MemoryAccess.verFunc] using hver
    rw [← hver'.2]
    exact hf.own m hm (hver'.1.trans hfunc) ((verFunc_par f _ _ hver).trans hser)
  have hiff := LockedOp.storesVersion_iff intersect hi.shadow ha hd hf.self
  rw [hf.version] at hiff
  simp only [hl, hf.strand, Option.mem_some_iff, forall_eq', hiff]

/-- **Loop versions**: in each state of a run in which no loop's body syncs
region 0 with accesses of its own in that P-bag, and no loop ends before its
first iteration, the body judges the accesses it has made itself by their
iterations; and what an access stores has the version of its iteration exactly
if no parallel entry of the node is swallowed. -/
theorem judgesDirect_and_storesCurrent_iff {events : List LoopEvent}
    (hok : RunOk intersect {} events) (hs : run intersect {} events = some s) :
    s.JudgesDirect ∧ ∀ op : LockedOp, op.Aligned →
    (s.StoresCurrent intersect op ↔ s.KeepsCurrent op) :=
  have hi := Inv.init.run hok hs
  ⟨hi.judgesDirect, fun _ ha => hi.storesCurrent_iff ha⟩

/-- The body writes bytes 8 to 15 and 24 to 31 in the first iteration, and is in the second. -/
def secondIteration : List LoopEvent :=
  [.hook (.funcEntry true 1), .hook .loopBegin, .hook (.loopIterationBegin 0),
  .op (.plain false 8 8 0 1), .op (.plain false 24 8 0 2), .hook .loopIterationEnd, .clearOccupied,
  .hook (.loopIterationBegin 0)]

theorem judgesDirect_and_storesCurrent_iff_second :
    ∃ s, run LockSet.intersect {} secondIteration = some s ∧
    s.JudgesDirect ∧ ∀ op : LockedOp, op.Aligned →
    (s.StoresCurrent LockSet.intersect op ↔ s.KeepsCurrent op) := by
  have hsome : (run LockSet.intersect {} secondIteration).isSome = true := by decide +kernel
  obtain ⟨s, hs⟩ := Option.isSome_iff_exists.1 hsome
  refine ⟨s, hs, judgesDirect_and_storesCurrent_iff ?_ hs⟩
  exact ⟨trivial,
      fun _ _ => ⟨trivial, fun _ _ => ⟨trivial, fun _ _ => ⟨fun h => absurd rfl h, fun _ _ =>
    ⟨fun h => absurd rfl h,
      fun _ _ => ⟨trivial, fun _ _ => ⟨trivial, fun _ _ => ⟨trivial, fun _ _ => trivial⟩⟩⟩⟩⟩⟩⟩⟩

/-- In the second iteration it writes bytes 20 to 27. The insertion at byte 20
takes the entry of byte 8 for the one it goes by, and byte 24 keeps the version
of the first iteration. -/
theorem not_storesCurrent :
    ¬ ∀ (events : List LoopEvent) (s : LoopState), (∀ op, .op op ∈ events → op.Aligned) →
    run LockSet.intersect {} events = some s →
    s.JudgesDirect ∧ ∀ op : LockedOp, op.Aligned → s.StoresCurrent LockSet.intersect op := by
  intro h
  have heval : (run LockSet.intersect {} secondIteration).bind (fun s => s.tool.strand.map fun f =>
      (s.nesting.inLoop, s.loops.head?.map (·.iter), s.shadow.writes.table.get 24,
        ((LockedOp.plain false 20 8 0 3).run f LockSet.intersect s.shadow).writes.table.get 24)) =
      some (true, some 1, some ⟨3, 0, 2⟩, some ⟨3, 0, 3⟩) := by decide +kernel
  simp only [Option.bind_eq_some_iff, Option.map_eq_some_iff, Prod.mk.injEq] at heval
  obtain ⟨s, hs, f, hf, hin, ⟨l, hl, hiter⟩, hold, hnew⟩ := heval
  have hst :=
    (h secondIteration s (fun op hop => ?_) hs).2 (.plain false 20 8 0 3)
      (fun h => absurd rfl h) hin l hl f hf
  · rcases hst.other false 24 with h24 | h24
    · cases hnew.symm.trans (h24.trans hold)
    · have hver := hnew.symm.trans h24
      rw [hiter, Option.some.injEq, MemoryAccess.mk.injEq] at hver
      exact absurd hver.2.1 (by decide)
  · simp only [secondIteration, List.mem_cons, reduceCtorEq, LoopEvent.op.injEq, List.not_mem_nil,
      or_false, false_or] at hop
    rcases hop with rfl | rfl
    · exact fun h => absurd rfl h
    · exact fun h => absurd rfl h

end LoopState

end Cilksan
