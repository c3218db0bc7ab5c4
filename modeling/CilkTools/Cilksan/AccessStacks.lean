/-
Which call stack the recorded accesses carry, over whole runs: that of the
frame that recorded them when it was entered, as long as no merge into the
S-bag of a function or a task hands that bag a node with another one.
-/
import CilkTools.Cilksan.CallStacks
import CilkTools.Cilksan.OwnershipRuns
import Mathlib.Data.List.Forall2

namespace Cilksan

/-! ## Calls -/

/-- A well-nested trace with its calls; `entered` holds, for each of what is
open, the call stack it was begun with. -/
structure CallNesting where
  nesting : Nesting := {}
  callStack : CallStack := []
  entered : List CallStack := []
  deriving DecidableEq, Repr

namespace CallNesting

def base (t : CallNesting) : CallStack := t.entered.head?.getD []

/-- What was called has returned when a function, a task, an iteration or a
loop ends. -/
def step (t : CallNesting) (h : Hook) : Option CallNesting := do
  let nesting ← t.nesting.step h
  match h with
  | .recordCall call => some { t with nesting, callStack := call :: t.callStack }
  | .recordCallReturn =>
    if t.callStack = t.base then none else some { t with nesting, callStack := t.callStack.tail }
  | .loopIterationEnd => if t.callStack = t.base then some { t with nesting } else none
  | _ =>
    if t.nesting.opened.length < nesting.opened.length then
      some { t with nesting, entered := t.callStack :: t.entered }
    else if nesting.opened.length < t.nesting.opened.length then
      if t.callStack = t.base then some { t with nesting, entered := t.entered.tail } else none
    else some { t with nesting }

def run (t : CallNesting) (hooks : List Hook) : Option CallNesting := hooks.foldlM step t

end CallNesting

/-- The tool, and beside it the call stack that each of its frames was entered
with and, for each access, that of the frame that recorded it. -/
structure CallLog where
  tool : CilkSan
  entered : List CallStack
  accesses : List CallStack := []

namespace CallLog

def init : CallLog where
  tool := .init
  entered := [[]]

def step (l : CallLog) (h : Hook) : Option CallLog := do
  let tool ← l.tool.step h
  let entered :=
    if l.tool.frames.length < tool.frames.length then l.tool.callStack :: l.entered
    else l.entered.drop (l.tool.frames.length - tool.frames.length)
  let accesses :=
    if l.tool.log.length < tool.log.length then l.entered.head?.toList ++ l.accesses else l.accesses
  return { tool, entered, accesses }

def run (l : CallLog) (hooks : List Hook) : Option CallLog := hooks.foldlM step l

end CallLog

/-! ## The invariant -/

/-- The call stacks of what is open, and of the frames: a function that was
skipped has none. -/
inductive Aligned : List Opened → List Bool → List CallStack → List CallStack → Prop
  | root : Aligned [] [] [] [[]]
  | skipped {m n os ks ss es} (s : CallStack) (ha : Aligned os ks ss es) :
    Aligned (.func m n :: os) (true :: ks) (s :: ss) es
  | called {m n os ks ss es} (s : CallStack) (ha : Aligned os ks ss es) :
    Aligned (.func m n :: os) (false :: ks) (s :: ss) (s :: es)
  | spawned {o os ks ss es} (s : CallStack) (ho : o.isTask || o.isLoop) (ha : Aligned os ks ss es) :
    Aligned (o :: os) ks (s :: ss) (s :: es)

structure Stacked (t : CallNesting) (l : CallLog) : Prop where
  owning : Owning t.nesting l.tool
  callStack : l.tool.callStack = t.callStack
  aligned : Aligned t.nesting.opened l.tool.framesSkipped t.entered l.entered
  frames : List.Forall₂ (fun f s => f.OwnStack l.tool.bags s) l.tool.frames l.entered
  log : List.Forall₂ (fun m s => m.func < l.tool.bags.sets.size ∧
    (m.getLoc l.tool.bags).callStack = s) l.tool.log l.accesses

open Bags FrameData

variable {t t' : CallNesting} {l : CallLog} {c' : CilkSan} {T : Nat → Prop}

theorem OwnStack.all {h h' : Bags} {fs : List FrameData} {es : List CallStack}
    (hf : List.Forall₂ (fun f s => FrameData.OwnStack f h s) fs es) (hc : Calm h h' T)
    (ht : ∀ f ∈ fs, ∀ b, f.Has b → ¬ T b) :
    List.Forall₂ (fun f s => FrameData.OwnStack f h' s) fs es := by
  induction hf with
  | nil => exact .nil
  | cons hfs _ ih =>
    rw [List.forall_mem_cons] at ht
    refine .cons (hfs.calm hc rfl rfl rfl id fun b hb => ht.1 b ?_) (ih ht.2)
    exact hb.imp id .inr

/-- Every hook but an access keeps what was recorded. -/
theorem Stacked.advance {h : Hook} (hi : Stacked t l) (hc : l.tool.step h = some c')
    (ho : Owning t'.nesting c') (hcs : c'.callStack = t'.callStack) (hlog : c'.log = l.tool.log)
    (hcalm : Calm l.tool.bags c'.bags T) (es : List CallStack)
    (hes : (if l.tool.frames.length < c'.frames.length then l.tool.callStack :: l.entered
      else l.entered.drop (l.tool.frames.length - c'.frames.length)) = es)
    (ha : Aligned t'.nesting.opened c'.framesSkipped t'.entered es)
    (hf : List.Forall₂ (fun f s => FrameData.OwnStack f c'.bags s) c'.frames es) :
    ∃ l', l.step h = some l' ∧ Stacked t' l' := by
  refine ⟨⟨c', es, l.accesses⟩, ?_, ho, hcs, ha, hf, ?_⟩
  · simp [CallLog.step, hc, hes, hlog]
  · simp only [hlog]
    refine hi.log.imp fun m s hm => ⟨Nat.lt_of_lt_of_le hm.1 hcalm.size, ?_⟩
    exact (hcalm.data _ hm.1).trans hm.2

/-- Merging `o` into the S-bag of the frame, if it is used. -/
theorem FrameData.OwnStack.merge {f g : FrameData} {h h' : Bags} {s : CallStack} {used : Bool}
    {b : Nat} {o : Option Nat}
    (ho : f.OwnStack h s) (hf : f.Ok h) (hb : f.sbag = some b)
    (hu : CilkSan.combineUsed used h (some b) o = some h')
    (hgood : ∀ p, o = some p → h.Good p) (hk : used = true → f.isLoopFrame = false →
      h.KeepsStack (some b) o)
    (hgb : g.sbag = some b) (hgi : g.iterbag = f.iterbag) (hgd : g.frameData = f.frameData)
    (hgu : g.sbagUsed = false → f.sbagUsed = false ∧ used = false) (hv : h.Vacant) :
    g.OwnStack h' s := by
  have hcalm := Calm.combineUsed hv hu
  refine ⟨fun hl => ⟨b, hgb, ?_⟩, fun hl => ?_⟩
  · cases used with
    | false =>
      cases hu
      obtain ⟨b', hb', hcar⟩ :=
        ho.sbag (hl.imp (fun hl => by rw [FrameData.isLoopFrame, ← hgd]; exact hl)
          fun hl => (hgu hl).1)
      rw [hb] at hb'
      cases hb'
      exact hcar
    | true =>
      have hloop : f.isLoopFrame = false := by
        rcases hl with hl | hl
        · rw [FrameData.isLoopFrame, ← hgd]
          exact hl
        · cases (hgu hl).2
      obtain ⟨b', hb', hcar⟩ := ho.sbag (.inl hloop)
      rw [hb] at hb'
      cases hb'
      simp only [CilkSan.combineUsed, if_true, Option.bind_eq_bind, Option.bind_some,
        Option.bind_eq_some_iff] at hu
      obtain ⟨p, rfl, hu⟩ := hu
      obtain ⟨s', hs', hsi⟩ := hf.sbag
      rw [hb] at hs'
      cases hs'
      exact (hcar.combine_iff hsi.1 (hgood p rfl) hu).2 (hk rfl hloop)
  · obtain ⟨i, hi, hcar⟩ := ho.iterbag (by rw [FrameData.isLoopFrame, ← hgd]; exact hl)
    refine ⟨i, hgi.trans hi, hcalm.carries (fun he => (hf.iterbag hi).2 ?_) hcar⟩
    rw [hb, he]

/-! ## Hooks -/

/-- What the tool must not be in when a hook comes: a merge hands the S-bag of a
function or a task a node that carries another call stack. -/
def StackOk (c : CilkSan) : Hook → Prop
  | .sync r => ∀ f ∈ c.frames.head?, f.isLoopFrame = false → c.bags.KeepsStack f.sbag (f.pbag r)
  | .funcExit =>
    c.framesSkipped.head? = some false → ∀ child ∈ c.frames.head?, ∀ parent ∈ c.frames.tail.head?,
      child.sbagUsed = true → parent.isLoopFrame = false → c.bags.KeepsStack parent.sbag child.sbag
  | _ => True

namespace Stacked

theorem nesting_eq {n : Nesting} {h : Hook} (hn : t.nesting.step h = some n)
    (hs : t.step h = some t') : t'.nesting = n := by
  simp only [CallNesting.step, hn, Option.bind_eq_bind, Option.bind_some] at hs
  repeat' split at hs
  all_goals cases hs
  all_goals rfl

theorem vacant (hi : Stacked t l) : l.tool.bags.Vacant := hi.owning.wf.vacant

/-- The head frame changes, but for none of its bags. -/
theorem sameHead {h : Hook} {f : FrameData} {fs : List FrameData} (hi : Stacked t l)
    (f' : FrameData) (hf : l.tool.frames = f :: fs)
    (hc : l.tool.step h = some c') (ho : Owning t'.nesting c') (hcs : c'.callStack = t'.callStack)
    (hlog : c'.log = l.tool.log) (hb : c'.bags = l.tool.bags) (hf' : c'.frames = f' :: fs)
    (hk : c'.framesSkipped = l.tool.framesSkipped) (hs : f'.sbag = f.sbag)
    (hib : f'.iterbag = f.iterbag) (hd : f'.frameData = f.frameData) (hu : f'.sbagUsed = f.sbagUsed)
    (ha : Aligned t'.nesting.opened l.tool.framesSkipped t'.entered l.entered) :
    ∃ l', l.step h = some l' ∧ Stacked t' l' := by
  have hcalm := Calm.refl hi.vacant
  refine hi.advance (T := fun _ => False) hc ho hcs hlog (by rw [hb]; exact hcalm) l.entered ?_
    (by rw [hk]; exact ha) ?_
  · simp [hf, hf']
  · have hfr := hi.frames
    rw [hf] at hfr
    rw [hf', hb]
    generalize l.entered = es at hfr
    cases hfr with
    | cons hfs hrest =>
      exact .cons (hfs.calm hcalm hs hib hd (fun h => hu.symm.trans h) fun _ _ => id) hrest

/-- A frame is pushed. -/
theorem push {h : Hook} {g : FrameData} (hi : Stacked t l) (hc : l.tool.step h = some c')
    (ho : Owning t'.nesting c')
    (hcs : c'.callStack = t'.callStack) (hlog : c'.log = l.tool.log)
    (hcalm : Calm l.tool.bags c'.bags fun _ => False)
    (hf : c'.frames = g :: l.tool.frames) (hg : g.OwnStack c'.bags l.tool.callStack)
    (ha : Aligned t'.nesting.opened c'.framesSkipped t'.entered (l.tool.callStack :: l.entered)) :
    ∃ l', l.step h = some l' ∧ Stacked t' l' := by
  refine hi.advance hc ho hcs hlog hcalm (l.tool.callStack :: l.entered) (by simp [hf]) ha ?_
  rw [hf]
  exact .cons hg (OwnStack.all hi.frames hcalm fun _ _ _ _ => id)

theorem own_of_entered {g : FrameData} {h : Bags} {b : Nat} {s : CallStack} (hb : g.sbag = some b)
    (hcar : h.Carries b s) (hl : g.isLoopFrame = false) : g.OwnStack h s := by
  refine ⟨fun _ => ⟨b, hb, hcar⟩, fun h => ?_⟩
  rw [hl] at h
  cases h

theorem funcEntry {m : Bool} {k : Nat} (hi : Stacked t l)
    (hc : l.tool.step (.funcEntry m k) = some c')
    (ho : Owning t'.nesting c') (hs : t.step (.funcEntry m k) = some t') :
    ∃ l', l.step (.funcEntry m k) = some l' ∧ Stacked t' l' := by
  simp only [CallNesting.step, Nesting.step, Option.bind_eq_bind, Option.bind_eq_some_iff,
    Option.ite_none_right_eq_some, Option.some.injEq] at hs
  obtain ⟨n, ⟨hrun, rfl⟩, hs⟩ := hs
  simp only [Nesting.push, List.length_cons, Nat.lt_add_one, if_true] at hs
  cases hs
  obtain ⟨f, fs, -, hf, -⟩ := hi.owning.layout.exists_head
  obtain ⟨synced, hsync⟩ : ∃ b, l.tool.isLocalSynced = some b := by simp [CilkSan.isLocalSynced, hf]
  have hcs := hc
  simp only [CilkSan.step, CilkSan.funcEntry, hsync, Option.bind_eq_bind, Option.bind_some] at hcs
  by_cases hskip : (!m && synced) = true
  · have hcs' : c' = { l.tool with framesSkipped := true :: l.tool.framesSkipped } := by
      cases m <;> cases synced <;> simp_all
    subst hcs'
    refine hi.advance hc ho hi.callStack rfl (Calm.refl hi.vacant) l.entered (by simp) ?_ hi.frames
    rw [← hi.callStack]
    exact .skipped _ hi.aligned
  · have hcs' :
        ({ l.tool with framesSkipped := false :: l.tool.framesSkipped } : CilkSan).doEnter k =
        some c' := by
      cases m <;> cases synced <;> simp_all
    obtain ⟨g, h', b, rfl, hcalm, hb, hcar, -, hty⟩ := CilkSan.enter_carries
      (c := { l.tool with framesSkipped := false :: l.tool.framesSkipped }) _ hi.vacant hf hcs'
    refine hi.push hc ho hi.callStack rfl hcalm (by rw [hf]) (own_of_entered hb hcar ?_) ?_
    · rw [FrameData.isLoopFrame, hty]
      rfl
    rw [← hi.callStack]
    exact .called _ hi.aligned

theorem task {k : Nat} (hi : Stacked t l) (hc : l.tool.step (.task k) = some c')
    (ho : Owning t'.nesting c')
    (hs : t.step (.task k) = some t') : ∃ l', l.step (.task k) = some l' ∧ Stacked t' l' := by
  simp only [CallNesting.step, Nesting.step, Option.bind_eq_bind, Option.bind_eq_some_iff,
    Option.ite_none_right_eq_some, Option.some.injEq] at hs
  obtain ⟨n, ⟨hsp, rfl⟩, hs⟩ := hs
  simp only [Nesting.push, List.length_cons, Nat.lt_add_one, if_true] at hs
  cases hs
  obtain ⟨f, fs, -, hf, -⟩ := hi.owning.layout.exists_head
  obtain ⟨g, h', b, rfl, hcalm, hb, hcar, -, hty⟩ := CilkSan.enter_carries _ hi.vacant hf hc
  refine hi.push hc ho hi.callStack rfl hcalm (by rw [hf]) (own_of_entered hb hcar ?_) ?_
  · rw [FrameData.isLoopFrame, hty]
    rfl
  rw [← hi.callStack]
  exact .spawned _ rfl hi.aligned

theorem loopIterationBegin {k : Nat} (hi : Stacked t l)
    (hc : l.tool.step (.loopIterationBegin k) = some c')
    (ho : Owning t'.nesting c') (hs : t.step (.loopIterationBegin k) = some t') :
    ∃ l', l.step (.loopIterationBegin k) = some l' ∧ Stacked t' l' := by
  simp only [CallNesting.step, Nesting.step, Nesting.loopIterationBegin, Option.bind_eq_bind,
    Option.bind_eq_some_iff] at hs
  obtain ⟨n, hn, hs⟩ := hs
  obtain ⟨f, fs, -, hf, -⟩ := hi.owning.layout.exists_head
  have hcs := hc
  simp only [CilkSan.step, CilkSan.doLoopIterationBegin, hi.owning.pending] at hcs
  split at hn
  · next hpl =>
    cases hn
    simp only [Nesting.push, List.length_cons, Nat.lt_add_one, if_true] at hs
    cases hs
    simp only [hpl, if_true, Option.bind_eq_bind, Option.bind_eq_some_iff] at hcs
    obtain ⟨c₁, hc₁, f₁, hf₁, ⟨g, h₂⟩, hcr, hcs⟩ := hcs
    obtain ⟨g₁, h₁, b, rfl, hcalm, hb, hcar, hib, hty⟩ := CilkSan.enter_carries _ hi.vacant hf hc₁
    cases hf₁
    cases hcs
    obtain ⟨i, rfl, hcari, hcalm₂⟩ := CilkSan.createIterbag_carries
      (f := { f₁ with frameData := f₁.frameData.setLoopFrame }) hcalm.vacant hb hcar (fun i hi => by
        rw [show ({ f₁ with frameData := f₁.frameData.setLoopFrame } : FrameData).iterbag =
          none from hib] at hi
        cases hi) hcr
    have hno : ∀ z, f₁.iterbag ≠ some z := fun z => by rw [hib]; simp
    refine hi.push (g := { f₁ with
        frameData := f₁.frameData.setLoopFrame
        iterbag := some i
        iterbagUsed :=
          false }) hc ho hi.callStack rfl
            ((hcalm.trans hcalm₂).mono fun z _ ht => ht.elim id (hno z))
      (by rw [hf]; rfl) ⟨fun _ => ⟨b, hb, hcalm₂.carries (hno b) hcar⟩, fun _ => ⟨i, rfl, hcari⟩⟩ ?_
    rw [← hi.callStack]
    exact .spawned _ rfl hi.aligned
  · next hpl =>
    simp only [hpl, Bool.false_eq_true, if_false, hf, List.head?_cons, Option.bind_eq_bind,
      Option.bind_some] at hcs
    cases hcs
    split at hn
    · next m os hop =>
      cases hn
      simp only [hop, List.length_cons, Nat.lt_irrefl, if_false] at hs
      cases hs
      refine hi.sameHead f.enterLoopContinuation hf hc ho hi.callStack rfl rfl
        (by simp [CilkSan.setHead, hf]) rfl rfl rfl rfl rfl ?_
      have ha := hi.aligned
      rw [hop] at ha
      generalize l.entered = es at ha
      generalize t.entered = ss at ha
      cases ha with
      | spawned s _ ha => exact .spawned s rfl ha
    · cases hn

theorem loopIterationEnd (hi : Stacked t l) (hc : l.tool.step .loopIterationEnd = some c')
    (ho : Owning t'.nesting c')
    (hs : t.step .loopIterationEnd = some t') : ∃ l', l.step .loopIterationEnd = some l' ∧
    Stacked t' l' := by
  simp only [CallNesting.step, Nesting.step, Nesting.loopIterationEnd, Option.bind_eq_bind,
    Option.bind_eq_some_iff, Option.ite_none_right_eq_some] at hs
  obtain ⟨n, ⟨hrun, hn⟩, hbase, hs⟩ := hs
  split at hn
  · next m os hop =>
    cases hn
    cases hs
    have hl := hi.owning.layout
    have ha := hi.aligned
    have hfr := hi.frames
    rw [hop] at hl ha
    generalize hfs : l.tool.frames = fs at hl hfr
    generalize hes : l.entered = es at ha hfr
    generalize hss : t.entered = ss at ha
    cases hl with
    | @spawned _ _ _ f gs hsp hl hf hlay =>
      cases ha with
      | @spawned _ _ _ _ es s _ ha =>
        have hs : l.tool.callStack = s := by rw [hi.callStack, hbase, CallNesting.base, hss]; rfl
        obtain ⟨hown, hrest⟩ := List.forall₂_cons.1 hfr
        obtain ⟨b, hb, hbi⟩ := hf.ok.sbag
        obtain ⟨i, hib⟩ := Option.isSome_iff_exists.1 hf.iterbag
        obtain ⟨hii, hne⟩ := hf.ok.iterbag hib
        have hp : ∀ {z}, l.tool.bags.Is z .sBag → f.pbag 0 ≠ some z := fun hz hp => by
          cases hz.type_eq (hf.ok.pbag hp)
        obtain ⟨g, h', rfl, hg, hcalm⟩ :=
          CilkSan.doLoopIterationEnd_carries hi.vacant hfs hf.loop hb hib
            (fun he => hne (by rw [hb, he])) hbi.live (hp hbi) (hp hii) (by rw [hs]; exact hown) hc
        refine hi.advance hc ho hi.callStack rfl hcalm (s :: es) (by simp [hfs, hes])
          (.spawned s rfl ha) (.cons (by rw [← hs]; exact hg) ?_)
        · have hap := hi.owning.apart
          rw [hfs, List.pairwise_cons] at hap
          exact OwnStack.all hrest hcalm fun g hgs b hgb hfb => hap.1 g hgs b hfb hgb
  · cases hn

theorem sync {r : Nat} (hi : Stacked t l) (hok : StackOk l.tool (.sync r))
    (hc : l.tool.step (.sync r) = some c')
    (ho : Owning t'.nesting c') (hs : t.step (.sync r) = some t') :
    ∃ l', l.step (.sync r) = some l' ∧ Stacked t' l' := by
  simp only [CallNesting.step, Nesting.step, Option.bind_eq_bind, Option.bind_eq_some_iff,
    Option.ite_none_right_eq_some, Option.some.injEq] at hs
  obtain ⟨n, ⟨⟨hsp, hr⟩, rfl⟩, hs⟩ := hs
  simp only [Nat.lt_irrefl, if_false] at hs
  cases hs
  obtain ⟨f, fs, o, hf, hfit⟩ := hi.owning.layout.exists_head
  obtain ⟨b, hb, hbi⟩ := hfit.ok.sbag
  obtain ⟨g, h₁, h', rfl, hgb, hgi, hgd, hgu, hu, hcalm⟩ := CilkSan.doSync_calm hi.vacant hf hb hc
  have hu' := Calm.combineUsed hi.vacant hu
  have hfr := hi.frames
  have hap := hi.owning.apart
  rw [hf] at hfr hap
  -- The P-bag is none of the other two bags.
  have hp : ∀ {z}, l.tool.bags.Is z .sBag → f.pbag r ≠ some z := fun hz hp => by
    cases hz.type_eq (hfit.ok.pbag hp)
  generalize hes : l.entered = es at hfr
  cases hfr with
  | @cons _ s _ es hown hrest =>
    have hg := hown.merge hfit.ok hb hu (fun p hp => (hfit.ok.pbag hp).1)
      (fun _ hl => by rw [← hb]; exact hok f (by simp [hf]) hl) hgb hgi hgd
      (fun h => (hgu h).imp id fun h => by rw [h]; rfl) hi.vacant
    refine hi.advance hc ho hi.callStack rfl (hu'.trans hcalm) (s :: es)
      (by simp [hf, hes]) ?_ (.cons ?_ ?_)
    · rw [← hes]
      exact hi.aligned
    · refine hg.calm hcalm rfl rfl rfl id fun z hz => ?_
      rcases hz with hz | hz
      · rw [hgb] at hz
        cases hz
        exact hp hbi
      · exact hp (hfit.ok.iterbag (hgi.symm.trans hz)).1
    · refine OwnStack.all hrest (hu'.trans hcalm) fun g hg z hz ht =>
        (List.pairwise_cons.1 hap).1 g hg z ?_ hz
      exact ht.elim (fun he => .inl (by rw [hb, he])) fun he => .inr (.inl ⟨r, he⟩)

/-- The head frame is popped, and its parent keeps its S-bag and its Iter-bag. -/
theorem pop {h : Hook} {child parent f' : FrameData} {fs : List FrameData} {s s' : CallStack}
    {es : List CallStack}
    (hi : Stacked t l) (hc : l.tool.step h = some c') (ho : Owning t'.nesting c')
    (hcs : c'.callStack = t'.callStack)
    (hlog : c'.log = l.tool.log) (hf : l.tool.frames = child :: parent :: fs)
    (hf' : c'.frames = f' :: fs)
    (hes : l.entered = s :: s' :: es) (hcalm : Calm l.tool.bags c'.bags T)
    (hg : f'.OwnStack c'.bags s') (ht : ∀ b, T b → child.Has b ∨ parent.Has b)
    (ha : Aligned t'.nesting.opened c'.framesSkipped t'.entered (s' :: es)) :
    ∃ l', l.step h = some l' ∧ Stacked t' l' := by
  have hap := hi.owning.apart
  have hfr := hi.frames
  rw [hf, List.pairwise_cons, List.pairwise_cons] at hap
  rw [hf, hes, List.forall₂_cons, List.forall₂_cons] at hfr
  refine hi.advance hc ho hcs hlog hcalm (s' :: es) (by simp [hf, hf', hes]) ha ?_
  rw [hf']
  refine .cons hg (OwnStack.all hfr.2.2 hcalm fun g hgs b hb htb => ?_)
  rcases ht b htb with hcb | hpb
  · exact hap.1 g (by simp [hgs]) b hcb hb
  · exact hap.2.1 g hgs b hpb hb

/-- The parent's S-bag and Iter-bag are none of the child's bags, and no P-bag. -/
theorem not_child_or_pbag {child parent : FrameData} {r b : Nat} {h : Bags} (hp : parent.Ok h)
    (hap : child.Apart parent)
    (hb : parent.sbag = some b ∨ parent.iterbag = some b) :
    ¬ (child.Has b ∨ parent.pbag r = some b) := by
  intro ht
  rcases ht with ht | ht
  · exact hap b ht (hb.imp id .inr)
  · obtain ⟨z, hz, hzi⟩ := hp.sbag
    rcases hb with hb | hb
    · rw [hz] at hb
      cases hb
      cases hzi.type_eq (hp.pbag ht)
    · cases (hp.iterbag hb).1.type_eq (hp.pbag ht)

/-- The parent of a task, or of a loop, changes its P-bags only. -/
theorem own_withPbag {child parent : FrameData} {r p : Nat} {h h' : Bags} {s : CallStack}
    (hg : parent.OwnStack h s) (hp : parent.Ok h) (hap : child.Apart parent)
    (hcalm : Calm h h' fun b => child.Has b ∨ parent.pbag r = some b) :
    (parent.withPbag r (some p)).OwnStack h' s :=
  hg.calm hcalm rfl rfl rfl id fun _ hb => not_child_or_pbag hp hap hb

/-- What belongs to the frame of a task or a loop, and to the one below. -/
structure Spawned (t : CallNesting) (l : CallLog) (o : Opened) (os : List Opened) (f g : FrameData)
    (gs : List FrameData) (s' : CallStack) : Prop where
  frames : l.tool.frames = f :: g :: gs
  fits : Fits l.tool.bags f o
  ok : g.Ok l.tool.bags
  apart : f.Apart g
  own : g.OwnStack l.tool.bags s'
  aligned :
    ∃ s es, l.entered = s :: s' :: es ∧ Aligned os l.tool.framesSkipped t.entered.tail (s' :: es)

theorem exists_spawned {o : Opened} {os : List Opened} (hi : Stacked t l)
    (hop : t.nesting.opened = o :: os)
    (ho : (o.isTask || o.isLoop) = true) : ∃ f g gs s', Spawned t l o os f g gs s' := by
  have hl := hi.owning.layout
  have ha := hi.aligned
  rw [hop] at hl ha
  generalize hks : l.tool.framesSkipped = ks at hl ha
  generalize hfs : l.tool.frames = fs at hl
  generalize hes : l.entered = es at ha
  generalize hss : t.entered = ss at ha
  cases hl with
  | skipped => simp [Opened.isTask, Opened.isLoop] at ho
  | called => simp [Opened.isTask, Opened.isLoop] at ho
  | @spawned _ _ _ f gs hsp _ hf hlay =>
    obtain ⟨g, gs, o', rfl, hgo⟩ := hlay.exists_head
    cases ha with
    | skipped => simp [Opened.isTask, Opened.isLoop] at ho
    | called => simp [Opened.isTask, Opened.isLoop] at ho
    | @spawned _ _ _ _ es s _ ha =>
      have hfr := hi.frames
      rw [hfs, hes] at hfr
      cases (List.forall₂_cons.1 hfr).2 with
      | @cons _ s' _ es hown hrest =>
        have hap := hi.owning.apart
        rw [hfs, List.pairwise_cons] at hap
        exact ⟨f, g, gs, s', hfs, hf, hgo.ok, hap.1 g (by simp), hown, s, es, hes,
          by rw [hss, hks]; exact ha⟩

/-- A task or a loop ends. -/
theorem popSpawned {h : Hook} {o : Opened} {os : List Opened} {f g : FrameData}
    {gs : List FrameData} {s' : CallStack}
    {r p : Nat} {h' : Bags} {n : Nesting} (hi : Stacked t l) (hsp : Spawned t l o os f g gs s')
    (hn : n.opened = os)
    (hc : l.tool.step h = some { l.tool with bags := h', frames := g.withPbag r (some p) :: gs })
    (hcalm : Calm l.tool.bags h' fun b => f.Has b ∨ g.pbag r = some b)
    (ho : Owning n { l.tool with bags := h', frames := g.withPbag r (some p) :: gs }) :
    ∃ l', l.step h = some l' ∧ Stacked { t with nesting := n, entered := t.entered.tail } l' := by
  obtain ⟨s, es, hes, ha⟩ := hsp.aligned
  rw [← hn] at ha
  exact hi.pop hc ho hi.callStack rfl hsp.frames rfl hes hcalm
    (own_withPbag hsp.own hsp.ok hsp.apart hcalm)
    (fun b => .imp id fun hb => .inr (.inl ⟨r, hb⟩)) ha

theorem taskExit {r : Nat} (hi : Stacked t l) (hc : l.tool.step (.taskExit r) = some c')
    (ho : Owning t'.nesting c')
    (hs : t.step (.taskExit r) = some t') :
    ∃ l', l.step (.taskExit r) = some l' ∧ Stacked t' l' := by
  simp only [CallNesting.step, Nesting.step, Option.bind_eq_bind, Option.bind_eq_some_iff] at hs
  obtain ⟨n, hn, hs⟩ := hs
  split at hn
  · next k o os hop =>
    simp only [Option.ite_none_right_eq_some, Option.some.injEq] at hn
    obtain ⟨⟨hrun, hr⟩, rfl⟩ := hn
    simp only [hop, List.length_cons, Nat.lt_add_one, if_true,
      if_neg (show ¬ os.length + 1 + 1 < os.length + 1 by omega),
      Option.ite_none_right_eq_some] at hs
    obtain ⟨hbase, hs⟩ := hs
    cases hs
    obtain ⟨f, g, gs, s', hsp⟩ := hi.exists_spawned hop rfl
    have hd : f.frameData.isDetacher = true := hsp.fits.detacher
    have hcs := hc
    simp only [CilkSan.step, CilkSan.doLeave, hsp.frames, List.head?_cons, Option.bind_eq_bind,
      Option.bind_some, hd, if_true] at hcs
    obtain ⟨p, h', rfl, hcalm⟩ := CilkSan.returnFromDetach_calm hi.vacant hsp.frames hcs
    exact hi.popSpawned hsp rfl hc hcalm ho
  · cases hn

theorem loopEnd {r : Nat} (hi : Stacked t l) (hok : OwnershipOk l.tool (.loopEnd r))
    (hc : l.tool.step (.loopEnd r) = some c') (ho : Owning t'.nesting c')
    (hs : t.step (.loopEnd r) = some t') : ∃ l', l.step (.loopEnd r) = some l' ∧ Stacked t' l' := by
  have hpl : t.nesting.pendingLoop = false := hi.owning.pending.symm.trans hok
  simp only [CallNesting.step, Nesting.step, Nesting.loopEnd, hpl, Bool.false_eq_true, if_false,
    Option.bind_eq_bind, Option.bind_eq_some_iff] at hs
  obtain ⟨n, hn, hs⟩ := hs
  split at hn
  · next k o os hop =>
    simp only [Option.ite_none_right_eq_some, Option.some.injEq] at hn
    obtain ⟨hr, rfl⟩ := hn
    simp only [hop, List.length_cons, Nat.lt_add_one, if_true,
      if_neg (show ¬ os.length + 1 + 1 < os.length + 1 by omega),
      Option.ite_none_right_eq_some] at hs
    obtain ⟨hbase, hs⟩ := hs
    cases hs
    obtain ⟨f, g, gs, s', hsp⟩ := hi.exists_spawned hop rfl
    obtain ⟨p, h', rfl, hcalm⟩ := CilkSan.doLoopEnd_calm hi.vacant hsp.frames
      (by rw [hsp.fits.length]; exact hsp.fits.nonempty rfl) hsp.fits.detacher hc
    exact hi.popSpawned hsp rfl hc hcalm ho
  · cases hn

theorem funcExit (hi : Stacked t l) (hok : StackOk l.tool .funcExit)
    (hc : l.tool.step .funcExit = some c')
    (ho : Owning t'.nesting c') (hs : t.step .funcExit = some t') :
    ∃ l', l.step .funcExit = some l' ∧ Stacked t' l' := by
  simp only [CallNesting.step, Nesting.step, Option.bind_eq_bind, Option.bind_eq_some_iff] at hs
  obtain ⟨n, hn, hs⟩ := hs
  split at hn
  · next m k os hop =>
    simp only [Option.ite_none_right_eq_some, Option.some.injEq] at hn
    obtain ⟨hrun, rfl⟩ := hn
    simp only [hop, List.length_cons, Nat.lt_add_one, if_true,
      if_neg (show ¬ os.length + 1 < os.length by omega), Option.ite_none_right_eq_some] at hs
    obtain ⟨hbase, hs⟩ := hs
    cases hs
    have hl := hi.owning.layout
    have ha := hi.aligned
    rw [hop] at hl ha
    generalize hks : l.tool.framesSkipped = ks at hl ha
    generalize hfs : l.tool.frames = fs at hl
    generalize hes : l.entered = es at ha
    generalize hss : t.entered = ss at ha
    have hcs := hc
    simp only [CilkSan.step, CilkSan.funcExit, hks, Option.bind_eq_bind,
      Option.bind_eq_some_iff] at hcs
    obtain ⟨sk, hsk, hcs⟩ := hcs
    cases hl with
    | skipped hr hlay =>
      cases ha with
      | spawned _ ho' => simp [Opened.isTask, Opened.isLoop] at ho'
      | skipped s ha =>
        cases hsk
        cases hcs
        refine hi.advance hc ho hi.callStack rfl (Calm.refl hi.vacant) l.entered
          (by simp) ?_ hi.frames
        simp only [hes, hks, List.tail_cons]
        exact ha
    | spawned _ ho' => simp [Opened.isTask, Opened.isLoop] at ho'
    | @called _ _ _ ks' f gs hr hf hlay =>
      obtain ⟨g, gs, o', rfl, hgo⟩ := hlay.exists_head
      cases ha with
      | spawned _ ho' => simp [Opened.isTask, Opened.isLoop] at ho'
      | @called _ _ _ _ _ es s ha =>
        cases hsk
        have hd : f.frameData.isDetacher = false := hf.detacher
        simp only [Bool.false_eq_true, if_false, CilkSan.doLeave, hfs, List.head?_cons,
          Option.bind_eq_bind, Option.bind_some, hd, Option.bind_eq_some_iff] at hcs
        obtain ⟨c₁, hc₁, hcs⟩ := hcs
        cases hcs
        obtain ⟨b, hb, hbi⟩ := hgo.ok.sbag
        obtain ⟨f', h₁, h', rfl, hgb, hgi, hgd, hgu, hu, hcalm⟩ :=
          CilkSan.leaveCilkFunction_calm hi.vacant hfs hb hc₁
        have hfr := hi.frames
        have hap := hi.owning.apart
        rw [hfs, hes] at hfr
        rw [hfs, List.pairwise_cons] at hap
        cases (List.forall₂_cons.1 hfr).2 with
        | @cons _ s' _ es hown hrest =>
          have hg := hown.merge (g := f') hgo.ok hb hu (fun p hp => by
              obtain ⟨p', hp', hpi⟩ := hf.ok.sbag
              rw [hp] at hp'
              cases hp'
              exact hpi.1)
            (fun hu hl => by
              rw [← hb]
              exact hok (by rw [hks]; rfl) f (by simp [hfs]) g (by simp [hfs]) hu hl)
            hgb hgi hgd
            (fun h => by simpa using hgu.symm.trans h) hi.vacant
          have hu' := Calm.combineUsed hi.vacant hu
          refine hi.pop hc ho hi.callStack rfl hfs rfl hes (hu'.trans hcalm) ?_ (fun z ht => ?_) ?_
          · refine hg.calm hcalm rfl rfl rfl id fun z hz ht => ?_
            have hzg : g.sbag = some z ∨ g.iterbag = some z :=
              hz.imp (fun hz => hb.trans (hgb.symm.trans hz)) fun hz => hgi.symm.trans hz
            exact not_child_or_pbag hgo.ok (hap.1 g (by simp)) hzg ht
          · rcases ht with rfl | ht | ht
            · exact .inr (.inl hb)
            · exact .inl ht
            · exact .inr (.inr (.inl ⟨0, ht⟩))
          · simp only [hks, List.tail_cons]
            exact ha
  · cases hn

/-- Only the ghost of the trace and the call stack change. -/
theorem sameBags {h : Hook} (hi : Stacked t l) (hc : l.tool.step h = some c')
    (ho : Owning t'.nesting c')
    (hcs : c'.callStack = t'.callStack) (hlog : c'.log = l.tool.log)
    (hf : c'.frames = l.tool.frames)
    (hk : c'.framesSkipped = l.tool.framesSkipped) (hcalm : Calm l.tool.bags c'.bags fun _ => False)
    (hn : t'.nesting.opened = t.nesting.opened) (he : t'.entered = t.entered) :
    ∃ l', l.step h = some l' ∧ Stacked t' l' := by
  refine hi.advance hc ho hcs hlog hcalm l.entered (by simp [hf]) ?_ ?_
  · rw [hk, hn, he]
    exact hi.aligned
  · rw [hf]
    exact OwnStack.all hi.frames hcalm fun _ _ _ _ => id

theorem check {i : Nat} (hi : Stacked t l) (hc : l.tool.step (.check i) = some c')
    (ho : Owning t'.nesting c')
    (hs : t.step (.check i) = some t') : ∃ l', l.step (.check i) = some l' ∧ Stacked t' l' := by
  simp only [CallNesting.step, Nesting.step, Option.bind_eq_bind, Option.bind_eq_some_iff,
    Option.ite_none_right_eq_some, Option.some.injEq] at hs
  obtain ⟨n, ⟨hlt, rfl⟩, hs⟩ := hs
  simp only [Nat.lt_irrefl, if_false] at hs
  cases hs
  have hcs := hc
  simp only [CilkSan.step, CilkSan.checkAccess, Option.bind_eq_bind, Option.map_eq_some_iff,
    Option.bind_eq_some_iff] at hcs
  obtain ⟨⟨v, c₁⟩, ⟨m, hm, f, hf, hcs⟩, rfl⟩ := hcs
  cases hcs
  refine hi.sameBags hc ho hi.callStack rfl rfl rfl ?_ rfl rfl
  rw [previousAccessInParallel_snd]
  exact Calm.getSbagOrNull hi.vacant _

theorem access {a : Nat} (hi : Stacked t l) (hc : l.tool.step (.access a) = some c')
    (ho : Owning t'.nesting c')
    (hs : t.step (.access a) = some t') : ∃ l', l.step (.access a) = some l' ∧ Stacked t' l' := by
  simp only [CallNesting.step, Nesting.step, Option.bind_eq_bind, Option.bind_eq_some_iff,
    Option.ite_none_right_eq_some, Option.some.injEq] at hs
  obtain ⟨n, ⟨hrun, rfl⟩, hs⟩ := hs
  simp only [Nat.lt_irrefl, if_false] at hs
  cases hs
  have hcs := hc
  simp only [CilkSan.step, CilkSan.recordAccess, Option.bind_eq_bind,
    Option.bind_eq_some_iff] at hcs
  obtain ⟨f, hf, ⟨b, f'⟩, hget, x, hx, d, hd, hcs⟩ := hcs
  cases hcs
  obtain ⟨fs, hfs⟩ := List.head?_eq_some_iff.1 hf
  have hfr := hi.frames
  rw [hfs] at hfr
  generalize hes : l.entered = es at hfr
  cases hfr with
  | @cons _ s _ es hown hrest =>
    -- The bag that the access goes to carries the frame's call stack.
    obtain ⟨hcar, hs, hib, hfd, hu⟩ : l.tool.bags.Carries b s ∧ f'.sbag = f.sbag ∧
        f'.iterbag = f.iterbag ∧
        f'.frameData = f.frameData ∧ (f'.sbagUsed = false → f.sbagUsed = false) := by
      simp only [FrameData.getSbagForAccess] at hget
      split at hget
      · next hl =>
        obtain ⟨i, hi', hcar⟩ := hown.iterbag hl
        simp only [hi', Option.map_some, Option.some.injEq, Prod.mk.injEq] at hget
        obtain ⟨rfl, rfl⟩ := hget
        exact ⟨hcar, rfl, hi'.symm, rfl, id⟩
      · next hl =>
        obtain ⟨b', hb', hcar⟩ := hown.sbag (.inl (by simpa using hl))
        simp only [hb', Option.map_some, Option.some.injEq, Prod.mk.injEq] at hget
        obtain ⟨rfl, rfl⟩ := hget
        exact ⟨hcar, hb'.symm, rfl, rfl, fun h => by cases h⟩
    obtain ⟨y, e, hy, hye, hlt, hdata⟩ := hcar
    rw [hx] at hy
    cases hy
    rw [hd] at hye
    cases hye
    refine ⟨⟨_, s :: es, s :: l.accesses⟩, ?_, ho, hi.callStack, ?_, ?_, .cons ⟨hlt, hdata⟩ hi.log⟩
    · simp [CallLog.step, hc, hes, hfs, CilkSan.setHead]
    · rw [← hes]
      exact hi.aligned
    · simp only [hfs, List.tail_cons]
      exact .cons (hown.calm (Calm.refl hi.vacant) hs hib hfd hu fun _ _ => id) hrest

/-! ## Runs -/

theorem init : Stacked {} CallLog.init := by
  obtain ⟨-, -, hcar⟩ := Calm.createNewSBag (h := Bags.empty) WF.empty.vacant []
  exact ⟨Owning.init, rfl, .root, .cons (own_of_entered rfl hcar rfl) .nil, .nil⟩

/-- **One hook.** -/
theorem step {h : Hook} (hi : Stacked t l) (hok : OwnershipOk l.tool h ∧ StackOk l.tool h)
    (hs : t.step h = some t') : ∃ l', l.step h = some l' ∧ Stacked t' l' := by
  obtain ⟨n, hn⟩ : ∃ n, t.nesting.step h = some n := by
    cases hn : t.nesting.step h with
    | none => simp [CallNesting.step, hn] at hs
    | some n => exact ⟨n, rfl⟩
  obtain ⟨c', hc, ho⟩ := hi.owning.step hok.1 hn
  rw [← nesting_eq hn hs] at ho
  cases h with
  | funcEntry m k => exact hi.funcEntry hc ho hs
  | funcExit => exact hi.funcExit hok.2 hc ho hs
  | task k => exact hi.task hc ho hs
  | taskExit r => exact hi.taskExit hc ho hs
  | sync r => exact hi.sync hok.2 hc ho hs
  | loopIterationBegin k => exact hi.loopIterationBegin hc ho hs
  | loopIterationEnd => exact hi.loopIterationEnd hc ho hs
  | loopEnd r => exact hi.loopEnd hok.1 hc ho hs
  | access a => exact hi.access hc ho hs
  | check i => exact hi.check hc ho hs
  | detachContinue r =>
    simp only [CallNesting.step, Nesting.step, Option.bind_eq_bind, Option.bind_eq_some_iff,
      Option.ite_none_right_eq_some, Option.some.injEq] at hs
    obtain ⟨_, ⟨-, rfl⟩, hs⟩ := hs
    simp only [Nat.lt_irrefl, if_false] at hs
    cases hs
    obtain ⟨f, fs, -, hf, -⟩ := hi.owning.layout.exists_head
    have hcs := hc
    simp only [CilkSan.step, CilkSan.doDetachContinue, hf, List.head?_cons, Option.bind_eq_bind,
      Option.bind_some] at hcs
    cases hcs
    exact hi.sameHead (f.enterContinuation r) hf hc ho hi.callStack rfl rfl
      (by simp [CilkSan.setHead, hf]) rfl rfl rfl rfl rfl hi.aligned
  | loopBegin =>
    simp only [CallNesting.step, Nesting.step, Option.bind_eq_bind, Option.bind_eq_some_iff,
      Option.ite_none_right_eq_some, Option.some.injEq] at hs
    obtain ⟨_, ⟨-, rfl⟩, hs⟩ := hs
    simp only [Nat.lt_irrefl, if_false] at hs
    cases hs
    cases hc
    exact hi.sameBags rfl ho hi.callStack rfl rfl rfl (Calm.refl hi.vacant) rfl rfl
  | recordCall call =>
    simp only [CallNesting.step, Nesting.step, Option.bind_eq_bind, Option.bind_some] at hs
    cases hs
    cases hc
    exact hi.sameBags rfl ho (by rw [← hi.callStack]) rfl rfl rfl (Calm.refl hi.vacant) rfl rfl
  | recordCallReturn =>
    simp only [CallNesting.step, Nesting.step, Option.bind_eq_bind, Option.bind_some,
      Option.ite_none_left_eq_some] at hs
    obtain ⟨-, hs⟩ := hs
    cases hs
    cases hc
    exact hi.sameBags rfl ho (by rw [← hi.callStack]) rfl rfl rfl (Calm.refl hi.vacant) rfl rfl

end Stacked

/-- Every hook of a run meets `OwnershipOk` and `StackOk`. -/
def StackRunOk (c : CilkSan) : List Hook → Prop
  | [] => True
  | h :: hs => (OwnershipOk c h ∧ StackOk c h) ∧ ∀ c' ∈ c.step h, StackRunOk c' hs

instance decidableStackOk (c : CilkSan) : (h : Hook) → Decidable (StackOk c h)
  | .sync r =>
    inferInstanceAs
      (Decidable (∀ f ∈ c.frames.head?, f.isLoopFrame = false →
        c.bags.KeepsStack f.sbag (f.pbag r)))
  | .funcExit =>
    inferInstanceAs (Decidable (c.framesSkipped.head? = some false → ∀ child ∈ c.frames.head?,
      ∀ parent ∈ c.frames.tail.head?, child.sbagUsed = true → parent.isLoopFrame = false →
        c.bags.KeepsStack parent.sbag child.sbag))
  | .funcEntry .. | .task _ | .taskExit _ | .detachContinue _ | .loopBegin | .loopIterationBegin _ |
    .loopIterationEnd
  | .loopEnd _ | .recordCall _ | .recordCallReturn | .access _ | .check _ =>
    inferInstanceAs (Decidable True)

instance decidableStackRunOk (c : CilkSan) : (hooks : List Hook) → Decidable (StackRunOk c hooks)
  | [] => inferInstanceAs (Decidable True)
  | h :: hs =>
    have := fun c' => decidableStackRunOk c' hs
    inferInstanceAs
      (Decidable ((OwnershipOk c h ∧ StackOk c h) ∧ ∀ c' ∈ c.step h, StackRunOk c' hs))

/-- **A run.** -/
theorem Stacked.run {hooks : List Hook} (hi : Stacked t l) (hok : StackRunOk l.tool hooks)
    (hs : t.run hooks = some t') : ∃ l', l.run hooks = some l' ∧ Stacked t' l' := by
  induction hooks generalizing t l with
  | nil =>
    cases hs
    exact ⟨l, rfl, hi⟩
  | cons h hooks ih =>
    simp only [CallNesting.run, List.foldlM_cons, Option.bind_eq_bind,
      Option.bind_eq_some_iff] at hs
    obtain ⟨t₁, hs₁, hs⟩ := hs
    obtain ⟨l₁, hl₁, hi₁⟩ := hi.step hok.1 hs₁
    have htool : l.tool.step h = some l₁.tool := by
      have := hl₁
      simp only [CallLog.step, Option.bind_eq_bind, Option.bind_eq_some_iff] at this
      obtain ⟨c, hc, hl⟩ := this
      cases hl
      exact hc
    obtain ⟨l', hl', hi'⟩ := ih hi₁ (hok.2 l₁.tool htool) hs
    refine ⟨l', ?_, hi'⟩
    simp only [CallLog.run, List.foldlM_cons, hl₁, Option.bind_eq_bind, Option.bind_some]
    exact hl'

/-- The tool takes every hook, and afterwards each access that it recorded
carries the call stack its frame was entered with. -/
def KeepsStacks (hooks : List Hook) : Prop :=
  ∃ l, CallLog.init.run hooks = some l ∧
  l.tool.log.map (fun m => (m.getLoc l.tool.bags).callStack) = l.accesses

/-- **Call stacks.** In every well-nested run in which no merge hands the S-bag
of a function or a task another call stack, each recorded access carries the
call stack of its frame. -/
theorem keepsStacks_of_stackRunOk {hooks : List Hook} (hs : CallNesting.run {} hooks = some t)
    (hok : StackRunOk CilkSan.init hooks) : KeepsStacks hooks := by
  obtain ⟨l, hl, hi⟩ := Stacked.init.run (l := CallLog.init) hok hs
  refine ⟨l, hl, ?_⟩
  rw [← List.forall₂_eq_eq_eq, List.forall₂_map_left_iff]
  exact hi.log.imp fun _ _ hm => hm.2

/-- In an iteration, the loop's own accesses do not take over the call stack of
a function called there. -/
theorem keepsStacks_of_stackRunOk_loop :
    KeepsStacks [.funcEntry true 1, .recordCall ⟨.loop, 0⟩, .loopBegin,
    .loopIterationBegin 0, .recordCall ⟨.call, 1⟩, .funcEntry true 1, .access 7, .funcExit,
    .recordCallReturn, .access 8, .loopIterationEnd, .loopIterationBegin 0, .access 9] :=
  keepsStacks_of_stackRunOk
    (t := ⟨⟨[.loop 1 true, .func true 1], false, 3⟩, [⟨.loop, 0⟩], [[⟨.loop, 0⟩], []]⟩) (by decide)
      (by decide)

/-- A task calls a function that accesses memory, and then does so itself. -/
theorem not_keepsStacks : ¬ ∀ hooks t, CallNesting.run {} hooks = some t → KeepsStacks hooks := by
  intro h
  obtain ⟨l, hl, heq⟩ :=
    h [.funcEntry true 1, .recordCall ⟨.spawn, 0⟩, .task 0, .recordCall ⟨.call, 1⟩,
      .funcEntry true 1,
    .access 7, .funcExit, .recordCallReturn, .access 8] _ rfl
  cases hl
  exact absurd heq (by decide)

end Cilksan
