/-
Cilkscale on any number of workers: continuations that are stolen run on
views of their own, which are reduced before the join.
-/
import CilkTools.Cilkscale.WorkSpan

namespace Cilkscale

/-- Work, span and burdened span. -/
abbrev Times := Int × Int × Int

def Frame.times (f : Frame) : Times := (f.continWork, f.continSpan, f.continBspan)

/-- The views reduced, left to right, in any order of association. -/
inductive Fold : List ShadowStack → ShadowStack → Prop
  | one (v : ShadowStack) : Fold [v] v
  | node {ls rs : List ShadowStack} {l r v : ShadowStack} (hl : Fold ls l) (hr : Fold rs r)
    (h : l.reduce r = some v) : Fold (ls ++ rs) v

/-- A run of the rest of a frame, some continuations being stolen. `vs` are
the views that the frame has left at steals since its last join, `v` is the one
it runs on; `ts` are the times after each of its syncs. -/
inductive Run (burden : Nat) :
    {p : Bool} → (Nat → Hook) → Body p → List ShadowStack → ShadowStack → List Times →
    ShadowStack → Prop
  | done {exit : Nat → Hook} {d : Nat} {v v' : ShadowStack} (h : v.step burden (exit d) = some v') :
    Run burden exit (.done d) [] v [] v'
  | call {p : Bool} {exit : Nat → Hook} {d : Nat} {callee : Body false} {rest : Body p}
    {vs : List ShadowStack} {v v₁ v' : ShadowStack} {ts₁ ts : List Times}
    (hc : Run burden (.funcExit true) callee [] (v.funcEntry true d) ts₁ v₁)
    (hr : Run burden exit rest vs v₁ ts v') : Run burden exit (.call d callee rest) vs v ts v'
  | spawn {p : Bool} {exit : Nat → Hook} {d : Nat} {task : Body false} {rest : Body true}
    {vs : List ShadowStack} {v v₁ v' : ShadowStack} {ts₁ ts : List Times}
    (ht : Run burden .taskExit task [] (v.detach d).task ts₁ v₁)
    (hr : Run burden exit rest vs (v₁.detachContinue burden false) ts v') :
    Run burden (p := p) exit (.spawn d task rest) vs v ts v'
  | steal {p : Bool} {exit : Nat → Hook} {d : Nat} {task : Body false} {rest : Body true}
    {vs : List ShadowStack} {v v₁ v' : ShadowStack} {ts₁ ts : List Times}
    (ht : Run burden .taskExit task [] (v.detach d).task ts₁ v₁)
    (hr : Run burden exit rest (vs ++ [v₁])
      (ShadowStack.identity.detachContinue burden false) ts v') :
    Run burden (p := p) exit (.spawn d task rest) vs v ts v'
  | unwind {p : Bool} {exit : Nat → Hook} {d : Nat} {task rest : Body false} {vs : List ShadowStack}
    {v v₁ w v' : ShadowStack} {ts₁ ts : List Times}
    (ht : Run burden .taskExit task [] (v.detach d).task ts₁ v₁) (hf : Fold (vs ++ [v₁]) w)
    (hr : Run burden exit rest [] (w.detachContinue burden true) ts v') :
    Run burden (p := p) exit (.unwind d task rest) vs v ts v'
  | sync {p : Bool} {exit : Nat → Hook} {d : Nat} {rest : Body false} {vs : List ShadowStack}
    {v w v' : ShadowStack} {ts : List Times} (hf : Fold (vs ++ [v.beforeSync d]) w)
    (hr : Run burden exit rest [] w.afterSync ts v') :
    Run burden (p := p) exit (.sync d rest) vs v (w.afterSync.bot.times :: ts) v'

/-- The times after each sync of the frame that is alone on the stack, in a serial run. -/
def ShadowStack.observe (burden : Nat) : ShadowStack → List Hook → List Times
  | _, [] => []
  | s, h :: hs =>
    match s.step burden h with
    | none => []
    | some s' =>
      if h = .afterSync ∧ s'.frames = [] then s'.bot.times :: s'.observe burden hs
        else s'.observe burden hs

/-- The times after each sync of the body's own frame. -/
def Body.syncTimes (burden : Nat) : {p : Bool} → Frame → Body p → List Times
  | _, _, done _ => []
  | _, f, call d callee rest =>
    let f := f.addStrand d
    syncTimes burden (f.returned (eval burden f.child callee) callee.last) rest
  | _, f, spawn d task rest =>
    let f := f.addStrand d
    syncTimes burden
      ((f.afterTask (eval burden f.child task) task.last burden).addBurden burden) rest
  | _, f, unwind d task rest =>
    let f := f.addStrand d
    syncTimes burden (f.afterTask (eval burden f.child task) task.last burden).join rest
  | _, f, sync d rest => (f.addStrand d).join.times :: syncTimes burden (f.addStrand d).join rest

/-! ## Reducing frames -/

namespace Frame

variable (f g h : Frame)

theorem lchildSpan_reduce :
    (f.reduce g).lchildSpan = max f.lchildSpan (f.continSpan + g.lchildSpan) := by
  simp only [reduce]
  split <;> omega

theorem lchildBspan_reduce :
    (f.reduce g).lchildBspan = max f.lchildBspan (f.continBspan + g.lchildBspan) := by
  simp only [reduce]
  split <;> omega

theorem ext' {f g : Frame} (h₁ : f.achildWork = g.achildWork) (h₂ : f.continWork = g.continWork)
    (h₃ : f.lchildSpan = g.lchildSpan) (h₄ : f.continSpan = g.continSpan)
    (h₅ : f.lchildBspan = g.lchildBspan) (h₆ : f.continBspan = g.continBspan) : f = g := by
  cases f
  cases g
  simp_all

theorem reduce_assoc : (f.reduce g).reduce h = f.reduce (g.reduce h) := by
  refine Frame.ext' ?_ ?_ ?_ ?_ ?_ ?_
  · simp only [reduce]; omega
  · simp only [reduce]; omega
  · simp only [lchildSpan_reduce, show (f.reduce g).continSpan = f.continSpan +
      g.continSpan from rfl]; omega
  · simp only [reduce]; omega
  · simp only [lchildBspan_reduce, show (f.reduce g).continBspan = f.continBspan +
      g.continBspan from rfl]; omega
  · simp only [reduce]; omega

theorem reduce_addStrand (d : Nat) : f.reduce (g.addStrand d) = (f.reduce g).addStrand d := by
  refine Frame.ext' rfl ?_ rfl ?_ rfl ?_
  all_goals
    simp only [reduce, addStrand]
    omega

theorem reduce_addBurden (burden : Nat) :
    f.reduce (g.addBurden burden) = (f.reduce g).addBurden burden := by
  refine Frame.ext' rfl rfl rfl rfl rfl ?_
  simp only [reduce, addBurden]
  omega

/-- The identity view is neutral once there is a child no shorter than the continuation. -/
theorem reduce_identity {f : Frame} (hs : f.continSpan ≤ f.lchildSpan)
    (hb : f.continBspan ≤ f.lchildBspan)
    (burden : Nat) : f.reduce (({} : Frame).addBurden burden) = f.addBurden burden := by
  refine Frame.ext' ?_ ?_ ?_ ?_ ?_ ?_
  · simp only [reduce, addBurden]; omega
  · simp only [reduce, addBurden]; omega
  · rw [lchildSpan_reduce]; simp only [addBurden]; omega
  · simp only [reduce, addBurden]; omega
  · rw [lchildBspan_reduce]; simp only [addBurden]; omega
  · simp only [reduce, addBurden]; omega

end Frame

/-- The frame `f` with the views before it reduced into it. -/
def under (vs : List ShadowStack) (f : Frame) : Frame := vs.foldr (fun v f => v.bot.reduce f) f

/-- The frames above those of the views. -/
def base (vs : List ShadowStack) (v : ShadowStack) : List Frame := (vs.head?.getD v).frames

theorem under_append (vs us : List ShadowStack) (f : Frame) :
    under (vs ++ us) f = under vs (under us f) := by
  simp [under]

theorem reduce_under (vs : List ShadowStack) (f g : Frame) :
    (under vs f).reduce g = under vs (f.reduce g) := by
  induction vs with
  | nil => rfl
  | cons v vs ih =>
    simp only [under, List.foldr_cons] at ih ⊢
    rw [Frame.reduce_assoc, ih]

theorem base_mk (vs : List ShadowStack) (v : ShadowStack) (f : Frame) :
    base vs ⟨f, v.frames⟩ = base vs v := by
  cases vs <;> rfl

theorem base_append (vs : List ShadowStack) (u v : ShadowStack) :
    base (vs ++ [u]) v = base vs u := by
  cases vs <;> rfl

/-- Views reduced in any order of association give one view. -/
theorem Fold.eq {vs : List ShadowStack} {w : ShadowStack} (h : Fold vs w) : ∃ us v, vs = us ++ [v] ∧
    w = ⟨under us v.bot, base us v⟩ := by
  induction h with
  | one v => exact ⟨[], v, rfl, rfl⟩
  | @node ls rs l r w _ _ hred ihl ihr =>
    obtain ⟨us, v, hls, hl⟩ := ihl
    obtain ⟨us', v', hrs, hr⟩ := ihr
    subst hls
    subst hrs
    refine ⟨us ++ v :: us', v', by simp, ?_⟩
    simp only [ShadowStack.reduce] at hred
    split at hred
    · cases hred
      have hbot : under (us ++ v :: us') v'.bot = (under us v.bot).reduce (under us' v'.bot) := by
        rw [under_append, reduce_under]
        rfl
      have hbase : base (us ++ v :: us') v' = base us v := by
        cases us <;> rfl
      rw [hbot, hbase, hl, hr]
      rfl
    · cases hred

theorem Fold.eq_under {vs : List ShadowStack} {v w : ShadowStack} (h : Fold (vs ++ [v]) w) :
    w = ⟨under vs v.bot, base vs v⟩ := by
  obtain ⟨us, u, heq, hw⟩ := h.eq
  obtain ⟨rfl, hv⟩ := List.append_inj' heq rfl
  cases hv
  exact hw

/-! ## Runs with steals -/

/-- The views of a frame: without outstanding tasks there is one. -/
structure Segments (p : Bool) (vs : List ShadowStack) (v : ShadowStack) : Prop where
  synced : p = false → vs = [] ∧ v.bot.Ready false
  left : ∀ u ∈ vs, u.bot.Ready true
  cur : v.bot.Ready true

theorem Frame.Ready.reduce {f g : Frame} (hf : f.Ready true) (hg : g.Ready true) :
    (f.reduce g).Ready true := by
  have h₁ := hf.span
  have h₂ := hf.bspan
  have h₃ := hg.span
  have h₄ := hg.bspan
  refine ⟨fun h => Bool.noConfusion h, ?_, ?_⟩ <;> simp only [Frame.reduce] <;> omega

theorem Frame.Ready.weaken {f : Frame} {p : Bool} (h : f.Ready p) : f.Ready true :=
  ⟨fun h => Bool.noConfusion h, h.span, h.bspan⟩

theorem under_ready {vs : List ShadowStack} (hvs : ∀ u ∈ vs, u.bot.Ready true) {f : Frame}
    (hf : f.Ready true) : (under vs f).Ready true := by
  induction vs with
  | nil => exact hf
  | cons v vs ih =>
    exact (hvs v (by simp)).reduce (ih fun u hu => hvs u (by simp [hu]))

/-- What commutes with `reduce` commutes with all the views before. -/
theorem under_comm {op : Frame → Frame}
    (h : ∀ f g : Frame, f.Ready true → g.Ready true → f.reduce (op g) = op (f.reduce g))
    {vs : List ShadowStack} (hvs : ∀ u ∈ vs, u.bot.Ready true) {f : Frame} (hf : f.Ready true) :
    under vs (op f) = op (under vs f) := by
  induction vs with
  | nil => rfl
  | cons v vs ih =>
    have hvs' : ∀ u ∈ vs, u.bot.Ready true := fun u hu => hvs u (by simp [hu])
    have hv := hvs v (by simp)
    have := ih hvs'
    simp only [under, List.foldr_cons] at this ⊢
    rw [this]
    exact h _ _ hv (under_ready hvs' hf)

namespace Body

/-- A strand and a call. -/
def callStep (burden d : Nat) (callee : Body false) (f : Frame) : Frame :=
  (f.addStrand d).returned (callee.eval burden (f.addStrand d).child) callee.last

/-- A strand and a task. -/
def taskStep (burden d : Nat) (task : Body false) (f : Frame) : Frame :=
  (f.addStrand d).afterTask (task.eval burden (f.addStrand d).child) task.last burden

variable (burden d : Nat) (b : Body false) {f g : Frame}

theorem callStep_times (hf : f.Ready true) :
    (callStep burden d b f).continWork = f.continWork + d + (b.dag.work Strand.time : Nat) ∧
      (callStep burden d b f).continSpan = f.continSpan + d + (b.dag.span Strand.time : Nat) ∧
      (callStep burden d b f).continBspan = f.continBspan + d +
      (b.dag.span (Strand.burdened burden) : Nat) :=
  ((b.adds burden _ (hf.addStrand d).child).returned (hf.addStrand d)).2

theorem taskStep_times (hf : f.Ready true) :
    (taskStep burden d b f).achildWork = f.achildWork + (b.dag.work Strand.time : Nat) ∧
      (taskStep burden d b f).lchildSpan =
        max f.lchildSpan (f.continSpan + d + (b.dag.span Strand.time : Nat)) ∧
      (taskStep burden d b f).lchildBspan =
        max f.lchildBspan
        (f.continBspan + d + (b.dag.span (Strand.burdened burden) : Nat) + burden) :=
  (b.adds burden _ (hf.addStrand d).child).afterTask (hf.addStrand d)

theorem reduce_callStep (hf : f.Ready true) (hg : g.Ready true) :
    f.reduce (callStep burden d b g) = callStep burden d b (f.reduce g) := by
  obtain ⟨hw, hs, hb⟩ := callStep_times burden d b hg
  obtain ⟨hw', hs', hb'⟩ := callStep_times burden d b (hf.reduce hg)
  refine Frame.ext' rfl ?_ ?_ ?_ ?_ ?_
  · rw [hw']
    simp only [Frame.reduce, hw]
    omega
  · rw [Frame.lchildSpan_reduce]
    exact (Frame.lchildSpan_reduce f g).symm
  · rw [hs']
    simp only [Frame.reduce, hs]
    omega
  · rw [Frame.lchildBspan_reduce]
    exact (Frame.lchildBspan_reduce f g).symm
  · rw [hb']
    simp only [Frame.reduce, hb]
    omega

theorem reduce_taskStep (hf : f.Ready true) (hg : g.Ready true) :
    f.reduce (taskStep burden d b g) = taskStep burden d b (f.reduce g) := by
  obtain ⟨hw, hs, hb⟩ := taskStep_times burden d b hg
  obtain ⟨hw', hs', hb'⟩ := taskStep_times burden d b (hf.reduce hg)
  refine Frame.ext' ?_ ?_ ?_ ?_ ?_ ?_
  · rw [hw']
    simp only [Frame.reduce, hw]
    omega
  · show (f.reduce (g.addStrand d)).continWork = ((f.reduce g).addStrand d).continWork
    rw [Frame.reduce_addStrand]
  · rw [Frame.lchildSpan_reduce, hs', hs, Frame.lchildSpan_reduce]
    simp only [Frame.reduce]
    omega
  · show (f.reduce (g.addStrand d)).continSpan = ((f.reduce g).addStrand d).continSpan
    rw [Frame.reduce_addStrand]
  · rw [Frame.lchildBspan_reduce, hb', hb, Frame.lchildBspan_reduce]
    simp only [Frame.reduce]
    omega
  · show (f.reduce (g.addStrand d)).continBspan = ((f.reduce g).addStrand d).continBspan
    rw [Frame.reduce_addStrand]

theorem callStep_ready {p : Bool} (hf : f.Ready p) : (callStep burden d b f).Ready p :=
  ((b.adds burden _ (hf.addStrand d).child).returned (hf.addStrand d)).1

theorem taskStep_ready {p : Bool} (hf : f.Ready p) : (taskStep burden d b f).Ready true :=
  ⟨fun h => Bool.noConfusion h, (hf.addStrand d).span, (hf.addStrand d).bspan⟩

/-- After a task the longest child is no shorter than the continuation. -/
theorem le_taskStep (hf : f.Ready true) :
    (taskStep burden d b f).continSpan ≤ (taskStep burden d b f).lchildSpan ∧
      (taskStep burden d b f).continBspan ≤ (taskStep burden d b f).lchildBspan := by
  obtain ⟨_, hs, hb⟩ := (b.adds burden _ (hf.addStrand d).child).afterTask (hf.addStrand d)
  simp only [taskStep, hs, hb]
  simp only [Frame.afterTask, Frame.taskEnded]
  omega

end Body

/-- A view that is pushed a frame is the only one of that frame. -/
theorem Segments.child {f : Frame} (hf : f.Ready true) (d : Nat) (fs : List Frame) :
    Segments false [] ⟨(f.addStrand d).child, fs⟩ where
  synced _ := ⟨rfl, (hf.addStrand d).child⟩
  left u hu := by cases hu
  cur := (hf.addStrand d).child.weaken

/-- The view a task leaves its parent's frame on. -/
theorem taskExit_eq {burden d : Nat} {task : Body false} {v v₁ : ShadowStack} {ts : List Times}
    (h : ts = task.syncTimes burden (under [] (v.detach d).task.bot) ∧
      (⟨task.eval burden (under [] (v.detach d).task.bot),
        base [] (v.detach d).task⟩ : ShadowStack).step burden (.taskExit task.last) = some v₁) :
    v₁ = ⟨Body.taskStep burden d task v.bot, v.frames⟩ := (Option.some.inj h.2).symm

/-- **A run with steals** is, on the views reduced, the serial one. -/
theorem Run.eq_eval {burden : Nat} {p : Bool} {exit : Nat → Hook} {b : Body p}
    {vs : List ShadowStack}
    {v v' : ShadowStack} {ts : List Times} (h : Run burden exit b vs v ts v')
    (hs : Segments p vs v) : ts = b.syncTimes burden (under vs v.bot) ∧
      (⟨b.eval burden (under vs v.bot), base vs v⟩ : ShadowStack).step burden (exit b.last) =
      some v' := by
  induction h with
  | done h => exact ⟨rfl, h⟩
  | @call p exit d callee rest vs v v₁ v' ts₁ ts _ _ ihc ihr =>
    have hv : v₁ = ⟨Body.callStep burden d callee v.bot, v.frames⟩ :=
      (Option.some.inj (ihc (.child hs.cur d _)).2).symm
    have hcomm : under vs (Body.callStep burden d callee v.bot) =
      Body.callStep burden d callee (under vs v.bot) :=
      under_comm (fun _ _ => Body.reduce_callStep burden d callee) hs.left hs.cur
    subst hv
    have hr := ihr
      ⟨fun hp => ⟨(hs.synced hp).1, Body.callStep_ready burden d callee (hs.synced hp).2⟩, hs.left,
        Body.callStep_ready burden d callee hs.cur⟩
    rw [hcomm, base_mk] at hr
    exact hr
  | @spawn p exit d task rest vs v v₁ v' ts₁ ts _ _ iht ihr =>
    have hv := taskExit_eq (iht (.child hs.cur d _))
    have ht := Body.taskStep_ready burden d task hs.cur
    have hcomm : under vs ((Body.taskStep burden d task v.bot).addBurden burden) =
        (Body.taskStep burden d task (under vs v.bot)).addBurden burden := by
      rw [under_comm (fun f g _ _ => Frame.reduce_addBurden f g burden) hs.left ht,
        under_comm (fun _ _ => Body.reduce_taskStep burden d task) hs.left hs.cur]
    subst hv
    have hr := ihr ⟨fun hp => Bool.noConfusion hp, hs.left, ht.addBurden burden⟩
    simp only [ShadowStack.detachContinue, ShadowStack.setBot, Bool.false_eq_true, if_false, hcomm,
      base_mk] at hr
    exact hr
  | @steal p exit d task rest vs v v₁ v' ts₁ ts _ _ iht ihr =>
    have hv := taskExit_eq (iht (.child hs.cur d _))
    have ht := Body.taskStep_ready burden d task hs.cur
    obtain ⟨hle, hleb⟩ := Body.le_taskStep burden d task hs.cur
    have hcomm : under (vs ++ [v₁]) (({} : Frame).addBurden burden) =
        (Body.taskStep burden d task (under vs v.bot)).addBurden burden := by
      rw [under_append, hv]
      show under vs ((Body.taskStep burden d task v.bot).reduce (({} : Frame).addBurden burden)) = _
      rw [Frame.reduce_identity hle hleb,
        under_comm (fun f g _ _ => Frame.reduce_addBurden f g burden) hs.left ht,
        under_comm (fun _ _ => Body.reduce_taskStep burden d task) hs.left hs.cur]
    have hleft : ∀ u ∈ vs ++ [v₁], u.bot.Ready true := by
      intro u hu
      simp only [List.mem_append, List.mem_singleton] at hu
      rcases hu with hu | rfl
      · exact hs.left u hu
      · rw [hv]; exact ht
    have hzero : (({} : Frame)).Ready true :=
      ⟨fun h => Bool.noConfusion h, Int.le_refl _, Int.le_refl _⟩
    have hr := ihr ⟨fun hp => Bool.noConfusion hp, hleft, hzero.addBurden burden⟩
    rw [base_append, show base vs v₁ = base vs v by rw [hv, base_mk]] at hr
    simp only [ShadowStack.detachContinue, ShadowStack.setBot, Bool.false_eq_true, if_false,
      ShadowStack.identity, hcomm] at hr
    exact hr
  | @unwind p exit d task rest vs v v₁ w v' ts₁ ts _ hf _ iht ihr =>
    have hv := taskExit_eq (iht (.child hs.cur d _))
    have ht := Body.taskStep_ready burden d task hs.cur
    have hcomm : under vs v₁.bot = Body.taskStep burden d task (under vs v.bot) := by
      rw [hv]
      exact under_comm (fun _ _ => Body.reduce_taskStep burden d task) hs.left hs.cur
    have hw := hf.eq_under
    rw [hcomm, show base vs v₁ = base vs v by rw [hv, base_mk]] at hw
    subst hw
    have hready := (Body.taskStep_ready burden d task (under_ready hs.left hs.cur)).join
    exact ihr ⟨fun _ => ⟨rfl, hready⟩, fun u hu => (by cases hu), hready.weaken⟩
  | @sync p exit d rest vs v w v' ts hf _ ihr =>
    have hcomm : under vs (v.bot.addStrand d) = (under vs v.bot).addStrand d :=
      under_comm (fun f g _ _ => Frame.reduce_addStrand f g d) hs.left hs.cur
    have hw := hf.eq_under
    rw [show v.beforeSync d = ⟨v.bot.addStrand d, v.frames⟩ from rfl, hcomm, base_mk] at hw
    subst hw
    have hready := ((under_ready hs.left hs.cur).addStrand d).join
    obtain ⟨hts, hr⟩ := ihr ⟨fun _ => ⟨rfl, hready⟩, fun u hu => (by cases hu), hready.weaken⟩
    exact ⟨congrArg _ hts, hr⟩

/-! ## Schedules -/

/-- A body with a choice of the continuations that are stolen. -/
inductive Schedule : Bool → Type
  | done (d : Nat) : Schedule false
  | call {p : Bool} (d : Nat) (callee : Schedule false) (rest : Schedule p) : Schedule p
  | spawn {p : Bool} (stolen : Bool) (d : Nat) (task : Schedule false) (rest : Schedule true) :
    Schedule p
  | unwind {p : Bool} (d : Nat) (task : Schedule false) (rest : Schedule false) : Schedule p
  | sync {p : Bool} (d : Nat) (rest : Schedule false) : Schedule p
  deriving Repr

/-- The views reduced from left to right. -/
def reduceViews : ShadowStack → List ShadowStack → Option ShadowStack
  | v, [] => some v
  | v, u :: us => do
    let w ← v.reduce u
    reduceViews w us

/-- Those of a frame that is about to join. -/
def joinViews (vs : List ShadowStack) (v : ShadowStack) : Option ShadowStack :=
  match vs with
  | [] => some v
  | u :: us => reduceViews u (us ++ [v])

namespace Schedule

def body : {p : Bool} → Schedule p → Body p
  | _, done d => .done d
  | _, call d callee rest => .call d callee.body rest.body
  | _, spawn _ d task rest => .spawn d task.body rest.body
  | _, unwind d task rest => .unwind d task.body rest.body
  | _, sync d rest => .sync d rest.body

/-- The times after each sync of the frame, and the view it ends on. -/
def run (burden : Nat) :
    {p : Bool} → Schedule p → (Nat → Hook) → List ShadowStack → ShadowStack →
    Option (List Times × ShadowStack)
  | _, done d, exit, _, v => do
    let v' ← v.step burden (exit d)
    return ([], v')
  | _, call d callee rest, exit, vs, v => do
    let (_, v₁) ← callee.run burden (.funcExit true) [] (v.funcEntry true d)
    rest.run burden exit vs v₁
  | _, spawn stolen d task rest, exit, vs, v => do
    let (_, v₁) ← task.run burden .taskExit [] (v.detach d).task
    if stolen then
      rest.run burden exit (vs ++ [v₁]) (ShadowStack.identity.detachContinue burden false)
    else rest.run burden exit vs (v₁.detachContinue burden false)
  | _, unwind d task rest, exit, vs, v => do
    let (_, v₁) ← task.run burden .taskExit [] (v.detach d).task
    let w ← joinViews vs v₁
    rest.run burden exit [] (w.detachContinue burden true)
  | _, sync d rest, exit, vs, v => do
    let w ← joinViews vs (v.beforeSync d)
    let (ts, v') ← rest.run burden exit [] w.afterSync
    return (w.afterSync.bot.times :: ts, v')

end Schedule

/-- Only the first view of a frame has the frames above that one. -/
def Framed (vs : List ShadowStack) (v : ShadowStack) : Prop := ∀ u ∈ (vs ++ [v]).tail, u.frames = []

theorem Framed.nil (v : ShadowStack) : Framed [] v := fun _ hu => absurd hu List.not_mem_nil

theorem Framed.congr {vs : List ShadowStack} {v v' : ShadowStack} (h : Framed vs v)
    (hv : v'.frames = v.frames) : Framed vs v' := by
  cases vs with
  | nil => exact .nil v'
  | cons u us =>
    intro w hw
    rcases List.mem_append.1 (show w ∈ us ++ [v'] from hw) with hw | hw
    · exact h w (List.mem_append_left _ hw)
    · rw [List.mem_singleton.1 hw, hv]
      exact h v (List.mem_append_right us (.head _))

/-- A continuation is stolen. -/
theorem Framed.steal {vs : List ShadowStack} {v w : ShadowStack} (h : Framed vs v)
    (hw : w.frames = []) : Framed (vs ++ [v]) w := by
  intro u hu
  rw [List.tail_append_of_ne_nil (by simp)] at hu
  rcases List.mem_append.1 hu with hu | hu
  · exact h u hu
  · rw [List.mem_singleton.1 hu, hw]

theorem exists_reduceViews {us ls : List ShadowStack} {v : ShadowStack} (h : Fold ls v)
    (hus : ∀ u ∈ us, u.frames = []) : ∃ w, reduceViews v us = some w ∧ Fold (ls ++ us) w := by
  induction us generalizing ls v with
  | nil => exact ⟨v, rfl, by rwa [List.append_nil]⟩
  | cons u us ih =>
    obtain ⟨hu, hus⟩ := List.forall_mem_cons.1 hus
    have hred : v.reduce u = some (v.setBot (v.bot.reduce u.bot)) := if_pos hu
    obtain ⟨w, hw, hf⟩ := ih (.node h (.one u) hred) hus
    refine ⟨w, ?_, by rwa [List.append_assoc] at hf⟩
    rw [reduceViews, hred]
    exact hw

theorem exists_joinViews {vs : List ShadowStack} {v : ShadowStack} (h : Framed vs v) :
    ∃ w, joinViews vs v = some w ∧ Fold (vs ++ [v]) w ∧ w.frames = base vs v := by
  obtain ⟨w, hw, hf⟩ : ∃ w, joinViews vs v = some w ∧ Fold (vs ++ [v]) w := by
    cases vs with
    | nil => exact ⟨v, rfl, .one v⟩
    | cons u us => exact exists_reduceViews (.one u) h
  exact ⟨w, hw, hf, by rw [hf.eq_under]⟩

/-- A schedule runs to the exit of its frame. -/
theorem Schedule.exists_run (burden : Nat) {p : Bool} (s : Schedule p) :
    ∀ (exit : Nat → Hook) (vs : List ShadowStack)
    (v : ShadowStack), (p = false → vs = []) → Framed vs v →
    (∀ d f, ∃ v', (⟨f, base vs v⟩ : ShadowStack).step burden (exit d) = some v') →
    ∃ ts v' d f, s.run burden exit vs v = some (ts, v') ∧ Run burden exit s.body vs v ts v' ∧
      (⟨f, base vs v⟩ : ShadowStack).step burden (exit d) = some v' := by
  induction s with
  | done d =>
    intro exit vs v hp _ hexit
    obtain rfl := hp rfl
    obtain ⟨v', hv'⟩ := hexit d v.bot
    exact ⟨[], v', d, v.bot, by rw [run, show v.step burden (exit d) = some v' from hv']; rfl,
      .done hv', hv'⟩
  | call d callee rest ihc ihr =>
    intro exit vs v hp hfr hexit
    obtain ⟨ts₁, v₁, _, f₁, hrun₁, hr₁, hstep₁⟩ :=
      ihc (.funcExit true) [] (v.funcEntry true d) (fun _ => rfl) (.nil _)
        fun _ _ => ⟨_, rfl⟩
    have hframes : v₁.frames = v.frames := by
      rw [← Option.some.inj hstep₁]
      rfl
    have hbase : base vs v₁ = base vs v := by rw [← base_mk vs v v₁.bot, ← hframes]
    obtain ⟨ts, v', d', f, hrun, hr, hstep⟩ :=
      ihr exit vs v₁ hp (hfr.congr hframes) (by rwa [hbase])
    refine ⟨ts, v', d', f, ?_, .call hr₁ hr, by rwa [hbase] at hstep⟩
    rw [run, hrun₁]
    exact hrun
  | spawn stolen d task rest iht ihr =>
    intro exit vs v hp hfr hexit
    obtain ⟨ts₁, v₁, _, f₁, hrun₁, hr₁, hstep₁⟩ :=
      iht .taskExit [] (v.detach d).task (fun _ => rfl) (.nil _)
        fun _ _ => ⟨_, rfl⟩
    have hframes : v₁.frames = v.frames := by
      rw [← Option.some.inj hstep₁]
      rfl
    have hbase : base vs v₁ = base vs v := by rw [← base_mk vs v v₁.bot, ← hframes]
    cases stolen with
    | true =>
      have hbase' : base (vs ++ [v₁]) (ShadowStack.identity.detachContinue burden false) =
          base vs v := by
        rw [base_append, hbase]
      obtain ⟨ts, v', d', f, hrun, hr, hstep⟩ :=
        ihr exit (vs ++ [v₁]) (ShadowStack.identity.detachContinue burden false)
          nofun ((hfr.congr hframes).steal rfl) (by rwa [hbase'])
      refine ⟨ts, v', d', f, ?_, .steal hr₁ hr, by rwa [hbase'] at hstep⟩
      rw [run, hrun₁]
      exact hrun
    | false =>
      have hbase' : base vs (v₁.detachContinue burden false) = base vs v :=
        (base_mk vs v₁ _).trans hbase
      obtain ⟨ts, v', d', f, hrun, hr, hstep⟩ :=
        ihr exit vs (v₁.detachContinue burden false) nofun (hfr.congr hframes)
          (by rwa [hbase'])
      refine ⟨ts, v', d', f, ?_, .spawn hr₁ hr, by rwa [hbase'] at hstep⟩
      rw [run, hrun₁]
      exact hrun
  | unwind d task rest iht ihr =>
    intro exit vs v hp hfr hexit
    obtain ⟨ts₁, v₁, _, f₁, hrun₁, hr₁, hstep₁⟩ :=
      iht .taskExit [] (v.detach d).task (fun _ => rfl) (.nil _)
        fun _ _ => ⟨_, rfl⟩
    have hframes : v₁.frames = v.frames := by
      rw [← Option.some.inj hstep₁]
      rfl
    have hbase : base vs v₁ = base vs v := by rw [← base_mk vs v v₁.bot, ← hframes]
    obtain ⟨w, hw, hf, hwf⟩ := exists_joinViews (hfr.congr hframes)
    have hbase' : base [] (w.detachContinue burden true) = base vs v := hwf.trans hbase
    obtain ⟨ts, v', d', f, hrun, hr, hstep⟩ :=
      ihr exit [] (w.detachContinue burden true) (fun _ => rfl) (.nil _)
        (by rwa [hbase'])
    refine ⟨ts, v', d', f, ?_, .unwind hr₁ hf hr, by rwa [hbase'] at hstep⟩
    simp only [run, hrun₁, Option.bind_eq_bind, Option.bind_some, hw]
    exact hrun
  | sync d rest ihr =>
    intro exit vs v hp hfr hexit
    obtain ⟨w, hw, hf, hwf⟩ := exists_joinViews (v := v.beforeSync d) (hfr.congr rfl)
    have hbase : base [] w.afterSync = base vs v := hwf.trans (base_mk vs v _)
    obtain ⟨ts, v', d', f, hrun, hr, hstep⟩ :=
      ihr exit [] w.afterSync (fun _ => rfl) (.nil _) (by rwa [hbase])
    refine ⟨_, v', d', f, ?_, .sync hf hr, by rwa [hbase] at hstep⟩
    simp only [run, hw, hrun, Option.bind_eq_bind, Option.bind_some]
    rfl

/-- **Every choice of steals has a run**, which its schedule computes. -/
theorem Schedule.exists_run_initial (burden : Nat) (s : Schedule false) : ∃ ts v,
    s.run burden .destroy [] .initial = some (ts, v) ∧
    Run burden .destroy s.body [] .initial ts v := by
  obtain ⟨ts, v, -, -, hrun, hr, -⟩ :=
    s.exists_run burden .destroy [] .initial (fun _ => rfl) (.nil _) fun _ _ => ⟨_, rfl⟩
  exact ⟨ts, v, hrun, hr⟩

/-! ## The serial run -/

theorem ShadowStack.observe_cons {burden : Nat} {s : ShadowStack} {h : Hook} (s' : ShadowStack)
    (hs : List Hook) (hstep : s.step burden h = some s') (hne : h ≠ .afterSync) :
    s.observe burden (h :: hs) = s'.observe burden hs := by
  simp [observe, hstep, hne]

/-- The syncs of a body's own frame are seen where that frame is alone on the stack. -/
theorem Body.observe_hooks (burden : Nat) {p : Bool} (b : Body p) :
    ∀ (exit : Nat → Hook) (f : Frame) (fs : List Frame)
    (hs : List Hook), (∀ n, exit n ≠ .afterSync) →
    (⟨f, fs⟩ : ShadowStack).observe burden (b.hooks exit ++ hs) =
      (if fs = [] then b.syncTimes burden f else []) ++
        (((⟨b.eval burden f, fs⟩ : ShadowStack).step burden (exit b.last)).elim
          [] fun s => s.observe burden hs) := by
  induction b with
  | done d =>
    intro exit f fs hs he
    simp only [hooks, syncTimes, eval, last, ite_self, List.nil_append, List.singleton_append]
    cases hstep : (⟨f, fs⟩ : ShadowStack).step burden (exit d) with
    | none => simp [ShadowStack.observe, hstep]
    | some s' => rw [ShadowStack.observe_cons s' hs hstep (he d)]; rfl
  | call d callee rest ihc ihr =>
    intro exit f fs hs he
    rw [hooks, List.cons_append, List.cons_append, List.append_assoc,
      ShadowStack.observe_cons ⟨(f.addStrand d).child, f.addStrand d :: fs⟩ _ rfl (by simp),
      ihc _ _ _ _ (by simp), if_neg (by simp), List.nil_append]
    exact ihr exit (callStep burden d callee f) fs hs he
  | spawn d task rest iht ihr =>
    intro exit f fs hs he
    rw [hooks, List.cons_append, List.cons_append, List.cons_append, List.cons_append,
      List.append_assoc, ShadowStack.observe_cons ⟨f.addStrand d, fs⟩ _ rfl (by simp),
      ShadowStack.observe_cons ⟨(f.addStrand d).child, f.addStrand d :: fs⟩ _ rfl (by simp),
      iht _ _ _ _ (by simp), if_neg (by simp), List.nil_append]
    exact ihr exit ((taskStep burden d task f).addBurden burden) fs hs he
  | unwind d task rest iht ihr =>
    intro exit f fs hs he
    rw [hooks, List.cons_append, List.cons_append, List.cons_append, List.cons_append,
      List.append_assoc, ShadowStack.observe_cons ⟨f.addStrand d, fs⟩ _ rfl (by simp),
      ShadowStack.observe_cons ⟨(f.addStrand d).child, f.addStrand d :: fs⟩ _ rfl (by simp),
      iht _ _ _ _ (by simp), if_neg (by simp), List.nil_append]
    exact ihr exit (taskStep burden d task f).join fs hs he
  | sync d rest ihr =>
    intro exit f fs hs he
    rw [hooks, List.cons_append, List.cons_append,
      ShadowStack.observe_cons ⟨f.addStrand d, fs⟩ _ rfl (by simp)]
    have hr := ihr exit (f.addStrand d).join fs hs he
    cases fs with
    | nil =>
      rw [if_pos rfl] at hr ⊢
      exact congrArg ((f.addStrand d).join.times :: ·) hr
    | cons g fs =>
      rw [if_neg (by simp)] at hr ⊢
      exact hr

/-- **Cilkscale is schedule independent.** Whichever continuations of a program
are stolen and however their views are reduced, the times after each sync of
the outermost frame are those of the serial run, and so is its last view. -/
theorem steals_times {burden : Nat} {b : Body false} {ts : List Times} {v : ShadowStack}
    (h : Run burden .destroy b [] .initial ts v) :
    ts = ShadowStack.initial.observe burden (b.hooks .destroy) ∧
      ShadowStack.initial.run burden (b.hooks .destroy) = some v := by
  have hzero : (({} : Frame)).Ready false :=
    ⟨fun _ => ⟨rfl, rfl, rfl⟩, Int.le_refl _, Int.le_refl _⟩
  obtain ⟨hts, hv⟩ := h.eq_eval ⟨fun _ => ⟨rfl, hzero⟩, fun u hu => (by cases hu), hzero.weaken⟩
  constructor
  · have hobs := b.observe_hooks burden .destroy {} [] [] (by simp)
    rw [List.append_nil, if_pos rfl] at hobs
    rw [hts, ShadowStack.initial, hobs]
    exact (List.append_nil _).symm
  · rw [ShadowStack.initial, Body.run_hooks]
    exact hv

/-- A task beside a stolen continuation, whose view is reduced at the sync. -/
theorem steals_times_one :
    ∃ ts v, Run 1 .destroy (.spawn 2 (.done 5) (.sync 3 (.done 1)) : Body false) [] .initial ts v ∧
      ts = [(10, 7, 8)] := by
  have hrun : Run 1 .destroy (.spawn 2 (.done 5) (.sync 3 (.done 1)) : Body false)
    [] .initial _ _ := .steal (.done rfl) (.sync (.node (.one _) (.one _) rfl) (.done rfl))
  exact ⟨_, _, hrun, (steals_times hrun).1.trans (by decide)⟩

end Cilkscale
