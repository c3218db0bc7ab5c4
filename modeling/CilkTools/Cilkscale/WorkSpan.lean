/-
Series-parallel programs under Cilkscale's hooks: the graph of a program's
strands, and the work and spans that a serial run of its hooks computes.
-/
import CilkTools.SPDag
import CilkTools.Cilkscale.ShadowStack
import Mathlib.Tactic.Push

namespace Cilkscale

/-- What a frame has left to run; the index tells whether spawned tasks are
outstanding. A strand is given by its time. In a spawn that is left through
its unwind destination the continuation is the code there, which all children
have joined. -/
inductive Body : Bool → Type
  | done (d : Nat) : Body false
  | call {p : Bool} (d : Nat) (callee : Body false) (rest : Body p) : Body p
  | spawn {p : Bool} (d : Nat) (task : Body false) (rest : Body true) : Body p
  | unwind {p : Bool} (d : Nat) (task : Body false) (rest : Body false) : Body p
  | sync {p : Bool} (d : Nat) (rest : Body false) : Body p
  deriving Repr

/-- A strand of the program, or a place where the burden falls. -/
inductive Strand
  | user (d : Nat)
  | burden
  deriving DecidableEq, Repr

namespace Strand

def time : Strand → Nat
  | user d => d
  | burden => 0

def burdened (b : Nat) : Strand → Nat
  | user d => d
  | burden => b

end Strand

namespace Body

open SPDag

/-- The graph of what is left, before the next join and after it. The burden
falls at the end of each task and at each continuation of a spawn. -/
def parts : {p : Bool} → Body p → SPDag Strand × SPDag Strand
  | _, done d => (strand (.user d), empty)
  | _, call d callee rest =>
    (seq (strand (.user d)) (seq (seq callee.parts.1 callee.parts.2) rest.parts.1), rest.parts.2)
  | _, spawn d task rest =>
    (seq (strand (.user d))
      (par (seq (seq task.parts.1 task.parts.2) (strand .burden))
        (seq (strand .burden) rest.parts.1)), rest.parts.2)
  | _, unwind d task rest =>
    (seq (strand (.user d)) (seq (seq task.parts.1 task.parts.2) (strand .burden)),
      seq rest.parts.1 rest.parts.2)
  | _, sync d rest => (strand (.user d), seq rest.parts.1 rest.parts.2)

/-- The graph of a body with no tasks outstanding. -/
def dag (b : Body false) : SPDag Strand := seq b.parts.1 b.parts.2

/-- The last strand, which the exit of the frame ends. -/
def last : {p : Bool} → Body p → Nat
  | _, done d => d
  | _, call _ _ rest | _, spawn _ _ rest | _, unwind _ _ rest | _, sync _ rest => rest.last

/-- The hooks of a serial run, the frame's exit being `exit`. -/
def hooks (exit : Nat → Hook) : {p : Bool} → Body p → List Hook
  | _, done d => [exit d]
  | _, call d callee rest => .funcEntry true d :: hooks (.funcExit true) callee ++ hooks exit rest
  | _, spawn d task rest =>
    .detach d :: .task :: hooks .taskExit task ++ .detachContinue false :: hooks exit rest
  | _, unwind d task rest =>
    .detach d :: .task :: hooks .taskExit task ++ .detachContinue true :: hooks exit rest
  | _, sync d rest => .beforeSync d :: .afterSync :: hooks exit rest

end Body

/-- The parent after a task, from the task's frame before its last strand. -/
def Frame.afterTask (f c : Frame) (last burden : Nat) : Frame :=
  f.taskEnded (c.addStrand last) burden

namespace Body

/-- What the hooks do to the frame up to its last strand. -/
def eval (burden : Nat) : {p : Bool} → Frame → Body p → Frame
  | _, f, done _ => f
  | _, f, call d callee rest =>
    let f := f.addStrand d
    eval burden (f.returned (eval burden f.child callee) callee.last) rest
  | _, f, spawn d task rest =>
    let f := f.addStrand d
    eval burden ((f.afterTask (eval burden f.child task) task.last burden).addBurden burden) rest
  | _, f, unwind d task rest =>
    let f := f.addStrand d
    eval burden (f.afterTask (eval burden f.child task) task.last burden).join rest
  | _, f, sync d rest => eval burden (f.addStrand d).join rest

end Body

/-! ## Runs of the hooks -/

theorem ShadowStack.run_cons (burden : Nat) (s : ShadowStack) (h : Hook) (hs : List Hook) :
    s.run burden (h :: hs) = (s.step burden h).bind fun s => s.run burden hs := by
  simp [run]

theorem ShadowStack.run_append (burden : Nat) (s : ShadowStack) (hs hs' : List Hook) :
    s.run burden (hs ++ hs') = (s.run burden hs).bind fun s => s.run burden hs' := by
  simp [run, List.foldlM_append]

/-- A body's hooks leave the frames above its own as they are. -/
theorem Body.run_hooks (burden : Nat) {p : Bool} (b : Body p) :
    ∀ (exit : Nat → Hook) (f : Frame) (fs : List Frame),
    (⟨f, fs⟩ : ShadowStack).run burden (b.hooks exit) =
      (⟨b.eval burden f, fs⟩ : ShadowStack).step burden (exit b.last) := by
  induction b with
  | done d =>
    intro exit f fs
    simp [hooks, eval, last, ShadowStack.run]
  | call d callee rest ihc ihr =>
    intro exit f fs
    rw [hooks, List.cons_append, ShadowStack.run_cons, ShadowStack.step, Option.bind_some,
      ShadowStack.run_append]
    simp only [ShadowStack.funcEntry, if_true, ShadowStack.addStrand, ShadowStack.setBot,
      ShadowStack.push, ihc]
    simp only [ShadowStack.step, ShadowStack.funcExit, if_true, ShadowStack.pop,
      Option.bind_eq_bind, Option.bind_some, ShadowStack.setBot, Option.pure_def, ihr, eval, last]
  | spawn d task rest iht ihr =>
    intro exit f fs
    rw [hooks, List.cons_append, List.cons_append, ShadowStack.run_cons, ShadowStack.step,
      Option.bind_some,
      ShadowStack.run_cons, ShadowStack.step, Option.bind_some, ShadowStack.run_append]
    simp only [ShadowStack.detach, ShadowStack.task, ShadowStack.addStrand, ShadowStack.setBot,
      ShadowStack.push, iht]
    simp only [ShadowStack.step, ShadowStack.taskExit, ShadowStack.addStrand, ShadowStack.pop,
      Option.bind_eq_bind,
      Option.bind_some, ShadowStack.setBot, Option.pure_def, ShadowStack.run_cons,
      ShadowStack.detachContinue, Bool.false_eq_true, if_false, ihr, eval, last, Frame.afterTask]
  | unwind d task rest iht ihr =>
    intro exit f fs
    rw [hooks, List.cons_append, List.cons_append, ShadowStack.run_cons, ShadowStack.step,
      Option.bind_some,
      ShadowStack.run_cons, ShadowStack.step, Option.bind_some, ShadowStack.run_append]
    simp only [ShadowStack.detach, ShadowStack.task, ShadowStack.addStrand, ShadowStack.setBot,
      ShadowStack.push, iht]
    simp only [ShadowStack.step, ShadowStack.taskExit, ShadowStack.addStrand, ShadowStack.pop,
      Option.bind_eq_bind,
      Option.bind_some, ShadowStack.setBot, Option.pure_def, ShadowStack.run_cons,
      ShadowStack.detachContinue, if_true, ihr, eval, last, Frame.afterTask]
  | sync d rest ihr =>
    intro exit f fs
    rw [hooks, ShadowStack.run_cons, ShadowStack.step, Option.bind_some, ShadowStack.run_cons,
      ShadowStack.step, Option.bind_some]
    simp only [ShadowStack.beforeSync, ShadowStack.afterSync, ShadowStack.addStrand,
      ShadowStack.setBot, ihr, eval, last]

/-! ## Work and spans -/

/-- No task is outstanding unless `p`, and the continuation's times are no less than zero. -/
structure Frame.Ready (f : Frame) (p : Bool) : Prop where
  synced : p = false → f.achildWork = 0 ∧ f.lchildSpan = 0 ∧ f.lchildBspan = 0
  span : 0 ≤ f.continSpan
  bspan : 0 ≤ f.continBspan

/-- What the rest of a body adds to a frame up to its end. -/
structure Body.Adds (burden : Nat) {p : Bool} (b : Body p) (f f' : Frame) : Prop where
  work : f'.continWork = f.continWork + f.achildWork +
    (b.parts.1.work Strand.time + b.parts.2.work Strand.time : Nat)
  span : f'.continSpan =
    max f.lchildSpan (f.continSpan + (b.parts.1.span Strand.time : Nat)) +
    (b.parts.2.span Strand.time : Nat)
  bspan : f'.continBspan =
    max f.lchildBspan (f.continBspan + (b.parts.1.span (Strand.burdened burden) : Nat)) +
      (b.parts.2.span (Strand.burdened burden) : Nat)
  ready : f'.Ready false

theorem Frame.Ready.child {f : Frame} {p : Bool} (h : f.Ready p) : f.child.Ready false :=
  ⟨fun _ => ⟨rfl, rfl, rfl⟩, h.span, h.bspan⟩

theorem Frame.Ready.addStrand {f : Frame} {p : Bool} (h : f.Ready p) (d : Nat) :
    (f.addStrand d).Ready p := by
  obtain ⟨hs, hc, hb⟩ := h
  refine ⟨hs, ?_, ?_⟩
  · simp only [Frame.addStrand]; omega
  · simp only [Frame.addStrand]; omega

/-- A call goes on with the callee's work and spans. -/
theorem Body.Adds.returned {burden : Nat} {callee : Body false} {f c : Frame} {p : Bool}
    (hf : f.Ready p) (h : callee.Adds burden f.child (c.addStrand callee.last)) :
    (f.returned c callee.last).Ready p ∧
      (f.returned c callee.last).continWork = f.continWork + (callee.dag.work Strand.time : Nat) ∧
      (f.returned c callee.last).continSpan = f.continSpan + (callee.dag.span Strand.time : Nat) ∧
      (f.returned c callee.last).continBspan = f.continBspan +
      (callee.dag.span (Strand.burdened burden) : Nat) := by
  have hw := h.work
  have hs := h.span
  have hb := h.bspan
  have h₁ := hf.span
  have h₂ := hf.bspan
  simp only [Frame.child] at hw hs hb
  refine ⟨⟨hf.synced, h.ready.span, h.ready.bspan⟩, ?_, ?_, ?_⟩
  · refine hw.trans ?_
    simp only [dag, SPDag.work_seq]
    omega
  · refine hs.trans ?_
    simp only [dag, SPDag.span]
    omega
  · refine hb.trans ?_
    simp only [dag, SPDag.span]
    omega

/-- A task that ends is a child whose spans count from the continuation's. -/
theorem Body.Adds.afterTask {burden : Nat} {task : Body false} {f c : Frame} {p : Bool}
    (hf : f.Ready p) (h : task.Adds burden f.child (c.addStrand task.last)) :
    (f.afterTask c task.last burden).achildWork = f.achildWork + (task.dag.work Strand.time : Nat) ∧
      (f.afterTask c task.last burden).lchildSpan =
        max f.lchildSpan (f.continSpan + (task.dag.span Strand.time : Nat)) ∧
      (f.afterTask c task.last burden).lchildBspan =
        max f.lchildBspan
        (f.continBspan + (task.dag.span (Strand.burdened burden) : Nat) + burden) := by
  have hw := h.work
  have hs := h.span
  have hb := h.bspan
  have h₁ := hf.span
  have h₂ := hf.bspan
  simp only [Frame.child] at hw hs hb
  refine ⟨?_, ?_, ?_⟩
  · simp only [Frame.afterTask, Frame.taskEnded, hw, dag, SPDag.work_seq]
    omega
  · simp only [Frame.afterTask, Frame.taskEnded, hs, dag, SPDag.span]
    split <;> omega
  · simp only [Frame.afterTask, Frame.taskEnded, hb, dag, SPDag.span]
    split <;> omega

theorem Frame.join_span (f : Frame) : f.join.continSpan = max f.lchildSpan f.continSpan := by
  simp only [join]
  split <;> omega

theorem Frame.join_bspan (f : Frame) : f.join.continBspan = max f.lchildBspan f.continBspan := by
  simp only [join]
  split <;> omega

theorem Frame.Ready.join {f : Frame} {p : Bool} (h : f.Ready p) : f.join.Ready false := by
  have h₁ := h.span
  have h₂ := h.bspan
  refine ⟨fun _ => ⟨rfl, rfl, rfl⟩, ?_, ?_⟩
  · rw [Frame.join_span]; omega
  · rw [Frame.join_bspan]; omega

theorem Frame.Ready.addBurden {f : Frame} {p : Bool} (h : f.Ready p) (burden : Nat) :
    (f.addBurden burden).Ready true := by
  have h₂ := h.bspan
  refine ⟨fun h => Bool.noConfusion h, h.span, ?_⟩
  simp only [Frame.addBurden]
  omega

/-- **What a body adds to its frame**, whatever the frame held before. -/
theorem Body.adds (burden : Nat) {p : Bool} (b : Body p) : ∀ (f : Frame), f.Ready p →
    b.Adds burden f ((b.eval burden f).addStrand b.last) := by
  induction b with
  | done d =>
    intro f hf
    obtain ⟨hw, hs, hb⟩ := hf.synced rfl
    have h₁ := hf.span
    have h₂ := hf.bspan
    refine ⟨?_, ?_, ?_, hf.addStrand d⟩ <;>
      simp only [eval, last, parts, SPDag.work_strand, SPDag.work_empty, SPDag.span, Strand.time,
        Strand.burdened, Frame.addStrand] <;> omega
  | call d callee rest ihc ihr =>
    intro f hf
    have hd := hf.addStrand d
    obtain ⟨hready, hw, hs, hb⟩ := (ihc _ hd.child).returned hd
    have hr := ihr _ hready
    refine ⟨hr.work.trans ?_, hr.span.trans ?_, hr.bspan.trans ?_, hr.ready⟩
    · rw [hw]
      simp only [Frame.returned, Frame.addStrand, parts, dag, SPDag.work_seq,
        SPDag.work_strand, Strand.time]
      omega
    · rw [hs]
      simp only [Frame.returned, Frame.addStrand, parts, dag, SPDag.span, Strand.time]
      omega
    · rw [hb]
      simp only [Frame.returned, Frame.addStrand, parts, dag, SPDag.span, Strand.burdened]
      omega
  | spawn d task rest iht ihr =>
    intro f hf
    have hd := hf.addStrand d
    obtain ⟨hw, hs, hb⟩ := (iht _ hd.child).afterTask hd
    have ht :
      ((f.addStrand d).afterTask (task.eval burden (f.addStrand d).child) task.last
        burden).Ready true :=
      ⟨fun h => Bool.noConfusion h, hd.span, hd.bspan⟩
    have hr := ihr _ (ht.addBurden burden)
    refine ⟨hr.work.trans ?_, hr.span.trans ?_, hr.bspan.trans ?_, hr.ready⟩
    · simp only [Frame.addBurden, hw]
      simp only [Frame.afterTask, Frame.taskEnded, Frame.addStrand, parts, dag, SPDag.work_seq,
        SPDag.work_par, SPDag.work_strand, Strand.time]
      omega
    · simp only [Frame.addBurden, hs]
      simp only [Frame.afterTask, Frame.taskEnded, Frame.addStrand, parts, dag,
        SPDag.span, Strand.time]
      omega
    · simp only [Frame.addBurden, hb]
      simp only [Frame.afterTask, Frame.taskEnded, Frame.addStrand, parts, dag, SPDag.span,
        Strand.burdened]
      omega
  | unwind d task rest iht ihr =>
    intro f hf
    have hd := hf.addStrand d
    obtain ⟨hw, hs, hb⟩ := (iht _ hd.child).afterTask hd
    have ht :
      ((f.addStrand d).afterTask (task.eval burden (f.addStrand d).child) task.last
        burden).Ready true :=
      ⟨fun h => Bool.noConfusion h, hd.span, hd.bspan⟩
    have hr := ihr _ ht.join
    have h₁ := hf.span
    have h₂ := hf.bspan
    refine ⟨hr.work.trans ?_, hr.span.trans ?_, hr.bspan.trans ?_, hr.ready⟩
    · simp only [Frame.join, hw]
      simp only [Frame.afterTask, Frame.taskEnded, Frame.addStrand, parts, dag, SPDag.work_seq,
        SPDag.work_strand, Strand.time]
      omega
    · rw [Frame.join_span, hs]
      simp only [Frame.join, Frame.afterTask, Frame.taskEnded, Frame.addStrand, parts, dag,
        SPDag.span, Strand.time]
      omega
    · rw [Frame.join_bspan, hb]
      simp only [Frame.join, Frame.afterTask, Frame.taskEnded, Frame.addStrand, parts,
        dag, SPDag.span, Strand.burdened]
      omega
  | sync d rest ihr =>
    intro f hf
    have hd := hf.addStrand d
    have hr := ihr _ hd.join
    have h₁ := hf.span
    have h₂ := hf.bspan
    refine ⟨hr.work.trans ?_, hr.span.trans ?_, hr.bspan.trans ?_, hr.ready⟩
    · simp only [Frame.join, Frame.addStrand, parts, SPDag.work_seq, SPDag.work_strand, Strand.time]
      omega
    · rw [Frame.join_span]
      simp only [Frame.join, Frame.addStrand, parts, SPDag.span, Strand.time]
      omega
    · rw [Frame.join_bspan]
      simp only [Frame.join, Frame.addStrand, parts, SPDag.span, Strand.burdened]
      omega

/-- **Cilkscale computes work and span.** A serial run of a program's hooks
leaves in the frame of `main` the time of all strands and the lengths of the
longest paths through its graph, without the burden and with it. -/
theorem run_work_span (burden : Nat) (b : Body false) :
    ∃ f, ShadowStack.initial.run burden (b.hooks .destroy) = some ⟨f, []⟩ ∧
      f.continWork = (b.dag.work Strand.time : Nat) ∧
      (∃ n : Nat, f.continSpan = n ∧ IsGreatest (b.dag.lengths Strand.time) n) ∧
      ∃ n : Nat, f.continBspan = n ∧ IsGreatest (b.dag.lengths (Strand.burdened burden)) n := by
  have h := b.adds burden {} ⟨fun _ => ⟨rfl, rfl, rfl⟩, Int.le_refl _, Int.le_refl _⟩
  have hw := h.work
  have hs := h.span
  have hb := h.bspan
  refine ⟨(b.eval burden {}).addStrand b.last, by rw [ShadowStack.initial, Body.run_hooks]; rfl, ?_,
    ⟨_, ?_, b.dag.isGreatest_span _⟩, ⟨_, ?_, b.dag.isGreatest_span _⟩⟩
  · simp only [hw, Body.dag, SPDag.work_seq]
    omega
  · simp only [hs, Body.dag, SPDag.span]
    omega
  · simp only [hb, Body.dag, SPDag.span]
    omega

/-- A task of time 5 beside a continuation of time 3. -/
example : (ShadowStack.initial.run 1
    ((.spawn 2 (.done 5) (.sync 3 (.done 1)) : Body false).hooks .destroy)).map
    (fun s => s.bot.continSpan) =
      some 8 := by decide

end Cilkscale
