/-
Driver hooks without parallel loops as hooks of the tool alone: what each calls,
and that the parallel-execution flags depend on nothing the accesses change.
-/
import CilkTools.Cilksan.NestedSyncs
import CilkTools.Cilksan.SerialFilter

namespace Cilksan

namespace DriverHook

def isLoop : DriverHook → Bool
  | .detach forTapirLoopBody => forTapirLoopBody
  | .task isTapirLoopBody _ => isTapirLoopBody
  | .taskExit isTapirLoopBody _ => isTapirLoopBody
  | .detachContinue forTapirLoopBody _ _ => forTapirLoopBody
  | .beforeLoop | .afterLoop _ => true
  | .funcEntry .. | .funcExit | .sync _ => false

/-- What is called of the tool where there are no loops. -/
def hooks : DriverHook → List Hook
  | .funcEntry maySpawn numSyncReg => [.funcEntry maySpawn numSyncReg]
  | .funcExit => [.funcExit]
  | .task _ numSyncReg => [.task numSyncReg]
  | .taskExit _ syncReg => [.taskExit syncReg]
  | .detachContinue _ isUnwind syncReg =>
    (if isUnwind then [.sync syncReg] else []) ++ [.detachContinue syncReg]
  | .sync syncReg => [.sync syncReg]
  | .detach _ | .beforeLoop | .afterLoop _ => []

variable {h : DriverHook}

theorem isLoop_hooks : ∀ k ∈ h.hooks, k.isLoop = false := by
  cases h with
  | detachContinue body unwind r => cases unwind <;> simp [hooks, Hook.isLoop]
  | _ => simp [hooks, Hook.isLoop]

theorem not_access_hooks : ∀ k ∈ h.hooks, ∀ i, k ≠ .access i ∧ k ≠ .check i := by
  cases h with
  | detachContinue body unwind r => cases unwind <;> simp [hooks]
  | _ => simp [hooks]

end DriverHook

/-- The regions the hook syncs were spawned into last. -/
def Trace.SyncsInnermost (t : Trace) : DriverHook → Prop
  | .sync syncReg | .detachContinue _ true syncReg =>
    ∀ a ∈ t.program.acts.head?, a.Innermost syncReg
  | _ => True

theorem run_one (p : Program) (k : Hook) : p.run [k] = p.step k := by
  simp [Program.run]

theorem toolRun_one (c : CilkSan) (k : Hook) : c.run [k] = c.step k := by
  simp [CilkSan.run]

variable {t t' : Trace} {h : DriverHook}

/-- The program makes the steps that the tool is told of. -/
theorem Trace.run_hooks (hl : h.isLoop = false) (hs : t.step h = some t') :
    t.program.run h.hooks = some t'.program := by
  cases h with
  | beforeLoop | afterLoop => cases hl
  | funcEntry m n =>
    obtain ⟨-, -, p', hp', rfl⟩ := Tracks.advance_eq hs
    exact (run_one _ _).trans hp'
  | funcExit =>
    obtain ⟨-, -, p', hp', rfl⟩ := Tracks.advance_eq hs
    exact (run_one _ _).trans hp'
  | detach body =>
    simp only [Trace.step, Trace.detach] at hs
    split at hs
    all_goals cases hs
    rfl
  | task body n =>
    cases hl
    simp only [Trace.step, Trace.task, Bool.false_eq_true, if_false] at hs
    split at hs
    · obtain ⟨p', hp', rfl⟩ := Option.map_eq_some_iff.1 hs
      exact (run_one _ _).trans hp'
    · cases hs
  | taskExit body r =>
    cases hl
    obtain ⟨-, -, p', hp', rfl⟩ := Tracks.advance_eq hs
    exact (run_one _ _).trans hp'
  | detachContinue body unwind r =>
    cases hl
    obtain ⟨-, -, p', hp', rfl⟩ := Tracks.advance_eq hs
    cases unwind with
    | false => exact (run_one _ _).trans hp'
    | true =>
      obtain ⟨p₁, hp₁, hp'⟩ := Option.bind_eq_some_iff.1 hp'
      replace hp₁ : t.program.step (.sync r) = some p₁ := hp₁
      simp only [DriverHook.hooks, if_true, List.cons_append, List.nil_append, Program.run,
        List.foldlM_cons, hp₁, Option.bind_eq_bind, Option.bind_some]
      exact (run_one _ _).trans hp'
  | sync r =>
    simp only [Trace.step, Trace.sync] at hs
    split at hs
    · obtain ⟨p', hp', rfl⟩ := Option.map_eq_some_iff.1 hs
      exact (run_one _ _).trans hp'
    · cases hs

theorem Program.detachContinue_eq {p p' : Program} {r : Nat}
    (hs : p.step (.detachContinue r) = some p') : p' = p := by
  simp only [Program.step, Option.ite_none_right_eq_some, Program.detachContinue] at hs
  obtain ⟨-, hs⟩ := hs
  split at hs
  all_goals cases hs
  rfl

theorem Program.Nested.trace (hi : t.program.Nested) (ho : t.program.Ordered)
    (hl : h.isLoop = false)
    (hn : t.SyncsInnermost h) (hs : t.step h = some t') : t'.program.Nested := by
  have hrun := Trace.run_hooks hl hs
  cases h with
  | beforeLoop | afterLoop => cases hl
  | detach =>
    rw [show t'.program = t.program from (Option.some.inj hrun).symm]
    exact hi
  | detachContinue body unwind r =>
    cases unwind with
    | false => exact hi.step (h := .detachContinue r) ho rfl trivial ((run_one _ _).symm.trans hrun)
    | true =>
      obtain ⟨p₁, hp₁, hp'⟩ := Option.bind_eq_some_iff.1 hrun
      have heq : t'.program = p₁ := Program.detachContinue_eq ((run_one _ _).symm.trans hp')
      exact heq ▸ hi.step (h := .sync r) ho rfl hn hp₁
  | sync r => exact hi.step (h := .sync r) ho rfl hn ((run_one _ _).symm.trans hrun)
  | funcEntry m n =>
    exact hi.step (h := .funcEntry m n) ho rfl trivial ((run_one _ _).symm.trans hrun)
  | funcExit => exact hi.step (h := .funcExit) ho rfl trivial ((run_one _ _).symm.trans hrun)
  | task body n => exact hi.step (h := .task n) ho rfl trivial ((run_one _ _).symm.trans hrun)
  | taskExit body r =>
    exact hi.step (h := .taskExit r) ho rfl trivial ((run_one _ _).symm.trans hrun)

/-! ## What accesses are recorded -/

/-- Only accesses and the queries about them look at the program's record. -/
theorem Program.step_withLog (p : Program) {k : Hook} (hk : ∀ i, k ≠ .access i ∧ k ≠ .check i)
    (log : List LoggedAccess) : { p with log }.step k = (p.step k).map fun p => { p with log } := by
  have hrun : { p with log }.running = p.running := rfl
  cases k with
  | access i => exact absurd rfl (hk i).1
  | check i => exact absurd rfl (hk i).2
  | recordCall | recordCallReturn => rfl
  | loopIterationBegin n | loopEnd r =>
    simp only [Program.step, Program.loopIterationBegin, Program.loopEnd, Program.advance]
    cases p.pendingLoop with
    | true => cases p.acts <;> rfl
    | false =>
      rcases p.acts with _ | ⟨a, _ | ⟨b, bs⟩⟩
      · rfl
      · rfl
      · simp only [Bool.false_eq_true, if_false]
        split <;> rfl
  | detachContinue r | loopBegin =>
    simp only [Program.step, hrun]
    cases p.running with
    | false => rfl
    | true =>
      obtain ⟨dag, acts, pendingLoop, nextLoop, _⟩ := p
      cases acts with
      | nil => rfl
      | cons a as =>
        simp only [if_true, Program.detachContinue, Program.loopBegin]
        first
          | rfl
          | split <;> rfl
  | funcEntry | funcExit | task | taskExit | sync | loopIterationEnd =>
    simp only [Program.step, hrun]
    cases p.running with
    | false => rfl
    | true =>
      simp only [if_true, Program.funcEntry, Program.funcExit, Program.task,
        Program.taskExit, Program.sync, Program.loopIterationEnd, Program.advance]
      rcases p.acts with _ | ⟨a, _ | ⟨b, bs⟩⟩
      all_goals dsimp only
      all_goals try rfl
      all_goals split
      all_goals try rfl
      all_goals cases a.kind <;> try rfl
      all_goals dsimp only
      all_goals split <;> rfl

theorem Program.run_withLog (log : List LoggedAccess) {ks : List Hook} :
    ∀ {p : Program}, (∀ k ∈ ks, ∀ i, k ≠ .access i ∧ k ≠ .check i) →
    { p with log }.run ks = (p.run ks).map fun p => { p with log } := by
  induction ks with
  | nil => exact fun _ => rfl
  | cons k ks ih =>
    intro p hks
    rw [List.forall_mem_cons] at hks
    simp only [Program.run, List.foldlM_cons, Option.bind_eq_bind, p.step_withLog hks.1 log]
    cases p.step k with
    | none => rfl
    | some p₁ => exact ih hks.2

namespace CilkSan

variable {c c' : CilkSan}

theorem log_mergeBagFromReturningChild {d : Bool} {r : Nat}
    (h : c.mergeBagFromReturningChild d r = some c') : c'.log = c.log := by
  unfold mergeBagFromReturningChild at h
  split at h
  · simp only [Option.bind_eq_bind, Option.pure_def] at h
    split at h
    all_goals
      obtain ⟨_, -, h⟩ := Option.bind_eq_some_iff.1 h
      cases h
      rfl
  · cases h

theorem log_startNewFunction {n : Nat} (h : c.startNewFunction n = some c') : c'.log = c.log := by
  unfold startNewFunction at h
  split at h
  all_goals cases h
  rfl

theorem log_exitFunction (h : c.exitFunction = some c') : c'.log = c.log := by
  unfold exitFunction at h
  split at h
  all_goals cases h
  rfl

theorem log_doEnter {n : Nat} (h : c.doEnter n = some c') : c'.log = c.log := by
  simp only [doEnter, Option.bind_eq_bind, Option.bind_eq_some_iff, Option.pure_def,
    Option.some.injEq] at h
  obtain ⟨c₁, h₁, _, -, rfl⟩ := h
  show c₁.log = c.log
  exact log_startNewFunction h₁

theorem log_doEnterHelper {n : Nat} (h : c.doEnterHelper n = some c') : c'.log = c.log := by
  simp only [doEnterHelper, Option.bind_eq_bind, Option.bind_eq_some_iff, Option.pure_def,
    Option.some.injEq] at h
  obtain ⟨c₁, h₁, _, -, rfl⟩ := h
  show c₁.log = c.log
  exact log_startNewFunction h₁

theorem log_doLeave {r : Nat} (h : c.doLeave r = some c') : c'.log = c.log := by
  simp only [doLeave, Option.bind_eq_bind, Option.bind_eq_some_iff] at h
  obtain ⟨f, -, h⟩ := h
  split at h
  · obtain ⟨_, h₁, h₂⟩ := Option.bind_eq_some_iff.1 h
    rw [log_exitFunction h₂, log_mergeBagFromReturningChild h₁]
  · obtain ⟨_, h₁, h₂⟩ := Option.bind_eq_some_iff.1 h
    rw [log_exitFunction h₂, log_mergeBagFromReturningChild h₁]

theorem log_doSync {r : Nat} (h : c.doSync r = some c') : c'.log = c.log := by
  simp only [doSync, Option.bind_eq_bind, Option.bind_eq_some_iff, Option.pure_def,
    Option.some.injEq] at h
  obtain ⟨c₁, h₁, _, -, rfl⟩ := h
  show c₁.log = c.log
  simp only [completeSync, Option.bind_eq_bind, Option.bind_eq_some_iff] at h₁
  obtain ⟨_, -, _, -, _, -, h₁⟩ := h₁
  split at h₁
  · simp only [Option.bind_eq_some_iff, Option.pure_def, Option.some.injEq] at h₁
    obtain ⟨_, -, _, -, _, -, rfl⟩ := h₁
    rfl
  · cases h₁
    rfl

theorem log_step {k : Hook} (hk : ∀ i, k ≠ .access i) (hl : k.isLoop = false)
    (h : c.step k = some c') : c'.log = c.log := by
  cases k with
  | access i => exact absurd rfl (hk i)
  | loopBegin | loopIterationBegin | loopIterationEnd | loopEnd => cases hl
  | recordCall | recordCallReturn =>
    cases h
    rfl
  | check i =>
    obtain ⟨r, h₁, rfl⟩ := Option.map_eq_some_iff.1 h
    simp only [checkAccess, Option.bind_eq_bind, Option.bind_eq_some_iff, Option.pure_def,
      Option.some.injEq] at h₁
    obtain ⟨_, -, _, -, rfl⟩ := h₁
    rfl
  | funcEntry m n =>
    simp only [step, funcEntry, Option.bind_eq_bind, Option.bind_eq_some_iff] at h
    obtain ⟨_, -, h⟩ := h
    split at h
    · cases h
      rfl
    · exact (log_doEnter h :)
  | funcExit =>
    simp only [step, funcExit, Option.bind_eq_bind, Option.bind_eq_some_iff, Option.pure_def] at h
    obtain ⟨skipped, -, h⟩ := h
    split at h
    · cases h
      rfl
    · obtain ⟨c₁, h₁, h⟩ := Option.bind_eq_some_iff.1 h
      cases h
      exact (log_doLeave h₁ :)
  | task n => exact log_doEnterHelper h
  | taskExit r => exact log_doLeave h
  | detachContinue r =>
    simp only [step, doDetachContinue, Option.bind_eq_bind, Option.bind_eq_some_iff,
      Option.pure_def, Option.some.injEq] at h
    obtain ⟨_, -, rfl⟩ := h
    rfl
  | sync r => exact log_doSync h

theorem log_run {ks : List Hook} (hk : ∀ k ∈ ks, ∀ i, k ≠ .access i ∧ k ≠ .check i)
    (hl : ∀ k ∈ ks, k.isLoop = false) (h : c.run ks = some c') : c'.log = c.log := by
  induction ks generalizing c with
  | nil =>
    cases h
    rfl
  | cons k ks ih =>
    rw [List.forall_mem_cons] at hk hl
    obtain ⟨c₁, h₁, h⟩ := Option.bind_eq_some_iff.1 h
    rw [ih hk.2 hl.2 h, log_step (fun i => (hk.1 i).1) hl.1 h₁]

end CilkSan

/-! ## The driver -/

/-- Two drivers with the same flags and frames in the same state of sync go on
with the same flags. -/
theorem Driver.step_of_run {d d' e : Driver} {c : CilkSan} (hl : h.isLoop = false)
    (hs : e.step h = some d')
    (hpe : d.parallelExecution = e.parallelExecution) (hc : d.tool.run h.hooks = some c)
    (hf : d.tool.frames ≠ [])
    (hsync : c.isLocalSynced = d'.tool.isLocalSynced) :
    d.step h = some { tool := c, parallelExecution := d'.parallelExecution } := by
  obtain ⟨f, fs, hf⟩ := List.exists_cons_of_ne_nil hf
  have hloop : d.tool.handleLoop = some (f.isLoopFrame || d.tool.startNewLoop) := by
    simp [CilkSan.handleLoop, hf]
  cases h with
  | beforeLoop | afterLoop => cases hl
  | detach body =>
    cases hc
    simp only [step, Driver.detach, Option.bind_eq_bind, Option.bind_eq_some_iff, Option.pure_def,
      Option.some.injEq] at hs ⊢
    obtain ⟨pe, hpe', rfl⟩ := hs
    exact ⟨pe, hpe ▸ hpe', rfl⟩
  | funcEntry m n =>
    replace hc : d.tool.funcEntry m n = some c := (toolRun_one _ _).symm.trans hc
    simp only [step, Driver.funcEntry, Option.bind_eq_bind, Option.bind_eq_some_iff,
      Option.pure_def, Option.some.injEq] at hs ⊢
    obtain ⟨pe, hpe', _, -, rfl⟩ := hs
    exact ⟨pe, hpe ▸ hpe', c, hc, rfl⟩
  | funcExit =>
    replace hc : d.tool.funcExit = some c := (toolRun_one _ _).symm.trans hc
    simp only [step, Driver.funcExit, Option.bind_eq_bind, Option.bind_eq_some_iff, Option.pure_def,
      Option.some.injEq] at hs ⊢
    obtain ⟨_, -, pe, hpe', rfl⟩ := hs
    exact ⟨c, hc, pe, hpe ▸ hpe', rfl⟩
  | task body n =>
    cases hl
    replace hc : d.tool.doEnterHelper n = some c := (toolRun_one _ _).symm.trans hc
    simp only [step, Driver.task, Option.bind_eq_bind, Option.bind_eq_some_iff, Option.pure_def,
      Option.some.injEq, Bool.false_and, Bool.false_eq_true, if_false] at hs ⊢
    obtain ⟨_, -, pe, hpe', _, -, rfl⟩ := hs
    exact ⟨_, hloop, pe, hpe ▸ hpe', c, hc, rfl⟩
  | taskExit body r =>
    cases hl
    replace hc : d.tool.doLeave r = some c := (toolRun_one _ _).symm.trans hc
    simp only [step, Driver.taskExit, Option.bind_eq_bind, Option.bind_eq_some_iff, Option.pure_def,
      Option.some.injEq, Bool.false_and, Bool.false_eq_true, if_false] at hs ⊢
    obtain ⟨_, -, _, -, pe, hpe', rfl⟩ := hs
    exact ⟨_, hloop, c, hc, pe, hpe ▸ hpe', rfl⟩
  | detachContinue body unwind r =>
    cases hl
    cases unwind with
    | false =>
      replace hc : d.tool.doDetachContinue r = some c := (toolRun_one _ _).symm.trans hc
      simp only [step, Driver.detachContinue, Option.bind_eq_bind, Option.bind_eq_some_iff,
        Option.pure_def, Option.bind_some, Option.some.injEq, Bool.false_eq_true, if_false] at hs ⊢
      obtain ⟨_, -, rfl⟩ := hs
      exact ⟨c, hc, hpe ▸ rfl⟩
    | true =>
      obtain ⟨c₁, hc₁, hc⟩ := Option.bind_eq_some_iff.1 hc
      replace hc : c₁.doDetachContinue r = some c := (toolRun_one _ _).symm.trans hc
      simp only [step, Driver.detachContinue, Option.bind_eq_bind, Option.bind_eq_some_iff,
        Option.pure_def, Option.some.injEq, Bool.false_eq_true, if_true, if_false] at hs ⊢
      obtain ⟨_, -, _, -, rfl⟩ := hs
      exact ⟨c₁, hc₁, c, hc, hpe ▸ rfl⟩
  | sync r =>
    replace hc : d.tool.doSync r = some c := (toolRun_one _ _).symm.trans hc
    simp only [step, Driver.sync, Option.bind_eq_bind, Option.bind_eq_some_iff, Option.pure_def,
      Option.some.injEq] at hs ⊢
    obtain ⟨tool, -, b, hb, pe, hpe', rfl⟩ := hs
    exact ⟨c, hc, b, hsync.trans hb, pe, hpe ▸ hpe', rfl⟩

end Cilksan
