/-
Stack memory that is used again gives no false race. A function or task whose
part of the stack a byte is in has its shadow cleared when it exits, so what is
reported there is a race of two accesses while one and the same function or
task had the byte.
-/
import CilkTools.Cilksan.StackFrames
import CilkTools.Cilksan.RaceSoundness

namespace Cilksan

/-- The bytes of `stack` that have been accessed, and not cleared, are in the
part of a function or task that had begun by then and has not exited. -/
def Owned (stack : Nat → Prop) (began : List Nat) (ranges : List StackRange)
    (events : List MemoryEvent) : Prop :=
  ∀ b, stack b →
  ∀ e ∈ MemoryEvent.live events b, ∃ x ∈ began.zip ranges, x.1 ≤ e.time ∧ x.2.covers b

namespace Owned

variable {stack : Nat → Prop} {began : List Nat} {r r' : StackRange} {ranges : List StackRange}
  {events : List MemoryEvent} {k : Nat}

theorem push (h : Owned stack began ranges events) (k : Nat) (r : StackRange) :
    Owned stack (k :: began) (r :: ranges) events := by
  intro b hb e he
  obtain ⟨x, hx, hle, hc⟩ := h b hb e he
  exact ⟨x, List.mem_cons_of_mem _ hx, hle, hc⟩

theorem clear (h : Owned stack began ranges events) (start size : Nat) :
    Owned stack began ranges (events ++ [.clear start size]) := by
  intro b hb e he
  rcases MemoryEvent.mem_live_append he with he | ⟨hx, -⟩
  · exact h b hb e he
  · cases hx

/-- What is left when the last function or task exits is not in its part. -/
theorem pop (h : Owned stack (k :: began) (r :: ranges) events) (hle : r.low ≤ r.high) :
    Owned stack began ranges (events ++ [.clear r.low (r.high - r.low)]) := by
  intro b hb e he
  rw [MemoryEvent.live_append, MemoryEvent.step] at he
  split at he
  · cases he
  · next hout =>
    obtain ⟨x, hx, hxe, hc⟩ := h b hb e he
    rcases List.mem_cons.1 hx with rfl | hx
    · have hlow : r.low ≤ b := hc.1
      have hhigh : b < r.high := hc.2
      exact absurd ⟨hlow, by omega⟩ hout
    · exact ⟨x, hx, hxe, hc⟩

theorem grow (h : Owned stack began (r :: ranges) events) (hr : ∀ b, r.covers b → r'.covers b) :
    Owned stack began (r' :: ranges) events := by
  intro b hb e he
  obtain ⟨x, hx, hle, hc⟩ := h b hb e he
  cases began with
  | nil => cases hx
  | cons k ks =>
    rcases List.mem_cons.1 hx with rfl | hx
    · exact ⟨(k, r'), List.mem_cons_self .., hle, hr b hc⟩
    · exact ⟨x, List.mem_cons_of_mem _ hx, hle, hc⟩

theorem access {e : MemoryOp} (h : Owned stack began ranges events)
    (hlen : began.length = ranges.length)
    (hbegan : ∀ k ∈ began, k ≤ e.time) (he : ∀ b, e.covers b = true → stack b →
      ∃ r ∈ ranges, r.covers b) :
    Owned stack began ranges (events ++ [.access e]) := by
  intro b hb e' he'
  rcases MemoryEvent.mem_live_append he' with he' | ⟨hx, hc⟩
  · exact h b hb e' he'
  · cases hx
    obtain ⟨r, hr, hcov⟩ := he b hc hb
    obtain ⟨i, hi, rfl⟩ := List.getElem_of_mem hr
    have hlt : i < began.length := hlen ▸ hi
    have hmem : (began[i], ranges[i]) ∈ began.zip ranges :=
      List.mem_iff_getElem.2 ⟨i, by simp [hlt, hi], by simp⟩
    exact ⟨_, hmem, hbegan _ (List.getElem_mem hlt), hcov⟩

end Owned

/-! ## The stack alone -/

/-- What keeps the parts of the stack in order. -/
structure StackState.Ok (s : StackState) : Prop where
  switched : s.switchedStack.length = s.spStack.length
  low_le : ∀ r ∈ s.spStack, r.low ≤ r.high

namespace StackState.Ok

variable {s s' : StackState} {bp sp addr : Nat}

theorem push (h : s.Ok) (bounds : StackBounds) (switched : Bool) {r : StackRange}
    (hr : r.low ≤ r.high) :
    StackState.Ok ⟨bounds, switched :: s.switchedStack, r :: s.spStack⟩ := by
  refine ⟨congrArg (· + 1) h.switched, fun r' hr' => ?_⟩
  rcases List.mem_cons.1 hr' with rfl | hr'
  · exact hr
  · exact h.low_le r' hr'

/-- A function has what is between its pointers. -/
theorem funcEntry (h : s.Ok) (hle : sp ≤ bp ∨ addrSub bp sp > DEFAULT_STACK_SIZE) :
    ∃ r, (s.funcEntry bp sp).spStack = r :: s.spStack ∧ (s.funcEntry bp sp).Ok := by
  unfold StackState.funcEntry
  split
  · refine ⟨_, rfl, h.push _ true ?_⟩
    show sp ≤ if _ then sp else bp
    split <;> omega
  · next hstay => exact ⟨_, rfl, h.push _ false (hle.resolve_right fun hfar => hstay (.inl hfar))⟩

theorem task (h : s.Ok)
    (hle : sp ≤ bp ∨ addrSub bp sp > DEFAULT_STACK_SIZE ∧ s.bounds.low > sp ∧
      s.bounds.low - sp > DEFAULT_STACK_SIZE) :
    ∃ r, (s.task bp sp).spStack = r :: s.spStack ∧ (s.task bp sp).Ok := by
  unfold StackState.task
  split
  · split
    · refine ⟨_, rfl, h.push _ true ?_⟩
      show sp ≤ if _ then sp else bp
      split <;> omega
    · next hstay => exact ⟨_, rfl, h.push _ false (hle.resolve_right fun hfar => hstay hfar.2.2)⟩
  · next hstay => exact ⟨_, rfl, h.push _ false (hle.resolve_right fun hfar => hstay hfar.2.1)⟩

theorem exit (h : s.Ok) {r : StackRange} {rs : List StackRange} (hr : s.spStack = r :: rs) :
    ∃ s', s.exit = some (r, s') ∧ s'.spStack = rs ∧ s'.Ok := by
  obtain ⟨bounds, switched, ranges⟩ := s
  obtain ⟨hlen, hle⟩ := h
  cases hr
  cases switched with
  | nil => cases hlen
  | cons b bs =>
    have hpop : r.low ≤ r.high := hle r (List.mem_cons_self ..)
    refine ⟨⟨if b then bounds.switchBack else bounds, bs, rs⟩, ?_, rfl,
        Nat.succ.inj hlen, fun r' hr' =>
      hle r' (List.mem_cons_of_mem _ hr')⟩
    simp [StackState.exit, popStackFrame, hpop]

/-- A part of the stack only grows. -/
theorem advance (h : s.Ok) {r : StackRange} {rs : List StackRange} (hr : s.spStack = r :: rs)
    (addr : Nat) :
    ∃ s' r', s.advanceStackFrame addr = some s' ∧ s'.spStack = r' :: rs ∧
    (∀ b, r.covers b → r'.covers b) ∧ s'.Ok := by
  obtain ⟨bounds, switched, ranges⟩ := s
  obtain ⟨hlen, hle⟩ := h
  cases hr
  have hr := hle r (List.mem_cons_self ..)
  refine ⟨_, _, rfl, rfl, fun b hb => ?_, hlen, fun r' hr' => ?_⟩
  · obtain ⟨h₁, h₂⟩ := hb
    refine ⟨?_, h₂⟩
    show (if addr < r.low then addr else r.low) ≤ b
    split <;> omega
  · rcases List.mem_cons.1 hr' with rfl | hr'
    · show (if addr < r.low then addr else r.low) ≤ r.high
      split <;> omega
    · exact hle r' (List.mem_cons_of_mem _ hr')

theorem advanceIf (h : s.Ok) {r : StackRange} {rs : List StackRange} (hr : s.spStack = r :: rs)
    (b : Bool) (addr : Nat) :
    ∃ s' r', (if b then s.advanceStackFrame addr else some s) = some s' ∧ s'.spStack = r' :: rs ∧
      (∀ b, r.covers b → r'.covers b) ∧ s'.Ok := by
  cases b with
  | false => exact ⟨s, r, rfl, hr, fun _ => id, h⟩
  | true => exact h.advance hr addr

theorem access (h : s.Ok) {r : StackRange} {rs : List StackRange} (hr : s.spStack = r :: rs)
    (parallel : Bool) (addr : Nat) :
    ∃ s' r', (if parallel then s.access addr else some s) = some s' ∧ s'.spStack = r' :: rs ∧
      (∀ b, r.covers b → r'.covers b) ∧ s'.Ok := by
  cases parallel with
  | false => exact ⟨s, r, rfl, hr, fun _ => id, h⟩
  | true => exact h.advanceIf hr (s.bounds.isOnStack addr) addr

theorem afterAlloca (h : s.Ok) {r : StackRange} {rs : List StackRange} (hr : s.spStack = r :: rs)
    (addr : Nat) :
    ∃ s' r', s.afterAlloca addr = some s' ∧ s'.spStack = r' :: rs ∧
    (∀ b, r.covers b → r'.covers b) ∧ s'.Ok := by
  have hbounds : StackState.Ok { s with
      bounds := { s.bounds with low := if s.bounds.low > addr then addr else s.bounds.low } } :=
    ⟨h.switched, h.low_le⟩
  exact hbounds.advance hr addr

end StackState.Ok

namespace StackState

theorem step_access {s s' : StackState} {parallel isRead : Bool}
    {accId addr memSize alignment : Nat}
    (h : (if parallel then s.access addr else some s) = some s') :
    s.step parallel (.access isRead accId addr memSize alignment) =
    some (s', [.access isRead accId addr memSize alignment]) := by
  cases parallel with
  | false =>
    cases h
    rfl
  | true => exact Option.bind_eq_some_iff.2 ⟨s', h, rfl⟩

theorem step_stacksave {s s' : StackState} {parallel : Bool} {sp : Nat}
    (h : (if parallel then s.advanceStackFrame sp else some s) = some s') :
    s.step parallel (.stacksave sp) = some (s', []) := by
  cases parallel with
  | false =>
    cases h
    rfl
  | true => exact Option.bind_eq_some_iff.2 ⟨s', h, rfl⟩

end StackState

/-! ## One hook of the rest of the tool -/

namespace Sound

variable {log : List LoggedAccess} {d : Driver} {p p' : AccessProgram} {t : RaceDetector}

theorem driver {h : DriverHook} (hi : Sound log d p t) (hl : h.isLoop = false)
    (hs : p.step (.driver h) = some p') :
    ∃ t' d', t.step (.driver h) = some t' ∧ Sound log d' p' t' ∧ p'.events = p.events ∧
    t'.races = t.races := by
  obtain ⟨t', d', ht', hd⟩ := hi.driverStep hl hs
  exact ⟨t', d', ht', hi.delimited hd, hd.events, hd.races⟩

theorem access {isRead : Bool} {accId addr memSize alignment : Nat} (hi : Sound log d p t)
    (ha : StaticallyAligned addr alignment)
    (hs : p.step (.access isRead accId addr memSize alignment) = some p') :
    ∃ e t' log' d', e = p.op isRead accId addr memSize ∧ p' = p.add (.access e) ∧
      t.step (.access isRead accId addr memSize alignment) = some t' ∧ Sound log' d' p' t' ∧
      ∀ r ∈ t'.races,
        r ∈ t.races ∨ ∃ e' ∈ MemoryEvent.live p.events r.addr, p'.Races r.addr e' e ∧
        r.Between e' e := by
  simp only [AccessProgram.step, Option.ite_none_right_eq_some, Option.some.injEq] at hs
  obtain ⟨hrun, rfl⟩ := hs
  cases hpar : t.driver.parallelExecution.isExecutionParallel with
  | false =>
    refine ⟨_, t, log, d, rfl, rfl, ?_, hi.skip rfl, fun r hr => .inl hr⟩
    simp only [RaceDetector.step, RaceDetector.access, hpar]
    rfl
  | true =>
    obtain ⟨f, log', t', ht', hrec⟩ := hi.toMonitors.record hrun ha
    refine ⟨_, t', log', d, rfl, rfl, ?_, hi.record hrec, hi.record_races hrec⟩
    simp only [RaceDetector.step, RaceDetector.access, hpar]
    exact ht'

end Sound

/-- Hooks that access nothing and report nothing. -/
def RaceDetector.Quiet (t : RaceDetector) (hooks : List DetectorHook)
    (p p' : AccessProgram) : Prop :=
  ∃ t' log d, t.run hooks = some t' ∧ Sound log d p' t' ∧ t'.races = t.races ∧
    (p'.events = p.events ∨ ∃ start size, p'.events = p.events ++ [.clear start size])

namespace Sound

variable {log : List LoggedAccess} {d : Driver} {p p' : AccessProgram} {t : RaceDetector}

theorem run_singleton (h : DetectorHook) : t.run [h] = t.step h := by
  simp [RaceDetector.run]

theorem prog_run_singleton (h : DetectorHook) : p.run [h] = p.step h := by
  simp [AccessProgram.run]

theorem quiet_nil (hi : Sound log d p t) (hs : p.run [] = some p') : t.Quiet [] p p' := by
  cases hs
  exact ⟨t, log, d, rfl, hi, rfl, .inl rfl⟩

theorem quiet_driver {h : DriverHook} (hi : Sound log d p t) (hl : h.isLoop = false)
    (hs : p.run [.driver h] = some p') : t.Quiet [.driver h] p p' := by
  rw [prog_run_singleton] at hs
  obtain ⟨t', d', ht', hsound, hevents, hraces⟩ := hi.driver hl hs
  exact ⟨t', log, d', (run_singleton _).trans ht', hsound, hraces, .inl hevents⟩

theorem quiet_clear {start size : Nat} (hi : Sound log d p t)
    (hs : p.run [.clear start size] = some p') : t.Quiet [.clear start size] p p' := by
  rw [prog_run_singleton] at hs
  cases hs
  exact ⟨t.clear start size, log, d, rfl, hi.clear start size, rfl, .inr ⟨start, size, rfl⟩⟩

end Sound

/-! ## Runs -/

/-- The pointers that a function or task begins with are in order, unless the
base pointer is seen to be still on the stack before a switch. -/
def StackState.InOrder (s : StackState) (bp sp : Nat) : DriverHook → Prop
  | .funcEntry .. => sp ≤ bp ∨ addrSub bp sp > DEFAULT_STACK_SIZE
  | .task .. =>
    sp ≤ bp ∨ addrSub bp sp > DEFAULT_STACK_SIZE ∧ s.bounds.low > sp ∧
      s.bounds.low - sp > DEFAULT_STACK_SIZE
  | _ => True

instance (s : StackState) (bp sp : Nat) : (h : DriverHook) → Decidable (s.InOrder bp sp h)
  | .funcEntry .. => inferInstanceAs (Decidable (sp ≤ bp ∨ addrSub bp sp > DEFAULT_STACK_SIZE))
  | .task .. => inferInstanceAs (Decidable
      (sp ≤ bp ∨ addrSub bp sp > DEFAULT_STACK_SIZE ∧ s.bounds.low > sp ∧
        s.bounds.low - sp > DEFAULT_STACK_SIZE))
  | .funcExit | .detach _ | .taskExit .. | .detachContinue .. | .sync _ | .beforeLoop |
      .afterLoop _ =>
    inferInstanceAs (Decidable True)

/-- The pointers are in order, an access to the stack is one to what the
functions and tasks have that are there, and where the program runs in parallel
nothing is freed before its function exits: what is freed then stays written. -/
def StackTool.StepOk (stack : Nat → Prop) (t : StackTool) : StackHook → Prop
  | .driver h bp sp => h.isLoop = false ∧ t.stack.InOrder bp sp h
  | .access _ _ addr memSize alignment => StaticallyAligned addr alignment ∧
    ∀ s ∈ if t.parallel then t.stack.access addr else some t.stack, ∀ b < addr + memSize, addr ≤ b →
    stack b →
      ∃ r ∈ s.spStack, r.covers b
  | .stackrestore .. => t.parallel = false
  | .alloca .. | .stacksave _ | .clear .. => True

instance (stack : Nat → Prop) [DecidablePred stack] (t : StackTool) :
    (h : StackHook) → Decidable (t.StepOk stack h)
  | .driver h bp sp => inferInstanceAs (Decidable (h.isLoop = false ∧ t.stack.InOrder bp sp h))
  | .access _ _ addr memSize alignment =>
    inferInstanceAs (Decidable (StaticallyAligned addr alignment ∧
      ∀ s ∈ if t.parallel then t.stack.access addr else some t.stack, ∀ b < addr + memSize,
      addr ≤ b → stack b →
        ∃ r ∈ s.spStack, r.covers b))
  | .stackrestore .. => inferInstanceAs (Decidable (t.parallel = false))
  | .alloca .. | .stacksave _ | .clear .. => inferInstanceAs (Decidable True)

def StackRun.RunOk (stack : Nat → Prop) (s : StackRun) : List StackHook → Prop
  | [] => True
  | h :: hooks => s.tool.StepOk stack h ∧ ∀ s' ∈ s.step h, s'.RunOk stack hooks

instance StackRun.decidableRunOk (stack : Nat → Prop) [DecidablePred stack] (s : StackRun) :
    (hooks : List StackHook) → Decidable (s.RunOk stack hooks)
  | [] => inferInstanceAs (Decidable True)
  | h :: hooks =>
    have (s' : StackRun) := StackRun.decidableRunOk stack s' hooks
    inferInstanceAs (Decidable (s.tool.StepOk stack h ∧ ∀ s' ∈ s.step h, s'.RunOk stack hooks))

/-- The tool keeps up with the program, and knows who has what of the stack. -/
structure StackSound (stack : Nat → Prop) (t : StackTool) (p : StackProgram) : Prop where
  sound : ∃ log d, Sound log d p.prog t.detector
  ok : t.stack.Ok
  length : p.began.length = t.stack.spStack.length
  began_le : ∀ k ∈ p.began, k ≤ p.prog.events.length
  owned : Owned stack p.began t.stack.spStack p.prog.events

/-- The race is between two accesses, and if it is on the stack one and the same
function or task has had the byte since before the first of them. -/
def OwnedRace (stack : Nat → Prop) (t : StackTool) (p : StackProgram) (r : Race) : Prop :=
  ∃ e f, p.prog.Races r.addr e f ∧ r.Between e f ∧
    (stack r.addr → ∃ x ∈ p.began.zip t.stack.spStack, x.1 ≤ e.time ∧ x.2.covers r.addr)

/-- The tool takes the hook, and what it reports are such races. -/
def StackTool.Takes (stack : Nat → Prop) (t : StackTool) (h : StackHook)
    (p' : StackProgram) : Prop :=
  ∃ t', t.step h = some t' ∧ StackSound stack t' p' ∧
  ∀ r ∈ t'.detector.races, r ∈ t.detector.races ∨ OwnedRace stack t' p' r

namespace StackSound

variable {stack : Nat → Prop} {t : StackTool} {p p' : StackProgram} {h : StackHook} {s : StackState}
  {hooks : List DetectorHook}

theorem init : StackSound stack {} {} where
  sound := ⟨_, _, .init⟩
  ok := ⟨rfl, fun r hr => by cases hr⟩
  length := rfl
  began_le k hk := by cases hk
  owned b _ e he := by cases he

theorem tool_step {detector : RaceDetector} (hstack : t.stack.step t.parallel h = some (s, hooks))
    (hrun : t.detector.run hooks = some detector) : t.step h = some ⟨s, detector⟩ := by
  simp [StackTool.step, hstack, hrun]

theorem frames_of_step (hs : p.step t h = some p') : p.frames h = some p'.began := by
  obtain ⟨began, hb, hs⟩ := Option.bind_eq_some_iff.1 hs
  obtain ⟨prog, -, hs⟩ := Option.bind_eq_some_iff.1 hs
  cases hs
  exact hb

theorem prog_step (hstack : t.stack.step t.parallel h = some (s, hooks))
    (hs : p.step t h = some p') : p.prog.run hooks = some p'.prog := by
  obtain ⟨began, -, hs⟩ := Option.bind_eq_some_iff.1 hs
  obtain ⟨prog, hp, hs⟩ := Option.bind_eq_some_iff.1 hs
  cases hs
  rw [StackTool.calls, hstack] at hp
  exact hp

/-- The hook is one of a function or task. -/
theorem eq_began {began : List Nat}
    (hb : (if p.began = [] then none else some p.began) = some began) :
    began = p.began ∧ ∃ k ks, p.began = k :: ks := by
  obtain ⟨hne, hb⟩ := Option.ite_none_left_eq_some.1 hb
  exact ⟨(Option.some.inj hb).symm, List.exists_cons_of_ne_nil hne⟩

/-- The function or task that there is. -/
theorem exists_range (hi : StackSound stack t p) {k : Nat} {ks : List Nat}
    (hb : p.began = k :: ks) : ∃ r rs, t.stack.spStack = r :: rs ∧ ks.length = rs.length := by
  have hlen := hi.length
  rw [hb] at hlen
  cases hr : t.stack.spStack with
  | nil =>
    rw [hr] at hlen
    cases hlen
  | cons r rs =>
    rw [hr] at hlen
    exact ⟨r, rs, rfl, Nat.succ.inj hlen⟩

/-- A function or task begins. -/
theorem entry {dh : DriverHook} {r : StackRange} (hi : StackSound stack t p)
    (hl : dh.isLoop = false)
    (hstack : t.stack.step t.parallel h = some (s, [.driver dh]))
    (hr : s.spStack = r :: t.stack.spStack) (hok : s.Ok)
    (hframes : p.frames h = some (p.prog.events.length :: p.began)) (hs : p.step t h = some p') :
    t.Takes stack h p' := by
  obtain ⟨log, d, hsound⟩ := hi.sound
  have hp := prog_step hstack hs
  rw [Sound.prog_run_singleton] at hp
  obtain ⟨t', d', ht', hsound', hevents, hraces⟩ := hsound.driver hl hp
  have hbegan : p'.began = p.prog.events.length :: p.began :=
    Option.some.inj ((frames_of_step hs).symm.trans hframes)
  refine ⟨⟨s, t'⟩, tool_step hstack ((Sound.run_singleton _).trans ht'),
      ⟨⟨log, d', hsound'⟩, hok, ?_, fun k hk => ?_, ?_⟩, fun r hr =>
    .inl (hraces ▸ hr)⟩
  · rw [hbegan, hr, List.length_cons, List.length_cons, hi.length]
  · rw [hbegan] at hk
    rw [hevents]
    rcases List.mem_cons.1 hk with rfl | hk
    · exact Nat.le_refl _
    · exact hi.began_le k hk
  · rw [hbegan, hr, hevents]
    exact hi.owned.push _ _

/-- A function or task exits, and its part of the stack is cleared. -/
theorem exit {dh : DriverHook} {bp sp : Nat} (hi : StackSound stack t p) (hl : dh.isLoop = false)
    (hstep : t.stack.step t.parallel (.driver dh bp sp) =
      t.stack.exit.map fun (r, s) => (s, [.driver dh, .clear r.low (r.high - r.low)]))
    (hframes : p.frames (.driver dh bp sp) = p.began.tail?)
    (hs : p.step t (.driver dh bp sp) = some p') : t.Takes stack (.driver dh bp sp) p' := by
  obtain ⟨log, d, hsound⟩ := hi.sound
  have htail : p.began.tail? = some p'.began := hframes ▸ frames_of_step hs
  obtain ⟨k, hk⟩ : ∃ k, p.began = k :: p'.began := by
    cases hc : p.began with
    | nil =>
      rw [hc] at htail
      cases htail
    | cons k ks =>
      rw [hc] at htail
      exact ⟨k, congrArg (k :: ·) (Option.some.inj htail)⟩
  obtain ⟨r, rs, hr, hlen⟩ := hi.exists_range hk
  obtain ⟨s, hexit, hrs, hok⟩ := hi.ok.exit hr
  have hstack : t.stack.step t.parallel (.driver dh bp sp) =
      some (s, [.driver dh, .clear r.low (r.high - r.low)]) := by
    rw [hstep, hexit]
    rfl
  have hp := prog_step hstack hs
  obtain ⟨p₁, hp₁, hp⟩ := Option.bind_eq_some_iff.1 hp
  obtain ⟨t₁, d', ht₁, hsound₁, hevents, hraces⟩ := hsound.driver hl hp₁
  have hprog : p'.prog = p₁.add (.clear r.low (r.high - r.low)) :=
    (Option.some.inj ((Sound.prog_run_singleton _).symm.trans hp)).symm
  have hle : r.low ≤ r.high := hi.ok.low_le r (hr ▸ List.mem_cons_self ..)
  refine ⟨⟨s, t₁.clear r.low (r.high - r.low)⟩,
    tool_step hstack (Option.bind_eq_some_iff.2 ⟨t₁, ht₁, rfl⟩),
    ⟨⟨log, d', ?_⟩, hok, ?_, fun k' hk' => ?_, ?_⟩, fun r hr => .inl (hraces ▸ hr)⟩
  · rw [hprog]
    exact hsound₁.clear _ _
  · rw [hrs, hlen]
  · have hlt := hi.began_le k' (hk ▸ List.mem_cons_of_mem _ hk')
    rw [hprog, AccessProgram.add, hevents, List.length_append]
    exact Nat.le_add_right_of_le hlt
  · have howned := hi.owned
    rw [hk, hr] at howned
    rw [hrs, hprog, AccessProgram.add, hevents]
    exact howned.pop hle

/-- The functions and tasks stay, and nothing is accessed. -/
theorem stays (hi : StackSound stack t p)
    (hstack : t.stack.step t.parallel h = some (s, hooks)) (hok : s.Ok)
    (hr : t.stack.spStack = s.spStack ∨ ∃ r r' rs, t.stack.spStack = r :: rs ∧
      s.spStack = r' :: rs ∧ ∀ b, r.covers b → r'.covers b)
    (hquiet : ∀ {log d p'}, Sound log d p.prog t.detector → p.prog.run hooks = some p' →
      t.detector.Quiet hooks p.prog p')
    (hframes : ∀ {began}, p.frames h = some began → began = p.began) (hs : p.step t h = some p') :
    t.Takes stack h p' := by
  obtain ⟨log, d, hsound⟩ := hi.sound
  obtain ⟨t', log', d', ht', hsound', hraces, hevents⟩ := hquiet hsound (prog_step hstack hs)
  have hbegan := hframes (frames_of_step hs)
  have hlen : s.spStack.length = t.stack.spStack.length := by
    rcases hr with hr | ⟨r, r', rs, hr, hr', -⟩
    · rw [hr]
    · rw [hr, hr', List.length_cons, List.length_cons]
  have howned : Owned stack p.began s.spStack p.prog.events := by
    have howned := hi.owned
    rcases hr with hr | ⟨r, r', rs, hr, hr', hgrow⟩
    · rwa [← hr]
    · rw [hr] at howned
      rw [hr']
      exact howned.grow hgrow
  refine ⟨⟨s, t'⟩, tool_step hstack ht', ⟨⟨log', d', hsound'⟩, hok, ?_, fun k hk => ?_, ?_⟩,
    fun r hr => .inl (hraces ▸ hr)⟩
  · rw [hbegan, hi.length, hlen]
  · rw [hbegan] at hk
    have hle := hi.began_le k hk
    rcases hevents with hevents | ⟨start, size, hevents⟩
    · rwa [hevents]
    · rw [hevents, List.length_append]
      exact Nat.le_add_right_of_le hle
  · rw [hbegan]
    rcases hevents with hevents | ⟨start, size, hevents⟩
    · rwa [hevents]
    · rw [hevents]
      exact howned.clear start size

/-- An access is to what the functions and tasks have that are there. -/
theorem access {isRead : Bool} {accId addr memSize alignment : Nat} (hi : StackSound stack t p)
    (hok : t.StepOk stack (.access isRead accId addr memSize alignment))
    (hs : p.step t (.access isRead accId addr memSize alignment) = some p') :
    t.Takes stack (.access isRead accId addr memSize alignment) p' := by
  obtain ⟨halign, hcov⟩ := hok
  obtain ⟨log, d, hsound⟩ := hi.sound
  obtain ⟨hbegan, k, ks, hk⟩ := eq_began (frames_of_step hs)
  obtain ⟨r, rs, hr, hlen⟩ := hi.exists_range hk
  obtain ⟨s, r', hadv, hr', hgrow, hok'⟩ := hi.ok.access hr t.parallel addr
  have hstack : t.stack.step t.parallel (.access isRead accId addr memSize alignment) =
      some (s, [.access isRead accId addr memSize alignment]) := StackState.step_access hadv
  have hp := prog_step hstack hs
  rw [Sound.prog_run_singleton] at hp
  obtain ⟨e, t', log', d', he, hprog, ht', hsound', hraces⟩ := hsound.access halign hp
  have howned : Owned stack p.began s.spStack p.prog.events := by
    have howned := hi.owned
    rw [hr] at howned
    rw [hr']
    exact howned.grow hgrow
  have hlen' :
      p.began.length = s.spStack.length := by rw [hk, hr', List.length_cons, List.length_cons, hlen]
  refine ⟨⟨s, t'⟩, tool_step hstack ((Sound.run_singleton _).trans ht'),
    ⟨⟨log', d', hsound'⟩, hok', ?_, fun k' hk' => ?_, ?_⟩,
    fun r hr => (hraces r hr).imp_right fun h => ?_⟩
  · rw [hbegan, hlen']
  · rw [hbegan] at hk'
    rw [hprog, AccessProgram.add, List.length_append]
    exact Nat.le_add_right_of_le (hi.began_le k' hk')
  · rw [hbegan, hprog]
    subst he
    refine howned.access hlen' hi.began_le fun b hb hstk => ?_
    obtain ⟨hle, hlt⟩ := of_decide_eq_true hb
    exact hcov s (Option.mem_def.2 hadv) b hlt hle hstk
  · obtain ⟨e', he', hrace, hbetween⟩ := h
    refine ⟨e', e, hrace, hbetween, fun hstk => ?_⟩
    rw [hbegan]
    exact howned r.addr hstk e' he'

/-- Whatever the hook, the tool takes it. -/
theorem step (hi : StackSound stack t p) (hok : t.StepOk stack h) (hs : p.step t h = some p') :
    t.Takes stack h p' := by
  cases h with
  | driver dh bp sp =>
    obtain ⟨hl, hle⟩ := hok
    have hother (hstack : t.stack.step t.parallel (.driver dh bp sp) = some (t.stack, [.driver dh]))
        (hframes : p.frames (.driver dh bp sp) = some p.began) :
        t.Takes stack (.driver dh bp sp) p' :=
      hi.stays hstack hi.ok (.inl rfl) (fun hsound => hsound.quiet_driver hl)
        (fun h => Option.some.inj (h.symm.trans hframes)) hs
    cases dh with
    | funcEntry maySpawn numSyncReg =>
      obtain ⟨r, hr, hok'⟩ := hi.ok.funcEntry hle
      exact hi.entry hl rfl hr hok' rfl hs
    | task isTapirLoopBody numSyncReg =>
      obtain ⟨r, hr, hok'⟩ := hi.ok.task hle
      exact hi.entry hl rfl hr hok' rfl hs
    | funcExit => exact hi.exit hl rfl rfl hs
    | taskExit isTapirLoopBody syncReg => exact hi.exit hl rfl rfl hs
    | detach _ | detachContinue _ _ _ | sync _ | beforeLoop | afterLoop _ => exact hother rfl rfl
  | access isRead accId addr memSize alignment => exact hi.access hok hs
  | alloca addr size =>
    obtain ⟨-, k, ks, hk⟩ := eq_began (frames_of_step hs)
    obtain ⟨r, rs, hr, -⟩ := hi.exists_range hk
    obtain ⟨s, r', hadv, hr', hgrow, hok'⟩ := hi.ok.afterAlloca hr addr
    have hstack : t.stack.step t.parallel (.alloca addr size) = some (s, [.clear addr size]) :=
      Option.bind_eq_some_iff.2 ⟨s, hadv, rfl⟩
    exact hi.stays hstack hok' (.inr ⟨r, r', rs, hr, hr', hgrow⟩) Sound.quiet_clear
      (fun h => (eq_began h).1) hs
  | stacksave sp =>
    obtain ⟨-, k, ks, hk⟩ := eq_began (frames_of_step hs)
    obtain ⟨r, rs, hr, -⟩ := hi.exists_range hk
    obtain ⟨s, r', hadv, hr', hgrow, hok'⟩ := hi.ok.advanceIf hr t.parallel sp
    exact hi.stays (StackState.step_stacksave hadv) hok'
      (.inr ⟨r, r', rs, hr, hr', hgrow⟩) Sound.quiet_nil (fun h => (eq_began h).1) hs
  | stackrestore callId sp =>
    have hpar : t.parallel = false := hok
    have hstack : t.stack.step t.parallel (.stackrestore callId sp) = some (t.stack, []) := by
      rw [hpar]
      rfl
    exact hi.stays hstack hi.ok (.inl rfl) Sound.quiet_nil (fun h => (eq_began h).1) hs
  | clear start size =>
    have hstack :
        t.stack.step t.parallel (.clear start size) = some (t.stack, [.clear start size]) := rfl
    exact hi.stays hstack hi.ok (.inl rfl) Sound.quiet_clear (fun h => (Option.some.inj h).symm) hs

theorem run {s s' : StackRun} {hooks : List StackHook} (hi : StackSound stack s.tool s.prog)
    (hok : s.RunOk stack hooks)
    (hs : s.run hooks = some s') : StackSound stack s'.tool s'.prog ∧ ∀ r ∈ s'.tool.detector.races,
      r ∈ s.tool.detector.races ∨ ∃ hooks₁ hooks₂ s₁, hooks₁ ++ hooks₂ = hooks ∧
      s.run hooks₁ = some s₁ ∧
        r ∈ s₁.tool.detector.races ∧ OwnedRace stack s₁.tool s₁.prog r := by
  induction hooks generalizing s with
  | nil =>
    cases hs
    exact ⟨hi, fun r hr => .inl hr⟩
  | cons h hooks ih =>
    obtain ⟨s₁, hs₁, hs⟩ := Option.bind_eq_some_iff.1 hs
    obtain ⟨hstep, hok⟩ := hok
    have hs₁' := hs₁
    obtain ⟨p₁, hp₁, hs₁⟩ := Option.bind_eq_some_iff.1 hs₁
    obtain ⟨t₁, ht₁, hi₁, hraces⟩ := hi.step hstep hp₁
    obtain ⟨t₂, ht₂, hs₁⟩ := Option.bind_eq_some_iff.1 hs₁
    cases ht₁.symm.trans ht₂
    cases hs₁
    obtain ⟨hi', hraces'⟩ := ih hi₁ (hok _ (Option.mem_def.2 hs₁')) hs
    refine ⟨hi', fun r hr => ?_⟩
    rcases hraces' r hr with hr₁ | ⟨hooks₁, hooks₂, s₂, rfl, hs₂, h₂⟩
    · refine (hraces r hr₁).imp_right fun howned => ⟨[h], hooks, _, rfl, ?_, hr₁, howned⟩
      exact Option.bind_eq_some_iff.2 ⟨_, hs₁', rfl⟩
    · exact .inr ⟨h :: hooks₁, hooks₂, s₂, rfl, Option.bind_eq_some_iff.2 ⟨_, hs₁', hs₂⟩, h₂⟩

end StackSound

/-- **No false races from memory of the stack that is used again.** When a race
on the stack is reported, the function or task that has the byte has had it since
before both accesses. Nor is the tool stuck where the program goes on. -/
theorem stackRaces_owned {stack : Nat → Prop} {hooks : List StackHook} {s : StackRun}
    (hok : StackRun.RunOk stack {} hooks) (hs : StackRun.run {} hooks = some s) :
    (∀ h p', s.tool.StepOk stack h → s.prog.step s.tool h = some p' →
      ∃ t', s.tool.step h = some t') ∧
    ∀ r ∈ s.tool.detector.races, ∃ hooks₁ hooks₂ s₁, hooks₁ ++ hooks₂ = hooks ∧
    StackRun.run {} hooks₁ = some s₁ ∧
      r ∈ s₁.tool.detector.races ∧ OwnedRace stack s₁.tool s₁.prog r := by
  obtain ⟨hi, hraces⟩ := StackSound.init.run hok hs
  refine ⟨fun h p' hstep hp => ?_, fun r hr => (hraces r hr).resolve_left fun h => by cases h⟩
  obtain ⟨t', ht', -⟩ := hi.step hstep hp
  exact ⟨t', ht'⟩

/-- A task writes what its parent has on the stack, and the parent reads it. -/
def localOfParent : List StackHook :=
  [.driver (.funcEntry true 2) 112 64, .driver (.detach false) 0 0, .driver (.task false 0) 48 48,
    .access false 1 64 4 4,
    .driver (.taskExit false 0) 0 0, .driver (.detachContinue false false 0) 0 0,
    .access true 2 64 4 4]

theorem stackRaces_owned_parent : ∃ s, StackRun.run {} localOfParent = some s ∧
    s.tool.detector.races ≠ [] ∧
    ∀ r ∈ s.tool.detector.races, ∃ hooks₁ hooks₂ s₁, hooks₁ ++ hooks₂ = localOfParent ∧
    StackRun.run {} hooks₁ = some s₁ ∧
      r ∈ s₁.tool.detector.races ∧ OwnedRace (· < 112) s₁.tool s₁.prog r :=
  ⟨_, rfl, List.cons_ne_nil _ _, (stackRaces_owned (by decide) rfl).2⟩

end Cilksan
