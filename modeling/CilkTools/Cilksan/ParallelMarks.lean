/-
The continuation states beside the stack of parallel-execution flags: what a
frame is in a continuation of has not been synced, so that no frame is in a
continuation while the top flag is down.
-/
import CilkTools.Cilksan.ReducerViews

namespace Cilksan

/-- What a frame is in a continuation of is left to do by its activation. -/
structure Marked (m : ViewStack.Marks) (a : Activation) : Prop where
  region : ∀ r ∈ m.regions, a.pend r ≠ []
  loop : m.loop = true → a.isLoop = true ∧ a.active = true

structure MarksOf (ms : ViewStack.MarkStack) (p : Program) : Prop where
  frames : List.Forall₂ Marked ms.frames p.acts
  newLoop : ms.startNewLoop = p.pendingLoop

/-- There is room for a frame that is pushed, and one that is popped is in no
continuation. Views are changed by other means. -/
def HookOk {T : Type} (ms : ViewStack.MarkStack) : ViewStack.Hook T → Prop
  | .enter | .enterHelper => ms.frames.length < 2 ^ 31
  | .loopIterationBegin => ms.startNewLoop = true → ms.frames.length < 2 ^ 31
  | .leave | .loopEnd => ∃ m m' rest, ms.frames = m :: m' :: rest ∧ m.inContinuation = false
  | .views _ => False
  | _ => True

/-- The hooks may come one after the other, and lead to the program. -/
def LeadTo {T : Type} : ViewStack.MarkStack → List (ViewStack.Hook T) → Program → Prop
  | ms, [], p => MarksOf ms p
  | ms, h :: hs, p => HookOk ms h ∧ LeadTo (ms.step h) hs p

namespace Marked

variable {m : ViewStack.Marks} {a a' : Activation}

theorem new (a : Activation) : Marked {} a := ⟨nofun, nofun⟩

theorem inContinuation (h : Marked m a) (hl : a.isLoop = true → a.active = false)
    (hp : ∀ r, a.pend r = []) : m.inContinuation = false := by
  have hloop : m.loop = false := Bool.eq_false_iff.2 fun hm => by
    obtain ⟨hal, hact⟩ := h.loop hm
    rw [hl hal] at hact
    cases hact
  have hregions : m.regions = [] :=
    List.eq_nil_iff_forall_not_mem.2 fun r hr => h.region r hr (hp r)
  rw [ViewStack.Marks.inContinuation, hloop, hregions]
  rfl

/-- An activation that goes on has no less left to do. -/
theorem mono (h : Marked m a) (hp : ∀ r, a.pend r ≠ [] → a'.pend r ≠ []) (hk : a'.kind = a.kind)
    (hact : a'.active = a.active) : Marked m a' :=
  ⟨fun r hr => hp r (h.region r hr), fun hm => by
    rw [Activation.isLoop, hk, hact]
    exact h.loop hm⟩

theorem sync (h : Marked m a) (n r : Nat) :
    Marked { m with regions := m.regions.filter (· ≠ r) }
    { a with cur := n, pend := Function.update a.pend r [] } where
  region r' hr' := by
    obtain ⟨hmem, hne⟩ := List.mem_filter.1 hr'
    have hne : r' ≠ r := of_decide_eq_true hne
    show Function.update a.pend r [] r' ≠ []
    rw [Function.update_of_ne hne]
    exact h.region r' hmem
  loop := h.loop

theorem detachContinue {r : Nat} (h : Marked m a) (hr : a.pend r ≠ []) :
    Marked { m with regions := r :: m.regions } a :=
  ⟨List.forall_mem_cons.2 ⟨hr, h.region⟩, h.loop⟩

end Marked

namespace MarksOf

variable {ms : ViewStack.MarkStack} {p p' : Program} {c : CilkSan} {a a' : Activation}
  {as : List Activation}

theorem exists_cons (h : MarksOf ms p) (hp : p.acts = a :: as) :
    ∃ m rest, ms.frames = m :: rest ∧ Marked m a ∧ List.Forall₂ Marked rest as := by
  obtain ⟨m, rest, hm, hrest, heq⟩ := List.forall₂_cons_right_iff.1 (hp ▸ h.frames)
  exact ⟨m, rest, heq, hm, hrest⟩

theorem length_eq (h : MarksOf ms p) : ms.frames.length = p.acts.length := h.frames.length_eq

/-- The head goes on, with the same marks. -/
theorem setHead (a' : Activation) (h : MarksOf ms p) (hp : p.acts = a :: as)
    (hp' : p'.acts = a' :: as) (hn : p'.pendingLoop = p.pendingLoop)
    (hm : ∀ m, Marked m a → Marked m a') : MarksOf ms p' := by
  obtain ⟨m, rest, hms, hma, hrest⟩ := h.exists_cons hp
  exact ⟨by rw [hms, hp']; exact .cons (hm m hma) hrest, by rw [h.newLoop, hn]⟩

/-- A frame is pushed for the activation. -/
theorem push {T : Type} {hook : ViewStack.Hook T} (a' : Activation) (h : MarksOf ms p)
    (hlen : p.acts.length < 2 ^ 31)
    (hstep : ms.step hook = { ms with frames := {} :: ms.frames, startNewLoop := p'.pendingLoop })
    (hok : ms.frames.length < 2 ^ 31 → HookOk ms hook) (hp : p'.acts = a' :: p.acts) :
    LeadTo ms [hook] p' := by
  refine ⟨hok (by rw [h.length_eq]; exact hlen), ?_⟩
  rw [hstep]
  exact ⟨by rw [hp]; exact .cons (.new a') h.frames, rfl⟩

/-- The head's frame is popped, which has nothing left to do. -/
theorem pop {T : Type} {b : Activation} (b' : Activation) {bs : List Activation}
    {hook : ViewStack.Hook T} (h : MarksOf ms p)
    (hp : p.acts = a :: b :: bs) (hp' : p'.acts = b' :: bs) (hn : p'.pendingLoop = p.pendingLoop)
    (hstep : ms.step hook = { ms with frames := ms.frames.tail })
    (hl : a.isLoop = true → a.active = false)
    (hpend : ∀ r, a.pend r = []) (hb : ∀ m, Marked m b → Marked m b')
    (hok : (∃ m m' rest, ms.frames = m :: m' :: rest ∧ m.inContinuation = false) → HookOk ms hook) :
    LeadTo ms [hook] p' := by
  obtain ⟨m, rest, hms, hma, hrest⟩ := h.exists_cons hp
  obtain ⟨m', rest', hmb, hrest', hrest⟩ := List.forall₂_cons_right_iff.1 hrest
  refine ⟨hok ⟨m, m', rest', by rw [hms, hrest], hma.inContinuation hl hpend⟩, ?_⟩
  rw [hstep, hms, hrest]
  exact ⟨by rw [hp']; exact .cons (hb m' hmb) hrest', by rw [hn]; exact h.newLoop⟩

/-- The head and its marks change together. -/
theorem modifyHead {T : Type} {hook : ViewStack.Hook T} {n : ViewStack.Marks → ViewStack.Marks}
    (a' : Activation) (h : MarksOf ms p)
    (hp : p.acts = a :: as) (hp' : p'.acts = a' :: as) (hn : p'.pendingLoop = p.pendingLoop)
    (hstep : ms.step hook = { ms with frames := ms.frames.modifyHead n }) (hok : HookOk ms hook)
    (hm : ∀ m, Marked m a → Marked (n m) a') : LeadTo ms [hook] p' := by
  obtain ⟨m, rest, hms, hma, hrest⟩ := h.exists_cons hp
  refine ⟨hok, ?_⟩
  rw [hstep, hms]
  exact ⟨by rw [hp']; exact .cons (hm m hma) hrest, by rw [hn]; exact h.newLoop⟩

end MarksOf

/-! ## What the driver sees -/

section

variable {p p' : Program} {c : CilkSan} {a : Activation} {as : List Activation}

theorem isLocalSynced_eq (hi : Inv p c) (hp : p.acts = a :: as) :
    c.isLocalSynced = some (!a.isLoop && decide (a.unsynced = [])) := by
  obtain ⟨f, fs, hf, hm, -⟩ := hi.head hp
  simp only [CilkSan.isLocalSynced, hf, List.head?_cons, Option.bind_eq_bind, Option.bind_some,
    Option.pure_def, hm.loop]
  cases hl : a.isLoop with
  | true => rfl
  | false =>
    have hiff := hm.unsynced_iff hl
    cases hany : (f.pbags.getD []).any Option.isSome with
    | true => rw [decide_eq_false fun hu => by rw [hiff.2 hu] at hany; cases hany]; rfl
    | false => rw [decide_eq_true (hiff.1 hany)]; rfl

/-- Which frames were skipped is known at their exits. -/
theorem framesSkipped_head (hi : Inv p c) (hp : p.acts = a :: as)
    (h : 0 < a.inlined ∨ a.kind = .called) :
    c.framesSkipped.head? = some (decide (0 < a.inlined)) := by
  rw [hi.skipped, hp, skips, List.flatMap_cons]
  cases hn : a.inlined with
  | zero =>
    rw [if_pos (h.resolve_left (by omega))]
    rfl
  | succ n => rfl

theorem pend_eq_nil (hi : Inv p c) (hp : p.acts = a :: as) (hu : a.unsynced = []) (r : Nat) :
    a.pend r = [] := by
  obtain ⟨f, fs, -, hm, -⟩ := hi.head hp
  exact Activation.pend_of_unsynced hm hu r

/-- What a region has gets more. -/
theorem Marked.append {m : ViewStack.Marks} (h : Marked m a) (n r : Nat) (l : List Nat) :
    Marked m { a with cur := n, pend := Function.update a.pend r (a.pend r ++ l) } := by
  refine h.mono (fun r' hr' => ?_) rfl rfl
  show Function.update a.pend r (a.pend r ++ l) r' ≠ []
  by_cases hrr : r' = r
  · rw [hrr, Function.update_self]
    exact fun heq => hr' (hrr ▸ (List.append_eq_nil_iff.1 heq).1)
  · rwa [Function.update_of_ne hrr]

end

section

variable {M : Type} {p p' : ReducerProgram M} {d : Driver} {ms : ViewStack.MarkStack}

/-- Right after a task its region has something. -/
def ReducerProgram.Returned (p : ReducerProgram M) : Prop :=
  ∀ r, p.returned = some (false, r) → ∃ a as, p.trace.program.acts = a :: as ∧ a.pend r ≠ []

theorem ReducerProgram.returned_of_none (h : p.returned = none) : p.Returned := fun r hr => by
  rw [h] at hr
  cases hr

theorem funcEntry_leadTo {m : Bool} {n : Nat} {t t' : Trace} (hi : Tracks t d)
    (hm : MarksOf ms t.program)
    (hlen : t.program.acts.length < 2 ^ 31) (hs : t.step (.funcEntry m n) = some t') :
    ∃ hooks, d.viewHooks (.funcEntry m n) = some hooks ∧ LeadTo ms hooks t'.program := by
  obtain ⟨-, -, p', hp', rfl⟩ := Tracks.advance_eq hs
  simp only [Program.step, Option.ite_none_right_eq_some, Program.funcEntry] at hp'
  obtain ⟨hrun, hp'⟩ := hp'
  have hpl : t.program.pendingLoop = false := Tracks.pendingLoop_of_running hrun
  split at hp'
  · next a as hacts =>
    have hsync := isLocalSynced_eq hi.follows.inv hacts
    have hcond : (!m && (!a.isLoop && decide (a.unsynced = []))) =
      (!m && !a.isLoop && decide (a.unsynced = [])) := (Bool.and_assoc ..).symm
    simp only [Driver.viewHooks, hsync, Option.bind_eq_bind, Option.bind_some,
      Option.pure_def, hcond]
    refine ⟨_, rfl, ?_⟩
    split at hp'
    · next hc =>
      cases hp'
      have hskip : (!m && !a.isLoop && decide (a.unsynced = [])) = true := by simpa using hc
      rw [if_pos hskip]
      exact hm.setHead { a with cur := t.program.dag.size, inlined := a.inlined + 1 } hacts rfl
          rfl fun _ h =>
        h.mono (fun _ h => h) rfl rfl
    · next hc =>
      cases hp'
      have hskip : ¬ (!m && !a.isLoop && decide (a.unsynced = [])) = true := by simpa using hc
      rw [if_neg hskip]
      refine hm.push { kind := .called, regions := n, cur := t.program.dag.size } hlen ?_ id
        (by rw [hacts]; rfl)
      show _ = { ms with frames := {} :: ms.frames, startNewLoop := t.program.pendingLoop }
      rw [← hm.newLoop]
      rfl
  · cases hp'

theorem funcExit_leadTo {t t' : Trace} (hi : Tracks t d) (hm : MarksOf ms t.program)
    (hs : t.step .funcExit = some t') :
    ∃ hooks, d.viewHooks .funcExit = some hooks ∧ LeadTo ms hooks t'.program := by
  obtain ⟨-, -, p', hp', rfl⟩ := Tracks.advance_eq hs
  simp only [Program.step, Option.ite_none_right_eq_some, Program.funcExit] at hp'
  obtain ⟨-, hp'⟩ := hp'
  split at hp'
  · next a as hacts =>
    split at hp'
    · next hlt =>
      cases hp'
      have hhead := framesSkipped_head hi.follows.inv hacts (.inl hlt)
      simp only [Driver.viewHooks, hhead, Option.bind_eq_bind, Option.bind_some, Option.pure_def,
        decide_eq_true hlt]
      refine ⟨_, rfl, ?_⟩
      exact hm.setHead { a with cur := t.program.dag.size, inlined := a.inlined - 1 } hacts rfl
          rfl fun _ h =>
        h.mono (fun _ h => h) rfl rfl
    · next hlt =>
      split at hp'
      · next b bs hk =>
        split at hp'
        · next hu =>
          cases hp'
          have hhead := framesSkipped_head hi.follows.inv hacts (.inr hk)
          simp only [Driver.viewHooks, hhead, Option.bind_eq_bind, Option.bind_some,
            Option.pure_def, decide_eq_false hlt]
          refine ⟨_, rfl, ?_⟩
          exact hm.pop { b with cur := t.program.dag.size } hacts rfl rfl rfl
            (fun hl => by simp [Activation.isLoop, hk] at hl) (pend_eq_nil hi.follows.inv hacts hu)
            (fun _ h => h.mono (fun _ h => h) rfl rfl) id
        · cases hp'
      · cases hp'
  · cases hp'

theorem task_leadTo {body : Bool} {n : Nat} {t t' : Trace} (hi : Tracks t d)
    (hm : MarksOf ms t.program)
    (hlen : t.program.acts.length < 2 ^ 31) (hs : t.step (.task body n) = some t') :
    ∃ hooks, d.viewHooks (.task body n) = some hooks ∧ LeadTo ms hooks t'.program := by
  simp only [Trace.step, Trace.task] at hs
  split at hs
  · obtain ⟨p', hp', rfl⟩ := Option.map_eq_some_iff.1 hs
    cases body with
    | false =>
      simp only [Bool.false_eq_true, if_false, Program.step, Option.ite_none_right_eq_some,
        Program.task] at hp'
      obtain ⟨hrun, hp'⟩ := hp'
      split at hp'
      · next a as hacts =>
        split at hp'
        · cases hp'
          have hh := Tracks.handleLoop_eq hi.follows.inv hacts
          simp only [Driver.viewHooks, hh, Option.bind_eq_bind, Option.bind_some, Option.pure_def,
            Bool.false_and, Bool.false_eq_true, if_false]
          refine ⟨_, rfl,
            hm.push { kind := .spawned, regions := n, cur := t.program.dag.size } hlen ?_ id
            (by rw [hacts]; rfl)⟩
          show _ = { ms with frames := {} :: ms.frames, startNewLoop := t.program.pendingLoop }
          rw [← hm.newLoop]
          rfl
        · cases hp'
      · cases hp'
    | true =>
      simp only [if_true, Program.step, Program.loopIterationBegin] at hp'
      split at hp'
      · next hpl =>
        split at hp'
        · next a as hacts =>
          cases hp'
          have hh := Tracks.handleLoop_eq hi.follows.inv hacts
          have hnew : ms.startNewLoop = true := by rw [hm.newLoop, hpl]
          simp only [Driver.viewHooks, hh, Option.bind_eq_bind, Option.bind_some, Option.pure_def,
            hpl, Bool.or_true, Bool.and_true, if_true]
          refine ⟨_, rfl, hm.push {
            kind := .loop t.program.nextLoop
            regions := if n > 0 then n else 1
            cur := t.program.dag.size } hlen ?_ (fun h _ => h) (by rw [hacts]; rfl)⟩
          rw [ViewStack.MarkStack.step, if_pos hnew]
        · cases hp'
      · next hpl =>
        split at hp'
        · next a b bs hacts =>
          split at hp'
          · next hc =>
            cases hp'
            have hh := Tracks.handleLoop_eq hi.follows.inv hacts
            have hold : ¬ ms.startNewLoop = true := by rwa [hm.newLoop]
            simp only [Driver.viewHooks, hh, Option.bind_eq_bind, Option.bind_some, Option.pure_def,
              hc.1, Bool.true_or, Bool.and_true, if_true]
            refine ⟨_, rfl, hm.modifyHead (n := fun m => { m with loop := true })
              { a with cur := t.program.dag.size, active := true } hacts rfl rfl
              (by rw [ViewStack.MarkStack.step, if_neg hold])
              (fun h => absurd h hold) fun m h => ?_⟩
            exact ⟨h.region, fun _ => ⟨hc.1, rfl⟩⟩
          · cases hp'
        · cases hp'
  · cases hs

theorem taskExit_leadTo {body : Bool} {r : Nat} {t t' : Trace} (hi : Tracks t d)
    (hm : MarksOf ms t.program)
    (hu : ∀ a ∈ t.program.acts.head?, a.unsynced = []) (hs : t.step (.taskExit body r) = some t') :
    (∃ hooks, d.viewHooks (.taskExit body r) = some hooks ∧ LeadTo ms hooks t'.program) ∧
      (body = false → ∃ a as, t'.program.acts = a :: as ∧ a.pend r ≠ []) := by
  obtain ⟨-, -, p', hp', rfl⟩ := Tracks.advance_eq hs
  cases body with
  | false =>
    simp only [Bool.false_eq_true, if_false, Program.step, Option.ite_none_right_eq_some,
      Program.taskExit] at hp'
    obtain ⟨-, hp'⟩ := hp'
    split at hp'
    · next a b bs hacts =>
      split at hp'
      · next hc =>
        cases hp'
        have hh := Tracks.handleLoop_eq hi.follows.inv hacts
        simp only [Driver.viewHooks, hh, Option.bind_eq_bind, Option.bind_some, Option.pure_def,
          Bool.false_and, Bool.false_eq_true, if_false]
        refine ⟨⟨_, rfl, ?_⟩, fun _ => ⟨_, _, rfl, ?_⟩⟩
        · exact hm.pop _ hacts rfl rfl rfl (fun hl => by simp [Activation.isLoop, hc.1] at hl)
            (pend_eq_nil hi.follows.inv hacts (hu a (by rw [hacts]; rfl)))
            (fun _ h => h.append _ r _) id
        · show Function.update b.pend r (b.pend r ++ a.cur :: a.unsynced) r ≠ []
          rw [Function.update_self]
          exact List.append_ne_nil_of_right_ne_nil _ (List.cons_ne_nil _ _)
      · cases hp'
    · cases hp'
  | true =>
    simp only [if_true, Program.step, Option.ite_none_right_eq_some,
      Program.loopIterationEnd] at hp'
    obtain ⟨-, hp'⟩ := hp'
    split at hp'
    · next a b bs hacts =>
      split at hp'
      · next hl =>
        cases hp'
        have hh := Tracks.handleLoop_eq hi.follows.inv hacts
        have hpend := pend_eq_nil hi.follows.inv hacts (hu a (by rw [hacts]; rfl))
        simp only [Driver.viewHooks, hh, Option.bind_eq_bind, Option.bind_some, Option.pure_def,
          hl, Bool.true_or, Bool.and_true, if_true]
        refine ⟨⟨_, rfl, ?_⟩, fun h => by cases h⟩
        exact hm.modifyHead (n := fun m => { m with loop := false }) _ hacts rfl rfl rfl
            trivial fun m h =>
          ⟨fun r hr => absurd (hpend r) (h.region r hr), fun hm => by cases hm⟩
      · cases hp'
    · cases hp'

theorem sync_leadTo {r : Nat} {t t' : Trace} (hm : MarksOf ms t.program)
    (hs : t.step (.sync r) = some t') :
    ∃ hooks, d.viewHooks (.sync r) = some hooks ∧ LeadTo ms hooks t'.program := by
  simp only [Trace.step, Trace.sync] at hs
  split at hs
  · obtain ⟨p', hp', rfl⟩ := Option.map_eq_some_iff.1 hs
    simp only [Program.step, Option.ite_none_right_eq_some, Program.sync] at hp'
    obtain ⟨-, hp'⟩ := hp'
    split at hp'
    · next a as hacts =>
      split at hp'
      · cases hp'
        exact ⟨_, rfl, hm.modifyHead _ hacts rfl rfl rfl trivial fun m h => h.sync _ r⟩
      · cases hp'
    · cases hp'
  · cases hs

theorem beforeLoop_leadTo {t t' : Trace} (hm : MarksOf ms t.program)
    (hs : t.step .beforeLoop = some t') :
    ∃ hooks, d.viewHooks .beforeLoop = some hooks ∧ LeadTo ms hooks t'.program := by
  obtain ⟨-, -, p', hp', rfl⟩ := Tracks.advance_eq hs
  simp only [Program.step, Option.ite_none_right_eq_some, Program.loopBegin] at hp'
  obtain ⟨-, hp'⟩ := hp'
  split at hp'
  · split at hp'
    · cases hp'
      exact ⟨_, rfl, trivial, hm.frames, rfl⟩
    · cases hp'
  · cases hp'

theorem afterLoop_leadTo {r : Nat} {t t' : Trace} (hi : Tracks t d) (hm : MarksOf ms t.program)
    (hok : t.program.pendingLoop = false) (hs : t.step (.afterLoop r) = some t') :
    ∃ hooks, d.viewHooks (.afterLoop r) = some hooks ∧ LeadTo ms hooks t'.program := by
  obtain ⟨t₁, ht₁, rfl⟩ := Option.map_eq_some_iff.1 hs
  obtain ⟨-, -, p', hp', rfl⟩ := Tracks.advance_eq ht₁
  simp only [Program.step, Program.loopEnd, hok, Bool.false_eq_true, if_false] at hp'
  split at hp'
  · next a b bs hacts =>
    split at hp'
    · next hc =>
      cases hp'
      obtain ⟨f, fs, -, hma, -⟩ := hi.follows.inv.head hacts
      exact ⟨_, rfl, hm.pop _ hacts rfl rfl rfl (fun _ => hc.2.1) (hma.idle hc.2.1).2.2
        (fun _ h => h.append _ r _) id⟩
    · cases hp'
  · cases hp'

theorem detach_leadTo {body : Bool} {t t' : Trace} (hm : MarksOf ms t.program)
    (hs : t.step (.detach body) = some t') :
    ∃ hooks, d.viewHooks (.detach body) = some hooks ∧ LeadTo ms hooks t'.program := by
  simp only [Trace.step, Trace.detach] at hs
  split at hs
  · cases hs
    exact ⟨_, rfl, hm⟩
  · cases hs

/-- A continuation changes nothing but the marks. -/
theorem detachContinue_leadTo {body : Bool} {r : Nat} {t t' : Trace} (hm : MarksOf ms t.program)
    (hr : body = false → ∃ a as, t.program.acts = a :: as ∧ a.pend r ≠ [])
    (hs : t.step (.detachContinue body false r) = some t') :
    ∃ hooks, d.viewHooks (.detachContinue body false r) = some hooks ∧
    LeadTo ms hooks t'.program := by
  obtain ⟨-, -, p', hp', rfl⟩ := Tracks.advance_eq hs
  cases body with
  | true =>
    cases hp'
    exact ⟨_, rfl, hm⟩
  | false =>
    obtain ⟨a, as, hacts, hpend⟩ := hr rfl
    replace hp' : t.program.step (.detachContinue r) = some p' := hp'
    simp only [Program.step, Option.ite_none_right_eq_some, Program.detachContinue, hacts] at hp'
    obtain ⟨-, hp'⟩ := hp'
    cases hp'
    exact ⟨_, rfl, hm.modifyHead _ hacts hacts rfl rfl trivial fun m h => h.detachContinue hpend⟩

/-- **One hook of the driver.** The marks go on with the program. -/
theorem ReducerProgram.leadTo {h : DriverHook} (hi : Tracks p.trace d) (hret : p.Returned)
    (hm : MarksOf ms p.trace.program)
    (hok : TraceOk p.trace h) (hlen : p.trace.program.acts.length < 2 ^ 31)
    (hs : p.driverStep h = some p') :
    p.trace.step h = some p'.trace ∧ p'.values = p.values ∧ p'.Returned ∧
      ∃ hooks, d.viewHooks h = some hooks ∧ LeadTo ms hooks p'.trace.program := by
  have hadvance : ∀ {ret}, p.advance h ret = some p' →
      p.trace.step h = some p'.trace ∧ p'.values = p.values ∧
      p'.returned = ret := fun {ret} ha => by
    obtain ⟨t', ht', rfl⟩ := Option.map_eq_some_iff.1 ha
    exact ⟨ht', rfl, rfl⟩
  have hplain : (if p.returned = none then p.advance h none else none) = some p' →
      (p.trace.step h = some p'.trace →
        ∃ hooks, d.viewHooks h = some hooks ∧ LeadTo ms hooks p'.trace.program) →
      p.trace.step h = some p'.trace ∧ p'.values = p.values ∧ p'.Returned ∧
        ∃ hooks, d.viewHooks h = some hooks ∧ LeadTo ms hooks p'.trace.program := fun hs hl => by
    rw [Option.ite_none_right_eq_some] at hs
    obtain ⟨ht, hv, hr⟩ := hadvance hs.2
    exact ⟨ht, hv, returned_of_none hr, hl ht⟩
  cases h with
  | taskExit body r =>
    simp only [driverStep] at hs
    split at hs
    · next hc =>
      obtain ⟨ht, hv, hr⟩ := hadvance hs
      obtain ⟨hl, hpend⟩ := taskExit_leadTo hi hm hc.2 ht
      refine ⟨ht, hv, fun r' hr' => ?_, hl⟩
      cases hr.symm.trans hr'
      exact hpend rfl
    · cases hs
  | detachContinue body unwind r =>
    simp only [driverStep] at hs
    split at hs
    · next hc =>
      obtain ⟨hret', rfl⟩ := hc
      obtain ⟨ht, hv, hr⟩ := hadvance hs
      exact ⟨ht, hv, returned_of_none hr,
        detachContinue_leadTo hm (fun hb => hret r (by rw [hret', hb])) ht⟩
    · cases hs
  | funcEntry => exact hplain hs fun ht => funcEntry_leadTo hi hm hlen ht
  | funcExit => exact hplain hs fun ht => funcExit_leadTo hi hm ht
  | detach => exact hplain hs fun ht => detach_leadTo hm ht
  | task => exact hplain hs fun ht => task_leadTo hi hm hlen ht
  | sync => exact hplain hs fun ht => sync_leadTo hm ht
  | beforeLoop => exact hplain hs fun ht => beforeLoop_leadTo hm ht
  | afterLoop => exact hplain hs fun ht => afterLoop_leadTo hi hm hok ht

/-- While all that was begun is in series, no frame is in a continuation. -/
theorem MarksOf.of_inSeries {p : Program} (hm : MarksOf ms p) (hs : p.InSeries) :
    ∀ m ∈ ms.frames, m.inContinuation = false := by
  have hframes := hm.frames
  rw [Program.InSeries] at hs
  generalize ms.frames = l, p.acts = as at hframes hs
  induction hframes with
  | nil => nofun
  | cons hma _ ih =>
    rw [List.forall_mem_cons] at hs
    exact List.forall_mem_cons.2
      ⟨hma.inContinuation (fun hl => absurd hs.1.1 (Activation.not_serial_of_loop hl)) hs.1.2,
        ih hs.2⟩

end

end Cilksan
