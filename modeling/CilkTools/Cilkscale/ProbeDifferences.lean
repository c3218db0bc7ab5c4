/-
The difference of two probes: the work and the spans of the code in between.
-/
import CilkTools.Cilkscale.Probes

namespace Cilkscale

open TimedDag (Grows)

/-- How many frames there are above that of the start. -/
def ProbeHook.depth (n : Nat) : ProbeHook → Option Nat
  | .hook (.funcEntry true _) _ | .hook .task _ => some (n + 1)
  | .hook (.funcExit true _) _ | .hook (.taskExit _) _ => if n = 0 then none else some (n - 1)
  | _ => some n

/-- The hooks start and end in one frame, and stay in it and those it calls. -/
def InFrame (hooks : List ProbeHook) : Prop := hooks.foldlM ProbeHook.depth 0 = some 0

instance (hooks : List ProbeHook) : Decidable (InFrame hooks) := inferInstanceAs (Decidable (_ = _))

/-- The function or task has come after the strand `v`, and nothing it waits for is parallel to
that. -/
structure Act.After (a : Act) (g : TimedDag) (v : Nat) : Prop where
  preds_ne : a.preds ≠ []
  nodes : ∀ x ∈ a.nodes, g.Succeeds v x

/-- The functions and tasks below the one of the strand `v`, and that itself. -/
structure Regions.After (s : Regions) (v n : Nat) : Prop where
  bot : s.bot.After s.dag v
  acts : ∀ a ∈ s.acts.take n, a.After s.dag v

namespace Act.After

variable {a b : Act} {g : TimedDag} {v : Nat}

theorem add (h : a.After g v) (ps : List Nat) (d : Nat) : a.After (g.add ps d) v :=
  ⟨h.preds_ne, fun x hx => (h.nodes x hx).add_old ps d⟩

/-- The new strand. -/
theorem new (h : a.After g v) (d : Nat) : (g.add a.preds d).Succeeds v g.size :=
  .add_new h.preds_ne (fun p hp => h.nodes p (List.mem_append_left _ hp)) d

theorem continued (h : a.After g v) (hb : b.After g v) (d : Nat) :
    Act.After { b with preds := [g.size] } (g.add a.preds d) v := by
  refine ⟨List.cons_ne_nil _ _, fun x hx => ?_⟩
  rcases List.mem_cons.1 hx with rfl | hx
  · exact h.new d
  · exact (hb.nodes x (List.mem_append_right _ hx)).add_old _ _

theorem outstanding (h : a.After g v) (hb : b.After g v) (r d : Nat) :
    Act.After { b with pend := (r, g.size) :: b.pend } (g.add a.preds d) v := by
  refine ⟨hb.preds_ne, fun x hx => ?_⟩
  simp only [Act.nodes, Act.pending, List.map_cons, List.mem_append, List.mem_cons] at hx
  rcases hx with hx | rfl | hx
  · exact (hb.nodes x (List.mem_append_left _ hx)).add_old _ _
  · exact h.new d
  · exact (hb.nodes x (List.mem_append_right _ hx)).add_old _ _

theorem join (h : a.After g v) (r : Nat → Bool) : (a.join r).After g v := by
  have hsub : ∀ x ∈ (a.join r).nodes, x ∈ a.nodes := fun x hx => by
    simp only [Act.nodes, Act.join, Act.pending, List.mem_append, List.mem_map,
      List.mem_filter] at hx ⊢
    rcases hx with (hx | ⟨y, ⟨hy, -⟩, rfl⟩) | ⟨y, ⟨hy, -⟩, rfl⟩
    · exact .inl hx
    · exact .inr ⟨y, hy, rfl⟩
    · exact .inr ⟨y, hy, rfl⟩
  exact ⟨fun hn => h.preds_ne (List.append_eq_nil_iff.1 hn).1, fun x hx => h.nodes x (hsub x hx)⟩

end Act.After

namespace Regions.After

variable {s s' : Regions} {v n n' : Nat}

theorem endStrand (h : s.After v n) (d : Nat) : (s.endStrand d).After v n :=
  ⟨h.bot.continued h.bot d, fun a ha => (h.acts a ha).add _ _⟩

theorem enter (h : s.After v n) (isTask : Bool) : (s.enter isTask).After v (n + 1) := by
  refine ⟨⟨h.bot.preds_ne, fun x hx => h.bot.nodes x ?_⟩, fun a ha => ?_⟩
  · have hx' : x ∈ s.bot.preds ++ [] := hx
    rw [List.append_nil] at hx'
    exact List.mem_append_left _ hx'
  · rcases List.mem_cons.1 ha with rfl | ha
    · exact h.bot
    · exact h.acts a ha

theorem exitFunc (h : s.After v (n + 1)) {d : Nat} (hs : s.exitFunc d = some s') :
    s'.After v n := by
  obtain ⟨g, b, as⟩ := s
  cases as with
  | nil => cases hs
  | cons a as =>
    simp only [Regions.exitFunc] at hs
    split at hs
    · cases hs
      have ha := h.acts a (List.mem_cons_self ..)
      exact ⟨h.bot.continued ha d, fun q hq => (h.acts q (List.mem_cons_of_mem _ hq)).add _ _⟩
    · cases hs

theorem exitTask (h : s.After v (n + 1)) {r d : Nat} (hs : s.exitTask r d = some s') :
    s'.After v n := by
  obtain ⟨g, b, as⟩ := s
  cases as with
  | nil => cases hs
  | cons a as =>
    simp only [Regions.exitTask] at hs
    split at hs
    · cases hs
      have ha := h.acts a (List.mem_cons_self ..)
      exact ⟨h.bot.outstanding ha r d, fun q hq => (h.acts q (List.mem_cons_of_mem _ hq)).add _ _⟩
    · cases hs

theorem join (h : s.After v n) (r : Nat → Bool) : (s.join r).After v n := ⟨h.bot.join r, h.acts⟩

theorem step (h : s.After v n) {x : Hook} {r : Nat} (hd : (ProbeHook.hook x r).depth n = some n')
    (hs : s.step (x, r) = some s') : s'.After v n' := by
  cases x with
  | funcEntry maySpawn d =>
    cases maySpawn <;> cases hd <;> cases hs
    · exact h
    · exact (h.endStrand d).enter false
  | funcExit maySpawn d =>
    cases maySpawn with
    | false =>
      cases hd
      cases hs
      exact h
    | true =>
      cases n with
      | zero => cases hd
      | succ n =>
        cases hd
        exact h.exitFunc hs
  | task =>
    cases hd
    cases hs
    exact h.enter true
  | taskExit d =>
    cases n with
    | zero => cases hd
    | succ n =>
      cases hd
      exact h.exitTask hs
  | detachContinue isUnwind =>
    cases hd
    cases isUnwind <;> cases hs
    · exact h
    · exact h.join _
  | afterSync =>
    cases hd
    cases hs
    exact h.join _
  | detach d | beforeSync d | destroy d =>
    cases hd
    cases hs
    exact h.endStrand d

end Regions.After

theorem Regions.After.probeStep {s s' : ProbedRegions} {v n n' : Nat} {x : ProbeHook}
    (h : s.regions.After v n)
    (hd : x.depth n = some n') (hs : s.step x = some s') : s'.regions.After v n' := by
  cases x with
  | hook x r =>
    obtain ⟨regions, hr, rfl⟩ := Option.map_eq_some_iff.1 hs
    exact h.step hd hr
  | getworkspan d | print d =>
    cases hd
    cases hs
    exact h.endStrand d

theorem Regions.After.run {hooks : List ProbeHook} :
    ∀ {s s' : ProbedRegions} {v n n' : Nat}, s.regions.After v n →
    hooks.foldlM ProbeHook.depth n = some n' → s.run hooks = some s' → s'.regions.After v n' := by
  induction hooks with
  | nil =>
    intro s s' v n n' h hd hs
    cases hd
    cases hs
    exact h
  | cons x hooks ih =>
    intro s s' v n n' h hd hs
    obtain ⟨n₁, hd₁, hd⟩ := Option.bind_eq_some_iff.1 hd
    obtain ⟨s₁, hs₁, hs⟩ := Option.bind_eq_some_iff.1 hs
    exact ih (h.probeStep hd₁ hs₁) hd hs

/-- The burdened program stays in the frame, too. -/
theorem ProbeHook.depth_burdened (burden : Nat) (x : ProbeHook) (n : Nat) :
    (x.burdened burden).foldlM depth n = x.depth n := by
  cases x with
  | hook x r =>
    cases x with
    | detachContinue isUnwind => cases isUnwind <;> rfl
    | _ => simp [burdened, depth]
  | _ => simp [burdened, depth]

theorem ProbeHook.depths_burdened (burden : Nat) (hooks : List ProbeHook) : ∀ n,
    (hooks.flatMap (·.burdened burden)).foldlM depth n = hooks.foldlM depth n := by
  induction hooks with
  | nil => exact fun _ => rfl
  | cons x hooks ih =>
    intro n
    rw [List.flatMap_cons, List.foldlM_append, depth_burdened, List.foldlM_cons]
    exact congrArg _ (funext ih)

/-- The work and the spans between the end of the strand `v` and that of `v'`. -/
structure Wsp.Between (w : Wsp) (g gb : TimedDag) (v v' vb vb' : Nat) : Prop where
  work : w.work = (g.workFrom v v' : Nat)
  span : ∃ n : Nat, w.span = n ∧ IsGreatest (g.lengthsFrom v v') n
  bspan : ∃ n : Nat, w.bspan = n ∧ IsGreatest (gb.lengthsFrom vb vb') n

theorem Wsp.Exact.sub {w w' : Wsp} {g gb : TimedDag} {v v' vb vb' : Nat} (h : w.Exact g gb v vb)
    (h' : w'.Exact g gb v' vb')
    (hs : g.Succeeds v v') (hsb : gb.Succeeds vb vb') : (w'.sub w).Between g gb v v' vb vb' := by
  have hle := TimedDag.longest_le_of_path hs.path
  have hleb := TimedDag.longest_le_of_path hsb.path
  refine ⟨?_, ⟨_, ?_, hs.series.isGreatest_sub hs.path⟩, _, ?_, hsb.series.isGreatest_sub hsb.path⟩
  · show w'.work - w.work = _
    rw [h'.work, h.work, hs.series.work_eq hs.path h'.lt_size]
    omega
  · show w'.span - w.span = _
    rw [h'.span, h.span]
    omega
  · show w'.bspan - w.bspan = _
    rw [h'.bspan, h.bspan]
    omega

/-- A probe where no task is outstanding is followed by what comes after it. -/
theorem Regions.after_probe {s : ProbedRegions} (h : s.regions.bot.pend = []) (d : Nat) :
    (s.getworkspan d).regions.After s.regions.dag.size 0 := by
  refine ⟨⟨List.cons_ne_nil _ _, fun x hx => ?_⟩, fun a ha => by cases ha⟩
  have hx' : x ∈ [s.regions.dag.size] ++ s.regions.bot.pend.map (·.2) := hx
  rw [h, List.map_nil, List.append_nil, List.mem_singleton] at hx'
  subst hx'
  exact .self (Nat.lt_succ_self _)

theorem ProbedRegions.JoinsOk.of_append {hooks hooks' : List ProbeHook} :
    ∀ {s s' : ProbedRegions}, s.JoinsOk (hooks ++ hooks') →
    s.run hooks = some s' → s.JoinsOk hooks ∧ s'.JoinsOk hooks' := by
  induction hooks with
  | nil =>
    intro s s' hok hs
    cases hs
    exact ⟨trivial, hok⟩
  | cons x hooks ih =>
    intro s s' hok hs
    obtain ⟨s₁, hs₁, hs⟩ := Option.bind_eq_some_iff.1 hs
    refine ⟨⟨hok.1, fun s₂ hs₂ => ?_⟩, (ih (hok.2 s₁ hs₁) hs).2⟩
    obtain rfl : s₁ = s₂ := Option.some.inj (hs₁.symm.trans hs₂)
    exact (ih (hok.2 s₁ hs₁) hs).1

/-- **The difference of two probes** of one frame, the first of which is where no task is
outstanding: the time of the
strands between them that come before the second, and the lengths of the longest paths from the one
to the other. -/
theorem measured_exact (burden d d' : Nat) {pre mid : List ProbeHook} {s₁ s₂ : ProbedRegions}
    (hok : ProbedRegions.initial.JoinsOk (pre ++ .getworkspan d :: mid))
    (h₁ : ProbedRegions.initial.run pre = some s₁)
    (hpend : s₁.regions.bot.pend = []) (hmid : InFrame mid)
    (h₂ : ProbedRegions.initial.run (pre ++ .getworkspan d :: mid) = some s₂) : ∃ t₁ t₂ b₁ b₂,
      Probed.initial.run burden pre = some t₁ ∧
      Probed.initial.run burden (pre ++ .getworkspan d :: mid) = some t₂ ∧
      ProbedRegions.initial.run (pre.flatMap (·.burdened burden)) = some b₁ ∧
      ProbedRegions.initial.run ((pre ++ .getworkspan d :: mid).flatMap (·.burdened burden)) =
      some b₂ ∧
      ((t₂.stack.getworkspan d').1.sub (t₁.stack.getworkspan d).1).Between
      (s₂.regions.endStrand d').dag
        (b₂.regions.endStrand d').dag s₁.regions.dag.size s₂.regions.dag.size b₁.regions.dag.size
        b₂.regions.dag.size := by
  obtain ⟨hok₁, hok₂⟩ := hok.of_append h₁
  obtain ⟨t₁, b₁, ht₁, hb₁, hm₁⟩ := Measures.init.run burden hok₁ h₁
  have hs₂ : (s₁.getworkspan d).run mid = some s₂ := by
    rw [ProbedRegions.run, List.foldlM_append] at h₂
    obtain ⟨s, hs, h₂⟩ := Option.bind_eq_some_iff.1 h₂
    obtain rfl : s₁ = s := Option.some.inj (h₁.symm.trans hs)
    exact h₂
  -- The part from the first probe on.
  have hm := hm₁.getworkspan d
  obtain ⟨t₂, b₂, ht₂, hb₂, hm₂⟩ := hm.run burden (hok₂.2 _ rfl) hs₂
  have hw :=
    (hm₁.sums.getworkspan d).grows
      ((ProbedRegions.run_grows hs₂).trans ((Grows.refl _).add s₂.regions.bot.preds d'))
    ((ProbedRegions.run_grows hb₂).trans ((Grows.refl _).add b₂.regions.bot.preds d'))
  have hafter := (Regions.after_probe hpend d).run hmid hs₂
  have hpendb := hm₁.sums.burdens.alike.bot.pend_eq_nil.1 hpend
  have hmidb := (ProbeHook.depths_burdened burden mid 0).trans hmid
  have hafterb := (Regions.after_probe hpendb d).run hmidb hb₂
  refine ⟨t₁, t₂, b₁, b₂, ht₁, ?_, hb₁, ?_, hw.sub (hm₂.sums.getworkspan d') (hafter.bot.new d')
    (hafterb.bot.new d')⟩
  · rw [Probed.run, List.foldlM_append]
    exact Option.bind_eq_some_iff.2 ⟨t₁, ht₁, ht₂⟩
  · rw [List.flatMap_append, ProbedRegions.run, List.foldlM_append]
    exact Option.bind_eq_some_iff.2 ⟨b₁, hb₁, hb₂⟩

/-- A task starts. -/
def taskStart : List ProbeHook := [.hook (.detach 1) 0, .hook .task 0]

/-- It spawns a task, and calls a function that does, before it syncs. -/
def taskBody : List ProbeHook :=
  [.hook (.detach 2) 0, .hook .task 0, .hook (.taskExit 4) 0, .hook (.detachContinue false) 0,
    .hook (.funcEntry true 1) 0,
    .hook (.detach 1) 1, .hook .task 1, .hook (.taskExit 5) 1, .hook (.detachContinue false) 1,
    .hook (.beforeSync 3) 1,
    .hook .afterSync 1, .hook (.funcExit true 1) 1, .hook (.beforeSync 1) 0, .hook .afterSync 0]

theorem measured_exact_task : ∃ s₁ s₂, ProbedRegions.initial.run taskStart = some s₁ ∧
    ProbedRegions.initial.run (taskStart ++ .getworkspan 3 :: taskBody) = some s₂ ∧ ∃ t₁ t₂ b₁ b₂,
      Probed.initial.run 7 taskStart = some t₁ ∧
      Probed.initial.run 7 (taskStart ++ .getworkspan 3 :: taskBody) = some t₂ ∧
      ProbedRegions.initial.run (taskStart.flatMap (·.burdened 7)) = some b₁ ∧
      ProbedRegions.initial.run ((taskStart ++ .getworkspan 3 :: taskBody).flatMap
        (·.burdened 7)) = some b₂ ∧
      ((t₂.stack.getworkspan 2).1.sub (t₁.stack.getworkspan 3).1).Between
      (s₂.regions.endStrand 2).dag
        (b₂.regions.endStrand 2).dag s₁.regions.dag.size s₂.regions.dag.size b₁.regions.dag.size
        b₂.regions.dag.size :=
  ⟨_, _, rfl, rfl, measured_exact 7 3 2 (by decide) rfl rfl (by decide) rfl⟩

end Cilkscale
