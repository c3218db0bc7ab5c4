/-
Syncs in the body of a parallel loop. The tasks of an iteration are followed
from the strands they leave to the loop's activation to the strand of the sync
that waits for them.
-/
import CilkTools.Cilksan.StrandOrder
import CilkTools.Cilksan.Exactness

namespace Cilksan

theorem Inv.ordered {p : Program} {c : CilkSan} (hi : Inv p c)
    (hd : ∀ a ∈ p.acts, a.isLoop = false → a.done = [])
    (hc : p.acts.Pairwise fun a b => p.dag.Path b.cur a.cur) : p.Ordered := by
  have hm : ∀ {a}, a ∈ p.acts → ∃ f, Matches c.bags f a := fun ha => by
    obtain ⟨n, hn, rfl⟩ := List.mem_iff_getElem.1 ha
    exact ⟨_, hi.frames.get (hi.frames.length_eq ▸ hn) hn⟩
  refine ⟨hi.program, fun a ha => ?_, fun a ha hact => ?_, hd, hc⟩
  · obtain ⟨f, hf⟩ := hm ha
    exact hf.pendLt
  · obtain ⟨f, hf⟩ := hm ha
    exact (hf.idle hact).2.2

namespace Program

/-! ## Strands in order -/

/-- An activation is on the latest of its strands, and each access comes before
a strand that is left. -/
structure Tidy (p : Program) : Prop where
  ordered : p.Ordered
  ends : ∀ a ∈ p.acts, ∀ x, a.Ends x → x ≤ a.cur
  covered : ∀ e ∈ p.log, p.Covered e.strand

variable {p p' : Program} {c c' : CilkSan}

theorem Tidy.init : Program.init.Tidy := by
  refine ⟨Inv.init.ordered ?_ ?_, ?_, ?_⟩
  · simp [Program.init]
  · simp [Program.init]
  · simp [Program.init, Activation.Ends]
  · simp [Program.init]

theorem Tidy.step {h : Hook} (ht : p.Tidy) (hi' : Inv p' c')
    (hs : p.step h = some p') : p'.Tidy := by
  have hst := ht.ordered.step hs
  refine ⟨hi'.ordered (done_step ht.ordered.done hs) (ht.ordered.chain_of_steps hst), ?_, ?_⟩
  · rcases hst with ⟨-, ha⟩ | ⟨ps, hd, hm, -⟩
    · rw [ha]
      exact ht.ends
    · -- The activation that goes on does so with the newest strand.
      have hnew : ∀ {a : Activation}, a ∈ p'.acts → a.cur = p.dag.size → ∀ x, a.Ends x →
          x ≤ a.cur := fun ha hc x hx => by
        have := hi'.program.ends _ ha x hx
        rw [hd, GrowingDag.add_size] at this
        omega
      cases hm with
      | push hp ha hc hq =>
        rw [ha] at hnew ⊢
        exact List.forall_mem_cons.2 ⟨hnew (by simp) hc, by rw [← hp]; exact ht.ends⟩
      | head hp ha hc hk hq hf =>
        have hold := ht.ends
        rw [hp] at hold
        rw [ha] at hnew ⊢
        exact List.forall_mem_cons.2 ⟨hnew (by simp) hc, (List.forall_mem_cons.1 hold).2⟩
      | pop hp ha hc hk hq hf =>
        have hold := ht.ends
        rw [hp, List.forall_mem_cons, List.forall_mem_cons] at hold
        rw [ha] at hnew ⊢
        exact List.forall_mem_cons.2 ⟨hnew (by simp) hc, hold.2.2⟩
  · have hkeep :
        ∀ e ∈ p.log, p'.Covered e.strand := fun e he => (ht.covered e he).step ht.ordered hst
    by_cases hacc : ∃ i, h = .access i
    · obtain ⟨i, rfl⟩ := hacc
      simp only [Program.step, Option.ite_none_right_eq_some, access] at hs
      obtain ⟨hr, hs⟩ := hs
      split at hs
      · next a as hp =>
        cases hs
        have hcur := covered_cur hr (by simp [hp])
        rw [show p.cur = a.cur by simp [cur, hp]] at hcur
        exact List.forall_mem_cons.2 ⟨hcur, hkeep⟩
      · cases hs
    · rw [log_step (fun i hi => hacc ⟨i, hi⟩) hs]
      exact hkeep

/-- What was accessed since the activation below the head stopped comes before
a strand that the head has left. -/
theorem Tidy.covered_head (ht : p.Tidy) {t a : Activation} {as : List Activation}
    (hp : p.acts = t :: a :: as)
    {e : LoggedAccess} (he : e ∈ p.log) (hlt : a.cur < e.strand) :
    ∃ x, t.Left x ∧ p.dag.Path e.strand x := by
  obtain ⟨b, hb, x, hx, hpath⟩ := ht.covered e he
  rw [hp, List.mem_cons] at hb
  rcases hb with rfl | hb
  · exact ⟨x, hx, hpath⟩
  · -- The strands of the others are older.
    have hle := ht.ends b (by rw [hp]; exact List.mem_cons_of_mem _ hb) x hx.ends
    have hchain := ht.ordered.chain
    rw [hp] at hchain
    have hba : b.cur ≤ a.cur := by
      rw [List.mem_cons] at hb
      rcases hb with rfl | hb
      · exact Nat.le_refl _
      · exact ((List.pairwise_cons.1 (List.pairwise_cons.1 hchain).2).1 b hb).le
    have := hpath.le
    omega

/-! ## What a step changes -/

/-- What a step makes of an activation that goes on: the strands it waits for
are still waited for, or come before its new one. -/
structure GoesOn (p' : Program) (a a' : Activation) : Prop where
  kind : a'.kind = a.kind
  iter : a'.iter = a.iter
  active : a'.active = a.active
  cur : p'.dag.Path a.cur a'.cur
  pend : ∀ r, ∀ x ∈ a.pend r, x ∈ a'.pend r ∨ p'.dag.Path x a'.cur

/-- How a step changes the stack. -/
inductive Changes (p p' : Program) : Prop
  | none (ha : p'.acts = p.acts)
  | push {a'} (ha : p'.acts = a' :: p.acts) (hk : ∀ id, a'.kind = .loop id → id = p.nextLoop)
  | head {a a' as} (hp : p.acts = a :: as) (ha : p'.acts = a' :: as) (hg : GoesOn p' a a')
  | turn {a a' as} (hp : p.acts = a :: as) (ha : p'.acts = a' :: as) (hk : a'.kind = a.kind)
      (hi : a.active = false ∧ a'.iter = a.iter ∨ a'.iter = a.iter + 1)
  | pop {a b b' bs} (hp : p.acts = a :: b :: bs) (ha : p'.acts = b' :: bs) (hg : GoesOn p' b b')

theorem GoesOn.of_add {ps : List Nat} {a a' : Activation} (hd : p'.dag = p.dag.add ps)
    (hc : a'.cur = p.dag.size)
    (hk : a'.kind = a.kind) (hi : a'.iter = a.iter) (hact : a'.active = a.active)
    (hcur : ∃ q ∈ ps, q < p.dag.size ∧ p.dag.Path a.cur q)
    (hpe : ∀ r, ∀ x ∈ a.pend r, x ∈ a'.pend r ∨ x ∈ ps ∧ x < p.dag.size) : GoesOn p' a a' := by
  obtain ⟨q, hq, hlt, hpath⟩ := hcur
  refine ⟨hk, hi, hact, by rw [hc]; exact path_new hd hq hlt hpath,
    fun r x hx => (hpe r x hx).imp_right fun h => ?_⟩
  rw [hc]
  exact path_new hd h.1 h.2 (.refl _)

theorem Ordered.changes {h : Hook} (ho : p.Ordered) (hs : p.step h = some p') : Changes p p' := by
  have hlt : ∀ {a}, a ∈ p.acts → a.cur < p.dag.size := fun ha => ho.lt_size ha (.inl rfl)
  cases h with
  | recordCall | recordCallReturn =>
    cases hs
    exact .none rfl
  | check i =>
    simp only [Program.step, Option.ite_none_right_eq_some, Option.some.injEq] at hs
    obtain ⟨-, rfl⟩ := hs
    exact .none rfl
  | detachContinue r | access acc | loopBegin =>
    simp only [Program.step, Option.ite_none_right_eq_some, detachContinue, access, loopBegin] at hs
    obtain ⟨-, hs⟩ := hs
    repeat' split at hs
    all_goals cases hs
    exact .none rfl
  | funcEntry m n =>
    simp only [Program.step, Option.ite_none_right_eq_some, funcEntry] at hs
    obtain ⟨-, hs⟩ := hs
    split at hs
    · next a as hp =>
      split at hs
      all_goals cases hs
      · exact .head hp rfl
          (.of_add rfl rfl rfl rfl rfl ⟨a.cur, by simp, hlt (by simp [hp]),
            .refl _⟩ fun r x hx => .inl hx)
      · exact .push (by rw [hp]; rfl) fun id hid => by cases hid
    · cases hs
  | funcExit =>
    simp only [Program.step, Option.ite_none_right_eq_some, funcExit] at hs
    obtain ⟨-, hs⟩ := hs
    split at hs
    · next a as hp =>
      split at hs
      · cases hs
        exact .head hp rfl
          (.of_add rfl rfl rfl rfl rfl ⟨a.cur, by simp, hlt (by simp [hp]),
            .refl _⟩ fun r x hx => .inl hx)
      · split at hs
        · next b bs hk =>
          split at hs
          · cases hs
            have hchain := ho.chain
            rw [hp, List.pairwise_cons] at hchain
            exact .pop hp rfl
              (.of_add rfl rfl rfl rfl rfl ⟨a.cur, by simp, hlt (by simp [hp]),
                hchain.1 b (by simp)⟩
              fun r x hx => .inl hx)
          · cases hs
        · cases hs
    · cases hs
  | task n =>
    simp only [Program.step, Option.ite_none_right_eq_some, task] at hs
    obtain ⟨-, hs⟩ := hs
    split at hs
    · next a as hp =>
      split at hs
      all_goals cases hs
      exact .push (by rw [hp]; rfl) fun id hid => by cases hid
    · cases hs
  | taskExit r =>
    simp only [Program.step, Option.ite_none_right_eq_some, taskExit] at hs
    obtain ⟨-, hs⟩ := hs
    split at hs
    · next a b bs hp =>
      split at hs
      all_goals cases hs
      refine .pop hp rfl
        (.of_add rfl rfl rfl rfl rfl ⟨b.cur, by simp, hlt (by simp [hp]),
          .refl _⟩ fun q x hx => .inl ?_)
      by_cases hq : q = r
      · subst hq; simp [hx]
      · simpa [Function.update_of_ne hq] using hx
    · cases hs
  | sync r =>
    simp only [Program.step, Option.ite_none_right_eq_some, sync] at hs
    obtain ⟨-, hs⟩ := hs
    split at hs
    · next a as hp =>
      split at hs
      all_goals cases hs
      refine .head hp rfl
        (.of_add rfl rfl rfl rfl rfl ⟨a.cur, by simp, hlt (by simp [hp]), .refl _⟩ fun q x hx => ?_)
      by_cases hq : q = r
      · subst hq
        exact .inr ⟨by simp [hx], ho.lt_size (a := a) (by simp [hp]) (.inr (.inl ⟨q, hx⟩))⟩
      · exact .inl (by simpa [Function.update_of_ne hq] using hx)
    · cases hs
  | loopIterationBegin n =>
    simp only [Program.step, loopIterationBegin] at hs
    split at hs
    · split at hs
      · next a as hp =>
        cases hs
        exact .push (by rw [hp]; rfl) fun id hid => by cases hid; rfl
      · cases hs
    · split at hs
      · next a b bs hp =>
        split at hs
        · next hc =>
          cases hs
          exact .turn hp rfl rfl (.inl ⟨hc.2, rfl⟩)
        · cases hs
      · cases hs
  | loopIterationEnd =>
    simp only [Program.step, Option.ite_none_right_eq_some, loopIterationEnd] at hs
    obtain ⟨-, hs⟩ := hs
    split at hs
    · next a b bs hp =>
      split at hs
      all_goals cases hs
      exact .turn hp rfl rfl (.inr rfl)
    · cases hs
  | loopEnd r =>
    simp only [Program.step, loopEnd] at hs
    split at hs
    · cases hs
      exact .none rfl
    · split at hs
      · next a b bs hp =>
        split at hs
        all_goals cases hs
        refine .pop hp rfl
          (.of_add rfl rfl rfl rfl rfl ⟨b.cur, by simp, hlt (by simp [hp]),
            .refl _⟩ fun q x hx => .inl ?_)
        by_cases hq : q = r
        · subst hq; simp [hx]
        · simpa [Function.update_of_ne hq] using hx
      · cases hs

theorem nextLoop_le {h : Hook} (hs : p.step h = some p') : p.nextLoop ≤ p'.nextLoop := by
  cases h with
  | recordCall | recordCallReturn => cases hs; exact Nat.le_refl _
  | _ =>
    simp only [Program.step, detachContinue, loopBegin, funcEntry, funcExit, task,
      taskExit, sync, access, loopIterationBegin, loopIterationEnd, loopEnd] at hs
    repeat' split at hs
    all_goals cases hs
    all_goals first | exact Nat.le_refl _ | exact Nat.le_succ _

/-! ## The tasks of an iteration -/

/-- Strand `s` comes before what iteration `k` of a loop waits for in a region
of `R`, or before its own strand, as long as the iteration runs. -/
structure Joins (p : Program) (id k : Nat) (R : Nat → Prop) (s : Nat) : Prop where
  begun : id < p.nextLoop
  loop : ∀ b ∈ p.acts, b.kind = .loop id → k < b.iter ∨
    b.iter = k ∧ b.active = true ∧
    ((∃ r x, R r ∧ x ∈ b.pend r ∧ p.dag.Path s x) ∨ p.dag.Path s b.cur)

variable {id k r s : Nat} {R : Nat → Prop}

theorem Joins.step {h : Hook} (hj : p.Joins id k R s) (ho : p.Ordered) (hs : p.step h = some p') :
    p'.Joins id k R s := by
  refine ⟨Nat.lt_of_lt_of_le hj.begun (nextLoop_le hs), ?_⟩
  have hgrow : ∀ {x}, x < p.dag.size → p.dag.Path s x → p'.dag.Path s x := fun {x} hx hpath => by
    rcases ho.step hs with ⟨hd, -⟩ | ⟨ps, hd, -⟩
    · rw [hd]
      exact hpath
    · exact path_old hd hx hpath
  have hsame : ∀ b ∈ p.acts, b.kind = .loop id → k < b.iter ∨ b.iter = k ∧ b.active = true ∧
      ((∃ r x, R r ∧ x ∈ b.pend r ∧ p'.dag.Path s x) ∨ p'.dag.Path s b.cur) := fun b hb hk => by
    refine (hj.loop b hb hk).imp_right fun h => ⟨h.1, h.2.1, h.2.2.imp (fun h => ?_) fun h => ?_⟩
    · obtain ⟨r, x, hr, hx, hpath⟩ := h
      exact ⟨r, x, hr, hx, hgrow (ho.lt_size hb (.inr (.inl ⟨r, hx⟩))) hpath⟩
    · exact hgrow (ho.lt_size hb (.inl rfl)) h
  have hgoes : ∀ {b b' : Activation}, b ∈ p.acts → GoesOn p' b b' → b'.kind = .loop id →
      k < b'.iter ∨ b'.iter = k ∧ b'.active = true ∧
        ((∃ r x, R r ∧ x ∈ b'.pend r ∧ p'.dag.Path s x) ∨ p'.dag.Path s b'.cur) := by
    intro b b' hb hg hk
    rw [hg.iter, hg.active]
    refine (hsame b hb (by rw [← hg.kind, hk])).imp_right fun h => ⟨h.1, h.2.1, ?_⟩
    rcases h.2.2 with ⟨r, x, hr, hx, hpath⟩ | hpath
    · rcases hg.pend r x hx with hx' | hx'
      · exact .inl ⟨r, x, hr, hx', hpath⟩
      · exact .inr (hpath.trans hx')
    · exact .inr (hpath.trans hg.cur)
  cases ho.changes hs with
  | none ha =>
    rw [ha]
    exact hsame
  | push ha hk =>
    rw [ha]
    refine List.forall_mem_cons.2 ⟨fun hid => ?_, hsame⟩
    have := hk id hid
    have := hj.begun
    omega
  | @head a a' as hp ha hg =>
    rw [ha]
    exact List.forall_mem_cons.2 ⟨hgoes (by simp [hp]) hg, fun b hb => hsame b (by simp [hp, hb])⟩
  | @turn a a' as hp ha hk hi =>
    rw [ha]
    refine List.forall_mem_cons.2 ⟨fun hid => ?_, fun b hb => hsame b (by simp [hp, hb])⟩
    rcases hj.loop a (by simp [hp]) (by rw [← hk, hid]) with hlt | ⟨hik, hact, -⟩
    · exact .inl (by omega)
    · rcases hi with ⟨hin, -⟩ | hi
      · rw [hin] at hact
        cases hact
      · exact .inl (by omega)
  | @pop a b b' bs hp ha hg =>
    rw [ha]
    exact List.forall_mem_cons.2 ⟨hgoes (by simp [hp]) hg, fun d hd => hsame d (by simp [hp, hd])⟩

/-- No other activation is the loop's. -/
theorem WF.eq_head (hw : p.WF) {a : Activation} {as : List Activation} (hp : p.acts = a :: as)
    (hk : a.kind = .loop id)
    {b : Activation} (hb : b ∈ p.acts) (hbk : b.kind = .loop id) : b = a := by
  have hids := hw.ids
  rw [hp, List.pairwise_cons] at hids
  rw [hp, List.mem_cons] at hb
  rcases hb with rfl | hb
  · rfl
  · exact absurd hbk (hids.1 b hb id hk)

/-- A task that returns to a loop leaves what it accessed to its region. -/
theorem Tidy.joins_taskExit (ht : p.Tidy) (hi' : Inv p' c') (hs : p.step (.taskExit r) = some p')
    {t a : Activation}
    {as : List Activation} (hp : p.acts = t :: a :: as) (hk : a.kind = .loop id) {e : LoggedAccess}
    (he : e ∈ p.log) (hlt : a.cur < e.strand) : p'.Joins id a.iter (· = r) e.strand := by
  obtain ⟨x, hx, hpath⟩ := ht.covered_head hp he hlt
  have hxlt := ht.ordered.lt_size (a := t) (by simp [hp]) hx.ends
  have hact := ht.ordered.wf.active a (by simp [hp])
  have hloop := ht.ordered.wf.loops a (by simp [hp]) id hk
  have hdone := ht.ordered.done t (by simp [hp])
  simp only [Program.step, Option.ite_none_right_eq_some, taskExit, hp] at hs
  obtain ⟨-, ⟨hkt, -, -⟩, hs⟩ := hs
  cases hs
  refine ⟨hloop, fun b hb hbk => .inr ?_⟩
  rw [hi'.program.eq_head rfl hk hb hbk]
  refine ⟨rfl, hact, .inl ⟨r, x, rfl, ?_, path_old rfl hxlt hpath⟩⟩
  simp only [Function.update_self, List.mem_append, List.mem_cons]
  rcases hx with ⟨-, rfl⟩ | ⟨q, hx⟩ | hx
  · exact .inr (.inl rfl)
  · exact .inr (.inr (ht.ordered.mem_unsynced (by simp [hp]) hx))
  · rw [hdone (by simp [Activation.isLoop, hkt])] at hx
    cases hx

/-- A sync joins what was left to its region. -/
theorem Joins.sync (hj : p.Joins id k (· = r) s) (ho : p.Ordered) (hi' : Inv p' c')
    (hs : p.step (.sync r) = some p')
    {a : Activation} {as : List Activation} (hp : p.acts = a :: as) (hk : a.kind = .loop id) :
    p'.Joins id k (fun _ => False) s := by
  have hstep := hj.step ho hs
  simp only [Program.step, Option.ite_none_right_eq_some, Program.sync, hp] at hs
  obtain ⟨-, -, hs⟩ := hs
  cases hs
  refine ⟨hstep.begun, fun b hb hbk => (hstep.loop b hb hbk).imp_right fun h =>
    ⟨h.1, h.2.1, .inr ?_⟩⟩
  rw [hi'.program.eq_head rfl hk hb hbk] at h ⊢
  rcases h.2.2 with ⟨q, x, rfl, hx, -⟩ | hpath
  · simp at hx
  · exact hpath

/-! ## Runs -/

theorem run_append (h₁ h₂ : List Hook) (p : Program) :
    p.run (h₁ ++ h₂) = (p.run h₁).bind fun p => p.run h₂ :=
  List.foldlM_append

end Program

theorem runOk_append {h₁ h₂ : List Hook} {p p' : Program} (hok : RunOk p (h₁ ++ h₂))
    (hs : p.run h₁ = some p') : RunOk p h₁ ∧ RunOk p' h₂ := by
  induction h₁ generalizing p with
  | nil =>
    cases hs
    exact ⟨trivial, hok⟩
  | cons h h₁ ih =>
    simp only [Program.run, List.foldlM_cons, Option.bind_eq_bind, Option.bind_eq_some_iff] at hs
    obtain ⟨p₁, hs₁, hs⟩ := hs
    obtain ⟨h₂, h₃⟩ := ih (hok.2 p₁ hs₁) hs
    refine ⟨⟨hok.1, fun p₂ hp₂ => ?_⟩, h₃⟩
    rw [Option.mem_def, hs₁] at hp₂
    cases hp₂
    exact h₂

/-- The program and the tool after a run that loops cope with. -/
structure Reached (p : Program) (c : CilkSan) : Prop where
  inv : Inv p c
  tidy : p.Tidy

theorem Reached.init : Reached Program.init CilkSan.init := ⟨Inv.init, .init⟩

theorem Reached.step {p p' : Program} {c : CilkSan} {h : Hook} (hr : Reached p c) (hok : StepOk p h)
    (hs : p.step h = some p') : ∃ c', c.step h = some c' ∧ Reached p' c' := by
  obtain ⟨c', hc', hi'⟩ := hr.inv.step hok hs
  exact ⟨c', hc', hi', hr.tidy.step hi' hs⟩

theorem Reached.run {p p' : Program} {c : CilkSan} {hooks : List Hook} (hr : Reached p c)
    (hok : RunOk p hooks)
    (hs : p.run hooks = some p') : ∃ c', c.run hooks = some c' ∧ Reached p' c' ∧
      ∀ {id k R s}, p.Joins id k R s → p'.Joins id k R s := by
  induction hooks generalizing p c with
  | nil =>
    cases hs
    exact ⟨c, rfl, hr, id⟩
  | cons h hooks ih =>
    simp only [Program.run, List.foldlM_cons, Option.bind_eq_bind, Option.bind_eq_some_iff] at hs
    obtain ⟨p₁, hs₁, hs⟩ := hs
    obtain ⟨c₁, hc₁, hr₁⟩ := hr.step hok.1 hs₁
    obtain ⟨c', hc', hr', hj⟩ := ih hr₁ (hok.2 p₁ hs₁) hs
    refine ⟨c', ?_, hr', fun h => hj (h.step hr.tidy.ordered hs₁)⟩
    simp only [CilkSan.run, List.foldlM_cons, hc₁, Option.bind_eq_bind, Option.bind_some]
    exact hc'

/-! ## A sync in a loop's body -/

/-- What was accessed in an earlier iteration of the head's loop does not hide
in a loop below. -/
theorem Placed.not_hidden {R : Nat → Prop} {e : LoggedAccess} {b v id j : Nat} {f : FrameData}
    {fs : List FrameData}
    {a : Activation} {as : List Activation} (hp : Placed R e b v (f :: fs) (a :: as))
    (hk : a.kind = .loop id) (hc : (id, j) ∈ e.ctx) : ¬ HiddenIn e as := by
  cases hp with
  | sbag _ _ _ _ ho | iterbag _ _ _ _ _ _ _ _ ho | pbag _ _ _ _ _ _ ho
  | olditer _ _ _ _ _ _ _ _ _ _ ho => exact ho.not_hidden
  | under he => exact absurd hc (he id hk j).1

/-- Before the end of `hooks`, a task of iteration `k` of loop `id` returned to
region `r`, and the task, or what it ran, had made access `e`. -/
def TaskAccess (hooks : List Hook) (id k r : Nat) (e : LoggedAccess) : Prop :=
  ∃ pre post p t a as, hooks = pre ++ .taskExit r :: post ∧ Program.init.run pre = some p ∧
  p.acts = t :: a :: as ∧
    a.kind = .loop id ∧ a.iter = k ∧ e ∈ p.log ∧ a.cur < e.strand

/-- A sync of region `r` comes after `hooks`, in iteration `k` of the loop at the
head. In what `rest` then runs of the iteration, the accesses of the tasks that
went to the region are in series, and wherever the loop is at the head those of
earlier iterations are parallel. -/
def SyncJoins (hooks : List Hook) (r : Nat) (rest : List Hook) : Prop :=
  ∀ id k p₁ p, Program.init.run hooks = some p₁ →
  Program.init.run (hooks ++ .sync r :: rest) = some p →
    (∃ a ∈ p₁.acts.head?, a.kind = .loop id ∧ a.iter = k) →
    (∃ b ∈ p.acts, b.kind = .loop id ∧ b.iter = k) →
    ∃ c, CilkSan.init.run (hooks ++ .sync r :: rest) = some c ∧ c.log.length = p.log.length ∧
      ∀ (i : Nat) (e : LoggedAccess), p.log[i]? = some e → ∃ v c', c.checkAccess i = some (v, c') ∧
        (TaskAccess hooks id k r e → v = false) ∧
        ∀ j < k, (id, j) ∈ e.ctx → (∃ b ∈ p.acts.head?, b.kind = .loop id) → v = true

theorem CilkSan.run_append (h₁ h₂ : List Hook) (c : CilkSan) :
    c.run (h₁ ++ h₂) = (c.run h₁).bind fun c => c.run h₂ :=
  List.foldlM_append

/-- What a run goes through when it takes `h` after `h₁`. -/
theorem Program.run_cons_split {h₁ h₂ : List Hook} {h : Hook} {p p' : Program}
    (hs : p.run (h₁ ++ h :: h₂) = some p') :
    ∃ p₁ p₂, p.run h₁ = some p₁ ∧ p₁.step h = some p₂ ∧ p₂.run h₂ = some p' := by
  rw [Program.run_append, Option.bind_eq_some_iff] at hs
  obtain ⟨p₁, hs₁, hs⟩ := hs
  simp only [Program.run, List.foldlM_cons, Option.bind_eq_bind, Option.bind_eq_some_iff] at hs
  obtain ⟨p₂, hs₂, hs⟩ := hs
  exact ⟨p₁, p₂, hs₁, hs₂, hs⟩

/-- Up to the end of its iteration, what a task accessed comes before what the
loop waits for in the region. -/
theorem TaskAccess.joins {hooks : List Hook} {id k r : Nat} {e : LoggedAccess}
    (ht : TaskAccess hooks id k r e)
    {p : Program} (hok : RunOk Program.init hooks) (hs : Program.init.run hooks = some p) :
    p.Joins id k (· = r) e.strand := by
  obtain ⟨pre, post, p₀, t, a, as, rfl, hs₀, hp, hk, rfl, he, hlt⟩ := ht
  obtain ⟨p₁, p₂, hs₁, hs₂, hs₃⟩ := Program.run_cons_split hs
  rw [hs₀] at hs₁
  cases hs₁
  obtain ⟨hok₁, hok₂⟩ := runOk_append hok hs₀
  obtain ⟨c₁, -, hr₁, -⟩ := Reached.init.run hok₁ hs₀
  obtain ⟨c₂, -, hr₂⟩ := hr₁.step hok₂.1 hs₂
  obtain ⟨-, -, -, hj⟩ := hr₂.run (hok₂.2 p₂ hs₂) hs₃
  exact hj (hr₁.tidy.joins_taskExit hr₂.inv hs₂ hp hk he hlt)

/-- **Syncs in loops.** In every run whose loops' bags cope with every sync and
loop end, a sync in a loop's body joins the tasks of its iteration, and only them. -/
theorem syncJoins_of_runOk {hooks rest : List Hook} {r : Nat}
    (hok : RunOk Program.init (hooks ++ .sync r :: rest)) : SyncJoins hooks r rest := by
  intro id k p₁ p hs₁ hs hhead hiter
  obtain ⟨p₁', p₂, hs₁', hs₂, hs₃⟩ := Program.run_cons_split hs
  rw [hs₁] at hs₁'
  cases hs₁'
  obtain ⟨hok₁, hok₂⟩ := runOk_append hok hs₁
  obtain ⟨c₁, hc₁, hr₁, -⟩ := Reached.init.run hok₁ hs₁
  obtain ⟨c₂, hc₂, hr₂⟩ := hr₁.step hok₂.1 hs₂
  obtain ⟨c, hc, hr, hj⟩ := hr₂.run (hok₂.2 p₂ hs₂) hs₃
  have hrun : CilkSan.init.run (hooks ++ .sync r :: rest) = some c := by
    rw [CilkSan.run_append, hc₁, Option.bind_some]
    simp only [CilkSan.run, List.foldlM_cons, hc₂, Option.bind_eq_bind, Option.bind_some]
    exact hc
  refine ⟨c, hrun, hr.inv.log.length_eq.symm, fun i e he => ?_⟩
  obtain ⟨v, c', hv, hiff⟩ := hr.inv.check_iff he
  refine ⟨v, c', hv, fun ht => ?_, fun j hj hmem hloop => ?_⟩
  · -- The sync turned what the region waits for into a strand of the iteration.
    obtain ⟨a, ha, hk, hak⟩ := hhead
    obtain ⟨as, hp⟩ := List.head?_eq_some_iff.1 ha
    have hjoined := hj ((ht.joins hok₁ hs₁).sync hr₁.tidy.ordered hr₂.inv hs₂ hp hk)
    obtain ⟨b, hb, hbk, hbi⟩ := hiter
    have hpath : p.dag.Path e.strand p.cur := by
      rcases hjoined.loop b hb hbk with hlt | ⟨-, -, ⟨q, x, hq, -⟩ | hpath⟩
      · omega
      · exact hq.elim
      · exact hpath.trans (hr.tidy.ordered.path_cur hb)
    cases v with
    | false => rfl
    | true => exact absurd hpath (hiff.1 rfl).1
  · obtain ⟨b, hb, hbk⟩ := hloop
    obtain ⟨as, hp⟩ := List.head?_eq_some_iff.1 hb
    obtain ⟨b', hb', hbk', hbi'⟩ := hiter
    have hbi : b.iter = k := by rw [← hr.inv.program.eq_head hp hbk hb' hbk', hbi']
    obtain ⟨m, -, -, -, q, -, hpl⟩ := hr.inv.logged he
    obtain ⟨f, fs, a, as', hf, hp'⟩ := hpl.exists_head
    rw [hp] at hp'
    cases hp'
    refine hiff.2 ⟨?_, ?_⟩
    · rw [show p.cur = b.cur by simp [Program.cur, hp]]
      exact hpl.not_path b (by rw [hp]; rfl) b (by simp [hp]) id j hbk hmem (by omega)
    · rw [hf, hp] at hpl
      rw [hp, List.tail_cons]
      exact hpl.not_hidden hbk hmem

theorem syncJoins_of_runOk_body :
    SyncJoins [.funcEntry true 1, .loopBegin, .loopIterationBegin 2, .access 7,
    .loopIterationEnd, .loopIterationBegin 2, .task 0, .access 8, .taskExit 1,
    .detachContinue 1] 1 [.access 9] :=
  syncJoins_of_runOk (by decide)

/-- A task in iteration 0, then a sync of the same region in iteration 1, where
nothing was spawned. -/
theorem not_syncJoins : ¬ ∀ hooks r rest, SyncJoins hooks r rest := by
  intro h
  obtain ⟨c, hc, -, hcheck⟩ :=
    h [.funcEntry true 1, .loopBegin, .loopIterationBegin 1, .task 0, .access 7, .taskExit 0,
    .detachContinue 0, .sync 0, .loopIterationEnd, .loopIterationBegin 1] 0 [] 0 1 _ _ rfl rfl
    ⟨_, rfl, rfl, rfl⟩ ⟨_, .head _, rfl, rfl⟩
  obtain ⟨v, c', hv, -, hpar⟩ := hcheck 0 _ rfl
  have hcase : (c.checkAccess 0).map (·.1) = some true := by
    rw [hv, hpar 0 (by decide) (by decide) ⟨_, rfl, rfl⟩]
    rfl
  cases hc
  exact absurd hcase (by decide)

end Cilksan
