/-
What `previousAccessInParallel` answers. Without parallel loops it decides
whether the strand of the access is parallel to the current one. With them it
looks for an older iteration in the head frame's Iter-bag only, so that it
misses what an enclosing loop accessed itself.
-/
import CilkTools.Cilksan.BagInvariant

namespace Cilksan

/-- A loop of the stack made the access itself, in an earlier iteration that its
bag's version still tells from the current one. -/
def HiddenIn (e : LoggedAccess) (as : List Activation) : Prop :=
  ∃ a ∈ as, ∃ id j, a.kind = .loop id ∧ e.direct = some (id, j) ∧ j < a.iter ∧
    j / versionEnd = a.iter / versionEnd

theorem Outside.not_hidden {R : Nat → Prop} {e : LoggedAccess} {as : List Activation}
    (ho : Outside R e as) : ¬ HiddenIn e as := by
  intro ⟨a, ha, id, j, hk, hd, _⟩
  exact ((ho a ha).2 id hk j).2 hd

theorem hiddenIn_cons {e : LoggedAccess} {a : Activation} {as : List Activation} :
    HiddenIn e (a :: as) ↔ (∃ id j, a.kind = .loop id ∧ e.direct = some (id, j) ∧ j < a.iter ∧
      j / versionEnd = a.iter / versionEnd) ∨ HiddenIn e as := by
  simp [HiddenIn]

theorem Before.not_hidden {e : LoggedAccess} {a : Activation} {as : List Activation}
    (h : Before e a) : HiddenIn e (a :: as) ↔ HiddenIn e as := by
  rw [hiddenIn_cons]
  refine or_iff_right ?_
  intro ⟨id, j, hk, hd, _⟩
  exact (h id hk j).2 hd

namespace Placed

variable {R : Nat → Prop} {e : LoggedAccess} {b v : Nat} {f : FrameData} {fs : List FrameData}
variable {a : Activation} {as : List Activation} {h : Bags}

/-- An access is in a P-bag unless it has a path to the current strand, or
hides in the Iter-bag of a loop. -/
theorem isPBag_iff (hp : Placed R e b v fs as) (hm : List.Forall₂ (Matches h) fs as) :
    ∀ a ∈ as.head?, h.Is b .pBag ↔ ¬ R a.cur ∧ ¬ HiddenIn e as := by
  induction hp with
  | sbag hb hu hr hw ho =>
    intro a ha
    cases ha
    obtain ⟨s, hs, hsi⟩ := (List.forall₂_cons.1 hm).1.ok.sbag
    rw [hb] at hs
    cases hs
    exact iff_of_false (fun hp => by cases hsi.type_eq hp) fun hn => hn.1 hr
  | iterbag hb hu hk ha hr hd hc hv ho =>
    intro a ha
    cases ha
    have hsi := ((List.forall₂_cons.1 hm).1.ok.iterbag hb).1
    exact iff_of_false (fun hp => by cases hsi.type_eq hp) fun hn => hn.1 hr
  | pbag r hb hr hp hx hw ho =>
    intro a ha
    cases ha
    refine iff_of_true ((List.forall₂_cons.1 hm).1.ok.pbag hb) ⟨hr, ?_⟩
    rw [hiddenIn_cons, not_or]
    refine ⟨?_, ho.not_hidden⟩
    intro ⟨id, j, hk, hd, _, hjw⟩
    have := hw id hk j hd
    omega
  | @olditer _ _ _ _ id j hb hu hk hr hp hx hd hj hjw hv ho =>
    intro a ha
    cases ha
    have hsi := ((List.forall₂_cons.1 hm).1.ok.iterbag hb).1
    refine iff_of_false (fun hp => by cases hsi.type_eq hp) fun hn => hn.2 ?_
    exact hiddenIn_cons.2 (.inl ⟨id, j, hk, hd, hj, hjw⟩)
  | under he hr hn hp ih =>
    intro a ha
    cases ha
    rw [he.not_hidden, hr]
    exact ih (List.forall₂_cons.1 hm).2 _ rfl

/-- What an enclosing loop accessed in an earlier iteration, or called there,
has no path to the current strand. -/
theorem not_path (hp : Placed R e b v fs as) :
    ∀ a ∈ as.head?, ∀ l ∈ as, ∀ id j, l.kind = .loop id → (id, j) ∈ e.ctx → j < l.iter →
    ¬ R a.cur := by
  induction hp with
  | @sbag f fs a as hb hu hr hw ho =>
    intro a' ha l hl id j hk hc hj
    have hwl : Within e l := by
      rcases List.mem_cons.1 hl with rfl | hl
      · exact hw
      · exact (ho l hl).2
    have := (hwl id hk j).1 hc
    omega
  | @iterbag f fs a as id' hb hu hk' ha hr hd hc' hv ho =>
    intro a' ha l hl id j hk hc hj
    rcases List.mem_cons.1 hl with rfl | hl
    · rw [hk'] at hk
      cases hk
      have := hc' j hc
      omega
    · have := ((ho l hl).2 id hk j).1 hc
      omega
  | pbag r hb hr | olditer hb hu hk' hr =>
    intro a' ha _ _ _ _ _ _ _
    cases ha
    exact hr
  | @under f fs a a' as he hr hn hp ih =>
    intro a₀ ha l hl id j hk hc hj
    cases ha
    rcases List.mem_cons.1 hl with rfl | hl
    · exact absurd hc (he id hk j).1
    · rw [hr]
      exact ih a' rfl l hl id j hk hc hj

end Placed

/-- What `check_parallel_iter` compares, for an access of the stack. -/
theorem checkParallelIter_iff {R : Nat → Prop} {e : LoggedAccess} {b v : Nat} {f : FrameData}
    {fs : List FrameData}
    {a : Activation} {as : List Activation} {h : Bags} (hp : Placed R e b v (f :: fs) (a :: as))
    (hm : Matches h f a) (hap : ∀ g ∈ fs, f.Apart g) (hb : h.Is b .sBag) :
    f.checkParallelIter h b v = true ↔
    ∃ id j, a.kind = .loop id ∧ e.direct = some (id, j) ∧ j < a.iter ∧
      j / versionEnd = a.iter / versionEnd ∧ ¬ R a.cur := by
  cases hp with
  | sbag hb' hu hr hw ho =>
    refine iff_of_false ?_ fun h => by obtain ⟨_, _, _, _, _, _, hn⟩ := h; exact hn hr
    simp only [FrameData.checkParallelIter, Bool.and_eq_true, beq_iff_eq]
    intro h
    obtain ⟨⟨_, hi⟩, _⟩ := h
    exact (hm.ok.iterbag hi).2 hb'
  | iterbag hb' hu hk ha hr hd hc hv ho =>
    refine iff_of_false ?_ fun h => by obtain ⟨_, _, _, _, _, _, hn⟩ := h; exact hn hr
    simp only [FrameData.checkParallelIter, Bool.and_eq_true, beq_iff_eq, Option.any_eq_true]
    intro h
    obtain ⟨_, x, hx, hlt⟩ := h
    obtain ⟨-, -, i, y, hi, hy, hyv⟩ := hm.looping (Activation.isLoop_iff.2 ⟨_, hk⟩)
    rw [hb'] at hi
    cases hi
    rw [hx] at hy
    cases hy
    simp only [decide_eq_true_eq] at hlt
    omega
  | pbag r hb' => cases hb.type_eq (hm.ok.pbag hb')
  | @olditer _ _ _ _ id j hb' hu hk hr hp hx hd hj hjw hv ho =>
    refine iff_of_true ?_ ⟨id, j, hk, hd, hj, hjw, hr⟩
    have hl := Activation.isLoop_iff.2 ⟨_, hk⟩
    obtain ⟨-, -, i, y, hi, hy, hyv⟩ := hm.looping hl
    rw [hb'] at hi
    cases hi
    have hlt : v < y.version := by
      rw [hv, hyv]
      simp only [versionEnd] at hjw ⊢
      omega
    simp [FrameData.checkParallelIter, hm.loop, hl, hb', hy, hlt]
  | under he hr hn hp =>
    refine iff_of_false ?_ fun h => by obtain ⟨id, j, hk, hd, -⟩ := h; exact (he id hk j).2 hd
    simp only [FrameData.checkParallelIter, Bool.and_eq_true, beq_iff_eq]
    intro h
    obtain ⟨⟨_, hi⟩, _⟩ := h
    obtain ⟨g, hg, hgb⟩ := hp.has
    exact hap g hg b (.inr (.inr hi)) hgb

theorem FrameData.Ok.is {f : FrameData} {h : Bags} {b : Nat} (hf : f.Ok h) (hb : f.Has b) :
    h.Is b .sBag ∨ h.Is b .pBag := by
  rcases hb with hb | ⟨r, hb⟩ | hb
  · obtain ⟨s, hs, hsi⟩ := hf.sbag
    rw [hb] at hs
    cases hs
    exact .inl hsi
  · exact .inr (hf.pbag hb)
  · exact .inl (hf.iterbag hb).1

theorem previousAccessInParallel_of_sBag {h : Bags} {f : FrameData} {m : MemoryAccess}
    {b : Nat} (hw : h.WF) (ho : h.Owned m.func b) (hb : h.Is b .sBag) :
    (CilkSan.previousAccessInParallel m f h).1 = f.checkParallelIter h b m.version := by
  obtain ⟨-, x, hx, ht, -⟩ := hb
  obtain ⟨hget, hbag, -⟩ := Bags.getSbagOrNull_spec hw ho hx
  rw [ht, if_pos rfl] at hget
  simp only [CilkSan.previousAccessInParallel, hget, FrameData.checkParallelIter, hbag]

theorem previousAccessInParallel_of_pBag {h : Bags} {f : FrameData} {m : MemoryAccess}
    {b : Nat} (hw : h.WF)
    (ho : h.Owned m.func b) (hb : h.Is b .pBag) :
    (CilkSan.previousAccessInParallel m f h).1 = true := by
  obtain ⟨-, x, hx, ht, -⟩ := hb
  obtain ⟨hget, -⟩ := Bags.getSbagOrNull_spec hw ho hx
  rw [ht, if_neg (by simp)] at hget
  simp only [CilkSan.previousAccessInParallel, hget]

theorem Inv.logged {p : Program} {c : CilkSan} (hi : Inv p c) {i : Nat} {e : LoggedAccess}
    (he : p.log[i]? = some e) : ∃ m, c.log[i]? = some m ∧ Logged p c e m := by
  obtain ⟨hlt, rfl⟩ := List.getElem?_eq_some_iff.1 he
  have hlt' : i < c.log.length := hi.log.length_eq ▸ hlt
  exact ⟨_, List.getElem?_eq_getElem hlt', hi.log.get hlt hlt'⟩

/-- **The answer.** An access is reported parallel unless it has a path to the
current strand, or hides in the Iter-bag of a loop below the head frame. -/
theorem Inv.check_iff {p : Program} {c : CilkSan} (hi : Inv p c) {i : Nat} {e : LoggedAccess}
    (he : p.log[i]? = some e) :
    ∃ r c', c.checkAccess i = some (r, c') ∧
      (r = true ↔ ¬ p.dag.Path e.strand p.cur ∧ ¬ HiddenIn e p.acts.tail) := by
  obtain ⟨m, hget, -, -, b, ho, hpl⟩ := hi.logged he
  obtain ⟨f, fs, a, as, hf, hp⟩ := hpl.exists_head
  obtain ⟨f', fs', hf', hm, hrest, hap, -⟩ := hi.head hp
  rw [hf] at hf'
  cases hf'
  rw [hf, hp] at hpl
  have hall := hi.frames
  rw [hf, hp] at hall
  have hpb := hpl.isPBag_iff hall a rfl
  refine ⟨_, _, by simp only [CilkSan.checkAccess, hget, hf, List.head?_cons]; rfl, ?_⟩
  have hcur : p.cur = a.cur := by simp [Program.cur, hp]
  rw [hcur, hp, List.tail_cons]
  have hid := hi.program.ids
  rw [hp, List.pairwise_cons] at hid
  obtain ⟨g, hg, hgb⟩ := hpl.has
  obtain ⟨a', hga⟩ := Matches.of_mem hall hg
  rcases hga.ok.is hgb with hb | hb
  · rw [previousAccessInParallel_of_sBag hi.wf ho hb, checkParallelIter_iff hpl hm hap hb]
    have hnp : ¬ (¬ p.dag.Path e.strand a.cur ∧ ¬ HiddenIn e (a :: as)) := fun h => by
      cases hb.type_eq (hpb.2 h)
    constructor
    · intro h
      obtain ⟨id, j, hk, hd, _, _, hr⟩ := h
      refine ⟨hr, ?_⟩
      intro h
      obtain ⟨l, hl, id', j', hk', hd', _⟩ := h
      rw [hd] at hd'
      cases hd'
      exact hid.1 l hl id hk hk'
    · intro h
      obtain ⟨hr, hh⟩ := h
      have hhid : HiddenIn e (a :: as) := by
        by_contra hn
        exact hnp ⟨hr, hn⟩
      rcases hiddenIn_cons.1 hhid with ⟨id, j, hk, hd, hj, hjw⟩ | h
      · exact ⟨id, j, hk, hd, hj, hjw, hr⟩
      · exact absurd h hh
  · obtain ⟨hr, hh⟩ := hpb.1 hb
    refine iff_of_true (previousAccessInParallel_of_pBag hi.wf ho hb)
      ⟨hr, fun h => hh (hiddenIn_cons.2 (.inr h))⟩

/-! ## Runs -/

def Hook.isLoop : Hook → Bool
  | .loopBegin | .loopIterationBegin _ | .loopIterationEnd | .loopEnd _ => true
  | _ => false

/-- It is no loop's, and no iterations were left to it. -/
def Activation.Plain (a : Activation) : Prop := a.isLoop = false ∧ ∀ r, a.stale r = false

/-- No parallel loop runs. -/
structure Program.LoopFree (p : Program) : Prop where
  pending : p.pendingLoop = false
  acts : ∀ a ∈ p.acts, a.Plain

theorem Activation.Plain.of_eq {a b : Activation} (ha : a.Plain) (hk : b.kind = a.kind)
    (hs : b.stale = a.stale) :
    b.Plain := by
  unfold Activation.Plain Activation.isLoop
  rw [hk, hs]
  exact ha

theorem Program.LoopFree.advance {p : Program} {ps : List Nat} {a : Activation}
    {as : List Activation}
    (hp : p.LoopFree) (ha : a.Plain) (has : ∀ b ∈ as, b.Plain) :
    (p.advance ps (a :: as)).LoopFree :=
  ⟨hp.pending, List.forall_mem_cons.2 ⟨ha, has⟩⟩

theorem Program.LoopFree.step {p p' : Program} {h : Hook} (hp : p.LoopFree) (hl : h.isLoop = false)
    (hs : p.step h = some p') : p'.LoopFree := by
  have hacts := hp.acts
  cases h with
  | loopBegin | loopIterationBegin | loopIterationEnd | loopEnd => cases hl
  | recordCall | recordCallReturn =>
    cases hs
    exact hp
  | check i =>
    simp only [Program.step] at hs
    split at hs <;> cases hs
    exact hp
  | funcEntry ms n =>
    simp only [Program.step, Program.funcEntry] at hs
    repeat' split at hs
    all_goals cases hs
    all_goals
      next a as ha _ =>
      rw [ha, List.forall_mem_cons] at hacts
      first
        | exact hp.advance (hacts.1.of_eq rfl rfl) hacts.2
        | exact hp.advance ⟨rfl, fun _ => rfl⟩ (List.forall_mem_cons.2 hacts)
  | task n =>
    simp only [Program.step, Program.task] at hs
    repeat' split at hs
    all_goals cases hs
    next a as ha _ =>
      rw [ha] at hacts
      exact hp.advance ⟨rfl, fun _ => rfl⟩ hacts
  | funcExit =>
    simp only [Program.step, Program.funcExit] at hs
    repeat' split at hs
    all_goals cases hs
    · next a as ha _ =>
      rw [ha, List.forall_mem_cons] at hacts
      exact hp.advance (hacts.1.of_eq rfl rfl) hacts.2
    · next a b bs _ ha _ =>
      rw [ha] at hacts
      simp only [List.forall_mem_cons] at hacts
      exact hp.advance (hacts.2.1.of_eq rfl rfl) hacts.2.2
  | taskExit r =>
    simp only [Program.step, Program.taskExit] at hs
    repeat' split at hs
    all_goals cases hs
    next a b bs ha _ =>
      rw [ha] at hacts
      simp only [List.forall_mem_cons] at hacts
      exact hp.advance (hacts.2.1.of_eq rfl rfl) hacts.2.2
  | detachContinue r | access acc =>
    simp only [Program.step, Program.detachContinue, Program.access] at hs
    repeat' split at hs
    all_goals cases hs
    exact ⟨hp.pending, hp.acts⟩
  | sync r =>
    simp only [Program.step, Program.sync] at hs
    repeat' split at hs
    all_goals cases hs
    next a as ha _ =>
      rw [ha, List.forall_mem_cons] at hacts
      exact hp.advance (hacts.1.of_eq rfl rfl) hacts.2

theorem Program.LoopFree.stepOk {p : Program} {h : Hook} (hp : p.LoopFree) (hl : h.isLoop = false) :
    StepOk p h := by
  cases h with
  | sync r => exact fun a ha => (hp.acts a (List.mem_of_mem_head? ha)).2 r
  | loopEnd => cases hl
  | _ => trivial

theorem Program.LoopFree.runOk {p : Program} {hooks : List Hook} (hp : p.LoopFree)
    (hl : ∀ h ∈ hooks, h.isLoop = false) : RunOk p hooks := by
  induction hooks generalizing p with
  | nil => trivial
  | cons h hooks ih =>
    rw [List.forall_mem_cons] at hl
    exact ⟨hp.stepOk hl.1, fun p' hs => ih (hp.step hl.1 hs) hl.2⟩

theorem Program.LoopFree.run {p p' : Program} {hooks : List Hook} (hp : p.LoopFree)
    (hl : ∀ h ∈ hooks, h.isLoop = false) (hs : p.run hooks = some p') : p'.LoopFree := by
  induction hooks generalizing p with
  | nil =>
    cases hs
    exact hp
  | cons h hooks ih =>
    rw [List.forall_mem_cons] at hl
    simp only [Program.run, List.foldlM_cons, Option.bind_eq_bind, Option.bind_eq_some_iff] at hs
    obtain ⟨p₁, hs₁, hs⟩ := hs
    exact ih (hp.step hl.1 hs₁) hl.2 hs

theorem Program.LoopFree.init : Program.init.LoopFree :=
  ⟨rfl, by simp [Program.init, Activation.Plain, Activation.isLoop]⟩

theorem Program.LoopFree.not_hidden {p : Program} (hp : p.LoopFree) {e : LoggedAccess} :
    ¬ HiddenIn e p.acts.tail := by
  intro ⟨a, ha, id, j, hk, _⟩
  have hl := (hp.acts a (List.mem_of_mem_tail ha)).1
  rw [Activation.isLoop_iff.2 ⟨id, hk⟩] at hl
  cases hl

/-- **SP-bags.** After any run without parallel loops, an earlier access is
reported parallel exactly if its strand is parallel to the current one. -/
theorem checkAccess_iff_parallel {hooks : List Hook} {p : Program}
    (hl : ∀ h ∈ hooks, h.isLoop = false) (hs : Program.init.run hooks = some p) :
    ∃ c, CilkSan.init.run hooks = some c ∧ c.log.length = p.log.length ∧
      ∀ (i : Nat) (e : LoggedAccess), p.log[i]? = some e → ∃ r c', c.checkAccess i = some (r, c') ∧
        (r = true ↔ p.dag.Parallel e.strand p.cur) := by
  have hfree := Program.LoopFree.init
  obtain ⟨c, hc, hi⟩ := Inv.init.run (hfree.runOk hl) hs
  refine ⟨c, hc, hi.log.length_eq.symm, fun i e he => ?_⟩
  obtain ⟨r, c', hr, hiff⟩ := hi.check_iff he
  obtain ⟨m, -, hlog⟩ := hi.logged he
  refine ⟨r, c', hr, hiff.trans ?_⟩
  rw [GrowingDag.parallel_iff hlog.strand hi.program.newest]
  exact and_iff_left (hfree.run hl hs).not_hidden

theorem checkAccess_iff_parallel_spawn :
    ∃ p, Program.init.run [.funcEntry true 1, .task 0, .access 7, .taskExit 0,
      .detachContinue 0, .funcEntry false 0, .access 8, .funcExit, .sync 0] = some p ∧
    ∃ c, CilkSan.init.run [.funcEntry true 1, .task 0, .access 7, .taskExit 0,
      .detachContinue 0, .funcEntry false 0, .access 8, .funcExit, .sync 0] = some c ∧
      c.log.length = p.log.length ∧
      ∀ (i : Nat) (e : LoggedAccess), p.log[i]? = some e → ∃ r c', c.checkAccess i = some (r, c') ∧
        (r = true ↔ p.dag.Parallel e.strand p.cur) :=
  ⟨_, rfl, checkAccess_iff_parallel (by decide) rfl⟩

/-- **Parallel loops.** After a run whose steps a loop's bags cope with, an
access from an earlier iteration of an enclosing loop is reported parallel
exactly if it does not hide in the Iter-bag of a loop below the head frame; no
access in series is. -/
theorem checkAccess_loop_iff {hooks : List Hook} {p : Program} (hok : RunOk Program.init hooks)
    (hs : Program.init.run hooks = some p) :
    ∃ c, CilkSan.init.run hooks = some c ∧ c.log.length = p.log.length ∧
      ∀ (i : Nat) (e : LoggedAccess), p.log[i]? = some e → ∃ r c', c.checkAccess i = some (r, c') ∧
        (∀ l ∈ p.acts, ∀ id j, l.kind = .loop id → (id, j) ∈ e.ctx → j < l.iter →
          (r = true ↔ ¬ HiddenIn e p.acts.tail)) ∧
        (p.dag.Path e.strand p.cur → r = false) := by
  obtain ⟨c, hc, hi⟩ := Inv.init.run hok hs
  refine ⟨c, hc, hi.log.length_eq.symm, fun i e he => ?_⟩
  obtain ⟨r, c', hr, hiff⟩ := hi.check_iff he
  refine ⟨r, c', hr, fun l hl id j hk hmem hj => ?_, fun hpath => ?_⟩
  · obtain ⟨m, -, -, -, b, -, hpl⟩ := hi.logged he
    obtain ⟨f, fs, a, as, -, hp⟩ := hpl.exists_head
    have hn := hpl.not_path a (by rw [hp]; rfl) l hl id j hk hmem hj
    rw [hiff, show p.cur = a.cur by simp [Program.cur, hp]]
    exact and_iff_right hn
  · cases r with
    | false => rfl
    | true => exact absurd hpath (hiff.1 rfl).1

theorem checkAccess_loop_iff_body :
    ∃ p, Program.init.run [.funcEntry true 1, .loopBegin, .loopIterationBegin 0,
      .access 7, .loopIterationEnd, .loopIterationBegin 0] = some p ∧
    ∃ c, CilkSan.init.run [.funcEntry true 1, .loopBegin, .loopIterationBegin 0,
      .access 7, .loopIterationEnd, .loopIterationBegin 0] = some c ∧ c.log.length = p.log.length ∧
      ∀ (i : Nat) (e : LoggedAccess), p.log[i]? = some e → ∃ r c', c.checkAccess i = some (r, c') ∧
        (∀ l ∈ p.acts, ∀ id j, l.kind = .loop id → (id, j) ∈ e.ctx → j < l.iter →
          (r = true ↔ ¬ HiddenIn e p.acts.tail)) ∧
        (p.dag.Path e.strand p.cur → r = false) :=
  ⟨_, rfl, checkAccess_loop_iff (by decide) rfl⟩

/-- A loop body's access in iteration 0, and a function called in iteration 1:
the head frame there is not the loop's. -/
theorem checkAccess_callee_in_loop : ¬ ∀ (hooks : List Hook) (p : Program) (c : CilkSan),
    Program.init.run hooks = some p → CilkSan.init.run hooks = some c →
      ∀ (i : Nat) (e : LoggedAccess), p.log[i]? = some e →
        ∀ l ∈ p.acts, ∀ id j, l.kind = .loop id → (id, j) ∈ e.ctx → j < l.iter →
          (c.checkAccess i).map (·.1) = some true := by
  intro h
  have := h [.funcEntry true 1, .loopBegin, .loopIterationBegin 0, .access 7, .loopIterationEnd,
    .loopIterationBegin 0,
    .funcEntry true 0] _ _ rfl rfl 0 _ rfl _ (.tail _ (.head _)) 0 0 rfl (by decide) (by decide)
  exact absurd this (by decide)

end Cilksan
