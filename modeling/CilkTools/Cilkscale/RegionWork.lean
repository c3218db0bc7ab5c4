/-
The work that Cilkscale adds up in its frames: a frame's continuation has that
of all strands before it, and its outstanding tasks are counted once.
-/
import CilkTools.DagWork
import CilkTools.Cilkscale.SyncRegions

namespace Cilkscale

namespace Act

/-- The last strands of the tasks that are outstanding. -/
def pending (a : Act) : List Nat := a.pend.map (·.2)

def nodes (a : Act) : List Nat := a.preds ++ a.pending

/-- A function or task, and one above it: the tasks outstanding there have
nothing to do with what comes before this one. -/
structure Apart (g : TimedDag) (a p : Act) : Prop where
  preds : g.past p.preds ⊆ g.past a.preds
  pending : g.past p.pending ∩ g.past a.nodes ⊆ g.past p.preds

end Act

/-- The frame has the work before its continuation, and what its tasks add. -/
structure Frame.Works (f : Frame) (g : TimedDag) (a : Act) : Prop where
  lt_size : ∀ v ∈ a.nodes, v < g.size
  apart : a.pending.Pairwise fun u v => g.past [u] ∩ g.past [v] ⊆ g.past a.preds
  contin : f.continWork = g.work a.preds
  achild : f.achildWork = g.added a.preds a.pending

structure Regions.Works (s : Regions) (t : ShadowStack) : Prop where
  bot : t.bot.Works s.dag s.bot
  frames : List.Forall₂ (fun f a => f.Works s.dag a) t.frames s.acts
  apart : (s.bot :: s.acts).Pairwise (Act.Apart s.dag)

variable {f f' c : Frame} {g : TimedDag} {a b p q : Act} {ps : List Nat} {d : Nat}

theorem Act.lt_preds (h : ∀ v ∈ a.nodes, v < g.size) : ∀ v ∈ a.preds, v < g.size :=
  fun v hv => h v (List.mem_append_left _ hv)

theorem Act.lt_pending (h : ∀ v ∈ a.nodes, v < g.size) : ∀ v ∈ a.pending, v < g.size :=
  fun v hv => h v (List.mem_append_right _ hv)

theorem Act.Apart.inter_preds (h : a.Apart g p) :
    g.past p.pending ∩ g.past a.preds ⊆ g.past p.preds := fun _ hu =>
  h.pending
    (Finset.inter_subset_inter_left (TimedDag.past_subset fun _ => List.mem_append_left _) hu)

theorem Act.Apart.inter_pending (h : a.Apart g p) :
    g.past p.pending ∩ g.past a.pending ⊆ g.past p.preds := fun _ hu =>
  h.pending
    (Finset.inter_subset_inter_left (TimedDag.past_subset fun _ => List.mem_append_right _) hu)

theorem Act.Apart.of_parts (hp : g.past p.preds ⊆ g.past a.preds)
    (h₁ : g.past p.pending ∩ g.past a.preds ⊆ g.past p.preds)
    (h₂ : g.past p.pending ∩ g.past a.pending ⊆ g.past p.preds) : a.Apart g p := by
  refine ⟨hp, fun u hu => ?_⟩
  rw [nodes, TimedDag.past_append, Finset.mem_inter, Finset.mem_union] at hu
  obtain ⟨hu, hu' | hu'⟩ := hu
  · exact h₁ (Finset.mem_inter.2 ⟨hu, hu'⟩)
  · exact h₂ (Finset.mem_inter.2 ⟨hu, hu'⟩)

theorem Act.Apart.of_synced (ha : a.pend = []) (hp : g.past p.preds ⊆ g.past a.preds)
    (h : g.past p.pending ∩ g.past a.preds ⊆ g.past p.preds) : a.Apart g p := by
  refine .of_parts hp h ?_
  rw [show a.pending = [] by rw [Act.pending, ha, List.map_nil], TimedDag.past_nil,
    Finset.inter_empty]
  exact Finset.empty_subset _

theorem Act.join_all {r : Nat → Bool} (hr : ∀ x ∈ a.pend, r x.1 = true) :
    a.join r = { a with preds := a.preds ++ a.pending, pend := [] } := by
  have h₁ : a.pend.filter (fun x => r x.1) = a.pend := List.filter_eq_self.2 hr
  have h₂ : a.pend.filter (fun x => !r x.1) = [] :=
    List.filter_eq_nil_iff.2 fun x hx => by simp [hr x hx]
  rw [join, h₁, h₂, pending]

/-! ## A strand that ends -/

theorem Act.Apart.add (h : a.Apart g p) (ha : ∀ v ∈ a.nodes, v < g.size)
    (hp : ∀ v ∈ p.nodes, v < g.size) : a.Apart (g.add ps d) p := by
  constructor
  · rw [TimedDag.past_add_old (lt_preds ha), TimedDag.past_add_old (lt_preds hp)]
    exact h.preds
  · rw [TimedDag.past_add_old (lt_pending hp), TimedDag.past_add_old ha,
      TimedDag.past_add_old (lt_preds hp)]
    exact h.pending

/-- The new strand does not come before what is there. -/
theorem inter_past_new {us vs : List Nat} (hps : ∀ v ∈ ps, v < g.size) (hus : ∀ v ∈ us, v < g.size)
    (hvs : ∀ v ∈ vs, v < g.size)
    (h : g.past us ∩ g.past ps ⊆ g.past vs) :
    (g.add ps d).past us ∩ (g.add ps d).past [g.size] ⊆ (g.add ps d).past vs := by
  rw [TimedDag.past_add_old hus, TimedDag.past_add_old hvs, TimedDag.past_add_new hps]
  intro u hu
  rw [Finset.mem_inter, Finset.mem_insert] at hu
  obtain ⟨hu, rfl | hu'⟩ := hu
  · exact absurd hu (TimedDag.not_mem_past_size g us)
  · exact h (Finset.mem_inter.2 ⟨hu, hu'⟩)

/-- The continuation becomes the end of a new strand. -/
theorem Act.Apart.continued (ha : ∀ v ∈ a.nodes, v < g.size) (hq : ∀ v ∈ q.nodes, v < g.size)
    (hps : ∀ v ∈ ps, v < g.size)
    (h : a.Apart g q) (hsub : g.past q.preds ⊆ g.past ps)
    (hinter : g.past q.pending ∩ g.past ps ⊆ g.past q.preds) :
    Act.Apart (g.add ps d) { a with preds := [g.size] } q := by
  refine .of_parts ?_ (inter_past_new hps (lt_pending hq) (lt_preds hq) hinter) ?_
  · rw [TimedDag.past_add_old (lt_preds hq), TimedDag.past_add_new hps]
    exact hsub.trans (Finset.subset_insert _ _)
  · show (g.add ps d).past q.pending ∩ (g.add ps d).past a.pending ⊆ _
    rw [TimedDag.past_add_old (lt_preds hq), TimedDag.past_add_old (lt_pending hq),
      TimedDag.past_add_old (lt_pending ha)]
    exact h.inter_pending

namespace Frame.Works

theorem add (h : f.Works g a) (ps : List Nat) (d : Nat) : f.Works (g.add ps d) a where
  lt_size v hv := Nat.lt_succ_of_lt (h.lt_size v hv)
  apart := by
    refine h.apart.imp_of_mem fun hu hv hsub => ?_
    have hlt : ∀ {u}, u ∈ a.pending → ∀ v ∈ [u], v < g.size := fun hu v hv =>
      List.mem_singleton.1 hv ▸ Act.lt_pending h.lt_size _ hu
    rw [TimedDag.past_add_old (hlt hu), TimedDag.past_add_old (hlt hv),
      TimedDag.past_add_old (Act.lt_preds h.lt_size)]
    exact hsub
  contin := by rw [h.contin, TimedDag.work_add_old (Act.lt_preds h.lt_size)]
  achild := by
    rw [h.achild, TimedDag.added_add_old (Act.lt_preds h.lt_size) (Act.lt_pending h.lt_size)]

/-- A frame whose continuation becomes the end of the new strand. -/
theorem continued (h : f.Works g a) (hps : ∀ v ∈ ps, v < g.size) (hsub : g.past a.preds ⊆ g.past ps)
    (hinter : g.past a.pending ∩ g.past ps ⊆ g.past a.preds) (hc : f'.continWork = g.work ps + d)
    (hachild : f'.achildWork = f.achildWork) :
    f'.Works (g.add ps d) { a with preds := [g.size] } := by
  have hadd := h.add ps d
  have hle : (g.add ps d).past a.preds ⊆ (g.add ps d).past [g.size] := by
    rw [TimedDag.past_add_old (Act.lt_preds h.lt_size), TimedDag.past_add_new hps]
    exact hsub.trans (Finset.subset_insert _ _)
  refine ⟨fun v hv => ?_, hadd.apart.imp fun hs => hs.trans hle, ?_, ?_⟩
  · rcases List.mem_cons.1 hv with rfl | hv
    · exact Nat.lt_succ_self _
    · exact hadd.lt_size v (List.mem_append_right _ hv)
  · rw [hc, TimedDag.work_add_new hps]
    omega
  · have hsame :=
      TimedDag.added_congr hle
        (inter_past_new hps (Act.lt_pending h.lt_size) (Act.lt_preds h.lt_size) hinter)
    rw [hachild, hadd.achild, ← hsame]
    rfl

theorem addStrand (h : f.Works g a) (d : Nat) :
    (f.addStrand d).Works (g.add a.preds d) { a with preds := [g.size] } := by
  refine h.continued (Act.lt_preds h.lt_size)
    (Finset.Subset.refl _) Finset.inter_subset_right ?_ rfl
  show f.continWork + d = _
  rw [h.contin]

theorem child (h : f.Works g a) (isTask : Bool) : f.child.Works g ⟨isTask, a.preds, []⟩ where
  lt_size v hv := by
    rw [Act.nodes, Act.pending, List.map_nil, List.append_nil] at hv
    exact Act.lt_preds h.lt_size v hv
  apart := .nil
  contin := h.contin
  achild := by
    show (0 : Int) = ((g.added a.preds []) : Nat)
    simp

/-- A function returns. -/
theorem returned (hf : f.Works g a) (hc : c.Works g b) (h : b.Apart g a) (d : Nat) :
    (f.returned c d).Works (g.add b.preds d) { a with preds := [g.size] } := by
  refine hf.continued (Act.lt_preds hc.lt_size) h.preds h.inter_preds ?_ rfl
  show c.continWork + d = _
  rw [hc.contin]

/-- A task ends: it is outstanding in its parent. -/
theorem taskEnded (hf : f.Works g a) (hc : c.Works g b) (h : b.Apart g a) (r d burden : Nat) :
    (f.taskEnded (c.addStrand d) burden).Works (g.add b.preds d)
    { a with pend := (r, g.size) :: a.pend } := by
  have ha := hf.add b.preds d
  have hps := Act.lt_preds hc.lt_size
  have hinter :=
    inter_past_new (d := d) hps (Act.lt_pending hf.lt_size) (Act.lt_preds hf.lt_size) h.inter_preds
  have hle : (g.add b.preds d).past a.preds ⊆ (g.add b.preds d).past [g.size] := by
    rw [TimedDag.past_add_old (Act.lt_preds hf.lt_size), TimedDag.past_add_new hps]
    exact h.preds.trans (Finset.subset_insert _ _)
  refine ⟨fun v hv => ?_, ?_, ha.contin, ?_⟩
  · simp only [Act.nodes, Act.pending, List.map_cons, List.mem_append, List.mem_cons] at hv
    rcases hv with hv | rfl | hv
    · exact ha.lt_size v (List.mem_append_left _ hv)
    · exact Nat.lt_succ_self _
    · exact ha.lt_size v (List.mem_append_right _ hv)
  · refine List.pairwise_cons.2 ⟨fun v hv => ?_, ha.apart⟩
    rw [Finset.inter_comm]
    have hv' : (g.add b.preds d).past [v] ⊆ (g.add b.preds d).past a.pending :=
      TimedDag.past_subset fun u hu => List.mem_singleton.1 hu ▸ hv
    exact (Finset.inter_subset_inter_right hv').trans hinter
  · have hnew : (c.addStrand d).continWork = (g.add b.preds d).work [g.size] := by
      rw [TimedDag.work_add_new hps]
      show c.continWork + d = _
      rw [hc.contin]
      omega
    have hsum := TimedDag.work_eq_add hle
    rw [Finset.inter_comm] at hinter
    have hcons := TimedDag.added_cons hinter
    show f.achildWork + ((c.addStrand d).continWork - f.continWork) =
      ((g.add b.preds d).added a.preds (g.size :: a.pending) : Nat)
    rw [hcons, hnew, ha.achild, ha.contin]
    omega

/-- All tasks are joined. -/
theorem join (h : f.Works g a) {r : Nat → Bool} (hr : ∀ x ∈ a.pend, r x.1 = true) :
    f.join.Works g (a.join r) := by
  rw [Act.join_all hr]
  refine ⟨fun v hv => h.lt_size v ?_, .nil, ?_, ?_⟩
  · simpa [Act.nodes, Act.pending] using hv
  · show f.continWork + f.achildWork = (g.work (a.preds ++ a.pending) : Nat)
    rw [TimedDag.work_append, h.contin, h.achild]
    omega
  · show (0 : Int) = (g.added (a.preds ++ a.pending) [] : Nat)
    simp

end Frame.Works

/-! ## Steps -/

namespace Regions.Works

variable {s s' : Regions} {t : ShadowStack}

theorem lt_size (h : s.Works t) : ∀ q ∈ s.acts, ∀ v ∈ q.nodes, v < s.dag.size := by
  intro q hq
  obtain ⟨i, hi, rfl⟩ := List.getElem_of_mem hq
  have hlt : i < t.frames.length := h.frames.length_eq ▸ hi
  exact (List.forall₂_iff_get.1 h.frames).2 i hlt hi |>.lt_size

/-- The frames above go on as they are. -/
theorem above (h : s.Works t) (ps : List Nat) (d : Nat) :
    s.acts.Pairwise (Act.Apart (s.dag.add ps d)) :=
  (List.pairwise_cons.1 h.apart).2.imp_of_mem fun ha hb hab => hab.add (h.lt_size _ ha)
    (h.lt_size _ hb)

theorem endStrand (h : s.Works t) (d : Nat) : (s.endStrand d).Works (t.addStrand d) where
  bot := h.bot.addStrand d
  frames := h.frames.imp fun _ _ hf => hf.add _ _
  apart := List.pairwise_cons.2 ⟨fun q hq => by
    have hq' := (List.pairwise_cons.1 h.apart).1 q hq
    exact hq'.continued h.bot.lt_size (h.lt_size q hq)
      (Act.lt_preds h.bot.lt_size) hq'.preds hq'.inter_preds, h.above _ d⟩

theorem enter (h : s.Works t) (isTask : Bool) : (s.enter isTask).Works (t.push t.bot.child) where
  bot := h.bot.child isTask
  frames := .cons h.bot h.frames
  apart := by
    refine List.pairwise_cons.2 ⟨fun q hq => ?_, h.apart⟩
    rcases List.mem_cons.1 hq with rfl | hq
    · exact .of_synced rfl (Finset.Subset.refl _) Finset.inter_subset_right
    · have hq' := (List.pairwise_cons.1 h.apart).1 q hq
      exact .of_synced rfl hq'.preds hq'.inter_preds

theorem join (h : s.Works t) {r : Nat → Bool} (hr : ∀ x ∈ s.bot.pend, r x.1 = true) :
    (s.join r).Works (t.setBot t.bot.join) where
  bot := h.bot.join hr
  frames := h.frames
  apart := by
    refine List.pairwise_cons.2 ⟨fun q hq => ?_, (List.pairwise_cons.1 h.apart).2⟩
    have hq' := (List.pairwise_cons.1 h.apart).1 q hq
    show Act.Apart s.dag (s.bot.join r) q
    rw [Act.join_all hr]
    exact .of_synced rfl
      (hq'.preds.trans (TimedDag.past_subset fun _ => List.mem_append_left _)) hq'.pending

theorem exitFunc (h : s.Works t) {d : Nat} (hs : s.exitFunc d = some s') :
    ∃ t', t.funcExit true d = some t' ∧ s'.Works t' := by
  obtain ⟨g, b, as⟩ := s
  obtain ⟨c, fs⟩ := t
  obtain ⟨hbot, hframes, hapart⟩ := h
  cases hframes with
  | nil => cases hs
  | @cons f a fs as hf hfs =>
    simp only [Regions.exitFunc] at hs
    split at hs
    · cases hs
      have hw : Regions.Works ⟨g, b, a :: as⟩ ⟨c, f :: fs⟩ := ⟨hbot, .cons hf hfs, hapart⟩
      have hlt := hw.lt_size
      have habove := hw.above b.preds d
      rw [List.pairwise_cons] at hapart habove
      refine ⟨_, rfl, hf.returned hbot (hapart.1 a (List.mem_cons_self ..)) d,
        hfs.imp fun _ _ hf => hf.add _ _, ?_⟩
      refine List.pairwise_cons.2 ⟨fun q hq => ?_, habove.2⟩
      have hbq := hapart.1 q (List.mem_cons_of_mem _ hq)
      have haq := (List.pairwise_cons.1 hapart.2).1 q hq
      exact haq.continued hf.lt_size (hlt q (List.mem_cons_of_mem _ hq))
        (Act.lt_preds hbot.lt_size) hbq.preds hbq.inter_preds
    · cases hs

theorem exitTask (h : s.Works t) (burden : Nat) {r d : Nat} (hs : s.exitTask r d = some s') :
    ∃ t', t.taskExit burden d = some t' ∧ s'.Works t' := by
  obtain ⟨g, b, as⟩ := s
  obtain ⟨c, fs⟩ := t
  obtain ⟨hbot, hframes, hapart⟩ := h
  cases hframes with
  | nil => cases hs
  | @cons f a fs as hf hfs =>
    simp only [Regions.exitTask] at hs
    split at hs
    · cases hs
      have hw : Regions.Works ⟨g, b, a :: as⟩ ⟨c, f :: fs⟩ := ⟨hbot, .cons hf hfs, hapart⟩
      have hlt := hw.lt_size
      have habove := hw.above b.preds d
      rw [List.pairwise_cons] at hapart habove
      refine ⟨_, rfl, hf.taskEnded hbot (hapart.1 a (List.mem_cons_self ..)) r d burden,
        hfs.imp fun _ _ hf => hf.add _ _, ?_⟩
      refine List.pairwise_cons.2 ⟨fun q hq => ?_, habove.2⟩
      -- The task's nodes are old ones of the child, or new.
      have hq' := hlt q (List.mem_cons_of_mem _ hq)
      have hbq := hapart.1 q (List.mem_cons_of_mem _ hq)
      have haq := habove.1 q hq
      have hps := Act.lt_preds hbot.lt_size
      refine .of_parts haq.preds haq.inter_preds ?_
      show (g.add b.preds d).past q.pending ∩ (g.add b.preds d).past (g.size :: a.pending) ⊆ _
      rw [TimedDag.past_cons, Finset.inter_union_distrib_left]
      exact Finset.union_subset
        (inter_past_new hps (Act.lt_pending hq') (Act.lt_preds hq') hbq.inter_preds)
        haq.inter_pending
    · cases hs

theorem addBurden (h : s.Works t) (burden : Nat) : s.Works (t.setBot (t.bot.addBurden burden)) :=
  ⟨⟨h.bot.lt_size, h.bot.apart, h.bot.contin, h.bot.achild⟩, h.frames, h.apart⟩

theorem init : initial.Works .initial where
  bot := {
    lt_size v hv := by cases hv
    apart := .nil
    contin := by simp [initial, TimedDag.work, ShadowStack.initial]
    achild := by simp [initial, Act.pending, ShadowStack.initial] }
  frames := .nil
  apart := List.pairwise_singleton ..

end Regions.Works

end Cilkscale
