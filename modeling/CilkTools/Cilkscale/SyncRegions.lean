/-
Sync regions under Cilkscale. Each hook is paired with the `sync_reg` that
the tool gets with it and ignores; the graph in which a sync waits only for the
tasks of its own region is grown beside the tool.
-/
import CilkTools.TimedDag
import CilkTools.Cilkscale.ShadowStack
import Mathlib.Data.List.Forall2

namespace Cilkscale

/-- An active function or task: the strands that its current strand follows
and, with its region, the last strand of each task it has not yet joined. -/
structure Act where
  isTask : Bool
  preds : List Nat
  pend : List (Nat × Nat)
  deriving DecidableEq, Repr

/-- Wait for the tasks of the regions `p`. -/
def Act.join (a : Act) (p : Nat → Bool) : Act :=
  { a with
    preds := a.preds ++ (a.pend.filter fun x => p x.1).map (·.2)
    pend := a.pend.filter fun x => !p x.1 }

/-- The graph of the strands that have ended, and the active functions and tasks. -/
structure Regions where
  dag : TimedDag
  bot : Act
  acts : List Act

namespace Regions

def initial : Regions := ⟨.empty, ⟨false, [], []⟩, []⟩

/-- A strand that took `d` ends. -/
def endStrand (s : Regions) (d : Nat) : Regions :=
  { s with dag := s.dag.add s.bot.preds d, bot := { s.bot with preds := [s.dag.size] } }

def enter (s : Regions) (isTask : Bool) : Regions :=
  ⟨s.dag, ⟨isTask, s.bot.preds, []⟩, s.bot :: s.acts⟩

/-- A function returns only when it has joined its tasks. -/
def exitFunc (s : Regions) (d : Nat) : Option Regions :=
  match s.acts with
  | p :: ps =>
    if s.bot.isTask = false ∧ s.bot.pend = [] then
      some ⟨(s.endStrand d).dag, { p with preds := (s.endStrand d).bot.preds }, ps⟩
    else none
  | [] => none

/-- A task of region `r` ends, having joined its own tasks. -/
def exitTask (s : Regions) (r d : Nat) : Option Regions :=
  match s.acts with
  | p :: ps =>
    if s.bot.isTask = true ∧ s.bot.pend = [] then
      some ⟨(s.endStrand d).dag, { p with pend := (r, s.dag.size) :: p.pend }, ps⟩
    else none
  | [] => none

def join (s : Regions) (p : Nat → Bool) : Regions := { s with bot := s.bot.join p }

/-- At the unwind destination of a detach the tasks of all regions have been joined. -/
def step (s : Regions) : Hook × Nat → Option Regions
  | (.funcEntry maySpawn d, _) => some (if maySpawn then (s.endStrand d).enter false else s)
  | (.funcExit maySpawn d, _) => if maySpawn then s.exitFunc d else some s
  | (.detach d, _) => some (s.endStrand d)
  | (.task, _) => some (s.enter true)
  | (.taskExit d, r) => s.exitTask r d
  | (.detachContinue isUnwind, _) => some (if isUnwind then s.join fun _ => true else s)
  | (.beforeSync d, _) => some (s.endStrand d)
  | (.afterSync, r) => some (s.join (· == r))
  | (.destroy d, _) => some (s.endStrand d)

def run (s : Regions) (hooks : List (Hook × Nat)) : Option Regions := hooks.foldlM step s

/-- Where region `r` is synced, no task of another region that stays
outstanding ends later than what the sync waits for. -/
def SyncOk (s : Regions) : Hook × Nat → Prop
  | (.afterSync, r) =>
    ∀ x ∈ s.bot.pend, x.1 ≠ r → s.dag.longest x.2 ≤ s.dag.latest (s.bot.join (· == r)).preds
  | _ => True

def SyncsOk : Regions → List (Hook × Nat) → Prop
  | _, [] => True
  | s, h :: hs => s.SyncOk h ∧ ∀ s', s.step h = some s' → s'.SyncsOk hs

/-- The tool's span is the longest path to the current strand. -/
def Exact (s : Regions) (t : ShadowStack) : Prop :=
  ∃ n : Nat, t.bot.continSpan = n ∧ IsGreatest (s.dag.lengthsTo s.bot.preds) n

end Regions

/-- After each hook of the sequence the tool's span is the longest path. -/
def SpansExact (burden : Nat) (hooks : List (Hook × Nat)) : Prop :=
  ∀ pre, pre <+: hooks → ∀ s, Regions.initial.run pre = some s →
    ∃ t, ShadowStack.initial.run burden (pre.map (·.1)) = some t ∧ s.Exact t

/-! ## The frames and the graph -/

/-- The tool may have dropped the span of a task that is outstanding, but only
of one that ends no later than the continuation. -/
structure Frame.Follows (f : Frame) (g : TimedDag) (a : Act) : Prop where
  preds_lt : ∀ v ∈ a.preds, v < g.size
  pend_lt : ∀ x ∈ a.pend, x.2 < g.size
  contin : f.continSpan = g.latest a.preds
  nonneg : 0 ≤ f.lchildSpan
  lchild_le : f.lchildSpan ≤ g.latest (a.pend.map (·.2))
  pend_le : g.latest (a.pend.map (·.2)) ≤ max f.continSpan f.lchildSpan

structure Regions.Follows (s : Regions) (t : ShadowStack) : Prop where
  bot : t.bot.Follows s.dag s.bot
  frames : List.Forall₂ (fun f a => f.Follows s.dag a) t.frames s.acts
  nested : (t.bot :: t.frames).Pairwise fun f p => p.continSpan ≤ f.continSpan

namespace Frame

variable {f c : Frame} {g : TimedDag} {a : Act} {ps : List Nat} {d : Nat}

/-- What a frame follows stays in the graph. -/
theorem Follows.add (h : f.Follows g a) (ps : List Nat) (d : Nat) : f.Follows (g.add ps d) a := by
  have hpreds : (g.add ps d).latest a.preds = g.latest a.preds := TimedDag.latest_add_old h.preds_lt
  have hpend : (g.add ps d).latest (a.pend.map (·.2)) = g.latest (a.pend.map (·.2)) := by
    refine TimedDag.latest_add_old fun v hv => ?_
    obtain ⟨x, hx, rfl⟩ := List.mem_map.1 hv
    exact h.pend_lt x hx
  exact {
    preds_lt v hv := Nat.lt_succ_of_lt (h.preds_lt v hv)
    pend_lt x hx := Nat.lt_succ_of_lt (h.pend_lt x hx)
    contin := by rw [h.contin, hpreds]
    nonneg := h.nonneg
    lchild_le := by rw [hpend]; exact h.lchild_le
    pend_le := by rw [hpend]; exact h.pend_le }

/-- A frame whose continuation becomes the end of the new strand. -/
theorem Follows.continued (h : f.Follows g a) {n : Int} (hn : n = (g.add ps d).longest g.size)
    (hle : f.continSpan ≤ n) {f' : Frame} (hc : f'.continSpan = n)
    (hl : f'.lchildSpan = f.lchildSpan) : f'.Follows (g.add ps d) { a with preds := [g.size] } := by
  have ha := h.add ps d
  exact {
    preds_lt v hv := by simp only [List.mem_singleton] at hv; simp [hv]
    pend_lt := ha.pend_lt
    contin := by rw [hc, hn]; simp
    nonneg := hl ▸ ha.nonneg
    lchild_le := hl ▸ ha.lchild_le
    pend_le := by
      have hpend := ha.pend_le
      show ((g.add ps d).latest (a.pend.map (·.2)) : Int) ≤ _
      rw [hc, hl]
      omega }

theorem Follows.addStrand (h : f.Follows g a) (d : Nat) :
    (f.addStrand d).Follows (g.add a.preds d) { a with preds := [g.size] } := by
  have hn : f.continSpan + d = (g.add a.preds d).longest g.size := by
    rw [TimedDag.longest_add_new h.preds_lt, h.contin]
    omega
  exact h.continued hn (by omega) rfl rfl

theorem Follows.child (h : f.Follows g a) (isTask : Bool) :
    f.child.Follows g ⟨isTask, a.preds, []⟩ where
  preds_lt := h.preds_lt
  pend_lt x hx := by cases hx
  contin := h.contin
  nonneg := Int.le_refl _
  lchild_le := Int.le_refl _
  pend_le := Int.le_trans (Int.le_refl 0) (Int.le_max_right ..)

/-- A function returns: its continuation becomes the caller's. -/
theorem Follows.returned {b : Act} (hc : c.Follows g b) (hf : f.Follows g a)
    (hle : f.continSpan ≤ c.continSpan)
    (d : Nat) : (f.returned c d).Follows (g.add b.preds d) { a with preds := [g.size] } := by
  have hn : c.continSpan + d = (g.add b.preds d).longest g.size := by
    rw [TimedDag.longest_add_new hc.preds_lt, hc.contin]
    omega
  exact hf.continued hn (by omega) rfl rfl

/-- A task ends: it is outstanding in its parent. -/
theorem Follows.taskEnded {b : Act} (hc : c.Follows g b) (hf : f.Follows g a) (r d burden : Nat) :
    (f.taskEnded (c.addStrand d) burden).Follows (g.add b.preds d)
    { a with pend := (r, g.size) :: a.pend } := by
  have hn : c.continSpan + d = (g.add b.preds d).longest g.size := by
    rw [TimedDag.longest_add_new hc.preds_lt, hc.contin]
    omega
  have ha := hf.add b.preds d
  have hl :
      (f.taskEnded (c.addStrand d) burden).lchildSpan = max f.lchildSpan (c.continSpan + d) := by
    simp only [Frame.taskEnded, Frame.addStrand]
    omega
  have h₁ := ha.nonneg
  have h₂ := ha.lchild_le
  have h₃ := ha.pend_le
  refine ⟨ha.preds_lt, fun x hx => ?_, ha.contin, ?_, ?_, ?_⟩
  · simp only [List.mem_cons] at hx
    rcases hx with rfl | hx
    · exact Nat.lt_succ_self _
    · exact ha.pend_lt x hx
  · rw [hl]
    omega
  · rw [hl, List.map_cons, TimedDag.latest_cons]
    simp only
    omega
  · rw [hl, List.map_cons, TimedDag.latest_cons, show (f.taskEnded _ burden).continSpan =
      f.continSpan from rfl]
    simp only
    omega

theorem join_continSpan (f : Frame) : f.join.continSpan = max f.continSpan f.lchildSpan := by
  simp only [join]
  split <;> omega

end Frame

theorem Act.latest_pend (g : TimedDag) (p : Nat → Bool) (l : List (Nat × Nat)) :
    g.latest (l.map (·.2)) =
      max (g.latest ((l.filter fun x => p x.1).map (·.2)))
      (g.latest ((l.filter fun x => !p x.1).map (·.2))) := by
  induction l with
  | nil => rfl
  | cons x l ih =>
    cases hx : p x.1
    · simp only [List.filter_cons, hx, List.map_cons, TimedDag.latest_cons, ih, Bool.not_false,
        Bool.false_eq_true, if_false, if_true]
      omega
    · simp only [List.filter_cons, hx, List.map_cons, TimedDag.latest_cons, ih, Bool.not_true,
        Bool.false_eq_true, if_false, if_true]
      omega

/-- The tasks that stay outstanding end no later than what the join waits for. -/
theorem Act.left_le_iff {g : TimedDag} {a : Act} {p : Nat → Bool} {n : Nat} :
    g.latest ((a.join p).pend.map (·.2)) ≤ n ↔ ∀ x ∈ a.pend, p x.1 = false → g.longest x.2 ≤ n := by
  rw [TimedDag.latest_le]
  simp only [join, List.mem_map, List.mem_filter]
  constructor
  · intro h x hx hp
    exact h x.2 ⟨x, ⟨hx, by simp [hp]⟩, rfl⟩
  · intro h v hv
    obtain ⟨x, ⟨hx, hp⟩, rfl⟩ := hv
    exact h x hx (by simpa using hp)

/-- The tool joins all regions, which is right when the tasks of those not
synced end early enough. -/
theorem Frame.Follows.join_exact_iff {f : Frame} {g : TimedDag} {a : Act} (h : f.Follows g a)
    (p : Nat → Bool) : f.join.continSpan = g.latest (a.join p).preds ↔
      ∀ x ∈ a.pend, p x.1 = false → g.longest x.2 ≤ g.latest (a.join p).preds := by
  rw [← Act.left_le_iff, f.join_continSpan]
  have h₁ := h.contin
  have h₂ := h.lchild_le
  have h₃ := h.pend_le
  rw [Act.latest_pend g p] at h₂ h₃
  simp only [Act.join, TimedDag.latest_append]
  omega

theorem Frame.Follows.join {f : Frame} {g : TimedDag} {a : Act} (h : f.Follows g a) {p : Nat → Bool}
    (hok : ∀ x ∈ a.pend, p x.1 = false → g.longest x.2 ≤ g.latest (a.join p).preds) :
    f.join.Follows g (a.join p) where
  preds_lt v hv := by
    rcases List.mem_append.1 hv with hv | hv
    · exact h.preds_lt v hv
    · obtain ⟨x, hx, rfl⟩ := List.mem_map.1 hv
      exact h.pend_lt x (List.mem_filter.1 hx).1
  pend_lt x hx := h.pend_lt x (List.mem_filter.1 hx).1
  contin := (h.join_exact_iff p).2 hok
  nonneg := Int.le_refl _
  lchild_le := Int.natCast_nonneg _
  pend_le := by
    have hle := Act.left_le_iff.2 hok
    rw [(h.join_exact_iff p).2 hok]
    omega

/-- Where all tasks are joined the tool is right. -/
theorem Frame.Follows.joinAll {f : Frame} {g : TimedDag} {a : Act} (h : f.Follows g a) :
    f.join.Follows g (a.join fun _ => true) :=
  h.join fun _ _ hx => Bool.noConfusion hx

/-! ## Runs -/

/-- A bottom frame with a longer span is still above its callers. -/
theorem nested_bot {f f' : Frame} {fs : List Frame}
    (h : (f :: fs).Pairwise fun f p => p.continSpan ≤ f.continSpan)
    (hle : f.continSpan ≤ f'.continSpan) :
    (f' :: fs).Pairwise fun f p => p.continSpan ≤ f.continSpan := by
  rw [List.pairwise_cons] at h ⊢
  exact ⟨fun p hp => (h.1 p hp).trans hle, h.2⟩

namespace Regions

variable {s s' : Regions} {t : ShadowStack}

theorem exact_iff : s.Exact t ↔ t.bot.continSpan = s.dag.latest s.bot.preds := by
  constructor
  · intro h
    obtain ⟨n, hn, hg⟩ := h
    rw [hn, hg.unique (s.dag.isGreatest_latest _)]
  · intro h
    exact ⟨_, h, s.dag.isGreatest_latest _⟩

theorem Follows.endStrand (h : s.Follows t) (d : Nat) :
    (s.endStrand d).Follows (t.addStrand d) where
  bot := h.bot.addStrand d
  frames := h.frames.imp fun _ _ hf => hf.add _ _
  nested := by
    have hle : t.bot.continSpan ≤ t.bot.continSpan + d := by omega
    exact nested_bot h.nested hle

theorem Follows.enter (h : s.Follows t) (isTask : Bool) :
    (s.enter isTask).Follows (t.push t.bot.child) where
  bot := h.bot.child isTask
  frames := .cons h.bot h.frames
  nested := by
    rw [ShadowStack.push, List.pairwise_cons]
    refine ⟨fun p hp => ?_, h.nested⟩
    rcases List.mem_cons.1 hp with rfl | hp
    · exact Int.le_refl _
    · exact (List.pairwise_cons.1 h.nested).1 p hp

theorem Follows.join (h : s.Follows t) {p : Nat → Bool}
    (hb : t.bot.join.Follows s.dag (s.bot.join p)) : (s.join p).Follows (t.setBot t.bot.join) where
  bot := hb
  frames := h.frames
  nested := by
    have hle : t.bot.continSpan ≤ t.bot.join.continSpan := by
      rw [Frame.join_continSpan]
      omega
    exact nested_bot h.nested hle

theorem Follows.exitFunc (h : s.Follows t) {d : Nat} (hs : s.exitFunc d = some s') :
    ∃ t', t.funcExit true d = some t' ∧ s'.Follows t' := by
  obtain ⟨g, a, as⟩ := s
  obtain ⟨c, fs⟩ := t
  obtain ⟨hbot, hframes, hnested⟩ := h
  cases hframes with
  | nil => cases hs
  | @cons f p fs as hf hfs =>
    simp only [Regions.exitFunc] at hs
    split at hs
    · cases hs
      rw [List.pairwise_cons] at hnested
      have hle : f.continSpan ≤ c.continSpan := hnested.1 f (List.mem_cons_self ..)
      have hle' : f.continSpan ≤ c.continSpan + d := by omega
      exact ⟨_, rfl, hbot.returned hf hle d, hfs.imp fun _ _ hf => hf.add _ _,
        nested_bot hnested.2 hle'⟩
    · cases hs

theorem Follows.exitTask (h : s.Follows t) (burden : Nat) {r d : Nat}
    (hs : s.exitTask r d = some s') : ∃ t', t.taskExit burden d = some t' ∧ s'.Follows t' := by
  obtain ⟨g, a, as⟩ := s
  obtain ⟨c, fs⟩ := t
  obtain ⟨hbot, hframes, hnested⟩ := h
  cases hframes with
  | nil => cases hs
  | @cons f p fs as hf hfs =>
    simp only [Regions.exitTask] at hs
    split at hs
    · cases hs
      rw [List.pairwise_cons] at hnested
      exact ⟨_, rfl, hbot.taskEnded hf r d burden, hfs.imp fun _ _ hf => hf.add _ _,
        nested_bot hnested.2 (Int.le_refl _)⟩
    · cases hs

/-- **A step**: the tool goes on, is right unless the step is a sync that comes
too early for another region, and wrong if it is. -/
theorem Follows.step (h : s.Follows t) (burden : Nat) {x : Hook × Nat} (hs : s.step x = some s') :
    ∃ t', t.step burden x.1 = some t' ∧ (s.SyncOk x → s'.Follows t') ∧
    (s'.Exact t' → s.SyncOk x) := by
  obtain ⟨hook, r⟩ := x
  cases hook with
  | funcEntry maySpawn d =>
    cases maySpawn with
    | true =>
      cases hs
      exact ⟨_, rfl, fun _ => (h.endStrand d).enter false, fun _ => trivial⟩
    | false =>
      cases hs
      exact ⟨_, rfl, fun _ => h, fun _ => trivial⟩
  | funcExit maySpawn d =>
    cases maySpawn with
    | true =>
      obtain ⟨t', ht, h'⟩ := h.exitFunc hs
      exact ⟨t', ht, fun _ => h', fun _ => trivial⟩
    | false =>
      cases hs
      exact ⟨_, rfl, fun _ => h, fun _ => trivial⟩
  | task =>
    cases hs
    exact ⟨_, rfl, fun _ => h.enter true, fun _ => trivial⟩
  | taskExit d =>
    obtain ⟨t', ht, h'⟩ := h.exitTask burden hs
    exact ⟨t', ht, fun _ => h', fun _ => trivial⟩
  | detachContinue isUnwind =>
    cases isUnwind with
    | true =>
      cases hs
      exact ⟨_, rfl, fun _ => h.join h.bot.joinAll, fun _ => trivial⟩
    | false =>
      cases hs
      -- only the burdened span changes
      have hb : (t.bot.addBurden burden).Follows s.dag s.bot :=
        ⟨h.bot.1, h.bot.2, h.bot.3, h.bot.4, h.bot.5, h.bot.6⟩
      exact ⟨_, rfl, fun _ => ⟨hb, h.frames, nested_bot h.nested (Int.le_refl _)⟩, fun _ => trivial⟩
  | detach d | beforeSync d | destroy d =>
    cases hs
    exact ⟨_, rfl, fun _ => h.endStrand d, fun _ => trivial⟩
  | afterSync =>
    cases hs
    have hiff : s.SyncOk (.afterSync, r) ↔
        t.bot.join.continSpan = s.dag.latest (s.bot.join (· == r)).preds := by
      rw [h.bot.join_exact_iff]
      simp only [SyncOk, beq_eq_false_iff_ne]
    refine ⟨_, rfl, fun hok => h.join (h.bot.join ?_), fun he => hiff.2 (exact_iff.1 he)⟩
    exact (h.bot.join_exact_iff _).1 (hiff.1 hok)

/-- **A run**: the tool is right after each hook when the syncs of the run come late enough, and
only then. -/
theorem Follows.run (burden : Nat) (hooks : List (Hook × Nat)) :
    ∀ {s : Regions} {t : ShadowStack}, s.Follows t →
    ((∀ pre, pre <+: hooks → ∀ s', s.run pre = some s' →
      ∃ t', t.run burden (pre.map (·.1)) = some t' ∧ s'.Exact t') ↔ s.SyncsOk hooks) := by
  induction hooks with
  | nil =>
    intro s t h
    refine ⟨fun _ => trivial, fun _ pre hpre s' hs => ?_⟩
    obtain rfl := List.prefix_nil.1 hpre
    cases hs
    exact ⟨t, rfl, exact_iff.2 h.bot.contin⟩
  | cons x hooks ih =>
    intro s t h
    constructor
    · intro hall
      have hok : s.SyncOk x := by
        cases hx : s.step x with
        | none =>
          obtain ⟨hook, r⟩ := x
          cases hook with
          | afterSync => cases hx
          | _ => trivial
        | some s' =>
          obtain ⟨t', ht, _, hexact⟩ := h.step burden hx
          obtain ⟨t₁, ht₁, he⟩ := hall [x] (by simp) s' (by simp [Regions.run, hx])
          have heq : t₁ = t' := by simpa [ShadowStack.run, ht] using ht₁.symm
          exact hexact (heq ▸ he)
      refine ⟨hok, fun s' hx => ?_⟩
      obtain ⟨t', ht, hf, _⟩ := h.step burden hx
      refine (ih (hf hok)).1 fun pre hpre s₁ hs₁ => ?_
      obtain ⟨t₁, ht₁, he⟩ := hall (x :: pre) (List.cons_prefix_cons.2 ⟨rfl, hpre⟩) s₁ (by
        simpa [Regions.run, hx] using hs₁)
      exact ⟨t₁, by simpa [ShadowStack.run, ht] using ht₁, he⟩
    · intro hok pre hpre s₁ hs₁
      cases pre with
      | nil =>
        cases hs₁
        exact ⟨t, rfl, exact_iff.2 h.bot.contin⟩
      | cons y pre =>
        obtain ⟨rfl, hpre'⟩ := List.cons_prefix_cons.1 hpre
        cases hx : s.step y with
        | none => simp [Regions.run, hx] at hs₁
        | some s' =>
          obtain ⟨t', ht, hf, _⟩ := h.step burden hx
          obtain ⟨t₁, ht₁, he⟩ := (ih (hf hok.1)).2 (hok.2 s' hx) pre hpre' s₁ (by
            simpa [Regions.run, hx] using hs₁)
          exact ⟨t₁, by simpa [ShadowStack.run, ht] using ht₁, he⟩

theorem follows_initial : initial.Follows .initial where
  bot := ⟨fun _ hv => (by cases hv), fun _ hx => (by cases hx), rfl, Int.le_refl _, Int.le_refl _,
    Int.le_refl _⟩
  frames := .nil
  nested := List.pairwise_singleton ..

end Regions

/-- **Cilkscale's span with several sync regions** is the longest path of the
graph in which a sync waits only for its own region, as long as each sync waits
for nothing shorter than the tasks of other regions. -/
theorem spansExact_iff (burden : Nat) (hooks : List (Hook × Nat)) :
    SpansExact burden hooks ↔ Regions.initial.SyncsOk hooks :=
  Regions.follows_initial.run burden hooks

/-- A short task of one region, a long one of another, and a strand between the two syncs. -/
def twoRegions : List (Hook × Nat) :=
  [(.detach 0, 0), (.task, 0), (.taskExit 1, 0), (.detachContinue false, 0),
    (.detach 0, 1), (.task, 1), (.taskExit 10, 1), (.detachContinue false, 1),
    (.beforeSync 0, 0), (.afterSync, 0), (.beforeSync 5, 1), (.afterSync, 1)]

/-- The first sync joins the long task too, and the strand comes after it: 15 where the longest path
is 10. -/
theorem not_spansExact : ¬ SpansExact 0 twoRegions := by
  intro h
  have htool : (ShadowStack.initial.run 0 (twoRegions.map (·.1))).map (·.bot.continSpan) =
      some 15 := by decide
  have hdag : (Regions.initial.run twoRegions).map (fun s => s.dag.latest s.bot.preds) =
      some 10 := by decide
  cases hs : Regions.initial.run twoRegions with
  | none => rw [hs] at hdag; cases hdag
  | some s =>
    obtain ⟨t, ht, he⟩ := h twoRegions (List.prefix_refl _) s hs
    rw [hs, Option.map_some, Option.some.injEq] at hdag
    rw [ht, Option.map_some, Option.some.injEq] at htool
    have heq := Regions.exact_iff.1 he
    rw [htool, hdag] at heq
    omega

end Cilkscale
