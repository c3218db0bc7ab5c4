/-
Cilkscale's probes (`wsp_getworkspan`), and what the tool returns at a point of
a run: the work before it and the spans up to it.
-/
import CilkTools.Cilkscale.RegionWork

namespace Cilkscale

open TimedDag (Grows)

/-- `wsp_t`. -/
structure Wsp where
  work : Int
  span : Int
  bspan : Int
  deriving DecidableEq, Repr

namespace Wsp

/-- `wsp_add`, and `operator+=`. -/
def add (l r : Wsp) : Wsp := ⟨l.work + r.work, l.span + r.span, l.bspan + r.bspan⟩

/-- `wsp_sub`, and `operator-=`. -/
def sub (l r : Wsp) : Wsp := ⟨l.work - r.work, l.span - r.span, l.bspan - r.bspan⟩

end Wsp

/-- A hook, with its sync region, or a call of the tool by the program. -/
inductive ProbeHook
  | hook (h : Hook) (syncReg : Nat)
  | getworkspan (strandTime : Nat)
  | print (strandTime : Nat)
  deriving DecidableEq, Repr

namespace ShadowStack

/-- `wsp_getworkspan`. -/
def getworkspan (s : ShadowStack) (strandTime : Nat) : Wsp × ShadowStack :=
  let s := s.addStrand strandTime
  (⟨s.bot.continWork, s.bot.continSpan, s.bot.continBspan⟩, s)

/-- `operator<<` and `wsp_dump`, which print what they are given. -/
def print (s : ShadowStack) (strandTime : Nat) : ShadowStack := s.addStrand strandTime

end ShadowStack

/-- The tool, and what its probes have returned. -/
structure Probed where
  stack : ShadowStack
  results : List Wsp := []
  deriving DecidableEq, Repr

namespace Probed

def initial : Probed := ⟨.initial, []⟩

def step (burden : Nat) (t : Probed) : ProbeHook → Option Probed
  | .hook h _ => (t.stack.step burden h).map fun stack => { t with stack }
  | .getworkspan strandTime =>
    let (w, stack) := t.stack.getworkspan strandTime
    some ⟨stack, t.results ++ [w]⟩
  | .print strandTime => some { t with stack := t.stack.print strandTime }

def run (burden : Nat) (t : Probed) (hooks : List ProbeHook) : Option Probed :=
  hooks.foldlM (step burden) t

end Probed

/-- The program's graph, and the strands that its probes have ended. -/
structure ProbedRegions where
  regions : Regions
  probes : List Nat := []

namespace ProbedRegions

def initial : ProbedRegions := ⟨.initial, []⟩

/-- The strand that a probe ends. -/
def getworkspan (s : ProbedRegions) (strandTime : Nat) : ProbedRegions :=
  ⟨s.regions.endStrand strandTime, s.probes ++ [s.regions.dag.size]⟩

def step (s : ProbedRegions) : ProbeHook → Option ProbedRegions
  | .hook h syncReg => (s.regions.step (h, syncReg)).map fun regions => { s with regions }
  | .getworkspan strandTime => some (s.getworkspan strandTime)
  | .print strandTime => some { s with regions := s.regions.endStrand strandTime }

def run (s : ProbedRegions) (hooks : List ProbeHook) : Option ProbedRegions := hooks.foldlM step s

/-- A sync leaves no task of another region outstanding. -/
def JoinOk (s : ProbedRegions) : ProbeHook → Prop
  | .hook .afterSync syncReg => ∀ x ∈ s.regions.bot.pend, x.1 = syncReg
  | _ => True

def JoinsOk (s : ProbedRegions) : List ProbeHook → Prop
  | [] => True
  | h :: hooks => s.JoinOk h ∧ ∀ s' ∈ s.step h, s'.JoinsOk hooks

instance decidableJoinOk (s : ProbedRegions) : (h : ProbeHook) → Decidable (s.JoinOk h)
  | .hook .afterSync syncReg =>
    inferInstanceAs (Decidable (∀ x ∈ s.regions.bot.pend, x.1 = syncReg))
  | .hook (.funcEntry ..) _ | .hook (.funcExit ..) _ | .hook (.detach _) _ | .hook .task _ | .hook
    (.taskExit _) _
  | .hook (.detachContinue _) _ | .hook (.beforeSync _) _ | .hook (.destroy _) _ |
      .getworkspan _ | .print _ =>
    inferInstanceAs (Decidable True)

instance decidableJoinsOk (s : ProbedRegions) : (hooks : List ProbeHook) →
    Decidable (s.JoinsOk hooks)
  | [] => inferInstanceAs (Decidable True)
  | h :: hooks =>
    have := fun s' => decidableJoinsOk s' hooks
    inferInstanceAs (Decidable (s.JoinOk h ∧ ∀ s' ∈ s.step h, s'.JoinsOk hooks))

end ProbedRegions

namespace ProbeHook

/-- The program as it would run with the burden: a task takes it at its end, and
a strand that takes it comes first in the continuation of a spawn. -/
def burdened (burden : Nat) : ProbeHook → List ProbeHook
  | .hook (.taskExit strandTime) r => [.hook (.taskExit (strandTime + burden)) r]
  | .hook (.detachContinue false) r => [.hook (.detachContinue false) r, .print burden]
  | h => [h]

end ProbeHook

/-! ## The burdened program -/

def Act.Alike (a b : Act) : Prop := a.isTask = b.isTask ∧ a.pend.map (·.1) = b.pend.map (·.1)

/-- The same functions and tasks, with the same tasks outstanding. -/
structure Regions.Alike (s sb : Regions) : Prop where
  bot : s.bot.Alike sb.bot
  acts : List.Forall₂ Act.Alike s.acts sb.acts

/-- The burdened spans of one are the spans of the other. -/
def Frame.Agrees (f fb : Frame) : Prop :=
  f.continBspan = fb.continSpan ∧ f.lchildBspan = fb.lchildSpan

structure ShadowStack.Agrees (t tb : ShadowStack) : Prop where
  bot : t.bot.Agrees tb.bot
  frames : List.Forall₂ Frame.Agrees t.frames tb.frames

/-! ## The graph grows -/

theorem Regions.step_grows {s s' : Regions} {x : Hook × Nat} (hs : s.step x = some s') :
    Grows s.dag s'.dag := by
  obtain ⟨h, r⟩ := x
  have hadd : ∀ d, Grows s.dag (s.endStrand d).dag := fun d => (Grows.refl _).add _ d
  cases h with
  | funcEntry maySpawn d =>
    cases maySpawn <;> cases hs
    · exact .refl _
    · exact hadd d
  | funcExit maySpawn d =>
    cases maySpawn with
    | false => cases hs; exact .refl _
    | true =>
      obtain ⟨g, b, as⟩ := s
      cases as with
      | nil => cases hs
      | cons a as =>
        simp only [step, if_true, exitFunc] at hs
        split at hs
        · cases hs; exact hadd d
        · cases hs
  | taskExit d =>
    obtain ⟨g, b, as⟩ := s
    cases as with
    | nil => cases hs
    | cons a as =>
      simp only [step, exitTask] at hs
      split at hs
      · cases hs; exact hadd d
      · cases hs
  | detachContinue isUnwind => cases isUnwind <;> cases hs <;> exact .refl _
  | task | afterSync => cases hs; exact .refl _
  | detach d | beforeSync d | destroy d => cases hs; exact hadd d

theorem ProbedRegions.step_grows {s s' : ProbedRegions} {x : ProbeHook} (hs : s.step x = some s') :
    Grows s.regions.dag s'.regions.dag := by
  cases x with
  | hook h r =>
    obtain ⟨regions, hr, rfl⟩ := Option.map_eq_some_iff.1 hs
    exact Regions.step_grows hr
  | getworkspan d | print d =>
    cases hs
    exact (Grows.refl _).add _ d

theorem ProbedRegions.run_grows {hooks : List ProbeHook} :
    ∀ {s s' : ProbedRegions}, s.run hooks = some s' → Grows s.regions.dag s'.regions.dag := by
  induction hooks with
  | nil =>
    intro s s' hs
    cases hs
    exact .refl _
  | cons x hooks ih =>
    intro s s' hs
    obtain ⟨s₁, hs₁, hs⟩ := Option.bind_eq_some_iff.1 hs
    exact (step_grows hs₁).trans (ih hs)

/-! ## The burdened program beside the program -/

theorem Act.Alike.join {a b : Act} (h : a.Alike b) (r : Nat → Bool) :
    (a.join r).Alike (b.join r) := by
  have hfilter : ∀ l : List (Nat × Nat), (l.filter fun x => !r x.1).map (·.1) =
      (l.map (·.1)).filter fun x => !r x := fun l => by
    rw [List.filter_map]
    rfl
  refine ⟨h.1, ?_⟩
  rw [Act.join, Act.join, hfilter, hfilter, h.2]

theorem Act.Alike.pend_eq_nil {a b : Act} (h : a.Alike b) : a.pend = [] ↔ b.pend = [] := by
  rw [← List.map_eq_nil_iff, h.2, List.map_eq_nil_iff]

theorem Act.Alike.all_pend {a b : Act} (h : a.Alike b) {r : Nat → Bool}
    (hr : ∀ x ∈ a.pend, r x.1 = true) : ∀ x ∈ b.pend, r x.1 = true := by
  intro x hx
  have hmem : x.1 ∈ a.pend.map (·.1) := h.2 ▸ List.mem_map_of_mem hx
  obtain ⟨y, hy, heq⟩ := List.mem_map.1 hmem
  exact heq ▸ hr y hy

theorem Regions.exitFunc_eq {g : TimedDag} {a p : Act} {ps : List Act} {d : Nat}
    (h : a.isTask = false ∧ a.pend = []) :
    (⟨g, a, p :: ps⟩ : Regions).exitFunc d =
    some ⟨g.add a.preds d, { p with preds := [g.size] }, ps⟩ :=
  if_pos h

theorem Regions.exitTask_eq {g : TimedDag} {a p : Act} {ps : List Act} {r d : Nat}
    (h : a.isTask = true ∧ a.pend = []) :
    (⟨g, a, p :: ps⟩ : Regions).exitTask r d =
    some ⟨g.add a.preds d, { p with pend := (r, g.size) :: p.pend }, ps⟩ :=
  if_pos h

/-- The burdened program goes the same way, and the tool's burdened spans are its spans. -/
structure Burdens (s sb : Regions) (t : ShadowStack) : Prop where
  alike : s.Alike sb
  spans : ∃ tb, sb.Follows tb ∧ t.Agrees tb

namespace Burdens

variable {s s' sb : Regions} {t t' : ShadowStack}

theorem endStrand (h : Burdens s sb t) (d : Nat) :
    Burdens (s.endStrand d) (sb.endStrand d) (t.addStrand d) := by
  obtain ⟨⟨hbot, hacts⟩, tb, hf, ha⟩ := h
  exact ⟨⟨hbot, hacts⟩, _, hf.endStrand d, ⟨congrArg (· + (d : Int)) ha.bot.1, ha.bot.2⟩, ha.frames⟩

theorem enter (h : Burdens s sb t) (isTask : Bool) :
    Burdens (s.enter isTask) (sb.enter isTask) (t.push t.bot.child) := by
  obtain ⟨⟨hbot, hacts⟩, tb, hf, ha⟩ := h
  exact ⟨⟨⟨rfl, rfl⟩, .cons hbot hacts⟩, _, hf.enter isTask, ⟨ha.bot.1, rfl⟩,
    .cons ha.bot ha.frames⟩

theorem join (h : Burdens s sb t) {r : Nat → Bool} (hr : ∀ x ∈ s.bot.pend, r x.1 = true) :
    Burdens (s.join r) (sb.join r) (t.setBot t.bot.join) := by
  obtain ⟨⟨hbot, hacts⟩, tb, hf, ha⟩ := h
  have hrb := hbot.all_pend hr
  refine ⟨⟨hbot.join r, hacts⟩, _, hf.join (hf.bot.join fun x hx hn => ?_), ⟨?_, rfl⟩, ha.frames⟩
  · rw [hrb x hx] at hn
    cases hn
  · show t.bot.join.continBspan = tb.bot.join.continSpan
    simp only [Frame.join, ha.bot.1, ha.bot.2]

/-- The continuation of a spawn. -/
theorem addBurden (h : Burdens s sb t) (burden : Nat) :
    Burdens s (sb.endStrand burden) (t.setBot (t.bot.addBurden burden)) := by
  obtain ⟨⟨hbot, hacts⟩, tb, hf, ha⟩ := h
  exact ⟨⟨hbot, hacts⟩, _, hf.endStrand burden,
    ⟨congrArg (· + (burden : Int)) ha.bot.1, ha.bot.2⟩, ha.frames⟩

theorem exitFunc (h : Burdens s sb t) {d : Nat} (hs : s.exitFunc d = some s')
    (ht : t.funcExit true d = some t') : ∃ sb', sb.exitFunc d = some sb' ∧ Burdens s' sb' t' := by
  obtain ⟨⟨hbot, hacts⟩, tb, hf, ha⟩ := h
  obtain ⟨g, b, as⟩ := s
  obtain ⟨gb, bb, asb⟩ := sb
  obtain ⟨c, fs⟩ := t
  obtain ⟨cb, fsb⟩ := tb
  cases hacts with
  | nil => cases hs
  | @cons a ab as asb hab habs =>
    simp only [Regions.exitFunc] at hs
    split at hs
    · next hok =>
      cases hs
      have hokb : bb.isTask = false ∧ bb.pend = [] := ⟨hbot.1 ▸ hok.1, hbot.pend_eq_nil.1 hok.2⟩
      have hsb : (⟨gb, bb, ab :: asb⟩ : Regions).exitFunc d = _ := Regions.exitFunc_eq hokb
      obtain ⟨tb', htb, hfb⟩ := hf.exitFunc hsb
      refine ⟨_, hsb, ⟨hab, habs⟩, tb', hfb, ?_⟩
      cases ha.frames with
      | nil => cases ht
      | cons hff hfs =>
        cases ht
        cases htb
        exact ⟨⟨congrArg (· + (d : Int)) ha.bot.1, hff.2⟩, hfs⟩
    · cases hs

theorem exitTask (h : Burdens s sb t) {burden r d : Nat} (hs : s.exitTask r d = some s')
    (ht : t.taskExit burden d = some t') :
    ∃ sb', sb.exitTask r (d + burden) = some sb' ∧ Burdens s' sb' t' := by
  obtain ⟨⟨hbot, hacts⟩, tb, hf, ha⟩ := h
  obtain ⟨g, b, as⟩ := s
  obtain ⟨gb, bb, asb⟩ := sb
  obtain ⟨c, fs⟩ := t
  obtain ⟨cb, fsb⟩ := tb
  cases hacts with
  | nil => cases hs
  | @cons a ab as asb hab habs =>
    simp only [Regions.exitTask] at hs
    split at hs
    · next hok =>
      cases hs
      have hokb : bb.isTask = true ∧ bb.pend = [] := ⟨hbot.1 ▸ hok.1, hbot.pend_eq_nil.1 hok.2⟩
      have hsb : (⟨gb, bb, ab :: asb⟩ : Regions).exitTask r (d + burden) = _ :=
        Regions.exitTask_eq hokb
      obtain ⟨tb', htb, hfb⟩ := hf.exitTask 0 hsb
      refine ⟨_, hsb, ⟨⟨hab.1, congrArg (r :: ·) hab.2⟩, habs⟩, tb', hfb, ?_⟩
      cases ha.frames with
      | nil => cases ht
      | @cons f fb _ _ hff hfs =>
        cases ht
        cases htb
        refine ⟨⟨hff.1, ?_⟩, hfs⟩
        have h₁ := ha.bot.1
        have h₂ := hff.2
        show (if c.continBspan + d + burden > f.lchildBspan then c.continBspan + d +
          burden else f.lchildBspan) =
          if cb.continSpan + ((d + burden : Nat) : Int) > fb.lchildSpan then cb.continSpan +
            ((d + burden : Nat) : Int) else fb.lchildSpan
        simp only at h₁
        rw [h₁, h₂, Int.natCast_add, Int.add_assoc]
    · cases hs

end Burdens

/-! ## Steps -/

/-- The tool's sums are those of the program, up to the strand that is there. -/
structure Sums (s sb : Regions) (t : ShadowStack) : Prop where
  works : s.Works t
  spans : s.Follows t
  burdens : Burdens s sb t

namespace Sums

variable {s s' sb : Regions} {t : ShadowStack}

theorem init : Sums .initial .initial .initial :=
  ⟨.init, Regions.follows_initial,
    ⟨⟨⟨rfl, rfl⟩, .nil⟩, _, Regions.follows_initial, ⟨rfl, rfl⟩, .nil⟩⟩

theorem endStrand (h : Sums s sb t) (d : Nat) :
    Sums (s.endStrand d) (sb.endStrand d) (t.addStrand d) :=
  ⟨h.works.endStrand d, h.spans.endStrand d, h.burdens.endStrand d⟩

theorem enter (h : Sums s sb t) (isTask : Bool) :
    Sums (s.enter isTask) (sb.enter isTask) (t.push t.bot.child) :=
  ⟨h.works.enter isTask, h.spans.enter isTask, h.burdens.enter isTask⟩

theorem join (h : Sums s sb t) {r : Nat → Bool} (hr : ∀ x ∈ s.bot.pend, r x.1 = true) :
    Sums (s.join r) (sb.join r) (t.setBot t.bot.join) := by
  refine ⟨h.works.join hr, h.spans.join (h.spans.bot.join fun x hx hn => ?_), h.burdens.join hr⟩
  rw [hr x hx] at hn
  cases hn

theorem addBurden (h : Sums s sb t) (burden : Nat) :
    Sums s (sb.endStrand burden) (t.setBot (t.bot.addBurden burden)) := by
  have hf := h.spans
  have hb : (t.bot.addBurden burden).Follows s.dag s.bot :=
    ⟨hf.bot.preds_lt, hf.bot.pend_lt, hf.bot.contin, hf.bot.nonneg, hf.bot.lchild_le,
      hf.bot.pend_le⟩
  exact ⟨h.works.addBurden burden, ⟨hb, hf.frames, nested_bot hf.nested (Int.le_refl _)⟩,
    h.burdens.addBurden burden⟩

theorem exitFunc (h : Sums s sb t) {d : Nat} (hs : s.exitFunc d = some s') :
    ∃ t' sb', t.funcExit true d = some t' ∧ sb.exitFunc d = some sb' ∧ Sums s' sb' t' := by
  obtain ⟨t', ht, hw⟩ := h.works.exitFunc hs
  obtain ⟨t₁, ht₁, hf⟩ := h.spans.exitFunc hs
  obtain rfl : t' = t₁ := Option.some.inj (ht.symm.trans ht₁)
  obtain ⟨sb', hsb, hb⟩ := h.burdens.exitFunc hs ht
  exact ⟨t', sb', ht, hsb, hw, hf, hb⟩

theorem exitTask (h : Sums s sb t) (burden : Nat) {r d : Nat} (hs : s.exitTask r d = some s') :
    ∃ t' sb', t.taskExit burden d = some t' ∧ sb.exitTask r (d + burden) = some sb' ∧
    Sums s' sb' t' := by
  obtain ⟨t', ht, hw⟩ := h.works.exitTask burden hs
  obtain ⟨t₁, ht₁, hf⟩ := h.spans.exitTask burden hs
  obtain rfl : t' = t₁ := Option.some.inj (ht.symm.trans ht₁)
  obtain ⟨sb', hsb, hb⟩ := h.burdens.exitTask hs ht
  exact ⟨t', sb', ht, hsb, hw, hf, hb⟩

/-- A hook, in the program and in the burdened program. -/
theorem hook (hi : Sums s sb t) (burden : Nat) {h : Hook} {r : Nat} (hs : s.step (h, r) = some s')
    (hok : h = .afterSync → ∀ x ∈ s.bot.pend, x.1 = r) :
    ∃ t' sb', t.step burden h = some t' ∧ Sums s' sb' t' ∧
      ∀ ps, (⟨sb, ps⟩ : ProbedRegions).run ((ProbeHook.hook h r).burdened burden) =
      some ⟨sb', ps⟩ := by
  cases h with
  | funcEntry maySpawn d =>
    cases maySpawn <;> cases hs
    · exact ⟨_, _, rfl, hi, fun _ => rfl⟩
    · exact ⟨_, _, rfl, (hi.endStrand d).enter false, fun _ => rfl⟩
  | funcExit maySpawn d =>
    cases maySpawn with
    | false =>
      cases hs
      exact ⟨_, _, rfl, hi, fun _ => rfl⟩
    | true =>
      obtain ⟨t', sb', ht, hsb, hi'⟩ := hi.exitFunc hs
      refine ⟨t', sb', ht, hi', fun ps => ?_⟩
      simp [ProbeHook.burdened, ProbedRegions.run, ProbedRegions.step, Regions.step, hsb]
  | task =>
    cases hs
    exact ⟨_, _, rfl, hi.enter true, fun _ => rfl⟩
  | taskExit d =>
    obtain ⟨t', sb', ht, hsb, hi'⟩ := hi.exitTask burden hs
    refine ⟨t', sb', ht, hi', fun ps => ?_⟩
    simp [ProbeHook.burdened, ProbedRegions.run, ProbedRegions.step, Regions.step, hsb]
  | detachContinue isUnwind =>
    cases isUnwind <;> cases hs
    · exact ⟨_, _, rfl, hi.addBurden burden, fun _ => rfl⟩
    · exact ⟨_, _, rfl, hi.join fun _ _ => rfl, fun _ => rfl⟩
  | afterSync =>
    cases hs
    exact ⟨_, _, rfl, hi.join fun x hx => beq_iff_eq.2 (hok rfl x hx), fun _ => rfl⟩
  | detach d | beforeSync d | destroy d =>
    cases hs
    exact ⟨_, _, rfl, hi.endStrand d, fun _ => rfl⟩

end Sums

/-- What a probe is to return that ends the strand `v`, `vb` in the burdened program. -/
structure Wsp.Exact (w : Wsp) (g gb : TimedDag) (v vb : Nat) : Prop where
  lt_size : v < g.size
  lt_burdened : vb < gb.size
  work : w.work = g.work [v]
  span : w.span = g.longest v
  bspan : w.bspan = gb.longest vb

theorem Wsp.Exact.grows {w : Wsp} {g g' gb gb' : TimedDag} {v vb : Nat} (h : w.Exact g gb v vb)
    (hg : Grows g g') (hgb : Grows gb gb') : w.Exact g' gb' v vb where
  lt_size := Nat.lt_of_lt_of_le h.lt_size hg.size_le
  lt_burdened := Nat.lt_of_lt_of_le h.lt_burdened hgb.size_le
  work := by rw [hg.work_eq h.lt_size, h.work]
  span := by rw [hg.longest_eq h.lt_size, h.span]
  bspan := by rw [hgb.longest_eq h.lt_burdened, h.bspan]

/-- A probe ends a strand, and returns what is before its end. -/
theorem Sums.getworkspan {s sb : Regions} {t : ShadowStack} (h : Sums s sb t) (d : Nat) :
    (t.getworkspan d).1.Exact (s.endStrand d).dag (sb.endStrand d).dag s.dag.size sb.dag.size := by
  have hs := h.endStrand d
  obtain ⟨tb, hb, ha⟩ := hs.burdens.spans
  refine ⟨Nat.lt_succ_self _, Nat.lt_succ_self _, hs.works.bot.contin, ?_, ?_⟩
  · refine hs.spans.bot.contin.trans ?_
    simp [Regions.endStrand]
  · refine (ha.bot.1.trans hb.bot.contin).trans ?_
    simp [Regions.endStrand]

/-- What the tool has returned so far, and has in its frames, is right. -/
structure Measures (s sb : ProbedRegions) (t : Probed) : Prop where
  sums : Sums s.regions sb.regions t.stack
  length : s.probes.length = sb.probes.length
  results :
    List.Forall₂ (fun w (x : Nat × Nat) => w.Exact s.regions.dag sb.regions.dag x.1 x.2) t.results
    (s.probes.zip sb.probes)

namespace Measures

variable {s s' sb : ProbedRegions} {t : Probed} {burden : Nat}

theorem init : Measures .initial .initial .initial := ⟨.init, rfl, .nil⟩

theorem getworkspan (h : Measures s sb t) (d : Nat) :
    Measures (s.getworkspan d) (sb.getworkspan d)
    ⟨t.stack.addStrand d, t.results ++ [(t.stack.getworkspan d).1]⟩ := by
  refine ⟨h.sums.endStrand d, by simp [ProbedRegions.getworkspan, h.length], ?_⟩
  rw [ProbedRegions.getworkspan, ProbedRegions.getworkspan, List.zip_append h.length]
  refine List.rel_append
    (h.results.imp fun _ _ hw => hw.grows ((Grows.refl _).add _ d) ((Grows.refl _).add _ d)) ?_
  exact .cons (h.sums.getworkspan d) .nil

theorem step (h : Measures s sb t) (burden : Nat) {x : ProbeHook} (hok : s.JoinOk x)
    (hs : s.step x = some s') :
    ∃ t' sb', t.step burden x = some t' ∧ sb.run (x.burdened burden) = some sb' ∧
    Measures s' sb' t' := by
  cases x with
  | hook x r =>
    obtain ⟨regions, hr, rfl⟩ := Option.map_eq_some_iff.1 hs
    obtain ⟨t', sb', ht, hi, hsb⟩ := h.sums.hook burden hr fun hx => by
      subst hx
      exact hok
    refine ⟨{ t with stack := t' }, ⟨sb', sb.probes⟩, by simp [Probed.step, ht], hsb sb.probes,
      hi, h.length, ?_⟩
    have hg := Regions.step_grows hr
    have hgb := ProbedRegions.run_grows (hsb sb.probes)
    exact h.results.imp fun _ _ hw => hw.grows hg hgb
  | getworkspan d =>
    cases hs
    exact ⟨_, _, rfl, rfl, h.getworkspan d⟩
  | print d =>
    cases hs
    refine ⟨_, _, rfl, rfl, h.sums.endStrand d, h.length, ?_⟩
    exact h.results.imp fun _ _ hw => hw.grows ((Grows.refl _).add _ d) ((Grows.refl _).add _ d)

theorem run {hooks : List ProbeHook} (h : Measures s sb t) (burden : Nat) (hok : s.JoinsOk hooks)
    (hs : s.run hooks = some s') :
    ∃ t' sb', t.run burden hooks = some t' ∧ sb.run (hooks.flatMap (·.burdened burden)) = some sb' ∧
    Measures s' sb' t' := by
  induction hooks generalizing s sb t with
  | nil =>
    cases hs
    exact ⟨t, sb, rfl, rfl, h⟩
  | cons x hooks ih =>
    obtain ⟨s₁, hs₁, hs⟩ := Option.bind_eq_some_iff.1 hs
    obtain ⟨t₁, sb₁, ht₁, hsb₁, h₁⟩ := h.step burden hok.1 hs₁
    obtain ⟨t', sb', ht', hsb', h'⟩ := ih h₁ (hok.2 s₁ hs₁) hs
    refine ⟨t', sb', Option.bind_eq_some_iff.2 ⟨t₁, ht₁, ht'⟩, ?_, h'⟩
    rw [List.flatMap_cons, ProbedRegions.run, List.foldlM_append]
    exact Option.bind_eq_some_iff.2 ⟨sb₁, hsb₁, hsb'⟩

end Measures

/-- The work and the spans up to the end of the strand `v`, `vb` in the burdened program. -/
structure Wsp.Totals (w : Wsp) (g gb : TimedDag) (v vb : Nat) : Prop where
  work : w.work = (g.work [v] : Nat)
  span : ∃ n : Nat, w.span = n ∧ IsGreatest (g.lengths v) n
  bspan : ∃ n : Nat, w.bspan = n ∧ IsGreatest (gb.lengths vb) n

/-- **The probes of a run.** Each returns the time of all strands that come before its end, and the
lengths of the
longest paths to there, in the program and in the burdened program. -/
theorem probes_exact (burden : Nat) {hooks : List ProbeHook} {s : ProbedRegions}
    (hok : ProbedRegions.initial.JoinsOk hooks)
    (hs : ProbedRegions.initial.run hooks = some s) :
    ∃ t sb, Probed.initial.run burden hooks = some t ∧
      ProbedRegions.initial.run (hooks.flatMap (·.burdened burden)) = some sb ∧
      s.probes.length = sb.probes.length ∧
      List.Forall₂ (fun (w : Wsp) (x : Nat × Nat) =>
          w.Totals s.regions.dag sb.regions.dag x.1 x.2)
        t.results (s.probes.zip sb.probes) := by
  obtain ⟨t, sb, ht, hsb, h⟩ := Measures.init.run burden hok hs
  refine ⟨t, sb, ht, hsb, h.length, h.results.imp fun w x hw => ?_⟩
  exact ⟨hw.work, ⟨_, hw.span, TimedDag.isGreatest_longest ..⟩, _, hw.bspan,
    TimedDag.isGreatest_longest ..⟩

/-- Two tasks are spawned and synced between the probes. -/
def twoTasks : List ProbeHook :=
  [.getworkspan 3, .hook (.detach 1) 0, .hook .task 0, .hook (.taskExit 10) 0,
    .hook (.detachContinue false) 0,
    .hook (.detach 2) 0, .hook .task 0, .hook (.taskExit 5) 0, .hook (.detachContinue false) 0,
    .hook (.beforeSync 4) 0, .hook .afterSync 0, .getworkspan 1]

theorem probes_exact_two : ∃ s, ProbedRegions.initial.run twoTasks = some s ∧
    ∃ t sb, Probed.initial.run 7 twoTasks = some t ∧
    ProbedRegions.initial.run (twoTasks.flatMap (·.burdened 7)) = some sb ∧
    s.probes.length = sb.probes.length ∧
    List.Forall₂ (fun (w : Wsp) (x : Nat × Nat) =>
        w.Totals s.regions.dag sb.regions.dag x.1 x.2)
      t.results (s.probes.zip sb.probes) :=
  ⟨_, rfl, probes_exact 7 (by decide) rfl⟩

example : (Probed.initial.run 7 twoTasks).map (·.results) = some [⟨3, 3, 3⟩, ⟨26, 15, 26⟩] := by
  decide

end Cilkscale
