/-
Programs without parallel loops that sync their regions last to first, as
nested scopes do: their strands are ordered in series and in parallel. Of three
strands that run one after the other, the first comes before the last only if
it comes before the middle one or that before the last.
-/
import CilkTools.Cilksan.Exactness
import CilkTools.Cilksan.StrandOrder
import CilkTools.SeriesParallel

namespace Cilksan

/-- What is left to other regions ran before all that is left to this one. -/
def Activation.Innermost (a : Activation) (r : Nat) : Prop :=
  ∀ r' < a.regions, r' ≠ r → ∀ x ∈ a.pend r, ∀ y ∈ a.pend r', y < x

instance (a : Activation) (r : Nat) : Decidable (a.Innermost r) :=
  inferInstanceAs (Decidable (∀ r' < a.regions, r' ≠ r → ∀ x ∈ a.pend r, ∀ y ∈ a.pend r', y < x))

namespace Program

/-- A sync is of the region spawned into last. -/
def SyncsInnermost (p : Program) : Hook → Prop
  | .sync r => ∀ a ∈ p.acts.head?, a.Innermost r
  | _ => True

/-- The ways a program goes on without parallel loops: what becomes of the
activations, and what the new strand follows. -/
inductive Proceeds (p p' : Program) : Prop
  | stay (hd : p'.dag = p.dag) (ha : p'.acts = p.acts)
  | next {a a' as} (hp : p.acts = a :: as) (ha : p'.acts = a' :: as)
      (hd : p'.dag = p.dag.add [a.cur])
      (hc : a'.cur = p.dag.size) (hk : a'.kind = a.kind) (hact : a'.active = a.active)
      (hpe : a'.pend = a.pend)
  | push {a a' as} (hp : p.acts = a :: as) (ha : p'.acts = a' :: a :: as)
      (hd : p'.dag = p.dag.add [a.cur])
      (hc : a'.cur = p.dag.size) (hact : a'.active = true) (hpe : ∀ r, a'.pend r = [])
  | ret {a b b' bs} (hp : p.acts = a :: b :: bs) (ha : p'.acts = b' :: bs)
      (hd : p'.dag = p.dag.add [a.cur])
      (hc : b'.cur = p.dag.size) (hk : b'.kind = b.kind) (hact : b'.active = b.active)
      (hpe : b'.pend = b.pend)
  | taskRet {a b b' bs r} (hp : p.acts = a :: b :: bs) (ha : p'.acts = b' :: bs)
      (hd : p'.dag = p.dag.add [b.cur])
      (hc : b'.cur = p.dag.size) (hk : b'.kind = b.kind) (hact : b'.active = b.active)
      (hs : a.kind = .spawned)
      (hpe : b'.pend = Function.update b.pend r (b.pend r ++ a.cur :: a.unsynced))
  | join {a a' as r} (hp : p.acts = a :: as) (ha : p'.acts = a' :: as)
      (hd : p'.dag = p.dag.add (a.cur :: a.pend r))
      (hc : a'.cur = p.dag.size) (hk : a'.kind = a.kind) (hact : a'.active = a.active)
      (hpe : a'.pend = Function.update a.pend r []) (hin : a.Innermost r)

variable {p p' : Program} {h : Hook}

theorem proceeds_of_step (hl : h.isLoop = false) (hn : p.SyncsInnermost h)
    (hs : p.step h = some p') : Proceeds p p' := by
  cases h with
  | loopBegin | loopIterationBegin | loopIterationEnd | loopEnd => cases hl
  | recordCall | recordCallReturn =>
    cases hs
    exact .stay rfl rfl
  | check i =>
    simp only [Program.step, Option.ite_none_right_eq_some, Option.some.injEq] at hs
    obtain ⟨-, rfl⟩ := hs
    exact .stay rfl rfl
  | detachContinue r | access acc =>
    simp only [Program.step, Option.ite_none_right_eq_some, detachContinue, access] at hs
    obtain ⟨-, hs⟩ := hs
    split at hs
    all_goals cases hs
    exact .stay rfl rfl
  | funcEntry m n =>
    simp only [Program.step, Option.ite_none_right_eq_some, funcEntry] at hs
    obtain ⟨-, hs⟩ := hs
    split at hs
    · next a as hp =>
      split at hs
      all_goals cases hs
      · exact .next hp rfl rfl rfl rfl rfl rfl
      · exact .push hp rfl rfl rfl rfl fun _ => rfl
    · cases hs
  | funcExit =>
    simp only [Program.step, Option.ite_none_right_eq_some, funcExit] at hs
    obtain ⟨-, hs⟩ := hs
    split at hs
    · next a as hp =>
      split at hs
      · cases hs
        exact .next hp rfl rfl rfl rfl rfl rfl
      · split at hs
        · split at hs
          all_goals cases hs
          exact .ret hp rfl rfl rfl rfl rfl rfl
        · cases hs
    · cases hs
  | task n =>
    simp only [Program.step, Option.ite_none_right_eq_some, task] at hs
    obtain ⟨-, hs⟩ := hs
    split at hs
    · next a as hp =>
      split at hs
      all_goals cases hs
      exact .push hp rfl rfl rfl rfl fun _ => rfl
    · cases hs
  | taskExit r =>
    simp only [Program.step, Option.ite_none_right_eq_some, taskExit] at hs
    obtain ⟨-, hs⟩ := hs
    split at hs
    · next a b bs hp =>
      split at hs
      · next hc =>
        cases hs
        exact .taskRet hp rfl rfl rfl rfl rfl hc.1 rfl
      · cases hs
    · cases hs
  | sync r =>
    simp only [Program.step, Option.ite_none_right_eq_some, sync] at hs
    obtain ⟨-, hs⟩ := hs
    split at hs
    · next a as hp =>
      split at hs
      all_goals cases hs
      exact .join hp rfl rfl rfl rfl rfl rfl (hn a (by rw [hp]; rfl))
    · cases hs

/-- The strands are in series and in parallel, as their order and the stack
of activations keep them. -/
structure Nested (p : Program) : Prop where
  loopFree : p.LoopFree
  active : ∀ a ∈ p.acts, a.active = true
  after : ∀ a ∈ p.acts, ∀ j, a.cur ≤ j → j < p.dag.size → p.dag.Path a.cur j
  covered : ∀ j < p.dag.size, p.Covered j
  deeper : p.acts.Pairwise fun a b => b.cur < a.cur ∧ ∀ r, ∀ x ∈ a.pend r, b.cur < x
  pendLt : ∀ a ∈ p.acts, ∀ r, ∀ x ∈ a.pend r, x < a.cur
  between : ∀ {i j k}, i ≤ j → j ≤ k → k < p.dag.size → p.dag.Path i k →
    p.dag.Path i j ∨ p.dag.Path j k

/-- Most of what a step does is the same in all of its ways. -/
theorem Proceeds.exists_head (hg : Proceeds p p') : p'.dag = p.dag ∧ p'.acts = p.acts ∨
    ∃ ps a' as, p'.dag = p.dag.add ps ∧ p'.acts = a' :: as ∧ a'.cur = p.dag.size ∧
      ((∀ a ∈ p.acts, a.active = true) → a'.active = true) ∧ ∀ b ∈ as, b ∈ p.acts := by
  cases hg with
  | stay hd ha => exact .inl ⟨hd, ha⟩
  | next hp ha hd hc hk hact | join hp ha hd hc hk hact =>
    exact .inr ⟨_, _, _, hd, ha, hc, fun h => hact.trans (h _ (by simp [hp])),
      fun b hb => by simp [hp, hb]⟩
  | push hp ha hd hc hact =>
    exact .inr ⟨_, _, _, hd, ha, hc, fun _ => hact, fun b hb => by rwa [hp]⟩
  | ret hp ha hd hc hk hact | taskRet hp ha hd hc hk hact =>
    exact .inr ⟨_, _, _, hd, ha, hc, fun h => hact.trans (h _ (by simp [hp])),
      fun b hb => by simp [hp, hb]⟩

namespace Nested

theorem after_step (hi : p.Nested) (hg : Proceeds p p')
    (hchain : p'.acts.Pairwise fun a b => p'.dag.Path b.cur a.cur) :
    ∀ a ∈ p'.acts, ∀ j, a.cur ≤ j → j < p'.dag.size → p'.dag.Path a.cur j := by
  rcases hg.exists_head with ⟨hd, ha⟩ | ⟨ps, a', as, hd, ha, hc, -, has⟩
  · rw [hd, ha]
    exact hi.after
  · intro b hb j hj hlt
    rw [hd, GrowingDag.add_size] at hlt
    rcases Nat.lt_succ_iff_lt_or_eq.1 hlt with hlt | rfl
    · rw [ha, List.mem_cons] at hb
      rcases hb with rfl | hb
      · omega
      · exact path_old hd hlt (hi.after b (has b hb) j hj hlt)
    · -- The new strand is the head's, which follows all below.
      rw [ha, List.pairwise_cons] at hchain
      rw [ha, List.mem_cons] at hb
      rcases hb with rfl | hb
      · exact hc ▸ .refl _
      · exact hc ▸ hchain.1 b hb

theorem covered_step (hi : p.Nested) (hg : Proceeds p p') (ho : p.Ordered) (hst : Steps p p') :
    ∀ j < p'.dag.size, p'.Covered j := by
  rcases hg.exists_head with ⟨hd, ha⟩ | ⟨ps, a', as, hd, ha, hc, hact, -⟩
  · intro j hj
    rw [hd] at hj
    exact (hi.covered j hj).step ho hst
  · intro j hj
    rw [hd, GrowingDag.add_size] at hj
    rcases Nat.lt_succ_iff_lt_or_eq.1 hj with hj | rfl
    · exact (hi.covered j hj).step ho hst
    · exact ⟨a', by simp [ha], a'.cur, .inl ⟨hact hi.active, rfl⟩, hc ▸ .refl _⟩

theorem deeper_step (hi : p.Nested) (hg : Proceeds p p') (ho : p.Ordered) :
    p'.acts.Pairwise fun a b => b.cur < a.cur ∧ ∀ r, ∀ x ∈ a.pend r, b.cur < x := by
  have hlt : ∀ b ∈ p.acts, b.cur < p.dag.size := fun b hb => ho.lt_size hb (.inl rfl)
  have hdeep := hi.deeper
  cases hg with
  | stay hd ha => rwa [ha]
  | @next a a' as hp ha hd hc hk hact hpe =>
    rw [hp, List.pairwise_cons] at hdeep
    rw [ha, List.pairwise_cons]
    refine ⟨fun b hb => ⟨hc ▸ hlt b (by simp [hp, hb]), fun r x hx => ?_⟩, hdeep.2⟩
    rw [hpe] at hx
    exact (hdeep.1 b hb).2 r x hx
  | @push a a' as hp ha hd hc hact hpe =>
    rw [ha, ← hp, List.pairwise_cons]
    refine ⟨fun b hb => ⟨hc ▸ hlt b hb, fun r x hx => ?_⟩, hdeep⟩
    rw [hpe] at hx
    cases hx
  | @ret a b b' bs hp ha hd hc hk hact hpe =>
    rw [hp, List.pairwise_cons, List.pairwise_cons] at hdeep
    rw [ha, List.pairwise_cons]
    refine ⟨fun c hb => ⟨hc ▸ hlt c (by simp [hp, hb]), fun r x hx => ?_⟩, hdeep.2.2⟩
    rw [hpe] at hx
    exact (hdeep.2.1 c hb).2 r x hx
  | @taskRet a b b' bs r hp ha hd hc hk hact hs hpe =>
    rw [hp, List.pairwise_cons, List.pairwise_cons] at hdeep
    rw [ha, List.pairwise_cons]
    refine ⟨fun c hb => ⟨hc ▸ hlt c (by simp [hp, hb]), fun r' x hx => ?_⟩, hdeep.2.2⟩
    have habove := hdeep.1 c (by simp [hb])
    rw [hpe, Function.update_apply] at hx
    split at hx
    · rcases List.mem_append.1 hx with hx | hx
      · exact (hdeep.2.1 c hb).2 r x hx
      · rcases List.mem_cons.1 hx with rfl | hx
        · exact habove.1
        · obtain ⟨q, -, hq⟩ := List.mem_flatMap.1 hx
          exact habove.2 q x hq
    · exact (hdeep.2.1 c hb).2 r' x hx
  | @join a a' as r hp ha hd hc hk hact hpe hin =>
    rw [hp, List.pairwise_cons] at hdeep
    rw [ha, List.pairwise_cons]
    refine ⟨fun b hb => ⟨hc ▸ hlt b (by simp [hp, hb]), fun r' x hx => ?_⟩, hdeep.2⟩
    rw [hpe, Function.update_apply] at hx
    split at hx
    · cases hx
    · exact (hdeep.1 b hb).2 r' x hx

theorem pendLt_step (hi : p.Nested) (hg : Proceeds p p') (ho : p.Ordered) :
    ∀ a ∈ p'.acts, ∀ r, ∀ x ∈ a.pend r, x < a.cur := by
  have hlt : ∀ {b}, b ∈ p.acts → ∀ {r x}, x ∈ b.pend r → x < p.dag.size := fun {b} hb {r x} hx =>
    ho.lt_size hb (.inr (.inl ⟨r, hx⟩))
  have hold := hi.pendLt
  cases hg with
  | stay hd ha => rwa [ha]
  | @next a a' as hp ha hd hc hk hact hpe =>
    rw [hp, List.forall_mem_cons] at hold
    rw [ha, List.forall_mem_cons, hpe, hc]
    exact ⟨fun r x hx => hlt (by simp [hp]) hx, hold.2⟩
  | @push a a' as hp ha hd hc hact hpe =>
    rw [ha, ← hp, List.forall_mem_cons]
    refine ⟨fun r x hx => ?_, hold⟩
    rw [hpe] at hx
    cases hx
  | @ret a b b' bs hp ha hd hc hk hact hpe =>
    rw [hp, List.forall_mem_cons, List.forall_mem_cons] at hold
    rw [ha, List.forall_mem_cons, hpe, hc]
    exact ⟨fun r x hx => hlt (b := b) (by simp [hp]) hx, hold.2.2⟩
  | @taskRet a b b' bs r hp ha hd hc hk hact hs hpe =>
    rw [hp, List.forall_mem_cons, List.forall_mem_cons] at hold
    rw [ha, List.forall_mem_cons, hpe, hc]
    refine ⟨fun r' x hx => ?_, hold.2.2⟩
    rw [Function.update_apply] at hx
    split at hx
    · rcases List.mem_append.1 hx with hx | hx
      · exact hlt (b := b) (by simp [hp]) hx
      · rcases List.mem_cons.1 hx with rfl | hx
        · exact ho.lt_size (by simp [hp]) (.inl rfl)
        · obtain ⟨q, -, hq⟩ := List.mem_flatMap.1 hx
          exact hlt (b := a) (by simp [hp]) hq
    · exact hlt (b := b) (by simp [hp]) hx
  | @join a a' as r hp ha hd hc hk hact hpe hin =>
    rw [hp, List.forall_mem_cons] at hold
    rw [ha, List.forall_mem_cons, hpe, hc]
    refine ⟨fun r' x hx => ?_, hold.2⟩
    rw [Function.update_apply] at hx
    split at hx
    · cases hx
    · exact hlt (b := a) (by simp [hp]) hx

/-- What runs after a task that is left to the region synced comes before the
sync, as nothing older is left. -/
theorem path_join (hi : p.Nested) (ho : p.Ordered) {a : Activation} {as : List Activation}
    (hp : p.acts = a :: as) {r x j : Nat}
    (hin : a.Innermost r) (hx : x ∈ a.pend r) (hj : x < j) (hlt : j < p.dag.size) :
    ∃ y ∈ a.cur :: a.pend r, p.dag.Path j y := by
  obtain ⟨c, hc, y, hy, hpath⟩ := hi.covered j hlt
  have hle := hpath.le
  have hdone : c.done = [] := ho.done c hc (hi.loopFree.acts c hc).1
  have hdeep := hi.deeper
  rw [hp, List.pairwise_cons] at hdeep
  rw [hp, List.mem_cons] at hc
  rcases hc with rfl | hc
  · rcases hy with ⟨-, rfl⟩ | ⟨r', hy⟩ | hy
    · exact ⟨_, by simp, hpath⟩
    · by_cases hr : r' = r
      · exact ⟨y, by simp [← hr, hy], hpath⟩
      · have hreg : r' < c.regions := Nat.lt_of_not_le fun h => by
          rw [ho.pendLt c (by simp [hp]) r' h] at hy
          cases hy
        have := hin r' hreg hr x hx y hy
        omega
    · rw [hdone] at hy
      cases hy
  · have hbelow := (hdeep.1 c hc).2 r x hx
    rcases hy with ⟨-, rfl⟩ | ⟨r', hy⟩ | hy
    · omega
    · have := hi.pendLt c (by simp [hp, hc]) r' y hy
      omega
    · rw [hdone] at hy
      cases hy

theorem between_step (hi : p.Nested) (hg : Proceeds p p') (ho : p.Ordered) {i j k : Nat}
    (hij : i ≤ j) (hjk : j ≤ k)
    (hk : k < p'.dag.size) (hpath : p'.dag.Path i k) : p'.dag.Path i j ∨ p'.dag.Path j k := by
  have hold : ∀ {ps : List Nat}, p'.dag = p.dag.add ps → (∀ q ∈ ps, q < p.dag.size) →
      (j < p.dag.size → ∀ q ∈ ps, p.dag.Path i q → p.dag.Path i j ∨ ∃ y ∈ ps, p.dag.Path j y) →
      p'.dag.Path i j ∨ p'.dag.Path j k := fun {ps} hd hps hnew => by
    rw [hd] at hk hpath ⊢
    rw [GrowingDag.add_size] at hk
    rcases Nat.lt_succ_iff_lt_or_eq.1 hk with hk | rfl
    · rw [GrowingDag.path_add_old hk] at hpath ⊢
      rw [GrowingDag.path_add_old (by omega)]
      exact hi.between hij hjk hk hpath
    · rcases Nat.lt_or_eq_of_le hjk with hj | rfl
      · obtain ⟨q, hq, hiq⟩ := (GrowingDag.path_add_new (by omega) hps).1 hpath
        rw [GrowingDag.path_add_old hj, GrowingDag.path_add_new hj hps]
        exact hnew hj q hq hiq
      · exact .inr (.refl _)
  have hnewest := ho.wf.newest
  -- From the newest strand on, the old order decides.
  have hnext : ∀ {a as}, p.acts = a :: as → ∀ {ps : List Nat}, a.cur ∈ ps → j < p.dag.size →
      p.dag.Path i a.cur →
      p.dag.Path i j ∨ ∃ y ∈ ps, p.dag.Path j y := fun {a as} hp {ps} hq hj hia => by
    have hcur : p.cur = a.cur := by simp [cur, hp]
    exact (hi.between hij (by omega) (by omega) hia).imp_right fun h => ⟨_, hq, h⟩
  have hlt : ∀ {a}, a ∈ p.acts → a.cur < p.dag.size := fun ha => ho.lt_size ha (.inl rfl)
  cases hg with
  | stay hd ha =>
    rw [hd] at hk hpath ⊢
    exact hi.between hij hjk hk hpath
  | @next a a' as hp ha hd | @push a a' as hp ha hd | @ret a b b' bs hp ha hd =>
    refine hold hd (fun q hq => ?_) fun hj q hq hiq => ?_
    · rw [List.mem_singleton.1 hq]
      exact hlt (by simp [hp])
    · rw [List.mem_singleton.1 hq] at hiq
      exact hnext hp (List.mem_singleton_self _) hj hiq
  | @taskRet a b b' bs r hp ha hd =>
    refine hold hd (fun q hq => ?_) fun hj q hq hiq => ?_
    · rw [List.mem_singleton.1 hq]
      exact hlt (by simp [hp])
    · rw [List.mem_singleton.1 hq] at hiq
      rcases Nat.le_total j b.cur with hjb | hbj
      · exact (hi.between hij hjb (hlt (by simp [hp])) hiq).imp_right fun h =>
          ⟨_, List.mem_singleton_self _, h⟩
      · exact .inl (hiq.trans (hi.after b (by simp [hp]) j hbj hj))
  | @join a a' as r hp ha hd hc hk' hact hpe hin =>
    refine hold hd (fun q hq => ?_) fun hj q hq hiq => ?_
    · rcases List.mem_cons.1 hq with rfl | hq
      · exact hlt (by simp [hp])
      · exact ho.lt_size (a := a) (by simp [hp]) (.inr (.inl ⟨r, hq⟩))
    · rcases List.mem_cons.1 hq with rfl | hq
      · exact hnext hp (List.mem_cons_self ..) hj hiq
      · rcases Nat.lt_or_ge q j with hqj | hjq
        · exact .inr (hi.path_join ho hp hin hq hqj hj)
        · have hqlt := hi.pendLt a (by simp [hp]) r q hq
          exact (hi.between hij hjq (Nat.lt_trans hqlt (hlt (by simp [hp]))) hiq).imp_right fun h =>
            ⟨q, List.mem_cons_of_mem _ hq, h⟩

theorem step (hi : p.Nested) (ho : p.Ordered) (hl : h.isLoop = false) (hn : p.SyncsInnermost h)
    (hs : p.step h = some p') : p'.Nested := by
  have hg := proceeds_of_step hl hn hs
  have hst := ho.step hs
  refine ⟨hi.loopFree.step hl hs, ?_, hi.after_step hg (ho.chain_of_steps hst),
    hi.covered_step hg ho hst, hi.deeper_step hg ho, hi.pendLt_step hg ho, hi.between_step hg ho⟩
  rcases hg.exists_head with ⟨-, ha⟩ | ⟨_, a', as, -, ha, -, hact, has⟩
  · rw [ha]
    exact hi.active
  · rw [ha, List.forall_mem_cons]
    exact ⟨hact hi.active, fun b hb => hi.active b (has b hb)⟩

theorem init : Program.init.Nested where
  loopFree := .init
  active := by simp [Program.init]
  after := by
    intro a ha j hj hlt
    rw [List.mem_singleton.1 ha] at hj ⊢
    have hlt : j < 1 := hlt
    obtain rfl : j = 0 := by omega
    exact .refl _
  covered := by
    intro j hj
    have hj : j < 1 := hj
    obtain rfl : j = 0 := by omega
    exact ⟨_, .head _, 0, .inl ⟨rfl, rfl⟩, .refl _⟩
  deeper := List.pairwise_singleton ..
  pendLt := by simp [Program.init]
  between := by
    intro i j k hij hjk hk _
    have hk : k < 1 := hk
    obtain rfl : j = k := by omega
    exact .inr (.refl _)

end Nested

/-! ## The order of the strands -/

open Classical in
/-- Two strands are there, and neither comes before the other. -/
noncomputable def parallel (p : Program) (i j : Nat) : Bool :=
  decide (i < p.dag.size ∧ j < p.dag.size ∧ p.dag.Parallel i j)

theorem parallel_eq_true {i j : Nat} : p.parallel i j = true ↔
    i < p.dag.size ∧ j < p.dag.size ∧ p.dag.Parallel i j := by
  simp only [parallel, decide_eq_true_eq]

/-- Of two strands the later one does not come before the other. -/
theorem parallel_of_le {i j : Nat} (hij : i ≤ j) (hj : j < p.dag.size) : p.parallel i j = true ↔
    ¬ p.dag.Path i j := by
  rw [parallel_eq_true]
  refine ⟨fun h => h.2.2.1, fun h => ⟨by omega, hj, h, fun hji => h ?_⟩⟩
  obtain rfl : i = j := Nat.le_antisymm hij hji.le
  exact .refl _

/-- A depth-first pass may rely on the order of nested programs. -/
theorem Nested.serialOrder (hi : p.Nested) : SeriesParallel.SerialOrder p.parallel where
  irrefl i := by
    rw [← Bool.not_eq_true, parallel_eq_true]
    exact fun h => h.2.2.1 (.refl _)
  symm {i j} := by
    rw [Bool.eq_iff_iff, parallel_eq_true, parallel_eq_true]
    exact ⟨fun h => ⟨h.2.1, h.1, h.2.2.symm⟩, fun h => ⟨h.2.1, h.1, h.2.2.symm⟩⟩
  trans {i j k} hij hjk h₁ h₂ := by
    have hk := (parallel_eq_true.1 h₂).2.1
    rw [parallel_of_le hij (by omega)] at h₁
    rw [parallel_of_le hjk hk] at h₂
    rw [parallel_of_le (by omega) hk]
    exact fun h => (hi.between hij hjk hk h).elim h₁ h₂
  series_par {i j k} hij hjk h₁ h₂ := by
    have hk := (parallel_eq_true.1 h₂).2.1
    rw [← Bool.not_eq_true, parallel_of_le hij (by omega), not_not] at h₁
    rw [parallel_of_le (by omega) hk] at h₂
    rw [parallel_of_le hjk hk]
    exact fun h => h₂ (h₁.trans h)

/-- The order of the strands there are does not change. -/
theorem Reaches.path_iff (h : Reaches p p') {u v : Nat} (hv : v < p.dag.size) : p'.dag.Path u v ↔
    p.dag.Path u v := by
  suffices v < p'.dag.size ∧ (p'.dag.Path u v ↔ p.dag.Path u v) from this.2
  induction h with
  | refl => exact ⟨hv, Iff.rfl⟩
  | tail _ hst ih =>
    rcases hst.2 with ⟨hd, -⟩ | ⟨ps, hd, -⟩
    · rwa [hd]
    · rw [hd, GrowingDag.add_size]
      exact ⟨by omega, (GrowingDag.path_add_old ih.1).trans ih.2⟩

theorem Reaches.size_le (h : Reaches p p') : p.dag.size ≤ p'.dag.size := by
  induction h with
  | refl => exact Nat.le_refl _
  | tail _ hst ih =>
    rcases hst.2 with ⟨hd, -⟩ | ⟨ps, hd, -⟩
    · rwa [hd]
    · rw [hd, GrowingDag.add_size]
      omega

theorem Reaches.parallel_eq (h : Reaches p p') {i j : Nat} (hi : i < p.dag.size)
    (hj : j < p.dag.size) : p'.parallel i j = p.parallel i j := by
  have hle := h.size_le
  rw [Bool.eq_iff_iff, parallel_eq_true, parallel_eq_true, GrowingDag.Parallel, GrowingDag.Parallel,
    h.path_iff hi, h.path_iff hj]
  exact and_congr (iff_of_true (by omega) hi) (and_congr_left fun _ => iff_of_true (by omega) hj)

/-- Every strand from `x` on comes after it, and so will those to come. -/
structure Ahead (p : Program) (x : Nat) : Prop where
  after : p.After x
  path : ∀ j, x ≤ j → j < p.dag.size → p.dag.Path x j

theorem Ahead.step {x : Nat} (hx : p.Ahead x) (ho : p.Ordered) (hst : Steps p p') : p'.Ahead x := by
  refine ⟨hx.after.step ho hst, ?_⟩
  have hcur := (hx.after.step ho hst).path
  rcases hst with ⟨hd, -⟩ | ⟨ps, hd, hm, -⟩
  · rw [hd]
    exact hx.path
  · intro j hxj hj
    rw [hd, GrowingDag.add_size] at hj
    rcases Nat.lt_succ_iff_lt_or_eq.1 hj with hj | rfl
    · exact path_old hd hj (hx.path j hxj hj)
    · -- The new strand is the one the program goes on with.
      cases hm with
      | push _ ha hc | head _ ha hc | pop _ ha hc =>
        rwa [cur, ha, List.head?_cons, Option.map_some, Option.getD_some, hc] at hcur

theorem Reaches.ahead (h : Reaches p p') {x : Nat} (hx : p.Ahead x) : p'.Ahead x := by
  induction h with
  | refl => exact hx
  | tail _ hst ih => exact ih.step hst.1 hst.2

/-- At a point in series the current strand comes after all others. -/
theorem Nested.path_of_inSeries (hi : p.Nested) (ho : p.Ordered) (hs : p.InSeries) {j : Nat}
    (hj : j < p.dag.size) : p.dag.Path j p.cur :=
  (hi.covered j hj).path_of_inSeries ho hs

theorem InSeries.ahead (hs : p.InSeries) (ho : p.Ordered) (hne : p.acts ≠ []) : p.Ahead p.cur := by
  refine ⟨hs.after hne, fun j hj hlt => ?_⟩
  have := ho.wf.newest
  obtain rfl : j = p.cur := by omega
  exact .refl _

end Program

end Cilksan
