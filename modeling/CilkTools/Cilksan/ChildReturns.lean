/-
A child returns to its parent, `merge_bag_from_returning_child`, whatever bags
it has.

After a call, the loop over the child's P-bags follows the null pointers among
them, which the one for tasks passes over (`returnsWhole_iff`).
-/
import CilkTools.Cilksan.BagInvariant
import CilkTools.Cilksan.LiveBags

namespace Cilksan

open FrameData

/-- A child below which its parent is, as the bags of frames are: in good order
and not shared. The child's Iter-bag, if it was a loop, is gone. An access is
recorded in an S-bag only with the flag that it is used. -/
structure Returning (c : CilkSan) (child parent : FrameData) (fs : List FrameData)
    (syncReg : Nat) : Prop where
  frames : c.frames = child :: parent :: fs
  wf : c.bags.WF
  childOk : child.Ok c.bags
  iterbag : child.iterbag = none
  parentOk : parent.Ok c.bags
  apart : child.Apart parent
  region : syncReg < (parent.pbags.getD []).length
  used : ∀ m ∈ c.log, ∀ b, child.sbag = some b → c.bags.Owned m.func b → child.sbagUsed = true

/-- The bag of the parent that a bag of the child goes to. -/
def returnsTo (returningFromDetach : Bool) (child parent : FrameData)
    (syncReg b : Nat) : Option Nat :=
  if !returningFromDetach && child.sbag == some b then parent.sbag else parent.pbag syncReg

/-- The return follows no null pointer, leaves every access recorded under the
child to the parent and all others where they were, and the child has no bag. -/
def ReturnsWhole (c : CilkSan) (child parent : FrameData) (fs : List FrameData)
    (returningFromDetach : Bool) (syncReg : Nat) : Prop :=
  ∃ c' child' parent', c.mergeBagFromReturningChild returningFromDetach syncReg = some c' ∧
    c'.frames = child' :: parent' :: fs ∧ c'.log = c.log ∧
    (∀ m ∈ c.log, ∀ b, child.Has b → c.bags.Owned m.func b →
      ∃ t, returnsTo returningFromDetach child parent' syncReg b = some t ∧
      c'.bags.Owned m.func t) ∧
    (∀ m ∈ c.log, ∀ b, ¬ child.Has b → c.bags.Owned m.func b → c'.bags.Owned m.func b) ∧
    parent'.sbag = parent.sbag ∧ ∀ b, ¬ child'.Has b

variable {c : CilkSan} {child parent : FrameData} {fs : List FrameData} {r : Nat}

/-- The child's S-bag and P-bags are deleted, at the end. -/
def FrameData.resetBags (child : FrameData) (h : Bags) : FrameData × Bags :=
  (child.setSbag none h).1.clearPbagArray (child.setSbag none h).2

theorem FrameData.resetBags_none (h : Bags) (hi : child.iterbag = none) (b : Nat) :
    ¬ (child.resetBags h).1.Has b := by
  simp [FrameData.Has, resetBags, FrameData.setSbag, FrameData.clearPbagArray, FrameData.pbag, hi]

/-- What the other bags hold stays there. -/
theorem FrameData.resetBags_owned {h : Bags} {d t : Nat} (hw : h.WF) (ht : ¬ child.Has t)
    (ho : h.Owned d t) : (child.resetBags h).2.Owned d t :=
  (CilkSan.deleteChild_spec hw ht).kept (fun hn => ht (hn.imp_right .inl)) ho

namespace Returning

theorem not_has_sbag (h : Returning c child parent fs r) {s : Nat} (hs : parent.sbag = some s) :
    ¬ child.Has s := fun hb =>
  h.apart s hb (.inl hs)

/-- A P-bag of the parent, or a new one, is none of the child's. -/
theorem not_has_pbag (h : Returning c child parent fs r) {p : Nat}
    (hp : parent.pbag r = some p ∨ parent.pbag r = none ∧ c.bags.bag p = none) :
    ¬ child.Has p := fun hb => by
  rcases hp with hp | ⟨-, hp⟩
  · exact h.apart p hb (.inr (.inl ⟨r, hp⟩))
  · exact h.childOk.live hb hp

/-- A bag of the child that holds an access was used. -/
theorem retained (h : Returning c child parent fs r) {m : MemoryAccess} (hm : m ∈ c.log) {b : Nat}
    (hb : child.Has b)
    (ho : c.bags.Owned m.func b) : child.sbagUsed = true ∧ child.sbag = some b ∨
    ∃ r, child.pbag r = some b := by
  rcases hb with hb | hb | hb
  · exact .inl ⟨h.used m hm b hb ho, hb⟩
  · exact .inr hb
  · rw [h.iterbag] at hb
    cases hb

theorem detached (h : Returning c child parent fs r) : ReturnsWhole c child parent fs true r := by
  obtain ⟨p, h₁, hmerge, hp, hpi, ha⟩ :=
    CilkSan.mergeDetached_spec h.wf h.childOk h.parentOk h.apart h.region
  have hpc := h.not_has_pbag hp
  refine ⟨{ c with
      bags := (child.resetBags h₁).2
      frames := (child.resetBags h₁).1 :: parent.withPbag r (some p) :: fs },
    _, _, ?_, rfl, rfl, fun m hm b hb ho => ⟨p, ?_, ?_⟩, fun m _ b hb ho => ?_, rfl,
    resetBags_none h₁ h.iterbag⟩
  · simp only [CilkSan.mergeBagFromReturningChild, h.frames, hmerge, if_true]
    rfl
  · simp [returnsTo, pbag_withPbag h.region]
  · exact resetBags_owned ha.wf hpc (ha.moved (h.retained hm hb ho) ho)
  · refine resetBags_owned ha.wf hb (ha.kept (fun hn => hb ?_) ho)
    exact hn.imp And.right .inl

/-- The loop that does not pass over null pointers. -/
theorem foldlM_combine {p : Nat} {l : List (Option Nat)} (hl : ∀ o ∈ l, o ≠ none) : ∀ h : Bags,
    l.foldlM (fun h o => do h.combine p (← o)) h = CilkSan.combineAll h p l := by
  induction l with
  | nil => exact fun _ => rfl
  | cons o l ih =>
    intro h
    rw [List.forall_mem_cons] at hl
    cases o with
    | none => exact absurd rfl hl.1
    | some b =>
      simp only [CilkSan.combineAll, List.foldlM_cons, Option.bind_eq_bind, Option.bind_some]
      exact congrArg (h.combine p b).bind (funext (ih hl.2))

theorem foldlM_combine_none {p : Nat} {l : List (Option Nat)} (hl : none ∈ l) : ∀ h : Bags,
    l.foldlM (fun h o => do h.combine p (← o)) h = none := by
  induction l with
  | nil => cases hl
  | cons o l ih =>
    intro h
    rw [List.foldlM_cons]
    cases o with
    | none => rfl
    | some b =>
      have hrest := ih ((List.mem_cons.1 hl).resolve_left nofun)
      simp only [Option.bind_eq_bind, Option.bind_some]
      cases h.combine p b with
      | none => rfl
      | some h' => exact hrest h'

/-- The child's S-bag goes to the parent's. -/
theorem mergeSbag (h : Returning c child parent fs r) {s : Nat} (hs : parent.sbag = some s) :
    ∃ h₁, CilkSan.combineUsed child.sbagUsed c.bags parent.sbag child.sbag = some h₁ ∧
      Absorbed c.bags h₁ s (fun b => child.sbagUsed ∧ child.sbag = some b)
      (fun b => child.sbag = some b) := by
  obtain ⟨s', hs', hsi⟩ := h.parentOk.sbag
  rw [hs] at hs'
  cases hs'
  obtain ⟨t, ht, hti⟩ := h.childOk.sbag
  have hst : s ≠ t := fun heq => h.not_has_sbag hs (.inl (heq ▸ ht))
  obtain ⟨h₁, hh₁, ha⟩ := CilkSan.combineUsed_spec child.sbagUsed h.wf hsi.1 hti.1 hst
  refine ⟨h₁, by rw [hs, ht, hh₁], ha.mono (fun b hb => ⟨hb.1, ?_⟩) fun b hb => by rw [ht, hb.2]⟩
  rw [ht] at hb
  exact (Option.some.inj hb.2).symm

/-- After a call that left no tasks. -/
theorem called_of_none (h : Returning c child parent fs r)
    (hn : ∀ o ∈ child.pbags.getD [], o = none) : ReturnsWhole c child parent fs false r := by
  obtain ⟨s, hs, -⟩ := h.parentOk.sbag
  have hsc := h.not_has_sbag hs
  obtain ⟨h₁, hcomb, ha⟩ := h.mergeSbag hs
  have hany : (child.pbags.getD []).any Option.isSome = false := by
    rw [List.any_eq_false]
    intro o ho
    rw [hn o ho]
    exact nofun
  refine ⟨{ c with
      bags := (child.resetBags h₁).2
      frames :=
        (child.resetBags h₁).1 ::
          { parent with sbagUsed := parent.sbagUsed || child.sbagUsed } :: fs },
    _, _, ?_, rfl, rfl, fun m hm b hb ho => ⟨s, ?_, ?_⟩, fun m _ b hb ho => ?_, rfl,
    resetBags_none h₁ h.iterbag⟩
  · simp only [CilkSan.mergeBagFromReturningChild, CilkSan.mergeCalled, h.frames, hcomb, hany,
      Bool.false_eq_true, if_false]
    rfl
  all_goals have hpb : ∀ b, ¬ ∃ r, child.pbag r = some b :=
    fun b hp => by cases hn _ (mem_pbags.2 hp)
  · have hsb := (h.retained hm hb ho).resolve_right (hpb b)
    simp [returnsTo, hsb.2, hs]
  · exact resetBags_owned ha.wf hsc (ha.moved ((h.retained hm hb ho).resolve_right (hpb b)) ho)
  · exact resetBags_owned ha.wf hb (ha.kept (fun hn => hb (.inl hn)) ho)

/-- After a call that left tasks in all its regions. -/
theorem called_of_some (h : Returning c child parent fs r)
    (hall : ∀ o ∈ child.pbags.getD [], o ≠ none)
    (hne : child.pbags.getD [] ≠ []) : ReturnsWhole c child parent fs false r := by
  obtain ⟨s, hs, hsi⟩ := h.parentOk.sbag
  have hsc := h.not_has_sbag hs
  obtain ⟨h₁, hcomb, ha₁⟩ := h.mergeSbag hs
  have hany : (child.pbags.getD []).any Option.isSome = true := by
    obtain ⟨o, ho⟩ := List.exists_mem_of_ne_nil _ hne
    exact List.any_eq_true.2 ⟨o, ho, Option.isSome_iff_ne_none.2 (hall o ho)⟩
  -- The P-bag of the parent.
  have hpar : ∀ p, parent.pbag r = some p → h₁.Is p .pBag := fun p hp =>
    ha₁.is (fun hn => h.apart p (.inl hn) (.inr (.inl ⟨r, hp⟩))) (h.parentOk.pbag hp)
  obtain ⟨p, h₂, hlazy, hp, hpi, ha₂⟩ :=
    lazyPbag_spec (f := { parent with sbagUsed := parent.sbagUsed || child.sbagUsed })
      ha₁.wf h.region hpar
  have hpc : ¬ child.Has p := fun hb => by
    rcases hp with hp | ⟨-, hp⟩
    · exact h.apart p hb (.inr (.inl ⟨r, hp⟩))
    · exact (live_combineUsed hcomb).2 (h.childOk.live hb) hp
  -- An S-bag is no P-bag.
  have hsp : ∀ b, (∃ r, child.pbag r = some b) → child.sbag ≠ some b := fun b hb hsb => by
    obtain ⟨q, hq⟩ := hb
    obtain ⟨t, ht, hti⟩ := h.childOk.sbag
    rw [ht] at hsb
    cases hsb
    exact absurd (hti.type_eq (h.childOk.pbag hq)) (by simp)
  obtain ⟨h₃, hmerge, ha₃⟩ := combineAll_spec ha₂.wf hpi.1 h.childOk.distinct fun b hb => by
    have hb := mem_pbags.1 hb
    obtain ⟨q, hq⟩ := hb
    exact ⟨ha₂.good id (ha₁.good (hsp b ⟨q, hq⟩) (h.childOk.pbag hq).1),
      fun heq => hpc (heq ▸ .inr (.inl ⟨q, hq⟩))⟩
  replace hmerge :
    (child.pbags.getD []).foldlM (fun h o => o.bind fun q => h.combine p q) h₂ = some h₃ :=
    (foldlM_combine hall h₂).trans hmerge
  have hkept : ∀ {d b}, ¬ child.Has b → h₁.Owned d b → (child.resetBags h₃).2.Owned d b :=
    fun hb ho =>
    resetBags_owned ha₃.wf hb
      (ha₃.kept (fun hm => hb (.inr (.inl (mem_pbags.1 hm)))) (ha₂.kept id ho))
  refine ⟨{ c with
      bags := (child.resetBags h₃).2
      frames := (child.resetBags h₃).1 ::
        ({ parent with sbagUsed := parent.sbagUsed || child.sbagUsed } : FrameData).withPbag r
        (some p) :: fs },
    _, _, ?_, rfl, rfl, fun m hm b hb ho => ?_, fun m _ b hb ho => ?_, rfl,
    resetBags_none h₃ h.iterbag⟩
  · simp only [CilkSan.mergeBagFromReturningChild, CilkSan.mergeCalled, h.frames, hcomb, hany,
      hlazy, hmerge, Bool.false_eq_true, if_false, if_true, Option.bind_eq_bind, Option.bind_some]
    rfl
  · rcases h.retained hm hb ho with hsb | hpb
    · exact ⟨s, by simp [returnsTo, hsb.2, withPbag, hs], hkept hsc (ha₁.moved hsb ho)⟩
    · refine ⟨p, ?_, resetBags_owned ha₃.wf hpc
        (ha₃.moved (mem_pbags.2 hpb) (ha₂.kept id (ha₁.kept (hsp b hpb) ho)))⟩
      simp [returnsTo, hsp b hpb,
        pbag_withPbag (f := { parent with sbagUsed := parent.sbagUsed || child.sbagUsed }) h.region]
  · exact hkept hb (ha₁.kept (fun hn => hb (.inl hn)) ho)

/-- A null pointer among others is followed. -/
theorem called_null (h : Returning c child parent fs r) {o : Option Nat}
    (ho : o ∈ child.pbags.getD []) (hso : o ≠ none)
    (hn : none ∈ child.pbags.getD []) : c.mergeBagFromReturningChild false r = none := by
  have hany : (child.pbags.getD []).any Option.isSome = true :=
    List.any_eq_true.2 ⟨o, ho, Option.isSome_iff_ne_none.2 hso⟩
  simp only [CilkSan.mergeBagFromReturningChild, CilkSan.mergeCalled, h.frames, hany,
    foldlM_combine_none hn, Bool.false_eq_true, if_false, if_true]
  cases CilkSan.combineUsed child.sbagUsed c.bags parent.sbag child.sbag with
  | none => rfl
  | some h₁ =>
    simp only [Option.bind_eq_bind, Option.bind_some]
    cases ({ parent with sbagUsed := parent.sbagUsed || child.sbagUsed } : FrameData).lazyPbag r
      h₁ <;> rfl

end Returning

/-- **A returning child.** After a task, or after a call that left tasks to all
of its regions or to none, nothing is lost; after other calls a null pointer is
followed. -/
theorem returnsWhole_iff (c : CilkSan) (child parent : FrameData) (fs : List FrameData)
    (syncReg : Nat) (h : Returning c child parent fs syncReg) (returningFromDetach : Bool) :
    ReturnsWhole c child parent fs returningFromDetach syncReg ↔ returningFromDetach = true ∨
      (∀ p ∈ child.pbags.getD [], p = none) ∨ (∀ p ∈ child.pbags.getD [], p ≠ none) := by
  cases returningFromDetach with
  | true => exact iff_of_true h.detached (.inl rfl)
  | false =>
    constructor
    · intro hret
      refine .inr ?_
      by_contra hmixed
      simp only [not_or, not_forall, not_not] at hmixed
      obtain ⟨⟨o, ho, hso⟩, o', hn, rfl⟩ := hmixed
      obtain ⟨c', child', parent', hc', -⟩ := hret
      rw [h.called_null ho hso hn] at hc'
      cases hc'
    · intro hor
      rcases hor.resolve_left nofun with hnone | hall
      · exact h.called_of_none hnone
      · by_cases hne : child.pbags.getD [] = []
        · exact h.called_of_none (by simp [hne])
        · exact h.called_of_some hall hne

/-! ## Reachable states -/

/-- An access in the S-bag of the head frame. -/
theorem Placed.sbagUsed {R : Nat → Prop} {e : LoggedAccess} {b v : Nat} {f : FrameData}
    {fs : List FrameData}
    {as : List Activation} {h : Bags} (hp : Placed R e b v (f :: fs) as) (hf : f.Ok h)
    (hs : f.sbag = some b) (hap : ∀ g ∈ fs, f.Apart g) : f.sbagUsed = true := by
  obtain ⟨s, hs', hsi⟩ := hf.sbag
  rw [hs] at hs'
  cases hs'
  cases hp with
  | sbag hb hu => exact hu
  | iterbag hb => exact absurd hs (hf.iterbag hb).2
  | olditer hb => exact absurd hs (hf.iterbag hb).2
  | pbag q hb => exact absurd (hsi.type_eq (hf.pbag hb)) (by simp)
  | under he hr hn hp =>
    obtain ⟨g, hg, hgb⟩ := hp.has
    exact absurd hgb (hap g hg b (.inl hs))

/-- The two frames on top of a run's stack, the upper of which is no loop's. -/
theorem Inv.returning {p : Program} {c : CilkSan} (hi : Inv p c) {child parent : FrameData}
    {fs : List FrameData}
    (hf : c.frames = child :: parent :: fs) (hib : child.iterbag = none) {r : Nat}
    (hr : r < (parent.pbags.getD []).length) : Returning c child parent fs r := by
  have hframes := hi.frames
  have hapart := hi.apart
  rw [hf] at hframes hapart
  obtain ⟨a, as, hc, hrest, -⟩ := List.forall₂_cons_left_iff.1 hframes
  obtain ⟨b, bs, hpar, -, -⟩ := List.forall₂_cons_left_iff.1 hrest
  have hap := (List.pairwise_cons.1 hapart).1
  refine ⟨hf, hi.wf, hc.ok, hib, hpar.ok, hap _ (by simp), hr, fun m hm s hs ho => ?_⟩
  obtain ⟨n, hn, rfl⟩ := List.mem_iff_getElem.1 hm
  obtain ⟨q, hoq, hpl⟩ := (hi.log.get (hi.log.length_eq ▸ hn) hn).placed
  rw [hf, hoq.unique ho] at hpl
  exact hpl.sbagUsed hc.ok hs hap

/-- A run whose top frames these are. -/
theorem exists_returning {hooks : List Hook} {p : Program} (hok : RunOk Program.init hooks)
    (hs : Program.init.run hooks = some p) {child parent : FrameData} {fs : List FrameData}
    (hf : (CilkSan.init.run hooks).map (·.frames) = some (child :: parent :: fs))
    (hib : child.iterbag = none) {r : Nat} (hr : r < (parent.pbags.getD []).length) :
    ∃ c, CilkSan.init.run hooks = some c ∧ Returning c child parent fs r := by
  obtain ⟨c, hc, hi⟩ := Inv.init.run hok hs
  rw [hc, Option.map_some, Option.some.injEq] at hf
  exact ⟨c, hc, hi.returning hf hib hr⟩

/-- A task that has accessed memory. -/
theorem returnsWhole_iff_task : ∃ c child parent fs,
    CilkSan.init.run [.funcEntry true 1, .task 0, .access 7] = some c ∧
    Returning c child parent fs 0 ∧
    (ReturnsWhole c child parent fs true 0 ↔ true = true ∨ (∀ p ∈ child.pbags.getD [], p = none) ∨
      (∀ p ∈ child.pbags.getD [], p ≠ none)) := by
  obtain ⟨c, hc, h⟩ :=
    @exists_returning [.funcEntry true 1, .task 0, .access 7] _ (by decide) rfl _ _ _ rfl rfl 0
      (by decide)
  exact ⟨c, _, _, _, hc, h, returnsWhole_iff c _ _ _ 0 h true⟩

/-- A function is called, and it spawns a task in one of its two regions. -/
def unsyncedCallee : List Hook :=
  [.funcEntry true 1, .funcEntry true 2, .task 0, .access 7, .taskExit 0, .detachContinue 0]

/-- As it returns, the P-bag of its other region is null. -/
theorem not_returnsWhole : ∃ c child parent fs, CilkSan.init.run unsyncedCallee = some c ∧
    Returning c child parent fs 0 ∧ ¬ ReturnsWhole c child parent fs false 0 := by
  obtain ⟨c, hc, h⟩ :=
    @exists_returning unsyncedCallee _ (by decide) rfl _ _ _ rfl rfl 0 (by decide)
  refine ⟨c, _, _, _, hc, h, fun hret => ?_⟩
  obtain ⟨c', child', parent', hc', -⟩ := hret
  rw [h.called_null (o := some 4) (by decide) nofun (by decide)] at hc'
  cases hc'

end Cilksan
