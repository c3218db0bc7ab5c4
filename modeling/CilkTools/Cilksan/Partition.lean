/-
The union-find structure as a partition: over any sequence of node
creations, unions, finds and retagged roots, two nodes have one
representative exactly when the unions so far have joined them.
-/
import CilkTools.Cilksan.SPBag
import Mathlib.Logic.Relation

namespace Cilksan

namespace DisjointSets

/-- The operations on the forest. `setBag` is `set_sbag` and `set_pbag`,
which the bags call on the root they hold. -/
inductive Op
  | create (data : CallStack) (t : BagType) (b : Nat)
  | combine (this that : Nat)
  | findSet (d : Nat)
  | setBag (d : Nat) (t : BagType) (b : Nat)
  deriving DecidableEq, Repr

def initial : DisjointSets := ⟨fun _ => ⟨.sbag 0, [], 0⟩, 0⟩

/-- One operation, where it is allowed: on nodes that exist, a union of two
different sets, a new tag for a root. -/
def step (s : DisjointSets) : Op → Option DisjointSets
  | .create data t b => some (s.create data (t.tag b)).2
  | .combine this that =>
    if this < s.size ∧ that < s.size ∧ (s.findSet this).1 ≠ (s.findSet that).1 then
      some (s.combine this that).2
    else none
  | .findSet d => if d < s.size then some (s.findSet d).2 else none
  | .setBag d t b => if d < s.size ∧ s.isRoot d then some (s.setParentOrBag d (t.tag b)) else none

/-- The forest after the operations, the last one first. -/
inductive Run : List Op → DisjointSets → Prop
  | init : Run [] initial
  | op {ops : List Op} {o : Op} {s s' : DisjointSets} (h : Run ops s) (hs : s.step o = some s') :
    Run (o :: ops) s'

/-- Two nodes joined by the unions among the operations. -/
abbrev Joined (ops : List Op) : Nat → Nat → Prop :=
  Relation.EqvGen fun x y => Op.combine x y ∈ ops

/-- Two nodes of one tree. -/
def SameSet (s : DisjointSets) (a b : Nat) : Prop := ∃ r, s.InSet a r ∧ s.InSet b r

/-- The trees are the classes of the joined nodes. -/
structure Refines (ops : List Op) (s : DisjointSets) : Prop where
  wf : s.WF
  sound : ∀ {a b}, s.SameSet a b → Joined ops a b
  complete : ∀ {x y}, Op.combine x y ∈ ops → s.SameSet x y

/-! ## The trees of a forest -/

theorem SameSet.symm {s : DisjointSets} {a b : Nat} (h : s.SameSet a b) : s.SameSet b a := by
  obtain ⟨r, ha, hb⟩ := h
  exact ⟨r, hb, ha⟩

theorem SameSet.trans {s : DisjointSets} {a b c : Nat} (h₁ : s.SameSet a b) (h₂ : s.SameSet b c) :
    s.SameSet a c := by
  obtain ⟨r, ha, hb⟩ := h₁
  obtain ⟨r', hb', hc⟩ := h₂
  cases hb.det hb'
  exact ⟨r, ha, hc⟩

/-- Every number leads to a root: those that are no node yet are roots. -/
theorem WF.root {s : DisjointSets} (h : s.WF) (d : Nat) : ∃ r, s.InSet d r := by
  cases hp : s.parent d with
  | none => exact ⟨d, .here hp⟩
  | some p =>
    obtain ⟨r, _, hr⟩ := h.exists_root (h.bound d p hp).1
    exact ⟨r, hr⟩

theorem SameSet.refl {s : DisjointSets} (h : s.WF) (a : Nat) : s.SameSet a a := by
  obtain ⟨r, hr⟩ := h.root a
  exact ⟨r, hr, hr⟩

theorem Refines.joined {ops : List Op} {s : DisjointSets} (h : Refines ops s) {a b : Nat}
    (hj : Joined ops a b) : s.SameSet a b := by
  induction hj with
  | rel _ _ hm => exact h.complete hm
  | refl a => exact .refl h.wf a
  | symm _ _ _ ih => exact ih.symm
  | trans _ _ _ _ _ ih₁ ih₂ => exact ih₁.trans ih₂

theorem Refines.iff {ops : List Op} {s : DisjointSets} (h : Refines ops s) {a b : Nat} :
    s.SameSet a b ↔ Joined ops a b := ⟨h.sound, h.joined⟩

/-- More operations join no fewer nodes. -/
theorem Joined.cons {ops : List Op} {a b : Nat} (h : Joined ops a b) (o : Op) :
    Joined (o :: ops) a b :=
  h.mono fun _ _ hm => List.mem_cons_of_mem _ hm

/-! ## One operation -/

/-- An operation that is no union and leaves every set as it is. -/
theorem Refines.keep {ops : List Op} {s s' : DisjointSets} {o : Op} (h : Refines ops s) (hw : s'.WF)
    (ho : ∀ x y, o ≠ .combine x y) (hin : ∀ {d r}, s.InSet d r → s'.InSet d r) :
    Refines (o :: ops) s' where
  wf := hw
  sound {a b} := fun ⟨r, ha, hb⟩ => by
    obtain ⟨ra, ha'⟩ := h.wf.root a
    obtain ⟨rb, hb'⟩ := h.wf.root b
    cases ha.det (hin ha')
    cases hb.det (hin hb')
    exact (h.sound ⟨r, ha', hb'⟩).cons o
  complete {x y} hm := by
    simp only [List.mem_cons] at hm
    obtain ⟨r, hx, hy⟩ := h.complete (hm.resolve_left fun he => ho x y he.symm)
    exact ⟨r, hin hx, hin hy⟩

/-- A union joins the two sets and no others. -/
theorem Refines.union {ops : List Op} {s s' : DisjointSets} {this that a b c : Nat}
    (h : Refines ops s) (ha : s.InSet this a) (hb : s.InSet that b) (hl : Linked s a b c s') :
    Refines (.combine this that :: ops) s' where
  wf := hl.wf
  sound {x y} := fun ⟨r, hx, hy⟩ => by
    have hab : Joined (.combine this that :: ops) this that := .rel _ _ (List.mem_cons_self ..)
    -- A node of either set has been joined with `this`.
    have hclass : ∀ {z q}, s.InSet z q → q = a ∨ q = b →
        Joined (.combine this that :: ops) z this := by
      intro z q hz hq
      rcases hq with rfl | rfl
      · exact (h.sound ⟨q, hz, ha⟩).cons _
      · exact ((h.sound ⟨q, hz, hb⟩).cons _).trans _ _ _ (hab.symm _ _)
    obtain ⟨rx, hx'⟩ := h.wf.root x
    obtain ⟨ry, hy'⟩ := h.wf.root y
    have hrx := hx.det (hl.inSet hx')
    have hry := hy.det (hl.inSet hy')
    have hc : c = a ∨ c = b := hl.root
    by_cases hqx : rx = a ∨ rx = b
    · by_cases hqy : ry = a ∨ ry = b
      · exact (hclass hx' hqx).trans _ _ _ ((hclass hy' hqy).symm _ _)
      · rw [if_pos hqx] at hrx
        rw [if_neg hqy] at hry
        exact absurd (hry.symm.trans hrx ▸ hc) hqy
    · by_cases hqy : ry = a ∨ ry = b
      · rw [if_neg hqx] at hrx
        rw [if_pos hqy] at hry
        exact absurd (hrx.symm.trans hry ▸ hc) hqx
      · rw [if_neg hqx] at hrx
        rw [if_neg hqy] at hry
        cases hrx.symm.trans hry
        exact (h.sound ⟨rx, hx', hy'⟩).cons _
  complete {x y} hm := by
    simp only [List.mem_cons, Op.combine.injEq] at hm
    rcases hm with ⟨rfl, rfl⟩ | hm
    · exact ⟨c, by simpa using hl.inSet ha, by simpa using hl.inSet hb⟩
    · obtain ⟨r, hx, hy⟩ := h.complete hm
      exact ⟨_, hl.inSet hx, hl.inSet hy⟩

theorem parent_create {s : DisjointSets} (h : s.WF) (data : CallStack) (t : BagType) (b : Nat) :
    (s.create data (t.tag b)).2.parent = s.parent := by
  funext d
  by_cases hd : d = s.size
  · subst hd
    have hnone : s.parent s.size = none := by
      cases hp : s.parent s.size with
      | none => rfl
      | some p => exact absurd (h.bound _ _ hp).1 (Nat.lt_irrefl _)
    rw [hnone]
    exact Bags.parent_of_tag (t := t) (b := b) (by simp [create])
  · simp [create, parent, hd]

theorem findSet_of_inSet {s : DisjointSets} (h : s.WF) {d r : Nat} (hd : s.InSet d r) :
    (s.findSet d).1 = r :=
  (findSet_spec h hd).1

theorem findSet_eq_iff {s : DisjointSets} (h : s.WF) {a b : Nat} :
    (s.findSet a).1 = (s.findSet b).1 ↔ s.SameSet a b := by
  obtain ⟨ra, ha⟩ := h.root a
  obtain ⟨rb, hb⟩ := h.root b
  rw [findSet_of_inSet h ha, findSet_of_inSet h hb]
  constructor
  · intro he
    subst he
    exact ⟨ra, ha, hb⟩
  · intro ⟨r, ha', hb'⟩
    exact (ha.det ha').trans (hb'.det hb)

theorem Refines.step {ops : List Op} {s s' : DisjointSets} {o : Op} (h : Refines ops s)
    (hs : s.step o = some s') : Refines (o :: ops) s' := by
  cases o with
  | create data t b =>
    simp only [DisjointSets.step, Option.some.injEq] at hs
    subst hs
    refine h.keep (Bags.create_spec h.wf data).1 (by simp) fun hd => ?_
    rw [InSet, parent_create h.wf]
    exact hd
  | combine this that =>
    simp only [DisjointSets.step] at hs
    split at hs
    · next hc =>
      obtain ⟨h₁, h₂, hne⟩ := hc
      cases hs
      obtain ⟨a, hla, ha⟩ := h.wf.exists_root h₁
      obtain ⟨b, hlb, hb⟩ := h.wf.exists_root h₂
      rw [findSet_of_inSet h.wf ha, findSet_of_inSet h.wf hb] at hne
      exact h.union ha hb (combine_spec h.wf ha hb hne hla hlb)
    · cases hs
  | findSet d =>
    simp only [DisjointSets.step] at hs
    split at hs
    · cases hs
      obtain ⟨r, hr⟩ := h.wf.root d
      have hc := (findSet_spec h.wf hr).2
      exact h.keep hc.wf (by simp) hc.inSet
    · cases hs
  | setBag d t b =>
    simp only [DisjointSets.step] at hs
    split at hs
    · next hc =>
      cases hs
      have hp : s.parent d = none := by simpa [isRoot] using hc.2
      refine h.keep (Bags.wf_setTag h.wf hp t b) (by simp) fun hd => ?_
      rw [InSet, Bags.parent_setTag hp]
      exact hd
    · cases hs

theorem Run.refines {ops : List Op} {s : DisjointSets} (h : Run ops s) : Refines ops s := by
  induction h with
  | init =>
    have hp : ∀ d, initial.parent d = none := fun _ => rfl
    refine ⟨⟨fun d p hd => ?_, fun d p hd => ?_⟩, fun {a b} ⟨r, ha, hb⟩ => ?_, fun hm => ?_⟩
    · rw [hp] at hd; cases hd
    · rw [hp] at hd; cases hd
    · cases (ha.eq_of_root (hp a)).symm.trans (hb.eq_of_root (hp b))
      exact .refl a
    · cases hm
  | op _ hs ih => exact ih.step hs

/-! ## The representative -/

theorem exists_tag_of_root {s : DisjointSets} {r : Nat} (h : s.parent r = none) :
    ∃ t b, (s.node r).parentOrBag = BagType.tag t b := by
  cases hn : (s.node r).parentOrBag with
  | parent p => simp [parent, hn] at h
  | sbag b => exact ⟨.sBag, b, rfl⟩
  | pbag b => exact ⟨.pBag, b, rfl⟩

/-- A find gives every node the representative it had. -/
theorem findSet_findSet {s : DisjointSets} (h : s.WF) (d x : Nat) :
    ((s.findSet d).2.findSet x).1 = (s.findSet x).1 := by
  obtain ⟨r, hr⟩ := h.root d
  obtain ⟨q, hq⟩ := h.root x
  have hc := (findSet_spec h hr).2
  rw [findSet_of_inSet h hq, findSet_of_inSet hc.wf (hc.inSet hq)]

/-- The plain climb to the root, with enough steps, is what `find_set` returns
from whichever of its exits. -/
theorem climb_eq_findSet {s : DisjointSets} (h : s.WF) {d n : Nat} (hd : d < s.size)
    (hn : s.maxRank ≤ n) : s.isRoot (s.climb n d []).1 ∧ (s.climb n d []).1 = (s.findSet d).1 := by
  obtain ⟨r, hlt, hr⟩ := h.exists_root hd
  have := rank_le_maxRank hlt
  have hclimb := (climb_spec h hr (show _ ≤ n by omega) (List.forall_mem_nil _)).1
  rw [hclimb, findSet_of_inSet h hr]
  exact ⟨by simp [isRoot, hr.isRoot], rfl⟩

/-- **Union-find is the partition that its unions generate.** Ranks increase
towards the root, so that every climb ends there within `maxRank` steps;
equal representatives mean joined nodes; a representative carries a bag; and
no find changes a representative. -/
theorem findSet_partition {ops : List Op} {s : DisjointSets} (h : Run ops s) :
    (∀ d p, s.parent d = some p → s.rank d < s.rank p) ∧
      (∀ d < s.size, ∀ n ≥ s.maxRank, s.isRoot (s.climb n d []).1 ∧
        (s.climb n d []).1 = (s.findSet d).1) ∧
      (∀ a b, (s.findSet a).1 = (s.findSet b).1 ↔ Joined ops a b) ∧
      (∀ d < s.size, s.isRoot (s.findSet d).1 ∧
        ∃ t b, (s.node (s.findSet d).1).parentOrBag = BagType.tag t b) ∧
      ∀ d x, ((s.findSet d).2.findSet x).1 = (s.findSet x).1 := by
  have hr := h.refines
  refine ⟨hr.wf.ranked, fun d hd n hn => climb_eq_findSet hr.wf hd hn, fun a b => ?_,
    fun d hd => ?_, findSet_findSet hr.wf⟩
  · exact (findSet_eq_iff hr.wf).trans hr.iff
  · obtain ⟨r, hroot⟩ := hr.wf.root d
    rw [findSet_of_inSet hr.wf hroot]
    exact ⟨by simp [isRoot, hroot.isRoot], exists_tag_of_root hroot.isRoot⟩

/-- Three nodes, two of them joined. -/
theorem findSet_partition_three :
    ∃ s, Run [.findSet 0, .combine 0 1, .create [] .pBag 1, .create [] .sBag 0,
      .create [] .sBag 0] s ∧ (s.findSet 0).1 = (s.findSet 1).1 := by
  have hrun :
    Run [.findSet 0, .combine 0 1, .create [] .pBag 1, .create [] .sBag 0, .create [] .sBag 0] _ :=
    .op (.op (.op (.op (.op .init rfl) rfl) rfl) rfl) rfl
  exact ⟨_, hrun, ((findSet_partition hrun).2.2.1 0 1).2 (.rel _ _ (by simp))⟩

end DisjointSets

end Cilksan
