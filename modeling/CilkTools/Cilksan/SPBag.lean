/-
S-bags and P-bags (`spbag.h`): heap objects that own a disjoint set through
its root, allocated from two free lists.
-/
import CilkTools.Cilksan.DisjointSet

namespace Cilksan

inductive BagType
  | sBag
  | pBag
  deriving DecidableEq, Repr

/-- `SPBagInterface`: the set the bag owns and, in an S-bag, its version. -/
structure SPBag where
  type : BagType
  ds : Option Nat := none
  version : Nat := 0
  deriving DecidableEq, Repr

/-- Versions are 16 bits wide. -/
def versionEnd : Nat := 2 ^ 16

/-- The heap of disjoint sets and bags. Addresses below `fresh` have been
handed out; a deleted bag's goes to the free list of its type. -/
structure Bags where
  sets : DisjointSets
  bag : Nat → Option SPBag
  fresh : Nat
  free : BagType → List Nat

/-- The word of a root that bag `b` owns. -/
def BagType.tag (t : BagType) (b : Nat) : ParentOrBag :=
  match t with
  | .sBag => .sbag b
  | .pBag => .pbag b

namespace Bags

def empty : Bags where
  sets := ⟨fun _ => ⟨.sbag 0, [], 0⟩, 0⟩
  bag _ := none
  fresh := 0
  free _ := []

def setBag (h : Bags) (b : Nat) (x : SPBag) : Bags :=
  { h with bag := Function.update h.bag b (some x) }

/-- `operator new` and the constructor: the head of the type's free list, or
a new address. -/
def alloc (h : Bags) (t : BagType) : Nat × Bags :=
  match h.free t with
  | b :: l => (b, { h with free := Function.update h.free t l }.setBag b { type := t })
  | [] => (h.fresh, { h with fresh := h.fresh + 1 }.setBag h.fresh { type := t })

def createNewSBag (h : Bags) (callStack : CallStack) : Nat × Bags :=
  let (b, h) := h.alloc .sBag
  let (d, sets) := h.sets.create callStack (.sbag b)
  (b, { h with sets }.setBag b { type := .sBag, ds := some d })

def createNewPBag (h : Bags) : Nat × Bags := h.alloc .pBag

/-- `operator delete`. -/
def deleteBag (h : Bags) (b : Nat) : Bags :=
  match h.bag b with
  | none => h
  | some x =>
    { h with
      bag := Function.update h.bag b none
      free := Function.update h.free x.type (b :: h.free x.type) }

/-- `SPBagInterface::combine` on the bags `x` and `y`: the set `x` owns afterwards. -/
def combineDs (h : Bags) (x y : SPBag) : Option Nat × DisjointSets :=
  match y.ds with
  | none => (x.ds, h.sets)
  | some d₂ =>
    match x.ds with
    | none => (some d₂, h.sets)
    | some d₁ =>
      let (d, sets) := h.sets.combine d₁ d₂
      (some d, sets)

/-- `SBag_t::combine` and `PBag_t::combine`: retag the root when the bag's
set has another one. -/
def combine (h : Bags) (b that : Nat) : Option Bags := do
  let x ← h.bag b
  let y ← h.bag that
  let (ds, sets) := h.combineDs x y
  let sets :=
    match ds with
    | some d => if ds ≠ x.ds then sets.setParentOrBag d (x.type.tag b) else sets
    | none => sets
  return { h with sets }.setBag b { x with ds }

/-- `SBag_t::inc_version`, and whether the new version is not zero. -/
def incVersion (h : Bags) (b : Nat) : Option (Bool × Bags) := do
  let x ← h.bag b
  let v := (x.version + 1) % versionEnd
  return (v ≠ 0, h.setBag b { x with version := v })

/-- `get_sbag_or_null`, with the path compression of its `find_set`. -/
def getSbagOrNull (h : Bags) (d : Nat) : Option Nat × Bags :=
  let (r, sets) := h.sets.findSet d
  let b := match (sets.node r).parentOrBag with
    | .sbag b => some b
    | _ => none
  (b, { h with sets })

/-! ## The heap invariant -/

/-- The forest is well formed and the free lists hold dead bags, each once. -/
structure WF (h : Bags) : Prop where
  sets : h.sets.WF
  free : ∀ t, ∀ b ∈ h.free t, b < h.fresh ∧ h.bag b = none
  nodup : ∀ t, (h.free t).Nodup
  disjoint : ∀ t t', ∀ b ∈ h.free t, b ∈ h.free t' → t = t'
  live : ∀ b, h.fresh ≤ b → h.bag b = none

/-- Bag `b` is live and any set it holds is a root tagged with it. -/
def Good (h : Bags) (b : Nat) : Prop :=
  ∃ x, h.bag b = some x ∧ ∀ d, x.ds = some d →
  d < h.sets.size ∧ (h.sets.node d).parentOrBag = x.type.tag b

/-- Node `d` is in the set of the live bag `b`. -/
def Owned (h : Bags) (d : Nat) (b : Nat) : Prop :=
  ∃ r x, h.sets.InSet d r ∧ d < h.sets.size ∧ h.bag b = some x ∧ x.ds = some r ∧
    (h.sets.node r).parentOrBag = x.type.tag b

theorem WF.empty : Bags.empty.WF where
  sets := ⟨by simp [Bags.empty, DisjointSets.parent],
    fun x p h => by simp [Bags.empty, DisjointSets.parent] at h⟩
  free := by simp [Bags.empty]
  nodup := by simp [Bags.empty]
  disjoint := by simp [Bags.empty]
  live := by simp [Bags.empty]

theorem tag_inj {t t' : BagType} {b b' : Nat} (h : t.tag b = t'.tag b') : t = t' ∧ b = b' := by
  cases t <;> cases t' <;> simp_all [BagType.tag]

theorem parent_of_tag {s : DisjointSets} {d : Nat} {t : BagType} {b : Nat}
    (h : (s.node d).parentOrBag = t.tag b) : s.parent d = none := by
  cases t <;> simp [DisjointSets.parent, h, BagType.tag]

theorem Owned.unique {h : Bags} {d b b'} (h₁ : h.Owned d b) (h₂ : h.Owned d b') : b = b' := by
  obtain ⟨r, x, hr, _, _, _, ht⟩ := h₁
  obtain ⟨r', x', hr', _, _, _, ht'⟩ := h₂
  cases hr.det hr'
  exact (tag_inj (ht.symm.trans ht')).2

/-- What an operation on bag `b` alone keeps. -/
structure Keeps (h h' : Bags) (b : Nat) : Prop where
  wf : h'.WF
  bag : ∀ {b'}, b' ≠ b → h'.bag b' = h.bag b'
  good : ∀ {b'}, b' ≠ b → h.Good b' → h'.Good b'
  owned : ∀ {d b'}, b' ≠ b → h.Owned d b' → h'.Owned d b'

/-! ## Allocation and deletion -/

/-- Changing bag `b`, which no set belongs to, and no set. -/
theorem Keeps.of_bag {h h' : Bags} {b x} (hw : h'.WF) (hs : h'.sets = h.sets)
    (hb : h'.bag = Function.update h.bag b x) : Keeps h h' b where
  wf := hw
  bag hne := by rw [hb, Function.update_of_ne hne]
  good hne :=
    fun ⟨y, hy, hd⟩ => ⟨y, by rw [hb, Function.update_of_ne hne]; exact hy, by rw [hs]; exact hd⟩
  owned hne := fun ⟨r, y, hr, hlt, hy, hds, ht⟩ =>
    ⟨r, y, by rw [hs]; exact hr, by rw [hs]; exact hlt,
      by rw [hb, Function.update_of_ne hne]; exact hy, hds, by rw [hs]; exact ht⟩

/-- An address taken off a free list or never handed out. -/
theorem alloc_spec {h : Bags} (hw : h.WF) (t : BagType) :
    h.bag (h.alloc t).1 = none ∧ (h.alloc t).2.bag (h.alloc t).1 = some { type := t } ∧
      (h.alloc t).2.sets = h.sets ∧ Keeps h (h.alloc t).2 (h.alloc t).1 := by
  cases hl : h.free t with
  | nil =>
    simp only [alloc, hl]
    refine ⟨hw.live _ (Nat.le_refl _), by simp [setBag], rfl, Keeps.of_bag ?_ rfl rfl⟩
    refine ⟨hw.sets, fun t' b hb => ?_, hw.nodup, hw.disjoint, fun b hb => ?_⟩
    · obtain ⟨hlt, hn⟩ := hw.free t' b hb
      have hne : b ≠ h.fresh := by omega
      simp only [setBag, hne, ne_eq, not_false_eq_true, Function.update_of_ne]
      exact ⟨by omega, hn⟩
    · simp only [setBag] at hb
      have hne : b ≠ h.fresh := by omega
      simp only [setBag, hne, ne_eq, not_false_eq_true, Function.update_of_ne]
      exact hw.live b (by omega)
  | cons b l =>
    have hb := hw.free t b (by simp [hl])
    have hnd := hw.nodup t
    rw [hl, List.nodup_cons] at hnd
    -- What is left of the free lists does not hold `b`.
    have hrest : ∀ t' b', b' ∈ Function.update h.free t l t' → b' ∈ h.free t' ∧ b' ≠ b := by
      intro t' b' hb'
      by_cases ht : t' = t
      · subst ht
        rw [Function.update_self] at hb'
        exact ⟨by simp [hl, hb'], by rintro rfl; exact hnd.1 hb'⟩
      · rw [Function.update_of_ne ht] at hb'
        exact ⟨hb', by rintro rfl; exact ht (hw.disjoint t' t b' hb' (by simp [hl]))⟩
    simp only [alloc, hl]
    refine ⟨hb.2, by simp [setBag], rfl, Keeps.of_bag ?_ rfl rfl⟩
    refine ⟨hw.sets, fun t' b' hb' => ?_, fun t' => ?_, fun t₁ t₂ b' h₁ h₂ => ?_, fun b' hb' => ?_⟩
    · obtain ⟨hmem, hne⟩ := hrest t' b' hb'
      simp only [setBag, hne, ne_eq, not_false_eq_true, Function.update_of_ne]
      exact hw.free t' b' hmem
    · by_cases ht : t' = t
      · subst ht; simpa [setBag] using hnd.2
      · simpa [setBag, ht] using hw.nodup t'
    · exact hw.disjoint t₁ t₂ b' (hrest t₁ b' h₁).1 (hrest t₂ b' h₂).1
    · simp only [setBag] at hb'
      have hne : b' ≠ b := by omega
      simp only [setBag, hne, ne_eq, not_false_eq_true, Function.update_of_ne]
      exact hw.live b' hb'

/-- Creating a node disturbs no set. -/
theorem create_spec {s : DisjointSets} (hw : s.WF) (data : CallStack) {t : BagType} {b : Nat} :
    (s.create data (t.tag b)).2.WF ∧ (s.create data (t.tag b)).2.size = s.size + 1 ∧
      (s.create data (t.tag b)).1 = s.size ∧
      ((s.create data (t.tag b)).2.node s.size) = ⟨t.tag b, data, 0⟩ ∧
      (∀ {d}, d < s.size → (s.create data (t.tag b)).2.node d = s.node d) ∧
      ∀ {d r}, d < s.size → s.InSet d r → (s.create data (t.tag b)).2.InSet d r := by
  have hnode : ∀ {d}, d ≠ s.size → (s.create data (t.tag b)).2.node d = s.node d := fun hd => by
    simp [DisjointSets.create, hd]
  have hnew : ((s.create data (t.tag b)).2.node s.size) = ⟨t.tag b, data, 0⟩ := by
    simp [DisjointSets.create]
  have hpar : ∀ {d}, d ≠ s.size → (s.create data (t.tag b)).2.parent d = s.parent d := fun hd => by
    simp only [DisjointSets.parent, hnode hd]
  have hpn : (s.create data (t.tag b)).2.parent s.size = none := parent_of_tag (by rw [hnew])
  refine ⟨⟨fun d p hp => ?_, fun d p hp => ?_⟩, rfl, rfl, hnew, fun hd => hnode (by omega),
    fun {d r} hd hr => ?_⟩
  · by_cases hd : d = s.size
    · subst hd; rw [hpn] at hp; cases hp
    · rw [hpar hd] at hp
      have := hw.bound d p hp
      simp only [DisjointSets.create]
      omega
  · by_cases hd : d = s.size
    · subst hd; rw [hpn] at hp; cases hp
    · rw [hpar hd] at hp
      have := hw.bound d p hp
      have hp' : p ≠ s.size := by omega
      simp only [DisjointSets.rank, hnode hd, hnode hp']
      exact hw.ranked d p hp
  · induction hr with
    | here h => exact .here (by rw [hpar (by omega)]; exact h)
    | up h _ ih => exact .up (by rw [hpar (by omega)]; exact h) (ih (hw.bound _ _ h).2)

/-- A bag of its own kind for a set that is not otherwise owned. -/
theorem WF.setBag {h : Bags} (hw : h.WF) {b x y} (hb : h.bag b = some y) : (h.setBag b x).WF := by
  have hne : ∀ {b'}, h.bag b' = none → b' ≠ b := fun hn => by rintro rfl; rw [hb] at hn; cases hn
  refine ⟨hw.sets, fun t b' hb' => ?_, hw.nodup, hw.disjoint, fun b' hb' => ?_⟩
  · obtain ⟨hlt, hn⟩ := hw.free t b' hb'
    exact ⟨hlt, by simpa [Bags.setBag, hne hn] using hn⟩
  · have hn := hw.live b' hb'
    simpa [Bags.setBag, hne hn] using hn

theorem createNewSBag_spec {h : Bags} (hw : h.WF) (cs : CallStack) :
    h.bag (h.createNewSBag cs).1 = none ∧
      (h.createNewSBag cs).2.bag (h.createNewSBag cs).1 =
      some { type := .sBag, ds := some h.sets.size } ∧
      (h.createNewSBag cs).2.Owned h.sets.size (h.createNewSBag cs).1 ∧
      (h.createNewSBag cs).2.Good (h.createNewSBag cs).1 ∧
      ((h.createNewSBag cs).2.sets.node h.sets.size).data = cs ∧
      Keeps h (h.createNewSBag cs).2 (h.createNewSBag cs).1 := by
  obtain ⟨hnone, hsome, hsets, hk⟩ := alloc_spec hw .sBag
  generalize ha : h.alloc .sBag = a at hnone hsome hsets hk
  obtain ⟨b, h₁⟩ := a
  simp only at hnone hsome hsets hk
  obtain ⟨hcw, hcs, hcd, hcn, hco, hci⟩ := create_spec hw.sets cs (t := .sBag) (b := b)
  simp only [createNewSBag, ha, hsets]
  generalize hc : h.sets.create cs (BagType.sBag.tag b) = c at hcw hcs hcd hcn hco hci
  obtain ⟨d, sets⟩ := c
  simp only at hcw hcs hcd hcn hco hci
  subst hcd
  simp only [BagType.tag] at hc
  simp only [hc]
  have hbag : ∀ {b'}, b' ≠ b → (h₁.bag b') = h.bag b' := fun hne => hk.bag hne
  have hwf : ({ h₁ with sets } : Bags).WF :=
    ⟨hcw, hk.wf.free, hk.wf.nodup, hk.wf.disjoint, hk.wf.live⟩
  have hroot : sets.InSet h.sets.size h.sets.size :=
    .here (parent_of_tag (t := .sBag) (b := b) (by rw [hcn]))
  refine ⟨hnone, by simp [setBag], ⟨h.sets.size, { type := .sBag, ds := some h.sets.size }, hroot,
    by simp [setBag, hcs], by simp [setBag], rfl, by simp [setBag, hcn]⟩,
    ⟨{ type := .sBag, ds := some h.sets.size }, by simp [setBag], fun d hd => ?_⟩,
    by simp [setBag, hcn],
    ⟨hwf.setBag hsome, fun hne => ?_, fun {b'} hne ⟨x, hx, hd⟩ => ⟨x, ?_, fun d hxd => ?_⟩,
      fun {d b'} hne ⟨r, x, hr, hlt, hx, hds, ht⟩ => ⟨r, x, hci hlt hr, ?_, ?_, hds, ?_⟩⟩⟩
  · cases hd
    simp [setBag, hcn, hcs]
  · simp only [setBag, hne, ne_eq, not_false_eq_true, Function.update_of_ne]
    exact hbag hne
  · simp only [setBag, hne, ne_eq, not_false_eq_true, Function.update_of_ne]
    rw [hbag hne]
    exact hx
  · obtain ⟨hlt, ht⟩ := hd d hxd
    simp only [setBag, hco hlt, hcs]
    exact ⟨by omega, ht⟩
  · simp only [setBag, hcs]
    omega
  · simp only [setBag, hne, ne_eq, not_false_eq_true, Function.update_of_ne]
    rw [hbag hne]
    exact hx
  · have hrlt : r < h.sets.size := by
      obtain ⟨r', hr', h'⟩ := hw.sets.exists_root hlt
      rw [hr.det h']
      exact hr'
    simp only [setBag, hco hrlt]
    exact ht

theorem deleteBag_spec {h : Bags} (hw : h.WF) {b x} (hb : h.bag b = some x) :
    (h.deleteBag b).bag b = none ∧ (h.deleteBag b).sets = h.sets ∧ Keeps h (h.deleteBag b) b := by
  have hlive : ∀ {t b'}, b' ∈ h.free t → b' ≠ b := fun hb' => by
    rintro rfl
    have := (hw.free _ _ hb').2
    rw [hb] at this
    cases this
  have hfresh : b < h.fresh := by
    rcases Nat.lt_or_ge b h.fresh with hlt | hge
    · exact hlt
    · rw [hw.live b hge] at hb; cases hb
  simp only [deleteBag, hb]
  -- The free lists gain `b`, which was on none of them.
  have hfree : ∀ t b', b' ∈ Function.update h.free x.type (b :: h.free x.type) t →
      (b' = b ∧ t = x.type) ∨ (b' ≠ b ∧ b' ∈ h.free t) := by
    intro t b' hb'
    by_cases ht : t = x.type
    · subst ht
      rw [Function.update_self, List.mem_cons] at hb'
      rcases hb' with rfl | hb'
      · exact .inl ⟨rfl, rfl⟩
      · exact .inr ⟨hlive hb', hb'⟩
    · rw [Function.update_of_ne ht] at hb'
      exact .inr ⟨hlive hb', hb'⟩
  refine ⟨by simp, by simp,
    Keeps.of_bag ⟨hw.sets, fun t b' hb' => ?_, fun t => ?_, fun t t' b' h₁ h₂ => ?_,
    fun b' hb' => ?_⟩ rfl rfl⟩
  · rcases hfree t b' hb' with ⟨rfl, _⟩ | ⟨hne, hmem⟩
    · exact ⟨hfresh, by simp⟩
    · simpa [hne] using hw.free t b' hmem
  · by_cases ht : t = x.type
    · subst ht
      simp only [Function.update_self, List.nodup_cons]
      exact ⟨fun hmem => hlive hmem rfl, hw.nodup _⟩
    · simpa [ht] using hw.nodup t
  · rcases hfree t b' h₁ with ⟨rfl, rfl⟩ | ⟨hne, hm₁⟩
    · rcases hfree t' b' h₂ with ⟨_, rfl⟩ | ⟨hne, _⟩
      · rfl
      · exact absurd rfl hne
    · rcases hfree t' b' h₂ with ⟨rfl, _⟩ | ⟨_, hm₂⟩
      · exact absurd rfl hne
      · exact hw.disjoint t t' b' hm₁ hm₂
  · have hne : b' ≠ b := by simp only at hb'; omega
    simpa [hne] using hw.live b' hb'

/-! ## Merging -/

/-- What merging bag `that` into bag `b` does. `that` itself is left to be deleted. -/
structure Combined (h h' : Bags) (b that : Nat) : Prop where
  wf : h'.WF
  size : h'.sets.size = h.sets.size
  data : ∀ d, (h'.sets.node d).data = (h.sets.node d).data
  bag : ∀ {b'}, b' ≠ b → h'.bag b' = h.bag b'
  self : ∀ {x y}, h.bag b = some x → h.bag that = some y →
    ∃ ds, h'.bag b = some { x with ds } ∧ (x.ds.isSome ∨ y.ds.isSome → ds.isSome)
  good : ∀ {b'}, b' ≠ that → h.Good b' → h'.Good b'
  owned : ∀ {d b'}, h.Owned d b' → h'.Owned d (if b' = that then b else b')

theorem parent_setTag {s : DisjointSets} {d : Nat} (hd : s.parent d = none)
    (t : BagType) (b : Nat) : (s.setParentOrBag d (t.tag b)).parent = s.parent := by
  funext x
  by_cases hx : x = d
  · subst hx
    rw [hd]
    exact parent_of_tag (t := t) (b := b) (by simp [DisjointSets.setParentOrBag])
  · simp only [DisjointSets.parent, DisjointSets.node_setParentOrBag_of_ne _ hx]

theorem wf_setTag {s : DisjointSets} (hw : s.WF) {d : Nat} (hd : s.parent d = none)
    (t : BagType) (b : Nat) : (s.setParentOrBag d (t.tag b)).WF := by
  refine ⟨fun x p hp => ?_, ?_⟩
  · rw [parent_setTag hd] at hp
    exact hw.bound x p hp
  · rw [parent_setTag hd, DisjointSets.rank_setParentOrBag]
    exact hw.ranked

/-- Moving the set of `that`, held at root `r₂`, to `b`. Root `c` of the new
forest `s` holds what `r₁`, if there was one, and `r₂` held. -/
theorem Combined.of_root {h : Bags} (hw : h.WF) {b that x y r₂ c} {s : DisjointSets}
    (hb : h.bag b = some x) (hy : h.bag that = some y) (hbt : b ≠ that) (hx : ∀ d, x.ds = some d →
      d < h.sets.size ∧ (h.sets.node d).parentOrBag = x.type.tag b)
    (hr₂ : y.ds = some r₂) (ht₂ : (h.sets.node r₂).parentOrBag = y.type.tag that)
    (hs : s.WF) (hsize : s.size = h.sets.size) (hdata : ∀ d, (s.node d).data = (h.sets.node d).data)
    (hc : c < h.sets.size) (hcr : c = r₂ ∨ x.ds = some c)
    (hct : (s.node c).parentOrBag = x.type.tag b)
    (hin : ∀ {d r}, h.sets.InSet d r → s.InSet d (if r = r₂ ∨ x.ds = some r then c else r))
    (hother : ∀ {d}, h.sets.parent d = none → d ≠ r₂ → x.ds ≠ some d → s.node d = h.sets.node d) :
    Combined h ({ h with sets := s }.setBag b { x with ds := some c }) b that where
  wf := WF.setBag (h := { h with sets := s }) (y := x)
    ⟨hs, hw.free, hw.nodup, hw.disjoint, hw.live⟩ hb
  size := hsize
  data := hdata
  bag hne := by simp [setBag, hne]
  self {x' y'} hx' _ := by
    rw [hb] at hx'
    cases hx'
    exact ⟨some c, by simp [setBag], fun _ => rfl⟩
  good {b'} hne := fun ⟨z, hz, hd⟩ => by
    by_cases hbb : b' = b
    · subst hbb
      exact ⟨{ x with ds := some c }, by simp [setBag], fun d hdc => by
        cases hdc
        exact ⟨by simp only [setBag, hsize]; exact hc, hct⟩⟩
    · refine ⟨z, by simp [setBag, hbb, hz], fun d hdz => ?_⟩
      obtain ⟨hlt, htag⟩ := hd d hdz
      refine ⟨by simp only [setBag, hsize]; exact hlt, ?_⟩
      have h₂ : d ≠ r₂ := by
        rintro rfl
        exact hne (tag_inj (htag.symm.trans ht₂)).2
      have h₁ : x.ds ≠ some d := fun hxd => hbb (tag_inj (htag.symm.trans (hx d hxd).2)).2
      simp only [setBag, hother (parent_of_tag htag) h₂ h₁]
      exact htag
  owned {d b'} := fun ⟨r, z, hr, hlt, hz, hdz, htag⟩ => by
    have hr' := hin hr
    by_cases hbb : b' = that ∨ b' = b
    · -- The set of `b` or of `that`: it now hangs below `c`.
      have hif : (if b' = that then b else b') = b := by
        rcases hbb with rfl | rfl
        · simp
        · simp [hbt]
      have hroot : r = r₂ ∨ x.ds = some r := by
        rcases hbb with rfl | rfl
        · rw [hy] at hz; cases hz; rw [hr₂] at hdz; cases hdz; exact .inl rfl
        · rw [hb] at hz; cases hz; exact .inr hdz
      rw [if_pos hroot] at hr'
      rw [hif]
      exact ⟨c, { x with ds := some c }, hr', by simp only [setBag, hsize]; exact hlt,
        by simp [setBag], rfl, hct⟩
    · rw [not_or] at hbb
      have h₂ : r ≠ r₂ := by
        rintro rfl
        exact hbb.1 (tag_inj (htag.symm.trans ht₂)).2
      have h₁ : x.ds ≠ some r := fun hxr => hbb.2 (tag_inj (htag.symm.trans (hx r hxr).2)).2
      rw [if_neg (by simp [h₁, h₂])] at hr'
      rw [if_neg hbb.1]
      refine ⟨r, z, hr', by simp only [setBag, hsize]; exact hlt,
        by simp [setBag, hbb.2, hz], hdz, ?_⟩
      simp only [setBag, hother (parent_of_tag htag) h₂ h₁]
      exact htag

theorem combine_spec {h : Bags} (hw : h.WF) {b that} (hb : h.Good b) (ht : h.Good that)
    (hne : b ≠ that) : ∃ h', h.combine b that = some h' ∧ Combined h h' b that := by
  obtain ⟨⟨tx, dsx, vx⟩, hbx, hx⟩ := hb
  obtain ⟨⟨ty, dsy, vy⟩, hby, hy⟩ := ht
  simp only [combine, hbx, hby, Option.bind_eq_bind, Option.bind_some, combineDs]
  cases dsy with
  | none =>
    -- Nothing to merge: bag and sets are as before.
    have hsame : h.setBag b ⟨tx, dsx, vx⟩ = h := by
      cases h
      simp only [setBag, Bags.mk.injEq, true_and, and_true]
      rw [Function.update_eq_self_iff]
      exact hbx.symm
    have hid : Combined h h b that := by
      refine ⟨hw, rfl, fun _ => rfl, fun _ => rfl, fun {x' y'} hx' hy' => ?_, fun _ hg => hg,
        fun {d b'} ho => ?_⟩
      · refine ⟨x'.ds, hx', ?_⟩
        rw [hby] at hy'
        cases hy'
        simp
      · obtain ⟨r, z, hr, hlt, hz, hdz, htag⟩ := ho
        have hbt : b' ≠ that := by rintro rfl; rw [hby] at hz; cases hz; cases hdz
        rw [if_neg hbt]
        exact ⟨r, z, hr, hlt, hz, hdz, htag⟩
    cases dsx with
    | none => exact ⟨h, congrArg some hsame, hid⟩
    | some d =>
      simp only [ne_eq, not_true_eq_false, if_false]
      exact ⟨h, congrArg some hsame, hid⟩
  | some r₂ =>
    obtain ⟨hlt₂, ht₂⟩ := hy r₂ rfl
    have hp₂ := parent_of_tag ht₂
    cases dsx with
    | none =>
      -- The bag adopts the whole set.
      simp only [ne_eq, reduceCtorEq, not_false_eq_true, if_true]
      refine ⟨_, rfl, Combined.of_root hw hbx hby hne hx rfl ht₂ (wf_setTag hw.sets hp₂ _ _) rfl
        (DisjointSets.data_setParentOrBag _ _ _) hlt₂ (.inl rfl)
        (by simp [DisjointSets.setParentOrBag])
        (fun {d r} hr => ?_) fun hd h₂ _ => DisjointSets.node_setParentOrBag_of_ne _ h₂⟩
      rw [DisjointSets.InSet, parent_setTag hp₂]
      by_cases hrr : r = r₂
      · subst hrr; simpa using hr
      · simpa [hrr] using hr
    | some r₁ =>
      obtain ⟨hlt₁, ht₁⟩ := hx r₁ rfl
      have hp₁ := parent_of_tag ht₁
      have hr : r₁ ≠ r₂ := by
        rintro rfl
        exact hne (tag_inj (ht₁.symm.trans ht₂)).2
      have hl := DisjointSets.combine_spec hw.sets (.here hp₁) (.here hp₂) hr hlt₁ hlt₂
      rcases hcs : h.sets.combine r₁ r₂ with ⟨c, s⟩
      rw [hcs] at hl
      simp only [hcs] at hl ⊢
      have hclt : c < h.sets.size := by rcases hl.root with rfl | rfl <;> assumption
      have hin : ∀ {d r}, h.sets.InSet d r →
        s.InSet d (if r = r₂ ∨ some r₁ = some r then c else r) := fun {d r} hd => by
          have := hl.inSet hd
          simpa [or_comm, eq_comm] using this
      have hoth : ∀ {d}, h.sets.parent d = none → d ≠ r₂ → some r₁ ≠ some d →
        s.node d = h.sets.node d := fun hd h₂ h₁ => hl.other hd (by rintro rfl; exact h₁ rfl) h₂
      by_cases hcr : c = r₁
      · subst hcr
        simp only [ne_eq, not_true_eq_false, if_false]
        exact ⟨_, rfl,
          Combined.of_root hw hbx hby hne hx rfl ht₂ hl.wf hl.size hl.data hclt (.inr rfl)
          (hl.tag.trans ht₁) hin hoth⟩
      · have hc₂ : c = r₂ := hl.root.resolve_left hcr
        have hcp : s.parent c = none := by
          rw [hc₂] at hl ⊢
          exact parent_of_tag (hl.tag.trans ht₂)
        have hne' : some c ≠ some r₁ := by simpa using hcr
        simp only [hne', ne_eq, not_false_eq_true, if_true]
        refine ⟨_, rfl, Combined.of_root hw hbx hby hne hx rfl ht₂ (wf_setTag hl.wf hcp _ _) hl.size
          (fun d => (DisjointSets.data_setParentOrBag _ _ _ d).trans (hl.data d)) hclt (.inl hc₂)
          (by simp [DisjointSets.setParentOrBag]) (fun hd => ?_) fun hd h₂ h₁ => ?_⟩
        · rw [DisjointSets.InSet, parent_setTag hcp]
          exact hin hd
        · rw [DisjointSets.node_setParentOrBag_of_ne _ (by rw [hc₂]; exact h₂)]
          exact hoth hd h₂ h₁

/-! ## Versions and queries -/

/-- `inc_version` touches the version only. -/
theorem incVersion_spec {h : Bags} (hw : h.WF) {b x} (hb : h.bag b = some x) (hg : h.Good b) :
    ∃ h', h.incVersion b = some (decide ((x.version + 1) % versionEnd ≠ 0), h') ∧ h'.sets = h.sets ∧
      h'.bag b = some { x with version := (x.version + 1) % versionEnd } ∧ h'.Good b ∧
      (∀ {d}, h.Owned d b → h'.Owned d b) ∧ Keeps h h' b := by
  refine ⟨h.setBag b { x with version := (x.version + 1) % versionEnd }, ?_, rfl,
    by simp [setBag], ?_,
    fun {d} ⟨r, y, hr, hlt, hy, hds, ht⟩ => ?_, Keeps.of_bag (hw.setBag hb) rfl rfl⟩
  · simp only [incVersion, hb, Option.bind_eq_bind, Option.bind_some]
    rfl
  · obtain ⟨y, hy, hd⟩ := hg
    rw [hb] at hy
    cases hy
    exact ⟨{ x with version := (x.version + 1) % versionEnd }, by simp [setBag], hd⟩
  · rw [hb] at hy
    cases hy
    exact ⟨r, { x with version := (x.version + 1) % versionEnd }, hr, hlt,
      by simp [setBag], hds, ht⟩

/-- Path compression changes no bag and no set. -/
theorem Compressed.keeps {h : Bags} (hw : h.WF) {s : DisjointSets} (hc : h.sets.Compressed s) :
    ({ h with sets := s } : Bags).WF ∧ (∀ {b}, h.Good b → ({ h with sets := s } : Bags).Good b) ∧
      ∀ {d b}, h.Owned d b → ({ h with sets := s } : Bags).Owned d b := by
  refine ⟨⟨hc.wf, hw.free, hw.nodup, hw.disjoint, hw.live⟩,
    fun ⟨x, hx, hd⟩ => ⟨x, hx, fun d hdx => ?_⟩,
    fun ⟨r, x, hr, hlt, hx, hds, ht⟩ => ⟨r, x, hc.inSet hr,
      by rw [hc.size]; exact hlt, hx, hds, ?_⟩⟩
  · obtain ⟨hlt, ht⟩ := hd d hdx
    refine ⟨by rw [hc.size]; exact hlt, ?_⟩
    rw [hc.root (parent_of_tag ht)]
    exact ht
  · rw [hc.root (parent_of_tag ht)]
    exact ht

/-- `get_sbag_or_null` finds the bag that owns the node, if it is an S-bag. -/
theorem getSbagOrNull_spec {h : Bags} (hw : h.WF) {d b x} (ho : h.Owned d b)
    (hx : h.bag b = some x) : (h.getSbagOrNull d).1 = (if x.type = .sBag then some b else none) ∧
      (h.getSbagOrNull d).2.bag = h.bag ∧ (h.getSbagOrNull d).2.sets.size = h.sets.size ∧
      (∀ d', ((h.getSbagOrNull d).2.sets.node d').data = (h.sets.node d').data) ∧
      (h.getSbagOrNull d).2.WF ∧ (∀ {b'}, h.Good b' → (h.getSbagOrNull d).2.Good b') ∧
      ∀ {d' b'}, h.Owned d' b' → (h.getSbagOrNull d).2.Owned d' b' := by
  obtain ⟨r, y, hr, hlt, hy, hds, ht⟩ := ho
  rw [hx] at hy
  cases hy
  obtain ⟨hroot, hc⟩ := DisjointSets.findSet_spec hw.sets hr
  simp only [getSbagOrNull, hroot]
  obtain ⟨hk₁, hk₂, hk₃⟩ := Compressed.keeps hw hc
  refine ⟨?_, trivial, hc.size, hc.data, hk₁, hk₂, hk₃⟩
  rw [hc.root hr.isRoot, ht]
  cases hxt : x.type <;> simp [BagType.tag]

end Bags

end Cilksan
