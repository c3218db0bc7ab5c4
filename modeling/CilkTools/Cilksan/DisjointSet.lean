/-
The disjoint sets of `disjointset.h`: union by rank and path compression
over nodes whose one word holds either the parent or, in a root, the bag.

Nodes and bags are named by numbers, standing for their addresses.
Reference counts are left out here: a node is never reused, and whether it
is freed changes no answer of `findSet`.
-/
import CilkTools.Forest
import Mathlib.Data.List.Basic
import Mathlib.Data.List.MinMax
import Mathlib.Algebra.Order.Ring.Nat

namespace Cilksan

inductive CallType
  | call
  | spawn
  | loop
  deriving DecidableEq, Repr

structure CallID where
  type : CallType
  id : Nat
  deriving DecidableEq, Repr

/-- `call_stack_t`, tail first. -/
abbrev CallStack := List CallID

/-- The tagged word of a node: its parent or, in a root, a bag. -/
inductive ParentOrBag
  | parent (p : Nat)
  | sbag (b : Nat)
  | pbag (b : Nat)
  deriving DecidableEq, Repr

structure DisjointSet where
  parentOrBag : ParentOrBag
  data : CallStack
  rank : Nat
  deriving DecidableEq, Repr

/-- The nodes created so far, `0, …, size - 1`. -/
structure DisjointSets where
  node : Nat → DisjointSet
  size : Nat

namespace DisjointSets

/-- The node's parent, if it is not a root. -/
def parent (s : DisjointSets) (d : Nat) : Option Nat :=
  match (s.node d).parentOrBag with
  | .parent p => some p
  | _ => none

def rank (s : DisjointSets) (d : Nat) : Nat := (s.node d).rank

def isRoot (s : DisjointSets) (d : Nat) : Bool := (s.parent d).isNone

/-- `DisjointSet_t`'s constructor, for a bag tagged by `pb`. -/
def create (s : DisjointSets) (data : CallStack) (pb : ParentOrBag) : Nat × DisjointSets :=
  (s.size, ⟨Function.update s.node s.size ⟨pb, data, 0⟩, s.size + 1⟩)

def setParentOrBag (s : DisjointSets) (d : Nat) (pb : ParentOrBag) : DisjointSets :=
  { s with node := Function.update s.node d { s.node d with parentOrBag := pb } }

/-- `internal_set_parent` and `root_set_parent`. -/
def setParent (s : DisjointSets) (d p : Nat) : DisjointSets := s.setParentOrBag d (.parent p)

def incRank (s : DisjointSets) (d : Nat) : DisjointSets :=
  { s with node := Function.update s.node d { s.node d with rank := (s.node d).rank + 1 } }

/-- Links the node with smaller rank into the node with larger rank. -/
def link (s : DisjointSets) (this that : Nat) : Nat × DisjointSets :=
  if s.rank this > s.rank that then (this, s.setParent that this)
  else
    let s' := s.setParent this that
    (that, if s.rank this = s.rank that then s'.incRank that else s')

/-- The loop of `find_set`: climb to the root, remembering the nodes whose
parent is not the root, the last one first. -/
def climb (s : DisjointSets) : Nat → Nat → List Nat → Nat × List Nat
  | 0, node, path => (node, path)
  | fuel + 1, node, path =>
    match s.parent node with
    | none => (node, path)
    | some p => s.climb fuel p (if s.isRoot p then path else node :: path)

/-- A bound on the ranks, and so on the length of a climb. -/
def maxRank (s : DisjointSets) : Nat := ((List.range s.size).map s.rank).foldr max 0

def findSet (s : DisjointSets) (d : Nat) : Nat × DisjointSets :=
  match s.parent d with
  | none => (d, s)
  | some p =>
    if s.isRoot p then (p, s)
    else
      let (root, path) := s.climb s.maxRank d []
      (root, path.foldl (fun s p => s.setParent p root) s)

def combine (s : DisjointSets) (this that : Nat) : Nat × DisjointSets :=
  let (r₁, s) := s.findSet this
  let (r₂, s) := s.findSet that
  s.link r₁ r₂

/-! ## Well-formed forests -/

/-- Parents are nodes, and of larger rank. -/
structure WF (s : DisjointSets) : Prop where
  bound : ∀ d p, s.parent d = some p → d < s.size ∧ p < s.size
  ranked : Forest.Ranked s.parent s.rank

/-- `d` is in the set of root `r`. -/
abbrev InSet (s : DisjointSets) (d r : Nat) : Prop := Forest.Root s.parent d r

@[simp] theorem parent_setParent (s : DisjointSets) (d p : Nat) :
    (s.setParent d p).parent = Function.update s.parent d (some p) := by
  funext x
  by_cases hx : x = d
  · subst hx; simp [setParent, setParentOrBag, parent]
  · simp [setParent, setParentOrBag, parent, hx]

@[simp] theorem rank_setParentOrBag (s : DisjointSets) (d : Nat) (pb : ParentOrBag) :
    (s.setParentOrBag d pb).rank = s.rank := by
  funext x
  by_cases hx : x = d
  · subst hx; simp [setParentOrBag, rank]
  · simp [setParentOrBag, rank, hx]

theorem node_setParentOrBag_of_ne {s : DisjointSets} {d x : Nat} (pb : ParentOrBag) (h : x ≠ d) :
    (s.setParentOrBag d pb).node x = s.node x := by
  simp [setParentOrBag, h]

@[simp] theorem parent_incRank (s : DisjointSets) (d : Nat) : (s.incRank d).parent = s.parent := by
  funext x
  by_cases hx : x = d
  · subst hx; simp [incRank, parent]
  · simp [incRank, parent, hx]

theorem rank_le_maxRank {s : DisjointSets} {d : Nat} (h : d < s.size) : s.rank d ≤ s.maxRank :=
  List.le_max_of_le' 0 (List.mem_map_of_mem (List.mem_range.2 h)) (Nat.le_refl _)

theorem WF.exists_root {s : DisjointSets} (h : s.WF) {d : Nat} (hd : d < s.size) :
    ∃ r, r < s.size ∧ s.InSet d r :=
  h.ranked.exists_root (S := (· < s.size)) (B := s.maxRank) (fun _ hx => rank_le_maxRank hx)
    (fun x p _ hp => (h.bound x p hp).2) _ d hd (Nat.le_refl _)

/-! ## `find_set` -/

/-- The climb reaches the root, and every remembered node is below it. -/
theorem climb_spec {s : DisjointSets} (h : s.WF) {r : Nat} : ∀ {fuel d path}, s.InSet d r →
    s.rank r - s.rank d ≤ fuel → (∀ x ∈ path, s.parent x ≠ none ∧ s.InSet x r) →
    (s.climb fuel d path).1 = r ∧ ∀ x ∈ (s.climb fuel d path).2, s.parent x ≠ none ∧ s.InSet x r
  | 0, d, path, hd, hf, hp => by
    simp only [climb]
    refine ⟨?_, hp⟩
    cases hd with
    | here => rfl
    | up hpar hr =>
      have := h.ranked _ _ hpar
      have := hr.rank_le h.ranked
      omega
  | fuel + 1, d, path, hd, hf, hp => by
    simp only [climb]
    cases hd with
    | here hn => rw [hn]; exact ⟨rfl, hp⟩
    | @up _ p _ hpar hr =>
      simp only [hpar]
      have hlt := h.ranked _ _ hpar
      refine climb_spec h hr (by omega) fun x hx => ?_
      split at hx
      · exact hp x hx
      · simp only [List.mem_cons] at hx
        rcases hx with rfl | hx
        · exact ⟨by simp [hpar], .up hpar hr⟩
        · exact hp x hx

/-- What `find_set` may do to the forest: shorten paths. -/
structure Compressed (s s' : DisjointSets) : Prop where
  wf : s'.WF
  size : s'.size = s.size
  inSet : ∀ {d r}, s.InSet d r → s'.InSet d r
  root : ∀ {d}, s.parent d = none → s'.node d = s.node d
  data : ∀ d, (s'.node d).data = (s.node d).data
  rank : s'.rank = s.rank

theorem Compressed.refl {s : DisjointSets} (h : s.WF) : Compressed s s :=
  ⟨h, rfl, id, fun _ => rfl, fun _ => rfl, rfl⟩

theorem Compressed.trans {s s' s'' : DisjointSets} (h : Compressed s s') (h' : Compressed s' s'') :
    Compressed s s'' where
  wf := h'.wf
  size := h'.size.trans h.size
  inSet hd := h'.inSet (h.inSet hd)
  root {d} hd := by
    have hn : s'.parent d = none := by simp only [parent, h.root hd]; exact hd
    rw [h'.root hn, h.root hd]
  data d := (h'.data d).trans (h.data d)
  rank := h'.rank.trans h.rank

/-- Redirecting one node to its root. -/
theorem Compressed.setParent {s : DisjointSets} (h : s.WF) {d r : Nat} (hne : s.parent d ≠ none)
    (hd : s.InSet d r) : Compressed s (s.setParent d r) := by
  obtain ⟨p, hp⟩ := Option.ne_none_iff_exists'.1 hne
  have hb := h.bound d p hp
  have hr : r < s.size := by
    obtain ⟨r', hr', h'⟩ := h.exists_root hb.1
    rw [hd.det h']
    exact hr'
  refine ⟨⟨fun x q hq => ?_, ?_⟩, rfl, fun hx => ?_, fun {x} hx => ?_, fun x => ?_, ?_⟩
  · rw [parent_setParent] at hq
    by_cases hx : x = d
    · subst hx
      rw [Function.update_self] at hq
      cases hq
      exact ⟨hb.1, hr⟩
    · rw [Function.update_of_ne hx] at hq
      exact h.bound x q hq
  · rw [parent_setParent, show (s.setParent d r).rank = s.rank from rank_setParentOrBag ..]
    exact h.ranked.update (hd.rank_lt h.ranked hp)
  · rw [InSet, parent_setParent]
    exact hd.compress hne hx
  · exact node_setParentOrBag_of_ne _ (by rintro rfl; exact hne hx)
  · by_cases hx : x = d
    · subst hx; simp [DisjointSets.setParent, setParentOrBag]
    · simp [DisjointSets.setParent, setParentOrBag, hx]
  · exact rank_setParentOrBag ..

/-- The backwards pass of path compression. -/
theorem Compressed.fold {r : Nat} : ∀ {path : List Nat} {s : DisjointSets}, s.WF →
    (∀ x ∈ path, s.parent x ≠ none ∧ s.InSet x r) →
    Compressed s (path.foldl (fun s p => s.setParent p r) s)
  | [], s, h, _ => .refl h
  | x :: path, s, h, hp => by
    have hx := hp x (by simp)
    have h₁ := Compressed.setParent h hx.1 hx.2
    refine h₁.trans (Compressed.fold h₁.wf fun y hy => ?_)
    have hy' := hp y (by simp [hy])
    refine ⟨fun hn => ?_, h₁.inSet hy'.2⟩
    rw [parent_setParent] at hn
    by_cases hyx : y = x
    · subst hyx; simp at hn
    · rw [Function.update_of_ne hyx] at hn
      exact hy'.1 hn

/-- `find_set` returns the root of the node's set and leaves every set as it is. -/
theorem findSet_spec {s : DisjointSets} (h : s.WF) {d r : Nat} (hd : s.InSet d r) :
    (s.findSet d).1 = r ∧ Compressed s (s.findSet d).2 := by
  simp only [findSet]
  cases hd with
  | here hn => rw [hn]; exact ⟨rfl, .refl h⟩
  | @up _ p _ hp hr =>
    simp only [hp]
    split
    · next hroot =>
      have hn : s.parent p = none := by simpa [isRoot] using hroot
      exact ⟨(hr.eq_of_root hn).symm, .refl h⟩
    · have hset : s.InSet d r := .up hp hr
      have hbr : s.rank r ≤ s.maxRank := by
        obtain ⟨r', hr', h'⟩ := h.exists_root (h.bound d p hp).1
        rw [hset.det h']
        exact rank_le_maxRank hr'
      obtain ⟨hroot, hpath⟩ :=
        climb_spec h hset (show _ ≤ s.maxRank by omega) (List.forall_mem_nil _)
      refine ⟨hroot, ?_⟩
      simp only [hroot]
      exact Compressed.fold h hpath

/-! ## Union -/

/-- What linking roots `a` and `b` under `c`, one of the two, does. -/
structure Linked (s : DisjointSets) (a b c : Nat) (s' : DisjointSets) : Prop where
  wf : s'.WF
  size : s'.size = s.size
  root : c = a ∨ c = b
  inSet : ∀ {d r}, s.InSet d r → s'.InSet d (if r = a ∨ r = b then c else r)
  other : ∀ {d}, s.parent d = none → d ≠ a → d ≠ b → s'.node d = s.node d
  tag : (s'.node c).parentOrBag = (s.node c).parentOrBag
  data : ∀ d, (s'.node d).data = (s.node d).data

theorem WF.setParent {s : DisjointSets} (h : s.WF) {a b : Nat} (ha : a < s.size) (hb : b < s.size)
    (hr : s.rank a < s.rank b) : (s.setParent a b).WF := by
  refine ⟨fun x q hq => ?_, ?_⟩
  · rw [parent_setParent] at hq
    by_cases hx : x = a
    · subst hx
      rw [Function.update_self] at hq
      cases hq
      exact ⟨ha, hb⟩
    · rw [Function.update_of_ne hx] at hq
      exact h.bound x q hq
  · rw [parent_setParent, show (s.setParent a b).rank = s.rank from rank_setParentOrBag ..]
    exact h.ranked.update hr

theorem data_setParentOrBag (s : DisjointSets) (a : Nat) (pb : ParentOrBag) (d : Nat) :
    ((s.setParentOrBag a pb).node d).data = (s.node d).data := by
  by_cases hd : d = a
  · subst hd; simp [setParentOrBag]
  · simp [setParentOrBag, hd]

theorem rank_incRank (s : DisjointSets) (a d : Nat) :
    (s.incRank a).rank d = if d = a then s.rank a + 1 else s.rank d := by
  by_cases hd : d = a
  · subst hd; simp [incRank, rank]
  · simp [incRank, rank, hd]

theorem link_spec {s : DisjointSets} (h : s.WF) {a b : Nat} (ha : s.parent a = none)
    (hb : s.parent b = none)
    (hab : a ≠ b) (hla : a < s.size) (hlb : b < s.size) :
    Linked s a b (s.link a b).1 (s.link a b).2 := by
  simp only [link]
  split
  · next hgt =>
    refine ⟨h.setParent hlb hla hgt, rfl, .inl rfl, fun {d r} hd => ?_,
      fun _ _ hdb => node_setParentOrBag_of_ne _ hdb, ?_, data_setParentOrBag _ _ _⟩
    · rw [InSet, parent_setParent]
      have hl := Forest.Root.link hb ha hab.symm hd
      split at hl
      · next hr => simpa [hr] using hl
      · next hr => by_cases hra : r = a <;> simpa [hr, hra] using hl
    · rw [setParent, node_setParentOrBag_of_ne _ hab]
  · next hle =>
    have hpar :
        (if s.rank a = s.rank b then (s.setParent a b).incRank b else s.setParent a b).parent =
        Function.update s.parent a (some b) := by split <;> simp
    have hlink : ∀ {d r}, s.InSet d r → Forest.Root (Function.update s.parent a (some b)) d
        (if r = a ∨ r = b then b else r) := fun {d r} hd => by
      have hl := Forest.Root.link ha hb hab hd
      split at hl
      · next hr => simpa [hr] using hl
      · next hr => by_cases hrb : r = b <;> simpa [hr, hrb] using hl
    refine ⟨?_, ?_, .inr rfl, fun hd => ?_, fun {d} _ hda hdb => ?_, ?_, fun d => ?_⟩
    · split
      · next heq =>
        -- Equal ranks: the new root's rank goes up together with the link.
        refine ⟨fun x q hq => ?_, fun x q hq => ?_⟩
        · rw [parent_incRank, parent_setParent] at hq
          by_cases hx : x = a
          · subst hx; rw [Function.update_self] at hq; cases hq; exact ⟨hla, hlb⟩
          · rw [Function.update_of_ne hx] at hq; exact h.bound x q hq
        · rw [parent_incRank, parent_setParent] at hq
          have hrk : (s.setParent a b).rank = s.rank := rank_setParentOrBag ..
          by_cases hx : x = a
          · subst hx
            rw [Function.update_self] at hq
            cases hq
            simp only [rank_incRank, hab, if_false, if_true, hrk]
            omega
          · rw [Function.update_of_ne hx] at hq
            have := h.ranked x q hq
            have hxb : x ≠ b := by rintro rfl; rw [hb] at hq; cases hq
            simp only [rank_incRank, hxb, if_false, hrk]
            split
            · next hqb => subst hqb; omega
            · exact this
      · next hne => exact h.setParent hla hlb (by omega)
    · split <;> rfl
    · rw [InSet, hpar]; exact hlink hd
    · split
      · simp only [incRank, hdb, ne_eq, not_false_eq_true, Function.update_of_ne]
        exact node_setParentOrBag_of_ne _ hda
      · exact node_setParentOrBag_of_ne _ hda
    · have hba : b ≠ a := hab.symm
      split
      · simp [incRank, setParent, setParentOrBag, hba]
      · rw [setParent, node_setParentOrBag_of_ne _ hba]
    · split
      · by_cases hd : d = b
        · subst hd; simp [incRank, setParent, data_setParentOrBag]
        · simp [incRank, setParent, hd, data_setParentOrBag]
      · exact data_setParentOrBag ..

/-- `combine` joins the two sets under one of their roots. -/
theorem combine_spec {s : DisjointSets} (h : s.WF) {d₁ d₂ a b : Nat} (h₁ : s.InSet d₁ a)
    (h₂ : s.InSet d₂ b) (hab : a ≠ b) (ha : a < s.size) (hb : b < s.size) :
    Linked s a b (s.combine d₁ d₂).1 (s.combine d₁ d₂).2 := by
  simp only [combine]
  obtain ⟨hr₁, hc₁⟩ := findSet_spec h h₁
  rw [hr₁]
  obtain ⟨hr₂, hc₂⟩ := findSet_spec hc₁.wf (hc₁.inSet h₂)
  rw [hr₂]
  have hc := hc₁.trans hc₂
  have hra : ∀ {r}, s.parent r = none →
      ((s.findSet d₁).2.findSet d₂).2.parent r = none := fun {r} hr => by
    simp only [parent, hc.root hr]; exact hr
  have hl := link_spec hc.wf (hra h₁.isRoot) (hra h₂.isRoot) hab (by rw [hc.size]; exact ha)
    (by rw [hc.size]; exact hb)
  refine ⟨hl.wf, hl.size.trans hc.size, hl.root, fun hd => hl.inSet (hc.inSet hd),
    fun {d} hd hda hdb => ?_, ?_, fun d => (hl.data d).trans (hc.data d)⟩
  · rw [hl.other (hra hd) hda hdb, hc.root hd]
  · rw [hl.tag]
    rcases hl.root with hc' | hc' <;> rw [hc']
    · rw [hc.root h₁.isRoot]
    · rw [hc.root h₂.isRoot]

end DisjointSets

end Cilksan
