/-
The nodes of the disjoint sets with their reference counts (`disjointset.h`).
Each has a call stack for its data, which is a handle on the nodes of call
stacks.

A node is gone when its destructor begins; what follows a pointer to it after
that is `none`.
-/
import CilkTools.Cilksan.CallStackNodes

namespace Cilksan

open RefCounts

/-- `DisjointSet_t`; `data` is the tail of its call stack. -/
structure SetNode where
  parentOrBag : ParentOrBag
  data : Option Nat
  rank : Nat
  refCount : Int
  deriving DecidableEq, Repr

/-- The parent, if the node is not a root. -/
def SetNode.parent (x : SetNode) : Option Nat :=
  match x.parentOrBag with
  | .parent p => some p
  | _ => none

structure SetNodes where
  node : Nat → SetNode
  live : Finset Nat
  callNodes : StackNodes

namespace SetNodes

def init : SetNodes := ⟨fun _ => ⟨.sbag 0, none, 0, 0⟩, ∅, .init⟩

def put (h : SetNodes) (d : Nat) (x : SetNode) : SetNodes :=
  { h with node := Function.update h.node d x }

/-- `_ref_count += count`. -/
def addRef (h : SetNodes) (d : Nat) (count : Int) : Option SetNodes :=
  if d ∈ h.live then some (h.put d { h.node d with refCount := (h.node d).refCount + count })
    else none

def incRefCount (h : SetNodes) (d : Nat) : Option SetNodes := h.addRef d 1

/-- `dec_ref_count`: a node of count zero is deleted, which releases its
parent and then its call stack. There are as many steps as there are nodes. -/
def decRefCountIn : Nat → SetNodes → Nat → Option SetNodes
  | 0, _, _ => none
  | n + 1, h, d => do
    let h ← h.addRef d (-1)
    if (h.node d).refCount ≠ 0 then return h
    else
      let h := { h with live := h.live.erase d }
      let h ← (match (h.node d).parent with
        | some p => decRefCountIn n h p
        | none => some h)
      let callNodes ← h.callNodes.releaseTail (h.node d).data
      return { h with callNodes }

def decRefCount (h : SetNodes) (d : Nat) : Option SetNodes := h.decRefCountIn h.live.card d

/-! ## Counts -/

variable {h h' : SetNodes} {d p : Nat} {ext stackExt : Multiset Nat}

/-- The nodes as counted ones. -/
def toHeap (h : SetNodes) : Heap Nat :=
  ⟨h.live, fun d => (h.node d).refCount, fun d => refOf (h.node d).parent⟩

/-- The references to call stacks that live nodes hold. -/
def datas (h : SetNodes) : Multiset Nat := ∑ d ∈ h.live, refOf (h.node d).data

/-- Both kinds of nodes have the right counts, with the references from
elsewhere to nodes of sets and of call stacks. -/
structure Counted (h : SetNodes) (ext stackExt : Multiset Nat) : Prop where
  sets : Balanced h.toHeap ext
  callNodes : Balanced h.callNodes.toHeap (h.datas + stackExt)
  free : ∃ l, h.callNodes.Free l

/-- Nodes may have gone; those that are there are as they were, but for their
counts. -/
structure Keeps (h h' : SetNodes) : Prop where
  live : h'.live ⊆ h.live
  parentOrBag : ∀ x ∈ h'.live, (h'.node x).parentOrBag = (h.node x).parentOrBag
  data : ∀ x ∈ h'.live, (h'.node x).data = (h.node x).data
  rank : ∀ x ∈ h'.live, (h'.node x).rank = (h.node x).rank

theorem Keeps.refl (h : SetNodes) : Keeps h h :=
  ⟨Finset.Subset.refl _, fun _ _ => rfl, fun _ _ => rfl, fun _ _ => rfl⟩

theorem Keeps.trans {h'' : SetNodes} (h₁ : Keeps h h') (h₂ : Keeps h' h'') : Keeps h h'' where
  live := h₂.live.trans h₁.live
  parentOrBag x hx := (h₂.parentOrBag x hx).trans (h₁.parentOrBag x (h₂.live hx))
  data x hx := (h₂.data x hx).trans (h₁.data x (h₂.live hx))
  rank x hx := (h₂.rank x hx).trans (h₁.rank x (h₂.live hx))

theorem Keeps.parent (hk : Keeps h h') {x : Nat} (hx : x ∈ h'.live) :
    (h'.node x).parent = (h.node x).parent := by
  rw [SetNode.parent, SetNode.parent, hk.parentOrBag x hx]

@[simp] theorem node_put_self (h : SetNodes) (d : Nat) (x : SetNode) : (h.put d x).node d = x :=
  Function.update_self ..

theorem node_put_of_ne (h : SetNodes) (x : SetNode) (hne : p ≠ d) : (h.put d x).node p = h.node p :=
  Function.update_of_ne hne ..

theorem addRef_spec (hd : d ∈ h.live) (count : Int) :
    ∃ h', h.addRef d count = some h' ∧ h'.live = h.live ∧
    h'.callNodes = h.callNodes ∧ (∀ x, h'.node x = { h.node x with
      refCount := if x = d then (h.node x).refCount + count else (h.node x).refCount }) ∧
    h'.toHeap = h.toHeap.addRef d count ∧ h'.datas = h.datas := by
  have hnode : ∀ x, (h.put d { h.node d with refCount := (h.node d).refCount + count }).node x =
      { h.node x with
      refCount := if x = d then (h.node x).refCount +
          count else (h.node x).refCount } := fun x => by
    by_cases hxd : x = d
    · subst hxd
      rw [node_put_self, if_pos rfl]
    · rw [node_put_of_ne h _ hxd, if_neg hxd]
  refine ⟨_, if_pos hd, rfl, rfl, hnode, ?_, Finset.sum_congr rfl fun x _ => by rw [hnode]⟩
  have hcount :
      (fun x =>
        ((h.put d { h.node d with refCount := (h.node d).refCount + count }).node x).refCount) =
      Function.update (fun x => (h.node x).refCount) d ((h.node d).refCount + count) :=
    funext fun x => by
    rw [hnode, Function.update_apply]
    split
    · next heq => rw [heq]
    · rfl
  simp only [toHeap, Heap.addRef, hcount]
  exact congrArg (Heap.mk _ _) (funext fun x => by rw [hnode]; rfl)

theorem keeps_of_node {f : Nat → Int} (hlive : h'.live = h.live)
    (hnode : ∀ x, h'.node x = { h.node x with refCount := f x }) : Keeps h h' :=
  ⟨by rw [hlive], fun x _ => by rw [hnode], fun x _ => by rw [hnode], fun x _ => by rw [hnode]⟩

theorem incRefCount_spec (hc : Counted h ext stackExt) (hd : d ∈ h.live) :
    ∃ h', h.incRefCount d = some h' ∧ Counted h' (d ::ₘ ext) stackExt ∧ Keeps h h' ∧
    h'.live = h.live := by
  obtain ⟨h', he, hlive, hstacks, hnode, hheap, hdatas⟩ := addRef_spec hd 1
  refine ⟨h', he, ⟨?_, ?_, ?_⟩, keeps_of_node hlive hnode, hlive⟩
  · rw [hheap]
    exact hc.sets.retain hd
  · rw [hstacks, hdatas]
    exact hc.callNodes
  · rw [hstacks]
    exact hc.free

/-- A reference goes, and with it the nodes that have none left, of sets and
of call stacks. The induction is on the nodes of sets that are there. -/
theorem decRefCountIn_spec (n : Nat) :
    ∀ (h : SetNodes) (d : Nat) (stackExt : Multiset Nat), h.live.card ≤ n →
    Counted h (d ::ₘ ext) stackExt →
    ∃ h', decRefCountIn n h d = some h' ∧ Counted h' ext stackExt ∧ Keeps h h' ∧ ∀ x, x ∉ h.live →
    h'.node x = h.node x := by
  induction n with
  | zero =>
    intro h d stackExt hn hc
    have hd : d ∈ h.live := hc.sets.mem_live (Multiset.mem_cons_self ..)
    exact absurd (Finset.card_pos.2 ⟨d, hd⟩) (by omega)
  | succ n ih =>
    intro h d stackExt hn hc
    have hd : d ∈ h.live := hc.sets.mem_live (Multiset.mem_cons_self ..)
    obtain ⟨h₁, he, hlive, hstacks, hnode, hheap, hdatas⟩ := addRef_spec hd (-1)
    have hnd : (h₁.node d).refCount = (h.node d).refCount - 1 := by rw [hnode]; exact if_pos rfl
    rw [decRefCountIn, he]
    simp only [Option.bind_eq_bind, Option.bind_some]
    split
    · next hne =>
      refine ⟨h₁, rfl, ⟨?_, ?_, ?_⟩, keeps_of_node hlive hnode, fun x hx => ?_⟩
      · rw [hheap]
        exact hc.sets.drop (show (h.node d).refCount ≠ 1 by omega)
      · rw [hstacks, hdatas]
        exact hc.callNodes
      · rw [hstacks]
        exact hc.free
      · rw [hnode, if_neg (show x ≠ d from fun heq => hx (heq ▸ hd))]
    · next hzero =>
      obtain ⟨h₂, hh₂⟩ : ∃ h₂, ({ h₁ with live := h₁.live.erase d } : SetNodes) = h₂ := ⟨_, rfl⟩
      have hlive₂ : h₂.live = h.live.erase d := by rw [← hh₂, ← hlive]
      have hnode₂ : ∀ x, h₂.node x = h₁.node x := fun x => by rw [← hh₂]
      have hother : ∀ x, x ≠ d → h₂.node x = h.node x :=
        fun x hx => by rw [hnode₂, hnode, if_neg hx]
      have hself : (h₂.node d).parent = (h.node d).parent ∧ (h₂.node d).data = (h.node d).data := by
        rw [hnode₂, hnode]
        exact ⟨rfl, rfl⟩
      have hsets : Balanced h₂.toHeap (refOf (h.node d).parent + ext) := by
        have hgone : Balanced (h.toHeap.free d) (refOf (h.node d).parent + ext) :=
          hc.sets.free (show (h.node d).refCount = 1 by omega)
        refine hgone.congr hlive₂ (fun x hx => ?_) fun x hx => ?_
        · exact congrArg SetNode.refCount (hother x (Finset.mem_erase.1 hx).1)
        · exact congrArg (fun y : SetNode => refOf y.parent) (hother x (Finset.mem_erase.1 hx).1)
      have hdatas₂ : refOf (h.node d).data + h₂.datas = h.datas := by
        rw [datas, datas, hlive₂, ← Finset.add_sum_erase h.live (fun x => refOf (h.node x).data) hd]
        refine congrArg (refOf (h.node d).data + ·) (Finset.sum_congr rfl fun x hx => ?_)
        rw [hother x (Finset.mem_erase.1 hx).1]
      have hc₂ : Counted h₂ (refOf (h.node d).parent + ext) (refOf (h.node d).data + stackExt) := by
        have hst : h₂.callNodes = h.callNodes := by rw [← hh₂, ← hstacks]
        refine ⟨hsets, ?_, by rw [hst]; exact hc.free⟩
        rw [hst, add_left_comm, ← add_assoc, hdatas₂]
        exact hc.callNodes
      have hk₂ : Keeps h h₂ := by
        refine ⟨by rw [hlive₂]; exact Finset.erase_subset .., fun x hx => ?_, fun x hx => ?_,
          fun x hx => ?_⟩
        all_goals
          rw [hlive₂] at hx
          rw [hother x (Finset.mem_erase.1 hx).1]
      have hgone₂ : ∀ x, x ∉ h.live → h₂.node x = h.node x :=
        fun x hx => hother x fun heq => hx (heq ▸ hd)
      simp only [hh₂]
      rw [← hnode₂, hself.1]
      -- the parent is released, and then the call stack
      have hrec : ∃ h₃, (match (h.node d).parent with
            | some p => decRefCountIn n h₂ p
            | none =>
              some h₂) = some h₃ ∧ Counted h₃ ext (refOf (h.node d).data + stackExt) ∧ Keeps h₂ h₃ ∧
          ∀ x, x ∉ h₂.live → h₃.node x = h₂.node x := by
        cases hp : (h.node d).parent with
        | none =>
          rw [hp, refOf, Option.elim, zero_add] at hc₂
          exact ⟨h₂, rfl, hc₂, .refl h₂, fun _ _ => rfl⟩
        | some p =>
          rw [hp, refOf, Option.elim, Multiset.singleton_add] at hc₂
          refine ih h₂ p _ ?_ hc₂
          rw [hlive₂, Finset.card_erase_of_mem hd]
          omega
      obtain ⟨h₃, he₃, hc₃, hk₃, hgone₃⟩ := hrec
      have hdead : d ∉ h₂.live := by
        rw [hlive₂]
        exact Finset.notMem_erase d h.live
      obtain ⟨l, hf⟩ := hc₃.free
      have hst := hc₃.callNodes
      rw [add_left_comm] at hst
      obtain ⟨callNodes, l', he₄, hb₄, hf₄, -⟩ := StackNodes.releaseTail_spec hst hf
      rw [he₃]
      simp only [Option.bind_some]
      rw [hgone₃ d hdead, hself.2, he₄]
      refine ⟨_, rfl, ⟨hc₃.sets, hb₄, l', hf₄⟩, ⟨?_, ?_, ?_, ?_⟩, fun x hx => ?_⟩
      · exact (hk₂.trans hk₃).live
      · exact (hk₂.trans hk₃).parentOrBag
      · exact (hk₂.trans hk₃).data
      · exact (hk₂.trans hk₃).rank
      · exact (hgone₃ x fun hmem => hx (hk₂.live hmem)).trans (hgone₂ x hx)

theorem decRefCount_spec (hc : Counted h (d ::ₘ ext) stackExt) :
    ∃ h', h.decRefCount d = some h' ∧ Counted h' ext stackExt ∧ Keeps h h' := by
  obtain ⟨h', he, hc', hk, -⟩ := decRefCountIn_spec _ h d stackExt (Nat.le_refl _) hc
  exact ⟨h', he, hc', hk⟩

end SetNodes

end Cilksan
