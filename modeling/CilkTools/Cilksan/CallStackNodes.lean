/-
Call stacks as the tool holds them (`race_info.h`): handles on a tree of nodes
with reference counts, where a stack is what is met from a tail to the root.

Storage that was freed is on a list through `prev`, and is given out again
first. A node is gone when its destructor begins; what follows a pointer to it
after that is `none`. Assertions are compiled out.
-/
import CilkTools.Cilksan.DisjointSet
import CilkTools.RefCounts
import Mathlib.Algebra.BigOperators.Ring.Finset

namespace Cilksan

open RefCounts

/-- `call_stack_node_t`; addresses are numbers. -/
structure CallStackNode where
  id : CallID
  prev : Option Nat
  refCount : Int
  deriving DecidableEq, Repr

/-- The storage of the nodes. No address from `brk` on has been asked for. -/
structure StackNodes where
  node : Nat → CallStackNode
  live : Finset Nat
  freeList : Option Nat
  brk : Nat

namespace StackNodes

def init : StackNodes := ⟨fun _ => ⟨⟨.call, 0⟩, none, 0⟩, ∅, none, 0⟩

def put (h : StackNodes) (p : Nat) (x : CallStackNode) : StackNodes :=
  { h with node := Function.update h.node p x }

/-- `ref_count += d`. -/
def addRef (h : StackNodes) (p : Nat) (d : Int) : Option StackNodes :=
  if p ∈ h.live then some (h.put p { h.node p with refCount := (h.node p).refCount + d }) else none

def operatorNew (h : StackNodes) : Nat × StackNodes :=
  match h.freeList with
  | some newNode => (newNode, { h with freeList := (h.node newNode).prev })
  | none => (h.brk, { h with brk := h.brk + 1 })

def operatorDelete (h : StackNodes) (p : Nat) : StackNodes :=
  { h.put p { h.node p with prev := h.freeList } with freeList := some p }

/-- The constructor, on storage that was asked for. -/
def create (h : StackNodes) (id : CallID) (prev : Option Nat) : Option (Nat × StackNodes) := do
  let (p, h) := h.operatorNew
  let h := { h.put p { id, prev, refCount := 1 } with live := insert p h.live }
  match prev with
  | some q =>
    let h ← h.addRef q 1
    return (p, h)
  | none => return (p, h)

/-- `ref_count--`, and a node of count zero is deleted, which releases the one
before it. There are as many steps as there are nodes. -/
def releaseIn : Nat → StackNodes → Nat → Option StackNodes
  | 0, _, _ => none
  | n + 1, h, p => do
    let h ← h.addRef p (-1)
    if (h.node p).refCount ≠ 0 then return h
    else
      let h := { h with live := h.live.erase p }
      match (h.node p).prev with
      | some oldPrev =>
        let h ← releaseIn n (h.put p { h.node p with prev := none }) oldPrev
        return h.operatorDelete p
      | none => return h.operatorDelete p

def release (h : StackNodes) (p : Nat) : Option StackNodes := h.releaseIn h.live.card p

/-- What is done with a tail that may be null. -/
def retainTail (h : StackNodes) : Option Nat → Option StackNodes
  | some p => h.addRef p 1
  | none => some h

def releaseTail (h : StackNodes) : Option Nat → Option StackNodes
  | some p => h.release p
  | none => some h

end StackNodes

/-- The objects of type `call_stack_t`, each with its tail. -/
structure CallStacks where
  nodes : StackNodes
  objs : Finset Nat
  tail : Nat → Option Nat

namespace CallStacks

def init : CallStacks := ⟨.init, ∅, fun _ => none⟩

inductive Op
  | create (i : Nat)
  | copy (i j : Nat)
  | destroy (i : Nat)
  | assign (i j : Nat)
  | push (i : Nat) (id : CallID)
  | pop (i : Nat)
  deriving DecidableEq, Repr

def create (s : CallStacks) (i : Nat) : Option CallStacks :=
  if i ∈ s.objs then
    none else some { s with objs := insert i s.objs, tail := Function.update s.tail i none }

/-- The copy constructor of `i`. -/
def copy (s : CallStacks) (i j : Nat) : Option CallStacks :=
  if i ∉ s.objs ∧ j ∈ s.objs then do
    let nodes ← s.nodes.retainTail (s.tail j)
    return { nodes, objs := insert i s.objs, tail := Function.update s.tail i (s.tail j) }
  else none

def destroy (s : CallStacks) (i : Nat) : Option CallStacks :=
  if i ∈ s.objs then do
    let nodes ← s.nodes.releaseTail (s.tail i)
    return { nodes, objs := s.objs.erase i, tail := Function.update s.tail i none }
  else none

def assign (s : CallStacks) (i j : Nat) : Option CallStacks :=
  if i ∈ s.objs ∧ j ∈ s.objs then do
    let oldTail := s.tail i
    let s := { s with tail := Function.update s.tail i (s.tail j) }
    let nodes ← s.nodes.retainTail (s.tail i)
    let nodes ← nodes.releaseTail oldTail
    return { s with nodes }
  else none

def push (s : CallStacks) (i : Nat) (id : CallID) : Option CallStacks :=
  if i ∈ s.objs then do
    let (newNode, nodes) ← s.nodes.create id (s.tail i)
    let s := { s with tail := Function.update s.tail i (some newNode) }
    match (nodes.node newNode).prev with
    | some prev =>
      let nodes ← nodes.addRef prev (-1)
      return { s with nodes }
    | none => return { s with nodes }
  else none

def pop (s : CallStacks) (i : Nat) : Option CallStacks :=
  if i ∈ s.objs then do
    let oldNode ← s.tail i
    if oldNode ∈ s.nodes.live then
      let s := { s with tail := Function.update s.tail i (s.nodes.node oldNode).prev }
      let nodes ← s.nodes.retainTail (s.tail i)
      let nodes ← nodes.release oldNode
      return { s with nodes }
    else none
  else none

def step (s : CallStacks) : Op → Option CallStacks
  | .create i => s.create i
  | .copy i j => s.copy i j
  | .destroy i => s.destroy i
  | .assign i j => s.assign i j
  | .push i id => s.push i id
  | .pop i => s.pop i

def run (s : CallStacks) (ops : List Op) : Option CallStacks := ops.foldlM step s

/-! ## What the handles should hold -/

/-- The operation on the sequences of the handles there are, the last frame
first; `none` where the program must not do it. -/
def Op.apply (m : Nat → Option CallStack) : Op → Option (Nat → Option CallStack)
  | create i => if (m i).isSome then none else some (Function.update m i (some []))
  | copy i j => if (m i).isSome then none else (m j).map fun s => Function.update m i (some s)
  | destroy i => (m i).map fun _ => Function.update m i none
  | assign i j => (m i).bind fun _ => (m j).map fun s => Function.update m i (some s)
  | push i id => (m i).map fun s => Function.update m i (some (id :: s))
  | pop i =>
    (m i).bind fun s => if s.isEmpty then none else some (Function.update m i (some s.tail))

def Op.applyAll (ops : List Op) : Option (Nat → Option CallStack) := ops.foldlM apply fun _ => none

end CallStacks

/-- The frames met from a tail on are those of the stack. -/
def StackNodes.Holds (h : StackNodes) : CallStack → Option Nat → Prop
  | [], t => t = none
  | id :: s, t => ∃ p ∈ h.live, t = some p ∧ (h.node p).id = id ∧ h.Holds s (h.node p).prev

namespace CallStacks

/-- The handles whose tail is the node, and the nodes it is before. -/
def refs (s : CallStacks) (p : Nat) : Nat :=
  (s.objs.filter fun i => s.tail i = some p).card +
  (s.nodes.live.filter fun q => (s.nodes.node q).prev = some p).card

/-- Each handle holds its sequence, the counts are those of the references,
and the nodes that are there are those that have one. -/
structure Persistent (s : CallStacks) (m : Nat → Option CallStack) : Prop where
  objs : ∀ i, i ∈ s.objs ↔ (m i).isSome
  holds : ∀ i stack, m i = some stack → s.nodes.Holds stack (s.tail i)
  refCount : ∀ p ∈ s.nodes.live, (s.nodes.node p).refCount = s.refs p
  live : ∀ p, p ∈ s.nodes.live ↔ 0 < s.refs p

end CallStacks

/-! ## Nodes -/

/-- The reference that a pointer is, if it is not null. -/
def refOf (t : Option Nat) : Multiset Nat := t.elim 0 fun q => {q}

theorem count_refOf (t : Option Nat) (p : Nat) :
    (refOf t).count p = if t = some p then 1 else 0 := by
  cases t with
  | none => rfl
  | some q => simp [refOf, Multiset.count_singleton, eq_comm]

theorem mem_refOf {t : Option Nat} {p : Nat} : p ∈ refOf t ↔ t = some p := by
  rw [← Multiset.count_pos, count_refOf]
  split <;> simp [*]

namespace StackNodes

variable {h h' : StackNodes} {p q : Nat} {l : List Nat} {ext : Multiset Nat} {stack : CallStack}
  {t : Option Nat}

/-- The nodes as counted ones. -/
def toHeap (h : StackNodes) : Heap Nat :=
  ⟨h.live, fun p => (h.node p).refCount, fun p => refOf (h.node p).prev⟩

/-- The list through `prev`. -/
def Linked (h : StackNodes) : List Nat → Option Nat → Prop
  | [], t => t = none
  | q :: l, t => t = some q ∧ h.Linked l (h.node q).prev

theorem Linked.congr (hl : h.Linked l t) (hsame : ∀ q ∈ l, (h'.node q).prev = (h.node q).prev) :
    h'.Linked l t := by
  induction l generalizing t with
  | nil => exact hl
  | cons q l ih =>
    refine ⟨hl.1, ?_⟩
    rw [hsame q (by simp)]
    exact ih hl.2 fun r hr => hsame r (by simp [hr])

/-- The free storage is `l`, none of it twice, and no node is in it. -/
structure Free (h : StackNodes) (l : List Nat) : Prop where
  linked : h.Linked l h.freeList
  nodup : l.Nodup
  apart : ∀ q ∈ l, q ∉ h.live
  freeBelow : ∀ q ∈ l, q < h.brk
  liveBelow : ∀ q ∈ h.live, q < h.brk

/-- Nodes may have gone; those that are there have their frames still. -/
structure Keeps (h h' : StackNodes) : Prop where
  live : h'.live ⊆ h.live
  id : ∀ q ∈ h'.live, (h'.node q).id = (h.node q).id
  prev : ∀ q ∈ h'.live, (h'.node q).prev = (h.node q).prev

theorem Keeps.refl (h : StackNodes) : Keeps h h :=
  ⟨Finset.Subset.refl _, fun _ _ => rfl, fun _ _ => rfl⟩

theorem Keeps.trans {h'' : StackNodes} (h₁ : Keeps h h') (h₂ : Keeps h' h'') : Keeps h h'' where
  live := h₂.live.trans h₁.live
  id q hq := (h₂.id q hq).trans (h₁.id q (h₂.live hq))
  prev q hq := (h₂.prev q hq).trans (h₁.prev q (h₂.live hq))

/-- A stack that is referred to is held as before, where nodes that are still
there have their frames. -/
theorem Holds.congr (hs : h.Holds stack t) (hb : Balanced h'.toHeap ext)
    (ht : ∀ p, t = some p → p ∈ h'.live)
    (hid : ∀ q ∈ h.live, q ∈ h'.live → (h'.node q).id = (h.node q).id)
    (hprev : ∀ q ∈ h.live, q ∈ h'.live → (h'.node q).prev = (h.node q).prev) :
    h'.Holds stack t := by
  induction stack generalizing t with
  | nil => exact hs
  | cons id stack ih =>
    obtain ⟨p, hpl, rfl, hpid, hs⟩ := hs
    have hp := ht p rfl
    refine ⟨p, hp, rfl, (hid p hpl hp).trans hpid, ih ?_ fun q hq => ?_⟩
    · rwa [hprev p hpl hp]
    · exact hb.mem_live_of_refs (y := p) hp (mem_refOf.2 hq)

theorem Keeps.holds (hk : Keeps h h') (hb : Balanced h'.toHeap ext)
    (ht : ∀ p, t = some p → p ∈ h'.live) (hs : h.Holds stack t) : h'.Holds stack t :=
  hs.congr hb ht (fun q _ => hk.id q) fun q _ => hk.prev q

@[simp] theorem node_put_self (h : StackNodes) (p : Nat) (x : CallStackNode) :
    (h.put p x).node p = x := Function.update_self ..

theorem node_put_of_ne (h : StackNodes) (x : CallStackNode) (hne : q ≠ p) :
    (h.put p x).node q = h.node q :=
  Function.update_of_ne hne ..

/-! ### References -/

/-- A count is changed. -/
theorem addRef_spec (hp : p ∈ h.live) (d : Int) : ∃ h', h.addRef p d = some h' ∧ h'.live = h.live ∧
    h'.freeList = h.freeList ∧
    h'.brk = h.brk ∧ (∀ q, (h'.node q).id = (h.node q).id) ∧
    (∀ q, (h'.node q).prev = (h.node q).prev) ∧
    (h'.node p).refCount = (h.node p).refCount + d ∧ h'.toHeap = h.toHeap.addRef p d ∧ ∀ q, q ≠ p →
    h'.node q = h.node q := by
  have hnode : ∀ q, ((h.put p { h.node p with refCount := (h.node p).refCount + d }).node q) =
      { h.node q with
        refCount := if q = p then (h.node p).refCount + d else (h.node q).refCount } := fun q => by
    by_cases hqp : q = p
    · subst hqp
      rw [node_put_self, if_pos rfl]
    · rw [node_put_of_ne h _ hqp, if_neg hqp]
  refine ⟨_, if_pos hp, rfl, rfl, rfl, fun q => by rw [hnode], fun q => by rw [hnode],
    by rw [hnode, if_pos rfl], ?_, fun q hq => node_put_of_ne h _ hq⟩
  have hcount :
      (fun q => ((h.put p { h.node p with refCount := (h.node p).refCount + d }).node q).refCount) =
      Function.update (fun q => (h.node q).refCount) p ((h.node p).refCount + d) :=
    funext fun q => by
    rw [hnode, Function.update_apply]
  simp only [toHeap, Heap.addRef, hcount]
  exact congrArg (Heap.mk _ _) (funext fun q => by rw [hnode])

theorem Free.congr (hf : Free h l) (hlive : h'.live = h.live) (hlist : h'.freeList = h.freeList)
    (hbrk : h'.brk = h.brk) (hprev : ∀ q ∈ l, (h'.node q).prev = (h.node q).prev) : Free h' l where
  linked := by
    rw [hlist]
    exact hf.linked.congr hprev
  nodup := hf.nodup
  apart := by rw [hlive]; exact hf.apart
  freeBelow := by rw [hbrk]; exact hf.freeBelow
  liveBelow := by rw [hlive, hbrk]; exact hf.liveBelow

theorem retain_spec (hb : Balanced h.toHeap ext) (hf : Free h l) (hp : p ∈ h.live) :
    ∃ h', h.addRef p 1 = some h' ∧ Balanced h'.toHeap (p ::ₘ ext) ∧ Free h' l ∧ Keeps h h' := by
  obtain ⟨h', he, hlive, hlist, hbrk, hid, hprev, -, hheap, -⟩ := addRef_spec hp 1
  refine ⟨h', he, ?_, hf.congr hlive hlist hbrk fun q _ => hprev q, ?_, fun q _ => hid q,
    fun q _ => hprev q⟩
  · rw [hheap]
    exact hb.retain hp
  · rw [hlive]

/-- The destructor of `p` has begun: nothing else has changed. -/
structure Begun (h : StackNodes) (p : Nat) (h' : StackNodes) : Prop where
  live : h'.live = h.live.erase p
  node : ∀ q, q ≠ p → h'.node q = h.node q
  freeList : h'.freeList = h.freeList
  brk : h'.brk = h.brk

namespace Begun

theorem balanced (hg : Begun h p h') (hb : Balanced h.toHeap (p ::ₘ ext))
    (hc : (h.node p).refCount = 1) : Balanced h'.toHeap (refOf (h.node p).prev + ext) := by
  refine (hb.free hc).congr hg.live (fun q hq => ?_) fun q hq => ?_
  · exact congrArg CallStackNode.refCount (hg.node q (Finset.mem_erase.1 hq).1)
  · exact congrArg (fun x : CallStackNode => refOf x.prev) (hg.node q (Finset.mem_erase.1 hq).1)

theorem keeps (hg : Begun h p h') : Keeps h h' where
  live := by
    rw [hg.live]
    exact Finset.erase_subset ..
  id q hq := by
    rw [hg.live] at hq
    rw [hg.node q (Finset.mem_erase.1 hq).1]
  prev q hq := by
    rw [hg.live] at hq
    rw [hg.node q (Finset.mem_erase.1 hq).1]

theorem free (hg : Begun h p h') (hf : Free h l) (hp : p ∈ h.live) : Free h' l where
  linked := by
    rw [hg.freeList]
    refine hf.linked.congr fun q hq => ?_
    rw [hg.node q (show q ≠ p from fun heq => hf.apart q hq (heq ▸ hp))]
  nodup := hf.nodup
  apart q hq hmem := hf.apart q hq (hg.keeps.live hmem)
  freeBelow := by rw [hg.brk]; exact hf.freeBelow
  liveBelow q hq := by
    rw [hg.brk]
    exact hf.liveBelow q (hg.keeps.live hq)

end Begun

theorem node_operatorDelete (h : StackNodes) (hne : q ≠ p) :
    (h.operatorDelete p).node q = h.node q := node_put_of_ne h _ hne

/-- Storage that is no node's goes on the list. -/
theorem Free.operatorDelete (hf : Free h l) (hp : p ∉ h.live) (hpl : p ∉ l) (hbrk : p < h.brk) :
    Free (h.operatorDelete p) (p :: l) where
  linked := by
    refine ⟨rfl, ?_⟩
    have hself : ((h.operatorDelete p).node p).prev = h.freeList :=
      congrArg CallStackNode.prev (node_put_self h p { h.node p with prev := h.freeList })
    rw [hself]
    refine hf.linked.congr fun q hq => ?_
    rw [node_operatorDelete h (show q ≠ p from fun heq => hpl (heq ▸ hq))]
  nodup := List.nodup_cons.2 ⟨hpl, hf.nodup⟩
  apart q hq := by
    rcases List.mem_cons.1 hq with rfl | hq
    · exact hp
    · exact hf.apart q hq
  freeBelow q hq := by
    rcases List.mem_cons.1 hq with rfl | hq
    · exact hbrk
    · exact hf.freeBelow q hq
  liveBelow := hf.liveBelow

theorem operatorDelete_balanced (hb : Balanced h.toHeap ext) (hp : p ∉ h.live) :
    Balanced (h.operatorDelete p).toHeap ext := by
  have hnode : ∀ q ∈ h.live, (h.operatorDelete p).node q = h.node q := fun q hq =>
    node_operatorDelete h (show q ≠ p from fun heq => hp (heq ▸ hq))
  refine hb.congr rfl (fun q hq => ?_) fun q hq => ?_
  · exact congrArg CallStackNode.refCount (hnode q hq)
  · exact congrArg (fun x : CallStackNode => refOf x.prev) (hnode q hq)

theorem operatorDelete_keeps (hp : p ∉ h.live) : Keeps h (h.operatorDelete p) := by
  have hnode : ∀ q ∈ h.live, (h.operatorDelete p).node q = h.node q := fun q hq =>
    node_operatorDelete h (show q ≠ p from fun heq => hp (heq ▸ hq))
  exact ⟨Finset.Subset.refl _, fun q hq => congrArg CallStackNode.id (hnode q hq),
    fun q hq => congrArg CallStackNode.prev (hnode q hq)⟩

/-- A reference goes, and with it the nodes that have none left. The induction
is on the nodes that are there. -/
theorem releaseIn_spec (n : Nat) : ∀ (h : StackNodes) (p : Nat) (l : List Nat), h.live.card ≤ n →
    Balanced h.toHeap (p ::ₘ ext) → Free h l →
    ∃ h' freed, releaseIn n h p = some h' ∧ Balanced h'.toHeap ext ∧
      Free h' (freed ++ l) ∧ (∀ q ∈ freed, q ∈ h.live) ∧ Keeps h h' ∧ h'.brk = h.brk := by
  induction n with
  | zero =>
    intro h p l hn hb hf
    have hp : p ∈ h.live := hb.mem_live (Multiset.mem_cons_self ..)
    exact absurd (Finset.card_pos.2 ⟨p, hp⟩) (by omega)
  | succ n ih =>
    intro h p l hn hb hf
    have hp : p ∈ h.live := hb.mem_live (Multiset.mem_cons_self ..)
    have hpl : p ∉ l := fun hmem => hf.apart p hmem hp
    obtain ⟨h₁, he, hlive, hlist, hbrk, hid, hprev, hcount, hheap, hnode⟩ := addRef_spec hp (-1)
    rw [releaseIn, he]
    simp only [Option.bind_eq_bind, Option.bind_some]
    split
    · next hne =>
      refine ⟨h₁, [], rfl, ?_, hf.congr hlive hlist hbrk fun q _ => hprev q, by simp,
        ⟨by rw [hlive], fun q _ => hid q, fun q _ => hprev q⟩, hbrk⟩
      rw [hheap]
      exact hb.drop (show (h.node p).refCount ≠ 1 by omega)
    · next hzero =>
      have hone : (h.node p).refCount = 1 := by omega
      -- once what the node held is released, its storage goes on the list
      have hend : ∀ (h₂ : StackNodes) (freed : List Nat), Balanced h₂.toHeap ext →
          Free h₂ (freed ++ l) → Keeps h h₂ →
          p ∉ h₂.live → h₂.brk = h.brk → (∀ q ∈ freed, q ∈ h.live ∧ q ≠ p) →
          ∃ h' freed, some (h₂.operatorDelete p) = some h' ∧ Balanced h'.toHeap ext ∧
          Free h' (freed ++ l) ∧
            (∀ q ∈ freed, q ∈ h.live) ∧ Keeps h h' ∧ h'.brk = h.brk := by
        intro h₂ freed hb₂ hf₂ hk₂ hp₂ hbrk₂ hfreed
        have hpfreed : p ∉ freed ++ l :=
          fun hmem => (List.mem_append.1 hmem).elim (fun hq => (hfreed p hq).2 rfl) hpl
        refine ⟨_, p :: freed, rfl, operatorDelete_balanced hb₂ hp₂,
          hf₂.operatorDelete hp₂ hpfreed ?_, fun q hq => ?_,
          hk₂.trans (operatorDelete_keeps hp₂), hbrk₂⟩
        · rw [hbrk₂]
          exact hf.liveBelow p hp
        rcases List.mem_cons.1 hq with rfl | hq
        · exact hp
        · exact (hfreed q hq).1
      split
      · next oldPrev hpv =>
        have hg :
          Begun h p ({ h₁ with live := h₁.live.erase p }.put p { h₁.node p with prev := none }) :=
          ⟨by rw [← hlive]; rfl, fun q hq => (node_put_of_ne _ _ hq).trans
            (hnode q hq), hlist, hbrk⟩
        have hb₂ := hg.balanced hb hone
        rw [← hprev, hpv, refOf, Option.elim, Multiset.singleton_add] at hb₂
        have hcard : (h₁.live.erase p).card ≤ n := by
          rw [hlive, Finset.card_erase_of_mem hp]
          omega
        obtain ⟨h₃, freed, he₃, hb₃, hf₃, hfreed, hk₃, hbrk₃⟩ :=
          ih _ oldPrev l hcard hb₂ (hg.free hf hp)
        rw [he₃]
        refine hend h₃ freed hb₃ hf₃ (hg.keeps.trans hk₃) (fun hmem => ?_)
          (hbrk₃.trans hg.brk) fun q hq => ?_
        · exact Finset.notMem_erase p h₁.live (hk₃.live hmem)
        · have hq : q ∈ h₁.live.erase p := hfreed q hq
          exact ⟨hlive ▸ Finset.mem_of_mem_erase hq, (Finset.mem_erase.1 hq).1⟩
      · next hpv =>
        have hg : Begun h p { h₁ with live := h₁.live.erase p } :=
          ⟨by rw [← hlive], hnode, hlist, hbrk⟩
        have hb₂ := hg.balanced hb hone
        rw [← hprev, hpv, refOf, Option.elim, zero_add] at hb₂
        exact hend _ [] hb₂ (hg.free hf hp) hg.keeps
          (Finset.notMem_erase p h₁.live) hg.brk (by simp)

theorem retainTail_spec (hb : Balanced h.toHeap ext) (hf : Free h l)
    (ht : ∀ p, t = some p → p ∈ h.live) :
    ∃ h', h.retainTail t = some h' ∧ Balanced h'.toHeap (refOf t + ext) ∧ Free h' l ∧
    Keeps h h' := by
  cases t with
  | none => exact ⟨h, rfl, by rwa [refOf, Option.elim, zero_add], hf, .refl h⟩
  | some p =>
    rw [refOf, Option.elim, Multiset.singleton_add]
    exact retain_spec hb hf (ht p rfl)

theorem releaseTail_spec (hb : Balanced h.toHeap (refOf t + ext)) (hf : Free h l) :
    ∃ h' l', h.releaseTail t = some h' ∧ Balanced h'.toHeap ext ∧ Free h' l' ∧ Keeps h h' := by
  cases t with
  | none => exact ⟨h, l, rfl, by rwa [refOf, Option.elim, zero_add] at hb, hf, .refl h⟩
  | some p =>
    rw [refOf, Option.elim, Multiset.singleton_add] at hb
    obtain ⟨h', freed, he, hb', hf', -, hk, -⟩ := releaseIn_spec _ h p l (Nat.le_refl _) hb hf
    exact ⟨h', _, he, hb', hf', hk⟩

/-- The storage given out is that of no node. -/
theorem operatorNew_spec (hf : Free h l) :
    ∃ l', h.operatorNew.1 ∉ h.live ∧ Free h.operatorNew.2 l' ∧ h.operatorNew.1 ∉ l' ∧
    h.operatorNew.1 < h.operatorNew.2.brk ∧ h.operatorNew.2.live = h.live ∧
    h.operatorNew.2.node = h.node := by
  have hlinked := hf.linked
  cases l with
  | nil =>
    have hnone : h.freeList = none := hlinked
    have hnew : h.operatorNew = (h.brk, { h with brk := h.brk + 1 }) := by rw [operatorNew, hnone]
    rw [hnew]
    exact ⟨[], fun hmem => Nat.lt_irrefl _ (hf.liveBelow _ hmem),
      ⟨hnone, .nil, by simp, by simp, fun q hq => Nat.lt_succ_of_lt (hf.liveBelow q hq)⟩, by simp,
      Nat.lt_succ_self _, rfl, rfl⟩
  | cons q l =>
    have hsome : h.freeList = some q := hlinked.1
    have hnew : h.operatorNew = (q, { h with freeList := (h.node q).prev }) := by
      rw [operatorNew, hsome]
    obtain ⟨hql, hnodup⟩ := List.nodup_cons.1 hf.nodup
    rw [hnew]
    exact ⟨l, hf.apart q (by simp),
      ⟨hlinked.2.congr fun _ _ => rfl, hnodup, fun r hr => hf.apart r (by simp [hr]),
      fun r hr => hf.freeBelow r (by simp [hr]), hf.liveBelow⟩, hql,
      hf.freeBelow q (by simp), rfl, rfl⟩

/-- A node that is new, and one reference more to the one before it. -/
theorem balanced_of_new {t : Option Nat} (hb : Balanced h.toHeap ext)
    (ht : ∀ q, t = some q → q ∈ h.live) (hp : p ∉ h.live)
    (hlive : h'.live = insert p h.live) (hpc : (h'.node p).refCount = 1)
    (hpp : (h'.node p).prev = t)
    (hcount : ∀ q ∈ h.live, (h'.node q).refCount = (h.node q).refCount + if t =
      some q then 1 else 0)
    (hprev : ∀ q ∈ h.live, (h'.node q).prev = (h.node q).prev) :
    Balanced h'.toHeap (p ::ₘ ext) := by
  have hne : ∀ q ∈ h.live, q ≠ p := fun q hq heq => hp (heq ▸ hq)
  have hrefs : ∀ q ∈ insert p h.live, refOf (h'.node q).prev =
      Function.update (fun q => refOf (h.node q).prev) p (refOf t) q := fun q hq => by
    rcases Finset.mem_insert.1 hq with rfl | hq
    · rw [Function.update_self, hpp]
    · rw [Function.update_of_ne (hne q hq), hprev q hq]
  cases t with
  | none =>
    have hb' : Balanced (h.toHeap.alloc p 0) (p ::ₘ ext) := .alloc (by rwa [zero_add]) hp
    refine hb'.congr hlive (fun q hq => ?_) hrefs
    show (h'.node q).refCount = Function.update (fun q => (h.node q).refCount) p 1 q
    rcases Finset.mem_insert.1 hq with rfl | hq
    · rw [Function.update_self, hpc]
    · rw [Function.update_of_ne (hne q hq), hcount q hq, if_neg (by simp), add_zero]
  | some r =>
    have hr := ht r rfl
    have hb' := hb.retain (x := r) hr
    rw [← Multiset.singleton_add] at hb'
    refine (Balanced.alloc (x := p) hb' hp).congr hlive (fun q hq => ?_) hrefs
    show (h'.node q).refCount =
      Function.update (Function.update (fun q => (h.node q).refCount) r _) p 1 q
    rcases Finset.mem_insert.1 hq with rfl | hq
    · rw [Function.update_self, hpc]
    · rw [Function.update_of_ne (hne q hq), hcount q hq, Function.update_apply]
      by_cases hqr : q = r
      · subst hqr
        rw [if_pos rfl, if_pos rfl]
        rfl
      · rw [if_neg (fun heq => hqr (Option.some.inj heq).symm), if_neg hqr, add_zero]

theorem create_spec (id : CallID) (hb : Balanced h.toHeap ext) (hf : Free h l)
    (ht : ∀ q, t = some q → q ∈ h.live) :
    ∃ p h' l', h.create id t = some (p, h') ∧ Balanced h'.toHeap (p ::ₘ ext) ∧
    Free h' l' ∧ p ∉ h.live ∧
      h'.live = insert p h.live ∧ (h'.node p).id = id ∧ (h'.node p).prev = t ∧
      (∀ q ∈ h.live, (h'.node q).id = (h.node q).id) ∧
      ∀ q ∈ h.live, (h'.node q).prev = (h.node q).prev := by
  obtain ⟨l', hp, hf₁, hpl', hbrk, hlive, hnode⟩ := operatorNew_spec hf
  generalize hnew : h.operatorNew = new at *
  obtain ⟨p, h₁⟩ := new
  simp only at hp hf₁ hpl' hbrk hlive hnode
  have hne : ∀ q ∈ h.live, q ≠ p := fun q hq heq => hp (heq ▸ hq)
  generalize hh₂ :
    ({ h₁.put p { id, prev := t, refCount := 1 } with live := insert p h₁.live } : StackNodes) = h₂
  have hlive₂ : h₂.live = insert p h.live := by rw [← hlive, ← hh₂]
  have hself : h₂.node p = { id, prev := t, refCount := 1 } := by rw [← hh₂]; exact node_put_self ..
  have hother : ∀ q, q ≠ p → h₂.node q = h.node q := fun q hq => by
    rw [← hh₂, ← hnode]
    exact node_put_of_ne _ _ hq
  have hf₂ : Free h₂ l' := by
    refine ⟨?_, hf₁.nodup, fun q hq => ?_, ?_, fun q hq => ?_⟩
    · rw [← hh₂]
      refine hf₁.linked.congr fun q hq => ?_
      exact congrArg CallStackNode.prev
        (node_put_of_ne _ _ (show q ≠ p from fun heq => hpl' (heq ▸ hq)))
    · rw [hlive₂, Finset.mem_insert, ← hlive]
      exact fun hmem => hmem.elim (fun heq => hpl' (heq ▸ hq)) (hf₁.apart q hq)
    · rw [← hh₂]
      exact hf₁.freeBelow
    · have hbrk₂ : h₂.brk = h₁.brk := by rw [← hh₂]; rfl
      rw [hbrk₂]
      rw [hlive₂, ← hlive] at hq
      rcases Finset.mem_insert.1 hq with rfl | hq
      · exact hbrk
      · exact hf₁.liveBelow q hq
  simp only [create, hnew, hh₂]
  cases t with
  | none =>
    refine ⟨p, h₂, l', rfl, ?_, hf₂, hp, hlive₂, by rw [hself], by rw [hself],
      fun q hq => by rw [hother q (hne q hq)], fun q hq => by rw [hother q (hne q hq)]⟩
    exact balanced_of_new hb ht hp hlive₂ (by rw [hself]) (by rw [hself])
      (fun q hq => by rw [hother q (hne q hq), if_neg (by simp), add_zero]) fun q hq => by
      rw [hother q (hne q hq)]
  | some r =>
    have hr : r ∈ h₂.live := by
      rw [hlive₂]
      exact Finset.mem_insert_of_mem (ht r rfl)
    obtain ⟨h₃, he, hlive₃, hlist, hbrk₃, hid₃, hprev₃, hcount₃, -, hnode₃⟩ := addRef_spec hr 1
    simp only [he, Option.bind_eq_bind, Option.bind_some]
    have hid : ∀ q ∈ h.live, (h₃.node q).id = (h.node q).id :=
      fun q hq => by rw [hid₃, hother q (hne q hq)]
    have hprev : ∀ q ∈ h.live, (h₃.node q).prev = (h.node q).prev :=
      fun q hq => by rw [hprev₃, hother q (hne q hq)]
    refine ⟨p, h₃, l', rfl, ?_, hf₂.congr hlive₃ hlist hbrk₃ fun q _ => hprev₃ q, hp,
      hlive₃.trans hlive₂, by rw [hid₃, hself], by rw [hprev₃, hself], hid, hprev⟩
    refine balanced_of_new hb ht hp (hlive₃.trans hlive₂) ?_ (by rw [hprev₃, hself])
      (fun q hq => ?_) hprev
    · rw [hnode₃ p (hne r (ht r rfl)).symm, hself]
    · by_cases hqr : q = r
      · subst hqr
        rw [hcount₃, hother q (hne q hq), if_pos rfl]
      · rw [hnode₃ q hqr, hother q (hne q hq),
          if_neg (fun heq => hqr (Option.some.inj heq).symm), add_zero]

end StackNodes

namespace CallStacks

variable {s : CallStacks} {m m' : Nat → Option CallStack} {objs : Finset Nat}
  {tail : Nat → Option Nat} {i j : Nat}

/-- The references that handles are. -/
def tails (objs : Finset Nat) (tail : Nat → Option Nat) : Multiset Nat :=
  owned objs fun i => refOf (tail i)

theorem mem_tails (hi : i ∈ objs) {p : Nat} (hp : tail i = some p) : p ∈ tails objs tail :=
  mem_owned hi (mem_refOf.2 hp)

theorem tails_erase (hi : i ∈ objs) :
    refOf (tail i) + tails (objs.erase i) tail = tails objs tail := owned_erase hi

theorem tails_congr {tail' : Nat → Option Nat} (h : ∀ k ∈ objs, tail' k = tail k) :
    tails objs tail' = tails objs tail :=
  owned_congr fun k hk => congrArg refOf (h k hk)

theorem tails_insert (objs : Finset Nat) (tail : Nat → Option Nat) (i : Nat) (t : Option Nat) :
    tails (insert i objs) (Function.update tail i t) = refOf t + tails (objs.erase i) tail := by
  have hcomp : (fun k => refOf (Function.update tail i t k)) =
    Function.update (fun k => refOf (tail k)) i (refOf t) := Function.comp_update refOf tail i t
  rw [tails, hcomp, owned_insert, tails]

theorem tails_update (hi : i ∈ objs) (t : Option Nat) :
    tails objs (Function.update tail i t) = refOf t + tails (objs.erase i) tail := by
  rw [← tails_insert, Finset.insert_eq_of_mem hi]

theorem tails_new (hi : i ∉ objs) (t : Option Nat) :
    tails (insert i objs) (Function.update tail i t) = refOf t + tails objs tail := by
  rw [tails_insert, Finset.erase_eq_of_notMem hi]

/-- The counts balance, the storage is in order, and the handles hold what
they should. -/
structure Sound (s : CallStacks) (m : Nat → Option CallStack) : Prop where
  balanced : Balanced s.nodes.toHeap (tails s.objs s.tail)
  free : ∃ l, StackNodes.Free s.nodes l
  objs : ∀ i, i ∈ s.objs ↔ (m i).isSome
  holds : ∀ i stack, m i = some stack → s.nodes.Holds stack (s.tail i)

namespace Sound

theorem tail_live (h : Sound s m) (hi : i ∈ s.objs) : ∀ p, s.tail i = some p → p ∈ s.nodes.live :=
  fun _ hp =>
  h.balanced.mem_live (mem_tails hi hp)

/-- After nodes may have gone, if the handles are sound with the old ones. -/
theorem of_keeps {nodes nodes' : StackNodes} {l : List Nat} (hk : StackNodes.Keeps nodes nodes')
    (hb : Balanced nodes'.toHeap (tails objs tail)) (hf : nodes'.Free l)
    (hobjs : ∀ i, i ∈ objs ↔ (m i).isSome)
    (hh : ∀ i stack, m i = some stack → nodes.Holds stack (tail i)) :
    Sound ⟨nodes', objs, tail⟩ m where
  balanced := hb
  free := ⟨l, hf⟩
  objs := hobjs
  holds i stack hm := by
    have hi : i ∈ objs := (hobjs i).2 (by rw [hm]; rfl)
    exact hk.holds hb (fun p hp => hb.mem_live (mem_tails hi hp)) (hh i stack hm)

theorem objs_insert (h : Sound s m) (i : Nat) (stack : CallStack) (k : Nat) :
    k ∈ insert i s.objs ↔ (Function.update m i (some stack) k).isSome := by
  rw [Finset.mem_insert, h.objs k, Function.update_apply]
  split <;> simp [*]

theorem objs_update (h : Sound s m) (hi : i ∈ s.objs) (stack : CallStack) (k : Nat) :
    k ∈ s.objs ↔ (Function.update m i (some stack) k).isSome := by
  rw [← h.objs_insert, Finset.insert_eq_of_mem hi]

/-- The sequence of one handle is set, those of the others are as they were. -/
theorem holds_update {nodes : StackNodes} {stack : CallStack} {t : Option Nat}
    (hh : ∀ k stack, k ≠ i → m k = some stack → nodes.Holds stack (tail k))
    (hi : nodes.Holds stack t) :
    ∀ k stack', Function.update m i (some stack) k = some stack' →
    nodes.Holds stack' (Function.update tail i t k) := by
  intro k stack' hm
  by_cases hki : k = i
  · subst hki
    rw [Function.update_self] at hm ⊢
    cases hm
    exact hi
  · rw [Function.update_of_ne hki] at hm ⊢
    exact hh k stack' hki hm

theorem create (h : Sound s m) (hi : m i = none) :
    ∃ s', s.create i = some s' ∧ Sound s' (Function.update m i (some [])) := by
  have hni : i ∉ s.objs := fun hmem => by simpa [hi] using (h.objs i).1 hmem
  obtain ⟨l, hf⟩ := h.free
  refine ⟨_, if_neg hni, of_keeps (.refl s.nodes) ?_ hf (h.objs_insert i [])
    (holds_update (fun k stack _ => h.holds k stack) rfl)⟩
  rw [tails_new hni, refOf, Option.elim, zero_add]
  exact h.balanced

theorem copy (h : Sound s m) (hi : m i = none) {stack : CallStack} (hj : m j = some stack) :
    ∃ s', s.copy i j = some s' ∧ Sound s' (Function.update m i (some stack)) := by
  have hni : i ∉ s.objs := fun hmem => by simpa [hi] using (h.objs i).1 hmem
  have hjo : j ∈ s.objs := (h.objs j).2 (by rw [hj]; rfl)
  obtain ⟨l, hf⟩ := h.free
  obtain ⟨nodes, he, hb, hf', hk⟩ := StackNodes.retainTail_spec h.balanced hf (h.tail_live hjo)
  refine ⟨_, by rw [CallStacks.copy, if_pos ⟨hni, hjo⟩, he]; rfl,
    of_keeps hk ?_ hf' (h.objs_insert i stack)
    (holds_update (fun k stack _ => h.holds k stack) (h.holds j stack hj))⟩
  rw [tails_new hni]
  exact hb

theorem destroy (h : Sound s m) {stack : CallStack} (hi : m i = some stack) :
    ∃ s', s.destroy i = some s' ∧ Sound s' (Function.update m i none) := by
  have hio : i ∈ s.objs := (h.objs i).2 (by rw [hi]; rfl)
  obtain ⟨l, hf⟩ := h.free
  have hb := h.balanced
  rw [← tails_erase hio] at hb
  obtain ⟨nodes, l', he, hb', hf', hk⟩ := StackNodes.releaseTail_spec hb hf
  refine ⟨_, by rw [CallStacks.destroy, if_pos hio, he]; rfl,
    of_keeps hk ?_ hf' (fun k => ?_) fun k stack' hm => ?_⟩
  · rwa [tails_congr fun k hk => Function.update_of_ne (Finset.mem_erase.1 hk).1 ..]
  · rw [Finset.mem_erase, h.objs k, Function.update_apply]
    split <;> simp [*]
  · have hki : k ≠ i := fun heq => by simp [heq] at hm
    rw [Function.update_of_ne hki] at hm ⊢
    exact h.holds k stack' hm

theorem assign (h : Sound s m) (hi : (m i).isSome) {stack : CallStack} (hj : m j = some stack) :
    ∃ s', s.assign i j = some s' ∧ Sound s' (Function.update m i (some stack)) := by
  have hio : i ∈ s.objs := (h.objs i).2 hi
  have hjo : j ∈ s.objs := (h.objs j).2 (by rw [hj]; rfl)
  obtain ⟨l, hf⟩ := h.free
  obtain ⟨nodes₁, he₁, hb₁, hf₁, hk₁⟩ := StackNodes.retainTail_spec h.balanced hf (h.tail_live hjo)
  rw [← tails_erase hio, add_left_comm] at hb₁
  obtain ⟨nodes₂, l', he₂, hb₂, hf₂, hk₂⟩ := StackNodes.releaseTail_spec hb₁ hf₁
  refine ⟨_, ?_, of_keeps (hk₁.trans hk₂) ?_ hf₂ (h.objs_update hio stack)
    (holds_update (fun k stack _ => h.holds k stack) (h.holds j stack hj))⟩
  · rw [CallStacks.assign, if_pos ⟨hio, hjo⟩]
    simp only [Function.update_self, he₁, he₂, Option.bind_eq_bind, Option.bind_some]
    rfl
  · rw [tails_update hio]
    exact hb₂

theorem push (h : Sound s m) {stack : CallStack} (hi : m i = some stack) (id : CallID) :
    ∃ s', s.push i id = some s' ∧ Sound s' (Function.update m i (some (id :: stack))) := by
  have hio : i ∈ s.objs := (h.objs i).2 (by rw [hi]; rfl)
  obtain ⟨l, hf⟩ := h.free
  obtain ⟨p, nodes₁, l', he₁, hb₁, hf₁, hp, hlive₁, hid₁, hprev₁, hids, hprevs⟩ :=
    StackNodes.create_spec id h.balanced hf (h.tail_live hio)
  have hold : ∀ k stack, m k = some stack → nodes₁.Holds stack (s.tail k) := fun k stack hk =>
    (h.holds k stack hk).congr hb₁ (fun q hq => hb₁.mem_live (Multiset.mem_cons_of_mem
      (mem_tails ((h.objs k).2 (by rw [hk]; rfl)) hq)))
      (fun q hq _ => hids q hq) fun q hq _ => hprevs q hq
  have hnew : nodes₁.Holds (id :: stack) (some p) :=
    ⟨p, by rw [hlive₁]; exact Finset.mem_insert_self .., rfl, hid₁,
      by rw [hprev₁]; exact hold i stack hi⟩
  have hdone : ∀ nodes₂ : StackNodes, Balanced nodes₂.toHeap (p ::ₘ tails (s.objs.erase i) s.tail) →
      nodes₂.Free l' → StackNodes.Keeps nodes₁ nodes₂ →
      Sound ⟨nodes₂, s.objs, Function.update s.tail i (some p)⟩
      (Function.update m i (some (id :: stack))) :=
    fun nodes₂ hb₂ hf₂ hk₂ => of_keeps hk₂ (by rw [tails_update hio]; exact hb₂) hf₂
    (h.objs_update hio _)
      (holds_update (fun k stack _ => hold k stack) hnew)
  rw [← tails_erase hio] at hb₁
  rw [CallStacks.push, if_pos hio, he₁]
  simp only [Option.bind_eq_bind, Option.bind_some, hprev₁]
  cases htail : s.tail i with
  | none =>
    rw [htail, refOf, Option.elim, zero_add] at hb₁
    exact ⟨_, rfl, hdone nodes₁ hb₁ hf₁ (.refl _)⟩
  | some q =>
    rw [htail, refOf, Option.elim, Multiset.singleton_add, Multiset.cons_swap] at hb₁
    have hq : q ∈ nodes₁.live := hb₁.mem_live (Multiset.mem_cons_self ..)
    obtain ⟨nodes₂, he₂, hlive₂, hlist, hbrk, hid₂, hprev₂, -, hheap, -⟩ :=
      StackNodes.addRef_spec hq (-1)
    -- the new node and the old tail are two references
    have hheld : q ∈ nodes₁.toHeap.held := Multiset.mem_sum.2 ⟨p, by
      show p ∈ nodes₁.live
      rw [hlive₁]
      exact Finset.mem_insert_self .., mem_refOf.2 (by rw [hprev₁, htail])⟩
    have htwo : nodes₁.toHeap.count q ≠ 1 := by
      have hcount := hb₁.count q hq
      have := Multiset.count_pos.2 hheld
      rw [Multiset.count_add, Multiset.count_cons_self] at hcount
      omega
    have hb₂ := hb₁.drop htwo
    rw [← hheap] at hb₂
    exact ⟨_, by simp only [he₂]; rfl,
      hdone nodes₂ hb₂ (hf₁.congr hlive₂ hlist hbrk fun r _ => hprev₂ r)
      ⟨by rw [hlive₂], fun r _ => hid₂ r, fun r _ => hprev₂ r⟩⟩

theorem pop (h : Sound s m) {id : CallID} {stack : CallStack} (hi : m i = some (id :: stack)) :
    ∃ s', s.pop i = some s' ∧ Sound s' (Function.update m i (some stack)) := by
  have hio : i ∈ s.objs := (h.objs i).2 (by rw [hi]; rfl)
  obtain ⟨p, hp, htail, -, hrest⟩ := h.holds i _ hi
  obtain ⟨l, hf⟩ := h.free
  have hprev : ∀ q, (s.nodes.node p).prev = some q → q ∈ s.nodes.live := fun q hq =>
    h.balanced.mem_live_of_refs (y := p) hp (mem_refOf.2 hq)
  obtain ⟨nodes₁, he₁, hb₁, hf₁, hk₁⟩ := StackNodes.retainTail_spec h.balanced hf hprev
  rw [← tails_erase hio, htail, add_left_comm] at hb₁
  obtain ⟨nodes₂, l', he₂, hb₂, hf₂, hk₂⟩ := StackNodes.releaseTail_spec hb₁ hf₁
  refine ⟨_, ?_, of_keeps (hk₁.trans hk₂) ?_ hf₂ (h.objs_update hio stack)
    (holds_update (fun k stack _ => h.holds k stack) hrest)⟩
  · have he₂ : nodes₁.release p = some nodes₂ := he₂
    rw [CallStacks.pop, if_pos hio, htail]
    simp only [Option.bind_eq_bind, Option.bind_some, if_pos hp, Function.update_self, he₁, he₂]
    rfl
  · rw [tails_update hio]
    exact hb₂

theorem step (h : Sound s m) {op : Op} (ho : op.apply m = some m') :
    ∃ s', s.step op = some s' ∧ Sound s' m' := by
  cases op with
  | create i =>
    simp only [Op.apply] at ho
    split at ho
    · cases ho
    · next hi =>
      cases ho
      exact h.create (Option.not_isSome_iff_eq_none.1 hi)
  | copy i j =>
    simp only [Op.apply] at ho
    split at ho
    · cases ho
    · next hi =>
      obtain ⟨stack, hj, rfl⟩ := Option.map_eq_some_iff.1 ho
      exact h.copy (Option.not_isSome_iff_eq_none.1 hi) hj
  | destroy i =>
    obtain ⟨stack, hi, rfl⟩ := Option.map_eq_some_iff.1 ho
    exact h.destroy hi
  | assign i j =>
    obtain ⟨old, hi, ho⟩ := Option.bind_eq_some_iff.1 ho
    obtain ⟨stack, hj, rfl⟩ := Option.map_eq_some_iff.1 ho
    exact h.assign (by rw [hi]; rfl) hj
  | push i id =>
    obtain ⟨stack, hi, rfl⟩ := Option.map_eq_some_iff.1 ho
    exact h.push hi id
  | pop i =>
    obtain ⟨stack, hi, ho⟩ := Option.bind_eq_some_iff.1 ho
    cases stack with
    | nil => cases ho
    | cons id stack =>
      cases ho
      exact h.pop hi

theorem persistent (h : Sound s m) : Persistent s m := by
  have hrefs : ∀ p, (s.nodes.toHeap.held + tails s.objs s.tail).count p = s.refs p := fun p => by
    rw [Multiset.count_add, Heap.held, tails, owned, Multiset.count_sum', Multiset.count_sum',
      refs, Nat.add_comm, Finset.card_filter, Finset.card_filter]
    exact congrArg₂ (· + ·) (Finset.sum_congr rfl fun i _ => count_refOf ..)
      (Finset.sum_congr rfl fun q _ => count_refOf ..)
  refine ⟨h.objs, h.holds, fun p hp => ?_, fun p => ?_⟩
  · have hcount := h.balanced.count p hp
    rwa [hrefs] at hcount
  · have hlive := h.balanced.live p
    rwa [← Multiset.count_pos, hrefs] at hlive

end Sound

theorem Sound.init : Sound init fun _ => none where
  balanced := ⟨by simp [StackNodes.toHeap, CallStacks.init, StackNodes.init],
    by simp [StackNodes.toHeap, CallStacks.init, StackNodes.init, Heap.held, tails, owned],
    fun _ => 0, by simp [StackNodes.toHeap, CallStacks.init, StackNodes.init]⟩
  free := ⟨[], rfl, .nil, by simp, by simp, by simp [CallStacks.init, StackNodes.init]⟩
  objs := by simp [CallStacks.init]
  holds := by simp

/-- **Persistence.** Whatever handles are made, copied, assigned, pushed,
popped and destroyed, no node is used after it is gone, each handle holds the
sequence that its own operations have made, and a node is there as long as
there are references to it, whose number is its count. -/
theorem run_persistent (ops : List Op) {m : Nat → Option CallStack}
    (ho : Op.applyAll ops = some m) : ∃ s, init.run ops = some s ∧ Persistent s m := by
  suffices ∃ s, init.run ops = some s ∧ Sound s m by
    obtain ⟨s, hs, h⟩ := this
    exact ⟨s, hs, h.persistent⟩
  induction ops using List.reverseRecOn generalizing m with
  | nil =>
    cases ho
    exact ⟨_, rfl, .init⟩
  | append_singleton ops op ih =>
    rw [Op.applyAll, List.foldlM_append] at ho
    obtain ⟨m₁, hm₁, ho⟩ := Option.bind_eq_some_iff.1 ho
    obtain ⟨s₁, hs₁, h₁⟩ := ih hm₁
    rw [List.foldlM_cons] at ho
    obtain ⟨m₂, hm₂, ho⟩ := Option.bind_eq_some_iff.1 ho
    cases ho
    obtain ⟨s₂, hs₂, h₂⟩ := h₁.step hm₂
    refine ⟨s₂, ?_, h₂⟩
    rw [CallStacks.run, List.foldlM_append, ← CallStacks.run, hs₁]
    simp [hs₂]

/-- The copy keeps what the other handle pops. -/
theorem run_persistent_shared : ∃ s, init.run
      [.create 0, .push 0 ⟨.call, 1⟩, .push 0 ⟨.spawn, 2⟩, .copy 1 0, .pop 0, .assign 0 0,
        .push 0 ⟨.loop, 3⟩, .destroy 0] = some s ∧
    Persistent s
    (Function.update
      (Function.update (fun _ => none) 1 (some [⟨.spawn, 2⟩, ⟨.call, 1⟩])) 0 none) := by
  refine run_persistent _ (congrArg some (funext fun k => ?_))
  by_cases h0 : k = 0
  · subst h0
    rfl
  · by_cases h1 : k = 1
    · subst h1
      rfl
    · simp [Function.update_of_ne h0, Function.update_of_ne h1]

end CallStacks

end Cilksan
