/-
Copies and moves of the objects that hold references (`dictionary.h`,
`race_info.h`): memory accesses, call stacks and access locations. A move that
takes the pointer and leaves it in the source makes two references of one.
-/
import CilkTools.Cilksan.PackedAccess
import CilkTools.Cilksan.SetNodes

namespace Cilksan

open RefCounts

/-- The node that the destructor will release, if there is one. -/
def PackedAccess.owns (m : PackedAccess) : Option Nat :=
  if m.verFunc ≠ 0#64 then some m.getFunc.toNat else none

/-- An object of type `MemoryAccess_t`, `call_stack_t` or `AccessLoc_t`. -/
inductive RefObj
  | access (m : PackedAccess)
  | stack (tail : Option Nat)
  | loc (accLoc : BitVec 64) (type : MAType) (tail : Option Nat)
  deriving DecidableEq, Repr

namespace RefObj

/-- The node of a set it refers to. -/
def node : RefObj → Option Nat
  | access m => m.owns
  | _ => none

/-- The node of a call stack it refers to. -/
def tail : RefObj → Option Nat
  | access _ => none
  | stack t => t
  | loc _ _ t => t

/-- Of one type. -/
def sameType : RefObj → RefObj → Bool
  | access _, access _ => true
  | stack _, stack _ => true
  | loc _ _ _, loc _ _ _ => true
  | _, _ => false

end RefObj

/-- The objects there are, the nodes, and the references to nodes of sets that
the bags hold. -/
structure Records where
  sets : SetNodes
  bags : Multiset Nat
  objs : Finset Nat
  obj : Nat → RefObj

/-- What is done with a pointer that may be null. -/
def SetNodes.incNode (h : SetNodes) : Option Nat → Option SetNodes
  | some d => h.incRefCount d
  | none => some h

def SetNodes.decNode (h : SetNodes) : Option Nat → Option SetNodes
  | some d => h.decRefCount d
  | none => some h

def SetNodes.retainTail (h : SetNodes) (t : Option Nat) : Option SetNodes :=
  (h.callNodes.retainTail t).map fun callNodes => { h with callNodes }

def SetNodes.releaseTail (h : SetNodes) (t : Option Nat) : Option SetNodes :=
  (h.callNodes.releaseTail t).map fun callNodes => { h with callNodes }

namespace Records

inductive Op
  | newAccess (i : Nat)
  | newStack (i : Nat)
  | newLoc (i : Nat)
  | accessOf (i : Nat) (func : BitVec 64) (version : BitVec 16) (typedId : BitVec 64)
  | locOf (i : Nat) (accLoc : BitVec 64) (type : MAType) (j : Nat)
  | copy (i j : Nat)
  | move (i j : Nat)
  | assign (i j : Nat)
  | moveAssign (i j : Nat)
  | set (i : Nat) (func : BitVec 64) (version : BitVec 16) (typedId : BitVec 64)
  | invalidate (i : Nat)
  | destroy (i : Nat)
  deriving DecidableEq, Repr

/-- The object is there, and is as given. -/
def put (s : Records) (i : Nat) (x : RefObj) (sets : SetNodes) : Records :=
  { s with sets, objs := insert i s.objs, obj := Function.update s.obj i x }

/-- A pointer to a node of a set, which may be null. -/
def funcNode (func : BitVec 64) : Option Nat := if func ≠ 0#64 then some func.toNat else none

/-- The copy constructor of `i`, for an object of `j`'s type. -/
def copy (s : Records) (i j : Nat) : Option Records :=
  match s.obj j with
  | .access m => (s.sets.incNode m.owns).map (s.put i (.access m))
  | .stack t => (s.sets.retainTail t).map (s.put i (.stack t))
  | .loc accLoc type t => (s.sets.retainTail t).map (s.put i (.loc accLoc type t))

/-- The move constructor. A call stack has none: it is copied. -/
def move (s : Records) (i j : Nat) : Option Records :=
  match s.obj j with
  | .access m => some (s.put i (.access m) s.sets)
  | .stack t => (s.sets.retainTail t).map (s.put i (.stack t))
  | .loc accLoc type t => some (s.put i (.loc accLoc type t) s.sets)

def assign (s : Records) (i j : Nat) : Option Records :=
  match s.obj i, s.obj j with
  | .access m, .access m' =>
    if m.verFunc ≠ m'.verFunc then do
      let sets ← s.sets.incNode m'.owns
      let sets ← sets.decNode m.owns
      return s.put i (.access (m.assign m')) sets
    else some (s.put i (.access (m.assign m')) s.sets)
  | .stack oldTail, .stack t => do
    let sets ← s.sets.retainTail t
    let sets ← sets.releaseTail oldTail
    return s.put i (.stack t) sets
  | .loc _ _ oldTail, .loc accLoc type t => do
    let sets ← s.sets.retainTail t
    let sets ← sets.releaseTail oldTail
    return s.put i (.loc accLoc type t) sets
  | _, _ => none

def moveAssign (s : Records) (i j : Nat) : Option Records :=
  match s.obj i, s.obj j with
  | .access m, .access m' => (s.sets.decNode m.owns).map (s.put i (.access m'))
  | .stack oldTail, .stack t => (s.sets.releaseTail oldTail).map (s.put i (.stack t))
  | .loc _ _ oldTail, .loc accLoc type t =>
    (s.sets.releaseTail oldTail).map (s.put i (.loc accLoc type t))
  | _, _ => none

def set (s : Records) (i : Nat) (func : BitVec 64) (version : BitVec 16) (typedId : BitVec 64) :
    Option Records :=
  match s.obj i with
  | .access m =>
    if m.getFunc ≠ func then do
      let sets ← s.sets.incNode (funcNode func)
      let sets ← sets.decNode (funcNode m.getFunc)
      return s.put i (.access (m.setTyped func version typedId)) sets
    else some (s.put i (.access (m.setTyped func version typedId)) s.sets)
  | _ => none

def invalidate (s : Records) (i : Nat) : Option Records :=
  match s.obj i with
  | .access m => (s.sets.decNode m.owns).map (s.put i (.access {}))
  | .loc _ type t =>
    (s.sets.releaseTail t).map (s.put i (.loc PackedAccess.UNKNOWN_CSI_ID type none))
  | .stack _ => none

def destroy (s : Records) (i : Nat) : Option Records := do
  let sets ← s.sets.decNode (s.obj i).node
  let sets ← sets.releaseTail (s.obj i).tail
  return { s with sets, objs := s.objs.erase i }

def step (s : Records) : Op → Option Records
  | .newAccess i => some (s.put i (.access {}) s.sets)
  | .newStack i => some (s.put i (.stack none) s.sets)
  | .newLoc i => some (s.put i (.loc PackedAccess.UNKNOWN_CSI_ID .unknown none) s.sets)
  | .accessOf i func version typedId =>
    (s.sets.incNode (funcNode func)).map
      (s.put i (.access ⟨PackedAccess.makeVerFunc func version, typedId⟩))
  | .locOf i accLoc type j =>
    (s.sets.retainTail (s.obj j).tail).map (s.put i (.loc accLoc type (s.obj j).tail))
  | .copy i j => s.copy i j
  | .move i j => s.move i j
  | .assign i j => s.assign i j
  | .moveAssign i j => s.moveAssign i j
  | .set i func version typedId => s.set i func version typedId
  | .invalidate i => s.invalidate i
  | .destroy i => s.destroy i

def run (s : Records) (ops : List Op) : Option Records := ops.foldlM step s

/-! ## What the program may do -/

/-- The objects are there or not, as the operation needs, and of its types;
the node of an access is there. -/
def Op.Applies (s : Records) : Op → Prop
  | newAccess i | newStack i | newLoc i => i ∉ s.objs
  | accessOf i func _ _ => i ∉ s.objs ∧ func.toNat ∈ s.sets.live
  | locOf i _ _ j => i ∉ s.objs ∧ j ∈ s.objs ∧ (s.obj j).sameType (.stack none)
  | copy i j | move i j => i ∉ s.objs ∧ j ∈ s.objs
  | assign i j | moveAssign i j => i ∈ s.objs ∧ j ∈ s.objs ∧ (s.obj i).sameType (s.obj j)
  | set i func _ _ => i ∈ s.objs ∧ (s.obj i).sameType (.access {}) ∧ func.toNat ∈ s.sets.live
  | invalidate i => i ∈ s.objs ∧ ¬ (s.obj i).sameType (.stack none)
  | destroy i => i ∈ s.objs

/-- A move takes nothing from its source, or it is the copy that a call stack
is constructed by. -/
def Op.TakesNothing (s : Records) : Op → Prop
  | move _ j => (s.obj j).sameType (.stack none) ∨ (s.obj j).node = none ∧ (s.obj j).tail = none
  | moveAssign _ j => (s.obj j).node = none ∧ (s.obj j).tail = none
  | _ => True

instance (s : Records) : (op : Op) → Decidable (op.Applies s)
  | .newAccess i | .newStack i | .newLoc i => inferInstanceAs (Decidable (i ∉ s.objs))
  | .accessOf i func _ _ => inferInstanceAs (Decidable (i ∉ s.objs ∧ func.toNat ∈ s.sets.live))
  | .locOf i _ _ j =>
    inferInstanceAs (Decidable (i ∉ s.objs ∧ j ∈ s.objs ∧ (s.obj j).sameType (.stack none)))
  | .copy i j | .move i j => inferInstanceAs (Decidable (i ∉ s.objs ∧ j ∈ s.objs))
  | .assign i j | .moveAssign i j =>
    inferInstanceAs (Decidable (i ∈ s.objs ∧ j ∈ s.objs ∧ (s.obj i).sameType (s.obj j)))
  | .set i func _ _ =>
    inferInstanceAs
      (Decidable (i ∈ s.objs ∧ (s.obj i).sameType (.access {}) ∧ func.toNat ∈ s.sets.live))
  | .invalidate i => inferInstanceAs (Decidable (i ∈ s.objs ∧ ¬ (s.obj i).sameType (.stack none)))
  | .destroy i => inferInstanceAs (Decidable (i ∈ s.objs))

instance (s : Records) : (op : Op) → Decidable (op.TakesNothing s)
  | .move _ j =>
    inferInstanceAs
      (Decidable ((s.obj j).sameType (.stack none) ∨ (s.obj j).node = none ∧ (s.obj j).tail = none))
  | .moveAssign _ j => inferInstanceAs (Decidable ((s.obj j).node = none ∧ (s.obj j).tail = none))
  | .newAccess _ | .newStack _ | .newLoc _ | .accessOf _ _ _ _ | .locOf _ _ _ _ | .copy _ _ |
    .assign _ _ | .set _ _ _ _
  | .invalidate _ | .destroy _ => inferInstanceAs (Decidable True)

/-- Each operation meets the condition in the state before it. -/
def Along (P : Records → Op → Prop) (s : Records) : List Op → Prop
  | [] => True
  | op :: ops => P s op ∧ ∀ s', s.step op = some s' → Along P s' ops

theorem Along.cons {P : Records → Op → Prop} {s s' : Records} {op : Op} {ops : List Op} (h : P s op)
    (he : s.step op = some s') (hs : Along P s' ops) : Along P s (op :: ops) := by
  refine ⟨h, fun s₁ he₁ => ?_⟩
  rw [he] at he₁
  cases he₁
  exact hs

/-- The references to a node of a set: bags, objects, and nodes that it is the
parent of. -/
def setRefs (s : Records) (d : Nat) : Nat :=
  s.bags.count d + (s.objs.filter fun i => (s.obj i).node = some d).card +
    (s.sets.live.filter fun x => (s.sets.node x).parent = some d).card

/-- The references to a node of a call stack: objects, nodes of sets whose
data it is, and nodes that it is before. -/
def stackRefs (s : Records) (p : Nat) : Nat :=
  (s.objs.filter fun i => (s.obj i).tail = some p).card +
    (s.sets.live.filter fun x => (s.sets.node x).data = some p).card +
    (s.sets.callNodes.live.filter fun q => (s.sets.callNodes.node q).prev = some p).card

/-- The counts are those of the references, and the nodes that are there are
those that have one. -/
structure Owned (s : Records) : Prop where
  setCount : ∀ d ∈ s.sets.live, (s.sets.node d).refCount = s.setRefs d
  setLive : ∀ d, d ∈ s.sets.live ↔ 0 < s.setRefs d
  stackCount : ∀ p ∈ s.sets.callNodes.live, (s.sets.callNodes.node p).refCount = s.stackRefs p
  stackLive : ∀ p, p ∈ s.sets.callNodes.live ↔ 0 < s.stackRefs p

/-- A reference-counted state. A node's address fits below a version. -/
structure RefCounted (s : Records) : Prop where
  counted : s.sets.Counted (s.bags + owned s.objs fun i => refOf (s.obj i).node)
    (owned s.objs fun i => refOf (s.obj i).tail)
  address : ∀ d ∈ s.sets.live, 0 < d ∧ d < 2 ^ 48

end Records

/-! ## Steps -/

namespace PackedAccess

variable {m : PackedAccess} {func : BitVec 64}

theorem owns_make (hf : func.toNat < 2 ^ 48) (hpos : 0 < func.toNat) (version : BitVec 16)
    (typedId : BitVec 64) :
    (PackedAccess.mk (makeVerFunc func version) typedId).owns = some func.toNat := by
  have hget := getFunc_makeVerFunc hf version typedId
  have hne : makeVerFunc func version ≠ 0#64 := fun hzero => by
    rw [getFunc, hzero, BitVec.zero_and] at hget
    rw [← hget] at hpos
    exact absurd hpos (Nat.lt_irrefl 0)
  rw [owns, if_pos hne, hget]

/-- The pointer and the word are null together. -/
theorem funcNode_getFunc (hpos : ∀ d, m.owns = some d → 0 < d) :
    Records.funcNode m.getFunc = m.owns := by
  by_cases hzero : m.verFunc = 0#64
  · have hget : m.getFunc = 0#64 := by rw [getFunc, hzero, BitVec.zero_and]
    rw [Records.funcNode, hget, owns, hzero]
    rfl
  · have howns : m.owns = some m.getFunc.toNat := if_pos hzero
    have hne : m.getFunc ≠ 0#64 := fun hget => by
      have := hpos _ howns
      rw [hget] at this
      exact absurd this (Nat.lt_irrefl 0)
    rw [Records.funcNode, if_pos hne, howns]

theorem owns_assign (m m' : PackedAccess) : (m.assign m').owns = m'.owns := by
  have hsame : (m.assign m').verFunc = m'.verFunc := by
    by_cases heq : m.verFunc = m'.verFunc <;> simp [assign, heq]
  rw [owns, owns, getFunc, getFunc, hsame]

/-- After `set` the record refers to the node, whether it did before or not. -/
theorem owns_setTyped (hf : func.toNat < 2 ^ 48) (hpos : 0 < func.toNat) (m : PackedAccess)
    (version : BitVec 16)
    (typedId : BitVec 64) : (m.setTyped func version typedId).owns = some func.toNat := by
  by_cases heq : m.getFunc = func
  · have hset : m.setTyped func version typedId = ⟨m.verFunc, typedId⟩ := by simp [setTyped, heq]
    have hne : m.verFunc ≠ 0#64 := fun hzero => by
      rw [getFunc, hzero, BitVec.zero_and] at heq
      rw [← heq] at hpos
      exact absurd hpos (Nat.lt_irrefl 0)
    rw [hset, owns, if_pos hne]
    exact congrArg (fun f : BitVec 64 => some f.toNat) heq
  · have hset : m.setTyped func version typedId = ⟨makeVerFunc func version, typedId⟩ := by
      simp [setTyped, heq]
    rw [hset, owns_make hf hpos]

end PackedAccess

namespace SetNodes

variable {h : SetNodes} {ext stackExt : Multiset Nat} {t : Option Nat}

theorem Keeps.callNodes (h : SetNodes) (callNodes : StackNodes) : Keeps h { h with callNodes } :=
  ⟨Finset.Subset.refl _, fun _ _ => rfl, fun _ _ => rfl, fun _ _ => rfl⟩

theorem incNode_spec (hc : Counted h ext stackExt) (ht : ∀ d, t = some d → d ∈ h.live) :
    ∃ h', h.incNode t = some h' ∧ Counted h' (refOf t + ext) stackExt ∧ Keeps h h' := by
  cases t with
  | none => exact ⟨h, rfl, by rwa [refOf, Option.elim, zero_add], .refl h⟩
  | some d =>
    obtain ⟨h', he, hc', hk, -⟩ := incRefCount_spec hc (ht d rfl)
    exact ⟨h', he, by rwa [refOf, Option.elim, Multiset.singleton_add], hk⟩

theorem decNode_spec (hc : Counted h (refOf t + ext) stackExt) :
    ∃ h', h.decNode t = some h' ∧ Counted h' ext stackExt ∧ Keeps h h' := by
  cases t with
  | none => exact ⟨h, rfl, by rwa [refOf, Option.elim, zero_add] at hc, .refl h⟩
  | some d =>
    rw [refOf, Option.elim, Multiset.singleton_add] at hc
    obtain ⟨h', he, hc', hk⟩ := decRefCount_spec hc
    exact ⟨h', he, hc', hk⟩

theorem retainTail_spec (hc : Counted h ext stackExt)
    (ht : ∀ p, t = some p → p ∈ h.callNodes.live) :
    ∃ h', h.retainTail t = some h' ∧ Counted h' ext (refOf t + stackExt) ∧ Keeps h h' := by
  obtain ⟨l, hf⟩ := hc.free
  obtain ⟨callNodes, he, hb, hf', -⟩ := StackNodes.retainTail_spec hc.callNodes hf ht
  rw [add_left_comm] at hb
  exact ⟨{ h with callNodes }, by rw [retainTail, he]; rfl, ⟨hc.sets, hb, l, hf'⟩,
    .callNodes h callNodes⟩

theorem releaseTail_spec (hc : Counted h ext (refOf t + stackExt)) :
    ∃ h', h.releaseTail t = some h' ∧ Counted h' ext stackExt ∧ Keeps h h' := by
  obtain ⟨l, hf⟩ := hc.free
  have hst := hc.callNodes
  rw [add_left_comm] at hst
  obtain ⟨callNodes, l', he, hb, hf', -⟩ := StackNodes.releaseTail_spec hst hf
  exact ⟨{ h with callNodes }, by rw [releaseTail, he]; rfl, ⟨hc.sets, hb, l', hf'⟩,
    .callNodes h callNodes⟩

end SetNodes

namespace Records.RefCounted

variable {s : Records} {i j : Nat}

/-- The references to nodes of sets that are not those of `i`. -/
def setRest (s : Records) (i : Nat) : Multiset Nat :=
  s.bags + owned (s.objs.erase i) fun k => refOf (s.obj k).node

def stackRest (s : Records) (i : Nat) : Multiset Nat :=
  owned (s.objs.erase i) fun k => refOf (s.obj k).tail

theorem of_mem (h : RefCounted s) (hi : i ∈ s.objs) :
    s.sets.Counted (refOf (s.obj i).node + setRest s i) (refOf (s.obj i).tail + stackRest s i) := by
  have hset :
      refOf (s.obj i).node + setRest s i = s.bags + owned s.objs fun k => refOf (s.obj k).node := by
    rw [setRest, add_left_comm, owned_erase (g := fun k => refOf (s.obj k).node) hi]
  have hstack : refOf (s.obj i).tail + stackRest s i = owned s.objs fun k => refOf (s.obj k).tail :=
    owned_erase (g := fun k => refOf (s.obj k).tail) hi
  rw [hset, hstack]
  exact h.counted

theorem of_notMem (h : RefCounted s) (hi : i ∉ s.objs) :
    s.sets.Counted (setRest s i) (stackRest s i) := by
  rw [setRest, stackRest, Finset.erase_eq_of_notMem hi]
  exact h.counted

theorem node_live (h : RefCounted s) (hj : j ∈ s.objs) : ∀ d, (s.obj j).node = some d →
    d ∈ s.sets.live := fun _ hd =>
  h.counted.sets.mem_live (Multiset.mem_add.2 (.inr (mem_owned hj (mem_refOf.2 hd))))

theorem tail_live (h : RefCounted s) (hj : j ∈ s.objs) : ∀ p, (s.obj j).tail = some p →
    p ∈ s.sets.callNodes.live :=
  fun _ hp => h.counted.callNodes.mem_live
  (Multiset.mem_add.2 (.inr (mem_owned hj (mem_refOf.2 hp))))

/-- A step has kept the counts; nodes may have gone. -/
structure Next (s s' : Records) : Prop where
  counted : RefCounted s'
  keeps : s.sets.Keeps s'.sets
  bags : s'.bags = s.bags

/-- An object is put, with the references that have been made for it. -/
theorem put (h : RefCounted s) {x : RefObj} {sets : SetNodes}
    (hc : sets.Counted (refOf x.node + setRest s i) (refOf x.tail + stackRest s i))
    (hk : s.sets.Keeps sets) : Next s (s.put i x sets) where
  counted := by
    have hnode : (fun k => refOf (Function.update s.obj i x k).node) =
        Function.update (fun k => refOf (s.obj k).node) i (refOf x.node) :=
      Function.comp_update (fun y : RefObj => refOf y.node) s.obj i x
    have htail : (fun k => refOf (Function.update s.obj i x k).tail) =
        Function.update (fun k => refOf (s.obj k).tail) i (refOf x.tail) :=
      Function.comp_update (fun y : RefObj => refOf y.tail) s.obj i x
    refine ⟨?_, fun d hd => h.address d (hk.live hd)⟩
    show sets.Counted
      (s.bags + owned (insert i s.objs) fun k => refOf (Function.update s.obj i x k).node)
      (owned (insert i s.objs) fun k => refOf (Function.update s.obj i x k).tail)
    rw [hnode, htail, owned_insert, owned_insert, add_left_comm]
    exact hc
  keeps := hk
  bags := rfl

/-- An object that refers to nothing. -/
theorem new (h : RefCounted s) (hi : i ∉ s.objs) {x : RefObj} (hn : x.node = none)
    (ht : x.tail = none) : Next s (s.put i x s.sets) := by
  refine h.put ?_ (SetNodes.Keeps.refl _)
  rw [hn, ht, refOf, Option.elim, zero_add, zero_add]
  exact h.of_notMem hi

theorem accessOf (h : RefCounted s) (hi : i ∉ s.objs) {func : BitVec 64}
    (hf : func.toNat ∈ s.sets.live) (version : BitVec 16) (typedId : BitVec 64) :
    ∃ s', s.step (.accessOf i func version typedId) = some s' ∧ Next s s' := by
  obtain ⟨hpos, hlt⟩ := h.address _ hf
  have hnode : funcNode func = some func.toNat := if_pos fun hzero => by simp [hzero] at hpos
  obtain ⟨sets, he, hc, hlive⟩ := SetNodes.incNode_spec (t := funcNode func)
      (h.of_notMem hi) fun d hd => by
    rw [hnode] at hd
    cases hd
    exact hf
  refine ⟨_, by rw [Records.step, he]; rfl,
    h.put (x := .access ⟨PackedAccess.makeVerFunc func version, typedId⟩) ?_ hlive⟩
  have howns : (RefObj.access ⟨PackedAccess.makeVerFunc func version, typedId⟩).node =
    some func.toNat := PackedAccess.owns_make hlt hpos version typedId
  rw [howns, RefObj.tail, refOf.eq_def none, Option.elim, zero_add, ← hnode]
  exact hc

/-- An object whose call stack is a copy. -/
theorem stackOf (h : RefCounted s) (hi : i ∉ s.objs) (hj : j ∈ s.objs) {x : RefObj}
    (hn : x.node = none) (ht : x.tail = (s.obj j).tail) :
    ∃ s', (s.sets.retainTail (s.obj j).tail).map (s.put i x) = some s' ∧ Next s s' := by
  obtain ⟨sets, he, hc, hlive⟩ := SetNodes.retainTail_spec (h.of_notMem hi) (h.tail_live hj)
  refine ⟨_, by rw [he]; rfl, h.put ?_ hlive⟩
  rw [hn, ht, refOf.eq_def none, Option.elim, zero_add]
  exact hc

theorem copy (h : RefCounted s) (hi : i ∉ s.objs) (hj : j ∈ s.objs) :
    ∃ s', s.copy i j = some s' ∧ Next s s' := by
  have hlive := h.node_live hj
  have hstack := fun {x : RefObj} => h.stackOf hi hj (x := x)
  rw [Records.copy]
  cases hx : s.obj j with
  | access m =>
    rw [hx] at hlive
    obtain ⟨sets, he, hc, hk⟩ := SetNodes.incNode_spec (t := m.owns) (h.of_notMem hi) hlive
    have he : s.sets.incNode m.owns = some sets := he
    refine ⟨_, by simp only [he]; rfl, h.put (x := .access m) ?_ hk⟩
    rw [RefObj.tail, refOf.eq_def none, Option.elim, zero_add]
    exact hc
  | stack t =>
    rw [hx] at hstack
    exact hstack rfl rfl
  | loc accLoc type t =>
    rw [hx] at hstack
    exact hstack rfl rfl

/-- The copy of an object that refers to nothing needs no references. -/
theorem move (h : RefCounted s) (hi : i ∉ s.objs) (hj : j ∈ s.objs)
    (ht : (s.obj j).sameType (.stack none) ∨ (s.obj j).node = none ∧ (s.obj j).tail = none) :
    ∃ s', s.move i j = some s' ∧ Next s s' := by
  have hstack := fun {x : RefObj} => h.stackOf hi hj (x := x)
  rw [Records.move]
  cases hx : s.obj j with
  | access m =>
    rw [hx] at ht
    obtain ⟨hn, -⟩ := ht.resolve_left (by simp [RefObj.sameType])
    exact ⟨_, rfl, h.new hi hn rfl⟩
  | stack t =>
    rw [hx] at hstack
    exact hstack rfl rfl
  | loc accLoc type t =>
    rw [hx] at ht
    obtain ⟨-, htail⟩ := ht.resolve_left (by simp [RefObj.sameType])
    exact ⟨_, rfl, h.new hi rfl htail⟩

/-- A call stack is replaced by a copy. -/
theorem assignTail (h : RefCounted s) (hi : i ∈ s.objs) (hj : j ∈ s.objs) {x : RefObj}
    (hn : x.node = (s.obj i).node) (ht : x.tail = (s.obj j).tail) :
    ∃ s', ((s.sets.retainTail (s.obj j).tail).bind fun sets =>
      (sets.releaseTail (s.obj i).tail).bind fun sets =>
      some (s.put i x sets)) = some s' ∧ Next s s' := by
  obtain ⟨sets₁, he₁, hc₁, hk₁⟩ := SetNodes.retainTail_spec (h.of_mem hi) (h.tail_live hj)
  rw [add_left_comm] at hc₁
  obtain ⟨sets₂, he₂, hc₂, hk₂⟩ := SetNodes.releaseTail_spec hc₁
  refine ⟨_, by rw [he₁, Option.bind_some, he₂, Option.bind_some], h.put ?_ (hk₁.trans hk₂)⟩
  rw [hn, ht]
  exact hc₂

theorem assign (h : RefCounted s) (hi : i ∈ s.objs) (hj : j ∈ s.objs)
    (htype : (s.obj i).sameType (s.obj j)) : ∃ s', s.assign i j = some s' ∧ Next s s' := by
  have hmem := h.of_mem hi
  have hlive := h.node_live hj
  have htail := fun {x : RefObj} => h.assignTail hi hj (x := x)
  rw [Records.assign]
  cases hx : s.obj i with
  | access m =>
    cases hy : s.obj j with
    | access m' =>
      rw [hx] at hmem
      rw [hy] at hlive
      have hput : ∀ sets : SetNodes, sets.Counted (refOf m'.owns + setRest s i) (stackRest s i) →
          s.sets.Keeps sets → Next s (s.put i (.access (m.assign m')) sets) := fun sets hc hk => by
        refine h.put ?_ hk
        rw [RefObj.node, PackedAccess.owns_assign, RefObj.tail, refOf.eq_def none,
          Option.elim, zero_add]
        exact hc
      rw [RefObj.tail, refOf.eq_def none, Option.elim, zero_add] at hmem
      simp only
      split
      · obtain ⟨sets₁, he₁, hc₁, hk₁⟩ := SetNodes.incNode_spec hmem hlive
        rw [add_left_comm] at hc₁
        obtain ⟨sets₂, he₂, hc₂, hk₂⟩ := SetNodes.decNode_spec hc₁
        have he₁ : s.sets.incNode m'.owns = some sets₁ := he₁
        have he₂ : sets₁.decNode m.owns = some sets₂ := he₂
        exact ⟨_, by simp only [he₁, he₂, Option.bind_eq_bind, Option.bind_some]; rfl,
          hput sets₂ hc₂ (hk₁.trans hk₂)⟩
      · next hsame =>
        refine ⟨_, rfl, hput s.sets ?_ (SetNodes.Keeps.refl _)⟩
        have howns :
            m.owns = m'.owns := by
          rw [PackedAccess.owns, PackedAccess.owns, PackedAccess.getFunc, PackedAccess.getFunc,
            not_ne_iff.1 hsame]
        rw [← howns]
        exact hmem
    | stack | loc => rw [hx, hy] at htype; cases htype
  | stack t =>
    cases hy : s.obj j with
    | stack t' =>
      rw [hx, hy] at htail
      exact htail rfl rfl
    | access | loc => rw [hx, hy] at htype; cases htype
  | loc a ty t =>
    cases hy : s.obj j with
    | loc a' ty' t' =>
      rw [hx, hy] at htail
      exact htail rfl rfl
    | access | stack => rw [hx, hy] at htype; cases htype

/-- What the target referred to is released, and it refers to nothing. -/
theorem moveAssign (h : RefCounted s) (hi : i ∈ s.objs) (htype : (s.obj i).sameType (s.obj j))
    (ht : (s.obj j).node = none ∧ (s.obj j).tail = none) :
    ∃ s', s.moveAssign i j = some s' ∧ Next s s' := by
  have hmem := h.of_mem hi
  have hput : ∀ sets : SetNodes, sets.Counted (setRest s i) (stackRest s i) → s.sets.Keeps sets →
      Next s (s.put i (s.obj j) sets) := fun sets hc hk => by
    refine h.put ?_ hk
    rw [ht.1, ht.2, refOf.eq_def none, Option.elim, zero_add, zero_add]
    exact hc
  have hstack : (s.obj i).node = none →
      ∃ s', (s.sets.releaseTail (s.obj i).tail).map (s.put i (s.obj j)) = some s' ∧
      Next s s' := fun hn => by
    rw [hn, refOf.eq_def none, Option.elim, zero_add] at hmem
    obtain ⟨sets, he, hc, hk⟩ := SetNodes.releaseTail_spec hmem
    exact ⟨_, by rw [he]; rfl, hput sets hc hk⟩
  rw [Records.moveAssign]
  cases hx : s.obj i with
  | access m =>
    cases hy : s.obj j with
    | access m' =>
      rw [hx, RefObj.tail, refOf.eq_def none, Option.elim, zero_add] at hmem
      rw [hy] at hput
      obtain ⟨sets, he, hc, hk⟩ := SetNodes.decNode_spec hmem
      have he : s.sets.decNode m.owns = some sets := he
      exact ⟨_, by simp only [he]; rfl, hput sets hc hk⟩
    | stack | loc => rw [hx, hy] at htype; cases htype
  | stack t =>
    cases hy : s.obj j with
    | stack t' =>
      rw [hx, hy] at hstack
      exact hstack rfl
    | access | loc => rw [hx, hy] at htype; cases htype
  | loc a ty t =>
    cases hy : s.obj j with
    | loc a' ty' t' =>
      rw [hx, hy] at hstack
      exact hstack rfl
    | access | stack => rw [hx, hy] at htype; cases htype

theorem set (h : RefCounted s) (hi : i ∈ s.objs) (htype : (s.obj i).sameType (.access {}))
    {func : BitVec 64} (hf : func.toNat ∈ s.sets.live) (version : BitVec 16) (typedId : BitVec 64) :
    ∃ s', s.set i func version typedId = some s' ∧ Next s s' := by
  obtain ⟨hpos, hlt⟩ := h.address _ hf
  have hmem := h.of_mem hi
  have hown := h.node_live hi
  rw [Records.set]
  cases hx : s.obj i with
  | access m =>
    rw [hx, RefObj.tail, refOf.eq_def none, Option.elim, zero_add] at hmem
    rw [hx] at hown
    have hput : ∀ sets : SetNodes, sets.Counted (refOf (some func.toNat) + setRest s i)
        (stackRest s i) →
        s.sets.Keeps sets →
        Next s (s.put i (.access (m.setTyped func version typedId)) sets) := fun sets hc hk => by
      refine h.put ?_ hk
      rw [RefObj.node, PackedAccess.owns_setTyped hlt hpos, RefObj.tail, refOf.eq_def none,
        Option.elim.eq_def none, zero_add]
      exact hc
    have hold : funcNode m.getFunc = m.owns :=
      PackedAccess.funcNode_getFunc fun d hd => (h.address d (hown d hd)).1
    have hnew : funcNode func = some func.toNat := if_pos fun hzero => by simp [hzero] at hpos
    simp only
    split
    · obtain ⟨sets₁, he₁, hc₁, hk₁⟩ := SetNodes.incNode_spec
          (t := some func.toNat) hmem fun d hd => by
        cases hd
        exact hf
      rw [add_left_comm] at hc₁
      obtain ⟨sets₂, he₂, hc₂, hk₂⟩ := SetNodes.decNode_spec hc₁
      have he₂ : sets₁.decNode m.owns = some sets₂ := he₂
      exact ⟨_,
        by rw [hold, hnew, he₁]; simp only [he₂, Option.bind_eq_bind, Option.bind_some]; rfl,
        hput sets₂ hc₂ (hk₁.trans hk₂)⟩
    · next hsame =>
      refine ⟨_, rfl, hput s.sets ?_ (SetNodes.Keeps.refl _)⟩
      rw [← hnew, ← not_ne_iff.1 hsame, hold]
      exact hmem
  | stack | loc => rw [hx] at htype; cases htype

theorem invalidate (h : RefCounted s) (hi : i ∈ s.objs)
    (htype : ¬ (s.obj i).sameType (.stack none)) : ∃ s', s.invalidate i = some s' ∧ Next s s' := by
  have hmem := h.of_mem hi
  have hput : ∀ (sets : SetNodes) (x : RefObj), x.node = none → x.tail = none →
      sets.Counted (setRest s i) (stackRest s i) → s.sets.Keeps sets → Next s (s.put i x sets) :=
    fun sets x hn ht hc hk => by
      refine h.put ?_ hk
      rw [hn, ht, refOf.eq_def none, Option.elim, zero_add, zero_add]
      exact hc
  rw [Records.invalidate]
  cases hx : s.obj i with
  | access m =>
    rw [hx, RefObj.tail, refOf.eq_def none, Option.elim, zero_add] at hmem
    obtain ⟨sets, he, hc, hk⟩ := SetNodes.decNode_spec hmem
    have he : s.sets.decNode m.owns = some sets := he
    exact ⟨_, by simp only [he]; rfl, hput sets (.access {}) rfl rfl hc hk⟩
  | stack t => rw [hx] at htype; exact absurd rfl htype
  | loc a ty t =>
    rw [hx, RefObj.node.eq_def, refOf.eq_def none, Option.elim, zero_add] at hmem
    obtain ⟨sets, he, hc, hk⟩ := SetNodes.releaseTail_spec hmem
    have he : s.sets.releaseTail t = some sets := he
    exact ⟨_, by simp only [he]; rfl,
      hput sets (.loc PackedAccess.UNKNOWN_CSI_ID ty none) rfl rfl hc hk⟩

theorem destroy (h : RefCounted s) (hi : i ∈ s.objs) : ∃ s', s.destroy i = some s' ∧ Next s s' := by
  obtain ⟨sets₁, he₁, hc₁, hk₁⟩ := SetNodes.decNode_spec (h.of_mem hi)
  obtain ⟨sets₂, he₂, hc₂, hk₂⟩ := SetNodes.releaseTail_spec hc₁
  exact ⟨{ s with sets := sets₂, objs := s.objs.erase i },
    by simp only [Records.destroy, he₁, he₂, Option.bind_eq_bind, Option.bind_some]; rfl,
    ⟨hc₂, fun d hd => h.address d (hk₁.live (hk₂.live hd))⟩, hk₁.trans hk₂, rfl⟩

theorem step (h : RefCounted s) {op : Op} (ha : op.Applies s) (ht : op.TakesNothing s) :
    ∃ s', s.step op = some s' ∧ Next s s' := by
  cases op with
  | newAccess i => exact ⟨_, rfl, h.new ha rfl rfl⟩
  | newStack i => exact ⟨_, rfl, h.new ha rfl rfl⟩
  | newLoc i => exact ⟨_, rfl, h.new ha rfl rfl⟩
  | accessOf i func version typedId => exact h.accessOf ha.1 ha.2 version typedId
  | locOf i accLoc type j => exact h.stackOf ha.1 ha.2.1 rfl rfl
  | copy i j => exact h.copy ha.1 ha.2
  | move i j => exact h.move ha.1 ha.2 ht
  | assign i j => exact h.assign ha.1 ha.2.1 ha.2.2
  | moveAssign i j => exact h.moveAssign ha.1 ha.2.2 ht
  | set i func version typedId => exact h.set ha.1 ha.2.1 ha.2.2 version typedId
  | invalidate i => exact h.invalidate ha.1 ha.2
  | destroy i => exact h.destroy ha

theorem owned (h : RefCounted s) : Owned s := by
  have hset :
    ∀ d, (s.sets.toHeap.held +
      (s.bags + RefCounts.owned s.objs fun i => refOf (s.obj i).node)).count d = s.setRefs d :=
    fun d => by
      rw [Multiset.count_add, Multiset.count_add, Heap.held, RefCounts.owned, Multiset.count_sum',
        Multiset.count_sum', setRefs, Nat.add_comm, Finset.card_filter, Finset.card_filter]
      refine congrArg₂ (· + ·)
        (congrArg (s.bags.count d + ·) (Finset.sum_congr rfl fun i _ => count_refOf ..)) ?_
      exact Finset.sum_congr rfl fun x _ => count_refOf ..
  have hstack : ∀ p, (s.sets.callNodes.toHeap.held + (s.sets.datas + RefCounts.owned s.objs fun i =>
      refOf (s.obj i).tail)).count p = s.stackRefs p := fun p => by
    rw [Multiset.count_add, Multiset.count_add, Heap.held, SetNodes.datas, RefCounts.owned,
      Multiset.count_sum',
      Multiset.count_sum', Multiset.count_sum', stackRefs, Nat.add_comm,
      Nat.add_comm (∑ x ∈ s.sets.live, _),
      Finset.card_filter, Finset.card_filter, Finset.card_filter]
    refine congrArg₂ (· + ·) (congrArg₂ (· + ·) ?_ ?_) ?_
    all_goals exact Finset.sum_congr rfl fun x _ => count_refOf ..
  refine ⟨fun d hd => ?_, fun d => ?_, fun p hp => ?_, fun p => ?_⟩
  · have hcount := h.counted.sets.count d hd
    rwa [hset] at hcount
  · have hlive := h.counted.sets.live d
    rwa [← Multiset.count_pos, hset] at hlive
  · have hcount := h.counted.callNodes.count p hp
    rwa [hstack] at hcount
  · have hlive := h.counted.callNodes.live p
    rwa [← Multiset.count_pos, hstack] at hlive

end Records.RefCounted

namespace Records

/-- **Moves.** From any reference-counted state, while no move takes anything
from its source, nothing is released twice or used after it is gone, and every
count is the number of references there are. -/
theorem run_owned {s : Records} (hs : RefCounted s) (ops : List Op)
    (ha : Along (fun s op => op.Applies s) s ops)
    (ht : Along (fun s op => op.TakesNothing s) s ops) : ∃ s', s.run ops = some s' ∧ Owned s' := by
  induction ops generalizing s with
  | nil => exact ⟨s, rfl, hs.owned⟩
  | cons op ops ih =>
    obtain ⟨s₁, hs₁, h₁⟩ := hs.step ha.1 ht.1
    obtain ⟨s', hs', h'⟩ := ih h₁.counted (ha.2 s₁ hs₁) (ht.2 s₁ hs₁)
    exact ⟨s', by rw [run, List.foldlM_cons, hs₁]; exact hs', h'⟩

/-- An access that refers to the only node. -/
def oneAccess : Records where
  sets := { node := fun _ => ⟨.sbag 0, none, 0, 1⟩, live := {1}, callNodes := .init }
  bags := 0
  objs := {0}
  obj _ := .access ⟨1#64, 9#64⟩

theorem refCounted_oneAccess : RefCounted oneAccess where
  counted := by
    have hset :
        oneAccess.sets.toHeap.held +
        (oneAccess.bags + owned oneAccess.objs fun i => refOf (oneAccess.obj i).node) =
        {1} := by decide
    have hstack :
        oneAccess.sets.callNodes.toHeap.held + (oneAccess.sets.datas + owned oneAccess.objs fun i =>
        refOf (oneAccess.obj i).tail) = 0 := by decide
    refine ⟨⟨fun d hd => ?_, fun d => ?_, fun _ => 0, fun d hd x hx => ?_⟩,
      ⟨fun p hp => ?_, fun p => ?_, fun _ => 0, fun p hp => ?_⟩, [], rfl, .nil, ?_, ?_, ?_⟩
    · rw [hset]
      obtain rfl : d = 1 := Finset.mem_singleton.1 hd
      rfl
    · rw [hset, Multiset.mem_singleton]
      exact Finset.mem_singleton
    · exact absurd hx (Multiset.notMem_zero x)
    · exact absurd hp (Finset.notMem_empty p)
    · rw [hstack]
      exact iff_of_false (Finset.notMem_empty p) (Multiset.notMem_zero p)
    · exact absurd hp (Finset.notMem_empty p)
    · simp
    · simp
    · exact fun p hp => absurd hp (Finset.notMem_empty p)
  address := by simp [oneAccess]

theorem run_owned_copied : ∃ s', oneAccess.run
    [.newAccess 1, .move 2 1, .copy 3 0, .set 1 1#64 5#16 7#64, .destroy 0, .destroy 2] = some s' ∧
    Owned s' := by
  refine run_owned refCounted_oneAccess _ ?_ ?_
  all_goals
    exact .cons (by decide) rfl (.cons (by decide) rfl (.cons (by decide) rfl (.cons (by decide) rfl
      (.cons (by decide) rfl (.cons (by decide) rfl trivial)))))

/-- The access is moved, and both objects are destroyed: the node is released
twice. -/
theorem not_run_owned : ¬ ∀ (s : Records) (ops : List Op), RefCounted s →
    Along (fun s op => op.Applies s) s ops → ∃ s', s.run ops = some s' ∧ Owned s' := by
  intro h
  obtain ⟨s', hs', -⟩ := h oneAccess [.move 1 0, .destroy 0, .destroy 1] refCounted_oneAccess
    (.cons (by decide) rfl (.cons (by decide) rfl ⟨by decide, fun _ _ => trivial⟩))
  have hnone : (oneAccess.run [.move 1 0, .destroy 0, .destroy 1]).isNone = true := by decide
  rw [hs'] at hnone
  cases hnone

end Records

end Cilksan
