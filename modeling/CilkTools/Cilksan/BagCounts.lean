/-
Bags, accesses and the nodes of the disjoint sets they refer to (`spbag.h`,
`cilksan.cpp`, `dictionary.h`): every count is the number of references, and no
node is used after it is gone.

Call stacks are counted alongside. Versions of bags are left out.
-/
import CilkTools.Cilksan.RecordMoves
import CilkTools.Cilksan.SetForest
import CilkTools.Cilksan.SPBag

namespace Cilksan

open RefCounts

/-- The constructor of a node, on the storage `d`, before its bag is told:
nothing refers to it. The data is a copy of a call stack. -/
def SetNodes.create (h : SetNodes) (d : Nat) (pb : ParentOrBag) (data : Option Nat) :
    Option SetNodes :=
  (h.retainTail data).map fun h => { h.put d ⟨pb, data, 0, 0⟩ with live := insert d h.live }

/-- The bags, the objects that refer to nodes or to call stacks, and the nodes. -/
structure SetUsers where
  sets : SetNodes
  bags : Finset Nat
  bag : Nat → SPBag
  objs : Finset Nat
  obj : Nat → RefObj

namespace SetUsers

def init : SetUsers := ⟨.init, ∅, fun _ => { type := .sBag }, ∅, fun _ => .access {}⟩

/-- The objects, beside the references that the bags hold. -/
def records (s : SetUsers) : Records :=
  ⟨s.sets, owned s.bags fun b => refOf (s.bag b).ds, s.objs, s.obj⟩

inductive Op
  | newBag (b : Nat) (type : BagType)
  | createNode (d b j : Nat)
  | combine (b that : Nat)
  | findSet (d : Nat)
  | deleteBag (b : Nat)
  | record (op : Records.Op)
  deriving DecidableEq, Repr

def putDs (s : SetUsers) (b : Nat) (ds : Nat) (sets : SetNodes) : SetUsers :=
  { s with sets, bag := Function.update s.bag b { s.bag b with ds := some ds } }

def setDs (s : SetUsers) (b ds : Nat) : Option SetUsers :=
  if (s.bag b).ds = some ds then some s
  else do
    let sets ← s.sets.incRefCount ds
    let sets ← sets.decNode (s.bag b).ds
    return s.putDs b ds sets

/-- `new DisjointSet_t` for the bag `b`, with the call stack `j`. -/
def createNode (s : SetUsers) (d b j : Nat) : Option SetUsers := do
  let sets ← s.sets.create d ((s.bag b).type.tag b) (s.obj j).tail
  setDs { s with sets } b d

/-- `SPBagInterface::combine`. -/
def combineDs (s : SetUsers) (b that : Nat) : Option SetUsers :=
  match (s.bag that).ds, (s.bag b).ds with
  | none, _ => some s
  | some d₂, none => (s.sets.incRefCount d₂).map (s.putDs b d₂)
  | some d₂, some d₁ => do
    let r ← s.sets.combine d₁ d₂
    setDs { s with sets := r.2 } b r.1

/-- `SBag_t::combine` and `PBag_t::combine`: a root that is new to the bag is
told of it. -/
def combine (s : SetUsers) (b that : Nat) : Option SetUsers := do
  let s' ← s.combineDs b that
  match (s'.bag b).ds with
  | some d =>
    if some d ≠ (s.bag b).ds then (s'.sets.setParentOrBag d ((s.bag b).type.tag b)).map fun sets =>
      { s' with sets }
    else some s'
  | none => some s'

def deleteBag (s : SetUsers) (b : Nat) : Option SetUsers :=
  (s.sets.decNode (s.bag b).ds).map fun sets => { s with sets, bags := s.bags.erase b }

def step (s : SetUsers) : Op → Option SetUsers
  | .newBag b type =>
    some { s with bags := insert b s.bags, bag := Function.update s.bag b { type } }
  | .createNode d b j => s.createNode d b j
  | .combine b that => s.combine b that
  | .findSet d => (s.sets.findSet d).map fun r => { s with sets := r.2 }
  | .deleteBag b => s.deleteBag b
  | .record op =>
    (s.records.step op).map fun r => { s with sets := r.sets, objs := r.objs, obj := r.obj }

def run (s : SetUsers) (ops : List Op) : Option SetUsers := ops.foldlM step s

/-! ## What the program may do -/

/-- Bags and objects are there or not, as the operation needs; the storage of
a node is of none that is there; the sets that are combined differ, and the
node that an empty bag is given is a root. No access is moved that refers to a
node. -/
def Op.Applies (s : SetUsers) : Op → Prop
  | newBag b _ => b ∉ s.bags
  | createNode d b j =>
    b ∈ s.bags ∧ j ∈ s.objs ∧ (s.obj j).sameType (.stack none) ∧ d ∉ s.sets.live ∧
      0 < d ∧ d < 2 ^ 48
  | combine b that => b ∈ s.bags ∧ that ∈ s.bags ∧ ∀ d₂, (s.bag that).ds = some d₂ →
    match (s.bag b).ds with
    | some d₁ => ∀ r, Forest.Root s.sets.up d₁ r → ¬ Forest.Root s.sets.up d₂ r
    | none => s.sets.up d₂ = none
  | findSet d => d ∈ s.sets.live
  | deleteBag b => b ∈ s.bags
  | record op => op.Applies s.records ∧ op.TakesNothing s.records

/-- Each operation may be done in the state before it. -/
def Along (s : SetUsers) : List Op → Prop
  | [] => True
  | op :: ops => op.Applies s ∧ ∀ s', s.step op = some s' → Along s' ops

theorem Along.cons {s s' : SetUsers} {op : Op} {ops : List Op} (h : op.Applies s)
    (he : s.step op = some s') (hs : Along s' ops) : Along s (op :: ops) := by
  refine ⟨h, fun s₁ he₁ => ?_⟩
  rw [he] at he₁
  cases he₁
  exact hs

/-- Bags whose sets are two different roots may be combined. -/
theorem Op.applies_combine {s : SetUsers} {b that d₁ d₂ : Nat} (hb : b ∈ s.bags)
    (hthat : that ∈ s.bags)
    (hd₁ : (s.bag b).ds = some d₁) (hd₂ : (s.bag that).ds = some d₂) (h₁ : s.sets.up d₁ = none)
    (h₂ : s.sets.up d₂ = none) (hne : d₁ ≠ d₂) : (combine b that).Applies s := by
  refine ⟨hb, hthat, fun d hd => ?_⟩
  rw [hd₂] at hd
  cases hd
  rw [hd₁]
  intro r hr₁ hr₂
  exact hne ((hr₁.eq_of_root h₁).symm.trans (hr₂.eq_of_root h₂))

/-- The references to a node: bags, stored accesses, and nodes whose parent it is. -/
def refs (s : SetUsers) (d : Nat) : Nat :=
  (s.bags.filter fun b => (s.bag b).ds = some d).card +
  (s.objs.filter fun i => (s.obj i).node = some d).card +
    (s.sets.live.filter fun x => (s.sets.node x).parent = some d).card

/-- Every count is the number of references, and the nodes that are there are
those that have one. -/
structure Exact (s : SetUsers) : Prop where
  count : ∀ d ∈ s.sets.live, (s.sets.node d).refCount = s.refs d
  live : ∀ d, d ∈ s.sets.live ↔ 0 < s.refs d

/-- What holds between operations. -/
structure Inv (s : SetUsers) : Prop where
  counted : s.records.RefCounted
  ranked : s.sets.Ranked

end SetUsers

/-! ## A new node -/

namespace SetNodes

variable {h : SetNodes} {ext stackExt : Multiset Nat} {d : Nat} {t : Option Nat}

/-- A node that is created and then referred to once. -/
theorem create_spec (hc : Counted h ext stackExt) (hr : Ranked h) (hd : d ∉ h.live)
    (pb : ParentOrBag)
    (hpb : ∀ x : SetNode, x.parentOrBag = pb → x.parent = none)
    (ht : ∀ p, t = some p → p ∈ h.callNodes.live) :
    ∃ h₁ h', h.create d pb t = some h₁ ∧ h₁.incRefCount d = some h' ∧
    Counted h' (d ::ₘ ext) stackExt ∧ Ranked h' ∧
      h'.live = insert d h.live := by
  obtain ⟨h₀, he₀, hc₀, hk₀⟩ := retainTail_spec hc ht
  obtain ⟨h₁, hh₁⟩ : ∃ h₁ : SetNodes, { h₀.put d ⟨pb, t, 0, 0⟩ with live := insert d h₀.live } =
    h₁ := ⟨_, rfl⟩
  have hold : h₀.live = h.live ∧ h₀.node = h.node := by
    rw [retainTail] at he₀
    obtain ⟨callNodes, -, rfl⟩ := Option.map_eq_some_iff.1 he₀
    exact ⟨rfl, rfl⟩
  have hd₀ : d ∉ h₀.live := by rwa [hold.1]
  have hself : h₁.node d = ⟨pb, t, 0, 0⟩ := hh₁ ▸ Function.update_self ..
  have hother : ∀ x, x ≠ d → h₁.node x = h₀.node x := fun x hx => hh₁ ▸ Function.update_of_ne hx ..
  have hlive₁ : h₁.live = insert d h₀.live := hh₁ ▸ rfl
  have hcall₁ : h₁.callNodes = h₀.callNodes := hh₁ ▸ rfl
  obtain ⟨h', he, hlive, hcall, hnode, -, -⟩ :=
    addRef_spec (show d ∈ h₁.live from hlive₁ ▸ Finset.mem_insert_self ..) 1
  have hother' : ∀ x, x ≠ d → h'.node x = h₀.node x :=
    fun x hx => by rw [hnode, if_neg hx, hother x hx]
  have hne : ∀ x ∈ h₀.live, x ≠ d := fun x hx heq => hd₀ (heq ▸ hx)
  have hparent : (h'.node d).parent = none := hpb _ (by rw [hnode, hself])
  have hdata : (h'.node d).data = t := by rw [hnode, hself]
  have hcount : (h'.node d).refCount = 1 := by
    rw [hnode, hself]
    exact if_pos rfl
  refine ⟨h₁, h', by rw [create, he₀, Option.map_some, hh₁], he, ⟨?_, ?_, ?_⟩, fun x p hp => ?_,
    by rw [hlive, hlive₁, hold.1]⟩
  · have halloc := Balanced.alloc (r := 0) (by rw [zero_add]; exact hc₀.sets) hd₀
    refine halloc.congr (hlive.trans hlive₁) (fun x hx => ?_) fun x hx => ?_
    · show (h'.node x).refCount = Function.update (fun x => (h₀.node x).refCount) d 1 x
      by_cases hxd : x = d
      · rw [hxd, hcount, Function.update_self]
      · rw [hother' x hxd, Function.update_of_ne hxd]
    · show refOf (h'.node x).parent = Function.update (fun x => refOf (h₀.node x).parent) d 0 x
      by_cases hxd : x = d
      · rw [hxd, hparent, Function.update_self]
        rfl
      · rw [hother' x hxd, Function.update_of_ne hxd]
  · have hdatas : h'.datas = refOf t + h₀.datas := by
      rw [datas, datas, hlive, hlive₁, Finset.sum_insert hd₀, hdata]
      exact congrArg (refOf t + ·) (Finset.sum_congr rfl fun x hx => by rw [hother' x (hne x hx)])
    rw [hcall, hcall₁, hdatas, add_assoc, add_left_comm]
    exact hc₀.callNodes
  · rw [hcall, hcall₁]
    exact hc₀.free
  · have hx := mem_of_up hp
    rw [up_eq hx] at hp
    have hxd : x ≠ d := fun heq => by
      rw [heq, hparent] at hp
      cases hp
    rw [hlive, hlive₁, Finset.mem_insert] at hx
    have hx₀ := hx.resolve_left hxd
    rw [hother' x hxd] at hp
    have hup : h₀.up x = some p := by rw [up_eq hx₀, hp]
    have hlt : h.rank x < h.rank p := hr x p (by rw [up_eq (hold.1 ▸ hx₀), ← hold.2, hp])
    rw [rank, rank, hother' x hxd, hother' p (hne p (up_mem hc₀ hup)), hold.2]
    exact hlt

end SetNodes

/-! ## Steps -/

namespace SetUsers

theorem parent_tag {x : SetNode} {t : BagType} {b : Nat} (h : x.parentOrBag = t.tag b) :
    x.parent = none := by
  rw [SetNode.parent, h]
  cases t <;> rfl

variable {s : SetUsers} {sets : SetNodes} {b that d j : Nat}

/-- The references to nodes that are not those of the bag `b`. -/
def rest (s : SetUsers) (b : Nat) : Multiset Nat :=
  owned (s.bags.erase b) (fun k => refOf (s.bag k).ds) + owned s.objs fun i => refOf (s.obj i).node

/-- The references to call stacks that objects hold. -/
def tails (s : SetUsers) : Multiset Nat := owned s.objs fun i => refOf (s.obj i).tail

namespace Inv

theorem of_mem (hi : Inv s) (hb : b ∈ s.bags) :
    s.sets.Counted (refOf (s.bag b).ds + s.rest b) s.tails := by
  rw [rest, ← add_assoc, owned_erase (g := fun k => refOf (s.bag k).ds) hb]
  exact hi.counted.counted

theorem of_notMem (hi : Inv s) (hb : b ∉ s.bags) : s.sets.Counted (s.rest b) s.tails := by
  rw [rest, Finset.erase_eq_of_notMem hb]
  exact hi.counted.counted

/-- The set of a bag is there. -/
theorem mem_ext (hb : b ∈ s.bags) (hd : (s.bag b).ds = some d) :
    d ∈ owned s.bags (fun k => refOf (s.bag k).ds) + owned s.objs fun i => refOf (s.obj i).node :=
  Multiset.mem_add.2 (.inl (mem_owned hb (mem_refOf.2 hd)))

theorem ds_live (hi : Inv s) (hb : b ∈ s.bags) (hd : (s.bag b).ds = some d) : d ∈ s.sets.live :=
  hi.counted.counted.sets.mem_live (mem_ext hb hd)

/-- The nodes are others, with the same references. -/
theorem setSets (hi : Inv s)
    (hc : sets.Counted
      (owned s.bags (fun k => refOf (s.bag k).ds) + owned s.objs fun i => refOf (s.obj i).node)
    s.tails) (hr : sets.Ranked) (hlive : sets.live ⊆ s.sets.live) : Inv { s with sets } :=
  ⟨⟨hc, fun d hd => hi.counted.address d (hlive hd)⟩, hr⟩

/-- The bag has the set `d`, with the reference that has been made for it. -/
theorem putDs (hb : b ∈ s.bags) (hc : sets.Counted (d ::ₘ s.rest b) s.tails) (hr : sets.Ranked)
    (haddress : ∀ d ∈ sets.live, 0 < d ∧ d < 2 ^ 48) : Inv (s.putDs b d sets) := by
  refine ⟨⟨?_, haddress⟩, hr⟩
  have hds : (fun k => refOf (Function.update s.bag b { s.bag b with ds := some d } k).ds) =
      Function.update (fun k => refOf (s.bag k).ds) b {d} :=
    Function.comp_update (fun x : SPBag => refOf x.ds) s.bag b _
  show sets.Counted
      (owned s.bags (fun k => refOf (Function.update s.bag b { s.bag b with ds := some d } k).ds) +
        _) s.tails
  have howned := owned_insert s.bags (fun k => refOf (s.bag k).ds) b {d}
  rw [Finset.insert_eq_self.2 hb] at howned
  rw [hds, howned, add_assoc, Multiset.singleton_add]
  exact hc

/-- The old set of the bag is released, once the new one has its reference. -/
theorem releaseOld {sets₁ : SetNodes} (hb : b ∈ s.bags)
    (hc : sets₁.Counted (d ::ₘ (refOf (s.bag b).ds + s.rest b)) s.tails)
    (hr : sets₁.Ranked) (haddress : ∀ d ∈ sets₁.live, 0 < d ∧ d < 2 ^ 48) :
    ∃ sets, sets₁.decNode (s.bag b).ds = some sets ∧ Inv (s.putDs b d sets) ∧ sets₁.Keeps sets := by
  rw [← Multiset.add_cons] at hc
  obtain ⟨sets, he, hc', hk⟩ := SetNodes.decNode_spec hc
  exact ⟨sets, he, putDs hb hc' (hk.ranked hc' hr) fun x hx => haddress x (hk.live hx), hk⟩

theorem setDs (hi : Inv s) (hb : b ∈ s.bags) (hd : d ∈ s.sets.live) :
    ∃ sets, s.setDs b d = some (s.putDs b d sets) ∧ Inv (s.putDs b d sets) ∧ s.sets.Keeps sets := by
  rw [SetUsers.setDs]
  split
  · next heq =>
    have hsame : s.putDs b d s.sets = s := by
      have hbag : Function.update s.bag b { s.bag b with ds := some d } = s.bag := by
        rw [← heq]
        exact Function.update_eq_self ..
      rw [SetUsers.putDs, hbag]
    exact ⟨s.sets, by rw [hsame], by rw [hsame]; exact hi, .refl _⟩
  · obtain ⟨sets₁, he₁, hc₁, hk₁, hlive₁⟩ := SetNodes.incRefCount_spec (hi.of_mem hb) hd
    obtain ⟨sets, he, hi', hk⟩ :=
      releaseOld hb hc₁ (hk₁.ranked hc₁ hi.ranked) fun x hx => hi.counted.address x (hlive₁ ▸ hx)
    exact ⟨sets, by simp only [he₁, Option.bind_eq_bind, Option.bind_some, he]; rfl,
      hi', hk₁.trans hk⟩

/-- A root is told that it is another bag's. -/
theorem retag (hi : Inv s) (hd : d ∈ s.sets.live) (hn : s.sets.up d = none) (t : BagType) :
    ∃ sets, s.sets.setParentOrBag d (t.tag b) = some sets ∧ Inv { s with sets } := by
  have hparent : ({ s.sets.node d with parentOrBag := t.tag b } : SetNode).parent =
      (s.sets.node d).parent := by
    rw [← SetNodes.up_eq hd, hn]
    exact parent_tag rfl
  refine ⟨_, SetNodes.setParentOrBag_eq hd _, hi.setSets (hi.counted.counted.put hparent rfl rfl)
    (fun x p hp => ?_) (Finset.Subset.refl _)⟩
  rw [SetNodes.up_put hparent] at hp
  have hrank : ∀ y, (s.sets.put d { s.sets.node d with parentOrBag := t.tag b }).rank y =
      s.sets.rank y := fun y => by
    by_cases hy : y = d
    · rw [SetNodes.rank, hy, SetNodes.node_put_self]
      rfl
    · rw [SetNodes.rank, SetNodes.node_put_of_ne _ _ hy]
      rfl
  rw [hrank, hrank]
  exact hi.ranked x p hp

theorem newBag (hi : Inv s) (hb : b ∉ s.bags) (type : BagType) :
    Inv { s with bags := insert b s.bags, bag := Function.update s.bag b { type } } := by
  refine ⟨⟨?_, hi.counted.address⟩, hi.ranked⟩
  have hds : (fun k => refOf (Function.update s.bag b { type } k).ds) =
    Function.update (fun k => refOf (s.bag k).ds) b 0 :=
    Function.comp_update (fun x : SPBag => refOf x.ds) s.bag b _
  show s.sets.Counted
    (owned (insert b s.bags) (fun k => refOf (Function.update s.bag b { type } k).ds) + _) s.tails
  rw [hds, owned_insert, zero_add]
  exact hi.of_notMem hb

theorem createNode (hi : Inv s) (hb : b ∈ s.bags) (hj : j ∈ s.objs) (hd : d ∉ s.sets.live)
    (hpos : 0 < d) (hlt : d < 2 ^ 48) : ∃ s', s.createNode d b j = some s' ∧ Inv s' := by
  obtain ⟨sets₀, sets₁, he₀, he₁, hc₁, hr₁, hlive₁⟩ :=
    SetNodes.create_spec (hi.of_mem hb) hi.ranked hd
      ((s.bag b).type.tag b) (fun _ => parent_tag) (hi.counted.tail_live hj)
  have he₀ : s.sets.create d ((s.bag b).type.tag b) (s.obj j).tail = some sets₀ := he₀
  have hne : (s.bag b).ds ≠ some d := fun heq => hd (hi.ds_live hb heq)
  obtain ⟨sets, he, hi', -⟩ := releaseOld hb hc₁ hr₁ fun x hx => by
    rw [hlive₁, Finset.mem_insert] at hx
    rcases hx with rfl | hx
    · exact ⟨hpos, hlt⟩
    · exact hi.counted.address x hx
  refine ⟨_, ?_, hi'⟩
  rw [SetUsers.createNode, he₀]
  simp only [Option.bind_eq_bind, Option.bind_some, SetUsers.setDs, if_neg hne, he₁, he]
  rfl

theorem combine (hi : Inv s) (ha : (Op.combine b that).Applies s) :
    ∃ s', s.combine b that = some s' ∧ Inv s' := by
  obtain ⟨hb, hthat, hsets⟩ := ha
  rw [SetUsers.combine, SetUsers.combineDs]
  cases hd₂ : (s.bag that).ds with
  | none =>
    refine ⟨s, ?_, hi⟩
    simp only [Option.bind_eq_bind, Option.bind_some]
    cases hd : (s.bag b).ds <;> simp
  | some d₂ =>
    have hd₂l := hi.ds_live hthat hd₂
    have hset := hsets d₂ hd₂
    cases hd₁ : (s.bag b).ds with
    | none =>
      -- the empty bag is given the set
      rw [hd₁] at hset
      have hc := hi.of_mem hb
      rw [hd₁, refOf, Option.elim, zero_add] at hc
      obtain ⟨sets₁, he₁, hc₁, hk₁, hlive₁⟩ := SetNodes.incRefCount_spec hc hd₂l
      have hi₁ : Inv (s.putDs b d₂ sets₁) :=
        putDs hb hc₁ (hk₁.ranked hc₁ hi.ranked) fun x hx => hi.counted.address x (hlive₁ ▸ hx)
      have hl₁ : d₂ ∈ (s.putDs b d₂ sets₁).sets.live := show d₂ ∈ sets₁.live from hlive₁ ▸ hd₂l
      have hn₁ : (s.putDs b d₂ sets₁).sets.up d₂ = none := by
        show sets₁.up d₂ = none
        rw [hk₁.up hl₁]
        exact hset
      obtain ⟨sets, he, hi'⟩ := hi₁.retag (b := b) hl₁ hn₁ (s.bag b).type
      refine ⟨_, ?_, hi'⟩
      have hself : ((s.putDs b d₂ sets₁).bag b).ds = some d₂ := by simp [SetUsers.putDs]
      have he : sets₁.setParentOrBag d₂ ((s.bag b).type.tag b) = some sets := he
      simp only [he₁, Option.map_some, Option.bind_eq_bind, Option.bind_some, hself]
      rw [if_pos (by simp)]
      exact congrArg (Option.map _) he
    | some d₁ =>
      rw [hd₁] at hset
      obtain ⟨r, sets₁, he₁, hc₁, hr₁, hlive₁, hrl, hrn⟩ :=
        SetNodes.combine_spec hi.counted.counted hi.ranked (mem_ext hb hd₁) (mem_ext hthat hd₂) hset
      have hi₁ : Inv { s with sets := sets₁ } := hi.setSets hc₁ hr₁ hlive₁
      obtain ⟨sets₂, he₂, hi₂, hk₂⟩ := hi₁.setDs (b := b) hb hrl
      have hself : ((SetUsers.putDs { s with sets := sets₁ } b r sets₂).bag b).ds = some r := by
        simp [SetUsers.putDs]
      have he₁ : s.sets.combine d₁ d₂ = some (r, sets₁) := he₁
      simp only [he₁, Option.bind_eq_bind, Option.bind_some, he₂, hself]
      split
      · have hl₂ : r ∈ sets₂.live := hi₂.ds_live (b := b) hb hself
        have hn₂ : sets₂.up r = none := by rw [hk₂.up hl₂, hrn]
        obtain ⟨sets, he, hi'⟩ := hi₂.retag (b := b) hl₂ hn₂ (s.bag b).type
        exact ⟨_, congrArg (Option.map _) he, hi'⟩
      · exact ⟨_, rfl, hi₂⟩

theorem deleteBag (hi : Inv s) (hb : b ∈ s.bags) : ∃ s', s.deleteBag b = some s' ∧ Inv s' := by
  obtain ⟨sets, he, hc, hk⟩ := SetNodes.decNode_spec (hi.of_mem hb)
  exact ⟨{ s with sets, bags := s.bags.erase b }, by rw [SetUsers.deleteBag, he]; rfl,
    ⟨hc, fun x hx => hi.counted.address x (hk.live hx)⟩, hk.ranked hc hi.ranked⟩

theorem step (hi : Inv s) {op : Op} (ha : op.Applies s) : ∃ s', s.step op = some s' ∧ Inv s' := by
  cases op with
  | newBag b type => exact ⟨_, rfl, hi.newBag ha type⟩
  | createNode d b j => exact hi.createNode ha.1 ha.2.1 ha.2.2.2.1 ha.2.2.2.2.1 ha.2.2.2.2.2
  | combine b that => exact hi.combine ha
  | findSet d =>
    obtain ⟨r, sets, he, hc, hr, hk, -⟩ := SetNodes.findSet_spec hi.counted.counted hi.ranked ha
    have he : s.sets.findSet d = some (r, sets) := he
    exact ⟨{ s with sets }, by rw [SetUsers.step, he]; rfl, hi.setSets hc hr hk.live⟩
  | deleteBag b => exact hi.deleteBag ha
  | record op =>
    obtain ⟨r, he, hnext⟩ := hi.counted.step ha.1 ha.2
    refine ⟨_, by rw [SetUsers.step, he]; rfl, ?_,
      hnext.keeps.ranked hnext.counted.counted hi.ranked⟩
    have hr : (⟨r.sets, s.records.bags, r.objs, r.obj⟩ : Records) = r := by rw [← hnext.bags]
    show Records.RefCounted ⟨r.sets, s.records.bags, r.objs, r.obj⟩
    rw [hr]
    exact hnext.counted

theorem exact (hi : Inv s) : Exact s := by
  have hrefs : ∀ d, s.records.setRefs d = s.refs d := fun d => by
    have hbags : (owned s.bags fun b => refOf (s.bag b).ds).count d =
        (s.bags.filter fun b => (s.bag b).ds = some d).card := by
      rw [owned, Multiset.count_sum', Finset.card_filter]
      exact Finset.sum_congr rfl fun b _ => count_refOf ..
    rw [refs, ← hbags]
    rfl
  refine ⟨fun d hd => ?_, fun d => ?_⟩
  · rw [← hrefs]
    exact hi.counted.owned.setCount d hd
  · rw [← hrefs]
    exact hi.counted.owned.setLive d

end Inv

/-- To begin with there is nothing. -/
theorem init_inv : Inv init where
  counted := by
    have hsets : SetNodes.init.Counted 0 0 := by
      refine ⟨⟨fun d hd => absurd hd (Finset.notMem_empty d), fun d => ?_, fun _ => 0,
          fun d hd => absurd hd (Finset.notMem_empty d)⟩,
        ⟨fun p hp => absurd hp (Finset.notMem_empty p), fun p => ?_, fun _ => 0,
          fun p hp => absurd hp (Finset.notMem_empty p)⟩,
        [], rfl, .nil, by simp, by simp, fun p hp => absurd hp (Finset.notMem_empty p)⟩
      · exact iff_of_false (Finset.notMem_empty d) (Multiset.notMem_zero d)
      · exact iff_of_false (Finset.notMem_empty p) (Multiset.notMem_zero p)
    exact ⟨hsets, fun d hd => absurd hd (Finset.notMem_empty d)⟩
  ranked d p hp := absurd (SetNodes.mem_of_up hp) (Finset.notMem_empty d)

/-- **Reference counts.** Along every sequence of operations, each count is the
number of bags, of stored accesses and of nodes that refer to the node, a node
is there as long as there is one, and nothing reads or writes a node that is
gone, neither in finding a set nor in compressing a path. -/
theorem run_exact (ops : List Op) (ha : Along init ops) : ∃ s, init.run ops = some s ∧ Exact s := by
  suffices hrun : ∀ (s : SetUsers), Inv s → Along s ops → ∃ s', s.run ops = some s' ∧ Inv s' by
    obtain ⟨s, hs, hi⟩ := hrun init init_inv ha
    exact ⟨s, hs, hi.exact⟩
  clear ha
  induction ops with
  | nil => exact fun s hi _ => ⟨s, rfl, hi⟩
  | cons op ops ih =>
    intro s hi ha
    obtain ⟨s₁, hs₁, hi₁⟩ := hi.step ha.1
    obtain ⟨s', hs', hi'⟩ := ih s₁ hi₁ (ha.2 s₁ hs₁)
    exact ⟨s', by rw [run, List.foldlM_cons, hs₁]; exact hs', hi'⟩

/-- Node 1 of an access is below node 2, which nothing else refers to any more,
and that is below node 4: finding the root from 1 deletes 2. -/
theorem run_exact_compressed :
    ∃ s, init.run [.record (.newStack 0), .newBag 10 .sBag, .createNode 1 10 0,
    .record (.accessOf 20 1#64 0#16 9#64), .newBag 11 .sBag, .createNode 2 11 0, .combine 10 11,
    .newBag 12 .pBag, .createNode 3 12 0,
    .newBag 13 .sBag, .createNode 4 13 0, .combine 12 13, .combine 10 12, .deleteBag 11,
    .findSet 1] = some s ∧ Exact s := by
  refine run_exact _ ?_
  refine .cons ⟨show 0 ∉ _ by decide, trivial⟩ rfl (.cons (show 10 ∉ _ by decide) rfl ?_)
  refine .cons ⟨by decide, by decide, rfl, by decide, by decide, by decide⟩ rfl ?_
  refine .cons ⟨⟨by decide, by decide⟩, trivial⟩ rfl (.cons (show 11 ∉ _ by decide) rfl ?_)
  refine .cons ⟨by decide, by decide, rfl, by decide, by decide, by decide⟩ rfl ?_
  refine .cons (Op.applies_combine (by decide) (by decide) rfl rfl rfl rfl (by decide)) rfl ?_
  refine .cons (show 12 ∉ _ by decide) rfl
    (.cons ⟨by decide, by decide, rfl, by decide, by decide, by decide⟩ rfl ?_)
  refine .cons (show 13 ∉ _ by decide) rfl
    (.cons ⟨by decide, by decide, rfl, by decide, by decide, by decide⟩ rfl ?_)
  refine .cons (Op.applies_combine (by decide) (by decide) rfl rfl rfl rfl (by decide)) rfl ?_
  refine .cons (Op.applies_combine (by decide) (by decide) rfl rfl rfl rfl (by decide)) rfl ?_
  exact .cons (show 11 ∈ _ by decide) rfl (.cons (show 1 ∈ _ by decide) rfl trivial)

end SetUsers

end Cilksan
