/-
The disjoint sets with their reference counts (`disjointset.h`): finding the
root of a set compresses the path to it, and with that takes references from
the nodes of the path, which may delete them.
-/
import CilkTools.Cilksan.SetNodes
import CilkTools.Forest

namespace Cilksan

open RefCounts

namespace SetNodes

/-- What is read of a node. -/
def get (h : SetNodes) (d : Nat) : Option SetNode := if d ∈ h.live then some (h.node d) else none

def setParentOrBag (h : SetNodes) (d : Nat) (pb : ParentOrBag) : Option SetNodes :=
  (h.get d).map fun x => h.put d { x with parentOrBag := pb }

/-- `_rank++`. -/
def incRank (h : SetNodes) (d : Nat) : Option SetNodes :=
  (h.get d).map fun x => h.put d { x with rank := x.rank + 1 }

def internalSetParent (h : SetNodes) (this that : Nat) : Option SetNodes := do
  let old ← h.get this
  let h ← h.setParentOrBag this (.parent that)
  let h ← h.incRefCount that
  let oldDjs ← old.parent
  h.decRefCount oldDjs

def rootSetParent (h : SetNodes) (this that : Nat) : Option SetNodes := do
  let h ← h.setParentOrBag this (.parent that)
  h.incRefCount that

/-- Links the node with smaller rank into the node with larger rank. -/
def link (h : SetNodes) (this that : Nat) : Option (Nat × SetNodes) := do
  let x ← h.get this
  let y ← h.get that
  if x.rank > y.rank then
    let h ← h.rootSetParent that this
    return (this, h)
  else
    let h ← h.rootSetParent this that
    let h ← if x.rank = y.rank then h.incRank that else some h
    return (that, h)

/-- The loop of `find_set` up to the root: the nodes whose parent is not the
root are remembered, the last one first. -/
def climb (h : SetNodes) : Nat → Nat → List Nat → Option (Nat × List Nat)
  | 0, _, _ => none
  | n + 1, node, path => do
    let x ← h.get node
    match x.parent with
    | none => return (node, path)
    | some p =>
      let y ← h.get p
      h.climb n p (if y.parent.isSome then node :: path else path)

/-- A climb has no more steps than there are nodes. -/
def findSet (h : SetNodes) (d : Nat) : Option (Nat × SetNodes) := do
  let x ← h.get d
  match x.parent with
  | none => return (d, h)
  | some p =>
    let y ← h.get p
    if y.parent.isNone then return (p, h)
    else
      let r ← h.climb h.live.card d []
      let h ← r.2.foldlM (fun h p => h.internalSetParent p r.1) h
      return (r.1, h)

def combine (h : SetNodes) (this that : Nat) : Option (Nat × SetNodes) := do
  let r₁ ← h.findSet this
  let r₂ ← r₁.2.findSet that
  r₂.2.link r₁.1 r₂.1

/-! ## The forest of the nodes that are there -/

variable {h h' : SetNodes} {d p q r x y : Nat} {ext stackExt : Multiset Nat}

/-- The parent of a node that is there. -/
def up (h : SetNodes) (d : Nat) : Option Nat := if d ∈ h.live then (h.node d).parent else none

def rank (h : SetNodes) (d : Nat) : Nat := (h.node d).rank

/-- Ranks increase from a node to its parent. -/
abbrev Ranked (h : SetNodes) : Prop := Forest.Ranked h.up h.rank

theorem get_eq (hd : d ∈ h.live) : h.get d = some (h.node d) := if_pos hd

theorem up_eq (hd : d ∈ h.live) : h.up d = (h.node d).parent := if_pos hd

theorem mem_of_up (hp : h.up d = some p) : d ∈ h.live := by
  by_contra hd
  rw [up, if_neg hd] at hp
  cases hp

theorem up_mem (hc : Counted h ext stackExt) (hp : h.up d = some p) : p ∈ h.live := by
  have hd := mem_of_up hp
  rw [up_eq hd] at hp
  exact hc.sets.mem_live_of_refs hd (mem_refOf.2 hp)

/-- A root is there if a node that leads to it is. -/
theorem root_mem (hc : Counted h ext stackExt) (hr : Forest.Root h.up d r) (hd : d ∈ h.live) :
    r ∈ h.live := by
  induction hr with
  | here => exact hd
  | up hp _ ih => exact ih (up_mem hc hp)

theorem exists_root (hc : Counted h ext stackExt) (hr : Ranked h) (hd : d ∈ h.live) :
    ∃ r ∈ h.live, Forest.Root h.up d r :=
  hr.exists_root (S := (· ∈ h.live)) (B := h.live.sup h.rank) (fun _ hx => Finset.le_sup hx)
    (fun _ _ _ hp => up_mem hc hp)
      _ d hd (Nat.le_refl _)

/-- Where ranks increase to the parents, no node is below itself. -/
theorem acyclic_of_ranked {rank : Nat → Nat} (hr : Forest.Ranked h.up rank) :
    ∃ rank : Nat → Nat, ∀ y ∈ h.live, ∀ x ∈ h.toHeap.refs y, rank x < rank y := by
  refine ⟨fun x => h.live.sup rank + 1 - rank x, fun y hy x hx => ?_⟩
  have hlt := hr y x (by rw [up_eq hy]; exact mem_refOf.1 hx)
  have hle : rank y ≤ h.live.sup rank := Finset.le_sup hy
  show h.live.sup rank + 1 - rank x < h.live.sup rank + 1 - rank y
  omega

theorem Keeps.up (hk : Keeps h h') (hx : x ∈ h'.live) : h'.up x = h.up x := by
  rw [up_eq hx, up_eq (hk.live hx), hk.parent hx]

theorem Keeps.ranked (hk : Keeps h h') (hc : Counted h' ext stackExt) (hr : Ranked h) :
    Ranked h' := fun x p hp => by
  have hx := mem_of_up hp
  have hlt := hr x p (hk.up hx ▸ hp)
  rwa [SetNodes.rank, SetNodes.rank, ← hk.rank x hx, ← hk.rank p (up_mem hc hp)] at hlt

/-- What is deleted with a node has no smaller rank: the processing of a path
from its end on loses no node that is still to be processed. -/
theorem decRefCountIn_live (n : Nat) :
    ∀ (h h' : SetNodes) (d : Nat), decRefCountIn n h d = some h' → Ranked h →
    ∀ x ∈ h.live, h.rank x < h.rank d → x ∈ h'.live := by
  induction n with
  | zero => intro h h' d he; cases he
  | succ n ih =>
    intro h h' d he hr x hx hlt
    have hd : d ∈ h.live := by
      by_contra hd
      rw [decRefCountIn, addRef, if_neg hd] at he
      cases he
    obtain ⟨h₁, he₁, hlive, -, hnode, -⟩ := addRef_spec hd (-1)
    have hrank : ∀ y, h₁.rank y = h.rank y := fun y => by rw [SetNodes.rank, hnode]; rfl
    have hup : ∀ y, (h₁.node y).parent = (h.node y).parent := fun y => by rw [hnode]; rfl
    have hx₂ : x ∈ h₁.live.erase d := by
      rw [hlive]
      exact Finset.mem_erase.2 ⟨fun heq => Nat.ne_of_lt hlt (heq ▸ rfl), hx⟩
    rw [decRefCountIn, he₁] at he
    simp only [Option.bind_eq_bind, Option.bind_some] at he
    split at he
    · cases he
      rwa [hlive]
    · -- the node is deleted, and its parent, of larger rank, is released
      obtain ⟨h₃, he₃, he⟩ := Option.bind_eq_some_iff.1 he
      obtain ⟨callNodes, -, he⟩ := Option.bind_eq_some_iff.1 he
      cases he
      show x ∈ h₃.live
      rw [hup] at he₃
      cases hp : (h.node d).parent with
      | none =>
        rw [hp] at he₃
        cases he₃
        exact hx₂
      | some p =>
        rw [hp] at he₃
        refine ih _ h₃ p he₃ (fun y q hq => ?_) x hx₂ ?_
        · have hy := mem_of_up hq
          rw [up_eq hy, hup] at hq
          have hyl : y ∈ h.live := hlive ▸ Finset.mem_of_mem_erase hy
          have hlt := hr y q (by rw [up_eq hyl, hq])
          rwa [← hrank, ← hrank] at hlt
        · have hdp := hr d p (by rw [up_eq hd, hp])
          have hxp := Nat.lt_trans hlt hdp
          rwa [← hrank, ← hrank] at hxp

/-! ## Writes of parents -/

theorem setParentOrBag_eq (hd : d ∈ h.live) (pb : ParentOrBag) :
    h.setParentOrBag d pb = some (h.put d { h.node d with parentOrBag := pb }) := by
  rw [setParentOrBag, get_eq hd]
  rfl

/-- A node that is there points to another one, which has one reference more;
what it pointed to is still counted. -/
theorem setParent_spec (hc : Counted h ext stackExt) (hd : d ∈ h.live) (hq : q ∈ h.live)
    {rank : Nat → Nat} (hr : Forest.Ranked (Function.update h.up d (some q)) rank) :
    ∃ h', h.rootSetParent d q = some h' ∧ Counted h' (refOf (h.node d).parent + ext) stackExt ∧
    h'.live = h.live ∧
      h'.up = Function.update h.up d (some q) ∧
      (∀ x, x ≠ d → (h'.node x).parentOrBag = (h.node x).parentOrBag) ∧
      ∀ x, h'.rank x = h.rank x ∧ (h'.node x).data = (h.node x).data := by
  obtain ⟨h₁, hh₁⟩ : ∃ h₁, h.put d { h.node d with parentOrBag := .parent q } = h₁ := ⟨_, rfl⟩
  have hself : h₁.node d = { h.node d with parentOrBag := .parent q } := hh₁ ▸ node_put_self ..
  have hother : ∀ x, x ≠ d → h₁.node x = h.node x := fun x hx => hh₁ ▸ node_put_of_ne h _ hx
  have hlive₁ : h₁.live = h.live := hh₁ ▸ rfl
  have hcall₁ : h₁.callNodes = h.callNodes := hh₁ ▸ rfl
  obtain ⟨h', he, hlive, hcall, hnode, -, -⟩ := addRef_spec (show q ∈ h₁.live from hlive₁ ▸ hq) 1
  have hlive' : h'.live = h.live := hlive.trans hlive₁
  have hkeep : ∀ x, h'.rank x = h.rank x ∧ (h'.node x).data = (h.node x).data := fun x => by
    by_cases hx : x = d
    · rw [SetNodes.rank, hnode, hx, hself]
      exact ⟨rfl, rfl⟩
    · rw [SetNodes.rank, hnode, hother x hx]
      exact ⟨rfl, rfl⟩
  have hpb : ∀ x, x ≠ d → (h'.node x).parentOrBag = (h.node x).parentOrBag :=
    fun x hx => by rw [hnode, hother x hx]
  have hup : h'.up = Function.update h.up d (some q) := funext fun x => by
    by_cases hx : x = d
    · rw [hx, Function.update_self, up, if_pos (hlive' ▸ hd), hnode, hself]
      rfl
    · rw [Function.update_of_ne hx, up, up, hlive', SetNode.parent, hpb x hx]
      rfl
  refine ⟨h', ?_, ⟨?_, ?_, ?_⟩, hlive', hup, hpb, hkeep⟩
  · rw [rootSetParent, setParentOrBag_eq hd, hh₁]
    exact he
  · -- one reference more first, and then it is the node that holds it
    have hb := hc.sets.retain hq
    have hrefs :
        ∀ x ∈ h.live, h'.toHeap.refs x =
        ((h.toHeap.addRef q 1).relink d {q}).refs x := fun x hx => by
      show refOf (h'.node x).parent = Function.update (fun x => refOf (h.node x).parent) d {q} x
      rw [← up_eq (hlive' ▸ hx), hup]
      by_cases hxd : x = d
      · rw [hxd, Function.update_self, Function.update_self]
        rfl
      · rw [Function.update_of_ne hxd, Function.update_of_ne hxd, up_eq hx]
    have hrelink :
        Balanced ((h.toHeap.addRef q 1).relink d {q}) (refOf (h.node d).parent + ext) := by
      refine Balanced.relink (r := {q}) (by rwa [Multiset.singleton_add]) hd ?_
      obtain ⟨rank, hacyclic⟩ := acyclic_of_ranked (h := h') (hup ▸ hr)
      refine ⟨rank, fun z hz y hy => hacyclic z (hlive' ▸ hz) y ?_⟩
      rw [hrefs z hz]
      exact hy
    refine hrelink.congr hlive' (fun x hx => ?_) fun x hx => hrefs x hx
    show (h'.node x).refCount =
      Function.update (fun x => (h.node x).refCount) q ((h.node q).refCount + 1) x
    have hcount : ∀ y, (h₁.node y).refCount = (h.node y).refCount := fun y => by
      by_cases hy : y = d
      · rw [hy, hself]
      · rw [hother y hy]
    rw [hnode, Function.update_apply, hcount]
    split
    · next heq => rw [heq]
    · rfl
  · have hdatas' : h'.datas = h.datas := by
      rw [datas, datas, hlive']
      exact Finset.sum_congr rfl fun x _ => by rw [(hkeep x).2]
    rw [hcall, hcall₁, hdatas']
    exact hc.callNodes
  · rw [hcall, hcall₁]
    exact hc.free

/-! ## Compression -/

/-- What finding a root may do: shorten paths, and delete nodes that nothing
refers to then. -/
structure Compressed (h h' : SetNodes) : Prop where
  live : h'.live ⊆ h.live
  root : ∀ x ∈ h'.live, ∀ r, Forest.Root h.up x r → Forest.Root h'.up x r
  bag : ∀ x ∈ h'.live, h.up x = none → (h'.node x).parentOrBag = (h.node x).parentOrBag
  rank : ∀ x ∈ h'.live, h'.rank x = h.rank x
  data : ∀ x ∈ h'.live, (h'.node x).data = (h.node x).data

namespace Compressed

theorem refl (h : SetNodes) : Compressed h h :=
  ⟨Finset.Subset.refl _, fun _ _ _ hr => hr, fun _ _ _ => rfl, fun _ _ => rfl, fun _ _ => rfl⟩

theorem up_none (hk : Compressed h h') (hx : x ∈ h'.live) (hn : h.up x = none) :
    h'.up x = none := by
  rw [up_eq (hk.live hx)] at hn
  rw [up_eq hx, SetNode.parent, hk.bag x hx (by rw [up_eq (hk.live hx), hn])]
  exact hn

theorem trans {h'' : SetNodes} (h₁ : Compressed h h') (h₂ : Compressed h' h'') :
    Compressed h h'' where
  live := h₂.live.trans h₁.live
  root x hx r hr := h₂.root x hx r (h₁.root x (h₂.live hx) r hr)
  bag x hx hn := (h₂.bag x hx (h₁.up_none (h₂.live hx) hn)).trans (h₁.bag x (h₂.live hx) hn)
  rank x hx := (h₂.rank x hx).trans (h₁.rank x (h₂.live hx))
  data x hx := (h₂.data x hx).trans (h₁.data x (h₂.live hx))

end Compressed

/-- A node that is still there leads to the root that it led to. -/
theorem Keeps.root (hk : Keeps h h') (hc : Counted h' ext stackExt) (hr : Forest.Root h.up x r)
    (hx : x ∈ h'.live) : Forest.Root h'.up x r := by
  induction hr with
  | here hn => exact .here (by rw [hk.up hx, hn])
  | up hp _ ih =>
    rw [← hk.up hx] at hp
    exact .up hp (ih (up_mem hc hp))

/-- One step of the compression. The nodes of no larger rank, among them those
that are still to come, stay. -/
theorem internalSetParent_spec (hc : Counted h ext stackExt) (hr : Ranked h) (hp : p ∈ h.live)
    (hroot : Forest.Root h.up p r)
    (hne : p ≠ r) : ∃ h', h.internalSetParent p r = some h' ∧ Counted h' ext stackExt ∧ Ranked h' ∧
    Compressed h h' ∧
      ∀ x ∈ h.live, h.rank x ≤ h.rank p → x ∈ h'.live := by
  obtain ⟨q, hq⟩ : ∃ q, h.up p = some q := by
    cases hn : h.up p with
    | none => exact absurd (hroot.eq_of_root hn).symm hne
    | some q => exact ⟨q, rfl⟩
  have hparent : (h.node p).parent = some q := by rw [← up_eq hp, hq]
  have hlt : h.rank p < h.rank r := hroot.rank_lt hr hq
  obtain ⟨h₂, he₂, hc₂, hlive₂, hup₂, hpb₂, hsame₂⟩ :=
    setParent_spec hc hp (root_mem hc hroot hp) (hr.update hlt)
  rw [hparent, refOf, Option.elim, Multiset.singleton_add] at hc₂
  have hrank₂ : h₂.rank = h.rank := funext fun x => (hsame₂ x).1
  have hr₂ : Ranked h₂ := by
    rw [Ranked, hup₂, hrank₂]
    exact hr.update hlt
  obtain ⟨h₃, he₃, hc₃, hk₃⟩ := decRefCount_spec hc₂
  obtain ⟨h₁, he₁, he₂⟩ := Option.bind_eq_some_iff.1 he₂
  refine ⟨h₃, ?_, hc₃, hk₃.ranked hc₃ hr₂,
    ⟨?_, fun x hx s hs => ?_, fun x hx hn => ?_, fun x hx => ?_, fun x hx => ?_⟩,
    fun x hx hle => ?_⟩
  · rw [internalSetParent, get_eq hp]
    simp only [Option.bind_eq_bind, Option.bind_some, he₁, he₂, hparent, he₃]
  · rw [← hlive₂]
    exact hk₃.live
  · refine hk₃.root hc₃ ?_ hx
    rw [hup₂]
    exact hroot.compress (by rw [hq]; simp) hs
  · have hxp : x ≠ p := fun heq => by
      rw [heq, hq] at hn
      cases hn
    rw [hk₃.parentOrBag x hx, hpb₂ x hxp]
  · rw [SetNodes.rank, hk₃.rank x hx]
    exact (hsame₂ x).1
  · rw [hk₃.data x hx, (hsame₂ x).2]
  · refine decRefCountIn_live _ h₂ h₃ q he₃ hr₂ x (hlive₂ ▸ hx) ?_
    rw [hrank₂]
    exact Nat.lt_of_le_of_lt hle (hr p q hq)

/-! ## `find_set` -/

/-- A path that is to be compressed: nodes below the root, the ones of larger
rank first. -/
structure Pending (h : SetNodes) (r m : Nat) (path : List Nat) : Prop where
  live : ∀ x ∈ path, x ∈ h.live
  root : ∀ x ∈ path, Forest.Root h.up x r ∧ x ≠ r
  low : ∀ x ∈ path, m ≤ h.rank x
  sorted : path.Pairwise fun x y => h.rank y < h.rank x

/-- The climb reaches the root. It is by induction on the steps that are left,
which are as many as there are nodes of no smaller rank. -/
theorem climb_spec (hc : Counted h ext stackExt) (hr : Ranked h) {m : Nat} (n : Nat) :
    ∀ (d : Nat) (path : List Nat), d ∈ h.live →
    Forest.Root h.up d r → (h.live.filter fun x => h.rank d ≤ h.rank x).card ≤ n →
    Pending h r m path → m ≤ h.rank d →
    (∀ x ∈ path, h.rank x < h.rank d) →
    ∃ path', h.climb n d path = some (r, path') ∧ Pending h r m path' := by
  induction n with
  | zero =>
    intro d path hd _ hcard
    have hmem : d ∈ h.live.filter fun x => h.rank d ≤ h.rank x :=
      Finset.mem_filter.2 ⟨hd, Nat.le_refl _⟩
    exact absurd (Finset.card_pos.2 ⟨d, hmem⟩) (by omega)
  | succ n ih =>
    intro d path hd hroot hcard hpath hm hlow
    rw [climb, get_eq hd]
    simp only [Option.bind_eq_bind, Option.bind_some]
    cases hroot with
    | here hn =>
      rw [up_eq hd] at hn
      rw [hn]
      exact ⟨path, rfl, hpath⟩
    | @up _ p _ hp hroot =>
      have hpl := up_mem hc hp
      have hlt := hr d p hp
      have hparent : (h.node d).parent = some p := by rw [← up_eq hd, hp]
      simp only [hparent, get_eq hpl, Option.bind_some]
      refine ih p _ hpl hroot ?_ ?_ (Nat.le_trans hm (Nat.le_of_lt hlt)) fun x hx => ?_
      · have hsub : (h.live.filter fun x => h.rank p ≤ h.rank x) ⊂ h.live.filter fun x => h.rank d ≤
            h.rank x := by
          refine Finset.ssubset_iff_subset_ne.2 ⟨fun x hx => ?_, fun heq => ?_⟩
          · obtain ⟨hxl, hle⟩ := Finset.mem_filter.1 hx
            exact Finset.mem_filter.2 ⟨hxl, by omega⟩
          · have hmem : d ∈ h.live.filter fun x => h.rank p ≤ h.rank x := by
              rw [heq]
              exact Finset.mem_filter.2 ⟨hd, Nat.le_refl _⟩
            have hle := (Finset.mem_filter.1 hmem).2
            omega
        have hcard' := Finset.card_lt_card hsub
        omega
      · split
        · refine ⟨fun x hx => ?_, fun x hx => ?_, fun x hx => ?_,
            List.pairwise_cons.2 ⟨hlow, hpath.sorted⟩⟩
          · rcases List.mem_cons.1 hx with rfl | hx
            · exact hd
            · exact hpath.live x hx
          · rcases List.mem_cons.1 hx with rfl | hx
            · refine ⟨.up hp hroot, fun heq => ?_⟩
              have hle := hroot.rank_le hr
              rw [← heq] at hle
              omega
            · exact hpath.root x hx
          · rcases List.mem_cons.1 hx with rfl | hx
            · exact hm
            · exact hpath.low x hx
        · exact hpath
      · split at hx
        · rcases List.mem_cons.1 hx with rfl | hx
          · exact hlt
          · exact Nat.lt_trans (hlow x hx) hlt
        · exact Nat.lt_trans (hlow x hx) hlt

/-- The compression, from the end of the path on. -/
theorem compress_spec (path : List Nat) : ∀ h : SetNodes, Counted h ext stackExt → Ranked h →
    ∀ {m : Nat}, Pending h r m path →
    ∃ h', path.foldlM (fun h p => h.internalSetParent p r) h = some h' ∧ Counted h' ext stackExt ∧
    Ranked h' ∧ Compressed h h' ∧
      ∀ x ∈ h.live, h.rank x ≤ m → x ∈ h'.live := by
  induction path with
  | nil => exact fun h hc hr _ _ => ⟨h, rfl, hc, hr, .refl h, fun _ hx _ => hx⟩
  | cons p path ih =>
    intro h hc hr m hpath
    obtain ⟨hroot, hne⟩ := hpath.root p (by simp)
    obtain ⟨hfirst, hsorted⟩ := List.pairwise_cons.1 hpath.sorted
    obtain ⟨h₁, he₁, hc₁, hr₁, hk₁, hstay₁⟩ :=
      internalSetParent_spec hc hr (hpath.live p (by simp)) hroot hne
    have hlive : ∀ x ∈ path, x ∈ h₁.live := fun x hx =>
      hstay₁ x (hpath.live x (by simp [hx])) (Nat.le_of_lt (hfirst x hx))
    have hpath₁ : Pending h₁ r m path := by
      refine ⟨hlive, fun x hx => ?_, fun x hx => ?_, hsorted.imp_of_mem fun {x y} hx hy hlt => ?_⟩
      · obtain ⟨hx', hxr⟩ := hpath.root x (by simp [hx])
        exact ⟨hk₁.root x (hlive x hx) r hx', hxr⟩
      · rw [hk₁.rank x (hlive x hx)]
        exact hpath.low x (by simp [hx])
      · rwa [hk₁.rank x (hlive x hx), hk₁.rank y (hlive y hy)]
    obtain ⟨h', he, hc', hr', hk', hstay⟩ := ih h₁ hc₁ hr₁ hpath₁
    refine ⟨h', by rw [List.foldlM_cons, he₁]; exact he, hc', hr', hk₁.trans hk',
      fun x hx hle => ?_⟩
    have hx₁ := hstay₁ x hx (Nat.le_trans hle (hpath.low p (by simp)))
    exact hstay x hx₁ (hk₁.rank x hx₁ ▸ hle)

/-- `find_set` finds the root, and neither it nor the node it is called on is
deleted. -/
theorem findSet_spec (hc : Counted h ext stackExt) (hr : Ranked h) (hd : d ∈ h.live) :
    ∃ r h', h.findSet d = some (r, h') ∧
    Counted h' ext stackExt ∧ Ranked h' ∧ Compressed h h' ∧ d ∈ h'.live ∧ r ∈ h'.live ∧
    h'.up r = none ∧ Forest.Root h.up d r := by
  obtain ⟨r, hrl, hroot⟩ := exists_root hc hr hd
  have hrn := hroot.isRoot
  rw [findSet, get_eq hd]
  simp only [Option.bind_eq_bind, Option.bind_some]
  cases hroot with
  | here hn =>
    rw [up_eq hd] at hn
    rw [hn]
    exact ⟨d, h, rfl, hc, hr, .refl h, hd, hd, hrn, .here hrn⟩
  | @up _ p _ hp hroot =>
    have hpl := up_mem hc hp
    have hparent : (h.node d).parent = some p := by rw [← up_eq hd, hp]
    simp only [hparent, get_eq hpl, Option.bind_some]
    split
    · next hpn =>
      rw [Option.isNone_iff_eq_none, ← up_eq hpl] at hpn
      have heq := hroot.eq_of_root hpn
      subst heq
      exact ⟨_, h, rfl, hc, hr, .refl h, hd, hpl, hrn, .up hp hroot⟩
    · obtain ⟨path, he, hpath⟩ :=
        climb_spec hc hr (m := h.rank d) h.live.card d [] hd (.up hp hroot)
          (Finset.card_filter_le ..)
        ⟨by simp, by simp, by simp, .nil⟩ (Nat.le_refl _) (by simp)
      obtain ⟨h', he', hc', hr', hk, hstay⟩ := compress_spec path h hc hr hpath
      have hd' := hstay d hd (Nat.le_refl _)
      have hroot' := hk.root d hd' r (.up hp hroot)
      simp only [he, Option.bind_some]
      exact ⟨r, h', by rw [he']; rfl, hc', hr', hk, hd', root_mem hc' hroot' hd',
        hroot'.isRoot, .up hp hroot⟩

/-! ## `link` and `combine` -/

theorem up_put {x : SetNode} (hx : x.parent = (h.node d).parent) :
    (h.put d x).up = h.up := funext fun y => by
  by_cases hy : y = d
  · rw [up, up, hy, node_put_self, hx]
    rfl
  · rw [up, up, node_put_of_ne h x hy]
    rfl

/-- What is not a reference may change. -/
theorem Counted.put (hc : Counted h ext stackExt) {x : SetNode}
    (hparent : x.parent = (h.node d).parent)
    (hcount : x.refCount = (h.node d).refCount) (hdata : x.data = (h.node d).data) :
    Counted (h.put d x) ext stackExt := by
  have hsame : ∀ y, ((h.put d x).node y).parent = (h.node y).parent ∧
      ((h.put d x).node y).refCount = (h.node y).refCount ∧
      ((h.put d x).node y).data = (h.node y).data := fun y => by
    by_cases hy : y = d
    · rw [hy, node_put_self]
      exact ⟨hparent, hcount, hdata⟩
    · rw [node_put_of_ne h x hy]
      exact ⟨rfl, rfl, rfl⟩
  have hdatas : (h.put d x).datas = h.datas := Finset.sum_congr rfl fun y _ => by rw [(hsame y).2.2]
  refine ⟨hc.sets.congr rfl (fun y _ => (hsame y).2.1) fun y _ => ?_, ?_, hc.free⟩
  · exact congrArg refOf (hsame y).1
  · rw [hdatas]
    exact hc.callNodes

theorem incRank_spec (hc : Counted h ext stackExt) (hd : d ∈ h.live) :
    ∃ h', h.incRank d = some h' ∧ Counted h' ext stackExt ∧
    h'.live = h.live ∧ h'.up = h.up ∧ h'.rank = Function.update h.rank d (h.rank d + 1) := by
  refine ⟨h.put d { h.node d with rank := (h.node d).rank + 1 }, by rw [incRank, get_eq hd]; rfl,
    hc.put rfl rfl rfl, rfl, up_put rfl, funext fun x => ?_⟩
  by_cases hx : x = d
  · rw [SetNodes.rank, hx, node_put_self, Function.update_self]
    rfl
  · rw [SetNodes.rank, node_put_of_ne h _ hx, Function.update_of_ne hx]
    rfl

/-- Ranks increase still when the root of a link has its rank raised. -/
theorem ranked_link (hr : Ranked h) (hq : h.up q = none) (hdq : d ≠ q) (hle : h.rank d ≤ h.rank q) :
    Forest.Ranked (Function.update h.up d (some q))
    (Function.update h.rank q (h.rank q + 1)) := fun x p hp => by
  by_cases hx : x = d
  · rw [hx, Function.update_self] at hp
    cases hp
    rw [hx, Function.update_of_ne hdq, Function.update_self]
    omega
  · rw [Function.update_of_ne hx] at hp
    have hxq : x ≠ q := fun heq => by
      rw [heq, hq] at hp
      cases hp
    have hlt := hr x p hp
    rw [Function.update_of_ne hxq, Function.update_apply]
    split
    · next heq =>
      rw [heq] at hlt
      omega
    · exact hlt

/-- Of two roots, one is linked below the other. -/
theorem link_spec (hc : Counted h ext stackExt) (hr : Ranked h) (hx : x ∈ h.live) (hy : y ∈ h.live)
    (hxn : h.up x = none)
    (hyn : h.up y = none) (hne : x ≠ y) :
    ∃ r h', h.link x y = some (r, h') ∧ Counted h' ext stackExt ∧ Ranked h' ∧
      h'.live = h.live ∧ (r = x ∨ r = y) ∧ h'.up r = none := by
  have hparent : ∀ z, z ∈ h.live → h.up z = none → refOf (h.node z).parent = 0 := fun z hz hn => by
    rw [← up_eq hz, hn]
    rfl
  have hroot : ∀ {a b : Nat} {h' : SetNodes}, h.up b = none → a ≠ b →
    h'.up = Function.update h.up a (some b) → h'.up b = none :=
    fun hn hab hup => by rw [hup, Function.update_of_ne (Ne.symm hab), hn]
  rw [link, get_eq hx, get_eq hy]
  simp only [Option.bind_eq_bind, Option.bind_some]
  split
  · next hgt =>
    have hranked := hr.update (show h.rank y < h.rank x from hgt)
    obtain ⟨h', he, hc', hlive, hup, -, hsame⟩ := setParent_spec hc hy hx hranked
    rw [hparent y hy hyn, zero_add] at hc'
    have hrank : h'.rank = h.rank := funext fun z => (hsame z).1
    refine ⟨x, h', by rw [he]; rfl, hc', ?_, hlive, .inl rfl, hroot hxn (Ne.symm hne) hup⟩
    rwa [Ranked, hup, hrank]
  · next hgt =>
    have hle : h.rank x ≤ h.rank y := Nat.not_lt.1 hgt
    obtain ⟨h₁, he₁, hc₁, hlive₁, hup₁, -, hsame₁⟩ :=
      setParent_spec hc hx hy (ranked_link hr hyn hne hle)
    rw [hparent x hx hxn, zero_add] at hc₁
    have hrank₁ : h₁.rank = h.rank := funext fun z => (hsame₁ z).1
    rw [he₁]
    simp only [Option.bind_some]
    split
    · obtain ⟨h', he, hc', hlive, hup, hrank⟩ :=
        incRank_spec hc₁ (show y ∈ h₁.live from hlive₁ ▸ hy)
      refine ⟨y, h', by rw [he]; rfl, hc', ?_, hlive.trans hlive₁, .inr rfl,
        hroot hyn hne (hup.trans hup₁)⟩
      rw [Ranked, hup, hup₁, hrank, hrank₁]
      exact ranked_link hr hyn hne hle
    · next heq =>
      have hlt : h.rank x < h.rank y := Nat.lt_of_le_of_ne hle heq
      refine ⟨y, h₁, rfl, hc₁, ?_, hlive₁, .inr rfl, hroot hyn hne hup₁⟩
      rw [Ranked, hup₁, hrank₁]
      exact hr.update hlt

/-- Two sets are combined: nothing that is read or written is gone. -/
theorem combine_spec (hc : Counted h ext stackExt) (hr : Ranked h) (hx : x ∈ ext) (hy : y ∈ ext)
    (hdiff : ∀ r, Forest.Root h.up x r → ¬ Forest.Root h.up y r) :
    ∃ r h', h.combine x y = some (r, h') ∧
      Counted h' ext stackExt ∧ Ranked h' ∧ h'.live ⊆ h.live ∧ r ∈ h'.live ∧ h'.up r = none := by
  obtain ⟨r₁, h₁, he₁, hc₁, hr₁, hk₁, -, hrl₁, hrn₁, hroot₁⟩ :=
    findSet_spec hc hr (hc.sets.mem_live hx)
  obtain ⟨r₂, h₂, he₂, hc₂, hr₂, hk₂, -, hrl₂, hrn₂, hroot₂⟩ :=
    findSet_spec hc₁ hr₁ (hc₁.sets.mem_live hy)
  have hx₂ := hc₂.sets.mem_live hx
  -- the first root is there still, since the first node is
  have hroot : Forest.Root h₂.up x r₁ := hk₂.root x hx₂ r₁ (hk₁.root x (hk₂.live hx₂) r₁ hroot₁)
  have hrl := root_mem hc₂ hroot hx₂
  have hne : r₁ ≠ r₂ := fun heq => by
    obtain ⟨s, -, hs⟩ := exists_root hc hr (hc.sets.mem_live hy)
    have hs₁ := hk₁.root y (hc₁.sets.mem_live hy) s hs
    have hsr : s = r₁ := by rw [heq, hs₁.det hroot₂]
    exact hdiff r₁ hroot₁ (hsr ▸ hs)
  obtain ⟨r, h', he, hc', hr', hlive, hrr, hrn⟩ := link_spec hc₂ hr₂ hrl hrl₂ hroot.isRoot hrn₂ hne
  refine ⟨r, h', ?_, hc', hr', ?_, ?_, hrn⟩
  · rw [combine, he₁]
    simp only [Option.bind_eq_bind, Option.bind_some, he₂]
    exact he
  · rw [hlive]
    exact hk₂.live.trans hk₁.live
  · rw [hlive]
    rcases hrr with rfl | rfl
    · exact hrl
    · exact hrl₂

end SetNodes

end Cilksan
