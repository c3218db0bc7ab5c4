/-
The call stacks that accesses carry. An access is recorded with the node its
frame's bag points to, whose data is a call stack and never changes; but a bag
that is merged with another takes over the other's node unless its own has the
larger rank.
-/
import CilkTools.Cilksan.BagOwnership

namespace Cilksan

/-- `AccessLoc_t`, but for the access's type. -/
structure AccessLoc where
  accId : Nat
  callStack : CallStack
  deriving DecidableEq, Repr

def MemoryAccess.getLoc (m : MemoryAccess) (h : Bags) : AccessLoc :=
  ⟨m.accId, (h.sets.node m.func).data⟩

namespace DisjointSets

theorem data_setParent (s : DisjointSets) (d p x : Nat) :
    ((s.setParent d p).node x).data = (s.node x).data :=
  data_setParentOrBag s d _ x

theorem data_incRank (s : DisjointSets) (d x : Nat) :
    ((s.incRank d).node x).data = (s.node x).data := by
  by_cases hx : x = d
  · subst hx; simp [incRank]
  · simp [incRank, hx]

theorem data_foldl_setParent (root x : Nat) : ∀ (path : List Nat) (s : DisjointSets),
    ((path.foldl (fun s p => s.setParent p root) s).node x).data = (s.node x).data
  | [], _ => rfl
  | p :: path, s => (data_foldl_setParent root x path _).trans (data_setParent s p root x)

theorem data_findSet (s : DisjointSets) (d x : Nat) :
    ((s.findSet d).2.node x).data = (s.node x).data := by
  simp only [findSet]
  split
  · rfl
  · split
    · rfl
    · exact data_foldl_setParent ..

theorem data_link (s : DisjointSets) (a b x : Nat) :
    ((s.link a b).2.node x).data = (s.node x).data := by
  simp only [link]
  split
  · exact data_setParent ..
  · split
    · rw [data_incRank, data_setParent]
    · exact data_setParent ..

/-- The data of a node never change. -/
theorem data_combine (s : DisjointSets) (a b x : Nat) :
    ((s.combine a b).2.node x).data = (s.node x).data := by
  simp only [combine]
  rw [data_link, data_findSet, data_findSet]

theorem size_foldl_setParent (root : Nat) : ∀ (path : List Nat) (s : DisjointSets),
    (path.foldl (fun s p => s.setParent p root) s).size = s.size
  | [], _ => rfl
  | p :: path, s => size_foldl_setParent root path (s.setParent p root)

theorem size_findSet (s : DisjointSets) (d : Nat) : (s.findSet d).2.size = s.size := by
  simp only [findSet]
  split
  · rfl
  · split
    · rfl
    · exact size_foldl_setParent ..

theorem size_combine (s : DisjointSets) (a b : Nat) : (s.combine a b).2.size = s.size := by
  simp only [combine, link]
  rw [← size_findSet s a, ← size_findSet (s.findSet a).2 b]
  repeat' split
  all_goals rfl

/-- Of two roots, the first stays one if its rank is larger. -/
theorem combine_roots {s : DisjointSets} {d e : Nat} (hd : s.parent d = none)
    (he : s.parent e = none) : (s.combine d e).1 = if s.rank e < s.rank d then d else e := by
  simp only [combine, findSet, hd, he, link, gt_iff_lt]
  split <;> rfl

end DisjointSets

namespace Bags

variable {h h' h'' : Bags} {T T' : Nat → Prop} {b c that : Nat} {s : CallStack}

/-- The addresses that may be handed out are of no live bag. -/
def Vacant (h : Bags) : Prop := ({ h with sets := empty.sets } : Bags).WF

theorem WF.vacant (hw : h.WF) : h.Vacant := ⟨WF.empty.sets, hw.free, hw.nodup, hw.disjoint, hw.live⟩

theorem Vacant.setBag {x y : SPBag} (hv : h.Vacant) (hb : h.bag b = some y) :
    (h.setBag b x).Vacant :=
  WF.setBag (h := { h with sets := empty.sets }) hv hb

theorem Vacant.deleteBag {x : SPBag} (hv : h.Vacant) (hb : h.bag b = some x) :
    (h.deleteBag b).Vacant := by
  have hk := (deleteBag_spec (h := { h with sets := empty.sets }) hv hb).2.2.wf
  simp only [Bags.deleteBag, hb] at hk ⊢
  exact hk

/-- The accesses recorded through bag `b` carry the call stack `s`. -/
def Carries (h : Bags) (b : Nat) (s : CallStack) : Prop :=
  ∃ x d, h.bag b = some x ∧ x.ds = some d ∧ d < h.sets.size ∧ (h.sets.node d).data = s

theorem Carries.live (hb : h.Carries b s) : h.Live b := by
  obtain ⟨x, d, hx, -⟩ := hb
  simp [Live, hx]

/-- From `h` to `h'`, only the bags of `T` may have come to carry another call
stack, or none. -/
structure Calm (h h' : Bags) (T : Nat → Prop) : Prop where
  vacant : h'.Vacant
  carries : ∀ {b s}, ¬ T b → h.Carries b s → h'.Carries b s
  size : h.sets.size ≤ h'.sets.size
  data : ∀ d < h.sets.size, (h'.sets.node d).data = (h.sets.node d).data

/-- A merge writes the bag's set, and no data of a node. -/
theorem combine_bag {x y : SPBag} (hc : h.combine b that = some h') (hx : h.bag b = some x)
    (hy : h.bag that = some y) :
    h'.bag = Function.update h.bag b (some { x with ds := (h.combineDs x y).1 }) ∧
    h'.sets.size = h.sets.size ∧
      ∀ d, (h'.sets.node d).data = (h.sets.node d).data := by
  have hsets : (h.combineDs x y).2.size = h.sets.size ∧
      ∀ d, ((h.combineDs x y).2.node d).data = (h.sets.node d).data := by
    simp only [combineDs]
    repeat' split
    all_goals first | exact ⟨rfl, fun _ => rfl⟩ | exact ⟨DisjointSets.size_combine ..,
      DisjointSets.data_combine _ _ _⟩
  simp only [Bags.combine, hx, hy, Option.bind_eq_bind, Option.bind_some] at hc
  cases hc
  refine ⟨rfl, ?_, fun d => ?_⟩
  · simp only [setBag]
    repeat' split
    all_goals exact hsets.1
  · simp only [setBag]
    repeat' split
    all_goals first | exact hsets.2 d |
      exact (DisjointSets.data_setParentOrBag ..).trans (hsets.2 d)

theorem combine_live (hc : h.combine b that = some h') :
    ∃ x y, h.bag b = some x ∧ h.bag that = some y := by
  simp only [Bags.combine, Option.bind_eq_bind, Option.bind_eq_some_iff] at hc
  obtain ⟨x, hx, y, hy, -⟩ := hc
  exact ⟨x, y, hx, hy⟩

namespace Calm

theorem refl (hv : h.Vacant) : Calm h h fun _ => False :=
  ⟨hv, fun _ hb => hb, Nat.le_refl _, fun _ _ => rfl⟩

theorem trans (h₁ : Calm h h' T) (h₂ : Calm h' h'' T') : Calm h h'' fun b => T b ∨ T' b where
  vacant := h₂.vacant
  carries hb hc := h₂.carries (fun hb' => hb (.inr hb')) (h₁.carries (fun hb' => hb (.inl hb')) hc)
  size := Nat.le_trans h₁.size h₂.size
  data d hd := (h₂.data d (Nat.lt_of_lt_of_le hd h₁.size)).trans (h₁.data d hd)

/-- Dead bags carry nothing. -/
theorem mono (h₁ : Calm h h' T) (ht : ∀ b, h.Live b → T b → T' b) : Calm h h' T' where
  vacant := h₁.vacant
  carries hb hc := h₁.carries (fun hb' => hb (ht _ hc.live hb')) hc
  size := h₁.size
  data := h₁.data

/-- Bag `b` alone is written, and no data of a node. -/
theorem of_bag {x : Option SPBag} (hv : h'.Vacant) (hs : h.sets.size ≤ h'.sets.size)
    (hd : ∀ d < h.sets.size, (h'.sets.node d).data = (h.sets.node d).data)
    (hb : h'.bag = Function.update h.bag b x) : Calm h h' (· = b) where
  vacant := hv
  carries hne hc := by
    obtain ⟨y, d, hy, hyd, hlt, hdata⟩ := hc
    exact ⟨y, d, by rw [hb, Function.update_of_ne hne]; exact hy, hyd, by omega,
      (hd d hlt).trans hdata⟩
  size := hs
  data := hd

theorem alloc (hv : h.Vacant) (t : BagType) :
    h.bag (h.alloc t).1 = none ∧ Calm h (h.alloc t).2 fun _ => False := by
  obtain ⟨hn, -, -, hk⟩ := alloc_spec hv t
  have heq : ∀ s, ({ h with sets := s } : Bags).alloc t =
      ((h.alloc t).1, { (h.alloc t).2 with sets := s }) := fun s => by
    simp only [Bags.alloc]
    split <;> rfl
  rw [heq] at hn hk
  have hupd : (h.alloc t).2.bag = Function.update h.bag (h.alloc t).1 (some { type := t }) := by
    simp only [Bags.alloc]
    split <;> rfl
  have hsets : (h.alloc t).2.sets = h.sets := by
    simp only [Bags.alloc]
    split <;> rfl
  refine ⟨hn, (of_bag (b := (h.alloc t).1) hk.wf (by rw [hsets]) (by simp [hsets]) hupd).mono
    fun b hb he => ?_⟩
  subst he
  exact hb hn

theorem createNewSBag (hv : h.Vacant) (cs : CallStack) :
    ¬ h.Live (h.createNewSBag cs).1 ∧ Calm h (h.createNewSBag cs).2 (fun _ => False) ∧
      (h.createNewSBag cs).2.Carries (h.createNewSBag cs).1 cs := by
  obtain ⟨hn, ha⟩ := alloc hv .sBag
  rcases hal : h.alloc .sBag with ⟨b, h₁⟩
  rw [hal] at hn ha
  simp only at hn ha
  simp only [Bags.createNewSBag, hal, DisjointSets.create]
  have hlive : ∃ y, h₁.bag b = some y := by
    have := live_alloc (h := h) (t := .sBag) (c := b)
    rw [hal] at this
    exact Option.ne_none_iff_exists'.1 (this.2 (.inl rfl))
  obtain ⟨y, hy⟩ := hlive
  have hset : ∀ sets : DisjointSets, h₁.sets.size ≤ sets.size →
      (∀ d < h₁.sets.size, (sets.node d).data = (h₁.sets.node d).data) →
        ∀ z, Calm h₁ (({ h₁ with sets } : Bags).setBag b z) (· = b) := fun sets hs hd z =>
    of_bag (x := some z) (Vacant.setBag (h := { h₁ with sets }) ha.vacant hy) hs hd rfl
  refine ⟨fun hl => hl hn, (ha.trans (hset _ (Nat.le_succ _) (fun d hd => ?_) _)).mono
    fun c hc he => ?_, ⟨_, _, by simp [setBag]; rfl, rfl, by simp [setBag], by simp [setBag]⟩⟩
  · simp [show d ≠ h₁.sets.size by omega]
  · rcases he with he | rfl
    · exact he
    · exact hc hn

theorem delete (hv : h.Vacant) (o : Option Nat) : Calm h (h.delete o) (o = some ·) := by
  cases o with
  | none => exact (refl hv).mono fun _ _ hf => hf.elim
  | some b =>
    simp only [Bags.delete]
    cases hb : h.bag b with
    | none => simp only [deleteBag, hb]; exact (refl hv).mono fun _ _ hf => hf.elim
    | some x =>
      have hk := hv.deleteBag hb
      simp only [deleteBag, hb] at hk ⊢
      refine (of_bag (h := h) (b := b) (x := none) hk (Nat.le_refl _) (fun _ _ => rfl) rfl).mono
        fun c _ hc => ?_
      rw [hc]

theorem deleteAll : ∀ {l : List (Option Nat)} {h : Bags}, h.Vacant →
    Calm h (l.foldl Bags.delete h) (some · ∈ l)
  | [], _, hv => (refl hv).mono fun _ _ hf => hf.elim
  | o :: l, h, hv => by
    refine ((delete hv o).trans (deleteAll (delete hv o).vacant)).mono fun b _ hb => ?_
    exact List.mem_cons.2 (hb.imp_left Eq.symm)

theorem combine (hv : h.Vacant) (hc : h.combine b that = some h') : Calm h h' (· = b) := by
  obtain ⟨x, y, hx, hy⟩ := combine_live hc
  obtain ⟨hbag, hsize, hdata⟩ := combine_bag hc hx hy
  simp only [Bags.combine, hx, hy, Option.bind_eq_bind, Option.bind_some] at hc
  cases hc
  exact of_bag (b := b) (Vacant.setBag (h := { h with sets := _ }) hv hx) hsize.ge
    (fun d _ => hdata d) hbag

theorem incVersion {ok : Bool} (hv : h.Vacant) (hi : h.incVersion b = some (ok, h')) :
    Calm h h' fun _ => False := by
  simp only [Bags.incVersion, Option.bind_eq_bind, Option.bind_eq_some_iff] at hi
  obtain ⟨x, hx, hi⟩ := hi
  cases hi
  refine ⟨hv.setBag hx, fun {c s} _ hc => ?_, Nat.le_refl _, fun _ _ => rfl⟩
  obtain ⟨y, d, hy, hyd, hlt, hdata⟩ := hc
  by_cases hcb : c = b
  · subst hcb
    rw [hx] at hy
    cases hy
    exact ⟨{ x with version := (x.version + 1) % versionEnd }, d, by simp [setBag], hyd, hlt, hdata⟩
  · exact ⟨y, d, by simp [setBag, hcb, hy], hyd, hlt, hdata⟩

theorem getSbagOrNull (hv : h.Vacant) (d : Nat) : Calm h (h.getSbagOrNull d).2 fun _ => False := by
  refine ⟨hv, fun _ hc => ?_, (DisjointSets.size_findSet ..).ge,
    fun x _ => DisjointSets.data_findSet ..⟩
  obtain ⟨y, e, hy, hye, hlt, hdata⟩ := hc
  exact ⟨y, e, hy, hye,
    by
      rw [show (h.getSbagOrNull d).2.sets.size = h.sets.size from DisjointSets.size_findSet ..]
      exact hlt,
    (DisjointSets.data_findSet ..).trans hdata⟩

end Calm

/-! ## The node a merge leaves -/

/-- Merging `that` into `b` leaves `b` with its own node, or with one that holds
the same call stack. -/
def KeepsStack (h : Bags) (b that : Option Nat) : Prop :=
  ∀ d ∈ (b.bind h.bag).bind (·.ds), ∀ e ∈ (that.bind h.bag).bind (·.ds),
    h.sets.rank e < h.sets.rank d ∨ (h.sets.node e).data = (h.sets.node d).data

instance decidableKeepsStack (h : Bags) (b that : Option Nat) : Decidable (h.KeepsStack b that) :=
  inferInstanceAs (Decidable (∀ d ∈ (b.bind h.bag).bind (·.ds), ∀ e ∈ (that.bind h.bag).bind (·.ds),
    h.sets.rank e < h.sets.rank d ∨ (h.sets.node e).data = (h.sets.node d).data))

/-- **A merge.** The bag still carries its call stack exactly if it keeps its
node or is handed an equal one. -/
theorem Carries.combine_iff (hb : h.Good b) (ht : h.Good that) (hcar : h.Carries b s)
    (hc : h.combine b that = some h') : h'.Carries b s ↔ h.KeepsStack (some b) (some that) := by
  obtain ⟨x, d, hx, hxd, hlt, rfl⟩ := hcar
  obtain ⟨x', hx', hroot⟩ := hb
  rw [hx] at hx'
  cases hx'
  obtain ⟨y, hy, hroot'⟩ := ht
  obtain ⟨hbag, hsize, hdata⟩ := combine_bag hc hx hy
  have hcar' : h'.Carries b (h.sets.node d).data ↔
      ∃ c, (h.combineDs x y).1 = some c ∧ c < h.sets.size ∧
      (h.sets.node c).data = (h.sets.node d).data := by
    constructor
    · intro hc
      obtain ⟨z, c, hz, hzc, hclt, hcd⟩ := hc
      rw [hbag, Function.update_self] at hz
      cases hz
      exact ⟨c, hzc, hsize ▸ hclt, (hdata c).symm.trans hcd⟩
    · intro hc
      obtain ⟨c, hzc, hclt, hcd⟩ := hc
      exact ⟨_, c, by rw [hbag, Function.update_self], hzc, hsize ▸ hclt, (hdata c).trans hcd⟩
  rw [hcar', KeepsStack]
  cases hye : y.ds with
  | none => simp [combineDs, hye, hxd, hlt, hx, hy]
  | some e =>
    have hed :=
      DisjointSets.combine_roots (s := h.sets) (parent_of_tag (hroot d hxd).2)
        (parent_of_tag (hroot' e hye).2)
    have helt := (hroot' e hye).1
    simp only [combineDs, hye, hxd, hed, hx, hy, Option.bind_some, Option.mem_def,
      Option.some.injEq, forall_eq', exists_eq_left']
    split
    · next hlt' => exact iff_of_true ⟨hlt, rfl⟩ (.inl hlt')
    · next hge => simp [helt, hge]

end Bags

/-! ## Frames -/

open Bags FrameData CilkSan

theorem Bags.Calm.lazyPbag {h h' : Bags} {f f' : FrameData} {r p : Nat} (hv : h.Vacant)
    (hl : f.lazyPbag r h = some (p, f', h')) :
    Calm h h' (fun _ => False) ∧ f' = f.withPbag r (some p) ∧
    (f.pbag r = some p ∨ h.bag p = none) := by
  have hr : r < (f.pbags.getD []).length := by
    by_contra hr
    cases hpb : f.pbags with
    | none => simp [FrameData.lazyPbag, hpb] at hl
    | some l =>
      rw [hpb, Option.getD_some, Nat.not_lt] at hr
      simp [FrameData.lazyPbag, hpb, List.getElem?_eq_none hr] at hl
  refine ⟨?_, (Settled.lazyPbag hr hl).2, ?_⟩
  · simp only [FrameData.lazyPbag, Option.bind_eq_bind, Option.bind_eq_some_iff] at hl
    obtain ⟨l, hpb, o, ho, hl⟩ := hl
    cases o with
    | some q =>
      cases hl
      exact refl hv
    | none =>
      have hn : f.pbag r = none := by simp [FrameData.pbag, hpb, ho]
      simp only [setPbag_eq hr, hn, Bags.delete, Option.bind_some, Option.pure_def,
        Option.some.injEq, Prod.mk.injEq] at hl
      obtain ⟨-, -, rfl⟩ := hl
      exact (alloc hv .pBag).2
  · simp only [FrameData.lazyPbag, Option.bind_eq_bind, Option.bind_eq_some_iff] at hl
    obtain ⟨l, hpb, o, ho, hl⟩ := hl
    cases o with
    | some q =>
      cases hl
      exact .inl (by simp [FrameData.pbag, hpb, ho])
    | none =>
      simp only [setPbag_eq hr, Option.bind_some, Option.pure_def, Option.some.injEq,
        Prod.mk.injEq] at hl
      obtain ⟨rfl, -, -⟩ := hl
      exact .inr (alloc hv .pBag).1

theorem Bags.Calm.combineUsed {used : Bool} {h h' : Bags} {b : Nat} {o : Option Nat} (hv : h.Vacant)
    (hc : combineUsed used h (some b) o = some h') : Calm h h' (· = b) := by
  cases used with
  | false =>
    cases hc
    exact (refl hv).mono fun _ _ hf => hf.elim
  | true =>
    simp only [CilkSan.combineUsed, if_true, Option.bind_eq_bind, Option.bind_some,
      Option.bind_eq_some_iff] at hc
    obtain ⟨_, -, hc⟩ := hc
    exact combine hv hc

/-- Each turn of a loop merges something into the same bag, or nothing. -/
theorem Bags.Calm.foldlM {b : Nat} {g : Bags → Option Nat → Option Bags}
    (hg : ∀ {h h'} o, h.Vacant → g h o = some h' → Calm h h' (· = b)) :
    ∀ {l : List (Option Nat)} {h h' : Bags}, h.Vacant → l.foldlM g h = some h' → Calm h h' (· = b)
  | [], h, h', hv, hc => by
    cases hc
    exact (refl hv).mono fun _ _ hf => hf.elim
  | o :: l, h, h', hv, hc => by
    simp only [List.foldlM_cons, Option.bind_eq_bind, Option.bind_eq_some_iff] at hc
    obtain ⟨h₁, h₁c, hc⟩ := hc
    have h₁' := hg o hv h₁c
    exact (h₁'.trans (foldlM hg h₁'.vacant hc)).mono fun _ _ hb => hb.elim id id

theorem Bags.Calm.combineAll {b : Nat} {l : List (Option Nat)} {h h' : Bags} (hv : h.Vacant)
    (hc : combineAll h b l = some h') : Calm h h' (· = b) := by
  refine foldlM (fun {h h'} o hv hc => ?_) hv hc
  cases o with
  | none =>
    cases hc
    exact (refl hv).mono fun _ _ hf => hf.elim
  | some p => exact combine hv hc

/-- The P-bags of a called function go to one bag. -/
theorem Bags.Calm.combineEach {b : Nat} {l : List (Option Nat)} {h h' : Bags} (hv : h.Vacant)
    (hc : l.foldlM (fun h p => do h.combine b (← p)) h = some h') : Calm h h' (· = b) := by
  refine foldlM (fun {h h'} o hv hc => ?_) hv hc
  simp only [Option.bind_eq_bind, Option.bind_eq_some_iff] at hc
  obtain ⟨p, -, hc⟩ := hc
  exact combine hv hc

theorem Bags.Calm.mergeDetached {h h' : Bags} {child parent f' : FrameData} {r : Nat}
    (hv : h.Vacant) (hm : mergeDetached child parent r h = some (f', h')) :
    Calm h h' (parent.pbag r = some ·) ∧ ∃ p, f' = parent.withPbag r (some p) := by
  simp only [CilkSan.mergeDetached, Option.bind_eq_bind, Option.bind_eq_some_iff] at hm
  obtain ⟨⟨p, f, h₁⟩, hl, h₂, hu, h₃, ha, hm⟩ := hm
  cases hm
  obtain ⟨hc₁, hf, hp⟩ := lazyPbag hv hl
  have hc₂ := combineUsed hc₁.vacant hu
  refine ⟨((hc₁.trans hc₂).trans (combineAll hc₂.vacant ha)).mono fun b hb ht => ?_, p, hf⟩
  rcases ht with (ht | rfl) | rfl
  · exact ht.elim
  all_goals exact hp.resolve_right hb

theorem Bags.Calm.deleteChild {h : Bags} (child : FrameData) (hv : h.Vacant) :
    Calm h (child.clearPbagArray (child.setSbag none h).2).2 child.Has := by
  have h₁ := delete hv child.sbag
  refine (h₁.trans (deleteAll (l := child.pbags.getD []) h₁.vacant)).mono fun b _ ht => ?_
  exact ht.imp id fun hb => .inl (mem_pbags.1 hb)

/-- What is left of the child when its frame is popped is its Iter-bag. -/
theorem Bags.Calm.exitChild {h : Bags} {child : FrameData} (hv : h.Vacant) :
    Calm h ((((child.setSbag none h).1.clearPbagArray (child.setSbag none h).2).1).reset
      ((child.setSbag none h).1.clearPbagArray (child.setSbag none h).2).2).2 child.Has := by
  have h₁ := deleteChild child hv
  have h₂ : Calm h _ child.Has := (h₁.trans (delete h₁.vacant child.iterbag)).mono fun b _ ht =>
    ht.elim id fun hb => .inr (.inr hb)
  have hnone : ∀ h : Bags, h.delete none = h := fun _ => rfl
  simpa only [reset, setSbag, clearPbagArray, setIterbag, hnone, Option.getD_none,
    List.foldl_nil] using h₂

/-- What accesses the frame records carries the call stack `s`: a loop frame's
go to its Iter-bag, and its S-bag is a source of new Iter-bags while unused. -/
structure FrameData.OwnStack (f : FrameData) (h : Bags) (s : CallStack) : Prop where
  sbag : f.isLoopFrame = false ∨ f.sbagUsed = false → ∃ b, f.sbag = some b ∧ h.Carries b s
  iterbag : f.isLoopFrame = true → ∃ b, f.iterbag = some b ∧ h.Carries b s

/-- The frame keeps its S-bag and its Iter-bag, and these what they carry. -/
theorem FrameData.OwnStack.calm {f f' : FrameData} {h h' : Bags} {s : CallStack} {T : Nat → Prop}
    (ho : f.OwnStack h s)
    (hc : Calm h h' T) (hs : f'.sbag = f.sbag) (hi : f'.iterbag = f.iterbag)
    (hd : f'.frameData = f.frameData)
    (hu : f'.sbagUsed = false → f.sbagUsed = false)
    (ht : ∀ b, f.sbag = some b ∨ f.iterbag = some b → ¬ T b) : f'.OwnStack h' s where
  sbag hl := by
    obtain ⟨b, hb, hcar⟩ :=
      ho.sbag (hl.imp (fun hl => by rw [FrameData.isLoopFrame, ← hd]; exact hl) hu)
    exact ⟨b, hs.trans hb, hc.carries (ht b (.inl hb)) hcar⟩
  iterbag hl := by
    obtain ⟨b, hb, hcar⟩ := ho.iterbag (by rw [FrameData.isLoopFrame, ← hd]; exact hl)
    exact ⟨b, hi.trans hb, hc.carries (ht b (.inr hb)) hcar⟩

namespace CilkSan

variable {c c' : CilkSan} {f child parent : FrameData} {fs : List FrameData} {r n : Nat}

theorem startNewFunction_carries (hv : c.bags.Vacant) (hf : c.frames = f :: fs)
    (hc : c.startNewFunction n = some c') :
    ∃ g h' b, c' = { c with bags := h', frames := g :: f :: fs } ∧ Calm c.bags h' (fun _ => False) ∧
      g.sbag = some b ∧ h'.Carries b c.callStack ∧ g.iterbag = none := by
  obtain ⟨-, hcalm, hcar⟩ := Calm.createNewSBag hv c.callStack
  simp only [startNewFunction, hf] at hc
  split at hc
  all_goals
    cases hc
    exact ⟨_, _, _, rfl, hcalm, rfl, hcar, rfl⟩

/-- A frame pushed, whatever its type. -/
theorem enter_carries (ty : EntryFrameType) (hv : c.bags.Vacant) (hf : c.frames = f :: fs)
    (hc : (do
      let c ← c.startNewFunction n
      let f ← c.frames.head?
      return c.setHead { f with frameData := ty }) = some c') :
    ∃ g h' b, c' = { c with bags := h', frames := g :: f :: fs } ∧ Calm c.bags h' (fun _ => False) ∧
      g.sbag = some b ∧ h'.Carries b c.callStack ∧ g.iterbag = none ∧ g.frameData = ty := by
  simp only [Option.bind_eq_bind, Option.bind_eq_some_iff] at hc
  obtain ⟨c₁, hc₁, f₁, hf₁, hc⟩ := hc
  obtain ⟨g, h', b, rfl, hcalm, hb, hcar, hi⟩ := startNewFunction_carries hv hf hc₁
  cases hf₁
  cases hc
  exact ⟨_, h', b, rfl, hcalm, hb, hcar, hi, rfl⟩

theorem returnFromDetach_calm (hv : c.bags.Vacant) (hf : c.frames = child :: parent :: fs)
    (hc : c.returnFromDetach r = some c') :
    ∃ p h', c' = { c with bags := h', frames := parent.withPbag r (some p) :: fs } ∧
      Calm c.bags h' fun b => child.Has b ∨ parent.pbag r = some b := by
  simp only [returnFromDetach, mergeBagFromReturningChild, hf, if_true, Option.bind_eq_bind,
    Option.bind_eq_some_iff] at hc
  obtain ⟨c₁, ⟨⟨f', h₁⟩, hm, hc₁⟩, hc⟩ := hc
  obtain ⟨h₁c, p, rfl⟩ := Calm.mergeDetached hv hm
  cases hc₁
  simp only [exitFunction] at hc
  cases hc
  exact ⟨p, _, rfl, (h₁c.trans (Calm.exitChild h₁c.vacant)).mono fun b _ ht => ht.symm⟩

/-- The S-bags are merged first. -/
theorem leaveCilkFunction_calm {s : Nat} (hv : c.bags.Vacant)
    (hf : c.frames = child :: parent :: fs)
    (hs : parent.sbag = some s) (hc : c.leaveCilkFunction r = some c') :
    ∃ g h₁ h', c' = { c with bags := h', frames := g :: fs } ∧ g.sbag = some s ∧
    g.iterbag = parent.iterbag ∧
      g.frameData = parent.frameData ∧ g.sbagUsed = (parent.sbagUsed || child.sbagUsed) ∧
      combineUsed child.sbagUsed c.bags (some s) child.sbag = some h₁ ∧
      Calm h₁ h' fun b => child.Has b ∨ parent.pbag r = some b := by
  simp only [leaveCilkFunction, mergeBagFromReturningChild, hf, Bool.false_eq_true, if_false,
    Option.bind_eq_bind, Option.bind_eq_some_iff] at hc
  obtain ⟨c₁, ⟨⟨g, h₂⟩, hm, hc₁⟩, hc⟩ := hc
  cases hc₁
  simp only [exitFunction] at hc
  cases hc
  simp only [mergeCalled, hs, Option.bind_eq_bind, Option.bind_eq_some_iff] at hm
  obtain ⟨h₁, hu, hm⟩ := hm
  have hv₁ := (Calm.combineUsed hv hu).vacant
  split at hm
  · simp only [Option.bind_eq_some_iff] at hm
    obtain ⟨⟨p, g', h₃⟩, hl, h₄, ha, hm⟩ := hm
    cases hm
    obtain ⟨hc₁, rfl, hp⟩ := Calm.lazyPbag hv₁ hl
    have hc₂ := Calm.combineEach hc₁.vacant ha
    have hp₂ : Calm h₁ h₂ (parent.pbag r = some ·) := (hc₁.trans hc₂).mono fun b hb ht => by
      rcases ht with ht | rfl
      · exact ht.elim
      · exact hp.resolve_right hb
    exact ⟨_, h₁, _, rfl, rfl, rfl, rfl, rfl, hu,
      (hp₂.trans (Calm.exitChild hp₂.vacant)).mono fun b _ ht => ht.symm⟩
  · cases hm
    exact ⟨_, _, _, rfl, rfl, rfl, rfl, rfl, hu, (Calm.exitChild hv₁).mono fun b _ ht => .inl ht⟩

/-- The P-bag is merged into the S-bag, and deleted. -/
theorem doSync_calm {s : Nat} (hv : c.bags.Vacant) (hf : c.frames = f :: fs) (hs : f.sbag = some s)
    (hc : c.doSync r = some c') :
    ∃ g h₁ h', c' = { c with bags := h', frames := g :: fs } ∧ g.sbag = some s ∧
    g.iterbag = f.iterbag ∧
      g.frameData = f.frameData ∧ (g.sbagUsed = false → f.sbagUsed = false ∧ f.pbag r = none) ∧
      combineUsed (f.pbag r).isSome c.bags (some s) (f.pbag r) = some h₁ ∧
      Calm h₁ h' (f.pbag r = some ·) := by
  have htail : c.frames.tail = fs := by rw [hf, List.tail_cons]
  simp only [doSync, completeSync, hf, List.head?_cons, Option.bind_eq_bind, Option.bind_some,
    Option.bind_eq_some_iff] at hc
  obtain ⟨c₁, ⟨l, hl, o, ho, hc₁⟩, g, hg, hc⟩ := hc
  have hr : r < (f.pbags.getD []).length := by
    rw [hl]
    exact (List.getElem?_eq_some_iff.1 ho).1
  have hpb : f.pbag r = o := by simp [FrameData.pbag, hl, ho]
  rw [hpb]
  cases o with
  | none =>
    cases hc₁
    rw [hf] at hg
    cases hg
    cases hc
    refine ⟨f.exitContinuation r, c.bags, c.bags, by rw [← htail]; rfl, hs, rfl, rfl,
      fun hu => ⟨hu, rfl⟩, rfl, ?_⟩
    exact (Calm.refl hv).mono fun _ _ hf => hf.elim
  | some p =>
    simp only [hs, Option.bind_some, Option.bind_eq_some_iff] at hc₁
    obtain ⟨h₁, hcomb, ⟨g', h₂⟩, hset, hc₁⟩ := hc₁
    rw [setPbag_eq (f := { f with sbagUsed := true, sbag := some s }) hr] at hset
    cases hset
    cases hc₁
    cases hg
    cases hc
    have hdel := Calm.delete (Calm.combine hv hcomb).vacant (f.pbag r)
    rw [hpb] at hdel
    refine ⟨({ f with sbagUsed := true, sbag := some s } : FrameData).withPbag r
      none |>.exitContinuation r, h₁, _,
      by rw [← htail]; rfl, rfl, rfl, rfl, fun hu => (by cases hu), hcomb, ?_⟩
    rw [← hpb] at hdel ⊢
    exact hdel

/-- A new Iter-bag carries what the S-bag does. -/
theorem createIterbag_carries {h h' : Bags} {f' : FrameData} {b : Nat} {s : CallStack}
    (hv : h.Vacant)
    (hb : f.sbag = some b) (hcar : h.Carries b s) (hi : ∀ i, f.iterbag = some i → h.Live i)
    (hc : f.createIterbag h = some (f', h')) :
    ∃ i, f' = { f with iterbag := some i, iterbagUsed := false } ∧ h'.Carries i s ∧
      Calm h h' (f.iterbag = some ·) := by
  obtain ⟨x, d, hx, hxd, -, rfl⟩ := hcar
  simp only [createIterbag, hb, hx, hxd, Option.bind_eq_bind, Option.bind_some] at hc
  cases hc
  obtain ⟨hdead, h₁, hnew⟩ := Calm.createNewSBag hv (h.sets.node d).data
  have h₂ := Calm.delete h₁.vacant f.iterbag
  exact ⟨_, rfl, h₂.carries (fun he => hdead (hi _ he)) hnew,
    (h₁.trans h₂).mono fun _ _ ht => ht.resolve_left id⟩

/-- A used S-bag is replaced by one that carries the current call stack. -/
theorem retireSbag_carries {h h' : Bags} {f' : FrameData} {p b : Nat} {s : CallStack}
    (hv : h.Vacant) (hb : f.sbag = some b) (hcar : f.sbagUsed = false → h.Carries b s) (hp : p ≠ b)
    (hc : retireSbag f p s h = some (f', h')) :
    ∃ b', f' = { f with sbag := some b', sbagUsed := false } ∧ h'.Carries b' s ∧ p ≠ b' ∧
    (b' = b ∨ ¬ h.Live b') ∧
      Calm h h' fun b' => b' = p ∨ b' = b := by
  simp only [retireSbag] at hc
  split at hc
  · simp only [hb, Option.bind_eq_bind, Option.bind_some, Option.bind_eq_some_iff] at hc
    obtain ⟨h₁, hcomb, hc⟩ := hc
    cases hc
    have h₁c := Calm.combine hv hcomb
    obtain ⟨x, y, hx, hy⟩ := combine_live hcomb
    have hlive : ∀ {z}, h.Live z → h₁.Live z := (live_combine hcomb).2
    obtain ⟨hdead, h₂, hnew⟩ := Calm.createNewSBag h₁c.vacant s
    have h₃ := Calm.delete h₂.vacant f.sbag
    refine ⟨_, rfl, h₃.carries (fun he => hdead ?_) hnew, fun he => hdead ?_,
      .inr fun hl => hdead (hlive hl), ((h₁c.trans h₂).trans h₃).mono fun z _ ht => ?_⟩
    · rw [hb] at he
      rw [← Option.some.inj he]
      exact hlive (by simp [Live, hy])
    · rw [← he]
      exact hlive (by simp [Live, hx])
    · rcases ht with (ht | ht) | ht
      · exact .inl ht
      · exact ht.elim
      · exact .inr (Option.some.inj (hb.symm.trans ht)).symm
  · next hu =>
    cases hc
    refine ⟨b, ?_, hcar (by simpa using hu), hp, .inl rfl,
      (Calm.refl hv).mono fun _ _ hf => hf.elim⟩
    cases f
    simp_all

/-- An Iter-bag that can tell no more iterations apart is replaced by one that
carries what the S-bag does. -/
theorem retireIterbag_carries {h h' : Bags} {f' : FrameData} {p b i : Nat} {ok : Bool}
    {s : CallStack} (hv : h.Vacant)
    (hb : f.sbag = some b) (hcar : h.Carries b s) (hi : f.iterbag = some i)
    (hcar' : h.Carries i s) (hpb : p ≠ b)
    (hbi : b ≠ i) (hc : retireIterbag f p ok h = some (f', h')) :
    f'.sbag = some b ∧ f'.frameData = f.frameData ∧ f'.sbagUsed = f.sbagUsed ∧ h'.Carries b s ∧
      (∃ i', f'.iterbag = some i' ∧ h'.Carries i' s) ∧ Calm h h' fun z => z = p ∨ z = i := by
  simp only [retireIterbag] at hc
  split at hc
  · simp only [hi, Option.bind_eq_bind, Option.bind_some, Option.bind_eq_some_iff] at hc
    obtain ⟨h₁, hcomb, hc⟩ := hc
    have h₁c := Calm.combine hv hcomb
    have hlive : h₁.Live i := (live_combine hcomb).2 hcar'.live
    obtain ⟨i', rfl, hnew, h₂⟩ :=
      createIterbag_carries h₁c.vacant hb (h₁c.carries (Ne.symm hpb) hcar)
        (fun j hj => by rw [hi] at hj; cases hj; exact hlive) hc
    refine ⟨hb, rfl, rfl, h₂.carries (fun he => ?_) (h₁c.carries (Ne.symm hpb) hcar),
      ⟨i', rfl, hnew⟩, (h₁c.trans h₂).mono fun z _ ht => ht.imp id fun he => ?_⟩
    · rw [hi] at he
      exact hbi (Option.some.inj he).symm
    · rw [hi] at he
      exact (Option.some.inj he).symm
  · cases hc
    exact ⟨hb, rfl, rfl, hcar, ⟨i, hi, hcar'⟩, (Calm.refl hv).mono fun _ _ hf => hf.elim⟩

/-- **The end of an iteration.** The frame goes on to record accesses with its
own call stack if that is the current one. -/
theorem doLoopIterationEnd_carries {i b : Nat} (hv : c.bags.Vacant) (hf : c.frames = f :: fs)
    (hl : f.isLoopFrame = true)
    (hb : f.sbag = some b) (hi : f.iterbag = some i) (hbi : b ≠ i) (hlive : c.bags.Live b)
    (hpb : f.pbag 0 ≠ some b) (hpi : f.pbag 0 ≠ some i) (ho : f.OwnStack c.bags c.callStack)
    (hc : c.doLoopIterationEnd = some c') :
    ∃ g h', c' = { c with bags := h', frames := g :: fs } ∧ g.OwnStack h' c.callStack ∧
    Calm c.bags h' f.Has := by
  have htail : c.frames.tail = fs := by rw [hf, List.tail_cons]
  simp only [doLoopIterationEnd, hf, List.head?_cons, Option.bind_eq_bind, Option.bind_some,
    Option.bind_eq_some_iff] at hc
  obtain ⟨⟨p, f₁, h₁⟩, hlz, ⟨f₂, h₂⟩, hrs, ⟨ok, h₃⟩, hver, ⟨f₃, h₄⟩, hri, hc⟩ := hc
  cases hc
  have hcari : c.bags.Carries i c.callStack := by
    obtain ⟨j, hj, hcar⟩ := ho.iterbag hl
    rw [hi] at hj
    cases hj
    exact hcar
  -- The P-bag is neither of the other two.
  obtain ⟨h₁c, rfl, hp⟩ := Calm.lazyPbag hv hlz
  replace hp : f.pbag 0 = some p ∨ c.bags.bag p = none := hp
  have hpb' : p ≠ b := by
    rintro rfl
    exact hp.elim hpb hlive
  have hpi' : p ≠ i := by
    rintro rfl
    exact hp.elim hpi hcari.live
  obtain ⟨b', rfl, hcar₂, hpb₂, hb₂, h₂c⟩ :=
    retireSbag_carries h₁c.vacant (f := f.exitLoopContinuation.withPbag 0 (some p))
      (b := b) (s := c.callStack) hb (fun hu => h₁c.carries id (by
        obtain ⟨b₀, hb₀, hcar⟩ := ho.sbag (.inr hu)
        rw [hb] at hb₀
        cases hb₀
        exact hcar)) hpb' hrs
  have hcari₁ := h₁c.carries id hcari
  have hcari₂ := h₂c.carries (fun ht => ht.elim (Ne.symm hpi') (Ne.symm hbi)) hcari₁
  have hbi₂ : b' ≠ i := by
    rintro rfl
    exact hb₂.elim (Ne.symm hbi) fun hn => hn hcari₁.live
  simp only [FrameData.incVersion, Option.bind_eq_bind, Option.bind_eq_some_iff] at hver
  obtain ⟨j, hj, hver⟩ := hver
  have h₃c := Calm.incVersion h₂c.vacant hver
  obtain ⟨hsb, -, -, hcar₄, ⟨i', hi', hcari₄⟩, h₄c⟩ := retireIterbag_carries
    (f := { f.exitLoopContinuation.withPbag 0 (some p) with sbag := some b', sbagUsed := false })
    h₃c.vacant rfl (h₃c.carries id hcar₂) hi (h₃c.carries id hcari₂) hpb₂ hbi₂ hri
  refine ⟨f₃, h₄, by rw [← htail]; rfl, ⟨fun _ => ⟨b', hsb, hcar₄⟩, fun _ => ⟨i', hi', hcari₄⟩⟩,
    (((h₁c.trans h₂c).trans h₃c).trans h₄c).mono fun z hz ht => ?_⟩
  have hpz : z = p → f.Has z :=
    fun he => .inr (.inl ⟨0, by rw [he] at hz ⊢; exact hp.resolve_right hz⟩)
  rcases ht with ((ht | ht | ht) | ht) | ht | ht
  · exact ht.elim
  · exact hpz ht
  · exact .inl (by rw [ht, hb])
  · exact ht.elim
  · exact hpz ht
  · exact .inr (.inr (by rw [ht, hi]))

theorem doLoopEnd_calm (hv : c.bags.Vacant) (hf : c.frames = child :: parent :: fs)
    (hr : 0 < (child.pbags.getD []).length) (hd : child.frameData.isDetacher = true)
    (hc : c.doLoopEnd r = some c') :
    ∃ p h', c' = { c with bags := h', frames := parent.withPbag r (some p) :: fs } ∧
      Calm c.bags h' fun b => child.Has b ∨ parent.pbag r = some b := by
  simp only [doLoopEnd, hf, List.head?_cons, Option.bind_eq_bind, Option.bind_some,
    Option.bind_eq_some_iff] at hc
  obtain ⟨⟨p, f₁, h₁⟩, hlz, h₂, hu, hc⟩ := hc
  obtain ⟨h₁c, rfl, hp⟩ := Calm.lazyPbag hv hlz
  have h₂c := Calm.combineUsed h₁c.vacant hu
  have h₃c := Calm.delete h₂c.vacant (child.withPbag 0 (some p)).iterbag
  simp only [setIterbag, setHead, doLeave, List.tail_cons, List.head?_cons, Option.bind_eq_bind,
    Option.bind_some,
    show (child.withPbag 0 (some p)).frameData.isDetacher = true from hd, if_true] at hc
  obtain ⟨q, h', rfl, h₄c⟩ := returnFromDetach_calm h₃c.vacant rfl hc
  refine ⟨q, h', rfl, (((h₁c.trans h₂c).trans h₃c).trans h₄c).mono fun z hz ht => ?_⟩
  have hpz : z = p → child.Has z :=
    fun he => .inr (.inl ⟨0, by rw [he] at hz ⊢; exact hp.resolve_right hz⟩)
  rcases ht with ((ht | ht) | ht) | ht | ht
  · exact ht.elim
  · exact .inl (hpz ht)
  · exact .inl (.inr (.inr ht))
  · rcases ht with ht | ⟨q', ht⟩ | ht
    · exact .inl (.inl ht)
    · exact .inl ((has_withPbag hr (.inr (.inl ⟨q', ht⟩))).elim hpz id)
    · cases ht
  · exact .inr ht

end CilkSan

end Cilksan
