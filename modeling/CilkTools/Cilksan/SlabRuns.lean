/-
Runs of the two slab allocators: what holds after any calls, in any order, that
return only slots in use.
-/
import CilkTools.Cilksan.SlabAllocators

namespace Cilksan

open LinkedLists

/-! ## Calls -/

inductive SlabCall
  | allocate (size : Nat) (page : PagePtr 16)
  | deallocate (ptr : BitVec 64)
  | getDJSet (page : PagePtr 12)
  | freeDJSet (ptr : BitVec 64)
  deriving DecidableEq

/-- The allocators, and the slots that were given out and not returned since. -/
structure SlabRun where
  lines : MALineAllocator
  sets : DSAllocator
  linesInUse : Finset (BitVec 64)
  setsInUse : Finset (BitVec 64)

namespace SlabRun

def init (mem : PageMem SlabHead 16) (pages : LineSize → PagePtr 16)
    (dsMem : PageMem (PagePtr 12) 12) (dsPage : PagePtr 12) : SlabRun :=
  ⟨.init mem pages, .init dsMem dsPage, ∅, ∅⟩

def step (s : SlabRun) : SlabCall → SlabRun
  | .allocate size page =>
    let r := s.lines.allocate size page
    { s with lines := r.2, linesInUse := r.1.elim s.linesInUse fun q => insert q s.linesInUse }
  | .deallocate ptr =>
    { s with lines := (s.lines.deallocate ptr).2, linesInUse := s.linesInUse.erase ptr }
  | .getDJSet page =>
    let r := s.sets.getDJSet page
    { s with sets := r.2, setsInUse := r.1.elim s.setsInUse fun q => insert q s.setsInUse }
  | .freeDJSet ptr => { s with sets := s.sets.freeDJSet ptr, setsInUse := s.setsInUse.erase ptr }

/-- `my_aligned_alloc` returns no page that it has returned before, since none is
given back; and only slots in use are freed. -/
def Allowed (s : SlabRun) : SlabCall → Prop
  | .allocate _ page => page ≠ .null ∧ ∀ c, page ∉ s.lines.slabs c
  | .deallocate ptr => ptr ∈ s.linesInUse
  | .getDJSet page => page ≠ .null ∧ page ∉ s.sets.slabs
  | .freeDJSet ptr => ptr ∈ s.setsInUse

/-- What calls lead to, in any order. -/
inductive Reachable : SlabRun → Prop
  | init (mem : PageMem SlabHead 16) (pages : LineSize → PagePtr 16)
    (dsMem : PageMem (PagePtr 12) 12) (dsPage : PagePtr 12) :
    Function.Injective pages → (∀ c, pages c ≠ .null) → dsPage ≠ .null →
    Reachable (init mem pages dsMem dsPage)
  | step (s : SlabRun) (call : SlabCall) : Reachable s → s.Allowed call → Reachable (s.step call)

end SlabRun

namespace SlabLists

variable {W : Type} {n : Nat} [HeadWord W n]

/-- Two lists, linked both ways, that each slab is on exactly one of: that of
the slabs with no slot free, and the other, whose head there always is and has
a slot free. -/
structure WellPlaced (L : SlabLayout n) (s : SlabLists W n) (inUse : Finset (BitVec 64))
    (free full : List (PagePtr n)) : Prop where
  onFree : Linked s.mem.next s.mem.back .null s.list free
  onFull : Linked s.mem.next s.mem.back .null s.full full
  slabs : (free ++ full).Perm s.slabs
  apart : ∀ a ∈ free, a ∉ full
  full_iff : ∀ a ∈ s.slabs, a ∈ full ↔ ∀ i < L.numSlots, L.slot a i ∈ inUse
  list_ne : s.list ≠ .null
  list_mem : s.list ∈ free
  list_free : ∃ i < L.numSlots, L.slot s.list i ∉ inUse

/-- The call gives out a slot that is not in use, and it is inside of a slab. -/
def GivesOut (L : SlabLayout n) (inUse : Finset (BitVec 64))
    (r : Option (BitVec 64) × SlabLists W n) : Prop :=
  ∃ q, r.1 = some q ∧ q ∉ inUse ∧ ∃ a ∈ r.2.slabs, (∃ i < L.numSlots, q = L.slot a i) ∧
    a.val.toNat + L.offset ≤ q.toNat ∧ q.toNat + L.slotSize ≤ a.val.toNat + 2 ^ n

/-- The slots in use are those that the run has given out. -/
structure Accounted (L : SlabLayout n) (h : W) (s : SlabLists W n)
    (inUse : Finset (BitVec 64)) : Prop where
  placed : ∃ free full, Placed L h s free full
  inUse : ∀ a ∈ s.slabs, ∀ i < L.numSlots, L.slot a i ∈ inUse ↔ s.InUse L (L.slot a i)

namespace Accounted

variable {L : SlabLayout n} {h : W} {s : SlabLists W n} {inUse : Finset (BitVec 64)}

theorem wellPlaced (hs : Accounted L h s inUse) : ∃ free full, WellPlaced L s inUse free full := by
  obtain ⟨free, full, hp⟩ := hs.placed
  have hmem := hp.mem_free hp.list_mem
  refine ⟨free, full, hp.lists.onFree, hp.lists.onFull, hp.slabs, hp.lists.apart, fun a ha => ?_,
    hp.ne_null hmem, hp.list_mem, ?_⟩
  · rw [hp.mem_full_iff ha]
    exact forall₂_congr fun i hi => (hs.inUse a ha i hi).symm
  · obtain ⟨i, hi, hfree⟩ := hp.list_free
    exact ⟨i, hi, fun hin => hfree ((hs.inUse _ hmem i hi).1 hin)⟩

theorem givesOut (hs : Accounted L h s inUse) (hh : HeadWord.getNext h = .null) {page : PagePtr n}
    (hpage : page ∉ s.slabs) (hne : page ≠ .null) : GivesOut L inUse (s.getLine L h page) := by
  obtain ⟨free, full, hp⟩ := hs.placed
  obtain ⟨k, hk, hget, hfree, ht, -⟩ := getLine_spec hp hh hpage hne
  have hmem := hp.mem_free hp.list_mem
  have hbound := SlabLayout.slot_bound hk
  refine ⟨_, hget, fun hin => hfree ((hs.inUse _ hmem k hk).1 hin), s.list, ht.mem_slabs hmem,
    ⟨k, hk, rfl⟩, ?_, ?_⟩
  · rw [L.toNat_slot hk]
    omega
  · rw [L.toNat_slot hk]
    omega

end Accounted

end SlabLists

/-! ## Lines of accesses -/

namespace MALineAllocator

variable {s : MALineAllocator} {c d : LineSize} {l : SlabLists SlabHead 16}
  {inUse inUse' : Finset (BitVec 64)}

@[simp] theorem lists_setLists_self : (s.setLists c l).lists c = l := by
  simp [lists, setLists]

theorem lists_setLists_of_ne (hne : d ≠ c) :
    (s.setLists c l).lists d = { s.lists d with mem := l.mem } := by
  simp [lists, setLists, Function.update_of_ne hne]

/-- The slabs of each size are placed as they should be, no page is a slab of
two sizes, and the slots in use are marked. -/
structure Inv (s : MALineAllocator) (inUse : Finset (BitVec 64)) : Prop where
  placed : ∀ c, ∃ free full, SlabLists.Placed c.layout c.head (s.lists c) free full
  apart : ∀ c d a, a ∈ s.slabs c → a ∈ s.slabs d → c = d
  inUse : ∀ q, q ∈ inUse ↔ ∃ c, (s.lists c).InUse c.layout q

namespace Inv

/-- A slot is marked in one size only. -/
theorem eq_of_inUse (hi : Inv s inUse) {a : PagePtr 16} {k : Nat} (ha : a ∈ s.slabs c)
    (hk : k < c.layout.numSlots) (hq : (s.lists d).InUse d.layout (c.layout.slot a k)) : d = c := by
  obtain ⟨b, hb, i, hid, -, heq⟩ := hq
  have hab : b = a := by rw [← d.layout.page_slot (a := b) hid, heq, c.layout.page_slot hk]
  exact hi.apart d c a (hab ▸ hb) ha

theorem accounted (hi : Inv s inUse) (c : LineSize) :
    (s.lists c).Accounted c.layout c.head inUse where
  placed := hi.placed c
  inUse a ha i hk := by
    rw [hi.inUse]
    constructor
    · intro hq
      obtain ⟨d, hd⟩ := hq
      obtain rfl := hi.eq_of_inUse ha hk hd
      exact hd
    · intro hq
      exact ⟨c, hq⟩

/-- The slabs of one size are changed, and perhaps there is a new one. -/
theorem set (hi : Inv s inUse) (hp : ∃ free full, SlabLists.Placed c.layout c.head l free full)
    (hslabs : ∀ a ∈ l.slabs, a ∈ s.slabs c ∨ ∀ d, a ∉ s.slabs d) (hframe : ∀ a, a ∉ l.slabs →
      l.mem a = s.mem a)
    (hin : ∀ q, q ∈ inUse' ↔ l.InUse c.layout q ∨ ∃ d, d ≠ c ∧ (s.lists d).InUse d.layout q) :
    Inv (s.setLists c l) inUse' := by
  have hsame : ∀ d, d ≠ c → ∀ a ∈ s.slabs d, l.mem a = s.mem a := fun d hd a ha => by
    refine hframe a fun hmem => ?_
    rcases hslabs a hmem with hc | hnew
    · exact hd (hi.apart d c a ha hc)
    · exact hnew d ha
  have hset : ∀ d a, a ∈ (s.setLists c l).slabs d ↔
      if d = c then a ∈ l.slabs else a ∈ s.slabs d := fun d a => by
    show a ∈ Function.update s.slabs c l.slabs d ↔ _
    rw [Function.update_apply]
    split <;> rfl
  refine ⟨fun d => ?_, fun d e a hd he => ?_, fun q => ?_⟩
  · by_cases hd : d = c
    · rw [hd, lists_setLists_self]
      exact hp
    · obtain ⟨free, full, hpd⟩ := hi.placed d
      rw [lists_setLists_of_ne hd]
      exact ⟨free, full, hpd.congr rfl rfl rfl (hsame d hd)⟩
  · rw [hset] at hd he
    split at hd <;> split at he
    · next h h' => rw [h, h']
    · next h h' =>
      rcases hslabs a hd with hc | hnew
      · rw [h]
        exact hi.apart c e a hc he
      · exact absurd he (hnew e)
    · next h h' =>
      rcases hslabs a he with hc | hnew
      · rw [h']
        exact hi.apart d c a hd hc
      · exact absurd hd (hnew d)
    · exact hi.apart d e a hd he
  · have hother : ∀ d, d ≠ c → (((s.setLists c l).lists d).InUse d.layout q ↔
        (s.lists d).InUse d.layout q) := fun d hd => by
      rw [lists_setLists_of_ne hd]
      exact SlabLists.inUse_congr (s.lists d) { s.lists d with mem := l.mem } rfl (hsame d hd) q
    rw [hin]
    constructor
    · intro hq
      rcases hq with hq | ⟨d, hd, hq⟩
      · refine ⟨c, ?_⟩
        rw [lists_setLists_self]
        exact hq
      · exact ⟨d, (hother d hd).2 hq⟩
    · intro hq
      obtain ⟨d, hq⟩ := hq
      by_cases hd : d = c
      · subst hd
        rw [lists_setLists_self] at hq
        exact .inl hq
      · exact .inr ⟨d, hd, (hother d hd).1 hq⟩

theorem allocate (hi : Inv s inUse) (size : Nat) {page : PagePtr 16} (hne : page ≠ .null)
    (hpage : ∀ c, page ∉ s.slabs c) :
    Inv (s.allocate size page).2 ((s.allocate size page).1.elim inUse fun q => insert q inUse) := by
  rw [MALineAllocator.allocate]
  split
  · exact hi
  · next c hc =>
    obtain ⟨free, full, hp⟩ := hi.placed c
    obtain ⟨k, hk, hget, hfree, ht, hplaced⟩ :=
      SlabLists.getLine_spec hp c.getNext_head (hpage c) hne
    have hmem := hp.mem_free hp.list_mem
    refine hi.set hplaced (fun a ha => ?_) ht.frame fun q => ?_
    · rcases ht.slabs_cases ha with ha | rfl
      · exact .inl ha
      · exact .inr hpage
    · show q ∈ ((s.lists c).getLine c.layout c.head page).1.elim inUse (fun q => insert q inUse) ↔ _
      rw [hget, Option.elim_some, Finset.mem_insert, ht.inUse_iff hmem hk, hi.inUse, or_assoc]
      refine or_congr_right ?_
      constructor
      · intro hq
        obtain ⟨d, hq⟩ := hq
        by_cases hd : d = c
        · exact .inl (hd ▸ hq)
        · exact .inr ⟨d, hd, hq⟩
      · intro hq
        rcases hq with hq | ⟨d, -, hq⟩
        · exact ⟨c, hq⟩
        · exact ⟨d, hq⟩

theorem deallocate (hi : Inv s inUse) {ptr : BitVec 64} (hptr : ptr ∈ inUse) :
    Inv (s.deallocate ptr).2 (inUse.erase ptr) := by
  obtain ⟨c, a, ha, k, hk, hbit, rfl⟩ := (hi.inUse ptr).1 hptr
  obtain ⟨free, full, hp⟩ := hi.placed c
  have hsize :
      LineSize.ofSize? (s.mem (.of 16 (c.layout.slot a k))).head.getSize.toNat = some c := by
    have htag : (s.mem a).head.getSize = c.head.getSize := hp.tag a ha
    rw [c.layout.page_slot hk, htag, c.getSize_head, c.ofSize?_size]
  obtain ⟨hplaced, hslabs, hin, hframe⟩ := SlabLists.freeLine_spec hp ha hk
  rw [MALineAllocator.deallocate, hsize]
  refine hi.set hplaced (fun b hb => .inl ?_) (fun b hb => hframe b ?_) fun q => ?_
  · rwa [hslabs] at hb
  · rwa [hslabs] at hb
  rw [Finset.mem_erase, hi.inUse, hin]
  constructor
  · intro hq
    obtain ⟨hne, d, hq⟩ := hq
    by_cases hd : d = c
    · exact .inl ⟨hne, hd ▸ hq⟩
    · exact .inr ⟨d, hd, hq⟩
  · intro hq
    rcases hq with ⟨hne, hq⟩ | ⟨d, hd, hq⟩
    · exact ⟨hne, c, hq⟩
    · refine ⟨fun heq => hd ?_, d, hq⟩
      rw [heq] at hq
      exact hi.eq_of_inUse ha hk hq

end Inv

/-! ### The constructor -/

/-- The slabs of the sizes `cs` have been built, each on its page. -/
structure Built (pages : LineSize → PagePtr 16) (cs : List LineSize)
    (s : MALineAllocator) : Prop where
  placed : ∀ c ∈ cs, SlabLists.Placed c.layout c.head (s.lists c) [pages c] []
  unused : ∀ c ∈ cs, ∀ q, ¬ (s.lists c).InUse c.layout q
  slabs : ∀ c, s.slabs c = if c ∈ cs then [pages c] else []
  none : ∀ c, c ∉ cs → s.lists c = ⟨s.mem, .null, .null, []⟩

theorem Built.step {pages : LineSize → PagePtr 16} {cs : List LineSize}
    (hb : Built pages cs s) (hc : c ∉ cs)
    (hinj : Function.Injective pages) (hne : pages c ≠ .null) :
    Built pages (cs ++ [c]) (s.setLists c ((s.lists c).newSlab c.layout c.head (pages c))) := by
  rw [hb.none c hc]
  have hself := SlabLists.newSlab_placed (L := c.layout) c.getNext_head s.mem hne
  have hmem : ∀ d ∈ cs, ∀ a ∈ s.slabs d, s.mem.put (pages c) (c.layout.construct c.head) a =
      s.mem a := fun d hd a ha => by
    rw [hb.slabs, if_pos hd, List.mem_singleton] at ha
    refine PageMem.put_of_ne _ _ fun heq => hc ?_
    rwa [← hinj (ha.symm.trans heq)]
  have hdc : ∀ d ∈ cs, d ≠ c := fun d hd heq => hc (heq ▸ hd)
  refine ⟨fun d hd => ?_, fun d hd q => ?_, fun d => ?_, fun d hd => ?_⟩
  · rcases List.mem_append.1 hd with hd | hd
    · rw [lists_setLists_of_ne (hdc d hd)]
      exact (hb.placed d hd).congr rfl rfl rfl (hmem d hd)
    · rw [List.mem_singleton.1 hd, lists_setLists_self]
      exact hself
  · rcases List.mem_append.1 hd with hd | hd
    · rw [lists_setLists_of_ne (hdc d hd)]
      exact fun hq => hb.unused d hd q ((SlabLists.inUse_congr (s.lists d)
        { s.lists d with mem := s.mem.put (pages c) (c.layout.construct c.head) } rfl
        (hmem d hd) q).1 hq)
    · rw [List.mem_singleton.1 hd, lists_setLists_self]
      exact SlabLists.not_inUse_newSlab s.mem (pages c) q
  · by_cases hd : d = c
    · simp [setLists, SlabLists.newSlab, hd]
    · simp [setLists, hd, hb.slabs]
  · rw [List.mem_append, not_or, List.mem_singleton] at hd
    rw [lists_setLists_of_ne hd.2, hb.none d hd.1]
    rfl

theorem Built.fold {pages : LineSize → PagePtr 16} (hinj : Function.Injective pages)
    (hne : ∀ c, pages c ≠ .null)
    (todo : List LineSize) : ∀ (cs : List LineSize) (s : MALineAllocator), Built pages cs s →
    (cs ++ todo).Nodup →
      Built pages (cs ++ todo)
      (todo.foldl (fun s c => s.setLists c ((s.lists c).newSlab c.layout c.head (pages c))) s) := by
  induction todo with
  | nil =>
    intro cs s hb _
    rwa [List.append_nil]
  | cons c todo ih =>
    intro cs s hb hnodup
    have hc : c ∉ cs := fun hmem => (List.nodup_append.1 hnodup).2.2 c hmem c (by simp) rfl
    rw [List.append_cons] at hnodup ⊢
    exact ih _ _ (hb.step hc hinj (hne c)) hnodup

theorem init_inv (mem : PageMem SlabHead 16) {pages : LineSize → PagePtr 16}
    (hinj : Function.Injective pages) (hne : ∀ c, pages c ≠ .null) : Inv (init mem pages) ∅ := by
  have hb : Built pages LineSize.all (init mem pages) :=
    Built.fold hinj hne LineSize.all [] _ ⟨by simp, by simp, by simp, fun c _ => rfl⟩ (by decide)
  refine ⟨fun c => ⟨_, _, hb.placed c c.mem_all⟩, fun c d a hc hd => ?_, fun q => ?_⟩
  · rw [hb.slabs, if_pos c.mem_all, List.mem_singleton] at hc
    rw [hb.slabs, if_pos d.mem_all, List.mem_singleton] at hd
    exact hinj (hc.symm.trans hd)
  · refine iff_of_false (Finset.notMem_empty q) fun hq => ?_
    obtain ⟨c, hq⟩ := hq
    exact hb.unused c c.mem_all q hq

end MALineAllocator

/-! ## Nodes -/

namespace DSAllocator

variable {s : DSAllocator} {inUse : Finset (BitVec 64)}

/-- The slabs are placed as they should be, and the slots in use are marked. -/
structure Inv (s : DSAllocator) (inUse : Finset (BitVec 64)) : Prop where
  placed : ∃ free full, SlabLists.Placed dsLayout PagePtr.null s free full
  inUse : ∀ q, q ∈ inUse ↔ SlabLists.InUse dsLayout s q

namespace Inv

theorem accounted (hi : Inv s inUse) : SlabLists.Accounted dsLayout PagePtr.null s inUse where
  placed := hi.placed
  inUse _ _ _ _ := hi.inUse _

theorem getDJSet (hi : Inv s inUse) {page : PagePtr 12} (hne : page ≠ .null)
    (hpage : page ∉ s.slabs) :
    Inv (s.getDJSet page).2 ((s.getDJSet page).1.elim inUse fun q => insert q inUse) := by
  obtain ⟨free, full, hp⟩ := hi.placed
  obtain ⟨k, hk, hget, -, ht, hplaced⟩ := SlabLists.getLine_spec hp rfl hpage hne
  refine ⟨hplaced, fun q => ?_⟩
  rw [DSAllocator.getDJSet, hget, Option.elim_some, Finset.mem_insert,
    ht.inUse_iff (hp.mem_free hp.list_mem) hk, hi.inUse]

theorem freeDJSet (hi : Inv s inUse) {ptr : BitVec 64} (hptr : ptr ∈ inUse) :
    Inv (s.freeDJSet ptr) (inUse.erase ptr) := by
  obtain ⟨a, ha, k, hk, -, rfl⟩ := (hi.inUse ptr).1 hptr
  obtain ⟨free, full, hp⟩ := hi.placed
  obtain ⟨hplaced, -, hin, -⟩ := SlabLists.freeLine_spec hp ha hk
  refine ⟨hplaced, fun q => ?_⟩
  rw [DSAllocator.freeDJSet, Finset.mem_erase, hi.inUse, hin]

end Inv

theorem init_inv (mem : PageMem (PagePtr 12) 12) {page : PagePtr 12} (hne : page ≠ .null) :
    Inv (init mem page) ∅ :=
  ⟨⟨_, _, SlabLists.newSlab_placed rfl mem hne⟩,
    fun q => iff_of_false (Finset.notMem_empty q) (SlabLists.not_inUse_newSlab mem page q)⟩

end DSAllocator

/-! ## Runs -/

namespace SlabRun

variable {s : SlabRun}

theorem Reachable.inv (hs : Reachable s) :
    s.lines.Inv s.linesInUse ∧ DSAllocator.Inv s.sets s.setsInUse := by
  induction hs with
  | init mem pages dsMem dsPage hinj hne hds =>
    exact ⟨MALineAllocator.init_inv mem hinj hne, DSAllocator.init_inv dsMem hds⟩
  | step s call _ hcall ih =>
    cases call with
    | allocate size page => exact ⟨ih.1.allocate size hcall.1 hcall.2, ih.2⟩
    | deallocate ptr => exact ⟨ih.1.deallocate hcall, ih.2⟩
    | getDJSet page => exact ⟨ih.1, ih.2.getDJSet hcall.1 hcall.2⟩
    | freeDJSet ptr => exact ⟨ih.1, ih.2.freeDJSet hcall⟩

/-- Whatever has been asked for and returned, the slabs of every size of a line,
and those of the nodes, are well placed, and what is asked for next is a slot
that is not in use. -/
theorem slabs_wellPlaced (hs : Reachable s) :
    (∀ c, ∃ free full, SlabLists.WellPlaced c.layout (s.lines.lists c) s.linesInUse free full) ∧
    (∃ free full, SlabLists.WellPlaced dsLayout s.sets s.setsInUse free full) ∧
    (∀ size page c, s.Allowed (.allocate size page) → LineSize.ofSize? size = some c →
      ∃ r, s.lines.allocate size page = (r.1, s.lines.setLists c r.2) ∧
      SlabLists.GivesOut c.layout s.linesInUse r) ∧
    ∀ page, s.Allowed (.getDJSet page) →
    SlabLists.GivesOut dsLayout s.setsInUse (s.sets.getDJSet page) := by
  obtain ⟨hlines, hsets⟩ := hs.inv
  refine ⟨fun c => (hlines.accounted c).wellPlaced, hsets.accounted.wellPlaced,
    fun size page c hcall hsize => ?_, fun page hcall => ?_⟩
  · refine ⟨(s.lines.lists c).getLine c.layout c.head page, ?_,
      (hlines.accounted c).givesOut c.getNext_head (hcall.2 c) hcall.1⟩
    rw [MALineAllocator.allocate, hsize]
  · exact hsets.accounted.givesOut rfl hcall.2 hcall.1

/-- A line of 1024 accesses is in use, and the next one is another. -/
theorem slabs_wellPlaced_line : ∃ s : SlabRun, 67108888#64 ∈ s.linesInUse ∧
    ∀ page, s.Allowed (.allocate 1024 page) →
    ∃ q, (s.lines.allocate 1024 page).1 = some q ∧ q ∉ s.linesInUse := by
  let pages : LineSize → PagePtr 16 :=
    fun c => ⟨BitVec.ofNat 64 (65536 * c.size), by cases c <;> decide⟩
  let start : SlabRun :=
    .init (fun _ => ⟨⟨7#64⟩, .null, []⟩) pages (fun _ => ⟨.null, .null, []⟩) ⟨4096#64, by decide⟩
  let page : PagePtr 16 := ⟨196608#64, by decide⟩
  have hstart : Reachable start := by
    refine .init _ _ _ _ (fun c d h => ?_) (fun c => ?_) (by decide)
    · have hval := congrArg Subtype.val h
      cases c <;> cases d <;> first | rfl | exact absurd hval (by decide)
    · cases c <;> decide
  have hcall : start.Allowed (.allocate 1024 page) := by
    refine ⟨by decide, fun c => ?_⟩
    cases c <;> decide
  obtain ⟨-, -, hnext, -⟩ := slabs_wellPlaced (.step start (.allocate 1024 page) hstart hcall)
  refine ⟨start.step (.allocate 1024 page), by decide +kernel, fun page' hpage => ?_⟩
  obtain ⟨r, heq, q, hq, hfree, -⟩ := hnext 1024 page' .ma1024 hpage rfl
  refine ⟨q, ?_, hfree⟩
  rw [heq]
  exact hq

end SlabRun

end Cilksan
