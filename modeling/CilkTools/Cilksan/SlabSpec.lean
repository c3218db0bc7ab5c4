/-
What taking and returning a slot do to the lists of slabs and their bit maps
together: the slots in use are those given out and not returned.
-/
import CilkTools.Cilksan.SlabLinks

namespace Cilksan

open Bitmaps

namespace SlabLists

variable {W : Type} {n : Nat} [HeadWord W n] {L : SlabLayout n} {h : W} {s : SlabLists W n}
  {free full : List (PagePtr n)} {page a : PagePtr n} {k : Nat}

/-- The slot at the address is marked in the bit map of its slab. -/
def InUse (L : SlabLayout n) (s : SlabLists W n) (q : BitVec 64) : Prop :=
  ∃ a ∈ s.slabs, ∃ i < L.numSlots, bit (s.mem a).usedMap i = true ∧ L.slot a i = q

omit [HeadWord W n] in
theorem inUse_slot (hk : k < L.numSlots) : s.InUse L (L.slot a k) ↔
    a ∈ s.slabs ∧ bit (s.mem a).usedMap k = true := by
  constructor
  · intro hq
    obtain ⟨b, hb, i, hi, hbit, heq⟩ := hq
    obtain ⟨rfl, rfl⟩ := (L.slot_inj hi hk).1 heq
    exact ⟨hb, hbit⟩
  · intro hq
    exact ⟨a, hq.1, k, hk, hq.2, rfl⟩

/-- The slabs are on their lists, the full ones on one and the others on the
other, which is not empty. -/
structure Placed (L : SlabLayout n) (h : W) (s : SlabLists W n)
    (free full : List (PagePtr n)) : Prop where
  lists : s.Lists free full
  slabs : (free ++ full).Perm s.slabs
  nonempty : free ≠ []
  notFull : ∀ a ∈ free, (s.mem a).isFull = false
  isFull : ∀ a ∈ full, (s.mem a).isFull = true
  padded : ∀ a ∈ s.slabs, L.Padded (s.mem a).usedMap
  tag : ∀ a ∈ s.slabs, HeadWord.tag (s.mem a).head = HeadWord.tag h

namespace Placed

theorem mem_free (hs : Placed L h s free full) (ha : a ∈ free) : a ∈ s.slabs :=
  hs.slabs.mem_iff.1 (List.mem_append_left _ ha)

theorem mem_full (hs : Placed L h s free full) (ha : a ∈ full) : a ∈ s.slabs :=
  hs.slabs.mem_iff.1 (List.mem_append_right _ ha)

theorem ne_null (hs : Placed L h s free full) (ha : a ∈ s.slabs) : a ≠ .null :=
  hs.lists.ne_null (hs.slabs.mem_iff.2 ha)

theorem list_mem (hs : Placed L h s free full) : s.list ∈ free :=
  hs.lists.onFree.head_mem fun hnull => hs.nonempty (hs.lists.onFree.eq_nil_iff.2 hnull)

/-- The slabs of the full list are those whose slots are all in use. -/
theorem mem_full_iff (hs : Placed L h s free full) (ha : a ∈ s.slabs) :
    a ∈ full ↔ ∀ i < L.numSlots, s.InUse L (L.slot a i) := by
  have hall : (s.mem a).isFull = true ↔ ∀ i < L.numSlots, s.InUse L (L.slot a i) := by
    rw [(hs.padded a ha).isFull_iff]
    refine forall₂_congr fun i hi => ?_
    rw [inUse_slot hi, and_iff_right ha]
  rw [← hall]
  constructor
  · exact hs.isFull a
  · intro hf
    rcases List.mem_append.1 (hs.slabs.mem_iff.2 ha) with hmem | hmem
    · rw [hs.notFull a hmem] at hf
      cases hf
    · exact hmem

/-- The slab at the head of the list has a slot that is not in use. -/
theorem list_free (hs : Placed L h s free full) :
    ∃ i < L.numSlots, ¬ s.InUse L (L.slot s.list i) := by
  by_contra hall
  push Not at hall
  have hmem := (hs.mem_full_iff (hs.mem_free hs.list_mem)).2 hall
  exact hs.lists.apart _ hs.list_mem hmem

/-- What is in the memory elsewhere does not matter. -/
theorem congr {s' : SlabLists W n} (hs : Placed L h s free full) (hlist : s'.list = s.list)
    (hfull : s'.full = s.full)
    (hslabs : s'.slabs = s.slabs) (hmem : ∀ a ∈ s.slabs, s'.mem a = s.mem a) :
    Placed L h s' free full where
  lists := by
    have hnext : ∀ a ∈ s.slabs, s'.mem.next a = s.mem.next a :=
      fun a ha => by rw [PageMem.next, hmem a ha, PageMem.next]
    have hback : ∀ a ∈ s.slabs, s'.mem.back a = s.mem.back a :=
      fun a ha => by rw [PageMem.back, hmem a ha, PageMem.back]
    refine ⟨?_, ?_, hs.lists.apart⟩
    · rw [hlist]
      exact hs.lists.onFree.congr (fun a ha => hnext a (hs.mem_free ha)) fun a ha => hback a
        (hs.mem_free ha)
    · rw [hfull]
      exact hs.lists.onFull.congr (fun a ha => hnext a (hs.mem_full ha)) fun a ha => hback a
        (hs.mem_full ha)
  slabs := hslabs ▸ hs.slabs
  nonempty := hs.nonempty
  notFull a ha := by
    rw [hmem a (hs.mem_free ha)]
    exact hs.notFull a ha
  isFull a ha := by
    rw [hmem a (hs.mem_full ha)]
    exact hs.isFull a ha
  padded a ha := by
    rw [hslabs] at ha
    rw [hmem a ha]
    exact hs.padded a ha
  tag a ha := by
    rw [hslabs] at ha
    rw [hmem a ha]
    exact hs.tag a ha

end Placed

omit [HeadWord W n] in
theorem inUse_congr (s s' : SlabLists W n) (hslabs : s'.slabs = s.slabs)
    (hmem : ∀ a ∈ s.slabs, s'.mem a = s.mem a) (q : BitVec 64) : s'.InUse L q ↔ s.InUse L q := by
  rw [InUse, InUse, hslabs]
  refine exists_congr fun a => and_congr_right fun ha => ?_
  rw [hmem a ha]

/-- A new bit map for a slab leaves the lists. -/
theorem Lists.put (hl : s.Lists free full) {x : Slab W n} (hhead : x.head = (s.mem a).head)
    (hback : x.back = (s.mem a).back) : Lists { s with mem := s.mem.put a x } free full := by
  refine ⟨?_, ?_, hl.apart⟩
  · show LinkedLists.Linked (s.mem.put a x).next (s.mem.put a x).back _ s.list _
    rw [PageMem.next_put _ hhead, PageMem.back_put _ hback]
    exact hl.onFree
  · show LinkedLists.Linked (s.mem.put a x).next (s.mem.put a x).back _ s.full _
    rw [PageMem.next_put _ hhead, PageMem.back_put _ hback]
    exact hl.onFull

/-- The first slab: there is nothing but it. -/
theorem newSlab_placed (hh : HeadWord.getNext h = .null) (mem : PageMem W n)
    (hpage : page ≠ .null) : Placed L h (newSlab L h ⟨mem, .null, .null, []⟩ page) [page] [] := by
  have hself : (newSlab L h ⟨mem, .null, .null, []⟩ page).mem page = L.construct h :=
    PageMem.put_self ..
  refine ⟨⟨⟨⟨page, rfl, ?_, ?_, rfl⟩, ?_, by simp⟩, .nil .., by simp⟩, by simp [newSlab], by simp,
    fun a ha => ?_, by simp, fun a ha => ?_, fun a ha => ?_⟩
  · rw [PageMem.back, hself]
    rfl
  · rw [PageMem.next, hself]
    exact hh
  · exact fun hmem => hpage (List.mem_singleton.1 hmem).symm
  · rw [List.mem_singleton.1 ha, hself, ← Bool.not_eq_true, (L.construct_padded h).isFull_iff]
    intro hall
    have hzero : 0 < L.numSlots := Nat.pos_of_ne_zero fun h => L.padded (by rw [h])
    have hlt := L.numSlots_lt
    have hbit := hall 0 hzero
    rw [L.bit_construct h (by omega), decide_eq_true_eq] at hbit
    omega
  · rw [List.mem_singleton.1 ha, hself]
    exact L.construct_padded h
  · rw [List.mem_singleton.1 ha, hself]
    rfl

omit [HeadWord W n] in
/-- In a new slab no slot is in use. -/
theorem not_inUse_newSlab (mem : PageMem W n) (page : PagePtr n) (q : BitVec 64) :
    ¬ (newSlab L h ⟨mem, .null, .null, []⟩ page).InUse L q := by
  intro hq
  obtain ⟨a, ha, i, hi, hbit, -⟩ := hq
  have hlt := L.numSlots_lt
  have hself : (newSlab L h ⟨mem, .null, .null, []⟩ page).mem page = L.construct h :=
    PageMem.put_self ..
  rw [List.mem_singleton.1 ha, hself, L.bit_construct h (by omega), decide_eq_true_eq] at hbit
  omega

/-! ### A slot is taken -/

/-- The slot `k` of the slab `slab` has been marked. The slabs are the same, but
perhaps for a new one on `page`. -/
structure Taken (L : SlabLayout n) (h : W) (s s' : SlabLists W n) (slab page : PagePtr n)
    (k : Nat) : Prop where
  slabs : s'.slabs = s.slabs ∨ s'.slabs = page :: s.slabs
  bit : ∀ a ∈ s.slabs, ∀ i, bit (s'.mem a).usedMap i =
    (bit (s.mem a).usedMap i || decide (a = slab ∧ i = k))
  padded : ∀ a ∈ s.slabs, L.Padded (s'.mem a).usedMap
  tag : ∀ a ∈ s.slabs, HeadWord.tag (s'.mem a).head = HeadWord.tag (s.mem a).head
  new : page ∈ s'.slabs → (s'.mem page).usedMap = (L.construct h).usedMap ∧
    HeadWord.tag (s'.mem page).head = HeadWord.tag h
  frame : ∀ a, a ∉ s'.slabs → s'.mem a = s.mem a

namespace Taken

variable {s' : SlabLists W n} {slab : PagePtr n}

theorem mem_slabs (ht : Taken L h s s' slab page k) (ha : a ∈ s.slabs) : a ∈ s'.slabs := by
  rcases ht.slabs with heq | heq
  · exact heq ▸ ha
  · exact heq ▸ List.mem_cons_of_mem _ ha

theorem slabs_cases (ht : Taken L h s s' slab page k) (ha : a ∈ s'.slabs) :
    a ∈ s.slabs ∨ a = page := by
  rcases ht.slabs with heq | heq
  · exact .inl (heq ▸ ha)
  · exact (List.mem_cons.1 (heq ▸ ha)).symm

theorem padded_all (ht : Taken L h s s' slab page k) (ha : a ∈ s'.slabs) :
    L.Padded (s'.mem a).usedMap := by
  rcases ht.slabs_cases ha with hmem | rfl
  · exact ht.padded a hmem
  · rw [(ht.new ha).1]
    exact L.construct_padded h

theorem tag_all (ht : Taken L h s s' slab page k)
    (htag : ∀ a ∈ s.slabs, HeadWord.tag (s.mem a).head = HeadWord.tag h)
    (ha : a ∈ s'.slabs) : HeadWord.tag (s'.mem a).head = HeadWord.tag h := by
  rcases ht.slabs_cases ha with hmem | rfl
  · rw [ht.tag a hmem, htag a hmem]
  · exact (ht.new ha).2

/-- A new slab has no slot in use. -/
theorem bit_page (ht : Taken L h s s' slab page k) (hpage : page ∈ s'.slabs) {i : Nat}
    (hi : i < L.numSlots) : Bitmaps.bit (s'.mem page).usedMap i = false := by
  have hlt := L.numSlots_lt
  rw [(ht.new hpage).1, L.bit_construct h (by omega), decide_eq_false (by omega)]

theorem page_notFull (ht : Taken L h s s' slab page k) (hpage : page ∈ s'.slabs) :
    (s'.mem page).isFull = false := by
  rw [← Bool.not_eq_true, (ht.padded_all hpage).isFull_iff]
  intro hall
  have hzero : 0 < L.numSlots := Nat.pos_of_ne_zero fun h => L.padded (by rw [h])
  have hbit := hall 0 hzero
  rw [ht.bit_page hpage hzero] at hbit
  cases hbit

/-- Exactly that slot is in use now as well. -/
theorem inUse_iff (ht : Taken L h s s' slab page k) (hslab : slab ∈ s.slabs) (hk : k < L.numSlots)
    (q : BitVec 64) : s'.InUse L q ↔ q = L.slot slab k ∨ s.InUse L q := by
  constructor
  · intro hq
    obtain ⟨a, ha, i, hi, hbit, rfl⟩ := hq
    rcases ht.slabs_cases ha with hmem | rfl
    · rw [ht.bit a hmem, Bool.or_eq_true, decide_eq_true_eq] at hbit
      rcases hbit with hbit | ⟨rfl, rfl⟩
      · exact .inr ⟨a, hmem, i, hi, hbit, rfl⟩
      · exact .inl rfl
    · rw [ht.bit_page ha hi] at hbit
      cases hbit
  · intro hq
    rcases hq with rfl | hq
    · refine ⟨slab, ht.mem_slabs hslab, k, hk, ?_, rfl⟩
      rw [ht.bit slab hslab, decide_eq_true ⟨rfl, rfl⟩, Bool.or_true]
    · obtain ⟨a, ha, i, hi, hbit, rfl⟩ := hq
      refine ⟨a, ht.mem_slabs ha, i, hi, ?_, rfl⟩
      rw [ht.bit a ha, hbit, Bool.true_or]

/-- Links are changed after that. -/
theorem relink {s'' : SlabLists W n} (ht : Taken L h s s' slab page k)
    (hr : s'.mem.Relinked s''.mem s'.slabs)
    (hslabs : s''.slabs = s'.slabs) : Taken L h s s'' slab page k where
  slabs := hslabs ▸ ht.slabs
  bit a ha i := by rw [hr.usedMap, ht.bit a ha]
  padded a ha := by
    rw [hr.usedMap]
    exact ht.padded a ha
  tag a ha := (hr.tag a).trans (ht.tag a ha)
  new hpage := by
    rw [hr.usedMap, hr.tag]
    exact ht.new (hslabs ▸ hpage)
  frame a ha := by
    rw [hslabs] at ha
    rw [hr.frame a ha, ht.frame a ha]

/-- A slab is built after that. -/
theorem newSlab {s'' : SlabLists W n} (ht : Taken L h s s' slab page k) (hpage : page ∉ s.slabs)
    (hsame : s'.slabs = s.slabs)
    (hslabs : s''.slabs = page :: s'.slabs) (hmem : s''.mem = s'.mem.put page (L.construct h)) :
    Taken L h s s'' slab page k := by
  have hold : ∀ a, a ≠ page → s''.mem a = s'.mem a :=
    fun a ha => by rw [hmem, PageMem.put_of_ne _ _ ha]
  have hne : ∀ a ∈ s.slabs, a ≠ page := fun a ha heq => hpage (heq ▸ ha)
  refine ⟨.inr (by rw [hslabs, hsame]), fun a ha i => ?_, fun a ha => ?_, fun a ha => ?_,
    fun _ => ?_, fun a ha => ?_⟩
  · rw [hold a (hne a ha), ht.bit a ha]
  · rw [hold a (hne a ha)]
    exact ht.padded a ha
  · rw [hold a (hne a ha), ht.tag a ha]
  · rw [hmem, PageMem.put_self]
    exact ⟨rfl, rfl⟩
  · rw [hslabs, List.mem_cons, not_or] at ha
    rw [hold a ha.1, ht.frame a ha.2]

/-- The slabs other than the one of the slot are as full as before. -/
theorem isFull_eq (ht : Taken L h s s' slab page k) (ha : a ∈ s.slabs) (hne : a ≠ slab)
    (hp : L.Padded (s.mem a).usedMap) : (s'.mem a).isFull = (s.mem a).isFull := by
  rw [Bool.eq_iff_iff, hp.isFull_iff, (ht.padded a ha).isFull_iff]
  refine forall₂_congr fun i _ => ?_
  rw [ht.bit a ha, decide_eq_false fun h => hne h.1, Bool.or_false]

theorem placed {free' full' : List (PagePtr n)} (ht : Taken L h s s' slab page k)
    (hs : Placed L h s free full)
    (hl : s'.Lists free' full') (hslabs : (free' ++ full').Perm s'.slabs) (hne : free' ≠ [])
    (hfree : ∀ a ∈ free', a ≠ slab → a ∈ free ∨ a = page) (hfull : ∀ a ∈ full', a ≠ slab → a ∈ full)
    (hslab : slab ∈ free' → (s'.mem slab).isFull = false)
    (hslab' : slab ∈ full' → (s'.mem slab).isFull = true) : Placed L h s' free' full' where
  lists := hl
  slabs := hslabs
  nonempty := hne
  notFull a ha := by
    by_cases heq : a = slab
    · subst heq
      exact hslab ha
    · rcases hfree a ha heq with hmem | rfl
      · have hold := hs.mem_free hmem
        rw [ht.isFull_eq hold heq (hs.padded a hold), hs.notFull a hmem]
      · exact ht.page_notFull (hslabs.mem_iff.1 (List.mem_append_left _ ha))
  isFull a ha := by
    by_cases heq : a = slab
    · subst heq
      exact hslab' ha
    · have hmem := hfull a ha heq
      have hold := hs.mem_full hmem
      rw [ht.isFull_eq hold heq (hs.padded a hold), hs.isFull a hmem]
  padded _ ha := ht.padded_all ha
  tag _ ha := ht.tag_all hs.tag ha

end Taken

/-- A slot that was not in use is given out, and the slabs are placed as they
should be. -/
theorem getLine_spec (hs : Placed L h s free full) (hh : HeadWord.getNext h = .null)
    (hpage : page ∉ s.slabs) (hne : page ≠ .null) :
    ∃ k < L.numSlots, (s.getLine L h page).1 = some (L.slot s.list k) ∧
    ¬ s.InUse L (L.slot s.list k) ∧
      Taken L h s (s.getLine L h page).2 s.list page k ∧
      ∃ free full, Placed L h (s.getLine L h page).2 free full := by
  have hmem := hs.list_mem
  have hslab := hs.mem_free hmem
  obtain ⟨k, ws, hk, hclear, hget, hpad, hbit⟩ :=
    SlabLayout.getFreeLine_spec (hs.padded _ hslab) (hs.notFull _ hmem) s.list
  obtain ⟨l, rfl, -⟩ := hs.lists.onFree.eq_cons (hs.ne_null hslab)
  refine ⟨k, hk, ?_⟩
  have hunused : ¬ s.InUse L (L.slot s.list k) := by
    rw [inUse_slot hk, hclear]
    simp
  -- the bit is set
  let s₁ : SlabLists W n := { s with mem := s.mem.put s.list { s.mem s.list with usedMap := ws } }
  have hself : s₁.mem s.list = { s.mem s.list with usedMap := ws } := PageMem.put_self ..
  have hothers : ∀ a, a ≠ s.list → s₁.mem a = s.mem a := fun a ha => PageMem.put_of_ne _ _ ha
  have hl₁ : s₁.Lists (s.list :: l) full := hs.lists.put rfl rfl
  have ht₁ : Taken L h s s₁ s.list page k := by
    refine ⟨.inl rfl, fun a ha i => ?_, fun a ha => ?_, fun a ha => ?_, fun h => absurd h hpage,
      fun a ha => ?_⟩
    · by_cases heq : a = s.list
      · rw [heq, hself, hbit]
        simp
      · rw [hothers a heq, decide_eq_false fun h => heq h.1, Bool.or_false]
    · by_cases heq : a = s.list
      · rw [heq, hself]
        exact hpad
      · rw [hothers a heq]
        exact hs.padded a ha
    · by_cases heq : a = s.list
      · rw [heq, hself]
      · rw [hothers a heq]
    · exact hothers a fun heq => ha (heq ▸ hslab)
  have hunfold : s.getLine L h page = if (s₁.mem s.list).isFull then
      (some (L.slot s.list k), (s₁.advance L h s.list page).pushFull s.list)
          else (some (L.slot s.list k), s₁) := by
    rw [getLine, hget]
  by_cases hfull : (s₁.mem s.list).isFull = true
  · -- the slab is full now: it changes lists
    rw [hunfold, if_pos hfull]
    have hapart : page ∉ s.list :: l ++ full := fun h => hpage (hs.slabs.mem_iff.1 h)
    have hnodup : s.list ∉ full := fun h => hs.lists.apart _ hmem h
    obtain ⟨free, hnil, hl₂, hout, hnull, hcases⟩ := hl₁.advance L hh hapart hne
    obtain ⟨hl₃, hr₃⟩ :=
      hl₂.pushFull (by rw [List.mem_append, not_or]; exact ⟨hout, hnodup⟩) (hs.ne_null hslab) hnull
    have hsub : ∀ a ∈ s.list :: full, a ∈ s.slabs := fun a ha => by
      rcases List.mem_cons.1 ha with rfl | ha
      · exact hslab
      · exact hs.mem_full ha
    have hperm : (l ++ s.list :: full).Perm s.slabs := List.perm_middle.trans hs.slabs
    refine ⟨rfl, hunused, ?_⟩
    rcases hcases with ⟨rfl, hslabs, hr₂⟩ | ⟨rfl, hslabs, hmem₂⟩
    · have hr : s₁.mem.Relinked ((s₁.advance L h s.list page).pushFull s.list).mem s₁.slabs :=
        (hr₂.mono fun a ha => hs.mem_free (List.mem_cons_of_mem _ ha)).trans (hr₃.mono hsub)
      have ht := ht₁.relink hr hslabs
      refine ⟨ht, free, s.list :: full,
        ht.placed hs hl₃ ?_ hnil (fun a ha _ => .inl (List.mem_cons_of_mem _ ha))
        (fun a ha hne => (List.mem_cons.1 ha).resolve_left hne)
        (fun h => absurd h hout) fun _ => ?_⟩
      · show (free ++ s.list :: full).Perm (s₁.advance L h s.list page).slabs
        rw [hslabs]
        exact hperm
      · rw [hr.isFull, hfull]
    · have ht₂ := ht₁.newSlab hpage rfl hslabs hmem₂
      have ht := ht₂.relink
        (hr₃.mono fun a ha => by rw [hslabs]; exact List.mem_cons_of_mem _ (hsub a ha)) rfl
      refine ⟨ht, page :: l, s.list :: full, ht.placed hs hl₃ ?_ hnil (fun a ha _ => ?_)
        (fun a ha hne => (List.mem_cons.1 ha).resolve_left hne)
        (fun h => absurd h hout) fun _ => ?_⟩
      · show (page :: l ++ s.list :: full).Perm (s₁.advance L h s.list page).slabs
        rw [hslabs]
        exact hperm.cons page
      · rcases List.mem_cons.1 ha with rfl | ha
        · exact .inr rfl
        · exact .inl (List.mem_cons_of_mem _ ha)
      · have hpg : s.list ≠ page := fun heq => hpage (heq ▸ hslab)
        rw [hr₃.isFull, hmem₂, PageMem.put_of_ne _ _ hpg, hfull]
  · rw [hunfold, if_neg hfull]
    refine ⟨rfl, hunused, ht₁, s.list :: l, full,
      ht₁.placed hs hl₁ hs.slabs (by simp) (fun a ha _ => .inl ha) (fun a ha _ => ha)
      (fun _ => by simpa using hfull) fun h => absurd h (hs.lists.apart _ hmem)⟩

/-! ### A slot is returned -/

/-- The slab of a slot in use is among those with free slots, and no other has
changed its list. -/
theorem moveToFront_spec (hs : Placed L h s free full) (ha : a ∈ s.slabs) :
    ∃ free' full', Lists (s.moveToFront a) free' full' ∧
    s.mem.Relinked (s.moveToFront a).mem s.slabs ∧ (s.moveToFront a).slabs = s.slabs ∧
    (free' ++ full').Perm s.slabs ∧
    a ∈ free' ∧ (∀ b ∈ free', b ≠ a → b ∈ free) ∧ ∀ b ∈ full', b ∈ full := by
  have hl := hs.lists
  have hlist := hl.ne_null (List.mem_append_left _ hs.list_mem)
  have hnodup := hl.nodup
  by_cases hfull : (s.mem a).isFull = true
  · -- from the list of the full slabs
    have hmem : a ∈ full := by
      rcases List.mem_append.1 (hs.slabs.mem_iff.2 ha) with hmem | hmem
      · exact absurd hfull (by simp [hs.notFull a hmem])
      · exact hmem
    obtain ⟨l₁, l₂, rfl⟩ := List.append_of_mem hmem
    obtain ⟨hl₁, hr₁, hlist₁, hslabs₁⟩ := hl.unlinkFull
    have hperm : (free ++ (l₁ ++ a :: l₂)).Perm (a :: (free ++ (l₁ ++ l₂))) :=
      (List.perm_middle.append_left free).trans List.perm_middle
    have hout : a ∉ free ++ (l₁ ++ l₂) := (List.nodup_cons.1 (hperm.nodup_iff.1 hnodup)).1
    obtain ⟨hl₂, hr₂⟩ := hl₁.pushList (hlist₁ ▸ hlist) hout (hs.ne_null ha)
    have heq : s.moveToFront a = (s.unlinkFull a).pushList a := if_pos hfull
    rw [heq]
    refine ⟨a :: free, l₁ ++ l₂, hl₂,
      (hr₁.mono fun b hb => ?_).trans (hr₂.mono fun b hb => ?_), hslabs₁,
      hperm.symm.trans hs.slabs, by simp, fun b hb hne => (List.mem_cons.1 hb).resolve_left hne,
      fun b hb => ?_⟩
    · exact hs.mem_full (List.perm_middle.mem_iff.2 (List.mem_cons_of_mem _ hb))
    · rcases List.mem_cons.1 hb with rfl | hb
      · exact ha
      · exact hs.mem_free hb
    · exact List.perm_middle.mem_iff.2 (List.mem_cons_of_mem _ hb)
  · have hmem : a ∈ free := by
      rcases List.mem_append.1 (hs.slabs.mem_iff.2 ha) with hmem | hmem
      · exact hmem
      · exact absurd (hs.isFull a hmem) hfull
    by_cases hne : s.list = a
    · have heq :
          s.moveToFront a = s := by rw [moveToFront, if_neg hfull, if_neg (not_not_intro hne)]
      rw [heq]
      exact ⟨free, full, hl, .refl _ _, rfl, hs.slabs, hmem, fun _ hb _ => hb, fun _ hb => hb⟩
    · -- from its place in the list of those with free slots
      have hback := hl.onFree.back_ne_null hmem (Ne.symm hne)
      obtain ⟨l₁, l₂, rfl⟩ := List.append_of_mem hmem
      obtain ⟨hl₁, hr₁⟩ := hl.unlinkList hback
      have hperm : (l₁ ++ a :: l₂ ++ full).Perm (a :: (l₁ ++ l₂ ++ full)) := by
        rw [← List.cons_append]
        exact List.perm_middle.append_right full
      have hout : a ∉ l₁ ++ l₂ ++ full := (List.nodup_cons.1 (hperm.nodup_iff.1 hnodup)).1
      obtain ⟨hl₂, hr₂⟩ := hl₁.pushList hlist hout (hs.ne_null ha)
      have heq : s.moveToFront a = (s.unlinkList a).pushList a := by
        rw [moveToFront, if_neg hfull, if_pos hne]
      have hsub : ∀ b ∈ l₁ ++ l₂, b ∈ l₁ ++ a :: l₂ :=
        fun b hb => List.perm_middle.mem_iff.2 (List.mem_cons_of_mem _ hb)
      rw [heq]
      refine ⟨a :: (l₁ ++ l₂), full, hl₂,
        (hr₁.mono fun b hb => hs.mem_free (hsub b hb)).trans (hr₂.mono fun b hb => ?_), rfl,
        hperm.symm.trans hs.slabs, by simp,
        fun b hb hba => hsub b ((List.mem_cons.1 hb).resolve_left hba), fun _ hb => hb⟩
      rcases List.mem_cons.1 hb with rfl | hb
      · exact ha
      · exact hs.mem_free (hsub b hb)

/-- A slot is returned: it alone is in use no more, and the slabs are
placed as they should be. -/
theorem freeLine_spec (hs : Placed L h s free full) (ha : a ∈ s.slabs) (hk : k < L.numSlots) :
    (∃ free full, Placed L h (s.freeLine L (L.slot a k)) free full) ∧
    (s.freeLine L (L.slot a k)).slabs = s.slabs ∧
      (∀ q, (s.freeLine L (L.slot a k)).InUse L q ↔ q ≠ L.slot a k ∧ s.InUse L q) ∧
      ∀ b, b ∉ s.slabs → (s.freeLine L (L.slot a k)).mem b = s.mem b := by
  obtain ⟨free', full', hl, hr, hslabs, hperm, hmem, hfree, hfull⟩ := moveToFront_spec hs ha
  have hpadded : L.Padded ((s.moveToFront a).mem a).usedMap := by
    rw [hr.usedMap]
    exact hs.padded a ha
  obtain ⟨ws, hret, hpad, hws⟩ := SlabLayout.returnLine_spec hpadded hk a
  have heq : s.freeLine L (L.slot a k) =
      { s.moveToFront a with
        mem := (s.moveToFront a).mem.put a { (s.moveToFront a).mem a with usedMap := ws } } := by
    rw [freeLine, L.page_slot hk, hret]
  have hself :
      (s.freeLine L (L.slot a k)).mem a = { (s.moveToFront a).mem a with usedMap := ws } := by
    rw [heq]
    exact PageMem.put_self ..
  have hothers :
      ∀ b, b ≠ a → (s.freeLine L (L.slot a k)).mem b = (s.moveToFront a).mem b := fun b hb => by
    rw [heq]
    exact PageMem.put_of_ne _ _ hb
  have hslabs' : (s.freeLine L (L.slot a k)).slabs = s.slabs := by
    rw [heq]
    exact hslabs
  have hl' : Lists (s.freeLine L (L.slot a k)) free' full' := by
    rw [heq]
    exact hl.put rfl rfl
  generalize s.freeLine L (L.slot a k) = s' at *
  -- the bits, of that slab and of the others
  have hbits :
      ∀ b i, bit (s'.mem b).usedMap i = (bit (s.mem b).usedMap i && !decide (b = a ∧ i = k)) := by
    intro b i
    by_cases hb : b = a
    · rw [hb, hself, hws, hr.usedMap]
      simp
    · rw [hothers b hb, hr.usedMap, decide_eq_false fun h => hb h.1]
      simp
  have hpadded' : ∀ b ∈ s.slabs, L.Padded (s'.mem b).usedMap := fun b hb => by
    by_cases hba : b = a
    · rw [hba, hself]
      exact hpad
    · rw [hothers b hba, hr.usedMap]
      exact hs.padded b hb
  refine ⟨⟨free', full', hl', hslabs' ▸ hperm, List.ne_nil_of_mem hmem, fun b hb => ?_,
      fun b hb => ?_,
    fun b hb => hpadded' b (hslabs' ▸ hb), fun b hb => ?_⟩, hslabs', fun q => ?_, fun b hb => ?_⟩
  · by_cases hba : b = a
    · rw [hba, ← Bool.not_eq_true, (hpadded' a ha).isFull_iff]
      intro hall
      have hset := hall k hk
      rw [hbits] at hset
      simp at hset
    · rw [hothers b hba, hr.isFull, hs.notFull b (hfree b hb hba)]
  · have hba : b ≠ a := fun heq => hl.apart a hmem (heq ▸ hb)
    rw [hothers b hba, hr.isFull, hs.isFull b (hfull b hb)]
  · rw [← hs.tag b (hslabs' ▸ hb), ← hr.tag b]
    by_cases hba : b = a
    · rw [hba, hself]
    · rw [hothers b hba]
  · constructor
    · intro hq
      obtain ⟨b, hb, i, hi, hset, rfl⟩ := hq
      rw [hbits, Bool.and_eq_true, Bool.not_eq_true', decide_eq_false_iff_not] at hset
      exact ⟨fun heq => hset.2 ((L.slot_inj hi hk).1 heq), b, hslabs' ▸ hb, i, hi, hset.1, rfl⟩
    · intro hq
      obtain ⟨hne, b, hb, i, hi, hset, rfl⟩ := hq
      refine ⟨b, hslabs' ▸ hb, i, hi, ?_, rfl⟩
      rw [hbits, hset, decide_eq_false fun h => hne (by rw [h.1, h.2])]
      rfl
  · have hba : b ≠ a := fun heq => hb (heq ▸ ha)
    rw [hothers b hba, hr.frame b hb]

end SlabLists

end Cilksan
