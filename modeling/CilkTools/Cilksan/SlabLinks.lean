/-
The lists of slabs: what each change of a link does to the two lists, and what
taking and returning a slot do to the lists and to the bit maps together.
-/
import CilkTools.Cilksan.Slabs

namespace Cilksan

open Bitmaps LinkedLists

variable {W : Type} {n : Nat}

namespace PageMem

variable (m : PageMem W n) (a p : PagePtr n) (x : Slab W n)

@[simp] theorem put_self : m.put a x a = x := Function.update_self ..

variable {a} in
theorem put_of_ne {b : PagePtr n} (hne : b ≠ a) : m.put a x b = m b := Function.update_of_ne hne ..

variable [HeadWord W n]

@[simp] theorem next_setNext : (m.setNext a p).next = Function.update m.next a p := by
  funext b
  by_cases hb : b = a
  · subst hb
    rw [Function.update_self, setNext, next, put_self, HeadWord.getNext_setNext]
  · rw [Function.update_of_ne hb, setNext, next, put_of_ne m _ hb, next]

@[simp] theorem back_setNext : (m.setNext a p).back = m.back := by
  funext b
  by_cases hb : b = a
  · subst hb
    rw [setNext, back, put_self, back]
  · rw [setNext, back, put_of_ne m _ hb, back]

@[simp] theorem next_setBack : (m.setBack a p).next = m.next := by
  funext b
  by_cases hb : b = a
  · subst hb
    rw [setBack, next, put_self, next]
  · rw [setBack, next, put_of_ne m _ hb, next]

omit [HeadWord W n] in
@[simp] theorem back_setBack : (m.setBack a p).back = Function.update m.back a p := by
  funext b
  by_cases hb : b = a
  · subst hb
    rw [Function.update_self, setBack, back, put_self]
  · rw [Function.update_of_ne hb, setBack, back, put_of_ne m _ hb, back]

variable {m a} in
/-- A new bit map leaves the links. -/
theorem next_put (hx : x.head = (m a).head) : (m.put a x).next = m.next := by
  funext b
  by_cases hb : b = a
  · subst hb
    rw [next, put_self, hx, next]
  · rw [next, put_of_ne m _ hb, next]

omit [HeadWord W n] in
variable {m a} in
theorem back_put (hx : x.back = (m a).back) : (m.put a x).back = m.back := by
  funext b
  by_cases hb : b = a
  · subst hb
    rw [back, put_self, hx, back]
  · rw [back, put_of_ne m _ hb, back]

/-- Nothing but links has changed, and only in the slabs `l`. -/
structure Relinked (m m' : PageMem W n) (l : List (PagePtr n)) : Prop where
  usedMap : ∀ a, (m' a).usedMap = (m a).usedMap
  tag : ∀ a, HeadWord.tag (m' a).head = HeadWord.tag (m a).head
  frame : ∀ a, a ∉ l → m' a = m a

namespace Relinked

variable {m m' m'' : PageMem W n} {a : PagePtr n} {l l' : List (PagePtr n)}

theorem refl (m : PageMem W n) (l : List (PagePtr n)) : Relinked m m l :=
  ⟨fun _ => rfl, fun _ => rfl, fun _ _ => rfl⟩

theorem trans (h : Relinked m m' l) (h' : Relinked m' m'' l) : Relinked m m'' l where
  usedMap a := (h'.usedMap a).trans (h.usedMap a)
  tag a := (h'.tag a).trans (h.tag a)
  frame a ha := (h'.frame a ha).trans (h.frame a ha)

theorem mono (h : Relinked m m' l) (hl : ∀ a ∈ l, a ∈ l') : Relinked m m' l' where
  usedMap := h.usedMap
  tag := h.tag
  frame a ha := h.frame a fun hmem => ha (hl a hmem)

theorem setNext (h : Relinked m m' l) (ha : a ∈ l) (p : PagePtr n) :
    Relinked m (m'.setNext a p) l := by
  refine h.trans ⟨fun b => ?_, fun b => ?_, fun b hb => put_of_ne _ _ fun heq => hb (heq ▸ ha)⟩
  all_goals
    by_cases hb : b = a
    · subst hb
      simp [PageMem.setNext, HeadWord.tag_setNext]
    · rw [PageMem.setNext, put_of_ne _ _ hb]

theorem setBack (h : Relinked m m' l) (ha : a ∈ l) (p : PagePtr n) :
    Relinked m (m'.setBack a p) l := by
  refine h.trans ⟨fun b => ?_, fun b => ?_, fun b hb => put_of_ne _ _ fun heq => hb (heq ▸ ha)⟩
  all_goals
    by_cases hb : b = a
    · subst hb
      simp [PageMem.setBack]
    · rw [PageMem.setBack, put_of_ne _ _ hb]

theorem isFull (h : Relinked m m' l) (a : PagePtr n) : (m' a).isFull = (m a).isFull := by
  rw [Slab.isFull, Slab.isFull, h.usedMap]

end Relinked

end PageMem

variable [HeadWord W n]

namespace SlabLists

/-- The slabs `free` and `full` are on the two lists, each on one of them. -/
structure Lists (s : SlabLists W n) (free full : List (PagePtr n)) : Prop where
  onFree : Linked s.mem.next s.mem.back .null s.list free
  onFull : Linked s.mem.next s.mem.back .null s.full full
  apart : ∀ a ∈ free, a ∉ full

section Writes

variable (s : SlabLists W n) (a b : PagePtr n)

@[simp] theorem next_unlinkNext : (s.unlinkNext a).mem.next = s.mem.next := by
  rw [unlinkNext]
  split <;> simp

theorem back_unlinkNext : (s.unlinkNext a).mem.back b =
    if s.mem.next a ≠ .null ∧ b = s.mem.next a then s.mem.back a else s.mem.back b := by
  rw [unlinkNext]
  split
  · next h => simp [h, Function.update_apply]
  · next h => simp [h]

theorem next_unlinkList :
    (s.unlinkList a).mem.next b = if b = s.mem.back a then s.mem.next a else s.mem.next b := by
  rw [unlinkList, next_unlinkNext, PageMem.next_setNext, Function.update_apply]

theorem back_unlinkList : (s.unlinkList a).mem.back b =
    if s.mem.next a ≠ .null ∧ b = s.mem.next a then s.mem.back a else s.mem.back b := by
  have hself : Function.update s.mem.next (s.mem.back a) (s.mem.next a) a = s.mem.next a := by
    rw [Function.update_apply, ite_self]
  rw [unlinkList, back_unlinkNext, PageMem.next_setNext, PageMem.back_setNext, hself]

theorem unlinkFull_of_back (hne : s.mem.back a ≠ .null) : s.unlinkFull a = s.unlinkList a := by
  rw [unlinkFull, if_pos hne]
  rfl

/-- The head of the list of full slabs moves on, if there is no predecessor. -/
theorem unlinkFull_of_null (hnull : s.mem.back a = .null) :
    s.unlinkFull a = unlinkNext { s with full := s.mem.next a } a := by
  rw [unlinkFull, if_neg (not_not_intro hnull)]

end Writes

namespace Lists

variable {s : SlabLists W n} {free full l₁ l₂ : List (PagePtr n)} {a b : PagePtr n}

theorem nodup (hl : Lists s free full) : (free ++ full).Nodup :=
  List.nodup_append.2 ⟨hl.onFree.nodup, hl.onFull.nodup,
    fun a ha _ hb heq => hl.apart a ha (heq ▸ hb)⟩

theorem ne_null (hl : Lists s free full) (ha : a ∈ free ++ full) : a ≠ .null := by
  rcases List.mem_append.1 ha with ha | ha
  · exact hl.onFree.ne_null ha
  · exact hl.onFull.ne_null ha

theorem pushList (hl : Lists s free full) (hlist : s.list ≠ .null) (ha : a ∉ free ++ full)
    (hne : a ≠ .null) :
    Lists (s.pushList a) (a :: free) full ∧
    PageMem.Relinked s.mem (s.pushList a).mem (a :: free) := by
  have hmem := hl.onFree.head_mem hlist
  have hfree : ∀ b ∈ free, b ≠ a := fun b hb heq => ha (List.mem_append_left _ (heq ▸ hb))
  have hfull : ∀ b ∈ full, b ≠ a := fun b hb heq => ha (List.mem_append_right _ (heq ▸ hb))
  have hnext :
      ∀ b, (s.pushList a).mem.next b = if b = a then s.list else s.mem.next b := fun b => by
    simp [SlabLists.pushList, Function.update_apply]
  have hback : ∀ b, (s.pushList a).mem.back b = if b = s.list then a else if b =
      a then .null else s.mem.back b := fun b => by
    simp [SlabLists.pushList, Function.update_apply]
  refine ⟨⟨?_, ?_, fun b hb => ?_⟩, ?_⟩
  · show Linked _ _ _ a (a :: free)
    refine hl.onFree.push (fun h => hfree a h rfl) hne ?_ ?_ (fun _ => ?_)
      (fun b hb => ?_) fun b hb hbl => ?_
    · rw [hnext, if_pos rfl]
    · rw [hback, if_neg (hfree _ hmem).symm, if_pos rfl]
    · rw [hback, if_pos rfl]
    · rw [hnext, if_neg (hfree b hb)]
    · rw [hback, if_neg hbl, if_neg (hfree b hb)]
  · refine hl.onFull.congr (fun b hb => ?_) fun b hb => ?_
    · rw [hnext, if_neg (hfull b hb)]
    · rw [hback, if_neg, if_neg (hfull b hb)]
      intro heq
      exact hl.apart _ hmem (heq ▸ hb)
  · rcases List.mem_cons.1 hb with rfl | hb
    · exact fun h => hfull b h rfl
    · exact hl.apart b hb
  · exact (((PageMem.Relinked.refl s.mem _).setBack (by simp) _).setNext (by simp) _).setBack
      (by simp [hmem]) _

theorem pushFull (hl : Lists s free full) (ha : a ∉ free ++ full) (hne : a ≠ .null)
    (hnull : s.mem.back a = .null) :
    Lists (s.pushFull a) free (a :: full) ∧
    PageMem.Relinked s.mem (s.pushFull a).mem (a :: full) := by
  have hfree : ∀ b ∈ free, b ≠ a := fun b hb heq => ha (List.mem_append_left _ (heq ▸ hb))
  have hfull : ∀ b ∈ full, b ≠ a := fun b hb heq => ha (List.mem_append_right _ (heq ▸ hb))
  have hnext :
      ∀ b, (s.pushFull a).mem.next b = if b = a then s.full else s.mem.next b := fun b => by
    rw [SlabLists.pushFull]
    split <;> simp [Function.update_apply]
  have hback : ∀ b, (s.pushFull a).mem.back b = if s.full ≠ .null ∧
      b = s.full then a else s.mem.back b := fun b => by
    rw [SlabLists.pushFull]
    split
    · next h => simp [h, Function.update_apply]
    · next h => simp [h]
  refine ⟨⟨?_, ?_, fun b hb hmem => ?_⟩, ?_⟩
  · refine hl.onFree.congr (fun b hb => ?_) fun b hb => ?_
    · rw [hnext, if_neg (hfree b hb)]
    · rw [hback, if_neg]
      intro h
      exact hl.apart b hb (h.2 ▸ hl.onFull.head_mem h.1)
  · show Linked _ _ _ a (a :: full)
    refine hl.onFull.push (fun h => hfull a h rfl) hne ?_ ?_ (fun h => ?_)
      (fun b hb => ?_) fun b hb hbl => ?_
    · rw [hnext, if_pos rfl]
    · rw [hback, if_neg, hnull]
      intro h
      exact hfull _ (hl.onFull.head_mem h.1) h.2.symm
    · rw [hback, if_pos ⟨h, rfl⟩]
    · rw [hnext, if_neg (hfull b hb)]
    · rw [hback, if_neg fun h => hbl h.2]
  · rcases List.mem_cons.1 hmem with rfl | hmem
    · exact hfree b hb rfl
    · exact hl.apart b hb hmem
  · have hset := (PageMem.Relinked.refl s.mem (a :: full)).setNext (by simp) s.full (a := a)
    rw [SlabLists.pushFull]
    split
    · next h => exact hset.setBack (List.mem_cons_of_mem _ (hl.onFull.head_mem h)) _
    · exact hset

theorem unlinkNext_relinked (s : SlabLists W n) {l : List (PagePtr n)}
    (hnext : s.mem.next a ≠ .null → s.mem.next a ∈ l) :
    PageMem.Relinked s.mem (s.unlinkNext a).mem l := by
  rw [unlinkNext]
  split
  · next h => exact (PageMem.Relinked.refl s.mem l).setBack (hnext h) _
  · exact .refl s.mem l

theorem unlinkList_relinked (s : SlabLists W n) {l : List (PagePtr n)} (hback : s.mem.back a ∈ l)
    (hnext : s.mem.next a ≠ .null → s.mem.next a ∈ l) :
    PageMem.Relinked s.mem (s.unlinkList a).mem l := by
  have hset := (PageMem.Relinked.refl s.mem l).setNext hback (s.mem.next a)
  refine hset.trans
    (unlinkNext_relinked { s with mem := s.mem.setNext (s.mem.back a) (s.mem.next a) } fun h => ?_)
  rw [PageMem.next_setNext, Function.update_apply, ite_self] at h ⊢
  exact hnext h

theorem next_mem {m : PageMem W n} (hl : Linked m.next m.back .null b (l₁ ++ a :: l₂))
    (hne : m.next a ≠ .null) : m.next a ∈ l₁ ++ l₂ :=
  List.mem_append_right _ (hl.next_mem.resolve_right fun h => hne h.2)

theorem back_mem {m : PageMem W n} (hl : Linked m.next m.back .null b (l₁ ++ a :: l₂))
    (hne : m.back a ≠ .null) : m.back a ∈ l₁ ++ l₂ :=
  List.mem_append_left _ (hl.back_mem.resolve_right fun h => hne h.2)

/-- A slab that is not the first is taken out of its list: of that with free
slots, or, the other way round, of that of the full ones. -/
theorem unlink_links {m m' : PageMem W n} {p q : PagePtr n} {l : List (PagePtr n)}
    (hnext : ∀ b, m'.next b = if b = m.back a then m.next a else m.next b)
    (hback : ∀ b, m'.back b = if m.next a ≠ .null ∧ b = m.next a then m.back a else m.back b)
    (hne : m.back a ≠ .null)
    (hl : Linked m.next m.back .null p (l₁ ++ a :: l₂)) (hq : Linked m.next m.back .null q l)
    (happ : ∀ b ∈ l₁ ++ a :: l₂, b ∉ l) :
    Linked m'.next m'.back .null p (l₁ ++ l₂) ∧ Linked m'.next m'.back .null q l := by
  have hsub : ∀ b ∈ l₁ ++ l₂, b ∈ l₁ ++ a :: l₂ :=
    fun b hmem => List.perm_middle.mem_iff.2 (List.mem_cons_of_mem _ hmem)
  refine ⟨?_, ?_⟩
  · refine hl.unlink (fun _ => ⟨?_, rfl⟩) (fun h => absurd h hne) (fun h => ?_)
      (fun b _ hb => ?_) fun b _ hb => ?_
    · rw [hnext, if_pos rfl]
    · rw [hback, if_pos ⟨h, rfl⟩]
    · rw [hnext, if_neg hb]
    · rw [hback, if_neg fun h => hb h.2]
  · refine hq.congr (fun b hmem => ?_) fun b hmem => ?_
    · rw [hnext, if_neg]
      intro heq
      exact happ _ (hsub _ (back_mem hl hne)) (heq ▸ hmem)
    · rw [hback, if_neg]
      intro h
      exact happ _ (hsub _ (next_mem hl h.1)) (h.2 ▸ hmem)

theorem unlinkList (hl : Lists s (l₁ ++ a :: l₂) full) (hne : s.mem.back a ≠ .null) :
    Lists (s.unlinkList a) (l₁ ++ l₂) full ∧
    PageMem.Relinked s.mem (s.unlinkList a).mem (l₁ ++ l₂) := by
  obtain ⟨hfree, hfull⟩ :=
    unlink_links (s.next_unlinkList a) (s.back_unlinkList a) hne hl.onFree hl.onFull hl.apart
  refine ⟨⟨hfree, hfull, fun b hmem => hl.apart b ?_⟩,
    unlinkList_relinked s (back_mem hl.onFree hne) (next_mem hl.onFree)⟩
  exact List.perm_middle.mem_iff.2 (List.mem_cons_of_mem _ hmem)

theorem unlinkFull (hl : Lists s free (l₁ ++ a :: l₂)) : Lists (s.unlinkFull a) free (l₁ ++ l₂) ∧
    PageMem.Relinked s.mem (s.unlinkFull a).mem (l₁ ++ l₂) ∧ (s.unlinkFull a).list = s.list ∧
    (s.unlinkFull a).slabs = s.slabs := by
  have hsub : ∀ b ∈ l₁ ++ l₂, b ∈ l₁ ++ a :: l₂ :=
    fun b hmem => List.perm_middle.mem_iff.2 (List.mem_cons_of_mem _ hmem)
  have happ : ∀ b ∈ free, b ∉ l₁ ++ l₂ := fun b hb hmem => hl.apart b hb (hsub b hmem)
  by_cases hne : s.mem.back a = .null
  · -- the first of the list
    rw [unlinkFull_of_null s a hne]
    have hb := back_unlinkNext { s with full := s.mem.next a } a
    refine ⟨⟨?_, ?_, happ⟩, unlinkNext_relinked { s with full := s.mem.next a }
      (next_mem hl.onFull), rfl, rfl⟩
    · refine hl.onFree.congr (fun b _ => by rw [next_unlinkNext]) fun b hmem => ?_
      rw [hb, if_neg]
      intro h
      exact happ b hmem (h.2 ▸ next_mem hl.onFull h.1)
    · refine hl.onFull.unlink (fun h => absurd hne h) (fun _ => rfl) (fun h => ?_)
        (fun b _ _ => by rw [next_unlinkNext]) fun b _ hbn => ?_
      · rw [hb, if_pos ⟨h, rfl⟩]
      · rw [hb, if_neg fun h => hbn h.2]
  · rw [unlinkFull_of_back s a hne]
    obtain ⟨hfull, hfree⟩ :=
      unlink_links (s.next_unlinkList a) (s.back_unlinkList a) hne hl.onFull hl.onFree
        fun b hb hmem => hl.apart b hmem hb
    exact ⟨⟨hfree, hfull, happ⟩, unlinkList_relinked s (back_mem hl.onFull hne)
      (next_mem hl.onFull), rfl, rfl⟩

/-- The first slab is passed over, for the next one or for a new one. -/
theorem advance (hl : Lists s (a :: l₁) full) (L : SlabLayout n) {h : W}
    (hh : HeadWord.getNext h = .null)
    (hb : b ∉ a :: l₁ ++ full) (hne : b ≠ .null) :
    ∃ free, free ≠ [] ∧ Lists (s.advance L h a b) free full ∧ a ∉ free ∧
      (s.advance L h a b).mem.back a = .null ∧
      ((free = l₁ ∧ (s.advance L h a b).slabs = s.slabs ∧
        PageMem.Relinked s.mem (s.advance L h a b).mem l₁) ∨
        (free = b :: l₁ ∧ (s.advance L h a b).slabs = b :: s.slabs ∧
          (s.advance L h a b).mem = s.mem.put b (L.construct h))) := by
  have hfirst : Linked s.mem.next s.mem.back .null s.list ([] ++ a :: l₁) := hl.onFree
  have ha : a ∉ l₁ := (List.nodup_cons.1 hl.onFree.nodup).1
  have hnull : s.mem.back a = .null := by
    obtain ⟨last, hseg⟩ := hl.onFree.links
    exact hseg.2.1
  by_cases hnext : s.mem.next a = .null
  · have hnil : l₁ = [] := by
      rcases hfirst.next_mem with hmem | ⟨hnil, -⟩
      · exact absurd hnext (hl.onFree.ne_null (List.mem_cons_of_mem _ hmem))
      · exact hnil
    have heq : s.advance L h a b = s.newSlab L h b := if_pos hnext
    have hab : a ≠ b := fun heq => hb (by simp [heq])
    have hfull : ∀ c ∈ full, c ≠ b := fun c hc heq => hb (by simp [← heq, hc])
    subst hnil
    rw [heq]
    refine ⟨[b], by simp, ⟨?_, ?_, fun c hc hmem => ?_⟩, ?_, ?_, .inr ⟨rfl, rfl, rfl⟩⟩
    · refine (Linked.nil s.mem.next s.mem.back .null).push (by simp) hne ?_ ?_ (absurd rfl)
        (by simp) (by simp)
      · show HeadWord.getNext (s.mem.put b (L.construct h) b).head = _
        rw [PageMem.put_self]
        exact hh
      · show (s.mem.put b (L.construct h) b).back = _
        rw [PageMem.put_self]
        rfl
    · refine hl.onFull.congr (fun c hc => ?_) fun c hc => ?_
      · show HeadWord.getNext (s.mem.put b (L.construct h) c).head = _
        rw [PageMem.put_of_ne _ _ (hfull c hc)]
        rfl
      · show (s.mem.put b (L.construct h) c).back = _
        rw [PageMem.put_of_ne _ _ (hfull c hc)]
        rfl
    · exact hfull c hmem (List.mem_singleton.1 hc)
    · exact fun hmem => hab (List.mem_singleton.1 hmem)
    · show (s.mem.put b (L.construct h) a).back = _
      rw [PageMem.put_of_ne _ _ hab]
      exact hnull
  · have hmem : s.mem.next a ∈ l₁ := next_mem hfirst hnext
    have heq : s.advance L h a b =
        { s with
          mem := s.mem.setBack (s.mem.next a) .null
          list := (s.mem.setBack (s.mem.next a) .null).next a } := if_neg hnext
    have hself : a ≠ s.mem.next a := fun heq => ha (heq ▸ hmem)
    rw [heq]
    refine ⟨l₁, List.ne_nil_of_mem hmem,
      ⟨?_, ?_, fun c hc => hl.apart c (List.mem_cons_of_mem _ hc)⟩, ha, ?_,
      .inl ⟨rfl, rfl, (PageMem.Relinked.refl s.mem l₁).setBack hmem _⟩⟩
    · simp only [PageMem.next_setBack, PageMem.back_setBack]
      refine hfirst.unlink (fun h => absurd hnull h) (fun _ => rfl) (fun _ => ?_)
        (fun _ _ _ => rfl) fun c _ hc => ?_
      · rw [Function.update_self, hnull]
      · rw [Function.update_of_ne hc]
    · simp only [PageMem.next_setBack, PageMem.back_setBack]
      refine hl.onFull.congr (fun _ _ => rfl) fun c hc => ?_
      rw [Function.update_of_ne]
      exact fun heq => hl.apart _ (List.mem_cons_of_mem _ hmem) (heq ▸ hc)
    · simp only [PageMem.back_setBack]
      rw [Function.update_of_ne hself, hnull]

end Lists

end SlabLists

end Cilksan
