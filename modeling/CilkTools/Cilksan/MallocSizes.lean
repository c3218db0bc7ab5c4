/-
The allocation hooks (`driver.cpp`): the sizes of the blocks that are
allocated, and the ranges of memory that are cleared or recorded as freed.

The hooks run after the allocation function itself. What they do to the
shadow memory is given by the calls they make of it.
-/
import CilkTools.Cilksan.AddrMap

namespace Cilksan

/-- The access types of the recorded frees. -/
inductive FreeType
  | free
  | realloc
  deriving DecidableEq, Repr

/-- The calls of `CilkSanImpl_t` on ranges of memory, and of the table of
allocations. -/
inductive RangeCall
  | recordAlloc (start size id : Nat)
  | clearAlloc (start size : Nat)
  | clearShadowMemory (start size : Nat)
  | recordFree (addr size accId : Nat) (type : FreeType)
  deriving DecidableEq, Repr

/-- Whether the tool is checking, and whether the program runs in parallel. -/
structure CheckState where
  shouldCheck : Bool
  isExecutionParallel : Bool
  deriving DecidableEq, Repr

/-- `malloc_sizes`, and the calls made so far, the last first. -/
structure AllocState where
  mallocSizes : AddrMap Nat
  calls : List RangeCall

namespace AllocState

def empty : AllocState := ⟨.empty, []⟩

def call (t : AllocState) (c : RangeCall) : AllocState := { t with calls := c :: t.calls }

def recordAlloc (t : AllocState) (start size id : Nat) : AllocState :=
  if size = 0 then t else t.call (.recordAlloc start size id)

def clearAlloc (t : AllocState) (start size : Nat) : AllocState :=
  if size = 0 then t else t.call (.clearAlloc start size)

def clearShadowMemory (t : AllocState) (start size : Nat) : AllocState :=
  if size = 0 then t else t.call (.clearShadowMemory start size)

def recordFree (t : AllocState) (addr size accId : Nat) (type : FreeType) : AllocState :=
  if size = 0 then t else t.call (.recordFree addr size accId type)

def insert (t : AllocState) (addr size : Nat) : AllocState :=
  { t with mallocSizes := t.mallocSizes.insert addr size }

def remove (t : AllocState) (addr : Nat) : AllocState :=
  { t with mallocSizes := t.mallocSizes.remove addr }

/-- `*size`. -/
def deref (t : AllocState) (size : Option Nat) : Option Nat := do t.mallocSizes.deref (← size)

/-- A freed range is cleared where nothing runs in parallel with the free. -/
def clearOrRecord (t : AllocState) (s : CheckState) (addr size id : Nat)
    (type : FreeType) : AllocState :=
  if !s.shouldCheck || !s.isExecutionParallel then
    (t.clearAlloc addr size).clearShadowMemory addr size
  else t.recordFree addr size id type

/-- `__csan_after_allocfn`. Sizes are 64 bits wide. -/
def afterAllocfn (t : AllocState) (s : CheckState) (id addr size num oldaddr : Nat) :
    Option AllocState := do
  let newSize := size * num % 2 ^ 64
  if oldaddr ≠ 0 then
    let size := t.mallocSizes.get oldaddr
    if oldaddr ≠ addr then
      let t :=
        if newSize > 0 then
          ((t.recordAlloc addr newSize (2 * id + 1)).clearShadowMemory addr
            newSize).insert addr newSize
        else t
      if t.mallocSizes.contains oldaddr then
        let t := t.clearOrRecord s oldaddr (← t.deref size) id .realloc
        return t.remove oldaddr
      else return t
    else if t.mallocSizes.contains oldaddr then
      let oldSize ← t.deref size
      let t :=
        if oldSize < newSize then t.clearShadowMemory (addr + oldSize) (newSize - oldSize)
        else if oldSize > newSize then
          t.clearOrRecord s (oldaddr + newSize) (oldSize - newSize) id .realloc
        else t
      return ((t.recordAlloc addr newSize (2 * id + 1)).remove addr).insert addr newSize
    else
      return ((t.recordAlloc addr newSize (2 * id + 1)).clearShadowMemory addr
        newSize).insert addr newSize
  else if size = 0 then return t
  else return ((t.insert addr newSize).recordAlloc addr newSize
    (2 * id + 1)).clearShadowMemory addr newSize

/-- `mark_free`: no race detection on this free. -/
def markFree (t : AllocState) (ptr : Nat) : Option AllocState := do
  let size := t.mallocSizes.get ptr
  if t.mallocSizes.contains ptr then
    let t := t.clearAlloc ptr (← t.deref size)
    return t.clearShadowMemory ptr (← t.deref size)
  else return t

/-- `__csan_after_free`. -/
def afterFree (t : AllocState) (s : CheckState) (id ptr : Nat) : Option AllocState := do
  if !s.shouldCheck then t.markFree ptr
  else
    let size := t.mallocSizes.get ptr
    if t.mallocSizes.contains ptr then
      let t := t.clearOrRecord s ptr (← t.deref size) id .free
      return t.remove ptr
    else return t

end AllocState

/-! ## Runs -/

/-- The calls of the program that return, `malloc` and `calloc` being one. -/
inductive HeapCall
  | malloc (addr size num : Nat)
  | realloc (oldaddr addr size num : Nat)
  | free (ptr : Nat)
  deriving DecidableEq, Repr

/-- A call, its instruction and the state of the tool it is made in. -/
structure HeapStep where
  call : HeapCall
  id : Nat
  state : CheckState
  deriving DecidableEq, Repr

/-- The sizes of the allocated blocks, by their start addresses. -/
abbrev Blocks := Nat → Option Nat

/-- A new block may start at `addr`: user addresses have 48 bits. -/
def Blocks.Fits (l : Blocks) (addr size num : Nat) : Prop :=
  0 < addr ∧ addr < 2 ^ 48 ∧ 0 < size * num ∧ size * num < 2 ^ 64 ∧ l addr = none

/-- What the allocator may do. -/
inductive Blocks.Step : Blocks → HeapCall → Blocks → Prop
  | malloc {l : Blocks} {addr size num : Nat} (h : l.Fits addr size num) :
    Step l (.malloc addr size num) (Function.update l addr (some (size * num)))
  | resize {l : Blocks} {addr size num old : Nat} (hold : l addr = some old) (h : 0 < size * num)
    (h' : size * num < 2 ^ 64) :
    Step l (.realloc addr addr size num) (Function.update l addr (some (size * num)))
  | move {l : Blocks} {oldaddr addr size num old : Nat} (hold : l oldaddr = some old)
    (h : l.Fits addr size num) :
    Step l (.realloc oldaddr addr size num)
      (Function.update (Function.update l oldaddr none) addr (some (size * num)))
  | free {l : Blocks} {ptr old : Nat} (hold : l ptr = some old) :
    Step l (.free ptr) (Function.update l ptr none)
  | freeNull {l : Blocks} : Step l (.free 0) l

/-- The hook of a call. -/
def AllocState.step (t : AllocState) (o : HeapStep) : Option AllocState :=
  match o.call with
  | .malloc addr size num => t.afterAllocfn o.state o.id addr size num 0
  | .realloc oldaddr addr size num => t.afterAllocfn o.state o.id addr size num oldaddr
  | .free ptr => t.afterFree o.state o.id ptr

/-- The allocated blocks and the tool after some calls, the last one first. -/
inductive HeapRun : List HeapStep → Blocks → AllocState → Prop
  | init : HeapRun [] (fun _ => none) .empty
  | step {ops : List HeapStep} {o : HeapStep} {l l' : Blocks} {t t' : AllocState}
    (h : HeapRun ops l t)
    (hl : Blocks.Step l o.call l') (ht : t.step o = some t') : HeapRun (o :: ops) l' t'

/-- The block at `a` was last freed while the tool was not checking. -/
def FreedUnchecked : List HeapStep → Nat → Bool
  | [], _ => false
  | o :: ops, a =>
    match o.call with
    | .malloc addr _ _ => a != addr && FreedUnchecked ops a
    | .realloc oldaddr addr _ _ => a != oldaddr && a != addr && FreedUnchecked ops a
    | .free ptr => if a = ptr ∧ ptr ≠ 0 then !o.state.shouldCheck else FreedUnchecked ops a

/-- What the map knows of the blocks: all that are allocated, and besides
these the ones freed unchecked. -/
structure Tracked (stale : Nat → Bool) (l : Blocks) (m : AddrMap Nat) : Prop where
  live : ∀ a, stale a = false → m.lookup a = l a
  freed : ∀ a, stale a = true → l a = none ∧ (m.lookup a).isSome
  null : l 0 = none ∧ stale 0 = false
  size : ∀ a n, l a = some n → 0 < n

namespace AllocState

variable (t : AllocState) (s : CheckState) (a n id : Nat)

@[simp] theorem mallocSizes_recordAlloc : (t.recordAlloc a n id).mallocSizes = t.mallocSizes := by
  unfold recordAlloc; split <;> rfl

@[simp] theorem mallocSizes_clearAlloc : (t.clearAlloc a n).mallocSizes = t.mallocSizes := by
  unfold clearAlloc; split <;> rfl

@[simp] theorem mallocSizes_clearShadowMemory :
    (t.clearShadowMemory a n).mallocSizes = t.mallocSizes := by
  unfold clearShadowMemory; split <;> rfl

@[simp] theorem mallocSizes_recordFree (type : FreeType) :
    (t.recordFree a n id type).mallocSizes = t.mallocSizes := by
  unfold recordFree; split <;> rfl

@[simp] theorem mallocSizes_clearOrRecord (type : FreeType) :
    (t.clearOrRecord s a n id type).mallocSizes = t.mallocSizes := by
  unfold clearOrRecord; split <;> simp

@[simp] theorem mallocSizes_insert : (t.insert a n).mallocSizes = t.mallocSizes.insert a n := rfl

@[simp] theorem mallocSizes_remove : (t.remove a).mallocSizes = t.mallocSizes.remove a := rfl

variable {t s a n id}

theorem deref_get {m : AllocState} (h : m.mallocSizes = t.mallocSizes)
    (hn : t.mallocSizes.lookup a = some n) : m.deref (t.mallocSizes.get a) = some n := by
  rw [← hn, deref, h]
  rfl

theorem contains_of_lookup (hn : t.mallocSizes.lookup a = some n) :
    t.mallocSizes.contains a = true := by
  rw [← AddrMap.isSome_lookup, hn]
  rfl

/-! ## The hooks on blocks -/

variable (s id)

theorem afterAllocfn_malloc {addr size num : Nat} (h : 0 < size * num) (h' : size * num < 2 ^ 64) :
    ∃ t', t.afterAllocfn s id addr size num 0 = some t' ∧
      ∀ a, t'.mallocSizes.lookup a = if a = addr then some (size * num)
      else t.mallocSizes.lookup a := by
  have hsize : size ≠ 0 := by
    intro h0
    rw [h0, Nat.zero_mul] at h
    omega
  simp only [afterAllocfn, ne_eq, not_true_eq_false, if_false, hsize, Nat.mod_eq_of_lt h']
  exact ⟨_, rfl, fun a => by simp [AddrMap.lookup_insert]⟩

theorem afterAllocfn_move {oldaddr addr size num old : Nat} (h : 0 < size * num)
    (h' : size * num < 2 ^ 64)
    (h0 : oldaddr ≠ 0) (hne : oldaddr ≠ addr) (hold : t.mallocSizes.lookup oldaddr = some old) :
    ∃ t', t.afterAllocfn s id addr size num oldaddr = some t' ∧
      ∀ a, t'.mallocSizes.lookup a =
        if a = oldaddr then none else if a = addr then some (size * num)
            else t.mallocSizes.lookup a := by
  have hc := contains_of_lookup hold
  have hc' : (t.mallocSizes.insert addr (size * num)).contains oldaddr = true := by
    rw [← AddrMap.isSome_lookup, AddrMap.lookup_insert, if_neg hne, hold]
    rfl
  -- The pointer taken before the insertion still points to the old size.
  have hderef : ∀ m : AllocState, m.mallocSizes = t.mallocSizes.insert addr (size * num) →
      m.deref (t.mallocSizes.get oldaddr) = some old := by
    intro m hm
    rw [AddrMap.get_eq, if_pos hc]
    simp only [deref, hm, Option.bind_eq_bind, Option.bind_some, AddrMap.deref_insert _ hne _ hc]
    rw [AddrMap.lookup_eq, if_pos hc] at hold
    exact hold
  simp only [afterAllocfn, ne_eq, h0, hne, not_false_eq_true, if_true,
    Nat.mod_eq_of_lt h', gt_iff_lt, h,
    mallocSizes_insert, mallocSizes_clearShadowMemory, mallocSizes_recordAlloc, hc', hderef,
    Option.bind_eq_bind, Option.bind_some]
  exact ⟨_, rfl, fun a => by simp [AddrMap.lookup_insert, AddrMap.lookup_remove]⟩

theorem afterAllocfn_resize {addr size num old : Nat} (h' : size * num < 2 ^ 64)
    (h0 : addr ≠ 0) (hold : t.mallocSizes.lookup addr = some old) :
    ∃ t', t.afterAllocfn s id addr size num addr = some t' ∧
      ∀ a, t'.mallocSizes.lookup a = if a = addr then some (size * num)
      else t.mallocSizes.lookup a := by
  have hc := contains_of_lookup hold
  simp only [afterAllocfn, ne_eq, h0, not_false_eq_true, not_true_eq_false, if_true, if_false,
    Nat.mod_eq_of_lt h', hc, deref_get rfl hold, Option.bind_eq_bind, Option.bind_some]
  refine ⟨_, rfl, fun a => ?_⟩
  have hsame : ∀ t₁ : AllocState, t₁.mallocSizes = t.mallocSizes →
      (((t₁.recordAlloc addr (size * num) (2 * id + 1)).remove addr).insert addr
        (size * num)).mallocSizes.lookup a =
        if a = addr then some (size * num) else t.mallocSizes.lookup a := by
    intro t₁ h₁
    rw [mallocSizes_insert, mallocSizes_remove, mallocSizes_recordAlloc, h₁, AddrMap.lookup_insert,
      AddrMap.lookup_remove]
    split <;> simp_all
  refine hsame _ ?_
  split
  · simp
  · split <;> simp

/-- The calls of a free, the last first. -/
def freeCalls (s : CheckState) (id ptr size : Nat) : List RangeCall :=
  if !s.shouldCheck || !s.isExecutionParallel then
    [.clearShadowMemory ptr size, .clearAlloc ptr size]
  else [.recordFree ptr size id .free]

theorem clearOrRecord_calls (hn : 0 < n) :
    (t.clearOrRecord s a n id .free).calls = freeCalls s id a n ++ t.calls := by
  have h0 : n ≠ 0 := by omega
  simp only [clearOrRecord, freeCalls]
  split <;> simp [clearAlloc, clearShadowMemory, recordFree, call, h0]

theorem afterFree_spec {ptr : Nat} (hn : 0 < n) (hold : t.mallocSizes.lookup ptr = some n) :
    ∃ t', t.afterFree s id ptr = some t' ∧ t'.calls = freeCalls s id ptr n ++ t.calls ∧
      ∀ a, t'.mallocSizes.lookup a =
        if a = ptr ∧ s.shouldCheck = true then none else t.mallocSizes.lookup a := by
  have hc := contains_of_lookup hold
  have h0 : n ≠ 0 := by omega
  cases hs : s.shouldCheck with
  | false =>
    simp only [afterFree, hs, Bool.not_false, if_true, markFree, hc, deref_get rfl hold,
      deref_get (mallocSizes_clearAlloc ..) hold, Option.bind_eq_bind, Option.bind_some]
    refine ⟨_, rfl, ?_, fun a => by simp⟩
    simp [clearAlloc, clearShadowMemory, call, h0, freeCalls, hs]
  | true =>
    simp only [afterFree, hs, Bool.not_true, Bool.false_eq_true, if_false, hc, if_true,
      deref_get rfl hold, Option.bind_eq_bind, Option.bind_some]
    exact ⟨_, rfl, clearOrRecord_calls s id hn, fun a => by simp [AddrMap.lookup_remove]⟩

/-- A free of a pointer the map does not have. -/
theorem afterFree_of_lookup_eq_none {ptr : Nat} (hn : t.mallocSizes.lookup ptr = none) :
    t.afterFree s id ptr = some t := by
  have hc : t.mallocSizes.contains ptr = false := by
    rw [← AddrMap.isSome_lookup, hn]
    rfl
  simp only [afterFree, markFree, hc, Bool.false_eq_true, if_false]
  split <;> rfl

end AllocState

/-! ## What the map knows -/

namespace Tracked

variable {stale : Nat → Bool} {l : Blocks} {m m' : AddrMap Nat} {addr n : Nat}

theorem congr {stale' : Nat → Bool} (h : Tracked stale l m) (he : ∀ a, stale' a = stale a) :
    Tracked stale' l m := by
  cases funext he
  exact h

theorem lookup (h : Tracked stale l m) (hn : l addr = some n) : m.lookup addr = some n := by
  cases hf : stale addr with
  | false => rw [h.live addr hf, hn]
  | true => rw [(h.freed addr hf).1] at hn; cases hn

/-- A block that begins at `addr`, whatever was known of that address. -/
theorem alloc (h : Tracked stale l m) (hn : 0 < n) (h0 : 0 < addr)
    (hm : ∀ a, m'.lookup a = if a = addr then some n else m.lookup a) :
    Tracked (fun a => a != addr && stale a) (Function.update l addr (some n)) m' where
  live a ha := by
    rw [hm]
    by_cases hne : a = addr
    · subst hne; simp
    · simpa [hne] using h.live a (by simpa [hne] using ha)
  freed a ha := by
    rw [Bool.and_eq_true, bne_iff_ne] at ha
    obtain ⟨hl, hc⟩ := h.freed a ha.2
    rw [hm, if_neg ha.1]
    exact ⟨by simpa [ha.1] using hl, hc⟩
  null := by
    have hne : (0 : Nat) ≠ addr := by omega
    exact ⟨by simpa [hne] using h.null.1, by simp [h.null.2]⟩
  size a k ha := by
    by_cases hne : a = addr
    · subst hne
      rw [Function.update_self] at ha
      cases ha
      exact hn
    · rw [Function.update_of_ne hne] at ha
      exact h.size a k ha

/-- A block that ends, its address being removed. -/
theorem remove (h : Tracked stale l m)
    (hm : ∀ a, m'.lookup a = if a = addr then none else m.lookup a) :
    Tracked (fun a => a != addr && stale a) (Function.update l addr none) m' where
  live a ha := by
    rw [hm]
    by_cases hne : a = addr
    · subst hne; simp
    · simpa [hne] using h.live a (by simpa [hne] using ha)
  freed a ha := by
    rw [Bool.and_eq_true, bne_iff_ne] at ha
    obtain ⟨hl, hc⟩ := h.freed a ha.2
    rw [hm, if_neg ha.1]
    exact ⟨by simpa [ha.1] using hl, hc⟩
  null := by
    refine ⟨?_, by simp [h.null.2]⟩
    by_cases hne : (0 : Nat) = addr
    · subst hne; simp
    · simpa [hne] using h.null.1
  size a k ha := by
    by_cases hne : a = addr
    · subst hne; simp at ha
    · rw [Function.update_of_ne hne] at ha
      exact h.size a k ha

/-- A block that ends, its address being left in the map. -/
theorem leave (h : Tracked stale l m) (hn : l addr = some n) (hm : ∀ a, m'.lookup a = m.lookup a) :
    Tracked (fun a => a == addr || stale a) (Function.update l addr none) m' where
  live a ha := by
    rw [Bool.or_eq_false_iff, beq_eq_false_iff_ne] at ha
    rw [hm]
    simpa [ha.1] using h.live a ha.2
  freed a ha := by
    rw [hm]
    by_cases hne : a = addr
    · subst hne
      rw [h.lookup hn]
      simp
    · simpa [hne] using h.freed a (by simpa [hne] using ha)
  null := by
    have hne : (0 : Nat) ≠ addr := by
      intro h0
      rw [← h0, h.null.1] at hn
      cases hn
    exact ⟨by simpa [hne] using h.null.1, by simp [hne, h.null.2]⟩
  size a k ha := by
    by_cases hne : a = addr
    · subst hne; simp at ha
    · rw [Function.update_of_ne hne] at ha
      exact h.size a k ha

end Tracked

open AllocState

/-- **One call.** Its hook returns, and the map knows of the blocks what it should. -/
theorem Tracked.step {ops : List HeapStep} {o : HeapStep} {l l' : Blocks} {t : AllocState}
    (h : Tracked (FreedUnchecked ops) l t.mallocSizes) (hl : Blocks.Step l o.call l') :
    ∃ t', t.step o = some t' ∧ Tracked (FreedUnchecked (o :: ops)) l' t'.mallocSizes := by
  obtain ⟨c, id, s⟩ := o
  simp only at hl
  have hpos : ∀ {a n}, l a = some n → a ≠ 0 := by
    intro a n hn h0
    rw [h0, h.null.1] at hn
    cases hn
  cases hl with
  | malloc hf =>
    obtain ⟨h0, _, hn, hn', _⟩ := hf
    obtain ⟨t', ht, hlook⟩ := afterAllocfn_malloc (t := t) s id hn hn'
    exact ⟨t', ht, h.alloc hn h0 hlook⟩
  | resize hold hn hn' =>
    obtain ⟨t', ht, hlook⟩ := afterAllocfn_resize s id hn' (hpos hold) (h.lookup hold)
    refine ⟨t', ht, (h.alloc hn (Nat.pos_of_ne_zero (hpos hold)) hlook).congr fun a => ?_⟩
    simp only [FreedUnchecked, Bool.and_self]
  | @move oldaddr addr _ _ _ hold hf =>
    obtain ⟨h0, _, hn, hn', hnone⟩ := hf
    have hne : oldaddr ≠ addr := by
      intro he
      rw [he, hnone] at hold
      cases hold
    obtain ⟨t', ht, hlook⟩ := afterAllocfn_move s id hn hn' (hpos hold) hne (h.lookup hold)
    -- The order of the insertion and the removal makes no difference.
    have hrem := h.remove (AddrMap.lookup_remove t.mallocSizes oldaddr)
    refine ⟨t', ht, (hrem.alloc hn h0 fun a => ?_).congr fun a => ?_⟩
    · rw [hlook, AddrMap.lookup_remove]
      by_cases ha : a = addr
      · subst ha; simp [hne.symm]
      · simp [ha]
    · simp only [FreedUnchecked, Bool.and_left_comm, Bool.and_assoc]
  | @free ptr old hold =>
    obtain ⟨t', ht, -, hlook⟩ := afterFree_spec s id (h.size _ _ hold) (h.lookup hold)
    have hp := hpos hold
    refine ⟨t', ht, ?_⟩
    cases hs : s.shouldCheck with
    | false =>
      simp only [hs, Bool.false_eq_true, and_false, if_false] at hlook
      refine (h.leave hold hlook).congr fun a => ?_
      by_cases ha : a = ptr <;> simp [FreedUnchecked, ha, hp, hs]
    | true =>
      simp only [hs, and_true] at hlook
      refine (h.remove hlook).congr fun a => ?_
      by_cases ha : a = ptr <;> simp [FreedUnchecked, ha, hp, hs]
  | freeNull =>
    refine ⟨t, afterFree_of_lookup_eq_none s id ?_, h.congr fun a => ?_⟩
    · rw [h.live 0 h.null.2, h.null.1]
    · simp [FreedUnchecked]

theorem HeapRun.tracked {ops : List HeapStep} {l : Blocks} {t : AllocState} (h : HeapRun ops l t) :
    Tracked (FreedUnchecked ops) l t.mallocSizes := by
  induction h with
  | init =>
    exact ⟨fun _ _ => rfl, fun _ ha => (Bool.false_ne_true ha).elim, ⟨rfl, rfl⟩,
      fun _ _ ha => by cases ha⟩
  | step _ hl ht ih =>
    obtain ⟨t', ht', h'⟩ := ih.step hl
    rw [ht] at ht'
    cases ht'
    exact h'

/-- Every call the allocator can make has a hook that returns. -/
theorem HeapRun.extend {ops : List HeapStep} {l l' : Blocks} {t : AllocState} (h : HeapRun ops l t)
    (o : HeapStep) (hl : Blocks.Step l o.call l') : ∃ t', HeapRun (o :: ops) l' t' := by
  obtain ⟨t', ht, -⟩ := h.tracked.step hl
  exact ⟨t', h.step hl ht⟩

/-- The map has the blocks that are allocated, with their sizes, and no others. -/
def Exact (l : Blocks) (t : AllocState) : Prop := ∀ a, t.mallocSizes.lookup a = l a

/-- The free of a block clears or records the block's own range. -/
def FreesExactly (l : Blocks) (t : AllocState) : Prop :=
  ∀ ptr n s id, l ptr = some n →
  ∃ t', t.afterFree s id ptr = some t' ∧ t'.calls = freeCalls s id ptr n ++ t.calls

/-- **`malloc_sizes` is the set of live blocks** exactly where no block was
last freed while the tool was not checking. -/
theorem mallocSizes_exact_iff {ops : List HeapStep} {l : Blocks} {t : AllocState}
    (h : HeapRun ops l t) : (Exact l t ∧ FreesExactly l t) ↔ ∀ a, FreedUnchecked ops a = false := by
  have ht := h.tracked
  constructor
  · intro ⟨hexact, _⟩ a
    cases hf : FreedUnchecked ops a with
    | false => rfl
    | true =>
      obtain ⟨hnone, hsome⟩ := ht.freed a hf
      rw [hexact a, hnone] at hsome
      cases hsome
  · intro hf
    refine ⟨fun a => ht.live a (hf a), fun ptr n s id hn => ?_⟩
    obtain ⟨t', hfree, hcalls, -⟩ := afterFree_spec s id (ht.size ptr n hn) (ht.lookup hn)
    exact ⟨t', hfree, hcalls⟩

/-- A block that is moved while the tool checks a parallel execution. -/
theorem mallocSizes_exact_iff_move :
    ∃ l t, HeapRun [⟨.realloc 4096 8192 24 1, 1, ⟨true, true⟩⟩,
      ⟨.malloc 4096 16 1, 0, ⟨true, false⟩⟩] l t ∧ Exact l t ∧ l 8192 = some 24 := by
  have h₁ : Blocks.Step (fun _ => none) (.malloc 4096 16 1)
    (Function.update (fun _ => none) 4096 (some 16)) :=
    .malloc ⟨by decide, by decide, by decide, by decide, rfl⟩
  have h₂ : Blocks.Step (Function.update (fun _ => none) 4096 (some 16)) (.realloc 4096 8192 24 1)
      (Function.update (Function.update (Function.update (fun _ => none) 4096 (some 16)) 4096 none)
        8192 (some 24)) :=
    .move rfl ⟨by decide, by decide, by decide, by decide, rfl⟩
  obtain ⟨t₁, hrun⟩ := HeapRun.init.extend ⟨_, 0, ⟨true, false⟩⟩ h₁
  obtain ⟨t₂, hrun⟩ := hrun.extend ⟨_, 1, ⟨true, true⟩⟩ h₂
  refine ⟨_, t₂, hrun, ((mallocSizes_exact_iff hrun).2 fun a => ?_).1, rfl⟩
  simp [FreedUnchecked]

/-- A block freed while the tool is not checking stays in the map. -/
theorem mallocSizes_free_unchecked :
    ∃ l t, HeapRun [⟨.free 4096, 1, ⟨false, false⟩⟩, ⟨.malloc 4096 16 1, 0, ⟨true, false⟩⟩] l t ∧
      l 4096 = none ∧ t.mallocSizes.contains 4096 = true ∧ ¬ Exact l t := by
  have h₁ : Blocks.Step (fun _ => none) (.malloc 4096 16 1)
    (Function.update (fun _ => none) 4096 (some 16)) :=
    .malloc ⟨by decide, by decide, by decide, by decide, rfl⟩
  have h₂ : Blocks.Step (Function.update (fun _ => none) 4096 (some 16)) (.free 4096)
      (Function.update (Function.update (fun _ => none) 4096 (some 16)) 4096 none) :=
    .free rfl
  obtain ⟨t₁, hrun⟩ := HeapRun.init.extend ⟨_, 0, ⟨true, false⟩⟩ h₁
  obtain ⟨t₂, hrun⟩ := hrun.extend ⟨_, 1, ⟨false, false⟩⟩ h₂
  have hc : t₂.mallocSizes.contains 4096 = true := by
    rw [← AddrMap.isSome_lookup]
    exact (hrun.tracked.freed 4096 (by decide)).2
  refine ⟨_, t₂, hrun, rfl, hc, fun hexact => ?_⟩
  have := hexact 4096
  rw [Function.update_self] at this
  rw [← AddrMap.isSome_lookup, this] at hc
  cases hc

end Cilksan
