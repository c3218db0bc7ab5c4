/-
Reducers keep their serial values. Whatever the schedule the hooks stand for,
the leftmost view of a reducer followed by its other views, from the bottom of
the stack of frames to the top, is the value it would have in series; where
nothing is left to be reduced, the leftmost view is.
-/
import CilkTools.Cilksan.ParallelMarks
import CilkTools.Cilksan.ViewHeap

namespace Cilksan

open HyperTable

/-! ## Frames and their tables -/

/-- Reducing the head's views into those of another frame carries no bucket
round the table they go to. -/
def ViewStack.MergeOk (hash : Key → Nat) (c : ViewStack ReducerViews) : Prop :=
  ∀ f ∈ c.frameStack.read c.frameStack.headPtr, f.parentContin > 0 →
    ∀ p ∈ c.frameStack.read (c.frameStack.ancestor f.parentContin), ∀ l ∈ p.reducerViews,
    ∀ r ∈ f.reducerViews,
      l.occupancy ≠ 0 → r.occupancy ≠ 0 →
        let leftDst : Bool := l.occupancy ≥ r.occupancy
        InsertsOk hash leftDst { dst := if leftDst then l else r }
          (if leftDst then r else l).scanned

/-- The frames on the stack, of which only those in a continuation have views,
and none above the head does; their tables are good. -/
structure Viewed (hash : Key → Nat) (c : ViewStack ReducerViews)
    (fs : List (ViewFrame ReducerViews))
    (ms : ViewStack.MarkStack) : Prop extends ViewStack.Traced c fs ms where
  spare : ∀ i, c.frameStack.head.toNat < i → (c.frameStack.stack i).reducerViews = none
  idle : ∀ f ∈ fs, f.inContinuation = false → f.reducerViews = none
  good : ∀ f ∈ fs, ∀ u ∈ f.reducerViews, Good hash u

/-- The tables of the frames. -/
def tables (fs : List (ViewFrame ReducerViews)) : List (Key → Option ReducerBase) :=
  fs.map fun f => held f.reducerViews

theorem tables_of_idle {fs : List (ViewFrame ReducerViews)} (h : ∀ f ∈ fs, f.reducerViews = none) :
    ∀ m ∈ tables fs, m = fun _ => none := fun m hm => by
  obtain ⟨f, hf, rfl⟩ := List.mem_map.1 hm
  rw [h f hf]
  rfl

/-- The frames above the nearest that is in a continuation, and those below. -/
theorem exists_nearest {T : Type} {fs : List (ViewFrame T)} {n : Nat}
    (h : fs.findIdx? (·.inContinuation) = some n) :
    ∃ mid p rest, fs = mid ++ p :: rest ∧ mid.length = n ∧ fs[n]? = some p ∧
    p.inContinuation = true ∧
      (∀ f ∈ mid, f.inContinuation = false) ∧ ∀ p', fs.set n p' = mid ++ p' :: rest := by
  obtain ⟨hlt, hp, hmid⟩ := List.findIdx?_eq_some_iff_getElem.1 h
  refine ⟨fs.take n, fs[n], fs.drop (n + 1), ?_, List.length_take_of_le (Nat.le_of_lt hlt),
    List.getElem?_eq_getElem hlt, hp,
    fun f hf => ?_, fun p' => List.set_eq_take_append_cons_drop.trans (if_pos hlt)⟩
  · rw [List.getElem_cons_drop, List.take_append_drop]
  · obtain ⟨j, hj, rfl⟩ := List.mem_iff_getElem.1 hf
    rw [List.length_take] at hj
    rw [List.getElem_take]
    simpa using hmid j (by omega)

namespace Viewed

open ViewStack

variable {hash : Key → Nat} {c c' : ViewStack ReducerViews} {f g : ViewFrame ReducerViews}
  {fs : List (ViewFrame ReducerViews)} {ms : MarkStack}

/-- What is above the head stays. -/
theorem spare_modifyAt (h : Held c fs)
    (hspare : ∀ i, c.frameStack.head.toNat < i → (c.frameStack.stack i).reducerViews = none)
    {i : BitVec 32} (hi : i.toNat < fs.length) {t : ViewFrame ReducerViews → ViewFrame ReducerViews}
    (he : c.modifyAt (c.frameStack.ancestor i) t = some c') :
    ∀ i, c'.frameStack.head.toNat < i → (c'.frameStack.stack i).reducerViews = none := by
  simp only [ViewStack.modifyAt, h.read_ancestor (List.getElem?_eq_getElem hi), Option.bind_eq_bind,
    Option.bind_some, Option.bind_eq_some_iff] at he
  obtain ⟨s, hs, he⟩ := he
  cases he
  obtain ⟨s', hs', -, hhead, hsame⟩ := h.live.write_ancestor hi (t (fs[i.toNat]))
  cases hs.symm.trans hs'
  intro j hj
  simp only [hhead] at hj
  simp only [hsame j hj, hspare j hj]

/-- The head is changed. -/
theorem modifyHead (h : Viewed hash c (f :: fs) ms)
    {t : ViewFrame ReducerViews → ViewFrame ReducerViews} {m : Marks}
    (hp : (t f).parentContin = f.parentContin) (hb : Bits (t f).toFrameData m)
    (hv : (t f).reducerViews = f.reducerViews)
    (ht : (t f).inContinuation = false → f.reducerViews = none) :
    ∃ c', c.modifyHead t = some c' ∧
    Viewed hash c' (t f :: fs) { ms with frames := m :: ms.frames.tail } := by
  obtain ⟨s, hs, -⟩ := h.toHeld.modifyHead t
  exact ⟨_, hs, h.toTraced.modifyHead hp hb hs, spare_modifyAt h.toHeld h.spare (i := 0#32)
    (Nat.succ_pos _) hs,
    List.forall_mem_cons.2 ⟨fun hin => hv.trans (ht hin), fun g hg => h.idle g (.tail _ hg)⟩,
    List.forall_mem_cons.2 ⟨by rw [hv]; exact h.good f (.head _),
      fun g hg => h.good g (.tail _ hg)⟩⟩

/-- The views of a frame are changed. -/
theorem setViews (h : Viewed hash c fs ms) {i : BitVec 32} (hi : fs[i.toNat]? = some f)
    {t : ViewFrame ReducerViews → ViewFrame ReducerViews} (ht : (t f).toFrameData = f.toFrameData)
    (hidle : f.inContinuation = false → (t f).reducerViews = none)
    (hgood : ∀ u ∈ (t f).reducerViews, Good hash u) :
    ∃ s, c.modifyAt (c.frameStack.ancestor i) t = some { c with frameStack := s } ∧
      Viewed hash { c with frameStack := s } (fs.set i.toNat (t f)) ms ∧
      s.head = c.frameStack.head := by
  obtain ⟨s, hs, htr, hhead⟩ := h.toTraced.setViews hi ht
  refine ⟨s, hs, ⟨htr, spare_modifyAt h.toHeld h.spare (List.getElem?_eq_some_iff.1 hi).1 hs,
      fun g hg hin => ?_,
    fun g hg => ?_⟩, hhead⟩
  · rcases List.mem_or_eq_of_mem_set hg with hg | rfl
    · exact h.idle g hg hin
    · exact hidle (by rw [← ht]; exact hin)
  · rcases List.mem_or_eq_of_mem_set hg with hg | rfl
    · exact h.good g hg
    · exact hgood

/-- The head frame has no views any more. -/
theorem clearViews (h : Viewed hash c (f :: fs) ms) :
    ∃ s, c.modifyAt (c.frameStack.ancestor 0#32) (fun f => { f with reducerViews := none }) =
        some { c with frameStack := s } ∧
      Viewed hash { c with frameStack := s } ({ f with reducerViews := none } :: fs) ms := by
  obtain ⟨s, hs, hv, -⟩ :=
    h.setViews (i := 0#32) (f := f) rfl (t := fun f => { f with reducerViews := none }) rfl
      (fun _ => rfl) fun u hu => absurd hu (Option.not_mem_none u)
  exact ⟨s, hs, hv⟩

/-- A frame is pushed; what is there has no views. -/
theorem startNewFunction (h : Viewed hash c fs ms) (hlen : fs.length < 2 ^ 31) :
    ∃ f c', c.startNewFunction = some c' ∧ f.reducerViews = none ∧
      Viewed hash c' (f :: fs) { ms with frames := {} :: ms.frames } := by
  obtain ⟨g, rest, rfl⟩ := h.exists_cons
  obtain ⟨f, hf, hheld⟩ := h.toHeld.push hlen
  have hspare : ∀ i, c.frameStack.head.toNat < i →
      (c.frameStack.push.stack i).reducerViews = none := fun i hi => by
    rcases Stack.push_stack_or c.frameStack i with heq | heq
    · rw [heq, h.spare i hi]
    · rw [heq]
      rfl
  have hlive : c.frameStack.push.Live (f :: g :: rest).reverse := hheld.live
  have hhead : c.frameStack.push.head.toNat = c.frameStack.head.toNat + 1 := by
    have h₁ := hlive.length
    have h₂ := h.live.length
    simp only [List.length_reverse, List.length_cons] at h₁ h₂
    omega
  have hviews : f.reducerViews = none := by
    have hlast := hlive.elem c.frameStack.push.head.toNat (by rw [hlive.length]; omega)
    have hidx : c.frameStack.push.head.toNat = (g :: rest).reverse.length := by
      rw [hhead, h.live.length]
    rw [hidx, List.reverse_cons, List.getElem?_concat_length, Option.some.injEq] at hlast
    rw [hlast]
    exact hspare _ (by rw [← hidx, hhead]; omega)
  have hparent := hheld.read_ancestor (i := 1#32) (f := g) rfl
  obtain ⟨s, hs, hheld'⟩ := hheld.modifyHead fun child =>
    { child with parentContin := CilkSan.childParentContin g.toFrameData }
  refine ⟨{ f with parentContin := CilkSan.childParentContin g.toFrameData },
    { c with frameStack := s }, ?_, hviews,
    ⟨hheld', ⟨?_, h.distances⟩, .cons (.of_zero hf) h.bits, h.newLoop⟩,
    spare_modifyAt hheld (fun i hi => hspare i (by simp only [hhead] at hi; omega)) (i := 0#32)
    (Nat.succ_pos _) hs,
    List.forall_mem_cons.2 ⟨fun _ => hviews, h.idle⟩,
    List.forall_mem_cons.2 ⟨by rw [hviews]; exact nofun, h.good⟩⟩
  · simp only [ViewStack.startNewFunction, hparent, Option.bind_eq_bind, Option.bind_some]
    exact hs
  · exact h.distances.childParentContin (by simp at hlen; omega)

/-- A frame is pushed, and its type is set. -/
theorem enter (h : Viewed hash c fs ms) (hlen : fs.length < 2 ^ 31) (type : EntryFrameType) :
    ∃ f c', (c.startNewFunction.bind fun c => c.modifyHead fun f => { f with frameData := type }) =
    some c' ∧
      f.reducerViews = none ∧ Viewed hash c' (f :: fs) { ms with frames := {} :: ms.frames } := by
  obtain ⟨f, c₁, hc₁, hf, h₁⟩ := h.startNewFunction hlen
  obtain ⟨m, rest, hms, hb, -⟩ := h₁.exists_marks
  cases hms
  obtain ⟨c', hc', h'⟩ :=
    h₁.modifyHead (t := fun f => { f with frameData := type }) rfl (hb.of_eq rfl) rfl fun _ => hf
  exact ⟨{ f with frameData := type }, c', by rw [hc₁, Option.bind_some, hc'], hf, h'⟩

/-- A frame that is popped has no views. -/
theorem doLeave (h : Viewed hash c (f :: g :: fs) ms) (hf : f.inContinuation = false) :
    ∃ c', c.doLeave = some c' ∧ Viewed hash c' (g :: fs) { ms with frames := ms.frames.tail } := by
  have hviews : f.reducerViews = none := h.idle f (by simp) hf
  obtain ⟨s, hs, hheld⟩ := h.toHeld.modifyHead fun f => { f with inContin := 0, parentContin := 0 }
  have hspare := spare_modifyAt h.toHeld h.spare (i := 0#32) (Nat.succ_pos _) hs
  have hleave : c.doLeave = some { c with frameStack := s.pop } := by
    simp only [ViewStack.doLeave, h.read_ancestor (i := 1#32) (f := g) rfl, ViewStack.exitFunction,
      hs, Option.bind_eq_bind, Option.bind_some]
    rfl
  have hlive :
      s.Live (({ f with inContin := 0, parentContin := 0 } : ViewFrame ReducerViews) :: g ::
        fs).reverse := hheld.live
  have hlive' : s.pop.Live (g :: fs).reverse := (hheld.pop rfl).live
  refine ⟨_, hleave, h.toTraced.doLeave hleave, fun i hi => ?_, fun f hf => h.idle f (.tail _ hf),
    fun f hf => h.good f (.tail _ hf)⟩
  have hhead : s.pop.head.toNat + 1 = s.head.toNat := by
    have h₁ := hlive.length
    have h₂ := hlive'.length
    simp only [List.length_reverse, List.length_cons] at h₁ h₂
    omega
  simp only at hi
  rcases Stack.pop_stack_or s i with heq | heq
  · rw [heq]
    by_cases hlast : i = s.head.toNat
    · have helem := hlive.elem i (by rw [hlive.length]; omega)
      have hlen := hlive.length
      rw [List.reverse_cons, List.length_append, List.length_singleton] at hlen
      rw [List.reverse_cons, show i = (g :: fs).reverse.length by omega,
        List.getElem?_concat_length, Option.some.injEq] at helem
      rw [show i = (g :: fs).reverse.length by omega, ← helem]
      exact hviews
    · exact hspare i (by simp only; omega)
  · rw [heq]
    rfl

section

variable {M : Type} {R : Reducers M} {values mem : Key → Option M}

/-- What a frame's table holds has distinct views, not those of the frames
below it. -/
theorem stored_of_heap {f g : ViewFrame ReducerViews} {mid rest : List (ViewFrame ReducerViews)}
    (hh : ViewHeap R values mem (tables (f :: (mid ++ g :: rest)))) :
    Stored R mem (held f.reducerViews) ∧
      Stored R mem (held g.reducerViews) ∧ ∀ v, HasView (held f.reducerViews) v →
      ¬ HasView (held g.reducerViews) v := by
  have hf : held f.reducerViews ∈ tables (f :: (mid ++ g :: rest)) := .head _
  have hg : held g.reducerViews ∈ tables (mid ++ g :: rest) := List.mem_map_of_mem (by simp)
  exact ⟨hh.stored _ hf, hh.stored _ (.tail _ hg), (List.pairwise_cons.1 hh.apart).1 _ hg⟩

/-- Without a frame below that is in a continuation, the head's views are
reduced into the leftmost ones. -/
theorem reduceLocalViews_leftmost (h : Viewed hash c (f :: fs) ms)
    (hh : ViewHeap R values mem (tables (f :: fs))) {t : HyperTable ReducerBase}
    (hf : f.reducerViews = some t) (hn : fs.findIdx? (·.inContinuation) = none) :
    ∃ events mem' c' fs', c.localEvents hash = some events ∧ R.runEvents mem events = some mem' ∧
      c.reduceLocalViews (hyperTables hash) = some c' ∧
      Viewed hash c' ({ f with reducerViews := none } :: fs') ms ∧
      ViewHeap R values mem' (tables ({ f with reducerViews := none } :: fs')) := by
  have hgood : Good hash t := h.good f (.head _) t hf
  have hdist : f.parentContin.toNat = distance fs := h.distances.1
  simp only [localEvents, ViewStack.reduceLocalViews, h.read_head, hf, Option.bind_eq_bind,
    Option.bind_some]
  have hzero : ¬ f.parentContin > 0 := fun hpos => by
    have hpos : 0 < f.parentContin.toNat := hpos
    rw [hdist, distance, hn] at hpos
    exact absurd hpos (Nat.lt_irrefl 0)
  have hrest : ∀ m ∈ tables fs, m = fun _ => none := tables_of_idle fun g hg =>
    h.idle g (.tail _ hg) (Bool.eq_false_iff.2 fun hin => by
      rw [List.findIdx?_eq_none_iff] at hn
      exact absurd hin (by simpa using hn g hg))
  have hheld : held f.reducerViews = held (some t) := by rw [hf]
  have hmem : held (some t) ∈ tables (f :: fs) := by rw [← hheld]; exact .head _
  obtain ⟨events, mem', hreduce, hrun, hred⟩ := reduceLeftmost_spec hgood
      (hh.stored _ hmem) fun k b hb => by
    obtain ⟨x, hx⟩ := hh.registered _ hmem k b hb
    obtain ⟨w, hw, -⟩ := hh.value k x hx
    exact ⟨⟨w, hw⟩, hh.notView k x hx _ hmem⟩
  obtain ⟨s, hs, hv⟩ := h.clearViews
  refine ⟨events, mem', _, fs, ?_, hrun, ?_, hv, ?_⟩
  · simp only [if_neg hzero, hreduce, Option.map_some]
  · simp only [if_neg hzero, hyperTables, hreduce, Option.map_some, Option.bind_some]
    exact hs
  · have hred' : ReducesTo R mem mem' (held f.reducerViews) := by rw [hheld]; exact hred
    exact hh.reduce hrest hred'

/-- Otherwise they are merged into those of the nearest frame in a continuation. -/
theorem reduceLocalViews_merged (h : Viewed hash c (f :: fs) ms)
    (hh : ViewHeap R values mem (tables (f :: fs))) (hok : c.MergeOk hash)
    {t : HyperTable ReducerBase} (hf : f.reducerViews = some t) {n : Nat}
    (hn : fs.findIdx? (·.inContinuation) = some n) :
    ∃ events mem' c' fs', c.localEvents hash = some events ∧ R.runEvents mem events = some mem' ∧
      c.reduceLocalViews (hyperTables hash) = some c' ∧
      Viewed hash c' ({ f with reducerViews := none } :: fs') ms ∧
      ViewHeap R values mem' (tables ({ f with reducerViews := none } :: fs')) := by
  have hgood : Good hash t := h.good f (.head _) t hf
  have hdist : f.parentContin.toNat = distance fs := h.distances.1
  simp only [localEvents, ViewStack.reduceLocalViews, h.read_head, hf, Option.bind_eq_bind,
    Option.bind_some]
  obtain ⟨mid, p, rest, rfl, hmidlen, hp, hpin, hmid, hset⟩ := exists_nearest hn
  have hidx : f.parentContin.toNat = n + 1 := by
    rw [hdist, distance, hn]
    rfl
  have hpos : f.parentContin > 0 := by
    rw [gt_iff_lt, BitVec.lt_def, hidx]
    exact Nat.succ_pos n
  have hget : (f :: (mid ++ p :: rest))[f.parentContin.toNat]? = some p := by
    rw [hidx]
    exact hp
  have hgoodp : ∀ u ∈ p.reducerViews, Good hash u := h.good p (by simp)
  obtain ⟨hsf, hsp, hap⟩ := stored_of_heap hh
  rw [hf] at hsf hap
  obtain ⟨u, leftDst, hmerge, hunion⟩ := mergeTwoHyperTables_orderedUnion (stands_held hgoodp)
    (stands_held (t := some t) fun u hu => by cases hu; exact hgood) fun l r hl hr hl0 hr0 => by
      cases hr
      have hins := hok f h.read_head hpos p (h.read_ancestor hget) l hl t hf hl0 hr0
      refine mergesAsMap_of_insertsOk ?_ hins
      cases decide (l.occupancy ≥ t.occupancy) with
      | true => exact hgoodp l hl
      | false => exact hgood
  obtain ⟨mem', hrun, hj⟩ := hunion.joins hsp hsf hap
  obtain ⟨s, hs, hv, hhead⟩ :=
    h.setViews hget (t := fun q => { q with reducerViews := u.table }) rfl
      (fun hin => by rw [hpin] at hin; cases hin) hunion.good
  rw [hidx, List.set_cons_succ, hset] at hv
  obtain ⟨s', hs', hv'⟩ := hv.clearViews
  have htables : ∀ p', tables (f :: (mid ++ p' :: rest)) =
      held (some t) :: (tables mid ++ held p'.reducerViews :: tables rest) := fun p' => by
    simp [tables, hf]
  have hnone : ∀ p', tables ({ f with reducerViews := none } :: (mid ++ p' :: rest)) =
      (fun _ => none) :: (tables mid ++ held p'.reducerViews :: tables rest) := fun p' => by
    simp [tables]; rfl
  have hreduce : Cilksan.reduceLocalViews hash ⟨some p.reducerViews, some t⟩ =
      some ({ parent := some u.table, head := none }, u.events) := by
    simp only [Cilksan.reduceLocalViews, hmerge, Option.map_some]
  refine ⟨u.events, mem', _, _, ?_, hrun, ?_, hv', ?_⟩
  · simp only [if_pos hpos, h.read_ancestor hget, Option.bind_some, hreduce, Option.map_some]
  · simp only [if_pos hpos, h.read_ancestor hget, Option.bind_some, hyperTables, hmerge,
      Option.map_some, hs]
    exact hs'
  · rw [htables] at hh
    have := hh.merge (tables_of_idle fun g hg => h.idle g (by simp [hg]) (hmid g hg)) hj
    rw [← hnone { p with reducerViews := u.table }] at this
    exact this

/-- **Reducing the head's views.** They go to the nearest frame below that is
in a continuation, or to the leftmost views if there is none. -/
theorem reduceLocalViews (h : Viewed hash c (f :: fs) ms)
    (hh : ViewHeap R values mem (tables (f :: fs))) (hok : c.MergeOk hash) :
    ∃ events mem' c' fs', c.localEvents hash = some events ∧ R.runEvents mem events = some mem' ∧
      c.reduceLocalViews (hyperTables hash) = some c' ∧
      Viewed hash c' ({ f with reducerViews := none } :: fs') ms ∧
      ViewHeap R values mem' (tables ({ f with reducerViews := none } :: fs')) := by
  cases hf : f.reducerViews with
  | none =>
    have hsame : { f with reducerViews := none } = f := by rw [← hf]
    refine ⟨[], mem, c, fs, ?_, rfl, ?_, by rwa [hsame], by rwa [hsame]⟩
    · simp only [localEvents, h.read_head, hf, Option.bind_eq_bind, Option.bind_some,
        Option.pure_def]
    · simp only [ViewStack.reduceLocalViews, h.read_head, hf, Option.bind_eq_bind,
        Option.bind_some, Option.pure_def]
  | some t =>
    cases hn : fs.findIdx? (·.inContinuation) with
    | none => exact h.reduceLocalViews_leftmost hh hf hn
    | some n => exact h.reduceLocalViews_merged hh hok hf hn

end

/-- The table of the nearest frame in a continuation is there, once it has
been asked for. -/
theorem getOrCreateReducerViews (h : Viewed hash c fs ms) {n : Nat}
    (hn : fs.findIdx? (·.inContinuation) = some n)
    (hp : fs[n]? = some f) (hin : f.inContinuation = true) : ∃ k s, k.toNat = n ∧
      c.getOrCreateReducerViews (hyperTables hash) =
      some (c.frameStack.ancestor k, { c with frameStack := s }) ∧
      Viewed hash { c with frameStack := s } (fs.set n (f.getOrCreateReducerViews .empty)) ms ∧
      s.head = c.frameStack.head := by
  obtain ⟨g, rest, rfl⟩ := h.exists_cons
  have hsel := h.selected
  rw [hn, Option.getD_some] at hsel
  have hgood : ∀ u ∈ (f.getOrCreateReducerViews .empty).reducerViews, Good hash u := fun u hu => by
    cases hu
    cases hv : f.reducerViews with
    | none => exact (Holds.empty hash).good
    | some u => exact h.good f (List.mem_of_getElem? hp) u hv
  obtain ⟨s, hs, hv, hhead⟩ :=
    h.setViews (i := if g.inContinuation then 0#32 else g.parentContin) (by rw [hsel, hp])
      (t := (·.getOrCreateReducerViews .empty)) rfl (fun hout => by cases hin.symm.trans hout) hgood
  rw [hsel] at hv
  refine ⟨_, s, hsel, ?_, hv, hhead⟩
  have hi :
      (if g.inContinuation then c.frameStack.headPtr else c.frameStack.ancestor g.parentContin) =
      c.frameStack.ancestor (if g.inContinuation then 0#32 else g.parentContin) := by
    split <;> rfl
  simp only [ViewStack.getOrCreateReducerViews, h.read_head, hi, hyperTables, hs,
    Option.bind_eq_bind, Option.bind_some]
  rfl

/-- Nothing can be stolen just when no frame is in a continuation. -/
theorem stealable_eq (h : Viewed hash c fs ms) : c.stealable = some (fs.any (·.inContinuation)) :=
  (h.toTraced.selects (hyperTables hash)).stealable

theorem tables_eq (h : Viewed hash c fs ms) (hs : c.stealable = some false) :
    ∀ m ∈ tables fs, m = fun _ => none := by
  have hany := Option.some.inj (h.stealable_eq.symm.trans hs)
  rw [List.any_eq_false] at hany
  exact tables_of_idle fun f hf => h.idle f hf (Bool.eq_false_iff.2 (hany f hf))

end Viewed

/-! ## The tool -/

section

open ViewStack

variable {M : Type} {hash : Key → Nat} {R : Reducers M} {values : Key → Option M}
  {t : ReducerTool M}
  {f : ViewFrame ReducerViews} {fs : List (ViewFrame ReducerViews)} {ms : MarkStack}
  {hook : ViewStack.Hook ReducerViews}

theorem tables_cons (hf : f.reducerViews = none) (fs : List (ViewFrame ReducerViews)) :
    tables (f :: fs) = (fun _ => none) :: tables fs := by
  rw [tables, List.map_cons, hf]
  rfl

namespace ReducerTool

/-- A hook that leaves the views where they are. -/
theorem viewStep_eq (views : ViewStack ReducerViews) (hr : hook.reduces = false)
    (hs : t.views.step (hyperTables hash) hook = some views) :
    t.viewStep hash R hook = some { t with views } := by
  simp only [viewStep, hr, Bool.false_eq_true, if_false, hs, Reducers.runEvents, List.foldlM_nil,
    Option.bind_eq_bind, Option.bind_some, Option.pure_def]

/-- The head is changed after its views have been reduced. -/
theorem viewStep_reduces (h : Viewed hash t.views fs ms) (hh : ViewHeap R values t.mem (tables fs))
    (hr : hook.reduces = true)
    {u : ViewFrame ReducerViews → ViewFrame ReducerViews} {n : Marks → Marks}
    (hs : t.views.step (hyperTables hash) hook =
      (t.views.reduceLocalViews (hyperTables hash)).bind (·.modifyHead u))
    (hok : t.views.MergeOk hash) (hp : ∀ f, (u f).parentContin = f.parentContin)
    (hv : ∀ f, (u f).reducerViews = f.reducerViews)
    (hb : ∀ f m, Bits f.toFrameData m → Bits (u f).toFrameData (n m)) :
    ∃ t' fs', t.viewStep hash R hook = some t' ∧ t'.driver = t.driver ∧
      Viewed hash t'.views fs' { ms with frames := ms.frames.modifyHead n } ∧
      ViewHeap R values t'.mem (tables fs') := by
  obtain ⟨f, rest, rfl⟩ := h.exists_cons
  obtain ⟨events, mem, c, fs', he, hrun, hc, h', hh'⟩ := h.reduceLocalViews hh hok
  obtain ⟨m, rest', hms, hbits, -⟩ := h'.exists_marks
  obtain ⟨c', hc', h''⟩ := h'.modifyHead (hp _) (hb _ m hbits) (hv _) fun _ => rfl
  refine ⟨{ t with views := c', mem }, u { f with reducerViews := none } :: fs', ?_, rfl, ?_, ?_⟩
  · simp only [viewStep, hr, if_true, he, hrun, hs, hc, hc', Option.bind_eq_bind, Option.bind_some,
      Option.pure_def]
  · rw [hms] at h'' ⊢
    exact h''
  · rw [tables_cons rfl] at hh'
    rw [tables_cons (hv _)]
    exact hh'

/-- **One hook of the views.** -/
theorem viewStep_spec (h : Viewed hash t.views fs ms) (hh : ViewHeap R values t.mem (tables fs))
    (hok : HookOk ms hook) (hmerge : hook.reduces = true → t.views.MergeOk hash) :
    ∃ t' fs', t.viewStep hash R hook = some t' ∧ t'.driver = t.driver ∧
    Viewed hash t'.views fs' (ms.step hook) ∧
      ViewHeap R values t'.mem (tables fs') := by
  have hlen : fs.length = ms.frames.length := h.bits.length_eq
  have hpush : ∀ {type}, fs.length < 2 ^ 31 → hook.reduces = false →
      t.views.step (hyperTables hash) hook =
      (t.views.startNewFunction.bind fun c => c.modifyHead fun f => { f with frameData := type }) →
      ∃ t' fs', t.viewStep hash R hook = some t' ∧ t'.driver = t.driver ∧
        Viewed hash t'.views fs' { ms with frames := {} :: ms.frames } ∧
        ViewHeap R values t'.mem (tables fs') :=
    fun {type} hlt hr hs => by
      obtain ⟨f, c', hc', hf, h'⟩ := h.enter hlt type
      refine ⟨_, f :: fs, viewStep_eq _ hr (hs.trans hc'), rfl, h', ?_⟩
      rw [tables_cons hf]
      exact ViewHeap.cons_none.2 hh
  have hpop : (∃ m m' rest, ms.frames = m :: m' :: rest ∧ m.inContinuation = false) →
      hook.reduces = false → t.views.step (hyperTables hash) hook = t.views.doLeave →
      ∃ t' fs', t.viewStep hash R hook = some t' ∧ t'.driver = t.driver ∧
        Viewed hash t'.views fs' { ms with frames := ms.frames.tail } ∧
        ViewHeap R values t'.mem (tables fs') :=
    fun hm hr hs => by
      obtain ⟨m, m', rest, hms, hin⟩ := hm
      obtain ⟨f, fs', hb, hrest, hfs⟩ := List.forall₂_cons_right_iff.1 (hms ▸ h.bits)
      obtain ⟨g, fs'', -, -, hfs'⟩ := List.forall₂_cons_right_iff.1 hrest
      subst hfs hfs'
      have hf : f.inContinuation = false := hb.inContinuation.trans hin
      obtain ⟨c', hc', h'⟩ := h.doLeave hf
      refine ⟨_, g :: fs'', viewStep_eq _ hr (hs.trans hc'), rfl, h', ?_⟩
      rw [tables_cons (h.idle f (by simp) hf)] at hh
      exact ViewHeap.cons_none.1 hh
  cases hook with
  | enter => exact hpush (hlen ▸ hok) rfl rfl
  | enterHelper => exact hpush (hlen ▸ hok) rfl rfl
  | leave => exact hpop hok rfl rfl
  | loopEnd => exact hpop hok rfl rfl
  | detachContinue r =>
    exact viewStep_reduces h hh rfl rfl (hmerge rfl) (fun _ => rfl) (fun _ => rfl) fun _ _ hb =>
      hb.enterContinuation r
  | sync r =>
    exact viewStep_reduces h hh rfl rfl (hmerge rfl) (fun _ => rfl) (fun _ => rfl) fun _ _ hb =>
      hb.exitContinuation r
  | loopBegin =>
    exact ⟨_, fs, viewStep_eq _ rfl rfl, rfl,
      ⟨⟨⟨h.live, h.unused⟩, h.distances, h.bits, rfl⟩, h.spare, h.idle, h.good⟩, hh⟩
  | loopIterationBegin =>
    have hloop : t.views.startNewLoop = ms.startNewLoop := h.newLoop
    rw [MarkStack.step]
    split
    · next hnew =>
      -- the frame of the loop is pushed for its first iteration
      obtain ⟨f, c₁, hc₁, hf, h₁⟩ := h.enter (hlen ▸ hok hnew) .DETACHER_SHADOW_FRAME
      obtain ⟨m, rest, hms, hb, -⟩ := h₁.exists_marks
      cases hms
      obtain ⟨c₂, hc₂, h₂⟩ :=
        h₁.modifyHead (t := fun f => { f with frameData := f.frameData.setLoopFrame }) rfl
          (hb.of_eq rfl)
        rfl fun _ => hf
      refine ⟨_, _ :: fs, viewStep_eq { c₂ with startNewLoop := false } rfl ?_, rfl,
        ⟨⟨⟨h₂.live, h₂.unused⟩, h₂.distances, h₂.bits, rfl⟩, h₂.spare, h₂.idle, h₂.good⟩, ?_⟩
      · replace hc₁ : t.views.doEnterHelper = some c₁ := hc₁
        simp only [ViewStack.step, doLoopIterationBegin, hloop, hnew, if_true, hc₁, hc₂,
          Option.bind_eq_bind, Option.bind_some, Option.pure_def]
      · rw [tables_cons (f := { f with frameData := f.frameData.setLoopFrame }) hf]
        exact ViewHeap.cons_none.2 hh
    · next hold =>
      obtain ⟨f, rest, rfl⟩ := h.exists_cons
      obtain ⟨m, rest', hms, hb, -⟩ := h.exists_marks
      have hin : f.enterLoopContinuation.inContinuation = true := by
        rw [hb.enterLoopContinuation.inContinuation]
        rfl
      obtain ⟨c', hc', h'⟩ :=
        h.modifyHead (t := fun f => { f with toFrameData := f.enterLoopContinuation }) rfl
          hb.enterLoopContinuation rfl fun hout => by cases hin.symm.trans hout
      refine ⟨_, { f with toFrameData := f.enterLoopContinuation } :: rest,
        viewStep_eq c' rfl ?_, rfl, ?_, hh⟩
      · simp only [ViewStack.step, doLoopIterationBegin, hloop, hold, Bool.false_eq_true,
          if_false, hc']
      · rw [hms] at h' ⊢
        exact h'
  | loopIterationEnd =>
    exact viewStep_reduces h hh rfl rfl (hmerge rfl) (fun _ => rfl) (fun _ => rfl) fun _ _ hb =>
      hb.exitLoopContinuation
  | views g => exact hok.elim

/-- No merge of the hooks carries a bucket round its table. -/
def MergesOk (hash : Key → Nat) (R : Reducers M) :
    ReducerTool M → List (ViewStack.Hook ReducerViews) → Prop
  | _, [] => True
  | t, hook :: hooks =>
    (hook.reduces = true → t.views.MergeOk hash) ∧
      ∀ t' ∈ t.viewStep hash R hook, MergesOk hash R t' hooks

theorem viewSteps_spec {p : Program} (hooks : List (ViewStack.Hook ReducerViews))
    {t : ReducerTool M}
    {fs : List (ViewFrame ReducerViews)} {ms : MarkStack} (h : Viewed hash t.views fs ms)
    (hh : ViewHeap R values t.mem (tables fs)) (hl : LeadTo ms hooks p)
    (hok : MergesOk hash R t hooks) :
    ∃ t' fs' ms', hooks.foldlM (viewStep hash R) t = some t' ∧ t'.driver = t.driver ∧
    Viewed hash t'.views fs' ms' ∧ MarksOf ms' p ∧
      ViewHeap R values t'.mem (tables fs') := by
  induction hooks generalizing t fs ms with
  | nil => exact ⟨t, fs, ms, rfl, rfl, h, hl, hh⟩
  | cons hook hooks ih =>
    obtain ⟨t₁, fs₁, ht₁, hd₁, h₁, hh₁⟩ := viewStep_spec h hh hl.1 hok.1
    obtain ⟨t', fs', ms', ht', hd', h', hm', hh'⟩ := ih h₁ hh₁ hl.2 (hok.2 t₁ ht₁)
    refine ⟨t', fs', ms', ?_, hd'.trans hd₁, h', hm', hh'⟩
    rw [List.foldlM_cons, ht₁]
    exact ht'

end ReducerTool

/-- The tool with what the program has done so far. -/
structure Keeps (hash : Key → Nat) (R : Reducers M) (p : ReducerProgram M) (t : ReducerTool M)
    (fs : List (ViewFrame ReducerViews)) (ms : MarkStack) : Prop where
  tracks : Tracks p.trace t.driver
  returned : p.Returned
  viewed : Viewed hash t.views fs ms
  marks : MarksOf ms p.trace.program
  heap : ViewHeap R p.values t.mem (tables fs)
  valid : ∀ {k x}, p.values k = some x → isValid k = true

/-- A view can be looked up in the table selected, and one put there. -/
def LookupOk (hash : Key → Nat) (t : ReducerTool M) (key : Key) : Prop :=
  ∀ r ∈ t.views.getOrCreateReducerViews (hyperTables hash), ∀ f ∈ r.2.frameStack.read r.1,
  ∀ u ∈ f.reducerViews,
    u.capacity < 2 ^ 27 ∧ (u.find hash key = none → InsertOk hash u key)

/-- A loop that ends has begun an iteration, and there is room for a frame.
Reducers are registered and unregistered where nothing can be stolen, and what
is allocated for them was free. No insertion carries a bucket round its
table. -/
def ReducerOk (hash : Key → Nat) (R : Reducers M) (p : ReducerProgram M) (t : ReducerTool M) :
    ReducerHook M → Prop
  | .driver h => TraceOk p.trace h ∧ p.trace.program.acts.length < 2 ^ 31 ∧
    ∀ hooks ∈ t.driver.viewHooks h, ∀ driver ∈ t.driver.step h,
    ReducerTool.MergesOk hash R { t with driver } hooks
  | .register key _ => isValid key = true ∧ t.views.stealable = some false ∧ t.mem key = none
  | .unregister _ => t.views.stealable = some false
  | .update key fresh _ =>
    t.mem fresh = none ∧ (t.views.stealable = some true → LookupOk hash t key)

theorem isValid_of_update {key k : Key} {o : Option M} {y : M}
    (hvalues : ∀ {k x}, values k = some x → isValid k = true)
    (ho : o ≠ none → isValid key = true) (hy : Function.update values key o k = some y) :
    isValid k = true := by
  by_cases hk : k = key
  · rw [hk, Function.update_self] at hy
    rw [hk]
    exact ho (by rw [hy]; exact nofun)
  · rw [Function.update_of_ne hk] at hy
    exact hvalues hy

namespace Keeps

variable {p p' : ReducerProgram M}

theorem driverStep {h : DriverHook} (hk : Keeps hash R p t fs ms)
    (hok : ReducerOk hash R p t (.driver h))
    (hs : p.driverStep h = some p') : ∃ t' fs' ms', t.driverStep hash R h = some t' ∧
    Keeps hash R p' t' fs' ms' := by
  obtain ⟨htrace, hvalues, hret, hooks, hhooks, hl⟩ :=
    ReducerProgram.leadTo hk.tracks hk.returned hk.marks hok.1 hok.2.1 hs
  obtain ⟨d', hd', htracks, -⟩ := hk.tracks.step hok.1 htrace
  obtain ⟨t', fs', ms', ht', hd, hv, hm, hh⟩ :=
    ReducerTool.viewSteps_spec hooks (t := { t with driver := d' }) hk.viewed
      hk.heap hl (hok.2.2 hooks hhooks d' hd')
  refine ⟨t', fs', ms', ?_, by rw [hd]; exact htracks, hret, hv, hm, by rw [hvalues]; exact hh, ?_⟩
  · simp only [ReducerTool.driverStep, hhooks, hd', Option.bind_eq_bind, Option.bind_some]
    exact ht'
  · rw [hvalues]
    exact hk.valid

theorem register {key : Key} {x : M} (hk : Keeps hash R p t fs ms)
    (hok : ReducerOk hash R p t (.register key x)) : ∃ t', t.register hash R key x = some t' ∧
      Keeps hash R { p with values := Function.update p.values key (some x) } t' fs ms := by
  obtain ⟨hvalid, hst, hfree⟩ := hok
  refine ⟨{ t with mem := Function.update t.mem key (some x) }, ?_, hk.tracks, hk.returned,
    hk.viewed, hk.marks, hk.heap.register hfree x, isValid_of_update hk.valid fun _ => hvalid⟩
  simp [ReducerTool.register, hst]

theorem unregister {key : Key} (hk : Keeps hash R p t fs ms)
    (hok : t.views.stealable = some false) : ∃ t', t.unregister hash key = some t' ∧
      Keeps hash R { p with values := Function.update p.values key none } t' fs ms := by
  have hany := Option.some.inj (hk.viewed.stealable_eq.symm.trans hok)
  have hnone : t.views.getReducerViews = some none :=
    (hk.viewed.toTraced.selects (hyperTables hash)).noViews (by
    rw [List.findIdx?_eq_none_iff]
    simpa using hany)
  refine ⟨{ t with mem := Function.update t.mem key none }, ?_, hk.tracks, hk.returned,
    hk.viewed, hk.marks,
    hk.heap.unregister (hk.viewed.tables_eq hok), isValid_of_update hk.valid fun h => absurd rfl h⟩
  simp [ReducerTool.unregister, hnone]

/-- While all that was begun is in series, nothing can be stolen. -/
theorem stealable_of_inSeries (hk : Keeps hash R p t fs ms) (hs : p.trace.program.InSeries) :
    t.views.stealable = some false := by
  have hmarks := hk.marks.of_inSeries hs
  have hframes := hk.viewed.marked
  rw [hk.viewed.stealable_eq, Option.some.injEq, List.any_eq_false]
  intro f hf
  have hmem : f.inContinuation ∈ fs.map (·.inContinuation) :=
    List.mem_map_of_mem (f := (·.inContinuation)) hf
  rw [hframes, List.mem_map] at hmem
  obtain ⟨m, hm, heq⟩ := hmem
  rw [← heq, hmarks m hm]
  exact Bool.false_ne_true

theorem held_getD (v : Option ReducerViews) : held (some (v.getD .empty)) = held v := by
  cases v with
  | none =>
    funext k
    exact congrFun entries_empty k
  | some u => rfl

/-- The leftmost view is used where nothing can be stolen. -/
theorem update_leftmost {key fresh : Key} {x : M} (hk : Keeps hash R p t fs ms)
    (hs : t.views.stealable = some false)
    (hl : t.hyperLookup hash R key fresh = some (key, t)) (hx : p.values key = some x) (y : M) :
    ∃ t', t.update hash R key fresh y = some t' ∧
      Keeps hash R { p with values := Function.update p.values key (some (R.op key x y)) }
      t' fs ms := by
  obtain ⟨w, hw, -⟩ := hk.heap.value key x hx
  refine ⟨{ t with mem := Function.update t.mem key (some (R.op key w y)) }, ?_, hk.tracks,
    hk.returned, hk.viewed, hk.marks,
    hk.heap.updateLeftmost (hk.viewed.tables_eq hs) hx hw y,
    isValid_of_update hk.valid fun _ => hk.valid hx⟩
  simp only [ReducerTool.update, hl, hw, Option.bind_eq_bind, Option.bind_some]
  rfl

/-- The view in the table is used, which may be new. -/
theorem update_view {key fresh : Key} {x : M} (hk : Keeps hash R p t fs ms)
    (hs : t.views.stealable = some true)
    (hup : t.driver.parallelExecution.isExecutionParallel = true) (hfresh : t.mem fresh = none)
    (hok : LookupOk hash t key) (hx : p.values key = some x) (y : M) :
    ∃ t' fs', t.update hash R key fresh y = some t' ∧
      Keeps hash R { p with values := Function.update p.values key (some (R.op key x y)) }
      t' fs' ms := by
  have hany := Option.some.inj (hk.viewed.stealable_eq.symm.trans hs)
  obtain ⟨n, hn⟩ := Option.isSome_iff_exists.1 (List.findIdx?_isSome.trans hany)
  obtain ⟨mid, f, rest, rfl, -, hf, hin, hmid, hset⟩ := exists_nearest hn
  obtain ⟨k, s, hkn, hget, hv, hhead⟩ := hk.viewed.getOrCreateReducerViews hn hf hin
  have hnones : ∀ m ∈ tables mid, m = fun _ => none :=
    tables_of_idle fun g hg => hk.viewed.idle g (by simp [hg]) (hmid g hg)
  have htables : ∀ g : ViewFrame ReducerViews, tables (mid ++ g :: rest) =
    tables mid ++ held g.reducerViews :: tables rest := fun g => by simp [tables]
  have hheap := hk.heap
  rw [htables, ← held_getD] at hheap
  rw [hset] at hv
  have hanc : s.ancestor k = t.views.frameStack.ancestor k := by
    rw [Stack.ancestor, hhead, Stack.ancestor]
  have hself : (mid ++ f.getOrCreateReducerViews .empty :: rest)[k.toNat]? =
      some (f.getOrCreateReducerViews .empty) := by
    rw [hkn, ← hset, List.getElem?_set_self (List.getElem?_eq_some_iff.1 hf).1]
  have hread :
      s.read (t.views.frameStack.ancestor k) = some (f.getOrCreateReducerViews .empty) := by
    rw [← hanc]
    exact hv.read_ancestor hself
  have hsome :
      (f.getOrCreateReducerViews .empty).reducerViews = some (f.reducerViews.getD .empty) := rfl
  have hgood : Good hash (f.reducerViews.getD .empty) := hv.good _ (by simp) _ hsome
  obtain ⟨hcap, hins⟩ := hok _ hget _ hread _ hsome
  have hfind := hgood.find_entries hcap (hk.valid hx)
  cases hlook : (f.reducerViews.getD .empty).find hash key with
  | some j =>
    rw [hlook, Option.map_some] at hfind
    generalize hvalue : ((f.reducerViews.getD .empty).buckets j).value = b at hfind
    obtain ⟨y₀, hy₀⟩ :=
      (hheap.stored _ (by simp)).live
        (show held (some (f.reducerViews.getD .empty)) key = some b from hfind)
    have hlookup :
        t.hyperLookup hash R key fresh =
        some (b.view, { t with views := { t.views with frameStack := s } }) := by
      simp [ReducerTool.hyperLookup, hup, hs, hget, hread, hsome, hlook, hvalue]
    refine ⟨{ t with
      views := { t.views with frameStack := s }
      mem := Function.update t.mem b.view (some (R.op key y₀ y)) }, _, ?_, hk.tracks, hk.returned,
        hv, hk.marks, ?_,
      isValid_of_update hk.valid fun _ => hk.valid hx⟩
    · simp only [ReducerTool.update, hlookup, hy₀, Option.bind_eq_bind, Option.bind_some]
      rfl
    · rw [htables]
      exact hheap.update hnones hx hfind hy₀ y
  | none =>
    rw [hlook, Option.map_none] at hfind
    obtain ⟨u, hu, hgood', hentries⟩ := hgood.insert_entries
      (b := { key, value := { view := fresh, reduceFn := R.reduceFn key } }) hcap
      (hk.valid hx) (hins hlook)
    obtain ⟨s', hs', hv', -⟩ :=
      hv.setViews hself (t := fun f => { f with reducerViews := some u }) rfl
        (fun hout => by cases hin.symm.trans hout) fun _ h => by cases h; exact hgood'
    have hlookup : t.hyperLookup hash R key fresh = some (fresh, { t with
        views := { t.views with frameStack := s' }
        mem := Function.update t.mem fresh (some (R.identity key)) }) := by
      rw [hanc] at hs'
      simp [ReducerTool.hyperLookup, ReducerTool.createReducerView, ReducerTool.insertView,
        changeAt, hup, hs, hget, hread, hsome, hlook, hu, hs']
    refine ⟨{ t with
      views := { t.views with frameStack := s' }
      mem := Function.update (Function.update t.mem fresh (some (R.identity key))) fresh
        (some (R.op key (R.identity key) y)) }, _, ?_, hk.tracks, hk.returned, hv', hk.marks, ?_,
        isValid_of_update hk.valid fun _ => hk.valid hx⟩
    · simp only [ReducerTool.update, hlookup, Function.update_self, Option.bind_eq_bind,
        Option.bind_some]
      rfl
    · rw [hkn, ← hset, List.set_set, hset, htables]
      have hcreated :=
        hheap.create (b := { view := fresh, reduceFn := R.reduceFn key }) hnones hx hfind hfresh rfl
      rw [show Function.update (held (some (f.reducerViews.getD .empty))) key
        (some { view := fresh, reduceFn := R.reduceFn key }) =
        held (some u) from hentries.symm] at hcreated
      refine hcreated.update hnones hx ?_ (Function.update_self ..) y
      exact (congrFun hentries key).trans (Function.update_self ..)

theorem update {key fresh : Key} {y : M} (hk : Keeps hash R p t fs ms)
    (hok : ReducerOk hash R p t (.update key fresh y))
    (hs : p.step R (.update key fresh y) = some p') :
    ∃ t' fs', t.update hash R key fresh y = some t' ∧ Keeps hash R p' t' fs' ms := by
  simp only [ReducerProgram.step, Option.ite_none_right_eq_some, Option.bind_eq_bind,
    Option.bind_eq_some_iff] at hs
  obtain ⟨hrun, x, hx, hs⟩ := hs
  cases hs
  have hleft : t.views.stealable = some false → t.hyperLookup hash R key fresh = some (key, t) →
      ∃ t' fs', t.update hash R key fresh y = some t' ∧
        Keeps hash R { p with values := Function.update p.values key (some (R.op key x y)) } t' fs'
        ms := fun hs hl => by
    obtain ⟨t', ht', hk'⟩ := hk.update_leftmost hs hl hx y
    exact ⟨t', fs, ht', hk'⟩
  cases hup : t.driver.parallelExecution.isExecutionParallel with
  | false =>
    exact hleft (hk.stealable_of_inSeries (hk.tracks.inSeries hrun.2.2.1 hup))
      (by simp [ReducerTool.hyperLookup, hup])
  | true =>
    have hst := hk.viewed.stealable_eq
    cases hany : fs.any (·.inContinuation) with
    | false =>
      rw [hany] at hst
      exact hleft hst (by simp [ReducerTool.hyperLookup, hup, hst])
    | true =>
      rw [hany] at hst
      exact hk.update_view hst hup hok.1 (hok.2 hst) hx y

theorem step {h : ReducerHook M} (hk : Keeps hash R p t fs ms) (hok : ReducerOk hash R p t h)
    (hs : p.step R h = some p') :
    ∃ t' fs' ms', t.step hash R h = some t' ∧ Keeps hash R p' t' fs' ms' := by
  cases h with
  | driver h => exact hk.driverStep hok hs
  | register key x =>
    simp only [ReducerProgram.step, Option.ite_none_right_eq_some] at hs
    obtain ⟨-, hs⟩ := hs
    split at hs
    · cases hs
      obtain ⟨t', ht', hk'⟩ := hk.register hok
      exact ⟨t', fs, ms, ht', hk'⟩
    · cases hs
  | unregister key =>
    simp only [ReducerProgram.step, Option.ite_none_right_eq_some, Option.bind_eq_bind,
      Option.bind_eq_some_iff] at hs
    obtain ⟨-, x, -, hs⟩ := hs
    cases hs
    obtain ⟨t', ht', hk'⟩ := hk.unregister hok
    exact ⟨t', fs, ms, ht', hk'⟩
  | update key fresh y =>
    obtain ⟨t', fs', ht', hk'⟩ := hk.update hok hs
    exact ⟨t', fs', ms, ht', hk'⟩

theorem init : Keeps hash R ReducerProgram.init ReducerTool.init [default] {} where
  tracks := .init
  returned := ReducerProgram.returned_of_none rfl
  viewed := ⟨.init, fun _ _ => rfl, fun f hf _ => by rw [List.mem_singleton.1 hf]; rfl,
    fun f hf => by rw [List.mem_singleton.1 hf]; exact nofun⟩
  marks := ⟨.cons (.new _) .nil, rfl⟩
  heap := .init
  valid := nofun

end Keeps

/-! ## Runs -/

/-- Every hook of a run meets `ReducerOk`. -/
def ReducerRunOk (hash : Key → Nat) (R : Reducers M) (p : ReducerProgram M) (t : ReducerTool M) :
    List (ReducerHook M) → Prop
  | [] => True
  | h :: hs =>
    ReducerOk hash R p t h ∧ ∀ p' ∈ p.step R h, ∀ t' ∈ t.step hash R h, ReducerRunOk hash R p' t' hs

theorem Keeps.run {p p' : ReducerProgram M} {hooks : List (ReducerHook M)}
    (hk : Keeps hash R p t fs ms)
    (hok : ReducerRunOk hash R p t hooks) (hs : p.run R hooks = some p') :
    ∃ t' fs' ms', t.run hash R hooks = some t' ∧ Keeps hash R p' t' fs' ms' := by
  induction hooks generalizing p t fs ms with
  | nil =>
    cases hs
    exact ⟨t, fs, ms, rfl, hk⟩
  | cons h hooks ih =>
    simp only [ReducerProgram.run, List.foldlM_cons, Option.bind_eq_bind,
      Option.bind_eq_some_iff] at hs
    obtain ⟨p₁, hp₁, hs⟩ := hs
    obtain ⟨t₁, fs₁, ms₁, ht₁, hk₁⟩ := hk.step hok.1 hp₁
    obtain ⟨t', fs', ms', ht', hk'⟩ := ih hk₁ (hok.2 p₁ hp₁ t₁ ht₁) hs
    refine ⟨t', fs', ms', ?_, hk'⟩
    rw [ReducerTool.run, List.foldlM_cons, ht₁]
    exact ht'

instance (c : ViewStack ReducerViews) : Decidable (c.MergeOk hash) :=
  inferInstanceAs (Decidable (∀ f ∈ c.frameStack.read c.frameStack.headPtr, f.parentContin > 0 →
    ∀ p ∈ c.frameStack.read (c.frameStack.ancestor f.parentContin), ∀ l ∈ p.reducerViews,
    ∀ r ∈ f.reducerViews,
      l.occupancy ≠ 0 → r.occupancy ≠ 0 →
        let leftDst : Bool := l.occupancy ≥ r.occupancy
        InsertsOk hash leftDst { dst := if leftDst then l else r }
          (if leftDst then r else l).scanned))

instance decidableMergesOk (t : ReducerTool M) :
    (hooks : List (ViewStack.Hook ReducerViews)) → Decidable (ReducerTool.MergesOk hash R t hooks)
  | [] => inferInstanceAs (Decidable True)
  | hook :: hooks =>
    have := fun t' => decidableMergesOk t' hooks
    inferInstanceAs (Decidable ((hook.reduces = true → t.views.MergeOk hash) ∧
      ∀ t' ∈ t.viewStep hash R hook, ReducerTool.MergesOk hash R t' hooks))

instance (t : ReducerTool M) (key : Key) : Decidable (LookupOk hash t key) :=
  inferInstanceAs (Decidable (∀ r ∈ t.views.getOrCreateReducerViews (hyperTables hash),
    ∀ f ∈ r.2.frameStack.read r.1, ∀ u ∈ f.reducerViews,
      u.capacity < 2 ^ 27 ∧ (u.find hash key = none → InsertOk hash u key)))

instance decidableReducerOk (p : ReducerProgram M) (t : ReducerTool M) :
    (h : ReducerHook M) → Decidable (ReducerOk hash R p t h)
  | .driver h =>
    inferInstanceAs (Decidable (TraceOk p.trace h ∧ p.trace.program.acts.length < 2 ^ 31 ∧
    ∀ hooks ∈ t.driver.viewHooks h, ∀ driver ∈ t.driver.step h,
    ReducerTool.MergesOk hash R { t with driver } hooks))
  | .register key _ =>
    inferInstanceAs
      (Decidable (isValid key = true ∧ t.views.stealable = some false ∧ t.mem key = none))
  | .unregister _ => inferInstanceAs (Decidable (t.views.stealable = some false))
  | .update key fresh _ =>
    inferInstanceAs
      (Decidable (t.mem fresh = none ∧ (t.views.stealable = some true → LookupOk hash t key)))

instance decidableReducerRunOk (p : ReducerProgram M) (t : ReducerTool M) :
    (hooks : List (ReducerHook M)) → Decidable (ReducerRunOk hash R p t hooks)
  | [] => inferInstanceAs (Decidable True)
  | h :: hs =>
    have := fun p' t' => decidableReducerRunOk p' t' hs
    inferInstanceAs (Decidable (ReducerOk hash R p t h ∧
      ∀ p' ∈ p.step R h, ∀ t' ∈ t.step hash R h, ReducerRunOk hash R p' t' hs))

end

end Cilksan
