/-
The bags of parallel loops: where the accesses are that a loop's body has made
itself, whatever the program runs before, between and inside the iterations.

As long as the Iter-bag's version has not wrapped since, an access is in the
Iter-bag, with the version of its iteration. When the version wraps, the
Iter-bag, if it was used, goes to the P-bag of region 0.
-/
import Mathlib.Data.List.Pairwise
import CilkTools.Cilksan.ChildReturns
import CilkTools.Cilksan.Exactness
import CilkTools.Cilksan.OwnershipRuns

namespace Cilksan

open FrameData

/-- How far a parallel loop has come: the iterations that have ended, and the
accesses its body has made itself, each with its iteration. -/
structure LoopProgress where
  iter : Nat := 0
  accesses : List (MemoryAccess × Nat) := []
  deriving DecidableEq, Repr

namespace LoopProgress

def next (l : LoopProgress) : LoopProgress := { l with iter := l.iter + 1 }

def add (l : LoopProgress) (m : MemoryAccess) : LoopProgress :=
  { l with accesses := (m, l.iter) :: l.accesses }

end LoopProgress

/-- The innermost is a parallel loop. -/
def Nesting.inLoop (n : Nesting) : Bool := n.opened.head?.any (·.isLoop)

/-- The loops that are open, the innermost first, once a hook has led to `c'`. -/
def trackLoops (n : Nesting) (c' : CilkSan) (ls : List LoopProgress) : Hook → List LoopProgress
  | .loopIterationBegin _ => if n.pendingLoop then {} :: ls else ls
  | .loopIterationEnd => ls.modifyHead LoopProgress.next
  | .loopEnd _ => if n.pendingLoop then ls else ls.tail
  | .access _ =>
    match c'.log with
    | m :: _ => if n.inLoop then ls.modifyHead (·.add m) else ls
    | [] => ls
  | _ => ls

/-- The Iter-bag holds an access of iteration `j`, and can tell iteration `k` from it. -/
def InIterbag (h : Bags) (f : FrameData) (k : Nat) (m : MemoryAccess) (j : Nat) : Prop :=
  ∃ i, f.iterbag = some i ∧ f.iterbagUsed = true ∧ h.Owned m.func i ∧ m.version = j % versionEnd ∧
    j / versionEnd = k / versionEnd

/-- The version has wrapped since iteration `j`, and the P-bag holds the access. -/
def InPbag (h : Bags) (f : FrameData) (k : Nat) (m : MemoryAccess) (j : Nat) : Prop :=
  ∃ p, f.pbag 0 = some p ∧ h.Owned m.func p ∧ j / versionEnd < k / versionEnd

/-- The bags of a loop's frame are as far as the loop, and nothing else is in its Iter-bag. -/
structure Versioned (h : Bags) (log : List MemoryAccess) (f : FrameData)
    (l : LoopProgress) : Prop where
  version : ∃ i x, f.iterbag = some i ∧ h.bag i = some x ∧ x.version = l.iter % versionEnd
  placed : ∀ m j, (m, j) ∈ l.accesses →
    j ≤ l.iter ∧ (InIterbag h f l.iter m j ∨ InPbag h f l.iter m j)
  own : ∀ m ∈ log, ∀ i, f.iterbag = some i → h.Owned m.func i → ∃ j, (m, j) ∈ l.accesses

/-- The loops that are open have the loop frames of the stack. -/
structure Looping (n : Nesting) (c : CilkSan) (ls : List LoopProgress) : Prop where
  owning : Owning n c
  loops : List.Forall₂ (Versioned c.bags c.log) (c.frames.filter (·.isLoopFrame)) ls

/-! ## Bags and their frames -/

variable {n n' : Nesting} {c c' : CilkSan} {h h' : Bags} {f f' : FrameData}
  {log : List MemoryAccess}
variable {l : LoopProgress} {ls : List LoopProgress}

/-- A bag is one frame's. -/
theorem Owning.eq_of_has (hi : Owning n c) {f g : FrameData} (hf : f ∈ c.frames)
    (hg : g ∈ c.frames) {b : Nat} (hfb : f.Has b) (hgb : g.Has b) : f = g := by
  by_contra hne
  have hsymm : Std.Symm Apart := ⟨fun _ _ h b hb hb' => h b hb' hb⟩
  exact hi.apart.forall hf hg hne b hfb hgb

/-- A bag that holds a recorded access has been used. -/
theorem Owning.retains (hi : Owning n c) {m : MemoryAccess} (hm : m ∈ c.log) {f : FrameData}
    (hf : f ∈ c.frames) {b : Nat} (hb : f.Has b) (ho : c.bags.Owned m.func b) : f.Retains b := by
  obtain ⟨g, hg, b', hr, ho'⟩ := hi.log m hm
  obtain rfl := ho.unique ho'
  rwa [hi.eq_of_has hf hg hb hr.has]

theorem Versioned.forall₂_of_mem {log' : List MemoryAccess} {fs : List FrameData}
    (hall : ∀ g ∈ fs, ∀ l, Versioned h log g l → Versioned h' log' g l)
    (hv : List.Forall₂ (Versioned h log) (fs.filter (·.isLoopFrame)) ls) :
    List.Forall₂ (Versioned h' log') (fs.filter (·.isLoopFrame)) ls :=
  ((List.forall₂_and_left _ _).2 ⟨fun g hg => hall g (List.mem_filter.1 hg).1, hv⟩).imp
    fun _ l hg => hg.1 l hg.2

/-- The frames `olds` at the head gave way to `f'`, to whose bags went what
they retained. -/
structure Displaced (c c' : CilkSan) (olds rest : List FrameData) (f' : FrameData)
    (gone : Nat → Prop) (into : Nat → Nat → Prop) : Prop where
  heap : Rehomed c.bags c'.bags gone into
  before : c.frames = olds ++ rest
  after : c'.frames = f' :: rest
  log : c'.log = c.log
  left : ∀ {b}, gone b → ∃ f ∈ olds, f.Has b
  has : ∀ {b t}, into b t → f'.Has t
  moved : ∀ f ∈ olds, ∀ {b}, f.Retains b → gone b → ∃ t, into b t

namespace Displaced

variable {olds rest : List FrameData} {gone : Nat → Prop} {into : Nat → Nat → Prop}

/-- A recorded access is where it was, or where its bag's set went. -/
theorem logged (hd : Displaced c c' olds rest f' gone into) (hi : Owning n c) {m : MemoryAccess}
    (hm : m ∈ c.log) : ∃ b, c.bags.Owned m.func b ∧ (gone b → ∃ t, into b t) := by
  obtain ⟨g, hg, b, hr, ho⟩ := hi.log m hm
  refine ⟨b, ho, fun hb => ?_⟩
  obtain ⟨g', hg', hb'⟩ := hd.left hb
  have hmem : g' ∈ c.frames := by rw [hd.before]; exact List.mem_append_left _ hg'
  rw [hi.eq_of_has hg hmem hr.has hb'] at hr
  exact hd.moved g' hg' hr hb

/-- The Iter-bag stays and nothing comes into it. -/
theorem versioned (hd : Displaced c c' olds rest f' gone into) (hi : Owning n c) {g g' : FrameData}
    (hv : Versioned c.bags c.log g l) (hb : g'.iterbag = g.iterbag)
    (hu : g'.iterbagUsed = g.iterbagUsed)
    (hg : ∀ i, g.iterbag = some i → ¬ gone i ∧ ∀ b, ¬ into b i)
    (hp : (∀ p, g.pbag 0 = some p → g'.pbag 0 = some p ∧ ¬ gone p) ∨
      ∀ e ∈ l.accesses, e.2 / versionEnd = l.iter / versionEnd) :
      Versioned c'.bags c'.log g' l := by
  obtain ⟨i, x, hib, hx, hver⟩ := hv.version
  obtain ⟨hgi, hinto⟩ := hg i hib
  refine ⟨?_, fun m j hmem => ?_, fun m hm i' hi' ho => ?_⟩
  · obtain ⟨x', hx', hver'⟩ := hd.heap.version hgi hx
    exact ⟨i, x', hb.trans hib, hx', hver'.trans hver⟩
  · obtain ⟨hle, hplace⟩ := hv.placed m j hmem
    refine ⟨hle, ?_⟩
    rcases hplace with ⟨i', hi', hused, ho, hrest⟩ | ⟨p, hp₀, ho, hlt⟩
    · exact .inl ⟨i', hb.trans hi', hu.trans hused, hd.heap.kept (hg i' hi').1 ho, hrest⟩
    · rcases hp with hp | hp
      · exact .inr ⟨p, (hp p hp₀).1, hd.heap.kept (hp p hp₀).2 ho, hlt⟩
      · have heq : j / versionEnd = l.iter / versionEnd := hp _ hmem
        omega
  · rw [hb] at hi'
    rw [hd.log] at hm
    obtain ⟨b, ho₁, hto⟩ := hd.logged hi hm
    by_cases hgb : gone b
    · obtain ⟨t, ht⟩ := hto hgb
      obtain rfl := ho.unique (hd.heap.moved ht ho₁)
      exact absurd ht ((hg _ hi').2 b)
    · obtain rfl := ho.unique (hd.heap.kept hgb ho₁)
      exact hv.own m hm _ hi' ho₁

/-- The loops below. -/
theorem below (hd : Displaced c c' olds rest f' gone into) (hi : Owning n c) (hi' : Owning n' c')
    (hv : List.Forall₂ (Versioned c.bags c.log) (rest.filter (·.isLoopFrame)) ls) :
    List.Forall₂ (Versioned c'.bags c'.log) (rest.filter (·.isLoopFrame)) ls := by
  have hold := hi.apart
  have hnew := hi'.apart
  rw [hd.before, List.pairwise_append] at hold
  rw [hd.after, List.pairwise_cons] at hnew
  refine Versioned.forall₂_of_mem (fun g hg l hv => ?_) hv
  have hstays : ∀ {b}, g.Has b → ¬ gone b := fun hb hgone => by
    obtain ⟨f₀, hf₀, hb₀⟩ := hd.left hgone
    exact hold.2.2 f₀ hf₀ g hg _ hb₀ hb
  refine hd.versioned hi hv rfl rfl (fun i hib => ⟨hstays (.inr (.inr hib)), fun b hto => ?_⟩)
    (.inl fun p hp => ⟨hp, hstays (.inr (.inl ⟨0, hp⟩))⟩)
  exact hnew.1 g hg i (hd.has hto) (.inr (.inr hib))

/-- The head frame, the loops below, and the frame that the head's place is taken from. -/
theorem looping (hd : Displaced c c' olds rest f' gone into) (hi : Owning n c) (hi' : Owning n' c')
    (hv : List.Forall₂ (Versioned c.bags c.log) ((f :: rest).filter (·.isLoopFrame)) ls)
    (hl : f'.isLoopFrame = f.isLoopFrame)
    (hhead : f.isLoopFrame = true → ∀ l ∈ ls.head?, Versioned c.bags c.log f l →
      Versioned c'.bags c'.log f' l) :
    Looping n' c' ls := by
  refine ⟨hi', ?_⟩
  rw [hd.after]
  by_cases hf : f.isLoopFrame = true
  · rw [List.filter_cons_of_pos hf] at hv
    rw [List.filter_cons_of_pos (hl.trans hf)]
    cases hv with
    | cons hfl hv => exact .cons (hhead hf _ rfl hfl) (hd.below hi hi' hv)
  · rw [List.filter_cons_of_neg hf] at hv
    rw [List.filter_cons_of_neg (by rwa [hl])]
    exact hd.below hi hi' hv

end Displaced

theorem Rehomed.refl (hw : h.WF) : Rehomed h h (fun _ => False) (fun _ _ => False) where
  wf := hw
  is _ hb := hb
  version _ hx := ⟨_, hx, rfl⟩
  moved hto := hto.elim
  kept _ ho := ho

/-- The head frame's bags stay. -/
theorem Looping.sameBags {rest : List FrameData} (hi : Looping n c ls) (hi' : Owning n' c')
    (hr : Rehomed c.bags c'.bags (fun _ => False) (fun _ _ => False)) (hf : c.frames = f :: rest)
    (hf' : c'.frames = f' :: rest) (hlog : c'.log = c.log) (hl : f'.isLoopFrame = f.isLoopFrame)
    (hib : f'.iterbag = f.iterbag) (hu : f'.iterbagUsed = f.iterbagUsed)
    (hp : f'.pbag 0 = f.pbag 0) : Looping n' c' ls := by
  have hd : Displaced c c' [f] rest f' (fun _ => False) (fun _ _ => False) :=
    ⟨hr, hf, hf', hlog, fun hb => hb.elim, fun hto => hto.elim, fun _ _ _ _ hb => hb.elim⟩
  refine hd.looping hi.owning hi' (hf ▸ hi.loops) hl fun _ l _ hv => ?_
  exact hd.versioned hi.owning hv hib hu (fun i _ => ⟨id, fun _ => id⟩)
    (.inl fun p hp₀ => ⟨hp.trans hp₀, id⟩)

/-- A frame that is no loop's goes on top. -/
theorem Looping.push (hi : Looping n c ls) (hi' : Owning n' c')
    (hr : Rehomed c.bags c'.bags (fun _ => False) (fun _ _ => False))
    (hf' : c'.frames = f' :: c.frames)
    (hlog : c'.log = c.log) (hl : f'.isLoopFrame = false) : Looping n' c' ls := by
  have hd : Displaced c c' [] c.frames f' (fun _ => False) (fun _ _ => False) :=
    ⟨hr, rfl, hf', hlog, fun hb => hb.elim, fun hto => hto.elim, fun _ _ _ _ hb => hb.elim⟩
  refine ⟨hi', ?_⟩
  rw [hf', List.filter_cons_of_neg (by simp [hl])]
  exact hd.below hi.owning hi' hi.loops

/-! ## Steps of the frames -/

/-- The return of a call follows no null pointer. -/
theorem ReturnOk.of_leave {child parent : FrameData} {fs : List FrameData}
    (hfr : c.frames = child :: parent :: fs)
    (hc : c.leaveCilkFunction 0 = some c') : ReturnOk child parent := by
  simp only [CilkSan.leaveCilkFunction, CilkSan.mergeBagFromReturningChild, hfr,
    Bool.false_eq_true, if_false,
    CilkSan.mergeCalled, Option.bind_eq_bind, Option.bind_eq_some_iff] at hc
  obtain ⟨c₁, ⟨⟨parent', h₁⟩, ⟨h₂, -, hmerge⟩, -⟩, -⟩ := hc
  cases hany : (child.pbags.getD []).any Option.isSome with
  | false =>
    rw [List.any_eq_false] at hany
    exact .inl fun o ho => by simpa using hany o ho
  | true =>
    rw [if_pos hany] at hmerge
    simp only [Option.bind_eq_some_iff] at hmerge
    obtain ⟨⟨p, f', h₃⟩, hl, h₄, hfold, -⟩ := hmerge
    refine .inr ⟨fun o ho => ?_, ?_⟩
    · cases o with
      | some b => rfl
      | none =>
        have hnone := Returning.foldlM_combine_none (p := p) ho h₃
        simp only [Option.bind_eq_bind] at hnone
        rw [hnone] at hfold
        cases hfold
    · simp only [FrameData.lazyPbag, Option.bind_eq_bind, Option.bind_eq_some_iff] at hl
      obtain ⟨ps, hps, o, ho, -⟩ := hl
      obtain ⟨hlt, -⟩ := List.getElem?_eq_some_iff.1 ho
      rw [hps, Option.getD_some]
      omega

/-- A hook that goes through, no loop ending before its first iteration. -/
theorem Owning.of_step {k : Hook} (hi : Owning n c)
    (hok : ∀ r, k = .loopEnd r → n.pendingLoop = false)
    (hn : n.step k = some n') (hc : c.step k = some c') : Owning n' c' := by
  have hother : OwnershipOk c k → Owning n' c' := fun hown => by
    obtain ⟨c₁, hc₁, hi₁⟩ := hi.step hown hn
    rw [hc] at hc₁
    cases hc₁
    exact hi₁
  cases k with
  | loopEnd r => exact hother (hi.pending.trans (hok r rfl))
  | funcExit =>
    have hl := hi.layout
    simp only [Nesting.step] at hn
    split at hn
    · next m k os hop =>
      simp only [Option.ite_none_right_eq_some, Option.some.injEq] at hn
      obtain ⟨hrun, rfl⟩ := hn
      rw [hop] at hl
      generalize hks : c.framesSkipped = ks at hl
      generalize hfs : c.frames = fs at hl
      cases hl with
      | @skipped _ _ ks' _ hr hl =>
        have hstep : c.step .funcExit = some { c with framesSkipped := ks' } := by
          simp [CilkSan.step, CilkSan.funcExit, hks]
        rw [hstep] at hc
        cases hc
        exact hi.of_layout _ c.startNewLoop (hfs ▸ hl) hi.pending
          (Owning.not_pending (n.all_running hrun).1) rfl
      | spawned hs ho => simp [Opened.isTask, Opened.isLoop] at ho
      | @called _ _ _ ks' f gs hr hf hl =>
        obtain ⟨g, gs', o, rfl, -⟩ := hl.exists_head
        have hd : f.frameData.isDetacher = false := hf.detacher
        refine hother fun _ child hchild parent hparent => ?_
        rw [hfs] at hchild hparent
        cases hchild
        cases hparent
        simp only [CilkSan.step, CilkSan.funcExit, hks, List.head?_cons, CilkSan.doLeave, hfs, hd,
          Bool.false_eq_true,
          if_false, Option.bind_eq_bind, Option.bind_some, Option.bind_eq_some_iff] at hc
        obtain ⟨c₁, hleave, -⟩ := hc
        exact .of_leave hfs hleave
    · cases hn
  | _ => exact hother trivial

/-- The tool has gone on, with these entries for functions, and all that it has recorded. -/
structure CilkSan.Leads (c c' : CilkSan) (ks : List Bool) : Prop where
  framesSkipped : c'.framesSkipped = ks
  log : c.log <:+ c'.log

theorem CilkSan.Leads.refl {fs : List FrameData} {start : Bool} {ks : List Bool} :
    c.Leads { c with bags := h', frames := fs, startNewLoop := start, framesSkipped := ks } ks :=
  ⟨rfl, List.suffix_refl _⟩

/-! ## Functions and tasks -/

theorem Rehomed.mono {gone gone' : Nat → Prop} {into into' : Nat → Nat → Prop}
    (hr : Rehomed h h' gone into)
    (hg : ∀ b, gone b → gone' b) (hi : ∀ b t, into' b t → into b t) : Rehomed h h' gone' into' where
  wf := hr.wf
  is hb := hr.is fun hgb => hb (hg _ hgb)
  version hb := hr.version fun hgb => hb (hg _ hgb)
  moved hto := hr.moved (hi _ _ hto)
  kept hb := hr.kept fun hgb => hb (hg _ hgb)

/-- New bags disturb none. -/
theorem Absorbed.fresh {t : Nat} (ha : Absorbed h h' t (fun _ => False) (fun _ => False)) :
    Rehomed h h' (fun _ => False) (fun _ _ => False) :=
  ha.rehomed.mono (fun _ hb => hb) fun _ _ hto => hto.elim

/-- The frame that a function, a task or a loop starts with. -/
theorem Owning.startNewFunction (hi : Owning n c) (ks : List Bool) (k : Nat) :
    ∃ h' g s, ({ c with framesSkipped := ks } : CilkSan).startNewFunction k =
        some { c with bags := h', frames := g :: c.frames, framesSkipped := ks } ∧
        CilkSan.New g s k ∧
      h'.Is s .sBag ∧ Rehomed c.bags h' (fun _ => False) (fun _ _ => False) := by
  obtain ⟨f, fs, o, hf, -⟩ := hi.layout.exists_head
  obtain ⟨s, h', g, hst, hnew, -, hsi, ha⟩ :=
    CilkSan.startNewFunction_spec (c := { c with framesSkipped := ks }) k hf hi.wf
  exact ⟨h', g, s, by rw [hst, hf], hnew, hsi, (ha 0).fresh⟩

theorem Looping.funcEntry {m : Bool} {k : Nat} (hi : Looping n c ls) (hi' : Owning n' c')
    (hc : c.funcEntry m k = some c') :
    Looping n' c' ls ∧ ∃ skipped, c.Leads c' (skipped :: c.framesSkipped) ∧
      (skipped = true → ∀ f ∈ c.frames.head?, f.isLoopFrame = false) := by
  simp only [CilkSan.funcEntry, Option.bind_eq_bind, Option.bind_eq_some_iff] at hc
  obtain ⟨synced, hsync, hc⟩ := hc
  split at hc
  · next hskip =>
    cases hc
    refine ⟨⟨hi', hi.loops⟩, true, .refl, fun _ f hf => ?_⟩
    have hhead : c.frames.head? = some f := hf
    simp only [CilkSan.isLocalSynced, hhead, Option.bind_eq_bind, Option.bind_some] at hsync
    cases hsync
    simp only [Bool.and_eq_true, Bool.not_eq_true'] at hskip
    exact hskip.2.1
  · obtain ⟨h', g, s, hst, -, -, hr⟩ := hi.owning.startNewFunction (false :: c.framesSkipped) k
    simp only [CilkSan.doEnter, hst, CilkSan.setHead, List.head?_cons, List.tail_cons,
      Option.bind_eq_bind, Option.bind_some] at hc
    cases hc
    exact ⟨hi.push hi' hr rfl rfl
      (show EntryFrameType.SPAWNER_SHADOW_FRAME.isLoopFrame = false by decide), false, .refl,
      fun h => absurd h Bool.false_ne_true⟩

theorem Looping.task {k : Nat} (hi : Looping n c ls) (hi' : Owning n' c')
    (hc : c.doEnterHelper k = some c') : Looping n' c' ls ∧ c.Leads c' c.framesSkipped := by
  obtain ⟨h', g, s, hst, -, -, hr⟩ := hi.owning.startNewFunction c.framesSkipped k
  simp only [CilkSan.doEnterHelper, hst, CilkSan.setHead, List.head?_cons, List.tail_cons,
    Option.bind_eq_bind, Option.bind_some] at hc
  cases hc
  exact ⟨hi.push hi' hr rfl rfl
    (show EntryFrameType.DETACHER_SHADOW_FRAME.isLoopFrame = false by decide), .refl⟩

/-! ## Returns -/

section returning

variable {child parent parent' : FrameData} {fs : List FrameData} {into : Nat → Nat → Prop}

/-- A child returns, and its parent has what it retained. -/
theorem Looping.pop (hi : Looping n c ls) (hi' : Owning n' c')
    (hfr : c.frames = child :: parent :: fs)
    (hr : Rehomed c.bags c'.bags child.Has into) (hfr' : c'.frames = parent' :: fs)
    (hlog : c'.log = c.log) (hmoved : ∀ {b}, child.Retains b → ∃ t, into b t)
    (hinto : ∀ {b t}, into b t → parent'.Has t ∧ parent.iterbag ≠ some t)
    (hl : parent'.isLoopFrame = parent.isLoopFrame) (hib : parent'.iterbag = parent.iterbag)
    (hu : parent'.iterbagUsed = parent.iterbagUsed) (hp : ∀ {p}, parent.pbag 0 = some p →
      parent'.pbag 0 = some p) :
    Looping n' c' (if child.isLoopFrame then ls.tail else ls) := by
  have hap : child.Apart parent := hi.owning.apart_parent hfr
  have hd : Displaced c c' [child, parent] fs parent' child.Has into := by
    refine ⟨hr, hfr, hfr', hlog, fun hb => ⟨child, by simp, hb⟩, fun hto => (hinto hto).1,
      fun f hf b hb hgone => ?_⟩
    simp only [List.mem_cons, List.not_mem_nil, or_false] at hf
    rcases hf with rfl | rfl
    · exact hmoved hb
    · exact absurd hgone (hap.not_has hb.has)
  have hv := hi.loops
  rw [hfr] at hv
  refine hd.looping hi.owning hi' ?_ hl fun _ l _ hpl => hd.versioned hi.owning hpl hib hu
    (fun i hi => ?_) (.inl fun p hp₀ => ⟨hp hp₀, hap.not_has (.inr (.inl ⟨0, hp₀⟩))⟩)
  · by_cases hc : child.isLoopFrame = true
    · rw [List.filter_cons_of_pos hc] at hv
      rw [if_pos hc]
      cases hv with
      | cons _ hv => exact hv
    · rw [List.filter_cons_of_neg hc] at hv
      rwa [if_neg hc]
  · exact ⟨hap.not_has (.inr (.inr hi)), fun b hto => (hinto hto).2 hi⟩

/-- The parent's Iter-bag is not its S-bag, nor a P-bag afterwards. -/
theorem Rehomed.iterbag_ne (hr : Rehomed h h' child.Has into) (hp : parent.Ok h)
    (hap : child.Apart parent) {p : Nat}
    (hpi : h'.Is p .pBag) : parent.iterbag ≠ some p := fun hib => by
  have := (hr.is (hap.not_has (.inr (.inr hib))) (hp.iterbag hib).1).type_eq hpi
  cases this

theorem FrameData.Ok.sbag_ne_iterbag (hp : parent.Ok h) {s : Nat} (hs : parent.sbag = some s) :
    parent.iterbag ≠ some s :=
  fun hib => (hp.iterbag hib).2 hs

/-- A region of the parent that the child's sets are left to. -/
theorem FrameData.pbag_zero_of_region {f : FrameData} {r q : Nat}
    (hr : r < (f.pbags.getD []).length)
    (hq : f.pbag r = some q ∨ f.pbag r = none) {p : Nat} (hp : f.pbag 0 = some p) :
    (f.withPbag r (some q)).pbag 0 = some p := by
  rw [pbag_withPbag hr]
  split
  · next h0 =>
    subst h0
    rcases hq with hq | hq
    · exact hq.symm.trans hp
    · rw [hq] at hp
      cases hp
  · exact hp

theorem Looping.leaveCilkFunction {c₁ : CilkSan} (hi : Looping n c ls) (hi' : Owning n' c')
    (hfr : c.frames = child :: parent :: fs)
    (hc : child.Ok c.bags) (hib : child.iterbag = none) (hl : child.isLoopFrame = false)
    (hp : parent.Ok c.bags)
    (hc₁ : c.leaveCilkFunction 0 = some c₁) (hbags : c'.bags = c₁.bags)
    (hframes : c'.frames = c₁.frames)
    (hlog : c'.log = c₁.log) : Looping n' c' ls ∧ c.Leads c₁ c.framesSkipped := by
  have hap : child.Apart parent := hi.owning.apart_parent hfr
  obtain ⟨s, hs, hsi⟩ := hp.sbag
  have hw := hi.owning.wf
  suffices Looping n' c' (if child.isLoopFrame then ls.tail else ls) ∧ c.Leads c₁ c.framesSkipped by
    rwa [hl, if_neg Bool.false_ne_true] at this
  have hsynced : (∀ r, child.pbag r = none) →
      Looping n' c' (if child.isLoopFrame then ls.tail else ls) ∧
      c.Leads c₁ c.framesSkipped := fun hn => by
    obtain ⟨h', hret, ha⟩ := CilkSan.leaveCilkFunction_spec (r := 0) hfr hw hc hib hn hp hap hs
    rw [hret] at hc₁
    cases hc₁
    have hb : c'.bags = h' := hbags
    refine ⟨hi.pop hi' hfr (by rw [hb]; exact ha.rehomed) hframes hlog (fun hb => ?_)
      (fun hto => ?_) rfl rfl rfl id, .refl⟩
    · rcases hb with hb | ⟨r, hb⟩ | hb
      · exact ⟨s, hb, rfl⟩
      · rw [hn] at hb
        cases hb
      · rw [hib] at hb
        cases hb.2
    · rw [hto.2]
      exact ⟨.inl hs, hp.sbag_ne_iterbag hs⟩
  rcases ReturnOk.of_leave hfr hc₁ with hn | ⟨hall, hr⟩
  · refine hsynced fun r => ?_
    cases hb : child.pbag r with
    | none => rfl
    | some b => exact absurd (hn _ (mem_pbags.2 ⟨r, hb⟩)) (by simp)
  · cases hany : (child.pbags.getD []).any Option.isSome with
    | false =>
      rw [List.any_eq_false] at hany
      refine hsynced fun r => ?_
      cases hb : child.pbag r with
      | none => rfl
      | some b => exact absurd rfl (hany _ (mem_pbags.2 ⟨r, hb⟩))
    | true =>
      obtain ⟨p, h', f', hret, hf', hpp, hpi, hre, -⟩ :=
        CilkSan.leaveUnsynced_spec hfr hw hc hib hp hap hall hany hr hs
      rw [hret] at hc₁
      cases hc₁
      have hb : c'.bags = h' := hbags
      have hpb := pbag_withPbag
          (f := { parent with sbagUsed := parent.sbagUsed || child.sbagUsed }) hr (some p)
      refine ⟨hi.pop hi' hfr (by rw [hb]; exact hre) hframes hlog (fun hb => ?_) (fun hto => ?_)
        (by rw [hf']; rfl) (by rw [hf']; rfl) (by rw [hf']; rfl) fun hp₀ => ?_, .refl⟩
      · rcases hb with hb | hb | hb
        · exact ⟨s, .inl ⟨hb, rfl⟩⟩
        · exact ⟨p, .inr ⟨hb, rfl⟩⟩
        · rw [hib] at hb
          cases hb.2
      · rcases hto with ⟨-, rfl⟩ | ⟨-, rfl⟩
        · exact ⟨.inl (by rw [hf']; exact hs), hp.sbag_ne_iterbag hs⟩
        · exact ⟨.inr (.inl ⟨0, by rw [hf', hpb, if_pos rfl]⟩), hre.iterbag_ne hp hap hpi⟩
      · rw [hf']
        exact pbag_zero_of_region
          (f := { parent with sbagUsed := parent.sbagUsed || child.sbagUsed }) hr
          (hpp.imp_right And.left) hp₀

end returning

theorem Looping.funcExit {m : Bool} {k : Nat} {os : List Opened} (hi : Looping n c ls)
    (hi' : Owning n' c') (hop : n.opened = .func m k :: os) (hc : c.funcExit = some c') :
    Looping n' c' ls ∧ c.Leads c' c.framesSkipped.tail := by
  have hl := hi.owning.layout
  rw [hop] at hl
  generalize hks : c.framesSkipped = ks at hl
  generalize hfs : c.frames = fs at hl
  cases hl with
  | @skipped _ _ ks' _ hr hl =>
    have hstep : c.funcExit = some { c with framesSkipped := ks' } := by
      simp [CilkSan.funcExit, hks]
    rw [hstep] at hc
    cases hc
    exact ⟨⟨hi', hi.loops⟩, rfl, List.suffix_refl _⟩
  | spawned hs ho => simp [Opened.isTask, Opened.isLoop] at ho
  | @called _ _ _ ks' f gs hr hf hl =>
    obtain ⟨g, gs', o, rfl, hg⟩ := hl.exists_head
    have hd : f.frameData.isDetacher = false := hf.detacher
    simp only [CilkSan.funcExit, hks, List.head?_cons, CilkSan.doLeave, hfs, hd,
      Bool.false_eq_true, if_false,
      Option.bind_eq_bind, Option.bind_some, Option.bind_eq_some_iff] at hc
    obtain ⟨c₁, hleave, hc⟩ := hc
    cases hc
    obtain ⟨hi₁, hks₁⟩ :=
      hi.leaveCilkFunction hi' hfs hf.ok (by simpa [Opened.isLoop] using hf.iterbag) hf.loop hg.ok
        hleave rfl rfl rfl
    exact ⟨hi₁, by rw [hks₁.framesSkipped, hks], hks₁.log⟩

theorem Looping.taskExit {k r : Nat} {o : Opened} {os : List Opened} (hi : Looping n c ls)
    (hi' : Owning n' c')
    (hop : n.opened = .task k :: o :: os) (hr : r < o.regions) (hc : c.doLeave r = some c') :
    Looping n' c' ls ∧ c.Leads c' c.framesSkipped := by
  have hl := hi.owning.layout
  rw [hop] at hl
  generalize hfs : c.frames = fs at hl
  cases hl with
  | @spawned _ _ _ f gs hs ht hf hl =>
    have hs' : o.spawns = true := hs
    obtain ⟨g, gs', rfl, hg⟩ := hl.top (.inl hs')
    have hap := hi.owning.apart_parent hfs
    have hib : f.iterbag = none := by simpa [Opened.isLoop] using hf.iterbag
    have hr' : r < (g.pbags.getD []).length := by rw [hg.length]; exact hr
    obtain ⟨p, h', hret, hp, hpi, ha⟩ :=
      CilkSan.returnFromDetach_spec hfs hi.owning.wf hf.ok hib hg.ok hap hr'
    have hd : f.frameData.isDetacher = true := hf.detacher
    simp only [CilkSan.doLeave, hfs, List.head?_cons, hd, if_true, hret, Option.bind_eq_bind,
      Option.bind_some] at hc
    cases hc
    have hlp : f.isLoopFrame = false := hf.loop
    suffices Looping n' _ (if f.isLoopFrame then ls.tail else ls) by
      rw [hlp, if_neg Bool.false_ne_true] at this
      exact ⟨this, .refl⟩
    refine hi.pop hi' hfs ha.rehomed rfl rfl (fun hb => ?_) (fun hto => ?_) rfl rfl rfl
      fun hp₀ => pbag_zero_of_region hr' (hp.imp_right And.left) hp₀
    · rcases hb with hb | hb | hb
      · exact ⟨p, .inl hb, rfl⟩
      · exact ⟨p, .inr hb, rfl⟩
      · rw [hib] at hb
        cases hb.2
    · rw [hto.2]
      exact ⟨.inr (.inl ⟨r, by rw [pbag_withPbag hr', if_pos rfl]⟩),
        ha.rehomed.iterbag_ne hg.ok hap hpi⟩

/-! ## Continuations and syncs -/

theorem Looping.detachContinue {r : Nat} (hi : Looping n c ls) (hi' : Owning n' c')
    (hc : c.doDetachContinue r = some c') : Looping n' c' ls ∧ c.Leads c' c.framesSkipped := by
  obtain ⟨f, fs, o, hf, -⟩ := hi.owning.layout.exists_head
  simp only [CilkSan.doDetachContinue, hf, List.head?_cons, CilkSan.setHead, List.tail_cons,
    Option.bind_eq_bind, Option.bind_some] at hc
  cases hc
  exact ⟨hi.sameBags hi' (.refl hi.owning.wf) hf rfl rfl rfl rfl rfl rfl, .refl⟩

/-- The P-bag of a region goes to the S-bag; that of region 0 is not to hold
accesses that the body of a loop has made. -/
theorem Looping.sync {r : Nat} {o : Opened} {os : List Opened} (hi : Looping n c ls)
    (hi' : Owning n' c') (hop : n.opened = o :: os) (hs : o.spawns = true) (hr : r < o.regions)
    (hok : r = 0 → o.isLoop = true →
      ∀ l ∈ ls.head?, ∀ e ∈ l.accesses, e.2 / versionEnd = l.iter / versionEnd)
    (hc : c.doSync r = some c') : Looping n' c' ls ∧ c.Leads c' c.framesSkipped := by
  have hl := hi.owning.layout
  rw [hop] at hl
  obtain ⟨f, fs, hf, ho⟩ := hl.top (.inl hs)
  obtain ⟨s, hfs, hsi⟩ := ho.ok.sbag
  have hr' : r < (f.pbags.getD []).length := by rw [ho.length]; exact hr
  obtain ⟨h', f', hcs, hf', ha⟩ := CilkSan.completeSync_spec hf hi.owning.wf ho.ok hr' hfs
  have hpb : ∀ q, f'.pbag q = if q = r then none else f.pbag q := fun q => by
    rw [hf']; exact pbag_withPbag hr' none q
  have hsb : f'.sbag = f.sbag := by rw [hf']; rfl
  have hib : f'.iterbag = f.iterbag := by rw [hf']; rfl
  have hiu : f'.iterbagUsed = f.iterbagUsed := by rw [hf']; rfl
  have hlf : f'.isLoopFrame = f.isLoopFrame := by rw [hf']; rfl
  simp only [CilkSan.doSync, hcs, List.head?_cons, CilkSan.setHead, List.tail_cons,
    Option.bind_eq_bind, Option.bind_some] at hc
  cases hc
  have hd : Displaced c { c with bags := h', frames := f'.exitContinuation r :: fs } [f] fs
      (f'.exitContinuation r)
      (fun b => f.pbag r = some b) fun b t => f.pbag r = some b ∧ t = s := by
    refine ⟨ha.rehomed, hf, rfl, rfl, fun hb => ⟨f, by simp, .inr (.inl ⟨r, hb⟩)⟩,
      fun hto => .inl ?_, fun _ _ b _ hb => ⟨s, hb, rfl⟩⟩
    rw [hto.2]
    exact hsb.trans hfs
  refine ⟨hd.looping hi.owning hi' (hf ▸ hi.loops) hlf fun hfl l hmem hv => ?_, .refl⟩
  refine hd.versioned hi.owning hv hib hiu (fun i hi' => ⟨fun hb => ?_, fun b hto => ?_⟩) ?_
  · exact absurd ((ho.ok.iterbag hi').1.type_eq (ho.ok.pbag hb)) (by simp)
  · exact (ho.ok.iterbag hi').2 (hto.2 ▸ hfs)
  · by_cases hr₀ : r = 0
    · exact .inr (hok hr₀ (ho.loop.symm.trans hfl) l hmem)
    · refine .inl fun p hp => ⟨(hpb 0).trans (by rw [if_neg (Ne.symm hr₀)]; exact hp),
        fun hb => hr₀ ?_⟩
      exact ho.ok.distinct r 0 p (pbag_iff.1 hb) (pbag_iff.1 hp)

/-! ## Loops -/

/-- The first iteration of a loop makes its frame; another goes on with it. -/
theorem Looping.loopIterationBegin {k : Nat} (hi : Looping n c ls) (hi' : Owning n' c')
    (hc : c.doLoopIterationBegin k = some c') :
    Looping n' c' (if n.pendingLoop then {} :: ls else ls) ∧ c.Leads c' c.framesSkipped := by
  cases hpl : n.pendingLoop with
  | false =>
    obtain ⟨f, fs, o, hf, -⟩ := hi.owning.layout.exists_head
    have hstart : c.startNewLoop = false := hi.owning.pending.trans hpl
    simp only [CilkSan.doLoopIterationBegin, hstart, hf, List.head?_cons, CilkSan.setHead,
      List.tail_cons, Bool.false_eq_true, if_false, Option.bind_eq_bind, Option.bind_some] at hc
    cases hc
    exact ⟨hi.sameBags hi' (.refl hi.owning.wf) hf rfl rfl rfl rfl rfl rfl, .refl⟩
  | true =>
    have hstart : c.startNewLoop = true := hi.owning.pending.trans hpl
    obtain ⟨h₁, g, s, hst, hnew, hsi, hr⟩ :=
      hi.owning.startNewFunction c.framesSkipped (if k > 0 then k else 1)
    obtain ⟨i, h₂, hcr, hin, hii, hver, hab⟩ := CilkSan.createIterbag_spec
      (f := { g with frameData := EntryFrameType.DETACHER_SHADOW_FRAME.setLoopFrame })
      hr.wf hnew.sbag hsi (fun j hj => by rw [show _ = none from hnew.iterbag] at hj; cases hj)
    have hbegin : c.doLoopIterationBegin k = some { c with
        bags := h₂
        frames := { g with
          frameData := EntryFrameType.DETACHER_SHADOW_FRAME.setLoopFrame
          iterbag := some i
          iterbagUsed := false } :: c.frames
        startNewLoop := false } := by
      simp [CilkSan.doLoopIterationBegin, hstart, CilkSan.doEnterHelper, hst, CilkSan.setHead, hcr]
    rw [hbegin] at hc
    cases hc
    have hnone : ∀ t, g.iterbag ≠ some t := fun t => by rw [hnew.iterbag]; simp
    have hr' : Rehomed c.bags h₂ (fun _ => False) (fun _ _ => False) := by
      have hf := ((hab 0 (hnone 0)).mono (fun _ h => h) fun b hb => hnone b hb).fresh
      exact ⟨hf.wf, fun hb h => hf.is hb (hr.is hb h), fun hb hx => by
          obtain ⟨x₁, hx₁, hv₁⟩ := hr.version hb hx
          obtain ⟨x₂, hx₂, hv₂⟩ := hf.version hb hx₁
          exact ⟨x₂, hx₂, hv₂.trans hv₁⟩, fun hto => hto.elim,
            fun hb ho => hf.kept hb (hr.kept hb ho)⟩
    have hd : Displaced c { c with
        bags := h₂
        frames := { g with
          frameData := EntryFrameType.DETACHER_SHADOW_FRAME.setLoopFrame
          iterbag := some i
          iterbagUsed := false } :: c.frames
        startNewLoop := false } [] c.frames _ (fun _ => False) (fun _ _ => False) :=
      ⟨hr', rfl, rfl, rfl, fun hb => hb.elim, fun hto => hto.elim, fun _ _ _ _ hb => hb.elim⟩
    refine ⟨⟨hi', ?_⟩, .refl⟩
    rw [if_pos rfl]
    show List.Forall₂ _ (List.filter _ (_ :: c.frames)) _
    rw [List.filter_cons_of_pos (by simp [FrameData.isLoopFrame])]
    refine .cons ⟨?_, fun m j hmem => (List.not_mem_nil hmem).elim, fun m hm i' hib ho => ?_⟩
      (hd.below hi.owning hi' hi.loops)
    · obtain ⟨x, hx, hx₀⟩ := hver
      exact ⟨i, x, rfl, hx, hx₀⟩
    · -- The Iter-bag is new, and so holds nothing.
      cases hib
      obtain ⟨-, -, b, -, ho'⟩ := hi.owning.log m hm
      obtain rfl := ho.unique (hr'.kept id ho')
      obtain ⟨-, x, -, -, hx, -⟩ := hr.kept id ho'
      rw [hin] at hx
      cases hx

/-- The end of an iteration keeps the Iter-bag until its version wraps. -/
theorem Versioned.iterationEnd {s i p v : Nat} (hi : Owning n c) (hf : f ∈ c.frames)
    (ho : f.Ok c.bags)
    (hv : Versioned c.bags c.log f l) (hs : f.sbag = some s) (hib : f.iterbag = some i)
    (hver : v = l.iter % versionEnd) (he : CilkSan.IterationEnd c.bags h' f f' s i v p) :
    Versioned h' c.log f' l.next := by
  obtain ⟨i', y, hi', hy, hyv, hcase⟩ := he.iterbag
  have hii := (ho.iterbag hib).1
  have hsi : c.bags.Is s .sBag := by
    obtain ⟨s', hs', hsi⟩ := ho.sbag
    rw [hs] at hs'
    cases hs'
    exact hsi
  have hpb : f'.pbag 0 = some p := by rw [he.pbag, if_pos rfl]
  have hpne : i' ≠ p := fun h => by
    have := (he.ok.iterbag hi').1.type_eq (h ▸ he.ok.pbag hpb)
    cases this
  have hne : ∀ {r q}, f.pbag r = some q → q ≠ s ∧ q ≠ i := fun hq =>
    ⟨fun h => absurd (hsi.type_eq (h ▸ ho.pbag hq)) (by simp),
      fun h => absurd (hii.type_eq (h ▸ ho.pbag hq)) (by simp)⟩
  have hwrap : (v + 1) % versionEnd = 0 ↔ (l.iter + 1) % versionEnd = 0 := by
    rw [hver, Nat.mod_add_mod]
  refine ⟨⟨i', y, hi', hy, by rw [hyv, hver, Nat.mod_add_mod]; rfl⟩, fun m j hmem => ?_,
    fun m hm b hb hob => ?_⟩
  · obtain ⟨hle, hplace⟩ := hv.placed m j hmem
    refine ⟨Nat.le_succ_of_le hle, ?_⟩
    rcases hplace with ⟨i₀, hi₀, hused, hom, hmv, hwin⟩ | ⟨q, hq, hom, hlt⟩
    · obtain rfl : i = i₀ := Option.some.inj (hib.symm.trans hi₀)
      by_cases hw : (v + 1) % versionEnd = 0
      · have hlt : j / versionEnd < (l.iter + 1) / versionEnd := by
          have := hwrap.1 hw
          simp only [versionEnd] at *
          omega
        exact .inr ⟨p, hpb, he.iMoved hused hw hom, hlt⟩
      · rcases hcase with ⟨rfl, hu, -⟩ | ⟨-, hw'⟩
        · have heq : j / versionEnd = (l.iter + 1) / versionEnd := by
            have := hwrap.not.1 hw
            simp only [versionEnd] at *
            omega
          exact .inl ⟨i', hi', hu.trans hused, he.iKept hw hom, hmv, heq⟩
        · exact absurd hw' hw
    · have hqp : q = p := by
        rcases he.fresh with h | h
        · exact Option.some.inj (hq.symm.trans h)
        · rw [hq] at h
          cases h
      have hlt' : j / versionEnd < (l.iter + 1) / versionEnd :=
        lt_of_lt_of_le hlt (Nat.div_le_div_right (Nat.le_succ _))
      exact .inr ⟨p, hpb, hqp ▸ he.kept (hne hq).1 (hne hq).2 hom, hlt'⟩
  · obtain rfl : i' = b := Option.some.inj (hi'.symm.trans hb)
    obtain ⟨g, hg, b, hr, hom⟩ := hi.log m hm
    by_cases hbi : b = i
    · exact hv.own m hm i hib (hbi ▸ hom)
    · exfalso
      by_cases hbs : b = s
      · subst hbs
        rcases hi.retains hm hf (.inl hs) hom with h | ⟨r, h⟩ | h
        · exact hpne (hob.unique (he.sMoved h.1 hom))
        · exact (hne h).1 rfl
        · exact hbi (Option.some.inj (h.2.symm.trans hib))
      · obtain rfl := hob.unique (he.kept hbs hbi hom)
        obtain ⟨-, z, -, -, hz, -⟩ := hom
        rcases he.has (.inr (.inr hi')) with h | h
        · rcases h with h | ⟨r, h⟩ | h
          · exact hbs (Option.some.inj (h.symm.trans hs))
          · have := (he.ok.iterbag hi').1.type_eq (he.is hbs hbi (ho.pbag h))
            cases this
          · exact hbi (Option.some.inj (h.symm.trans hib))
        · rw [h] at hz
          cases hz

theorem Looping.loopIterationEnd {m : Nat} {os : List Opened} (hi : Looping n c ls)
    (hi' : Owning n' c')
    (hop : n.opened = .loop m true :: os) (hc : c.doLoopIterationEnd = some c') :
    Looping n' c' (ls.modifyHead LoopProgress.next) ∧ c.Leads c' c.framesSkipped := by
  have hl := hi.owning.layout
  rw [hop] at hl
  obtain ⟨f, fs, hf, ho⟩ := hl.top (.inl rfl)
  have hmem : f ∈ c.frames := by rw [hf]; simp
  obtain ⟨i, hib⟩ := Option.isSome_iff_exists.1 (show f.iterbag.isSome = true from ho.iterbag)
  obtain ⟨s, hs, hsi⟩ := ho.ok.sbag
  have hlf : f.isLoopFrame = true := ho.loop
  have hv := hi.loops
  rw [hf, List.filter_cons_of_pos hlf] at hv
  cases hv with
  | @cons _ l _ ls hfl hv =>
    obtain ⟨i₀, x, hi₀, hx, hxv⟩ := hfl.version
    obtain rfl : i = i₀ := Option.some.inj (hib.symm.trans hi₀)
    obtain ⟨h', f', p, hend, he⟩ := CilkSan.doLoopIterationEnd_spec hf hi.owning.wf ho.ok
      (by rw [ho.length]; exact ho.nonempty rfl) hs hib hx
    rw [hend] at hc
    cases hc
    have hlf' : f'.isLoopFrame = true := by rw [FrameData.isLoopFrame, he.frameData]; exact hlf
    have hpb : f'.Has p := .inr (.inl ⟨0, by rw [he.pbag, if_pos rfl]⟩)
    have hd : Displaced c { c with bags := h', frames := f' :: fs } [f] fs f'
        (fun b => b = s ∨ b = i) fun b t =>
        b = s ∧ f.sbagUsed = true ∧ t = p ∨
          b = i ∧ (f.iterbagUsed = true ∧ (x.version + 1) % versionEnd = 0 ∧ t = p ∨
            (x.version + 1) % versionEnd ≠ 0 ∧ t = i) := by
      refine ⟨⟨he.wf, fun hb => he.is (fun h => hb (.inl h)) (fun h => hb (.inr h)),
        fun hb => he.version (fun h => hb (.inl h)) (fun h => hb (.inr h)), fun hto hod => ?_,
        fun hb => he.kept (fun h => hb (.inl h)) (fun h => hb (.inr h))⟩, hf, rfl, rfl,
        fun hb => ⟨f, by simp, ?_⟩, fun hto => ?_, fun g hg b hr hb => ?_⟩
      · rcases hto with ⟨rfl, hu, rfl⟩ | ⟨rfl, ⟨hu, hw, rfl⟩ | ⟨hw, rfl⟩⟩
        · exact he.sMoved hu hod
        · exact he.iMoved hu hw hod
        · exact he.iKept hw hod
      · rcases hb with rfl | rfl
        · exact .inl hs
        · exact .inr (.inr hib)
      · rcases hto with ⟨-, -, rfl⟩ | ⟨-, ⟨-, -, rfl⟩ | ⟨hw, rfl⟩⟩
        · exact hpb
        · exact hpb
        · obtain ⟨i', -, hi', -, -, ⟨rfl, -⟩ | ⟨-, hw'⟩⟩ := he.iterbag
          · exact .inr (.inr hi')
          · exact absurd hw' hw
      · rw [List.mem_singleton] at hg
        subst hg
        rcases hb with rfl | rfl
        · rcases hr with h | ⟨r, h⟩ | h
          · exact ⟨p, .inl ⟨rfl, h.1, rfl⟩⟩
          · exact absurd (hsi.type_eq (ho.ok.pbag h)) (by simp)
          · exact absurd hs (ho.ok.iterbag h.2).2
        · by_cases hw : (x.version + 1) % versionEnd = 0
          · rcases hr with h | ⟨r, h⟩ | h
            · exact absurd h.2 (ho.ok.iterbag hib).2
            · exact absurd ((ho.ok.iterbag hib).1.type_eq (ho.ok.pbag h)) (by simp)
            · exact ⟨p, .inr ⟨rfl, .inl ⟨h.1, hw, rfl⟩⟩⟩
          · exact ⟨b, .inr ⟨rfl, .inr ⟨hw, rfl⟩⟩⟩
    have hfl' := hfl.iterationEnd hi.owning hmem ho.ok hs hib hxv he
    refine ⟨⟨hi', ?_⟩, .refl⟩
    show List.Forall₂ _ (List.filter _ (f' :: fs)) _
    rw [List.filter_cons_of_pos hlf', List.modifyHead_cons]
    exact .cons hfl' (hd.below hi.owning hi' hv)

/-- A loop leaves its P-bags, and its Iter-bag if used, to a region of its parent. -/
theorem Looping.loopEnd {m r : Nat} {o : Opened} {os : List Opened} (hi : Looping n c ls)
    (hi' : Owning n' c')
    (hop : n.opened = .loop m false :: o :: os) (hr : r < o.regions)
    (hc : c.doLoopEnd r = some c') : Looping n' c' ls.tail ∧ c.Leads c' c.framesSkipped := by
  have hl := hi.owning.layout
  rw [hop] at hl
  generalize hfs : c.frames = fs at hl
  cases hl with
  | @spawned _ _ _ f gs hs ht hf hl =>
    have hs' : o.spawns = true := hs
    obtain ⟨g, gs', rfl, hg⟩ := hl.top (.inl hs')
    have hap := hi.owning.apart_parent hfs
    obtain ⟨i, hib⟩ := Option.isSome_iff_exists.1 (show f.iterbag.isSome = true from hf.iterbag)
    have hu : f.sbagUsed = false := hf.idle rfl
    have hr' : r < (g.pbags.getD []).length := by rw [hg.length]; exact hr
    obtain ⟨q, h', hend, hq, hqi, ha⟩ := CilkSan.doLoopEnd_spec hfs hi.owning.wf hf.ok
      (by rw [hf.length]; exact hf.nonempty rfl) hib hu hf.detacher hg.ok hap hr'
    rw [hend] at hc
    cases hc
    have hlp : f.isLoopFrame = true := hf.loop
    suffices Looping n' _ (if f.isLoopFrame then ls.tail else ls) by
      rw [if_pos hlp] at this
      exact ⟨this, .refl⟩
    refine hi.pop hi' hfs ha.rehomed rfl rfl (fun hb => ?_) (fun hto => ?_) rfl rfl rfl
      fun hp₀ => pbag_zero_of_region hr' (hq.imp_right And.left) hp₀
    · rcases hb with hb | hb | hb
      · rw [hu] at hb
        cases hb.1
      · exact ⟨q, .inr hb, rfl⟩
      · exact ⟨q, .inl ⟨hb.1, Option.some.inj (hb.2.symm.trans hib)⟩, rfl⟩
    · rw [hto.2]
      exact ⟨.inr (.inl ⟨r, by rw [pbag_withPbag hr', if_pos rfl]⟩),
        ha.rehomed.iterbag_ne hg.ok hap hqi⟩

/-! ## Accesses -/

/-- An access that goes to another bag. -/
theorem Versioned.log_cons {m : MemoryAccess} {b : Nat} (hv : Versioned h log f l)
    (hm : h.Owned m.func b) (hb : f.iterbag ≠ some b) : Versioned h (m :: log) f l := by
  refine ⟨hv.version, hv.placed, fun m' hm' i hib ho => ?_⟩
  rw [List.mem_cons] at hm'
  rcases hm' with rfl | hm'
  · exact absurd (hm.unique ho ▸ hib) hb
  · exact hv.own m' hm' i hib ho

/-- An access that the loop's body makes itself. -/
theorem Versioned.add {m : MemoryAccess} {i : Nat} {x : SPBag} (hv : Versioned h log f l)
    (hib : f.iterbag = some i)
    (hx : h.bag i = some x) (hm : h.Owned m.func i) (hmv : m.version = x.version) :
    Versioned h (m :: log) { f with iterbagUsed := true } (l.add m) := by
  obtain ⟨i₀, y, hi₀, hy, hyv⟩ := hv.version
  obtain rfl : i = i₀ := Option.some.inj (hib.symm.trans hi₀)
  obtain rfl : x = y := Option.some.inj (hx.symm.trans hy)
  refine ⟨⟨i, x, hib, hx, hyv⟩, fun m' j hmem => ?_, fun m' hm' i' hib' ho => ?_⟩
  · rw [LoopProgress.add, List.mem_cons] at hmem
    rcases hmem with heq | hmem
    · cases heq
      exact ⟨Nat.le_refl _, .inl ⟨i, hib, rfl, hm, hmv.trans hyv, rfl⟩⟩
    · obtain ⟨hle, hplace⟩ := hv.placed m' j hmem
      refine ⟨hle, hplace.imp_left fun hin => ?_⟩
      obtain ⟨i', hi', -, hrest⟩ := hin
      exact ⟨i', hi', rfl, hrest⟩
  · rw [List.mem_cons] at hm'
    rcases hm' with rfl | hm'
    · exact ⟨l.iter, List.mem_cons_self ..⟩
    · obtain ⟨j, hj⟩ := hv.own m' hm' i' hib' ho
      exact ⟨j, List.mem_cons_of_mem _ hj⟩

theorem Looping.access {acc : Nat} (hi : Looping n c ls) (hi' : Owning n' c')
    (hin : ∀ f ∈ c.frames.head?, f.isLoopFrame = n.inLoop) (hc : c.recordAccess acc = some c') :
    Looping n' c' (trackLoops n c' ls (.access acc)) ∧ c.Leads c' c.framesSkipped := by
  obtain ⟨f, fs, o, hf, ho⟩ := hi.owning.layout.exists_head
  specialize hin f (by simp [hf])
  have hap := hi.owning.apart
  rw [hf, List.pairwise_cons] at hap
  have hv := hi.loops
  rw [hf] at hv
  -- The loops below do not see the access.
  have hbelow : ∀ {m : MemoryAccess} {b ls}, f.Has b → c.bags.Owned m.func b →
      List.Forall₂ (Versioned c.bags c.log) (fs.filter (·.isLoopFrame)) ls →
      List.Forall₂ (Versioned c.bags (m :: c.log)) (fs.filter (·.isLoopFrame)) ls := fun hb hm =>
    Versioned.forall₂_of_mem fun g hg l hgl => hgl.log_cons hm fun hib => hap.1 g hg _ hb
      (.inr (.inr hib))
  cases hl : f.isLoopFrame with
  | true =>
    obtain ⟨i, hfi⟩ := Option.isSome_iff_exists.1 (ho.iterbag.trans (ho.loop.symm.trans hl))
    obtain ⟨x, d, hx, hd, hod⟩ := (ho.ok.iterbag hfi).1.exists_ds
    have hrec : c.recordAccess acc = some { c with
        log := { func := d, version := x.version, accId := acc } :: c.log
        frames := { f with iterbagUsed := true } :: fs } := by
      simp [CilkSan.recordAccess, hf, FrameData.getSbagForAccess, hl, hfi, hx, hd, CilkSan.setHead]
    rw [hrec] at hc
    cases hc
    refine ⟨⟨hi', ?_⟩, rfl, List.suffix_cons ..⟩
    rw [List.filter_cons_of_pos hl] at hv
    show List.Forall₂ _ (List.filter _ (_ :: fs)) _
    rw [List.filter_cons_of_pos
      (show FrameData.isLoopFrame { f with iterbagUsed := true } = true from hl)]
    cases hv with
    | cons hfl hv =>
      simp only [trackLoops, ← hin, hl, if_true, List.modifyHead_cons]
      exact .cons (hfl.add hfi hx hod rfl) (hbelow (.inr (.inr hfi)) hod hv)
  | false =>
    obtain ⟨s, hs, hsi⟩ := ho.ok.sbag
    obtain ⟨x, d, hx, hd, hod⟩ := hsi.exists_ds
    have hrec : c.recordAccess acc = some { c with
        log := { func := d, version := x.version, accId := acc } :: c.log
        frames := { f with sbagUsed := true } :: fs } := by
      simp [CilkSan.recordAccess, hf, FrameData.getSbagForAccess, hl, hs, hx, hd, CilkSan.setHead]
    rw [hrec] at hc
    cases hc
    refine ⟨⟨hi', ?_⟩, rfl, List.suffix_cons ..⟩
    have hl' : ¬ f.isLoopFrame = true := by rw [hl]; exact Bool.false_ne_true
    rw [List.filter_cons_of_neg hl'] at hv
    show List.Forall₂ _ (List.filter _ (_ :: fs)) _
    rw [List.filter_cons_of_neg
      (show ¬ FrameData.isLoopFrame { f with sbagUsed := true } = true from hl')]
    simp only [trackLoops, ← hin, hl, Bool.false_eq_true, if_false]
    exact hbelow (.inl hs) hod hv

theorem Looping.check {k : Nat} (hi : Looping n c ls) (hi' : Owning n' c')
    (hc : c.step (.check k) = some c') : Looping n' c' ls ∧ c.Leads c' c.framesSkipped := by
  obtain ⟨f, fs, o, hf, -⟩ := hi.owning.layout.exists_head
  simp only [CilkSan.step, Option.map_eq_some_iff, CilkSan.checkAccess, hf, List.head?_cons,
    Option.bind_eq_bind, Option.bind_eq_some_iff, Option.bind_some] at hc
  obtain ⟨r, ⟨m, hm, hr⟩, hc⟩ := hc
  cases hr
  cases hc
  obtain ⟨-, -, b, -, ho⟩ := hi.owning.log m (List.mem_of_getElem? hm)
  obtain ⟨_, x, -, -, hx, -, -⟩ := id ho
  obtain ⟨-, hbag, -, -, hwf, hgood, howned⟩ := Bags.getSbagOrNull_spec hi.owning.wf ho hx
  refine ⟨hi.sameBags hi' ?_ hf rfl rfl rfl rfl rfl rfl, .refl⟩
  rw [previousAccessInParallel_snd]
  refine ⟨hwf, fun _ hb => ?_, fun {b x} _ hx => ⟨x, by rw [hbag]; exact hx, rfl⟩,
    fun hto => hto.elim, fun _ ho => howned ho⟩
  obtain ⟨hg, y, hy, hty⟩ := hb
  exact ⟨hgood hg, y, by rw [hbag]; exact hy, hty⟩

/-! ## Any step -/

/-- No function is skipped whose frame would be right in a loop's. -/
def Unskipped : List Opened → List Bool → Prop
  | .func _ _ :: os, k :: ks => (k = true → os.head?.any (·.isLoop) = false) ∧ Unskipped os ks
  | _ :: os, ks => Unskipped os ks
  | [], _ => True

/-- The frame at the head is a loop's if and only if the innermost is a loop. -/
theorem Layout.isLoopFrame {os : List Opened} {ks : List Bool} {fs : List FrameData}
    (hl : Layout h os ks fs)
    (hu : Unskipped os ks) : ∀ f ∈ fs.head?, f.isLoopFrame = os.head?.any (·.isLoop) := by
  induction hl with
  | root hf => simpa [Opened.isLoop] using hf.loop
  | skipped _ _ ih =>
    obtain ⟨hn, hu⟩ := hu
    intro f hf
    rw [ih hu f hf, hn rfl]
    rfl
  | called _ hf => simpa [Opened.isLoop] using hf.loop
  | spawned _ _ hf => simpa using hf.loop

/-- What is open, with the loops as far as they have come. -/
structure Iterating (n : Nesting) (c : CilkSan) (ls : List LoopProgress) : Prop where
  looping : Looping n c ls
  unskipped : Unskipped n.opened c.framesSkipped

theorem Iterating.funcEntry {m : Bool} {k : Nat} (hi : Iterating n c ls) (hi' : Owning n' c')
    (hop : n'.opened = .func m k :: n.opened) (hc : c.funcEntry m k = some c') :
    Iterating n' c' ls ∧ c.log <:+ c'.log := by
  obtain ⟨hl, skipped, hks, hskip⟩ := hi.looping.funcEntry hi' hc
  refine ⟨⟨hl, ?_⟩, hks.log⟩
  obtain ⟨f, fs, o, hf, -⟩ := hi.looping.owning.layout.exists_head
  have hhead : f ∈ c.frames.head? := by simp [hf]
  rw [hop, hks.framesSkipped]
  refine ⟨fun hs => ?_, hi.unskipped⟩
  rw [← hi.looping.owning.layout.isLoopFrame hi.unskipped f hhead]
  exact hskip hs f hhead

theorem Iterating.funcExit {m : Bool} {k : Nat} {os : List Opened} (hi : Iterating n c ls)
    (hi' : Owning n' c')
    (hop : n.opened = .func m k :: os) (hop' : n'.opened = os) (hc : c.funcExit = some c') :
    Iterating n' c' ls ∧ c.log <:+ c'.log := by
  obtain ⟨hi₁, hks⟩ := hi.looping.funcExit hi' hop hc
  refine ⟨⟨hi₁, ?_⟩, hks.log⟩
  have hu := hi.unskipped
  rw [hop] at hu
  rw [hop', hks.framesSkipped]
  cases hc : c.framesSkipped with
  | nil =>
    rw [hc] at hu
    exact hu
  | cons k ks =>
    rw [hc] at hu
    exact hu.2

/-- What a hook is not to do in a loop: sync region 0 once accesses of the
loop's body are in the P-bag, or end the loop before its first iteration. -/
def LoopOk (n : Nesting) (ls : List LoopProgress) : Hook → Prop
  | .sync r =>
    r = 0 → n.inLoop = true →
      ∀ l ∈ ls.head?, ∀ e ∈ l.accesses, e.2 / versionEnd = l.iter / versionEnd
  | .loopEnd _ => n.pendingLoop = false
  | _ => True

theorem Iterating.step {k : Hook} (hi : Iterating n c ls) (hok : LoopOk n ls k)
    (hn : n.step k = some n')
    (hc : c.step k = some c') : Iterating n' c' (trackLoops n c' ls k) ∧ c.log <:+ c'.log := by
  have hi' : Owning n' c' :=
    hi.looping.owning.of_step (fun r hr => by rw [hr] at hok; exact hok) hn hc
  have hu := hi.unskipped
  cases k with
  | funcEntry m k =>
    simp only [Nesting.step, Option.ite_none_right_eq_some, Option.some.injEq] at hn
    obtain ⟨-, rfl⟩ := hn
    exact hi.funcEntry hi' rfl hc
  | funcExit =>
    simp only [Nesting.step] at hn
    split at hn
    · next m k os hop =>
      simp only [Option.ite_none_right_eq_some, Option.some.injEq] at hn
      obtain ⟨-, rfl⟩ := hn
      exact hi.funcExit hi' hop rfl hc
    · cases hn
  | task k =>
    simp only [Nesting.step, Option.ite_none_right_eq_some, Option.some.injEq] at hn
    obtain ⟨-, rfl⟩ := hn
    obtain ⟨hl, hks⟩ := hi.looping.task hi' hc
    exact ⟨⟨hl, by rw [hks.framesSkipped]; exact hu⟩, hks.log⟩
  | taskExit r =>
    simp only [Nesting.step] at hn
    split at hn
    · next k o os hop =>
      simp only [Option.ite_none_right_eq_some, Option.some.injEq] at hn
      obtain ⟨⟨-, hr⟩, rfl⟩ := hn
      obtain ⟨hl, hks⟩ := hi.looping.taskExit hi' hop hr hc
      rw [hop] at hu
      exact ⟨⟨hl, by rw [hks.framesSkipped]; exact hu⟩, hks.log⟩
    · cases hn
  | detachContinue r =>
    simp only [Nesting.step, Option.ite_none_right_eq_some, Option.some.injEq] at hn
    obtain ⟨-, rfl⟩ := hn
    obtain ⟨hl, hks⟩ := hi.looping.detachContinue hi' hc
    exact ⟨⟨hl, by rw [hks.framesSkipped]; exact hu⟩, hks.log⟩
  | sync r =>
    simp only [Nesting.step, Option.ite_none_right_eq_some, Option.some.injEq] at hn
    obtain ⟨⟨hs, hr⟩, rfl⟩ := hn
    obtain ⟨-, hs⟩ := n.any_spawns hs
    generalize hop : n.opened = os at hs hr
    cases os with
    | nil => cases hs
    | cons o os =>
      obtain ⟨hl, hks⟩ := hi.looping.sync hi' hop (by simpa using hs) (by simpa using hr)
        (fun hr₀ ho => hok hr₀ (by simpa [Nesting.inLoop, hop] using ho)) hc
      exact ⟨⟨hl, by rw [hks.framesSkipped]; exact hu⟩, hks.log⟩
  | loopBegin =>
    simp only [Nesting.step, Option.ite_none_right_eq_some, Option.some.injEq] at hn
    obtain ⟨-, rfl⟩ := hn
    cases hc
    exact ⟨⟨⟨hi', hi.looping.loops⟩, hu⟩, List.suffix_refl _⟩
  | loopIterationBegin k =>
    obtain ⟨hl, hks⟩ := hi.looping.loopIterationBegin hi' hc
    refine ⟨⟨hl, ?_⟩, hks.log⟩
    rw [hks.framesSkipped]
    simp only [Nesting.step, Nesting.loopIterationBegin] at hn
    split at hn
    · cases hn
      exact hu
    · split at hn
      · next m os hop =>
        cases hn
        rw [hop] at hu
        exact hu
      · cases hn
  | loopIterationEnd =>
    simp only [Nesting.step, Nesting.loopIterationEnd, Option.ite_none_right_eq_some] at hn
    obtain ⟨-, hn⟩ := hn
    split at hn
    · next m os hop =>
      cases hn
      obtain ⟨hl, hks⟩ := hi.looping.loopIterationEnd hi' hop hc
      rw [hop] at hu
      exact ⟨⟨hl, by rw [hks.framesSkipped]; exact hu⟩, hks.log⟩
    · cases hn
  | loopEnd r =>
    have hpl : n.pendingLoop = false := hok
    simp only [Nesting.step, Nesting.loopEnd, hpl, Bool.false_eq_true, if_false] at hn
    split at hn
    · next m o os hop =>
      simp only [Option.ite_none_right_eq_some, Option.some.injEq] at hn
      obtain ⟨hr, rfl⟩ := hn
      obtain ⟨hl, hks⟩ := hi.looping.loopEnd hi' hop hr hc
      rw [hop] at hu
      refine ⟨⟨?_, by rw [hks.framesSkipped]; exact hu⟩, hks.log⟩
      rw [trackLoops, hpl, if_neg Bool.false_ne_true]
      exact hl
    · cases hn
  | recordCall _ =>
    cases hn
    cases hc
    exact ⟨⟨⟨hi', hi.looping.loops⟩, hu⟩, List.suffix_refl _⟩
  | recordCallReturn =>
    cases hn
    cases hc
    exact ⟨⟨⟨hi', hi.looping.loops⟩, hu⟩, List.suffix_refl _⟩
  | access acc =>
    obtain ⟨hl, hks⟩ := hi.looping.access hi' (hi.looping.owning.layout.isLoopFrame hu) hc
    simp only [Nesting.step, Option.ite_none_right_eq_some, Option.some.injEq] at hn
    obtain ⟨-, rfl⟩ := hn
    exact ⟨⟨hl, by rw [hks.framesSkipped]; exact hu⟩, hks.log⟩
  | check i =>
    obtain ⟨hl, hks⟩ := hi.looping.check hi' hc
    simp only [Nesting.step, Option.ite_none_right_eq_some, Option.some.injEq] at hn
    obtain ⟨-, rfl⟩ := hn
    exact ⟨⟨hl, by rw [hks.framesSkipped]; exact hu⟩, hks.log⟩

theorem Iterating.init : Iterating {} CilkSan.init [] := by
  have hf : CilkSan.init.frames.filter (·.isLoopFrame) = [] := by rfl
  exact ⟨⟨Owning.init, by rw [hf]; exact .nil⟩, trivial⟩

/-! ## The answers -/

/-- An access the loop's body has made itself is judged parallel if and only if
its iteration has ended. -/
theorem Versioned.previousAccessInParallel {m : MemoryAccess} {j : Nat} (hw : h.WF) (hf : f.Ok h)
    (hl : f.isLoopFrame = true) (hv : Versioned h log f l) (hmem : (m, j) ∈ l.accesses) :
    (CilkSan.previousAccessInParallel m f h).1 = decide (j < l.iter) := by
  obtain ⟨hle, hplace⟩ := hv.placed m j hmem
  rcases hplace with ⟨i, hi, -, ho, hmv, hwin⟩ | ⟨p, hp, ho, hlt⟩
  · obtain ⟨i₀, x, hi₀, hx, hxv⟩ := hv.version
    obtain rfl : i = i₀ := Option.some.inj (hi.symm.trans hi₀)
    rw [previousAccessInParallel_of_sBag hw ho (hf.iterbag hi).1,
      FrameData.checkParallelIter, hl, hi, hx]
    have hiff : m.version < x.version ↔ j < l.iter := by
      rw [hmv, hxv]
      simp only [versionEnd] at *
      omega
    simp [hiff]
  · rw [previousAccessInParallel_of_pBag hw ho (hf.pbag hp)]
    have hlt' : j < l.iter := by
      simp only [versionEnd] at hlt
      omega
    simp [hlt']

end Cilksan
