/-
Well-nested runs of the tool: every hook keeps the live bags with the frames
that own them, unless a loop ends before its first iteration, or a called
function returns with P-bags for some of its regions only.
-/
import CilkTools.Cilksan.BagOwnership

namespace Cilksan

open FrameData

variable {n n' : Nesting} {c : CilkSan}

theorem Nesting.all_running (h : n.running = true) :
    n.pendingLoop = false ∧ n.opened.head?.all (·.running) = true := by
  simpa [Nesting.running] using h

theorem Nesting.any_spawns (h : n.spawns = true) :
    n.pendingLoop = false ∧ n.opened.head?.any (·.spawns) = true := by
  simpa [Nesting.spawns] using h

/-- Only what is open and the entries of skipped functions change. -/
theorem Owning.of_layout (hi : Owning n c) (ks : List Bool) (start : Bool)
    (hl : Layout c.bags n'.opened ks c.frames) (hp : start = n'.pendingLoop)
    (hs : n'.pendingLoop = true → n'.opened.head?.any (·.spawns) = true)
    (ha : n'.accesses = n.accesses) :
    Owning n' { c with framesSkipped := ks, startNewLoop := start } :=
  ⟨hi.wf, hl, hi.apart, hi.held, hp, hs, by rw [ha]; exact hi.accesses, hi.log⟩

/-! ## Functions and tasks -/

theorem Owning.funcEntry {m : Bool} {k : Nat} (hi : Owning n c) (hrun : n.running = true) :
    ∃ c', c.funcEntry m k = some c' ∧ Owning (n.push (.func m k)) c' := by
  obtain ⟨hpl, hall⟩ := n.all_running hrun
  obtain ⟨f, fs, o, hf, ho⟩ := hi.layout.exists_head
  obtain ⟨synced, hsync⟩ : ∃ b, c.isLocalSynced = some b := by simp [CilkSan.isLocalSynced, hf]
  have hno : (n.push (.func m k)).pendingLoop = true →
      (n.push (.func m k)).opened.head?.any (·.spawns) = true := fun h => by
    rw [show (n.push (.func m k)).pendingLoop = n.pendingLoop from rfl, hpl] at h
    cases h
  by_cases hskip : m = false ∧ synced = true
  · obtain ⟨rfl, rfl⟩ := hskip
    refine ⟨{ c with framesSkipped := true :: c.framesSkipped },
      by simp [CilkSan.funcEntry, hsync], ?_⟩
    exact hi.of_layout _ c.startNewLoop (.skipped hall hi.layout) hi.pending hno rfl
  · have hdo :
        c.funcEntry m k =
        ({ c with framesSkipped := false :: c.framesSkipped } : CilkSan).doEnter k := by
      cases m <;> cases synced <;> simp_all [CilkSan.funcEntry]
    obtain ⟨h', g, s, hst, hnew, hsi, hr⟩ :=
      Supplanted.push (c := { c with framesSkipped := false :: c.framesSkipped })
        k hf hi.wf
    refine ⟨{ c with
        bags := h'
        frames := { g with frameData := EntryFrameType.SPAWNER_SHADOW_FRAME } :: c.frames
        framesSkipped :=
          false :: c.framesSkipped }, by rw [hdo]; simp [CilkSan.doEnter, hst, CilkSan.setHead],
      hi.replace [] c.frames rfl (hr EntryFrameType.SPAWNER_SHADOW_FRAME) rfl (fun hfits => ?_)
        hi.pending hno rfl rfl⟩
    exact .called hall (.of_new _ hnew hsi (by simp [Opened.isTask]) (by simp) rfl)
      (hi.layout.heap hfits)

/-- What the tool must not be in when a hook comes: a loop that ends has begun
an iteration, and a called function that returns is as `ReturnOk` says, unless
its frame was skipped. -/
def OwnershipOk (c : CilkSan) : Hook → Prop
  | .loopEnd _ => c.startNewLoop = false
  | .funcExit => c.framesSkipped.head? = some false →
      ∀ child ∈ c.frames.head?, ∀ parent ∈ c.frames.tail.head?, ReturnOk child parent
  | _ => True

theorem Owning.funcExit {m : Bool} {k : Nat} {os : List Opened} (hi : Owning n c)
    (hop : n.opened = .func m k :: os) (hrun : n.running = true) (hok : OwnershipOk c .funcExit) :
    ∃ c', c.funcExit = some c' ∧ Owning { n with opened := os } c' := by
  obtain ⟨hpl, -⟩ := n.all_running hrun
  have hno : n.pendingLoop = true → os.head?.any (·.spawns) = true := fun h => by
    rw [hpl] at h
    cases h
  have hl := hi.layout
  rw [hop] at hl
  generalize hks : c.framesSkipped = ks at hl
  generalize hfs : c.frames = fs at hl
  cases hl with
  | @skipped _ _ ks' _ hr hl =>
    refine ⟨{ c with framesSkipped := ks' }, by simp [CilkSan.funcExit, hks], ?_⟩
    exact hi.of_layout _ c.startNewLoop (by rw [hfs]; exact hl) hi.pending hno rfl
  | spawned hs ho => simp [Opened.isTask, Opened.isLoop] at ho
  | @called _ _ _ ks' f gs hr hf hl =>
    obtain ⟨g, gs', o, rfl, ho⟩ := hl.exists_head
    have hap : f.Apart g := hi.apart_parent hfs
    obtain ⟨h', f', hret, hrep, hfit⟩ := Supplanted.leaveCilkFunction hfs hi.wf hf.ok
      (by simpa [Opened.isLoop] using hf.iterbag) ho.ok hap
      (hok (by rw [hks]; rfl) f (by simp [hfs]) g (by simp [hfs]))
    have hd : f.frameData.isDetacher = false := hf.detacher
    refine ⟨{ c with bags := h', frames := f' :: gs', framesSkipped := ks' }, ?_,
      hi.replace [f, g] _ (by rw [hfs]; rfl) hrep rfl
      (fun hfits => hl.mapHead hr hfit hfits) hi.pending
        hno rfl rfl⟩
    simp [CilkSan.funcExit, hks, CilkSan.doLeave, hfs, hd, hret]

theorem Owning.task {k : Nat} (hi : Owning n c) (hs : n.spawns = true) :
    ∃ c', c.doEnterHelper k = some c' ∧ Owning (n.push (.task k)) c' := by
  obtain ⟨hpl, hany⟩ := n.any_spawns hs
  obtain ⟨f, fs, o, hf, ho⟩ := hi.layout.exists_head
  obtain ⟨h', g, s, hst, hnew, hsi, hr⟩ := Supplanted.push k hf hi.wf
  refine ⟨{ c with
      bags := h'
      frames := { g with frameData := EntryFrameType.DETACHER_SHADOW_FRAME } :: c.frames },
    by simp [CilkSan.doEnterHelper, hst, CilkSan.setHead],
    hi.replace [] c.frames rfl (hr EntryFrameType.DETACHER_SHADOW_FRAME) rfl (fun hfits => ?_)
      hi.pending (fun h => ?_) rfl rfl⟩
  · exact .spawned hany rfl (.of_new _ hnew hsi (by simp [Opened.isTask]) (by simp) rfl)
      (hi.layout.heap hfits)
  · rw [show (n.push (.task k)).pendingLoop = n.pendingLoop from rfl, hpl] at h
    cases h

theorem Owning.taskExit {k r : Nat} {o : Opened} {os : List Opened} (hi : Owning n c)
    (hop : n.opened = .task k :: o :: os) (hrun : n.running = true) (hr : r < o.regions) :
    ∃ c', c.doLeave r = some c' ∧ Owning { n with opened := o :: os } c' := by
  obtain ⟨hpl, -⟩ := n.all_running hrun
  have hl := hi.layout
  rw [hop] at hl
  generalize hfs : c.frames = fs at hl
  cases hl with
  | @spawned _ _ _ f gs hs ht hf hl =>
    have hs' : o.spawns = true := hs
    obtain ⟨g, gs', rfl, hg⟩ := hl.top (.inl hs')
    have hap : f.Apart g := hi.apart_parent hfs
    obtain ⟨h', f', hret, hrep, hfit⟩ := Supplanted.returnFromDetach hfs hi.wf hf.ok
      (by simpa [Opened.isLoop] using hf.iterbag) hg.ok hap (by rw [hg.length]; exact hr)
    have hd : f.frameData.isDetacher = true := hf.detacher
    refine ⟨{ c with bags := h', frames := f' :: gs' }, by simp [CilkSan.doLeave, hfs, hd, hret],
      hi.replace [f, g] _ (by rw [hfs]; rfl) hrep rfl
        (fun hfits => hl.mapHead (Opened.all_running_of_any hs) hfit hfits) hi.pending
        (fun h => ?_) rfl rfl⟩
    rw [show n.pendingLoop = true from h] at hpl
    cases hpl

/-! ## Continuations and syncs -/

theorem Owning.not_pending (hpl : n.pendingLoop = false) {os : List Opened} :
    n.pendingLoop = true → os.head?.any (·.spawns) = true := fun h => by
  rw [hpl] at h
  cases h

/-- The head frame changes, but for none of its bags. -/
theorem Owning.setHead {f f' : FrameData} {fs : List FrameData} {os : List Opened} (hi : Owning n c)
    (hf : c.frames = f :: fs) (hpl : n.pendingLoop = false) (hb : ∀ {b}, f'.Has b ↔ f.Has b)
    (hr : ∀ {b}, f.Retains b → f'.Retains b) (hl : Layout c.bags os c.framesSkipped (f' :: fs)) :
    Owning { n with opened := os } { c with frames := f' :: fs } :=
  hi.replace [f] _ hf (.same hi.wf hb hr) rfl (fun _ => hl) hi.pending
    (Owning.not_pending hpl) rfl rfl

theorem Fits.setContin {h : Bags} {f : FrameData} {o : Opened} (hf : Fits h f o) (k : BitVec 8) :
    Fits h { f with inContin := k } o :=
  ⟨⟨hf.ok.sbag, hf.ok.pbag, hf.ok.distinct, hf.ok.iterbag⟩, hf.length, hf.detacher, hf.loop,
    hf.iterbag, hf.nonempty, hf.idle⟩

theorem Owning.detachContinue {r : Nat} (hi : Owning n c) (hs : n.spawns = true) :
    ∃ c', c.doDetachContinue r = some c' ∧ Owning n c' := by
  obtain ⟨hpl, hany⟩ := n.any_spawns hs
  obtain ⟨f, fs, o, hf, -⟩ := hi.layout.exists_head
  refine ⟨{ c with frames := f.enterContinuation r :: fs },
    by simp [CilkSan.doDetachContinue, hf, CilkSan.setHead], hi.setHead hf hpl Iff.rfl id ?_⟩
  exact (hf ▸ hi.layout).mapHead (Opened.all_running_of_any hany)
    (fun _ _ ho => ho.setContin _) fun _ _ _ hg => hg

theorem Owning.sync {r : Nat} (hi : Owning n c) (hs : n.spawns = true)
    (hr : n.opened.head?.any (r < ·.regions) = true) :
    ∃ c', c.doSync r = some c' ∧ Owning n c' := by
  obtain ⟨hpl, hany⟩ := n.any_spawns hs
  generalize hop : n.opened = os at hany hr
  cases os with
  | nil => cases hany
  | cons o os =>
    have hl := hi.layout
    rw [hop] at hl
    obtain ⟨f, fs, hf, ho⟩ := hl.top (.inl hany)
    rw [hf] at hl
    have hr' : r < o.regions := by simpa using hr
    obtain ⟨h', f', hdo, hrep, hfit⟩ :=
      Supplanted.sync hf hi.wf ho.ok (by rw [ho.length]; exact hr')
    refine ⟨_, hdo, hi.replace [f] _ hf hrep rfl (fun hfits => ?_) hi.pending
      (Owning.not_pending hpl) rfl rfl⟩
    rw [hop]
    exact hl.mapHead (Opened.running_of_spawns hany) hfit hfits

/-! ## Loops -/

theorem Owning.loopBegin (hi : Owning n c) (hs : n.spawns = true) :
    Owning { n with pendingLoop := true } c.doLoopBegin :=
  hi.of_layout c.framesSkipped true hi.layout rfl (fun _ => (n.any_spawns hs).2) rfl

/-- The frame a loop starts with. -/
theorem Supplanted.newLoop {f : FrameData} {fs : List FrameData} {k : Nat} (hk : 0 < k)
    (hfr : c.frames = f :: fs)
    (hw : c.bags.WF) (hstart : c.startNewLoop = true) {m : Nat}
    (hm : (if m > 0 then m else 1) = k) : ∃ h' f', c.doLoopIterationBegin m =
        some { c with bags := h', frames := f' :: c.frames, startNewLoop := false } ∧
      Supplanted c.bags h' [] f' ∧ Fits h' f' (.loop k true) := by
  obtain ⟨h₁, g, s, hst, hnew, hsi, hr⟩ := Supplanted.push k hfr hw
  specialize hr EntryFrameType.DETACHER_SHADOW_FRAME.setLoopFrame
  have hnone : ∀ i, g.iterbag ≠ some i := fun i => by rw [hnew.iterbag]; simp
  obtain ⟨i, h₂, hcr, hin, hii, -, hab⟩ := CilkSan.createIterbag_spec
    (f := { g with frameData := EntryFrameType.DETACHER_SHADOW_FRAME.setLoopFrame })
    hr.wf hnew.sbag hsi (fun j hj => absurd hj (hnone j))
  have hset := Settled.createIterbag hcr
  have hab' : ∀ t, Absorbed h₁ h₂ t (fun _ => False) (fun _ => False) := fun t =>
    (hab t (hnone t)).mono (fun _ h => h) fun b hb => hnone b hb
  have hsne : s ≠ i := by rintro rfl; exact hsi.live hin
  have hn : ∀ {b}, h₁.bag b = none → c.bags.bag b = none := fun {b} hb => by
    by_contra hlive
    exact live_startNewFunction_mono hst hlive hb
  have hfit : Fits h₂ { g with
      frameData := EntryFrameType.DETACHER_SHADOW_FRAME.setLoopFrame
      iterbag := some i
      iterbagUsed := false } (.loop k true) := by
    have hok := hnew.ok ((hab' 0).is id hsi)
    refine ⟨⟨hok.sbag, hok.pbag, hok.distinct, fun hj => ?_⟩, hnew.length,
      by simp [Opened.isTask, Opened.isLoop],
      by simp [FrameData.isLoopFrame, Opened.isLoop], rfl, fun _ => hk, fun h => by cases h⟩
    cases hj
    exact ⟨hii, by rw [show ({ g with
      frameData := EntryFrameType.DETACHER_SHADOW_FRAME.setLoopFrame
      iterbag := some i
      iterbagUsed := false } : FrameData).sbag = some s from hnew.sbag]; simpa using hsne⟩
  refine ⟨h₂, _, ?_, ⟨(hab' 0).wf, fun hb h => (hab' 0).is id (hr.is (by simp) h),
    fun hb ho => (hab' 0).kept id (hr.kept (by simp) ho), fun _ hf => (List.not_mem_nil hf).elim,
    fun {b} hb => .inr ?_, fun {b} hb => ?_⟩, hfit⟩
  · simp [CilkSan.doLoopIterationBegin, hstart, hm, CilkSan.doEnterHelper, hst,
      CilkSan.setHead, hcr]
  · rcases hb with hb | ⟨r, hb⟩ | hb
    · exact (hr.has (b := b) (.inl hb)).resolve_left (by simp)
    · exact (hr.has (b := b) (.inr (.inl ⟨r, hb⟩))).resolve_left (by simp)
    · cases hb
      exact hn hin
  · rcases hset b hb with hb | ⟨hb, hne⟩
    · exact .inl hb
    · exact .inr ((hr.live hb).resolve_left hne)

theorem Owning.loopIterationBegin {k : Nat} (hi : Owning n c)
    (h : n.loopIterationBegin k = some n') :
    ∃ c', c.doLoopIterationBegin k = some c' ∧ Owning n' c' := by
  simp only [Nesting.loopIterationBegin] at h
  split at h
  · next hpl =>
    cases h
    obtain ⟨f, fs, -, hf, -⟩ := hi.layout.exists_head
    have hk : 0 < if k > 0 then k else 1 := by split <;> omega
    obtain ⟨h', f', hbegin, hr, hfit⟩ := Supplanted.newLoop hk hf hi.wf (hi.pending.trans hpl) rfl
    exact ⟨_, hbegin, hi.replace [] c.frames rfl hr rfl
      (fun hfits => .spawned (hi.spawns hpl) rfl hfit (hi.layout.heap hfits)) rfl
      (fun h => by cases h) rfl rfl⟩
  · next hpl =>
    have hpl : n.pendingLoop = false := by simpa using hpl
    split at h
    · next m os hop =>
      cases h
      have hl := hi.layout
      rw [hop] at hl
      generalize hfs : c.frames = fs at hl
      cases hl with
      | @spawned _ _ _ f gs hs ho hf hl =>
        refine ⟨{ c with frames := f.enterLoopContinuation :: gs }, ?_,
          hi.setHead hfs hpl Iff.rfl id (.spawned hs rfl (Fits.setContin ?_ _) hl)⟩
        · simp [CilkSan.doLoopIterationBegin, hi.pending, hpl, hfs, CilkSan.setHead]
        · exact ⟨hf.ok, hf.length, hf.detacher, hf.loop, hf.iterbag, hf.nonempty,
            fun h => by cases h⟩
    · cases h

theorem Owning.loopIterationEnd (hi : Owning n c) (hrun : n.running = true)
    (h : n.loopIterationEnd = some n') : ∃ c', c.doLoopIterationEnd = some c' ∧ Owning n' c' := by
  obtain ⟨hpl, -⟩ := n.all_running hrun
  simp only [Nesting.loopIterationEnd] at h
  split at h
  · next m os hop =>
    cases h
    have hl := hi.layout
    rw [hop] at hl
    generalize hfs : c.frames = fs at hl
    cases hl with
    | @spawned _ _ _ f gs hs ho hf hl =>
      obtain ⟨h', f', hend, hrep, hok, hfd, hu, hib, hlen⟩ :=
        Supplanted.loopIterationEnd hfs hi.wf hf.ok
          (by rw [hf.length]; exact hf.nonempty rfl) (by rw [hf.iterbag]; rfl)
      refine ⟨_, hend,
        hi.replace [f] _ hfs hrep rfl (fun hfits => .spawned hs rfl ?_ (hl.heap hfits))
        hi.pending (Owning.not_pending hpl) rfl rfl⟩
      exact ⟨hok, hlen.trans hf.length, by rw [hfd]; exact hf.detacher,
        by rw [FrameData.isLoopFrame, hfd]; exact hf.loop, hib, hf.nonempty, fun _ => hu⟩
  · cases h

theorem Owning.loopEnd {r : Nat} (hi : Owning n c) (hok : OwnershipOk c (.loopEnd r))
    (h : n.loopEnd r = some n') : ∃ c', c.doLoopEnd r = some c' ∧ Owning n' c' := by
  have hpl : n.pendingLoop = false := hi.pending.symm.trans hok
  simp only [Nesting.loopEnd, hpl, Bool.false_eq_true, if_false] at h
  split at h
  · next m o os hop =>
    split at h
    · next hr =>
      cases h
      have hl := hi.layout
      rw [hop] at hl
      generalize hfs : c.frames = fs at hl
      cases hl with
      | @spawned _ _ _ f gs hs ho hf hl =>
        have hs' : o.spawns = true := hs
        obtain ⟨g, gs', rfl, hg⟩ := hl.top (.inl hs')
        have hap : f.Apart g := hi.apart_parent hfs
        obtain ⟨h', f', hend, hrep, hfit⟩ := Supplanted.loopEnd hfs hi.wf hf.ok
          (by rw [hf.length]; exact hf.nonempty rfl) (by rw [hf.iterbag]; rfl)
          (hf.idle rfl) hf.detacher hg.ok hap (by rw [hg.length]; exact hr)
        exact ⟨_, hend, hi.replace [f, g] _ (by rw [hfs]; rfl) hrep rfl
          (fun hfits => hl.mapHead (Opened.all_running_of_any hs) hfit hfits) (hi.pending.trans hpl)
          (fun h => by cases h) rfl rfl⟩
    · cases h
  · cases h

/-! ## Accesses -/

theorem Owning.log_cons (hi : Owning n c) {m : MemoryAccess}
    (hm : ∃ f ∈ c.frames, ∃ b, f.Retains b ∧ c.bags.Owned m.func b) :
    Owning { n with accesses := n.accesses + 1 } { c with log := m :: c.log } :=
  ⟨hi.wf, hi.layout, hi.apart, hi.held, hi.pending, hi.spawns, by simp [hi.accesses],
    List.forall_mem_cons.2 ⟨hm, hi.log⟩⟩

/-- The node that an access to a bag is recorded with. -/
theorem Bags.Is.exists_ds {h : Bags} {b : Nat} (hb : h.Is b .sBag) :
    ∃ x d, h.bag b = some x ∧ x.ds = some d ∧ h.Owned d b := by
  obtain ⟨⟨x, hx, hset⟩, y, hy, -, hds⟩ := hb
  rw [hx] at hy
  cases hy
  obtain ⟨d, hd⟩ := Option.isSome_iff_exists.1 (hds rfl)
  obtain ⟨hlt, htag⟩ := hset d hd
  exact ⟨x, d, hx, hd, d, x, .here (Bags.parent_of_tag htag), hlt, hx, hd, htag⟩

/-- The access goes to a bag of the head frame, which is in use from then on. -/
theorem Owning.access {acc : Nat} (hi : Owning n c) (hrun : n.running = true) :
    ∃ c', c.recordAccess acc = some c' ∧ Owning { n with accesses := n.accesses + 1 } c' := by
  obtain ⟨hpl, hall⟩ := n.all_running hrun
  obtain ⟨f, fs, o, hf, ho⟩ := hi.layout.exists_head
  obtain ⟨b, f', hget, hb, hhas, hret, hfb, hfit⟩ : ∃ b f', f.getSbagForAccess = some (b, f') ∧
      c.bags.Is b .sBag ∧
      (∀ {x}, f'.Has x ↔ f.Has x) ∧ (∀ {x}, f.Retains x → f'.Retains x) ∧ f'.Retains b ∧
      ∀ o, o.running = true → Fits c.bags f o → Fits c.bags f' o := by
    cases hl : f.isLoopFrame with
    | true =>
      obtain ⟨i, hfi⟩ := Option.isSome_iff_exists.1 (ho.iterbag.trans (ho.loop.symm.trans hl))
      refine ⟨i, { f with iterbagUsed := true }, by simp [FrameData.getSbagForAccess, hl, hfi],
        (ho.ok.iterbag hfi).1,
        Iff.rfl, fun hx => hx.imp_right (.imp_right fun hx => ⟨rfl, hx.2⟩), .inr (.inr ⟨rfl, hfi⟩),
        fun o _ hfo => ?_⟩
      exact ⟨⟨hfo.ok.sbag, hfo.ok.pbag, hfo.ok.distinct, hfo.ok.iterbag⟩, hfo.length,
        hfo.detacher, hfo.loop, hfo.iterbag, hfo.nonempty, hfo.idle⟩
    | false =>
      obtain ⟨s, hs, hsi⟩ := ho.ok.sbag
      refine ⟨s, { f with sbagUsed := true },
        by simp [FrameData.getSbagForAccess, hl, hs], hsi, Iff.rfl,
        fun hx => hx.imp_left fun hx => ⟨rfl, hx.2⟩, .inl ⟨rfl, hs⟩, fun o hrun hfo => ?_⟩
      exact ⟨⟨hfo.ok.sbag, hfo.ok.pbag, hfo.ok.distinct, hfo.ok.iterbag⟩, hfo.length,
        hfo.detacher, hfo.loop, hfo.iterbag, hfo.nonempty, fun hn => by rw [hrun] at hn; cases hn⟩
  obtain ⟨x, d, hx, hd, ho⟩ := hb.exists_ds
  have hl : Layout c.bags n.opened c.framesSkipped (f' :: fs) :=
    (hf ▸ hi.layout).mapHead hall hfit fun _ _ _ hg => hg
  have hi' :=
    (hi.setHead hf hpl hhas hret hl).log_cons
      (m := { func := d, version := x.version, accId := acc })
    ⟨f', by simp, b, hfb, ho⟩
  exact ⟨_, by simp [CilkSan.recordAccess, hf, hget, hx, hd, CilkSan.setHead], hi'⟩

/-- The parallelism test compresses paths. -/
theorem Owning.check {i : Nat} (hi : Owning n c) (hlt : i < n.accesses) :
    ∃ r c', c.checkAccess i = some (r, c') ∧ Owning n c' := by
  have hlt' : i < c.log.length := by rw [hi.accesses]; exact hlt
  obtain ⟨f, fs, o, hf, -⟩ := hi.layout.exists_head
  obtain ⟨_, -, b, -, ho⟩ := hi.log (c.log.get ⟨i, hlt'⟩) (List.get_mem ..)
  obtain ⟨_, x, -, -, hx, -, -⟩ := id ho
  obtain ⟨-, hbag, -, -, hwf, hgood, howned⟩ := Bags.getSbagOrNull_spec hi.wf ho hx
  have hsnd := previousAccessInParallel_snd (c.log.get ⟨i, hlt'⟩) f c.bags
  have his : ∀ {b ty}, c.bags.Is b ty →
    (c.bags.getSbagOrNull (c.log.get ⟨i, hlt'⟩).func).2.Is b ty :=
    fun ⟨hg, y, hy, hty⟩ => ⟨hgood hg, y, by rw [hbag]; exact hy, hty⟩
  refine ⟨_, { c with bags := (c.bags.getSbagOrNull (c.log.get ⟨i, hlt'⟩).func).2 }, by
    simp only [CilkSan.checkAccess, List.getElem?_eq_getElem hlt', hf, List.head?_cons,
      Option.bind_eq_bind, Option.bind_some]
    rw [← hsnd]
    rfl, hwf, hi.layout.heap fun f _ o ho => ho.of_is fun _ => his, hi.apart,
      fun b hb => hi.held b ?_, hi.pending,
    hi.spawns, hi.accesses, fun m hm => ?_⟩
  · exact fun hn => hb ((congrFun hbag b).trans hn)
  · obtain ⟨f, hf, b, hb, ho⟩ := hi.log m hm
    exact ⟨f, hf, b, hb, howned ho⟩

/-! ## Runs -/

theorem Owning.init : Owning {} CilkSan.init := by
  obtain ⟨-, -, -, -, -, hk⟩ := Bags.createNewSBag_spec .empty []
  have hs := CilkSan.createNewSBag_is Bags.WF.empty []
  have hf :
      CilkSan.New { sbag := some (Bags.empty.createNewSBag []).1 } (Bags.empty.createNewSBag []).1
      (Opened.func false 0).regions :=
    ⟨rfl, rfl, fun r => by simp [FrameData.pbag], rfl, rfl⟩
  refine ⟨hk.wf, .root (Fits.of_new .NONE hf hs (by decide) (by decide) rfl),
    by simp [CilkSan.init],
    fun b hb => ⟨_, List.mem_singleton.2 rfl, .inl ?_⟩, rfl, fun h => (by cases h), rfl,
    by simp [CilkSan.init]⟩
  have hb' : (Bags.empty.createNewSBag []).2.Live b := hb
  exact congrArg some ((Bags.live_createNewSBag.1 hb').resolve_right fun h => h rfl).symm

/-- **One hook.** -/
theorem Owning.step {h : Hook} (hi : Owning n c) (hok : OwnershipOk c h) (hs : n.step h = some n') :
    ∃ c', c.step h = some c' ∧ Owning n' c' := by
  cases h with
  | funcEntry m k =>
    simp only [Nesting.step, Option.ite_none_right_eq_some, Option.some.injEq] at hs
    obtain ⟨hrun, rfl⟩ := hs
    exact hi.funcEntry hrun
  | funcExit =>
    simp only [Nesting.step] at hs
    split at hs
    · next m k os hop =>
      simp only [Option.ite_none_right_eq_some, Option.some.injEq] at hs
      obtain ⟨hrun, rfl⟩ := hs
      exact hi.funcExit hop hrun hok
    · cases hs
  | task k =>
    simp only [Nesting.step, Option.ite_none_right_eq_some, Option.some.injEq] at hs
    obtain ⟨hsp, rfl⟩ := hs
    exact hi.task hsp
  | taskExit r =>
    simp only [Nesting.step] at hs
    split at hs
    · next k o os hop =>
      simp only [Option.ite_none_right_eq_some, Option.some.injEq] at hs
      obtain ⟨⟨hrun, hr⟩, rfl⟩ := hs
      exact hi.taskExit hop hrun hr
    · cases hs
  | detachContinue r =>
    simp only [Nesting.step, Option.ite_none_right_eq_some, Option.some.injEq] at hs
    obtain ⟨⟨hsp, -⟩, rfl⟩ := hs
    exact hi.detachContinue hsp
  | sync r =>
    simp only [Nesting.step, Option.ite_none_right_eq_some, Option.some.injEq] at hs
    obtain ⟨⟨hsp, hr⟩, rfl⟩ := hs
    exact hi.sync hsp hr
  | loopBegin =>
    simp only [Nesting.step, Option.ite_none_right_eq_some, Option.some.injEq] at hs
    obtain ⟨hsp, rfl⟩ := hs
    exact ⟨_, rfl, hi.loopBegin hsp⟩
  | loopIterationBegin k => exact hi.loopIterationBegin hs
  | loopIterationEnd =>
    simp only [Nesting.step, Option.ite_none_right_eq_some] at hs
    exact hi.loopIterationEnd hs.1 hs.2
  | loopEnd r => exact hi.loopEnd hok hs
  | recordCall | recordCallReturn =>
    cases hs
    exact ⟨_, rfl, hi.wf, hi.layout, hi.apart, hi.held, hi.pending, hi.spawns, hi.accesses, hi.log⟩
  | access acc =>
    simp only [Nesting.step, Option.ite_none_right_eq_some, Option.some.injEq] at hs
    obtain ⟨hrun, rfl⟩ := hs
    exact hi.access hrun
  | check i =>
    simp only [Nesting.step, Option.ite_none_right_eq_some, Option.some.injEq] at hs
    obtain ⟨hlt, rfl⟩ := hs
    obtain ⟨r, c', hc, hi'⟩ := hi.check hlt
    exact ⟨c', by simp [CilkSan.step, hc], hi'⟩

/-- Every hook of a run meets `OwnershipOk`. -/
def OwnershipRunOk (c : CilkSan) : List Hook → Prop
  | [] => True
  | h :: hs => OwnershipOk c h ∧ ∀ c' ∈ c.step h, OwnershipRunOk c' hs

instance decidableOwnershipOk (c : CilkSan) : (h : Hook) → Decidable (OwnershipOk c h)
  | .loopEnd _ => inferInstanceAs (Decidable (c.startNewLoop = false))
  | .funcExit =>
    inferInstanceAs (Decidable (c.framesSkipped.head? = some false →
      ∀ child ∈ c.frames.head?, ∀ parent ∈ c.frames.tail.head?, ReturnOk child parent))
  | .funcEntry .. | .task _ | .taskExit _ | .detachContinue _ | .sync _ | .loopBegin |
    .loopIterationBegin _
  | .loopIterationEnd | .recordCall _ | .recordCallReturn | .access _ | .check _ =>
    inferInstanceAs (Decidable True)

instance decidableOwnershipRunOk (c : CilkSan) :
    (hooks : List Hook) → Decidable (OwnershipRunOk c hooks)
  | [] => inferInstanceAs (Decidable True)
  | h :: hs =>
    have := fun c' => decidableOwnershipRunOk c' hs
    inferInstanceAs (Decidable (OwnershipOk c h ∧ ∀ c' ∈ c.step h, OwnershipRunOk c' hs))

/-- **A run.** -/
theorem Owning.run {hooks : List Hook} (hi : Owning n c) (hok : OwnershipRunOk c hooks)
    (hs : n.run hooks = some n') : ∃ c', c.run hooks = some c' ∧ Owning n' c' := by
  induction hooks generalizing n c with
  | nil =>
    cases hs
    exact ⟨c, rfl, hi⟩
  | cons h hooks ih =>
    simp only [Nesting.run, List.foldlM_cons, Option.bind_eq_bind, Option.bind_eq_some_iff] at hs
    obtain ⟨n₁, hs₁, hs⟩ := hs
    obtain ⟨c₁, hc₁, hi₁⟩ := hi.step hok.1 hs₁
    obtain ⟨c', hc', hi'⟩ := ih hi₁ (hok.2 c₁ hc₁) hs
    refine ⟨c', ?_, hi'⟩
    simp only [CilkSan.run, List.foldlM_cons, hc₁, Option.bind_eq_bind, Option.bind_some]
    exact hc'

/-! ## Ownership -/

/-- Each live bag with a set holds its root, which is tagged with that bag and
its kind; no two hold the same; and `find_set` leads from every access to a
root tagged with a live bag. -/
structure BagsOwned (c : CilkSan) : Prop where
  tagged : ∀ b x d, c.bags.bag b = some x → x.ds = some d →
    (c.bags.sets.node d).parentOrBag = x.type.tag b
  unshared : ∀ b b' x x' d, c.bags.bag b = some x → c.bags.bag b' = some x' → x.ds = some d →
    x'.ds = some d → b = b'
  access : ∀ m ∈ c.log, ∃ b x, c.bags.bag b = some x ∧
    (c.bags.sets.node (c.bags.sets.findSet m.func).1).parentOrBag = x.type.tag b

theorem Owning.bagsOwned (hi : Owning n c) : BagsOwned c := by
  have htag : ∀ b x d, c.bags.bag b = some x → x.ds = some d →
      (c.bags.sets.node d).parentOrBag = x.type.tag b := by
    intro b x d hx hd
    obtain ⟨f, hf, hb⟩ := hi.held b (by simp [Bags.Live, hx])
    obtain ⟨o, ho⟩ := hi.layout.of_mem hf
    have hgood : c.bags.Good b := by
      rcases hb with hb | ⟨r, hb⟩ | hb
      · obtain ⟨s, hs, hsi⟩ := ho.ok.sbag
        rw [hb] at hs
        cases hs
        exact hsi.1
      · exact (ho.ok.pbag hb).1
      · exact (ho.ok.iterbag hb).1.1
    obtain ⟨y, hy, hset⟩ := hgood
    rw [hx] at hy
    cases hy
    exact (hset d hd).2
  refine ⟨htag, fun b b' x x' d hx hx' hd hd' => ?_, fun m hm => ?_⟩
  · exact (Bags.tag_inj ((htag b x d hx hd).symm.trans (htag b' x' d hx' hd'))).2
  · obtain ⟨f, -, b, -, r, x, hr, -, hx, -, ht⟩ := hi.log m hm
    refine ⟨b, x, hx, ?_⟩
    rw [(DisjointSets.findSet_spec hi.wf.sets hr).1]
    exact ht

/-- **Ownership.** In every state of a well-nested run whose hooks meet
`OwnershipOk`, the live bags own the sets they hold, and every access is in
the set of a live bag. -/
theorem run_bagsOwned {hooks : List Hook} (hok : OwnershipRunOk CilkSan.init hooks)
    (hs : Nesting.run {} hooks = some n) : ∃ c, CilkSan.init.run hooks = some c ∧ BagsOwned c := by
  obtain ⟨c, hc, hi⟩ := Owning.init.run hok hs
  exact ⟨c, hc, hi.bagsOwned⟩

/-- A called function that returns unsynced, in an iteration of a loop. -/
theorem run_bagsOwned_unsynced :
    ∃ c, CilkSan.init.run [.funcEntry true 1, .loopBegin, .loopIterationBegin 0, .access 7,
      .funcEntry true 1, .task 0, .access 8, .taskExit 0, .detachContinue 0, .funcExit,
      .loopIterationEnd, .loopEnd 0, .sync 0] = some c ∧ BagsOwned c :=
  run_bagsOwned (n := ⟨[.func true 1], false, 2⟩) (by decide) (by decide)

/-- The exit of a function whose frame was skipped touches no frame, whatever
P-bags the head frame has. -/
example : OwnershipRunOk CilkSan.init [.funcEntry true 2, .funcEntry false 0, .funcEntry true 1,
    .task 0, .access 7, .taskExit 0, .detachContinue 0, .funcExit, .funcExit] := by
  decide

/-- A loop in a function called in an iteration of another, with no iteration:
its end pops the function's frame, and the function's exit the outer loop's,
whose Iter-bag is deleted with the access still in it. -/
theorem run_emptyLoop_not_bagsOwned :
    ¬ ∀ (hooks : List Hook) (n : Nesting), Nesting.run {} hooks = some n →
    ∃ c, CilkSan.init.run hooks = some c ∧ BagsOwned c := by
  intro h
  obtain ⟨c, hc, hb⟩ :=
    h [.funcEntry true 1, .loopBegin, .loopIterationBegin 0, .access 7,
      .funcEntry true 1, .loopBegin,
    .loopEnd 0, .funcExit] _ rfl
  have hlog :
      (CilkSan.init.run [.funcEntry true 1, .loopBegin, .loopIterationBegin 0, .access 7,
        .funcEntry true 1,
      .loopBegin, .loopEnd 0, .funcExit]).map (fun c => (c.bags.bag 3, c.log.map fun m =>
        (c.bags.sets.node (c.bags.sets.findSet m.func).1).parentOrBag)) =
          some (none, [.sbag 3]) := by decide
  simp only [hc, Option.map_some, Option.some.injEq, Prod.mk.injEq] at hlog
  obtain ⟨m, hm, htag⟩ :=
    List.mem_map.1 (show ParentOrBag.sbag 3 ∈ c.log.map _ by rw [hlog.2]; exact .head _)
  obtain ⟨b, x, hx, ht⟩ := hb.access m hm
  rw [htag] at ht
  cases hxt : x.type <;> rw [hxt] at ht <;> cases ht
  rw [hlog.1] at hx
  cases hx

end Cilksan
