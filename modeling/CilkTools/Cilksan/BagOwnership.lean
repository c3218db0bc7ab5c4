/-
Who owns what: the sets that the live bags hold, and the accesses in these
sets. Every live bag belongs to one frame of the shadow stack, and what a
frame's bags hold is passed on before they are deleted, unless a loop ends
before its first iteration, or a called function returns with P-bags for some
of its regions only.
-/
import CilkTools.Cilksan.LiveBags
import CilkTools.Cilksan.Nesting

namespace Cilksan

open FrameData

/-- The bags whose sets the frame hands on: P-bags, and the others once used. -/
def FrameData.Retains (f : FrameData) (b : Nat) : Prop :=
  f.sbagUsed = true ∧ f.sbag = some b ∨ (∃ r, f.pbag r = some b) ∨ f.iterbagUsed = true ∧
  f.iterbag = some b

theorem FrameData.Retains.has {f : FrameData} {b : Nat} (h : f.Retains b) : f.Has b := by
  rcases h with h | h | h
  · exact .inl h.2
  · exact .inr (.inl h)
  · exact .inr (.inr h.2)

/-- From `h` to `h'`, the frame `f'` has taken the place of `olds`. -/
structure Supplanted (h h' : Bags) (olds : List FrameData) (f' : FrameData) : Prop where
  wf : h'.WF
  is : ∀ {b ty}, (∀ f ∈ olds, ¬ f.Has b) → h.Is b ty → h'.Is b ty
  kept : ∀ {d b}, (∀ f ∈ olds, ¬ f.Has b) → h.Owned d b → h'.Owned d b
  moved : ∀ f ∈ olds, ∀ {d b}, f.Retains b → h.Owned d b → ∃ t, f'.Retains t ∧ h'.Owned d t
  has : ∀ {b}, f'.Has b → (∃ f ∈ olds, f.Has b) ∨ h.bag b = none
  live : ∀ {b}, h'.Live b → f'.Has b ∨ h.Live b ∧ ∀ f ∈ olds, ¬ f.Has b

/-! ## The stack -/

/-- A frame and what it was pushed for. -/
structure Fits (h : Bags) (f : FrameData) (o : Opened) : Prop where
  ok : f.Ok h
  length : (f.pbags.getD []).length = o.regions
  detacher : f.frameData.isDetacher = (o.isTask || o.isLoop)
  loop : f.isLoopFrame = o.isLoop
  iterbag : f.iterbag.isSome = o.isLoop
  nonempty : o.isLoop = true → 0 < o.regions
  idle : o.running = false → f.sbagUsed = false

/-- The frames of the stack, and the entries for functions that were skipped. -/
inductive Layout (h : Bags) : List Opened → List Bool → List FrameData → Prop
  | root {f} (hf : Fits h f (.func false 0)) : Layout h [] [] [f]
  | skipped {n os ks fs} (hr : os.head?.all (·.running)) (hl : Layout h os ks fs) :
    Layout h (.func false n :: os) (true :: ks) fs
  | called {m n os ks f fs} (hr : os.head?.all (·.running)) (hf : Fits h f (.func m n))
    (hl : Layout h os ks fs) : Layout h (.func m n :: os) (false :: ks) (f :: fs)
  | spawned {o os ks f fs} (hs : os.head?.any (·.spawns)) (ho : o.isTask || o.isLoop)
    (hf : Fits h f o) (hl : Layout h os ks fs) : Layout h (o :: os) ks (f :: fs)

namespace Opened

theorem running_of_spawns {o : Opened} (h : o.spawns = true) : o.running = true := by
  cases o <;> simp_all [spawns, running]

theorem all_running_of_any {os : List Opened} (h : os.head?.any (·.spawns) = true) :
    os.head?.all (·.running) = true := by
  cases os with
  | nil => rfl
  | cons o os => exact running_of_spawns h

end Opened

namespace Layout

variable {h h' : Bags} {os : List Opened} {ks : List Bool} {f f' : FrameData} {fs : List FrameData}

theorem exists_head (hl : Layout h os ks fs) : ∃ f gs o, fs = f :: gs ∧ Fits h f o := by
  induction hl with
  | root hf => exact ⟨_, _, _, rfl, hf⟩
  | skipped _ _ ih => exact ih
  | called _ hf | spawned _ _ hf => exact ⟨_, _, _, rfl, hf⟩

theorem of_mem (hl : Layout h os ks fs) (hf : f ∈ fs) : ∃ o, Fits h f o := by
  induction hl with
  | root hg =>
    rw [List.mem_singleton] at hf
    exact ⟨_, hf ▸ hg⟩
  | skipped _ _ ih => exact ih hf
  | called _ hg _ ih | spawned _ _ hg _ ih =>
    rw [List.mem_cons] at hf
    rcases hf with rfl | hf
    · exact ⟨_, hg⟩
    · exact ih hf

/-- The innermost is no function that was skipped. -/
theorem top {o : Opened} (hl : Layout h (o :: os) ks fs)
    (ho : o.spawns = true ∨ o.isTask = true ∨ o.isLoop = true) :
    ∃ f gs, fs = f :: gs ∧ Fits h f o := by
  cases hl with
  | skipped => simp [Opened.spawns, Opened.isTask, Opened.isLoop] at ho
  | called _ hf | spawned _ _ hf => exact ⟨_, _, rfl, hf⟩

theorem heap (hl : Layout h os ks fs) (hf : ∀ f ∈ fs, ∀ o, Fits h f o → Fits h' f o) :
    Layout h' os ks fs := by
  induction hl with
  | root hg => exact .root (hf _ (by simp) _ hg)
  | skipped hr _ ih => exact .skipped hr (ih hf)
  | called hr hg _ ih =>
    exact .called hr (hf _ (by simp) _ hg) (ih fun g hmem => hf g (by simp [hmem]))
  | spawned hs ho hg _ ih =>
    exact .spawned hs ho (hf _ (by simp) _ hg) (ih fun g hmem => hf g (by simp [hmem]))

/-- The head frame changes, in a function, a task or an iteration. -/
theorem mapHead (hl : Layout h os ks (f :: fs)) (hr : os.head?.all (·.running) = true)
    (hf : ∀ o, o.running = true → Fits h f o → Fits h' f' o) (hfs : ∀ g ∈ fs, ∀ o, Fits h g o →
      Fits h' g o) :
    Layout h' os ks (f' :: fs) := by
  generalize hgs : f :: fs = gs at hl
  induction hl with
  | root hg =>
    cases hgs
    exact .root (hf _ rfl hg)
  | skipped hr' _ ih => exact .skipped hr' (ih hr' hgs)
  | called hr' hg hl =>
    cases hgs
    exact .called hr' (hf _ rfl hg) (hl.heap hfs)
  | spawned hs ho hg hl =>
    cases hgs
    exact .spawned hs ho (hf _ hr hg) (hl.heap hfs)

end Layout

theorem Fits.of_is {h h' : Bags} {f : FrameData} {o : Opened} (hf : Fits h f o)
    (his : ∀ {b ty}, f.Has b → h.Is b ty → h'.Is b ty) : Fits h' f o where
  ok := by
    obtain ⟨s, hs, hsi⟩ := hf.ok.sbag
    exact ⟨⟨s, hs, his (.inl hs) hsi⟩, fun hp => his (.inr (.inl ⟨_, hp⟩)) (hf.ok.pbag hp),
      hf.ok.distinct, fun hi => ⟨his (.inr (.inr hi)) (hf.ok.iterbag hi).1, (hf.ok.iterbag hi).2⟩⟩
  length := hf.length
  detacher := hf.detacher
  loop := hf.loop
  iterbag := hf.iterbag
  nonempty := hf.nonempty
  idle := hf.idle

/-! ## The invariant -/

structure Owning (n : Nesting) (c : CilkSan) : Prop where
  wf : c.bags.WF
  layout : Layout c.bags n.opened c.framesSkipped c.frames
  apart : c.frames.Pairwise Apart
  held : ∀ b, c.bags.Live b → ∃ f ∈ c.frames, f.Has b
  pending : c.startNewLoop = n.pendingLoop
  spawns : n.pendingLoop = true → n.opened.head?.any (·.spawns) = true
  accesses : c.log.length = n.accesses
  log : ∀ m ∈ c.log, ∃ f ∈ c.frames, ∃ b, f.Retains b ∧ c.bags.Owned m.func b

theorem Owning.apart_parent {n : Nesting} {c : CilkSan} (hi : Owning n c) {child parent : FrameData}
    {fs : List FrameData} (hfr : c.frames = child :: parent :: fs) : child.Apart parent := by
  have := hi.apart
  rw [hfr] at this
  exact (List.pairwise_cons.1 this).1 parent (by simp)

/-- A frame takes the place of those at the head. -/
theorem Owning.replace {n n' : Nesting} {c c' : CilkSan} {f' : FrameData} (hi : Owning n c)
    (olds rest : List FrameData) (hfr : c.frames = olds ++ rest)
    (hr : Supplanted c.bags c'.bags olds f') (hfr' : c'.frames = f' :: rest)
    (hl : (∀ g ∈ rest, ∀ o, Fits c.bags g o → Fits c'.bags g o) →
      Layout c'.bags n'.opened c'.framesSkipped (f' :: rest))
    (hp : c'.startNewLoop = n'.pendingLoop) (hs : n'.pendingLoop = true →
      n'.opened.head?.any (·.spawns) = true)
    (ha : n'.accesses = n.accesses) (hlog : c'.log = c.log) : Owning n' c' := by
  have hapart := hi.apart
  rw [hfr, List.pairwise_append] at hapart
  -- The frames below keep their bags.
  have hout : ∀ g ∈ rest, ∀ {b}, g.Has b → ∀ f ∈ olds, ¬ f.Has b := fun g hg b hb f hf hfb =>
    hapart.2.2 f hf g hg b hfb hb
  have hfits : ∀ g ∈ rest, ∀ o, Fits c.bags g o → Fits c'.bags g o := fun g hg o hgo =>
    hgo.of_is fun hb => hr.is (hout g hg hb)
  refine ⟨hr.wf, hfr' ▸ hl hfits, ?_, fun b hb => ?_, hp, hs, by rw [hlog, ha, hi.accesses],
    fun m hm => ?_⟩
  · rw [hfr']
    refine List.pairwise_cons.2 ⟨fun g hg b hb hgb => ?_, hapart.2.1⟩
    rcases hr.has hb with ⟨f, hf, hfb⟩ | hn
    · exact hout g hg hgb f hf hfb
    · obtain ⟨o, ho⟩ := hi.layout.of_mem (f := g) (by rw [hfr]; exact List.mem_append_right _ hg)
      exact ho.ok.live hgb hn
  · rw [hfr']
    rcases hr.live hb with hb | ⟨hb, hn⟩
    · exact ⟨f', by simp, hb⟩
    · obtain ⟨g, hg, hgb⟩ := hi.held b hb
      rw [hfr, List.mem_append] at hg
      rcases hg with hg | hg
      · exact absurd hgb (hn g hg)
      · exact ⟨g, by simp [hg], hgb⟩
  · rw [hlog] at hm
    rw [hfr']
    obtain ⟨g, hg, b, hb, ho⟩ := hi.log m hm
    rw [hfr, List.mem_append] at hg
    rcases hg with hg | hg
    · obtain ⟨t, ht, ho'⟩ := hr.moved g hg hb ho
      exact ⟨f', by simp, t, ht, ho'⟩
    · exact ⟨g, by simp [hg], b, hb, hr.kept (hout g hg hb.has) ho⟩

/-! ## New frames -/

theorem live_startNewFunction {c c' : CilkSan} {n b : Nat} {f : FrameData} {fs : List FrameData}
    (hc : c.startNewFunction n = some c') (hf : c'.frames = f :: fs) (hb : c'.bags.Live b) :
    f.Has b ∨ c.bags.Live b := by
  simp only [CilkSan.startNewFunction] at hc
  split at hc
  · next parent gs hfr =>
    split at hc
    all_goals
      cases hc
      cases hf
      have hb' : ((c.bags.createNewSBag c.callStack).2).Live b := hb
      rw [Bags.live_createNewSBag] at hb'
      exact hb'.imp_left fun he => .inl (by rw [he]; rfl)
  · cases hc

theorem live_startNewFunction_mono {c c' : CilkSan} {n b : Nat}
    (hc : c.startNewFunction n = some c') (hb : c.bags.Live b) : c'.bags.Live b := by
  simp only [CilkSan.startNewFunction] at hc
  split at hc
  · split at hc
    all_goals
      cases hc
      exact Bags.live_createNewSBag.2 (.inr hb)
  · cases hc

/-- A frame pushed, whatever its type. -/
theorem Supplanted.push {c : CilkSan} {parent : FrameData} {fs : List FrameData} (n : Nat)
    (hfr : c.frames = parent :: fs) (hw : c.bags.WF) :
    ∃ h' f s, c.startNewFunction n = some { c with bags := h', frames := f :: c.frames } ∧
    CilkSan.New f s n ∧
      h'.Is s .sBag ∧ ∀ ty, Supplanted c.bags h' [] { f with frameData := ty } := by
  obtain ⟨s, h', f, hst, hnew, hs, hsi, hab⟩ := CilkSan.startNewFunction_spec n hfr hw
  refine ⟨h', f, s, by rw [hfr]; exact hst, hnew, hsi,
    fun ty => ⟨(hab 0).wf, fun _ => (hab 0).is id,
    fun _ => (hab 0).kept id, fun _ hf => (List.not_mem_nil hf).elim, fun {b} hb => .inr ?_,
    fun hb => ?_⟩⟩
  · rw [hnew.has hb]
    exact hs
  · exact (live_startNewFunction hst rfl hb).imp_right fun hb =>
      ⟨hb, fun _ hf => (List.not_mem_nil hf).elim⟩

theorem Fits.of_new {h : Bags} {f : FrameData} {s : Nat} {o : Opened} (ty : EntryFrameType)
    (hf : CilkSan.New f s o.regions) (hs : h.Is s .sBag) (hd : ty.isDetacher = o.isTask)
    (hl : ty.isLoopFrame = false)
    (ho : o.isLoop = false) : Fits h { f with frameData := ty } o where
  ok := by
    have hok := hf.ok hs
    exact ⟨hok.sbag, hok.pbag, hok.distinct, hok.iterbag⟩
  length := hf.length
  detacher := by rw [hd, ho, Bool.or_false]
  loop := hl.trans ho.symm
  iterbag := by
    rw [ho, show ({ f with frameData := ty } : FrameData).iterbag = none from hf.iterbag]; rfl
  nonempty h := by rw [ho] at h; cases h
  idle _ := hf.unused

/-! ## The head frame -/

/-- Sets move from the frames `olds` to a bag of `f'`. -/
theorem Supplanted.of_absorbed {h h' : Bags} {olds : List FrameData} {f' : FrameData} {t : Nat}
    {m g : Nat → Prop} (ha : Absorbed h h' t m g) (hg : ∀ {b}, g b → ∃ f ∈ olds, f.Has b)
    (hm : ∀ f ∈ olds, ∀ {b}, f.Retains b → m b ∧ f'.Retains t ∨ ¬ g b ∧ f'.Retains b)
    (hhas : ∀ {b}, f'.Has b → (∃ f ∈ olds, f.Has b) ∨ h.bag b = none)
    (hlive : ∀ {b}, h'.Live b → f'.Has b ∨ h.Live b ∧ ∀ f ∈ olds, ¬ f.Has b) :
    Supplanted h h' olds f' where
  wf := ha.wf
  is hb := ha.is fun hgb => by
    obtain ⟨f, hf, hfb⟩ := hg hgb
    exact hb f hf hfb
  kept hb := ha.kept fun hgb => by
    obtain ⟨f, hf, hfb⟩ := hg hgb
    exact hb f hf hfb
  moved f hf {d b} hb ho := by
    rcases hm f hf hb with ⟨hmb, ht⟩ | ⟨hgb, hb'⟩
    · exact ⟨t, ht, ha.moved hmb ho⟩
    · exact ⟨b, hb', ha.kept hgb ho⟩
  has := hhas
  live := hlive

theorem Settled.live {h h' : Bags} {f f' : FrameData} (hs : Settled h f h' f') {b : Nat}
    (hb : h'.Live b) : f'.Has b ∨ h.Live b ∧ ∀ g ∈ [f], ¬ g.Has b :=
  (hs b hb).imp_right fun ⟨hlive, hn⟩ => ⟨hlive, by simpa using hn⟩

/-- The heap stays, and so do the bags of the head frame. -/
theorem Supplanted.same {h : Bags} {f f' : FrameData} (hw : h.WF) (hb : ∀ {b}, f'.Has b ↔ f.Has b)
    (hr : ∀ {b}, f.Retains b → f'.Retains b) : Supplanted h h [f] f' :=
  .of_absorbed (t := 0) (Absorbed.refl hw) (fun h => h.elim)
    (fun g hg b hgb => .inr ⟨id, hr (by simpa [List.mem_singleton.1 hg] using hgb)⟩)
    (fun hfb => .inl ⟨f, by simp, hb.1 hfb⟩)
    (Settled.live (.of_has (fun _ hb => .inr hb) fun _ _ hfb => hb.2 hfb))

theorem Settled.completeSync {c c' : CilkSan} {f f' : FrameData} {fs : List FrameData} {r : Nat}
    (hf : c.frames = f :: fs) (hr : r < (f.pbags.getD []).length) (hc : c.completeSync r = some c')
    (hf' : c'.frames = f' :: fs) : Settled c.bags f c'.bags f' := by
  simp only [CilkSan.completeSync, hf, List.head?_cons, Option.bind_eq_bind, Option.bind_some,
    Option.bind_eq_some_iff] at hc
  obtain ⟨l, hl, o, ho, hc⟩ := hc
  cases o with
  | none =>
    cases hc
    cases hf.symm.trans hf'
    exact .of_live fun _ hb => hb
  | some p =>
    simp only [Option.bind_eq_some_iff] at hc
    obtain ⟨s, hs, h₁, hcomb, ⟨g, h₂⟩, hset, hc⟩ := hc
    rw [setPbag_eq (f := { f with sbagUsed := true }) hr] at hset
    cases hset
    cases hc
    simp only [CilkSan.setHead, List.cons.injEq] at hf'
    obtain ⟨rfl, -⟩ := hf'
    refine .of_has (fun b hb => .inr ?_) fun b hb hfb => ?_
    · replace hb : (h₁.delete (f.pbag r)).Live b := hb
      rw [Bags.live_delete, Bags.live_combine hcomb] at hb
      exact hb.1
    · replace hb : (h₁.delete (f.pbag r)).Live b := hb
      rw [Bags.live_delete] at hb
      rcases hfb with hfb | ⟨r', hfb⟩ | hfb
      · exact .inl hfb
      · refine .inr (.inl ⟨r', ?_⟩)
        rw [pbag_withPbag (f := { f with sbagUsed := true }) hr]
        split
        · next he => exact absurd (he ▸ hfb) hb.2
        · exact hfb
      · exact .inr (.inr hfb)

/-- A sync of a region of the head frame. -/
theorem Supplanted.sync {c : CilkSan} {f : FrameData} {fs : List FrameData} {r : Nat}
    (hf : c.frames = f :: fs)
    (hw : c.bags.WF) (ho : f.Ok c.bags) (hr : r < (f.pbags.getD []).length) :
    ∃ h' f', c.doSync r = some { c with bags := h', frames := f' :: fs } ∧
    Supplanted c.bags h' [f] f' ∧
      ∀ o, o.running = true → Fits c.bags f o → Fits h' f' o := by
  obtain ⟨s, hs, hsi⟩ := ho.sbag
  obtain ⟨h', f', hcs, hf', hab⟩ := CilkSan.completeSync_spec hf hw ho hr hs
  have hset := Settled.completeSync hf hr hcs rfl
  have hpb : ∀ q, f'.pbag q = if q = r then none else f.pbag q := fun q => by
    rw [hf']; exact pbag_withPbag hr none q
  have hsb : f'.sbag = f.sbag := by rw [hf']; rfl
  have hib : f'.iterbag = f.iterbag := by rw [hf']; rfl
  have hiu : f'.iterbagUsed = f.iterbagUsed := by rw [hf']; rfl
  have hsu : f'.sbagUsed = (f.sbagUsed || (f.pbag r).isSome) := by rw [hf']
  have hps : (f'.pbags.getD []) = (f.withPbag r none).pbags.getD [] := by rw [hf']
  have hfd : f'.frameData = f.frameData := by rw [hf']; rfl
  -- The P-bag of the region is none of the other bags.
  have hsr : f.pbag r ≠ f.sbag := fun he => by
    rw [hs] at he
    exact absurd (hsi.type_eq (ho.pbag he)) (by simp)
  have hir : ∀ {i}, f.iterbag = some i → f.pbag r ≠ some i := fun hi he => by
    exact absurd ((ho.iterbag hi).1.type_eq (ho.pbag he)) (by simp)
  have hqr : ∀ {q x}, f.pbag q = some x → f.pbag r = some x → q = r := fun hq he =>
    ho.distinct _ _ _ (pbag_iff.1 hq) (pbag_iff.1 he)
  have hhas : ∀ {x}, f'.Has x → f.Has x ∧ f.pbag r ≠ some x := fun {x} hx => by
    rcases hx with hx | ⟨q, hx⟩ | hx
    · rw [hsb] at hx
      exact ⟨.inl hx, fun he => hsr (he.trans hx.symm)⟩
    · rw [hpb] at hx
      split at hx
      · cases hx
      · next hne => exact ⟨.inr (.inl ⟨q, hx⟩), fun he => hne (hqr hx he)⟩
    · rw [hib] at hx
      exact ⟨.inr (.inr hx), hir hx⟩
  refine ⟨h', f'.exitContinuation r, by simp [CilkSan.doSync, hcs, CilkSan.setHead],
    .of_absorbed hab (fun hx => ⟨f, by simp, .inr (.inl ⟨r, hx⟩)⟩) (fun g hg x hx => ?_)
      (fun hx => .inl ⟨f, by simp, (hhas hx).1⟩) (Settled.live hset), fun o hrun hfo => ?_⟩
  · rw [List.mem_singleton] at hg
    subst hg
    rcases hx with ⟨hu, hx⟩ | ⟨q, hx⟩ | ⟨hu, hx⟩
    · exact .inr ⟨fun he => hsr (he.trans hx.symm), .inl ⟨hsu.trans (by simp [hu]), hsb.trans hx⟩⟩
    · by_cases hq : q = r
      · subst hq
        exact .inl ⟨hx, .inl ⟨hsu.trans (by simp [hx]), hsb.trans hs⟩⟩
      · exact .inr ⟨fun he => hq (hqr hx he),
          .inr (.inl ⟨q, (hpb q).trans (by rw [if_neg hq, hx])⟩)⟩
    · exact .inr ⟨hir hx, .inr (.inr ⟨hiu.trans hu, hib.trans hx⟩)⟩
  · refine ⟨⟨⟨s, hsb.trans hs, hab.is (fun he => hsr (he.trans hs.symm)) hsi⟩, fun {q x} hx => ?_,
        ?_, fun {i} hx => ?_⟩,
      ?_, ?_, ?_, ?_, hfo.nonempty, fun hn => by rw [hrun] at hn; cases hn⟩
    · have hne := (hhas (.inr (.inl ⟨q, hx⟩))).2
      replace hx : f'.pbag q = some x := hx
      rw [hpb] at hx
      split at hx
      · cases hx
      · exact hab.is hne (ho.pbag hx)
    · show Distinct (f'.pbags.getD [])
      rw [hps]
      exact (ho.withoutPbag hr).distinct
    · replace hx : f.iterbag = some i := hib.symm.trans hx
      exact ⟨hab.is (hir hx) (ho.iterbag hx).1, fun he => (ho.iterbag hx).2 (hsb.symm.trans he)⟩
    · show (f'.pbags.getD []).length = _
      rw [hps, length_withPbag, hfo.length]
    · show f'.frameData.isDetacher = _
      rw [hfd, hfo.detacher]
    · show f'.frameData.isLoopFrame = _
      rw [hfd]
      exact hfo.loop
    · show f'.iterbag.isSome = _
      rw [hib, hfo.iterbag]

/-! ## Returning -/

/-- The parent has gained a P-bag, and its S-bag may have come into use. -/
theorem Fits.withPbag {h h' : Bags} {f : FrameData} {o : Opened} {r q : Nat} {u : Bool}
    (hf : Fits h f o)
    (hrun : o.running = true) (his : ∀ {b ty}, f.Has b → h.Is b ty → h'.Is b ty)
    (hr : r < (f.pbags.getD []).length)
    (hq : h'.Is q .pBag) (hne : f.pbag r = some q ∨ ∀ r', f.pbag r' ≠ some q) :
    Fits h' { f.withPbag r (some q) with sbagUsed := u } o where
  ok := by
    have hok := (hf.of_is his).ok.withPbag hr hq hne
    exact ⟨hok.sbag, hok.pbag, hok.distinct, hok.iterbag⟩
  length := (length_withPbag f r (some q)).trans hf.length
  detacher := hf.detacher
  loop := hf.loop
  iterbag := hf.iterbag
  nonempty := hf.nonempty
  idle hn := by rw [hrun] at hn; cases hn

/-- What a parent has after a P-bag was put in its array. -/
theorem FrameData.has_withPbag {f : FrameData} {r q b : Nat} (hr : r < (f.pbags.getD []).length)
    (hb : (f.withPbag r (some q)).Has b) : b = q ∨ f.Has b := by
  rcases hb with hb | ⟨r', hb⟩ | hb
  · exact .inr (.inl hb)
  · rw [pbag_withPbag hr] at hb
    split at hb
    · exact .inl (Option.some.inj hb).symm
    · exact .inr (.inr (.inl ⟨r', hb⟩))
  · exact .inr (.inr (.inr hb))

theorem FrameData.Retains.withPbag {f : FrameData} {r q b : Nat} {u : Bool}
    (hr : r < (f.pbags.getD []).length)
    (hq : f.pbag r = some q ∨ f.pbag r = none) (hu : f.sbagUsed = true → u = true)
    (hb : f.Retains b) : ({ f.withPbag r (some q) with sbagUsed := u } : FrameData).Retains b := by
  rcases hb with hb | ⟨r', hb⟩ | hb
  · exact .inl ⟨hu hb.1, hb.2⟩
  · refine .inr (.inl ⟨r', ?_⟩)
    show (f.withPbag r (some q)).pbag r' = some b
    rw [pbag_withPbag hr]
    split
    · next he =>
      subst he
      rcases hq with hq | hq
      · rw [← hq, hb]
      · rw [hq] at hb; cases hb
    · exact hb
  · exact .inr (.inr hb)

theorem live_of_settled {h h₁ h₂ : Bags} {child parent parent' : FrameData} {b : Nat}
    (hs : Settled h parent h₁ parent') (hd : ∀ b, h₂.Live b → h₁.Live b ∧ ¬ child.Has b)
    (hb : h₂.Live b) : parent'.Has b ∨ h.Live b ∧ ∀ f ∈ [child, parent], ¬ f.Has b := by
  obtain ⟨hb₁, hc⟩ := hd b hb
  exact (hs b hb₁).imp_right fun ⟨hlive, hp⟩ => ⟨hlive, by simpa using ⟨hc, hp⟩⟩

theorem Settled.returnFromDetach {c c' : CilkSan} {child parent f' : FrameData}
    {fs : List FrameData} {r b : Nat}
    (hfr : c.frames = child :: parent :: fs) (hi : child.iterbag = none)
    (hr : r < (parent.pbags.getD []).length)
    (hc : c.returnFromDetach r = some c') (hf' : c'.frames = f' :: fs) (hb : c'.bags.Live b) :
    f'.Has b ∨ c.bags.Live b ∧ ∀ f ∈ [child, parent], ¬ f.Has b := by
  simp only [CilkSan.returnFromDetach, CilkSan.mergeBagFromReturningChild, hfr, if_true,
    Option.bind_eq_bind, Option.bind_eq_some_iff] at hc
  obtain ⟨c₁, ⟨⟨parent', h₁⟩, hm, hc₁⟩, hc⟩ := hc
  cases hc₁
  simp only [CilkSan.exitFunction] at hc
  cases hc
  cases hf'
  refine live_of_settled (Settled.mergeDetached hr hm) (fun b hb => live_deleteChild ?_ hi) hb
  simpa [reset, setSbag, setIterbag, clearPbagArray, Bags.delete, hi] using hb

/-- From `h` to `h'`, the sets of the bags that are gone have moved to others,
and the rest is as it was. -/
structure Rehomed (h h' : Bags) (gone : Nat → Prop) (into : Nat → Nat → Prop) : Prop where
  wf : h'.WF
  is : ∀ {b ty}, ¬ gone b → h.Is b ty → h'.Is b ty
  version : ∀ {b x}, ¬ gone b → h.bag b = some x → ∃ x', h'.bag b = some x' ∧ x'.version = x.version
  moved : ∀ {d b t}, into b t → h.Owned d b → h'.Owned d t
  kept : ∀ {d b}, ¬ gone b → h.Owned d b → h'.Owned d b

theorem Absorbed.rehomed {h h' : Bags} {t : Nat} {m g : Nat → Prop} (ha : Absorbed h h' t m g) :
    Rehomed h h' g fun b t' => m b ∧ t' = t where
  wf := ha.wf
  is := ha.is
  version := ha.version
  moved hto ho := by
    obtain ⟨hb, rfl⟩ := hto
    exact ha.moved hb ho
  kept := ha.kept

section returning

variable {c : CilkSan} {child parent : FrameData} {fs : List FrameData}

/-- A frame of the stack keeps what a returning child does not have. -/
theorem FrameData.Apart.not_has {b : Nat} (hap : child.Apart parent) (hb : parent.Has b) :
    ¬ child.Has b :=
  fun hc => hap b hc hb

/-- A task returns. -/
theorem Supplanted.returnFromDetach {r : Nat} (hfr : c.frames = child :: parent :: fs)
    (hw : c.bags.WF)
    (hc : child.Ok c.bags) (hi : child.iterbag = none) (hp : parent.Ok c.bags)
    (hap : child.Apart parent) (hr : r < (parent.pbags.getD []).length) :
    ∃ h' f', c.returnFromDetach r = some { c with bags := h', frames := f' :: fs } ∧
      Supplanted c.bags h' [child, parent] f' ∧ ∀ o, o.running = true → Fits c.bags parent o →
      Fits h' f' o := by
  obtain ⟨q, h', hret, hq, hqi, hab⟩ := CilkSan.returnFromDetach_spec hfr hw hc hi hp hap hr
  refine ⟨h', parent.withPbag r (some q), hret, .of_absorbed hab (fun hb => ⟨child, by simp, hb⟩)
    (fun f hf b hb => ?_) (fun hb => ?_) (Settled.returnFromDetach hfr hi hr hret rfl),
    fun o hrun hfo =>
      hfo.withPbag hrun (fun hb => hab.is (hap.not_has hb)) hr hqi
        (hq.imp_right fun hn r' hr' => ?_)⟩
  · have hpb : (parent.withPbag r (some q)).pbag r = some q := by rw [pbag_withPbag hr, if_pos rfl]
    simp only [List.mem_cons, List.not_mem_nil, or_false] at hf
    rcases hf with rfl | rfl
    · rcases hb with hb | hb | hb
      · exact .inl ⟨.inl hb, .inr (.inl ⟨r, hpb⟩)⟩
      · exact .inl ⟨.inr hb, .inr (.inl ⟨r, hpb⟩)⟩
      · rw [hi] at hb
        cases hb.2
    · exact .inr ⟨hap.not_has hb.has, hb.withPbag (u := f.sbagUsed) hr (hq.imp_right And.left) id⟩
  · rcases has_withPbag hr hb with rfl | hb
    · rcases hq with hq | hq
      · exact .inl ⟨parent, by simp, .inr (.inl ⟨r, hq⟩)⟩
      · exact .inr hq.2
    · exact .inl ⟨parent, by simp, hb⟩
  · exact (hp.pbag hr').live hn.2

/-- What a called function returns with: no P-bag, or one for each of its
regions, and a parent that has a region. -/
def ReturnOk (child parent : FrameData) : Prop :=
  (∀ o ∈ child.pbags.getD [], o.isSome = false) ∨
    (∀ o ∈ child.pbags.getD [], o.isSome = true) ∧ 0 < (parent.pbags.getD []).length

instance decidableReturnOk (child parent : FrameData) : Decidable (ReturnOk child parent) :=
  inferInstanceAs (Decidable (_ ∨ _))

theorem Supplanted.leave_synced (hfr : c.frames = child :: parent :: fs) (hw : c.bags.WF)
    (hc : child.Ok c.bags) (hi : child.iterbag = none) (hp : parent.Ok c.bags)
    (hap : child.Apart parent) (hn : ∀ o ∈ child.pbags.getD [], o.isSome = false) :
    ∃ h' f', c.leaveCilkFunction 0 = some { c with bags := h', frames := f' :: fs } ∧
      Supplanted c.bags h' [child, parent] f' ∧ ∀ o, o.running = true → Fits c.bags parent o →
      Fits h' f' o := by
  have hnp : ∀ r, child.pbag r = none := fun r => by
    cases hb : child.pbag r with
    | none => rfl
    | some b => exact absurd (hn _ (mem_pbags.2 ⟨r, hb⟩)) (by simp)
  obtain ⟨s, hs, -⟩ := hp.sbag
  obtain ⟨h', hret, hab⟩ := CilkSan.leaveCilkFunction_spec (r := 0) hfr hw hc hi hnp hp hap hs
  refine ⟨h', _, hret, .of_absorbed hab (fun hb => ⟨child, by simp, hb⟩) (fun f hf b hb => ?_)
    (fun hb => .inl ⟨parent, by simp, hb⟩) (fun {b} hb => ?_), fun o hrun hfo => ?_⟩
  · simp only [List.mem_cons, List.not_mem_nil, or_false] at hf
    rcases hf with rfl | rfl
    · rcases hb with hb | ⟨r, hb⟩ | hb
      · exact .inl ⟨hb, .inl ⟨by simp [hb.1], hs⟩⟩
      · rw [hnp] at hb
        cases hb
      · rw [hi] at hb
        cases hb.2
    · exact .inr ⟨hap.not_has hb.has, hb.imp_left fun h => ⟨by simp [h.1], h.2⟩⟩
  · have hany : (child.pbags.getD []).any Option.isSome = false := by
      rw [List.any_eq_false]
      exact fun o ho => by simp [hn o ho]
    simp only [CilkSan.leaveCilkFunction, CilkSan.mergeBagFromReturningChild, hfr,
      Bool.false_eq_true, if_false,
      CilkSan.mergeCalled, hany, Option.bind_eq_bind, Option.bind_eq_some_iff] at hret
    obtain ⟨c₁, ⟨_, ⟨h₁, hu, hm⟩, hc₁⟩, hret⟩ := hret
    cases hm
    cases hc₁
    simp only [CilkSan.exitFunction] at hret
    cases hret
    refine live_of_settled
      (Settled.of_has (f := parent) (fun b hb => .inr ((live_combineUsed hu).1 hb))
        fun _ _ hf => hf)
      (fun b hb => live_deleteChild ?_ hi) hb
    simpa [reset, setSbag, setIterbag, clearPbagArray, Bags.delete, hi] using hb
  · have hfo' := hfo.of_is fun hb => hab.is (hap.not_has hb)
    exact ⟨⟨hfo'.ok.sbag, hfo'.ok.pbag, hfo'.ok.distinct, hfo'.ok.iterbag⟩, hfo'.length,
      hfo'.detacher, hfo'.loop, hfo'.iterbag, hfo'.nonempty, fun hn => by rw [hrun] at hn; cases hn⟩

/-- Its children unsynced are left to region 0 of the parent. -/
theorem CilkSan.leaveUnsynced_spec {s : Nat} (hfr : c.frames = child :: parent :: fs)
    (hw : c.bags.WF)
    (hc : child.Ok c.bags) (hi : child.iterbag = none) (hp : parent.Ok c.bags)
    (hap : child.Apart parent)
    (hall : ∀ o ∈ child.pbags.getD [], o.isSome = true)
    (hany : (child.pbags.getD []).any Option.isSome = true)
    (hr : 0 < (parent.pbags.getD []).length) (hs : parent.sbag = some s) :
    ∃ p h' f', c.leaveCilkFunction 0 = some { c with bags := h', frames := f' :: fs } ∧
      f' = ({ parent with sbagUsed := parent.sbagUsed || child.sbagUsed } : FrameData).withPbag 0
      (some p) ∧
      (parent.pbag 0 = some p ∨ parent.pbag 0 = none ∧ c.bags.bag p = none) ∧ h'.Is p .pBag ∧
      Rehomed c.bags h' child.Has
      (fun b t => (child.sbagUsed = true ∧ child.sbag = some b) ∧ t = s ∨
        (∃ r, child.pbag r = some b) ∧ t = p) ∧
      ∀ {b}, h'.Live b → f'.Has b ∨ c.bags.Live b ∧ ∀ f ∈ [child, parent], ¬ f.Has b := by
  obtain ⟨s', hs', hsi⟩ := hp.sbag
  rw [hs] at hs'
  cases hs'
  obtain ⟨t, ht, hti⟩ := hc.sbag
  have hsc : ¬ child.Has s := hap.not_has (.inl hs)
  have hst : s ≠ t := by rintro rfl; exact hsc (.inl ht)
  -- The S-bag, to the parent's.
  obtain ⟨h₁, hh₁, ha₁⟩ := CilkSan.combineUsed_spec child.sbagUsed hw hsi.1 hti.1 hst
  have hct : ∀ {b}, child.sbagUsed = true ∧ b = t → child.Has b := fun h => .inl (h.2 ▸ ht)
  have hpt : ∀ {r b}, child.pbag r = some b → ¬ (child.sbagUsed = true ∧ b = t) := fun hb h => by
    exact absurd (hti.type_eq (h.2 ▸ hc.pbag hb)) (by simp)
  -- The P-bags, to the parent's.
  obtain ⟨p, h₂, hl, hpp, hpi, ha₂⟩ := lazyPbag_spec
    (f := { parent with sbagUsed := parent.sbagUsed || child.sbagUsed }) (r := 0) ha₁.wf hr
    fun q hq => ha₁.is (fun h => hap.not_has (.inr (.inl ⟨0, hq⟩)) (hct h)) (hp.pbag hq)
  replace hpp : parent.pbag 0 = some p ∨ parent.pbag 0 = none ∧ c.bags.bag p = none := by
    refine hpp.imp_right fun h => ⟨h.1, ?_⟩
    have := (live_combineUsed (c := p) hh₁).not
    simpa [Bags.Live] using this.1 (by simpa [Bags.Live] using h.2)
  have hpc : ¬ child.Has p := by
    rcases hpp with hpp | hpp
    · exact hap.not_has (.inr (.inl ⟨0, hpp⟩))
    · exact fun hb => hc.live hb hpp.2
  have hpm : ¬ some p ∈ child.pbags.getD [] := fun h => hpc (.inr (.inl (mem_pbags.1 h)))
  obtain ⟨h₃, hh₃, ha₃⟩ := combineAll_spec (p := p)
      (l := child.pbags.getD []) ha₂.wf hpi.1 hc.distinct fun b hb => by
    obtain ⟨r, hrb⟩ := mem_pbags.1 hb
    exact ⟨ha₂.good id (ha₁.good (hpt hrb) (hc.pbag hrb).1), by rintro rfl; exact hpm hb⟩
  have ha₄ := CilkSan.deleteChild_spec ha₃.wf hpc
  have hd : ∀ {b}, child.sbag = some b ∨ (∃ r, child.pbag r = some b) → child.Has b :=
    fun h => h.imp_right .inl
  have hm : ∀ {b}, some b ∈ child.pbags.getD [] → child.Has b :=
    fun h => .inr (.inl (mem_pbags.1 h))
  refine ⟨p, _, _, ?_, rfl, hpp, ha₄.is (fun h => hpc (hd h)) (ha₃.is hpm hpi),
    ⟨ha₄.wf, fun {b ty} hb h => ?_, fun {b x} hb hx => ?_, fun {d b q} hto ho => ?_,
      fun {d b} hb ho => ?_⟩,
    fun {b} hb => ?_⟩
  · simp only [← hs, ← ht] at hh₁
    simp only [CilkSan.leaveCilkFunction, CilkSan.mergeBagFromReturningChild, hfr,
      Bool.false_eq_true, if_false,
      CilkSan.mergeCalled, hh₁, Option.bind_eq_bind, Option.bind_some, hany, if_true, hl]
    have hfold := foldlM_combine_eq (p := p) hall h₂
    simp only [Option.bind_eq_bind] at hfold
    rw [hfold, hh₃]
    simp [CilkSan.exitFunction, reset, setSbag, clearPbagArray, setIterbag, Bags.delete, hi]
  · exact ha₄.is (fun h => hb (hd h))
      (ha₃.is (fun h => hb (hm h)) (ha₂.is id (ha₁.is (fun h => hb (hct h)) h)))
  · obtain ⟨x₁, hx₁, hv₁⟩ := ha₁.version (fun h => hb (hct h)) hx
    obtain ⟨x₂, hx₂, hv₂⟩ := ha₂.version id hx₁
    obtain ⟨x₃, hx₃, hv₃⟩ := ha₃.version (fun h => hb (hm h)) hx₂
    obtain ⟨x₄, hx₄, hv₄⟩ := ha₄.version (fun h => hb (hd h)) hx₃
    exact ⟨x₄, hx₄, hv₄.trans (hv₃.trans (hv₂.trans hv₁))⟩
  · rcases hto with ⟨⟨hu, hb⟩, rfl⟩ | ⟨⟨r, hb⟩, rfl⟩
    · rw [ht] at hb
      cases hb
      exact ha₄.kept (fun h => hsc (hd h))
        (ha₃.kept (fun h => hsc (hm h)) (ha₂.kept id (ha₁.moved ⟨hu, rfl⟩ ho)))
    · exact ha₄.kept (fun h => hpc (hd h))
        (ha₃.moved (mem_pbags.2 ⟨r, hb⟩) (ha₂.kept id (ha₁.kept (hpt hb) ho)))
  · exact ha₄.kept (fun h => hb (hd h))
      (ha₃.kept (fun h => hb (hm h)) (ha₂.kept id (ha₁.kept (fun h => hb (hct h)) ho)))
  · have hset : Settled c.bags parent h₃ _ := fun b hb => by
      have h₁₂ :=
        (Settled.lazyPbag
          (f := { parent with sbagUsed := parent.sbagUsed || child.sbagUsed }) hr hl).1 b
        ((live_combineAll hh₃).1 hb)
      exact h₁₂.imp_right fun h => ⟨(live_combineUsed hh₁).1 h.1, h.2⟩
    exact live_of_settled hset (fun b hb => live_deleteChild hb hi) hb

theorem Supplanted.leave_unsynced (hfr : c.frames = child :: parent :: fs) (hw : c.bags.WF)
    (hc : child.Ok c.bags) (hi : child.iterbag = none) (hp : parent.Ok c.bags)
    (hap : child.Apart parent)
    (hall : ∀ o ∈ child.pbags.getD [], o.isSome = true)
    (hany : (child.pbags.getD []).any Option.isSome = true)
    (hr : 0 < (parent.pbags.getD []).length) :
    ∃ h' f', c.leaveCilkFunction 0 = some { c with bags := h', frames := f' :: fs } ∧
      Supplanted c.bags h' [child, parent] f' ∧ ∀ o, o.running = true → Fits c.bags parent o →
      Fits h' f' o := by
  obtain ⟨s, hs, -⟩ := hp.sbag
  obtain ⟨p, h', f', hret, hf', hpp, hpi, hre, hlive⟩ :=
    CilkSan.leaveUnsynced_spec hfr hw hc hi hp hap hall hany hr hs
  have hout : ∀ {b}, (∀ f ∈ [child, parent], ¬ f.Has b) → ¬ child.Has b :=
    fun hb => hb child (by simp)
  subst hf'
  refine ⟨h', _, hret, ⟨hre.wf, fun hb => hre.is (hout hb), fun hb => hre.kept (hout hb),
      fun f hf d b hb ho => ?_,
    fun hb => ?_, hlive⟩, fun o hrun hfo => ?_⟩
  · have hpb :
        (({ parent with sbagUsed := parent.sbagUsed || child.sbagUsed } : FrameData).withPbag 0
          (some p)).pbag 0 =
        some p :=
      pbag_withPbag (f := { parent with sbagUsed := parent.sbagUsed || child.sbagUsed }) hr _ 0
    simp only [List.mem_cons, List.not_mem_nil, or_false] at hf
    rcases hf with rfl | rfl
    · rcases hb with hb | hb | hb
      · exact ⟨s, .inl ⟨by simp [withPbag, hb.1], hs⟩, hre.moved (.inl ⟨hb, rfl⟩) ho⟩
      · exact ⟨p, .inr (.inl ⟨0, hpb⟩), hre.moved (.inr ⟨hb, rfl⟩) ho⟩
      · rw [hi] at hb
        cases hb.2
    · exact ⟨b, hb.withPbag hr (hpp.imp_right And.left) (fun h => by simp [h]),
        hre.kept (hap.not_has hb.has) ho⟩
  · rcases has_withPbag hr hb with rfl | hb
    · rcases hpp with hpp | hpp
      · exact .inl ⟨parent, by simp, .inr (.inl ⟨0, hpp⟩)⟩
      · exact .inr hpp.2
    · exact .inl ⟨parent, by simp, hb⟩
  · refine Fits.withPbag hfo hrun (fun hb => hre.is (hap.not_has hb)) hr hpi
      (hpp.imp_right fun hn r' hr' => ?_)
    exact (hp.pbag hr').live hn.2

/-- A called function returns. -/
theorem Supplanted.leaveCilkFunction (hfr : c.frames = child :: parent :: fs) (hw : c.bags.WF)
    (hc : child.Ok c.bags) (hi : child.iterbag = none) (hp : parent.Ok c.bags)
    (hap : child.Apart parent) (hok : ReturnOk child parent) :
    ∃ h' f', c.leaveCilkFunction 0 = some { c with bags := h', frames := f' :: fs } ∧
      Supplanted c.bags h' [child, parent] f' ∧ ∀ o, o.running = true → Fits c.bags parent o →
      Fits h' f' o := by
  rcases hok with hn | ⟨hall, hr⟩
  · exact Supplanted.leave_synced hfr hw hc hi hp hap hn
  · cases hany : (child.pbags.getD []).any Option.isSome with
    | true => exact Supplanted.leave_unsynced hfr hw hc hi hp hap hall hany hr
    | false =>
      rw [List.any_eq_false] at hany
      exact Supplanted.leave_synced hfr hw hc hi hp hap fun o ho => by simpa using hany o ho

/-- A loop ends. -/
theorem Supplanted.loopEnd {r : Nat} (hfr : c.frames = child :: parent :: fs) (hw : c.bags.WF)
    (hc : child.Ok c.bags)
    (h₀ : 0 < (child.pbags.getD []).length) (hi : child.iterbag.isSome = true)
    (hu : child.sbagUsed = false)
    (hd : child.frameData.isDetacher = true) (hp : parent.Ok c.bags) (hap : child.Apart parent)
    (hr : r < (parent.pbags.getD []).length) :
    ∃ h' f', c.doLoopEnd r = some { c with bags := h', frames := f' :: fs } ∧
      Supplanted c.bags h' [child, parent] f' ∧ ∀ o, o.running = true → Fits c.bags parent o →
      Fits h' f' o := by
  obtain ⟨i, hi⟩ := Option.isSome_iff_exists.1 hi
  obtain ⟨q, h', hend, hq, hqi, hab⟩ := CilkSan.doLoopEnd_spec hfr hw hc h₀ hi hu hd hp hap hr
  have hpb : (parent.withPbag r (some q)).pbag r = some q := by rw [pbag_withPbag hr, if_pos rfl]
  refine ⟨h', parent.withPbag r (some q), hend, .of_absorbed hab (fun hb => ⟨child, by simp, hb⟩)
    (fun f hf b hb => ?_) (fun {b} hb => ?_) (fun {b} hb => ?_), fun o hrun hfo =>
      hfo.withPbag hrun (fun hb => hab.is (hap.not_has hb)) hr hqi
        (hq.imp_right fun hn r' hr' => ?_)⟩
  · simp only [List.mem_cons, List.not_mem_nil, or_false] at hf
    rcases hf with rfl | rfl
    · rcases hb with hb | hb | hb
      · rw [hu] at hb
        cases hb.1
      · exact .inl ⟨.inr hb, .inr (.inl ⟨r, hpb⟩)⟩
      · rw [hi] at hb
        exact .inl ⟨.inl ⟨hb.1, (Option.some.inj hb.2).symm⟩, .inr (.inl ⟨r, hpb⟩)⟩
    · exact .inr ⟨hap.not_has hb.has, hb.withPbag (u := f.sbagUsed) hr (hq.imp_right And.left) id⟩
  · rcases has_withPbag hr hb with rfl | hb
    · rcases hq with hq | hq
      · exact .inl ⟨parent, by simp, .inr (.inl ⟨r, hq⟩)⟩
      · by_cases hn : c.bags.bag b = none
        · exact .inr hn
        · exact .inl ⟨child, by simp, hq.2 hn⟩
    · exact .inl ⟨parent, by simp, hb⟩
  · simp only [CilkSan.doLoopEnd, hfr, List.head?_cons, Option.bind_eq_bind, Option.bind_some,
      Option.bind_eq_some_iff] at hend
    obtain ⟨⟨p, f₁, h₁⟩, hl, h₂, hcu, hleave⟩ := hend
    obtain ⟨hs₁, rfl⟩ := Settled.lazyPbag h₀ hl
    have hs₂ := hs₁.trans (.of_live fun _ hb => (live_combineUsed hcu).1 hb)
    have hs₃ : Settled c.bags child (h₂.delete (some i)) { child.withPbag 0 (some p) with
        iterbag := none
        iterbagUsed := false } := by
      refine hs₂.trans (.of_has (fun b hb => .inr (Bags.live_delete.1 hb).1) fun b hb hfb => ?_)
      rcases hfb with hfb | hfb | hfb
      · exact .inl hfb
      · exact .inr (.inl hfb)
      · exact absurd (hi.symm.trans hfb) (Bags.live_delete.1 hb).2
    have hib : (child.withPbag 0 (some p)).iterbag = some i := hi
    simp only [CilkSan.doLeave, setIterbag, CilkSan.setHead, List.tail_cons, List.head?_cons,
      show (child.withPbag 0 (some p)).frameData.isDetacher = true from hd, if_true, hib,
      Option.bind_eq_bind, Option.bind_some] at hleave
    rcases Settled.returnFromDetach rfl rfl hr hleave rfl hb with hb | ⟨hb, hn⟩
    · exact .inl hb
    · simp only [List.mem_cons, List.not_mem_nil, or_false, forall_eq_or_imp, forall_eq] at hn ⊢
      exact .inr ⟨((hs₃ b hb).resolve_left hn.1).1, ((hs₃ b hb).resolve_left hn.1).2, hn.2⟩
  · exact hap.not_has (.inr (.inl ⟨r', hr'⟩)) (hn.2 (hp.pbag hr').live)

end returning

/-- An iteration ends. -/
theorem Supplanted.loopIterationEnd {c : CilkSan} {f : FrameData} {fs : List FrameData}
    (hfr : c.frames = f :: fs)
    (hw : c.bags.WF) (hf : f.Ok c.bags) (hr : 0 < (f.pbags.getD []).length)
    (hi : f.iterbag.isSome = true) :
    ∃ h' f', c.doLoopIterationEnd = some { c with bags := h', frames := f' :: fs } ∧
    Supplanted c.bags h' [f] f' ∧
      f'.Ok h' ∧ f'.frameData = f.frameData ∧ f'.sbagUsed = false ∧ f'.iterbag.isSome = true ∧
      (f'.pbags.getD []).length = (f.pbags.getD []).length := by
  obtain ⟨i, hi⟩ := Option.isSome_iff_exists.1 hi
  obtain ⟨s, hs, hsi⟩ := hf.sbag
  obtain ⟨hii, hsne⟩ := hf.iterbag hi
  obtain ⟨-, x, hx, -⟩ := id hii
  obtain ⟨h', f', p, hend, he⟩ := CilkSan.doLoopIterationEnd_spec hfr hw hf hr hs hi hx
  have hne : s ≠ i := by rintro rfl; exact hsne hs
  have hout : ∀ {b}, (∀ g ∈ [f], ¬ g.Has b) → b ≠ s ∧ b ≠ i := fun hb =>
    ⟨by rintro rfl; exact hb f (by simp) (.inl hs),
      by rintro rfl; exact hb f (by simp) (.inr (.inr hi))⟩
  have hpb₀ : f'.Retains p := .inr (.inl ⟨0, by rw [he.pbag, if_pos rfl]⟩)
  refine ⟨h', f', hend,
    ⟨he.wf, fun hb => he.is (hout hb).1 (hout hb).2, fun hb => he.kept (hout hb).1 (hout hb).2,
    fun g hg d b hb ho => ?_, fun hb => (he.has hb).imp_left fun hb => ⟨f, by simp, hb⟩, ?_⟩,
    he.ok, he.frameData, he.unused, ?_, he.length⟩
  · rw [List.mem_singleton] at hg
    subst hg
    rcases hb with ⟨hu, hb⟩ | ⟨r, hb⟩ | ⟨hu, hb⟩
    · rw [hs] at hb
      cases hb
      exact ⟨p, hpb₀, he.sMoved hu ho⟩
    · have hbs : b ≠ s := by rintro rfl; exact absurd (hsi.type_eq (hf.pbag hb)) (by simp)
      have hbi : b ≠ i := by rintro rfl; exact absurd (hii.type_eq (hf.pbag hb)) (by simp)
      refine ⟨b, .inr (.inl ⟨r, ?_⟩), he.kept hbs hbi ho⟩
      rw [he.pbag]
      split
      · next h0 =>
        subst h0
        rcases he.fresh with hp | hp
        · rw [← hp, hb]
        · rw [hp] at hb; cases hb
      · exact hb
    · rw [hi] at hb
      cases hb
      by_cases hwr : (x.version + 1) % versionEnd = 0
      · exact ⟨p, hpb₀, he.iMoved hu hwr ho⟩
      · obtain ⟨i', y, hi', -, -, hc⟩ := he.iterbag
        rcases hc with ⟨rfl, hiu, -⟩ | ⟨-, h0⟩
        · exact ⟨i', .inr (.inr ⟨hiu.trans hu, hi'⟩), he.iKept hwr ho⟩
        · exact absurd h0 hwr
  · refine Settled.live ?_
    simp only [CilkSan.doLoopIterationEnd, hfr, List.head?_cons, Option.bind_eq_bind,
      Option.bind_some, Option.bind_eq_some_iff] at hend
    obtain ⟨⟨p', f₁, h₁⟩, hl, ⟨f₂, h₂⟩, hrs, ⟨ok, h₃⟩, hv, ⟨f₃, h₄⟩, hri, hc⟩ := hend
    cases hc
    simp only [FrameData.incVersion, Option.bind_eq_bind, Option.bind_eq_some_iff] at hv
    obtain ⟨j, -, hv⟩ := hv
    have hl' : Settled c.bags f h₁ f₁ := (Settled.lazyPbag (f := f.exitLoopContinuation) hr hl).1
    exact (hl'.trans (.retireSbag hrs)).trans ((Settled.of_live fun _ hb =>
      (Bags.live_incVersion hv).1 hb).trans (.retireIterbag hri))
  · obtain ⟨i', y, hi', -⟩ := he.iterbag
    rw [hi']
    rfl

end Cilksan
