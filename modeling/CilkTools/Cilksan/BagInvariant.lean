/-
The invariant of the shadow stack: its frames match the program's
activations, and every access recorded so far is in a bag of the stack that
says how its strand and the current one are related. One lemma per hook, then
`Inv.step` and `Inv.run`.
-/
import CilkTools.Cilksan.Placement
import Mathlib.Data.List.Forall2

namespace Cilksan

/-- A frame and the activation it belongs to. -/
structure Matches (h : Bags) (f : FrameData) (a : Activation) : Prop where
  ok : f.Ok h
  length : (f.pbags.getD []).length = a.regions
  detacher : f.frameData.isDetacher = (decide (a.kind = .spawned) || a.isLoop)
  loop : f.isLoopFrame = a.isLoop
  pendLt : ∀ r, a.regions ≤ r → a.pend r = []
  synced : a.isLoop = false → ∀ r, f.pbag r = none ↔ a.pend r = []
  plain : a.isLoop = false → f.iterbag = none ∧ a.active = true ∧ ∀ r, a.stale r = false
  looping : a.isLoop = true → 0 < a.regions ∧ a.inlined = 0 ∧
    ∃ i x, f.iterbag = some i ∧ h.bag i = some x ∧ x.version = a.iter % versionEnd
  idle : a.active = false → f.sbagUsed = false ∧ a.done ≠ [] ∧ ∀ r, a.pend r = []

/-- Which function entries pushed no frame, the last first. -/
def skips (as : List Activation) : List Bool :=
  as.flatMap fun a => List.replicate a.inlined true ++ if a.kind = .called then [false] else []

/-- Strands are numbered in order, the head's being the last. -/
structure Program.WF (p : Program) : Prop where
  newest : p.cur + 1 = p.dag.size
  ends : ∀ a ∈ p.acts, ∀ x, a.Ends x → x < p.dag.size
  older : ∀ a ∈ p.acts.tail, ∀ x, a.Ends x → x ≠ p.cur
  loops : ∀ a ∈ p.acts, ∀ id, a.kind = .loop id → id < p.nextLoop
  ids : p.acts.Pairwise fun a b => ∀ id, a.kind = .loop id → b.kind ≠ .loop id
  active : ∀ a ∈ p.acts.tail, a.active = true
  pendingActive : p.pendingLoop = true → ∀ a ∈ p.acts, a.active = true

/-- An access the program made, as the tool recorded it. -/
structure Logged (p : Program) (c : CilkSan) (e : LoggedAccess) (m : MemoryAccess) : Prop where
  strand : e.strand < p.dag.size
  loops : ∀ id j, (id, j) ∈ e.ctx ∨ e.direct = some (id, j) → id < p.nextLoop
  placed : ∃ b, c.bags.Owned m.func b ∧ Placed (p.dag.Path e.strand) e b m.version c.frames p.acts

structure Inv (p : Program) (c : CilkSan) : Prop where
  program : p.WF
  wf : c.bags.WF
  frames : List.Forall₂ (Matches c.bags) c.frames p.acts
  apart : c.frames.Pairwise FrameData.Apart
  pending : c.startNewLoop = p.pendingLoop
  skipped : c.framesSkipped = skips p.acts
  log : List.Forall₂ (Logged p c) p.log c.log

/-! ## Matching frames -/

theorem Activation.isLoop_iff {a : Activation} : a.isLoop = true ↔ ∃ id, a.kind = .loop id := by
  cases h : a.kind <;> simp [Activation.isLoop, h]

theorem Activation.mem_unsynced {h : Bags} {f : FrameData} {a : Activation} (hm : Matches h f a) :
    ∀ r, ∀ x ∈ a.pend r, x ∈ a.unsynced := by
  intro r x hx
  simp only [Activation.unsynced, List.mem_flatMap, List.mem_range]
  rcases Nat.lt_or_ge r a.regions with hr | hr
  · exact ⟨r, hr, hx⟩
  · rw [hm.pendLt r hr] at hx; cases hx

theorem Activation.pend_of_unsynced {h : Bags} {f : FrameData} {a : Activation} (hm : Matches h f a)
    (hu : a.unsynced = []) (r : Nat) : a.pend r = [] := by
  rw [List.eq_nil_iff_forall_not_mem]
  intro x hx
  have := Activation.mem_unsynced hm r x hx
  rw [hu] at this
  cases this

theorem Matches.of_heap {h h' : Bags} {f : FrameData} {a : Activation} (hm : Matches h f a)
    (his : ∀ {b ty}, f.Has b → h.Is b ty → h'.Is b ty)
    (hv : ∀ {b x}, f.Has b → h.bag b = some x → ∃ x', h'.bag b = some x' ∧ x'.version = x.version) :
    Matches h' f a where
  ok := by
    obtain ⟨s, hs, hsi⟩ := hm.ok.sbag
    exact ⟨⟨s, hs, his (.inl hs) hsi⟩, fun hp => his (.inr (.inl ⟨_, hp⟩)) (hm.ok.pbag hp),
      hm.ok.distinct, fun hi => ⟨his (.inr (.inr hi)) (hm.ok.iterbag hi).1, (hm.ok.iterbag hi).2⟩⟩
  length := hm.length
  detacher := hm.detacher
  loop := hm.loop
  pendLt := hm.pendLt
  synced := hm.synced
  plain := hm.plain
  looping hl := by
    obtain ⟨hr, hin, i, x, hi, hx, hxv⟩ := hm.looping hl
    obtain ⟨x', hx', hv'⟩ := hv (.inr (.inr hi)) hx
    exact ⟨hr, hin, i, x', hi, hx', hv'.trans hxv⟩
  idle := hm.idle

theorem Matches.absorbed {h h' : Bags} {t : Nat} {m g : Nat → Prop} {f : FrameData} {a : Activation}
    (hm : Matches h f a) (ha : Absorbed h h' t m g) (hg : ∀ b, f.Has b → ¬ g b) : Matches h' f a :=
  hm.of_heap (fun hb => ha.is (hg _ hb)) fun hb => ha.version (hg _ hb)

theorem Matches.all {h h' : Bags} {fs : List FrameData} {as : List Activation}
    (hm : List.Forall₂ (Matches h) fs as) (hi : ∀ f ∈ fs, ∀ a, Matches h f a → Matches h' f a) :
    List.Forall₂ (Matches h') fs as := by
  induction hm with
  | nil => exact .nil
  | cons hfa _ ih => exact .cons (hi _ (by simp) _ hfa) (ih fun f hf => hi f (by simp [hf]))

theorem Matches.of_mem {h : Bags} {fs : List FrameData} {as : List Activation}
    (hm : List.Forall₂ (Matches h) fs as) {f : FrameData} (hf : f ∈ fs) : ∃ a, Matches h f a := by
  induction hm with
  | nil => cases hf
  | cons hfa _ ih =>
    rw [List.mem_cons] at hf
    rcases hf with rfl | hf
    · exact ⟨_, hfa⟩
    · exact ih hf

/-- No P-bag in a frame means nothing unsynced in its activation. -/
theorem Matches.unsynced_iff {h : Bags} {f : FrameData} {a : Activation} (hm : Matches h f a)
    (hl : a.isLoop = false) : (f.pbags.getD []).any Option.isSome = false ↔ a.unsynced = [] := by
  constructor
  · intro hany
    simp only [Activation.unsynced, List.flatMap_eq_nil_iff, List.mem_range]
    intro r _
    refine (hm.synced hl r).1 ?_
    cases hp : f.pbag r with
    | none => rfl
    | some b =>
      rw [List.any_eq_false] at hany
      exact absurd rfl (hany _ (FrameData.mem_pbags.2 ⟨r, hp⟩))
  · intro hu
    rw [List.any_eq_false]
    rintro (_ | b) hb
    · simp
    · obtain ⟨r, hr⟩ := FrameData.mem_pbags.1 hb
      rw [(hm.synced hl r).2 (Activation.pend_of_unsynced hm hu r)] at hr
      cases hr

/-! ## The program goes on -/

theorem Program.WF.advance {p p' : Program} (hw : p.WF) {ps : List Nat} {a : Activation}
    {as : List Activation}
    (hdag : p'.dag = p.dag.add ps) (hacts : p'.acts = a :: as) (hc : a.cur = p.dag.size)
    (ha : ∀ x, a.Ends x → x = p.dag.size ∨ ∃ c ∈ p.acts, c.Ends x) (has : ∀ c ∈ as, c ∈ p.acts)
    (hl : ∀ c ∈ p'.acts, ∀ id, c.kind = .loop id → id < p'.nextLoop)
    (hids : (a :: as).Pairwise fun a b => ∀ id, a.kind = .loop id → b.kind ≠ .loop id)
    (hact : ∀ c ∈ as, c.active = true) (hpend : p'.pendingLoop = false) : p'.WF := by
  have hcur : p'.cur = p.dag.size := by simp [Program.cur, hacts, hc]
  refine ⟨by rw [hcur, hdag]; rfl, fun c hmem x hx => ?_, fun c hmem x hx => ?_, hl,
    by rw [hacts]; exact hids, by rw [hacts]; exact hact,
    fun h => by rw [hpend] at h; cases h⟩
  · rw [hdag, GrowingDag.add_size]
    rw [hacts, List.mem_cons] at hmem
    rcases hmem with rfl | hmem
    · rcases ha x hx with rfl | ⟨c', hc', hx'⟩
      · omega
      · have := hw.ends c' hc' x hx'; omega
    · have := hw.ends c (has c hmem) x hx; omega
  · rw [hacts] at hmem
    have := hw.ends c (has c hmem) x hx
    omega

theorem Inv.log_advance {p p' : Program} {c c' : CilkSan} (hi : Inv p c) {ps : List Nat}
    (hps : ∀ x ∈ ps, x < p.dag.size) (hdag : p'.dag = p.dag.add ps) (hnl : p.nextLoop ≤ p'.nextLoop)
    (hlog : p'.log = p.log) (hlog' : c'.log = c.log)
    (hmove : ∀ {R : Nat → Prop} {e : LoggedAccess} {b v d : Nat}, (R p.dag.size ↔ ∃ x ∈ ps, R x) →
      (∀ id j, (id, j) ∈ e.ctx ∨ e.direct = some (id, j) → id < p.nextLoop) → c.bags.Owned d b →
      Placed R e b v c.frames p.acts →
      ∃ b', c'.bags.Owned d b' ∧ Placed R e b' v c'.frames p'.acts) :
    List.Forall₂ (Logged p' c') p'.log c'.log := by
  rw [hlog, hlog']
  refine hi.log.imp fun e m ⟨hs, hl, b, ho, hpl⟩ =>
    ⟨?_, fun id j h => Nat.lt_of_lt_of_le (hl id j h) hnl, ?_⟩
  · rw [hdag, GrowingDag.add_size]; omega
  · have hpl' : Placed (p'.dag.Path e.strand) e b m.version c.frames p.acts :=
      hpl.congr fun a ha x hx => by
      rw [hdag]; exact GrowingDag.path_add_old (hi.program.ends a ha x hx)
    refine hmove ?_ hl ho hpl'
    rw [hdag, GrowingDag.path_add_new hs hps]
    constructor
    · rintro ⟨x, hx, hr⟩; exact ⟨x, hx, (GrowingDag.path_add_old (hps x hx)).2 hr⟩
    · rintro ⟨x, hx, hr⟩; exact ⟨x, hx, (GrowingDag.path_add_old (hps x hx)).1 hr⟩

/-! ## New frames -/

/-- What an activation just begun looks like. -/
structure Activation.Fresh (a : Activation) (n : Nat) : Prop where
  cur : a.cur = n
  pend : a.pend = fun _ => []
  inlined : a.inlined = 0
  iter : a.iter = 0
  active : a.active = true
  done : a.done = []
  stale : ∀ r, a.stale r = false

theorem Activation.Fresh.ends {a : Activation} {n x : Nat} (ha : a.Fresh n)
    (hx : a.Ends x) : x = n := by
  rcases hx with rfl | ⟨r, hx⟩ | hx
  · exact ha.cur
  · rw [ha.pend] at hx; cases hx
  · rw [ha.done] at hx; cases hx

theorem Matches.of_new {h : Bags} {f : FrameData} {a : Activation} {s n : Nat}
    (hf : CilkSan.New f s a.regions)
    (hs : h.Is s .sBag) (ha : a.Fresh n) (hd : f.frameData.isDetacher = decide (a.kind = .spawned))
    (hl : f.frameData.isLoopFrame = false) (hk : a.isLoop = false) : Matches h f a where
  ok := hf.ok hs
  length := hf.length
  detacher := by rw [hd, hk, Bool.or_false]
  loop := hl.trans hk.symm
  pendLt r _ := by rw [ha.pend]
  synced _ r := by rw [hf.pbag, ha.pend]; simp
  plain _ := ⟨hf.iterbag, ha.active, ha.stale⟩
  looping h := by rw [hk] at h; cases h
  idle h := by rw [ha.active] at h; cases h

/-- Pushing a frame for an activation begun after the head's strand. -/
theorem Inv.push {p : Program} {c : CilkSan} {h' : Bags} {f : FrameData} {a₀ a : Activation}
    {as : List Activation} (hi : Inv p c) (p' : Program) (sk : List Bool) (hp : p.acts = a :: as)
    (ha : a.active = true) (hdag : p'.dag = p.dag.add [a.cur]) (hacts : p'.acts = a₀ :: a :: as)
    (hlog : p'.log = p.log)
    (hnl : p.nextLoop ≤ p'.nextLoop) (ha₀ : a₀.Fresh p.dag.size) (hpend : p'.pendingLoop = false)
    (hk : ∀ id, a₀.kind = .loop id → p.nextLoop ≤ id ∧ id < p'.nextLoop)
    (hsk : sk = (if a₀.kind = .called then [false] else []) ++ c.framesSkipped)
    (hm : Matches h' f a₀) (hap : ∀ b, f.Has b → c.bags.bag b = none)
    (hab : ∀ t, Absorbed c.bags h' t (fun _ => False) (fun _ => False)) :
    Inv p' { c with
      bags := h', frames := f :: c.frames, startNewLoop := false, framesSkipped := sk } := by
  have hcur : a.cur < p.dag.size := hi.program.ends a (by simp [hp]) _ (.inl rfl)
  refine ⟨hi.program.advance hdag hacts ha₀.cur (fun x hx => .inl (ha₀.ends hx))
      (by simp [hp]) ?_ ?_ ?_ hpend, (hab 0).wf, ?_, ?_,
    hpend.symm, ?_, hi.log_advance (by simpa using hcur) hdag hnl hlog rfl ?_⟩
  · rw [hacts]
    intro b hb id hid
    rw [List.mem_cons] at hb
    rcases hb with rfl | hb
    · exact (hk id hid).2
    · exact Nat.lt_of_lt_of_le (hi.program.loops b (by rw [hp]; exact hb) id hid) hnl
  · refine List.Pairwise.cons (fun b hb id hid hid' => ?_) (hp ▸ hi.program.ids)
    have := hi.program.loops b (by rw [hp]; exact hb) id hid'
    have := (hk id hid).1
    omega
  · intro b hb
    rw [List.mem_cons] at hb
    rcases hb with rfl | hb
    · exact ha
    · exact hi.program.active b (by rw [hp]; exact hb)
  · rw [hacts, ← hp]
    exact .cons hm (Matches.all hi.frames fun g _ b hb => hb.absorbed (hab 0) fun _ _ h => h)
  · refine List.Pairwise.cons (fun g hg b hb hgb => ?_) hi.apart
    obtain ⟨a', hga⟩ := Matches.of_mem hi.frames hg
    exact hga.ok.live hgb (hap b hb)
  · rw [hacts, hsk, hi.skipped, hp]
    simp [skips, ha₀.inlined]
  · intro R e b v d hR hl ho hpl
    refine ⟨b, (hab 0).kept id ho, ?_⟩
    rw [hacts]
    rw [hp] at hpl
    obtain ⟨g, gs, -, -, hg⟩ := List.forall₂_cons_right_iff.1 (hp ▸ hi.frames)
    simp only [hg] at hpl ⊢
    refine hpl.push (fun id hid j => ⟨fun hmem => ?_, fun hd => ?_⟩) ha₀.pend ha₀.done
      (by rw [ha₀.cur, hR]; simp)
    · have := hl id j (.inl hmem)
      have := (hk id hid).1
      omega
    · have := hl id j (.inr hd)
      have := (hk id hid).1
      omega

/-! ## Function entry and exit -/

/-- The head frame and the head activation change, which goes on with a new strand. -/
theorem Inv.headStep {p : Program} {c : CilkSan} {h' : Bags} {f f' : FrameData}
    {fs : List FrameData}
    {a a' : Activation} {as : List Activation} (hi : Inv p c) (p' : Program) (ps : List Nat)
    (sk : List Bool)
    (hp : p.acts = a :: as) (hf : c.frames = f :: fs) (hps : ∀ x ∈ ps, x < p.dag.size)
    (hdag : p'.dag = p.dag.add ps) (hacts : p'.acts = a' :: as) (hlog : p'.log = p.log)
    (hnl : p'.nextLoop = p.nextLoop) (hrun : p.pendingLoop = false) (hpend : p'.pendingLoop = false)
    (hcur : a'.cur = p.dag.size) (hk : a'.kind = a.kind) (hends : ∀ x, a'.Ends x →
      x = p.dag.size ∨ a.Ends x)
    (hsk : skips p'.acts = sk) (hwf : h'.WF) (hm : Matches h' f' a')
    (hdeep : ∀ g ∈ fs, ∀ b, Matches c.bags g b → Matches h' g b)
    (hhas : ∀ x, f'.Has x → f.Has x ∨ c.bags.bag x = none)
    (hmove : ∀ {R : Nat → Prop} {e : LoggedAccess} {b v d : Nat}, (R p.dag.size ↔ ∃ x ∈ ps, R x) →
      c.bags.Owned d b → Placed R e b v (f :: fs) (a :: as) →
      ∃ b', h'.Owned d b' ∧ Placed R e b' v (f' :: fs) (a' :: as)) :
    Inv p' { c with bags := h', frames := f' :: fs, framesSkipped := sk } := by
  have hfr := hi.frames
  have hapart := hi.apart
  rw [hf, hp] at hfr
  rw [hf, List.pairwise_cons] at hapart
  have hrest := (List.forall₂_cons.1 hfr).2
  refine ⟨hi.program.advance hdag hacts hcur (fun x hx => ?_) (fun b hb => by simp [hp, hb]) ?_ ?_
      (fun b hb => hi.program.active b (by rw [hp]; exact hb)) hpend, hwf, ?_,
    List.pairwise_cons.2 ⟨fun g hg b hb hgb => ?_, hapart.2⟩,
    hi.pending.trans (hrun.trans hpend.symm), hsk.symm,
    hi.log_advance hps hdag (Nat.le_of_eq hnl.symm) hlog rfl ?_⟩
  · exact (hends x hx).imp_right fun hx => ⟨a, by simp [hp], hx⟩
  · rw [hacts, hnl]
    intro b hb id hid
    rw [List.mem_cons] at hb
    rcases hb with rfl | hb
    · exact hi.program.loops a (by simp [hp]) id (hk ▸ hid)
    · exact hi.program.loops b (by simp [hp, hb]) id hid
  · have := hi.program.ids
    rw [hp, List.pairwise_cons] at this
    exact List.Pairwise.cons (by rw [hk]; exact this.1) this.2
  · rw [hacts]
    exact .cons hm (Matches.all hrest hdeep)
  · rcases hhas b hb with hb | hb
    · exact hapart.1 g hg b hb hgb
    · obtain ⟨a', hga⟩ := Matches.of_mem hrest hg
      exact hga.ok.live hgb hb
  · intro R e b v d hR _ ho hpl
    rw [hf, hp] at hpl
    rw [hacts]
    exact hmove hR ho hpl

/-- Only the head activation's current strand and flags change. -/
theorem Inv.setHead {p : Program} {c : CilkSan} {f f' : FrameData} {fs : List FrameData}
    {a a' : Activation}
    {as : List Activation} (hi : Inv p c) (p' : Program) (ps : List Nat) (sk : List Bool)
    (hp : p.acts = a :: as) (hf : c.frames = f :: fs) (hps : ∀ x ∈ ps, x < p.dag.size)
    (hdag : p'.dag = p.dag.add ps) (hacts : p'.acts = a' :: as) (hlog : p'.log = p.log)
    (hnl : p'.nextLoop = p.nextLoop) (hrun : p.pendingLoop = false) (hpend : p'.pendingLoop = false)
    (hcur : a'.cur = p.dag.size) (hk : a'.kind = a.kind) (hpe : a'.pend = a.pend)
    (hit : a'.iter = a.iter)
    (hd : a'.done = a.done) (hst : a'.stale = a.stale) (hact : a.active = true → a'.active = true)
    (hsk : skips p'.acts = sk) (hb : Placed.SameBags f f') (hm : Matches c.bags f' a')
    (hR : ∀ {R : Nat → Prop} {e : LoggedAccess} {b v : Nat}, (R p.dag.size ↔ ∃ x ∈ ps, R x) →
      Placed R e b v (f :: fs) (a :: as) → (R p.dag.size ↔ R a.cur)) :
    Inv p' { c with frames := f' :: fs, framesSkipped := sk } := by
  refine hi.headStep p' ps sk hp hf hps hdag hacts hlog hnl hrun hpend hcur hk
    (fun x hx => ?_) hsk hi.wf hm
    (fun _ _ _ h => h) (fun x hx => .inl (hb.has hx)) fun {R e b v d} hR' ho hpl => ⟨b, ho, ?_⟩
  · rcases hx with rfl | hx
    · exact .inl hcur
    · exact .inr (.inr (by rw [← hpe, ← hd]; exact hx))
  · exact hpl.head hb hk hpe hit hd hst hact (by rw [hcur]; exact hR hR' hpl)

theorem Matches.setCur {h : Bags} {f : FrameData} {a : Activation} (hm : Matches h f a) (n k : Nat)
    (hl : a.isLoop = true → k = 0) : Matches h f { a with cur := n, inlined := k } where
  ok := hm.ok
  length := hm.length
  detacher := hm.detacher
  loop := hm.loop
  pendLt := hm.pendLt
  synced := hm.synced
  plain := hm.plain
  looping hl' := by
    obtain ⟨hr, -, hi⟩ := hm.looping hl'
    exact ⟨hr, hl hl', hi⟩
  idle := hm.idle

/-- The head frame, if there is an activation. -/
theorem Inv.head {p : Program} {c : CilkSan} {a : Activation} {as : List Activation} (hi : Inv p c)
    (hp : p.acts = a :: as) :
    ∃ f fs, c.frames = f :: fs ∧ Matches c.bags f a ∧ List.Forall₂ (Matches c.bags) fs as ∧
      (∀ g ∈ fs, f.Apart g) ∧ fs.Pairwise FrameData.Apart := by
  obtain ⟨f, fs, hm, hrest, hf⟩ := List.forall₂_cons_right_iff.1 (hp ▸ hi.frames)
  have hap := hi.apart
  rw [hf, List.pairwise_cons] at hap
  exact ⟨f, fs, hf, hm, hrest, hap.1, hap.2⟩

/-- The program runs: it is not between a loop's beginning and an iteration, or
between two iterations. -/
theorem Program.running_iff {p : Program} {a : Activation} {as : List Activation}
    (hp : p.acts = a :: as) : p.running = true ↔ p.pendingLoop = false ∧ a.active = true := by
  simp [Program.running, hp]

theorem Inv.funcEntry {p p' : Program} {c : CilkSan} {ms : Bool} {n : Nat} (hi : Inv p c)
    (hrun : p.running = true) (h : p.funcEntry ms n = some p') :
    ∃ c', c.funcEntry ms n = some c' ∧ Inv p' c' := by
  simp only [Program.funcEntry] at h
  split at h
  · next a as hp =>
    obtain ⟨f, fs, hf, hm, -, -, -⟩ := hi.head hp
    obtain ⟨hrun, hact⟩ := (Program.running_iff hp).1 hrun
    have hcur : a.cur < p.dag.size := hi.program.ends a (by simp [hp]) _ (.inl rfl)
    have hsync : c.isLocalSynced = some (!a.isLoop && decide (a.unsynced = [])) := by
      simp only [CilkSan.isLocalSynced, hf, List.head?_cons, Option.bind_eq_bind,
        Option.bind_some, hm.loop]
      cases hl : a.isLoop with
      | true => rfl
      | false =>
        have := hm.unsynced_iff hl
        by_cases hu : a.unsynced = []
        · simp [hu, this.2 hu]
        · simp only [hu, decide_false, Bool.not_false, Bool.true_and, Option.pure_def,
            Option.some.injEq]
          rw [Bool.not_eq_false']
          by_contra hany
          exact hu (this.1 (by simpa using hany))
    have hcond : (!ms && !a.isLoop && decide (a.unsynced = [])) =
      (!ms && (!a.isLoop && decide (a.unsynced = []))) := by rw [Bool.and_assoc]
    split at h
    · next hin =>
      -- The function runs as part of its caller.
      cases h
      rw [hcond] at hin
      obtain ⟨hms, hls⟩ : ms = false ∧ (!a.isLoop && decide (a.unsynced = [])) = true := by
        simpa using hin
      refine ⟨{ c with framesSkipped := true :: c.framesSkipped }, ?_, ?_⟩
      · simp [CilkSan.funcEntry, hms, hsync, hls]
      · have := hi.setHead
            (p.advance [a.cur] ({ a with cur := p.dag.size, inlined := a.inlined + 1 } :: as))
          [a.cur] (true :: c.framesSkipped) hp hf (by simpa using hcur) rfl rfl rfl rfl hrun hrun
          rfl rfl rfl rfl rfl rfl id ?_ (.refl f) (hm.setCur _ _ ?_) fun hR _ => by rw [hR]; simp
        · rwa [← hf] at this
        · rw [hi.skipped, hp]
          simp [skips, Program.advance, List.replicate_succ]
        · intro hl
          simp [hl] at hls
    · next hin =>
      -- A frame is pushed.
      cases h
      have hdo :
          c.funcEntry ms n =
          ({ c with framesSkipped := false :: c.framesSkipped } : CilkSan).doEnter n := by
        rw [hcond] at hin
        cases hms : ms with
        | true => simp [CilkSan.funcEntry, hsync]
        | false =>
          have hls : (!a.isLoop && decide (a.unsynced = [])) = false := by simpa [hms] using hin
          simp only [CilkSan.funcEntry, hsync, Bool.not_false]
          simp [hls]
      obtain ⟨s, h', child, hst, hnew, hs, hsi, hab⟩ := CilkSan.startNewFunction_spec
        (c := { c with framesSkipped := false :: c.framesSkipped }) n hf hi.wf
      have hnew' :
        CilkSan.New { child with frameData := EntryFrameType.SPAWNER_SHADOW_FRAME } s n :=
        ⟨hnew.sbag, hnew.unused, hnew.pbag, hnew.length, hnew.iterbag⟩
      refine ⟨_, by rw [hdo]; simp [CilkSan.doEnter, hst, CilkSan.setHead]; rfl, ?_⟩
      have := hi.push
        (p.advance [a.cur] ({ kind := .called, regions := n, cur := p.dag.size } :: a :: as))
        (false :: c.framesSkipped) hp hact rfl rfl rfl (Nat.le_refl _)
        ⟨rfl, rfl, rfl, rfl, rfl, rfl, fun _ => rfl⟩ hrun (fun id hid => by cases hid) (by simp)
        (Matches.of_new
          (f := { child with frameData := EntryFrameType.SPAWNER_SHADOW_FRAME }) hnew' hsi
          ⟨rfl, rfl, rfl, rfl, rfl, rfl, fun _ => rfl⟩ (by simp) (by simp) rfl)
        (fun b hb => by rw [hnew'.has hb]; exact hs) hab
      rw [hf] at this
      have hnl : c.startNewLoop = false := hi.pending.trans hrun
      rwa [hnl]
  · cases h

/-- The head frame is popped, its bags being absorbed by a bag of the next. -/
theorem Inv.pop {p : Program} {c : CilkSan} {h' : Bags} {f g g' : FrameData} {fs : List FrameData}
    {a b b' : Activation} {bs : List Activation} {t : Nat} {m : Nat → Prop} (hi : Inv p c)
    (p' : Program)
    (ps : List Nat) (sk : List Bool) (hp : p.acts = a :: b :: bs) (hf : c.frames = f :: g :: fs)
    (hps : ∀ x ∈ ps, x < p.dag.size) (hdag : p'.dag = p.dag.add ps) (hacts : p'.acts = b' :: bs)
    (hlog : p'.log = p.log) (hnl : p'.nextLoop = p.nextLoop) (hrun : p.pendingLoop = false)
    (hpend : p'.pendingLoop = false) (hcur : b'.cur = p.dag.size) (hk : b'.kind = b.kind)
    (hends : ∀ x, b'.Ends x → x = p.dag.size ∨ a.Ends x ∨ b.Ends x) (hsk : skips p'.acts = sk)
    (hab : Absorbed c.bags h' t m f.Has) (hm : Matches h' g' b')
    (hhas : ∀ x, g'.Has x → g.Has x ∨ (c.bags.bag x ≠ none → f.Has x))
    (hmove : ∀ {R : Nat → Prop} {e : LoggedAccess} {x v : Nat}, (R p.dag.size ↔ ∃ y ∈ ps, R y) →
      Placed R e x v (f :: g :: fs) (a :: b :: bs) →
      m x ∧ Placed R e t v (g' :: fs) (b' :: bs) ∨ ¬ f.Has x ∧
      Placed R e x v (g' :: fs) (b' :: bs)) :
    Inv p' { c with bags := h', frames := g' :: fs, framesSkipped := sk } := by
  have hfr := hi.frames
  have hapart := hi.apart
  rw [hf, hp] at hfr
  rw [hf] at hapart
  have hrest := (List.forall₂_cons.1 (List.forall₂_cons.1 hfr).2).2
  simp only [List.pairwise_cons, List.mem_cons, forall_eq_or_imp] at hapart
  obtain ⟨⟨-, hapf⟩, hapg, hapfs⟩ := hapart
  refine ⟨hi.program.advance hdag hacts hcur (fun x hx => ?_) (fun c hc => by simp [hp, hc]) ?_ ?_
      (fun c hc => hi.program.active c (by simp [hp, hc])) hpend, hab.wf, ?_,
    List.pairwise_cons.2 ⟨fun k hk' x hx hkx => ?_, hapfs⟩,
    hi.pending.trans (hrun.trans hpend.symm), hsk.symm,
    hi.log_advance hps hdag (Nat.le_of_eq hnl.symm) hlog rfl ?_⟩
  · rcases hends x hx with hx | hx | hx
    · exact .inl hx
    · exact .inr ⟨a, by simp [hp], hx⟩
    · exact .inr ⟨b, by simp [hp], hx⟩
  · rw [hacts, hnl]
    intro c hc id hid
    rw [List.mem_cons] at hc
    rcases hc with rfl | hc
    · exact hi.program.loops b (by simp [hp]) id (hk ▸ hid)
    · exact hi.program.loops c (by simp [hp, hc]) id hid
  · have := hi.program.ids
    simp only [hp, List.pairwise_cons] at this
    exact List.Pairwise.cons (by rw [hk]; exact this.2.1) this.2.2
  · rw [hacts]
    exact .cons hm
      (Matches.all hrest fun k hk' c hc => hc.absorbed hab fun x hx hfx => hapf k hk' x hfx hx)
  · rcases hhas x hx with hx | hx
    · exact hapg k hk' x hx hkx
    · obtain ⟨c', hc'⟩ := Matches.of_mem hrest hk'
      exact hapf k hk' x (hx (hc'.ok.live hkx)) hkx
  · intro R e x v d hR _ ho hpl
    rw [hf, hp] at hpl
    rw [hacts]
    rcases hmove hR hpl with ⟨hmx, hpl'⟩ | ⟨hnx, hpl'⟩
    · exact ⟨t, hab.moved hmx ho, hpl'⟩
    · exact ⟨x, hab.kept hnx ho, hpl'⟩

theorem Inv.funcExit {p p' : Program} {c : CilkSan} (hi : Inv p c) (hrun : p.running = true)
    (h : p.funcExit = some p') : ∃ c', c.funcExit = some c' ∧ Inv p' c' := by
  simp only [Program.funcExit] at h
  split at h
  · next a as hp =>
    obtain ⟨f, fs, hf, hm, hrest, hap, -⟩ := hi.head hp
    obtain ⟨hrun, -⟩ := (Program.running_iff hp).1 hrun
    have hcur : a.cur < p.dag.size := hi.program.ends a (by simp [hp]) _ (.inl rfl)
    have hsk := hi.skipped
    rw [hp] at hsk
    split at h
    · next hin =>
      cases h
      obtain ⟨k, hk⟩ : ∃ k, a.inlined = k + 1 := ⟨a.inlined - 1, by omega⟩
      simp only [skips, List.flatMap_cons, hk, List.replicate_succ, List.cons_append] at hsk
      refine ⟨{ c with framesSkipped := c.framesSkipped.tail }, by simp [CilkSan.funcExit, hsk], ?_⟩
      have := hi.setHead
        (p.advance [a.cur] ({ a with cur := p.dag.size, inlined := a.inlined - 1 } :: as)) [a.cur]
        c.framesSkipped.tail hp hf (by simpa using hcur) rfl rfl rfl rfl hrun hrun rfl rfl rfl rfl
        rfl rfl id ?_ (.refl f) (hm.setCur _ _ ?_) fun hR _ => by rw [hR]; simp
      · rwa [← hf] at this
      · simp [skips, Program.advance, hk, hsk]
      · intro hl
        have := (hm.looping hl).2.1
        omega
    · next hin =>
      have hin : a.inlined = 0 := by omega
      split at h
      · next b bs hk =>
        split at h
        · next hu =>
          cases h
          obtain ⟨g, gs, hg, hgs, rfl⟩ := List.forall₂_cons_right_iff.1 hrest
          have hl : a.isLoop = false := by simp [Activation.isLoop, hk]
          simp only [skips, List.flatMap_cons, hin, List.replicate_zero, hk, if_true,
            List.nil_append, List.singleton_append] at hsk
          have hpend := Activation.pend_of_unsynced hm hu
          obtain ⟨t, ht, hti⟩ := hg.ok.sbag
          obtain ⟨s, hs, hsi⟩ := hm.ok.sbag
          obtain ⟨h', hleave, hab⟩ :=
            CilkSan.leaveCilkFunction_spec (r := 0) hf hi.wf hm.ok (hm.plain hl).1
              (fun r => (hm.synced hl r).2 (hpend r)) hg.ok (hap g (by simp)) ht
          have hd := hm.detacher
          simp only [hl, hk, reduceCtorEq, decide_false, Bool.or_false] at hd
          have hexit : c.funcExit = some { c with
              bags := h'
              frames := { g with sbagUsed := g.sbagUsed || f.sbagUsed } :: gs
              framesSkipped := c.framesSkipped.tail } := by
            simp [CilkSan.funcExit, hsk, CilkSan.doLeave, hf, hd, hleave]
          have hgf : ∀ x, g.Has x → ¬ f.Has x := fun x hx hfx => hap g (by simp) x hfx hx
          have hmg := hg.absorbed hab hgf
          refine ⟨_, hexit, hi.pop (p.advance [a.cur] ({ b with cur := p.dag.size } :: bs)) [a.cur]
            c.framesSkipped.tail hp hf (by simpa using hcur) rfl rfl rfl rfl hrun hrun rfl rfl
            (fun x hx => ?_) ?_ hab ?_ (fun x hx => .inl hx) fun hR hpl => ?_⟩
          · rcases hx with rfl | hx
            · exact .inl rfl
            · exact .inr (.inr (.inr hx))
          · simp [skips, Program.advance, hsk]
          · refine ⟨⟨hmg.ok.sbag, hmg.ok.pbag, hmg.ok.distinct, hmg.ok.iterbag⟩, hmg.length,
              hmg.detacher, hmg.loop, hmg.pendLt, hmg.synced, hmg.plain, hmg.looping, fun ha => ?_⟩
            have := hi.program.active b (by simp [hp])
            rw [show b.active = false from ha] at this
            cases this
          · simp only [List.mem_singleton, exists_eq_left] at hR
            rcases hpl.returnCalled hl hpend (hm.plain hl).2.2 hs ht hR hap with ⟨rfl, hus,
              hpl'⟩ | ⟨hnx, hpl'⟩
            · exact .inl ⟨⟨hus, hs⟩, hpl'⟩
            · exact .inr ⟨hnx, hpl'⟩
        · cases h
      · cases h
  · cases h

/-! ## Tasks -/

theorem Inv.task {p p' : Program} {c : CilkSan} {n : Nat} (hi : Inv p c) (hrun : p.running = true)
    (h : p.task n = some p') : ∃ c', c.doEnterHelper n = some c' ∧ Inv p' c' := by
  simp only [Program.task] at h
  split at h
  · next a as hp =>
    split at h
    · cases h
      obtain ⟨f, fs, hf, hm, -, -, -⟩ := hi.head hp
      obtain ⟨hrun, hact⟩ := (Program.running_iff hp).1 hrun
      obtain ⟨s, h', child, hst, hnew, hs, hsi, hab⟩ := CilkSan.startNewFunction_spec n hf hi.wf
      have hnew' :
        CilkSan.New { child with frameData := EntryFrameType.DETACHER_SHADOW_FRAME } s n :=
        ⟨hnew.sbag, hnew.unused, hnew.pbag, hnew.length, hnew.iterbag⟩
      refine ⟨_, by simp [CilkSan.doEnterHelper, hst, CilkSan.setHead]; rfl, ?_⟩
      have := hi.push
        (p.advance [a.cur] ({ kind := .spawned, regions := n, cur := p.dag.size } :: a :: as))
        c.framesSkipped hp hact rfl rfl rfl (Nat.le_refl _)
        ⟨rfl, rfl, rfl, rfl, rfl, rfl, fun _ => rfl⟩ hrun (fun id hid => by cases hid) (by simp)
        (Matches.of_new
          (f := { child with frameData := EntryFrameType.DETACHER_SHADOW_FRAME }) hnew' hsi
          ⟨rfl, rfl, rfl, rfl, rfl, rfl, fun _ => rfl⟩ (by simp) (by simp) rfl)
        (fun b hb => by rw [hnew'.has hb]; exact hs) hab
      rw [hf] at this
      rwa [hi.pending.trans hrun]
    · cases h
  · cases h

/-- The parent's frame and activation after a child has left strands `E` to
region `r`. -/
theorem Matches.addPend {h : Bags} {g : FrameData} {b : Activation} {r q n : Nat} {E : List Nat}
    (hm : Matches h g b) (hr : r < b.regions) (hact : b.active = true) (hq : h.Is q .pBag)
    (hne : g.pbag r = some q ∨ ∀ r', g.pbag r' ≠ some q) (hE : b.isLoop = false → E ≠ []) :
    Matches h (g.withPbag r (some q))
      { b with cur := n, pend := Function.update b.pend r (b.pend r ++ E) } where
  ok := hm.ok.withPbag (by rw [hm.length]; exact hr) hq hne
  length := by rw [FrameData.length_withPbag, hm.length]
  detacher := hm.detacher
  loop := hm.loop
  pendLt r' hr' := by
    have hne : r' ≠ r := by rintro rfl; exact absurd hr' (Nat.not_le.2 hr)
    simp only [Function.update_of_ne hne]
    exact hm.pendLt r' hr'
  synced hl r' := by
    rw [FrameData.pbag_withPbag (by rw [hm.length]; exact hr)]
    by_cases hrr : r' = r
    · subst hrr
      simpa using fun _ => hE hl
    · simp only [hrr, if_false, Function.update_of_ne hrr]
      exact hm.synced hl r'
  plain := hm.plain
  looping := hm.looping
  idle ha := by rw [show b.active = false from ha] at hact; cases hact

theorem Inv.taskExit {p p' : Program} {c : CilkSan} {r : Nat} (hi : Inv p c)
    (hrun : p.running = true)
    (h : p.taskExit r = some p') : ∃ c', c.doLeave r = some c' ∧ Inv p' c' := by
  simp only [Program.taskExit] at h
  split at h
  · next a b bs hp =>
    split at h
    · next hc =>
      obtain ⟨hk, hin, hr⟩ := hc
      cases h
      obtain ⟨f, fs, hf, hm, hrest, hap, -⟩ := hi.head hp
      obtain ⟨hrun, -⟩ := (Program.running_iff hp).1 hrun
      obtain ⟨g, gs, hg, hgs, rfl⟩ := List.forall₂_cons_right_iff.1 hrest
      have hl : a.isLoop = false := by simp [Activation.isLoop, hk]
      have hbcur : b.cur < p.dag.size := hi.program.ends b (by simp [hp]) _ (.inl rfl)
      have hbact := hi.program.active b (by simp [hp])
      have hlen : r < (g.pbags.getD []).length := by rw [hg.length]; exact hr
      obtain ⟨q, h', hret, hq, hqi, hab⟩ :=
        CilkSan.returnFromDetach_spec hf hi.wf hm.ok (hm.plain hl).1 hg.ok
          (hap g (by simp)) hlen
      have hd := hm.detacher
      simp only [hk, decide_true, Bool.true_or] at hd
      have hleave :
          c.doLeave r = some { c with bags := h', frames := g.withPbag r (some q) :: gs } := by
        simp [CilkSan.doLeave, hf, hd, hret]
      have hgf : ∀ x, g.Has x → ¬ f.Has x := fun x hx hfx => hap g (by simp) x hfx hx
      have hsk := hi.skipped
      rw [hp] at hsk
      refine ⟨_, hleave, hi.pop _ [b.cur] c.framesSkipped hp hf
        (by simpa using hbcur) rfl rfl rfl rfl hrun hrun rfl rfl (fun x hx => ?_) ?_ hab
        ((hg.absorbed hab hgf).addPend hr hbact hqi
          (hq.imp_right fun hq r' hr' => ?_) fun _ => by simp)
        (fun x hx => ?_) fun hR hpl => ?_⟩
      · rcases hx with rfl | ⟨r', hx⟩ | hx
        · exact .inl rfl
        · simp only at hx
          by_cases hrr : r' = r
          · subst hrr
            rw [Function.update_self, List.mem_append, List.mem_cons] at hx
            rcases hx with hx | rfl | hx
            · exact .inr (.inr (.inr (.inl ⟨r', hx⟩)))
            · exact .inr (.inl (.inl rfl))
            · simp only [Activation.unsynced, List.mem_flatMap] at hx
              obtain ⟨k, -, hx⟩ := hx
              exact .inr (.inl (.inr (.inl ⟨k, hx⟩)))
          · rw [Function.update_of_ne hrr] at hx
            exact .inr (.inr (.inr (.inl ⟨r', hx⟩)))
        · exact .inr (.inr (.inr (.inr hx)))
      · simpa [skips, Program.advance, hin, hk] using hsk.symm
      · exact (hg.ok.pbag hr').live hq.2
      · rcases hx with hx | ⟨r', hx⟩ | hx
        · exact .inl (.inl hx)
        · rw [FrameData.pbag_withPbag hlen] at hx
          split at hx
          · cases hx
            rcases hq with hq | hq
            · exact .inl (.inr (.inl ⟨r, hq⟩))
            · exact .inr fun h => absurd hq.2 h
          · exact .inl (.inr (.inl ⟨r', hx⟩))
        · exact .inl (.inr (.inr hx))
      · simp only [List.mem_singleton, exists_eq_left] at hR
        exact hpl.returnTask hl (Activation.mem_unsynced hm) (hm.plain hl).2.2 hlen
          (hq.imp_right (·.1)) hR hap
    · cases h
  · cases h

/-! ## Sync -/

/-- A sync of the head frame is not one of a loop's region that iterations
that ended were left to. -/
def SyncOk (p : Program) (r : Nat) : Prop := ∀ a ∈ p.acts.head?, a.stale r = false

theorem Inv.sync {p p' : Program} {c : CilkSan} {r : Nat} (hi : Inv p c) (hrun : p.running = true)
    (hok : SyncOk p r) (h : p.sync r = some p') : ∃ c', c.doSync r = some c' ∧ Inv p' c' := by
  simp only [Program.sync] at h
  split at h
  · next a as hp =>
    split at h
    · next hc =>
      obtain ⟨hin, hr⟩ := hc
      cases h
      obtain ⟨f, fs, hf, hm, hrest, hap, hapfs⟩ := hi.head hp
      obtain ⟨hrun, hact⟩ := (Program.running_iff hp).1 hrun
      have hst : a.stale r = false := hok a (by simp [hp])
      have hends := hi.program.ends a (by simp [hp])
      have hlen : r < (f.pbags.getD []).length := by rw [hm.length]; exact hr
      obtain ⟨s, hs, hsi⟩ := hm.ok.sbag
      obtain ⟨h', f', hcs, hf', hab⟩ := CilkSan.completeSync_spec hf hi.wf hm.ok hlen hs
      have hdo :
          c.doSync r = some { c with bags := h', frames := f'.exitContinuation r :: fs } := by
        simp [CilkSan.doSync, hcs, CilkSan.setHead]
      refine ⟨_, hdo, ?_⟩
      have hpb :
          ∀ q, (f'.exitContinuation r).pbag q = if q = r then none else f.pbag q := fun q => by
        rw [hf']; exact FrameData.pbag_withPbag hlen none q
      have hsp : f.pbag r ≠ some s := fun hx => by
        exact absurd (hsi.type_eq (hm.ok.pbag hx)) (by simp)
      have hip : f.iterbag ≠ f.pbag r ∨ f.pbag r = none := by
        cases hx : f.pbag r with
        | none => exact .inr rfl
        | some x =>
          refine .inl fun hix => ?_
          exact absurd ((hm.ok.iterbag hix).1.type_eq (hm.ok.pbag hx)) (by simp)
      have hhas : ∀ {x}, (f'.exitContinuation r).Has x →
          f.Has x ∧ f.pbag r ≠ some x := fun {x} hx => by
        rcases hx with hx | ⟨q, hx⟩ | hx
        · replace hx : f.sbag = some x := by rw [hf'] at hx; exact hx
          refine ⟨.inl hx, fun hx' => hsp ?_⟩
          rw [hs] at hx
          rw [hx', hx]
        · rw [hpb] at hx
          split at hx
          · cases hx
          · next hqr =>
            exact ⟨.inr (.inl ⟨q, hx⟩),
              fun hx' => hqr (hm.ok.distinct _ _ _ (FrameData.pbag_iff.1 hx)
              (FrameData.pbag_iff.1 hx'))⟩
        · replace hx : f.iterbag = some x := by rw [hf'] at hx; exact hx
          refine ⟨.inr (.inr hx), fun hx' => ?_⟩
          rcases hip with hip | hip
          · exact hip (hx.trans hx'.symm)
          · rw [hip] at hx'; cases hx'
      have hpe : ∀ {r' x}, x ∈ Function.update a.pend r [] r' → x ∈ a.pend r' := fun {r' x} hx => by
        by_cases hrr : r' = r
        · subst hrr; simp at hx
        · rwa [Function.update_of_ne hrr] at hx
      have hpbs : (f'.exitContinuation r).pbags = (f.withPbag r none).pbags := by rw [hf']; rfl
      have hib : (f'.exitContinuation r).iterbag = f.iterbag := by rw [hf']; rfl
      have hmf : Matches h' (f'.exitContinuation r)
          { a with cur := p.dag.size, pend := Function.update a.pend r [] } := {
        ok := by
          refine ⟨⟨s, by rw [hf']; exact hs, hab.is hsp hsi⟩, fun {q x} hx => ?_, ?_,
            fun {i} hx => ?_⟩
          · have hne := (hhas (.inr (.inl ⟨q, hx⟩))).2
            rw [hpb] at hx
            split at hx
            · cases hx
            · exact hab.is hne (hm.ok.pbag hx)
          · rw [hpbs]
            exact (hm.ok.withoutPbag hlen).distinct
          · have hne := (hhas (.inr (.inr hx))).2
            rw [hib] at hx
            exact ⟨hab.is hne (hm.ok.iterbag hx).1, by rw [hf']; exact (hm.ok.iterbag hx).2⟩
        length := by rw [hpbs, FrameData.length_withPbag, hm.length]
        detacher := by rw [hf']; exact hm.detacher
        loop := by rw [hf']; exact hm.loop
        pendLt := fun r' hr' => by
          by_cases hrr : r' = r
          · subst hrr; simp
          · simpa [Function.update_of_ne hrr] using hm.pendLt r' hr'
        synced := fun hl r' => by
          rw [hpb]
          by_cases hrr : r' = r
          · subst hrr; simp
          · simpa [hrr, Function.update_of_ne hrr] using hm.synced hl r'
        plain := fun hl => by rw [hib]; exact hm.plain hl
        looping := fun hl => by
          obtain ⟨h₁, h₂, i, x, hix, hx, hv⟩ := hm.looping hl
          obtain ⟨x', hx', hv'⟩ := hab.version (hhas (.inr (.inr (hib.trans hix)))).2 hx
          exact ⟨h₁, h₂, i, x', hib.trans hix, hx', hv'.trans hv⟩
        idle := fun ha => by rw [show a.active = false from ha] at hact; cases hact }
      have hskip := hi.skipped
      rw [hp] at hskip
      refine hi.headStep _ (a.cur :: a.pend r) c.framesSkipped hp hf
        (fun x hx => ?_) rfl rfl rfl rfl hrun hrun rfl rfl
        (fun x hx => ?_) ?_ hab.wf hmf (fun g hg b hb => hb.absorbed hab fun x hx hfx => ?_)
        (fun x hx => .inl (hhas hx).1) fun {R e b v d} hR ho hpl => ?_
      · rw [List.mem_cons] at hx
        rcases hx with rfl | hx
        · exact hends _ (.inl rfl)
        · exact hends x (.inr (.inl ⟨r, hx⟩))
      · rcases hx with rfl | ⟨r', hx⟩ | hx
        · exact .inl rfl
        · exact .inr (.inr (.inl ⟨r', hpe hx⟩))
        · exact .inr (.inr (.inr hx))
      · simpa [skips, Program.advance] using hskip.symm
      · exact hap g hg x (.inr (.inl ⟨r, hfx⟩)) hx
      · have hn : R p.dag.size ↔ R a.cur ∨ ∃ x ∈ a.pend r, R x := by
          rw [hR]; simp
        have hpl' := hpl.sync (n := p.dag.size) (f := f) (r := r) (s := s)
          (fun q hq hq' => hm.ok.distinct _ _ _ (FrameData.pbag_iff.1 hq)
            (FrameData.pbag_iff.1 hq')) hst hs hsp hip hap
          (show (f'.exitContinuation r).sbag = some s by rw [hf']; exact hs) (by rw [hf']; rfl)
          (by rw [hf']; rfl) (by rw [hf']; rfl) hpb hn
        rcases hpl' with ⟨hx, hpl'⟩ | ⟨hx, hpl'⟩
        · exact ⟨s, hab.moved hx ho, hpl'⟩
        · exact ⟨b, hab.kept hx ho, hpl'⟩
    · cases h
  · cases h

/-! ## Loops -/

/-- The frame a loop starts with. -/
theorem Matches.of_newLoop {h : Bags} {f : FrameData} {s i id n r : Nat} {x : SPBag}
    (hf : CilkSan.New f s r)
    (hs : h.Is s .sBag) (hi : h.Is i .sBag) (hx : h.bag i = some x) (hv : x.version = 0)
    (hne : s ≠ i) (hr : 0 < r) : Matches h { f with
        frameData := EntryFrameType.DETACHER_SHADOW_FRAME.setLoopFrame
        iterbag := some i
        iterbagUsed := false }
      { kind := .loop id, regions := r, cur := n } where
  ok := by
    have hok := hf.ok hs
    refine ⟨hok.sbag, hok.pbag, hok.distinct, fun hj => ?_⟩
    cases hj
    exact ⟨hi, by rw [hf.sbag]; simpa using hne⟩
  length := hf.length
  detacher := by simp [Activation.isLoop]
  loop := by simp [FrameData.isLoopFrame, Activation.isLoop]
  pendLt _ _ := rfl
  synced h := by simp [Activation.isLoop] at h
  plain h := by simp [Activation.isLoop] at h
  looping _ := ⟨hr, rfl, i, x, rfl, hx, by simp [hv]⟩
  idle h := by cases h

theorem Inv.loopIterationBegin {p p' : Program} {c : CilkSan} {n : Nat} (hi : Inv p c)
    (h : p.loopIterationBegin n = some p') : ∃ c', c.doLoopIterationBegin n = some c' ∧
    Inv p' c' := by
  simp only [Program.loopIterationBegin] at h
  split at h
  · next hpl =>
    split at h
    · next a as hp =>
      cases h
      obtain ⟨f, fs, hf, hm, -, -, -⟩ := hi.head hp
      have hact := hi.program.pendingActive hpl a (by simp [hp])
      have hr : 0 < if n > 0 then n else 1 := by split <;> omega
      generalize hrn : (if n > 0 then n else 1) = r at hr ⊢
      obtain ⟨s, h₁, child, hst, hnew, hs, hsi, hab⟩ := CilkSan.startNewFunction_spec r hf hi.wf
      obtain ⟨i, h₂, hcr, hin, hii, ⟨x, hx, hv⟩, hab₂⟩ := CilkSan.createIterbag_spec
        (f := { child with frameData := EntryFrameType.DETACHER_SHADOW_FRAME.setLoopFrame })
        (hab 0).wf hnew.sbag hsi (fun j hj => absurd (hnew.iterbag.symm.trans hj) (by simp))
      have hab₂' : ∀ t, Absorbed h₁ h₂ t (fun _ => False) (fun _ => False) := fun t => by
        have hnone : ∀ {b}, child.iterbag ≠ some b := fun {b} => by simp [hnew.iterbag]
        exact (hab₂ t hnone).mono (fun _ h => h) fun b hb => hnone hb
      have hin' : c.bags.bag i = none := by
        cases hy : c.bags.bag i with
        | none => rfl
        | some y =>
          obtain ⟨y', hy', -⟩ := (hab 0).version id hy
          rw [hin] at hy'
          cases hy'
      have hsi' : s ≠ i := by rintro rfl; exact hsi.live hin
      have hbegin : c.doLoopIterationBegin n = some { c with
          bags := h₂
          frames := { child with
            frameData := EntryFrameType.DETACHER_SHADOW_FRAME.setLoopFrame
            iterbag := some i
            iterbagUsed := false } :: f :: fs
          startNewLoop := false } := by
        simp only [CilkSan.doLoopIterationBegin, hi.pending, hpl, if_true, hrn,
          CilkSan.doEnterHelper, hst,
          Option.bind_eq_bind, Option.bind_some, List.head?_cons, CilkSan.setHead, List.tail_cons,
          Option.pure_def, hcr]
      refine ⟨_, hbegin, ?_⟩
      have := hi.push
          { p.advance [a.cur]
              ({ kind := .loop p.nextLoop, regions := r, cur := p.dag.size } :: a :: as) with
          pendingLoop := false
          nextLoop := p.nextLoop + 1 } c.framesSkipped hp hact rfl rfl rfl (Nat.le_succ _)
        ⟨rfl, rfl, rfl, rfl, rfl, rfl, fun _ => rfl⟩ rfl
        (fun id hid => by cases hid; exact ⟨Nat.le_refl _, Nat.lt_succ_self _⟩)
        (by simp) (Matches.of_newLoop hnew ((hab₂' 0).is (fun h => h) hsi) hii hx hv hsi' hr)
        (fun b hb => ?_)
        fun t => ((hab t).trans (hab₂' t) (fun h => h) fun _ h => h.elim).mono
        (fun _ h => h.elim) (by simp)
      · rwa [hf] at this
      · rcases hb with hb | ⟨k, hb⟩ | hb
        · rw [show _ = some s from hnew.sbag] at hb
          cases hb
          exact hs
        · exact absurd ((hnew.pbag k).symm.trans hb) (by simp)
        · cases hb
          exact hin'
    · cases h
  · next hpl =>
    split at h
    · next a b bs hp =>
      split at h
      · next hc =>
        obtain ⟨hl, hact⟩ := hc
        cases h
        obtain ⟨f, fs, hf, hm, -, -, -⟩ := hi.head hp
        have hrun : p.pendingLoop = false := by simpa using hpl
        have hnl : c.startNewLoop = false := hi.pending.trans hrun
        have hbcur : b.cur < p.dag.size := hi.program.ends b (by simp [hp]) _ (.inl rfl)
        have hskip := hi.skipped
        rw [hp] at hskip
        refine ⟨{ c with frames := f.enterLoopContinuation :: fs }, by
          simp [CilkSan.doLoopIterationBegin, hnl, hf, CilkSan.setHead], ?_⟩
        refine hi.setHead
          (p.advance [b.cur] ({ a with cur := p.dag.size, active := true } :: b :: bs)) [b.cur]
          c.framesSkipped hp hf (by simpa using hbcur) rfl rfl rfl rfl hrun hrun rfl rfl rfl rfl rfl
          rfl (fun _ => rfl)
          (by simpa [skips, Program.advance] using hskip.symm)
          ⟨rfl, fun _ => rfl, rfl, id, id⟩ ?_ fun hR hpl => ?_
        · exact ⟨⟨hm.ok.sbag, hm.ok.pbag, hm.ok.distinct, hm.ok.iterbag⟩, hm.length, hm.detacher,
            hm.loop, hm.pendLt,
            hm.synced, fun h => absurd (hl.symm.trans h) (by simp), hm.looping,
            fun h => absurd h (by simp)⟩
        · simp only [List.mem_singleton, exists_eq_left] at hR
          exact hR.trans (hpl.cur_iff_of_idle (hm.idle hact).1 hact).symm
      · cases h
    · cases h

theorem Inv.loopIterationEnd {p p' : Program} {c : CilkSan} (hi : Inv p c) (hrun : p.running = true)
    (h : p.loopIterationEnd = some p') : ∃ c', c.doLoopIterationEnd = some c' ∧ Inv p' c' := by
  simp only [Program.loopIterationEnd] at h
  split at h
  · next a b bs hp =>
    split at h
    · next hl =>
      cases h
      obtain ⟨f, fs, hf, hm, -, hap, -⟩ := hi.head hp
      obtain ⟨hrun, -⟩ := (Program.running_iff hp).1 hrun
      obtain ⟨hr, hin, i, x, hfi, hx, hv⟩ := hm.looping hl
      obtain ⟨s, hs, -⟩ := hm.ok.sbag
      have hbcur : b.cur < p.dag.size := hi.program.ends b (by simp [hp]) _ (.inl rfl)
      obtain ⟨h', f', q, hend, he⟩ :=
        CilkSan.doLoopIterationEnd_spec hf hi.wf hm.ok (by rw [hm.length]; exact hr) hs
          hfi hx
      rw [hv] at he
      have hskip := hi.skipped
      rw [hp] at hskip
      have hdeep : ∀ g ∈ fs, ∀ y, g.Has y → y ≠ s ∧ y ≠ i := fun g hg y hy =>
        ⟨by rintro rfl; exact hap g hg y (.inl hs) hy,
          by rintro rfl; exact hap g hg y (.inr (.inr hfi)) hy⟩
      refine ⟨_, hend, hi.headStep _ [b.cur] c.framesSkipped hp hf
        (by simpa using hbcur) rfl rfl rfl rfl hrun hrun rfl
        rfl (fun y hy => ?_) (by simpa [skips, Program.advance] using hskip.symm) he.wf ?_
          (fun g hg a' hga => ?_)
        (fun y hy => he.has hy) fun hR ho hpl => ?_⟩
      · simp only [Activation.Ends, List.not_mem_nil, exists_false, false_or, List.mem_append,
          List.mem_cons, Activation.unsynced, List.mem_flatMap] at hy
        rcases hy with rfl | hy | rfl | ⟨k, -, hy⟩
        · exact .inl rfl
        · exact .inr (.inr (.inr hy))
        · exact .inr (.inl rfl)
        · exact .inr (.inr (.inl ⟨k, hy⟩))
      · refine ⟨he.ok, he.length.trans hm.length, by rw [he.frameData]; exact hm.detacher,
          by rw [FrameData.isLoopFrame, he.frameData]; exact hm.loop, fun _ _ => rfl,
          fun h => absurd (hl.symm.trans h) (by simp), fun h => absurd (hl.symm.trans h)
          (by simp), fun _ => ?_, fun _ => ⟨he.unused, by simp, fun _ => rfl⟩⟩
        obtain ⟨i', y, hi', hy, hyv, -⟩ := he.iterbag
        exact ⟨hr, hin, i', y, hi', hy, by rw [hyv]; simp [versionEnd]⟩
      · exact hga.of_heap (fun hy => he.is (hdeep g hg _ hy).1 (hdeep g hg _ hy).2)
          fun hy => he.version (hdeep g hg _ hy).1 (hdeep g hg _ hy).2
      · simp only [List.mem_singleton, exists_eq_left] at hR
        exact hpl.iterationEnd ho hm.ok he hs hfi (Activation.mem_unsynced hm) (by simp)
          (fun r hr => by rcases hr with hr | hr <;> simp [hr]) hR hap
    · cases h
  · cases h

/-- A loop that ends has run an iteration. -/
def LoopEndOk (p : Program) : Prop := p.pendingLoop = false

theorem Inv.loopEnd {p p' : Program} {c : CilkSan} {r : Nat} (hi : Inv p c) (hok : LoopEndOk p)
    (h : p.loopEnd r = some p') : ∃ c', c.doLoopEnd r = some c' ∧ Inv p' c' := by
  simp only [Program.loopEnd, show p.pendingLoop = false from hok, Bool.false_eq_true,
    if_false] at h
  split at h
  · next a b bs hp =>
    split at h
    · next hc =>
      obtain ⟨hl, hact, hr⟩ := hc
      cases h
      obtain ⟨f, fs, hf, hm, hrest, hap, -⟩ := hi.head hp
      obtain ⟨g, gs, hg, hgs, rfl⟩ := List.forall₂_cons_right_iff.1 hrest
      obtain ⟨hr₀, hin, i, x, hfi, hx, hv⟩ := hm.looping hl
      obtain ⟨hun, hdone, hpe⟩ := hm.idle hact
      have hbcur : b.cur < p.dag.size := hi.program.ends b (by simp [hp]) _ (.inl rfl)
      have hbact := hi.program.active b (by simp [hp])
      have hlen : r < (g.pbags.getD []).length := by rw [hg.length]; exact hr
      obtain ⟨q, h', hend, hq, hqi, hab⟩ :=
        CilkSan.doLoopEnd_spec hf hi.wf hm.ok (by rw [hm.length]; exact hr₀) hfi hun
          (by rw [hm.detacher, hl, Bool.or_true]) hg.ok (hap g (by simp)) hlen
      have hgf : ∀ x, g.Has x → ¬ f.Has x := fun x hx hfx => hap g (by simp) x hfx hx
      have hsk := hi.skipped
      rw [hp] at hsk
      have hk : a.kind ≠ .called := by
        obtain ⟨id, hid⟩ := Activation.isLoop_iff.1 hl
        simp [hid]
      refine ⟨_, hend, hi.pop _ [b.cur] c.framesSkipped hp hf
        (by simpa using hbcur) rfl rfl rfl rfl hok hok rfl rfl
        (fun x hx => ?_) (by simpa [skips, Program.advance, hin, hk] using hsk.symm) hab
        ((hg.absorbed hab hgf).addPend hr hbact hqi (hq.imp_right fun hq r' hr' => ?_) fun _ => ?_)
        (fun x hx => ?_) fun hR hpl => ?_⟩
      · rcases hx with rfl | ⟨r', hx⟩ | hx
        · exact .inl rfl
        · simp only at hx
          by_cases hrr : r' = r
          · subst hrr
            rw [Function.update_self, List.mem_append] at hx
            rcases hx with hx | hx
            · exact .inr (.inr (.inr (.inl ⟨r', hx⟩)))
            · exact .inr (.inl (.inr (.inr hx)))
          · rw [Function.update_of_ne hrr] at hx
            exact .inr (.inr (.inr (.inl ⟨r', hx⟩)))
        · exact .inr (.inr (.inr (.inr hx)))
      · have hlive := (hg.ok.pbag hr').live
        exact hgf q (.inr (.inl ⟨r', hr'⟩)) (hq.2 hlive)
      · exact hdone
      · rcases hx with hx | ⟨r', hx⟩ | hx
        · exact .inl (.inl hx)
        · rw [FrameData.pbag_withPbag hlen] at hx
          split at hx
          · cases hx
            rcases hq with hq | hq
            · exact .inl (.inr (.inl ⟨r, hq⟩))
            · exact .inr hq.2
          · exact .inl (.inr (.inl ⟨r', hx⟩))
        · exact .inl (.inr (.inr hx))
      · simp only [List.mem_singleton, exists_eq_left] at hR
        exact hpl.loopEnd hun hact hpe hfi hlen (hq.imp_right (·.1)) hR hap
    · cases h
  · cases h

/-! ## Accesses -/

/-- The program's state but for `pendingLoop`, and the tool's but for flags, stay. -/
theorem Inv.same {p : Program} {c : CilkSan} {f f' : FrameData} {fs : List FrameData}
    {a : Activation}
    {as : List Activation} (hi : Inv p c) (p' : Program) (start : Bool) (hp : p.acts = a :: as)
    (hf : c.frames = f :: fs)
    (hdag : p'.dag = p.dag) (hacts : p'.acts = p.acts) (hlog : p'.log = p.log)
    (hnl : p'.nextLoop = p.nextLoop)
    (hpend : p'.pendingLoop = start) (hact : start = true → a.active = true)
    (hb : Placed.SameBags f f')
    (hm : Matches c.bags f' a) : Inv p' { c with frames := f' :: fs, startNewLoop := start } := by
  obtain ⟨f₀, fs₀, hf₀, -, hrest, hap, hapfs⟩ := hi.head hp
  rw [hf] at hf₀
  cases hf₀
  have hcur : p'.cur = p.cur := by simp [Program.cur, hacts]
  refine ⟨⟨by rw [hcur, hdag]; exact hi.program.newest, by rw [hacts, hdag]; exact hi.program.ends,
    by rw [hacts, hcur]; exact hi.program.older, by rw [hacts, hnl]; exact hi.program.loops,
    by rw [hacts]; exact hi.program.ids, by rw [hacts]; exact hi.program.active,
    fun h b hb' => ?_⟩, hi.wf, ?_,
    List.pairwise_cons.2 ⟨fun g hg x hx => hap g hg x (hb.has hx), hapfs⟩, hpend.symm,
    by rw [hacts]; exact hi.skipped, ?_⟩
  · rw [hacts, hp, List.mem_cons] at hb'
    rcases hb' with rfl | hb'
    · exact hact (hpend.symm.trans h)
    · exact hi.program.active b (by rw [hp]; exact hb')
  · rw [hacts, hp]
    exact .cons hm hrest
  · rw [hlog]
    refine hi.log.imp fun e m ⟨hs, hl, b, ho, hpl⟩ => ⟨by rw [hdag]; exact hs,
      by rw [hnl]; exact hl, b, ho, ?_⟩
    rw [hf, hp] at hpl
    rw [hdag, hacts, hp]
    exact hpl.head hb rfl rfl rfl rfl rfl id Iff.rfl

/-- The bits that say where a frame goes on change. -/
theorem Matches.setContin {h : Bags} {f : FrameData} {a : Activation} (hm : Matches h f a)
    (n : BitVec 8) : Matches h { f with inContin := n } a :=
  ⟨⟨hm.ok.sbag, hm.ok.pbag, hm.ok.distinct, hm.ok.iterbag⟩, hm.length, hm.detacher, hm.loop,
    hm.pendLt, hm.synced, hm.plain, hm.looping, hm.idle⟩

theorem Inv.detachContinue {p p' : Program} {c : CilkSan} {r : Nat} (hi : Inv p c)
    (hrun : p.running = true)
    (h : p.detachContinue = some p') : ∃ c', c.doDetachContinue r = some c' ∧ Inv p' c' := by
  simp only [Program.detachContinue] at h
  split at h
  · next a as hp =>
    cases h
    obtain ⟨f, fs, hf, hm, -, -, -⟩ := hi.head hp
    obtain ⟨hrun, hact⟩ := (Program.running_iff hp).1 hrun
    refine ⟨{ c with frames := f.enterContinuation r :: fs },
      by simp [CilkSan.doDetachContinue, hf, CilkSan.setHead], ?_⟩
    have := hi.same p false hp hf rfl rfl rfl rfl hrun (fun _ => hact)
      (show Placed.SameBags f (f.enterContinuation r) from ⟨rfl, fun _ => rfl, rfl, id, id⟩)
      (hm.setContin _)
    rwa [← hi.pending.trans hrun] at this
  · cases h

theorem Inv.loopBegin {p p' : Program} {c : CilkSan} (hi : Inv p c) (hrun : p.running = true)
    (h : p.loopBegin = some p') : ∃ c', some c.doLoopBegin = some c' ∧ Inv p' c' := by
  simp only [Program.loopBegin] at h
  split at h
  · next a as hp =>
    split at h
    · cases h
      obtain ⟨f, fs, hf, hm, -, -, -⟩ := hi.head hp
      obtain ⟨-, hact⟩ := (Program.running_iff hp).1 hrun
      refine ⟨_, rfl, ?_⟩
      have := hi.same { p with pendingLoop := true } true hp hf rfl rfl rfl rfl rfl (fun _ => hact)
        (.refl f) hm
      rwa [← hf] at this
    · cases h
  · cases h

theorem Activation.iteration_eq {a : Activation} {id j : Nat} :
    a.iteration = some (id, j) ↔ a.kind = .loop id ∧ a.iter = j := by
  cases h : a.kind <;> simp [Activation.iteration, h]

/-- One activation for each loop. -/
theorem eq_of_ids {b b' : Activation} {id : Nat} (hk : b.kind = .loop id)
    (hk' : b'.kind = .loop id) :
    ∀ {as : List Activation}, (as.Pairwise fun a b => ∀ id, a.kind = .loop id → b.kind ≠ .loop id) →
      b ∈ as → b' ∈ as → b = b'
  | a :: as, hp, hb, hb' => by
    rw [List.pairwise_cons] at hp
    rw [List.mem_cons] at hb hb'
    rcases hb with rfl | hb <;> rcases hb' with rfl | hb'
    · rfl
    · exact absurd hk' (hp.1 b' hb' id hk)
    · exact absurd hk (hp.1 b hb id hk')
    · exact eq_of_ids hk hk' hp.2 hb hb'

/-- What the access sees of the loops below the head. -/
theorem Inv.outside {p : Program} {c : CilkSan} {a : Activation} {as : List Activation}
    (hi : Inv p c) (hp : p.acts = a :: as) {e : LoggedAccess} (hs : e.strand = a.cur)
    (hctx : e.ctx = p.acts.filterMap (·.iteration)) (hd : e.direct = a.iteration) :
    Outside (p.dag.Path e.strand) e as := by
  have hcur : p.cur = a.cur := by simp [Program.cur, hp]
  have hids := hi.program.ids
  rw [hp, List.pairwise_cons] at hids
  intro b hb
  refine ⟨fun x hx hpath => ?_, fun id hid j => ⟨fun hmem => ?_, fun hdir => ?_⟩⟩
  · have h₁ := hpath.le
    have h₂ := hi.program.ends b (by simp [hp, hb]) x hx
    have h₃ := hi.program.older b (by simpa [hp] using hb) x hx
    have h₄ := hi.program.newest
    omega
  · rw [hctx, hp, List.mem_filterMap] at hmem
    obtain ⟨b', hb', hit⟩ := hmem
    obtain ⟨hid', rfl⟩ := Activation.iteration_eq.1 hit
    rw [eq_of_ids hid hid' hi.program.ids (by simp [hp, hb]) (by rw [hp]; exact hb')]
  · rw [hd] at hdir
    exact absurd hid (hids.1 b hb id (Activation.iteration_eq.1 hdir).1)

/-- An access is in the head frame's S-bag or, if that is a loop's, Iter-bag. -/
theorem Inv.access {p p' : Program} {c : CilkSan} {acc : Nat} (hi : Inv p c)
    (hrun : p.running = true)
    (h : p.access = some p') : ∃ c', c.recordAccess acc = some c' ∧ Inv p' c' := by
  simp only [Program.access] at h
  split at h
  · next a as hp =>
    cases h
    obtain ⟨f, fs, hf, hm, hrest, hap, hapfs⟩ := hi.head hp
    obtain ⟨hrun, hact⟩ := (Program.running_iff hp).1 hrun
    -- The bag of the access, its set, and where that puts the access.
    obtain ⟨b, f', x, hget, hbag, hset, hb, hm', hpl⟩ :
        ∃ b f' x, f.getSbagForAccess = some (b, f') ∧
        c.bags.bag b = some x ∧ c.bags.Is b .sBag ∧ Placed.SameBags f f' ∧ Matches c.bags f' a ∧
        ∀ {e : LoggedAccess}, e.strand = a.cur → e.ctx = p.acts.filterMap (·.iteration) →
        e.direct = a.iteration →
          Placed (p.dag.Path e.strand) e b x.version (f' :: fs) (a :: as) := by
      cases hl : a.isLoop with
      | false =>
        obtain ⟨s, hs, hsi⟩ := hm.ok.sbag
        obtain ⟨-, x, hx, -⟩ := id hsi
        refine ⟨s, { f with sbagUsed := true }, x, ?_, hx, hsi,
          ⟨rfl, fun _ => rfl, rfl, fun _ => rfl, id⟩, ?_, fun {e} hes hec hed => ?_⟩
        · simp [FrameData.getSbagForAccess, hm.loop, hl, hs]
        · exact ⟨⟨hm.ok.sbag, hm.ok.pbag, hm.ok.distinct, hm.ok.iterbag⟩, hm.length, hm.detacher,
            hm.loop, hm.pendLt,
            hm.synced, hm.plain, hm.looping, fun h => absurd (hact.symm.trans h) (by simp)⟩
        · refine .sbag hs rfl (by rw [hes]; exact .refl _) (fun id hid j => ?_)
            (hi.outside hp hes hec hed)
          rw [Activation.isLoop_iff.2 ⟨id, hid⟩] at hl
          cases hl
      | true =>
        obtain ⟨hr, hin, i, x, hfi, hx, hv⟩ := hm.looping hl
        obtain ⟨id, hid⟩ := Activation.isLoop_iff.1 hl
        refine ⟨i, { f with iterbagUsed := true }, x, ?_, hx, (hm.ok.iterbag hfi).1,
          ⟨rfl, fun _ => rfl, rfl, fun h => h, fun _ => rfl⟩, ?_, fun {e} hes hec hed => ?_⟩
        · simp [FrameData.getSbagForAccess, hm.loop, hl, hfi]
        · exact ⟨⟨hm.ok.sbag, hm.ok.pbag, hm.ok.distinct, hm.ok.iterbag⟩, hm.length, hm.detacher,
            hm.loop, hm.pendLt, hm.synced, fun h => absurd (hl.symm.trans h) (by simp), hm.looping,
            fun h => absurd (hact.symm.trans h) (by simp)⟩
        · refine .iterbag hfi rfl hid hact (by rw [hes]; exact .refl _)
            (by rw [hed, Activation.iteration_eq]; simp [hid])
            (fun j hj => ?_) hv (hi.outside hp hes hec hed)
          rw [hec, List.mem_filterMap] at hj
          obtain ⟨a', ha', hit⟩ := hj
          obtain ⟨hid', rfl⟩ := Activation.iteration_eq.1 hit
          rw [eq_of_ids hid hid' hi.program.ids (by simp [hp]) ha']
    obtain ⟨hgood, y, hy, hty, hds⟩ := hset
    rw [hbag] at hy
    cases hy
    obtain ⟨d, hd⟩ := Option.isSome_iff_exists.1 (hds rfl)
    have howned : c.bags.Owned d b := by
      obtain ⟨y, hy, hset⟩ := hgood
      rw [hbag] at hy
      cases hy
      obtain ⟨hlt, htag⟩ := hset d hd
      exact ⟨d, x, .here (Bags.parent_of_tag htag), hlt, hbag, hd, htag⟩
    have hsame := hi.same p _ hp hf rfl rfl rfl rfl rfl (fun _ => hact) hb hm'
    refine ⟨_, by
      simp only [CilkSan.recordAccess, hf, List.head?_cons, hget, hbag, hd, Option.bind_eq_bind,
        Option.bind_some, CilkSan.setHead, List.tail_cons]
      rfl, ?_⟩
    have hprog := hsame.program
    refine ⟨⟨hprog.newest, hprog.ends, hprog.older, hprog.loops, hprog.ids, hprog.active,
        hprog.pendingActive⟩, hi.wf,
      hsame.frames, hsame.apart, hi.pending, hsame.skipped,
      .cons ⟨?_, fun id j hj => ?_, b, howned, ?_⟩ ?_⟩
    · exact hi.program.ends a (by simp [hp]) _ (.inl rfl)
    · rw [hp] at hj
      rcases hj with hj | hj
      · obtain ⟨a', ha', hit⟩ := List.mem_filterMap.1 hj
        exact hi.program.loops a' (by rw [hp]; exact ha') id (Activation.iteration_eq.1 hit).1
      · exact hi.program.loops a (by simp [hp]) id (Activation.iteration_eq.1 hj).1
    · show Placed _ _ b x.version (f' :: fs) p.acts
      rw [hp]
      exact hpl rfl (by rw [hp]) rfl
    · refine hsame.log.imp fun e m hlog => ?_
      exact ⟨hlog.strand, hlog.loops, hlog.placed⟩
  · cases h

/-! ## The parallelism test -/

/-- The frames and activations of a stack that holds an access. -/
theorem Placed.exists_head {R : Nat → Prop} {e : LoggedAccess} {b v : Nat} {fs : List FrameData}
    {as : List Activation} (h : Placed R e b v fs as) :
    ∃ f fs' a as', fs = f :: fs' ∧ as = a :: as' := by
  cases h with
  | under => exact ⟨_, _, _, _, rfl, rfl⟩
  | _ => exact ⟨_, _, _, _, rfl, rfl⟩

/-- The test compresses paths; no bag changes and no set moves. -/
theorem Inv.checkAccess {p : Program} {c : CilkSan} {i : Nat} (hi : Inv p c)
    (hlt : i < p.log.length) : ∃ r c', c.checkAccess i = some (r, c') ∧ Inv p c' := by
  have hlt' : i < c.log.length := hi.log.length_eq ▸ hlt
  obtain ⟨-, -, b, ho, hpl⟩ := hi.log.get hlt hlt'
  obtain ⟨f, fs, a, as, hf, hp⟩ := hpl.exists_head
  obtain ⟨_, x, -, -, hx, -, -⟩ := id ho
  obtain ⟨-, hbag, -, -, hwf, hgood, howned⟩ := Bags.getSbagOrNull_spec hi.wf ho hx
  have his : ∀ {b ty}, c.bags.Is b ty →
    (c.bags.getSbagOrNull (c.log.get ⟨i, hlt'⟩).func).2.Is b ty :=
    fun ⟨hg, y, hy, hty⟩ => ⟨hgood hg, y, by rw [hbag]; exact hy, hty⟩
  have hcheck :
      c.checkAccess i = some ((CilkSan.previousAccessInParallel (c.log.get ⟨i, hlt'⟩) f c.bags).1,
      { c with bags := (c.bags.getSbagOrNull (c.log.get ⟨i, hlt'⟩).func).2 }) := by
    rw [← previousAccessInParallel_snd _ f]
    simp [CilkSan.checkAccess, List.getElem?_eq_getElem hlt', hf]
  refine ⟨_, _, hcheck, hi.program, hwf, ?_, hi.apart, hi.pending, hi.skipped, ?_⟩
  · exact Matches.all hi.frames fun g _ b hb => hb.of_heap (fun _ => his) fun _ hy =>
      ⟨_, by rw [hbag]; exact hy, rfl⟩
  · exact hi.log.imp fun e m ⟨hs, hl, b, ho, hpl⟩ => ⟨hs, hl, b, howned ho, hpl⟩

/-! ## Runs -/

/-- A step a loop's bags cope with. -/
def StepOk (p : Program) : Hook → Prop
  | .sync r => SyncOk p r
  | .loopEnd _ => LoopEndOk p
  | _ => True

theorem Inv.init : Inv Program.init CilkSan.init := by
  obtain ⟨-, -, -, -, -, hk⟩ := Bags.createNewSBag_spec .empty []
  have hs := CilkSan.createNewSBag_is Bags.WF.empty []
  have hf : CilkSan.New { sbag := some (Bags.empty.createNewSBag []).1 }
    (Bags.empty.createNewSBag []).1 0 := ⟨rfl, rfl, fun r => by simp [FrameData.pbag], rfl, rfl⟩
  refine ⟨⟨rfl, ?_, by simp [Program.init], by simp [Program.init], by simp [Program.init],
    by simp [Program.init], by simp [Program.init]⟩, hk.wf, .cons ?_ .nil,
    by simp [CilkSan.init], rfl, by simp [CilkSan.init, skips, Program.init], .nil⟩
  · simp [Program.init, Activation.Ends, GrowingDag.empty]
  · exact Matches.of_new (n := 0) hf hs ⟨rfl, rfl, rfl, rfl, rfl, rfl, fun _ => rfl⟩ (by decide)
      (by decide) rfl

/-- **One hook.** The tool takes every step the program can, and stays in step with it. -/
theorem Inv.step {p p' : Program} {c : CilkSan} {h : Hook} (hi : Inv p c) (hok : StepOk p h)
    (hs : p.step h = some p') : ∃ c', c.step h = some c' ∧ Inv p' c' := by
  have hcond : ∀ {o : Option Program}, (if p.running = true then o else none) = some p' →
      p.running = true ∧ o = some p' := fun {o} h => by
    split at h
    · next hr => exact ⟨hr, h⟩
    · cases h
  cases h with
  | funcEntry ms n => obtain ⟨hr, hs⟩ := hcond hs; exact hi.funcEntry hr hs
  | funcExit => obtain ⟨hr, hs⟩ := hcond hs; exact hi.funcExit hr hs
  | task n => obtain ⟨hr, hs⟩ := hcond hs; exact hi.task hr hs
  | taskExit r => obtain ⟨hr, hs⟩ := hcond hs; exact hi.taskExit hr hs
  | detachContinue r => obtain ⟨hr, hs⟩ := hcond hs; exact hi.detachContinue hr hs
  | sync r => obtain ⟨hr, hs⟩ := hcond hs; exact hi.sync hr hok hs
  | loopBegin => obtain ⟨hr, hs⟩ := hcond hs; exact hi.loopBegin hr hs
  | loopIterationBegin n => exact hi.loopIterationBegin hs
  | loopIterationEnd => obtain ⟨hr, hs⟩ := hcond hs; exact hi.loopIterationEnd hr hs
  | loopEnd r => exact hi.loopEnd hok hs
  | recordCall call =>
    cases hs; exact ⟨_, rfl, hi.program, hi.wf, hi.frames, hi.apart, hi.pending, hi.skipped,
      hi.log.imp fun e m ⟨hs, hl, hpl⟩ => ⟨hs, hl, hpl⟩⟩
  | recordCallReturn =>
    cases hs; exact ⟨_, rfl, hi.program, hi.wf, hi.frames, hi.apart, hi.pending, hi.skipped,
      hi.log.imp fun e m ⟨hs, hl, hpl⟩ => ⟨hs, hl, hpl⟩⟩
  | access acc => obtain ⟨hr, hs⟩ := hcond hs; exact hi.access hr hs
  | check i =>
    simp only [Program.step] at hs
    split at hs
    · next hlt =>
      cases hs
      obtain ⟨r, c', hc, hi'⟩ := hi.checkAccess hlt
      exact ⟨c', by simp [CilkSan.step, hc], hi'⟩
    · cases hs

/-- Every hook of a run meets `StepOk`. -/
def RunOk (p : Program) : List Hook → Prop
  | [] => True
  | h :: hs => StepOk p h ∧ ∀ p' ∈ p.step h, RunOk p' hs

instance decidableStepOk (p : Program) : (h : Hook) → Decidable (StepOk p h)
  | .sync r => inferInstanceAs (Decidable (∀ a ∈ p.acts.head?, a.stale r = false))
  | .loopEnd _ => inferInstanceAs (Decidable (p.pendingLoop = false))
  | .funcEntry .. | .funcExit | .task _ | .taskExit _ | .detachContinue _ | .loopBegin |
    .loopIterationBegin _
  | .loopIterationEnd | .recordCall _ | .recordCallReturn | .access _ | .check _ =>
    inferInstanceAs (Decidable True)

instance decidableRunOk (p : Program) : (hooks : List Hook) → Decidable (RunOk p hooks)
  | [] => inferInstanceAs (Decidable True)
  | h :: hs =>
    have := fun p' => decidableRunOk p' hs
    inferInstanceAs (Decidable (StepOk p h ∧ ∀ p' ∈ p.step h, RunOk p' hs))

/-- **A run.** -/
theorem Inv.run {p p' : Program} {c : CilkSan} {hooks : List Hook} (hi : Inv p c)
    (hok : RunOk p hooks)
    (hs : p.run hooks = some p') : ∃ c', c.run hooks = some c' ∧ Inv p' c' := by
  induction hooks generalizing p c with
  | nil =>
    cases hs
    exact ⟨c, rfl, hi⟩
  | cons h hooks ih =>
    simp only [Program.run, List.foldlM_cons, Option.bind_eq_bind, Option.bind_eq_some_iff] at hs
    obtain ⟨p₁, hs₁, hs⟩ := hs
    obtain ⟨c₁, hc₁, hi₁⟩ := hi.step hok.1 hs₁
    obtain ⟨c', hc', hi'⟩ := ih hi₁ (hok.2 p₁ hs₁) hs
    refine ⟨c', ?_, hi'⟩
    simp only [CilkSan.run, List.foldlM_cons, hc₁, Option.bind_eq_bind, Option.bind_some]
    exact hc'

end Cilksan
