/-
The detector finds the races of a run. It follows programs without parallel
loops that sync their regions last to first and whose accesses all take the
fast path: of every race one with the later access is reported.
-/
import CilkTools.Cilksan.ByteEntries
import CilkTools.Cilksan.RaceSoundness

namespace Cilksan

/-! ## Which runs -/

namespace AccessProgram

def StepOk (p : AccessProgram) : DetectorHook → Prop
  | .driver h => h.isLoop = false ∧ p.trace.SyncsInnermost h
  | .access _ _ addr memSize alignment =>
    StaticallyAligned addr alignment ∧
      (memSize ≠ 0 → SimpleShadowMem.takesFastPath memSize alignment = true)
  | .clear .. => True

def RunOk (p : AccessProgram) : List DetectorHook → Prop
  | [] => True
  | h :: hooks => p.StepOk h ∧ ∀ p' ∈ p.step h, p'.RunOk hooks

instance decidableSyncsInnermost (t : Trace) : (h : DriverHook) → Decidable (t.SyncsInnermost h)
  | .sync r | .detachContinue _ true r =>
    inferInstanceAs (Decidable (∀ a ∈ t.program.acts.head?, a.Innermost r))
  | .detachContinue _ false _ | .funcEntry .. | .funcExit | .detach _ | .task .. | .taskExit .. |
      .beforeLoop | .afterLoop _ =>
    inferInstanceAs (Decidable True)

instance decidableStepOk (p : AccessProgram) : (h : DetectorHook) → Decidable (p.StepOk h)
  | .driver h => inferInstanceAs (Decidable (h.isLoop = false ∧ p.trace.SyncsInnermost h))
  | .access _ _ addr memSize alignment =>
    inferInstanceAs
      (Decidable (StaticallyAligned addr alignment ∧
        (memSize ≠ 0 → SimpleShadowMem.takesFastPath memSize alignment = true)))
  | .clear .. => inferInstanceAs (Decidable True)

instance decidableRunOk (p : AccessProgram) : (hooks : List DetectorHook) →
    Decidable (p.RunOk hooks)
  | [] => inferInstanceAs (Decidable True)
  | h :: hooks =>
    have := fun p' => decidableRunOk p' hooks
    inferInstanceAs (Decidable (p.StepOk h ∧ ∀ p' ∈ p.step h, p'.RunOk hooks))

end AccessProgram

/-! ## The program alone -/

/-- The flags follow the program, and its strands are ordered. -/
structure AccessProgram.Traced (p : AccessProgram) (d : Driver) : Prop where
  tracks : Tracks p.trace d
  nested : p.trace.program.Nested

namespace AccessProgram.Traced

variable {p p' : AccessProgram} {d : Driver}

theorem step {h : DetectorHook} (hi : p.Traced d) (hok : p.StepOk h) (hs : p.step h = some p') :
    ∃ d', p'.Traced d' ∧ p.trace.program.Reaches p'.trace.program := by
  cases h with
  | clear start size =>
    cases hs
    exact ⟨d, ⟨hi.tracks, hi.nested⟩, .refl⟩
  | access isRead accId addr memSize alignment =>
    simp only [AccessProgram.step, Option.ite_none_right_eq_some, Option.some.injEq] at hs
    obtain ⟨-, rfl⟩ := hs
    exact ⟨d, ⟨hi.tracks, hi.nested⟩, .refl⟩
  | driver h =>
    obtain ⟨t', ht', rfl⟩ := Option.map_eq_some_iff.1 hs
    obtain ⟨d', -, hd', hr⟩ := hi.tracks.step (Monitors.traceOk hok.1) ht'
    exact ⟨d', ⟨hd', hi.nested.trace hi.tracks.follows.ordered hok.1 hok.2 ht'⟩, hr⟩

theorem run {hooks : List DetectorHook} (hi : p.Traced d) (hok : p.RunOk hooks)
    (hs : p.run hooks = some p') :
    ∃ d', p'.Traced d' ∧ p.trace.program.Reaches p'.trace.program := by
  induction hooks generalizing p d with
  | nil =>
    cases hs
    exact ⟨d, hi, .refl⟩
  | cons h hooks ih =>
    obtain ⟨p₁, hs₁, hs⟩ := Option.bind_eq_some_iff.1 hs
    obtain ⟨d₁, hi₁, hr₁⟩ := hi.step hok.1 hs₁
    obtain ⟨d', hi', hr⟩ := ih hi₁ (hok.2 p₁ hs₁) hs
    exact ⟨d', hi', hr₁.trans hr⟩

theorem init : AccessProgram.init.Traced .init := ⟨.init, .init⟩

end AccessProgram.Traced

/-! ## The detector -/

variable {P : Program} {log log' : List LoggedAccess} {d d' : Driver} {p p' : AccessProgram}
  {t t' : RaceDetector}
variable {f : Strand} {e : MemoryOp} {alignment : Nat}

/-- No race between these two comes about later. -/
theorem AccessProgram.Races.of_reaches {b : Nat} {e f : MemoryOp} (h : p'.Races b e f)
    (hr : p.trace.program.Reaches p'.trace.program) (hlt : ∀ e, .access e ∈ p.events →
      e.strand < p.trace.program.dag.size)
    (hev : MemoryEvent.Meets p.events b e f) : p.Races b e f := by
  have hmem := hev.mem
  refine ⟨hev, h.write, fun hp => h.parallel.1 ?_, fun hp => h.parallel.2 ?_⟩
  · exact (hr.path_iff (hlt f hmem.2)).2 hp
  · exact (hr.path_iff (hlt e hmem.1)).2 hp

theorem RaceType.exists_type {r s : Bool} (h : r = false ∨ s = false) :
    ∃ t : RaceType, t.prevIsRead = r ∧ t.isRead = s := by
  cases r with
  | true =>
    rcases h with h | rfl
    · cases h
    · exact ⟨.rwRace, rfl, rfl⟩
  | false =>
    cases s with
    | true => exact ⟨.wrRace, rfl, rfl⟩
    | false => exact ⟨.wwRace, rfl, rfl⟩

/-- A race of this type with the later access is reported. -/
def Found (p : AccessProgram) (races : List Race) (e f : MemoryOp) : Prop :=
  ∃ r ∈ races, r.type.prevIsRead = e.isRead ∧ ∃ e', p.Races r.addr e' f ∧ r.Between e' f

theorem Found.mono {races races' : List Race} {e f : MemoryOp} (h : Found p races e f)
    (hraces : ∀ r ∈ races, r ∈ races')
    (hp : ∀ {b e f}, p.Races b e f → p'.Races b e f) : Found p' races' e f := by
  obtain ⟨r, hr, ht, e', hrace, hb⟩ := h
  exact ⟨r, hraces r hr, ht, e', hp hrace, hb⟩

/-- The detector has kept up with the program, whose end is `P`: nothing is
missing from the shadow memory, nor from the races. -/
structure Detects (P : Program) (log : List LoggedAccess) (d : Driver) (p : AccessProgram)
    (t : RaceDetector) : Prop extends Sound log d p t where
  nested : p.trace.program.Nested
  atByte : ∀ isRead b, AtByte P (MemoryEvent.live p.events b) log t.driver.tool.log isRead
    ((t.shadow.dictionary isRead).table.get b)
  complete : ∀ {b e f}, p.Races b e f → Found p t.races e f

namespace Detects

theorem init : Detects P [] .init .init .init where
  toSound := .init
  nested := .init
  atByte isRead b := by
    have hnone : ((({} : SimpleShadowMem).dictionary isRead).table).get b = none := by
      cases isRead <;> rfl
    show AtByte P [] [] [] isRead ((({} : SimpleShadowMem).dictionary isRead).table.get b)
    rw [hnone]
    exact .nil
  complete hrace := by cases hrace.meets.mem.1

theorem delimited (hi : Detects P log d p t) (hn : p'.trace.program.Nested)
    (h : Delimited log d' p p' t t') : Detects P log d' p' t' where
  toSound := hi.toSound.delimited h
  nested := hn
  atByte isRead b := by
    rw [h.tables, h.events, h.log]
    exact hi.atByte isRead b
  complete hrace := by
    have hold := hi.complete (hrace.of_reaches h.reaches hi.lt_size (h.events ▸ hrace.meets))
    exact hold.mono (h.races ▸ fun _ => id) fun hr => hr.reaches h.reaches hi.lt_size
      (h.events ▸ id)

/-- At a point in series nothing is parallel to the strand, nor will be. -/
theorem not_parallel_of_serial (hi : Detects P log d p t) (hrun : p.running)
    (hP : p.trace.program.Reaches P)
    (hdown : t.driver.parallelExecution.isExecutionParallel = false) (j : Nat) :
    P.parallel p.trace.program.cur j = false := by
  have hord := hi.tracks.follows.ordered
  have hs := hi.tracks.inSeries hrun.2.1 (hi.flags ▸ hdown)
  rw [← Bool.not_eq_true, Program.parallel_eq_true]
  intro h
  obtain ⟨-, hj, hpar⟩ := h
  rcases Nat.lt_or_ge j p.trace.program.cur with hlt | hge
  · have hcur := hi.tracks.cur_lt
    exact hpar.2 ((hP.path_iff hcur).2 (hi.nested.path_of_inSeries hord hs (Nat.lt_trans hlt hcur)))
  · exact hpar.1 ((hP.ahead (hs.ahead hord hi.tracks.acts_ne_nil)).path j hge hj)

/-- The races that an access is part of are new. -/
theorem complete_add (hi : Detects P log d p t) {x : MemoryEvent} {races : List Race}
    (hnew : ∀ {b e f}, x = .access f → f.covers b = true → e ∈ MemoryEvent.live p.events b →
      (p.add x).Races b e f →
      Found (p.add x) races e f) {b : Nat} {e f : MemoryOp} (hrace : (p.add x).Races b e f) :
    Found (p.add x) (t.races ++ races) e f := by
  rcases MemoryEvent.meets_append.1 hrace.meets with hold | ⟨hx, hc, he⟩
  · exact (hi.complete (hrace.of_reaches .refl hi.lt_size hold)).mono
        (fun _ => List.mem_append_left _) fun hr =>
      hr.reaches .refl hi.lt_size fun h => MemoryEvent.meets_append.2 (.inl h)
  · exact (hnew hx hc he hrace).mono (fun _ => List.mem_append_right _) id

/-- Where the flag is down, the access is skipped. -/
theorem skip (hi : Detects P log d p t) (hrun : p.running) (hP : p.trace.program.Reaches P)
    (hdown : t.driver.parallelExecution.isExecutionParallel = false)
    (he : e.strand = p.trace.program.cur) : Detects P log d (p.add (.access e)) t where
  toSound := hi.toSound.skip he
  nested := hi.nested
  atByte isRead b := by
    have hold := hi.atByte isRead b
    show AtByte P (MemoryEvent.live (p.events ++ [.access e]) b) _ _ _ _
    rw [MemoryEvent.live_append, MemoryEvent.step]
    split
    · exact hold.skip fun _ => he ▸ hi.not_parallel_of_serial hrun hP hdown
    · exact hold
  complete {b e₁ e₂} hrace := by
    have hfound : Found (p.add (.access e)) (t.races ++ []) e₁ e₂ := hi.complete_add
        (fun {b e' f} hx _ he' hrace => by
      -- Nothing is parallel to the strand.
      cases hx
      have hlt := hi.lt_size e' (MemoryEvent.of_mem_live he').1
      have hcur := hi.tracks.cur_lt
      have hser := hi.not_parallel_of_serial hrun hP hdown e'.strand
      rw [hP.parallel_eq hcur hlt, ← Bool.not_eq_true, Program.parallel_eq_true] at hser
      have hpar := hrace.parallel
      rw [he] at hpar
      exact absurd ⟨hcur, hlt, hpar.2, hpar.1⟩ hser) hrace
    rwa [List.append_nil] at hfound

/-- An access that is not skipped, on the fast path. -/
theorem record (hi : Detects P log d p t) (h : Accessed log log' d p t t' f e alignment)
    (hP : p.trace.program.Reaches P)
    (hN : P.Nested)
    (hfast : e.memSize ≠ 0 → SimpleShadowMem.takesFastPath e.memSize alignment = true) :
    Detects P log' d (p.add (.access e)) t' := by
  have hspec :=
    SimpleShadowMem.recordMemHelper_spec
      (n := e.memSize) f e.accId e.isRead hi.shadow h.aligned.exists_lg
  have hj : Judges P e.strand log t.driver.tool.log f := h.cur ▸ hi.judges hP h.strand
  have hle : ∀ {b}, ∀ e' ∈ MemoryEvent.live p.events b, e'.strand ≤ e.strand := fun e' he' => by
    have hlt := hi.lt_size e' (MemoryEvent.of_mem_live he').1
    have hnewest : p.trace.program.cur + 1 = p.trace.program.dag.size := hi.inv.program.newest
    have hcur := h.cur
    omega
  have hpath : ∀ {b}, e.covers b = true → FastAccess f e.accId e.isRead e.addr e.memSize t.shadow
      (t.shadow.recordMemHelper f e.accId e.isRead e.addr e.memSize alignment).1
      (t.shadow.recordMemHelper f e.accId e.isRead e.addr e.memSize alignment).2 := fun {b} hc => by
    have hb : e.addr ≤ b ∧ b < e.addr + e.memSize := of_decide_eq_true hc
    have hn : e.memSize ≠ 0 := by omega
    exact SimpleShadowMem.recordMemHelper_fast f e.accId e.isRead hi.shadow hn
      (hfast hn) h.aligned.exists_lg
  refine ⟨hi.toSound.record h, hi.nested, fun isRead b => ?_, fun hrace => ?_⟩
  · have hold := hi.atByte isRead b
    show AtByte P (MemoryEvent.live (p.events ++ [.access e]) b) _ _ _ _
    rw [MemoryEvent.live_append, MemoryEvent.step, h.shadow]
    by_cases hr : isRead = e.isRead
    · subst hr
      split
      · next hc =>
        -- The byte's entry is set if it is in series.
        have hset := (hpath hc).sets b
        have hb : e.addr ≤ b ∧ b < e.addr + e.memSize := of_decide_eq_true hc
        simp only [hb, and_self, true_and] at hset
        rw [hset]
        refine hold.update hN hj hle h.mono fun hser => h.logged ?_
        cases hasks :
            (LockedOp.plain e.isRead e.addr e.memSize alignment e.accId).asksForBag f t.shadow with
        | true => rfl
        | false =>
          have hn : e.memSize ≠ 0 := by omega
          obtain ⟨lg, hsmall⟩ :=
            SimpleShadowMem.smallAccess_of_takesFastPath (hfast hn) hn h.aligned.exists_lg
          rw [SimpleShadowMem.not_inSeries_of_not_asks hi.shadow hn
            (hfast hn) hsmall hasks hb.1 hb.2] at hser
          cases hser
      · next hc =>
        rcases hspec.entries b with hsame | ⟨hb, -⟩
        · rw [hsame]
          exact hold.logged h.mono
        · exact absurd (decide_eq_true hb) hc
    · have hother : isRead = !e.isRead := by cases isRead <;> cases h : e.isRead <;> simp_all
      rw [hother, hspec.other, ← hother]
      have hmono := hold.logged h.mono
      split
      · exact hmono.skip fun h => absurd h.symm hr
      · exact hmono
  · rw [h.races]
    refine hi.complete_add (fun {b e' f'} hx hc he' hrace => ?_) hrace
    cases hx
    have hlt := hi.lt_size e' (MemoryEvent.of_mem_live he').1
    have hcur : e.strand < p.trace.program.dag.size := h.cur ▸ hi.tracks.cur_lt
    have hpar : P.parallel e'.strand e.strand = true := by
      rw [hP.parallel_eq hlt hcur]
      exact Program.parallel_eq_true.2 ⟨hlt, hcur, hrace.parallel⟩
    obtain ⟨m, hm, hmpar⟩ := (hi.atByte e'.isRead b).exists_entry hj hle he' rfl hpar
    obtain ⟨type, hprev, hread⟩ := RaceType.exists_type hrace.write
    have hb : e.addr ≤ b ∧ b < e.addr + e.memSize := of_decide_eq_true hc
    obtain ⟨r, hr, rfl⟩ :=
      (hpath hc).complete type hread b m hb.1 hb.2 (by rw [hprev]; exact hm) hmpar
    obtain ⟨hc', e'', he'', hbetween, hpar'⟩ := hi.exists_race h .refl hr
    exact ⟨r, hr, hprev, e'', ⟨MemoryEvent.meets_append.2 (.inr ⟨rfl, hc', he''⟩),
      hbetween.prevIsRead ▸ hbetween.isRead ▸ r.type.write,
      (Program.parallel_eq_true.1 hpar').2.2⟩, hbetween⟩

theorem clear (hi : Detects P log d p t) (start size : Nat) :
    Detects P log d (p.add (.clear start size)) (t.clear start size) where
  toSound := hi.toSound.clear start size
  nested := hi.nested
  atByte isRead b := by
    have hold := hi.atByte isRead b
    show AtByte P (MemoryEvent.live (p.events ++ [.clear start size]) b) _ _ _ _
    rw [MemoryEvent.live_append, MemoryEvent.step, (RaceDetector.clear_spec hi.shadow start size).2]
    split
    · exact .nil
    · exact hold
  complete {b e₁ e₂} hrace := by
    have hfound : Found (p.add (.clear start size)) (t.races ++ []) e₁ e₂ :=
      hi.complete_add (fun hx => by cases hx) hrace
    rwa [List.append_nil] at hfound

theorem step {h : DetectorHook} (hi : Detects P log d p t) (hok : p.StepOk h)
    (hs : p.step h = some p')
    (hP : p'.trace.program.Reaches P) (hN : P.Nested) :
    ∃ t' log' d', t.step h = some t' ∧ Detects P log' d' p' t' := by
  cases h with
  | driver h =>
    obtain ⟨t', d', ht', hd⟩ := hi.driverStep hok.1 hs
    obtain ⟨trace, htrace, rfl⟩ := Option.map_eq_some_iff.1 hs
    exact ⟨t', log, d', ht',
      hi.delimited (hi.nested.trace hi.tracks.follows.ordered hok.1 hok.2 htrace) hd⟩
  | clear start size =>
    cases hs
    exact ⟨_, log, d, rfl, hi.clear start size⟩
  | access isRead accId addr memSize alignment =>
    simp only [AccessProgram.step, Option.ite_none_right_eq_some, Option.some.injEq] at hs
    obtain ⟨hrun, rfl⟩ := hs
    replace hP : p.trace.program.Reaches P := hP
    cases hpar : t.driver.parallelExecution.isExecutionParallel with
    | false =>
      refine ⟨t, log, d, ?_, hi.skip hrun hP hpar rfl⟩
      simp only [RaceDetector.step, RaceDetector.access, hpar]
      rfl
    | true =>
      obtain ⟨f, log', t', ht', hrec⟩ := hi.toMonitors.record hrun hok.1
      refine ⟨t', log', d, ?_, hi.record hrec hP hN hok.2⟩
      simp only [RaceDetector.step, RaceDetector.access, hpar]
      exact ht'

theorem run {hooks : List DetectorHook} (hi : Detects P log d p t) (hok : p.RunOk hooks)
    (hs : p.run hooks = some p')
    (hP : p'.trace.program.Reaches P) (hN : P.Nested) :
    ∃ t' log' d', t.run hooks = some t' ∧ Detects P log' d' p' t' := by
  induction hooks generalizing p t log d with
  | nil =>
    cases hs
    exact ⟨t, log, d, rfl, hi⟩
  | cons h hooks ih =>
    obtain ⟨p₁, hs₁, hs⟩ := Option.bind_eq_some_iff.1 hs
    have htraced : p.Traced d := ⟨hi.tracks, hi.nested⟩
    obtain ⟨d₁, hi₁, -⟩ := htraced.step hok.1 hs₁
    obtain ⟨-, -, hr⟩ := hi₁.run (hok.2 p₁ hs₁) hs
    obtain ⟨t₁, log₁, d₂, ht₁, hi₂⟩ := hi.step hok.1 hs₁ (hr.trans hP) hN
    obtain ⟨t', log', d', ht', hi'⟩ := ih hi₂ (hok.2 p₁ hs₁) hs
    exact ⟨t', log', d', Option.bind_eq_some_iff.2 ⟨t₁, ht₁, ht'⟩, hi'⟩

end Detects

/-- **The races of a run.** Whatever is reported is a race at that byte, and of
each race one of its type with the same later access is reported. -/
theorem races_exact {hooks : List DetectorHook} {p : AccessProgram}
    (hok : AccessProgram.init.RunOk hooks)
    (hs : AccessProgram.init.run hooks = some p) : ∃ t, RaceDetector.init.run hooks = some t ∧
      (∀ r ∈ t.races, ∃ e f, p.Races r.addr e f ∧ r.Between e f) ∧
      ∀ b e f, p.Races b e f →
      ∃ r ∈ t.races, r.type.prevIsRead = e.isRead ∧ ∃ e', p.Races r.addr e' f ∧ r.Between e' f := by
  obtain ⟨d, hp, -⟩ := AccessProgram.Traced.init.run hok hs
  obtain ⟨t, log, d', ht, hi⟩ := Detects.init.run hok hs .refl hp.nested
  exact ⟨t, ht, hi.sound, fun b e f hrace => hi.complete hrace⟩

/-- A task writes what its parent reads before the sync, and writes after it
where it is cleared. -/
def spawnedWrite : List DetectorHook :=
  [.driver (.funcEntry true 1), .access false 1 16 4 4, .driver (.detach false),
    .driver (.task false 0), .access false 2 16 4 4,
    .driver (.taskExit false 0), .driver (.detachContinue false false 0), .access true 3 18 2 2,
    .clear 16 4, .access false 4 16 8 8, .driver (.sync 0), .access false 5 16 8 8]

theorem races_exact_spawn : ∃ p, AccessProgram.init.run spawnedWrite = some p ∧
    ∃ t, RaceDetector.init.run spawnedWrite = some t ∧
    (∀ r ∈ t.races, ∃ e f, p.Races r.addr e f ∧ r.Between e f) ∧
    ∀ b e f, p.Races b e f →
    ∃ r ∈ t.races, r.type.prevIsRead = e.isRead ∧ ∃ e', p.Races r.addr e' f ∧ r.Between e' f :=
  ⟨_, rfl, races_exact (by decide) rfl⟩

/-- Tasks of two regions read, and only the first is synced before a write. -/
def crossedSyncs : List DetectorHook :=
  [.driver (.funcEntry true 2), .driver (.detach false), .driver (.task false 0),
    .access true 1 16 4 4,
    .driver (.taskExit false 0), .driver (.detachContinue false false 0), .driver (.detach false),
    .driver (.task false 0),
    .access true 2 16 4 4, .driver (.taskExit false 1), .driver (.detachContinue false false 1),
    .driver (.sync 0), .access false 3 16 4 4]

/-- The first read stands for the second, and is in series with the write. -/
example : (RaceDetector.init.run crossedSyncs).map (·.races) = some [] ∧
    ∃ p e f, AccessProgram.init.run crossedSyncs = some p ∧ p.Races 16 e f := by
  refine ⟨by decide, _, ⟨4, true, 2, 16, 4, 1⟩, ⟨6, false, 3, 16, 4, 2⟩, rfl,
    ⟨_, [], rfl, by decide, by decide⟩, .inr rfl, fun hp => ?_, fun hp => ?_⟩
  · have := hp.of_closed (S := fun v => v = 4) (by decide) (by decide)
    exact absurd this (by decide)
  · exact absurd hp.le (by decide)

end Cilksan
