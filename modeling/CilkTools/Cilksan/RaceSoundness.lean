/-
Whatever the detector reports is a race: for accesses of every size, on either
path, and however the regions are synced. An entry of a byte is that of an
access to what is there now, and one that is found parallel is parallel.
-/
import CilkTools.Cilksan.DetectorRuns

namespace Cilksan

/-- The entry is that of one of the accesses, which is on record. -/
def EntryOf (ops : List MemoryOp) (log : List LoggedAccess) (mlog : List MemoryAccess)
    (isRead : Bool) (m : MemoryAccess) : Prop :=
  ∃ e ∈ ops, e.isRead = isRead ∧ e.accId = m.accId ∧ LoggedFor log mlog m.func e.strand

theorem EntryOf.mono {ops ops' : List MemoryOp} {log log' : List LoggedAccess}
    {mlog mlog' : List MemoryAccess} {isRead : Bool}
    {m : MemoryAccess} (h : EntryOf ops log mlog isRead m) (hops : ∀ e ∈ ops, e ∈ ops')
    (hlog : ∀ {func strand}, LoggedFor log mlog func strand → LoggedFor log' mlog' func strand) :
    EntryOf ops' log' mlog' isRead m := by
  obtain ⟨e, he, hr, ha, hl⟩ := h
  exact ⟨e, hops e he, hr, ha, hlog hl⟩

theorem MemoryEvent.mem_live_access {events : List MemoryEvent} {e e' : MemoryOp} {b : Nat}
    (h : e' ∈ live events b) : e' ∈ live (events ++ [.access e]) b := by
  rw [live_append, step]
  split
  · exact List.mem_append_left _ h
  · exact h

theorem MemoryEvent.mem_live_self {events : List MemoryEvent} {e : MemoryOp} {b : Nat}
    (h : e.covers b = true) : e ∈ live (events ++ [.access e]) b := by
  rw [live_append, step, if_pos h]
  simp

/-- A race is one for ever. -/
theorem AccessProgram.Races.reaches {p p' : AccessProgram} {b : Nat} {e f : MemoryOp}
    (h : p.Races b e f)
    (hr : p.trace.program.Reaches p'.trace.program) (hlt : ∀ e, .access e ∈ p.events →
      e.strand < p.trace.program.dag.size)
    (hev : ∀ {b e f}, MemoryEvent.Meets p.events b e f → MemoryEvent.Meets p'.events b e f) :
    p'.Races b e f := by
  have hmem := h.meets.mem
  refine ⟨hev h.meets, h.write, fun hp => h.parallel.1 ?_, fun hp => h.parallel.2 ?_⟩
  · exact (hr.path_iff (hlt f hmem.2)).1 hp
  · exact (hr.path_iff (hlt e hmem.1)).1 hp

variable {P : Program} {log log' : List LoggedAccess} {d d' : Driver} {p p' : AccessProgram}
  {t t' : RaceDetector}
variable {f : Strand} {e : MemoryOp} {alignment : Nat}

/-- What is set is on record. -/
theorem Accessed.entry (h : Accessed log log' d p t t' f e alignment) (hm : t.shadow.LockedOk)
    {isRead : Bool} {b : Nat}
    {m : MemoryAccess} (hget : (t'.shadow.dictionary isRead).table.get b = some m) :
    (t.shadow.dictionary isRead).table.get b = some m ∨
      e.isRead = isRead ∧ e.covers b = true ∧ m.accId = e.accId ∧
      LoggedFor log' t'.driver.tool.log m.func e.strand := by
  have hspec :=
    SimpleShadowMem.recordMemHelper_spec (n := e.memSize) f e.accId e.isRead hm h.aligned.exists_lg
  rw [← h.shadow] at hspec
  by_cases hr : isRead = e.isRead
  · subst hr
    rcases hspec.entries b with hb | ⟨hb, hset⟩
    · exact .inl (hb.symm.trans hget)
    · cases hasks :
          (LockedOp.plain e.isRead e.addr e.memSize alignment e.accId).asksForBag f t.shadow with
      | true =>
        obtain ⟨hfunc, hacc⟩ := f.maSetFn_func e.accId ((t.shadow.dictionary e.isRead).table.get b)
        rw [hset, Option.some.injEq] at hget
        subst hget
        exact .inr ⟨rfl, by rw [MemoryOp.covers]; exact decide_eq_true hb, hacc,
          hfunc ▸ h.logged hasks⟩
      | false =>
        have halign : (LockedOp.plain e.isRead e.addr e.memSize alignment e.accId).Aligned :=
          h.aligned.exists_lg
        have hsame :
            (((LockedOp.plain e.isRead e.addr e.memSize alignment e.accId).run f LockSet.intersect
              t.shadow).dictionary
            e.isRead).table.get b = (t.shadow.dictionary e.isRead).table.get b :=
            LockedOp.run_of_not_asks hm halign rfl hasks b
        rw [h.shadow, SimpleShadowMem.recordMemHelper_fst] at hget
        exact .inl (hsame.symm.trans hget)
  · obtain rfl : isRead = !e.isRead := by cases isRead <;> cases h : e.isRead <;> simp_all
    rw [hspec.other] at hget
    exact .inl hget

/-- The detector keeps up, every entry is that of an access to what is there
now, and whatever it has reported is a race. -/
structure Sound (log : List LoggedAccess) (d : Driver) (p : AccessProgram) (t : RaceDetector) :
    Prop extends Monitors log d p t where
  entries : ∀ {isRead b m}, (t.shadow.dictionary isRead).table.get b = some m →
    EntryOf (MemoryEvent.live p.events b) log t.driver.tool.log isRead m
  sound : ∀ r ∈ t.races, ∃ e f, p.Races r.addr e f ∧ r.Between e f

namespace Sound

theorem init : Sound [] .init .init .init where
  toMonitors := .init
  entries {isRead b m} h := by cases isRead <;> cases h
  sound r hr := by cases hr

/-- The races that an access reports. -/
theorem exists_race (hi : Sound log d p t) (h : Accessed log log' d p t t' f e alignment)
    (hP : p.trace.program.Reaches P) {r : Race}
    (hr : r ∈ (t.shadow.recordMemHelper f e.accId e.isRead e.addr e.memSize alignment).2) :
    e.covers r.addr = true ∧ ∃ e' ∈ MemoryEvent.live p.events r.addr, r.Between e' e ∧
    P.parallel e'.strand e.strand = true := by
  have hspec :=
    SimpleShadowMem.recordMemHelper_spec
      (n := e.memSize) f e.accId e.isRead hi.shadow h.aligned.exists_lg
  obtain ⟨hread, hat⟩ := hspec.sound r hr
  obtain ⟨e', he', hr', ha', hlog⟩ := hi.entries hat.entry
  refine ⟨decide_eq_true ⟨hat.le, hat.lt⟩, e', he', ⟨ha'.symm, hat.accId_eq, hr'.symm, hread⟩, ?_⟩
  rw [h.cur, ← hi.judges hP h.strand _ _ hlog]
  exact hat.parallel

/-- A hook that delimits strands leaves memory and the races. -/
theorem delimited (hi : Sound log d p t) (h : Delimited log d' p p' t t') : Sound log d' p' t' where
  toMonitors := h.monitors
  entries {isRead b m} hget := by
    rw [h.tables] at hget
    rw [h.events, h.log]
    exact hi.entries hget
  sound r hr := by
    rw [h.races] at hr
    obtain ⟨e, f, hrace, hb⟩ := hi.sound r hr
    exact ⟨e, f, hrace.reaches h.reaches hi.lt_size (h.events ▸ id), hb⟩

theorem skip (hi : Sound log d p t) (he : e.strand = p.trace.program.cur) :
    Sound log d (p.add (.access e)) t where
  toMonitors := hi.add fun e' h => by cases h; exact he
  entries hget := (hi.entries hget).mono (fun _ => MemoryEvent.mem_live_access) id
  sound r hr := by
    obtain ⟨e, f, hrace, hb⟩ := hi.sound r hr
    exact ⟨e, f, hrace.reaches .refl hi.lt_size fun h => MemoryEvent.meets_append.2 (.inl h), hb⟩

/-- What an access reports is a race with an access to what is there now. -/
theorem record_races (hi : Sound log d p t) (h : Accessed log log' d p t t' f e alignment) :
    ∀ r ∈ t'.races,
    r ∈ t.races ∨ ∃ e' ∈ MemoryEvent.live p.events r.addr, (p.add (.access e)).Races r.addr e' e ∧
    r.Between e' e := by
  intro r hr
  rw [h.races] at hr
  refine (List.mem_append.1 hr).imp_right fun hr => ?_
  obtain ⟨hc, e', he', hb, hpar⟩ := hi.exists_race h .refl hr
  exact ⟨e', he',
    ⟨MemoryEvent.meets_append.2 (.inr ⟨rfl, hc, he'⟩), hb.prevIsRead ▸ hb.isRead ▸ r.type.write,
    (Program.parallel_eq_true.1 hpar).2.2⟩, hb⟩

theorem record (hi : Sound log d p t) (h : Accessed log log' d p t t' f e alignment) :
    Sound log' d (p.add (.access e)) t' where
  toMonitors := h.monitors
  entries {isRead b m} hget := by
    rcases h.entry hi.shadow hget with hold | ⟨hr, hc, ha, hl⟩
    · exact (hi.entries hold).mono (fun _ => MemoryEvent.mem_live_access) h.mono
    · exact ⟨e, MemoryEvent.mem_live_self hc, hr, ha.symm, hl⟩
  sound r hr := by
    rcases hi.record_races h r hr with hr | ⟨e', -, hrace, hb⟩
    · obtain ⟨e, f, hrace, hb⟩ := hi.sound r hr
      exact ⟨e, f, hrace.reaches .refl hi.lt_size fun h => MemoryEvent.meets_append.2 (.inl h), hb⟩
    · exact ⟨e', e, hrace, hb⟩

theorem clear (hi : Sound log d p t) (start size : Nat) :
    Sound log d (p.add (.clear start size)) (t.clear start size) where
  toMonitors := hi.toMonitors.clear start size
  entries {isRead b m} hget := by
    rw [(RaceDetector.clear_spec hi.shadow start size).2] at hget
    show EntryOf (MemoryEvent.live (p.events ++ [.clear start size]) b) _ _ _ _
    rw [MemoryEvent.live_append, MemoryEvent.step]
    split at hget
    · cases hget
    · next h =>
      rw [if_neg h]
      exact hi.entries hget
  sound r hr := by
    obtain ⟨e, f, hrace, hb⟩ := hi.sound r hr
    exact ⟨e, f, hrace.reaches .refl hi.lt_size fun h => MemoryEvent.meets_append.2 (.inl h), hb⟩

theorem step {h : DetectorHook} (hi : Sound log d p t) (hok : h.Ok) (hs : p.step h = some p') :
    ∃ t' log' d', t.step h = some t' ∧ Sound log' d' p' t' := by
  cases h with
  | driver h =>
    obtain ⟨t', d', ht', hd⟩ := hi.driverStep hok hs
    exact ⟨t', log, d', ht', hi.delimited hd⟩
  | clear start size =>
    cases hs
    exact ⟨_, log, d, rfl, hi.clear start size⟩
  | access isRead accId addr memSize alignment =>
    simp only [AccessProgram.step, Option.ite_none_right_eq_some, Option.some.injEq] at hs
    obtain ⟨hrun, rfl⟩ := hs
    cases hpar : t.driver.parallelExecution.isExecutionParallel with
    | false =>
      refine ⟨t, log, d, ?_, hi.skip rfl⟩
      simp only [RaceDetector.step, RaceDetector.access, hpar]
      rfl
    | true =>
      obtain ⟨f, log', t', ht', hrec⟩ := hi.toMonitors.record hrun hok
      refine ⟨t', log', d, ?_, hi.record hrec⟩
      simp only [RaceDetector.step, RaceDetector.access, hpar]
      exact ht'

theorem run {hooks : List DetectorHook} (hi : Sound log d p t) (hok : ∀ h ∈ hooks, h.Ok)
    (hs : p.run hooks = some p') : ∃ t' log' d', t.run hooks = some t' ∧ Sound log' d' p' t' := by
  induction hooks generalizing p t log d with
  | nil =>
    cases hs
    exact ⟨t, log, d, rfl, hi⟩
  | cons h hooks ih =>
    obtain ⟨p₁, hs₁, hs⟩ := Option.bind_eq_some_iff.1 hs
    obtain ⟨t₁, log₁, d₁, ht₁, hi₁⟩ := hi.step (hok h (List.mem_cons_self ..)) hs₁
    obtain ⟨t', log', d', ht', hi'⟩ := ih hi₁ (fun h hh => hok h (List.mem_cons_of_mem _ hh)) hs
    exact ⟨t', log', d', Option.bind_eq_some_iff.2 ⟨t₁, ht₁, ht'⟩, hi'⟩

end Sound

/-- **No false races.** Whatever is reported is a race at that byte. -/
theorem races_sound {hooks : List DetectorHook} {p : AccessProgram} (hok : ∀ h ∈ hooks, h.Ok)
    (hs : AccessProgram.init.run hooks = some p) :
    ∃ t, RaceDetector.init.run hooks = some t ∧ ∀ r ∈ t.races, ∃ e f, p.Races r.addr e f ∧
    r.Between e f := by
  obtain ⟨t, log, d, ht, hi⟩ := Sound.init.run hok hs
  exact ⟨t, ht, hi.sound⟩

/-- Six bytes are written in a task, two of which are cleared before they are
read. -/
def clearedOverlap : List DetectorHook :=
  [.driver (.funcEntry true 2), .driver (.detach false), .driver (.task false 0),
    .access false 1 16 6 4,
    .driver (.taskExit false 0), .driver (.detachContinue false false 0), .clear 16 2,
    .access true 2 16 4 4, .driver (.sync 0), .access false 3 16 4 4]

theorem races_sound_cleared : ∃ p, AccessProgram.init.run clearedOverlap = some p ∧
    ∃ t, RaceDetector.init.run clearedOverlap = some t ∧ ∀ r ∈ t.races, ∃ e f, p.Races r.addr e f ∧
    r.Between e f :=
  ⟨_, rfl, races_sound (by decide) rfl⟩

end Cilksan
