/-
Runs of the detector beside those of the program: it takes every hook the
program can make, and the strand it gives an access tells which of those before
are parallel to it.
-/
import CilkTools.Cilksan.LoopFreeTraces
import CilkTools.Cilksan.RecordedAccesses
import CilkTools.Cilksan.ParallelMarks
import CilkTools.Cilksan.NestedSyncs

namespace Cilksan

/-! ## The answers of the tool -/

/-- Without loops, the version says nothing about the place. -/
theorem Placed.setVersion {R : Nat → Prop} {e : LoggedAccess} {b v v' : Nat} {fs : List FrameData}
    {as : List Activation}
    (h : Placed R e b v fs as) (hl : ∀ a ∈ as, a.isLoop = false) : Placed R e b v' fs as := by
  have hloop : ∀ {a : Activation} {id}, a.isLoop = false → a.kind ≠ .loop id := fun ha hk => by
    rw [Activation.isLoop_iff.2 ⟨_, hk⟩] at ha
    cases ha
  induction h with
  | sbag hb hu hr hw ho => exact .sbag hb hu hr hw ho
  | pbag r hb hr hp hx hw ho => exact .pbag r hb hr hp hx hw ho
  | iterbag hb hu hk | olditer hb hu hk => exact absurd hk (hloop (hl _ (List.mem_cons_self ..)))
  | under he hr hn _ ih => exact .under he hr hn (ih fun a ha => hl a (List.mem_cons_of_mem _ ha))

/-- An entry with the node of a recorded access is found parallel exactly if
the access's strand has no path to the current one. -/
theorem Inv.judges {p : Program} {c : CilkSan} {f : Strand} (hi : Inv p c) (hl : p.LoopFree)
    (hf : c.strand = some f)
    {i : Nat} {e : LoggedAccess} {x m : MemoryAccess} (he : p.log[i]? = some e)
    (hx : c.log[i]? = some x)
    (hm : x.func = m.func) : f.previousAccessInParallel m = true ↔ ¬ p.dag.Path e.strand p.cur := by
  obtain ⟨x', hx', hs, hloops, b, ho, hpl⟩ := hi.logged he
  obtain rfl : x = x' := Option.some.inj (hx.symm.trans hx')
  -- A record of this entry alone.
  have hi' : Inv { p with log := [e] } { c with log := [m] } := { hi with
    program :=
      ⟨hi.program.newest, hi.program.ends, hi.program.older, hi.program.loops, hi.program.ids,
        hi.program.active,
      hi.program.pendingActive⟩
    log := .cons ⟨hs, hloops, b, hm ▸ ho, hpl.setVersion fun a ha => (hl.acts a ha).1⟩ .nil }
  obtain ⟨r, c', hr, hiff⟩ := hi'.check_iff (i := 0) rfl
  have hnot : ¬ HiddenIn e p.acts.tail := hl.not_hidden
  replace hiff : r = true ↔ ¬ p.dag.Path e.strand p.cur := hiff.trans (and_iff_left hnot)
  rw [← hiff]
  simp only [CilkSan.strand, Option.bind_eq_bind, Option.bind_eq_some_iff, Option.pure_def,
    Option.some.injEq] at hf
  obtain ⟨g, hg, _, -, _, -, _, -, rfl⟩ := hf
  simp only [CilkSan.checkAccess, hg, List.getElem?_cons_zero, Option.bind_eq_bind,
    Option.bind_some, Option.pure_def, Option.some.injEq, Prod.mk.injEq] at hr
  rw [← hr.1]
  rfl

theorem CilkSan.strand_of_recordAccess {c c' : CilkSan} {accId : Nat}
    (h : c.recordAccess accId = some c') : ∃ f, c.strand = some f := by
  simp only [recordAccess, Option.bind_eq_bind, Option.bind_eq_some_iff] at h
  obtain ⟨g, hg, ⟨b, g'⟩, hb, x, hx, d, hd, -⟩ := h
  exact ⟨_, by simp only [strand, hg, hb, hx, hd, Option.bind_eq_bind, Option.bind_some]; rfl⟩

/-! ## Memory -/

namespace MemoryEvent

variable {events : List MemoryEvent} {x : MemoryEvent} {b : Nat} {e f : MemoryOp}

theorem live_append : live (events ++ [x]) b = step b (live events b) x := by
  simp [live]

theorem mem_live_append : e ∈ live (events ++ [x]) b →
    e ∈ live events b ∨ x = .access e ∧ e.covers b = true := by
  rw [live_append]
  cases x with
  | clear start size =>
    simp only [step]
    split
    · intro h
      cases h
    · exact .inl
  | access e' =>
    simp only [step]
    split
    · next hc =>
      rw [List.mem_append, List.mem_singleton]
      rintro (h | rfl)
      · exact .inl h
      · exact .inr ⟨rfl, hc⟩
    · exact .inl

theorem of_mem_live : e ∈ live events b → .access e ∈ events ∧ e.covers b = true := by
  induction events using List.reverseRecOn with
  | nil =>
    intro h
    cases h
  | append_singleton events x ih =>
    intro h
    rcases mem_live_append h with h | ⟨rfl, hc⟩
    · exact ⟨List.mem_append_left _ (ih h).1, (ih h).2⟩
    · exact ⟨by simp, hc⟩

/-- When `f` accesses the byte, `e` has been the access of it, too, since it
was cleared last. -/
def Meets (events : List MemoryEvent) (b : Nat) (e f : MemoryOp) : Prop :=
  ∃ pre post, events = pre ++ .access f :: post ∧ f.covers b = true ∧ e ∈ live pre b

theorem meets_append : Meets (events ++ [x]) b e f ↔
    Meets events b e f ∨ x = .access f ∧ f.covers b = true ∧ e ∈ live events b := by
  constructor
  · intro h
    obtain ⟨pre, post, heq, hf, he⟩ := h
    rcases List.eq_nil_or_concat post with rfl | ⟨post, y, rfl⟩
    · obtain ⟨rfl, hx⟩ := List.append_inj' heq rfl
      exact .inr ⟨(List.cons.inj hx).1, hf, he⟩
    · have heq' : events ++ [x] = (pre ++ .access f :: post) ++ [y] := by simpa using heq
      obtain ⟨rfl, -⟩ := List.append_inj' heq' rfl
      exact .inl ⟨pre, post, rfl, hf, he⟩
  · intro h
    rcases h with ⟨pre, post, rfl, hf, he⟩ | ⟨rfl, hf, he⟩
    · exact ⟨pre, post ++ [x], by simp, hf, he⟩
    · exact ⟨events, [], rfl, hf, he⟩

theorem Meets.mem (h : Meets events b e f) : .access e ∈ events ∧ .access f ∈ events := by
  obtain ⟨pre, post, rfl, -, he⟩ := h
  exact ⟨List.mem_append_left _ (of_mem_live he).1, by simp⟩

end MemoryEvent

/-- The two access the byte, which is not cleared in between, one of them
writes it, and their strands are parallel. -/
structure AccessProgram.Races (p : AccessProgram) (b : Nat) (e f : MemoryOp) : Prop where
  meets : MemoryEvent.Meets p.events b e f
  write : e.isRead = false ∨ f.isRead = false
  parallel : p.trace.program.dag.Parallel e.strand f.strand

/-- The race reported is between the two. -/
structure Race.Between (r : Race) (e f : MemoryOp) : Prop where
  prevAccId : r.prev.accId = e.accId
  accId : r.accId = f.accId
  prevIsRead : r.type.prevIsRead = e.isRead
  isRead : r.type.isRead = f.isRead

theorem RaceType.write (t : RaceType) : t.prevIsRead = false ∨ t.isRead = false := by
  cases t <;> simp [prevIsRead, isRead]

/-! ## Runs -/

/-- A static alignment is a power of two, and what it says is true. -/
def StaticallyAligned (addr alignment : Nat) : Prop :=
  alignment ≠ 0 → alignment = 2 ^ alignment.log2 ∧ alignment ∣ addr

instance (addr alignment : Nat) : Decidable (StaticallyAligned addr alignment) :=
  inferInstanceAs (Decidable (alignment ≠ 0 → alignment = 2 ^ alignment.log2 ∧ alignment ∣ addr))

theorem StaticallyAligned.exists_lg {addr alignment : Nat} (h : StaticallyAligned addr alignment)
    (hn : alignment ≠ 0) : ∃ lg, alignment = 2 ^ lg ∧ alignment ∣ addr :=
  ⟨_, h hn⟩

/-- No loop's, and aligned as it says. -/
def DetectorHook.Ok : DetectorHook → Prop
  | .driver h => h.isLoop = false
  | .access _ _ addr _ alignment => StaticallyAligned addr alignment
  | .clear .. => True

instance : (h : DetectorHook) → Decidable h.Ok
  | .driver h => inferInstanceAs (Decidable (h.isLoop = false))
  | .access _ _ addr _ alignment => inferInstanceAs (Decidable (StaticallyAligned addr alignment))
  | .clear .. => inferInstanceAs (Decidable True)

/-- A recorded access with this node was made by the strand. -/
def LoggedFor (log : List LoggedAccess) (mlog : List MemoryAccess) (func strand : Nat) : Prop :=
  ∃ (i : Nat) (e : LoggedAccess) (x : MemoryAccess),
    log[i]? = some e ∧ mlog[i]? = some x ∧ x.func = func ∧ e.strand = strand

theorem LoggedFor.cons {log : List LoggedAccess} {mlog : List MemoryAccess} {func strand : Nat}
    (h : LoggedFor log mlog func strand) (e : LoggedAccess) (x : MemoryAccess) :
    LoggedFor (e :: log) (x :: mlog) func strand := by
  obtain ⟨i, e', x', he, hx, hfunc, hs⟩ := h
  exact ⟨i + 1, e', x', by simpa using he, by simpa using hx, hfunc, hs⟩

/-- The strand tells the recorded accesses that are parallel to it. -/
def Judges (P : Program) (cur : Nat) (log : List LoggedAccess) (mlog : List MemoryAccess)
    (f : Strand) : Prop :=
  ∀ (m : MemoryAccess) (strand : Nat), LoggedFor log mlog m.func strand →
  f.previousAccessInParallel m = P.parallel strand cur

/-- The detector keeps up with the program: beside it, a record of the accesses
for which the tool was asked for a bag, and a driver that was told of none. -/
structure Monitors (log : List LoggedAccess) (d : Driver) (p : AccessProgram)
    (t : RaceDetector) : Prop where
  tracks : Tracks p.trace d
  loopFree : p.trace.program.LoopFree
  flags : d.parallelExecution = t.driver.parallelExecution
  inv : Inv { p.trace.program with log } t.driver.tool
  shadow : t.shadow.LockedOk
  lt_size : ∀ e, .access e ∈ p.events → e.strand < p.trace.program.dag.size

/-- What a hook that delimits strands does. -/
structure Delimited (log : List LoggedAccess) (d : Driver) (p p' : AccessProgram)
    (t t' : RaceDetector) : Prop where
  monitors : Monitors log d p' t'
  events : p'.events = p.events
  reaches : p.trace.program.Reaches p'.trace.program
  log : t'.driver.tool.log = t.driver.tool.log
  tables : ∀ isRead, (t'.shadow.dictionary isRead).table = (t.shadow.dictionary isRead).table
  races : t'.races = t.races

/-- What an access does that is not skipped. -/
structure Accessed (log log' : List LoggedAccess) (d : Driver) (p : AccessProgram)
    (t t' : RaceDetector) (f : Strand) (e : MemoryOp) (alignment : Nat) : Prop where
  monitors : Monitors log' d (p.add (.access e)) t'
  aligned : StaticallyAligned e.addr alignment
  strand : t.driver.tool.strand = some f
  cur : e.strand = p.trace.program.cur
  shadow : t'.shadow = (t.shadow.recordMemHelper f e.accId e.isRead e.addr e.memSize alignment).1
  races : t'.races =
    t.races ++ (t.shadow.recordMemHelper f e.accId e.isRead e.addr e.memSize alignment).2
  mono : ∀ {func strand}, LoggedFor log t.driver.tool.log func strand →
    LoggedFor log' t'.driver.tool.log func strand
  logged :
    (LockedOp.plain e.isRead e.addr e.memSize alignment e.accId).asksForBag f t.shadow = true →
    LoggedFor log' t'.driver.tool.log f.func e.strand

theorem SimpleShadowMem.LockedOk.clearOccupied {m : SimpleShadowMem} (hm : m.LockedOk) :
    m.clearOccupied.LockedOk where
  wf isRead := by
    have := hm.wf isRead
    cases isRead <;> exact this
  lockers isRead := by
    have := hm.lockers isRead
    cases isRead <;> exact this
  occupancy isRead := .of_not_occupied fun b => by
    cases isRead
    · exact occupied_clearOccupied (hm.occupancy false) b
    · exact occupied_clearOccupied (hm.occupancy true) b

theorem SimpleShadowMem.dictionary_clearOccupied (m : SimpleShadowMem) (isRead : Bool) :
    (m.clearOccupied.dictionary isRead).table = (m.dictionary isRead).table := by
  cases isRead <;> rfl

/-- A range that is cleared has no entries. -/
theorem RaceDetector.clear_spec {t : RaceDetector} (hm : t.shadow.LockedOk) (start size : Nat) :
    (t.clear start size).shadow.LockedOk ∧
    ∀ isRead b, ((t.clear start size).shadow.dictionary isRead).table.get b =
      if start ≤ b ∧ b < start + size then none else (t.shadow.dictionary isRead).table.get b := by
  by_cases hn : size = 0
  · rw [clear, if_pos hn]
    refine ⟨hm, fun isRead b => ?_⟩
    rw [if_neg (by omega)]
  · rw [clear, if_neg hn]
    have hclear :
        ∀ isRead, _ := fun isRead => LockedOp.clear_ok (hm.wf isRead) (hm.lockers isRead)
        (hm.occupancy isRead) start size
    refine ⟨⟨⟨fun isRead => ?_, fun isRead => ?_⟩, fun isRead => ?_⟩, fun isRead b => ?_⟩
    · rw [SimpleShadowMem.clear_dictionary]
      exact (hclear isRead).1
    · rw [SimpleShadowMem.clear_dictionary]
      exact (hclear isRead).2.2.1
    · rw [SimpleShadowMem.clear_dictionary]
      exact (hclear isRead).2.1
    · have hget := (UpdateIterator.clear_spec (hm.wf isRead) start (start + size)).2 b
      rw [← Chunk.mk_eq_upTo] at hget
      rw [SimpleShadowMem.clear_dictionary]
      exact hget

/-- The bag is asked for or not. -/
theorem RaceDetector.record_eq {t : RaceDetector} {isRead : Bool}
    {accId addr memSize alignment : Nat} {f : Strand} {tool : CilkSan}
    (hf : t.driver.tool.strand = some f)
    (htool : (if (LockedOp.plain isRead addr memSize alignment accId).asksForBag f t.shadow then
      t.driver.tool.recordAccess accId else some t.driver.tool) = some tool) :
    t.record isRead accId addr memSize alignment = some {
      driver := { t.driver with tool }
      shadow := (t.shadow.recordMemHelper f accId isRead addr memSize alignment).1
      races := t.races ++ (t.shadow.recordMemHelper f accId isRead addr memSize alignment).2 } := by
  simp only [record, hf, Option.bind_eq_bind, Option.bind_some]
  split at htool
  · next h => rw [if_pos h, htool]; rfl
  · next h => cases htool; rw [if_neg h]; rfl

namespace Monitors

variable {P : Program} {log : List LoggedAccess} {d : Driver} {p p' : AccessProgram}
  {t : RaceDetector}

theorem init : Monitors [] .init .init .init where
  tracks := .init
  loopFree := .init
  flags := rfl
  inv := .init
  shadow := .empty
  lt_size e he := by cases he

theorem frames_ne_nil (hi : Monitors log d p t) : t.driver.tool.frames ≠ [] := fun h => by
  have hlen := hi.inv.frames.length_eq
  rw [h] at hlen
  exact hi.tracks.acts_ne_nil (List.length_eq_zero_iff.1 hlen.symm)

theorem clears_isSome (hi : Monitors log d p t) (h : DriverHook) : ∃ b, t.clears h = some b := by
  obtain ⟨g, gs, hg⟩ := List.exists_cons_of_ne_nil hi.frames_ne_nil
  cases h with
  | taskExit body r => exact ⟨body && (g.isLoopFrame || t.driver.tool.startNewLoop), by
      simp [RaceDetector.clears, CilkSan.handleLoop, hg]⟩
  | _ => exact ⟨_, rfl⟩

theorem traceOk {h : DriverHook} (hl : h.isLoop = false) : TraceOk p.trace h := by
  cases h with
  | afterLoop => cases hl
  | _ => trivial

/-- A hook that delimits strands. -/
theorem driverStep {h : DriverHook} (hi : Monitors log d p t) (hl : h.isLoop = false)
    (hs : p.step (.driver h) = some p') :
    ∃ t' d', t.step (.driver h) = some t' ∧ Delimited log d' p p' t t' := by
  obtain ⟨trace, ht', rfl⟩ := Option.map_eq_some_iff.1 hs
  obtain ⟨d', hd', htracks, hr⟩ := hi.tracks.step (traceOk hl) ht'
  -- The tool takes the steps of the program.
  have hprog := Trace.run_hooks hl ht'
  have hrun : { p.trace.program with log }.run h.hooks = some { trace.program with log } := by
    rw [Program.run_withLog log DriverHook.not_access_hooks, hprog]
    rfl
  have hfree : { p.trace.program with log }.LoopFree := ⟨hi.loopFree.pending, hi.loopFree.acts⟩
  obtain ⟨c, hc, hinv⟩ := hi.inv.run (hfree.runOk DriverHook.isLoop_hooks) hrun
  obtain ⟨a, as, hacts⟩ := List.exists_cons_of_ne_nil htracks.acts_ne_nil
  have hsync : c.isLocalSynced = d'.tool.isLocalSynced := by
    rw [isLocalSynced_eq hinv hacts, isLocalSynced_eq htracks.follows.inv hacts]
  have hstep := Driver.step_of_run hl hd' hi.flags.symm hc hi.frames_ne_nil hsync
  obtain ⟨b, hb⟩ := hi.clears_isSome h
  refine ⟨{ t with
      driver := ⟨c, d'.parallelExecution⟩
      shadow := if b then t.shadow.clearOccupied else t.shadow }, d',
    by
      simp only [RaceDetector.step, RaceDetector.driverStep, hb, hstep, Option.bind_eq_bind,
        Option.bind_some]
      rfl,
    ⟨htracks, hi.loopFree.run DriverHook.isLoop_hooks hprog, rfl, hinv, ?_, fun e he => ?_⟩,
    rfl, hr,
    CilkSan.log_run DriverHook.not_access_hooks DriverHook.isLoop_hooks hc, fun isRead => ?_, rfl⟩
  · cases b with
    | false => exact hi.shadow
    | true => exact hi.shadow.clearOccupied
  · exact Nat.lt_of_lt_of_le (hi.lt_size e he) hr.size_le
  · cases b with
    | false => rfl
    | true => exact SimpleShadowMem.dictionary_clearOccupied t.shadow isRead

/-- The program does something that the detector is not told of, or skips. -/
theorem add (hi : Monitors log d p t) {x : MemoryEvent}
    (hx : ∀ e, x = .access e → e.strand = p.trace.program.cur) : Monitors log d (p.add x) t := by
  refine ⟨hi.tracks, hi.loopFree, hi.flags, hi.inv, hi.shadow, fun e he => ?_⟩
  rcases List.mem_append.1 he with he | he
  · exact hi.lt_size e he
  · have hcur : e.strand = p.trace.program.cur := hx e (List.mem_singleton.1 he).symm
    rw [hcur]
    exact hi.tracks.cur_lt

theorem clear (hi : Monitors log d p t) (start size : Nat) :
    Monitors log d (p.add (.clear start size)) (t.clear start size) := by
  have hadd := hi.add (x := .clear start size) fun e he => by cases he
  exact { hadd with shadow := (RaceDetector.clear_spec hi.shadow start size).1 }

/-- The strand tells what is parallel to it in the end. -/
theorem judges {f : Strand} (hi : Monitors log d p t) (hP : p.trace.program.Reaches P)
    (hf : t.driver.tool.strand = some f) :
    Judges P p.trace.program.cur log t.driver.tool.log f := by
  intro m strand h
  obtain ⟨i, e, x, he, hx, hfunc, rfl⟩ := h
  have hcur := hi.tracks.cur_lt
  have hfree : { p.trace.program with log }.LoopFree := ⟨hi.loopFree.pending, hi.loopFree.acts⟩
  obtain ⟨x', -, hlog⟩ := hi.inv.logged (i := i) he
  have hlt : e.strand < p.trace.program.dag.size := hlog.strand
  have hnewest : p.trace.program.cur + 1 = p.trace.program.dag.size := hi.inv.program.newest
  rw [hP.parallel_eq hlt hcur, Bool.eq_iff_iff, Program.parallel_of_le (by omega) hcur]
  exact hi.inv.judges hfree hf he hx hfunc

/-- The tool can record the access. -/
theorem exists_recordAccess (hi : Monitors log d p t) (hrun : p.running) (accId : Nat) : ∃ e f tool,
    e.strand = p.trace.program.cur ∧ t.driver.tool.strand = some f ∧
    t.driver.tool.recordAccess accId = some tool ∧
      tool.log = f.access accId :: t.driver.tool.log ∧
      Inv { p.trace.program with log := e :: log } tool := by
  obtain ⟨a, as, hacts⟩ := List.exists_cons_of_ne_nil hi.tracks.acts_ne_nil
  obtain ⟨e, he⟩ : ∃ e : LoggedAccess,
      e = { strand := a.cur, ctx := p.trace.program.acts.filterMap (·.iteration),
            direct := a.iteration } := ⟨_, rfl⟩
  have hacc :
      { p.trace.program with log }.access = some { p.trace.program with log := e :: log } := by
    simp only [Program.access, hacts, he]
  obtain ⟨tool, htool, hinv⟩ : ∃ tool, t.driver.tool.recordAccess accId = some tool ∧
      Inv { p.trace.program with log := e :: log } tool := hi.inv.access hrun.2.2 hacc
  obtain ⟨f, hf⟩ := CilkSan.strand_of_recordAccess htool
  exact ⟨e, f, tool, by simp [he, Program.cur, hacts], hf, htool,
    CilkSan.recordAccess_log hf htool, hinv⟩

/-- An access that is not skipped. -/
theorem record {isRead : Bool} {accId addr memSize alignment : Nat} (hi : Monitors log d p t)
    (hrun : p.running)
    (ha : StaticallyAligned addr alignment) :
    ∃ f log' t', t.record isRead accId addr memSize alignment = some t' ∧
      Accessed log log' d p t t' f (p.op isRead accId addr memSize) alignment := by
  obtain ⟨e, f, tool, hcur, hf, htool, hlog, hinv⟩ := hi.exists_recordAccess hrun accId
  have hadd := hi.add (x := .access (p.op isRead accId addr memSize)) fun e he => by
    cases he
    rfl
  have hspec :=
    SimpleShadowMem.recordMemHelper_spec (n := memSize) f accId isRead hi.shadow ha.exists_lg
  obtain ⟨shadow, hshadow⟩ :
    ∃ m, m = (t.shadow.recordMemHelper f accId isRead addr memSize alignment).1 := ⟨_, rfl⟩
  rw [← hshadow] at hspec
  cases hasks : (LockedOp.plain isRead addr memSize alignment accId).asksForBag f t.shadow with
  | true =>
    have hbag : (if (LockedOp.plain isRead addr memSize alignment accId).asksForBag f t.shadow then
        t.driver.tool.recordAccess accId else some t.driver.tool) = some tool := by
      rw [hasks]
      exact htool
    have hrec := RaceDetector.record_eq hf hbag
    refine ⟨f, e :: log, _, hrec, ⟨?_, ha, hf, rfl, rfl, rfl, fun h => ?_, fun _ => ?_⟩⟩
    · rw [← hshadow]
      exact { hadd with inv := hinv, shadow := hspec.ok }
    · rw [hlog]
      exact h.cons _ _
    · exact ⟨0, e, f.access accId, rfl, by rw [hlog]; rfl, rfl, hcur⟩
  | false =>
    have hbag : (if (LockedOp.plain isRead addr memSize alignment accId).asksForBag f t.shadow then
        t.driver.tool.recordAccess accId else some t.driver.tool) = some t.driver.tool := by
      rw [hasks]
      rfl
    have hrec := RaceDetector.record_eq hf hbag
    refine ⟨f, log, _, hrec, ⟨?_, ha, hf, rfl, rfl, rfl, id, fun h => ?_⟩⟩
    · rw [← hshadow]
      exact { hadd with shadow := hspec.ok }
    · exact absurd (hasks.symm.trans h) (by simp)

end Monitors

end Cilksan
